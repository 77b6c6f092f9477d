import Tarracsh.ParsedClass
import Tarracsh.CallGraphTables

/-!
# Extraction of the nodes of a class

`ClassFileProcessor` records the declared methods and fields of a class and
then walks the constant pool. A failed assertion, an access to a pool entry of
another kind and an unresolved index have no result.
-/
namespace Tarracsh.ClassFileProcessor
open ByteStrings StringPool PoolStructures ParsedClass TableModel DomainTables CallGraphTables

section Walk
variable (p : ConstantPool)

/-- The vector size as a `u2`. -/
def getPoolSize : ℕ := p.constantPoolIndex.length % 2 ^ 16

/-- The slot at `index` holds a record. -/
def hasRecord (index : ℕ) : Bool := (p.constantPoolIndex[index]?).join.isSome

/-- The slot that `getNextIndex` goes on to: the next one that holds a record, or the end.
The `u2` of that function could wrap in a vector of 65536 slots only, and there the walk
does not begin. -/
def nextSlot (index : ℕ) : ℕ :=
  if index < p.constantPoolIndex.length then
    if index + 1 ≥ p.constantPoolIndex.length ∨ hasRecord p (index + 1) then index + 1
    else nextSlot (index + 1)
  else index
termination_by p.constantPoolIndex.length - index

theorem lt_nextSlot {index : ℕ} (h : index < p.constantPoolIndex.length) :
    index < nextSlot p index := by
  fun_induction nextSlot p index with
  | case1 index hlt hstop => omega
  | case2 index hlt hgo ih =>
      have := ih (by omega)
      omega
  | case3 index hge => omega

theorem getPoolSize_le : getPoolSize p ≤ p.constantPoolIndex.length := Nat.mod_le _ _

end Walk

/-- `getClassname`. -/
def getClassname (p : ConstantPool) (nameIndex : UInt16) : Option Bytes :=
  if nameIndex = 0 then some (ascii "<anonymous>") else p.utf8Info nameIndex

def getClassInfoName (p : ConstantPool) (classInfoIndex : UInt16) : Option Bytes :=
  if classInfoIndex = 0 then some []
  else do
    let nameIndex ← p.classInfo classInfoIndex
    getClassname p nameIndex

section Records
variable (A : ∀ α : Type, Allocator α) (rowId : ℕ) (p : ConstantPool)

/-- The body of the loop of `recordMethods`. -/
def recordMethod (db : CallGraphDb) (methodInfo : MethodInfo) : Option CallGraphDb := do
  let (db, name) ← db.getPoolString (← p.getString methodInfo.nameIndex)
  let (db, descriptor) ← db.getPoolString (← p.getString methodInfo.descriptorIndex)
  db.record A .methods
    { ownerClass := UInt64.ofNat rowId, name := name, descriptor := descriptor }

/-- The body of the loop of `recordFields`. -/
def recordField (db : CallGraphDb) (fieldInfo : FieldInfo) : Option CallGraphDb := do
  let (db, name) ← db.getPoolString (← p.getString fieldInfo.nameIndex)
  let (db, descriptor) ← db.getPoolString (← p.getString fieldInfo.descriptorIndex)
  db.record A .fields
    { ownerClass := UInt64.ofNat rowId, name := name, descriptor := descriptor }

def recordClassRef (db : CallGraphDb) (nameIndex : UInt16) : Option CallGraphDb := do
  let (db, name) ← db.getPoolString (← p.getString nameIndex)
  db.record A .classRefs { ownerClass := UInt64.ofNat rowId, name := name }

def commonRecordMethodRef (db : CallGraphDb) (classIndex nameAndTypeIndex : UInt16) :
    Option CallGraphDb := do
  let (nameIndex, descriptorIndex) ← p.nameAndTypeInfo nameAndTypeIndex
  let (db, classname) ← db.getPoolString (← getClassInfoName p classIndex)
  let (db, name) ← db.getPoolString (← p.getString nameIndex)
  let (db, descriptor) ← db.getPoolString (← p.getString descriptorIndex)
  db.record A .methodRefs
    { ownerClass := UInt64.ofNat rowId, classname := classname, name := name,
      descriptor := descriptor }

def recordFieldRef (db : CallGraphDb) (classIndex nameAndTypeIndex : UInt16) :
    Option CallGraphDb := do
  let (db, classname) ← db.getPoolString (← getClassInfoName p classIndex)
  let (nameIndex, descriptorIndex) ← p.nameAndTypeInfo nameAndTypeIndex
  let (db, name) ← db.getPoolString (← p.getString nameIndex)
  let (db, descriptor) ← db.getPoolString (← p.getString descriptorIndex)
  db.record A .fieldRefs
    { ownerClass := UInt64.ofNat rowId, classname := classname, name := name,
      descriptor := descriptor }

/-- The branches of the loop of `recordRefs`. -/
def recordEntry (db : CallGraphDb) : ConstantPoolRecord → Option CallGraphDb
  | .methodrefInfo classIndex nameAndTypeIndex =>
      commonRecordMethodRef A rowId p db classIndex nameAndTypeIndex
  | .classInfo nameIndex => recordClassRef A rowId p db nameIndex
  | .interfaceMethodrefInfo classIndex nameAndTypeIndex =>
      commonRecordMethodRef A rowId p db classIndex nameAndTypeIndex
  | .fieldrefInfo classIndex nameAndTypeIndex =>
      recordFieldRef A rowId p db classIndex nameAndTypeIndex
  | _ => some db

/-- The loop of `recordRefs` from `index` on. -/
def recordRefsFrom (index : ℕ) (db : CallGraphDb) : Option CallGraphDb :=
  if _ : index < getPoolSize p then
    match p.getEntry (UInt16.ofNat index) with
    | none => none
    | some entry =>
        match recordEntry A rowId p db entry with
        | none => none
        | some db => recordRefsFrom (nextSlot p index) db
  else some db
termination_by p.constantPoolIndex.length - index
decreasing_by
  have hlt : index < p.constantPoolIndex.length := by
    have := getPoolSize_le p
    omega
  have := lt_nextSlot p hlt
  omega

end Records

section Extract
variable (A : ∀ α : Type, Allocator α) (rowId : ℕ) (c : ClassFile)

def recordMethods (db : CallGraphDb) : Option CallGraphDb :=
  c.methods.foldlM (recordMethod A rowId c.constantPool) db

def recordFields (db : CallGraphDb) : Option CallGraphDb :=
  c.fields.foldlM (recordField A rowId c.constantPool) db

def recordRefs (db : CallGraphDb) : Option CallGraphDb :=
  recordRefsFrom A rowId c.constantPool 1 db

def extractNodes (db : CallGraphDb) : Option CallGraphDb := do
  let db ← recordMethods A rowId c db
  let db ← recordFields A rowId c db
  recordRefs A rowId c db

end Extract

end Tarracsh.ClassFileProcessor
