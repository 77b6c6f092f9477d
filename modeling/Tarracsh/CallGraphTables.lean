import Tarracsh.DomainTables

/-!
# The call-graph database

Next to files and classfiles there are five tables of nodes, each owned by a
class. Their keys all join the strong name of the owner and the name of the
node. The three tables of edges are filled by linking and are not read or
written here.
-/
namespace Tarracsh.CallGraphTables
open ByteStrings RecordCodecs StringPool TableModel DomainTables

structure MethodCols where
  ownerClass : RefCol := 0
  accessFlags : UInt64 := 0
  name : StringCol := 0
  descriptor : StringCol := 0
  refCount : UInt64 := 0
  deriving DecidableEq, Repr

structure FieldCols where
  ownerClass : RefCol := 0
  accessFlags : UInt64 := 0
  name : StringCol := 0
  descriptor : StringCol := 0
  signature : StringCol := 0
  refCount : UInt64 := 0
  deriving DecidableEq, Repr

structure ClassRefCols where
  ownerClass : RefCol := 0
  name : StringCol := 0
  edgeCount : UInt64 := 0
  deriving DecidableEq, Repr

structure MethodRefCols where
  ownerClass : RefCol := 0
  classname : StringCol := 0
  name : StringCol := 0
  descriptor : StringCol := 0
  edgeCount : UInt64 := 0
  deriving DecidableEq, Repr

/-- The source declares field references with the very columns of method
references. -/
abbrev FieldRefCols := MethodRefCols

/-- The `ClassOwnedTable`s. -/
inductive NodeTable where
  | methods | fields | classRefs | methodRefs | fieldRefs
  deriving DecidableEq, Repr

abbrev NodeCols : NodeTable → Type
  | .methods => MethodCols
  | .fields => FieldCols
  | .classRefs => ClassRefCols
  | .methodRefs => MethodRefCols
  | .fieldRefs => FieldRefCols

namespace Methods

def codec : Codec MethodCols :=
  (Codec.uint64.prod (Codec.uint64.prod (Codec.uint64.prod
    (Codec.uint64.prod Codec.uint64)))).map
    (fun v => ⟨v.1, v.2.1, v.2.2.1, v.2.2.2.1, v.2.2.2.2⟩)
    (fun r => (r.ownerClass, r.accessFlags, r.name, r.descriptor, r.refCount)) fun _ => rfl

def columns : List Properties :=
  [.column "id" .UInt64 .AsUInt64 8,
    .foreign "ownerClass" 16 "classfiles" "classname",
    .column "name" .String .AsString 32,
    .column "descriptor" .String .AsString 40,
    .column "accessFlags" .UInt64 .AsUInt64 24,
    .column "refCount" .UInt64 .AsUInt64 48]

def format : Format MethodCols := DomainTables.format codec "methods" columns (by decide)

end Methods

namespace Fields

def codec : Codec FieldCols :=
  (Codec.uint64.prod (Codec.uint64.prod (Codec.uint64.prod
    (Codec.uint64.prod (Codec.uint64.prod Codec.uint64))))).map
    (fun v => ⟨v.1, v.2.1, v.2.2.1, v.2.2.2.1, v.2.2.2.2.1, v.2.2.2.2.2⟩)
    (fun r => (r.ownerClass, r.accessFlags, r.name, r.descriptor, r.signature, r.refCount))
    fun _ => rfl

def columns : List Properties :=
  [.column "id" .UInt64 .AsUInt64 8,
    .foreign "ownerClass" 16 "classfiles" "classname",
    .column "name" .String .AsString 32,
    .column "descriptor" .String .AsString 40,
    .column "signature" .String .AsString 48,
    .column "accessFlags" .UInt64 .AsUInt64 24,
    .column "refCount" .UInt64 .AsUInt64 56]

def format : Format FieldCols := DomainTables.format codec "fields" columns (by decide)

end Fields

namespace ClassRefs

def codec : Codec ClassRefCols :=
  (Codec.uint64.prod (Codec.uint64.prod Codec.uint64)).map
    (fun v => ⟨v.1, v.2.1, v.2.2⟩) (fun r => (r.ownerClass, r.name, r.edgeCount)) fun _ => rfl

def columns : List Properties :=
  [.column "id" .UInt64 .AsUInt64 8,
    .column "edgeCount" .UInt64 .AsUInt64 32,
    .foreign "ownerClass" 16 "classfiles" "classname",
    .column "name" .String .AsString 24]

def format : Format ClassRefCols := DomainTables.format codec "classRefs" columns (by decide)

end ClassRefs

namespace MethodRefs

def codec : Codec MethodRefCols :=
  (Codec.uint64.prod (Codec.uint64.prod (Codec.uint64.prod
    (Codec.uint64.prod Codec.uint64)))).map
    (fun v => ⟨v.1, v.2.1, v.2.2.1, v.2.2.2.1, v.2.2.2.2⟩)
    (fun r => (r.ownerClass, r.classname, r.name, r.descriptor, r.edgeCount)) fun _ => rfl

/-- The columns, with the column that the owner is displayed as. -/
def columns (displayColumn : String) : List Properties :=
  [.column "id" .UInt64 .AsUInt64 8,
    .foreign "ownerClass" 16 "classfiles" displayColumn,
    .column "classname" .String .AsString 24,
    .column "name" .String .AsString 32,
    .column "descriptor" .String .AsString 40,
    .column "edgeCount" .UInt64 .AsUInt64 48]

def format : Format MethodRefCols :=
  DomainTables.format codec "methodRefs" (columns "classname") (by simp [columns])

end MethodRefs

namespace FieldRefs

def format : Format FieldRefCols :=
  DomainTables.format MethodRefs.codec "fieldRefs" (MethodRefs.columns "ownerClass")
    (by simp [MethodRefs.columns])

end FieldRefs

namespace NodeTable

def format : ∀ i, Format (NodeCols i)
  | .methods => Methods.format
  | .fields => Fields.format
  | .classRefs => ClassRefs.format
  | .methodRefs => MethodRefs.format
  | .fieldRefs => FieldRefs.format

def ownerClass : ∀ i, NodeCols i → RefCol
  | .methods => MethodCols.ownerClass
  | .fields => FieldCols.ownerClass
  | .classRefs => ClassRefCols.ownerClass
  | .methodRefs => MethodRefCols.ownerClass
  | .fieldRefs => MethodRefCols.ownerClass

def name : ∀ i, NodeCols i → StringCol
  | .methods => MethodCols.name
  | .fields => FieldCols.name
  | .classRefs => ClassRefCols.name
  | .methodRefs => MethodRefCols.name
  | .fieldRefs => MethodRefCols.name

/-- The columns that say which node a row is. -/
def texts : ∀ i, NodeCols i → List StringCol
  | .methods => fun r => [r.name, r.descriptor]
  | .fields => fun r => [r.name, r.descriptor]
  | .classRefs => fun r => [r.name]
  | .methodRefs => fun r => [r.classname, r.name, r.descriptor]
  | .fieldRefs => fun r => [r.classname, r.name, r.descriptor]

/-- Where the name of a node stands among its texts. -/
def nameIndex : NodeTable → ℕ
  | .methods => 0
  | .fields => 0
  | .classRefs => 0
  | .methodRefs => 1
  | .fieldRefs => 1

def nameOf (i : NodeTable) (label : List Bytes) : Bytes := label.getD i.nameIndex []

end NodeTable

/-- The database while classes are analysed. -/
structure CallGraphDb where
  pool : Pool
  files : Table FileCols
  classfiles : Table ClassFileCols
  nodes : ∀ i, Table (NodeCols i)

namespace CallGraphDb

/-- `ClassFiles::getStrongClassname` of an id. -/
def getStrongClassname (db : CallGraphDb) (id : ℕ) : Bytes :=
  match db.classfiles.getRow id with
  | none => []
  | some row => ClassFiles.getStrongClassname db.pool db.files row.cols

/-- The strong name of the owner and the name of a node. -/
def strongName (db : CallGraphDb) (ownerClass : RefCol) (name : StringCol) : Bytes :=
  db.getStrongClassname ownerClass.toNat ++ ascii "#" ++ text db.pool name

end CallGraphDb

def Methods.getStrongMemberName (db : CallGraphDb) (row : MethodCols) : Bytes :=
  db.strongName row.ownerClass row.name

def Fields.getStrongMemberName (db : CallGraphDb) (row : FieldCols) : Bytes :=
  db.strongName row.ownerClass row.name

def ClassRefs.getStrongRefName (db : CallGraphDb) (row : ClassRefCols) : Bytes :=
  db.strongName row.ownerClass row.name

def MethodRefs.getStrongRefName (db : CallGraphDb) (row : MethodRefCols) : Bytes :=
  db.strongName row.ownerClass row.name

def FieldRefs.getStrongRefName (db : CallGraphDb) (row : FieldRefCols) : Bytes :=
  db.strongName row.ownerClass row.name

namespace CallGraphDb

def getKey (db : CallGraphDb) : ∀ i, NodeCols i → Bytes
  | .methods => Methods.getStrongMemberName db
  | .fields => Fields.getStrongMemberName db
  | .classRefs => ClassRefs.getStrongRefName db
  | .methodRefs => MethodRefs.getStrongRefName db
  | .fieldRefs => FieldRefs.getStrongRefName db

/-- The five keys differ in nothing but the columns they read. -/
theorem getKey_eq (db : CallGraphDb) (i : NodeTable) (r : NodeCols i) :
    db.getKey i r = db.strongName (i.ownerClass r) (i.name r) := by
  cases i <;> rfl

def layout (db : CallGraphDb) (i : NodeTable) : Layout (NodeCols i) := ⟨i.format, db.getKey i⟩

/-- What the row of a node says: its strings in the order of `texts`. -/
def label (db : CallGraphDb) (i : NodeTable) (r : NodeCols i) : List Bytes :=
  (i.texts r).map (text db.pool)

theorem nameOf_label (db : CallGraphDb) (i : NodeTable) (r : NodeCols i) :
    i.nameOf (db.label i r) = text db.pool (i.name r) := by
  cases i <;> rfl

def getPoolString (db : CallGraphDb) (value : Bytes) : Option (CallGraphDb × StringCol) := do
  let (pool, offset) ← db.pool.internalAdd value
  some ({ db with pool := pool }, UInt64.ofNat offset)

/-- `AutoIncrementedRow` starts with the largest id. -/
def newRow {α : Type} (cols : α) : Row α := ⟨0, 2 ^ 64 - 1, cols⟩

variable (A : ∀ α : Type, Allocator α)

/-- A new row for a node goes to `addOrUpdate` of its table. -/
def record (db : CallGraphDb) (i : NodeTable) (cols : NodeCols i) : Option CallGraphDb := do
  let (t, p) := (db.nodes i).allocate (A _) (newRow cols)
  let (t, _) ← t.addOrUpdate (db.layout i) (A _) p
  some { db with nodes := Function.update db.nodes i t }

/-- `CallGraphDb::create` over an empty directory. -/
def create : Option CallGraphDb := do
  let pool ← Pool.construct
  some
    { pool := pool
      files := Table.construct (Files.layout pool)
      classfiles := Table.construct ⟨ClassFiles.format, fun _ => []⟩
      nodes := fun i => Table.construct ⟨i.format, fun _ => []⟩ }

/-- The file row, then the class row, as `doClassFile` adds them for a new file.
The result is the id of the class row. -/
def addClass (db : CallGraphDb) (filename classname : Bytes) (fileRow : FileCols)
    (classRow : ClassFileCols) : Option (CallGraphDb × ℕ) := do
  let (db, filename) ← db.getPoolString filename
  let (t, p) := db.files.allocate (A _) (newRow { fileRow with filename := filename })
  let (files, readId) ← t.addOrUpdate (Files.layout db.pool) (A _) p
  let db := { db with files := files }
  let (db, classname) ← db.getPoolString classname
  let (t, p) := db.classfiles.allocate (A _)
    (newRow { classRow with file := UInt64.ofNat (readId 0), classname := classname })
  let (classfiles, classId) ← t.add (ClassFiles.layout db.pool db.files) p
  some ({ db with classfiles := classfiles }, classId)

/-- A new database with one class. -/
def createWithClass (filename classname : Bytes) (fileRow : FileCols)
    (classRow : ClassFileCols) : Option (CallGraphDb × ℕ) := do
  let db ← create
  db.addClass A filename classname fileRow classRow

end CallGraphDb

end Tarracsh.CallGraphTables
