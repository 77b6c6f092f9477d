import Tarracsh.ParsedClass
import Tarracsh.ClassFileProcessor
import Tarracsh.MapComparison
import Mathlib.Data.Finset.Basic

/-!
# Comparing two class files

`ClassfileDiffApp::compare` over the two parsed files, without its messages. The
counter `_differenceCount` is an `unsigned int`; it is only added to, saved and put
back, so it is kept as a number here and taken modulo `2 ^ 32` at the end. The counter
of one attribute list stays below `2 ^ 16`, as the list was read with a two-byte count.
The maps of the source have no order, and none of the walks over them depends on one. A
reference into the pool that is not valid stands for the empty text.
-/
namespace Tarracsh.ClassfileDiff
open ByteStrings PoolStructures ParsedClass ClassFileProcessor MapComparison

/-- The options of the command line. -/
structure Options where
  ignoreClassname : Bool
  publicOnly : Bool
  ignoredAttributes : Finset Bytes

def getString (p : ConstantPool) (constantPoolIndex : UInt16) : Bytes :=
  (p.getString constantPoolIndex).getD []

def classInfoName (p : ConstantPool) (classInfoIndex : UInt16) : Bytes :=
  (getClassInfoName p classInfoIndex).getD []

abbrev Map (V : Type) := AList fun _ : Bytes => V

/-- `map[name(item)] = item` for every item. -/
def toMap {V : Type} (name : V → Bytes) (items : List V) : Map V :=
  items.foldl (fun map item => map.insert (name item) item) ∅

variable (o : Options) (left right : ClassFile)

def compareSuperClass (count : ℕ) : ℕ :=
  if classInfoName left.constantPool left.mainClassInfo.superClass =
      classInfoName right.constantPool right.mainClassInfo.superClass then count
  else count + 1

def compareAccessFlags (accessFlagsLeft accessFlagsRight : UInt16) (count : ℕ) : Bool × ℕ :=
  if accessFlagsLeft = accessFlagsRight then (true, count) else (false, count + 1)

def compareMainClassAccessFlags (count : ℕ) : ℕ :=
  (compareAccessFlags left.mainClassInfo.accessFlags right.mainClassInfo.accessFlags count).2

def compareMainClassname (count : ℕ) : ℕ :=
  if o.ignoreClassname then count
  else if classInfoName left.constantPool left.mainClassInfo.thisClass ≠
      classInfoName right.constantPool right.mainClassInfo.thisClass then count + 1
  else count

def compareMainClassInterfaces (count : ℕ) : ℕ :=
  compareMaps (fun _ _ _ count => (none, count)) (fun _ _ count => count + 1)
    (fun _ _ count => count + 1)
    (toMap (classInfoName left.constantPool) left.interfaces)
    (toMap (classInfoName right.constantPool) right.interfaces) count

/-- The loops of `compareAttributes` with their own counter. An ignored name stays in
the right map, and a name that is missing in right is not counted. -/
def attributeDifferences (leftAttributes rightAttributes : List AttributeInfo) : ℕ :=
  compareMaps
    (fun attributeName leftAttributeInfo rightAttributeInfo differences =>
      if attributeName ∈ o.ignoredAttributes then (some rightAttributeInfo, differences)
      else if leftAttributeInfo.info = rightAttributeInfo.info then (none, differences)
      else (none, differences + 1))
    (fun _ _ differences => differences)
    (fun attributeName _ differences =>
      if attributeName ∈ o.ignoredAttributes then differences else differences + 1)
    (toMap (fun a => getString left.constantPool a.nameIndex) leftAttributes)
    (toMap (fun a => getString right.constantPool a.nameIndex) rightAttributes) 0

def compareAttributes (leftAttributes rightAttributes : List AttributeInfo) (count : ℕ) :
    Bool × ℕ :=
  let differences := attributeDifferences o left right leftAttributes rightAttributes
  (differences == 0, count + differences)

def compareMainClassAttributes (count : ℕ) : ℕ :=
  (compareAttributes o left right left.attributes right.attributes count).2

def compareMainClass (count : ℕ) : ℕ :=
  let count := compareMainClassname o left right count
  let count := compareSuperClass left right count
  let count := compareMainClassAccessFlags left right count
  let count := compareMainClassInterfaces left right count
  compareMainClassAttributes o left right count

def compareDescriptors (leftIndex rightIndex : UInt16) (count : ℕ) : Bool × ℕ :=
  if getString left.constantPool leftIndex = getString right.constantPool rightIndex then
    (true, count)
  else (false, count + 1)

/-- The three comparisons of two methods, which `compareFields` makes of two fields. -/
def compareMember (leftMember rightMember : FieldInfo) (count : ℕ) : Bool × ℕ :=
  let (flags, count) := compareAccessFlags leftMember.accessFlags rightMember.accessFlags count
  let (descriptors, count) :=
    compareDescriptors left right leftMember.descriptorIndex rightMember.descriptorIndex count
  let (attributes, count) :=
    compareAttributes o left right leftMember.attributes rightMember.attributes count
  (attributes && (descriptors && flags), count)

def areMethodsEqual (leftMethod rightMethod : MethodInfo) (count : ℕ) : Bool × ℕ :=
  compareMember o left right leftMethod rightMethod count

/-- The loop of `compareToRightMethods`, with the index of the match. -/
def findMatch (leftMethod : MethodInfo) : List MethodInfo → ℕ → Option ℕ × ℕ
  | [], count => (none, count)
  | rightMethod :: rightMethods, count =>
      let (equal, count) := areMethodsEqual o left right leftMethod rightMethod count
      if equal then (some 0, count)
      else
        let (found, count) := findMatch leftMethod rightMethods count
        (found.map (· + 1), count)

/-- A match takes the count back to what it was. -/
def compareToRightMethods (leftMethod : MethodInfo) (rightMethods : List MethodInfo)
    (count : ℕ) : List MethodInfo × ℕ :=
  let prevDifferenceCount := count
  match findMatch o left right leftMethod rightMethods count with
  | (some rightIndex, _) => (rightMethods.eraseIdx rightIndex, prevDifferenceCount)
  | (none, count) => (rightMethods, count)

/-- The methods of one name. The loop ends when all right methods are taken. -/
def compareOverloads : List MethodInfo → List MethodInfo → ℕ → List MethodInfo × ℕ
  | [], rightMethods, count => (rightMethods, count)
  | leftMethod :: leftMethods, rightMethods, count =>
      let (rightMethods, count) := compareToRightMethods o left right leftMethod rightMethods count
      if rightMethods.isEmpty then (rightMethods, count)
      else compareOverloads leftMethods rightMethods count

def isConsidered (member : FieldInfo) : Bool := !o.publicOnly || isPublic member.accessFlags

/-- `methodMap[name].push_back(methodInfo)` for every method that is considered. -/
def extractMethods (c : ClassFile) : Map (List MethodInfo) :=
  (c.methods.filter (isConsidered o)).foldl (fun methodMap methodInfo =>
    let name := getString c.constantPool methodInfo.nameIndex
    methodMap.insert name ((methodMap.lookup name).getD [] ++ [methodInfo])) ∅

/-- An entry whose methods are all taken is erased. -/
def compareMethods (count : ℕ) : ℕ :=
  compareMaps
    (fun _ leftMethods rightMethods count =>
      let (rightMethods, count) := compareOverloads o left right leftMethods rightMethods count
      (if rightMethods.isEmpty then none else some rightMethods, count))
    (fun _ leftMethods count => count + leftMethods.length)
    (fun _ rightMethods count => count + rightMethods.length)
    (extractMethods o left) (extractMethods o right) count

def compareFields (count : ℕ) : ℕ :=
  compareMaps
    (fun _ leftFieldInfo rightFieldInfo count =>
      (none, (compareMember o left right leftFieldInfo rightFieldInfo count).2))
    (fun _ _ count => count + 1)
    (fun _ _ count => count + 1)
    (toMap (fun f => getString left.constantPool f.nameIndex)
      (left.fields.filter (isConsidered o)))
    (toMap (fun f => getString right.constantPool f.nameIndex)
      (right.fields.filter (isConsidered o))) count

def compareMembers (count : ℕ) : ℕ :=
  compareFields o left right (compareMethods o left right count)

def compare (count : ℕ) : ℕ := compareMembers o left right (compareMainClass o left right count)

/-- `_differenceCount` after `compare`. -/
def differenceCount : UInt32 := UInt32.ofNat (compare o left right 0)

end Tarracsh.ClassfileDiff
