import Tarracsh.PoolStructures
import Tarracsh.DescriptorParsers
import Tarracsh.ClassFileFormat

/-!
# The texts of constants

The lookups of `ConstantPool` and the helpers of `AttributesManager` that turn an
index into a text. A lookup that takes an entry for one of another kind has no result,
and neither has a descriptor whose parser does not return within `turns` turns.

The text of a `float` and of a `double` is made by the standard library; the functions
are parameters.
-/
namespace Tarracsh.ConstantTexts
open ByteStrings CountedLoops PoolStructures ClassFileParser ClassFileFormat DescriptorParsers

section Strings

def hexDigit (n : ℕ) : UInt8 := UInt8.ofNat (if n < 10 then 0x30 + n else 0x57 + n)

/-- A byte that is not printable, and the backslash and the quotes, in hexadecimal. -/
def escapeByte (c : UInt8) : Bytes :=
  if c ≤ 0x7F ∧ c ≥ 0x20 ∧ c ≠ 0x5C ∧ c ≠ 0x22 ∧ c ≠ 0x27 then [c]
  else [0x5C, 0x78, hexDigit (c.toNat / 16), hexDigit (c.toNat % 16)]

def escapeUtf8 (input : Bytes) : Bytes := input.flatMap escapeByte

/-- `stringUtils::join` on a vector. -/
def join (delim : Bytes) : List Bytes → Bytes
  | [] => []
  | part :: parts => parts.foldl (fun x y => x ++ delim ++ y) part

def argumentsToString (arguments : List Descriptor) : Bytes :=
  ascii "(" ++ join (ascii ", ") (arguments.map Descriptor.toString) ++ ascii ")"

/-- The texts `{} -> {}` of a method descriptor. -/
def MethodDescriptor.arrow (m : MethodDescriptor) : Bytes :=
  argumentsToString m.arguments ++ ascii " -> " ++ m.returnType.toString

def quoted (text : Bytes) : Bytes := ascii "\"" ++ text ++ ascii "\""

/-- The result of a run that has returned. -/
def returned? {S : Type} : Progress S → Option S
  | .returned s => some s
  | .running | .failed => none

end Strings

section Lookups
variable (pool : ConstantPool)

def getClassname (nameIndex : UInt16) : Option Bytes :=
  if nameIndex = 0 then some (ascii "<anonymous>") else pool.utf8Info nameIndex

def getClassInfoName (classInfoIndex : UInt16) : Option Bytes :=
  if classInfoIndex = 0 then some [] else (pool.classInfo classInfoIndex).bind (getClassname pool)

def getEscapedString (stringIndex : UInt16) : Option Bytes :=
  (pool.getString stringIndex).map escapeUtf8

variable (turns : ℕ)

def getTypeString (stringIndex : UInt16) : Option Bytes := do
  let type ← pool.getString stringIndex
  let descriptor ← returned? (descriptorParser turns type)
  pure descriptor.toString

variable (floatText : UInt32 → Bytes) (doubleText : UInt32 → UInt32 → Bytes)

def integerText (value : UInt32) : Bytes := ascii (toString value.toBitVec.toInt)

/-- The text of `getLongLong`. -/
def longText (highBytes lowBytes : UInt32) : Bytes :=
  ascii (toString (highBytes.toBitVec ++ lowBytes.toBitVec).toInt)

/-- The other kinds fail an assertion. -/
def getConstantValueString (constantIndex : UInt16) : Option Bytes := do
  match ← pool.getEntry constantIndex with
  | .integerInfo value => pure (integerText value)
  | .floatInfo u4Value => pure (floatText u4Value)
  | .longInfo highBytes lowBytes => pure (longText highBytes lowBytes)
  | .doubleInfo highBytes lowBytes => pure (doubleText highBytes lowBytes)
  | .utf8Info bytes => pure (quoted (escapeUtf8 bytes))
  | .stringInfo stringIndex => pool.getString stringIndex
  | .classInfo nameIndex => getClassInfoName pool nameIndex
  | _ => none

def formatClassName (classIndex : UInt16) : Option Bytes :=
  if classIndex = 0 then some (ascii "<invalid>")
  else (getClassInfoName pool classIndex).map fun name =>
    if name = [] then ascii "<class:" ++ ascii (toString classIndex.toNat) ++ ascii ">" else name

def methodDescriptorToString (descriptorIndex : UInt16) : Option Bytes := do
  let descriptorString ← pool.getString descriptorIndex
  let descriptor ← returned? (methodDescriptorParser turns descriptorString)
  pure (MethodDescriptor.arrow descriptor)

def formatNameAndType (nameAndTypeIndex : UInt16) : Option Bytes :=
  if nameAndTypeIndex = 0 then some (ascii "<none>")
  else do
    let (nameIndex, descriptorIndex) ← pool.nameAndTypeInfo nameAndTypeIndex
    let name ← pool.getString nameIndex
    let descriptorString ← pool.getString descriptorIndex
    if descriptorString.head? = some 0x28 then do
      let descriptor ← returned? (methodDescriptorParser turns descriptorString)
      pure (name ++ MethodDescriptor.arrow descriptor)
    else do
      let type ← getTypeString pool turns descriptorIndex
      pure (name ++ ascii ":" ++ type)

/-- The text of an index whose entry is of none of the kinds that were expected. -/
def indexAndTag (index : UInt16) (record : ConstantPoolRecord) : Bytes :=
  ascii "#" ++ ascii (toString index.toNat) ++ ascii "(tag=" ++
    ascii (toString (recordTag record).toByte.toNat) ++ ascii ")"

def formatMember (classIndex nameAndTypeIndex : UInt16) : Option Bytes := do
  let owner ← formatClassName pool classIndex
  let member ← formatNameAndType pool turns nameAndTypeIndex
  pure (owner ++ ascii "::" ++ member)

def formatMemberReference (memberIndex : UInt16) : Option Bytes :=
  if memberIndex = 0 then some (ascii "<none>")
  else do
    match ← pool.getEntry memberIndex with
    | .fieldrefInfo classIndex nameAndTypeIndex =>
        formatMember pool turns classIndex nameAndTypeIndex
    | .methodrefInfo classIndex nameAndTypeIndex =>
        formatMember pool turns classIndex nameAndTypeIndex
    | .interfaceMethodrefInfo classIndex nameAndTypeIndex =>
        formatMember pool turns classIndex nameAndTypeIndex
    | record => pure (indexAndTag memberIndex record)

def methodHandleKindToString (kind : UInt8) : Bytes :=
  [ascii "unknown", ascii "getField", ascii "getStatic", ascii "putField", ascii "putStatic",
    ascii "invokeVirtual", ascii "invokeStatic", ascii "invokeSpecial", ascii "newInvokeSpecial",
    ascii "invokeInterface"].getD kind.toNat (ascii "unknown")

def methodHandleToString (methodHandleIndex : UInt16) : Option Bytes :=
  if methodHandleIndex = 0 then some (ascii "<none>")
  else do
    match ← pool.getEntry methodHandleIndex with
    | .methodHandleInfo referenceKind referenceIndex => do
        let target ← formatMemberReference pool turns referenceIndex
        pure (methodHandleKindToString referenceKind ++ ascii " " ++ target)
    | record => pure (indexAndTag methodHandleIndex record)

def constantPoolIndexToString (index : UInt16) : Option Bytes :=
  if index = 0 then some (ascii "<invalid>")
  else do
    match ← pool.getEntry index with
    | .integerInfo _ | .floatInfo _ | .longInfo _ _ | .doubleInfo _ _ =>
        getConstantValueString pool floatText doubleText index
    | .stringInfo stringIndex => (getEscapedString pool stringIndex).map quoted
    | .classInfo nameIndex => formatClassName pool nameIndex
    | .utf8Info bytes => pure (escapeUtf8 bytes)
    | .nameAndTypeInfo _ _ => formatNameAndType pool turns index
    | .fieldrefInfo _ _ | .methodrefInfo _ _ | .interfaceMethodrefInfo _ _ =>
        formatMemberReference pool turns index
    | .methodHandleInfo _ _ => methodHandleToString pool turns index
    | .methodTypeInfo descriptorIndex => methodDescriptorToString pool turns descriptorIndex
    | record => pure (indexAndTag index record)

end Lookups

end Tarracsh.ConstantTexts
