import Tarracsh.ClassFileReader
import Tarracsh.ParsedClass

/-!
# The class-file parser

`ClassFileParser::processFile` reads its sections in order. The constant pool
starts with the null slot of its constructor, and the loop index and the
vector grow separately: a Long or a Double advances both by two, and the tags
`JVM_CONSTANT_Empty` and `JVM_CONSTANT_Unicode` advance the index only. A tag
that is no enumerator throws.

`parse` catches every exception and then returns false, here `none`.
-/
namespace Tarracsh.ClassFileParser
open ByteStrings QueryTrees StreamReads PoolStructures ParsedClass ClassFileReader

inductive ConstantPoolTag where
  | empty | utf8 | unicode | integer | float | long | double | «class» | string | fieldref
  | methodref | interfaceMethodref | nameAndType | methodHandle | methodType | dynamic
  | invokeDynamic | module | package
  deriving DecidableEq, Repr

namespace ConstantPoolTag

def toByte : ConstantPoolTag → UInt8
  | .empty => 0
  | .utf8 => 1
  | .unicode => 2
  | .integer => 3
  | .float => 4
  | .long => 5
  | .double => 6
  | .class => 7
  | .string => 8
  | .fieldref => 9
  | .methodref => 10
  | .interfaceMethodref => 11
  | .nameAndType => 12
  | .methodHandle => 15
  | .methodType => 16
  | .dynamic => 17
  | .invokeDynamic => 18
  | .module => 19
  | .package => 20

def all : List ConstantPoolTag :=
  [.empty, .utf8, .unicode, .integer, .float, .long, .double, .class, .string, .fieldref,
    .methodref, .interfaceMethodref, .nameAndType, .methodHandle, .methodType, .dynamic,
    .invokeDynamic, .module, .package]

/-- The enumerator a byte is cast to, if it is one. -/
def ofByte (tag : UInt8) : Option ConstantPoolTag := all.find? fun t => t.toByte == tag

theorem ofByte_toByte (t : ConstantPoolTag) : ofByte t.toByte = some t := by
  cases t <;> decide

theorem toByte_of_ofByte {tag : UInt8} {t : ConstantPoolTag} (h : ofByte tag = some t) :
    t.toByte = tag := by
  have := List.find?_some h
  simpa using this

end ConstantPoolTag

/-- The pool of the constructor: only the null slot 0. -/
def emptyPool : ConstantPool := ⟨[none]⟩

def addRecord (pool : ConstantPool) (data : ConstantPoolRecord) : ConstantPool :=
  ⟨pool.constantPoolIndex ++ [some data]⟩

def addEmptyIndex (pool : ConstantPool) : ConstantPool := ⟨pool.constantPoolIndex ++ [none]⟩

section
variable (isBigEndian : Bool)

/-- The value of a zero-filled string of `length` bytes. -/
def readString (length : UInt16) : Reads Bytes := .ask ⟨length.toNat, true, true⟩ pure

def readConstPoolEntry (index : ℕ) (pool : ConstantPool) : Reads (ℕ × ConstantPool) := do
  let tag ← readU1
  match ConstantPoolTag.ofByte tag with
  | some .utf8 => do
      let length ← readU2 isBigEndian
      let value ← readString length
      pure (index, addRecord pool (.utf8Info value))
  | some .float => do
      let value ← readU4 isBigEndian
      pure (index, addRecord pool (.floatInfo value))
  | some .integer => do
      let value ← readU4 isBigEndian
      pure (index, addRecord pool (.integerInfo value))
  | some .long => do
      let highBytes ← readU4 isBigEndian
      let lowBytes ← readU4 isBigEndian
      pure (index + 1, addEmptyIndex (addRecord pool (.longInfo highBytes lowBytes)))
  | some .double => do
      let highBytes ← readU4 isBigEndian
      let lowBytes ← readU4 isBigEndian
      pure (index + 1, addEmptyIndex (addRecord pool (.doubleInfo highBytes lowBytes)))
  | some .methodType => do
      let descriptorIndex ← readU2 isBigEndian
      pure (index, addRecord pool (.methodTypeInfo descriptorIndex))
  | some .string => do
      let stringIndex ← readU2 isBigEndian
      pure (index, addRecord pool (.stringInfo stringIndex))
  | some .class => do
      let nameIndex ← readU2 isBigEndian
      pure (index, addRecord pool (.classInfo nameIndex))
  | some .nameAndType => do
      let nameIndex ← readU2 isBigEndian
      let descriptorIndex ← readU2 isBigEndian
      pure (index, addRecord pool (.nameAndTypeInfo nameIndex descriptorIndex))
  | some .methodref => do
      let classIndex ← readU2 isBigEndian
      let nameAndTypeIndex ← readU2 isBigEndian
      pure (index, addRecord pool (.methodrefInfo classIndex nameAndTypeIndex))
  | some .fieldref => do
      let classIndex ← readU2 isBigEndian
      let nameAndTypeIndex ← readU2 isBigEndian
      pure (index, addRecord pool (.fieldrefInfo classIndex nameAndTypeIndex))
  | some .interfaceMethodref => do
      let classIndex ← readU2 isBigEndian
      let nameAndTypeIndex ← readU2 isBigEndian
      pure (index, addRecord pool (.interfaceMethodrefInfo classIndex nameAndTypeIndex))
  | some .methodHandle => do
      let referenceKind ← readU1
      let referenceIndex ← readU2 isBigEndian
      pure (index, addRecord pool (.methodHandleInfo referenceKind referenceIndex))
  | some .invokeDynamic => do
      let bootstrapMethodAttrIndex ← readU2 isBigEndian
      let nameAndTypeIndex ← readU2 isBigEndian
      pure (index, addRecord pool (.invokeDynamicInfo bootstrapMethodAttrIndex nameAndTypeIndex))
  | some .module => do
      let nameIndex ← readU2 isBigEndian
      pure (index, addRecord pool (.moduleInfo nameIndex))
  | some .unicode => pure (index, pool)
  | some .package => do
      let nameIndex ← readU2 isBigEndian
      pure (index, addRecord pool (.packageInfo nameIndex))
  | some .dynamic => do
      let bootstrapMethodAttrIndex ← readU2 isBigEndian
      let nameAndTypeIndex ← readU2 isBigEndian
      pure (index, addRecord pool (.dynamicInfo bootstrapMethodAttrIndex nameAndTypeIndex))
  | some .empty => pure (index, pool)
  | none => .stuck

/-- The loop of `readConstantsPool`. The index grows in every iteration, so
`count` iterations are always enough. -/
def readEntries (count : ℕ) : ℕ → ℕ → ConstantPool → Reads ConstantPool
  | 0, _, pool => pure pool
  | fuel + 1, index, pool =>
      if index < count then do
        let entry ← readConstPoolEntry isBigEndian index pool
        readEntries count fuel (entry.1 + 1) entry.2
      else pure pool

def readConstantsPool : Reads ConstantPool := do
  let count ← readU2 isBigEndian
  readEntries isBigEndian count.toNat count.toNat 1 emptyPool

def readMainClassInfo : Reads MainClassInfo := do
  let accessFlags ← readU2 isBigEndian
  let thisClass ← readU2 isBigEndian
  let superClass ← readU2 isBigEndian
  pure ⟨accessFlags, thisClass, superClass⟩

def readInterfaces : Reads (List UInt16) := do
  let count ← readU2 isBigEndian
  repeated count.toNat (read2 isBigEndian)

/-- The body of an attribute is read by `readBytes`, past the byte count. -/
def readInfo (length : UInt32) : Reads Bytes :=
  if 0 < length then .ask ⟨length.toNat, false, true⟩ pure else pure []

def readAttribute (owner : AttributeOwner) : Reads AttributeInfo := do
  let nameIndex ← read2 isBigEndian
  let length ← read4 isBigEndian
  let info ← readInfo length
  pure ⟨nameIndex, info, owner⟩

def readAttributesSection (count : UInt16) (owner : AttributeOwner) :
    Reads (List AttributeInfo) :=
  repeated count.toNat (readAttribute isBigEndian owner)

def readField : Reads FieldInfo := do
  let accessFlags ← read2 isBigEndian
  let nameIndex ← read2 isBigEndian
  let descriptorIndex ← read2 isBigEndian
  let attributeCount ← readU2 isBigEndian
  let attributes ← readAttributesSection isBigEndian attributeCount .field
  pure ⟨accessFlags, nameIndex, descriptorIndex, attributes⟩

def readFields : Reads (List FieldInfo) := do
  let count ← readU2 isBigEndian
  repeated count.toNat (readField isBigEndian)

def readMethod : Reads MethodInfo := do
  let accessFlags ← readU2 isBigEndian
  let nameIndex ← readU2 isBigEndian
  let descriptorIndex ← readU2 isBigEndian
  let attributeCount ← readU2 isBigEndian
  let attributes ← readAttributesSection isBigEndian attributeCount .method
  pure ⟨accessFlags, nameIndex, descriptorIndex, attributes⟩

def readMethods : Reads (List MethodInfo) := do
  let count ← readU2 isBigEndian
  repeated count.toNat (readMethod isBigEndian)

def readAttributes : Reads (List AttributeInfo) := do
  let count ← readU2 isBigEndian
  readAttributesSection isBigEndian count .classFile

/-- The sections after the constant pool. -/
def readSections (constantPool : ConstantPool) : Reads ClassFile := do
  let mainClassInfo ← readMainClassInfo isBigEndian
  let interfaces ← readInterfaces isBigEndian
  let fields ← readFields isBigEndian
  let methods ← readMethods isBigEndian
  let attributes ← readAttributes isBigEndian
  pure ⟨constantPool, mainClassInfo, interfaces, fields, methods, attributes⟩

def processFile : Reads ClassFile := do
  let constantPool ← readConstantsPool isBigEndian
  readSections isBigEndian constantPool

end

/-- The parsed structures and the stream after them when `parse()` returns true. -/
def parse (reader : Reader) : Option (ClassFile × Stream) :=
  if reader.header.isValidHeader then
    run Stream.serve (processFile reader.header.isBigEndian) reader.stream
  else none

end Tarracsh.ClassFileParser
