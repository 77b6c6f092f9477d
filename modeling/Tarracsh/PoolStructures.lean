import Tarracsh.ByteStrings

/-!
# The constant pool of a parsed class file

`_constantPoolIndex` is a vector of record pointers. Slot 0 and the second
slot of every Long and Double hold a null pointer, here `none`. The union of
record structures is one constructor per tag; a typed access such as
`getEntry(i).utf8Info` is defined only at an entry of that kind, and every
other access (out of range, null slot, other kind) is `none`.
-/
namespace Tarracsh.PoolStructures
open ByteStrings

/-- The 17 record kinds that `readConstPoolEntry` stores. -/
inductive ConstantPoolRecord where
  | utf8Info (bytes : Bytes)
  | integerInfo (value : UInt32)
  | floatInfo (u4Value : UInt32)
  | longInfo (highBytes lowBytes : UInt32)
  | doubleInfo (highBytes lowBytes : UInt32)
  | classInfo (nameIndex : UInt16)
  | stringInfo (stringIndex : UInt16)
  | fieldrefInfo (classIndex nameAndTypeIndex : UInt16)
  | methodrefInfo (classIndex nameAndTypeIndex : UInt16)
  | interfaceMethodrefInfo (classIndex nameAndTypeIndex : UInt16)
  | nameAndTypeInfo (nameIndex descriptorIndex : UInt16)
  | methodHandleInfo (referenceKind : UInt8) (referenceIndex : UInt16)
  | methodTypeInfo (descriptorIndex : UInt16)
  | dynamicInfo (bootstrapMethodAttrIndex nameAndTypeIndex : UInt16)
  | invokeDynamicInfo (bootstrapMethodAttrIndex nameAndTypeIndex : UInt16)
  | moduleInfo (nameIndex : UInt16)
  | packageInfo (nameIndex : UInt16)
  deriving DecidableEq, Repr

structure ConstantPool where
  constantPoolIndex : List (Option ConstantPoolRecord)
  deriving DecidableEq, Repr

namespace ConstantPool

/-- The asserted and dereferenced slot. -/
def getEntry (p : ConstantPool) (index : UInt16) : Option ConstantPoolRecord :=
  (p.constantPoolIndex[index.toNat]?).join

def utf8Info (p : ConstantPool) (index : UInt16) : Option Bytes :=
  match p.getEntry index with
  | some (.utf8Info bytes) => some bytes
  | _ => none

/-- The `nameIndex` of a Class entry. -/
def classInfo (p : ConstantPool) (index : UInt16) : Option UInt16 :=
  match p.getEntry index with
  | some (.classInfo nameIndex) => some nameIndex
  | _ => none

/-- The name and descriptor indices of a NameAndType entry. -/
def nameAndTypeInfo (p : ConstantPool) (index : UInt16) : Option (UInt16 × UInt16) :=
  match p.getEntry index with
  | some (.nameAndTypeInfo nameIndex descriptorIndex) => some (nameIndex, descriptorIndex)
  | _ => none

/-- `getAsUtf8` copies the `length` bytes of the entry. -/
def getString (p : ConstantPool) (stringIndex : UInt16) : Option Bytes :=
  p.utf8Info stringIndex

end ConstantPool

end Tarracsh.PoolStructures
