import Tarracsh.PoolStructures

/-!
# What a successful parse leaves in memory

The structures `ClassFileParser` fills, with the index and flag fields at
their own 16-bit width. `Parsed` records the bounds that reading every count
as a `u2` imposes on any file on which `parse()` returned true.
-/
namespace Tarracsh.ParsedClass
open ByteStrings PoolStructures

inductive AttributeOwner where
  | classFile | method | field | codeAttribute | recordComponentInfoAttribute
  deriving DecidableEq, Repr

/-- `info` was resized to the attribute's `length` before it was read. -/
structure AttributeInfo where
  nameIndex : UInt16
  info : Bytes
  owner : AttributeOwner
  deriving DecidableEq, Repr

structure FieldInfo where
  accessFlags : UInt16
  nameIndex : UInt16
  descriptorIndex : UInt16
  attributes : List AttributeInfo
  deriving DecidableEq, Repr

/-- The source declares methods with the very fields of `FieldInfo`. -/
abbrev MethodInfo := FieldInfo

structure MainClassInfo where
  accessFlags : UInt16
  thisClass : UInt16
  superClass : UInt16
  deriving DecidableEq, Repr

structure ClassFile where
  constantPool : ConstantPool
  mainClassInfo : MainClassInfo
  interfaces : List UInt16
  fields : List FieldInfo
  methods : List MethodInfo
  attributes : List AttributeInfo
  deriving DecidableEq, Repr

/-- The `CODE` attribute tag. -/
def CODE : Bytes := ascii "Code"

def JVM_ACC_PUBLIC : UInt16 := 0x0001

def isPublic (accessFlags : UInt16) : Bool := accessFlags &&& JVM_ACC_PUBLIC != 0

/-- Every list was read with a two-byte count. -/
structure ClassFile.Parsed (c : ClassFile) : Prop where
  interfaces : c.interfaces.length < 2 ^ 16
  fields : c.fields.length < 2 ^ 16
  methods : c.methods.length < 2 ^ 16
  attributes : c.attributes.length < 2 ^ 16
  fieldAttributes : ∀ f ∈ c.fields, f.attributes.length < 2 ^ 16
  methodAttributes : ∀ m ∈ c.methods, m.attributes.length < 2 ^ 16

instance (c : ClassFile) : Decidable c.Parsed :=
  decidable_of_iff (c.interfaces.length < 2 ^ 16 ∧ c.fields.length < 2 ^ 16 ∧
      c.methods.length < 2 ^ 16 ∧ c.attributes.length < 2 ^ 16 ∧
      (∀ f ∈ c.fields, f.attributes.length < 2 ^ 16) ∧
      ∀ m ∈ c.methods, m.attributes.length < 2 ^ 16)
    ⟨fun ⟨h₁, h₂, h₃, h₄, h₅, h₆⟩ => ⟨h₁, h₂, h₃, h₄, h₅, h₆⟩,
      fun h => ⟨h.1, h.2, h.3, h.4, h.5, h.6⟩⟩

/-- The entry at `index` is a Utf8. -/
def IsUtf8 (p : ConstantPool) (index : UInt16) : Prop := (p.utf8Info index).isSome

/-- The entry at `index` is a Class whose name is a Utf8. -/
def IsClass (p : ConstantPool) (index : UInt16) : Prop :=
  ∃ nameIndex, p.classInfo index = some nameIndex ∧ IsUtf8 p nameIndex

structure MemberRefsValid (p : ConstantPool) (m : FieldInfo) : Prop where
  name : IsUtf8 p m.nameIndex
  descriptor : IsUtf8 p m.descriptorIndex
  attributes : ∀ a ∈ m.attributes, IsUtf8 p a.nameIndex

/-- Every pool reference outside the attribute bodies is in range and of the
right kind. Only the super class may be absent, as index 0. -/
structure ClassFile.RefsValid (c : ClassFile) : Prop where
  thisClass : IsClass c.constantPool c.mainClassInfo.thisClass
  superClass : c.mainClassInfo.superClass = 0 ∨ IsClass c.constantPool c.mainClassInfo.superClass
  interfaces : ∀ i ∈ c.interfaces, IsClass c.constantPool i
  fields : ∀ f ∈ c.fields, MemberRefsValid c.constantPool f
  methods : ∀ m ∈ c.methods, MemberRefsValid c.constantPool m
  attributes : ∀ a ∈ c.attributes, IsUtf8 c.constantPool a.nameIndex

end Tarracsh.ParsedClass
