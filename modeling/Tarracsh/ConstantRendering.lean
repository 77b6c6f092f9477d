import Tarracsh.ConstantTexts
import Tarracsh.DescriptorRoundTrip

/-!
# What the text of a constant is

A constant denotes what its chain of references in the pool leads to. The chain is
followed here by entries of the kinds that the format prescribes, and the texts of the
program are compared with what is found.
-/
namespace Tarracsh.ConstantRendering
open ByteStrings CountedLoops PoolStructures DescriptorParsers DescriptorRoundTrip ConstantTexts

section Formats

inductive ReferenceKind where
  | getField | getStatic | putField | putStatic
  | invokeVirtual | invokeStatic | invokeSpecial | newInvokeSpecial | invokeInterface
  deriving DecidableEq, Repr

def ReferenceKind.toByte : ReferenceKind → UInt8
  | .getField => 1
  | .getStatic => 2
  | .putField => 3
  | .putStatic => 4
  | .invokeVirtual => 5
  | .invokeStatic => 6
  | .invokeSpecial => 7
  | .newInvokeSpecial => 8
  | .invokeInterface => 9

def ReferenceKind.name : ReferenceKind → Bytes
  | .getField => ascii "getField"
  | .getStatic => ascii "getStatic"
  | .putField => ascii "putField"
  | .putStatic => ascii "putStatic"
  | .invokeVirtual => ascii "invokeVirtual"
  | .invokeStatic => ascii "invokeStatic"
  | .invokeSpecial => ascii "invokeSpecial"
  | .newInvokeSpecial => ascii "newInvokeSpecial"
  | .invokeInterface => ascii "invokeInterface"

/-- The kinds of entries that a handle may refer to. -/
def ReferenceKind.Targets : ReferenceKind → ConstantPoolRecord → Prop
  | .getField, .fieldrefInfo _ _ => True
  | .getStatic, .fieldrefInfo _ _ => True
  | .putField, .fieldrefInfo _ _ => True
  | .putStatic, .fieldrefInfo _ _ => True
  | .invokeVirtual, .methodrefInfo _ _ => True
  | .newInvokeSpecial, .methodrefInfo _ _ => True
  | .invokeStatic, .methodrefInfo _ _ => True
  | .invokeStatic, .interfaceMethodrefInfo _ _ => True
  | .invokeSpecial, .methodrefInfo _ _ => True
  | .invokeSpecial, .interfaceMethodrefInfo _ _ => True
  | .invokeInterface, .interfaceMethodrefInfo _ _ => True
  | _, _ => False

variable (pool : ConstantPool)

/-- A name and a descriptor, as their texts. -/
def Typed (nameAndTypeIndex : UInt16) (name descriptor : Bytes) : Prop :=
  ∃ nameIndex descriptorIndex,
    pool.nameAndTypeInfo nameAndTypeIndex = some (nameIndex, descriptorIndex) ∧
    pool.utf8Info nameIndex = some name ∧ pool.utf8Info descriptorIndex = some descriptor

/-- A class by its name. -/
def NamesClass (classIndex : UInt16) (name : Bytes) : Prop :=
  ∃ nameIndex, pool.classInfo classIndex = some nameIndex ∧ pool.utf8Info nameIndex = some name

/-- The references of an entry lead to entries of the kinds that the format prescribes. -/
def RecordValid : ConstantPoolRecord → Prop
  | .utf8Info bytes => bytes.length < 2 ^ 16
  | .classInfo nameIndex => ∃ name, pool.utf8Info nameIndex = some name ∧ name ≠ []
  | .stringInfo stringIndex => ∃ text, pool.utf8Info stringIndex = some text
  | .fieldrefInfo classIndex nameAndTypeIndex =>
      (∃ owner, NamesClass pool classIndex owner) ∧
      ∃ (name : Bytes) (t : TypeImage), Typed pool nameAndTypeIndex name t.encode
  | .methodrefInfo classIndex nameAndTypeIndex
  | .interfaceMethodrefInfo classIndex nameAndTypeIndex =>
      (∃ owner, NamesClass pool classIndex owner) ∧
      ∃ name arguments returnType,
        Typed pool nameAndTypeIndex name (methodText arguments returnType)
  | .methodHandleInfo referenceKind referenceIndex =>
      ∃ (kind : ReferenceKind) (target : ConstantPoolRecord), referenceKind = kind.toByte ∧
        pool.getEntry referenceIndex = some target ∧ kind.Targets target
  | .methodTypeInfo descriptorIndex =>
      ∃ arguments returnType,
        pool.utf8Info descriptorIndex = some (methodText arguments returnType)
  | _ => True

structure WellFormedPool : Prop where
  getEntry_zero : pool.getEntry 0 = none
  valid : ∀ {index record}, pool.getEntry index = some record → RecordValid pool record

/-- The kinds of constants that an instruction can load. -/
def IsLoadable : ConstantPoolRecord → Bool
  | .integerInfo _ | .floatInfo _ | .longInfo _ _ | .doubleInfo _ _ | .stringInfo _ | .classInfo _
  | .methodHandleInfo _ _ | .methodTypeInfo _ | .dynamicInfo _ _ => true
  | _ => false

end Formats

section Denotations

/-- The member that a handle stands for. -/
inductive Member where
  | field (owner name : Bytes) (type : TypeImage)
  | method (owner name : Bytes) (arguments : List TypeImage) (returnType : ReturnImage)

inductive Constant where
  | integer (value : UInt32)
  | float (bits : UInt32)
  | long (highBytes lowBytes : UInt32)
  | double (highBytes lowBytes : UInt32)
  | string (text : Bytes)
  | classConstant (name : Bytes)
  | methodHandle (kind : ReferenceKind) (target : Member)
  | methodType (arguments : List TypeImage) (returnType : ReturnImage)
  | dynamic

variable (pool : ConstantPool)

inductive MemberAt : UInt16 → Member → Prop
  | field {index classIndex nameAndTypeIndex : UInt16} {owner name : Bytes} {t : TypeImage} :
      pool.getEntry index = some (.fieldrefInfo classIndex nameAndTypeIndex) →
      NamesClass pool classIndex owner → Typed pool nameAndTypeIndex name t.encode →
      MemberAt index (.field owner name t)
  | method {index classIndex nameAndTypeIndex : UInt16} {owner name : Bytes}
      {arguments : List TypeImage} {returnType : ReturnImage} :
      (pool.getEntry index = some (.methodrefInfo classIndex nameAndTypeIndex) ∨
        pool.getEntry index = some (.interfaceMethodrefInfo classIndex nameAndTypeIndex)) →
      NamesClass pool classIndex owner →
      Typed pool nameAndTypeIndex name (methodText arguments returnType) →
      MemberAt index (.method owner name arguments returnType)

/-- The end of the chain of references that starts at an index. -/
inductive Denotes : UInt16 → Constant → Prop
  | integer {index : UInt16} {value : UInt32} :
      pool.getEntry index = some (.integerInfo value) → Denotes index (.integer value)
  | float {index : UInt16} {bits : UInt32} :
      pool.getEntry index = some (.floatInfo bits) → Denotes index (.float bits)
  | long {index : UInt16} {highBytes lowBytes : UInt32} :
      pool.getEntry index = some (.longInfo highBytes lowBytes) →
      Denotes index (.long highBytes lowBytes)
  | double {index : UInt16} {highBytes lowBytes : UInt32} :
      pool.getEntry index = some (.doubleInfo highBytes lowBytes) →
      Denotes index (.double highBytes lowBytes)
  | string {index stringIndex : UInt16} {text : Bytes} :
      pool.getEntry index = some (.stringInfo stringIndex) →
      pool.utf8Info stringIndex = some text → Denotes index (.string text)
  | classConstant {index : UInt16} {name : Bytes} :
      NamesClass pool index name → Denotes index (.classConstant name)
  | methodHandle {index referenceIndex : UInt16} {kind : ReferenceKind} {target : Member} :
      pool.getEntry index = some (.methodHandleInfo kind.toByte referenceIndex) →
      MemberAt pool referenceIndex target → Denotes index (.methodHandle kind target)
  | methodType {index descriptorIndex : UInt16} {arguments : List TypeImage}
      {returnType : ReturnImage} :
      pool.getEntry index = some (.methodTypeInfo descriptorIndex) →
      pool.utf8Info descriptorIndex = some (methodText arguments returnType) →
      Denotes index (.methodType arguments returnType)
  | dynamic {index bootstrapMethodAttrIndex nameAndTypeIndex : UInt16} :
      pool.getEntry index = some (.dynamicInfo bootstrapMethodAttrIndex nameAndTypeIndex) →
      Denotes index .dynamic

def signatureText (arguments : List TypeImage) (returnType : ReturnImage) : Bytes :=
  argumentsToString (arguments.map TypeImage.descriptor) ++ ascii " -> " ++
    returnType.descriptor.toString

def Member.text : Member → Bytes
  | .field owner name type => owner ++ ascii "::" ++ (name ++ ascii ":" ++ type.descriptor.toString)
  | .method owner name arguments returnType =>
      owner ++ ascii "::" ++ (name ++ signatureText arguments returnType)

variable (floatText : UInt32 → Bytes) (doubleText : UInt32 → UInt32 → Bytes)

/-- The text by which an attribute shows the constant. Nothing is prescribed for a
dynamically computed one. -/
def Constant.text : Constant → Option Bytes
  | .integer value => some (integerText value)
  | .float bits => some (floatText bits)
  | .long highBytes lowBytes => some (longText highBytes lowBytes)
  | .double highBytes lowBytes => some (doubleText highBytes lowBytes)
  | .string text => some (quoted (escapeUtf8 text))
  | .classConstant name => some name
  | .methodHandle kind target => some (kind.name ++ ascii " " ++ target.text)
  | .methodType arguments returnType => some (signatureText arguments returnType)
  | .dynamic => none

/-- The text of the value of the constant, for the kinds that have one. -/
def Constant.valueText : Constant → Option Bytes
  | .integer value => some (integerText value)
  | .float bits => some (floatText bits)
  | .long highBytes lowBytes => some (longText highBytes lowBytes)
  | .double highBytes lowBytes => some (doubleText highBytes lowBytes)
  | .string text => some text
  | .classConstant name => some name
  | .methodHandle _ _ | .methodType _ _ | .dynamic => none

/-- The two functions follow the chain of references to its end, by lookups of the right
kinds, and show what is found. -/
def Rendered (index : UInt16) : Prop :=
  ∃ constant, Denotes pool index constant ∧ ∀ turns ≥ 2 ^ 16,
    (constantPoolIndexToString pool turns floatText doubleText index).isSome ∧
    (∀ text ∈ constant.text floatText doubleText,
      constantPoolIndexToString pool turns floatText doubleText index = some text) ∧
    ∀ text ∈ constant.valueText floatText doubleText,
      getConstantValueString pool floatText doubleText index = some text

end Denotations

section Chains
variable {pool : ConstantPool} {turns : ℕ}

theorem utf8Info_eq {index : UInt16} {bytes : Bytes} (h : pool.utf8Info index = some bytes) :
    pool.getEntry index = some (.utf8Info bytes) := by
  unfold ConstantPool.utf8Info at h
  split at h <;> simp_all

theorem classInfo_eq {index nameIndex : UInt16} (h : pool.classInfo index = some nameIndex) :
    pool.getEntry index = some (.classInfo nameIndex) := by
  unfold ConstantPool.classInfo at h
  split at h <;> simp_all

theorem nameAndTypeInfo_eq {index nameIndex descriptorIndex : UInt16}
    (h : pool.nameAndTypeInfo index = some (nameIndex, descriptorIndex)) :
    pool.getEntry index = some (.nameAndTypeInfo nameIndex descriptorIndex) := by
  unfold ConstantPool.nameAndTypeInfo at h
  split at h <;> simp_all

/-- An entry that is not an empty slot is not the first one. -/
theorem WellFormedPool.ne_zero (h : WellFormedPool pool) {index : UInt16}
    {record : ConstantPoolRecord} (hindex : pool.getEntry index = some record) : index ≠ 0 := by
  rintro rfl
  rw [h.getEntry_zero] at hindex
  cases hindex

theorem WellFormedPool.length_lt (h : WellFormedPool pool) {index : UInt16} {bytes : Bytes}
    (hindex : pool.utf8Info index = some bytes) : bytes.length < 2 ^ 16 :=
  h.valid (utf8Info_eq hindex)

theorem WellFormedPool.name_ne_nil (h : WellFormedPool pool) {index : UInt16} {name : Bytes}
    (hindex : NamesClass pool index name) : name ≠ [] := by
  obtain ⟨nameIndex, hclass, hname⟩ := hindex
  obtain ⟨name', hname', hne⟩ := h.valid (classInfo_eq hclass)
  rw [hname] at hname'
  cases hname'
  exact hne

theorem WellFormedPool.formatClassName (h : WellFormedPool pool) {index : UInt16} {name : Bytes}
    (hindex : NamesClass pool index name) : formatClassName pool index = some name := by
  have hne := h.name_ne_nil hindex
  obtain ⟨nameIndex, hclass, hname⟩ := hindex
  have hzero := h.ne_zero (classInfo_eq hclass)
  have hname_zero := h.ne_zero (utf8Info_eq hname)
  simp [ConstantTexts.formatClassName, getClassInfoName, getClassname, hzero, hname_zero, hclass,
    hname, hne]

theorem returned_descriptor {t : TypeImage} (hlength : t.encode.length < 2 ^ 16)
    (hturns : turns ≥ 2 ^ 16) :
    returned? (descriptorParser turns t.encode) = some t.descriptor := by
  rw [descriptorParser_encode t (by omega) (by omega)]
  rfl

theorem returned_methodDescriptor {arguments : List TypeImage} {returnType : ReturnImage}
    (hlength : (methodText arguments returnType).length < 2 ^ 16) (hturns : turns ≥ 2 ^ 16) :
    returned? (methodDescriptorParser turns (methodText arguments returnType)) =
      some ⟨arguments.map TypeImage.descriptor, returnType.descriptor⟩ := by
  rw [methodDescriptorParser_methodText arguments returnType (by omega) (by omega)]
  rfl

/-- A field descriptor does not start with a parenthesis. -/
theorem TypeImage.encode_head_ne (t : TypeImage) : t.encode.head? ≠ some 0x28 := by
  rcases t with ⟨n, e, _⟩
  cases n with
  | zero =>
      cases e with
      | base b =>
          change some b.letter ≠ some 0x28
          cases b <;> decide
      | classType c =>
          intro h
          cases h
  | succ n =>
      intro h
      cases h

theorem WellFormedPool.formatNameAndType_field (h : WellFormedPool pool) (hturns : turns ≥ 2 ^ 16)
    {index : UInt16} {name : Bytes} {t : TypeImage} (htyped : Typed pool index name t.encode) :
    formatNameAndType pool turns index =
      some (name ++ ascii ":" ++ t.descriptor.toString) := by
  obtain ⟨nameIndex, descriptorIndex, hindex, hname, hdescriptor⟩ := htyped
  have hzero := h.ne_zero (nameAndTypeInfo_eq hindex)
  have hreturned := returned_descriptor (h.length_lt hdescriptor) hturns
  have htype : getTypeString pool turns descriptorIndex = some t.descriptor.toString := by
    simp [getTypeString, ConstantPool.getString, hdescriptor, hreturned]
  simp [formatNameAndType, hzero, hindex, ConstantPool.getString, hname, hdescriptor, htype,
    TypeImage.encode_head_ne t]

theorem WellFormedPool.formatNameAndType_method (h : WellFormedPool pool) (hturns : turns ≥ 2 ^ 16)
    {index : UInt16} {name : Bytes} {arguments : List TypeImage} {returnType : ReturnImage}
    (htyped : Typed pool index name (methodText arguments returnType)) :
    formatNameAndType pool turns index = some (name ++ signatureText arguments returnType) := by
  obtain ⟨nameIndex, descriptorIndex, hindex, hname, hdescriptor⟩ := htyped
  have hzero := h.ne_zero (nameAndTypeInfo_eq hindex)
  have hreturned := returned_methodDescriptor (h.length_lt hdescriptor) hturns
  have hhead : (methodText arguments returnType).head? = some 0x28 := rfl
  simp [formatNameAndType, hzero, hindex, ConstantPool.getString, hname, hdescriptor, hreturned,
    hhead, MethodDescriptor.arrow, signatureText]

theorem WellFormedPool.formatMemberReference (h : WellFormedPool pool) (hturns : turns ≥ 2 ^ 16)
    {index : UInt16} {target : Member} (hmember : MemberAt pool index target) :
    formatMemberReference pool turns index = some target.text := by
  cases hmember with
  | field hindex howner htyped =>
      simp [ConstantTexts.formatMemberReference, h.ne_zero hindex, hindex, formatMember,
        h.formatClassName howner, h.formatNameAndType_field hturns htyped, Member.text]
  | method hindex howner htyped =>
      rcases hindex with hindex | hindex
      all_goals
        simp [ConstantTexts.formatMemberReference, h.ne_zero hindex, hindex, formatMember,
          h.formatClassName howner, h.formatNameAndType_method hturns htyped, Member.text]

theorem methodHandleKindToString_toByte (kind : ReferenceKind) :
    methodHandleKindToString kind.toByte = kind.name := by
  cases kind <;> rfl

/-- Every handle of a well-formed pool has its member. -/
theorem WellFormedPool.exists_memberAt (h : WellFormedPool pool) {index : UInt16}
    {kind : ReferenceKind} {target : ConstantPoolRecord} (hindex : pool.getEntry index = some target)
    (htarget : kind.Targets target) : ∃ m, MemberAt pool index m := by
  have hvalid := h.valid hindex
  cases target with
  | fieldrefInfo classIndex nameAndTypeIndex =>
      obtain ⟨⟨owner, howner⟩, name, t, htyped⟩ := hvalid
      exact ⟨_, .field hindex howner htyped⟩
  | methodrefInfo classIndex nameAndTypeIndex =>
      obtain ⟨⟨owner, howner⟩, name, arguments, returnType, htyped⟩ := hvalid
      exact ⟨_, .method (.inl hindex) howner htyped⟩
  | interfaceMethodrefInfo classIndex nameAndTypeIndex =>
      obtain ⟨⟨owner, howner⟩, name, arguments, returnType, htyped⟩ := hvalid
      exact ⟨_, .method (.inr hindex) howner htyped⟩
  | _ => cases kind <;> exact htarget.elim

/-- Every loadable constant of a well-formed pool denotes something. -/
theorem WellFormedPool.exists_denotes (h : WellFormedPool pool) {index : UInt16}
    {record : ConstantPoolRecord} (hindex : pool.getEntry index = some record)
    (hload : IsLoadable record = true) : ∃ constant, Denotes pool index constant := by
  have hvalid := h.valid hindex
  cases record with
  | integerInfo value => exact ⟨_, .integer hindex⟩
  | floatInfo bits => exact ⟨_, .float hindex⟩
  | longInfo highBytes lowBytes => exact ⟨_, .long hindex⟩
  | doubleInfo highBytes lowBytes => exact ⟨_, .double hindex⟩
  | dynamicInfo bootstrapMethodAttrIndex nameAndTypeIndex => exact ⟨_, .dynamic hindex⟩
  | stringInfo stringIndex =>
      obtain ⟨text, htext⟩ := hvalid
      exact ⟨_, .string hindex htext⟩
  | classInfo nameIndex =>
      obtain ⟨name, hname, -⟩ := hvalid
      exact ⟨_, .classConstant ⟨nameIndex, by simp [ConstantPool.classInfo, hindex], hname⟩⟩
  | methodHandleInfo referenceKind referenceIndex =>
      obtain ⟨kind, target, rfl, htarget, hkind⟩ := hvalid
      obtain ⟨m, hm⟩ := h.exists_memberAt htarget hkind
      exact ⟨_, .methodHandle hindex hm⟩
  | methodTypeInfo descriptorIndex =>
      obtain ⟨arguments, returnType, htext⟩ := hvalid
      exact ⟨_, .methodType hindex htext⟩
  | _ => cases hload

variable (floatText : UInt32 → Bytes) (doubleText : UInt32 → UInt32 → Bytes)

/-- A constant of any kind but one is shown as what it denotes. -/
theorem WellFormedPool.shown (h : WellFormedPool pool) {index : UInt16} {constant : Constant}
    (hdenotes : Denotes pool index constant) (hclass : pool.classInfo index = none)
    (hturns : turns ≥ 2 ^ 16) :
    (constantPoolIndexToString pool turns floatText doubleText index).isSome ∧
    (∀ text ∈ constant.text floatText doubleText,
      constantPoolIndexToString pool turns floatText doubleText index = some text) ∧
    ∀ text ∈ constant.valueText floatText doubleText,
      getConstantValueString pool floatText doubleText index = some text := by
  cases hdenotes with
  | integer hindex | float hindex | long hindex | double hindex | dynamic hindex =>
      simp [constantPoolIndexToString, getConstantValueString, h.ne_zero hindex, hindex,
        Constant.text, Constant.valueText]
  | string hindex htext =>
      simp [constantPoolIndexToString, getConstantValueString, h.ne_zero hindex, hindex,
        getEscapedString, ConstantPool.getString, htext, Constant.text, Constant.valueText]
  | classConstant hnamed =>
      obtain ⟨nameIndex, hindex, -⟩ := hnamed
      simp [hclass] at hindex
  | methodHandle hindex hmember =>
      simp [constantPoolIndexToString, methodHandleToString, h.ne_zero hindex, hindex,
        h.formatMemberReference hturns hmember, methodHandleKindToString_toByte, Constant.text,
        Constant.valueText]
  | methodType hindex htext =>
      have hreturned := returned_methodDescriptor (h.length_lt htext) hturns
      simp [constantPoolIndexToString, methodDescriptorToString, h.ne_zero hindex, hindex,
        ConstantPool.getString, htext, hreturned, MethodDescriptor.arrow, signatureText,
        Constant.text, Constant.valueText]

/-- The name index of a Class constant is looked up as if it were that of another Class
constant. -/
theorem WellFormedPool.class_not_shown (h : WellFormedPool pool) (turns : ℕ)
    {index nameIndex : UInt16} (hindex : pool.getEntry index = some (.classInfo nameIndex)) :
    constantPoolIndexToString pool turns floatText doubleText index = none := by
  obtain ⟨name, hname, -⟩ := h.valid hindex
  have hentry := utf8Info_eq hname
  have hkind : pool.classInfo nameIndex = none := by simp [ConstantPool.classInfo, hentry]
  simp [constantPoolIndexToString, ConstantTexts.formatClassName, getClassInfoName,
    h.ne_zero hindex, hindex, h.ne_zero hentry, hkind]

theorem WellFormedPool.class_not_rendered (h : WellFormedPool pool) {index nameIndex : UInt16}
    (hindex : pool.getEntry index = some (.classInfo nameIndex)) :
    ¬ Rendered pool floatText doubleText index := by
  rintro ⟨constant, -, hshown⟩
  have hsome := (hshown (2 ^ 16) le_rfl).1
  rw [h.class_not_shown floatText doubleText (2 ^ 16) hindex] at hsome
  cases hsome

/-- In a well-formed pool the loadable constants that are shown as what they denote are
those that are not Class constants. -/
theorem rendered_iff (pool : ConstantPool) (h : WellFormedPool pool) (index : UInt16)
    (record : ConstantPoolRecord) (hindex : pool.getEntry index = some record)
    (hload : IsLoadable record = true) :
    Rendered pool floatText doubleText index ↔ pool.classInfo index = none := by
  constructor
  · intro hrendered
    cases hclass : pool.classInfo index with
    | none => rfl
    | some nameIndex =>
        exact absurd hrendered (h.class_not_rendered floatText doubleText (classInfo_eq hclass))
  · intro hclass
    obtain ⟨constant, hdenotes⟩ := h.exists_denotes hindex hload
    exact ⟨constant, hdenotes, fun turns hturns =>
      h.shown floatText doubleText hdenotes hclass hturns⟩

/-- A Utf8 entry with a Class and a String constant that refer to it. -/
def samplePool : ConstantPool :=
  ⟨[none, some (.utf8Info (ascii "Sample")), some (.classInfo 1), some (.stringInfo 1)]⟩

theorem getEntry_mem {index : UInt16} {record : ConstantPoolRecord}
    (h : pool.getEntry index = some record) : some record ∈ pool.constantPoolIndex :=
  List.mem_of_getElem? (Option.join_eq_some_iff.1 h)

theorem samplePool_wellFormed : WellFormedPool samplePool where
  getEntry_zero := rfl
  valid h := by
    have hmem := getEntry_mem h
    simp only [samplePool, List.mem_cons, List.not_mem_nil, or_false, reduceCtorEq, false_or,
      Option.some.injEq] at hmem
    rcases hmem with rfl | rfl | rfl
    · change (ascii "Sample").length < 2 ^ 16
      decide
    · exact ⟨ascii "Sample", rfl, by decide⟩
    · exact ⟨ascii "Sample", rfl⟩

theorem samplePool_string_rendered :
    WellFormedPool samplePool ∧
      Rendered samplePool (fun _ => []) (fun _ _ => []) 3 :=
  ⟨samplePool_wellFormed, (rendered_iff (fun _ => []) (fun _ _ => []) samplePool
    samplePool_wellFormed 3 (.stringInfo 1) rfl rfl).2 rfl⟩

/-- The Class constant of the pool is not shown as its name. -/
theorem samplePool_class_not_rendered :
    WellFormedPool samplePool ∧ samplePool.getEntry 2 = some (.classInfo 1) ∧
      Denotes samplePool 2 (.classConstant (ascii "Sample")) ∧
      getConstantValueString samplePool (fun _ => []) (fun _ _ => []) 2 = none ∧
      ¬ Rendered samplePool (fun _ => []) (fun _ _ => []) 2 :=
  ⟨samplePool_wellFormed, rfl, .classConstant ⟨1, rfl, rfl⟩, rfl,
    samplePool_wellFormed.class_not_rendered _ _ rfl⟩

end Chains

end Tarracsh.ConstantRendering
