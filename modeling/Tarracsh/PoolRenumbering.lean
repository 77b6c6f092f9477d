import Tarracsh.ClassFileFormat
import Tarracsh.DigestExactness
import Mathlib.Logic.Equiv.Basic

/-!
# Renumbering the constant pool

A `LinkedClass` is a class file whose attribute bodies still tell pool indices
apart from other bytes. A permutation of the pool acts on every index of it.
Whatever the digest resolves through the pool is unchanged; attribute bodies
are hashed as they stand in the file, so their index bytes leak.
-/
namespace Tarracsh.PoolRenumbering
open ByteStrings PoolStructures ParsedClass ClassFileFormat QueryTrees ClassFileDigest DigestView
  DigestExactness

/-- A piece of an attribute body. One-byte indices occur in the `ldc`
instructions of Code only. -/
inductive BodyPart where
  | raw (bytes : Bytes)
  | index (i : UInt16)
  | shortIndex (i : UInt8)
  deriving DecidableEq, Repr

/-- The high byte of an index comes first. -/
def BodyPart.bytes : BodyPart → Bytes
  | .raw bytes => bytes
  | .index i => u2Bytes false i
  | .shortIndex i => [i]

structure LinkedAttribute where
  nameIndex : UInt16
  body : List BodyPart
  owner : AttributeOwner
  deriving DecidableEq, Repr

structure LinkedMember where
  accessFlags : UInt16
  nameIndex : UInt16
  descriptorIndex : UInt16
  attributes : List LinkedAttribute
  deriving DecidableEq, Repr

structure LinkedClass where
  constantPool : ConstantPool
  mainClassInfo : MainClassInfo
  interfaces : List UInt16
  fields : List LinkedMember
  methods : List LinkedMember
  attributes : List LinkedAttribute
  deriving DecidableEq, Repr

def LinkedAttribute.attributeInfo (a : LinkedAttribute) : AttributeInfo :=
  ⟨a.nameIndex, a.body.flatMap BodyPart.bytes, a.owner⟩

def LinkedMember.fieldInfo (m : LinkedMember) : FieldInfo :=
  ⟨m.accessFlags, m.nameIndex, m.descriptorIndex, m.attributes.map LinkedAttribute.attributeInfo⟩

/-- The class file that is parsed from the linked one. -/
def LinkedClass.classFile (L : LinkedClass) : ClassFile where
  constantPool := L.constantPool
  mainClassInfo := L.mainClassInfo
  interfaces := L.interfaces
  fields := L.fields.map LinkedMember.fieldInfo
  methods := L.methods.map LinkedMember.fieldInfo
  attributes := L.attributes.map LinkedAttribute.attributeInfo

/-- A permutation of the entries of a pool: slot 0 stays, the range is kept,
and the two slots of a wide entry stay together. -/
structure PoolPermutation (p : ConstantPool) where
  perm : Equiv.Perm UInt16
  zero : perm 0 = 0
  range : ∀ i, (perm i).toNat < p.constantPoolIndex.length ↔
    i.toNat < p.constantPoolIndex.length
  wide : ∀ i r, p.getEntry i = some r → isWide r → perm (i + 1) = perm i + 1

section Renumber
variable (σ : UInt16 → UInt16)

/-- Bootstrap method indices point into an attribute and not into the pool. -/
def renumberRecord : ConstantPoolRecord → ConstantPoolRecord
  | .utf8Info bytes => .utf8Info bytes
  | .integerInfo value => .integerInfo value
  | .floatInfo u4Value => .floatInfo u4Value
  | .longInfo highBytes lowBytes => .longInfo highBytes lowBytes
  | .doubleInfo highBytes lowBytes => .doubleInfo highBytes lowBytes
  | .classInfo nameIndex => .classInfo (σ nameIndex)
  | .stringInfo stringIndex => .stringInfo (σ stringIndex)
  | .fieldrefInfo classIndex nameAndTypeIndex =>
      .fieldrefInfo (σ classIndex) (σ nameAndTypeIndex)
  | .methodrefInfo classIndex nameAndTypeIndex =>
      .methodrefInfo (σ classIndex) (σ nameAndTypeIndex)
  | .interfaceMethodrefInfo classIndex nameAndTypeIndex =>
      .interfaceMethodrefInfo (σ classIndex) (σ nameAndTypeIndex)
  | .nameAndTypeInfo nameIndex descriptorIndex =>
      .nameAndTypeInfo (σ nameIndex) (σ descriptorIndex)
  | .methodHandleInfo referenceKind referenceIndex =>
      .methodHandleInfo referenceKind (σ referenceIndex)
  | .methodTypeInfo descriptorIndex => .methodTypeInfo (σ descriptorIndex)
  | .dynamicInfo bootstrapMethodAttrIndex nameAndTypeIndex =>
      .dynamicInfo bootstrapMethodAttrIndex (σ nameAndTypeIndex)
  | .invokeDynamicInfo bootstrapMethodAttrIndex nameAndTypeIndex =>
      .invokeDynamicInfo bootstrapMethodAttrIndex (σ nameAndTypeIndex)
  | .moduleInfo nameIndex => .moduleInfo (σ nameIndex)
  | .packageInfo nameIndex => .packageInfo (σ nameIndex)

def BodyPart.renumber : BodyPart → BodyPart
  | .raw bytes => .raw bytes
  | .index i => .index (σ i)
  | .shortIndex i => .shortIndex (σ i.toUInt16).toUInt8

def LinkedAttribute.renumber (a : LinkedAttribute) : LinkedAttribute :=
  ⟨σ a.nameIndex, a.body.map (BodyPart.renumber σ), a.owner⟩

def LinkedMember.renumber (m : LinkedMember) : LinkedMember :=
  ⟨m.accessFlags, σ m.nameIndex, σ m.descriptorIndex,
    m.attributes.map (LinkedAttribute.renumber σ)⟩

end Renumber

/-- Slot `j` of the new pool holds the entry that is sent there. -/
def renumberPool (p : ConstantPool) (σ : PoolPermutation p) : ConstantPool :=
  ⟨(List.range p.constantPoolIndex.length).map fun j =>
    (p.getEntry (σ.perm.symm (UInt16.ofNat j))).map (renumberRecord σ.perm)⟩

def LinkedClass.renumber (L : LinkedClass) (σ : PoolPermutation L.constantPool) :
    LinkedClass where
  constantPool := renumberPool L.constantPool σ
  mainClassInfo := ⟨L.mainClassInfo.accessFlags, σ.perm L.mainClassInfo.thisClass,
    σ.perm L.mainClassInfo.superClass⟩
  interfaces := L.interfaces.map σ.perm
  fields := L.fields.map (LinkedMember.renumber σ.perm)
  methods := L.methods.map (LinkedMember.renumber σ.perm)
  attributes := L.attributes.map (LinkedAttribute.renumber σ.perm)

section Lookup
variable {p : ConstantPool} (σ : PoolPermutation p)

theorem getEntry_renumber (i : UInt16) :
    (renumberPool p σ).getEntry (σ.perm i) = (p.getEntry i).map (renumberRecord σ.perm) := by
  by_cases hi : i.toNat < p.constantPoolIndex.length
  · have hσ := (σ.range i).mpr hi
    rw [ConstantPool.getEntry, renumberPool, List.getElem?_map,
      List.getElem?_eq_getElem (by simpa using hσ), List.getElem_range, Option.map_some,
      Option.join_some, UInt16.ofNat_toNat, Equiv.symm_apply_apply]
  · have hσ := mt (σ.range i).mp hi
    rw [ConstantPool.getEntry, ConstantPool.getEntry,
      List.getElem?_eq_none (by simpa [renumberPool] using hσ),
      List.getElem?_eq_none (by omega)]
    rfl

theorem utf8Info_renumber (i : UInt16) :
    (renumberPool p σ).utf8Info (σ.perm i) = p.utf8Info i := by
  unfold ConstantPool.utf8Info
  rw [getEntry_renumber]
  rcases p.getEntry i with _ | r
  · rfl
  · cases r <;> rfl

theorem classInfo_renumber (i : UInt16) :
    (renumberPool p σ).classInfo (σ.perm i) = (p.classInfo i).map σ.perm := by
  unfold ConstantPool.classInfo
  rw [getEntry_renumber]
  rcases p.getEntry i with _ | r
  · rfl
  · cases r <;> rfl

/-- The string a class index denotes. -/
theorem classString_renumber (i : UInt16) :
    ((renumberPool p σ).classInfo (σ.perm i)).bind (renumberPool p σ).utf8Info =
      (p.classInfo i).bind p.utf8Info := by
  rw [classInfo_renumber]
  cases p.classInfo i with
  | none => rfl
  | some n => exact utf8Info_renumber σ n

theorem className_renumber (i : UInt16) :
    className (renumberPool p σ) (σ.perm i) = className p i := by
  have hzero : σ.perm i = 0 ↔ i = 0 := by
    rw [← σ.perm.injective.eq_iff (a := i), σ.zero]
  unfold className
  rw [classString_renumber]
  simp only [hzero]

end Lookup

section Bodies
variable (p : ConstantPool)

/-- The body an attribute contributes after its index bytes went through `σ`,
with the names of the original pool. -/
def linkedBody (σ : UInt16 → UInt16) (a : LinkedAttribute) : Option (Option Bytes) :=
  (p.utf8Info a.nameIndex).map fun name =>
    let info := (a.body.map (BodyPart.renumber σ)).flatMap BodyPart.bytes
    if name = CODE then none else if info = [] then none else some info

def linkedBodies (σ : UInt16 → UInt16) (as : List LinkedAttribute) : Option (Finset Bytes) :=
  gather (linkedBody p σ) as

def linkedView (σ : UInt16 → UInt16) (m : LinkedMember) : Option MemberView := do
  let name ← p.utf8Info m.nameIndex
  let attributes ← linkedBodies p σ m.attributes
  let descriptor ← p.utf8Info m.descriptorIndex
  pure ⟨name, attributes, descriptor.headD 0, m.accessFlags⟩

/-- The public members, each with its hashed attribute bodies. -/
def linkedViews (σ : UInt16 → UInt16) (ms : List LinkedMember) : Option (Finset MemberView) :=
  gather (fun m => if isPublic m.accessFlags then (linkedView p σ m).map some else some none) ms

end Bodies

/-- The hashed view of a linked file with renumbered attribute bodies. -/
def LinkedClass.view (L : LinkedClass) (σ : UInt16 → UInt16) : Option HashedView := do
  let thisClass ← className L.constantPool L.mainClassInfo.thisClass
  let superClass ← className L.constantPool L.mainClassInfo.superClass
  let attributes ← linkedBodies L.constantPool σ L.attributes
  let methods ← linkedViews L.constantPool σ L.methods
  let fields ← linkedViews L.constantPool σ L.fields
  let interfaces ← interfaceHeads L.constantPool L.interfaces
  pure ⟨thisClass, superClass, attributes, methods, fields, interfaces,
    L.mainClassInfo.accessFlags⟩

/-- Passing the index bytes of the hashed attribute bodies through the
permutation changes neither the set of class attribute bodies nor the sets of
public members with their attribute bodies. -/
structure BodiesUnchanged (L : LinkedClass) (σ : PoolPermutation L.constantPool) : Prop where
  attributes : linkedBodies L.constantPool σ.perm L.attributes =
    linkedBodies L.constantPool id L.attributes
  methods : linkedViews L.constantPool σ.perm L.methods = linkedViews L.constantPool id L.methods
  fields : linkedViews L.constantPool σ.perm L.fields = linkedViews L.constantPool id L.fields

/-- Every reference that the digest follows is in range and of the right kind. At an entry
of another kind the code would read the bytes of its own union. -/
def Resolves (c : ClassFile) : Prop := (hashedView c).isSome

instance (c : ClassFile) : Decidable (Resolves c) := inferInstanceAs (Decidable (_ = true))

theorem BodyPart.renumber_id : BodyPart.renumber id = id := by
  funext b
  cases b with
  | raw bytes => rfl
  | index i => rfl
  | shortIndex i => simp [BodyPart.renumber]

section Views
variable (p : ConstantPool)

theorem attributeBodies_linked (as : List LinkedAttribute) :
    attributeBodies p (as.map LinkedAttribute.attributeInfo) = linkedBodies p id as := by
  rw [attributeBodies, gather_map]
  unfold linkedBodies linkedBody
  simp only [BodyPart.renumber_id, List.map_id]
  rfl

theorem publicViews_linked (ms : List LinkedMember) :
    publicViews p (ms.map LinkedMember.fieldInfo) = linkedViews p id ms := by
  rw [publicViews, gather_map]
  unfold linkedViews linkedView
  simp only [← attributeBodies_linked]
  rfl

variable {p} (σ : PoolPermutation p)

theorem attributeBodies_renumber (as : List LinkedAttribute) :
    attributeBodies (renumberPool p σ)
      ((as.map (LinkedAttribute.renumber σ.perm)).map LinkedAttribute.attributeInfo) =
      linkedBodies p σ.perm as := by
  rw [attributeBodies, List.map_map, gather_map]
  unfold linkedBodies linkedBody
  congr 1
  funext a
  exact congrArg (Option.map _) (utf8Info_renumber σ a.nameIndex)

theorem memberView_renumber (m : LinkedMember) :
    memberView (renumberPool p σ) (m.renumber σ.perm).fieldInfo = linkedView p σ.perm m := by
  unfold memberView linkedView
  rw [← attributeBodies_renumber, ← utf8Info_renumber σ m.nameIndex,
    ← utf8Info_renumber σ m.descriptorIndex]
  rfl

theorem publicViews_renumber (ms : List LinkedMember) :
    publicViews (renumberPool p σ)
      ((ms.map (LinkedMember.renumber σ.perm)).map LinkedMember.fieldInfo) =
      linkedViews p σ.perm ms := by
  rw [publicViews, List.map_map, gather_map]
  unfold linkedViews
  congr 1
  funext m
  simp only [← memberView_renumber]
  rfl

theorem interfaceHeads_renumber (is : List UInt16) :
    interfaceHeads (renumberPool p σ) (is.map σ.perm) = interfaceHeads p is := by
  rw [interfaceHeads, gather_map]
  unfold interfaceHeads
  congr 1
  funext i
  simp only [Function.comp_apply, interfaceHead, classString_renumber]

end Views

/-- Renumbering changes the view through attribute bodies and nothing else. -/
theorem hashedView_renumber (L : LinkedClass) (σ : PoolPermutation L.constantPool) :
    hashedView (L.renumber σ).classFile = L.view σ.perm := by
  rw [LinkedClass.view, ← attributeBodies_renumber, ← publicViews_renumber, ← publicViews_renumber,
    ← interfaceHeads_renumber σ, ← className_renumber σ, ← className_renumber σ]
  rfl

theorem hashedView_linked (L : LinkedClass) :
    hashedView L.classFile = L.view id := by
  rw [LinkedClass.view, ← attributeBodies_linked, ← publicViews_linked, ← publicViews_linked]
  rfl

theorem renumber_parsed {L : LinkedClass} (σ : PoolPermutation L.constantPool)
    (h : L.classFile.Parsed) : (L.renumber σ).classFile.Parsed := by
  have hmembers : ∀ {ms : List LinkedMember},
      (∀ m ∈ ms.map LinkedMember.fieldInfo, m.attributes.length < 2 ^ 16) →
      ∀ m ∈ (ms.map (LinkedMember.renumber σ.perm)).map LinkedMember.fieldInfo,
        m.attributes.length < 2 ^ 16 := by
    intro ms hms m hm
    simp only [List.map_map, List.mem_map, Function.comp_apply] at hm
    obtain ⟨n, hn, rfl⟩ := hm
    simpa [LinkedMember.fieldInfo, LinkedMember.renumber] using
      hms _ (List.mem_map_of_mem hn)
  exact ⟨by simpa [LinkedClass.classFile, LinkedClass.renumber] using h.interfaces,
    by simpa [LinkedClass.classFile, LinkedClass.renumber] using h.fields,
    by simpa [LinkedClass.classFile, LinkedClass.renumber] using h.methods,
    by simpa [LinkedClass.classFile, LinkedClass.renumber] using h.attributes,
    hmembers h.fieldAttributes, hmembers h.methodAttributes⟩

/-- Under every hash function the digest survives a renumbering exactly when the hashed
attribute bodies are unchanged. -/
theorem digest_renumber_iff {L : LinkedClass} (σ : PoolPermutation L.constantPool)
    (h : L.classFile.Parsed) (hres : Resolves L.classFile) :
    (∀ O : Bytes → Sha256,
      eval O (digest (L.renumber σ).classFile) = eval O (digest L.classFile)) ↔
      BodiesUnchanged L σ := by
  rw [digest_eq_iff_view_eq (renumber_parsed σ h) h]
  constructor
  · intro hview
    obtain ⟨v, hv⟩ := Option.isSome_iff_exists.mp hres
    obtain ⟨-, -, a₃, a₄, a₅, -, -⟩ := hashedView_eq_some (hview.trans hv)
    obtain ⟨-, -, b₃, b₄, b₅, -, -⟩ := hashedView_eq_some hv
    exact ⟨by rw [← attributeBodies_renumber, ← attributeBodies_linked]; exact a₃.trans b₃.symm,
      by rw [← publicViews_renumber, ← publicViews_linked]; exact a₄.trans b₄.symm,
      by rw [← publicViews_renumber, ← publicViews_linked]; exact a₅.trans b₅.symm⟩
  · rintro ⟨h₁, h₂, h₃⟩
    rw [hashedView_renumber, hashedView_linked, LinkedClass.view, h₁, h₂, h₃]
    rfl

/-- `public abstract class A` with a method `m()` that may declare exceptions.
Entries 2 and 3 are the classes `Object` and `IOException`. -/
def throwingClass (exceptions : List LinkedAttribute) : LinkedClass where
  constantPool := ⟨[none, some (.classInfo 4), some (.classInfo 5), some (.classInfo 6),
    some (.utf8Info (ascii "A")), some (.utf8Info (ascii "java/lang/Object")),
    some (.utf8Info (ascii "java/io/IOException")), some (.utf8Info (ascii "m")),
    some (.utf8Info (ascii "()V")), some (.utf8Info (ascii "Exceptions"))]⟩
  mainClassInfo := ⟨0x0421, 1, 2⟩
  interfaces := []
  fields := []
  methods := [⟨0x0401, 7, 8, exceptions⟩]
  attributes := []

/-- `throws IOException`: a count of one and the index of the class. -/
def throwsIOException : LinkedAttribute := ⟨9, [.raw [0, 1], .index 3], .method⟩

theorem getEntry_mem {p : ConstantPool} {i : UInt16} {r : ConstantPoolRecord}
    (h : p.getEntry i = some r) : some r ∈ p.constantPoolIndex :=
  List.mem_of_getElem? (Option.join_eq_some_iff.mp h)

/-- The two class entries change places. -/
def swapClasses (exceptions : List LinkedAttribute) :
    PoolPermutation (throwingClass exceptions).constantPool where
  perm := Equiv.swap 2 3
  zero := by decide
  range i := by
    change ((Equiv.swap 2 3) i).toNat < 10 ↔ i.toNat < 10
    rw [Equiv.swap_apply_def]
    split_ifs with h₂ h₃
    · simp [h₂]
    · simp [h₃]
    · rfl
  wide i r hr hwide := by
    have hnot : ∀ s ∈ (throwingClass exceptions).constantPool.constantPoolIndex,
        (s.map isWide).getD false = false := by
      simp [throwingClass, isWide]
    have hr' := hnot (some r) (getEntry_mem hr)
    rw [Option.map_some, Option.getD_some, hwide] at hr'
    exact absurd hr' (by decide)

theorem throwingClass_parsed (exceptions : List LinkedAttribute)
    (h : exceptions.length < 2 ^ 16) : (throwingClass exceptions).classFile.Parsed := by
  refine ⟨by simp [throwingClass, LinkedClass.classFile], by simp [throwingClass,
    LinkedClass.classFile], by simp [throwingClass, LinkedClass.classFile],
    by simp [throwingClass, LinkedClass.classFile], by simp [throwingClass,
    LinkedClass.classFile], ?_⟩
  intro m hm
  obtain rfl := List.mem_singleton.mp hm
  simpa [LinkedMember.fieldInfo] using h

/-- Without an index in a hashed body the renumbering is not seen. -/
theorem digest_renumber_without_exceptions :
    (throwingClass []).classFile.Parsed ∧ Resolves (throwingClass []).classFile ∧
      ∀ O : Bytes → Sha256,
        eval O (digest ((throwingClass []).renumber (swapClasses [])).classFile) =
          eval O (digest (throwingClass []).classFile) := by
  have hparsed := throwingClass_parsed [] (by simp)
  have hres : Resolves (throwingClass []).classFile := by decide
  exact ⟨hparsed, hres, (digest_renumber_iff (swapClasses []) hparsed hres).mpr ⟨rfl, rfl, rfl⟩⟩

/-- With `throws IOException` some hash function tells the two files apart. -/
theorem digest_renumber_exceptions_ne :
    (throwingClass [throwsIOException]).classFile.Parsed ∧
      Resolves (throwingClass [throwsIOException]).classFile ∧
      ¬ ∀ O : Bytes → Sha256,
        eval O (digest ((throwingClass [throwsIOException]).renumber
          (swapClasses [throwsIOException])).classFile) =
          eval O (digest (throwingClass [throwsIOException]).classFile) := by
  have hparsed := throwingClass_parsed [throwsIOException] (by simp)
  refine ⟨hparsed, by decide, fun h => ?_⟩
  have hview := (digest_eq_iff_view_eq (renumber_parsed _ hparsed) hparsed).mp h
  revert hview
  decide

end Tarracsh.PoolRenumbering
