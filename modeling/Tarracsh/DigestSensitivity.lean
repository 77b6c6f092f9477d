import Tarracsh.DigestExactness

/-!
# Which changes of the public interface the digest sees

The public interface of a class is given by whole strings: the names of its
interfaces and the names and descriptors of its public members. The digest
reads only the first byte of interface names and descriptors. The main theorem
characterises the pairs of files on which this difference is visible.
-/
namespace Tarracsh.DigestSensitivity
open ByteStrings PoolStructures ParsedClass QueryTrees ClassFileDigest DigestView DigestExactness

/-- The whole-string identity of a member. -/
structure Signature where
  name : Bytes
  descriptor : Bytes
  accessFlags : UInt16
  deriving DecidableEq

def signature (p : ConstantPool) (m : FieldInfo) : Option Signature := do
  let name ← p.utf8Info m.nameIndex
  let descriptor ← p.utf8Info m.descriptorIndex
  pure ⟨name, descriptor, m.accessFlags⟩

def publicSignatures (p : ConstantPool) (ms : List FieldInfo) : Option (Finset Signature) :=
  gather (fun m => if isPublic m.accessFlags then (signature p m).map some else some none) ms

def interfaceNames (p : ConstantPool) (interfaces : List UInt16) : Option (Finset Bytes) :=
  gather (fun i => ((p.classInfo i).bind p.utf8Info).map some) interfaces

/-- Agreement on the strings of which the digest reads the first byte. -/
structure SameWholeStrings (b c : ClassFile) : Prop where
  interfaces : interfaceNames b.constantPool b.interfaces =
    interfaceNames c.constantPool c.interfaces
  methods : publicSignatures b.constantPool b.methods =
    publicSignatures c.constantPool c.methods
  fields : publicSignatures b.constantPool b.fields = publicSignatures c.constantPool c.fields

instance (b c : ClassFile) : Decidable (SameWholeStrings b c) :=
  decidable_of_iff (interfaceNames b.constantPool b.interfaces =
      interfaceNames c.constantPool c.interfaces ∧
    publicSignatures b.constantPool b.methods = publicSignatures c.constantPool c.methods ∧
    publicSignatures b.constantPool b.fields = publicSignatures c.constantPool c.fields)
    ⟨fun ⟨h₁, h₂, h₃⟩ => ⟨h₁, h₂, h₃⟩, fun h => ⟨h.1, h.2, h.3⟩⟩

/-- The public interface of the two files is the same. -/
structure SamePublicApi (b c : ClassFile) : Prop extends SameWholeStrings b c where
  thisClass : className b.constantPool b.mainClassInfo.thisClass =
    className c.constantPool c.mainClassInfo.thisClass
  superClass : className b.constantPool b.mainClassInfo.superClass =
    className c.constantPool c.mainClassInfo.superClass
  accessFlags : b.mainClassInfo.accessFlags = c.mainClassInfo.accessFlags

/-- Two different strings of the list share their hash. -/
def Collision (O : Bytes → Sha256) (strings : List Bytes) : Prop :=
  ∃ x ∈ strings, ∃ y ∈ strings, x ≠ y ∧ O x = O y

/-- Some string of the list hashes to zero. -/
def HashesToZero (O : Bytes → Sha256) (strings : List Bytes) : Prop :=
  ∃ x ∈ strings, O x = zeroHash

/-- For every hash function, equal digests mean a degenerate hash among the
strings hashed, or one public interface. -/
def Sensitive (b c : ClassFile) : Prop :=
  ∀ O : Bytes → Sha256, eval O (digest b) = eval O (digest c) →
    Collision O (asked O (digest b) ++ asked O (digest c)) ∨
      HashesToZero O (asked O (digest b) ++ asked O (digest c)) ∨ SamePublicApi b c

/-- The files agree once interface names and descriptors are cut to their
first byte, and differ when they are not. -/
def DifferBeyondFirstByte (b c : ClassFile) : Prop :=
  hashedView b = hashedView c ∧ ¬ SameWholeStrings b c

instance (b c : ClassFile) : Decidable (DifferBeyondFirstByte b c) :=
  inferInstanceAs (Decidable (_ ∧ _))

theorem not_separates {O : Bytes → Sha256} {strings : List Bytes}
    (h : ¬ Separates O zeroHash strings) : Collision O strings ∨ HashesToZero O strings := by
  by_contra hnot
  obtain ⟨hcollision, hzero⟩ := not_or.mp hnot
  refine h ⟨fun x hx y hy hxy => ?_, fun x hx hz => hzero ⟨x, hx, hz⟩⟩
  by_contra hne
  exact hcollision ⟨x, hx, y, hy, hne, hxy⟩

theorem separates_excludes {O : Bytes → Sha256} {strings : List Bytes}
    (h : Separates O zeroHash strings) : ¬ Collision O strings ∧ ¬ HashesToZero O strings :=
  ⟨fun ⟨x, hx, y, hy, hne, hxy⟩ => hne (h.inj x hx y hy hxy),
    fun ⟨x, hx, hz⟩ => h.avoid x hx hz⟩

section RefsValid
variable {p : ConstantPool}

theorem className_isSome {i : UInt16} (h : i = 0 ∨ IsClass p i) : (className p i).isSome := by
  unfold className
  split_ifs with hi
  · rfl
  · obtain ⟨n, hn, hutf8⟩ := h.resolve_left hi
    rw [hn, Option.bind_some, Option.isSome_map]
    exact hutf8

theorem attributeBodies_isSome {as : List AttributeInfo} (h : ∀ a ∈ as, IsUtf8 p a.nameIndex) :
    (attributeBodies p as).isSome := by
  refine gather_isSome.mpr fun a ha => ?_
  rw [attributeBody, Option.isSome_map]
  exact h a ha

theorem memberView_isSome {m : FieldInfo} (h : MemberRefsValid p m) :
    (memberView p m).isSome := by
  obtain ⟨name, hname⟩ := Option.isSome_iff_exists.mp h.name
  obtain ⟨attributes, hattributes⟩ :=
    Option.isSome_iff_exists.mp (attributeBodies_isSome h.attributes)
  obtain ⟨descriptor, hdescriptor⟩ := Option.isSome_iff_exists.mp h.descriptor
  simp [memberView, hname, hattributes, hdescriptor]

theorem publicViews_isSome {ms : List FieldInfo} (h : ∀ m ∈ ms, MemberRefsValid p m) :
    (publicViews p ms).isSome := by
  refine gather_isSome.mpr fun m hm => ?_
  unfold publicView
  split_ifs
  · rw [Option.isSome_map]
    exact memberView_isSome (h m hm)
  · rfl

theorem interfaceHeads_isSome {is : List UInt16} (h : ∀ i ∈ is, IsClass p i) :
    (interfaceHeads p is).isSome := by
  refine gather_isSome.mpr fun i hi => ?_
  obtain ⟨n, hn, hutf8⟩ := h i hi
  rw [interfaceHead, Option.isSome_map, Option.isSome_map, hn]
  exact hutf8

/-- With valid references every lookup of the digest succeeds. -/
theorem hashedView_isSome {c : ClassFile} (h : c.RefsValid) : (hashedView c).isSome := by
  obtain ⟨a₁, h₁⟩ := Option.isSome_iff_exists.mp (className_isSome (.inr h.thisClass))
  obtain ⟨a₂, h₂⟩ := Option.isSome_iff_exists.mp (className_isSome h.superClass)
  obtain ⟨a₃, h₃⟩ := Option.isSome_iff_exists.mp (attributeBodies_isSome h.attributes)
  obtain ⟨a₄, h₄⟩ := Option.isSome_iff_exists.mp (publicViews_isSome h.methods)
  obtain ⟨a₅, h₅⟩ := Option.isSome_iff_exists.mp (publicViews_isSome h.fields)
  obtain ⟨a₆, h₆⟩ := Option.isSome_iff_exists.mp (interfaceHeads_isSome h.interfaces)
  simp [hashedView, h₁, h₂, h₃, h₄, h₅, h₆]

end RefsValid

/-- One view and one set of whole strings give one public interface. -/
theorem samePublicApi_of_view_eq {b c : ClassFile} {v : HashedView} (hb : hashedView b = some v)
    (hc : hashedView c = some v) (h : SameWholeStrings b c) : SamePublicApi b c := by
  obtain ⟨b₁, b₂, -, -, -, -, b₇⟩ := hashedView_eq_some hb
  obtain ⟨c₁, c₂, -, -, -, -, c₇⟩ := hashedView_eq_some hc
  exact ⟨h, b₁.trans c₁.symm, b₂.trans c₂.symm, b₇.trans c₇.symm⟩

/-- Where two files differ only beyond a first byte, a separating hash function
gives them one digest. -/
theorem not_sensitive_of_differBeyondFirstByte {b c : ClassFile} (hb : b.Parsed) (hc : c.Parsed)
    (rb : b.RefsValid) (h : DifferBeyondFirstByte b c) : ¬ Sensitive b c := by
  intro hsensitive
  obtain ⟨hview, hwhole⟩ := h
  obtain ⟨O, hO⟩ := exists_separating_pair hb hc (hashedView_isSome rb)
  obtain ⟨hcollision, hzero⟩ := separates_excludes hO
  have heq := (digest_eq_iff_view_eq hb hc).mpr hview O
  rcases hsensitive O heq with h | h | h
  · exact hcollision h
  · exact hzero h
  · exact hwhole h.toSameWholeStrings

/-- The digest is sensitive to a pair of files exactly when they do not differ
only beyond the first byte of a descriptor or interface name. -/
theorem sensitive_iff {b c : ClassFile} (hb : b.Parsed) (hc : c.Parsed)
    (rb : b.RefsValid) (rc : c.RefsValid) :
    Sensitive b c ↔ ¬ DifferBeyondFirstByte b c := by
  obtain ⟨v, hv⟩ := Option.isSome_iff_exists.mp (hashedView_isSome rb)
  obtain ⟨w, hw⟩ := Option.isSome_iff_exists.mp (hashedView_isSome rc)
  constructor
  · exact fun h hdiffer => not_sensitive_of_differBeyondFirstByte hb hc rb hdiffer h
  · intro hsame O heq
    by_cases hsep : Separates O zeroHash (asked O (digest b) ++ asked O (digest c))
    · rw [eval_digest, eval_digest, hv, hw, Option.map_some, Option.map_some,
        Option.some.injEq] at heq
      obtain rfl := view_eq_of_digest_eq hv hw hsep heq
      have hwhole : SameWholeStrings b c := by
        by_contra hnot
        exact hsame ⟨hv.trans hw.symm, hnot⟩
      exact .inr (.inr (samePublicApi_of_view_eq hv hw hwhole))
    · exact (not_separates hsep).elim .inl fun h => .inr (.inl h)

/-- A public abstract class `A` with one public abstract method. -/
def abstractClass (name descriptor : Bytes) : ClassFile where
  constantPool := ⟨[none, some (.classInfo 3), some (.classInfo 4),
    some (.utf8Info (ascii "A")), some (.utf8Info (ascii "java/lang/Object")),
    some (.utf8Info name), some (.utf8Info descriptor)]⟩
  mainClassInfo := ⟨0x0421, 1, 2⟩
  interfaces := []
  fields := []
  methods := [⟨0x0401, 5, 6, []⟩]
  attributes := []

theorem abstractClass_parsed (name descriptor : Bytes) : (abstractClass name descriptor).Parsed :=
  ⟨by simp [abstractClass], by simp [abstractClass], by simp [abstractClass],
    by simp [abstractClass], by simp [abstractClass], by simp [abstractClass]⟩

theorem abstractClass_refsValid (name descriptor : Bytes) :
    (abstractClass name descriptor).RefsValid where
  thisClass := ⟨3, rfl, rfl⟩
  superClass := .inr ⟨4, rfl, rfl⟩
  interfaces := by simp [abstractClass]
  fields := by simp [abstractClass]
  methods m hm := by
    obtain rfl := List.mem_singleton.mp hm
    exact ⟨rfl, rfl, by simp⟩
  attributes := by simp [abstractClass]

/-- Renaming the method is seen. -/
theorem sensitive_to_method_name :
    Sensitive (abstractClass (ascii "m") (ascii "(I)V"))
      (abstractClass (ascii "n") (ascii "(I)V")) :=
  (sensitive_iff (abstractClass_parsed _ _) (abstractClass_parsed _ _)
    (abstractClass_refsValid _ _) (abstractClass_refsValid _ _)).mpr (by decide)

/-- Changing the parameter from `int` to `long` is not. -/
theorem not_sensitive_to_descriptor :
    (abstractClass (ascii "m") (ascii "(I)V")).Parsed ∧
      (abstractClass (ascii "m") (ascii "(J)V")).Parsed ∧
      (abstractClass (ascii "m") (ascii "(I)V")).RefsValid ∧
      (abstractClass (ascii "m") (ascii "(J)V")).RefsValid ∧
      ¬ Sensitive (abstractClass (ascii "m") (ascii "(I)V"))
        (abstractClass (ascii "m") (ascii "(J)V")) :=
  ⟨abstractClass_parsed _ _, abstractClass_parsed _ _, abstractClass_refsValid _ _,
    abstractClass_refsValid _ _, not_sensitive_of_differBeyondFirstByte
      (abstractClass_parsed _ _) (abstractClass_parsed _ _) (abstractClass_refsValid _ _)
      (by decide)⟩

end Tarracsh.DigestSensitivity
