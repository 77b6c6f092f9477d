import Tarracsh.DigestView
import Mathlib.Data.Fintype.BigOperators
import Mathlib.Data.FinEnum

/-!
# The digest separates exactly the hashed views

Two runs whose questions are separated have one digest only for one view. Every
parsed file asks at most 2^36 questions, against 2^256 possible hashes, so
a separating hash function exists for every pair of parsed files.
-/
namespace Tarracsh.DigestExactness
open ByteStrings PoolStructures ParsedClass QueryTrees ClassFileDigest DigestView

/-- The questions of a digest include those of each of its parts. -/
theorem asked_parts (O : Bytes → Sha256) {c : ClassFile} {v : HashedView}
    (h : hashedView c = some v) :
    asked O (digestClassInfo c.constantPool c.mainClassInfo.thisClass) ⊆ asked O (digest c) ∧
      asked O (digestClassInfo c.constantPool c.mainClassInfo.superClass) ⊆ asked O (digest c) ∧
      asked O (digestAttributes c.constantPool c.attributes) ⊆ asked O (digest c) ∧
      asked O (digestPublicMethods c.constantPool c.methods) ⊆ asked O (digest c) ∧
      asked O (digestPublicFields c.constantPool c.fields) ⊆ asked O (digest c) ∧
      asked O (digestInterfaces c.constantPool c.interfaces) ⊆ asked O (digest c) ∧
      viewBuffer O v ∈ asked O (digest c) := by
  obtain ⟨h₁, h₂, h₃, h₄, h₅, h₆, h₇⟩ := hashedView_eq_some h
  have e₁ := reads_classInfo.eval_some O (x := (_, _)) h₁
  have e₂ := reads_classInfo.eval_some O (x := (_, _)) h₂
  have e₃ := reads_attributes.eval_some O (x := (_, _)) h₃
  have e₄ := reads_methods.eval_some O (x := (_, _)) h₄
  have e₅ := reads_fields.eval_some O (x := (_, _)) h₅
  have e₆ := reads_interfaces.eval_some O (x := (_, _)) h₆
  have hall : asked O (digest c) =
      asked O (digestClassInfo c.constantPool c.mainClassInfo.thisClass) ++
      (asked O (digestClassInfo c.constantPool c.mainClassInfo.superClass) ++
      (asked O (digestAttributes c.constantPool c.attributes) ++
      (asked O (digestPublicMethods c.constantPool c.methods) ++
      (asked O (digestPublicFields c.constantPool c.fields) ++
      (asked O (digestInterfaces c.constantPool c.interfaces) ++ [viewBuffer O v]))))) := by
    simp only [digest, asked_bind, e₁, e₂, e₃, e₄, e₅, e₆, Option.elim_some, h₇]
    rfl
  rw [hall]
  refine ⟨?_, ?_, ?_, ?_, ?_, ?_, by simp⟩ <;> intro s hs <;>
    simp only [List.mem_append, hs, true_or, or_true]

theorem viewBuffer_parts {O : Bytes → Sha256} {v w : HashedView}
    (h : viewBuffer O v = viewBuffer O w) :
    classDigest O v.thisClass = classDigest O w.thisClass ∧
      classDigest O v.superClass = classDigest O w.superClass ∧
      attributesDigest O v.attributes = attributesDigest O w.attributes ∧
      methodsDigest O v.methods = methodsDigest O w.methods ∧
      fieldsDigest O v.fields = fieldsDigest O w.fields ∧
      interfacesDigest O v.interfaces = interfacesDigest O w.interfaces ∧
      v.accessFlags = w.accessFlags := by
  obtain ⟨h, h₇⟩ := List.append_inj' h (by simp)
  obtain ⟨h, h₆⟩ := List.append_inj' h (by simp only [reads_interfaces.length_eq])
  obtain ⟨h, h₅⟩ := List.append_inj' h (by simp only [reads_fields.length_eq])
  obtain ⟨h, h₄⟩ := List.append_inj' h (by simp only [reads_methods.length_eq])
  obtain ⟨h, h₃⟩ := List.append_inj' h (by simp only [reads_attributes.length_eq])
  obtain ⟨h₁, h₂⟩ := List.append_inj' h (by simp only [reads_classInfo.length_eq])
  exact ⟨h₁, h₂, h₃, h₄, h₅, h₆, littleEndian16_injective h₇⟩

/-- Separated questions and one digest force one view. -/
theorem view_eq_of_digest_eq {O : Bytes → Sha256} {b c : ClassFile} {v w : HashedView}
    (hv : hashedView b = some v) (hw : hashedView c = some w)
    (hsep : Separates O zeroHash (asked O (digest b) ++ asked O (digest c)))
    (h : padded (O (viewBuffer O v)) = padded (O (viewBuffer O w))) : v = w := by
  obtain ⟨b₁, b₂, b₃, b₄, b₅, b₆, b₇⟩ := asked_parts O hv
  obtain ⟨c₁, c₂, c₃, c₄, c₅, c₆, c₇⟩ := asked_parts O hw
  obtain ⟨v₁, v₂, v₃, v₄, v₅, v₆, -⟩ := hashedView_eq_some hv
  obtain ⟨w₁, w₂, w₃, w₄, w₅, w₆, -⟩ := hashedView_eq_some hw
  obtain ⟨h₁, h₂, h₃, h₄, h₅, h₆, h₇⟩ := viewBuffer_parts (hsep.inj _ (by simp [b₇]) _
    (by simp [c₇]) (padded_injective h))
  have e₁ := reads_classInfo.inj (x := (_, _)) (y := (_, _)) v₁ w₁ (hsep.append_subset b₁ c₁) h₁
  have e₂ := reads_classInfo.inj (x := (_, _)) (y := (_, _)) v₂ w₂ (hsep.append_subset b₂ c₂) h₂
  have e₃ := reads_attributes.inj (x := (_, _)) (y := (_, _)) v₃ w₃ (hsep.append_subset b₃ c₃) h₃
  have e₄ := reads_methods.inj (x := (_, _)) (y := (_, _)) v₄ w₄ (hsep.append_subset b₄ c₄) h₄
  have e₅ := reads_fields.inj (x := (_, _)) (y := (_, _)) v₅ w₅ (hsep.append_subset b₅ c₅) h₅
  have e₆ := reads_interfaces.inj (x := (_, _)) (y := (_, _)) v₆ w₆ (hsep.append_subset b₆ c₆) h₆
  cases v
  cases w
  simp_all

section Bounds

theorem digestBytes_within (bytes : Bytes) : Within 1 (digestBytes bytes) := fun _ => le_rfl

theorem digestBuffer_within (buffer : Bytes) : Within 1 (digestBuffer buffer) := by
  unfold digestBuffer
  split
  · exact within_pure _ _
  · exact digestBytes_within _

theorem digestSet_within (digests : Finset DigestVector) : Within 1 (digestSet digests) := by
  unfold digestSet
  split
  · exact within_pure _ _
  · exact digestBuffer_within _

theorem digestUtf8Entry_within (p : ConstantPool) (i : UInt16) :
    Within 1 (digestUtf8Entry p i) :=
  within_bind (within_lift 0 _) digestBytes_within

theorem digestClassInfo_within (p : ConstantPool) (i : UInt16) :
    Within 1 (digestClassInfo p i) := by
  unfold digestClassInfo
  split
  · exact within_pure _ _
  · exact within_bind (within_lift 0 _) (digestUtf8Entry_within p)

theorem attributeStep_within (p : ConstantPool) (a : AttributeInfo) :
    Within 1 (attributeStep p a) := by
  refine within_mono (within_bind (n := 1) (within_lift 0 _) fun name => ?_) (by norm_num)
  split_ifs
  · exact within_pure _ _
  · exact within_pure _ _
  · exact within_bind (digestBuffer_within _) fun _ => within_pure 0 _

/-- Hashing a loop of at most `k` members of `n` questions each. -/
theorem loop_within {B : Type} {f : B → Hashing (Option DigestVector)} {bs : List B} {k n : ℕ}
    (hk : bs.length ≤ k) (hf : ∀ b ∈ bs, Within n (f b)) :
    Within (k * n + 1) (do let digests ← collect f bs ∅; digestSet digests) :=
  within_bind (within_mono (within_collect hf ∅) (Nat.mul_le_mul_right n hk)) digestSet_within

theorem digestAttributes_within (p : ConstantPool) {as : List AttributeInfo}
    (h : as.length < 2 ^ 16) : Within (2 ^ 16) (digestAttributes p as) := by
  refine within_mono (loop_within (k := 2 ^ 16 - 1) (by omega)
    fun a _ => attributeStep_within p a) ?_
  norm_num

theorem digestMethod_within (p : ConstantPool) {m : MethodInfo}
    (h : m.attributes.length < 2 ^ 16) : Within (2 ^ 18) (digestMethod p m) := by
  refine within_mono (within_bind (digestUtf8Entry_within p _) fun name =>
    within_bind (digestAttributes_within p h) fun attributes =>
    within_bind (within_lift 0 _) fun descriptor => digestBuffer_within _) ?_
  norm_num

theorem digestField_within (p : ConstantPool) {f : FieldInfo}
    (h : f.attributes.length < 2 ^ 16) : Within (2 ^ 18) (digestField p f) := by
  refine within_mono (within_bind (digestUtf8Entry_within p _) fun name =>
    within_bind (digestAttributes_within p h) fun attributes =>
    within_bind (digestAttributes_within p h) fun attributesAgain =>
    within_bind (within_lift 0 _) fun descriptor => digestBuffer_within _) ?_
  norm_num

theorem publicStep_within {T : FieldInfo → Hashing DigestVector} {m : FieldInfo} {n : ℕ}
    (h : Within n (T m)) : Within n (publicStep T m) := by
  unfold publicStep
  split
  · exact within_bind h fun d => within_pure 0 _
  · exact within_pure _ _

theorem interfaceStep_within (p : ConstantPool) (i : UInt16) : Within 1 (interfaceStep p i) :=
  within_bind (within_bind (within_lift 0 _) fun _ =>
    within_bind (within_lift 0 _) fun _ => digestBuffer_within _) fun _ => within_pure 0 _

/-- The whole digest of a parsed file. -/
theorem digest_within {c : ClassFile} (h : c.Parsed) : Within (2 ^ 36) (digest c) := by
  have hm := loop_within (k := 2 ^ 16) (n := 2 ^ 18) h.methods.le
    fun m hm => publicStep_within (digestMethod_within c.constantPool (h.methodAttributes m hm))
  have hf := loop_within (k := 2 ^ 16) (n := 2 ^ 18) h.fields.le
    fun f hf => publicStep_within (digestField_within c.constantPool (h.fieldAttributes f hf))
  have hi := loop_within (k := 2 ^ 16) h.interfaces.le
    fun i _ => interfaceStep_within c.constantPool i
  refine within_mono (within_bind (digestClassInfo_within _ _) fun thisClass =>
    within_bind (digestClassInfo_within _ _) fun superClass =>
    within_bind (digestAttributes_within _ h.attributes) fun attributes =>
    within_bind hm fun methods => within_bind hf fun fields =>
    within_bind hi fun interfaces => digestBytes_within _) ?_
  norm_num

end Bounds

theorem card_uint8 : Fintype.card UInt8 = 256 := by
  have h : Fintype.card UInt8 = Fintype.card (Fin 256) :=
    Fintype.card_eq.mpr ⟨⟨UInt8.toFin, UInt8.ofFin, fun _ => rfl, fun _ => rfl⟩⟩
  rw [h, Fintype.card_fin]

theorem card_sha256 : Fintype.card Sha256 = 256 ^ 32 := by
  rw [card_vector, card_uint8]

/-- For two parsed files some hash function separates all strings that their
two digests hash. -/
theorem exists_separating_pair {b c : ClassFile} (hb : b.Parsed) (hc : c.Parsed)
    (hv : (hashedView b).isSome) :
    ∃ O : Bytes → Sha256, Separates O zeroHash (asked O (digest b) ++ asked O (digest c)) := by
  obtain ⟨v, hv⟩ := Option.isSome_iff_exists.mp hv
  obtain ⟨O, hO⟩ := exists_separating zeroHash
    (within_bind (digest_within hb) fun _ => digest_within hc) (by rw [card_sha256]; norm_num)
  refine ⟨O, ?_⟩
  rwa [asked_bind, eval_digest, hv] at hO

/-- Equality of digests under every hash function is equality of views. -/
theorem digest_eq_iff_view_eq {b c : ClassFile} (hb : b.Parsed) (hc : c.Parsed) :
    (∀ O : Bytes → Sha256, eval O (digest b) = eval O (digest c)) ↔
      hashedView b = hashedView c := by
  constructor
  · intro h
    have hnone : (hashedView b).isSome = (hashedView c).isSome := by
      have h₀ := congrArg Option.isSome (h fun _ => zeroHash)
      simpa only [eval_digest, Option.isSome_map] using h₀
    cases hv : hashedView b with
    | none =>
        rw [hv, Option.isSome_none] at hnone
        exact (Option.isSome_eq_false_iff.mp hnone.symm |> Option.isNone_iff_eq_none.mp).symm
    | some v =>
        rw [hv, Option.isSome_some] at hnone
        obtain ⟨w, hw⟩ := Option.isSome_iff_exists.mp hnone.symm
        obtain ⟨O, hO⟩ := exists_separating_pair hb hc (by rw [hv]; rfl)
        have hd := h O
        rw [eval_digest, eval_digest, hv, hw, Option.map_some, Option.map_some,
          Option.some.injEq] at hd
        rw [hw, view_eq_of_digest_eq hv hw hO hd]
  · intro h O
    rw [eval_digest, eval_digest, h]

end Tarracsh.DigestExactness
