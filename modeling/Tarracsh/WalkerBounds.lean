import Tarracsh.AttributeWalkers
import Tarracsh.ClassFileFormat
import Mathlib.Algebra.Group.Action.Defs

/-!
# Where the attribute walkers read

No walker looks at the size of the body: it reads as many elements as the counts in the
body announce, and a length in the body moves the reader by that many bytes, taken as
an `int`. Whether every access stays inside the body is decided by what the body
announces.
-/
namespace Tarracsh.WalkerBounds
open ByteStrings QueryTrees StreamReads ClassFileReader PoolStructures AttributeWalkers
  MachineIntegers

section Accesses

/-- The bytes that an access asks for, and the position behind them. -/
def Inside (size : ℕ) (position : ℤ) (byteCount : ℕ) : Prop :=
  0 ≤ position ∧ position + byteCount ≤ size ∧ position + byteCount < 2 ^ 31

instance (size : ℕ) (position : ℤ) (byteCount : ℕ) : Decidable (Inside size position byteCount) :=
  inferInstanceAs (Decidable (_ ∧ _ ∧ _))

/-- Every access of the walk is inside the body. No walker is stuck. -/
def StaysInside {R : Type} : Walk R → VectorReader.Reader → Prop
  | .done _, _ => True
  | .stuck, _ => False
  | .ask (.read byteCount) next, r =>
      Inside r.bytesVector.length r.position byteCount ∧
        StaysInside (next ((r.bytesVector.drop r.position.toNat).take byteCount))
          { r with position := r.position + byteCount }
  | .ask (.jump steps) next, r => StaysInside (next []) (jump steps r)

variable {R S : Type}

theorem serve_read (byteCount : ℕ) (r : VectorReader.Reader) :
    serve (.read byteCount) r =
      if Inside r.bytesVector.length r.position byteCount then
        some ((r.bytesVector.drop r.position.toNat).take byteCount,
          { r with position := r.position + byteCount })
      else none := rfl

theorem staysInside_iff_isSome (t : Walk R) (r : VectorReader.Reader) :
    StaysInside t r ↔ (run serve t r).isSome := by
  induction t generalizing r with
  | done x => exact iff_of_true True.intro rfl
  | stuck => exact iff_of_false id (by simp)
  | ask q next ih =>
      cases q with
      | jump steps => exact ih [] _
      | read byteCount =>
          rw [run_ask, serve_read]
          by_cases hinside : Inside r.bytesVector.length r.position byteCount
          · rw [if_pos hinside, Option.bind_some, ← ih]
            exact and_iff_right hinside
          · rw [if_neg hinside]
            exact iff_of_false (fun h => hinside h.1) (by simp)

/-- A walk whose result is only looked at. -/
theorem staysInside_map (t : Walk R) (f : R → S) (r : VectorReader.Reader) :
    StaysInside (t >>= fun x => Pure.pure (f x)) r ↔ StaysInside t r := by
  rw [staysInside_iff_isSome, staysInside_iff_isSome, run_bind]
  cases run serve t r <;> simp

end Accesses

section Announcements
variable (isBigEndian : Bool) (body : Bytes)

/-- The words at a position, whether or not they are inside the body. -/
def u1At (position : ℤ) : UInt8 := ((body.drop position.toNat).take 1).headD 0

def u2At (position : ℤ) : UInt16 := toU2 isBigEndian ((body.drop position.toNat).take 2)

def u4At (position : ℤ) : UInt32 := toU4 isBigEndian ((body.drop position.toNat).take 4)

/-- The end of a verification type, and of several of them. -/
def typeEnd (position : ℕ) : ℕ :=
  if u1At body position = JVM_ITEM_Object ∨ u1At body position = JVM_ITEM_Uninitialized then
    position + 3
  else position + 1

def typesEnd (count position : ℕ) : ℕ := (typeEnd body)^[count] position

/-- The end of a frame by its type. -/
def frameEnd (position : ℕ) : ℕ :=
  let frameType := u1At body position
  if frameType ≤ 63 then position + 1
  else if frameType ≤ 127 then typeEnd body (position + 1)
  else if frameType = 247 then typeEnd body (position + 3)
  else if frameType ≥ 248 ∧ frameType ≤ 250 then position + 3
  else if frameType = 251 then position + 3
  else if frameType ≥ 252 ∧ frameType ≤ 254 then
    typesEnd body (frameType.toNat - 251) (position + 3)
  else if frameType = 255 then
    let locals := typesEnd body (u2At isBigEndian body (position + 3 : ℕ)).toNat (position + 5)
    typesEnd body (u2At isBigEndian body locals).toNat (locals + 2)
  else position + 1

/-- The size that a table of elements of one size announces. -/
def tableSize (elementSize : ℕ) : ℕ := 2 + elementSize * (u2At isBigEndian body 0).toNat

def stackMapSize : ℕ := (frameEnd isBigEndian body)^[(u2At isBigEndian body 0).toNat] 2

/-- The position behind the code, whose length is taken as an `int`. -/
def codeEnd : ℤ := wrap (8 + (u4At isBigEndian body 4).toBitVec.toInt)

def attributeEnd (position : ℤ) : ℤ :=
  wrap (position + 6 + (u4At isBigEndian body (position + 2)).toBitVec.toInt)

def attributeStart (position : ℤ) (index : ℕ) : ℤ :=
  (attributeEnd isBigEndian body)^[index] (position + 6)

def componentEnd (position : ℤ) : ℤ :=
  attributeStart isBigEndian body position (u2At isBigEndian body (position + 4)).toNat

def componentStart (index : ℕ) : ℤ := (componentEnd isBigEndian body)^[index] 2

/-- The header of a component and those of its attributes. -/
def ComponentFits (position : ℤ) : Prop :=
  Inside body.length position 6 ∧
    ∀ j < (u2At isBigEndian body (position + 4)).toNat,
      Inside body.length (attributeStart isBigEndian body position j) 6

/-- What the body announces is inside the body. -/
def Fits : AttributeTag → Prop
  | .innerClasses => Inside body.length 0 (tableSize isBigEndian body 8)
  | .exceptions => Inside body.length 0 (tableSize isBigEndian body 2)
  | .lineNumberTable => Inside body.length 0 (tableSize isBigEndian body 4)
  | .stackMapTable => Inside body.length 0 (stackMapSize isBigEndian body)
  | .code => Inside body.length 0 8 ∧
      Inside body.length (codeEnd isBigEndian body)
        (2 + 8 * (u2At isBigEndian body (codeEnd isBigEndian body)).toNat)
  | .record => Inside body.length 0 2 ∧
      ∀ i < (u2At isBigEndian body 0).toNat,
        ComponentFits isBigEndian body (componentStart isBigEndian body i)

end Announcements

section Forward
variable {R S : Type} {isBigEndian : Bool} {body : Bytes} {p e e' : ℕ} {v : R} {w : S}

theorem inside_zero {size n : ℕ} : Inside size 0 n ↔ n ≤ size ∧ n < 2 ^ 31 := by
  unfold Inside
  omega

/-- From a position in the body the walk comes to its end when the end is in the body. -/
structure Advances (t : Walk R) (body : Bytes) (p e : ℕ) (v : R) : Prop where
  le : p ≤ e
  run_eq : Inside body.length 0 p →
    run serve t ⟨body, p⟩ = if Inside body.length 0 e then some (v, ⟨body, e⟩) else none

theorem Advances.pure (body : Bytes) (p : ℕ) (v : R) : Advances (Pure.pure v) body p p v :=
  ⟨le_rfl, fun hp => by rw [if_pos hp, run_pure]⟩

theorem Advances.bind {t : Walk R} {f : R → Walk S} (ht : Advances t body p e v)
    (hf : Advances (f v) body e e' w) : Advances (t >>= f) body p e' w := by
  refine ⟨ht.le.trans hf.le, fun hp => ?_⟩
  rw [run_bind, ht.run_eq hp]
  by_cases he : Inside body.length 0 e
  · rw [if_pos he, Option.bind_some]
    exact hf.run_eq he
  · have hle := hf.le
    have he' : ¬ Inside body.length 0 e' := by
      rw [inside_zero] at he ⊢
      omega
    rw [if_neg he, if_neg he', Option.bind_none]

theorem Advances.exists_bind {t : Walk R} {f : R → Walk S} (ht : Advances t body p e v)
    (hf : ∃ w, Advances (f v) body e e' w) : ∃ w, Advances (t >>= f) body p e' w := by
  obtain ⟨w, hw⟩ := hf
  exact ⟨w, ht.bind hw⟩

theorem Advances.map {t : Walk R} (ht : Advances t body p e v) (f : R → S) :
    Advances (t >>= fun x => Pure.pure (f x)) body p e (f v) :=
  ht.bind (f := fun x => Pure.pure (f x)) (Advances.pure body e (f v))

theorem Advances.read (body : Bytes) (p n : ℕ) (f : Bytes → R) :
    Advances (.ask (.read n) fun cells => Pure.pure (f cells)) body p (p + n)
      (f ((body.drop p).take n)) := by
  refine ⟨Nat.le_add_right p n, fun hp => ?_⟩
  have hiff : Inside body.length p n ↔ Inside body.length 0 (p + n) := by
    unfold Inside
    omega
  rw [run_ask, serve_read]
  simp only [hiff, Int.toNat_natCast]
  by_cases he : Inside body.length 0 (p + n)
  · rw [if_pos he, if_pos he]
    simp
  · rw [if_neg he, if_neg he]
    rfl

theorem advances_readU1 (body : Bytes) (p : ℕ) : Advances readU1 body p (p + 1) (u1At body p) :=
  Advances.read body p 1 fun bytes => bytes.headD 0

theorem advances_readU2 (isBigEndian : Bool) (body : Bytes) (p : ℕ) :
    Advances (readU2 isBigEndian) body p (p + 2) (u2At isBigEndian body p) :=
  Advances.read body p 2 (toU2 isBigEndian)

/-- A loop whose body advances by `g`. -/
theorem advances_repeated {t : Walk R} {g : ℕ → ℕ} (h : ∀ p, ∃ v, Advances t body p (g p) v)
    (n p : ℕ) : ∃ vs, Advances (repeated n t) body p (g^[n] p) vs := by
  induction n generalizing p with
  | zero => exact ⟨[], Advances.pure body p []⟩
  | succ n ih =>
      obtain ⟨v, hv⟩ := h p
      obtain ⟨vs, hvs⟩ := ih (g p)
      exact ⟨v :: vs, hv.bind (hvs.map (v :: ·))⟩

/-- From the start of the body. -/
theorem Advances.staysInside_iff {t : Walk R} (h : Advances t body 0 e v) :
    StaysInside t ⟨body, 0⟩ ↔ Inside body.length 0 e := by
  have hrun := h.run_eq (inside_zero.2 ⟨Nat.zero_le _, by decide⟩)
  simp only [Nat.cast_zero] at hrun
  rw [staysInside_iff_isSome, hrun]
  by_cases he : Inside body.length 0 e
  · simp [he]
  · simp [he]

/-- A table of elements of one size. -/
theorem table_staysInside_iff {t : Walk R} {m : ℕ} {f : UInt16 → List R → S}
    (h : ∀ p, ∃ v, Advances t body p (p + m) v) :
    StaysInside (readU2 isBigEndian >>= fun count =>
        repeated count.toNat t >>= fun xs => Pure.pure (f count xs)) ⟨body, 0⟩ ↔
      Inside body.length 0 (tableSize isBigEndian body m) := by
  obtain ⟨vs, hvs⟩ := advances_repeated h (u2At isBigEndian body 0).toNat 2
  rw [add_right_iterate_apply, smul_eq_mul, Nat.mul_comm] at hvs
  exact ((advances_readU2 isBigEndian body 0).bind (hvs.map _)).staysInside_iff

end Forward

section Tables
variable (isBigEndian : Bool) (pool : ConstantPool) (body : Bytes)

theorem advances_lineNumber (p : ℕ) :
    ∃ v, Advances (lineNumber isBigEndian) body p (p + 4) v :=
  ⟨_, (advances_readU2 isBigEndian body p).bind ((advances_readU2 isBigEndian body (p + 2)).map _)⟩

theorem advances_exceptionName (p : ℕ) :
    ∃ v, Advances (exceptionName isBigEndian pool) body p (p + 2) v :=
  ⟨_, (advances_readU2 isBigEndian body p).map _⟩

theorem advances_innerClass (p : ℕ) :
    ∃ v, Advances (innerClassToString isBigEndian pool) body p (p + 8) v :=
  ⟨_, (advances_readU2 isBigEndian body p).bind ((advances_readU2 isBigEndian body (p + 2)).bind
    ((advances_readU2 isBigEndian body (p + 4)).bind
      ((advances_readU2 isBigEndian body (p + 6)).map _)))⟩

theorem advances_exceptionTableEntry (p : ℕ) :
    ∃ v, Advances (exceptionTableEntry isBigEndian) body p (p + 8) v :=
  ⟨_, (advances_readU2 isBigEndian body p).bind ((advances_readU2 isBigEndian body (p + 2)).bind
    ((advances_readU2 isBigEndian body (p + 4)).bind
      ((advances_readU2 isBigEndian body (p + 6)).map _)))⟩

end Tables

section Frames
variable (isBigEndian : Bool) (body : Bytes)

theorem advances_skipVerificationType (p : ℕ) :
    Advances (skipVerificationType isBigEndian) body p (typeEnd body p) () := by
  have htag := advances_readU1 body p
  unfold typeEnd
  split_ifs with hindexed
  · refine htag.bind ?_
    rw [if_pos hindexed]
    exact (advances_readU2 isBigEndian body (p + 1)).map _
  · refine htag.bind ?_
    rw [if_neg hindexed]
    exact Advances.pure body (p + 1) ()

theorem advances_skipVerificationTypes (n p : ℕ) :
    Advances (skipVerificationTypes isBigEndian n) body p (typesEnd body n p) () := by
  obtain ⟨vs, hvs⟩ := advances_repeated
    (fun p => ⟨(), advances_skipVerificationType isBigEndian body p⟩) n p
  exact hvs.map fun _ => ()

theorem advances_frame (c : StackMapCounters) (p : ℕ) :
    ∃ c', Advances (frame isBigEndian c) body p (frameEnd isBigEndian body p) c' := by
  have htype := advances_readU1 body p
  have hoffset := advances_readU2 isBigEndian body (p + 1)
  unfold frameEnd
  dsimp only
  split_ifs with h₁ h₂ h₃ h₄ h₅ h₆ h₇
  · refine htype.exists_bind ?_
    rw [if_pos h₁]
    exact ⟨_, Advances.pure body _ _⟩
  · refine htype.exists_bind ?_
    rw [if_neg h₁, if_pos h₂]
    exact ⟨_, (advances_skipVerificationType isBigEndian body (p + 1)).map _⟩
  · refine htype.exists_bind ?_
    rw [if_neg h₁, if_neg h₂, if_pos h₃]
    exact ⟨_, hoffset.bind ((advances_skipVerificationType isBigEndian body (p + 3)).map _)⟩
  · refine htype.exists_bind ?_
    rw [if_neg h₁, if_neg h₂, if_neg h₃, if_pos h₄]
    exact ⟨_, hoffset.map _⟩
  · refine htype.exists_bind ?_
    rw [if_neg h₁, if_neg h₂, if_neg h₃, if_neg h₄, if_pos h₅]
    exact ⟨_, hoffset.map _⟩
  · refine htype.exists_bind ?_
    rw [if_neg h₁, if_neg h₂, if_neg h₃, if_neg h₄, if_neg h₅, if_pos h₆]
    exact ⟨_, hoffset.bind ((advances_skipVerificationTypes isBigEndian body _ (p + 3)).map _)⟩
  · refine htype.exists_bind ?_
    rw [if_neg h₁, if_neg h₂, if_neg h₃, if_neg h₄, if_neg h₅, if_neg h₆, if_pos h₇]
    exact ⟨_, hoffset.bind ((advances_readU2 isBigEndian body (p + 3)).bind
      ((advances_skipVerificationTypes isBigEndian body _ (p + 5)).bind
        ((advances_readU2 isBigEndian body _).bind
          ((advances_skipVerificationTypes isBigEndian body _ _).map _))))⟩
  · refine htype.exists_bind ?_
    rw [if_neg h₁, if_neg h₂, if_neg h₃, if_neg h₄, if_neg h₅, if_neg h₆, if_neg h₇]
    exact ⟨_, Advances.pure body _ _⟩

theorem advances_frames (n : ℕ) (c : StackMapCounters) (p : ℕ) :
    ∃ c', Advances (frames isBigEndian n c) body p ((frameEnd isBigEndian body)^[n] p) c' := by
  induction n generalizing c p with
  | zero => exact ⟨c, Advances.pure body p c⟩
  | succ n ih =>
      obtain ⟨c', hframe⟩ := advances_frame isBigEndian body c p
      obtain ⟨c'', hframes⟩ := ih c' (frameEnd isBigEndian body p)
      exact ⟨c'', hframe.bind hframes⟩

theorem stackMapTable_advances :
    ∃ text, Advances (toStringStackMapTable isBigEndian) body 0 (stackMapSize isBigEndian body)
      text := by
  obtain ⟨c, hframes⟩ := advances_frames isBigEndian body (u2At isBigEndian body 0).toNat {} 2
  exact ⟨_, (advances_readU2 isBigEndian body 0).bind (hframes.map _)⟩

end Frames

section Jumps
variable {S : Type} (isBigEndian : Bool) (pool : ConstantPool) (turns : ℕ) (body : Bytes)

theorem run_readU2_bind (f : UInt16 → Walk S) (p : ℤ) :
    run serve (readU2 isBigEndian >>= f) ⟨body, p⟩ =
      if Inside body.length p 2 then run serve (f (u2At isBigEndian body p)) ⟨body, p + 2⟩
      else none := by
  rw [run_bind, AttributeWalkers.readU2, run_ask, serve_read]
  by_cases h : Inside body.length p 2
  · rw [if_pos h, if_pos h]
    rfl
  · rw [if_neg h, if_neg h]
    rfl

theorem run_readU4_bind (f : UInt32 → Walk S) (p : ℤ) :
    run serve (readU4 isBigEndian >>= f) ⟨body, p⟩ =
      if Inside body.length p 4 then run serve (f (u4At isBigEndian body p)) ⟨body, p + 4⟩
      else none := by
  rw [run_bind, AttributeWalkers.readU4, run_ask, serve_read]
  by_cases h : Inside body.length p 4
  · rw [if_pos h, if_pos h]
    rfl
  · rw [if_neg h, if_neg h]
    rfl

theorem run_jumpOver_bind (steps : UInt32) (f : Unit → Walk S) (p : ℤ) :
    run serve (jumpOver steps >>= f) ⟨body, p⟩ =
      run serve (f ()) ⟨body, wrap (p + steps.toBitVec.toInt)⟩ := rfl

/-- The exceptions behind the code, from wherever the reader is. -/
theorem run_exceptions (f : UInt16 → List ExceptionTable → S) (q : ℤ) :
    (run serve (readU2 isBigEndian >>= fun count =>
        repeated count.toNat (exceptionTableEntry isBigEndian) >>= fun xs =>
          Pure.pure (f count xs)) ⟨body, q⟩).isSome ↔
      Inside body.length q (2 + 8 * (u2At isBigEndian body q).toNat) := by
  rw [run_readU2_bind]
  by_cases hcount : Inside body.length q 2
  · obtain ⟨n, rfl⟩ : ∃ n : ℕ, q = n := ⟨q.toNat, by unfold Inside at hcount; omega⟩
    obtain ⟨vs, hvs⟩ := advances_repeated (advances_exceptionTableEntry isBigEndian body)
      (u2At isBigEndian body n).toNat (n + 2)
    rw [add_right_iterate_apply, smul_eq_mul, Nat.mul_comm] at hvs
    have hstart : Inside body.length 0 (n + 2) := by
      unfold Inside at hcount ⊢
      omega
    have hrun := (hvs.map (f (u2At isBigEndian body n))).run_eq hstart
    rw [Nat.cast_add, Nat.cast_ofNat] at hrun
    have hiff : Inside body.length 0 (n + 2 + 8 * (u2At isBigEndian body n).toNat) ↔
        Inside body.length n (2 + 8 * (u2At isBigEndian body n).toNat) := by
      unfold Inside
      omega
    rw [if_pos hcount, hrun, ← hiff]
    split_ifs with h <;> simp [h]
  · have hall : ¬ Inside body.length q (2 + 8 * (u2At isBigEndian body q).toNat) := by
      unfold Inside at hcount ⊢
      omega
    rw [if_neg hcount]
    exact iff_of_false (by simp) hall

theorem code_staysInside_iff :
    StaysInside (toStringCode isBigEndian) ⟨body, 0⟩ ↔ Fits isBigEndian body .code := by
  rw [staysInside_iff_isSome, toStringCode, run_readU2_bind]
  by_cases hhead : Inside body.length 0 8
  · have h₁ : Inside body.length 0 2 := by unfold Inside at hhead ⊢; omega
    have h₂ : Inside body.length (0 + 2) 2 := by unfold Inside at hhead ⊢; omega
    have h₃ : Inside body.length (0 + 2 + 2) 4 := by unfold Inside at hhead ⊢; omega
    rw [if_pos h₁, run_readU2_bind, if_pos h₂, run_readU4_bind, if_pos h₃, run_jumpOver_bind,
      run_exceptions]
    exact (and_iff_right hhead).symm
  · have hbad : ¬ Fits isBigEndian body .code := fun h => hhead h.1
    refine iff_of_false (fun hsome => hhead ?_) hbad
    split_ifs at hsome with h₁
    · rw [run_readU2_bind] at hsome
      split_ifs at hsome with h₂
      · rw [run_readU4_bind] at hsome
        split_ifs at hsome with h₃
        · unfold Inside at h₁ h₃ ⊢
          omega
        · cases hsome
      · cases hsome
    · cases hsome

/-- A loop whose body moves the reader by `g` from the positions with `P`, and leaves the
body from the others. -/
def Moves {R : Type} (t : Walk R) (P : ℤ → Prop) (g : ℤ → ℤ) : Prop :=
  ∀ p, (P p → ∃ v, run serve t ⟨body, p⟩ = some (v, ⟨body, g p⟩)) ∧
    (¬ P p → run serve t ⟨body, p⟩ = none)

variable {body}

theorem Moves.repeated {R : Type} {t : Walk R} {P : ℤ → Prop} {g : ℤ → ℤ}
    (h : Moves body t P g) (n : ℕ) :
    Moves body (StreamReads.repeated n t) (fun p => ∀ j < n, P (g^[j] p)) g^[n] := by
  induction n with
  | zero => exact fun p => ⟨fun _ => ⟨[], rfl⟩, fun hbad => absurd (by simp) hbad⟩
  | succ n ih =>
      intro p
      have hrun : run serve (StreamReads.repeated (n + 1) t) ⟨body, p⟩ =
          (run serve t ⟨body, p⟩).bind fun x => (run serve (StreamReads.repeated n t) x.2).bind
            fun xs => some (x.1 :: xs.1, xs.2) := by
        rw [StreamReads.repeated, run_bind]
        simp only [run_bind, run_pure]
      have hsplit : (∀ j < n + 1, P (g^[j] p)) ↔ P p ∧ ∀ j < n, P (g^[j] (g p)) := by
        rw [Nat.forall_lt_succ_left]
        simp only [Function.iterate_zero, id_eq, Function.iterate_succ_apply]
      simp only [hrun, hsplit]
      constructor
      · rintro ⟨hp, hrest⟩
        obtain ⟨v, hv⟩ := (h p).1 hp
        obtain ⟨vs, hvs⟩ := (ih (g p)).1 hrest
        exact ⟨v :: vs, by rw [hv, Option.bind_some, hvs]; rfl⟩
      · intro hbad
        by_cases hp : P p
        · obtain ⟨v, hv⟩ := (h p).1 hp
          rw [hv, Option.bind_some, (ih (g p)).2 fun hrest => hbad ⟨hp, hrest⟩]
          rfl
        · rw [(h p).2 hp]
          rfl

theorem moves_skipAttribute (body : Bytes) :
    Moves body (skipAttribute isBigEndian) (fun p => Inside body.length p 6)
      (attributeEnd isBigEndian body) := by
  intro p
  have hsplit : Inside body.length p 6 ↔
      Inside body.length p 2 ∧ Inside body.length (p + 2) 4 := by
    unfold Inside
    omega
  have hjump : ∀ steps, run serve (jumpOver steps) ⟨body, p + 2 + 4⟩ =
      some ((), ⟨body, wrap (p + 6 + steps.toBitVec.toInt)⟩) := by
    intro steps
    rw [show p + 6 = p + 2 + 4 by ring]
    rfl
  rw [skipAttribute, run_readU2_bind]
  simp only [hsplit]
  constructor
  · rintro ⟨h₁, h₂⟩
    rw [if_pos h₁, run_readU4_bind, if_pos h₂, hjump]
    exact ⟨(), rfl⟩
  · intro hbad
    by_cases h₁ : Inside body.length p 2
    · rw [if_pos h₁, run_readU4_bind, if_neg fun h₂ => hbad ⟨h₁, h₂⟩]
    · rw [if_neg h₁]

theorem moves_component (body : Bytes) :
    Moves body (component isBigEndian pool turns) (ComponentFits isBigEndian body)
      (componentEnd isBigEndian body) := by
  intro p
  have hsplit : Inside body.length p 6 ↔ Inside body.length p 2 ∧
      Inside body.length (p + 2) 2 ∧ Inside body.length (p + 2 + 2) 2 := by
    unfold Inside
    omega
  have hfour : p + 2 + 2 = p + 4 := by ring
  have hsix : p + 4 + 2 = p + 6 := by ring
  have hattributes := (moves_skipAttribute isBigEndian body).repeated
    (u2At isBigEndian body (p + 4)).toNat (p + 6)
  rw [component, run_readU2_bind]
  constructor
  · rintro ⟨hheader, hrest⟩
    obtain ⟨h₁, h₂, h₃⟩ := hsplit.1 hheader
    obtain ⟨vs, hvs⟩ := hattributes.1 hrest
    rw [if_pos h₁, run_readU2_bind, if_pos h₂, run_readU2_bind, if_pos h₃, hfour, hsix, run_bind,
      hvs]
    exact ⟨_, rfl⟩
  · intro hbad
    by_cases h₁ : Inside body.length p 2
    · rw [if_pos h₁, run_readU2_bind]
      by_cases h₂ : Inside body.length (p + 2) 2
      · rw [if_pos h₂, run_readU2_bind]
        by_cases h₃ : Inside body.length (p + 2 + 2) 2
        · have hrest := hattributes.2 fun hrest => hbad ⟨hsplit.2 ⟨h₁, h₂, h₃⟩, hrest⟩
          rw [if_pos h₃, hfour, hsix, run_bind, hrest]
          rfl
        · rw [if_neg h₃]
      · rw [if_neg h₂]
    · rw [if_neg h₁]

theorem record_staysInside_iff (body : Bytes) :
    StaysInside (toStringRecord isBigEndian pool turns) ⟨body, 0⟩ ↔
      Fits isBigEndian body .record := by
  have hcomponents := (moves_component isBigEndian pool turns body).repeated
    (u2At isBigEndian body 0).toNat 2
  rw [staysInside_iff_isSome, toStringRecord, run_readU2_bind]
  by_cases hcount : Inside body.length 0 2
  · rw [if_pos hcount, zero_add, run_bind]
    by_cases hfits : ∀ i < (u2At isBigEndian body 0).toNat,
        ComponentFits isBigEndian body (componentStart isBigEndian body i)
    · obtain ⟨vs, hvs⟩ := hcomponents.1 hfits
      rw [hvs]
      exact iff_of_true rfl ⟨hcount, hfits⟩
    · rw [hcomponents.2 hfits]
      exact iff_of_false (by simp) fun h => hfits h.2
  · rw [if_neg hcount]
    exact iff_of_false (by simp) fun h => hcount h.1

end Jumps

section Walkers

end Walkers

end Tarracsh.WalkerBounds
