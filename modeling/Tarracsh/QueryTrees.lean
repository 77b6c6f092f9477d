import Mathlib.Data.Fintype.Card
import Mathlib.Data.Finset.Union
import Mathlib.Data.List.ReduceOption

/-!
# Adaptive query trees

A tree is a deterministic computation that may put questions to an oracle and
choose later questions from earlier answers. One tree yields both the result
of a run and the list of questions asked, so the two cannot drift apart. The
`stuck` leaf is a run that has no defined result.

The existence theorem at the end answers every bounded tree with an oracle
that never gives one answer to two questions of the run, nor one forbidden
answer to any of them.
-/
namespace Tarracsh.QueryTrees

inductive Tree (Q A R : Type) where
  | done (result : R)
  | stuck
  | ask (question : Q) (next : A → Tree Q A R)

variable {Q A R S B V : Type}

def bind : Tree Q A R → (R → Tree Q A S) → Tree Q A S
  | .done r, f => f r
  | .stuck, _ => .stuck
  | .ask q next, f => .ask q (fun a => bind (next a) f)

instance : Monad (Tree Q A) where
  pure := .done
  bind := bind

/-- A lookup that may fail, as a computation without questions. -/
def lift : Option R → Tree Q A R
  | some r => .done r
  | none => .stuck

def eval (O : Q → A) : Tree Q A R → Option R
  | .done r => some r
  | .stuck => none
  | .ask q next => eval O (next (O q))

/-- The questions of the run against one oracle, in order. -/
def asked (O : Q → A) : Tree Q A R → List Q
  | .done _ => []
  | .stuck => []
  | .ask q next => q :: asked O (next (O q))

@[simp] theorem eval_pure (O : Q → A) (r : R) : eval O (pure r : Tree Q A R) = some r := rfl

@[simp] theorem eval_lift (O : Q → A) (o : Option R) : eval O (lift o : Tree Q A R) = o := by
  cases o <;> rfl

@[simp] theorem eval_ask (O : Q → A) (q : Q) (next : A → Tree Q A R) :
    eval O (.ask q next) = eval O (next (O q)) := rfl

@[simp] theorem eval_bind (O : Q → A) (t : Tree Q A R) (f : R → Tree Q A S) :
    eval O (t >>= f) = (eval O t).bind fun r => eval O (f r) := by
  induction t with
  | done r => rfl
  | stuck => rfl
  | ask q next ih => exact ih (O q)

@[simp] theorem asked_pure (O : Q → A) (r : R) : asked O (pure r : Tree Q A R) = [] := rfl

@[simp] theorem asked_lift (O : Q → A) (o : Option R) : asked O (lift o : Tree Q A R) = [] := by
  cases o <;> rfl

@[simp] theorem asked_ask (O : Q → A) (q : Q) (next : A → Tree Q A R) :
    asked O (.ask q next) = q :: asked O (next (O q)) := rfl

theorem asked_bind (O : Q → A) (t : Tree Q A R) (f : R → Tree Q A S) :
    asked O (t >>= f) =
      asked O t ++ ((eval O t).elim [] fun r => asked O (f r)) := by
  induction t with
  | done r => rfl
  | stuck => rfl
  | ask q next ih =>
      change q :: asked O (next (O q) >>= f) = _
      rw [ih (O q)]
      rfl

theorem asked_bind_left (O : Q → A) (t : Tree Q A R) (f : R → Tree Q A S) :
    asked O t ⊆ asked O (t >>= f) := by
  rw [asked_bind]
  exact List.subset_append_left _ _

theorem asked_bind_right (O : Q → A) {t : Tree Q A R} {r : R} (f : R → Tree Q A S)
    (h : eval O t = some r) : asked O (f r) ⊆ asked O (t >>= f) := by
  rw [asked_bind, h]
  exact List.subset_append_right _ _

/-- At most `n` questions against every oracle. -/
def Within (n : ℕ) (t : Tree Q A R) : Prop := ∀ O : Q → A, (asked O t).length ≤ n

theorem within_pure (n : ℕ) (r : R) : Within n (pure r : Tree Q A R) := by
  intro O
  simp

theorem within_lift (n : ℕ) (o : Option R) : Within n (lift o : Tree Q A R) := by
  intro O
  simp

theorem within_mono {m n : ℕ} {t : Tree Q A R} (h : Within m t) (hmn : m ≤ n) : Within n t :=
  fun O => (h O).trans hmn

theorem within_bind {m n : ℕ} {t : Tree Q A R} (h : Within m t) {f : R → Tree Q A S}
    (hf : ∀ r, Within n (f r)) : Within (m + n) (t >>= f) := by
  intro O
  rw [asked_bind, List.length_append]
  cases he : eval O t with
  | none => simpa using (h O).trans (Nat.le_add_right m n)
  | some r => exact Nat.add_le_add (h O) (hf r O)

section Collect
variable [DecidableEq R] [DecidableEq V]

/-- A loop that inserts the results of some of its iterations into a set. -/
def collect (f : B → Tree Q A (Option R)) : List B → Finset R → Tree Q A (Finset R)
  | [], s => pure s
  | b :: bs, s => do
      match ← f b with
      | none => collect f bs s
      | some r => collect f bs (insert r s)

/-- The set a loop of failing lookups selects, as one pure expression. -/
def gather (g : B → Option (Option V)) (bs : List B) : Option (Finset V) :=
  (bs.mapM g).map fun vs => vs.reduceOption.toFinset

theorem gather_nil (g : B → Option (Option V)) : gather g [] = some ∅ := rfl

theorem gather_cons (g : B → Option (Option V)) (b : B) (bs : List B) :
    gather g (b :: bs) = (g b).bind fun v =>
      (gather g bs).map fun s => v.elim s (fun w => insert w s) := by
  simp only [gather, List.mapM_cons, Option.pure_def, Option.bind_eq_bind]
  cases g b with
  | none => rfl
  | some v =>
      cases bs.mapM g with
      | none => rfl
      | some vs => cases v <;> simp

theorem mem_gather {g : B → Option (Option V)} {bs : List B} {s : Finset V}
    (h : gather g bs = some s) (v : V) : v ∈ s ↔ ∃ b ∈ bs, g b = some (some v) := by
  induction bs generalizing s with
  | nil =>
      rw [gather_nil, Option.some.injEq] at h
      simp [← h]
  | cons b bs ih =>
      rw [gather_cons] at h
      obtain ⟨w, hw, h⟩ := Option.bind_eq_some_iff.mp h
      obtain ⟨t, ht, rfl⟩ := Option.map_eq_some_iff.mp h
      cases w with
      | none => simp [ih ht, hw]
      | some w => simp [ih ht, hw, eq_comm]

theorem gather_isSome {g : B → Option (Option V)} {bs : List B} :
    (gather g bs).isSome ↔ ∀ b ∈ bs, (g b).isSome := by
  induction bs with
  | nil => simp [gather_nil]
  | cons b bs ih =>
      rw [gather_cons]
      cases hb : g b with
      | none => simp [hb]
      | some v => simpa [hb] using ih

theorem gather_append (g : B → Option (Option V)) (as bs : List B) :
    gather g (as ++ bs) = (gather g as).bind fun s => (gather g bs).map fun t => s ∪ t := by
  induction as with
  | nil => simp [gather_nil]
  | cons a as ih =>
      rw [List.cons_append, gather_cons, gather_cons, ih]
      cases g a with
      | none => rfl
      | some v =>
          cases gather g as <;> cases gather g bs <;> cases v <;> simp [Finset.insert_union]

theorem gather_map {C : Type} (g : C → Option (Option V)) (f : B → C) (bs : List B) :
    gather g (bs.map f) = gather (g ∘ f) bs := by
  induction bs with
  | nil => rfl
  | cons b bs ih =>
      rw [List.map_cons, gather_cons, gather_cons, ih]
      rfl

/-- An iteration that selects nothing may be dropped. -/
theorem gather_skip {g : B → Option (Option V)} {b : B} (h : g b = some none) (as bs : List B) :
    gather g (as ++ b :: bs) = gather g (as ++ bs) := by
  rw [gather_append, gather_append, gather_cons, h]
  simp

theorem gather_replace {g : B → Option (Option V)} {b c : B} (h : g b = g c) (as bs : List B) :
    gather g (as ++ b :: bs) = gather g (as ++ c :: bs) := by
  rw [gather_append, gather_append, gather_cons, gather_cons, h]

/-- Order and multiplicity of the iterations do not matter. -/
theorem gather_congr_mem {g : B → Option (Option V)} {as bs : List B}
    (h : ∀ b, b ∈ as ↔ b ∈ bs) : gather g as = gather g bs := by
  have hsome : (gather g as).isSome = (gather g bs).isSome := by
    rw [Bool.eq_iff_iff, gather_isSome, gather_isSome]
    exact ⟨fun hs b hb => hs b ((h b).mpr hb), fun hs b hb => hs b ((h b).mp hb)⟩
  cases ha : gather g as with
  | none => cases hb : gather g bs <;> simp_all
  | some s =>
      cases hb : gather g bs with
      | none => simp_all
      | some t =>
          congr 1
          ext v
          simp only [mem_gather ha, mem_gather hb, h]

/-- Selecting a function of a value selects the image of the set. -/
theorem gather_image {g : B → Option (Option V)} {k : B → Option (Option R)}
    {φ : V → R} (h : ∀ b, k b = (g b).map (Option.map φ)) (bs : List B) :
    gather k bs = (gather g bs).map (Finset.image φ) := by
  induction bs with
  | nil => simp [gather_nil]
  | cons b bs ih =>
      rw [gather_cons, gather_cons, ih, h]
      cases g b with
      | none => rfl
      | some v => cases gather g bs <;> cases v <;> simp

theorem eval_collect_from (O : Q → A) {f : B → Tree Q A (Option R)}
    {g : B → Option (Option V)} {h : V → R} (hf : ∀ b, eval O (f b) = (g b).map (Option.map h))
    (bs : List B) (s : Finset R) :
    eval O (collect f bs s) = (gather g bs).map fun vs => vs.image h ∪ s := by
  induction bs generalizing s with
  | nil => simp [collect, gather_nil]
  | cons b bs ih =>
      rw [gather_cons, collect, eval_bind, hf]
      cases g b with
      | none => rfl
      | some v =>
          cases v with
          | none => simpa using ih s
          | some w => simp [ih, Function.comp_def, Finset.image_insert, Finset.union_insert,
              Finset.insert_union]

/-- The loop computes the image of the selected set. -/
theorem eval_collect (O : Q → A) {f : B → Tree Q A (Option R)}
    {g : B → Option (Option V)} {h : V → R} (hf : ∀ b, eval O (f b) = (g b).map (Option.map h))
    (bs : List B) : eval O (collect f bs ∅) = (gather g bs).map (Finset.image h) := by
  simpa using eval_collect_from O hf bs ∅

theorem asked_collect (O : Q → A) {f : B → Tree Q A (Option R)} {bs : List B}
    (hf : ∀ b ∈ bs, (eval O (f b)).isSome) (s : Finset R) {b : B} (hb : b ∈ bs) :
    asked O (f b) ⊆ asked O (collect f bs s) := by
  induction bs generalizing s with
  | nil => simp at hb
  | cons c cs ih =>
      rw [collect]
      rcases List.mem_cons.mp hb with rfl | hb
      · exact asked_bind_left O _ _
      · obtain ⟨r, hr⟩ := Option.isSome_iff_exists.mp (hf c (by simp))
        refine List.Subset.trans ?_ (asked_bind_right O _ hr)
        cases r with
        | none => exact ih (fun d hd => hf d (by simp [hd])) s hb
        | some r => exact ih (fun d hd => hf d (by simp [hd])) _ hb

theorem within_collect {n : ℕ} {f : B → Tree Q A (Option R)} {bs : List B}
    (hf : ∀ b ∈ bs, Within n (f b)) (s : Finset R) :
    Within (bs.length * n) (collect f bs s) := by
  induction bs generalizing s with
  | nil => exact within_pure _ _
  | cons b bs ih =>
      rw [List.length_cons, Nat.add_mul, Nat.one_mul, Nat.add_comm]
      refine within_bind (hf b (by simp)) ?_
      rintro (_ | r)
      · exact ih (fun c hc => hf c (by simp [hc])) s
      · exact ih (fun c hc => hf c (by simp [hc])) _

end Collect

/-- Distinct questions of the list get distinct answers, none of them `z`. -/
structure Separates (O : Q → A) (z : A) (qs : List Q) : Prop where
  inj : ∀ x ∈ qs, ∀ y ∈ qs, O x = O y → x = y
  avoid : ∀ x ∈ qs, O x ≠ z

theorem Separates.subset {O : Q → A} {z : A} {qs rs : List Q} (h : Separates O z qs)
    (hs : rs ⊆ qs) : Separates O z rs :=
  ⟨fun x hx y hy => h.inj x (hs hx) y (hs hy), fun x hx => h.avoid x (hs hx)⟩

theorem Separates.append_subset {O : Q → A} {z : A} {qs rs qs' rs' : List Q}
    (h : Separates O z (qs ++ rs)) (hq : qs' ⊆ qs) (hr : rs' ⊆ rs) :
    Separates O z (qs' ++ rs') := by
  apply h.subset
  apply List.append_subset.mpr
  exact ⟨List.Subset.trans hq (List.subset_append_left _ _),
    List.Subset.trans hr (List.subset_append_right _ _)⟩

/-- Extending a separating oracle by one new question needs one unused answer. -/
theorem exists_fresh_answer [Fintype A] (O : Q → A) (z : A) (qs : List Q)
    (h : qs.length + 1 < Fintype.card A) : ∃ a, a ≠ z ∧ ∀ x ∈ qs, O x ≠ a := by
  classical
  have hcard : (insert z (qs.map O).toFinset).card < (Finset.univ : Finset A).card := by
    have h₁ := Finset.card_insert_le z (qs.map O).toFinset
    have h₂ := List.toFinset_card_le (qs.map O)
    rw [List.length_map] at h₂
    rw [Finset.card_univ]
    omega
  obtain ⟨a, -, ha⟩ := Finset.exists_mem_notMem_of_card_lt_card hcard
  simp only [Finset.mem_insert, List.mem_toFinset, List.mem_map, not_or, not_exists, not_and] at ha
  exact ⟨a, ha.1, ha.2⟩

/-- A new question may get any answer that is not yet in use. -/
theorem Separates.update [DecidableEq Q] {O : Q → A} {z : A} {qs : List Q}
    (h : Separates O z qs) {q : Q} (hq : q ∉ qs) {a : A} (haz : a ≠ z)
    (ha : ∀ x ∈ qs, O x ≠ a) : Separates (Function.update O q a) z (q :: qs) := by
  have hold : ∀ x ∈ qs, Function.update O q a x = O x := fun x hx =>
    Function.update_of_ne (ne_of_mem_of_not_mem hx hq) _ _
  constructor
  · intro x hx y hy hxy
    rcases List.mem_cons.mp hx with hx | hx <;> rcases List.mem_cons.mp hy with hy | hy
    · exact hx.trans hy.symm
    · rw [hx, Function.update_self, hold y hy] at hxy
      exact (ha y hy hxy.symm).elim
    · rw [hy, Function.update_self, hold x hx] at hxy
      exact (ha x hx hxy).elim
    · rw [hold x hx, hold y hy] at hxy
      exact h.inj x hx y hy hxy
  · intro x hx
    rcases List.mem_cons.mp hx with rfl | hx
    · simpa using haz
    · rw [hold x hx]
      exact h.avoid x hx

theorem exists_separating_from [Fintype A] (z : A) (t : Tree Q A R) (qs : List Q) (O : Q → A)
    (hO : Separates O z qs)
    (hcard : ∀ O' : Q → A, (∀ x ∈ qs, O' x = O x) →
      qs.length + (asked O' t).length + 1 ≤ Fintype.card A) :
    ∃ O' : Q → A, (∀ x ∈ qs, O' x = O x) ∧ Separates O' z (qs ++ asked O' t) := by
  classical
  induction t generalizing qs O with
  | done r => exact ⟨O, fun _ _ => rfl, by simpa [asked] using hO⟩
  | stuck => exact ⟨O, fun _ _ => rfl, by simpa [asked] using hO⟩
  | ask q next ih =>
      by_cases hq : q ∈ qs
      · obtain ⟨O', hagree, hsep⟩ := ih (O q) qs O hO (by
          intro O' hagree
          have := hcard O' hagree
          rw [asked_ask, hagree q hq, List.length_cons] at this
          omega)
        refine ⟨O', hagree, hsep.subset ?_⟩
        rw [asked_ask, hagree q hq]
        intro x hx
        simp only [List.mem_append, List.mem_cons] at hx ⊢
        rcases hx with hx | rfl | hx
        · exact .inl hx
        · exact .inl hq
        · exact .inr hx
      · have hroom : qs.length + 1 < Fintype.card A := by
          have := hcard O (fun _ _ => rfl)
          rw [asked_ask, List.length_cons] at this
          omega
        obtain ⟨a, haz, ha⟩ := exists_fresh_answer O z qs hroom
        have hold : ∀ x ∈ qs, Function.update O q a x = O x := fun x hx =>
          Function.update_of_ne (ne_of_mem_of_not_mem hx hq) _ _
        obtain ⟨O', hagree, hsep'⟩ := ih a (q :: qs) _ (hO.update hq haz ha) (by
          intro O' hagree
          have hqa : O' q = a := by rw [hagree q (by simp), Function.update_self]
          have := hcard O' (fun x hx => by rw [hagree x (by simp [hx]), hold x hx])
          rw [asked_ask, hqa, List.length_cons] at this
          rw [List.length_cons]
          omega)
        have hqa : O' q = a := by rw [hagree q (by simp), Function.update_self]
        refine ⟨O', fun x hx => by rw [hagree x (by simp [hx]), hold x hx], hsep'.subset ?_⟩
        rw [asked_ask, hqa]
        intro x hx
        simp only [List.mem_append, List.mem_cons] at hx ⊢
        tauto

/-- A tree that asks fewer questions than there are answers has an oracle
that separates the questions of its own run. -/
theorem exists_separating [Fintype A] (z : A) {n : ℕ} {t : Tree Q A R} (ht : Within n t)
    (hn : n + 1 ≤ Fintype.card A) : ∃ O : Q → A, Separates O z (asked O t) := by
  obtain ⟨O, -, hO⟩ := exists_separating_from z t [] (fun _ => z)
    ⟨by simp, by simp⟩ (fun O' _ => by simpa using (Nat.succ_le_succ (ht O')).trans hn)
  exact ⟨O, by simpa using hO⟩

end Tarracsh.QueryTrees
