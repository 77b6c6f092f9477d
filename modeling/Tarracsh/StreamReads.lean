import Tarracsh.QueryTrees

/-!
# Trees whose questions are read requests

The questions of a tree may be put to a server that keeps a state and may
refuse one, such as an open file. The same tree can be run against several
servers, and a relation between the states of two servers that every single
answer keeps is kept by whole runs.

The reference server deals the cells of a list in order and refuses a request
for more cells than are left. `Consumes` describes a run against it by the
cells it uses up, and composes along the tree.
-/
namespace Tarracsh.StreamReads
open QueryTrees

variable {Q A R S T B V : Type}

/-- A refused question ends the run without a result. -/
def run (serve : Q → S → Option (A × S)) : Tree Q A R → S → Option (R × S)
  | .done r, s => some (r, s)
  | .stuck, _ => none
  | .ask q next, s => (serve q s).bind fun answer => run serve (next answer.1) answer.2

@[simp] theorem run_pure (serve : Q → S → Option (A × S)) (r : R) (s : S) :
    run serve (pure r : Tree Q A R) s = some (r, s) := rfl

@[simp] theorem run_stuck (serve : Q → S → Option (A × S)) (s : S) :
    run serve (.stuck : Tree Q A R) s = none := rfl

@[simp] theorem run_ask (serve : Q → S → Option (A × S)) (q : Q) (next : A → Tree Q A R) (s : S) :
    run serve (.ask q next) s =
      (serve q s).bind fun answer => run serve (next answer.1) answer.2 := rfl

@[simp] theorem run_bind (serve : Q → S → Option (A × S)) (t : Tree Q A R) (f : R → Tree Q A V)
    (s : S) :
    run serve (t >>= f) s = (run serve t s).bind fun result => run serve (f result.1) result.2 := by
  induction t generalizing s with
  | done r => rfl
  | stuck => rfl
  | ask q next ih =>
      change (serve q s).bind (fun answer => run serve (next answer.1 >>= f) answer.2) = _
      rw [run_ask, Option.bind_assoc]
      exact congrArg _ (funext fun answer => ih answer.1 answer.2)

/-- Sequences may be bracketed either way. -/
theorem run_bind_assoc {W : Type} (serve : Q → S → Option (A × S)) (t : Tree Q A R)
    (f : R → Tree Q A V) (g : V → Tree Q A W) (s : S) :
    run serve (t >>= fun r => f r >>= g) s = run serve ((t >>= f) >>= g) s := by
  simp only [run_bind, Option.bind_assoc]

/-- What one answer preserves, a run preserves. -/
theorem run_simulates {serve : Q → S → Option (A × S)} {serve' : Q → T → Option (A × T)}
    {Rel : S → T → Prop}
    (hstep : ∀ q s t a s', Rel s t → serve q s = some (a, s') →
      ∃ t', serve' q t = some (a, t') ∧ Rel s' t')
    (tree : Tree Q A R) {s : S} {t : T} {r : R} {s' : S} (hrel : Rel s t)
    (h : run serve tree s = some (r, s')) :
    ∃ t', run serve' tree t = some (r, t') ∧ Rel s' t' := by
  induction tree generalizing s t with
  | done r' =>
      cases h
      exact ⟨t, rfl, hrel⟩
  | stuck => cases h
  | ask q next ih =>
      obtain ⟨answer, hserve, hnext⟩ := Option.bind_eq_some_iff.mp h
      obtain ⟨t₁, hserve', hrel₁⟩ := hstep q s t answer.1 answer.2 hrel hserve
      obtain ⟨t', hrun, hrel'⟩ := ih answer.1 hrel₁ hnext
      exact ⟨t', by rw [run_ask, hserve', Option.bind_some, hrun], hrel'⟩

/-- A counting loop that collects what its body returns. -/
def repeated : ℕ → Tree Q A R → Tree Q A (List R)
  | 0, _ => pure []
  | n + 1, t => do
      let x ← t
      let xs ← repeated n t
      pure (x :: xs)

/-- Every result the tree can come to, whatever the answers. -/
def Yields (P : R → Prop) : Tree Q A R → Prop
  | .done r => P r
  | .stuck => True
  | .ask _ next => ∀ answer, Yields P (next answer)

theorem Yields.of_run {P : R → Prop} {t : Tree Q A R} (h : Yields P t)
    {serve : Q → S → Option (A × S)} {s : S} {r : R} {s' : S}
    (hrun : run serve t s = some (r, s')) : P r := by
  induction t generalizing s with
  | done r' =>
      cases hrun
      exact h
  | stuck => cases hrun
  | ask q next ih =>
      obtain ⟨answer, -, hnext⟩ := Option.bind_eq_some_iff.mp hrun
      exact ih answer.1 (h answer.1) hnext

theorem Yields.mono {P P' : R → Prop} (hP : ∀ r, P r → P' r) {t : Tree Q A R}
    (h : Yields P t) : Yields P' t := by
  induction t with
  | done r => exact hP r h
  | stuck => exact True.intro
  | ask q next ih => exact fun answer => ih answer (h answer)

theorem Yields.trivial (t : Tree Q A R) : Yields (fun _ => True) t := by
  induction t with
  | done r => exact True.intro
  | stuck => exact True.intro
  | ask q next ih => exact ih

theorem Yields.bind {P : R → Prop} {P' : V → Prop} {t : Tree Q A R} {f : R → Tree Q A V}
    (ht : Yields P t) (hf : ∀ r, P r → Yields P' (f r)) : Yields P' (t >>= f) := by
  induction t with
  | done r => exact hf r ht
  | stuck => exact True.intro
  | ask q next ih => exact fun answer => ih answer (ht answer)

theorem Yields.after {P : V → Prop} {t : Tree Q A R} {f : R → Tree Q A V}
    (hf : ∀ r, Yields P (f r)) : Yields P (t >>= f) :=
  (Yields.trivial t).bind fun r _ => hf r

section FromList
variable (size : Q → ℕ)

/-- The reference server: the next cells of a list. -/
def fromList (q : Q) (cells : List B) : Option (List B × List B) :=
  if size q ≤ cells.length then some (cells.take (size q), cells.drop (size q)) else none

theorem fromList_of_le {size : Q → ℕ} {q : Q} {cells : List B} (h : size q ≤ cells.length) :
    fromList size q cells = some (cells.take (size q), cells.drop (size q)) :=
  if_pos h

theorem fromList_eq_some {size : Q → ℕ} {q : Q} {cells a rest : List B} :
    fromList size q cells = some (a, rest) ↔
      size q ≤ cells.length ∧ a = cells.take (size q) ∧ rest = cells.drop (size q) := by
  unfold fromList
  split <;> simp_all [eq_comm]

theorem fromList_append {q : Q} {used : List B} (h : used.length = size q) (rest : List B) :
    fromList size q (used ++ rest) = some (used, rest) := by
  simp [fromList, ← h]

/-- The tree returns `r` after exactly the cells `used`, whatever follows. -/
def Consumes (t : Tree Q (List B) R) (used : List B) (r : R) : Prop :=
  ∀ rest, run (fromList size) t (used ++ rest) = some (r, rest)

variable {size}

theorem Consumes.pure (r : R) : Consumes size (Pure.pure r : Tree Q (List B) R) [] r :=
  fun _ => rfl

theorem Consumes.ask {q : Q} {next : List B → Tree Q (List B) R} {used more : List B} {r : R}
    (hq : used.length = size q) (h : Consumes size (next used) more r) :
    Consumes size (.ask q next) (used ++ more) r := by
  intro rest
  rw [run_ask, List.append_assoc, fromList_append size hq, Option.bind_some]
  exact h rest

/-- One request whose answer is the result up to a function. -/
theorem Consumes.answer {q : Q} {used : List B} (hq : used.length = size q) (f : List B → R) :
    Consumes size (.ask q fun cells => Pure.pure (f cells)) used (f used) := by
  intro rest
  rw [run_ask, fromList_append size hq, Option.bind_some, run_pure]

theorem Consumes.bind {t : Tree Q (List B) R} {f : R → Tree Q (List B) V} {used more : List B}
    {r : R} {v : V} (ht : Consumes size t used r) (hf : Consumes size (f r) more v) :
    Consumes size (t >>= f) (used ++ more) v := by
  intro rest
  rw [run_bind, List.append_assoc, ht, Option.bind_some]
  exact hf rest

/-- Followed by a step that reads nothing. -/
theorem Consumes.map {t : Tree Q (List B) R} {used : List B} {r : R}
    (ht : Consumes size t used r) (f : R → V) :
    Consumes size (t >>= fun x => Pure.pure (f x)) used (f r) := by
  intro rest
  rw [run_bind, ht, Option.bind_some, run_pure]

theorem Consumes.repeated {t : Tree Q (List B) R} {E : Type} {code : E → List B} {value : E → R}
    {xs : List E} (h : ∀ x ∈ xs, Consumes size t (code x) (value x)) :
    Consumes size (StreamReads.repeated xs.length t) (xs.flatMap code) (xs.map value) := by
  induction xs with
  | nil => exact Consumes.pure []
  | cons x xs ih =>
      have htail := ih fun y hy => h y (by simp [hy])
      exact (h x (by simp)).bind (htail.map _)

theorem Consumes.repeatedFin {t : Tree Q (List B) R} {n : ℕ} {code : Fin n → List B}
    {value : Fin n → R} (h : ∀ i, Consumes size t (code i) (value i)) :
    Consumes size (StreamReads.repeated n t) ((List.finRange n).flatMap code)
      ((List.finRange n).map value) := by
  have hrepeated := Consumes.repeated fun i (_ : i ∈ List.finRange n) => h i
  rwa [List.length_finRange] at hrepeated

theorem run_length_le {t : Tree Q (List B) R} {cells rest : List B} {r : R}
    (h : run (fromList size) t cells = some (r, rest)) : rest.length ≤ cells.length := by
  induction t generalizing cells with
  | done r' =>
      cases h
      exact le_rfl
  | stuck => cases h
  | ask q next ih =>
      obtain ⟨answer, hserve, hnext⟩ := Option.bind_eq_some_iff.mp h
      obtain ⟨-, -, hrest⟩ := fromList_eq_some.mp hserve
      have hle := ih answer.1 hnext
      rw [hrest, List.length_drop] at hle
      exact hle.trans (Nat.sub_le _ _)

/-- The result determines the cells that were used. -/
def Determines (size : Q → ℕ) (t : Tree Q (List B) R) : Prop :=
  ∀ ⦃cells cells' rest rest' r⦄, run (fromList size) t cells = some (r, rest) →
    run (fromList size) t cells' = some (r, rest') →
    ∃ used, cells = used ++ rest ∧ cells' = used ++ rest'

theorem Determines.pure (r : R) : Determines size (Pure.pure r : Tree Q (List B) R) := by
  intro cells cells' rest rest' r' h h'
  obtain ⟨-, rfl⟩ := Prod.mk.inj (Option.some.inj h)
  obtain ⟨-, rfl⟩ := Prod.mk.inj (Option.some.inj h')
  exact ⟨[], rfl, rfl⟩

theorem Determines.stuck : Determines size (.stuck : Tree Q (List B) R) := nofun

theorem Determines.answer {q : Q} {f : List B → R}
    (h : ∀ a b, a.length = size q → b.length = size q → f a = f b → a = b) :
    Determines size (.ask q fun cells => Pure.pure (f cells)) := by
  intro cells cells' rest rest' r hrun hrun'
  obtain ⟨⟨a, _⟩, hserve, hnext⟩ := Option.bind_eq_some_iff.mp hrun
  obtain ⟨⟨b, _⟩, hserve', hnext'⟩ := Option.bind_eq_some_iff.mp hrun'
  obtain ⟨hfa, rfl⟩ := Prod.mk.inj (Option.some.inj hnext)
  obtain ⟨hfb, rfl⟩ := Prod.mk.inj (Option.some.inj hnext')
  obtain ⟨hle, ha, hrest⟩ := fromList_eq_some.mp hserve
  obtain ⟨hle', hb, hrest'⟩ := fromList_eq_some.mp hserve'
  have hab : a = b := h a b (by simp [ha, hle]) (by simp [hb, hle']) (hfa.trans hfb.symm)
  refine ⟨a, ?_, ?_⟩
  · rw [ha, hrest, List.take_append_drop]
  · rw [hab, hb, hrest', List.take_append_drop]

/-- A part of the final result says what the first step returned. -/
theorem Determines.bind (part : V → R) {t : Tree Q (List B) R} {f : R → Tree Q (List B) V}
    (ht : Determines size t) (hf : ∀ r, Determines size (f r))
    (hpart : ∀ r, Yields (fun v => part v = r) (f r)) : Determines size (t >>= f) := by
  intro cells cells' rest rest' v h h'
  rw [run_bind] at h h'
  obtain ⟨⟨r, middle⟩, hrun, hnext⟩ := Option.bind_eq_some_iff.mp h
  obtain ⟨⟨r', middle'⟩, hrun', hnext'⟩ := Option.bind_eq_some_iff.mp h'
  obtain rfl : part v = r := (hpart r).of_run hnext
  obtain rfl : part v = r' := (hpart r').of_run hnext'
  obtain ⟨used, rfl, rfl⟩ := ht hrun hrun'
  obtain ⟨more, rfl, rfl⟩ := hf _ hnext hnext'
  exact ⟨used ++ more, by rw [List.append_assoc], by rw [List.append_assoc]⟩

/-- Followed by a step that reads nothing and forgets nothing. -/
theorem Determines.map_injective {t : Tree Q (List B) R} (ht : Determines size t) {f : R → V}
    (hf : Function.Injective f) : Determines size (t >>= fun x => Pure.pure (f x)) := by
  intro cells cells' rest rest' v h h'
  rw [run_bind] at h h'
  obtain ⟨⟨r, _⟩, hrun, hpure⟩ := Option.bind_eq_some_iff.mp h
  obtain ⟨⟨r', _⟩, hrun', hpure'⟩ := Option.bind_eq_some_iff.mp h'
  obtain ⟨rfl, rfl⟩ := Prod.mk.inj (Option.some.inj hpure)
  obtain ⟨heq, rfl⟩ := Prod.mk.inj (Option.some.inj hpure')
  obtain rfl : r' = r := hf heq
  exact ht hrun hrun'

theorem Determines.map {t : Tree Q (List B) R} (ht : Determines size t) (f : R → V) (part : V → R)
    (hpart : ∀ r, part (f r) = r) : Determines size (t >>= fun x => Pure.pure (f x)) :=
  ht.map_injective (Function.LeftInverse.injective hpart)

theorem Determines.repeated {t : Tree Q (List B) R} (ht : Determines size t) (n : ℕ) :
    Determines size (StreamReads.repeated n t) := by
  induction n with
  | zero => exact .pure []
  | succ n ih =>
      intro cells cells' rest rest' xs h h'
      obtain ⟨⟨x₀, _⟩, -, -⟩ := Option.bind_eq_some_iff.mp (run_bind (fromList size) t _ _ ▸ h)
      have hhead : ∀ x, Yields (fun xs : List R => xs.headD x₀ = x)
          (StreamReads.repeated n t >>= fun xs => Pure.pure (x :: xs)) :=
        fun x => .after fun _ => rfl
      exact ht.bind (fun xs => xs.headD x₀) (fun x => ih.map (x :: ·) List.tail fun _ => rfl) hhead
        h h'

/-- The trees do the same on up to `n` cells. -/
def SameUpTo (size : Q → ℕ) (n : ℕ) (t t' : Tree Q (List B) R) : Prop :=
  ∀ cells, cells.length ≤ n → run (fromList size) t cells = run (fromList size) t' cells

theorem SameUpTo.refl (n : ℕ) (t : Tree Q (List B) R) : SameUpTo size n t t := fun _ _ => rfl

theorem SameUpTo.bind {n : ℕ} {t t' : Tree Q (List B) R} {f f' : R → Tree Q (List B) V}
    (ht : SameUpTo size n t t') (hf : ∀ r, SameUpTo size n (f r) (f' r)) :
    SameUpTo size n (t >>= f) (t' >>= f') := by
  intro cells hcells
  rw [run_bind, run_bind, ← ht cells hcells]
  cases hrun : run (fromList size) t cells with
  | none => rfl
  | some result => exact hf result.1 result.2 ((run_length_le hrun).trans hcells)

theorem SameUpTo.repeated {n : ℕ} {t t' : Tree Q (List B) R} (ht : SameUpTo size n t t') (k : ℕ) :
    SameUpTo size n (StreamReads.repeated k t) (StreamReads.repeated k t') := by
  induction k with
  | zero => exact .refl _ _
  | succ k ih => exact ht.bind fun _ => ih.bind fun _ => .refl _ _

end FromList

end Tarracsh.StreamReads
