import Mathlib.Algebra.BigOperators.Group.Finset.Piecewise
import Mathlib.Tactic.Abel

/-!
# Threads that take turns

Threads work on a state that they share, each through stages of its own. A
thread relies on some part of the state, and as long as every turn leaves alone
what the other threads rely on, each thread gets as far as it gets alone,
whatever the schedule is.

What the threads pay into a common account adds up. A turn may use some of the
room that is left, and every thread has a bounded number of turns.
-/
namespace Tarracsh.InterleavedThreads

/-- The shared state and the stage of every thread. -/
structure System (ι σ θ : Type) where
  shared : σ
  stages : ι → θ

section Runs
variable {m : Type → Type} [Monad m] {ι σ θ : Type} [DecidableEq ι] (turn : σ → θ → m (σ × θ))

/-- A turn of one thread. -/
def step (S : System ι σ θ) (i : ι) : m (System ι σ θ) := do
  let out ← turn S.shared (S.stages i)
  pure ⟨out.1, Function.update S.stages i out.2⟩

/-- The threads take turns as the schedule says. -/
def run (S : System ι σ θ) (schedule : List ι) : m (System ι σ θ) := schedule.foldlM (step turn) S

variable {T : Type} [AddCommMonoid T]

/-- How the turns are judged. `At i s t paid` says what thread `i` at stage `t`
has achieved in `s`, and what it has paid for that. -/
structure Rules (ι σ θ T : Type) where
  Inv : σ → Prop
  At : ι → σ → θ → T → Prop
  account : σ → T
  used : σ → ℕ
  need : θ → ℕ
  left : θ → ℕ
  room : ℕ

variable (R : Rules ι σ θ T)

/-- A turn of thread `i` that takes it to the stage `t'`. -/
structure Turned (i : ι) (s : σ) (t : θ) (paid : T) (s' : σ) (t' : θ) (pay : T) : Prop where
  inv : R.Inv s'
  own : R.At i s' t' (paid + pay)
  account : R.account s' = R.account s + pay
  used : R.used s' + R.need t' ≤ R.used s + R.need t
  left : R.left t' ≤ R.left t - 1
  others : ∀ j, j ≠ i → ∀ u paid, R.At j s u paid → R.At j s' u paid

/-- Every turn is possible and leaves the other threads alone. -/
def Obeys : Prop :=
  ∀ i s t paid, R.Inv s → R.At i s t paid → R.used s + R.need t ≤ R.room →
    ∃ s' t' pay, turn s t = pure (s', t') ∧ Turned R i s t paid s' t' pay

variable [Fintype ι]

/-- Where the threads stand, with what each of them has paid since the account
was at `start`. -/
structure Standing (start : T) (S : System ι σ θ) (paid : ι → T) : Prop where
  inv : R.Inv S.shared
  each : ∀ i, R.At i S.shared (S.stages i) (paid i)
  account : R.account S.shared = start + ∑ i, paid i
  room : R.used S.shared + ∑ i, R.need (S.stages i) ≤ R.room

variable {turn R} {start : T} {S : System ι σ θ} {paid : ι → T}

theorem sum_update {N : Type} [AddCommMonoid N] (f : ι → N) (i : ι) (x : N) :
    ∑ j, Function.update f i x j = x + ∑ j ∈ Finset.univ \ {i}, f j :=
  Finset.sum_update_of_mem (Finset.mem_univ i) f x

theorem sum_eq_add (f : ι → ℕ) (i : ι) : ∑ j, f j = f i + ∑ j ∈ Finset.univ \ {i}, f j := by
  rw [← sum_update f i (f i), Function.update_eq_self]

variable [LawfulMonad m]

theorem Standing.step (h : Standing R start S paid) (hobeys : Obeys turn R) (i : ι) :
    ∃ S' paid', step turn S i = pure S' ∧ Standing R start S' paid' ∧
      ∀ j, R.left (S'.stages j) ≤ R.left (S.stages j) - if i = j then 1 else 0 := by
  have hsum := sum_eq_add (fun j => R.need (S.stages j)) i
  have hroom := h.room
  obtain ⟨s', t', pay, hturn, hturned⟩ :=
    hobeys i S.shared (S.stages i) (paid i) h.inv (h.each i) (by omega)
  refine ⟨⟨s', Function.update S.stages i t'⟩, Function.update paid i (paid i + pay), ?_,
    ⟨hturned.inv, ?_, ?_, ?_⟩, ?_⟩
  · rw [InterleavedThreads.step, hturn, pure_bind]
  · intro j
    by_cases hj : j = i
    · subst hj
      simpa using hturned.own
    · simpa [Function.update_of_ne hj] using hturned.others j hj _ _ (h.each j)
  · have hpaid : ∑ j, Function.update paid i (paid i + pay) j = ∑ j, paid j + pay := by
      have hsame := sum_update paid i (paid i)
      rw [Function.update_eq_self] at hsame
      rw [sum_update, hsame]
      abel
    rw [hturned.account, h.account, hpaid, add_assoc]
  · have hneed : ∑ j, R.need (Function.update S.stages i t' j) =
        R.need t' + ∑ j ∈ Finset.univ \ {i}, R.need (S.stages j) := by
      rw [← sum_update (fun j => R.need (S.stages j)) i (R.need t')]
      refine Finset.sum_congr rfl fun j _ => ?_
      exact congrFun (Function.comp_update R.need S.stages i t') j
    have hused := hturned.used
    simp only [hneed]
    omega
  · intro j
    by_cases hj : i = j
    · subst hj
      simpa using hturned.left
    · simp [Function.update_of_ne (Ne.symm hj), hj]

/-- Every schedule can be run. -/
theorem Standing.run (h : Standing R start S paid) (hobeys : Obeys turn R) (schedule : List ι) :
    ∃ S' paid', run turn S schedule = pure S' ∧ Standing R start S' paid' ∧
      ∀ j, R.left (S'.stages j) ≤ R.left (S.stages j) - schedule.count j := by
  induction schedule generalizing S paid with
  | nil => exact ⟨S, paid, rfl, h, fun j => by simp⟩
  | cons i schedule ih =>
      obtain ⟨S₁, paid₁, hstep, h₁, hleft₁⟩ := h.step hobeys i
      obtain ⟨S', paid', hrun, h', hleft⟩ := ih h₁
      refine ⟨S', paid', ?_, h', fun j => ?_⟩
      · rw [InterleavedThreads.run, List.foldlM_cons, hstep, pure_bind]
        exact hrun
      · have hstep' := hleft₁ j
        have hrest := hleft j
        rw [List.count_cons]
        simp only [beq_iff_eq]
        omega

end Runs

end Tarracsh.InterleavedThreads
