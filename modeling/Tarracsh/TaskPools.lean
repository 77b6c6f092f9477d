import Mathlib.Algebra.BigOperators.Group.Finset.Basic
import Mathlib.Algebra.BigOperators.Fin

/-!
# Tasks that run in any order

A pool has a task for each index. A task has a state of its own, and each of
its actions adds to one total that all tasks share. A schedule says which task
acts next. What a task does when it runs alone settles what is left behind by
every schedule that lets all tasks come to their ends.
-/
namespace Tarracsh.TaskPools

variable {I A M : Type} [AddCommMonoid M]

/-- One task alone: its end, what it adds in total and the number of actions. -/
inductive Ends (next : A → Option (A × M)) : A → A → M → ℕ → Prop
  | done {a} : next a = none → Ends next a a 0 0
  | act {a b c m sum steps} : next a = some (b, m) → Ends next b c sum steps →
      Ends next a c (m + sum) (steps + 1)

theorem Ends.of_act {next : A → Option (A × M)} {a b c : A} {m sum : M} {steps : ℕ}
    (h : Ends next a c sum steps) (hact : next a = some (b, m)) :
    ∃ sum' steps', Ends next b c sum' steps' ∧ sum = m + sum' ∧ steps = steps' + 1 := by
  cases h with
  | done hnone => simp [hnone] at hact
  | act hact' hrest =>
      rw [hact', Option.some.injEq, Prod.mk.injEq] at hact
      obtain ⟨rfl, rfl⟩ := hact
      exact ⟨_, _, hrest, rfl, rfl⟩

theorem Ends.of_none {next : A → Option (A × M)} {a b : A} {sum : M} {steps : ℕ}
    (h : Ends next a b sum steps) (hnone : next a = none) : a = b ∧ sum = 0 ∧ steps = 0 := by
  cases h with
  | done => exact ⟨rfl, rfl, rfl⟩
  | act hact => simp [hnone] at hact

/-- A task that has come to its end does not act. -/
theorem Ends.eq_none {next : A → Option (A × M)} {a b : A} {sum : M}
    (h : Ends next a b sum 0) : next a = none := by
  cases h with
  | done hnone => exact hnone

structure Pool (I A M : Type) where
  tasks : I → A
  total : M

/-- One summand is split, and the second part of it stays. -/
theorem sum_update [DecidableEq I] [Fintype I] {f : I → M} {i : I} {x y : M} (h : f i = x + y) :
    ∑ j, f j = x + ∑ j, Function.update f i y j := by
  rw [Finset.sum_update_of_mem (Finset.mem_univ i), ← add_assoc, ← h]
  exact Finset.sum_eq_add_sum_sdiff_singleton_of_mem (Finset.mem_univ i) f

section Schedules
variable [DecidableEq I] (next : I → A → Option (A × M))

/-- The next action of one task. -/
def act (p : Pool I A M) (i : I) : Option (Pool I A M) :=
  (next i (p.tasks i)).map fun (a, m) => ⟨Function.update p.tasks i a, p.total + m⟩

/-- Each entry of a schedule is a task that acts. -/
def run : List I → Pool I A M → Option (Pool I A M)
  | [], p => some p
  | i :: schedule, p => act next p i >>= run schedule

/-- No task can act. -/
def Finished (p : Pool I A M) : Prop := ∀ i, next i (p.tasks i) = none

variable {next}

variable [Fintype I]

/-- Where the tasks end, what the total will be, and how many actions that takes. -/
def Leads (next : I → A → Option (A × M)) (p : Pool I A M) (ends : I → A) (total : M)
    (steps : ℕ) : Prop :=
  ∃ (sums : I → M) (counts : I → ℕ), (∀ i, Ends (next i) (p.tasks i) (ends i) (sums i) (counts i)) ∧
    p.total + ∑ i, sums i = total ∧ ∑ i, counts i = steps

variable {p q : Pool I A M} {ends : I → A} {total : M} {steps : ℕ}

/-- An action of a task is one of those that are to come. -/
theorem Leads.after_act (h : Leads next p ends total steps) {i : I} (hact : act next p i = some q) :
    ∃ steps', steps = steps' + 1 ∧ Leads next q ends total steps' := by
  obtain ⟨sums, counts, hends, htotal, hsteps⟩ := h
  rw [act, Option.map_eq_some_iff] at hact
  obtain ⟨⟨a, m⟩, hnext, rfl⟩ := hact
  obtain ⟨sum, count, hrest, hsum, hcount⟩ := (hends i).of_act hnext
  have hcounts := sum_update (hcount.trans (Nat.add_comm count 1))
  refine ⟨_, ?_, Function.update sums i sum, Function.update counts i count, ?_, ?_, rfl⟩
  · rw [← hsteps, hcounts, Nat.add_comm]
  · intro j
    by_cases hj : j = i
    · subst hj
      simpa using hrest
    · simpa [hj] using hends j
  · rw [← htotal, sum_update hsum, add_assoc]

theorem Leads.after_run (h : Leads next p ends total steps) {schedule : List I}
    (hrun : run next schedule p = some q) :
    ∃ steps', steps = steps' + schedule.length ∧ Leads next q ends total steps' := by
  induction schedule generalizing p steps with
  | nil =>
      obtain rfl : p = q := by simpa [run] using hrun
      exact ⟨steps, rfl, h⟩
  | cons i schedule ih =>
      rw [run, Option.bind_eq_bind, Option.bind_eq_some_iff] at hrun
      obtain ⟨r, hact, hrest⟩ := hrun
      obtain ⟨steps', hsteps', hr⟩ := h.after_act hact
      obtain ⟨steps'', hsteps'', hq⟩ := ih hr hrest
      exact ⟨steps'', by rw [List.length_cons]; omega, hq⟩

omit [DecidableEq I] in
/-- When no task can act, all have come to their ends. -/
theorem Leads.finished (h : Leads next p ends total steps) (hdone : Finished next p) :
    p.tasks = ends ∧ p.total = total := by
  obtain ⟨sums, counts, hends, htotal, -⟩ := h
  have hdone : ∀ i, p.tasks i = ends i ∧ sums i = 0 := by
    intro i
    obtain ⟨hend, hsum, -⟩ := (hends i).of_none (hdone i)
    exact ⟨hend, hsum⟩
  refine ⟨funext fun i => (hdone i).1, ?_⟩
  rw [← htotal, Finset.sum_eq_zero fun i _ => (hdone i).2, add_zero]

/-- While there is something to come, some task can act. -/
theorem Leads.exists_act (h : Leads next p ends total (steps + 1)) : ∃ i, act next p i ≠ none := by
  by_contra hnone
  push Not at hnone
  obtain ⟨sums, counts, hends, -, hsteps⟩ := h
  have hcounts : ∀ i, counts i = 0 := by
    intro i
    have hi := hnone i
    rw [act, Option.map_eq_none_iff] at hi
    exact ((hends i).of_none hi).2.2
  simp [hcounts] at hsteps

/-- Some schedule brings all tasks to their ends. -/
theorem Leads.exists_run (h : Leads next p ends total steps) :
    ∃ schedule q, run next schedule p = some q ∧ Finished next q := by
  induction steps generalizing p with
  | zero =>
      obtain ⟨sums, counts, hends, -, hsteps⟩ := h
      refine ⟨[], p, rfl, fun i => ?_⟩
      have hcount : counts i = 0 := Finset.sum_eq_zero_iff.mp hsteps i (Finset.mem_univ i)
      exact (hcount ▸ hends i).eq_none
  | succ steps ih =>
      obtain ⟨i, hi⟩ := h.exists_act
      obtain ⟨r, hact⟩ := Option.ne_none_iff_exists'.mp hi
      obtain ⟨steps', hsteps', hr⟩ := h.after_act hact
      obtain rfl : steps = steps' := by omega
      obtain ⟨schedule, q, hrun, hq⟩ := ih hr
      exact ⟨i :: schedule, q, by rw [run, hact]; exact hrun, hq⟩

end Schedules

end Tarracsh.TaskPools
