import Mathlib.Data.List.Basic

/-!
# Runs with labelled steps

A run is a list of steps, each with its label and the state that it leads to.
An invariant is shown for one step and then holds in every state of a run, and
a property that each step keeps exactly under a condition holds in every state
exactly when all steps meet the condition.
-/
namespace Tarracsh.LabelledRuns

variable {L S : Type} (Step : L → S → S → Prop)

def Run : S → List (L × S) → Prop
  | _, [] => True
  | s, (l, t) :: run => Step l s t ∧ Run t run

/-- The property holds in every state of the run. -/
def Along (P : S → Prop) : S → List (L × S) → Prop
  | s, [] => P s
  | s, (_, t) :: run => P s ∧ Along P t run

/-- Every step meets the condition on its label and the state before it. -/
def Meets (C : L → S → Prop) : S → List (L × S) → Prop
  | _, [] => True
  | s, (l, t) :: run => C l s ∧ Meets C t run

variable {Step} {P Q : S → Prop} {C : L → S → Prop} {s : S} {run : List (L × S)}

theorem Run.along (h : Run Step s run) (hs : P s)
    (hstep : ∀ l s t, P s → Step l s t → P t) : Along P s run := by
  induction run generalizing s with
  | nil => exact hs
  | cons x run ih => exact ⟨hs, ih h.2 (hstep x.1 s x.2 hs h.1)⟩

theorem Along.head (h : Along P s run) : P s := by
  cases run with
  | nil => exact h
  | cons x run => exact h.1

theorem along_and : Along (fun s => P s ∧ Q s) s run ↔ Along P s run ∧ Along Q s run := by
  induction run generalizing s with
  | nil => exact Iff.rfl
  | cons x run ih =>
      simp only [Along, ih]
      exact and_and_and_comm

theorem Along.imp (h : Along P s run) (himp : ∀ s, P s → Q s) : Along Q s run := by
  induction run generalizing s with
  | nil => exact himp s h
  | cons x run ih => exact ⟨himp s h.1, ih h.2⟩

/-- Under an invariant, a property that a step keeps exactly under a condition. -/
theorem Run.along_iff (h : Run Step s run) (hs : P s) (hQ : Q s)
    (hstep : ∀ l s t, P s → Step l s t → P t)
    (hkeeps : ∀ l s t, P s → Q s → Step l s t → (Q t ↔ C l s)) :
    Along Q s run ↔ Meets C s run := by
  induction run generalizing s with
  | nil => exact iff_of_true hQ trivial
  | cons x run ih =>
      have hkept := hkeeps x.1 s x.2 hs hQ h.1
      constructor
      · rintro ⟨-, hrest⟩
        exact ⟨hkept.mp hrest.head,
          (ih h.2 (hstep x.1 s x.2 hs h.1) hrest.head).mp hrest⟩
      · rintro ⟨hc, hrest⟩
        exact ⟨hQ, (ih h.2 (hstep x.1 s x.2 hs h.1) (hkept.mpr hc)).mpr hrest⟩

end Tarracsh.LabelledRuns
