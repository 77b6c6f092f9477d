import Mathlib.Data.List.Induction

/-!
# Runs of a step that may be impossible

A run takes its events one after the other and exists as long as each of them
is possible. What holds of every run and the state that it leads to is shown
for the empty run and for one event more.
-/
namespace Tarracsh.PartialRuns
variable {σ ε : Type} (step : σ → ε → Option σ)

def run (s : σ) (events : List ε) : Option σ := events.foldlM step s

variable {step} {start s s' : σ} {before events : List ε}

theorem run_rest (hrun : run step start before = some s) (events : List ε) :
    run step start (before ++ events) = run step s events := by
  rw [run, List.foldlM_append]
  change (run step start before).bind _ = _
  rw [hrun]
  rfl

theorem run_singleton (s : σ) (e : ε) : run step s [e] = step s e := by
  simp [run]

theorem run_concat (hrun : run step start events = some s) (e : ε) :
    run step start (events ++ [e]) = step s e :=
  (run_rest hrun [e]).trans (run_singleton s e)

theorem run_cons_some {e : ε} (hrun : run step s (e :: events) = some s') :
    ∃ t, step s e = some t ∧ run step t events = some s' := by
  rw [run, List.foldlM_cons] at hrun
  exact Option.bind_eq_some_iff.mp hrun

theorem run_append_some (hrun : run step start (before ++ events) = some s') :
    ∃ s, run step start before = some s ∧ run step s events = some s' := by
  rw [run, List.foldlM_append] at hrun
  exact Option.bind_eq_some_iff.mp hrun

/-- Induction from the end of a run. -/
theorem history {P : List ε → σ → Prop} (hstart : P [] start)
    (hstep : ∀ events e s s', run step start events = some s → P events s →
      step s e = some s' → P (events ++ [e]) s')
    (hrun : run step start events = some s) : P events s := by
  induction events using List.reverseRecOn generalizing s with
  | nil =>
      obtain rfl := Option.some.inj hrun
      exact hstart
  | append_singleton events e ih =>
      obtain ⟨t, ht, hlast⟩ := run_append_some hrun
      rw [run_singleton] at hlast
      exact hstep events e t s ht (ih ht) hlast

/-- A property that the events of one kind keep. -/
theorem kept {P : σ → Prop} {C : ε → Prop}
    (hstep : ∀ e s s', C e → P s → step s e = some s' → P s') (hall : ∀ e ∈ events, C e)
    (hs : P s) (hrun : run step s events = some s') : P s' := by
  induction events generalizing s with
  | nil =>
      obtain rfl := Option.some.inj hrun
      exact hs
  | cons e events ih =>
      obtain ⟨t, ht, hrun⟩ := run_cons_some hrun
      exact ih (fun e' he' => hall e' (by simp [he'])) (hstep e s t (hall e (by simp)) hs ht) hrun

end Tarracsh.PartialRuns
