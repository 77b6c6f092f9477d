import Mathlib.Data.UInt
import Mathlib.Tactic.Common

/-!
# Loops over a 32-bit counter

A loop asks its condition at the counter, runs its body and increments the
counter, which starts again from zero behind the largest number. A run is
given the number of iterations it may take. `Settles` says that no more than
`2 ^ 32` of them are needed and how the run ends, and `Endless` that no number
is enough.
-/
namespace Tarracsh.CountedLoops

/-- How far a run has come. -/
inductive Progress (S : Type) where
  | running
  | failed
  | returned (result : S)
  deriving DecidableEq, Repr

namespace Progress

def bind {S T : Type} : Progress S → (S → Progress T) → Progress T
  | .running, _ => .running
  | .failed, _ => .failed
  | .returned s, f => f s

instance : Monad Progress where
  pure := .returned
  bind := bind

section
variable {S T : Type} (f : S → Progress T)

@[simp] theorem running_bind : (Progress.running >>= f) = .running := rfl

@[simp] theorem failed_bind : (Progress.failed >>= f) = .failed := rfl

@[simp] theorem returned_bind (s : S) : (Progress.returned s >>= f) = f s := rfl

theorem bind_eq_returned {f : S → Progress T} {run : Progress S} {t : T}
    (h : (run >>= f) = .returned t) : ∃ s, run = .returned s ∧ f s = .returned t := by
  cases run with
  | running => simp at h
  | failed => simp at h
  | returned s => exact ⟨s, rfl, h⟩

@[simp] theorem pure_eq (s : S) : (pure s : Progress S) = .returned s := rfl

end

end Progress

/-- One turn of a loop: the condition is false, the body fails, or it ends in
a new state. -/
inductive Turn (S : Type) where
  | done
  | abort
  | next (s : S)

/-- The loop from the counter `i` on. -/
def loop {S : Type} (turn : ℕ → S → Turn S) : ℕ → UInt32 → S → Progress S
  | 0, _, _ => .running
  | fuel + 1, i, s =>
      match turn i.toNat s with
      | .done => .returned s
      | .abort => .failed
      | .next s => loop turn fuel (i + 1) s

/-- Within `2 ^ 32` iterations the run returns a state with `P` when `good`
holds, and fails otherwise. -/
def Settles {S : Type} (run : ℕ → Progress S) (good : Prop) (P : S → Prop) : Prop :=
  ∀ fuel, (run fuel = .running ∧ fuel ≤ 2 ^ 32) ∨ (good ∧ ∃ s, run fuel = .returned s ∧ P s) ∨
    (¬ good ∧ run fuel = .failed)

/-- The run never returns. -/
def Endless {S : Type} (run : ℕ → Progress S) : Prop :=
  ∀ fuel s, run fuel ≠ .returned s

namespace Settles
variable {S T : Type} {run : ℕ → Progress S} {good : Prop} {P : S → Prop}

theorem returned (h : Settles run good P) {fuel : ℕ} {s : S} (hrun : run fuel = .returned s) :
    good ∧ P s := by
  rcases h fuel with ⟨hr, -⟩ | ⟨hgood, s', hr, hs'⟩ | ⟨-, hr⟩
  · simp [hr] at hrun
  · rw [hr] at hrun
    cases hrun
    exact ⟨hgood, hs'⟩
  · simp [hr] at hrun

theorem exists_returned (h : Settles run good P) (hgood : good) :
    ∃ fuel s, run fuel = .returned s ∧ P s := by
  rcases h (2 ^ 32 + 1) with ⟨-, hlt⟩ | ⟨-, hs⟩ | ⟨hbad, -⟩
  · omega
  · exact ⟨_, hs⟩
  · exact absurd hgood hbad

theorem mono {Q : S → Prop} (h : Settles run good P) (hPQ : ∀ s, P s → Q s) :
    Settles run good Q := by
  intro fuel
  rcases h fuel with hr | ⟨hgood, s, hr, hs⟩ | hr
  · exact .inl hr
  · exact .inr (.inl ⟨hgood, s, hr, hPQ s hs⟩)
  · exact .inr (.inr hr)

theorem congr {good' : Prop} (h : Settles run good P) (hgood : good ↔ good') :
    Settles run good' P := by
  rwa [← propext hgood]

theorem bind {f : ℕ → S → Progress T} {good' : Prop} {Q : T → Prop} (h : Settles run good P)
    (hf : ∀ s, P s → Settles (fun fuel => f fuel s) good' Q) :
    Settles (fun fuel => run fuel >>= f fuel) (good ∧ good') Q := by
  intro fuel
  rcases h fuel with ⟨hr, hfuel⟩ | ⟨hgood, s, hr, hs⟩ | ⟨hbad, hr⟩
  · exact .inl ⟨by simp [hr], hfuel⟩
  · simp only [hr, Progress.returned_bind, hgood, true_and]
    exact hf s hs fuel
  · exact .inr (.inr ⟨fun h => hbad h.1, by simp [hr]⟩)

theorem map {f : S → T} {Q : T → Prop} (h : Settles run good P) (hf : ∀ s, P s → Q (f s)) :
    Settles (fun fuel => run fuel >>= fun s => Pure.pure (f s)) good Q := by
  have hf' : ∀ s, P s → Settles (fun _ => Pure.pure (f s)) True Q :=
    fun s hs _ => .inr (.inl ⟨trivial, f s, rfl, hf s hs⟩)
  exact (h.bind hf').congr (iff_of_eq (and_true _))

end Settles

section Loops
variable {S : Type} {turn : ℕ → S → Turn S}

/-- The loop runs over the numbers below `n`. At each of them the body either
keeps the invariant, or fails because `good` has become false. -/
theorem settles_loop {n : ℕ} (hn : n < 2 ^ 32) (Inv : ℕ → S → Prop) (good : ℕ → Prop)
    (hmono : ∀ k < n, good (k + 1) → good k) (hdone : ∀ s, Inv n s → turn n s = .done)
    (hnext : ∀ k s, k < n → good k → Inv k s →
      (good (k + 1) ∧ ∃ s', turn k s = .next s' ∧ Inv (k + 1) s') ∨
      (¬ good (k + 1) ∧ turn k s = .abort))
    {s : S} (hgood : good 0) (hs : Inv 0 s) :
    Settles (fun fuel => loop turn fuel 0 s) (good n) (Inv n) := by
  have hlast : ∀ k, k ≤ n → good n → good k := by
    intro k hk hg
    induction hk using Nat.decreasingInduction with
    | of_succ k hk ih => exact hmono k hk (ih)
    | self => exact hg
  have key : ∀ fuel k s, k ≤ n → good k → Inv k s →
      (loop turn fuel (UInt32.ofNat k) s = .running ∧ fuel + k ≤ n) ∨
      (good n ∧ ∃ s', loop turn fuel (UInt32.ofNat k) s = .returned s' ∧ Inv n s') ∨
      (¬ good n ∧ loop turn fuel (UInt32.ofNat k) s = .failed) := by
    intro fuel
    induction fuel with
    | zero =>
        intro k s hk _ _
        exact .inl ⟨rfl, by omega⟩
    | succ fuel ih =>
        intro k s hk hg hs
        have hcounter : (UInt32.ofNat k).toNat = k := by
          rw [UInt32.toNat_ofNat']
          exact Nat.mod_eq_of_lt (by omega)
        rcases Nat.lt_or_ge k n with hlt | hge
        · rcases hnext k s hlt hg hs with ⟨hg', s', hturn, hs'⟩ | ⟨hbad, hturn⟩
          · have hloop : loop turn (fuel + 1) (UInt32.ofNat k) s =
                loop turn fuel (UInt32.ofNat (k + 1)) s' := by
              simp [loop, hcounter, hturn, UInt32.ofNat_add]
            rw [hloop]
            rcases ih (k + 1) s' hlt hg' hs' with ⟨hr, hle⟩ | h | h
            · exact .inl ⟨hr, by omega⟩
            · exact .inr (.inl h)
            · exact .inr (.inr h)
          · exact .inr (.inr ⟨fun hgn => hbad (hlast (k + 1) hlt hgn),
              by simp [loop, hcounter, hturn]⟩)
        · obtain rfl : k = n := by omega
          exact .inr (.inl ⟨hg, s, by simp [loop, hcounter, hdone s hs], hs⟩)
  intro fuel
  rcases key fuel 0 s (Nat.zero_le n) hgood hs with ⟨hr, hle⟩ | h | h
  · exact .inl ⟨hr, by omega⟩
  · exact .inr (.inl h)
  · exact .inr (.inr h)

/-- A condition that holds at every 32-bit number keeps the loop going. -/
theorem endless_loop (Inv : S → Prop)
    (hturn : ∀ k s, k < 2 ^ 32 → Inv s → turn k s ≠ .done)
    (hnext : ∀ k s s', Inv s → turn k s = .next s' → Inv s') {s : S} (hs : Inv s) :
    Endless fun fuel => loop turn fuel 0 s := by
  have key : ∀ fuel i s, Inv s → ∀ s', loop turn fuel i s ≠ .returned s' := by
    intro fuel
    induction fuel with
    | zero =>
        intro i s _ s'
        simp [loop]
    | succ fuel ih =>
        intro i s hs s'
        rw [loop]
        cases ht : turn i.toNat s with
        | done => exact absurd ht (hturn _ s i.toNat_lt hs)
        | abort => simp
        | next s₁ => exact ih (i + 1) s₁ (hnext _ s s₁ hs ht) s'
  intro fuel s'
  exact key fuel 0 s hs s'

end Loops

end Tarracsh.CountedLoops
