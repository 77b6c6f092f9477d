import Mathlib.Data.Set.Basic
import Mathlib.Algebra.BigOperators.Group.List.Basic
import Mathlib.Data.List.Perm.Basic

/-!
# Steps with disjoint footprints

A step changes some cells of a state and pays into an account. It is local when
it changes only the cells of its footprint and reads no others. Local steps with
disjoint footprints leave the same state and the same account in every order.
-/
namespace Tarracsh.FootprintSteps

/-- What a step does to cells, and what it pays. -/
structure Step (K : Type) (V : K → Type) (T : Type) where
  footprint : Set K
  effect : (∀ k, V k) → ∀ k, V k
  pay : (∀ k, V k) → T

variable {K : Type} {V : K → Type} {T : Type}

namespace Step

/-- Nothing outside the footprint is changed or read. -/
structure Local (a : Step K V T) : Prop where
  frame : ∀ s k, k ∉ a.footprint → a.effect s k = s k
  reads : ∀ s s', (∀ k ∈ a.footprint, s k = s' k) →
    a.pay s = a.pay s' ∧ ∀ k ∈ a.footprint, a.effect s k = a.effect s' k

/-- The two steps have no cell in common. -/
def Apart (a b : Step K V T) : Prop :=
  ∀ k ∈ a.footprint, k ∉ b.footprint

variable {a b : Step K V T}

theorem Apart.symm (h : a.Apart b) : b.Apart a :=
  fun k hb ha => h k ha hb

/-- A step does not notice one on other cells. -/
theorem Local.after (ha : a.Local) (hb : b.Local) (hapart : a.Apart b) (s : ∀ k, V k) :
    a.pay (b.effect s) = a.pay s ∧ ∀ k ∈ a.footprint, a.effect (b.effect s) k = a.effect s k :=
  ha.reads _ _ fun k hk => hb.frame s k (hapart k hk)

theorem Local.effect_comm (ha : a.Local) (hb : b.Local) (hapart : a.Apart b) (s : ∀ k, V k) :
    b.effect (a.effect s) = a.effect (b.effect s) := by
  funext k
  by_cases hka : k ∈ a.footprint
  · have hkb := hapart k hka
    rw [hb.frame _ k hkb, (ha.after hb hapart s).2 k hka]
  · rw [ha.frame _ k hka]
    by_cases hkb : k ∈ b.footprint
    · exact (hb.after ha hapart.symm s).2 k hkb
    · rw [hb.frame _ k hkb, ha.frame _ k hka, hb.frame _ k hkb]

end Step

section Runs
variable [AddCommSemigroup T]

/-- One step with its payment. -/
def perform (s : (∀ k, V k) × T) (a : Step K V T) : (∀ k, V k) × T :=
  (a.effect s.1, s.2 + a.pay s.1)

def run (s : (∀ k, V k) × T) (steps : List (Step K V T)) : (∀ k, V k) × T :=
  steps.foldl perform s

theorem perform_comm {a b : Step K V T} (ha : a.Local) (hb : b.Local)
    (hapart : a.Apart b) (s : (∀ k, V k) × T) :
    perform (perform s a) b = perform (perform s b) a := by
  refine Prod.ext (ha.effect_comm hb hapart s.1) ?_
  change s.2 + a.pay s.1 + b.pay (a.effect s.1) = s.2 + b.pay s.1 + a.pay (b.effect s.1)
  rw [(hb.after ha hapart.symm s.1).1, (ha.after hb hapart s.1).1, add_right_comm]

/-- The order of the steps does not matter. -/
theorem run_perm {steps steps' : List (Step K V T)} (hperm : steps.Perm steps')
    (hlocal : ∀ a ∈ steps, a.Local)
    (hapart : ∀ a ∈ steps, ∀ b ∈ steps, a = b ∨ a.Apart b)
    (s : (∀ k, V k) × T) : run s steps = run s steps' := by
  apply hperm.foldl_eq'
  intro a ha b hb s
  rcases hapart a ha b hb with rfl | hne
  · rfl
  · exact perform_comm (hlocal a ha) (hlocal b hb) hne s

end Runs

section Apart
variable [AddCommMonoid T]

/-- Steps that are pairwise apart each do what they do alone. -/
theorem run_apart {steps : List (Step K V T)} (hlocal : ∀ a ∈ steps, a.Local)
    (hapart : steps.Pairwise Step.Apart) (s : (∀ k, V k) × T) :
    (∀ a ∈ steps, ∀ k ∈ a.footprint, (run s steps).1 k = a.effect s.1 k) ∧
      (∀ k, (∀ a ∈ steps, k ∉ a.footprint) → (run s steps).1 k = s.1 k) ∧
      (run s steps).2 = s.2 + (steps.map fun a => a.pay s.1).sum := by
  induction steps generalizing s with
  | nil => exact ⟨nofun, fun _ _ => rfl, (add_zero _).symm⟩
  | cons a steps ih =>
      obtain ⟨ha, hlocal⟩ := List.forall_mem_cons.mp hlocal
      obtain ⟨hhead, htail⟩ := List.pairwise_cons.mp hapart
      obtain ⟨hown, hframe, hpay⟩ := ih hlocal htail (perform s a)
      refine ⟨List.forall_mem_cons.mpr ⟨fun k hk => ?_, fun b hb k hk => ?_⟩, fun k hk => ?_, ?_⟩
      · exact hframe k fun b hb => hhead b hb k hk
      · have hafter := (hlocal b hb).after ha (hhead b hb).symm s.1
        exact (hown b hb k hk).trans (hafter.2 k hk)
      · obtain ⟨hka, hk⟩ := List.forall_mem_cons.mp hk
        exact (hframe k hk).trans (ha.frame s.1 k hka)
      · have hsame : steps.map (fun b => b.pay (a.effect s.1)) = steps.map fun b => b.pay s.1 :=
          List.map_congr_left fun b hb => ((hlocal b hb).after ha (hhead b hb).symm s.1).1
        rw [List.map_cons, List.sum_cons, ← add_assoc, ← hsame]
        exact hpay

end Apart

end Tarracsh.FootprintSteps
