import Mathlib.Data.List.Nodup
import Mathlib.Logic.Function.Basic

/-!
# Looking under one key and storing under another

Agents work on a shared map from keys to records, one after the other. An agent
looks under one key, reacts to what it finds there, and may then store a record
of its own under another key. Two questions are answered here: when the same
agents leave everything as it is the next time, and when their order does not
matter.
-/
namespace Tarracsh.KeyedReactions

/-- What the agents do. -/
structure Rules (E K R V : Type) where
  look : E → K
  react : E → Option R → V
  stores : E → V → Bool
  target : E → K
  record : E → R

variable {E K R V : Type} [DecidableEq K] (rules : Rules E K R V)

namespace Rules

/-- The reaction of an agent to a map. -/
def verdict (M : K → Option R) (e : E) : V := rules.react e (M (rules.look e))

/-- The agent stores its record. -/
def Writes (M : K → Option R) (e : E) : Prop := rules.stores e (rules.verdict M e) = true

instance (M : K → Option R) (e : E) : Decidable (rules.Writes M e) :=
  inferInstanceAs (Decidable (_ = _))

def step (M : K → Option R) (e : E) : K → Option R :=
  if rules.Writes M e then Function.update M (rules.target e) (some (rules.record e)) else M

def after (M : K → Option R) (es : List E) : K → Option R := es.foldl rules.step M

/-- The agents with their reactions, each to the map that it meets. -/
def verdicts (M : K → Option R) : List E → List (E × V)
  | [] => []
  | e :: es => (e, rules.verdict M e) :: verdicts (rules.step M e) es

/-- The agent does not overwrite a record. -/
def Adds (M : K → Option R) (e : E) : Prop := rules.Writes M e → M (rules.target e) = none

/-- No agent overwrites a record. -/
def Extends (M : K → Option R) : List E → Prop
  | [] => True
  | e :: es => rules.Adds M e ∧ Extends (rules.step M e) es

end Rules

variable {rules} {M : K → Option R} {e : E} {es : List E}

theorem step_of_ne {k : K} (h : rules.Writes M e → rules.target e ≠ k) :
    rules.step M e k = M k := by
  unfold Rules.step
  split_ifs with hwrites
  · exact Function.update_of_ne (Ne.symm (h hwrites)) _ _
  · rfl

theorem step_target (h : rules.Writes M e) :
    rules.step M e (rules.target e) = some (rules.record e) := by
  rw [Rules.step, if_pos h, Function.update_self]

theorem after_concat (M : K → Option R) (es : List E) (e : E) :
    rules.after M (es ++ [e]) = rules.step (rules.after M es) e := List.foldl_concat ..

/-- The last agent meets what the others leave. -/
theorem verdicts_concat (M : K → Option R) (es : List E) (e : E) :
    rules.verdicts M (es ++ [e]) =
      rules.verdicts M es ++ [(e, rules.verdict (rules.after M es) e)] := by
  induction es generalizing M with
  | nil => rfl
  | cons a es ih =>
      rw [List.cons_append, Rules.verdicts, ih, Rules.verdicts, List.cons_append]
      rfl

omit [DecidableEq K] in
theorem verdict_congr {M' : K → Option R} (h : M' (rules.look e) = M (rules.look e)) :
    rules.verdict M' e = rules.verdict M e := by
  rw [Rules.verdict, Rules.verdict, h]

omit [DecidableEq K] in
theorem writes_congr {M' : K → Option R} (h : M' (rules.look e) = M (rules.look e)) :
    rules.Writes M' e ↔ rules.Writes M e := by
  rw [Rules.Writes, Rules.Writes, verdict_congr h]

section Repeating

/-- Every agent that stores does so under the key it looks under. -/
def Own (rules : Rules E K R V) (M : K → Option R) (es : List E) : Prop :=
  ∀ e ∈ es, rules.Writes M e → rules.target e = rules.look e

theorem Own.tail (h : Own rules M (e :: es)) (hnodup : ((e :: es).map rules.look).Nodup) :
    (∀ a ∈ es, rules.step M e (rules.look a) = M (rules.look a)) ∧
      Own rules (rules.step M e) es := by
  rw [List.map_cons, List.nodup_cons] at hnodup
  have hsame : ∀ a ∈ es, rules.step M e (rules.look a) = M (rules.look a) := by
    intro a ha
    apply step_of_ne
    intro hwrites htarget
    rw [h e List.mem_cons_self hwrites] at htarget
    exact hnodup.1 (htarget ▸ List.mem_map_of_mem ha)
  refine ⟨hsame, fun a ha hwrites => ?_⟩
  exact h a (List.mem_cons_of_mem e ha) ((writes_congr (hsame a ha)).mp hwrites)

theorem Own.after_of_notMem (h : Own rules M es) (hnodup : (es.map rules.look).Nodup) {k : K}
    (hk : k ∉ es.map rules.look) : rules.after M es k = M k := by
  induction es generalizing M with
  | nil => rfl
  | cons e es ih =>
      rw [List.map_cons, List.mem_cons, not_or] at hk
      have hstep : rules.step M e k = M k := by
        apply step_of_ne
        intro hwrites
        rw [h e List.mem_cons_self hwrites]
        exact Ne.symm hk.1
      have hrest := ih (h.tail hnodup).2 (List.nodup_cons.mp hnodup).2 hk.2
      exact hrest.trans hstep

/-- Every agent finds its own record, or what was there before. -/
theorem Own.after_look (h : Own rules M es) (hnodup : (es.map rules.look).Nodup) (he : e ∈ es) :
    rules.after M es (rules.look e) =
      if rules.Writes M e then some (rules.record e) else M (rules.look e) := by
  induction es generalizing M with
  | nil => cases he
  | cons a es ih =>
      obtain ⟨hsame, htail⟩ := h.tail hnodup
      rw [List.map_cons, List.nodup_cons] at hnodup
      rcases List.mem_cons.mp he with rfl | he
      · have hrest := htail.after_of_notMem hnodup.2 hnodup.1
        refine hrest.trans ?_
        split_ifs with hwrites
        · rw [← h e List.mem_cons_self hwrites]
          exact step_target hwrites
        · rw [Rules.step, if_neg hwrites]
      · refine (ih htail hnodup.2 he).trans ?_
        rw [hsame e he]
        exact if_congr (writes_congr (hsame e he)) rfl rfl

/-- Agents that store under their own keys overwrite nothing if these are free. -/
theorem Own.extends (h : Own rules M es) (hnodup : (es.map rules.look).Nodup)
    (hfree : ∀ e ∈ es, rules.Writes M e → M (rules.look e) = none) : rules.Extends M es := by
  induction es generalizing M with
  | nil => trivial
  | cons e es ih =>
      obtain ⟨hsame, htail⟩ := h.tail hnodup
      refine ⟨fun hwrites => ?_, ih htail (List.nodup_cons.mp hnodup).2 fun a ha hwrites => ?_⟩
      · rw [h e List.mem_cons_self hwrites]
        exact hfree e List.mem_cons_self hwrites
      · rw [hsame a ha]
        exact hfree a (List.mem_cons_of_mem e ha) ((writes_congr (hsame a ha)).mp hwrites)

/-- Every agent meets what was there before all of them. -/
theorem Own.verdicts_eq (h : Own rules M es) (hnodup : (es.map rules.look).Nodup) :
    rules.verdicts M es = es.map fun e => (e, rules.verdict M e) := by
  induction es generalizing M with
  | nil => rfl
  | cons e es ih =>
      obtain ⟨hsame, htail⟩ := h.tail hnodup
      rw [Rules.verdicts, ih htail (List.nodup_cons.mp hnodup).2, List.map_cons]
      congr 1
      apply List.map_congr_left
      intro a ha
      rw [verdict_congr (hsame a ha)]

/-- The next time no agent stores anything exactly when no agent stores under a
key that it does not look under. -/
theorem settled_iff (hnodup : (es.map rules.look).Nodup)
    (hown : ∀ e ∈ es, rules.stores e (rules.react e (some (rules.record e))) = false) :
    (∀ e ∈ es, ¬rules.Writes (rules.after M es) e) ↔ Own rules M es := by
  constructor
  · intro hsettled
    induction es generalizing M with
    | nil => nofun
    | cons a es ih =>
        rw [List.map_cons, List.nodup_cons] at hnodup
        have htail : Own rules (rules.step M a) es :=
          ih hnodup.2 (fun e he => hown e (List.mem_cons_of_mem a he))
            fun e he => hsettled e (List.mem_cons_of_mem a he)
        have ha : rules.Writes M a → rules.target a = rules.look a := by
          intro hwrites
          by_contra htarget
          apply hsettled a List.mem_cons_self
          have hkept : rules.after M (a :: es) (rules.look a) = M (rules.look a) :=
            (htail.after_of_notMem hnodup.2 hnodup.1).trans (step_of_ne fun _ => htarget)
          exact (writes_congr hkept).mpr hwrites
        intro e he hwrites
        rcases List.mem_cons.mp he with rfl | he
        · exact ha hwrites
        · apply htail e he
          have hsame : rules.step M a (rules.look e) = M (rules.look e) := by
            apply step_of_ne
            intro hwritesA htarget
            rw [ha hwritesA] at htarget
            exact hnodup.1 (htarget ▸ List.mem_map_of_mem he)
          exact (writes_congr hsame).mpr hwrites
  · intro h e he
    rw [Rules.Writes, Rules.verdict, h.after_look hnodup he]
    split_ifs with hwrites
    · rw [hown e he]
      exact Bool.false_ne_true
    · exact hwrites

/-- While no agent stores, the map stays and all agents react to it. -/
theorem verdicts_of_settled (h : ∀ e ∈ es, ¬rules.Writes M e) :
    rules.after M es = M ∧ rules.verdicts M es = es.map fun e => (e, rules.verdict M e) := by
  induction es with
  | nil => exact ⟨rfl, rfl⟩
  | cons e es ih =>
      have hstep : rules.step M e = M := if_neg (h e List.mem_cons_self)
      obtain ⟨hafter, hverdicts⟩ := ih fun a ha => h a (List.mem_cons_of_mem e ha)
      constructor
      · change rules.after (rules.step M e) es = M
        rw [hstep, hafter]
      · rw [Rules.verdicts, hstep, hverdicts, List.map_cons]

end Repeating

section Reordering

/-- No agent reacts otherwise to what another one stores, and agents that store
under one key store the same. -/
structure Undisturbed (rules : Rules E K R V) (M : K → Option R) (es : List E) : Prop where
  reaction : ∀ e ∈ es, ∀ a ∈ es, a ≠ e → rules.Writes M a → rules.target a = rules.look e →
    rules.react e (some (rules.record a)) = rules.verdict M e
  record : ∀ e ∈ es, ∀ a ∈ es, rules.Writes M e → rules.Writes M a →
    rules.target a = rules.target e → rules.record a = rules.record e

/-- The map after some of the agents. -/
def Reached (rules : Rules E K R V) (M : K → Option R) (done : List E) (M' : K → Option R) :
    Prop :=
  ∀ k, (∀ e ∈ done, rules.Writes M e → rules.target e = k → M' k = some (rules.record e)) ∧
    ((∀ e ∈ done, rules.Writes M e → rules.target e ≠ k) → M' k = M k)

variable {done : List E} {M' : K → Option R}

theorem Reached.verdict_eq (h : Reached rules M done M') (hes : Undisturbed rules M es)
    (hdone : ∀ a ∈ done, a ∈ es) (he : e ∈ es) (hnew : e ∉ done) :
    rules.verdict M' e = rules.verdict M e := by
  by_cases hwritten : ∀ a ∈ done, rules.Writes M a → rules.target a ≠ rules.look e
  · exact verdict_congr ((h (rules.look e)).2 hwritten)
  · push Not at hwritten
    obtain ⟨a, ha, hwrites, htarget⟩ := hwritten
    rw [Rules.verdict, (h (rules.look e)).1 a ha hwrites htarget]
    refine hes.reaction e he a (hdone a ha) ?_ hwrites htarget
    rintro rfl
    exact hnew ha

theorem Reached.step (h : Reached rules M done M') (hes : Undisturbed rules M es)
    (hdone : ∀ a ∈ done, a ∈ es) (he : e ∈ es) (hnew : e ∉ done) :
    Reached rules M (e :: done) (rules.step M' e) := by
  have hwrites : rules.Writes M' e ↔ rules.Writes M e := by
    rw [Rules.Writes, Rules.Writes, h.verdict_eq hes hdone he hnew]
  intro k
  constructor
  · intro a ha hwritesA htarget
    by_cases hlast : rules.Writes M e ∧ rules.target e = k
    · rw [← hlast.2, step_target (hwrites.mpr hlast.1)]
      rcases List.mem_cons.mp ha with rfl | ha
      · rfl
      · rw [hes.record a (hdone a ha) e he hwritesA hlast.1 (hlast.2.trans htarget.symm)]
    · rw [step_of_ne fun hw hk => hlast ⟨hwrites.mp hw, hk⟩]
      rcases List.mem_cons.mp ha with rfl | ha
      · exact absurd ⟨hwritesA, htarget⟩ hlast
      · exact (h k).1 a ha hwritesA htarget
  · intro hothers
    rw [step_of_ne fun hw => hothers e List.mem_cons_self (hwrites.mp hw)]
    exact (h k).2 fun a ha => hothers a (List.mem_cons_of_mem e ha)

theorem Reached.rest (h : Reached rules M done M') (hes : Undisturbed rules M es)
    (hdone : ∀ a ∈ done, a ∈ es) {rest : List E} (hrest : ∀ a ∈ rest, a ∈ es)
    (hnodup : (done ++ rest).Nodup) :
    rules.verdicts M' rest = rest.map (fun e => (e, rules.verdict M e)) ∧
      ∃ all, (∀ a, a ∈ all ↔ a ∈ done ∨ a ∈ rest) ∧ Reached rules M all (rules.after M' rest) := by
  induction rest generalizing done M' with
  | nil => exact ⟨rfl, done, by simp, h⟩
  | cons e rest ih =>
      have hnew : e ∉ done := fun hmem =>
        (List.nodup_append.mp hnodup).2.2 e hmem e List.mem_cons_self rfl
      have he := hrest e List.mem_cons_self
      obtain ⟨hverdicts, all, hall, hreached⟩ := ih (h.step hes hdone he hnew)
        (by
          intro a ha
          rcases List.mem_cons.mp ha with rfl | ha
          · exact he
          · exact hdone a ha)
        (fun a ha => hrest a (List.mem_cons_of_mem e ha))
        ((List.perm_middle.nodup_iff).mp hnodup)
      refine ⟨?_, all, ?_, hreached⟩
      · rw [Rules.verdicts, hverdicts, h.verdict_eq hes hdone he hnew, List.map_cons]
      · intro a
        rw [hall, List.mem_cons, List.mem_cons]
        tauto

/-- Each agent reacts to what was there before all of them. -/
theorem Undisturbed.verdicts_eq (h : Undisturbed rules M es) (hnodup : es.Nodup) :
    rules.verdicts M es = es.map fun e => (e, rules.verdict M e) := by
  have hstart : Reached rules M [] M := fun k => ⟨nofun, fun _ => rfl⟩
  exact (hstart.rest h nofun (fun _ ha => ha) hnodup).1

/-- The map does not depend on the order. -/
theorem Undisturbed.after_perm {es' : List E} (h : Undisturbed rules M es) (hnodup : es.Nodup)
    (hperm : es'.Perm es) : rules.after M es' = rules.after M es := by
  have hstart : Reached rules M [] M := fun k => ⟨nofun, fun _ => rfl⟩
  obtain ⟨-, all, hall, hreached⟩ := hstart.rest h nofun (fun _ ha => ha) hnodup
  obtain ⟨-, all', hall', hreached'⟩ := hstart.rest h nofun (fun a ha => hperm.mem_iff.mp ha)
    (hperm.nodup_iff.mpr hnodup)
  have hsame : ∀ a, a ∈ all' ↔ a ∈ all := by
    intro a
    rw [hall, hall', hperm.mem_iff]
  funext k
  by_cases hwritten : ∀ a ∈ all, rules.Writes M a → rules.target a ≠ k
  · rw [(hreached k).2 hwritten, (hreached' k).2 fun a ha => hwritten a ((hsame a).mp ha)]
  · push Not at hwritten
    obtain ⟨a, ha, hwrites, htarget⟩ := hwritten
    rw [(hreached k).1 a ha hwrites htarget,
      (hreached' k).1 a ((hsame a).mpr ha) hwrites htarget]

omit [DecidableEq K] in
theorem Undisturbed.perm {es' : List E} (h : Undisturbed rules M es) (hperm : es'.Perm es) :
    Undisturbed rules M es' where
  reaction e he a ha := h.reaction e (hperm.mem_iff.mp he) a (hperm.mem_iff.mp ha)
  record e he a ha := h.record e (hperm.mem_iff.mp he) a (hperm.mem_iff.mp ha)

end Reordering

section Locality
variable {keys : Set K}

/-- Keys that are no targets keep their records. -/
theorem after_of_notMem (M : K → Option R) {k : K} (hk : ∀ e ∈ es, rules.target e ≠ k) :
    rules.after M es k = M k := by
  induction es generalizing M with
  | nil => rfl
  | cons e es ih =>
      exact (ih (rules.step M e) fun a ha => hk a (List.mem_cons_of_mem e ha)).trans
        (step_of_ne fun _ => hk e List.mem_cons_self)

/-- What is stored outside of the keys that are looked up does not matter. -/
theorem run_congr {M' : K → Option R} (hlook : ∀ e ∈ es, rules.look e ∈ keys)
    (hsame : ∀ k ∈ keys, M k = M' k) :
    rules.verdicts M es = rules.verdicts M' es ∧
      ∀ k ∈ keys, rules.after M es k = rules.after M' es k := by
  induction es generalizing M M' with
  | nil => exact ⟨rfl, hsame⟩
  | cons e es ih =>
      have hlooked : M (rules.look e) = M' (rules.look e) := hsame _ (hlook e List.mem_cons_self)
      have hstep : ∀ k ∈ keys, rules.step M e k = rules.step M' e k := by
        intro k hk
        by_cases hwrites : rules.Writes M' e
        · rw [Rules.step, Rules.step, if_pos ((writes_congr hlooked).mpr hwrites), if_pos hwrites]
          by_cases htarget : k = rules.target e
          · rw [htarget, Function.update_self, Function.update_self]
          · rw [Function.update_of_ne htarget, Function.update_of_ne htarget, hsame k hk]
        · rw [Rules.step, Rules.step, if_neg (mt (writes_congr hlooked).mp hwrites), if_neg hwrites,
            hsame k hk]
      obtain ⟨hverdicts, hafter⟩ := ih (fun a ha => hlook a (List.mem_cons_of_mem e ha)) hstep
      exact ⟨by rw [Rules.verdicts, Rules.verdicts, verdict_congr hlooked, hverdicts], hafter⟩

end Locality

end Tarracsh.KeyedReactions
