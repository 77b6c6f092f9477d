import Mathlib.Data.List.AList
import Mathlib.Data.List.Forall2
import Mathlib.Algebra.BigOperators.Group.List.Basic
import Mathlib.Algebra.BigOperators.Group.Finset.Basic
import Mathlib.Algebra.GroupWithZero.Nat

/-!
# Comparing two maps by a counter

A comparison walks over the entries of a left map, takes what it finds under
their keys out of a right map, and then walks over what is left there. Its steps
add to a counter. What the comparison adds is a sum over the keys, whatever the order
of the entries.
-/
namespace Tarracsh.MapComparison

/-- A step that adds `k` to the counter. -/
def Adds (f : ℕ → ℕ) (k : ℕ) : Prop := ∀ n, f n = n + k

section Counters
variable {f g : ℕ → ℕ} {k l : ℕ}

theorem adds_zero : Adds (fun n => n) 0 := fun _ => rfl

theorem adds_ite {P : Prop} [Decidable P] :
    Adds (fun n => if P then n else n + 1) (if P then 0 else 1) := by
  intro n
  dsimp only
  split_ifs <;> rfl

theorem Adds.comp (hf : Adds f k) (hg : Adds g l) : Adds (fun n => g (f n)) (k + l) := by
  intro n
  dsimp only
  rw [hg, hf, Nat.add_assoc]

end Counters

section Maps
variable {K V W : Type} [DecidableEq K]

section Model
variable (inBoth : K → V → W → ℕ → Option W × ℕ) (onlyLeft : K → V → ℕ → ℕ)
  (onlyRight : K → W → ℕ → ℕ)

/-- The step for one entry of the left map. -/
def stepLeft (key : K) (v : V) (right : AList fun _ : K => W) (count : ℕ) :
    AList (fun _ : K => W) × ℕ :=
  match right.lookup key with
  | some w =>
      match inBoth key v w count with
      | (some rest, count) => (right.insert key rest, count)
      | (none, count) => (right.erase key, count)
  | none => (right, onlyLeft key v count)

/-- The walk over the left entries, with what is left of the right map. -/
def compareLeft : List (Sigma fun _ : K => V) → AList (fun _ : K => W) → ℕ →
    AList (fun _ : K => W) × ℕ
  | [], right, count => (right, count)
  | e :: entries, right, count =>
      let (right, count) := stepLeft inBoth onlyLeft e.1 e.2 right count
      compareLeft entries right count

/-- The walk over the right entries that are left. -/
def compareRight : List (Sigma fun _ : K => W) → ℕ → ℕ
  | [], count => count
  | ⟨key, w⟩ :: entries, count => compareRight entries (onlyRight key w count)

def compareMaps (left : AList fun _ : K => V) (right : AList fun _ : K => W) (count : ℕ) : ℕ :=
  let (right, count) := compareLeft inBoth onlyLeft left.entries right count
  compareRight onlyRight right.entries count

end Model

variable {inBoth : K → V → W → ℕ → Option W × ℕ} {onlyLeft : K → V → ℕ → ℕ}
  {onlyRight : K → W → ℕ → ℕ} {rest : K → V → W → Option W} {both : K → V → W → ℕ}
  {left : K → V → ℕ} {right : K → W → ℕ}

/-- What the steps add, and what a step for a key of both maps leaves in the right
map. -/
structure Steps (inBoth : K → V → W → ℕ → Option W × ℕ) (onlyLeft : K → V → ℕ → ℕ)
    (onlyRight : K → W → ℕ → ℕ) (rest : K → V → W → Option W) (both : K → V → W → ℕ)
    (left : K → V → ℕ) (right : K → W → ℕ) : Prop where
  both : ∀ k v w n, inBoth k v w n = (rest k v w, n + both k v w)
  left : ∀ k v, Adds (onlyLeft k v) (left k v)
  right : ∀ k w, Adds (onlyRight k w) (right k w)

/-- What is left of the right map under a key. -/
def remains (rest : K → V → W → Option W) (key : K) : Option V → Option W → Option W
  | some v, some w => rest key v w
  | none, some w => some w
  | _, none => none

/-- What the walk over the left entries adds at a key. -/
def addedLeft (both : K → V → W → ℕ) (left : K → V → ℕ) (key : K) (v : V) : Option W → ℕ
  | some w => both key v w
  | none => left key v

/-- What the comparison adds at a key. -/
def added (rest : K → V → W → Option W) (both : K → V → W → ℕ) (left : K → V → ℕ)
    (right : K → W → ℕ) (key : K) : Option V → Option W → ℕ
  | some v, some w => both key v w + (rest key v w).elim 0 (right key)
  | some v, none => left key v
  | none, some w => right key w
  | none, none => 0

theorem stepLeft_lookup (h : Steps inBoth onlyLeft onlyRight rest both left right)
    (key : K) (v : V) (m : AList fun _ : K => W) (n : ℕ) (k : K) :
    (stepLeft inBoth onlyLeft key v m n).1.lookup k =
      if k = key then remains rest key (some v) (m.lookup key) else m.lookup k := by
  unfold stepLeft
  cases hw : m.lookup key with
  | none =>
      split_ifs with hk
      · rw [hk, hw]
        rfl
      · rfl
  | some w =>
      simp only [h.both, remains]
      cases rest key v w with
      | none =>
          split_ifs with hk
          · rw [hk]
            exact AList.lookup_erase key m
          · exact AList.lookup_erase_ne hk
      | some w' =>
          split_ifs with hk
          · rw [hk]
            exact AList.lookup_insert m
          · exact AList.lookup_insert_ne hk

theorem stepLeft_adds (h : Steps inBoth onlyLeft onlyRight rest both left right)
    (key : K) (v : V) (m : AList fun _ : K => W) :
    Adds (fun n => (stepLeft inBoth onlyLeft key v m n).2)
      (addedLeft both left key v (m.lookup key)) := by
  intro n
  unfold stepLeft
  cases m.lookup key with
  | none => exact h.left key v n
  | some w =>
      simp only [h.both]
      cases rest key v w <;> rfl

theorem compareLeft_spec (h : Steps inBoth onlyLeft onlyRight rest both left right)
    {entries : List (Sigma fun _ : K => V)} (hnodup : entries.NodupKeys)
    (m : AList fun _ : K => W) (n : ℕ) :
    (∀ k, (compareLeft inBoth onlyLeft entries m n).1.lookup k =
      remains rest k (entries.dlookup k) (m.lookup k)) ∧
      (compareLeft inBoth onlyLeft entries m n).2 =
        n + (entries.map fun e => addedLeft both left e.1 e.2 (m.lookup e.1)).sum := by
  induction entries generalizing m n with
  | nil =>
      refine ⟨fun k => ?_, rfl⟩
      cases hk : m.lookup k <;> simp [compareLeft, remains, hk]
  | cons e entries ih =>
      obtain ⟨key, v⟩ := e
      obtain ⟨hkey, hnodup⟩ := List.nodupKeys_cons.mp hnodup
      have hlookup := stepLeft_lookup h key v m n
      have hadds := stepLeft_adds h key v m n
      simp only [compareLeft] at hadds ⊢
      generalize stepLeft inBoth onlyLeft key v m n = step at hlookup hadds ⊢
      obtain ⟨hlookup', hadds'⟩ := ih hnodup step.1 step.2
      constructor
      · intro k
        rw [hlookup', hlookup]
        by_cases hk : k = key
        · subst hk
          rw [if_pos rfl, List.dlookup_cons_eq, List.dlookup_eq_none.mpr hkey]
          cases remains rest k (some v) (m.lookup k) <;> rfl
        · rw [if_neg hk, List.dlookup_cons_ne _ _ hk]
      · have hsame : entries.map (fun e => addedLeft both left e.1 e.2 (step.1.lookup e.1)) =
            entries.map fun e => addedLeft both left e.1 e.2 (m.lookup e.1) := by
          refine List.map_congr_left fun e he => ?_
          have hne : e.1 ≠ key := by
            intro heq
            have hmem : e.1 ∈ entries.keys := List.mem_keys_of_mem he
            exact hkey (heq ▸ hmem)
          rw [hlookup, if_neg hne]
        rw [hadds', hadds, hsame, List.map_cons, List.sum_cons, Nat.add_assoc]

omit [DecidableEq K] in
theorem compareRight_adds (hright : ∀ k w, Adds (onlyRight k w) (right k w))
    (entries : List (Sigma fun _ : K => W)) :
    Adds (compareRight onlyRight entries) (entries.map fun e => right e.1 e.2).sum := by
  induction entries with
  | nil => exact adds_zero
  | cons e entries ih => exact (hright e.1 e.2).comp ih

/-- A sum over the entries as a sum over the keys, or over more than the keys. -/
theorem sum_entries (m : AList fun _ : K => W) (f : K → W → ℕ) {keys : Finset K}
    (hkeys : ∀ k ∈ m, k ∈ keys) :
    (m.entries.map fun e => f e.1 e.2).sum = ∑ k ∈ keys, (m.lookup k).elim 0 (f k) := by
  have hnodup : m.keys.Nodup := m.keys_nodup
  calc
    (m.entries.map fun e => f e.1 e.2).sum
      = (m.keys.map fun k => (m.lookup k).elim 0 (f k)).sum := by
        rw [AList.keys, List.keys, List.map_map]
        refine congrArg List.sum (List.map_congr_left fun e he => ?_)
        have hlookup : m.lookup e.1 = some e.2 := AList.mem_lookup_iff.mpr he
        rw [Function.comp_apply, hlookup]
        rfl
    _ = ∑ k ∈ m.keys.toFinset, (m.lookup k).elim 0 (f k) :=
        (List.sum_toFinset _ hnodup).symm
    _ = ∑ k ∈ keys, (m.lookup k).elim 0 (f k) := by
        refine Finset.sum_subset (fun k hk => hkeys k (List.mem_toFinset.mp hk)) ?_
        intro k _ hk
        have hnone : m.lookup k = none :=
          AList.lookup_eq_none.mpr fun hmem => hk (List.mem_toFinset.mpr hmem)
        rw [hnone]
        rfl

/-- What the comparison adds, key by key. -/
theorem compareMaps_adds (h : Steps inBoth onlyLeft onlyRight rest both left right)
    (leftMap : AList fun _ : K => V) (rightMap : AList fun _ : K => W) {keys : Finset K}
    (hleft : ∀ k ∈ leftMap, k ∈ keys) (hright : ∀ k ∈ rightMap, k ∈ keys) :
    Adds (compareMaps inBoth onlyLeft onlyRight leftMap rightMap)
      (∑ k ∈ keys, added rest both left right k (leftMap.lookup k) (rightMap.lookup k)) := by
  intro n
  obtain ⟨hlookup, hwalked⟩ := compareLeft_spec h leftMap.nodupKeys rightMap n
  unfold compareMaps
  generalize compareLeft inBoth onlyLeft leftMap.entries rightMap n = walked at hlookup hwalked ⊢
  have hkeys : ∀ k ∈ walked.1, k ∈ keys := by
    intro k hk
    rw [← AList.lookup_isSome, hlookup] at hk
    refine hright k (AList.lookup_isSome.mp ?_)
    cases hw : rightMap.lookup k with
    | none => cases hv : leftMap.entries.dlookup k <;> simp [hw, hv, remains] at hk
    | some w => rfl
  dsimp only
  rw [compareRight_adds h.right, hwalked, sum_entries walked.1 right hkeys,
    sum_entries leftMap (fun k v => addedLeft both left k v (rightMap.lookup k)) hleft,
    Nat.add_assoc, ← Finset.sum_add_distrib]
  refine congrArg (n + ·) (Finset.sum_congr rfl fun k _ => ?_)
  rw [hlookup]
  change _ + (remains rest k (leftMap.lookup k) _).elim 0 (right k) = _
  cases leftMap.lookup k <;> cases rightMap.lookup k <;> simp [added, addedLeft, remains]

end Maps

section Taking
variable {V W A : Type} {covers : V → W → Prop}

/-- The left elements in their order each take the first right element that they
cover, until none is left. -/
inductive Takes (covers : V → W → Prop) : List V → List W → Prop
  | done {ls : List V} : Takes covers ls []
  | take {l : V} {ls : List V} {before : List W} {r : W} {after : List W} :
      (∀ r' ∈ before, ¬covers l r') → covers l r → Takes covers ls (before ++ after) →
      Takes covers (l :: ls) (before ++ r :: after)

/-- The first element with a property stands at one place only. -/
theorem split_unique {P : W → Prop} {before before' after after' : List W} {r r' : W}
    (h : before ++ r :: after = before' ++ r' :: after') (hbefore : ∀ x ∈ before, ¬P x) (hr : P r)
    (hbefore' : ∀ x ∈ before', ¬P x) (hr' : P r') :
    before = before' ∧ r = r' ∧ after = after' := by
  induction before generalizing before' with
  | nil =>
      cases before' with
      | nil =>
          obtain ⟨rfl, rfl⟩ := List.cons.inj h
          exact ⟨rfl, rfl, rfl⟩
      | cons y before' =>
          obtain ⟨rfl, -⟩ := List.cons.inj h
          exact absurd hr (hbefore' _ List.mem_cons_self)
  | cons x before ih =>
      cases before' with
      | nil =>
          obtain ⟨rfl, -⟩ := List.cons.inj h
          exact absurd hr' (hbefore _ List.mem_cons_self)
      | cons y before' =>
          obtain ⟨rfl, htail⟩ := List.cons.inj h
          obtain ⟨rfl, rfl, rfl⟩ := ih htail (fun x hx => hbefore x (List.mem_cons_of_mem _ hx))
            fun x hx => hbefore' x (List.mem_cons_of_mem _ hx)
          exact ⟨rfl, rfl, rfl⟩

theorem takes_cons_iff {l : V} {ls : List V} {before after : List W} {r : W}
    (hbefore : ∀ r' ∈ before, ¬covers l r') (hr : covers l r) :
    Takes covers (l :: ls) (before ++ r :: after) ↔ Takes covers ls (before ++ after) := by
  refine ⟨fun h => ?_, .take hbefore hr⟩
  generalize hrs : before ++ r :: after = rs at h
  cases h with
  | done => exact absurd hrs (by simp)
  | take hbefore' hr' hrest =>
      obtain ⟨rfl, rfl, rfl⟩ := split_unique hrs hbefore hr hbefore' hr'
      exact hrest

theorem findIdx?_split {p : W → Bool} {rs : List W} {i : ℕ} (h : rs.findIdx? p = some i) :
    ∃ before r after, rs = before ++ r :: after ∧ rs.eraseIdx i = before ++ after ∧
      (∀ r' ∈ before, p r' = false) ∧ p r = true := by
  induction rs generalizing i with
  | nil => exact absurd h (by simp)
  | cons r rs ih =>
      rw [List.findIdx?_cons] at h
      split_ifs at h with hr
      · obtain rfl := Option.some.inj h
        exact ⟨[], r, rs, rfl, rfl, nofun, hr⟩
      · obtain ⟨j, hj, rfl⟩ := Option.map_eq_some_iff.mp h
        obtain ⟨before, r', after, hrs, herase, hbefore, hr'⟩ := ih hj
        refine ⟨r :: before, r', after, congrArg (r :: ·) hrs, congrArg (r :: ·) herase, ?_, hr'⟩
        exact List.forall_mem_cons.mpr ⟨Bool.eq_false_iff.mpr hr, hbefore⟩

/-- What is taken is covered, element by element. -/
theorem Takes.matching {ls : List V} {rs : List W} (h : Takes covers ls rs) :
    ∃ taken more matched, ls = taken ++ more ∧ matched.Perm rs ∧
      List.Forall₂ covers taken matched := by
  induction h with
  | @done ls => exact ⟨[], ls, [], rfl, .refl _, .nil⟩
  | @take l ls before r after _ hcovers _ ih =>
      obtain ⟨taken, more, matched, rfl, hperm, hmatched⟩ := ih
      refine ⟨l :: taken, more, r :: matched, rfl, ?_, .cons hcovers hmatched⟩
      exact (hperm.cons r).trans List.perm_middle.symm

variable {f : V → A} {g : W → A} {weightLeft : V → ℕ} {weightRight : W → ℕ}

/-- The right elements weigh no more than those that cover them, and as much only if
they are the same. -/
theorem map_eq_of_weight {ls : List V} {rs : List W} (h : List.Forall₂ covers ls rs)
    (hle : ∀ l r, covers l r → weightRight r ≤ weightLeft l)
    (heq : ∀ l r, covers l r → weightLeft l ≤ weightRight r → f l = g r) :
    (rs.map weightRight).sum ≤ (ls.map weightLeft).sum ∧
      ((ls.map weightLeft).sum ≤ (rs.map weightRight).sum → ls.map f = rs.map g) := by
  induction h with
  | nil => exact ⟨le_rfl, fun _ => rfl⟩
  | @cons l r ls rs hcovers hrest ih =>
      have hhead := hle l r hcovers
      simp only [List.map_cons, List.sum_cons]
      refine ⟨Nat.add_le_add hhead ih.1, fun hsum => ?_⟩
      rw [heq l r hcovers (by omega), ih.2 (by omega)]

/-- If everything is taken, and the left side has neither more elements nor more
weight, then the two sides are the same up to the order. -/
theorem Takes.perm {ls : List V} {rs : List W} (h : Takes covers ls rs)
    (hle : ∀ l r, covers l r → weightRight r ≤ weightLeft l)
    (heq : ∀ l r, covers l r → weightLeft l ≤ weightRight r → f l = g r)
    (hlength : ls.length ≤ rs.length)
    (hweight : (ls.map weightLeft).sum ≤ (rs.map weightRight).sum) :
    (ls.map f).Perm (rs.map g) := by
  obtain ⟨taken, more, matched, rfl, hperm, hmatched⟩ := h.matching
  have hmore : more = [] := by
    have hsame := hmatched.length_eq
    have hall := hperm.length_eq
    rw [List.length_append] at hlength
    exact List.length_eq_zero_iff.mp (by omega)
  subst hmore
  rw [List.append_nil] at hweight ⊢
  have hsum := (hperm.map weightRight).sum_nat
  rw [(map_eq_of_weight hmatched hle heq).2 (by omega)]
  exact hperm.map g

/-- Elements that only one right element can match find it in any order. -/
theorem takes_of_perm {K : Type} {keyLeft : V → K} {keyRight : W → K} {ls : List V} {rs : List W}
    (hperm : (ls.map f).Perm (rs.map g)) (hsame : ∀ l r, f l = g r → covers l r)
    (hkey : ∀ l r, covers l r → keyLeft l = keyRight r) (hnodup : (rs.map keyRight).Nodup) :
    Takes covers ls rs := by
  induction ls generalizing rs with
  | nil =>
      obtain rfl : rs = [] := by simpa using hperm.length_eq.symm
      exact .done
  | cons l ls ih =>
      obtain ⟨r, hr, heq⟩ := List.mem_map.mp (hperm.subset List.mem_cons_self)
      obtain ⟨before, after, rfl⟩ := List.append_of_mem hr
      have hcovers : covers l r := hsame l r heq.symm
      rw [List.map_append, List.map_cons] at hperm hnodup
      refine .take (fun r' hr' hcovers' => ?_) hcovers (ih ?_ ?_)
      · have hsameKey := (hkey l r' hcovers').symm.trans (hkey l r hcovers)
        exact (List.nodup_append.mp hnodup).2.2 _ (List.mem_map_of_mem hr') _
          List.mem_cons_self hsameKey
      · rw [List.map_append]
        rw [List.map_cons, ← heq] at hperm
        exact (hperm.trans List.perm_middle).cons_inv
      · rw [List.map_append]
        exact hnodup.sublist (List.Sublist.append_left (List.sublist_cons_self _ _) _)

end Taking

section Namesakes
variable {K A : Type} [DecidableEq K]

open Classical in
theorem count_namesakes (entries : List (K × A)) (k : K) (a : A) :
    entries.count (k, a) = ((entries.filter fun e => e.1 = k).map Prod.snd).count a := by
  induction entries with
  | nil => rfl
  | cons e entries ih =>
      obtain ⟨k', a'⟩ := e
      by_cases hk : k' = k
      · by_cases ha : a' = a <;> simp [hk, ha, ih]
      · simp [hk, ih]

/-- Two lists are the same up to the order if they are so under each key. -/
theorem perm_iff_namesakes {entries entries' : List (K × A)} : entries.Perm entries' ↔
    ∀ k, ((entries.filter fun e => e.1 = k).map Prod.snd).Perm
      ((entries'.filter fun e => e.1 = k).map Prod.snd) := by
  classical
  refine ⟨fun h k => (h.filter _).map _, fun h => List.perm_iff_count.mpr ?_⟩
  rintro ⟨k, a⟩
  rw [count_namesakes, count_namesakes]
  exact (h k).count_eq a

end Namesakes

end Tarracsh.MapComparison
