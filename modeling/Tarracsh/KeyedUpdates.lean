import Mathlib.Data.List.Nodup

/-!
# Lists kept under a key

A list receives items one after the other. An item whose key is new is
appended, and an item whose key is known replaces the one that has it. What is
left are some of the items, one for each key. These are all items exactly when
the key determines the item.
-/
namespace Tarracsh.KeyedUpdates
variable {α β : Type*} (key : α → β)

/-- What is left of `items` in a list kept under the key. -/
structure Covers (list items : List α) : Prop where
  nodup : (list.map key).Nodup
  sound : ∀ a ∈ list, a ∈ items
  complete : ∀ a ∈ items, key a ∈ list.map key

variable {key} {list items : List α}

theorem covers_nil : Covers key [] [] :=
  ⟨List.nodup_nil, fun _ h => h, fun _ h => absurd h (by simp)⟩

/-- An item with a new key is appended. -/
theorem Covers.append (h : Covers key list items) {a : α} (ha : key a ∉ list.map key) :
    Covers key (list ++ [a]) (items ++ [a]) := by
  constructor
  · rw [List.map_append, List.nodup_append]
    refine ⟨h.nodup, by simp, ?_⟩
    intro b hb c hc hbc
    rw [List.map_singleton, List.mem_singleton] at hc
    exact ha (hc ▸ hbc ▸ hb)
  · intro b hb
    rcases List.mem_append.mp hb with hb | hb
    · exact List.mem_append_left _ (h.sound b hb)
    · exact List.mem_append_right _ hb
  · intro b hb
    rw [List.map_append]
    rcases List.mem_append.mp hb with hb | hb
    · exact List.mem_append_left _ (h.complete b hb)
    · rw [List.mem_singleton.mp hb]
      simp

/-- An item with a known key replaces the one that has it. -/
theorem Covers.set (h : Covers key list items) {a old : α} {i : ℕ} (hi : list[i]? = some old)
    (hkey : key a = key old) : Covers key (list.set i a) (items ++ [a]) := by
  have hkeys : (list.set i a).map key = list.map key := by
    apply List.ext_getElem?
    intro j
    rw [List.getElem?_map, List.getElem?_map, List.getElem?_set]
    by_cases hij : i = j
    · subst hij
      have hlt := (List.getElem?_eq_some_iff.mp hi).1
      simp [hlt, hkey, (List.getElem?_eq_some_iff.mp hi).2]
    · rw [if_neg hij]
  constructor
  · rw [hkeys]
    exact h.nodup
  · intro b hb
    rcases List.mem_or_eq_of_mem_set hb with hb | hb
    · exact List.mem_append_left _ (h.sound b hb)
    · exact List.mem_append_right _ (List.mem_singleton.mpr hb)
  · intro b hb
    rw [hkeys]
    rcases List.mem_append.mp hb with hb | hb
    · exact h.complete b hb
    · rw [List.mem_singleton.mp hb, hkey]
      exact List.mem_map_of_mem (List.mem_of_getElem? hi)

/-- Nothing is lost exactly when the key determines the item. -/
theorem Covers.exact_iff (h : Covers key list items) :
    (∀ a, a ∈ list ↔ a ∈ items) ↔
      ∀ a ∈ items, ∀ b ∈ items, key a = key b → a = b := by
  constructor
  · intro hexact a ha b hb hab
    have hinj := List.inj_on_of_nodup_map h.nodup
    exact hinj ((hexact a).mpr ha) ((hexact b).mpr hb) hab
  · intro hdetermines a
    constructor
    · exact h.sound a
    · intro ha
      obtain ⟨b, hb, hba⟩ := List.mem_map.mp (h.complete a ha)
      rwa [← hdetermines b (h.sound b hb) a ha hba]

/-- The last of the items with its key. -/
def IsLast (key : α → β) (items : List α) (a : α) : Prop :=
  ∃ before after, items = before ++ a :: after ∧ key a ∉ after.map key

theorem isLast_cons {a b : α} :
    IsLast key (a :: items) b ↔ IsLast key items b ∨ (b = a ∧ key b ∉ items.map key) := by
  constructor
  · rintro ⟨before, after, hitems, hkey⟩
    cases before with
    | nil =>
        obtain ⟨rfl, rfl⟩ := List.cons.inj hitems
        exact .inr ⟨rfl, hkey⟩
    | cons c before => exact .inl ⟨before, after, (List.cons.inj hitems).2, hkey⟩
  · rintro (⟨before, after, rfl, hkey⟩ | ⟨rfl, hkey⟩)
    · exact ⟨a :: before, after, rfl, hkey⟩
    · exact ⟨[], items, rfl, hkey⟩

section Replacing
variable {α β : Type*} [DecidableEq β] (key : α → β)

/-- An item takes the place of the one that has its key. -/
def replace (list : List α) (a : α) : List α := list.filter (fun b => key b ≠ key a) ++ [a]

def replaceAll (list items : List α) : List α := items.foldl (replace key) list

variable {key} {list items : List α}

theorem mem_replace {a b : α} :
    b ∈ replace key list a ↔ b = a ∨ (b ∈ list ∧ key b ≠ key a) := by
  simp only [replace, List.mem_append, List.mem_filter, List.mem_singleton, decide_eq_true_eq]
  exact or_comm

/-- What is there is an item, or no item has touched it. -/
theorem mem_or_of_mem_replaceAll {b : α} (hb : b ∈ replaceAll key list items) :
    b ∈ items ∨ (b ∈ list ∧ key b ∉ items.map key) := by
  induction items generalizing list with
  | nil => exact .inr ⟨hb, by simp⟩
  | cons a items ih =>
      rcases ih hb with hmem | ⟨hmem, hkey⟩
      · exact .inl (List.mem_cons_of_mem a hmem)
      · rcases mem_replace.mp hmem with rfl | ⟨hmem, hne⟩
        · exact .inl List.mem_cons_self
        · refine .inr ⟨hmem, ?_⟩
          rw [List.map_cons, List.mem_cons, not_or]
          exact ⟨hne, hkey⟩

/-- No key gets lost. -/
theorem key_mem_replaceAll {k : β} (hk : k ∈ list.map key ∨ k ∈ items.map key) :
    k ∈ (replaceAll key list items).map key := by
  induction items generalizing list with
  | nil => simpa [replaceAll] using hk
  | cons a items ih =>
      apply ih
      by_cases hka : k = key a
      · exact .inl (List.mem_map.mpr ⟨a, mem_replace.mpr (.inl rfl), hka.symm⟩)
      · rcases hk with hk | hk
        · obtain ⟨b, hb, rfl⟩ := List.mem_map.mp hk
          exact .inl (List.mem_map.mpr ⟨b, mem_replace.mpr (.inr ⟨hb, hka⟩), rfl⟩)
        · rw [List.map_cons, List.mem_cons] at hk
          exact .inr (hk.resolve_left hka)

/-- The items leave the same whatever was there before. -/
theorem mem_replaceAll {b : α} :
    b ∈ replaceAll key list items ↔
      b ∈ replaceAll key [] items ∨ (b ∈ list ∧ key b ∉ items.map key) := by
  induction items generalizing list with
  | nil => simp [replaceAll]
  | cons a items ih =>
      change b ∈ replaceAll key (replace key list a) items ↔
        b ∈ replaceAll key (replace key [] a) items ∨ _
      rw [ih, @ih (replace key [] a), mem_replace, mem_replace, List.map_cons, List.mem_cons]
      simp only [List.not_mem_nil, false_and, or_false, not_or]
      tauto

theorem replaceAll_map {γ : Type*} (f : γ → α) (list items : List γ) :
    replaceAll key (list.map f) (items.map f) = (replaceAll (key ∘ f) list items).map f := by
  induction items generalizing list with
  | nil => rfl
  | cons a items ih =>
      have hreplace : replace key (list.map f) (f a) = (replace (key ∘ f) list a).map f := by
        simp [replace, List.filter_map, Function.comp_def]
      change replaceAll key (replace key (list.map f) (f a)) (items.map f) = _
      rw [hreplace, ih]
      rfl

theorem nodup_replaceAll (h : (list.map key).Nodup) :
    ((replaceAll key list items).map key).Nodup := by
  induction items generalizing list with
  | nil => exact h
  | cons a items ih =>
      apply ih
      rw [replace, List.map_append, List.map_singleton, List.nodup_append]
      refine ⟨h.sublist (List.filter_sublist.map _), List.nodup_singleton _, ?_⟩
      intro k hk k' hk'
      obtain ⟨b, hb, rfl⟩ := List.mem_map.mp hk
      rw [List.mem_singleton.mp hk']
      simpa using List.of_mem_filter hb

/-- What is left of the items are the last ones with their keys. -/
theorem mem_replaceAll_nil {b : α} : b ∈ replaceAll key [] items ↔ IsLast key items b := by
  induction items with
  | nil => simp [replaceAll, IsLast]
  | cons a items ih =>
      change b ∈ replaceAll key (replace key [] a) items ↔ _
      rw [mem_replaceAll, ih, isLast_cons, mem_replace]
      simp

/-- Items with different keys are all left, in their order. -/
theorem replaceAll_of_nodup (h : ((list ++ items).map key).Nodup) :
    replaceAll key list items = list ++ items := by
  induction items generalizing list with
  | nil => exact (List.append_nil list).symm
  | cons a items ih =>
      have happend : list ++ a :: items = list ++ [a] ++ items := by simp
      have hreplace : replace key list a = list ++ [a] := by
        rw [replace, List.filter_eq_self.mpr]
        intro b hb
        rw [List.map_append, List.nodup_append] at h
        simpa using h.2.2 (key b) (List.mem_map_of_mem hb) (key a) List.mem_cons_self
      change replaceAll key (replace key list a) items = _
      rw [happend] at h ⊢
      rw [hreplace, ih h]

/-- Groups one after the other are their items one after the other. -/
theorem foldl_replaceAll (groups : List (List α)) (list : List α) :
    groups.foldl (replaceAll key) list = replaceAll key list groups.flatten := by
  induction groups generalizing list with
  | nil => rfl
  | cons g groups ih =>
      rw [List.foldl_cons, ih, List.flatten_cons, replaceAll, replaceAll, replaceAll,
        List.foldl_append]

/-- Groups of items that share no key leave what each leaves alone. -/
theorem mem_foldl_replaceAll {groups : List (List α)} {b : α}
    (h : groups.Pairwise fun g g' => ∀ a ∈ g, ∀ a' ∈ g', key a ≠ key a') :
    b ∈ groups.foldl (replaceAll key) list ↔
      (∃ g ∈ groups, b ∈ replaceAll key [] g) ∨
        (b ∈ list ∧ ∀ g ∈ groups, key b ∉ g.map key) := by
  induction groups generalizing list with
  | nil => simp
  | cons g groups ih =>
      obtain ⟨hapart, hrest⟩ := List.pairwise_cons.mp h
      have hkept : b ∈ replaceAll key [] g → ∀ g' ∈ groups, key b ∉ g'.map key := by
        intro hb g' hg' hmem
        obtain ⟨a, ha, hkey⟩ := List.mem_map.mp hmem
        have hbg : b ∈ g := (mem_or_of_mem_replaceAll hb).resolve_right (by simp)
        exact hapart g' hg' b hbg a ha hkey.symm
      rw [List.foldl_cons, ih hrest, mem_replaceAll, List.exists_mem_cons_iff,
        List.forall_mem_cons]
      constructor
      · rintro (hb | ⟨hb | ⟨hb, hg⟩, hkeys⟩)
        · exact .inl (.inr hb)
        · exact .inl (.inl hb)
        · exact .inr ⟨hb, hg, hkeys⟩
      · rintro ((hb | hb) | ⟨hb, hg, hkeys⟩)
        · exact .inr ⟨.inl hb, hkept hb⟩
        · exact .inl hb
        · exact .inr ⟨.inr ⟨hb, hg⟩, hkeys⟩

end Replacing

end Tarracsh.KeyedUpdates
