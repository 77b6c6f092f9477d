import Tarracsh.TableRuns

/-!
# What a table operation leaves alone

An operation touches one row and marks it. The rows that are found under other
keys stay, and a chain of operations marks every row that differs from the one
before, so that the next save writes it. A row that is changed behind the back
of the table can be left out of the account for a while.
-/
namespace Tarracsh.TableFrames
open ByteStrings StringPool TableModel TableInvariant TableFile TableRuns

variable {α : Type} {L : Layout α} {t t' t'' : Table α} {rs rs' : List (Row α)}

/-- The row under a key. -/
def findRow (t : Table α) (key : Bytes) : Option (Row α) := (t.findByKey key).bind t.heap.lookup

theorem findRow_eq_some_iff (hc : Core L t rs) (hf : Filed L t rs) {key : Bytes} {r : Row α} :
    findRow t key = some r ↔ r ∈ rs ∧ L.getKey r.cols = key := by
  rw [findRow, Option.bind_eq_some_iff]
  constructor
  · rintro ⟨p, hp, hlookup⟩
    obtain ⟨i, s, hi, hs, hkey⟩ := (hf key p).mp hp
    rw [hc.lookup_of_index hi, hs] at hlookup
    obtain rfl := Option.some.inj hlookup
    exact ⟨List.mem_of_getElem? hs, hkey⟩
  · rintro ⟨hr, hkey⟩
    obtain ⟨i, hi⟩ := List.getElem?_of_mem hr
    obtain ⟨p, hp, hlookup⟩ := hc.exists_of_row hi
    exact ⟨p, (hf key p).mpr ⟨i, r, hp, hi, hkey⟩, hlookup⟩

/-- Whatever differs between two states of a table is marked, apart from the row
behind `free`. -/
structure Marks (free : Option ℕ) (t t' : Table α) : Prop where
  index : t.autoIncrementIndex <+: t'.autoIncrementIndex
  marked : ∀ i, dirtyOf t i = true → dirtyOf t' i = true
  isDirty : t.isDirty = true → t'.isDirty = true
  changed : ∀ (i p : ℕ), t'.autoIncrementIndex[i]? = some p → free ≠ some p →
    (t.autoIncrementIndex[i]? = some p ∧ t'.heap.lookup p = t.heap.lookup p) ∨
      (dirtyOf t' i = true ∧ t'.isDirty = true)

namespace Marks

theorem refl (free : Option ℕ) (t : Table α) : Marks free t t :=
  ⟨List.prefix_rfl, fun _ h => h, fun h => h, fun _ _ h _ => .inl ⟨h, rfl⟩⟩

theorem trans {free : Option ℕ} (h : Marks free t t') (h' : Marks free t' t'') :
    Marks free t t'' where
  index := h.index.trans h'.index
  marked i hi := h'.marked i (h.marked i hi)
  isDirty hd := h'.isDirty (h.isDirty hd)
  changed i p hp hfree := by
    rcases h'.changed i p hp hfree with ⟨hp', hlookup'⟩ | hmarked
    · rcases h.changed i p hp' hfree with ⟨hp, hlookup⟩ | ⟨hi, hd⟩
      · exact .inl ⟨hp, hlookup'.trans hlookup⟩
      · exact .inr ⟨h'.marked i hi, h'.isDirty hd⟩
    · exact .inr hmarked

/-- More may be left out of the account. -/
theorem weaken {p : ℕ} (h : Marks none t t') : Marks (some p) t t' :=
  ⟨h.index, h.marked, h.isDirty, fun i q hq _ => h.changed i q hq (by simp)⟩

/-- What was left out is marked in the end. -/
theorem close {p : ℕ} (h : Marks (some p) t t')
    (hp : ∀ i : ℕ, t'.autoIncrementIndex[i]? = some p →
      dirtyOf t' i = true ∧ t'.isDirty = true) : Marks none t t' where
  index := h.index
  marked := h.marked
  isDirty := h.isDirty
  changed i q hq _ := by
    by_cases hqp : p = q
    · subst hqp
      exact .inr (hp i hq)
    · exact h.changed i q hq (by simpa using hqp)

theorem of_effect {i : ℕ} (hc : Core L t rs) (he : Effect L t rs t' rs' i i) :
    Marks none t t' where
  index := he.index
  marked j hj := (he.marked j).mpr (.inr hj)
  isDirty _ := he.isDirty
  changed j p hp _ := by
    by_cases hji : j = i
    · exact .inr ⟨(he.marked j).mpr (.inl hji), he.isDirty⟩
    · left
      obtain ⟨r, hr, hlookup⟩ := he.core.exists_of_index hp
      have hold : rs[j]? = some r := by rw [← he.others j hji, hr]
      obtain ⟨q, hq, hlookup'⟩ := hc.exists_of_row hold
      obtain ⟨more, hmore⟩ := he.index
      have hlt := (List.getElem?_eq_some_iff.mp hq).1
      have hqp : t'.autoIncrementIndex[j]? = some q := by
        rw [← hmore, List.getElem?_append_left hlt, hq]
      obtain rfl := Option.some.inj (hp.symm.trans hqp)
      exact ⟨hq, by rw [hlookup, hlookup']⟩

end Marks

/-- Rows that are marked as they change stay in step with the file. -/
theorem tracks_of_marks {L' : Layout α} {file : Option Bytes} {saved : List (Row α)}
    (hc : Core L t rs) (hc' : Core L' t' rs') (hmarks : Marks none t t')
    (hfile : file = none ∧ saved = [] ∨ file = some (image L' saved))
    (htracks : Tracks L t rs file saved) : Tracks L' t' rs' file saved where
  file := hfile
  length := by
    rw [← hc'.length_eq]
    exact (htracks.length.trans hc.length_eq.ge).trans hmarks.index.length_le
  tracked i r hr hne := by
    obtain ⟨p, hp, hlookup⟩ := hc'.exists_of_row hr
    rcases hmarks.changed i p hp (by simp) with ⟨hold, hsame⟩ | hmarked
    · have hrow : rs[i]? = some r := by rw [← hc.lookup_of_index hold, ← hsame, hlookup]
      obtain ⟨hi, hd⟩ := htracks.tracked i r hrow hne
      exact ⟨hmarks.marked i hi, hmarks.isDirty hd⟩
    · exact hmarked

/-- `r` has been stored under its key, and nothing else has changed. -/
structure Stores (L : Layout α) (t t' : Table α) (r : Row α) : Prop where
  found : findRow t' = Function.update (findRow t) (L.getKey r.cols) (some r)
  marks : Marks none t t'

theorem stores_of_effect {i : ℕ} {r : Row α} (hc : Core L t rs) (hf : Filed L t rs)
    (he : Effect L t rs t' rs' i i) (hr : rs'[i]? = some r)
    (hkey : ∀ old, rs[i]? = some old → L.getKey old.cols = L.getKey r.cols) :
    Stores L t t' r := by
  refine ⟨?_, Marks.of_effect hc he⟩
  have hfiled := he.filed hf
  funext key
  apply Option.ext
  intro s
  rw [findRow_eq_some_iff he.core hfiled, Function.update_apply]
  split_ifs with heq
  · subst heq
    constructor
    · rintro ⟨hs, hskey⟩
      obtain ⟨j, hj⟩ := List.getElem?_of_mem hs
      obtain rfl := hfiled.key_injective he.core hj hr hskey
      exact hr.symm.trans hj
    · intro hs
      obtain rfl := Option.some.inj hs
      exact ⟨List.mem_of_getElem? hr, rfl⟩
  · rw [findRow_eq_some_iff hc hf]
    constructor
    · rintro ⟨hs, rfl⟩
      obtain ⟨j, hj⟩ := List.getElem?_of_mem hs
      have hji : j ≠ i := by
        rintro rfl
        obtain rfl := Option.some.inj (hr.symm.trans hj)
        exact heq rfl
      rw [he.others j hji] at hj
      exact ⟨List.mem_of_getElem? hj, rfl⟩
    · rintro ⟨hs, rfl⟩
      obtain ⟨j, hj⟩ := List.getElem?_of_mem hs
      have hji : j ≠ i := by
        rintro rfl
        exact heq (hkey s hj)
      rw [← he.others j hji] at hj
      exact ⟨List.mem_of_getElem? hj, rfl⟩

/-- What is not marked is as it was, and at most `n` rows are new. -/
structure AddsRows (n : ℕ) (t t' : Table α) : Prop where
  marks : Marks none t t'
  length : t'.autoIncrementIndex.length ≤ t.autoIncrementIndex.length + n

theorem AddsRows.refl (t : Table α) : AddsRows 0 t t := ⟨Marks.refl none t, le_rfl⟩

theorem AddsRows.trans {m n : ℕ} (h : AddsRows m t t') (h' : AddsRows n t' t'') :
    AddsRows (m + n) t t'' := by
  refine ⟨h.marks.trans h'.marks, h'.length.trans ?_⟩
  have := h.length
  omega

theorem AddsRows.mono {m n : ℕ} (h : AddsRows m t t') (hmn : m ≤ n) : AddsRows n t t' :=
  ⟨h.marks, h.length.trans (Nat.add_le_add_left hmn _)⟩

section Operations
variable (A : Allocator α) (hc : Core L t rs)
include hc

/-- A row with a new key. -/
theorem addOrUpdate_new {row : Row α} {readId : ℕ → ℕ}
    (hnew : t.rows.lookup (L.getKey row.cols) = none)
    (h : (t.allocate A row).1.addOrUpdate L A (t.allocate A row).2 = some (t', readId)) :
    Effect L t rs t' (rs ++ [{ row with id := rs.length }]) rs.length rs.length ∧
      readId 0 = rs.length := by
  rcases addOrUpdate_effect A hc row with ⟨-, t₁, hadd, he⟩ | ⟨q, -, -, -, -, hq, -⟩
  · obtain ⟨rfl, rfl⟩ := Prod.mk.inj (Option.some.inj (hadd.symm.trans h))
    exact ⟨he, rfl⟩
  · exact absurd (hnew.symm.trans hq) (by simp)

theorem adds_addOrUpdate {row : Row α} {readId : ℕ → ℕ}
    (hnew : t.rows.lookup (L.getKey row.cols) = none)
    (h : (t.allocate A row).1.addOrUpdate L A (t.allocate A row).2 = some (t', readId)) :
    AddsRows 1 t t' := by
  obtain ⟨he, -⟩ := addOrUpdate_new A hc hnew h
  refine ⟨Marks.of_effect hc he, ?_⟩
  rw [he.core.length_eq, hc.length_eq, List.length_append, List.length_singleton]

variable (hf : Filed L t rs)
include hf

theorem stores_add {row : Row α} {id : ℕ}
    (h : (t.allocate A row).1.add L (t.allocate A row).2 = some (t', id)) :
    Stores L t t' { row with id := id } := by
  have hnew : t.rows.lookup (L.getKey row.cols) = none := by
    by_contra hknown
    rw [add_eq_none A (Option.ne_none_iff_isSome.mp hknown)] at h
    cases h
  obtain ⟨t₁, hadd, he⟩ := add_effect A hc row hnew
  obtain ⟨rfl, rfl⟩ := Prod.mk.inj (Option.some.inj (hadd.symm.trans h))
  exact stores_of_effect hc hf he (by simp) (by simp)

theorem stores_addOrUpdate {row : Row α} {readId : ℕ → ℕ}
    (hnew : t.rows.lookup (L.getKey row.cols) = none)
    (h : (t.allocate A row).1.addOrUpdate L A (t.allocate A row).2 = some (t', readId)) :
    Stores L t t' { row with id := readId 0 } := by
  obtain ⟨he, hid⟩ := addOrUpdate_new A hc hnew h
  rw [hid]
  exact stores_of_effect hc hf he (by simp) (by simp)

/-- A stored row is replaced through its pointer. -/
theorem stores_update {p : ℕ} {old r : Row α}
    (hp : t.autoIncrementIndex[old.id]? = some p) (hold : rs[old.id]? = some old)
    (hid : r.id = old.id) (hkey : L.getKey r.cols = L.getKey old.cols)
    (h : Table.update L { t with heap := t.heap.insert p r } A p = some t') :
    Stores L t t' r := by
  obtain ⟨t₁, hupdate, he⟩ := update_stored_effect A hc hf hp hold hid hkey
  obtain rfl := Option.some.inj (hupdate.symm.trans h)
  refine stores_of_effect hc hf he
    (List.getElem?_set_self (List.getElem?_eq_some_iff.mp hold).1) fun s hs => ?_
  obtain rfl := Option.some.inj (hold.symm.trans hs)
  exact hkey.symm

end Operations

end Tarracsh.TableFrames
