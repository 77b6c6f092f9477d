import Tarracsh.TableModel

/-!
# The rows a table represents

`Core` ties a table to the list of its rows in order of id, and `Filed` says
that `_rows` holds every row under its own key and nothing else. Each
operation touches the row of one id only, and marks that id as dirty; `Effect`
says so once for all of them.
-/
namespace Tarracsh.TableInvariant
open ByteStrings ByteFiles TableModel

variable {α : Type} (L : Layout α)

/-- The table represents the rows `rs`. -/
structure Core (t : Table α) (rs : List (Row α)) : Prop where
  schema : t.schema = L.schema
  heap : t.autoIncrementIndex.map t.heap.lookup = rs.map some
  ids : ∀ (i : ℕ) (r : Row α), rs[i]? = some r → r.id = i
  nodup : t.autoIncrementIndex.Nodup
  rows : ∀ key p, t.rows.lookup key = some p → p ∈ t.autoIncrementIndex

/-- `_rows` is the map from the key of each row to its pointer. -/
def Filed (t : Table α) (rs : List (Row α)) : Prop :=
  ∀ key p, t.rows.lookup key = some p ↔
    ∃ (i : ℕ) (r : Row α), t.autoIncrementIndex[i]? = some p ∧ rs[i]? = some r ∧
      L.getKey r.cols = key

/-- An operation that touched the row `i` and marked the row `m`. -/
structure Effect (t : Table α) (rs : List (Row α)) (t' : Table α) (rs' : List (Row α))
    (i m : ℕ) : Prop where
  core : Core L t' rs'
  filed : Filed L t rs → Filed L t' rs'
  index : t.autoIncrementIndex <+: t'.autoIncrementIndex
  length : rs.length ≤ rs'.length
  others : ∀ j : ℕ, j ≠ i → rs'[j]? = rs[j]?
  isDirty : t'.isDirty = true
  marked : ∀ j, (t'.dirtyRows.lookup j).isSome ↔ j = m ∨ (t.dirtyRows.lookup j).isSome

namespace Core
variable {L} {t : Table α} {rs : List (Row α)}

/-- The rows do not depend on how their keys are computed. -/
theorem rekey {F : Format α} {getKey : α → Bytes} (h : Core ⟨F, getKey⟩ t rs)
    (getKey' : α → Bytes) : Core ⟨F, getKey'⟩ t rs :=
  ⟨h.schema, h.heap, h.ids, h.nodup, h.rows⟩

theorem length_eq (h : Core L t rs) : t.autoIncrementIndex.length = rs.length := by
  simpa using congrArg List.length h.heap

theorem lookup_of_index (h : Core L t rs) {i p : ℕ} (hp : t.autoIncrementIndex[i]? = some p) :
    t.heap.lookup p = rs[i]? := by
  have := congrArg (fun l : List (Option (Row α)) => l[i]?) h.heap
  simp only [List.getElem?_map, hp, Option.map_some] at this
  cases hr : rs[i]? with
  | none => simp [hr] at this
  | some r => simpa [hr] using this

theorem exists_of_index (h : Core L t rs) {i p : ℕ} (hp : t.autoIncrementIndex[i]? = some p) :
    ∃ r, rs[i]? = some r ∧ t.heap.lookup p = some r := by
  have hlt : i < rs.length := by
    rw [← h.length_eq]
    exact (List.getElem?_eq_some_iff.mp hp).1
  exact ⟨rs[i], List.getElem?_eq_getElem hlt, by
    rw [h.lookup_of_index hp, List.getElem?_eq_getElem hlt]⟩

theorem exists_of_row (h : Core L t rs) {i : ℕ} {r : Row α} (hr : rs[i]? = some r) :
    ∃ p, t.autoIncrementIndex[i]? = some p ∧ t.heap.lookup p = some r := by
  have hlt : i < t.autoIncrementIndex.length := by
    rw [h.length_eq]
    exact (List.getElem?_eq_some_iff.mp hr).1
  refine ⟨t.autoIncrementIndex[i], List.getElem?_eq_getElem hlt, ?_⟩
  rw [h.lookup_of_index (List.getElem?_eq_getElem hlt), hr]

theorem getRow_eq (h : Core L t rs) (i : ℕ) : t.getRow i = rs[i]? := by
  cases hp : t.autoIncrementIndex[i]? with
  | none =>
      have hlength := h.length_eq
      rw [Table.getRow, hp, Option.bind_none, eq_comm, List.getElem?_eq_none_iff]
      rw [List.getElem?_eq_none_iff] at hp
      omega
  | some p => rw [Table.getRow, hp, Option.bind_some, h.lookup_of_index hp]

theorem index_injective (h : Core L t rs) {i j p : ℕ} (hi : t.autoIncrementIndex[i]? = some p)
    (hj : t.autoIncrementIndex[j]? = some p) : i = j := by
  obtain ⟨hi', hi⟩ := List.getElem?_eq_some_iff.mp hi
  obtain ⟨hj', hj⟩ := List.getElem?_eq_some_iff.mp hj
  exact (h.nodup.getElem_inj_iff).mp (hi.trans hj.symm)

/-- A pointer that is not in use is in no index. -/
theorem not_mem_of_not_mem_heap (h : Core L t rs) {p : ℕ} (hp : p ∉ t.heap) :
    p ∉ t.autoIncrementIndex := by
  intro hmem
  obtain ⟨i, hi⟩ := List.getElem?_of_mem hmem
  obtain ⟨r, -, hr⟩ := h.exists_of_index hi
  exact hp (AList.lookup_isSome.mp (by rw [hr]; rfl))

/-- One more row at the end of the index. -/
theorem append (h : Core L t rs) {t' : Table α} {p : ℕ} {r : Row α}
    (hschema : t'.schema = t.schema) (hnew : p ∉ t.autoIncrementIndex)
    (hindex : t'.autoIncrementIndex = t.autoIncrementIndex ++ [p])
    (hheap : ∀ q ∈ t.autoIncrementIndex, t'.heap.lookup q = t.heap.lookup q)
    (hp : t'.heap.lookup p = some r) (hid : r.id = rs.length)
    (hrows : ∀ key q, t'.rows.lookup key = some q → q = p ∨ q ∈ t.autoIncrementIndex) :
    Core L t' (rs ++ [r]) where
  schema := hschema.trans h.schema
  heap := by
    rw [hindex, List.map_append, List.map_append, ← h.heap, List.map_congr_left hheap]
    simp [hp]
  ids i s hs := by
    rw [List.getElem?_append] at hs
    split_ifs at hs with hlt
    · exact h.ids i s hs
    · rw [List.getElem?_singleton] at hs
      split_ifs at hs
      obtain rfl := Option.some.inj hs
      omega
  nodup := by
    rw [hindex]
    refine List.nodup_append.mpr ⟨h.nodup, List.nodup_singleton p, ?_⟩
    intro a ha b hb hab
    rw [List.mem_singleton.mp hb] at hab
    exact hnew (hab ▸ ha)
  rows key q hq := by
    rw [hindex]
    rcases hrows key q hq with rfl | hq
    · simp
    · simp [hq]

/-- Another row at one id. -/
theorem set (h : Core L t rs) {t' : Table α} {i p : ℕ} {r : Row α}
    (hschema : t'.schema = t.schema) (hindex : t'.autoIncrementIndex = t.autoIncrementIndex)
    (hp : t.autoIncrementIndex[i]? = some p)
    (hheap : ∀ q ∈ t.autoIncrementIndex, q ≠ p → t'.heap.lookup q = t.heap.lookup q)
    (hr : t'.heap.lookup p = some r) (hid : r.id = i)
    (hrows : ∀ key q, t'.rows.lookup key = some q → q ∈ t.autoIncrementIndex) :
    Core L t' (rs.set i r) where
  schema := hschema.trans h.schema
  heap := by
    apply List.ext_getElem?
    intro j
    rw [hindex, List.getElem?_map, List.getElem?_map, List.getElem?_set]
    cases hj : t.autoIncrementIndex[j]? with
    | none =>
        have hnone : rs[j]? = none := by
          rw [List.getElem?_eq_none_iff, ← h.length_eq]
          exact List.getElem?_eq_none_iff.mp hj
        have hlt := (List.getElem?_eq_some_iff.mp hp).1
        have hge := List.getElem?_eq_none_iff.mp hj
        rw [if_neg (by omega), hnone]
        rfl
    | some q =>
        obtain ⟨s, hs, hlookup⟩ := h.exists_of_index hj
        have hlt : j < rs.length := (List.getElem?_eq_some_iff.mp hs).1
        by_cases hij : i = j
        · subst hij
          obtain rfl := Option.some.inj (hj.symm.trans hp)
          simp [hlt, hr]
        · have hqp : q ≠ p := by
            rintro rfl
            exact hij (h.index_injective hp hj)
          rw [if_neg hij, hs, Option.map_some, Option.map_some,
            hheap q (List.mem_of_getElem? hj) hqp, hlookup]
  ids j s hs := by
    rw [List.getElem?_set] at hs
    split_ifs at hs with hij
    · obtain rfl := Option.some.inj hs
      omega
    · exact h.ids j s hs
  nodup := by rw [hindex]; exact h.nodup
  rows key q hq := by rw [hindex]; exact hrows key q hq

end Core

namespace Filed
variable {L} {t : Table α} {rs : List (Row α)}

/-- Another way to compute the same keys. -/
theorem rekey {F : Format α} {getKey getKey' : α → Bytes} (h : Filed ⟨F, getKey⟩ t rs)
    (hkeys : ∀ r ∈ rs, getKey' r.cols = getKey r.cols) : Filed ⟨F, getKey'⟩ t rs := by
  intro key p
  rw [h key p]
  constructor
  · rintro ⟨i, r, hi, hr, hkey⟩
    exact ⟨i, r, hi, hr, (hkeys r (List.mem_of_getElem? hr)).trans hkey⟩
  · rintro ⟨i, r, hi, hr, hkey⟩
    exact ⟨i, r, hi, hr, (hkeys r (List.mem_of_getElem? hr)).symm.trans hkey⟩

/-- A new key files the new row. -/
theorem append (h : Filed L t rs) (hc : Core L t rs) {t' : Table α} {p : ℕ} {r : Row α}
    (hindex : t'.autoIncrementIndex = t.autoIncrementIndex ++ [p])
    (hrows : t'.rows = t.rows.insert (L.getKey r.cols) p)
    (hnew : t.rows.lookup (L.getKey r.cols) = none) : Filed L t' (rs ++ [r]) := by
  have hlength := hc.length_eq
  have hold : ∀ {i q : ℕ} {s : Row α}, (t.autoIncrementIndex ++ [p])[i]? = some q →
      (rs ++ [r])[i]? = some s → (q = p ∧ s = r) ∨
        (t.autoIncrementIndex[i]? = some q ∧ rs[i]? = some s) := by
    intro i q s hq hs
    rw [List.getElem?_append] at hq hs
    rw [hlength] at hq
    by_cases hlt : i < rs.length
    · rw [if_pos hlt] at hq hs
      exact .inr ⟨hq, hs⟩
    · rw [if_neg hlt, List.getElem?_singleton] at hq hs
      split_ifs at hq hs
      exact .inl ⟨(Option.some.inj hq).symm, (Option.some.inj hs).symm⟩
  intro key q
  rw [hrows, hindex]
  by_cases hkey : key = L.getKey r.cols
  · subst hkey
    rw [AList.lookup_insert]
    constructor
    · intro hq
      obtain rfl := Option.some.inj hq
      exact ⟨rs.length, r, by simp [← hlength], by simp, rfl⟩
    · rintro ⟨i, s, hi, hs, hks⟩
      rcases hold hi hs with ⟨rfl, -⟩ | ⟨hi, hs⟩
      · rfl
      · have := (h (L.getKey r.cols) q).mpr ⟨i, s, hi, hs, hks⟩
        exact absurd (hnew.symm.trans this) (by simp)
  · rw [AList.lookup_insert_ne hkey, h key q]
    constructor
    · rintro ⟨i, s, hi, hs, hks⟩
      have hlt := (List.getElem?_eq_some_iff.mp hs).1
      exact ⟨i, s, by rw [List.getElem?_append_left (by omega)]; exact hi,
        by rw [List.getElem?_append_left hlt]; exact hs, hks⟩
    · rintro ⟨i, s, hi, hs, hks⟩
      rcases hold hi hs with ⟨-, rfl⟩ | ⟨hi, hs⟩
      · exact absurd hks.symm hkey
      · exact ⟨i, s, hi, hs, hks⟩

/-- A row that keeps its key stays filed. -/
theorem set (h : Filed L t rs) {t' : Table α} {i : ℕ} {old r : Row α}
    (hindex : t'.autoIncrementIndex = t.autoIncrementIndex) (hrows : t'.rows = t.rows)
    (hi : rs[i]? = some old) (hkey : L.getKey r.cols = L.getKey old.cols) :
    Filed L t' (rs.set i r) := by
  have hlt := (List.getElem?_eq_some_iff.mp hi).1
  intro key q
  rw [hrows, hindex, h key q]
  constructor
  · rintro ⟨j, s, hj, hs, hks⟩
    by_cases hij : i = j
    · subst hij
      obtain rfl := Option.some.inj (hi.symm.trans hs)
      exact ⟨i, r, hj, by simp [hlt], hkey.trans hks⟩
    · exact ⟨j, s, hj, by rw [List.getElem?_set_ne hij]; exact hs, hks⟩
  · rintro ⟨j, s, hj, hs, hks⟩
    by_cases hij : i = j
    · subst hij
      rw [List.getElem?_set_self hlt] at hs
      obtain rfl := Option.some.inj hs
      exact ⟨i, old, hj, hi, hkey.symm.trans hks⟩
    · rw [List.getElem?_set_ne hij] at hs
      exact ⟨j, s, hj, hs, hks⟩

/-- No two rows share their key. -/
theorem key_injective (h : Filed L t rs) (hc : Core L t rs) {i j : ℕ} {r s : Row α}
    (hi : rs[i]? = some r) (hj : rs[j]? = some s) (hkey : L.getKey r.cols = L.getKey s.cols) :
    i = j := by
  obtain ⟨p, hp, -⟩ := hc.exists_of_row hi
  obtain ⟨q, hq, -⟩ := hc.exists_of_row hj
  have h₁ := (h (L.getKey r.cols) p).mpr ⟨i, r, hp, hi, rfl⟩
  have h₂ := (h (L.getKey r.cols) q).mpr ⟨j, s, hq, hj, hkey.symm⟩
  obtain rfl := Option.some.inj (h₁.symm.trans h₂)
  exact hc.index_injective hp hq

/-- The keys of the map are those of the rows. -/
theorem lookup_isSome_iff (h : Filed L t rs) (hc : Core L t rs) (key : Bytes) :
    (t.rows.lookup key).isSome ↔ ∃ r ∈ rs, L.getKey r.cols = key := by
  rw [Option.isSome_iff_exists]
  constructor
  · rintro ⟨p, hp⟩
    obtain ⟨i, r, -, hr, hkey⟩ := (h key p).mp hp
    exact ⟨r, List.mem_of_getElem? hr, hkey⟩
  · rintro ⟨r, hr, hkey⟩
    obtain ⟨i, hi⟩ := List.getElem?_of_mem hr
    obtain ⟨p, hp, -⟩ := hc.exists_of_row hi
    exact ⟨p, (h key p).mpr ⟨i, r, hp, hi, hkey⟩⟩

end Filed

theorem marked_markUpdate (t : Table α) (i j : ℕ) :
    ((t.markUpdate i).dirtyRows.lookup j).isSome ↔ j = i ∨ (t.dirtyRows.lookup j).isSome := by
  unfold Table.markUpdate
  split_ifs with h
  · constructor
    · exact .inr
    · rintro (rfl | hj)
      · exact h
      · exact hj
  · by_cases hji : j = i
    · subst hji
      simp [AList.lookup_insert]
    · simp [AList.lookup_insert_ne hji, hji]

theorem marked_markNew (t : Table α) (i j : ℕ) :
    ((t.markNew i).dirtyRows.lookup j).isSome ↔ j = i ∨ (t.dirtyRows.lookup j).isSome := by
  by_cases hji : j = i
  · subst hji
    simp [Table.markNew, AList.lookup_insert]
  · simp [Table.markNew, AList.lookup_insert_ne hji, hji]

section Effects
variable {L} {t : Table α} {rs : List (Row α)}

/-- Setting the row of one id and marking one, as a rule the same. -/
theorem effect_set (hc : Core L t rs) {i p : ℕ} (m : ℕ) {old r : Row α}
    (hp : t.autoIncrementIndex[i]? = some p) (hi : rs[i]? = some old) (hid : r.id = i)
    (hkey : Filed L t rs → L.getKey r.cols = L.getKey old.cols) (heap : Heap α)
    (hheap : ∀ q ∈ t.autoIncrementIndex, q ≠ p → heap.lookup q = t.heap.lookup q)
    (hr : heap.lookup p = some r) :
    Effect L t rs (Table.markUpdate { t with heap := heap } m) (rs.set i r) i m where
  core := hc.set rfl rfl hp hheap hr hid hc.rows
  filed hf := hf.set rfl rfl hi (hkey hf)
  index := List.prefix_rfl
  length := by simp
  others j hj := List.getElem?_set_ne (Ne.symm hj)
  isDirty := rfl
  marked := marked_markUpdate _ m

/-- Appending a row under a new key and marking it. -/
theorem effect_append (hc : Core L t rs) {p : ℕ} {r : Row α} (hp : p ∉ t.autoIncrementIndex)
    (hid : r.id = rs.length) (hnew : t.rows.lookup (L.getKey r.cols) = none) (heap : Heap α)
    (hheap : ∀ q ∈ t.autoIncrementIndex, heap.lookup q = t.heap.lookup q)
    (hr : heap.lookup p = some r) :
    Effect L t rs
      (Table.markNew
        { t with
          heap := heap
          rows := t.rows.insert (L.getKey r.cols) p
          autoIncrementIndex := t.autoIncrementIndex ++ [p] } rs.length)
      (rs ++ [r]) rs.length rs.length where
  core := hc.append rfl hp rfl hheap hr hid (by
    intro key q hq
    by_cases hkey : key = L.getKey r.cols
    · subst hkey
      rw [Table.markNew, AList.lookup_insert] at hq
      exact .inl (Option.some.inj hq).symm
    · rw [Table.markNew, AList.lookup_insert_ne hkey] at hq
      exact .inr (hc.rows key q hq))
  filed hf := hf.append hc rfl rfl hnew
  index := List.prefix_append _ _
  length := by simp
  others j hj := by
    rw [List.getElem?_append]
    split_ifs with hlt
    · rfl
    · rw [List.getElem?_singleton, if_neg (by omega), List.getElem?_eq_none (by omega)]
  isDirty := rfl
  marked := marked_markNew _ _

/-- A call adds at most one row. -/
theorem Effect.length_le {t t' : Table α} {rs rs' : List (Row α)} {i m : ℕ}
    (h : Effect L t rs t' rs' i m) : rs'.length ≤ rs.length + 1 := by
  by_contra hlong
  have hsame : ∀ j, rs.length ≤ j → j < rs'.length → j = i := by
    intro j hj hj'
    by_contra hji
    have := h.others j hji
    rw [List.getElem?_eq_none hj, List.getElem?_eq_getElem hj'] at this
    cases this
  have h₁ := hsame rs.length le_rfl (by omega)
  have h₂ := hsame (rs.length + 1) (by omega) (by omega)
  omega

variable (A : Allocator α)

/-- The pointer of a new row is not in the index. -/
theorem malloc_not_mem (hc : Core L t rs) : A.malloc t.heap ∉ t.autoIncrementIndex :=
  hc.not_mem_of_not_mem_heap (A.malloc_fresh t.heap)

theorem malloc_ne (hc : Core L t rs) {q : ℕ} (hq : q ∈ t.autoIncrementIndex) :
    q ≠ A.malloc t.heap := by
  rintro rfl
  exact malloc_not_mem A hc hq

/-- A row that is allocated and not added is in no index. -/
theorem allocate_core (hc : Core L t rs) (r : Row α) : Core L (t.allocate A r).1 rs where
  schema := hc.schema
  heap := by
    rw [← hc.heap]
    apply List.map_congr_left
    intro q hq
    exact AList.lookup_insert_ne (malloc_ne A hc hq)
  ids := hc.ids
  nodup := hc.nodup
  rows := hc.rows

theorem internalAdd_effect (hc : Core L t rs) (r : Row α)
    (hnew : t.rows.lookup (L.getKey r.cols) = none) :
    ∃ t', (t.allocate A r).1.internalAdd (t.allocate A r).2 (L.getKey r.cols) =
        some (t', rs.length) ∧ t'.isDirty = t.isDirty ∧ t'.dirtyRows = t.dirtyRows ∧
      Effect L t rs (t'.markNew rs.length) (rs ++ [{ r with id := rs.length }]) rs.length
        rs.length := by
  refine ⟨_, ?_, ?_, ?_, effect_append hc (r := { r with id := rs.length })
    (malloc_not_mem A hc) rfl hnew
    ((t.heap.insert (A.malloc t.heap) r).insert (A.malloc t.heap) { r with id := rs.length })
    ?_ (AList.lookup_insert _)⟩
  · simp [Table.internalAdd, Table.allocate, AList.lookup_insert, hnew, hc.length_eq]
  · rfl
  · rfl
  · intro q hq
    have hne := malloc_ne A hc hq
    rw [AList.lookup_insert_ne hne, AList.lookup_insert_ne hne]

variable (L) in
/-- What stands at the released row after an update through `r` is the id of the row that
was overwritten, or that row is dirty already. -/
def MarksRow (t : Table α) (r : Row α) : Prop :=
  ∀ q old released, t.rows.lookup (L.getKey r.cols) = some q → t.heap.lookup q = some old →
    (t.allocate A r).1.internalUpdate A (t.allocate A r).2 (L.getKey r.cols) = some released →
    released.2 0 = old.id ∨ (t.dirtyRows.lookup old.id).isSome

/-- A known row is overwritten, and the mark goes where the released row points. -/
theorem internalUpdate_effect (hc : Core L t rs) (r : Row α) {q : ℕ}
    (hq : t.rows.lookup (L.getKey r.cols) = some q) :
    ∃ i t' readId, t.autoIncrementIndex[i]? = some q ∧
      (t.allocate A r).1.internalUpdate A (t.allocate A r).2 (L.getKey r.cols) =
        some (t', readId) ∧
      Effect L t rs (t'.markUpdate (readId 0)) (rs.set i { r with id := i }) i (readId 0) ∧
      (MarksRow L A t r → readId 0 = i ∨ (t.dirtyRows.lookup i).isSome) ∧
      (A.KeepsIds → ∀ n, readId n = i) := by
  obtain ⟨i, hi⟩ := List.getElem?_of_mem (hc.rows _ q hq)
  obtain ⟨old, hold, hlookup⟩ := hc.exists_of_index hi
  have hne := malloc_ne A hc (hc.rows _ q hq)
  have hid := hc.ids i old hold
  let row : Row α := { r with id := i }
  let heap := ((t.heap.insert (A.malloc t.heap) r).insert q row).insert (A.malloc t.heap) row
  have hupdate : (t.allocate A r).1.internalUpdate A (t.allocate A r).2 (L.getKey r.cols) =
      some ({ t with heap := heap.erase (A.malloc t.heap) },
        A.freedId heap (A.malloc t.heap)) := by
    simp [Table.internalUpdate, Table.allocate, AList.lookup_insert, hq, hne,
      AList.lookup_insert_ne hne, hlookup, hid, heap, row]
  refine ⟨i, { t with heap := heap.erase (A.malloc t.heap) }, A.freedId heap (A.malloc t.heap), hi,
    hupdate, effect_set hc (r := row) _ hi hold rfl ?_ (heap.erase (A.malloc t.heap)) ?_ ?_,
    fun hmarks => ?_, fun hkeeps n => hkeeps heap _ row (AList.lookup_insert _) n⟩
  rotate_right
  · rw [← hid]
    exact hmarks q old _ hq hlookup hupdate
  · intro hf
    obtain ⟨j, s, hj, hs, hks⟩ := (hf _ q).mp hq
    obtain rfl := hc.index_injective hi hj
    obtain rfl := Option.some.inj (hold.symm.trans hs)
    exact hks.symm
  · intro k hk hkq
    have hkne := malloc_ne A hc hk
    rw [AList.lookup_erase_ne hkne, AList.lookup_insert_ne hkne, AList.lookup_insert_ne hkq,
      AList.lookup_insert_ne hkne]
  · rw [AList.lookup_erase_ne hne, AList.lookup_insert_ne hne, AList.lookup_insert]

theorem add_effect (hc : Core L t rs) (r : Row α)
    (hnew : t.rows.lookup (L.getKey r.cols) = none) :
    ∃ t', (t.allocate A r).1.add L (t.allocate A r).2 = some (t', rs.length) ∧
      Effect L t rs t' (rs ++ [{ r with id := rs.length }]) rs.length rs.length := by
  obtain ⟨t', ht', -, -, heffect⟩ := internalAdd_effect A hc r hnew
  refine ⟨t'.markNew rs.length, ?_, heffect⟩
  have hrow : (t.allocate A r).1.heap.lookup (t.allocate A r).2 = some r := AList.lookup_insert _
  simp [Table.add, hrow, ht']

/-- A key that is there already fails the assertion. -/
theorem add_eq_none {r : Row α} (h : (t.rows.lookup (L.getKey r.cols)).isSome) :
    (t.allocate A r).1.add L (t.allocate A r).2 = none := by
  have hrow : (t.allocate A r).1.heap.lookup (t.allocate A r).2 = some r := AList.lookup_insert _
  have hkey : ((t.allocate A r).1.rows.lookup (L.getKey r.cols)).isSome = true := h
  simp [Table.add, Table.internalAdd, hrow, hkey]

/-- What `add` does to the key and to the index. -/
theorem add_rows {r : Row α} {t' : Table α} {id : ℕ}
    (h : (t.allocate A r).1.add L (t.allocate A r).2 = some (t', id)) :
    t'.rows = t.rows.insert (L.getKey r.cols) (A.malloc t.heap) ∧
      t'.autoIncrementIndex = t.autoIncrementIndex ++ [A.malloc t.heap] := by
  have hrow : (t.allocate A r).1.heap.lookup (t.allocate A r).2 = some r := AList.lookup_insert _
  by_cases hkey : (t.rows.lookup (L.getKey r.cols)).isSome
  · rw [add_eq_none A hkey] at h
    cases h
  · have hkey' : ((t.allocate A r).1.rows.lookup (L.getKey r.cols)).isSome = false :=
      Bool.eq_false_iff.mpr hkey
    simp only [Table.add, Table.internalAdd, hrow, hkey', Option.bind_eq_bind, Option.bind_some,
      Bool.false_eq_true, if_false, Option.some.injEq, Prod.mk.injEq] at h
    obtain ⟨rfl, -⟩ := h
    exact ⟨rfl, rfl⟩

theorem marksRow_of_keepsIds (hc : Core L t rs) (hids : A.KeepsIds) (r : Row α) :
    MarksRow L A t r := by
  intro q old released hq hold hupdate
  obtain ⟨i, t', readId, hi, ht', -, -, hkeeps⟩ := internalUpdate_effect A hc r hq
  obtain rfl := Option.some.inj (ht'.symm.trans hupdate)
  rw [hc.lookup_of_index hi] at hold
  exact .inl ((hkeeps hids 0).trans (hc.ids i old hold).symm)

theorem update_effect (hc : Core L t rs) (r : Row α) {q : ℕ}
    (hq : t.rows.lookup (L.getKey r.cols) = some q) :
    ∃ i m t', t.autoIncrementIndex[i]? = some q ∧
      (t.allocate A r).1.update L A (t.allocate A r).2 = some t' ∧
      Effect L t rs t' (rs.set i { r with id := i }) i m ∧
      (MarksRow L A t r → m = i ∨ (t.dirtyRows.lookup i).isSome) := by
  obtain ⟨i, t', readId, hi, ht', heffect, hmarks, -⟩ := internalUpdate_effect A hc r hq
  refine ⟨i, readId 0, t'.markUpdate (readId 0), hi, ?_, heffect, hmarks⟩
  have hrow : (t.allocate A r).1.heap.lookup (t.allocate A r).2 = some r := AList.lookup_insert _
  simp [Table.update, hrow, ht']

/-- `addOrUpdate` is `add` for a new key and `update` for a known one. -/
theorem addOrUpdate_effect (hc : Core L t rs) (r : Row α) :
    (t.rows.lookup (L.getKey r.cols) = none ∧
      ∃ t', (t.allocate A r).1.addOrUpdate L A (t.allocate A r).2 =
          some (t', fun _ => rs.length) ∧
        Effect L t rs t' (rs ++ [{ r with id := rs.length }]) rs.length rs.length) ∨
    ∃ q i m t' readId, t.rows.lookup (L.getKey r.cols) = some q ∧
      t.autoIncrementIndex[i]? = some q ∧
      (t.allocate A r).1.addOrUpdate L A (t.allocate A r).2 = some (t', readId) ∧
      Effect L t rs t' (rs.set i { r with id := i }) i m ∧
      (MarksRow L A t r → m = i ∨ (t.dirtyRows.lookup i).isSome) ∧
      (A.KeepsIds → ∀ n, readId n = i) := by
  have hrow : (t.allocate A r).1.heap.lookup (t.allocate A r).2 = some r := AList.lookup_insert _
  cases hlookup : t.rows.lookup (L.getKey r.cols) with
  | none =>
      obtain ⟨t', ht', -, -, heffect⟩ := internalAdd_effect A hc r hlookup
      refine .inl ⟨rfl, t'.markNew rs.length, ?_, heffect⟩
      have hrows : (t.allocate A r).1.rows.lookup (L.getKey r.cols) = none := hlookup
      simp [Table.addOrUpdate, hrow, hrows, ht']
  | some q =>
      obtain ⟨i, t', readId, hi, ht', heffect, hmarks, hkeeps⟩ :=
        internalUpdate_effect A hc r hlookup
      refine .inr ⟨q, i, readId 0, t'.markUpdate (readId 0), fun n => readId (n + 2), rfl, hi, ?_,
        heffect, hmarks, fun h n => hkeeps h (n + 2)⟩
      have hrows : (t.allocate A r).1.rows.lookup (L.getKey r.cols) = some q := hlookup
      simp [Table.addOrUpdate, hrow, hrows, ht']

/-- `addOrUpdate` leaves the given row and all rows with other keys. The callers read the id of a
new row. -/
theorem addOrUpdate_mem (hc : Core L t rs) (hf : Filed L t rs) (r : Row α) :
    ∃ t' readId id m rs',
      (t.allocate A r).1.addOrUpdate L A (t.allocate A r).2 = some (t', readId) ∧
      Effect L t rs t' rs' id m ∧
      (t.rows.lookup (L.getKey r.cols) = none ∨ A.KeepsIds → ∀ n, readId n = id) ∧
      ∀ s, s ∈ rs' ↔ s = { r with id := id } ∨ (s ∈ rs ∧ L.getKey s.cols ≠ L.getKey r.cols) := by
  rcases addOrUpdate_effect A hc r with
    ⟨hnew, t', ht', heffect⟩ | ⟨q, i, m, t', readId, hq, hi, ht', heffect, -, hkeeps⟩
  · refine ⟨t', _, _, _, _, ht', heffect, fun _ _ => rfl, fun s => ?_⟩
    rw [List.mem_append, List.mem_singleton, or_comm]
    apply or_congr_right
    rw [iff_self_and]
    intro hs hkey
    obtain ⟨j, hj⟩ := List.getElem?_of_mem hs
    obtain ⟨p, hp, -⟩ := hc.exists_of_row hj
    have hfound := (hf _ p).mpr ⟨j, s, hp, hj, hkey⟩
    exact absurd (hnew.symm.trans hfound) (by simp)
  · obtain ⟨j, old, hj, hold, hkey⟩ := (hf _ q).mp hq
    obtain rfl := hc.index_injective hi hj
    have hlt := (List.getElem?_eq_some_iff.mp hold).1
    refine ⟨t', _, _, _, _, ht', heffect, ?_, fun s => ?_⟩
    · rintro (hnone | hids)
      · exact absurd (hq.symm.trans hnone) (by simp)
      · exact hkeeps hids
    constructor
    · intro hs
      obtain ⟨k, hk⟩ := List.getElem?_of_mem hs
      rw [List.getElem?_set] at hk
      split_ifs at hk with hik
      · exact .inl (Option.some.inj hk).symm
      · refine .inr ⟨List.mem_of_getElem? hk, fun hsame => hik ?_⟩
        exact hf.key_injective hc hold hk (hkey.trans hsame.symm)
    · rintro (rfl | ⟨hs, hne⟩)
      · exact List.mem_of_getElem? (List.getElem?_set_self hlt)
      · obtain ⟨k, hk⟩ := List.getElem?_of_mem hs
        have hik : i ≠ k := by
          rintro rfl
          obtain rfl := Option.some.inj (hold.symm.trans hk)
          exact hne hkey
        exact List.mem_of_getElem? ((List.getElem?_set_ne hik).trans hk)

/-- A stored row, changed in place by its holder and then passed to `update`. -/
theorem update_stored_effect (hc : Core L t rs) (hf : Filed L t rs) {i p : ℕ} {old : Row α}
    (hp : t.autoIncrementIndex[i]? = some p) (hi : rs[i]? = some old) {r : Row α}
    (hid : r.id = i) (hkey : L.getKey r.cols = L.getKey old.cols) :
    ∃ t', Table.update L { t with heap := t.heap.insert p r } A p = some t' ∧
      Effect L t rs t' (rs.set i r) i i := by
  have hrows : t.rows.lookup (L.getKey r.cols) = some p :=
    (hf _ p).mpr ⟨i, old, hp, hi, hkey.symm⟩
  refine ⟨_, ?_, effect_set hc i hp hi hid (fun _ => hkey) (t.heap.insert p r)
    (fun q _ hq => AList.lookup_insert_ne hq) (AList.lookup_insert _)⟩
  simp [Table.update, Table.internalUpdate, AList.lookup_insert, hrows, hid]

theorem updateInPlace_effect (hc : Core L t rs) {i p : ℕ} {old : Row α}
    (hp : t.autoIncrementIndex[i]? = some p) (hi : rs[i]? = some old) {change : Row α → Row α}
    (hid : (change old).id = i) (hkey : L.getKey (change old).cols = L.getKey old.cols) :
    ∃ t', t.updateInPlace p change = some t' ∧ Effect L t rs t' (rs.set i (change old)) i i := by
  have hlookup : t.heap.lookup p = some old := by rw [hc.lookup_of_index hp, hi]
  refine ⟨_, ?_, effect_set hc i hp hi hid (fun _ => hkey) (t.heap.insert p (change old))
    (fun q _ hq => AList.lookup_insert_ne hq) (AList.lookup_insert _)⟩
  simp [Table.updateInPlace, hlookup, hid]

theorem deleteRow_effect (hc : Core L t rs) {i : ℕ} {old : Row α} (hi : rs[i]? = some old) :
    ∃ t', t.deleteRow i = some t' ∧
      Effect L t rs t' (rs.set i { old with flags := old.flags ||| Deleted }) i i := by
  obtain ⟨p, hp, hlookup⟩ := hc.exists_of_row hi
  have hid := hc.ids i old hi
  refine ⟨_, ?_, effect_set hc (r := { old with flags := old.flags ||| Deleted }) i hp hi hid
    (fun _ => rfl) (t.heap.insert p { old with flags := old.flags ||| Deleted })
    (fun q _ hq => AList.lookup_insert_ne hq) (AList.lookup_insert _)⟩
  simp [Table.deleteRow, hp, hlookup, hid]

theorem deleteRow_rows {t' : Table α} {id : ℕ} (h : t.deleteRow id = some t') :
    t'.rows = t.rows ∧ t'.autoIncrementIndex = t.autoIncrementIndex := by
  obtain ⟨p, -, h⟩ := Option.bind_eq_some_iff.mp h
  obtain ⟨row, -, h⟩ := Option.bind_eq_some_iff.mp h
  obtain rfl := Option.some.inj h
  exact ⟨rfl, rfl⟩

/-- Archiving takes away the key under which the row is found. -/
theorem archiveRow_core (hc : Core L t rs) {key : Bytes} {p : ℕ}
    (hp : t.rows.lookup key = some p) :
    ∃ t', t.archiveRow p key = some t' ∧ Core L t' rs ∧
      t'.autoIncrementIndex = t.autoIncrementIndex ∧ t'.rows.lookup key = none := by
  have hmem := hc.rows key p hp
  obtain ⟨i, hi⟩ := List.getElem?_of_mem hmem
  obtain ⟨r, -, hlookup⟩ := hc.exists_of_index hi
  set archivedKey := key ++ ascii "#" ++ ascii (toString r.id) with harchived
  have hne : key ≠ archivedKey := by
    intro heq
    have := congrArg List.length heq
    simp [harchived, ascii] at this
  have hstill : (t.rows.insert archivedKey p).lookup key = some p := by
    rw [AList.lookup_insert_ne hne, hp]
  refine ⟨{ t with rows := (t.rows.insert archivedKey p).erase key }, ?_, ?_, rfl,
    AList.lookup_erase _ _⟩
  · simp only [Table.archiveRow, hlookup, Option.bind_eq_bind, Option.bind_some, ← harchived,
      if_pos hstill]
  · refine ⟨hc.schema, hc.heap, hc.ids, hc.nodup, fun key' q hq => ?_⟩
    by_cases hkey : key' = key
    · subst hkey
      rw [AList.lookup_erase] at hq
      exact absurd hq (by simp)
    · rw [AList.lookup_erase_ne hkey] at hq
      by_cases hkey' : key' = archivedKey
      · subst hkey'
        rw [AList.lookup_insert] at hq
        rwa [← Option.some.inj hq]
      · rw [AList.lookup_insert_ne hkey'] at hq
        exact hc.rows key' q hq

/-- A row that is changed in place behind the back of the table. -/
theorem insert_heap (hc : Core L t rs) {p : ℕ} {old r : Row α} (hp : t.heap.lookup p = some old)
    (hid : r.id = old.id) (hkey : L.getKey r.cols = L.getKey old.cols) :
    ∃ rs', Core L { t with heap := t.heap.insert p r } rs' ∧
      (Filed L t rs → Filed L { t with heap := t.heap.insert p r } rs') ∧
      rs'.length = rs.length ∧
      ∀ (i : ℕ) s, rs[i]? = some s → rs'[i]? = some s ∨ (s = old ∧ rs'[i]? = some r) := by
  by_cases hmem : p ∈ t.autoIncrementIndex
  · obtain ⟨i, hi⟩ := List.getElem?_of_mem hmem
    have hold : rs[i]? = some old := by rw [← hc.lookup_of_index hi, hp]
    have hlt := (List.getElem?_eq_some_iff.mp hold).1
    refine ⟨rs.set i r, hc.set rfl rfl hi (fun q _ hq => AList.lookup_insert_ne hq)
      (AList.lookup_insert _) (hid.trans (hc.ids i old hold)) hc.rows,
      fun hf => hf.set rfl rfl hold hkey, by simp, fun j s hs => ?_⟩
    by_cases hij : i = j
    · subst hij
      exact .inr ⟨Option.some.inj (hs.symm.trans hold), List.getElem?_set_self hlt⟩
    · exact .inl ((List.getElem?_set_ne hij).trans hs)
  · refine ⟨rs, ⟨hc.schema, ?_, hc.ids, hc.nodup, hc.rows⟩, fun hf => hf, rfl,
      fun i s hs => .inl hs⟩
    rw [← hc.heap]
    apply List.map_congr_left
    intro q hq
    exact AList.lookup_insert_ne fun hqp => hmem (hqp ▸ hq)

end Effects

theorem core_construct : Core L (Table.construct L) [] where
  schema := rfl
  heap := rfl
  ids := by simp
  nodup := List.nodup_nil
  rows := by simp [Table.construct]

theorem filed_construct : Filed L (Table.construct L) [] := by
  intro key p
  simp [Table.construct]

theorem lookup_singleton {κ β : Type} [DecidableEq κ] (k : κ) (v : β) :
    (AList.singleton k v : AList fun _ : κ => β).lookup k = some v :=
  @List.dlookup_cons_eq κ (fun _ => β) _ [] k v

/-- A table of one row. -/
theorem core_singleton {r : Row α} (hr : r.id = 0) (key : Bytes) (p : ℕ) (isDirty : Bool)
    (dirtyRows : AList fun _ : ℕ => DirtyType) :
    Core L ⟨AList.singleton p r, AList.singleton key p, [p], isDirty, dirtyRows, L.schema⟩ [r] where
  schema := rfl
  heap := congrArg (fun o => [o]) (lookup_singleton p r)
  ids i r' hr' := by
    cases i with
    | zero =>
        obtain rfl := Option.some.inj hr'
        exact hr
    | succ i => simp at hr'
  nodup := List.nodup_singleton p
  rows key' p' hp := by
    by_cases hkey : key' = key
    · subst hkey
      obtain rfl : p = p' := Option.some.inj ((lookup_singleton key' p).symm.trans hp)
      exact List.mem_singleton_self p
    · have hnone : (AList.singleton key p : AList fun _ : Bytes => ℕ).lookup key' = none := by
        rw [AList.lookup_eq_none]
        simpa [AList.mem_keys] using hkey
      exact absurd (hnone.symm.trans hp) (by simp)

end Tarracsh.TableInvariant
