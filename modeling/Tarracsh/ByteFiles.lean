import Mathlib.Data.List.Basic
import Mathlib.Tactic.Ring

/-!
# Files of fixed-size slots

A file is a list of cells that is written in place. Writing behind the end
fills the gap, and writing nothing changes nothing. Behind a header of `h`
cells the file is divided into slots of `r` cells.
-/
namespace Tarracsh.ByteFiles
variable {α : Type} (z : α)

/-- The file after `cells` were written at `position`. -/
def writeAt (file : List α) (position : ℕ) (cells : List α) : List α :=
  if cells = [] then file
  else file.take position ++ List.replicate (position - file.length) z ++ cells ++
    file.drop (position + cells.length)

/-- Slot `i` behind a header of `h` cells, in slots of `r` cells. -/
def slot (h r : ℕ) (file : List α) (i : ℕ) : List α := (file.drop (h + i * r)).take r

@[simp] theorem writeAt_nil (file : List α) (position : ℕ) : writeAt z file position [] = file :=
  if_pos rfl

theorem getElem?_writeAt {file cells : List α} (position k : ℕ) (hc : cells ≠ []) :
    (writeAt z file position cells)[k]? =
      if position ≤ k ∧ k < position + cells.length then cells[k - position]?
      else if k < file.length then file[k]?
      else if k < position then some z else none := by
  have hpos := List.length_pos_of_ne_nil hc
  rw [writeAt, if_neg hc]
  simp only [List.getElem?_append, List.length_append, List.length_take, List.length_replicate,
    List.getElem?_take, List.getElem?_replicate, List.getElem?_drop]
  split_ifs <;> first | rfl | omega | (congr 1; omega) | (rw [List.getElem?_eq_none]; omega)

/-- A cell outside the written range keeps its value. -/
theorem getElem?_writeAt_of_not_mem {file : List α} (cells : List α) {position k : ℕ}
    (hk : k < file.length) (h : k < position ∨ position + cells.length ≤ k) :
    (writeAt z file position cells)[k]? = file[k]? := by
  by_cases hc : cells = []
  · rw [hc, writeAt_nil]
  · rw [getElem?_writeAt z position k hc, if_neg (by omega), if_pos hk]

theorem length_writeAt (file : List α) {cells : List α} (position : ℕ) (hc : cells ≠ []) :
    (writeAt z file position cells).length = max file.length (position + cells.length) := by
  have hpos := List.length_pos_of_ne_nil hc
  rw [writeAt, if_neg hc]
  simp only [List.length_append, List.length_take, List.length_replicate, List.length_drop]
  omega

theorem length_le_writeAt (file cells : List α) (position : ℕ) :
    file.length ≤ (writeAt z file position cells).length := by
  by_cases hc : cells = []
  · rw [hc, writeAt_nil]
  · rw [length_writeAt z _ position hc]
    exact le_max_left _ _

theorem take_writeAt {file cells : List α} {position h : ℕ} (hfile : h ≤ file.length)
    (hposition : h ≤ position) : (writeAt z file position cells).take h = file.take h := by
  apply List.ext_getElem?
  intro k
  rw [List.getElem?_take, List.getElem?_take]
  split_ifs with hk
  · exact getElem?_writeAt_of_not_mem z _ (by omega) (.inl (by omega))
  · rfl

theorem take_writeAt_end {file : List α} (cells : List α) {position : ℕ}
    (h : position ≤ file.length) :
    (writeAt z file position cells).take (position + cells.length) =
      file.take position ++ cells := by
  by_cases hc : cells = []
  · simp [hc]
  · have hlength : (file.take position ++ cells).length = position + cells.length := by
      simp [h]
    rw [writeAt, if_neg hc, Nat.sub_eq_zero_of_le h, List.replicate_zero, List.append_nil,
      ← hlength, List.take_left]

section Slots
variable {h r : ℕ}

theorem getElem?_slot (file : List α) (i j : ℕ) :
    (slot h r file i)[j]? = if j < r then file[h + i * r + j]? else none := by
  rw [slot, List.getElem?_take, List.getElem?_drop]

theorem slot_eq_iff {file cells : List α} {i : ℕ} (hc : cells.length = r) :
    slot h r file i = cells ↔ ∀ j < r, file[h + i * r + j]? = cells[j]? := by
  constructor
  · intro heq j hj
    rw [← heq, getElem?_slot, if_pos hj]
  · intro hcells
    apply List.ext_getElem?
    intro j
    rw [getElem?_slot]
    split_ifs with hj
    · exact hcells j hj
    · rw [List.getElem?_eq_none (by omega)]

theorem slot_disjoint {i j k l : ℕ} (hij : i ≠ j) (hk : k < r) (hl : l < r) :
    h + i * r + k ≠ h + j * r + l := by
  intro heq
  rcases Nat.lt_or_gt_of_ne hij with hlt | hlt
  · have := Nat.mul_le_mul_right r hlt
    rw [Nat.succ_mul] at this
    omega
  · have := Nat.mul_le_mul_right r hlt
    rw [Nat.succ_mul] at this
    omega

theorem slot_writeAt_self {file cells : List α} (i : ℕ) (hc : cells.length = r) (hr : 0 < r) :
    slot h r (writeAt z file (h + i * r) cells) i = cells := by
  refine (slot_eq_iff hc).mpr fun j hj => ?_
  rw [getElem?_writeAt z _ _ (List.ne_nil_of_length_pos (by omega)), if_pos (by omega),
    Nat.add_sub_cancel_left]

/-- Writing into one slot keeps every other slot that is in the file. -/
theorem slot_writeAt_of_ne {file cells row : List α} {i j : ℕ} (hij : i ≠ j)
    (hc : cells.length ≤ r) (hrow : row.length = r) (hslot : slot h r file j = row) :
    slot h r (writeAt z file (h + i * r) cells) j = row := by
  refine (slot_eq_iff hrow).mpr fun k hk => ?_
  have hold := (slot_eq_iff hrow).mp hslot k hk
  have hlt : h + j * r + k < file.length := by
    by_contra hnot
    rw [List.getElem?_eq_none (by omega), List.getElem?_eq_getElem (by omega)] at hold
    exact absurd hold (by simp)
  rw [getElem?_writeAt_of_not_mem z _ hlt, hold]
  by_contra hin
  exact slot_disjoint (h := h) (k := h + j * r + k - (h + i * r)) hij (by omega) hk (by omega)

/-- A blank slot stays blank when another slot is written: a gap is filled with
blank cells. -/
theorem blank_slot_writeAt {file cells : List α} {i j : ℕ} (hij : i ≠ j) (hc : cells.length ≤ r)
    (hblank : ∀ c ∈ slot h r file j, c = z) :
    ∀ c ∈ slot h r (writeAt z file (h + i * r) cells) j, c = z := by
  intro c hmem
  by_cases hcells : cells = []
  · rw [hcells, writeAt_nil] at hmem
    exact hblank c hmem
  obtain ⟨k, hk⟩ := List.mem_iff_getElem?.mp hmem
  rw [getElem?_slot] at hk
  split_ifs at hk with hkr
  have hout : ¬ (h + i * r ≤ h + j * r + k ∧ h + j * r + k < h + i * r + cells.length) := by
    intro hin
    exact slot_disjoint (h := h) (k := h + j * r + k - (h + i * r)) hij (by omega) hkr (by omega)
  rw [getElem?_writeAt z _ _ hcells, if_neg hout] at hk
  split_ifs at hk with hfile
  · apply hblank c
    rw [List.mem_iff_getElem?]
    exact ⟨k, by rw [getElem?_slot, if_pos hkr, hk]⟩
  · exact (Option.some.inj hk).symm

/-- A full slot ends inside the file. -/
theorem slot_end_le {file row : List α} {i : ℕ} (hrow : row.length = r)
    (hslot : slot h r file i = row) (hr : 0 < r) : h + (i + 1) * r ≤ file.length := by
  have hlength := congrArg List.length hslot
  rw [slot, List.length_take, List.length_drop, hrow] at hlength
  rw [Nat.succ_mul]
  omega

theorem slot_append {file : List α} {i : ℕ} (hi : h + (i + 1) * r ≤ file.length)
    (tail : List α) : slot h r (file ++ tail) i = slot h r file i := by
  rw [Nat.succ_mul] at hi
  rw [slot, slot, List.drop_append_of_le_length (by omega),
    List.take_append_of_le_length (by rw [List.length_drop]; omega)]

/-- The slots of a header followed by rows are the rows. -/
theorem slot_image {header : List α} {rows : List (List α)} (hh : header.length = h)
    (hrows : ∀ row ∈ rows, row.length = r) (i : ℕ) :
    slot h r (header ++ rows.flatten) i = (rows[i]?).getD [] := by
  rw [slot, ← hh, ← List.drop_drop, List.drop_left]
  induction rows generalizing i with
  | nil => simp
  | cons row rows ih =>
      have hrow := hrows row (by simp)
      cases i with
      | zero => simp [← hrow]
      | succ i =>
          rw [List.flatten_cons, Nat.succ_mul, Nat.add_comm, ← List.drop_drop, ← hrow,
            List.drop_left, hrow]
          simpa using ih (fun s hs => hrows s (by simp [hs])) i

theorem length_flatten_of_length {rows : List (List α)} (hrows : ∀ row ∈ rows, row.length = r) :
    rows.flatten.length = rows.length * r := by
  induction rows with
  | nil => simp
  | cons row rows ih =>
      rw [List.flatten_cons, List.length_append, hrows row (by simp),
        ih fun s hs => hrows s (by simp [hs]), List.length_cons]
      ring

/-- A file is its header followed by its rows when header, slots and length
agree. -/
theorem eq_image {file header : List α} {rows : List (List α)}
    (hrows : ∀ row ∈ rows, row.length = r) (hheader : file.take h = header)
    (hlength : file.length = h + rows.length * r)
    (hslots : ∀ i row, rows[i]? = some row → slot h r file i = row) :
    file = header ++ rows.flatten := by
  have htail : file.drop h = rows.flatten := by
    clear hheader
    induction rows generalizing h with
    | nil => simpa using hlength.le
    | cons row rows ih =>
        have hrow := hrows row (by simp)
        have h₀ := hslots 0 row rfl
        rw [slot, Nat.zero_mul, Nat.add_zero] at h₀
        have htail := ih (h := h + r) (fun s hs => hrows s (by simp [hs])) (by
            rw [hlength, List.length_cons]
            ring) (fun i s hs => by
            have := hslots (i + 1) s hs
            rw [slot] at this ⊢
            rw [← this]
            congr 2
            ring)
        rw [List.flatten_cons, ← htail, ← h₀, ← List.drop_drop, List.take_append_drop]
  rw [← htail, ← hheader, List.take_append_drop]

end Slots

end Tarracsh.ByteFiles
