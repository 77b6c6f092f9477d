import Mathlib.Data.List.Basic
import Mathlib.Data.List.Nodup

/-!
# Arenas of terminated strings

Strings over any alphabet are laid out one after the other, each followed by
one terminator. A string is found again from its offset by reading up to the
next terminator, and the whole list from a scan.
-/
namespace Tarracsh.TerminatedStrings
variable {α : Type} [DecidableEq α] (z : α)

def terminated (strings : List (List α)) : List α := strings.flatMap (· ++ [z])

/-- The string that starts at `offset`; undefined without a terminator. -/
def cString (cells : List α) (offset : ℕ) : Option (List α) :=
  let rest := cells.drop offset
  if z ∈ rest then some (rest.takeWhile (· ≠ z)) else none

/-- Where the first occurrence of `s` starts. -/
def offsetOf (s : List α) : List (List α) → Option ℕ
  | [] => none
  | t :: ts => if s = t then some 0 else (offsetOf s ts).map (· + (t.length + 1))

omit [DecidableEq α] in
@[simp] theorem terminated_nil : terminated z [] = [] := rfl

omit [DecidableEq α] in
@[simp] theorem terminated_cons (s : List α) (strings : List (List α)) :
    terminated z (s :: strings) = s ++ z :: terminated z strings := by
  simp [terminated]

omit [DecidableEq α] in
theorem terminated_concat (strings : List (List α)) (s : List α) :
    terminated z (strings ++ [s]) = terminated z strings ++ (s ++ [z]) := by
  simp [terminated]

omit [DecidableEq α] in
theorem terminated_append (strings more : List (List α)) :
    terminated z (strings ++ more) = terminated z strings ++ terminated z more := by
  simp [terminated]

variable {z}

theorem takeWhile_terminated {s : List α} (hs : z ∉ s) (rest : List α) :
    (s ++ z :: rest).takeWhile (· ≠ z) = s := by
  induction s with
  | nil => simp
  | cons a s ih =>
      obtain ⟨ha, hs⟩ := not_or.mp (mt List.mem_cons.mpr hs)
      simpa [Ne.symm ha] using ih hs

theorem cString_zero {s : List α} (hs : z ∉ s) (rest : List α) :
    cString z (s ++ z :: rest) 0 = some s := by
  have hmem : z ∈ s ++ z :: rest := by simp
  rw [cString, List.drop_zero, if_pos hmem, takeWhile_terminated hs]

theorem cString_append (front cells : List α) (offset : ℕ) :
    cString z (front ++ cells) (offset + front.length) = cString z cells offset := by
  have hdrop : (front ++ cells).drop (offset + front.length) = cells.drop offset := by
    rw [Nat.add_comm, List.drop_append, List.drop_eq_nil_of_le (by omega),
      Nat.add_sub_cancel_left, List.nil_append]
  rw [cString, cString, hdrop]

/-- Arenas extend each other as their strings do. -/
theorem prefix_of_terminated {xs ys : List (List α)} (hxs : ∀ s ∈ xs, z ∉ s) (hys : ∀ s ∈ ys, z ∉ s)
    (h : terminated z xs <+: terminated z ys) : xs <+: ys := by
  induction xs generalizing ys with
  | nil => exact List.nil_prefix
  | cons x xs ih =>
      obtain ⟨tail, htail⟩ := h
      rw [terminated_cons, List.append_assoc, List.cons_append] at htail
      cases ys with
      | nil => exact absurd htail (by simp)
      | cons y ys =>
          rw [terminated_cons] at htail
          have hhead : x = y := by
            rw [← takeWhile_terminated (hxs x (by simp)) (terminated z xs ++ tail), htail,
              takeWhile_terminated (hys y (by simp))]
          subst hhead
          have hrest := (List.cons.inj (List.append_cancel_left htail)).2
          obtain ⟨more, rfl⟩ := ih (fun s hs => hxs s (by simp [hs]))
            (fun s hs => hys s (by simp [hs])) ⟨tail, hrest⟩
          exact ⟨more, rfl⟩

/-- A string stays readable while the arena grows behind it. -/
theorem cString_append_right {cells : List α} {offset : ℕ} {s : List α}
    (h : cString z cells offset = some s) (more : List α) :
    cString z (cells ++ more) offset = some s := by
  unfold cString at h ⊢
  dsimp only at h ⊢
  split_ifs at h with hmem
  have hdrop : (cells ++ more).drop offset = cells.drop offset ++ more := by
    apply List.drop_append_of_le_length
    by_contra hlt
    rw [List.drop_eq_nil_of_le (by omega)] at hmem
    exact absurd hmem (by simp)
  rw [hdrop, if_pos (List.mem_append_left more hmem), ← h]
  obtain ⟨front, rest, hrest, hfront⟩ := List.eq_append_cons_of_mem hmem
  rw [hrest, List.append_assoc, List.cons_append, takeWhile_terminated hfront,
    takeWhile_terminated hfront]

theorem lt_length_of_cString {cells : List α} {offset : ℕ} {s : List α}
    (h : cString z cells offset = some s) : offset < cells.length := by
  by_contra hge
  rw [cString, List.drop_eq_nil_of_le (by omega)] at h
  simp at h

theorem cString_of_offsetOf {strings : List (List α)} (hfree : ∀ t ∈ strings, z ∉ t)
    {s : List α} {offset : ℕ} (h : offsetOf s strings = some offset) :
    cString z (terminated z strings) offset = some s := by
  induction strings generalizing offset with
  | nil => simp [offsetOf] at h
  | cons t ts ih =>
      rw [offsetOf] at h
      rw [terminated_cons]
      split_ifs at h with hst
      · obtain rfl := Option.some.inj h
        rw [hst]
        exact cString_zero (hfree t (by simp)) _
      · obtain ⟨o, ho, rfl⟩ := Option.map_eq_some_iff.mp h
        have hfront : t ++ z :: terminated z ts = (t ++ [z]) ++ terminated z ts := by simp
        have hlength : (t ++ [z]).length = t.length + 1 := by simp
        rw [hfront, ← hlength, cString_append]
        exact ih (fun u hu => hfree u (by simp [hu])) ho

variable (z)

theorem offsetOf_concat (strings : List (List α)) (s t : List α) :
    offsetOf t (strings ++ [s]) = (offsetOf t strings).or
      (if t = s then some (terminated z strings).length else none) := by
  induction strings with
  | nil => simp [offsetOf]
  | cons u us ih =>
      rw [List.cons_append, offsetOf, offsetOf, ih]
      split_ifs <;> cases offsetOf t us <;> simp [Nat.add_comm, Nat.add_assoc]

omit z in
theorem offsetOf_isSome {strings : List (List α)} {s : List α} :
    (offsetOf s strings).isSome ↔ s ∈ strings := by
  induction strings with
  | nil => simp [offsetOf]
  | cons t ts ih =>
      rw [offsetOf]
      split_ifs with h
      · simp [h]
      · simp [h, ih]

omit z in
theorem offsetOf_eq_none {strings : List (List α)} {s : List α} (h : s ∉ strings) :
    offsetOf s strings = none := by
  rw [← Option.not_isSome_iff_eq_none, offsetOf_isSome]
  exact h

omit z in
/-- Offsets survive appending further strings. -/
theorem offsetOf_append {strings : List (List α)} {s : List α} {offset : ℕ}
    (h : offsetOf s strings = some offset) (more : List (List α)) :
    offsetOf s (strings ++ more) = some offset := by
  induction strings generalizing offset with
  | nil => simp [offsetOf] at h
  | cons t ts ih =>
      rw [List.cons_append, offsetOf]
      rw [offsetOf] at h
      split_ifs at h ⊢ with hst
      · exact h
      · obtain ⟨o, ho, rfl⟩ := Option.map_eq_some_iff.mp h
        rw [ih ho]
        rfl

/-- Two strings never share an offset. -/
theorem offsetOf_injective {strings : List (List α)} (hfree : ∀ t ∈ strings, z ∉ t)
    {s t : List α} {offset : ℕ} (hs : offsetOf s strings = some offset)
    (ht : offsetOf t strings = some offset) : s = t := by
  have h := (cString_of_offsetOf hfree hs).symm.trans (cString_of_offsetOf hfree ht)
  exact Option.some.inj h

end Tarracsh.TerminatedStrings
