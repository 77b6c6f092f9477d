import Tarracsh.ClassFileReader

/-!
# The reader of an attribute body

`VectorReader` deals the bytes of one attribute. A read past the end of the vector
fails an assertion, or without assertions has no defined result. The position is an
`int`, and so are the steps of `jump`.
-/
namespace Tarracsh.VectorReader
open ByteStrings QueryTrees StreamReads ClassFileReader

structure Reader where
  bytesVector : Bytes
  position : ℤ
  deriving DecidableEq, Repr

def readRaw (byteCount : ℕ) (r : Reader) : Option (Bytes × Reader) :=
  if 0 ≤ r.position ∧ r.position + byteCount ≤ r.bytesVector.length ∧
      r.position + byteCount < 2 ^ 31 then
    some ((r.bytesVector.drop r.position.toNat).take byteCount,
      { r with position := r.position + byteCount })
  else none

/-- The tree, read from the start, returns `r` and leaves the reader at the end. -/
def Returns {R : Type} (t : Tree ℕ Bytes R) (bytes : Bytes) (r : R) : Prop :=
  run readRaw t ⟨bytes, 0⟩ = some (r, ⟨bytes, bytes.length⟩)

/-- What is left from the position on. -/
structure LeftAt (bytes : Bytes) (r : Reader) (cells : Bytes) : Prop where
  vector : r.bytesVector = bytes
  nonneg : 0 ≤ r.position
  le_length : r.position ≤ bytes.length
  lt_max : r.position < 2 ^ 31
  cells : cells = bytes.drop r.position.toNat

theorem leftAt_start (bytes : Bytes) : LeftAt bytes ⟨bytes, 0⟩ bytes :=
  ⟨rfl, le_rfl, by simp, by simp, rfl⟩

theorem LeftAt.length {bytes cells : Bytes} {r : Reader} (h : LeftAt bytes r cells) :
    (cells.length : ℤ) = bytes.length - r.position := by
  have hnonneg := h.nonneg
  have hle := h.le_length
  rw [h.cells, List.length_drop]
  omega

theorem LeftAt.advance {bytes cells : Bytes} {r : Reader} (h : LeftAt bytes r cells) {n : ℕ}
    (hn : n ≤ cells.length) (hmax : r.position + n < 2 ^ 31) :
    LeftAt bytes { r with position := r.position + n } (cells.drop n) where
  vector := h.vector
  nonneg := by
    have := h.nonneg
    simp only
    omega
  le_length := by
    have := h.length
    simp only
    omega
  lt_max := hmax
  cells := by
    have := h.nonneg
    rw [h.cells, List.drop_drop]
    congr 1
    simp only
    omega

/-- The reader refuses a request exactly if the vector or the `int` ends before. -/
theorem LeftAt.readRaw {bytes cells : Bytes} {r : Reader} (h : LeftAt bytes r cells) (n : ℕ) :
    readRaw n r = if n ≤ cells.length ∧ r.position + n < 2 ^ 31 then
      some (cells.take n, { r with position := r.position + n }) else none := by
  have hiff : (0 ≤ r.position ∧ r.position + n ≤ r.bytesVector.length ∧ r.position + n < 2 ^ 31) ↔
      n ≤ cells.length ∧ r.position + n < 2 ^ 31 := by
    have hlength := h.length
    have hnonneg := h.nonneg
    rw [h.vector]
    omega
  unfold VectorReader.readRaw
  rw [h.cells, ← h.vector]
  rw [h.cells, ← h.vector] at hiff
  simp only [hiff]

/-- The reader ends at the end of the vector exactly if the whole list is dealt and its
length fits an `int`. -/
theorem returns_iff {R : Type} {t : Tree ℕ Bytes R} {bytes : Bytes} {x : R} :
    Returns t bytes x ↔ bytes.length < 2 ^ 31 ∧ run (fromList id) t bytes = some (x, []) := by
  constructor
  · intro h
    have hstep : ∀ (n : ℕ) (r : Reader) (cells a : Bytes) (r' : Reader), LeftAt bytes r cells →
        readRaw n r = some (a, r') →
        ∃ cells', fromList id n cells = some (a, cells') ∧ LeftAt bytes r' cells' := by
      intro n r cells a r' hleft hread
      rw [hleft.readRaw] at hread
      split_ifs at hread with hfits
      obtain ⟨rfl, rfl⟩ := Prod.mk.inj (Option.some.inj hread)
      exact ⟨cells.drop n, fromList_of_le hfits.1, hleft.advance hfits.1 hfits.2⟩
    obtain ⟨rest, hrun, hleft⟩ := run_simulates hstep t (leftAt_start bytes) h
    have hmax := hleft.lt_max
    simp only at hmax
    refine ⟨by omega, ?_⟩
    have hrest : rest = [] := by
      have hlength := hleft.length
      simp only [sub_self] at hlength
      exact List.length_eq_zero_iff.mp (by omega)
    rw [hrun, hrest]
  · rintro ⟨hmax, h⟩
    have hstep : ∀ (n : ℕ) (cells : Bytes) (r : Reader) (a cells' : Bytes), LeftAt bytes r cells →
        fromList id n cells = some (a, cells') →
        ∃ r', readRaw n r = some (a, r') ∧ LeftAt bytes r' cells' := by
      intro n cells r a cells' hleft hdeal
      obtain ⟨hn, rfl, rfl⟩ := fromList_eq_some.mp hdeal
      have hlength := hleft.length
      have hfits : r.position + n < 2 ^ 31 := by
        simp only [id_eq] at hn
        omega
      refine ⟨{ r with position := r.position + n }, ?_, hleft.advance hn hfits⟩
      rw [hleft.readRaw, if_pos ⟨hn, hfits⟩]
      rfl
    obtain ⟨r, hrun, hleft⟩ := run_simulates hstep t (leftAt_start bytes) h
    have hlength := hleft.length
    simp only [List.length_nil, Nat.cast_zero] at hlength
    have hposition : r.position = bytes.length := by omega
    have hr : r = ⟨bytes, bytes.length⟩ := by
      rw [← hposition, ← hleft.vector]
    rw [Returns, hrun, hr]

end Tarracsh.VectorReader
