import Mathlib.Data.List.Basic
import Mathlib.Data.Nat.Digits.Defs
import Mathlib.Tactic.Linarith

/-!
# Byte strings

C++ strings, buffers and files are all finite sequences of unsigned bytes. The
facts collected here concern the images of machine words, decimal numerals and
lists of blocks of one fixed length; nothing refers to a particular program.
-/
namespace Tarracsh.ByteStrings

abbrev Bytes := List UInt8

/-- A literal of seven-bit characters as its bytes. -/
def ascii (s : String) : Bytes := s.toList.map fun c => UInt8.ofNat c.toNat

/-- The unsigned two-byte little-endian image of a 16-bit word. -/
def littleEndian16 (v : UInt16) : Bytes := [v.toUInt8, (v >>> 8).toUInt8]

@[simp] theorem littleEndian16_length (v : UInt16) : (littleEndian16 v).length = 2 := rfl

theorem littleEndian16_injective : Function.Injective littleEndian16 := by
  intro v w h
  simp only [littleEndian16, List.cons.injEq, and_true] at h
  obtain ⟨hlow, hhigh⟩ := h
  apply UInt16.toNat.inj
  have h₁ := congrArg UInt8.toNat hlow
  have h₂ := congrArg UInt8.toNat hhigh
  simp only [UInt16.toNat_toUInt8, UInt16.toNat_shiftRight, UInt16.toNat_ofNat,
    Nat.shiftRight_eq_div_pow] at h₁ h₂
  have hv := v.toNat_lt
  have hw := w.toNat_lt
  norm_num at h₁ h₂
  omega

/-- The little-endian image of `n` in `w` bytes. -/
def littleEndian : ℕ → ℕ → Bytes
  | 0, _ => []
  | w + 1, n => UInt8.ofNat n :: littleEndian w (n / 256)

def ofLittleEndian : Bytes → ℕ
  | [] => 0
  | b :: bs => b.toNat + 256 * ofLittleEndian bs

@[simp] theorem littleEndian_length (w n : ℕ) : (littleEndian w n).length = w := by
  induction w generalizing n with
  | zero => rfl
  | succ w ih => simp [littleEndian, ih]

theorem ofLittleEndian_littleEndian (w n : ℕ) :
    ofLittleEndian (littleEndian w n) = n % 256 ^ w := by
  induction w generalizing n with
  | zero => simp [littleEndian, ofLittleEndian, Nat.mod_one]
  | succ w ih =>
      have hstep : n % 256 ^ (w + 1) = n % 256 + 256 * (n / 256 % 256 ^ w) := by
        rw [Nat.pow_succ, Nat.mul_comm, Nat.mod_mul]
      rw [littleEndian, ofLittleEndian, ih, UInt8.toNat_ofNat', hstep]

theorem littleEndian_ofLittleEndian (bs : Bytes) :
    littleEndian bs.length (ofLittleEndian bs) = bs := by
  induction bs with
  | nil => rfl
  | cons b bs ih =>
      have hb := b.toNat_lt
      have hhead : UInt8.ofNat (b.toNat + 256 * ofLittleEndian bs) = b := by
        apply UInt8.toNat.inj
        rw [UInt8.toNat_ofNat']
        omega
      have htail : (b.toNat + 256 * ofLittleEndian bs) / 256 = ofLittleEndian bs := by omega
      rw [List.length_cons, ofLittleEndian, littleEndian, hhead, htail, ih]

theorem digit_range {c : Char} (hc : c.isDigit = true) : 48 ≤ c.toNat ∧ c.toNat ≤ 57 := by
  simp only [Char.isDigit, Bool.and_eq_true, decide_eq_true_eq] at hc
  exact hc

theorem ascii_toString (n : ℕ) :
    ascii (toString n) = (Nat.toDigits 10 n).map fun c => UInt8.ofNat c.toNat := by
  rw [ascii, Nat.toString_eq_repr, Nat.toList_repr]

theorem digit_of_mem_toDigits {n : ℕ} {c : Char} (hc : c ∈ Nat.toDigits 10 n) :
    48 ≤ c.toNat ∧ c.toNat ≤ 57 :=
  digit_range (Nat.isDigit_of_mem_toDigits (by norm_num) (by norm_num) hc)

/-- A decimal number has no other bytes than digits. -/
theorem digit_of_mem_ascii_toString {n : ℕ} {b : UInt8} (h : b ∈ ascii (toString n)) :
    48 ≤ b.toNat ∧ b.toNat ≤ 57 := by
  rw [ascii_toString] at h
  obtain ⟨c, hc, rfl⟩ := List.mem_map.mp h
  have hrange := digit_of_mem_toDigits hc
  rw [UInt8.toNat_ofNat', Nat.mod_eq_of_lt (by omega)]
  exact hrange

/-- A number can be read off its decimal digits. -/
theorem ascii_toString_injective {m n : ℕ} (h : ascii (toString m) = ascii (toString n)) :
    m = n := by
  have hread : ∀ k : ℕ, (ascii (toString k)).map (fun b => Char.ofNat b.toNat) =
      Nat.toDigits 10 k := by
    intro k
    rw [ascii_toString, List.map_map]
    calc (Nat.toDigits 10 k).map _ = (Nat.toDigits 10 k).map id := by
          apply List.map_congr_left
          intro c hc
          have hrange := digit_of_mem_toDigits hc
          simp only [Function.comp_apply, UInt8.toNat_ofNat', id_eq]
          rw [Nat.mod_eq_of_lt (by omega), Char.ofNat_toNat]
      _ = Nat.toDigits 10 k := List.map_id _
  calc m = Nat.ofDigitChars 10 (Nat.toDigits 10 m) 0 := Nat.ofDigitChars_ten_toDigits.symm
    _ = Nat.ofDigitChars 10 (Nat.toDigits 10 n) 0 := by rw [← hread m, h, hread n]
    _ = n := Nat.ofDigitChars_ten_toDigits

/-- Blocks of one positive length can be recovered from their concatenation. -/
theorem flatten_inj_of_length {A : Type*} {n : ℕ} (hn : 0 < n) {xs ys : List (List A)}
    (hx : ∀ x ∈ xs, x.length = n) (hy : ∀ y ∈ ys, y.length = n)
    (h : xs.flatten = ys.flatten) : xs = ys := by
  induction xs generalizing ys with
  | nil =>
      cases ys with
      | nil => rfl
      | cons y ys =>
          have hlen := congrArg List.length h
          have := hy y (by simp)
          simp only [List.flatten_nil, List.length_nil, List.flatten_cons,
            List.length_append] at hlen
          omega
  | cons x xs ih =>
      cases ys with
      | nil =>
          have hlen := congrArg List.length h
          have := hx x (by simp)
          simp only [List.flatten_nil, List.length_nil, List.flatten_cons,
            List.length_append] at hlen
          omega
      | cons y ys =>
          simp only [List.flatten_cons] at h
          have hxy : x.length = y.length := by rw [hx x (by simp), hy y (by simp)]
          obtain ⟨rfl, htail⟩ := List.append_inj h hxy
          rw [ih (fun z hz => hx z (by simp [hz])) (fun z hz => hy z (by simp [hz])) htail]

end Tarracsh.ByteStrings
