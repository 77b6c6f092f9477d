import Tarracsh.ByteStrings

/-!
# Records of fixed width

A codec stores every value of a type in the same number of bytes. Codecs of
the fields, placed one after the other, give the codec of a packed record.
-/
namespace Tarracsh.RecordCodecs
open ByteStrings

structure Codec (α : Type) where
  width : ℕ
  encode : α → Bytes
  decode : Bytes → α
  encode_length : ∀ a, (encode a).length = width
  decode_encode : ∀ a, decode (encode a) = a

namespace Codec
variable {α β : Type}

def uint64 : Codec UInt64 where
  width := 8
  encode v := littleEndian 8 v.toNat
  decode bytes := UInt64.ofNat (ofLittleEndian bytes)
  encode_length v := littleEndian_length 8 v.toNat
  decode_encode v := by
    have hbound : v.toNat % 256 ^ 8 = v.toNat := Nat.mod_eq_of_lt v.toNat_lt
    rw [ofLittleEndian_littleEndian, hbound, UInt64.ofNat_toNat]

def uint32 : Codec UInt32 where
  width := 4
  encode v := littleEndian 4 v.toNat
  decode bytes := UInt32.ofNat (ofLittleEndian bytes)
  encode_length v := littleEndian_length 4 v.toNat
  decode_encode v := by
    have hbound : v.toNat % 256 ^ 4 = v.toNat := Nat.mod_eq_of_lt v.toNat_lt
    rw [ofLittleEndian_littleEndian, hbound, UInt32.ofNat_toNat]

/-- An array of `n` bytes. -/
def array (n : ℕ) : Codec (Vector UInt8 n) where
  width := n
  encode v := v.toList
  decode bytes := Vector.ofFn fun i => bytes.getD i 0
  encode_length v := by simp
  decode_encode v := by
    ext i hi
    simp

/-- One field after another. -/
def prod (c : Codec α) (d : Codec β) : Codec (α × β) where
  width := c.width + d.width
  encode v := c.encode v.1 ++ d.encode v.2
  decode bytes := (c.decode (bytes.take c.width), d.decode (bytes.drop c.width))
  encode_length v := by rw [List.length_append, c.encode_length, d.encode_length]
  decode_encode v := by
    rw [List.take_left' (c.encode_length v.1), List.drop_left' (c.encode_length v.1),
      c.decode_encode, d.decode_encode]

/-- The same bytes for another type. -/
def map (c : Codec α) (build : α → β) (fields : β → α) (h : ∀ b, build (fields b) = b) :
    Codec β where
  width := c.width
  encode b := c.encode (fields b)
  decode bytes := build (c.decode bytes)
  encode_length b := c.encode_length (fields b)
  decode_encode b := by rw [c.decode_encode, h]

def int64 : Codec Int64 := uint64.map UInt64.toInt64 Int64.toUInt64 fun _ => rfl

def int32 : Codec Int32 := uint32.map UInt32.toInt32 Int32.toUInt32 fun _ => rfl

end Codec

/-- A string in an array of `n` bytes, filled up with zeros. -/
def padded (n : ℕ) (s : Bytes) : Bytes := (s ++ List.replicate n 0).take n

@[simp] theorem padded_length (n : ℕ) (s : Bytes) : (padded n s).length = n := by
  simp [padded]

end Tarracsh.RecordCodecs
