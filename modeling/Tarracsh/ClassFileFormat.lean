import Tarracsh.ClassFileParser

/-!
# The class-file format

The binary format as an encoder. An image has a list of pool constants, each
with one slot or, for a Long or a Double, two. Its fields state the bounds
that the width of a count or a length imposes, so every image has an encoding.

Words are big-endian in a class file. A file whose magic number stands in the
opposite byte order is taken by the reader to be stored in the order of the
host; both orders are covered, with the flag of the reader as parameter.
-/
namespace Tarracsh.ClassFileFormat
open ByteStrings QueryTrees StreamReads PoolStructures ParsedClass ClassFileReader ClassFileParser

/-- The `w`-byte image of a number in the order that the reader's flag calls for. -/
def wordBytes (isBigEndian : Bool) (w n : ℕ) : Bytes :=
  if isBigEndian then littleEndian w n else (littleEndian w n).reverse

@[simp] theorem wordBytes_length (isBigEndian : Bool) (w n : ℕ) :
    (wordBytes isBigEndian w n).length = w := by
  cases isBigEndian <;> simp [wordBytes]

theorem swapShort_toNat (v : UInt16) :
    (swapShort v).toNat = 2 ^ 8 * (v.toNat % 256) + v.toNat / 256 := by
  have hv := v.toNat_lt
  have hhigh : (v >>> 8).toNat = v.toNat / 256 := by
    simp [UInt16.toNat_shiftRight, Nat.shiftRight_eq_div_pow]
  have hlow : (v <<< 8).toNat = 2 ^ 8 * (v.toNat % 256) := by
    have h8 : (8 : UInt16).toNat % 16 = 8 := rfl
    rw [UInt16.toNat_shiftLeft, h8, Nat.shiftLeft_eq]
    omega
  have hor := Nat.two_pow_add_eq_or_of_lt (i := 8) (b := v.toNat / 256) (by omega) (v.toNat % 256)
  rw [swapShort, UInt16.toNat_or, hhigh, hlow, Nat.or_comm, ← hor]

/-- A mask of eight bits selects one base-256 digit. -/
theorem and_mask (x k : ℕ) : x &&& (2 ^ k * 255) = 2 ^ k * (x / 2 ^ k % 256) := by
  have h255 : 255 = 2 ^ 8 - 1 := rfl
  have h256 : 256 = 2 ^ 8 := rfl
  apply Nat.eq_of_testBit_eq
  intro i
  rw [h255, h256]
  simp only [Nat.testBit_and, Nat.testBit_two_pow_mul, Nat.testBit_mod_two_pow,
    Nat.testBit_div_two_pow, Nat.testBit_two_pow_sub_one]
  by_cases hk : k ≤ i
  · simp [hk, Bool.and_comm]
  · simp [hk]

theorem swapLong_toNat (v : UInt32) :
    (swapLong v).toNat = 2 ^ 24 * (v.toNat % 256) + (2 ^ 16 * (v.toNat / 256 % 256) +
      (2 ^ 8 * (v.toNat / 2 ^ 16 % 256) + v.toNat / 2 ^ 24)) := by
  have hv := v.toNat_lt
  have h8 : (8 : UInt32).toNat % 32 = 8 := rfl
  have h24 : (24 : UInt32).toNat % 32 = 24 := rfl
  have hmask₁ : (0x00FF0000 : UInt32).toNat = 2 ^ 16 * 255 := rfl
  have hmask₂ : (0x0000FF00 : UInt32).toNat = 2 ^ 8 * 255 := rfl
  have h₁ : (v >>> 24).toNat = v.toNat / 2 ^ 24 := by
    rw [UInt32.toNat_shiftRight, h24, Nat.shiftRight_eq_div_pow]
  have h₂ : (v <<< 8 &&& (0x00FF0000 : UInt32)).toNat = 2 ^ 16 * (v.toNat / 256 % 256) := by
    rw [UInt32.toNat_and, hmask₁, and_mask, UInt32.toNat_shiftLeft, h8, Nat.shiftLeft_eq]
    omega
  have h₃ : (v >>> 8 &&& (0x0000FF00 : UInt32)).toNat = 2 ^ 8 * (v.toNat / 2 ^ 16 % 256) := by
    rw [UInt32.toNat_and, hmask₂, and_mask, UInt32.toNat_shiftRight, h8,
      Nat.shiftRight_eq_div_pow]
    omega
  have h₄ : (v <<< 24).toNat = 2 ^ 24 * (v.toNat % 256) := by
    rw [UInt32.toNat_shiftLeft, h24, Nat.shiftLeft_eq]
    omega
  rw [Nat.two_pow_add_eq_or_of_lt (by omega), Nat.two_pow_add_eq_or_of_lt (by omega),
    Nat.two_pow_add_eq_or_of_lt (by omega), swapLong, UInt32.toNat_or, UInt32.toNat_or,
    UInt32.toNat_or, h₁, h₂, h₃, h₄]
  ac_rfl

/-- The bytes of a word from the least significant one on. -/
def ascending (isBigEndian : Bool) (bytes : Bytes) : Bytes :=
  if isBigEndian then bytes else bytes.reverse

theorem ascending_wordBytes (isBigEndian : Bool) (w n : ℕ) :
    ascending isBigEndian (wordBytes isBigEndian w n) = littleEndian w n := by
  cases isBigEndian <;> simp [ascending, wordBytes]

theorem wordBytes_ofLittleEndian (isBigEndian : Bool) {w : ℕ} {bytes : Bytes}
    (h : bytes.length = w) :
    wordBytes isBigEndian w (ofLittleEndian (ascending isBigEndian bytes)) = bytes := by
  cases isBigEndian with
  | true =>
      rw [← h]
      exact littleEndian_ofLittleEndian bytes
  | false =>
      have hreverse : bytes.reverse.length = w := by rw [List.length_reverse, h]
      change (littleEndian w (ofLittleEndian bytes.reverse)).reverse = bytes
      rw [← hreverse, littleEndian_ofLittleEndian, List.reverse_reverse]

/-- The value a reader takes from two bytes. -/
theorem toU2_toNat (isBigEndian : Bool) {bytes : Bytes} (h : bytes.length = 2) :
    (toU2 isBigEndian bytes).toNat = ofLittleEndian (ascending isBigEndian bytes) := by
  obtain ⟨a, b, rfl⟩ := List.length_eq_two.mp h
  have ha := a.toNat_lt
  have hb := b.toNat_lt
  cases isBigEndian with
  | true =>
      simp only [toU2, if_true, hostU2, ascending, ofLittleEndian, UInt16.toNat_ofNat']
      omega
  | false =>
      simp only [toU2, Bool.false_eq_true, if_false, hostU2, swapShort_toNat, ascending,
        List.reverse_cons, List.reverse_nil, List.nil_append, List.cons_append, ofLittleEndian,
        UInt16.toNat_ofNat']
      omega

/-- Reversing the four base-256 digits of a number. -/
theorem reversed_digits {a b c d : ℕ} (ha : a < 256) (hb : b < 256) (hc : c < 256) (hd : d < 256) :
    let n := (a + 256 * (b + 256 * (c + 256 * (d + 256 * 0)))) % 2 ^ 32
    2 ^ 24 * (n % 256) + (2 ^ 16 * (n / 256 % 256) + (2 ^ 8 * (n / 2 ^ 16 % 256) + n / 2 ^ 24)) =
      d + 256 * (c + 256 * (b + 256 * (a + 256 * 0))) := by
  intro n
  have hn : n = a + 256 * (b + 256 * (c + 256 * d)) := by omega
  have h₀ : n % 256 = a := by omega
  have h₁ : n / 256 % 256 = b := by omega
  have h₂ : n / 2 ^ 16 % 256 = c := by omega
  have h₃ : n / 2 ^ 24 = d := by omega
  rw [h₀, h₁, h₂, h₃]
  ring

/-- The value a reader takes from four bytes. -/
theorem toU4_toNat (isBigEndian : Bool) {bytes : Bytes} (h : bytes.length = 4) :
    (toU4 isBigEndian bytes).toNat = ofLittleEndian (ascending isBigEndian bytes) := by
  obtain ⟨a, b, c, d, rfl⟩ : ∃ a b c d, bytes = [a, b, c, d] := by
    match bytes, h with
    | [a, b, c, d], _ => exact ⟨a, b, c, d, rfl⟩
  cases isBigEndian with
  | true =>
      have ha := a.toNat_lt
      have hb := b.toNat_lt
      have hc := c.toNat_lt
      have hd := d.toNat_lt
      simp only [toU4, if_true, hostU4, ascending, ofLittleEndian, UInt32.toNat_ofNat']
      omega
  | false =>
      simp only [toU4, Bool.false_eq_true, if_false, hostU4, swapLong_toNat, ascending,
        List.reverse_cons, List.reverse_nil, List.nil_append, List.cons_append, ofLittleEndian,
        UInt32.toNat_ofNat']
      exact reversed_digits a.toNat_lt b.toNat_lt c.toNat_lt d.toNat_lt

theorem toU2_wordBytes (isBigEndian : Bool) (v : UInt16) :
    toU2 isBigEndian (wordBytes isBigEndian 2 v.toNat) = v := by
  apply UInt16.toNat.inj
  rw [toU2_toNat isBigEndian (wordBytes_length _ _ _), ascending_wordBytes,
    ofLittleEndian_littleEndian]
  exact Nat.mod_eq_of_lt v.toNat_lt

theorem toU4_wordBytes (isBigEndian : Bool) (v : UInt32) :
    toU4 isBigEndian (wordBytes isBigEndian 4 v.toNat) = v := by
  apply UInt32.toNat.inj
  rw [toU4_toNat isBigEndian (wordBytes_length _ _ _), ascending_wordBytes,
    ofLittleEndian_littleEndian]
  exact Nat.mod_eq_of_lt v.toNat_lt

theorem wordBytes_toU2 (isBigEndian : Bool) {bytes : Bytes} (h : bytes.length = 2) :
    wordBytes isBigEndian 2 (toU2 isBigEndian bytes).toNat = bytes := by
  rw [toU2_toNat isBigEndian h, wordBytes_ofLittleEndian isBigEndian h]

theorem wordBytes_toU4 (isBigEndian : Bool) {bytes : Bytes} (h : bytes.length = 4) :
    wordBytes isBigEndian 4 (toU4 isBigEndian bytes).toNat = bytes := by
  rw [toU4_toNat isBigEndian h, wordBytes_ofLittleEndian isBigEndian h]

section Encoding
variable (isBigEndian : Bool)

def u2Bytes (v : UInt16) : Bytes := wordBytes isBigEndian 2 v.toNat

def u4Bytes (v : UInt32) : Bytes := wordBytes isBigEndian 4 v.toNat

def recordTag : ConstantPoolRecord → ConstantPoolTag
  | .utf8Info _ => .utf8
  | .integerInfo _ => .integer
  | .floatInfo _ => .float
  | .longInfo _ _ => .long
  | .doubleInfo _ _ => .double
  | .classInfo _ => .class
  | .stringInfo _ => .string
  | .fieldrefInfo _ _ => .fieldref
  | .methodrefInfo _ _ => .methodref
  | .interfaceMethodrefInfo _ _ => .interfaceMethodref
  | .nameAndTypeInfo _ _ => .nameAndType
  | .methodHandleInfo _ _ => .methodHandle
  | .methodTypeInfo _ => .methodType
  | .dynamicInfo _ _ => .dynamic
  | .invokeDynamicInfo _ _ => .invokeDynamic
  | .moduleInfo _ => .module
  | .packageInfo _ => .package

/-- What follows the tag of a constant. -/
def payload : ConstantPoolRecord → Bytes
  | .utf8Info bytes => u2Bytes isBigEndian (UInt16.ofNat bytes.length) ++ bytes
  | .integerInfo value => u4Bytes isBigEndian value
  | .floatInfo u4Value => u4Bytes isBigEndian u4Value
  | .longInfo highBytes lowBytes => u4Bytes isBigEndian highBytes ++ u4Bytes isBigEndian lowBytes
  | .doubleInfo highBytes lowBytes => u4Bytes isBigEndian highBytes ++ u4Bytes isBigEndian lowBytes
  | .classInfo nameIndex => u2Bytes isBigEndian nameIndex
  | .stringInfo stringIndex => u2Bytes isBigEndian stringIndex
  | .fieldrefInfo classIndex nameAndTypeIndex =>
      u2Bytes isBigEndian classIndex ++ u2Bytes isBigEndian nameAndTypeIndex
  | .methodrefInfo classIndex nameAndTypeIndex =>
      u2Bytes isBigEndian classIndex ++ u2Bytes isBigEndian nameAndTypeIndex
  | .interfaceMethodrefInfo classIndex nameAndTypeIndex =>
      u2Bytes isBigEndian classIndex ++ u2Bytes isBigEndian nameAndTypeIndex
  | .nameAndTypeInfo nameIndex descriptorIndex =>
      u2Bytes isBigEndian nameIndex ++ u2Bytes isBigEndian descriptorIndex
  | .methodHandleInfo referenceKind referenceIndex =>
      [referenceKind] ++ u2Bytes isBigEndian referenceIndex
  | .methodTypeInfo descriptorIndex => u2Bytes isBigEndian descriptorIndex
  | .dynamicInfo bootstrapMethodAttrIndex nameAndTypeIndex =>
      u2Bytes isBigEndian bootstrapMethodAttrIndex ++ u2Bytes isBigEndian nameAndTypeIndex
  | .invokeDynamicInfo bootstrapMethodAttrIndex nameAndTypeIndex =>
      u2Bytes isBigEndian bootstrapMethodAttrIndex ++ u2Bytes isBigEndian nameAndTypeIndex
  | .moduleInfo nameIndex => u2Bytes isBigEndian nameIndex
  | .packageInfo nameIndex => u2Bytes isBigEndian nameIndex

def recordBytes (record : ConstantPoolRecord) : Bytes :=
  [(recordTag record).toByte] ++ payload isBigEndian record

/-- A Long or a Double takes two slots. -/
def isWide : ConstantPoolRecord → Bool
  | .longInfo _ _ | .doubleInfo _ _ => true
  | _ => false

def slotsOf (record : ConstantPoolRecord) : List (Option ConstantPoolRecord) :=
  if isWide record then [some record, none] else [some record]

/-- The index vector of a pool with these constants, in order. -/
def poolSlots (constants : List ConstantPoolRecord) : List (Option ConstantPoolRecord) :=
  none :: constants.flatMap slotsOf

/-- The length of a string fits its two-byte field. -/
def Sized : ConstantPoolRecord → Prop
  | .utf8Info bytes => bytes.length < 2 ^ 16
  | _ => True

instance (record : ConstantPoolRecord) : Decidable (Sized record) := by
  cases record <;> unfold Sized <;> infer_instance

end Encoding

structure AttributeImage where
  nameIndex : UInt16
  info : Bytes
  info_lt : info.length < 2 ^ 32

structure MemberImage where
  accessFlags : UInt16
  nameIndex : UInt16
  descriptorIndex : UInt16
  attributes : List AttributeImage
  attributes_lt : attributes.length < 2 ^ 16

/-- A class file in the format of the virtual machine. -/
structure ClassFileImage where
  minorVersion : UInt16
  majorVersion : UInt16
  constants : List ConstantPoolRecord
  mainClassInfo : MainClassInfo
  interfaces : List UInt16
  fields : List MemberImage
  methods : List MemberImage
  attributes : List AttributeImage
  constants_sized : ∀ record ∈ constants, Sized record
  slots_lt : (poolSlots constants).length < 2 ^ 16
  interfaces_lt : interfaces.length < 2 ^ 16
  fields_lt : fields.length < 2 ^ 16
  methods_lt : methods.length < 2 ^ 16
  attributes_lt : attributes.length < 2 ^ 16

def AttributeImage.toAttributeInfo (a : AttributeImage) (owner : AttributeOwner) : AttributeInfo :=
  ⟨a.nameIndex, a.info, owner⟩

def MemberImage.toFieldInfo (m : MemberImage) (owner : AttributeOwner) : FieldInfo :=
  ⟨m.accessFlags, m.nameIndex, m.descriptorIndex, m.attributes.map (·.toAttributeInfo owner)⟩

/-- The structure an image stands for. -/
def ClassFileImage.classFile (c : ClassFileImage) : ClassFile :=
  { constantPool := ⟨poolSlots c.constants⟩
    mainClassInfo := c.mainClassInfo
    interfaces := c.interfaces
    fields := c.fields.map (·.toFieldInfo .field)
    methods := c.methods.map (·.toFieldInfo .method)
    attributes := c.attributes.map (·.toAttributeInfo .classFile) }

section Encoding
variable (isBigEndian : Bool)

/-- A count followed by its elements. -/
def counted {E : Type} (code : E → Bytes) (xs : List E) : Bytes :=
  u2Bytes isBigEndian (UInt16.ofNat xs.length) ++ xs.flatMap code

def AttributeImage.encode (a : AttributeImage) : Bytes :=
  u2Bytes isBigEndian a.nameIndex ++
    (u4Bytes isBigEndian (UInt32.ofNat a.info.length) ++ a.info)

def MemberImage.encode (m : MemberImage) : Bytes :=
  u2Bytes isBigEndian m.accessFlags ++ (u2Bytes isBigEndian m.nameIndex ++
    (u2Bytes isBigEndian m.descriptorIndex ++
      counted isBigEndian (AttributeImage.encode isBigEndian) m.attributes))

def mainClassInfoBytes (info : MainClassInfo) : Bytes :=
  u2Bytes isBigEndian info.accessFlags ++
    (u2Bytes isBigEndian info.thisClass ++ u2Bytes isBigEndian info.superClass)

def headerBytes (minorVersion majorVersion : UInt16) : Bytes :=
  u4Bytes isBigEndian 0xcafebabe ++
    (u2Bytes isBigEndian minorVersion ++ u2Bytes isBigEndian majorVersion)

def poolBytes (constants : List ConstantPoolRecord) : Bytes :=
  u2Bytes isBigEndian (UInt16.ofNat (poolSlots constants).length) ++
    constants.flatMap (recordBytes isBigEndian)

/-- Everything after the constant pool. -/
def ClassFileImage.sectionBytes (c : ClassFileImage) : Bytes :=
  mainClassInfoBytes isBigEndian c.mainClassInfo ++
    (counted isBigEndian (u2Bytes isBigEndian) c.interfaces ++
      (counted isBigEndian (MemberImage.encode isBigEndian) c.fields ++
        (counted isBigEndian (MemberImage.encode isBigEndian) c.methods ++
          counted isBigEndian (AttributeImage.encode isBigEndian) c.attributes)))

def ClassFileImage.encode (c : ClassFileImage) : Bytes :=
  headerBytes isBigEndian c.minorVersion c.majorVersion ++
    (poolBytes isBigEndian c.constants ++ c.sectionBytes isBigEndian)

end Encoding

end Tarracsh.ClassFileFormat
