import Tarracsh.ClassFileFormat
import Tarracsh.ReaderRefinement

/-!
# Parsing inverts encoding

Every read of the parser consumes exactly the encoding of the value it
returns. The lemmas follow the functions of the parser; a section of counted
elements is one application of the rule for counting loops.
-/
namespace Tarracsh.ParserRoundTrip
open ByteStrings QueryTrees StreamReads PoolStructures ParsedClass ClassFileReader ClassFileParser
open ClassFileFormat ReaderRefinement

section
variable (isBigEndian : Bool)

theorem consumes_readU1 (v : UInt8) : Consumes Request.count readU1 [v] v := fun _ => rfl

theorem consumes_readU2 (v : UInt16) :
    Consumes Request.count (readU2 isBigEndian) (u2Bytes isBigEndian v) v := by
  have h : Consumes Request.count (readU2 isBigEndian) (u2Bytes isBigEndian v) _ :=
    Consumes.answer (wordBytes_length _ _ _) (toU2 isBigEndian)
  rwa [u2Bytes, toU2_wordBytes] at h

theorem consumes_read2 (v : UInt16) :
    Consumes Request.count (read2 isBigEndian) (u2Bytes isBigEndian v) v := by
  have h : Consumes Request.count (read2 isBigEndian) (u2Bytes isBigEndian v) _ :=
    Consumes.answer (wordBytes_length _ _ _) (toU2 isBigEndian)
  rwa [u2Bytes, toU2_wordBytes] at h

theorem consumes_readU4 (v : UInt32) :
    Consumes Request.count (readU4 isBigEndian) (u4Bytes isBigEndian v) v := by
  have h : Consumes Request.count (readU4 isBigEndian) (u4Bytes isBigEndian v) _ :=
    Consumes.answer (wordBytes_length _ _ _) (toU4 isBigEndian)
  rwa [u4Bytes, toU4_wordBytes] at h

theorem consumes_read4 (v : UInt32) :
    Consumes Request.count (read4 isBigEndian) (u4Bytes isBigEndian v) v := by
  have h : Consumes Request.count (read4 isBigEndian) (u4Bytes isBigEndian v) _ :=
    Consumes.answer (wordBytes_length _ _ _) (toU4 isBigEndian)
  rwa [u4Bytes, toU4_wordBytes] at h

theorem consumes_readString {bytes : Bytes} (h : bytes.length < 2 ^ 16) :
    Consumes Request.count (readString (UInt16.ofNat bytes.length)) bytes bytes := by
  apply Consumes.answer
  rw [UInt16.toNat_ofNat', Nat.mod_eq_of_lt h]

/-- A Long or Double is pushed with its second slot. -/
theorem addEmptyIndex_addRecord (pool : ConstantPool) {record : ConstantPoolRecord}
    (h : isWide record = true) :
    addEmptyIndex (addRecord pool record) = ⟨pool.constantPoolIndex ++ slotsOf record⟩ := by
  simp [addEmptyIndex, addRecord, slotsOf, h]

/-- One entry advances the index and the vector by the slots of its record. -/
theorem consumes_readConstPoolEntry (index : ℕ) (pool : ConstantPool)
    {record : ConstantPoolRecord} (h : Sized record) :
    Consumes Request.count (readConstPoolEntry isBigEndian index pool)
      (recordBytes isBigEndian record)
      (index + ((slotsOf record).length - 1), ⟨pool.constantPoolIndex ++ slotsOf record⟩) := by
  refine (consumes_readU1 _).bind ?_
  rw [ConstantPoolTag.ofByte_toByte]
  cases record with
  | utf8Info bytes =>
      exact (consumes_readU2 isBigEndian _).bind ((consumes_readString h).map _)
  | integerInfo value => exact (consumes_readU4 isBigEndian value).map _
  | floatInfo u4Value => exact (consumes_readU4 isBigEndian u4Value).map _
  | longInfo highBytes lowBytes =>
      have hslots := addEmptyIndex_addRecord pool
        (rfl : isWide (.longInfo highBytes lowBytes) = true)
      rw [← hslots]
      exact (consumes_readU4 isBigEndian highBytes).bind
        ((consumes_readU4 isBigEndian lowBytes).map _)
  | doubleInfo highBytes lowBytes =>
      have hslots := addEmptyIndex_addRecord pool
        (rfl : isWide (.doubleInfo highBytes lowBytes) = true)
      rw [← hslots]
      exact (consumes_readU4 isBigEndian highBytes).bind
        ((consumes_readU4 isBigEndian lowBytes).map _)
  | classInfo nameIndex => exact (consumes_readU2 isBigEndian nameIndex).map _
  | stringInfo stringIndex => exact (consumes_readU2 isBigEndian stringIndex).map _
  | fieldrefInfo classIndex nameAndTypeIndex =>
      exact (consumes_readU2 isBigEndian classIndex).bind
        ((consumes_readU2 isBigEndian nameAndTypeIndex).map _)
  | methodrefInfo classIndex nameAndTypeIndex =>
      exact (consumes_readU2 isBigEndian classIndex).bind
        ((consumes_readU2 isBigEndian nameAndTypeIndex).map _)
  | interfaceMethodrefInfo classIndex nameAndTypeIndex =>
      exact (consumes_readU2 isBigEndian classIndex).bind
        ((consumes_readU2 isBigEndian nameAndTypeIndex).map _)
  | nameAndTypeInfo nameIndex descriptorIndex =>
      exact (consumes_readU2 isBigEndian nameIndex).bind
        ((consumes_readU2 isBigEndian descriptorIndex).map _)
  | methodHandleInfo referenceKind referenceIndex =>
      exact (consumes_readU1 referenceKind).bind
        ((consumes_readU2 isBigEndian referenceIndex).map _)
  | methodTypeInfo descriptorIndex => exact (consumes_readU2 isBigEndian descriptorIndex).map _
  | dynamicInfo bootstrapMethodAttrIndex nameAndTypeIndex =>
      exact (consumes_readU2 isBigEndian bootstrapMethodAttrIndex).bind
        ((consumes_readU2 isBigEndian nameAndTypeIndex).map _)
  | invokeDynamicInfo bootstrapMethodAttrIndex nameAndTypeIndex =>
      exact (consumes_readU2 isBigEndian bootstrapMethodAttrIndex).bind
        ((consumes_readU2 isBigEndian nameAndTypeIndex).map _)
  | moduleInfo nameIndex => exact (consumes_readU2 isBigEndian nameIndex).map _
  | packageInfo nameIndex => exact (consumes_readU2 isBigEndian nameIndex).map _

theorem slotsOf_length_pos (record : ConstantPoolRecord) : 0 < (slotsOf record).length := by
  unfold slotsOf
  split <;> simp

theorem readEntries_done {count index : ℕ} (h : count ≤ index) (fuel : ℕ) (pool : ConstantPool) :
    readEntries isBigEndian count fuel index pool = pure pool := by
  cases fuel with
  | zero => rfl
  | succ fuel => rw [readEntries, if_neg (Nat.not_lt.mpr h)]

/-- The constants below the declared count are read one by one before the rest. -/
theorem consumes_readEntries_append {count : ℕ} {constants : List ConstantPoolRecord}
    (hsized : ∀ record ∈ constants, Sized record) {fuel index : ℕ} (pool : ConstantPool)
    (hcount : index + (constants.flatMap slotsOf).length ≤ count) (hfuel : count ≤ index + fuel)
    {more : Bytes} {result : ConstantPool}
    (hmore : ∀ fuel, count ≤ index + (constants.flatMap slotsOf).length + fuel →
      Consumes Request.count (readEntries isBigEndian count fuel
        (index + (constants.flatMap slotsOf).length)
        ⟨pool.constantPoolIndex ++ constants.flatMap slotsOf⟩) more result) :
    Consumes Request.count (readEntries isBigEndian count fuel index pool)
      (constants.flatMap (recordBytes isBigEndian) ++ more) result := by
  induction constants generalizing fuel index pool with
  | nil => simpa using hmore fuel (by simpa using hfuel)
  | cons record constants ih =>
      have hpos := slotsOf_length_pos record
      simp only [List.flatMap_cons, List.length_append] at hcount hmore
      obtain ⟨fuel, rfl⟩ : ∃ n, fuel = n + 1 := ⟨fuel - 1, by omega⟩
      rw [readEntries, if_pos (by omega), List.flatMap_cons, List.append_assoc]
      refine (consumes_readConstPoolEntry isBigEndian index pool (hsized record (by simp))).bind ?_
      have hindex :
          index + ((slotsOf record).length - 1) + 1 = index + (slotsOf record).length := by
        omega
      refine ih (fun r hr => hsized r (by simp [hr])) _ (by omega) (by omega) fun fuel hfuel => ?_
      dsimp only at hfuel ⊢
      rw [hindex, Nat.add_assoc, List.append_assoc]
      exact hmore fuel (by omega)

/-- The loop runs once per constant and ends at the declared count. -/
theorem consumes_readEntries {count : ℕ} {constants : List ConstantPoolRecord}
    (hsized : ∀ record ∈ constants, Sized record) {fuel index : ℕ} (pool : ConstantPool)
    (hcount : index + (constants.flatMap slotsOf).length = count) (hfuel : count ≤ index + fuel) :
    Consumes Request.count (readEntries isBigEndian count fuel index pool)
      (constants.flatMap (recordBytes isBigEndian))
      ⟨pool.constantPoolIndex ++ constants.flatMap slotsOf⟩ := by
  have hall := consumes_readEntries_append isBigEndian hsized pool hcount.le hfuel
    fun fuel _ => by
      rw [readEntries_done isBigEndian hcount.ge]
      exact Consumes.pure _
  rwa [List.append_nil] at hall

theorem consumes_count {A E : Type} {t : Reads A} {code : E → Bytes} {value : E → A} {xs : List E}
    (hlt : xs.length < 2 ^ 16) (h : ∀ x ∈ xs, Consumes Request.count t (code x) (value x)) :
    Consumes Request.count (readU2 isBigEndian >>= fun count => repeated count.toNat t)
      (counted isBigEndian code xs) (xs.map value) := by
  refine (consumes_readU2 isBigEndian _).bind ?_
  rw [UInt16.toNat_ofNat', Nat.mod_eq_of_lt hlt]
  exact Consumes.repeated h

theorem consumes_readConstantsPool {constants : List ConstantPoolRecord}
    (hsized : ∀ record ∈ constants, Sized record) (hlt : (poolSlots constants).length < 2 ^ 16) :
    Consumes Request.count (readConstantsPool isBigEndian) (poolBytes isBigEndian constants)
      ⟨poolSlots constants⟩ := by
  refine (consumes_readU2 isBigEndian _).bind ?_
  rw [UInt16.toNat_ofNat', Nat.mod_eq_of_lt hlt]
  refine consumes_readEntries isBigEndian hsized emptyPool ?_ (Nat.le_add_left _ _)
  rw [poolSlots, List.length_cons, Nat.add_comm]

theorem consumes_readMainClassInfo (info : MainClassInfo) :
    Consumes Request.count (readMainClassInfo isBigEndian) (mainClassInfoBytes isBigEndian info)
      info :=
  (consumes_readU2 isBigEndian _).bind
    ((consumes_readU2 isBigEndian _).bind ((consumes_readU2 isBigEndian _).map _))

theorem consumes_readInfo {info : Bytes} (h : info.length < 2 ^ 32) :
    Consumes Request.count (readInfo (UInt32.ofNat info.length)) info info := by
  have hlength : (UInt32.ofNat info.length).toNat = info.length := by
    rw [UInt32.toNat_ofNat', Nat.mod_eq_of_lt h]
  unfold readInfo
  split
  · apply Consumes.answer
    exact hlength.symm
  · rename_i hzero
    have hnil : info = [] := by
      rw [UInt32.lt_iff_toNat_lt, hlength] at hzero
      exact List.length_eq_zero_iff.mp (Nat.eq_zero_of_not_pos hzero)
    rw [hnil]
    exact Consumes.pure []

theorem consumes_readAttribute (owner : AttributeOwner) (a : AttributeImage) :
    Consumes Request.count (readAttribute isBigEndian owner) (a.encode isBigEndian)
      (a.toAttributeInfo owner) :=
  (consumes_read2 isBigEndian _).bind
    ((consumes_read4 isBigEndian _).bind ((consumes_readInfo a.info_lt).map _))

theorem consumes_readAttributesSection (owner : AttributeOwner)
    {attributes : List AttributeImage} (h : attributes.length < 2 ^ 16) :
    Consumes Request.count
      (readAttributesSection isBigEndian (UInt16.ofNat attributes.length) owner)
      (attributes.flatMap (AttributeImage.encode isBigEndian))
      (attributes.map (·.toAttributeInfo owner)) := by
  rw [readAttributesSection, UInt16.toNat_ofNat', Nat.mod_eq_of_lt h]
  exact Consumes.repeated fun a _ => consumes_readAttribute isBigEndian owner a

theorem consumes_readField (m : MemberImage) :
    Consumes Request.count (readField isBigEndian) (m.encode isBigEndian)
      (m.toFieldInfo .field) :=
  (consumes_read2 isBigEndian _).bind ((consumes_read2 isBigEndian _).bind
    ((consumes_read2 isBigEndian _).bind ((consumes_readU2 isBigEndian _).bind
      ((consumes_readAttributesSection isBigEndian .field m.attributes_lt).map _))))

theorem consumes_readMethod (m : MemberImage) :
    Consumes Request.count (readMethod isBigEndian) (m.encode isBigEndian)
      (m.toFieldInfo .method) :=
  (consumes_readU2 isBigEndian _).bind ((consumes_readU2 isBigEndian _).bind
    ((consumes_readU2 isBigEndian _).bind ((consumes_readU2 isBigEndian _).bind
      ((consumes_readAttributesSection isBigEndian .method m.attributes_lt).map _))))

theorem consumes_readInterfaces {interfaces : List UInt16} (h : interfaces.length < 2 ^ 16) :
    Consumes Request.count (readInterfaces isBigEndian)
      (counted isBigEndian (u2Bytes isBigEndian) interfaces) interfaces := by
  have hall := consumes_count isBigEndian h fun i _ => consumes_read2 isBigEndian i
  rwa [List.map_id'] at hall

theorem consumes_readSections (pool : ConstantPool) (c : ClassFileImage) :
    Consumes Request.count (readSections isBigEndian pool) (c.sectionBytes isBigEndian)
      { c.classFile with constantPool := pool } := by
  refine (consumes_readMainClassInfo isBigEndian c.mainClassInfo).bind ?_
  refine (consumes_readInterfaces isBigEndian c.interfaces_lt).bind ?_
  refine (consumes_count isBigEndian c.fields_lt fun m _ =>
    consumes_readField isBigEndian m).bind ?_
  refine (consumes_count isBigEndian c.methods_lt fun m _ =>
    consumes_readMethod isBigEndian m).bind ?_
  exact (consumes_count isBigEndian c.attributes_lt fun a _ =>
    consumes_readAttribute isBigEndian .classFile a).map _

theorem consumes_processFile (c : ClassFileImage) :
    Consumes Request.count (processFile isBigEndian)
      (poolBytes isBigEndian c.constants ++ c.sectionBytes isBigEndian) c.classFile :=
  (consumes_readConstantsPool isBigEndian c.constants_sized c.slots_lt).bind
    (consumes_readSections isBigEndian _ c)

/-- The magic number tells the byte order it was written in. -/
theorem magic_order :
    (hostU4 (u4Bytes isBigEndian 0xcafebabe) == 0xcafebabe) = isBigEndian := by
  cases isBigEndian <;> decide

theorem magic_valid :
    (isBigEndian || hostU4 (u4Bytes isBigEndian 0xcafebabe) == swapLong 0xcafebabe) = true := by
  cases isBigEndian <;> decide

theorem consumes_readHeader (minorVersion majorVersion : UInt16) :
    Consumes Request.count readHeader (headerBytes isBigEndian minorVersion majorVersion)
      ⟨⟨hostU4 (u4Bytes isBigEndian 0xcafebabe), minorVersion, majorVersion⟩,
        isBigEndian, true⟩ := by
  refine Consumes.ask (wordBytes_length _ _ _) ?_
  change Consumes _ (if _ then _ else _) _ _
  rw [magic_order, magic_valid, if_pos rfl]
  exact (consumes_readU2 isBigEndian minorVersion).bind
    ((consumes_readU2 isBigEndian majorVersion).map _)

end

/-- Over the big-endian encoding of an image, the constructor does not throw
and `parse()` returns true with the structure of the image after the last
byte. -/
theorem parse_encode (image : ClassFileImage) (garbage : ℕ → UInt8) :
    ∃ reader stream, construct .memory (image.encode false) garbage = some reader ∧
      parse reader = some (image.classFile, stream) ∧
      stream.position = (image.encode false).length := by
  have hheader := consumes_readHeader false image.minorVersion image.majorVersion
  have hfile := consumes_processFile false image []
  rw [List.append_nil] at hfile
  obtain ⟨s₁, hrun₁, -, hcontent₁, hfollows₁⟩ :=
    run_of_dealing (follows_start .memory (image.encode false) garbage) (hheader _)
  obtain ⟨s₂, hrun₂, -, hcontent₂, hfollows₂⟩ := run_of_dealing hfollows₁ hfile
  have hconstruct := construct_eq .memory (image.encode false) garbage
  rw [hrun₁, Option.map_some] at hconstruct
  refine ⟨_, s₂, hconstruct, hrun₂, ?_⟩
  have hlength := hfollows₂.length
  rw [hcontent₂, hcontent₁] at hlength
  exact hlength.symm

end Tarracsh.ParserRoundTrip
