import Tarracsh.ParserRoundTrip

/-!
# Alignment of the constant pool

A pool is aligned with its file when its vector has the declared number of
slots and is the layout of constants whose encodings stand in the file. The
parser accepts files for which it is not: a tag without a constant advances
the index alone, and a Long or Double in the last slot adds one slot too many.
The tags alone, walked with the sizes of the format, tell whether one of the
two happens.
-/
namespace Tarracsh.PoolAlignment
open ByteStrings QueryTrees StreamReads PoolStructures ParsedClass ClassFileReader ClassFileParser
open ClassFileFormat ReaderRefinement ParserRoundTrip

/-- The byte order that the magic number announces to the reader. -/
def byteOrder (content : Bytes) : Bool := hostU4 (content.take 4) == 0xcafebabe

/-- `constant_pool_count`, after the eight bytes of the header. -/
def declaredCount (content : Bytes) : ℕ :=
  (toU2 (byteOrder content) ((content.drop 8).take 2)).toNat

/-- The slots are those the format assigns to the constants in the file. -/
structure Aligned (content : Bytes) (slots : List (Option ConstantPoolRecord)) : Prop where
  length : slots.length = max 1 (declaredCount content)
  assigned : ∃ constants : List ConstantPoolRecord, (∀ record ∈ constants, Sized record) ∧
    slots = poolSlots constants ∧
    constants.flatMap (recordBytes (byteOrder content)) <+: content.drop 10

section
variable (isBigEndian : Bool)

/-- The bytes after a tag, or nothing for a tag that has no constant. -/
def payloadSize : ConstantPoolTag → Bytes → Option ℕ
  | .empty, _ | .unicode, _ => none
  | .utf8, bytes => some (2 + (toU2 isBigEndian (bytes.take 2)).toNat)
  | .integer, _ | .float, _ => some 4
  | .long, _ | .double, _ => some 8
  | .class, _ | .string, _ | .methodType, _ | .module, _ | .package, _ => some 2
  | .fieldref, _ | .methodref, _ | .interfaceMethodref, _ | .nameAndType, _ | .dynamic, _
  | .invokeDynamic, _ => some 4
  | .methodHandle, _ => some 3

def isWideTag : ConstantPoolTag → Bool
  | .long | .double => true
  | _ => false

/-- The tag of a constant with its payload, all present at the head of the bytes. -/
def headEntry (bytes : Bytes) : Option (ConstantPoolTag × ℕ) :=
  match bytes with
  | [] => none
  | tag :: rest => do
      let t ← ConstantPoolTag.ofByte tag
      let size ← payloadSize isBigEndian t rest
      if size ≤ rest.length then some (t, size) else none

/-- Walks the tags of `slots` slots: each has a constant, and the second slot of
a Long or Double is still one of them. -/
def wellTagged : ℕ → Bytes → Bool
  | 0, _ => true
  | slots + 1, bytes =>
      match headEntry isBigEndian bytes with
      | none => false
      | some (t, size) =>
          if isWideTag t then
            match slots with
            | 0 => false
            | slots + 1 => wellTagged slots (bytes.drop (size + 1))
          else wellTagged slots (bytes.drop (size + 1))

theorem isWideTag_recordTag (record : ConstantPoolRecord) :
    isWideTag (recordTag record) = isWide record := by
  cases record <;> rfl

theorem payloadSize_payload {record : ConstantPoolRecord} (h : Sized record) (more : Bytes) :
    payloadSize isBigEndian (recordTag record) (payload isBigEndian record ++ more) =
      some (payload isBigEndian record).length := by
  cases record with
  | utf8Info bytes =>
      have htake : (payload isBigEndian (.utf8Info bytes) ++ more).take 2 =
          u2Bytes isBigEndian (UInt16.ofNat bytes.length) := by
        rw [payload, List.append_assoc]
        exact List.take_left' (wordBytes_length _ _ _)
      rw [recordTag, payloadSize, htake, u2Bytes, toU2_wordBytes, UInt16.toNat_ofNat',
        Nat.mod_eq_of_lt h, payload, List.length_append, u2Bytes, wordBytes_length]
  | _ => simp [recordTag, payloadSize, payload, u2Bytes, u4Bytes]

theorem headEntry_record {record : ConstantPoolRecord} (h : Sized record) (more : Bytes) :
    headEntry isBigEndian (recordBytes isBigEndian record ++ more) =
      some (recordTag record, (payload isBigEndian record).length) := by
  have hle : (payload isBigEndian record).length ≤ (payload isBigEndian record ++ more).length := by
    rw [List.length_append]
    omega
  simp only [headEntry, recordBytes, List.cons_append, List.nil_append,
    ConstantPoolTag.ofByte_toByte, Option.bind_eq_bind, Option.bind_some,
    payloadSize_payload isBigEndian h, if_pos hle]

theorem drop_recordBytes (record : ConstantPoolRecord) (more : Bytes) :
    (recordBytes isBigEndian record ++ more).drop ((payload isBigEndian record).length + 1) =
      more := by
  rw [recordBytes, List.append_assoc, List.singleton_append, List.drop_succ_cons]
  exact List.drop_left' rfl

/-- Constants that stand in the file pass the walk. -/
theorem wellTagged_of_constants {constants : List ConstantPoolRecord}
    (h : ∀ record ∈ constants, Sized record) (more : Bytes) :
    wellTagged isBigEndian (constants.flatMap slotsOf).length
      (constants.flatMap (recordBytes isBigEndian) ++ more) = true := by
  induction constants with
  | nil => rfl
  | cons record constants ih =>
      have htail := ih fun r hr => h r (by simp [hr])
      have hhead := headEntry_record isBigEndian (h record (by simp))
        (constants.flatMap (recordBytes isBigEndian) ++ more)
      have hdrop := drop_recordBytes isBigEndian record
        (constants.flatMap (recordBytes isBigEndian) ++ more)
      have htag := isWideTag_recordTag record
      rw [List.flatMap_cons, List.flatMap_cons, List.length_append, List.append_assoc]
      cases hwide : isWide record with
      | true =>
          have hslots : (slotsOf record).length + (constants.flatMap slotsOf).length =
              (constants.flatMap slotsOf).length + 1 + 1 := by
            simp [slotsOf, hwide]
            omega
          rw [hwide] at htag
          rw [hslots, wellTagged, hhead]
          simp only [htag, if_true, hdrop, htail]
      | false =>
          have hslots : (slotsOf record).length + (constants.flatMap slotsOf).length =
              (constants.flatMap slotsOf).length + 1 := by
            simp [slotsOf, hwide]
            omega
          rw [hwide] at htag
          rw [hslots, wellTagged, hhead]
          simp only [htag, Bool.false_eq_true, if_false, hdrop, htail]

theorem u2Bytes_toU2 {bytes : Bytes} (h : 2 ≤ bytes.length) :
    u2Bytes isBigEndian (toU2 isBigEndian (bytes.take 2)) = bytes.take 2 :=
  wordBytes_toU2 isBigEndian (by rw [List.length_take, Nat.min_eq_left h])

theorem u4Bytes_toU4 {bytes : Bytes} (h : 4 ≤ bytes.length) :
    u4Bytes isBigEndian (toU4 isBigEndian (bytes.take 4)) = bytes.take 4 :=
  wordBytes_toU4 isBigEndian (by rw [List.length_take, Nat.min_eq_left h])

theorem u2Bytes_pair {bytes : Bytes} (h : 4 ≤ bytes.length) :
    u2Bytes isBigEndian (toU2 isBigEndian (bytes.take 2)) ++
      u2Bytes isBigEndian (toU2 isBigEndian ((bytes.drop 2).take 2)) = bytes.take 4 := by
  have hrest : 2 ≤ (bytes.drop 2).length := by
    rw [List.length_drop]
    omega
  rw [u2Bytes_toU2 isBigEndian (by omega), u2Bytes_toU2 isBigEndian hrest]
  exact (List.take_add (i := 2) (j := 2)).symm

theorem u4Bytes_pair {bytes : Bytes} (h : 8 ≤ bytes.length) :
    u4Bytes isBigEndian (toU4 isBigEndian (bytes.take 4)) ++
      u4Bytes isBigEndian (toU4 isBigEndian ((bytes.drop 4).take 4)) = bytes.take 8 := by
  have hrest : 4 ≤ (bytes.drop 4).length := by
    rw [List.length_drop]
    omega
  rw [u4Bytes_toU4 isBigEndian (by omega), u4Bytes_toU4 isBigEndian hrest]
  exact (List.take_add (i := 4) (j := 4)).symm

/-- Every tag with a constant has one with the payload that is present. -/
theorem exists_payload {t : ConstantPoolTag} {rest : Bytes} {size : ℕ}
    (h : payloadSize isBigEndian t rest = some size) (hle : size ≤ rest.length) :
    ∃ record, Sized record ∧ recordTag record = t ∧
      payload isBigEndian record = rest.take size := by
  cases t with
  | empty => cases h
  | unicode => cases h
  | utf8 =>
      cases h
      have hlength : ((rest.drop 2).take (toU2 isBigEndian (rest.take 2)).toNat).length =
          (toU2 isBigEndian (rest.take 2)).toNat := by
        rw [List.length_take, List.length_drop]
        omega
      refine ⟨.utf8Info ((rest.drop 2).take (toU2 isBigEndian (rest.take 2)).toNat), ?_, rfl, ?_⟩
      · change List.length _ < 2 ^ 16
        rw [hlength]
        exact UInt16.toNat_lt _
      · rw [payload, hlength, UInt16.ofNat_toNat, u2Bytes_toU2 isBigEndian (by omega),
          List.take_add]
  | integer => cases h; exact ⟨.integerInfo _, trivial, rfl, u4Bytes_toU4 isBigEndian hle⟩
  | float => cases h; exact ⟨.floatInfo _, trivial, rfl, u4Bytes_toU4 isBigEndian hle⟩
  | long => cases h; exact ⟨.longInfo _ _, trivial, rfl, u4Bytes_pair isBigEndian hle⟩
  | double => cases h; exact ⟨.doubleInfo _ _, trivial, rfl, u4Bytes_pair isBigEndian hle⟩
  | «class» => cases h; exact ⟨.classInfo _, trivial, rfl, u2Bytes_toU2 isBigEndian hle⟩
  | string => cases h; exact ⟨.stringInfo _, trivial, rfl, u2Bytes_toU2 isBigEndian hle⟩
  | fieldref => cases h; exact ⟨.fieldrefInfo _ _, trivial, rfl, u2Bytes_pair isBigEndian hle⟩
  | methodref => cases h; exact ⟨.methodrefInfo _ _, trivial, rfl, u2Bytes_pair isBigEndian hle⟩
  | interfaceMethodref =>
      cases h
      exact ⟨.interfaceMethodrefInfo _ _, trivial, rfl, u2Bytes_pair isBigEndian hle⟩
  | nameAndType => cases h; exact ⟨.nameAndTypeInfo _ _, trivial, rfl, u2Bytes_pair isBigEndian hle⟩
  | methodHandle =>
      cases h
      obtain ⟨kind, more, rfl⟩ := List.exists_cons_of_length_pos (by omega : 0 < rest.length)
      have hmore : 2 ≤ more.length := by
        rw [List.length_cons] at hle
        omega
      refine ⟨.methodHandleInfo kind (toU2 isBigEndian (more.take 2)), trivial, rfl, ?_⟩
      rw [payload, u2Bytes_toU2 isBigEndian hmore, List.singleton_append, List.take_succ_cons]
  | methodType => cases h; exact ⟨.methodTypeInfo _, trivial, rfl, u2Bytes_toU2 isBigEndian hle⟩
  | dynamic => cases h; exact ⟨.dynamicInfo _ _, trivial, rfl, u2Bytes_pair isBigEndian hle⟩
  | invokeDynamic =>
      cases h
      exact ⟨.invokeDynamicInfo _ _, trivial, rfl, u2Bytes_pair isBigEndian hle⟩
  | «module» => cases h; exact ⟨.moduleInfo _, trivial, rfl, u2Bytes_toU2 isBigEndian hle⟩
  | package => cases h; exact ⟨.packageInfo _, trivial, rfl, u2Bytes_toU2 isBigEndian hle⟩

theorem exists_record {bytes : Bytes} {t : ConstantPoolTag} {size : ℕ}
    (h : headEntry isBigEndian bytes = some (t, size)) :
    ∃ record, Sized record ∧ recordTag record = t ∧
      bytes = recordBytes isBigEndian record ++ bytes.drop (size + 1) := by
  cases bytes with
  | nil => cases h
  | cons tag rest =>
      simp only [headEntry, Option.bind_eq_bind] at h
      obtain ⟨t', ht, h⟩ := Option.bind_eq_some_iff.mp h
      obtain ⟨size', hsize, h⟩ := Option.bind_eq_some_iff.mp h
      split at h
      · rename_i hle
        cases h
        obtain ⟨record, hsized, htag, hpayload⟩ := exists_payload isBigEndian hsize hle
        refine ⟨record, hsized, htag, ?_⟩
        rw [recordBytes, htag, ConstantPoolTag.toByte_of_ofByte ht, hpayload, List.drop_succ_cons,
          List.append_assoc, List.take_append_drop, List.singleton_append]
      · cases h

/-- One step of the walk passes a constant and its slots. -/
theorem wellTagged_succ {slots : ℕ} {bytes : Bytes}
    (h : wellTagged isBigEndian (slots + 1) bytes = true) :
    ∃ record more left, Sized record ∧ bytes = recordBytes isBigEndian record ++ more ∧
      (slotsOf record).length + left = slots + 1 ∧ wellTagged isBigEndian left more = true := by
  rw [wellTagged] at h
  cases hhead : headEntry isBigEndian bytes with
  | none => simp [hhead] at h
  | some entry =>
      obtain ⟨t, size⟩ := entry
      obtain ⟨record, hsized, htag, hbytes⟩ := exists_record isBigEndian hhead
      have hwide := isWideTag_recordTag record
      rw [htag] at hwide
      simp only [hhead, hwide] at h
      cases hrecord : isWide record with
      | true =>
          cases slots with
          | zero => simp [hrecord] at h
          | succ slots =>
              refine ⟨record, bytes.drop (size + 1), slots, hsized, hbytes, ?_, ?_⟩
              · simp [slotsOf, hrecord]
                omega
              · simpa [hrecord] using h
      | false =>
          refine ⟨record, bytes.drop (size + 1), slots, hsized, hbytes, ?_, ?_⟩
          · simp [slotsOf, hrecord]
            omega
          · simpa [hrecord] using h

/-- What passes the walk is the encoding of constants with that many slots. -/
theorem constants_of_wellTagged {slots : ℕ} {bytes : Bytes}
    (h : wellTagged isBigEndian slots bytes = true) :
    ∃ constants : List ConstantPoolRecord, (∀ record ∈ constants, Sized record) ∧
      (constants.flatMap slotsOf).length = slots ∧
      constants.flatMap (recordBytes isBigEndian) <+: bytes := by
  induction slots using Nat.strong_induction_on generalizing bytes with
  | _ slots ih =>
      cases slots with
      | zero => exact ⟨[], by simp, rfl, List.nil_prefix⟩
      | succ slots =>
          obtain ⟨record, more, left, hsized, rfl, hslots, hmore⟩ := wellTagged_succ isBigEndian h
          have hpos := slotsOf_length_pos record
          obtain ⟨constants, hall, hlength, hbytes⟩ := ih left (by omega) hmore
          refine ⟨record :: constants, ?_, ?_, ?_⟩
          · intro r hr
            rcases List.mem_cons.mp hr with rfl | hr
            · exact hsized
            · exact hall r hr
          · rw [List.flatMap_cons, List.length_append, hlength, hslots]
          · rw [List.flatMap_cons]
            exact (List.prefix_append_right_inj _).mpr hbytes

/-- The loop on a pool that passes the walk. -/
theorem readEntries_of_wellTagged {count : ℕ} {bytes : Bytes}
    (h : wellTagged isBigEndian (count - 1) bytes = true) :
    ∃ constants : List ConstantPoolRecord, (∀ record ∈ constants, Sized record) ∧
      (poolSlots constants).length = max 1 count ∧
      constants.flatMap (recordBytes isBigEndian) <+: bytes ∧
      ∃ rest, run dealing (readEntries isBigEndian count count 1 emptyPool) bytes =
        some (⟨poolSlots constants⟩, rest) := by
  obtain ⟨constants, hsized, hlength, more, rfl⟩ := constants_of_wellTagged isBigEndian h
  have hslots : (poolSlots constants).length = max 1 count := by
    rw [poolSlots, List.length_cons, hlength]
    omega
  refine ⟨constants, hsized, hslots, List.prefix_append _ _, more, ?_⟩
  by_cases hcount : count = 0
  · have hnil : constants = [] := by
      cases constants with
      | nil => rfl
      | cons record constants =>
          have := slotsOf_length_pos record
          rw [List.flatMap_cons, List.length_append] at hlength
          omega
    rw [hnil, readEntries_done isBigEndian (by omega)]
    rfl
  · exact consumes_readEntries isBigEndian hsized emptyPool (by omega) (by omega) more

end

section Shape
variable (isBigEndian : Bool)

/-- One entry pushes the slots of one constant, or nothing for a tag without one. -/
theorem yields_readConstPoolEntry (index : ℕ) (pool : ConstantPool) :
    Yields (fun entry => entry = (index, pool) ∨ ∃ record, entry =
      (index + ((slotsOf record).length - 1), ⟨pool.constantPoolIndex ++ slotsOf record⟩))
      (readConstPoolEntry isBigEndian index pool) := by
  refine (Yields.trivial _).bind fun tag _ => ?_
  cases ConstantPoolTag.ofByte tag with
  | none => trivial
  | some t =>
      cases t with
      | empty => exact .inl rfl
      | unicode => exact .inl rfl
      | utf8 => exact fun _ _ => .inr ⟨.utf8Info _, rfl⟩
      | integer => exact fun _ => .inr ⟨.integerInfo _, rfl⟩
      | float => exact fun _ => .inr ⟨.floatInfo _, rfl⟩
      | long =>
          exact fun _ _ => .inr ⟨.longInfo _ _, by rw [addEmptyIndex_addRecord pool rfl]; rfl⟩
      | double =>
          exact fun _ _ => .inr ⟨.doubleInfo _ _, by rw [addEmptyIndex_addRecord pool rfl]; rfl⟩
      | «class» => exact fun _ => .inr ⟨.classInfo _, rfl⟩
      | string => exact fun _ => .inr ⟨.stringInfo _, rfl⟩
      | fieldref => exact fun _ _ => .inr ⟨.fieldrefInfo _ _, rfl⟩
      | methodref => exact fun _ _ => .inr ⟨.methodrefInfo _ _, rfl⟩
      | interfaceMethodref => exact fun _ _ => .inr ⟨.interfaceMethodrefInfo _ _, rfl⟩
      | nameAndType => exact fun _ _ => .inr ⟨.nameAndTypeInfo _ _, rfl⟩
      | methodHandle => exact fun _ _ => .inr ⟨.methodHandleInfo _ _, rfl⟩
      | methodType => exact fun _ => .inr ⟨.methodTypeInfo _, rfl⟩
      | dynamic => exact fun _ _ => .inr ⟨.dynamicInfo _ _, rfl⟩
      | invokeDynamic => exact fun _ _ => .inr ⟨.invokeDynamicInfo _ _, rfl⟩
      | «module» => exact fun _ => .inr ⟨.moduleInfo _, rfl⟩
      | package => exact fun _ => .inr ⟨.packageInfo _, rfl⟩

/-- The vector is a layout of constants, of at most one slot more than the index. -/
def LaidOut (bound : ℕ) (pool : ConstantPool) : Prop :=
  ∃ constants, pool = ⟨poolSlots constants⟩ ∧ (poolSlots constants).length ≤ bound

theorem yields_readEntries {count fuel index : ℕ} {pool : ConstantPool} (h : LaidOut index pool)
    (hindex : index ≤ count + 1) :
    Yields (LaidOut (count + 1)) (readEntries isBigEndian count fuel index pool) := by
  induction fuel generalizing index pool with
  | zero =>
      obtain ⟨constants, hpool, hlength⟩ := h
      exact ⟨constants, hpool, by omega⟩
  | succ fuel ih =>
      rw [readEntries]
      split
      · rename_i hlt
        refine (yields_readConstPoolEntry isBigEndian index pool).bind ?_
        obtain ⟨constants, rfl, hlength⟩ := h
        rintro entry (rfl | ⟨record, rfl⟩)
        · exact ih ⟨constants, rfl, by omega⟩ (by omega)
        · have hslots : (slotsOf record).length ≤ 2 := by
            unfold slotsOf
            split <;> simp
          have hpos := slotsOf_length_pos record
          have happend : poolSlots (constants ++ [record]) =
              poolSlots constants ++ slotsOf record := by
            simp [poolSlots]
          refine ih ⟨constants ++ [record], by rw [happend], ?_⟩ (by dsimp only; omega)
          rw [happend, List.length_append]
          dsimp only
          omega
      · obtain ⟨constants, hpool, hlength⟩ := h
        exact ⟨constants, hpool, by omega⟩

theorem yields_readConstantsPool : Yields (LaidOut (2 ^ 16)) (readConstantsPool isBigEndian) := by
  refine (Yields.trivial _).bind fun count _ => ?_
  have hcount := count.toNat_lt
  have hempty : LaidOut 1 emptyPool := ⟨[], rfl, le_rfl⟩
  refine (yields_readEntries isBigEndian hempty (by omega)).mono ?_
  rintro pool ⟨constants, hpool, hlength⟩
  exact ⟨constants, hpool, by omega⟩

theorem yields_readSections (pool : ConstantPool) :
    Yields (fun c => c.constantPool = pool) (readSections isBigEndian pool) :=
  (Yields.trivial _).bind fun _ _ => (Yields.trivial _).bind fun _ _ =>
    (Yields.trivial _).bind fun _ _ => (Yields.trivial _).bind fun _ _ =>
      (Yields.trivial _).bind fun _ _ => rfl

end Shape

theorem header_shape {content : Bytes} {header : Header} {rest : Bytes}
    (h : run dealing readHeader content = some (header, rest))
    (hvalid : header.isValidHeader = true) :
    header.isBigEndian = byteOrder content ∧ rest = content.drop 8 := by
  obtain ⟨⟨magic, rest₁⟩, hmagic, hnext⟩ := Option.bind_eq_some_iff.mp h
  obtain ⟨-, rfl, rfl⟩ := fromList_eq_some.mp hmagic
  dsimp only at hnext
  split at hnext
  · obtain ⟨⟨minor, rest₂⟩, hminor, hnext⟩ := Option.bind_eq_some_iff.mp hnext
    obtain ⟨-, rfl, rfl⟩ := fromList_eq_some.mp hminor
    obtain ⟨⟨major, rest₃⟩, hmajor, hnext⟩ := Option.bind_eq_some_iff.mp hnext
    obtain ⟨-, rfl, rfl⟩ := fromList_eq_some.mp hmajor
    cases hnext
    exact ⟨rfl, by simp [List.drop_drop]⟩
  · rename_i hinvalid
    cases hnext
    exact absurd hvalid hinvalid

/-- The pool of an accepted file is what the loop makes of the bytes after the
declared count. -/
theorem pool_of_parsed {kind : Kind} {content : Bytes} {garbage : ℕ → UInt8} {c : ClassFile}
    {s : Stream} (h : parsed kind content garbage = some (c, s)) {pool : ConstantPool}
    {rest : Bytes}
    (hloop : run dealing (readEntries (byteOrder content) (declaredCount content)
      (declaredCount content) 1 emptyPool) (content.drop 10) = some (pool, rest)) :
    c.constantPool = pool := by
  rw [parsed_eq, readClassFile, run_bind] at h
  obtain ⟨⟨header, s₁⟩, hheader, h⟩ := Option.bind_eq_some_iff.mp h
  obtain ⟨rest₁, hdeal₁, hcontent₁, hfollows₁, hexact₁, hposition₁⟩ := dealing_readHeader hheader
  dsimp only at h
  split at h
  · rename_i hvalid
    obtain ⟨horder, rfl⟩ := header_shape hdeal₁ hvalid
    rw [horder, processFile, run_bind] at h
    obtain ⟨⟨pool₁, s₂⟩, hpool, hsections⟩ := Option.bind_eq_some_iff.mp h
    rw [(yields_readSections _ _).of_run hsections]
    rw [readConstantsPool, run_bind] at hpool
    obtain ⟨⟨count, s₃⟩, hcount, hentries⟩ := Option.bind_eq_some_iff.mp hpool
    have hcounted : Counted 2 (readU2 (byteOrder content)) := ⟨rfl, le_rfl, fun _ => trivial⟩
    obtain ⟨rest₃, hdeal₃, -, hfollows₃, -, -⟩ :=
      dealing_of_counted hcounted hfollows₁ hexact₁ (by omega) hcount
    obtain ⟨⟨bytes, rest₄⟩, hbytes, hdeal₃⟩ := Option.bind_eq_some_iff.mp hdeal₃
    obtain ⟨-, rfl, rfl⟩ := fromList_eq_some.mp hbytes
    cases hdeal₃
    have hdrop : (content.drop 8).drop 2 = content.drop 10 := List.drop_drop
    rw [← hdrop] at hloop
    obtain ⟨s₄, hrun, -⟩ := run_of_dealing hfollows₃ hloop
    have hsame : some (pool, s₄) = some (pool₁, s₂) := hrun.symm.trans hentries
    cases hsame
    rfl
  · cases h

/-- On every accepted file the pool is aligned exactly when the walk over the
tags finds a constant at each index and no Long or Double in the last slot. -/
theorem aligned_iff_wellTagged {kind : Kind} {content : Bytes} {garbage : ℕ → UInt8}
    {c : ClassFile} {s : Stream} (h : parsed kind content garbage = some (c, s)) :
    Aligned content c.constantPool.constantPoolIndex ↔
      wellTagged (byteOrder content) (declaredCount content - 1) (content.drop 10) = true := by
  constructor
  · rintro ⟨hlength, constants, hsized, hslots, more, hbytes⟩
    have hwidth : declaredCount content - 1 = (constants.flatMap slotsOf).length := by
      rw [hslots, poolSlots, List.length_cons] at hlength
      omega
    rw [hwidth, ← hbytes]
    exact wellTagged_of_constants _ hsized more
  · intro hwalk
    obtain ⟨constants, hsized, hlength, hbytes, rest, hloop⟩ :=
      readEntries_of_wellTagged (byteOrder content) hwalk
    have hpool : c.constantPool = ⟨poolSlots constants⟩ := pool_of_parsed h hloop
    rw [hpool]
    exact ⟨hlength, constants, hsized, rfl, hbytes⟩

/-- The pool of an accepted file is a layout of constants, whatever its tags. -/
theorem laidOut_of_parsed {kind : Kind} {content : Bytes} {garbage : ℕ → UInt8} {c : ClassFile}
    {s : Stream} (h : parsed kind content garbage = some (c, s)) :
    LaidOut (2 ^ 16) c.constantPool := by
  have hyields : Yields (fun c => LaidOut (2 ^ 16) c.constantPool) readClassFile := by
    refine (Yields.trivial _).bind fun header _ => ?_
    split
    · refine (yields_readConstantsPool header.isBigEndian).bind fun pool hpool => ?_
      refine (yields_readSections header.isBigEndian pool).mono fun c hc => ?_
      rw [hc]
      exact hpool
    · trivial
  rw [parsed_eq] at h
  exact hyields.of_run h

/-- A header, the declared count and the entries, then five empty sections. -/
def fileWithPool (count : UInt16) (entries : Bytes) : Bytes :=
  headerBytes false 0 52 ++ (u2Bytes false count ++ (entries ++ List.replicate 14 0))

/-- A file whose pool is the string "A", a Long, and the class of that name. -/
def alignedFile : Bytes :=
  fileWithPool 5 [1, 0, 1, 65, 5, 0, 0, 0, 0, 0, 0, 0, 7, 7, 0, 1]

def alignedClass : ClassFile :=
  { constantPool := ⟨[none, some (.utf8Info [65]), some (.longInfo 0 7), none,
      some (.classInfo 1)]⟩
    mainClassInfo := ⟨0, 0, 0⟩
    interfaces := []
    fields := []
    methods := []
    attributes := [] }

theorem parsed_alignedFile :
    ∃ s, parsed .memory alignedFile (fun _ => 0) = some (alignedClass, s) := by
  have hclass : (parsed .memory alignedFile fun _ => 0).map Prod.fst = some alignedClass := by
    decide
  obtain ⟨⟨c, s⟩, hparsed, rfl⟩ := Option.map_eq_some_iff.mp hclass
  exact ⟨s, hparsed⟩

theorem aligned_alignedFile :
    (∃ s, parsed .memory alignedFile (fun _ => 0) = some (alignedClass, s)) ∧
      Aligned alignedFile alignedClass.constantPool.constantPoolIndex := by
  obtain ⟨s, hparsed⟩ := parsed_alignedFile
  exact ⟨⟨s, hparsed⟩, (aligned_iff_wellTagged hparsed).mpr (by decide)⟩

/-- Index 1 is tagged `JVM_CONSTANT_Empty`, so the class that belongs to index 2
ends up in slot 1. -/
def shiftedFile : Bytes := fileWithPool 3 [0, 7, 0, 1]

theorem shiftedFile_not_aligned :
    ¬∀ (kind : Kind) (content : Bytes) (garbage : ℕ → UInt8) (c : ClassFile) (s : Stream),
      parsed kind content garbage = some (c, s) →
        Aligned content c.constantPool.constantPoolIndex := by
  intro h
  have hlength := (h .memory shiftedFile (fun _ => 0) _ _ rfl).length
  revert hlength
  decide

end Tarracsh.PoolAlignment
