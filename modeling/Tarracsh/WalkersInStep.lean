import Tarracsh.AttributeWalkers
import Tarracsh.ConstantRendering

/-!
# The attribute walkers in step with the format

A walk that is described by the bytes it goes over composes: the reader stands in
front of them, and afterwards behind them. The bodies of three attributes are given as
the format has them, with their bytes, and each walker goes over the bytes of one
element after the other.
-/
namespace Tarracsh.WalkersInStep
open ByteStrings QueryTrees StreamReads ClassFileReader ClassFileFormat PoolStructures
  ConstantTexts DescriptorRoundTrip ConstantRendering AttributeWalkers
  MachineIntegers

section Walks
variable {R S : Type} {bytes more : Bytes} {r : R} {s : S}

/-- The walk goes over `bytes` and returns `r`, wherever they stand. -/
def Walks (t : Walk R) (bytes : Bytes) (r : R) : Prop :=
  ∀ before rest : Bytes, (before ++ bytes ++ rest).length < 2 ^ 31 →
    run serve t ⟨before ++ bytes ++ rest, before.length⟩ =
      some (r, ⟨before ++ bytes ++ rest, before.length + bytes.length⟩)

theorem Walks.pure (r : R) : Walks (Pure.pure r) [] r := by
  intro before rest hlength
  simp

theorem Walks.bind {t : Walk R} {f : R → Walk S} (ht : Walks t bytes r) (hf : Walks (f r) more s) :
    Walks (t >>= f) (bytes ++ more) s := by
  intro before rest hlength
  have hfirst := ht before (more ++ rest) (by simpa using hlength)
  have hsecond := hf (before ++ bytes) rest (by simpa using hlength)
  simp only [List.append_assoc] at hfirst hsecond ⊢
  rw [run_bind, hfirst, Option.bind_some]
  simp only [List.length_append, Nat.cast_add] at hsecond ⊢
  rw [hsecond]
  simp [add_assoc]

theorem Walks.map {t : Walk R} (ht : Walks t bytes r) (f : R → S) :
    Walks (t >>= fun x => Pure.pure (f x)) bytes (f r) := by
  have h := ht.bind (f := fun x => Pure.pure (f x)) (Walks.pure (f r))
  rwa [List.append_nil] at h

theorem Walks.repeated {t : Walk R} {E : Type} {code : E → Bytes} {value : E → R} {xs : List E}
    (h : ∀ x ∈ xs, Walks t (code x) (value x)) :
    Walks (StreamReads.repeated xs.length t) (xs.flatMap code) (xs.map value) := by
  induction xs with
  | nil => exact Walks.pure []
  | cons x xs ih =>
      have htail := ih fun y hy => h y (by simp [hy])
      exact (h x (by simp)).bind (htail.map _)

theorem Walks.read {n : ℕ} (hn : bytes.length = n) (f : Bytes → R) :
    Walks (.ask (.read n) fun cells => Pure.pure (f cells)) bytes (f bytes) := by
  intro before rest hlength
  have hfits : 0 ≤ (before.length : ℤ) ∧
      (before.length : ℤ) + n ≤ (before ++ bytes ++ rest).length ∧
      (before.length : ℤ) + n < 2 ^ 31 := by
    simp only [List.length_append] at hlength ⊢
    omega
  have hread : VectorReader.readRaw n ⟨before ++ bytes ++ rest, before.length⟩ =
      some (bytes, ⟨before ++ bytes ++ rest, before.length + bytes.length⟩) := by
    unfold VectorReader.readRaw
    rw [if_pos hfits]
    simp [← hn]
  change (VectorReader.readRaw n _).bind _ = _
  rw [hread]
  rfl

theorem Walks.jump {steps : UInt32} (hsteps : bytes.length = steps.toNat) :
    Walks (jumpOver steps) bytes () := by
  intro before rest hlength
  simp only [List.length_append] at hlength
  have hint : steps.toBitVec.toInt = steps.toNat := by
    rw [BitVec.toInt_eq_toNat_of_lt (by simp; omega)]
    simp
  have hwrap : wrap ((before.length : ℤ) + steps.toNat) = before.length + bytes.length := by
    rw [← Nat.cast_add, wrap_of_lt (by omega), hsteps, Nat.cast_add]
  change some ((), AttributeWalkers.jump steps _) = _
  simp [AttributeWalkers.jump, hint, hwrap]

variable (isBigEndian : Bool)

theorem walks_readU1 (v : UInt8) : Walks readU1 [v] v := Walks.read rfl fun bytes => bytes.headD 0

theorem walks_readU2 (v : UInt16) : Walks (readU2 isBigEndian) (u2Bytes isBigEndian v) v := by
  have h := Walks.read (wordBytes_length isBigEndian 2 v.toNat) (toU2 isBigEndian)
  rwa [toU2_wordBytes] at h

theorem walks_readU4 (v : UInt32) : Walks (readU4 isBigEndian) (u4Bytes isBigEndian v) v := by
  have h := Walks.read (wordBytes_length isBigEndian 4 v.toNat) (toU4 isBigEndian)
  rwa [toU4_wordBytes] at h

theorem toNat_count {n : ℕ} (h : n < 2 ^ 16) : (UInt16.ofNat n).toNat = n := by
  rw [UInt16.toNat_ofNat']
  exact Nat.mod_eq_of_lt h

end Walks

section Bodies

/-- A table whose length is a `u2`. -/
abbrev Table (E : Type) := { xs : List E // xs.length < 2 ^ 16 }

inductive VerificationType where
  | top | integer | float | double | long | null | uninitializedThis
  | object (cpoolIndex : UInt16)
  | uninitialized (offset : UInt16)
  deriving DecidableEq, Repr

/-- The seven kinds of frames. -/
inductive Frame where
  | same (offsetDelta : Fin 64)
  | sameLocals (offsetDelta : Fin 64) (stack : VerificationType)
  | sameLocalsExtended (offsetDelta : UInt16) (stack : VerificationType)
  | chop (absent : Fin 3) (offsetDelta : UInt16)
  | sameExtended (offsetDelta : UInt16)
  | append (offsetDelta : UInt16) (first : VerificationType)
      (others : { xs : List VerificationType // xs.length < 3 })
  | full (offsetDelta : UInt16) (locals stack : Table VerificationType)

structure NestedAttribute where
  nameIndex : UInt16
  info : { bytes : Bytes // bytes.length < 2 ^ 32 }

structure CodeBody where
  maxStack : UInt16
  maxLocals : UInt16
  code : { bytes : Bytes // bytes.length < 2 ^ 16 }
  exceptionTable : Table ExceptionTable
  attributes : Table NestedAttribute

structure Component where
  nameIndex : UInt16
  descriptorIndex : UInt16
  attributes : Table NestedAttribute

variable (isBigEndian : Bool)

def VerificationType.encode : VerificationType → Bytes
  | .top => [0]
  | .integer => [1]
  | .float => [2]
  | .double => [3]
  | .long => [4]
  | .null => [5]
  | .uninitializedThis => [6]
  | .object cpoolIndex => 7 :: u2Bytes isBigEndian cpoolIndex
  | .uninitialized offset => 8 :: u2Bytes isBigEndian offset

def Frame.encode : Frame → Bytes
  | .same offsetDelta => [UInt8.ofNat offsetDelta]
  | .sameLocals offsetDelta stack => UInt8.ofNat (64 + offsetDelta) :: stack.encode isBigEndian
  | .sameLocalsExtended offsetDelta stack =>
      247 :: (u2Bytes isBigEndian offsetDelta ++ stack.encode isBigEndian)
  | .chop absent offsetDelta => UInt8.ofNat (248 + absent) :: u2Bytes isBigEndian offsetDelta
  | .sameExtended offsetDelta => 251 :: u2Bytes isBigEndian offsetDelta
  | .append offsetDelta first others =>
      UInt8.ofNat (252 + others.1.length) :: (u2Bytes isBigEndian offsetDelta ++
        (first :: others.1).flatMap (VerificationType.encode isBigEndian))
  | .full offsetDelta locals stack =>
      255 :: (u2Bytes isBigEndian offsetDelta ++
        (counted isBigEndian (VerificationType.encode isBigEndian) locals.1 ++
          counted isBigEndian (VerificationType.encode isBigEndian) stack.1))

def NestedAttribute.encode (a : NestedAttribute) : Bytes :=
  u2Bytes isBigEndian a.nameIndex ++
    (u4Bytes isBigEndian (UInt32.ofNat a.info.1.length) ++ a.info.1)

def exceptionBytes (e : ExceptionTable) : Bytes :=
  u2Bytes isBigEndian e.startPC ++ (u2Bytes isBigEndian e.endPC ++
    (u2Bytes isBigEndian e.handlerPC ++ u2Bytes isBigEndian e.catchType))

def stackMapTableBytes (table : Table Frame) : Bytes :=
  counted isBigEndian (Frame.encode isBigEndian) table.1

/-- What the walker goes over. -/
def CodeBody.walked (c : CodeBody) : Bytes :=
  u2Bytes isBigEndian c.maxStack ++ (u2Bytes isBigEndian c.maxLocals ++
    (u4Bytes isBigEndian (UInt32.ofNat c.code.1.length) ++ (c.code.1 ++
      counted isBigEndian (exceptionBytes isBigEndian) c.exceptionTable.1)))

def CodeBody.encode (c : CodeBody) : Bytes :=
  c.walked isBigEndian ++ counted isBigEndian (NestedAttribute.encode isBigEndian) c.attributes.1

def Component.encode (c : Component) : Bytes :=
  u2Bytes isBigEndian c.nameIndex ++ (u2Bytes isBigEndian c.descriptorIndex ++
    counted isBigEndian (NestedAttribute.encode isBigEndian) c.attributes.1)

def recordBytes (record : Table Component) : Bytes :=
  counted isBigEndian (Component.encode isBigEndian) record.1

/-- The frames of each kind. -/
def frameCounts (frames : List Frame) : StackMapCounters where
  same := frames.countP fun f => f matches .same _
  sameLocals := frames.countP fun f => f matches .sameLocals _ _
  sameLocalsExtended := frames.countP fun f => f matches .sameLocalsExtended _ _
  chop := frames.countP fun f => f matches .chop _ _
  sameExtended := frames.countP fun f => f matches .sameExtended _
  append := frames.countP fun f => f matches .append _ _ _
  full := frames.countP fun f => f matches .full _ _ _
  unknown := 0

end Bodies

section Frames
variable (isBigEndian : Bool)

theorem walks_skipVerificationType (v : VerificationType) :
    Walks (skipVerificationType isBigEndian) (v.encode isBigEndian) () := by
  cases v with
  | object cpoolIndex =>
      exact (walks_readU1 7).bind ((walks_readU2 isBigEndian cpoolIndex).map fun _ => ())
  | uninitialized offset =>
      exact (walks_readU1 8).bind ((walks_readU2 isBigEndian offset).map fun _ => ())
  | top => exact (walks_readU1 0).bind (Walks.pure ())
  | integer => exact (walks_readU1 1).bind (Walks.pure ())
  | float => exact (walks_readU1 2).bind (Walks.pure ())
  | double => exact (walks_readU1 3).bind (Walks.pure ())
  | long => exact (walks_readU1 4).bind (Walks.pure ())
  | null => exact (walks_readU1 5).bind (Walks.pure ())
  | uninitializedThis => exact (walks_readU1 6).bind (Walks.pure ())

theorem walks_skipVerificationTypes (vs : List VerificationType) :
    Walks (skipVerificationTypes isBigEndian vs.length)
      (vs.flatMap (VerificationType.encode isBigEndian)) () :=
  (Walks.repeated fun v _ => walks_skipVerificationType isBigEndian v).map fun _ => ()

/-- One more frame of its kind. -/
def Frame.count (c : StackMapCounters) : Frame → StackMapCounters
  | .same _ => { c with same := c.same + 1 }
  | .sameLocals _ _ => { c with sameLocals := c.sameLocals + 1 }
  | .sameLocalsExtended _ _ => { c with sameLocalsExtended := c.sameLocalsExtended + 1 }
  | .chop _ _ => { c with chop := c.chop + 1 }
  | .sameExtended _ => { c with sameExtended := c.sameExtended + 1 }
  | .append _ _ _ => { c with append := c.append + 1 }
  | .full _ _ _ => { c with full := c.full + 1 }

theorem same_le : ∀ k : Fin 64, UInt8.ofNat k ≤ 63 := by decide

theorem sameLocals_range : ∀ k : Fin 64,
    ¬ UInt8.ofNat (64 + k) ≤ 63 ∧ UInt8.ofNat (64 + k) ≤ 127 := by decide

theorem chop_range : ∀ k : Fin 3,
    ¬ UInt8.ofNat (248 + k) ≤ 63 ∧ ¬ UInt8.ofNat (248 + k) ≤ 127 ∧ UInt8.ofNat (248 + k) ≠ 247 ∧
      (UInt8.ofNat (248 + k) ≥ 248 ∧ UInt8.ofNat (248 + k) ≤ 250) := by decide

theorem append_range : ∀ k < 3,
    ¬ UInt8.ofNat (252 + k) ≤ 63 ∧ ¬ UInt8.ofNat (252 + k) ≤ 127 ∧ UInt8.ofNat (252 + k) ≠ 247 ∧
      ¬ (UInt8.ofNat (252 + k) ≥ 248 ∧ UInt8.ofNat (252 + k) ≤ 250) ∧
      UInt8.ofNat (252 + k) ≠ 251 ∧
      (UInt8.ofNat (252 + k) ≥ 252 ∧ UInt8.ofNat (252 + k) ≤ 254) ∧
      (UInt8.ofNat (252 + k)).toNat - 251 = k + 1 := by decide

theorem walks_frame (c : StackMapCounters) (f : Frame) :
    Walks (frame isBigEndian c) (f.encode isBigEndian) (f.count c) := by
  cases f with
  | same offsetDelta =>
      refine (walks_readU1 _).bind ?_
      rw [if_pos (same_le offsetDelta)]
      exact Walks.pure _
  | sameLocals offsetDelta stack =>
      obtain ⟨hsame, hrange⟩ := sameLocals_range offsetDelta
      refine (walks_readU1 _).bind ?_
      rw [if_neg hsame, if_pos hrange]
      exact (walks_skipVerificationType isBigEndian stack).map _
  | sameLocalsExtended offsetDelta stack =>
      refine (walks_readU1 247).bind ?_
      rw [if_neg (by decide), if_neg (by decide), if_pos rfl]
      exact (walks_readU2 isBigEndian offsetDelta).bind
        ((walks_skipVerificationType isBigEndian stack).map _)
  | chop absent offsetDelta =>
      obtain ⟨hsame, hlocals, hextended, hrange⟩ := chop_range absent
      refine (walks_readU1 _).bind ?_
      rw [if_neg hsame, if_neg hlocals, if_neg hextended, if_pos hrange]
      exact (walks_readU2 isBigEndian offsetDelta).map _
  | sameExtended offsetDelta =>
      refine (walks_readU1 251).bind ?_
      rw [if_neg (by decide), if_neg (by decide), if_neg (by decide), if_neg (by decide),
        if_pos rfl]
      exact (walks_readU2 isBigEndian offsetDelta).map _
  | append offsetDelta first others =>
      obtain ⟨hsame, hlocals, hextended, hchop, hsameExtended, hrange, hcount⟩ :=
        append_range others.1.length others.2
      refine (walks_readU1 _).bind ?_
      rw [if_neg hsame, if_neg hlocals, if_neg hextended, if_neg hchop, if_neg hsameExtended,
        if_pos hrange, hcount]
      exact (walks_readU2 isBigEndian offsetDelta).bind
        ((walks_skipVerificationTypes isBigEndian (first :: others.1)).map _)
  | full offsetDelta locals stack =>
      refine (walks_readU1 255).bind ?_
      rw [if_neg (by decide), if_neg (by decide), if_neg (by decide), if_neg (by decide),
        if_neg (by decide), if_neg (by decide), if_pos rfl]
      refine (walks_readU2 isBigEndian offsetDelta).bind ?_
      rw [counted, counted, List.append_assoc]
      refine (walks_readU2 isBigEndian _).bind ?_
      rw [toNat_count locals.2]
      refine (walks_skipVerificationTypes isBigEndian locals.1).bind ?_
      refine (walks_readU2 isBigEndian _).bind ?_
      rw [toNat_count stack.2]
      exact (walks_skipVerificationTypes isBigEndian stack.1).map _

theorem walks_frames (fs : List Frame) (c : StackMapCounters) :
    Walks (frames isBigEndian fs.length c) (fs.flatMap (Frame.encode isBigEndian))
      (fs.foldl Frame.count c) := by
  induction fs generalizing c with
  | nil => exact Walks.pure c
  | cons f fs ih => exact (walks_frame isBigEndian c f).bind (ih _)

theorem foldl_count (fs : List Frame) (c : StackMapCounters) :
    fs.foldl Frame.count c =
      { same := c.same + (frameCounts fs).same
        sameLocals := c.sameLocals + (frameCounts fs).sameLocals
        sameLocalsExtended := c.sameLocalsExtended + (frameCounts fs).sameLocalsExtended
        chop := c.chop + (frameCounts fs).chop
        sameExtended := c.sameExtended + (frameCounts fs).sameExtended
        append := c.append + (frameCounts fs).append
        full := c.full + (frameCounts fs).full
        unknown := c.unknown } := by
  induction fs generalizing c with
  | nil => rfl
  | cons f fs ih =>
      rw [List.foldl_cons, ih]
      cases f <;> simp [Frame.count, frameCounts] <;> omega

theorem walks_frames_counted (fs : List Frame) :
    Walks (frames isBigEndian fs.length {}) (fs.flatMap (Frame.encode isBigEndian))
      (frameCounts fs) := by
  have h := walks_frames isBigEndian fs {}
  rw [foldl_count] at h
  simpa [frameCounts] using h

theorem walks_stackMapTable (table : Table Frame) :
    Walks (toStringStackMapTable isBigEndian) (stackMapTableBytes isBigEndian table)
      (stackMapText table.1.length (frameCounts table.1)) := by
  refine (walks_readU2 isBigEndian _).bind ?_
  rw [toNat_count table.2]
  exact (walks_frames_counted isBigEndian table.1).map _

end Frames

section CodeBodies
variable (isBigEndian : Bool)

theorem walks_exceptionTableEntry (e : ExceptionTable) :
    Walks (exceptionTableEntry isBigEndian) (exceptionBytes isBigEndian e) e :=
  (walks_readU2 isBigEndian e.startPC).bind ((walks_readU2 isBigEndian e.endPC).bind
    ((walks_readU2 isBigEndian e.handlerPC).bind ((walks_readU2 isBigEndian e.catchType).map _)))

theorem toNat_length {bytes : Bytes} (h : bytes.length < 2 ^ 32) :
    bytes.length = (UInt32.ofNat bytes.length).toNat := by
  rw [UInt32.toNat_ofNat']
  exact (Nat.mod_eq_of_lt h).symm

theorem walks_code (c : CodeBody) :
    Walks (toStringCode isBigEndian) (c.walked isBigEndian)
      (codeText c.maxStack.toNat c.maxLocals.toNat c.code.1.length c.exceptionTable.1.length) := by
  have hcode := c.code.2
  have hlength : c.code.1.length = (UInt32.ofNat c.code.1.length).toNat := toNat_length (by omega)
  refine (walks_readU2 isBigEndian c.maxStack).bind ((walks_readU2 isBigEndian c.maxLocals).bind
    ((walks_readU4 isBigEndian _).bind ((Walks.jump hlength).bind ?_)))
  refine (walks_readU2 isBigEndian _).bind ?_
  rw [← hlength, toNat_count c.exceptionTable.2]
  exact (Walks.repeated fun e _ => walks_exceptionTableEntry isBigEndian e).map fun _ => _

end CodeBodies

section Records
variable (isBigEndian : Bool) (pool : ConstantPool) (turns : ℕ)

theorem walks_skipAttribute (a : NestedAttribute) :
    Walks (skipAttribute isBigEndian) (a.encode isBigEndian) () :=
  (walks_readU2 isBigEndian a.nameIndex).bind ((walks_readU4 isBigEndian _).bind
    (Walks.jump (toNat_length a.info.2)))

theorem walks_component (c : Component) :
    Walks (component isBigEndian pool turns) (c.encode isBigEndian)
      (componentText pool turns c.nameIndex c.descriptorIndex) := by
  refine (walks_readU2 isBigEndian c.nameIndex).bind
    ((walks_readU2 isBigEndian c.descriptorIndex).bind ((walks_readU2 isBigEndian _).bind ?_))
  rw [toNat_count c.attributes.2]
  exact (Walks.repeated fun a _ => walks_skipAttribute isBigEndian a).map fun _ => _

/-- The indices of the component lead to its name and to the descriptor of its type. -/
structure Describes (c : Component) (shown : Bytes × TypeImage) : Prop where
  name : pool.utf8Info c.nameIndex = some shown.1
  type : pool.utf8Info c.descriptorIndex = some shown.2.encode
  length_lt : shown.2.encode.length < 2 ^ 16

def shownText (shown : Bytes × TypeImage) : Bytes :=
  shown.1 ++ ascii ":" ++ shown.2.descriptor.toString

variable {pool turns}

theorem componentText_eq {c : Component} {shown : Bytes × TypeImage} (h : Describes pool c shown)
    (hturns : turns ≥ 2 ^ 16) :
    componentText pool turns c.nameIndex c.descriptorIndex = some (shownText shown) := by
  have hreturned := returned_descriptor h.length_lt hturns
  simp [componentText, getTypeString, ConstantPool.getString, h.name, h.type, hreturned, shownText]

/-- The texts of described components, in order. -/
theorem componentTexts_eq {cs : List Component} {shown : List (Bytes × TypeImage)}
    (h : List.Forall₂ (Describes pool) cs shown) (hturns : turns ≥ 2 ^ 16) :
    cs.map (fun c => componentText pool turns c.nameIndex c.descriptorIndex) =
      shown.map fun x => some (shownText x) := by
  induction h with
  | nil => rfl
  | cons hc _ ih => rw [List.map_cons, List.map_cons, componentText_eq hc hturns, ih]

theorem allTexts_some (texts : List Bytes) : allTexts (texts.map some) = some texts := by
  have h := List.mapM_pure (m := Option) (l := texts) (f := id)
  rw [List.map_id] at h
  rw [allTexts, List.mapM_map]
  exact h

theorem walks_components {cs : List Component} {shown : List (Bytes × TypeImage)}
    (h : List.Forall₂ (Describes pool) cs shown) (hturns : turns ≥ 2 ^ 16) :
    Walks (repeated cs.length (component isBigEndian pool turns))
      (cs.flatMap (Component.encode isBigEndian)) (shown.map fun x => some (shownText x)) := by
  rw [← componentTexts_eq h hturns]
  exact Walks.repeated fun c _ => walks_component isBigEndian pool turns c

theorem walks_record {record : Table Component} {shown : List (Bytes × TypeImage)}
    (h : List.Forall₂ (Describes pool) record.1 shown) (hturns : turns ≥ 2 ^ 16) :
    Walks (toStringRecord isBigEndian pool turns) (recordBytes isBigEndian record)
      (some (recordText record.1.length (shown.map shownText))) := by
  have htexts : allTexts (shown.map fun x => some (shownText x)) = some (shown.map shownText) := by
    rw [← allTexts_some, List.map_map]
    rfl
  refine (walks_readU2 isBigEndian _).bind ?_
  rw [toNat_count record.2]
  have hwalk := (walks_components isBigEndian h hturns).map fun parts =>
    (allTexts parts).map (recordText record.1.length)
  rwa [htexts] at hwalk

end Records

section InStep
variable {R : Type} {bytes rest : Bytes} {r : R}

theorem Walks.from_start {t : Walk R} (h : Walks t bytes r)
    (hlength : (bytes ++ rest).length < 2 ^ 31) :
    run serve t ⟨bytes ++ rest, 0⟩ = some (r, ⟨bytes ++ rest, bytes.length⟩) := by
  simpa using h [] rest hlength

/-- The first `k` elements of a table, behind what precedes it. -/
theorem walks_elements {E : Type} {code : E → Bytes} {xs : List E} {before after : Bytes}
    {k : ℕ} {t : Walk R} (h : Walks t ((xs.take k).flatMap code) r)
    (hlength : (before ++ xs.flatMap code ++ after).length < 2 ^ 31) :
    run serve t ⟨before ++ xs.flatMap code ++ after, before.length⟩ =
      some (r, ⟨before ++ xs.flatMap code ++ after,
        before.length + ((xs.take k).flatMap code).length⟩) := by
  have hsplit : xs.flatMap code = (xs.take k).flatMap code ++ (xs.drop k).flatMap code := by
    rw [← List.flatMap_append, List.take_append_drop]
  have hwalk := h before ((xs.drop k).flatMap code ++ after)
  rw [hsplit] at hlength ⊢
  simp only [List.append_assoc] at hwalk hlength ⊢
  exact hwalk hlength

theorem Walks.from_start_end {t : Walk R} (h : Walks t bytes r) (hlength : bytes.length < 2 ^ 31) :
    run serve t ⟨bytes, 0⟩ = some (r, ⟨bytes, bytes.length⟩) := by
  have hempty : (bytes ++ []).length < 2 ^ 31 := by simpa using hlength
  simpa using h.from_start hempty

/-- The first `k` elements of a table that is a whole body. -/
theorem walks_body {E : Type} (isBigEndian : Bool) {code : E → Bytes} {xs : List E} {k : ℕ}
    {t : Walk R} (h : Walks t ((xs.take k).flatMap code) r)
    (hlength : (counted isBigEndian code xs).length < 2 ^ 31) :
    run serve t ⟨counted isBigEndian code xs, 2⟩ =
      some (r, ⟨counted isBigEndian code xs, 2 + ((xs.take k).flatMap code).length⟩) := by
  have hcount : (u2Bytes isBigEndian (UInt16.ofNat xs.length)).length = 2 :=
    wordBytes_length isBigEndian 2 _
  have hbody : (u2Bytes isBigEndian (UInt16.ofNat xs.length) ++ xs.flatMap code ++ []).length <
      2 ^ 31 := by
    simpa [counted] using hlength
  simpa [counted, hcount] using walks_elements h hbody

theorem stackMapTable_elements (isBigEndian : Bool) (table : Table Frame)
    (hlength : (stackMapTableBytes isBigEndian table).length < 2 ^ 31) {k : ℕ}
    (hk : k ≤ table.1.length) :
    run serve (frames isBigEndian k {}) ⟨stackMapTableBytes isBigEndian table, 2⟩ =
      some (frameCounts (table.1.take k), ⟨stackMapTableBytes isBigEndian table,
        2 + ((table.1.take k).flatMap (Frame.encode isBigEndian)).length⟩) := by
  have hwalk := walks_frames_counted isBigEndian (table.1.take k)
  rw [List.length_take_of_le hk] at hwalk
  exact walks_body isBigEndian hwalk hlength

theorem code_elements (isBigEndian : Bool) (c : CodeBody)
    (hlength : (c.encode isBigEndian).length < 2 ^ 31) {k : ℕ}
    (hk : k ≤ c.exceptionTable.1.length) :
    run serve (repeated k (exceptionTableEntry isBigEndian))
        ⟨c.encode isBigEndian, 10 + c.code.1.length⟩ =
      some (c.exceptionTable.1.take k, ⟨c.encode isBigEndian, 10 + c.code.1.length +
        ((c.exceptionTable.1.take k).flatMap (exceptionBytes isBigEndian)).length⟩) := by
  have hwalk : Walks (repeated (c.exceptionTable.1.take k).length
      (exceptionTableEntry isBigEndian))
      ((c.exceptionTable.1.take k).flatMap (exceptionBytes isBigEndian))
      ((c.exceptionTable.1.take k).map id) :=
    Walks.repeated fun e _ => walks_exceptionTableEntry isBigEndian e
  rw [List.length_take_of_le hk, List.map_id] at hwalk
  set before := u2Bytes isBigEndian c.maxStack ++ (u2Bytes isBigEndian c.maxLocals ++
    (u4Bytes isBigEndian (UInt32.ofNat c.code.1.length) ++ (c.code.1 ++
      u2Bytes isBigEndian (UInt16.ofNat c.exceptionTable.1.length)))) with hbefore
  have hencode : c.encode isBigEndian = before ++
      c.exceptionTable.1.flatMap (exceptionBytes isBigEndian) ++
      counted isBigEndian (NestedAttribute.encode isBigEndian) c.attributes.1 := by
    simp [CodeBody.encode, CodeBody.walked, counted, hbefore]
  have hposition : (before.length : ℤ) = 10 + c.code.1.length := by
    simp only [hbefore, List.length_append, u2Bytes, u4Bytes, wordBytes_length]
    omega
  rw [hencode] at hlength ⊢
  rw [← hposition]
  exact walks_elements hwalk hlength

theorem record_elements (isBigEndian : Bool) {pool : ConstantPool} {turns : ℕ}
    (hturns : turns ≥ 2 ^ 16) {record : Table Component} {shown : List (Bytes × TypeImage)}
    (hshown : List.Forall₂ (Describes pool) record.1 shown)
    (hlength : (recordBytes isBigEndian record).length < 2 ^ 31) {k : ℕ}
    (hk : k ≤ record.1.length) :
    run serve (repeated k (component isBigEndian pool turns))
        ⟨recordBytes isBigEndian record, 2⟩ =
      some ((shown.take k).map fun x => some (shownText x),
        ⟨recordBytes isBigEndian record,
          2 + ((record.1.take k).flatMap (Component.encode isBigEndian)).length⟩) := by
  have hwalk := walks_components isBigEndian (List.forall₂_take k hshown) hturns
  rw [List.length_take_of_le hk] at hwalk
  exact walks_body isBigEndian hwalk hlength

/-- The two frames of the table that the tests render. -/
def sampleTable : Table Frame := ⟨[.same 0, .sameLocals 0 .integer], by decide⟩

def sampleCode : CodeBody :=
  ⟨2, 1, ⟨[0x2A, 0xB1], by decide⟩, ⟨[⟨0, 1, 1, 0⟩], by decide⟩, ⟨[], by decide⟩⟩

/-- The component `value` of the tests. -/
def sampleComponents : ConstantPool :=
  ⟨[none, some (.utf8Info (ascii "value")), some (.utf8Info (ascii "Ljava/lang/String;"))]⟩

def sampleRecord : Table Component :=
  ⟨[⟨1, 2, ⟨[⟨1, ⟨[1, 2, 3], by decide⟩⟩], by decide⟩⟩], by decide⟩

def stringType : TypeImage :=
  { intType with element := stringArrays.element }

end InStep

end Tarracsh.WalkersInStep
