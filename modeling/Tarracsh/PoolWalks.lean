import Tarracsh.SafeConsumption
import Tarracsh.CountedLoops

/-!
# Walking the constant pool

`recordRefs` and the printers of the pool go from index 1 to `getNextIndex` as long
as the index is less than `getPoolSize`. Both are `u2`s, while the vector has one slot
more than a `u2` can tell when a Long or a Double stands at the last index that a
class file can have. The size is then zero, and nothing is visited.
-/
namespace Tarracsh.PoolWalks
open ByteStrings QueryTrees StreamReads PoolStructures ParsedClass ClassFileReader ClassFileParser
open ClassFileFormat ReaderRefinement ParserRoundTrip PoolAlignment CountedLoops
open ClassFileProcessor (getPoolSize hasRecord lt_nextSlot)
open SafeConsumption (hasRecord_one)

section Walk
variable (p : ConstantPool)

/-- `ConstantPool::getNextIndex`, with the increment of a `u2`. -/
def getNextIndex : ℕ → UInt16 → Progress UInt16
  | 0, _ => .running
  | fuel + 1, index =>
      if index.toNat < p.constantPoolIndex.length then
        let index := index + 1
        if index.toNat ≥ p.constantPoolIndex.length ∨ hasRecord p index.toNat then
          .returned index
        else getNextIndex fuel index
      else .returned index

/-- The loop from `index` on, with the indices that it visits. -/
def walk : ℕ → UInt16 → Progress (List UInt16)
  | 0, _ => .running
  | fuel + 1, index =>
      if index.toNat < getPoolSize p then do
        let next ← getNextIndex p fuel index
        let visited ← walk fuel next
        .returned (index :: visited)
      else .returned []

/-- The slots that are not empty. -/
def slots : List ℕ := (List.range p.constantPoolIndex.length).filter (hasRecord p)

/-- The loop ends, and it has visited each slot that is not empty once and in their
order. -/
def VisitsOnce : Prop :=
  ∃ least, ∀ fuel ≥ least, ∃ visited, walk p fuel 1 = .returned visited ∧
    visited.map UInt16.toNat = slots p

variable {p}

/-- A slot with a record from `index` on. -/
def slotsFrom (p : ConstantPool) (index : ℕ) : List ℕ :=
  (List.range' index (p.constantPoolIndex.length - index)).filter (hasRecord p)

theorem slotsFrom_cons {index : ℕ} (h : index < p.constantPoolIndex.length) :
    slotsFrom p index =
      (if hasRecord p index then [index] else []) ++ slotsFrom p (index + 1) := by
  have hlength : p.constantPoolIndex.length - index =
      p.constantPoolIndex.length - (index + 1) + 1 := by omega
  rw [slotsFrom, hlength, List.range'_succ, List.filter_cons, slotsFrom]
  split <;> rfl

/-- Only empty slots are skipped. -/
theorem slotsFrom_nextSlot {index : ℕ} (h : index < p.constantPoolIndex.length) :
    slotsFrom p (ClassFileProcessor.nextSlot p index) = slotsFrom p (index + 1) := by
  fun_induction ClassFileProcessor.nextSlot p index with
  | case1 index hindex hstop => rfl
  | case2 index hindex hgo ih =>
      obtain ⟨hinside, hempty⟩ := not_or.mp hgo
      have hinside : index + 1 < p.constantPoolIndex.length := by omega
      have hskip := slotsFrom_cons hinside
      rw [if_neg hempty, List.nil_append] at hskip
      rw [ih hinside, hskip]
  | case3 index hindex => exact absurd h hindex

/-- Without 65536 slots the `u2` does not wrap around. -/
theorem getNextIndex_eq (hsize : p.constantPoolIndex.length < 2 ^ 16) {index : ℕ}
    (h : index < p.constantPoolIndex.length) {fuel : ℕ}
    (hfuel : p.constantPoolIndex.length ≤ index + fuel) :
    getNextIndex p fuel (UInt16.ofNat index) =
      .returned (UInt16.ofNat (ClassFileProcessor.nextSlot p index)) := by
  induction fuel generalizing index with
  | zero => omega
  | succ fuel ih =>
      have hindex : (UInt16.ofNat index).toNat = index := by
        rw [UInt16.toNat_ofNat']
        omega
      have hnext : UInt16.ofNat index + 1 = UInt16.ofNat (index + 1) :=
        (UInt16.ofNat_add index 1).symm
      have hnext' : (UInt16.ofNat (index + 1)).toNat = index + 1 := by
        rw [UInt16.toNat_ofNat']
        omega
      rw [getNextIndex, hindex, if_pos h, ClassFileProcessor.nextSlot, if_pos h, hnext]
      dsimp only
      rw [hnext']
      split
      · rfl
      · exact ih (by omega) (by omega)

theorem nextSlot_le {index : ℕ} (h : index < p.constantPoolIndex.length) :
    ClassFileProcessor.nextSlot p index ≤ p.constantPoolIndex.length := by
  fun_induction ClassFileProcessor.nextSlot p index with
  | case1 index hindex hstop => omega
  | case2 index hindex hgo ih => exact ih (by omega)
  | case3 index hindex => exact absurd h hindex

/-- From a slot with a record on, the loop visits all of them that follow. -/
theorem walk_eq (hsize : p.constantPoolIndex.length < 2 ^ 16) {index fuel : ℕ}
    (hslot : index < p.constantPoolIndex.length → hasRecord p index)
    (hindex : index ≤ p.constantPoolIndex.length)
    (hfuel : p.constantPoolIndex.length < index + fuel) :
    walk p fuel (UInt16.ofNat index) = .returned ((slotsFrom p index).map UInt16.ofNat) := by
  have hpoolSize : getPoolSize p = p.constantPoolIndex.length := Nat.mod_eq_of_lt hsize
  induction fuel generalizing index with
  | zero => omega
  | succ fuel ih =>
      have hvalue : (UInt16.ofNat index).toNat = index := by
        rw [UInt16.toNat_ofNat']
        omega
      rw [walk, hvalue, hpoolSize]
      by_cases hlt : index < p.constantPoolIndex.length
      · have hnext := lt_nextSlot p hlt
        have hrest := ih (ClassFileExtraction.hasRecord_nextSlot hlt) (nextSlot_le hlt)
          (by omega)
        rw [if_pos hlt, getNextIndex_eq hsize hlt (by omega), Progress.returned_bind, hrest,
          slotsFrom_nextSlot hlt, slotsFrom_cons hlt, if_pos (hslot hlt)]
        rfl
      · have hend : p.constantPoolIndex.length - index = 0 := by omega
        rw [if_neg hlt, slotsFrom, hend]
        rfl

theorem slots_eq (constants : List ConstantPoolRecord) :
    slots ⟨poolSlots constants⟩ = slotsFrom ⟨poolSlots constants⟩ 1 := by
  have hzero : hasRecord ⟨poolSlots constants⟩ 0 = false := rfl
  have hall : slotsFrom ⟨poolSlots constants⟩ 0 = _ := slotsFrom_cons (Nat.succ_pos _)
  rw [hzero, if_neg Bool.false_ne_true, List.nil_append] at hall
  rw [← hall, slots, slotsFrom, List.range_eq_range', Nat.sub_zero]

theorem visitsOnce_of_length_lt (h : LaidOut (2 ^ 16) p)
    (hsize : p.constantPoolIndex.length < 2 ^ 16) : VisitsOnce p := by
  obtain ⟨constants, rfl, -⟩ := h
  refine ⟨2 ^ 16, fun fuel hfuel => ⟨_, walk_eq hsize hasRecord_one (Nat.succ_pos _) ?_, ?_⟩⟩
  · omega
  · rw [slots_eq, List.map_map]
    refine List.map_congr_left (fun index hindex => ?_) |>.trans (List.map_id _)
    have hrange := List.mem_range'_1.mp (List.mem_filter.mp hindex).1
    dsimp only at hrange hsize
    rw [Function.comp_apply, UInt16.toNat_ofNat', id]
    omega

/-- With 65536 slots there are constants, and the loop ends at once. -/
theorem not_visitsOnce_of_length_eq (h : LaidOut (2 ^ 16) p)
    (hsize : p.constantPoolIndex.length = 2 ^ 16) : ¬VisitsOnce p := by
  obtain ⟨constants, rfl, -⟩ := h
  rintro ⟨least, hvisits⟩
  obtain ⟨visited, hwalk, hslots⟩ := hvisits (least + 1) (Nat.le_succ least)
  have hpoolSize : getPoolSize ⟨poolSlots constants⟩ = 0 := by
    rw [getPoolSize, hsize, Nat.mod_self]
  rw [walk, hpoolSize, if_neg (Nat.not_lt_zero _)] at hwalk
  cases hwalk
  have hone : 1 ∈ slots ⟨poolSlots constants⟩ := by
    rw [slots, List.mem_filter, List.mem_range]
    exact ⟨by omega, hasRecord_one (by dsimp only at hsize; omega)⟩
  rw [← hslots] at hone
  simp at hone

end Walk

/-- On every file that `parse()` accepts, the loop visits each entry of the pool once
unless the vector has 65536 slots. -/
theorem visitsOnce_iff {kind : Kind} {content : Bytes} {garbage : ℕ → UInt8} {c : ClassFile}
    {s : Stream} (h : parsed kind content garbage = some (c, s)) :
    VisitsOnce c.constantPool ↔ c.constantPool.constantPoolIndex.length < 2 ^ 16 := by
  have hlaid := laidOut_of_parsed h
  constructor
  · intro hvisits
    by_contra hsize
    obtain ⟨constants, hpool, hlength⟩ := id hlaid
    refine not_visitsOnce_of_length_eq hlaid ?_ hvisits
    rw [hpool] at hsize ⊢
    exact Nat.le_antisymm hlength (Nat.le_of_not_lt hsize)
  · exact visitsOnce_of_length_lt hlaid

theorem visitsOnce_alignedFile :
    ∃ s, parsed .memory alignedFile (fun _ => 0) = some (alignedClass, s) ∧
      (VisitsOnce alignedClass.constantPool ↔
        alignedClass.constantPool.constantPoolIndex.length < 2 ^ 16) := by
  obtain ⟨s, hparsed⟩ := parsed_alignedFile
  exact ⟨s, hparsed, visitsOnce_iff hparsed⟩

section LargestPool

/-- A Long at the last index starts below the declared count and ends behind it. -/
theorem consumes_readEntries_wide (isBigEndian : Bool) {count : ℕ}
    {constants : List ConstantPoolRecord} (hsized : ∀ record ∈ constants, Sized record)
    {last : ConstantPoolRecord} (hlast : Sized last) (hwide : isWide last = true)
    (hcount : (poolSlots constants).length + 1 = count) :
    Consumes Request.count (readEntries isBigEndian count count 1 emptyPool)
      (constants.flatMap (recordBytes isBigEndian) ++ recordBytes isBigEndian last)
      ⟨poolSlots (constants ++ [last])⟩ := by
  have hslots : (slotsOf last).length = 2 := by simp [slotsOf, hwide]
  have hpool : poolSlots (constants ++ [last]) =
      emptyPool.constantPoolIndex ++ constants.flatMap slotsOf ++ slotsOf last := by
    simp [poolSlots, emptyPool]
  rw [poolSlots, List.length_cons] at hcount
  refine consumes_readEntries_append isBigEndian hsized emptyPool (by omega) (by omega) ?_
  intro fuel hfuel
  obtain ⟨fuel, rfl⟩ : ∃ n, fuel = n + 1 := ⟨fuel - 1, by omega⟩
  have hentry := consumes_readConstPoolEntry isBigEndian (1 + (constants.flatMap slotsOf).length)
    ⟨emptyPool.constantPoolIndex ++ constants.flatMap slotsOf⟩ hlast
  rw [readEntries, if_pos (by omega), hpool, ← List.append_nil (recordBytes isBigEndian last)]
  refine hentry.bind ?_
  rw [readEntries_done isBigEndian (by rw [hslots]; omega)]
  exact Consumes.pure _

theorem length_poolSlots_append (constants : List ConstantPoolRecord)
    (last : ConstantPoolRecord) :
    (poolSlots (constants ++ [last])).length =
      (poolSlots constants).length + (slotsOf last).length := by
  simp [poolSlots]
  omega

def emptySections : ClassFileImage where
  minorVersion := 0
  majorVersion := 52
  constants := []
  mainClassInfo := ⟨0, 0, 0⟩
  interfaces := []
  fields := []
  methods := []
  attributes := []
  constants_sized := nofun
  slots_lt := by decide
  interfaces_lt := by decide
  fields_lt := by decide
  methods_lt := by decide
  attributes_lt := by decide

/-- A file whose last constant takes one slot more than its count declares is
accepted. -/
theorem parsed_wide {constants : List ConstantPoolRecord}
    (hsized : ∀ record ∈ constants, Sized record) {last : ConstantPoolRecord}
    (hlast : Sized last) (hwide : isWide last = true) {count : UInt16}
    (hcount : (poolSlots constants).length + 1 = count.toNat) :
    ∃ c s, parsed .memory (fileWithPool count
        (constants.flatMap (recordBytes false) ++ recordBytes false last)) (fun _ => 0) =
        some (c, s) ∧ c.constantPool = ⟨poolSlots (constants ++ [last])⟩ := by
  have hpool : Consumes Request.count (readConstantsPool false) _ _ :=
    (consumes_readU2 false count).bind
      (consumes_readEntries_wide false hsized hlast hwide hcount)
  have hfile : Consumes Request.count (processFile false) _ _ :=
    hpool.bind (consumes_readSections false _ emptySections)
  have hclass : Consumes Request.count readClassFile _ _ :=
    (consumes_readHeader false 0 52).bind hfile
  have hsections : emptySections.sectionBytes false = List.replicate 14 0 := by decide
  have hrun := hclass []
  rw [hsections, List.append_nil] at hrun
  obtain ⟨s, hserve, -⟩ := run_of_dealing (follows_start .memory _ fun _ => 0) hrun
  rw [← parsed_eq] at hserve
  refine ⟨{ emptySections.classFile with constantPool := ⟨poolSlots (constants ++ [last])⟩ }, s,
    ?_, rfl⟩
  rw [fileWithPool, ← List.append_assoc (u2Bytes false count)]
  exact hserve

/-- An integer at each index but the last. -/
def fullConstants : List ConstantPoolRecord := List.replicate 65533 (.integerInfo 0)

def fullFile : Bytes :=
  fileWithPool 65535 (fullConstants.flatMap (recordBytes false) ++
    recordBytes false (.longInfo 0 0))

theorem length_integers (n : ℕ) :
    (poolSlots (List.replicate n (.integerInfo 0))).length = n + 1 := by
  induction n with
  | zero => rfl
  | succ n ih => rw [List.replicate_succ', length_poolSlots_append, ih]; rfl

theorem parsed_fullFile :
    ∃ c s, parsed .memory fullFile (fun _ => 0) = some (c, s) ∧
      c.constantPool = ⟨poolSlots (fullConstants ++ [.longInfo 0 0])⟩ := by
  have hsized : ∀ record ∈ fullConstants, Sized record := by
    intro record hrecord
    rw [List.eq_of_mem_replicate hrecord]
    trivial
  have hlong : Sized (.longInfo 0 0) := trivial
  exact parsed_wide hsized hlong rfl (by rw [fullConstants, length_integers]; rfl)

/-- The file is accepted, and none of its constants is visited. -/
theorem fullFile_not_visited :
    ¬∀ (kind : Kind) (content : Bytes) (garbage : ℕ → UInt8) (c : ClassFile) (s : Stream),
      parsed kind content garbage = some (c, s) → VisitsOnce c.constantPool := by
  intro h
  obtain ⟨c, s, hparsed, hpool⟩ := parsed_fullFile
  refine not_visitsOnce_of_length_eq (laidOut_of_parsed hparsed) ?_ (h _ _ _ _ _ hparsed)
  rw [hpool, length_poolSlots_append, fullConstants, length_integers]
  rfl

end LargestPool

end Tarracsh.PoolWalks
