import Tarracsh.ClassFileExtent

/-!
# When the two readers agree

What a `MemoryReader` parses a `FileReader` parses as well. The converse needs
the file reader to notice the end of the file, and only the size check of
`readRaw` can do that. The check compares a 32-bit count that leaves out the
bodies of attributes, and the bodies are read without any check; the values the
parser works with past the end are the old contents of the destination. So a
content that is too short for its class file is refused if it is too short
without the bodies of attributes, and else accepted.
-/
namespace Tarracsh.ReaderAgreement
open ByteStrings QueryTrees StreamReads ParsedClass ClassFileReader ClassFileParser
open ClassFileFormat ReaderRefinement ClassFileExtent

variable {R : Type}

/-- The class file ends within the content, or the bytes outside attribute bodies
alone are too many for it. -/
def OverrunDetected (content : Bytes) : Prop :=
  ∀ e, fileExtent content = some e → e.total ≤ content.length ∨
    (content.length < e.counted ∧ content.length + 2 ^ 16 ≤ 2 ^ 32)

/-- Both constructors throw or neither does, and both parses reject or both
accept with the same structures, whatever uninitialised variables hold. -/
def SameOutcome (content : Bytes) : Prop :=
  ∀ garbage garbage' : ℕ → UInt8,
    ((construct .file content garbage).isSome ↔ (construct .memory content garbage').isSome) ∧
      (parsed .file content garbage).map Prod.fst = (parsed .memory content garbage').map Prod.fst

section Zeroing
variable {t : Reads R} {left rest : Bytes} {e e' : Extent} {r : R} {s : Stream}

theorem counted_le_of_zeroing (hrun : run zeroing t (left, e) = some (r, (rest, e'))) :
    e.counted ≤ e'.counted := by
  induction t generalizing left e with
  | done r' =>
      cases hrun
      exact le_rfl
  | stuck => cases hrun
  | ask q next ih => exact (Nat.le_add_right _ _).trans (ih _ hrun)

theorem padded_of_le {n : ℕ} (h : n ≤ left.length) : padded n left = left.take n := by
  rw [padded, Nat.sub_eq_zero_of_le h, List.replicate_zero, List.append_nil]

/-- Bytes that are there are dealt as they are. -/
theorem dealing_of_zeroing (hrun : run zeroing t (left, e) = some (r, (rest, e'))) :
    ∃ n, e'.total = e.total + n ∧ (n ≤ left.length → run dealing t left = some (r, rest)) ∧
      (left.length < n → run dealing t left = none) := by
  induction t generalizing left e with
  | done r' =>
      cases hrun
      exact ⟨0, rfl, fun _ => rfl, fun h => absurd h (Nat.not_lt_zero _)⟩
  | stuck => cases hrun
  | ask q next ih =>
      have hnext : run zeroing (next (padded q.count left))
          (left.drop q.count, e + requestExtent q) = some (r, (rest, e')) := hrun
      obtain ⟨n, htotal, hsome, hnone⟩ := ih _ hnext
      rw [Extent.total_add, total_requestExtent, Nat.add_assoc] at htotal
      rw [List.length_drop] at hsome hnone
      by_cases hle : q.count ≤ left.length
      · have hhead : dealing q left = some (left.take q.count, left.drop q.count) :=
          fromList_of_le hle
        rw [run_ask, hhead, Option.bind_some, ← padded_of_le hle]
        exact ⟨q.count + n, htotal, fun h => hsome (by omega), fun h => hnone (by omega)⟩
      · have hhead : dealing q left = none := if_neg hle
        rw [run_ask, hhead, Option.bind_none]
        exact ⟨q.count + n, htotal, fun h => absurd h (by omega), fun _ => rfl⟩

/-- Variables that hold zeros make a read a read of zeros behind the end. -/
theorem padded_eq_of_garbage (hgarbage : s.garbage = fun _ => 0) (q : Request) :
    left.take q.count ++ (s.destination q).drop left.length = padded q.count left := by
  have hdestination : s.destination q = List.replicate q.count 0 := by
    unfold Stream.destination
    split
    · rfl
    · rw [hgarbage, List.map_const', List.length_range]
  rw [hdestination, List.drop_replicate, padded]

/-- Where the size check lets all requests through, a file reader whose variables hold
zeros reads what the walk reads. -/
theorem FileAt.run_of_zeroing (h : FileAt s left) (hgarbage : s.garbage = fun _ => 0)
    (hrun : run zeroing t (left, e) = some (r, (rest, e')))
    (hsize : 2 ^ 32 ≤ s.content.length + 1 ∨
      s.bytesRead.toNat + e'.counted ≤ s.content.length + e.counted) :
    ∃ s', run Stream.serve t s = some (r, s') := by
  induction t generalizing left e s with
  | done r' =>
      cases hrun
      exact ⟨s, rfl⟩
  | stuck => cases hrun
  | ask q next ih =>
      have hnext : run zeroing (next (padded q.count left))
          (left.drop q.count, e + requestExtent q) = some (r, (rest, e')) := hrun
      have hcounted := counted_le_of_zeroing hnext
      have hsum := toNat_add_ofNat_le s.bytesRead q.count
      rw [Extent.counted_add] at hcounted
      have hfits : Fits s q := by
        intro hc
        have hword := (s.bytesRead + UInt32.ofNat q.count).toNat_lt
        rw [requestExtent, if_pos hc] at hcounted
        simp only at hcounted
        omega
      rw [run_ask, h.serve_of_fits hfits, Option.bind_some, padded_eq_of_garbage hgarbage]
      refine ih _ (h.advanced hfits) ?_ hnext ?_
      · change (s.drawn q).garbage = fun _ => 0
        unfold Stream.drawn
        split
        · exact hgarbage
        · rw [hgarbage]
      · change 2 ^ 32 ≤ (s.drawn q).content.length + 1 ∨
          (countAfter s q).toNat + e'.counted ≤
            (s.drawn q).content.length + (e + requestExtent q).counted
        rw [drawn_content, Extent.counted_add]
        refine hsize.imp_right fun hle => ?_
        unfold countAfter requestExtent
        split
        · simp only
          omega
        · exact hle

end Zeroing

/-- Whatever a `MemoryReader` parses, a `FileReader` parses to the same structures. -/
theorem parsed_file_of_memory {content : Bytes} {garbage' : ℕ → UInt8} {c : ClassFile}
    {s : Stream} (h : parsed .memory content garbage' = some (c, s)) (garbage : ℕ → UInt8) :
    ∃ s', parsed .file content garbage = some (c, s') := by
  rw [parsed_eq] at h
  obtain ⟨rest, hdeal, -, -⟩ := dealing_of_run (follows_start .memory content garbage') rfl h
  obtain ⟨s', hrun, -⟩ := run_of_dealing (follows_start .file content garbage) hdeal
  exact ⟨s', by rw [parsed_eq, hrun]⟩

/-- A `MemoryReader` refuses what ends behind the content. -/
theorem parsed_memory_of_extent {content : Bytes} {e : Extent} (he : fileExtent content = some e)
    (garbage : ℕ → UInt8) :
    (parsed .memory content garbage).isSome ↔ e.total ≤ content.length := by
  obtain ⟨c, hc⟩ := zeros_readClassFile he
  obtain ⟨n, htotal, hsome, hnone⟩ := dealing_of_zeroing (hc 0)
  rw [Extent.zero_add, Extent.total_zero, Nat.zero_add] at htotal
  subst htotal
  rw [parsed_eq]
  by_cases hle : e.total ≤ content.length
  · obtain ⟨s', hrun, -⟩ := run_of_dealing (follows_start .memory content garbage) (hsome hle)
    simp [hrun, hle]
  · have hmemory : run Stream.serve readClassFile (start .memory content garbage) = none := by
      cases hrun : run Stream.serve readClassFile (start .memory content garbage) with
      | none => rfl
      | some result =>
          obtain ⟨rest, hdeal, -⟩ :=
            dealing_of_run (follows_start .memory content garbage) rfl hrun
          rw [hnone (Nat.lt_of_not_le hle)] at hdeal
          cases hdeal
    simp [hmemory, hle]

/-- With zeros in its variables a `FileReader` parses what the size check lets through. -/
theorem parsed_file_of_extent {content : Bytes} {e : Extent} (he : fileExtent content = some e)
    (hsize : 2 ^ 32 ≤ content.length + 1 ∨ e.counted ≤ content.length) :
    (parsed .file content fun _ => 0).isSome := by
  obtain ⟨c, hc⟩ := zeros_readClassFile he
  have hrun := hc 0
  rw [Extent.zero_add] at hrun
  obtain ⟨s', hfile⟩ := FileAt.run_of_zeroing (fileAt_start content fun _ => 0) rfl hrun
    (hsize.imp_right fun hle => by simpa [start] using hle)
  rw [parsed_eq, hfile]
  rfl

/-- What a `FileReader` parses when overruns are detected a `MemoryReader` parses as well. -/
theorem parsed_memory_of_file {content : Bytes} (hdetected : OverrunDetected content)
    {garbage : ℕ → UInt8} (h : (parsed .file content garbage).isSome) (garbage' : ℕ → UInt8) :
    (parsed .memory content garbage').isSome := by
  obtain ⟨⟨c, s⟩, hfile⟩ := Option.isSome_iff_exists.mp h
  rw [parsed_eq] at hfile
  obtain ⟨e, he, hpassed⟩ := least_readClassFile (fileAt_start content garbage) hfile
  rw [parsed_memory_of_extent he]
  refine (hdetected e he).resolve_right fun hover => ?_
  have hcounted := hpassed.counted hover.2
  have hposition := hpassed.at_rest.follows.counted
  have hlength := hpassed.at_rest.follows.position
  rw [hpassed.content] at hlength
  have hcontent : (start .file content garbage).content = content := rfl
  rw [hcontent] at hlength
  omega

/-- A constructor reads the header only, and does not throw if the list deals it. -/
theorem construct_isSome_iff (kind : Kind) (content : Bytes) (garbage : ℕ → UInt8) :
    (construct kind content garbage).isSome ↔ (run dealing readHeader content).isSome := by
  rw [construct_eq, Option.isSome_map]
  constructor
  · intro h
    obtain ⟨⟨header, s⟩, hrun⟩ := Option.isSome_iff_exists.mp h
    obtain ⟨rest, hdeal, -⟩ := dealing_readHeader hrun
    rw [hdeal]
    rfl
  · intro h
    obtain ⟨⟨header, rest⟩, hdeal⟩ := Option.isSome_iff_exists.mp h
    obtain ⟨s, hrun, -⟩ := run_of_dealing (follows_start kind content garbage) hdeal
    rw [hrun]
    rfl

/-- The readers agree on a content when its overrun is detected, and outside the last lengths
before 2^32, where a counted read may wrap the count past the size, only then. -/
theorem overrunDetected_iff_sameOutcome (content : Bytes) :
    (OverrunDetected content → SameOutcome content) ∧
      (content.length + 2 ^ 16 ≤ 2 ^ 32 ∨ 2 ^ 32 ≤ content.length + 1 →
        SameOutcome content → OverrunDetected content) := by
  constructor
  · intro hdetected garbage garbage'
    refine ⟨by rw [construct_isSome_iff, construct_isSome_iff], ?_⟩
    cases hmemory : parsed .memory content garbage' with
    | some result =>
        obtain ⟨s', hfile⟩ := parsed_file_of_memory hmemory garbage
        rw [hfile]
        rfl
    | none =>
        cases hfile : parsed .file content garbage with
        | none => rfl
        | some result =>
            have hparsed := parsed_memory_of_file hdetected (by rw [hfile]; rfl) garbage'
            rw [hmemory] at hparsed
            cases hparsed
  · intro hlength hsame e he
    by_contra hoverrun
    have hfile := parsed_file_of_extent he (by omega)
    have hequal := congrArg Option.isSome (hsame (fun _ => 0) (fun _ => 0)).2
    rw [Option.isSome_map, Option.isSome_map, hfile] at hequal
    have htotal := (parsed_memory_of_extent he fun _ => 0).mp hequal.symm
    exact hoverrun (.inl htotal)

/-- A class file that ends after two of the four bytes of its only attribute. -/
def truncatedBody : Bytes :=
  headerBytes false 0 52 ++ (u2Bytes false 1 ++ List.replicate 12 0 ++
    [0, 1, 0, 0, 0, 0, 0, 4, 7, 7])

example : fileExtent truncatedBody = some ⟨30, 4⟩ ∧ truncatedBody.length = 32 := by decide

/-- The file reader accepts it with a body padded by zeros. -/
theorem truncatedBody_not_sameOutcome :
    ¬∀ content : Bytes, 0 < content.length → SameOutcome content := by
  intro h
  have hequal := (h truncatedBody (by decide) (fun _ => 0) (fun _ => 0)).2
  revert hequal
  decide

end Tarracsh.ReaderAgreement
