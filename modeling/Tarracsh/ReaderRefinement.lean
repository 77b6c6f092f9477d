import Tarracsh.ClassFileParser

/-!
# Readers as servers of a byte list

Both readers deal the bytes of their content in order as long as enough of
them are left: the byte count of `readRaw` never exceeds the position, so its
size check lets every such read through, also after the count has wrapped. A
`MemoryReader` refuses every other read and is therefore exactly the reference
server of the list.
-/
namespace Tarracsh.ReaderRefinement
open ByteStrings QueryTrees StreamReads ParsedClass ClassFileReader ClassFileParser

/-- The stream still has the bytes `left` to deliver. -/
structure Follows (s : Stream) (left : Bytes) : Prop where
  rest : s.content.drop s.position = left
  position : s.position ≤ s.content.length
  counted : s.bytesRead.toNat ≤ s.position

/-- The reference server of byte lists. -/
abbrev dealing : Request → Bytes → Option (Bytes × Bytes) := fromList Request.count

theorem follows_start (kind : Kind) (content : Bytes) (garbage : ℕ → UInt8) :
    Follows (start kind content garbage) content :=
  ⟨rfl, Nat.zero_le _, le_rfl⟩

theorem Follows.length {s : Stream} {left : Bytes} (h : Follows s left) :
    s.content.length = s.position + left.length := by
  have hposition := h.position
  rw [← h.rest, List.length_drop]
  omega

theorem toNat_add_ofNat_le (v : UInt32) (n : ℕ) : (v + UInt32.ofNat n).toNat ≤ v.toNat + n := by
  rw [UInt32.toNat_add, UInt32.toNat_ofNat']
  exact (Nat.mod_le _ _).trans (Nat.add_le_add_left (Nat.mod_le _ _) _)

@[simp] theorem drawn_kind (s : Stream) (q : Request) : (s.drawn q).kind = s.kind := by
  unfold Stream.drawn
  split <;> rfl

@[simp] theorem drawn_content (s : Stream) (q : Request) : (s.drawn q).content = s.content := by
  unfold Stream.drawn
  split <;> rfl

@[simp] theorem drawn_bytesRead (s : Stream) (q : Request) :
    (s.drawn q).bytesRead = s.bytesRead := by
  unfold Stream.drawn
  split <;> rfl

@[simp] theorem destination_length (s : Stream) (q : Request) :
    (s.destination q).length = q.count := by
  unfold Stream.destination
  split <;> simp

/-- A read of bytes that are left, by either reader. -/
theorem readBytes_of_le {s : Stream} {left : Bytes} (h : Follows s left) {q : Request}
    (hq : q.count ≤ left.length) :
    s.readBytes q =
      some (left.take q.count, { s.drawn q with position := s.position + q.count }) := by
  have hlength := h.length
  have htake : (left.take q.count).length = q.count := by
    rw [List.length_take, Nat.min_eq_left hq]
  cases hkind : s.kind with
  | memory =>
      have hroom : ¬s.content.length < s.position + q.count := by omega
      simp [Stream.readBytes, hkind, hroom, h.rest]
  | file =>
      have hnone : (s.destination q).drop q.count = [] := List.drop_eq_nil_of_le (by simp)
      simp only [Stream.readBytes, hkind, h.rest, htake, hnone, List.append_nil]

/-- The size check of `readRaw` passes whenever the bytes are there. -/
theorem serve_of_le {s : Stream} {left : Bytes} (h : Follows s left) {q : Request}
    (hq : q.count ≤ left.length) :
    ∃ s', s.serve q = some (left.take q.count, s') ∧ s'.kind = s.kind ∧
      s'.content = s.content ∧ Follows s' (left.drop q.count) := by
  have hlength := h.length
  have hcounted := h.counted
  have hsum := toNat_add_ofNat_le s.bytesRead q.count
  have hrest : s.content.drop (s.position + q.count) = left.drop q.count := by
    rw [← h.rest, List.drop_drop]
  cases hc : q.counted with
  | true =>
      have hsize : ¬s.content.length < (s.bytesRead + UInt32.ofNat q.count).toNat := by omega
      have hserve : s.serve q = s.readRaw q := by simp [Stream.serve, hc]
      rw [hserve, Stream.readRaw, if_neg hsize, readBytes_of_le h hq]
      refine ⟨_, rfl, by simp, by simp, ⟨?_, ?_, ?_⟩⟩
      · simpa using hrest
      · simp only [drawn_content]
        omega
      · change (s.bytesRead + UInt32.ofNat q.count).toNat ≤ s.position + q.count
        omega
  | false =>
      have hserve : s.serve q = s.readBytes q := by simp [Stream.serve, hc]
      rw [hserve, readBytes_of_le h hq]
      refine ⟨_, rfl, by simp, by simp, ⟨?_, ?_, ?_⟩⟩
      · simpa using hrest
      · simp only [drawn_content]
        omega
      · simp only [drawn_bytesRead]
        omega

theorem serve_memory_eq_none {s : Stream} {left : Bytes} (h : Follows s left)
    (hkind : s.kind = .memory) {q : Request} (hq : left.length < q.count) : s.serve q = none := by
  have hlength := h.length
  have hbytes : s.readBytes q = none := by
    have hover : s.content.length < s.position + q.count := by omega
    simp [Stream.readBytes, hkind, hover]
  unfold Stream.serve Stream.readRaw
  rw [hbytes]
  split
  · split <;> rfl
  · rfl

/-- While no body has been read and the count has not wrapped, the count is the
position, and then the size check refuses what is not there. -/
theorem serve_exact {s : Stream} {left : Bytes} (h : Follows s left)
    (hexact : s.bytesRead.toNat = s.position) {q : Request} (hc : q.counted = true)
    (hsmall : s.position + q.count < 2 ^ 32) {a : Bytes} {s' : Stream}
    (hserve : s.serve q = some (a, s')) :
    q.count ≤ left.length ∧ a = left.take q.count ∧ s'.content = s.content ∧
      Follows s' (left.drop q.count) ∧ s'.bytesRead.toNat = s'.position ∧
      s'.position = s.position + q.count := by
  have hlength := h.length
  have hsum : (s.bytesRead + UInt32.ofNat q.count).toNat = s.position + q.count := by
    rw [UInt32.toNat_add, UInt32.toNat_ofNat', hexact]
    omega
  have hraw : s.readRaw q = some (a, s') := by simpa [Stream.serve, hc] using hserve
  have hle : q.count ≤ left.length := by
    unfold Stream.readRaw at hraw
    split at hraw
    · cases hraw
    · omega
  obtain ⟨s₁, hserve₁, -, hcontent, hfollows⟩ := serve_of_le h hle
  rw [hserve] at hserve₁
  cases hserve₁
  have hposition : s'.position = s.position + q.count := by
    have := hfollows.length
    rw [hcontent, List.length_drop] at this
    omega
  have hbytesRead : s'.bytesRead = s.bytesRead + UInt32.ofNat q.count := by
    unfold Stream.readRaw at hraw
    split at hraw
    · cases hraw
    · obtain ⟨answer, -, hanswer⟩ := Option.map_eq_some_iff.mp hraw
      exact (congrArg (fun result => result.2.bytesRead) hanswer).symm
  exact ⟨hle, rfl, hcontent, hfollows, by rw [hbytesRead, hsum, hposition], hposition⟩

variable {R : Type}

/-- Every run on the list is a run of either reader. -/
theorem run_of_dealing {t : Reads R} {s : Stream} {left : Bytes} {r : R} {rest : Bytes}
    (h : Follows s left) (hrun : run dealing t left = some (r, rest)) :
    ∃ s', run Stream.serve t s = some (r, s') ∧ s'.kind = s.kind ∧ s'.content = s.content ∧
      Follows s' rest := by
  have hstep : ∀ q (bs : Bytes) (s₁ : Stream) a (bs' : Bytes),
      (s₁.kind = s.kind ∧ s₁.content = s.content ∧ Follows s₁ bs) →
      dealing q bs = some (a, bs') → ∃ s₂, s₁.serve q = some (a, s₂) ∧
        (s₂.kind = s.kind ∧ s₂.content = s.content ∧ Follows s₂ bs') := by
    intro q bs s₁ a bs' hs₁ hdeal
    simp only [dealing, fromList] at hdeal
    split at hdeal
    · rename_i hle
      cases hdeal
      obtain ⟨s₂, hserve, hkind, hcontent, hfollows⟩ := serve_of_le hs₁.2.2 hle
      exact ⟨s₂, hserve, hkind.trans hs₁.1, hcontent.trans hs₁.2.1, hfollows⟩
    · cases hdeal
  exact run_simulates hstep t ⟨rfl, rfl, h⟩ hrun

/-- Every run of a `MemoryReader` is a run on the list. -/
theorem dealing_of_run {t : Reads R} {s : Stream} {left : Bytes} {r : R} {s' : Stream}
    (h : Follows s left) (hkind : s.kind = .memory)
    (hrun : run Stream.serve t s = some (r, s')) :
    ∃ rest, run dealing t left = some (r, rest) ∧ s'.content = s.content ∧ Follows s' rest := by
  have hstep : ∀ q (s₁ : Stream) (bs : Bytes) a (s₂ : Stream),
      (s₁.kind = .memory ∧ s₁.content = s.content ∧ Follows s₁ bs) →
      s₁.serve q = some (a, s₂) → ∃ bs', dealing q bs = some (a, bs') ∧
        (s₂.kind = .memory ∧ s₂.content = s.content ∧ Follows s₂ bs') := by
    intro q s₁ bs a s₂ hs₁ hserve
    by_cases hle : q.count ≤ bs.length
    · obtain ⟨s₃, hserve', hkind', hcontent', hfollows⟩ := serve_of_le hs₁.2.2 hle
      rw [hserve'] at hserve
      cases hserve
      refine ⟨bs.drop q.count, ?_, hkind'.trans hs₁.1, hcontent'.trans hs₁.2.1, hfollows⟩
      simp [dealing, fromList, hle]
    · rw [serve_memory_eq_none hs₁.2.2 hs₁.1 (Nat.lt_of_not_le hle)] at hserve
      cases hserve
  obtain ⟨rest, hdeal, -, hcontent, hfollows⟩ := run_simulates hstep t ⟨hkind, rfl, h⟩ hrun
  exact ⟨rest, hdeal, hcontent, hfollows⟩

/-- Only `readRaw` requests, of at most `budget` bytes together. -/
def Counted : ℕ → Reads R → Prop
  | _, .done _ => True
  | _, .stuck => True
  | budget, .ask q next =>
      q.counted = true ∧ q.count ≤ budget ∧ ∀ answer, Counted (budget - q.count) (next answer)

/-- As long as only `readRaw` is used, either reader reads what the list deals. -/
theorem dealing_of_counted {t : Reads R} {budget : ℕ} (ht : Counted budget t) {s : Stream}
    {left : Bytes} (h : Follows s left) (hexact : s.bytesRead.toNat = s.position)
    (hsmall : s.position + budget < 2 ^ 32) {r : R} {s' : Stream}
    (hrun : run Stream.serve t s = some (r, s')) :
    ∃ rest, run dealing t left = some (r, rest) ∧ s'.content = s.content ∧ Follows s' rest ∧
      s'.bytesRead.toNat = s'.position ∧ s'.position ≤ s.position + budget := by
  induction t generalizing budget s left with
  | done r' =>
      cases hrun
      exact ⟨left, rfl, rfl, h, hexact, Nat.le_add_right _ _⟩
  | stuck => cases hrun
  | ask q next ih =>
      obtain ⟨hc, hbudget, hnext⟩ := ht
      obtain ⟨⟨a, s₁⟩, hserve, hrun₁⟩ := Option.bind_eq_some_iff.mp hrun
      obtain ⟨hle, rfl, hcontent, hfollows, hexact₁, hposition⟩ :=
        serve_exact h hexact hc (by omega) hserve
      obtain ⟨rest, hdeal, hcontent', hfollows', hexact', hposition'⟩ :=
        ih _ (hnext _) hfollows hexact₁ (by omega) hrun₁
      refine ⟨rest, ?_, hcontent'.trans hcontent, hfollows', hexact', by omega⟩
      have hhead : dealing q left = some (left.take q.count, left.drop q.count) :=
        fromList_of_le hle
      rw [run_ask, hhead, Option.bind_some, hdeal]

theorem counted_readHeader : Counted 8 readHeader := by
  refine ⟨rfl, by decide, fun bytes => ?_⟩
  dsimp only
  split
  · exact ⟨rfl, by decide, fun _ => ⟨rfl, by decide, fun _ => trivial⟩⟩
  · trivial

/-- The header is read from the first bytes of the content, by either reader. -/
theorem dealing_readHeader {kind : Kind} {content : Bytes} {garbage : ℕ → UInt8} {header : Header}
    {s : Stream}
    (hrun : run Stream.serve readHeader (start kind content garbage) = some (header, s)) :
    ∃ rest, run dealing readHeader content = some (header, rest) ∧ s.content = content ∧
      Follows s rest ∧ s.bytesRead.toNat = s.position ∧ s.position ≤ 0 + 8 :=
  dealing_of_counted counted_readHeader (follows_start kind content garbage) rfl
    (show 0 + 8 < 2 ^ 32 by omega) hrun

/-- A whole file as one tree: the constructor's header, then `processFile`. -/
def readClassFile : Reads ClassFile := do
  let header ← readHeader
  if header.isValidHeader then processFile header.isBigEndian else .stuck

/-- What a run over a whole content parses, and the stream after it. -/
def parsed (kind : Kind) (content : Bytes) (garbage : ℕ → UInt8) : Option (ClassFile × Stream) :=
  (construct kind content garbage).bind parse

theorem readHeader_nil (garbage : ℕ → UInt8) (kind : Kind) :
    run Stream.serve readHeader (start kind [] garbage) = none := rfl

/-- An empty content makes both constructors throw. -/
theorem construct_eq (kind : Kind) (content : Bytes) (garbage : ℕ → UInt8) :
    construct kind content garbage =
      (run Stream.serve readHeader (start kind content garbage)).map fun result =>
        ⟨result.1, result.2⟩ := by
  unfold construct
  split
  · rename_i h
    rw [List.length_eq_zero_iff.mp h.2, readHeader_nil]
    rfl
  · rfl

theorem parsed_eq (kind : Kind) (content : Bytes) (garbage : ℕ → UInt8) :
    parsed kind content garbage =
      run Stream.serve readClassFile (start kind content garbage) := by
  rw [parsed, construct_eq, readClassFile, run_bind]
  cases run Stream.serve readHeader (start kind content garbage) with
  | none => rfl
  | some result =>
      obtain ⟨header, s⟩ := result
      simp only [Option.map_some, Option.bind_some, parse]
      cases header.isValidHeader <;> rfl

section Buffers

/-- Two streams over one buffer. -/
def SameBuffer (s t : Stream) : Prop := s.kind = .memory ∧ t = { s with garbage := t.garbage }

theorem SameBuffer.symm {s t : Stream} (h : SameBuffer s t) : SameBuffer t s := by
  obtain ⟨hkind, ht⟩ := h
  rw [ht]
  exact ⟨hkind, rfl⟩

/-- A `MemoryReader` fills its destination or throws. -/
theorem readBytes_sameBuffer {q : Request} {s t : Stream} {a : Bytes} {s' : Stream}
    (h : SameBuffer s t) (hread : s.readBytes q = some (a, s')) :
    ∃ t', t.readBytes q = some (a, t') ∧ SameBuffer s' t' := by
  obtain ⟨hkind, ht⟩ := h
  have hkind' : t.kind = .memory := by rw [ht]; exact hkind
  have hcontent : t.content = s.content := by rw [ht]
  have hposition : t.position = s.position := by rw [ht]
  simp only [Stream.readBytes, hkind] at hread
  split_ifs at hread with hlt
  obtain ⟨rfl, rfl⟩ := Prod.mk.inj (Option.some.inj hread)
  refine ⟨{ t.drawn q with position := t.position + q.count }, ?_, ?_, ?_⟩
  · simp only [Stream.readBytes, hkind', hcontent, hposition, if_neg hlt]
  · unfold Stream.drawn
    split_ifs <;> exact hkind
  · rw [ht]
    unfold Stream.drawn
    split_ifs <;> rfl

theorem serve_sameBuffer (q : Request) (s t : Stream) (a : Bytes) (s' : Stream)
    (h : SameBuffer s t) (hserve : s.serve q = some (a, s')) :
    ∃ t', t.serve q = some (a, t') ∧ SameBuffer s' t' := by
  unfold Stream.serve at hserve ⊢
  split_ifs at hserve ⊢ with hcounted
  · have hcontent : t.content = s.content := by rw [h.2]
    have hcount : t.bytesRead = s.bytesRead := by rw [h.2]
    unfold Stream.readRaw at hserve ⊢
    rw [hcontent, hcount]
    split_ifs at hserve ⊢ with hlt
    obtain ⟨⟨a', s''⟩, hread, hanswer⟩ := Option.map_eq_some_iff.mp hserve
    obtain ⟨t', hread', hsame⟩ := readBytes_sameBuffer h hread
    obtain ⟨rfl, rfl⟩ := Prod.mk.inj hanswer
    refine ⟨_, by rw [hread']; rfl, hsame.1, ?_⟩
    rw [hsame.2]
  · exact readBytes_sameBuffer h hserve

theorem run_sameBuffer {R : Type} (tree : Reads R) {s t : Stream} (h : SameBuffer s t) :
    (run Stream.serve tree s).map Prod.fst = (run Stream.serve tree t).map Prod.fst := by
  ext r
  simp only [Option.map_eq_some_iff, Prod.exists, exists_and_right, exists_eq_right]
  constructor
  · rintro ⟨s', hrun⟩
    obtain ⟨t', hrun', -⟩ := run_simulates serve_sameBuffer tree h hrun
    exact ⟨t', hrun'⟩
  · rintro ⟨t', hrun⟩
    obtain ⟨s', hrun', -⟩ := run_simulates serve_sameBuffer tree h.symm hrun
    exact ⟨s', hrun'⟩

/-- What a `MemoryReader` reads does not depend on uninitialised memory. -/
theorem memory_garbage (content : Bytes) (garbage garbage' : ℕ → UInt8) :
    (construct .memory content garbage).isSome = (construct .memory content garbage').isSome ∧
      (parsed .memory content garbage).map Prod.fst =
        (parsed .memory content garbage').map Prod.fst := by
  have hstart : SameBuffer (start .memory content garbage) (start .memory content garbage') :=
    ⟨rfl, rfl⟩
  constructor
  · have hheader := congrArg Option.isSome (run_sameBuffer readHeader hstart)
    simpa [construct_eq] using hheader
  · rw [parsed_eq, parsed_eq]
    exact run_sameBuffer readClassFile hstart

/-- The constructor throws both times, or `parse()` fails both times, or the same
class is left both times. -/
theorem memory_cases (content : Bytes) (garbage garbage' : ℕ → UInt8) :
    (construct .memory content garbage = none ∧ construct .memory content garbage' = none) ∨
    ∃ reader reader', construct .memory content garbage = some reader ∧
      construct .memory content garbage' = some reader' ∧
      ((parse reader = none ∧ parse reader' = none) ∨
        ∃ c s s', parse reader = some (c, s) ∧ parse reader' = some (c, s')) := by
  obtain ⟨hconstruct, hparsed⟩ := memory_garbage content garbage garbage'
  unfold parsed at hparsed
  cases hreader : construct .memory content garbage with
  | none =>
      rw [hreader, Option.isSome_none, eq_comm, Option.isSome_eq_false_iff,
        Option.isNone_iff_eq_none] at hconstruct
      exact .inl ⟨rfl, hconstruct⟩
  | some reader =>
      rw [hreader] at hconstruct hparsed
      obtain ⟨reader', hreader'⟩ := Option.isSome_iff_exists.mp hconstruct.symm
      rw [hreader', Option.bind_some, Option.bind_some] at hparsed
      refine .inr ⟨reader, reader', rfl, hreader', ?_⟩
      cases hparse : parse reader with
      | none =>
          rw [hparse, Option.map_none, eq_comm, Option.map_eq_none_iff] at hparsed
          exact .inl ⟨rfl, hparsed⟩
      | some result =>
          rw [hparse, Option.map_some, eq_comm, Option.map_eq_some_iff] at hparsed
          obtain ⟨⟨c, s'⟩, hparse', rfl⟩ := hparsed
          exact .inr ⟨_, result.2, s', rfl, hparse'⟩

end Buffers

end Tarracsh.ReaderRefinement
