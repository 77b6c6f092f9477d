import Tarracsh.PoolAlignment

/-!
# The extent of a class file

How far a class file reaches is told by its own bytes: by the tags and lengths
in its pool and by the counts and lengths behind it. Bytes that are not there
are taken as zeros. The walk keeps apart the bodies of attributes, which alone
are not read by `readRaw`.

A `FileReader` that gets through the content, past its end or not, has counted
at least what the walk counts: whatever an uninitialised variable holds, it asks
for no less than zeros do.
-/
namespace Tarracsh.ClassFileExtent
open ByteStrings QueryTrees StreamReads ParsedClass ClassFileReader ClassFileParser
open ClassFileFormat ReaderRefinement PoolAlignment

/-- The bytes outside attribute bodies, and those in them. -/
@[ext] structure Extent where
  counted : ℕ
  bodies : ℕ
  deriving DecidableEq, Repr

namespace Extent

instance : Zero Extent := ⟨⟨0, 0⟩⟩

instance : Add Extent := ⟨fun e e' => ⟨e.counted + e'.counted, e.bodies + e'.bodies⟩⟩

def total (e : Extent) : ℕ := e.counted + e.bodies

@[simp] theorem counted_zero : (0 : Extent).counted = 0 := rfl

@[simp] theorem total_zero : (0 : Extent).total = 0 := rfl

@[simp] theorem counted_add (e e' : Extent) : (e + e').counted = e.counted + e'.counted := rfl

@[simp] theorem bodies_add (e e' : Extent) : (e + e').bodies = e.bodies + e'.bodies := rfl

@[simp] theorem total_add (e e' : Extent) : (e + e').total = e.total + e'.total :=
  Nat.add_add_add_comm _ _ _ _

theorem add_assoc (e e' e'' : Extent) : e + e' + e'' = e + (e' + e'') :=
  Extent.ext (Nat.add_assoc _ _ _) (Nat.add_assoc _ _ _)

theorem add_zero (e : Extent) : e + 0 = e := rfl

theorem zero_add (e : Extent) : 0 + e = e := Extent.ext (Nat.zero_add _) (Nat.zero_add _)

theorem counted_add_counted (m n : ℕ) : (⟨m, 0⟩ : Extent) + ⟨n, 0⟩ = ⟨m + n, 0⟩ := rfl

end Extent

section Walk

/-- The first `n` bytes, with zeros for those that are not there. -/
def padded (n : ℕ) (bytes : Bytes) : Bytes := bytes.take n ++ List.replicate (n - bytes.length) 0

variable (isBigEndian : Bool)

def u2At (bytes : Bytes) : ℕ := (toU2 isBigEndian (padded 2 bytes)).toNat

def u4At (bytes : Bytes) : ℕ := (toU4 isBigEndian (padded 4 bytes)).toNat

/-- So many parts, one behind the other. -/
def repeatedExtent (part : Bytes → Extent) : ℕ → Bytes → Extent
  | 0, _ => 0
  | n + 1, bytes => part bytes + repeatedExtent part n (bytes.drop (part bytes).total)

/-- A two-byte count and as many parts. -/
def listExtent (part : Bytes → Extent) (bytes : Bytes) : Extent :=
  ⟨2, 0⟩ + repeatedExtent part (u2At isBigEndian bytes) (bytes.drop 2)

def followedBy (first second : Bytes → Extent) (bytes : Bytes) : Extent :=
  first bytes + second (bytes.drop (first bytes).total)

/-- The name, the length and the body of an attribute. -/
def attributeExtent (bytes : Bytes) : Extent := ⟨6, u4At isBigEndian (bytes.drop 2)⟩

/-- The flags, the name and the descriptor of a field or a method, and its
attributes. -/
def memberExtent : Bytes → Extent :=
  followedBy (fun _ => ⟨6, 0⟩) (listExtent isBigEndian (attributeExtent isBigEndian))

/-- What stands behind the constant pool. -/
def sectionsExtent : Bytes → Extent :=
  followedBy (fun _ => ⟨6, 0⟩) (followedBy (listExtent isBigEndian fun _ => ⟨2, 0⟩)
    (followedBy (listExtent isBigEndian (memberExtent isBigEndian))
      (followedBy (listExtent isBigEndian (memberExtent isBigEndian))
        (listExtent isBigEndian (attributeExtent isBigEndian)))))

/-- The bytes after a tag. -/
def payloadLength (t : ConstantPoolTag) (bytes : Bytes) : ℕ :=
  (payloadSize isBigEndian t (padded 2 bytes)).getD 0

/-- The length of the entries for so many slots, unless a tag is unknown. A Long
or Double in the last slot counts as any other entry. -/
def poolLength : ℕ → Bytes → Option ℕ
  | 0, _ => some 0
  | slots + 1, bytes => do
      let t ← ConstantPoolTag.ofByte (bytes.headD 0)
      let length := 1 + payloadLength isBigEndian t bytes.tail
      let rest ← if isWideTag t then
          match slots with
          | 0 => some 0
          | slots + 1 => poolLength slots (bytes.drop length)
        else poolLength slots (bytes.drop length)
      some (length + rest)

/-- The extent of the class file that a content begins with or is the beginning
of, unless the magic number or a tag in the pool is unknown. -/
def fileExtent (content : Bytes) : Option Extent :=
  let magic := hostU4 (padded 4 content)
  let isBigEndian := magic == 0xcafebabe
  if isBigEndian || magic == swapLong 0xcafebabe then do
    let pool ← poolLength isBigEndian (u2At isBigEndian (content.drop 8) - 1) (content.drop 10)
    some (⟨10 + pool, 0⟩ + sectionsExtent isBigEndian (content.drop (10 + pool)))
  else none

end Walk

section Streams

/-- A `FileReader` with `left` still to deliver. -/
structure FileAt (s : Stream) (left : Bytes) : Prop where
  file : s.kind = .file
  follows : Follows s left

variable {s s' s'' : Stream} {left : Bytes} {q : Request}

theorem fileAt_start (content : Bytes) (garbage : ℕ → UInt8) :
    FileAt (start .file content garbage) content :=
  ⟨rfl, follows_start .file content garbage⟩

/-- `ifstream::read` delivers what is left and keeps the rest of the destination. -/
theorem FileAt.readBytes (h : FileAt s left) (q : Request) :
    s.readBytes q = some (left.take q.count ++ (s.destination q).drop left.length,
      { s.drawn q with position := s.position + min q.count left.length }) := by
  have hdrop : (s.destination q).drop (min q.count left.length) =
      (s.destination q).drop left.length := by
    rcases Nat.le_total q.count left.length with hle | hle
    · rw [Nat.min_eq_left hle, List.drop_eq_nil_of_le (by simp),
        List.drop_eq_nil_of_le (by simpa using hle)]
    · rw [Nat.min_eq_right hle]
  simp only [Stream.readBytes, h.file, h.follows.rest, List.length_take, hdrop]

/-- The count after a request. -/
def countAfter (s : Stream) (q : Request) : UInt32 :=
  if q.counted then s.bytesRead + UInt32.ofNat q.count else s.bytesRead

/-- The size check of `readRaw` lets the request through. -/
def Fits (s : Stream) (q : Request) : Prop :=
  q.counted = true → (s.bytesRead + UInt32.ofNat q.count).toNat ≤ s.content.length

theorem FileAt.serve_of_fits (h : FileAt s left) (hq : Fits s q) :
    s.serve q = some (left.take q.count ++ (s.destination q).drop left.length,
      { s.drawn q with
        position := s.position + min q.count left.length
        bytesRead := countAfter s q }) := by
  cases hc : q.counted with
  | true =>
      have hsize : ¬s.content.length < (s.bytesRead + UInt32.ofNat q.count).toNat :=
        Nat.not_lt.mpr (hq hc)
      rw [Stream.serve, if_pos hc, Stream.readRaw, if_neg hsize, h.readBytes q, countAfter,
        if_pos hc]
      rfl
  | false =>
      rw [Stream.serve, if_neg (by simp [hc]), h.readBytes q, countAfter, if_neg (by simp [hc]),
        ← drawn_bytesRead s q]

theorem fits_of_serve {a : Bytes} (hserve : s.serve q = some (a, s')) :
    Fits s q := by
  intro hc
  by_contra hover
  rw [Stream.serve, if_pos hc, Stream.readRaw, if_pos (Nat.lt_of_not_le hover)] at hserve
  cases hserve

theorem FileAt.advanced (h : FileAt s left) (hq : Fits s q) :
    FileAt { s.drawn q with
      position := s.position + min q.count left.length
      bytesRead := countAfter s q } (left.drop q.count) := by
  have hlength := h.follows.length
  have hcounted := h.follows.counted
  refine ⟨(drawn_kind s q).trans h.file, ⟨?_, ?_, ?_⟩⟩
  · change (s.drawn q).content.drop (s.position + min q.count left.length) = left.drop q.count
    rw [drawn_content, ← List.drop_drop, h.follows.rest]
    rcases Nat.le_total q.count left.length with hle | hle
    · rw [Nat.min_eq_left hle]
    · rw [Nat.min_eq_right hle, List.drop_length, List.drop_eq_nil_of_le hle]
  · change s.position + min q.count left.length ≤ (s.drawn q).content.length
    rw [drawn_content]
    omega
  · change (countAfter s q).toNat ≤ s.position + min q.count left.length
    unfold countAfter
    split
    · rename_i hc
      have hsum := toNat_add_ofNat_le s.bytesRead q.count
      have hsize := hq hc
      omega
    · omega

/-- A reader that has come from `s` to `s'` past `e`, with `left` to deliver
before. Where the 32-bit count cannot wrap it has counted at least as much. -/
structure Passed (s s' : Stream) (left : Bytes) (e : Extent) : Prop where
  at_rest : FileAt s' (left.drop e.total)
  content : s'.content = s.content
  counted : s.content.length + 2 ^ 16 ≤ 2 ^ 32 → s.bytesRead.toNat + e.counted ≤ s'.bytesRead.toNat

theorem Passed.refl (h : FileAt s left) : Passed s s left 0 := ⟨h, rfl, fun _ => le_rfl⟩

theorem Passed.trans {e e' : Extent} (h : Passed s s' left e)
    (h' : Passed s' s'' (left.drop e.total) e') : Passed s s'' left (e + e') := by
  refine ⟨?_, h'.content.trans h.content, fun hsmall => ?_⟩
  · rw [Extent.total_add, ← List.drop_drop]
    exact h'.at_rest
  · have hfirst := h.counted hsmall
    have hsecond := h'.counted (by rwa [h.content])
    rw [Extent.counted_add]
    omega

/-- Behind the end, less may be asked for. -/
theorem Passed.mono {e e' : Extent} (h : Passed s s' [] e) (hle : e'.counted ≤ e.counted) :
    Passed s s' [] e' := by
  refine ⟨?_, h.content, fun hsmall => (Nat.add_le_add_left hle _).trans (h.counted hsmall)⟩
  have hrest := h.at_rest
  rwa [List.drop_nil] at hrest ⊢

/-- The bytes that a request asks for. -/
def requestExtent (q : Request) : Extent := if q.counted then ⟨q.count, 0⟩ else ⟨0, q.count⟩

@[simp] theorem total_requestExtent (q : Request) : (requestExtent q).total = q.count := by
  unfold requestExtent Extent.total
  split <;> simp

/-- No counted request asks for 2^16 bytes or more. -/
def Narrow (q : Request) : Prop := q.counted = true → q.count < 2 ^ 16

theorem FileAt.passed_serve (h : FileAt s left) (hq : Narrow q) {a : Bytes}
    (hserve : s.serve q = some (a, s')) :
    a = left.take q.count ++ (s.destination q).drop left.length ∧
      Passed s s' left (requestExtent q) := by
  have hfits := fits_of_serve hserve
  rw [h.serve_of_fits hfits] at hserve
  obtain ⟨rfl, rfl⟩ := Prod.mk.inj (Option.some.inj hserve)
  refine ⟨rfl, ?_, drawn_content s q, fun hsmall => ?_⟩
  · rw [total_requestExtent]
    exact h.advanced hfits
  · change _ ≤ (countAfter s q).toNat
    unfold countAfter requestExtent
    split
    · rename_i hc
      have hcount := hq hc
      have hlength := h.follows.length
      have hcounted := h.follows.counted
      rw [UInt32.toNat_add, UInt32.toNat_ofNat', Nat.mod_eq_of_lt (by omega : q.count < 2 ^ 32)]
      rw [Nat.mod_eq_of_lt (by omega)]
    · exact le_rfl

end Streams

section Spans
variable {R V : Type}

/-- A server that deals zeros behind the end. -/
def zeroing (q : Request) (s : Bytes × Extent) : Option (Bytes × (Bytes × Extent)) :=
  some (padded q.count s.1, (s.1.drop q.count, s.2 + requestExtent q))

/-- A `FileReader` that gets through the reads has passed at least the extent, with a
result of the kind. -/
def Least (t : Reads R) (left : Bytes) (e : Extent) (P : R → Prop) : Prop :=
  ∀ ⦃s r s'⦄, FileAt s left → run Stream.serve t s = some (r, s') → Passed s s' left e ∧ P r

/-- With zeros behind the end the reads take just the extent. -/
def Zeros (t : Reads R) (left : Bytes) (e : Extent) (r : R) : Prop :=
  ∀ e₀, run zeroing t (left, e₀) = some (r, (left.drop e.total, e₀ + e))

/-- The reads take the extent that stands there, whatever they return. -/
structure Spans (t : Reads R) (extent : Bytes → Extent) : Prop where
  least : ∀ left, Least t left (extent left) fun _ => True
  zeros : ∀ left, ∃ r, Zeros t left (extent left) r

variable {t : Reads R} {f : R → Reads V} {left : Bytes} {e e' : Extent} {r : R} {v : V}
  {P : R → Prop} {P' : V → Prop} {extent extent' : Bytes → Extent}

theorem Least.pure {P : R → Prop} (h : P r) : Least (Pure.pure r : Reads R) left 0 P := by
  intro s r' s' hs hrun
  obtain ⟨rfl, rfl⟩ := Prod.mk.inj (Option.some.inj hrun)
  exact ⟨Passed.refl hs, h⟩

theorem Least.bind (ht : Least t left e P)
    (hf : ∀ r, P r → Least (f r) (left.drop e.total) e' P') : Least (t >>= f) left (e + e') P' := by
  intro s v s'' hs hrun
  rw [run_bind] at hrun
  obtain ⟨⟨r, s'⟩, hfirst, hsecond⟩ := Option.bind_eq_some_iff.mp hrun
  obtain ⟨hpassed, hr⟩ := ht hs hfirst
  obtain ⟨hpassed', hv⟩ := hf r hr hpassed.at_rest hsecond
  exact ⟨hpassed.trans hpassed', hv⟩

theorem Least.ask {q : Request} (hq : Narrow q) {g : Bytes → R}
    (hP : ∀ a : Bytes, a.length = q.count → (q.zeroed = true → a = padded q.count left) →
      a.take left.length = left.take q.count → P (g a)) :
    Least (.ask q fun a => Pure.pure (g a)) left (requestExtent q) P := by
  intro s r s' hs hrun
  rw [run_ask] at hrun
  obtain ⟨⟨a, s₁⟩, hserve, hpure⟩ := Option.bind_eq_some_iff.mp hrun
  obtain ⟨rfl, rfl⟩ := Prod.mk.inj (Option.some.inj hpure)
  obtain ⟨rfl, hpassed⟩ := hs.passed_serve hq hserve
  refine ⟨hpassed, hP _ ?_ (fun hz => ?_) ?_⟩
  · rw [List.length_append, List.length_take, List.length_drop, destination_length]
    omega
  · rw [Stream.destination, if_pos hz, List.drop_replicate]
    rfl
  · rcases Nat.le_total q.count left.length with hle | hle
    · rw [List.drop_eq_nil_of_le (by simpa using hle), List.append_nil,
        List.take_of_length_le (by simp)]
    · rw [List.take_of_length_le hle]
      exact List.take_left

theorem Zeros.pure (r : R) : Zeros (Pure.pure r : Reads R) left 0 r := fun _ => rfl

theorem Zeros.bind (ht : Zeros t left e r) (hf : Zeros (f r) (left.drop e.total) e' v) :
    Zeros (t >>= f) left (e + e') v := by
  intro e₀
  rw [run_bind, ht e₀, Option.bind_some, hf, List.drop_drop, Extent.total_add, Extent.add_assoc]

/-- The last step of a sequence reads nothing. -/
theorem Least.map {g : R → V} (ht : Least t left e P) (hg : ∀ r, P r → P' (g r)) :
    Least (t >>= fun r => Pure.pure (g r)) left e P' := by
  rw [← Extent.add_zero e]
  exact ht.bind fun r hr => .pure (hg r hr)

theorem Zeros.map (ht : Zeros t left e r) (g : R → V) :
    Zeros (t >>= fun r => Pure.pure (g r)) left e (g r) := by
  rw [← Extent.add_zero e]
  exact ht.bind (.pure (g r))

theorem Zeros.ask (q : Request) (g : Bytes → R) :
    Zeros (.ask q fun a => Pure.pure (g a)) left (requestExtent q) (g (padded q.count left)) := by
  intro e₀
  rw [run_ask, zeroing, Option.bind_some, run_pure, total_requestExtent]

theorem Spans.congr (h : Spans t extent) (hsame : ∀ left, extent left = extent' left) :
    Spans t extent' := by
  obtain rfl : extent = extent' := funext hsame
  exact h

theorem Spans.pure (r : R) : Spans (Pure.pure r : Reads R) fun _ => 0 :=
  ⟨fun _ => .pure trivial, fun _ => ⟨r, .pure r⟩⟩

theorem Spans.ask {q : Request} (hq : Narrow q) (g : Bytes → R) :
    Spans (.ask q fun a => Pure.pure (g a)) fun _ => requestExtent q :=
  ⟨fun _ => .ask hq fun _ _ _ _ => trivial, fun _ => ⟨_, .ask q g⟩⟩

theorem Spans.bind (ht : Spans t extent) (hf : ∀ r, Spans (f r) extent') :
    Spans (t >>= f) (followedBy extent extent') := by
  refine ⟨fun left => (ht.least left).bind fun r _ => (hf r).least _, fun left => ?_⟩
  obtain ⟨r, hr⟩ := ht.zeros left
  obtain ⟨v, hv⟩ := (hf r).zeros (left.drop (extent left).total)
  exact ⟨v, hr.bind hv⟩

theorem Spans.map (ht : Spans t extent) (g : R → V) :
    Spans (t >>= fun r => Pure.pure (g r)) extent :=
  ⟨fun left => (ht.least left).map fun _ _ => trivial, fun left =>
    (ht.zeros left).elim fun r hr => ⟨g r, hr.map g⟩⟩

theorem Spans.assoc {W : Type} {g : V → Reads W} (h : Spans ((t >>= f) >>= g) extent) :
    Spans (t >>= fun r => f r >>= g) extent := by
  refine ⟨fun left s r s' hs hrun => h.least left hs (by rwa [run_bind_assoc] at hrun),
    fun left => ?_⟩
  obtain ⟨w, hw⟩ := h.zeros left
  exact ⟨w, fun e₀ => by rw [run_bind_assoc, hw]⟩

/-- As many parts as zeros ask for, or behind the end more. -/
theorem Spans.least_repeated (ht : Spans t extent) {m n : ℕ} (hle : n ≤ m)
    (hmore : m = n ∨ left = []) :
    Least (repeated m t) left (repeatedExtent extent n left) fun _ => True := by
  induction m generalizing n left with
  | zero =>
      obtain rfl : n = 0 := Nat.le_zero.mp hle
      exact .pure trivial
  | succ m ih =>
      cases n with
      | zero =>
          obtain rfl : left = [] := hmore.resolve_left (Nat.succ_ne_zero m)
          intro s r s' hs hrun
          have hall : Least (repeated (m + 1) t) [] (extent [] + 0) fun _ => True :=
            (ht.least []).bind fun _ _ =>
              (ih (Nat.zero_le m) (.inr List.drop_nil)).map fun _ _ => trivial
          exact ⟨(hall hs hrun).1.mono (Nat.zero_le _), trivial⟩
      | succ n =>
          have hrest : m = n ∨ left.drop (extent left).total = [] :=
            hmore.imp Nat.succ.inj fun hnil => by rw [hnil, List.drop_nil]
          exact (ht.least left).bind fun _ _ =>
            (ih (Nat.le_of_succ_le_succ hle) hrest).map fun _ _ => trivial

theorem Spans.zeros_repeated (ht : Spans t extent) (n : ℕ) (left : Bytes) :
    ∃ rs, Zeros (repeated n t) left (repeatedExtent extent n left) rs := by
  induction n generalizing left with
  | zero => exact ⟨[], .pure []⟩
  | succ n ih =>
      obtain ⟨r, hr⟩ := ht.zeros left
      obtain ⟨rs, hrs⟩ := ih (left.drop (extent left).total)
      exact ⟨r :: rs, hr.bind (hrs.map (r :: ·))⟩

end Spans

section Sections
variable {R V : Type} {isBigEndian : Bool} {left : Bytes}

theorem toU2_pair_toNat (a b : UInt8) : (toU2 isBigEndian [a, b]).toNat =
    if isBigEndian then a.toNat + 256 * b.toNat else b.toNat + 256 * a.toNat := by
  rw [toU2_toNat isBigEndian rfl]
  cases isBigEndian <;> simp [ascending, ofLittleEndian]

/-- Zeros behind the end make the smallest count. -/
theorem u2At_le {a : Bytes} (hlength : a.length = 2) (hleft : a.take left.length = left.take 2) :
    u2At isBigEndian left ≤ (toU2 isBigEndian a).toNat ∧
      ((toU2 isBigEndian a).toNat = u2At isBigEndian left ∨ left.drop 2 = []) := by
  obtain ⟨x, y, rfl⟩ := List.length_eq_two.mp hlength
  match left with
  | [] =>
      have hzero : u2At isBigEndian [] = 0 := by cases isBigEndian <;> rfl
      exact ⟨hzero ▸ Nat.zero_le _, .inr rfl⟩
  | [b] =>
      obtain rfl : x = b := List.cons.inj hleft |>.1
      refine ⟨?_, .inr rfl⟩
      change (toU2 isBigEndian [x, 0]).toNat ≤ _
      rw [toU2_pair_toNat, toU2_pair_toNat]
      split <;> simp
  | b :: b' :: rest =>
      obtain ⟨rfl, hrest⟩ := List.cons.inj hleft
      obtain ⟨rfl, -⟩ := List.cons.inj hrest
      have hsame : u2At isBigEndian (x :: y :: rest) = (toU2 isBigEndian [x, y]).toNat := by
        simp [u2At, padded]
      exact ⟨hsame.le, .inl hsame.symm⟩

theorem spans_read2 : Spans (read2 isBigEndian) fun _ => ⟨2, 0⟩ :=
  .ask (fun _ => by decide) _

theorem spans_readU1 : Spans readU1 fun _ => ⟨1, 0⟩ := .ask (fun _ => by decide) _

theorem spans_readU2 : Spans (readU2 isBigEndian) fun _ => ⟨2, 0⟩ := .ask (fun _ => by decide) _

theorem spans_readU4 : Spans (readU4 isBigEndian) fun _ => ⟨4, 0⟩ := .ask (fun _ => by decide) _

theorem least_readU2 : Least (readU2 isBigEndian) left ⟨2, 0⟩ fun count =>
    u2At isBigEndian left ≤ count.toNat ∧
      (count.toNat = u2At isBigEndian left ∨ left.drop 2 = []) :=
  .ask (q := ⟨2, true, false⟩) (fun _ => by decide) fun _ hlength _ hleft => u2At_le hlength hleft

theorem zeros_readU2 :
    Zeros (readU2 isBigEndian) left ⟨2, 0⟩ (toU2 isBigEndian (padded 2 left)) :=
  .ask ⟨2, true, false⟩ _

/-- A count and the parts that it announces. -/
theorem Spans.list {t : Reads R} {part : Bytes → Extent} (ht : Spans t part) :
    Spans (readU2 isBigEndian >>= fun count => repeated count.toNat t)
      (listExtent isBigEndian part) := by
  refine ⟨fun left => ?_, fun left => ?_⟩
  · exact least_readU2.bind fun _ hcount => ht.least_repeated hcount.1 hcount.2
  · obtain ⟨rs, hrs⟩ := ht.zeros_repeated (u2At isBigEndian left) (left.drop 2)
    exact ⟨rs, zeros_readU2.bind hrs⟩

theorem spans_readInfo (length : UInt32) : Spans (readInfo length) fun _ => ⟨0, length.toNat⟩ := by
  unfold readInfo
  split_ifs with hpos
  · exact .ask (q := ⟨length.toNat, false, true⟩) (fun h => nomatch h) _
  · obtain rfl : length = 0 := UInt32.le_zero_iff.mp (UInt32.not_lt.mp hpos)
    exact .pure []

/-- Name and length of an attribute are read into zeros. -/
theorem spans_readAttribute (owner : AttributeOwner) :
    Spans (readAttribute isBigEndian owner) (attributeExtent isBigEndian) := by
  have hextent : ∀ left, attributeExtent isBigEndian left =
      ⟨2, 0⟩ + (⟨4, 0⟩ + ⟨0, (toU4 isBigEndian (padded 4 (left.drop 2))).toNat⟩) := fun _ =>
    Extent.ext rfl ((Nat.zero_add _).trans (Nat.zero_add _)).symm
  refine ⟨fun left => ?_, fun left => ?_⟩
  · rw [hextent]
    refine (spans_read2.least left).bind fun _ _ => ?_
    refine Least.bind (P := fun length => length = toU4 isBigEndian (padded 4 (left.drop 2)))
      (.ask (q := ⟨4, true, true⟩) (fun _ => by decide) fun _ _ hzeroed _ => by
        rw [hzeroed rfl]; rfl)
      fun length hlength => ?_
    rw [← hlength]
    exact ((spans_readInfo length).least _).map fun _ _ => trivial
  · rw [hextent]
    have hword : Spans (read2 isBigEndian) fun _ => ⟨2, 0⟩ := spans_read2
    obtain ⟨name, hname⟩ := hword.zeros left
    obtain ⟨info, hinfo⟩ := (spans_readInfo (toU4 isBigEndian (padded 4 (left.drop 2)))).zeros
      ((left.drop 2).drop 4)
    exact ⟨_, hname.bind (.bind (.ask ⟨4, true, true⟩ _) (hinfo.map _))⟩

theorem spans_attributes (owner : AttributeOwner) :
    Spans (readU2 isBigEndian >>= fun count => readAttributesSection isBigEndian count owner)
      (listExtent isBigEndian (attributeExtent isBigEndian)) :=
  (spans_readAttribute owner).list

/-- Three words before the rest. -/
theorem followedBy_words (extent : Bytes → Extent) (left : Bytes) :
    followedBy (fun _ => ⟨2, 0⟩)
      (followedBy (fun _ => ⟨2, 0⟩) (followedBy (fun _ => ⟨2, 0⟩) extent)) left =
        followedBy (fun _ => ⟨6, 0⟩) extent left := by
  simp only [followedBy, Extent.total, Nat.add_zero, List.drop_drop, ← Extent.add_assoc,
    Extent.counted_add_counted]

theorem spans_readField : Spans (readField isBigEndian) (memberExtent isBigEndian) := by
  refine Spans.congr (spans_read2.bind fun accessFlags => spans_read2.bind fun nameIndex =>
    spans_read2.bind fun descriptorIndex => ?_) (followedBy_words _)
  exact ((spans_attributes .field).map (FieldInfo.mk accessFlags nameIndex descriptorIndex)).assoc

theorem spans_readMethod : Spans (readMethod isBigEndian) (memberExtent isBigEndian) := by
  refine Spans.congr (spans_readU2.bind fun accessFlags => spans_readU2.bind fun nameIndex =>
    spans_readU2.bind fun descriptorIndex => ?_) (followedBy_words _)
  exact ((spans_attributes .method).map (FieldInfo.mk accessFlags nameIndex descriptorIndex)).assoc

theorem spans_readMainClassInfo : Spans (readMainClassInfo isBigEndian) fun _ => ⟨6, 0⟩ :=
  (spans_readU2.bind fun _ => spans_readU2.bind fun _ => spans_readU2.map _).congr fun _ => rfl

theorem spans_readSections (constantPool : PoolStructures.ConstantPool) :
    Spans (readSections isBigEndian constantPool) (sectionsExtent isBigEndian) :=
  spans_readMainClassInfo.bind fun _ => spans_read2.list.bind fun _ => spans_readField.list.bind
    fun _ => spans_readMethod.list.bind fun _ => (spans_attributes .classFile).map _

end Sections

section Pool
variable {isBigEndian : Bool} {left : Bytes}

theorem padded_length (n : ℕ) (bytes : Bytes) : (padded n bytes).length = n := by
  rw [padded, List.length_append, List.length_take, List.length_replicate]
  omega

theorem payloadLength_utf8 (bytes : Bytes) :
    payloadLength isBigEndian .utf8 bytes = 2 + u2At isBigEndian bytes := by
  rw [payloadLength, payloadSize, List.take_of_length_le (padded_length 2 bytes).le]
  rfl

theorem Least.exhausted {R : Type} {t : Reads R} {e e' : Extent} {P : R → Prop}
    (ht : Least t [] e P) (hle : e'.counted ≤ e.counted) : Least t [] e' P :=
  fun _ _ _ hs hrun => ⟨(ht hs hrun).1.mono hle, (ht hs hrun).2⟩

theorem spans_readString (length : UInt16) :
    Spans (readString length) fun _ => ⟨length.toNat, 0⟩ :=
  .ask (q := ⟨length.toNat, true, true⟩) (fun _ => length.toNat_lt) id

/-- A length and a string of this length. -/
theorem spans_utf8 :
    Spans (readU2 isBigEndian >>= readString) fun bytes => ⟨2 + u2At isBigEndian bytes, 0⟩ := by
  refine ⟨fun left => ?_, fun left => ?_⟩
  · change Least _ left (⟨2, 0⟩ + ⟨u2At isBigEndian left, 0⟩) _
    refine least_readU2.bind fun length hlength => ?_
    have hstring := (spans_readString length).least (left.drop 2)
    rcases hlength with ⟨hle, hsame | hnil⟩
    · rwa [hsame] at hstring
    · change Least _ (left.drop 2) _ _
      rw [hnil] at hstring ⊢
      exact hstring.exhausted hle
  · obtain ⟨value, hvalue⟩ := (spans_readString (toU2 isBigEndian (padded 2 left))).zeros
      (left.drop 2)
    exact ⟨value, zeros_readU2.bind hvalue⟩

theorem spans_u2Pair {V : Type} (g : UInt16 → UInt16 → V) :
    Spans (readU2 isBigEndian >>= fun x => readU2 isBigEndian >>= fun y => pure (g x y))
      fun _ => ⟨4, 0⟩ :=
  (spans_readU2.bind fun x => spans_readU2.map (g x)).congr fun _ => rfl

theorem spans_u4Pair {V : Type} (g : UInt32 → UInt32 → V) :
    Spans (readU4 isBigEndian >>= fun x => readU4 isBigEndian >>= fun y => pure (g x y))
      fun _ => ⟨8, 0⟩ :=
  (spans_readU4.bind fun x => spans_readU4.map (g x)).congr fun _ => rfl

/-- An entry is a tag and its payload, which moves the index on by one if it is wide. -/
theorem exists_payloads (isBigEndian : Bool) (index : ℕ) (pool : PoolStructures.ConstantPool) :
    ∃ payload : UInt8 → Reads (ℕ × PoolStructures.ConstantPool),
      readConstPoolEntry isBigEndian index pool = readU1 >>= payload ∧
      (∀ tag, ConstantPoolTag.ofByte tag = none → payload tag = .stuck) ∧
      ∀ tag t, ConstantPoolTag.ofByte tag = some t →
        Spans (payload tag) (fun bytes => ⟨payloadLength isBigEndian t bytes, 0⟩) ∧
        Yields (fun entry => entry.1 = index + if isWideTag t then 1 else 0) (payload tag) := by
  refine ⟨_, rfl, fun tag htag => by simp only [htag], fun tag t htag => ?_⟩
  simp only [htag]
  cases t with
  | empty => exact ⟨.pure _, rfl⟩
  | unicode => exact ⟨.pure _, rfl⟩
  | utf8 =>
      refine ⟨(spans_utf8.map fun value => (index, addRecord pool (.utf8Info value))).assoc.congr
        fun bytes => ?_, fun _ _ => rfl⟩
      rw [payloadLength_utf8]
  | integer => exact ⟨spans_readU4.map _, fun _ => rfl⟩
  | float => exact ⟨spans_readU4.map _, fun _ => rfl⟩
  | long => exact ⟨spans_u4Pair _, fun _ _ => rfl⟩
  | double => exact ⟨spans_u4Pair _, fun _ _ => rfl⟩
  | «class» => exact ⟨spans_readU2.map _, fun _ => rfl⟩
  | string => exact ⟨spans_readU2.map _, fun _ => rfl⟩
  | fieldref => exact ⟨spans_u2Pair _, fun _ _ => rfl⟩
  | methodref => exact ⟨spans_u2Pair _, fun _ _ => rfl⟩
  | interfaceMethodref => exact ⟨spans_u2Pair _, fun _ _ => rfl⟩
  | nameAndType => exact ⟨spans_u2Pair _, fun _ _ => rfl⟩
  | methodHandle =>
      exact ⟨(spans_readU1.bind fun _ => spans_readU2.map _).congr fun _ => rfl, fun _ _ => rfl⟩
  | methodType => exact ⟨spans_readU2.map _, fun _ => rfl⟩
  | dynamic => exact ⟨spans_u2Pair _, fun _ _ => rfl⟩
  | invokeDynamic => exact ⟨spans_u2Pair _, fun _ _ => rfl⟩
  | «module» => exact ⟨spans_readU2.map _, fun _ => rfl⟩
  | package => exact ⟨spans_readU2.map _, fun _ => rfl⟩

theorem least_readU1 : Least readU1 left ⟨1, 0⟩ fun tag =>
    left = [] ∨ ∃ rest, left = tag :: rest := by
  refine .ask (q := ⟨1, true, false⟩) (fun _ => by decide) fun a hlength _ hleft => ?_
  obtain ⟨tag, rfl⟩ := List.length_eq_one_iff.mp hlength
  cases left with
  | nil => exact .inl rfl
  | cons b rest =>
      obtain rfl : tag = b := List.cons.inj hleft |>.1
      exact .inr ⟨rest, rfl⟩

theorem zeros_readU1 : Zeros readU1 left ⟨1, 0⟩ (left.headD 0) := by
  have htag : (padded 1 left).headD 0 = left.headD 0 := by cases left <;> rfl
  rw [← htag]
  exact .ask ⟨1, true, false⟩ _

/-- A tag of zero has no payload. -/
theorem poolLength_nil (slots : ℕ) : poolLength isBigEndian slots [] = some slots := by
  induction slots with
  | zero => rfl
  | succ slots ih =>
      have htag : ConstantPoolTag.ofByte (([] : Bytes).headD 0) = some .empty := rfl
      have hlength : payloadLength isBigEndian .empty ([] : Bytes).tail = 0 := rfl
      rw [poolLength, htag, Option.bind_eq_bind, Option.bind_some]
      simp only [hlength, isWideTag, Bool.false_eq_true, if_false, List.drop_nil, ih,
        Option.bind_eq_bind, Option.bind_some, Nat.add_comm]

/-- One entry of the walk. -/
theorem poolLength_succ (isBigEndian : Bool) {bytes : Bytes} {t : ConstantPoolTag}
    (ht : ConstantPoolTag.ofByte (bytes.headD 0) = some t) (slots : ℕ) :
    poolLength isBigEndian (slots + 1) bytes =
      (poolLength isBigEndian (slots - if isWideTag t then 1 else 0)
        (bytes.tail.drop (payloadLength isBigEndian t bytes.tail))).map
          (1 + payloadLength isBigEndian t bytes.tail + ·) := by
  rw [poolLength, ht, Option.bind_eq_bind, Option.bind_some, ← List.drop_one, List.drop_drop]
  cases isWideTag t with
  | false =>
      simp only [Bool.false_eq_true, if_false, Nat.sub_zero]
      cases poolLength isBigEndian slots _ <;> rfl
  | true =>
      cases slots with
      | zero => rfl
      | succ slots =>
          simp only [if_true, Nat.add_sub_cancel]
          cases poolLength isBigEndian slots _ <;> rfl

/-- The second slot of a wide entry stands for at least one byte. -/
theorem wide_le_payloadLength (isBigEndian : Bool) (t : ConstantPoolTag) (bytes : Bytes) :
    (if isWideTag t then 1 else 0) ≤ payloadLength isBigEndian t bytes := by
  cases t with
  | long => exact Nat.succ_le_succ (Nat.zero_le 7)
  | double => exact Nat.succ_le_succ (Nat.zero_le 7)
  | _ => exact Nat.zero_le _

/-- One turn of the loop. -/
theorem readEntries_succ {count fuel index : ℕ} (hlt : index < count)
    (pool : PoolStructures.ConstantPool) :
    readEntries isBigEndian count (fuel + 1) index pool =
      readConstPoolEntry isBigEndian index pool >>= fun entry =>
        readEntries isBigEndian count fuel (entry.1 + 1) entry.2 := by
  rw [readEntries, if_pos hlt]

/-- A file reader that gets through an entry has passed its tag and the payload that belongs
to the tag; behind the end the tag may be any. -/
theorem least_readConstPoolEntry {index : ℕ} {pool : PoolStructures.ConstantPool} {s s' : Stream}
    {entry : ℕ × PoolStructures.ConstantPool} (hs : FileAt s left)
    (hrun : run Stream.serve (readConstPoolEntry isBigEndian index pool) s = some (entry, s')) :
    ∃ t, (ConstantPoolTag.ofByte (left.headD 0) = some t ∨ left = []) ∧
      entry.1 = index + (if isWideTag t then 1 else 0) ∧
      Passed s s' left (⟨1, 0⟩ + ⟨payloadLength isBigEndian t left.tail, 0⟩) := by
  obtain ⟨payload, hentry, hstuck, hpayload⟩ := exists_payloads isBigEndian index pool
  rw [hentry, run_bind] at hrun
  obtain ⟨⟨tag, s₁⟩, htag, hbody⟩ := Option.bind_eq_some_iff.mp hrun
  obtain ⟨hpassed, hleft⟩ := least_readU1 hs htag
  cases ht : ConstantPoolTag.ofByte tag with
  | none =>
      rw [hstuck tag ht] at hbody
      cases hbody
  | some t =>
      obtain ⟨hspans, hyields⟩ := hpayload tag t ht
      have hpassed' := hpassed.trans (hspans.least _ hpassed.at_rest hbody).1
      refine ⟨t, ?_, hyields.of_run hbody, ?_⟩
      · rcases hleft with rfl | ⟨rest, rfl⟩
        · exact .inr rfl
        · exact .inl ht
      · rw [← List.drop_one]
        exact hpassed'

theorem zeros_readConstPoolEntry (isBigEndian : Bool) {t : ConstantPoolTag}
    (ht : ConstantPoolTag.ofByte (left.headD 0) = some t) (index : ℕ)
    (pool : PoolStructures.ConstantPool) :
    ∃ entry : ℕ × PoolStructures.ConstantPool, entry.1 = index + (if isWideTag t then 1 else 0) ∧
      Zeros (readConstPoolEntry isBigEndian index pool) left
        (⟨1, 0⟩ + ⟨payloadLength isBigEndian t left.tail, 0⟩) entry := by
  obtain ⟨payload, hentry, -, hpayload⟩ := exists_payloads isBigEndian index pool
  obtain ⟨hspans, hyields⟩ := hpayload _ t ht
  obtain ⟨entry, hbody⟩ := hspans.zeros (left.drop 1)
  refine ⟨entry, hyields.of_run (hbody 0), ?_⟩
  rw [hentry, ← List.drop_one]
  exact zeros_readU1.bind hbody

theorem drop_entry (left : Bytes) (n : ℕ) :
    left.drop ((⟨1, 0⟩ : Extent) + ⟨n, 0⟩).total = left.tail.drop n := by
  rw [Extent.total_add, ← List.drop_drop, ← List.drop_one]
  rfl

/-- The loop passes at least the entries of the walk; behind the end a tag takes a byte for
each slot. -/
theorem least_readEntries {count fuel index slots : ℕ} {pool : PoolStructures.ConstantPool}
    (hfuel : count ≤ index + fuel) (hslots : slots ≤ count - index)
    (hmore : slots = count - index ∨ left = []) {s s' : Stream} {r : PoolStructures.ConstantPool}
    (hs : FileAt s left)
    (hrun : run Stream.serve (readEntries isBigEndian count fuel index pool) s = some (r, s')) :
    ∃ length, poolLength isBigEndian slots left = some length ∧ Passed s s' left ⟨length, 0⟩ := by
  induction fuel generalizing index slots pool left s with
  | zero =>
      obtain rfl : slots = 0 := by omega
      obtain ⟨-, rfl⟩ := Prod.mk.inj (Option.some.inj hrun)
      exact ⟨0, rfl, Passed.refl hs⟩
  | succ fuel ih =>
      by_cases hlt : index < count
      · rw [readEntries_succ hlt, run_bind] at hrun
        obtain ⟨⟨⟨index', pool'⟩, s₁⟩, hentry, hrest⟩ := Option.bind_eq_some_iff.mp hrun
        obtain ⟨t, ht, hindex, hpassed⟩ := least_readConstPoolEntry hs hentry
        have hleft := hpassed.at_rest
        rw [drop_entry] at hleft
        have hwide := wide_le_payloadLength isBigEndian t left.tail
        rcases eq_or_ne left [] with rfl | hne
        · generalize (if isWideTag t then 1 else 0) = w at hindex hwide
          rw [List.tail_nil, List.drop_nil] at hleft
          obtain ⟨length, hlength, hpassed'⟩ := ih (by omega)
            (by omega : slots - (1 + w) ≤ count - (index' + 1)) (.inr rfl) hleft hrest
          obtain rfl : slots - (1 + w) = length :=
            Option.some.inj ((poolLength_nil _).symm.trans hlength)
          rw [← List.drop_nil] at hpassed'
          refine ⟨slots, poolLength_nil slots, (hpassed.trans hpassed').mono ?_⟩
          simp only [Extent.counted_add]
          omega
        · have hall : slots = count - index := hmore.resolve_right hne
          have hcons := poolLength_succ isBigEndian (ht.resolve_right hne)
          generalize (if isWideTag t then 1 else 0) = w at hindex hwide hcons
          obtain ⟨k, rfl⟩ : ∃ k, slots = k + 1 := Nat.exists_eq_add_one.mpr (by omega)
          obtain ⟨length, hlength, hpassed'⟩ := ih (by omega)
            (by omega : k - w ≤ count - (index' + 1)) (.inl (by omega)) hleft hrest
          rw [← drop_entry] at hpassed'
          exact ⟨1 + payloadLength isBigEndian t left.tail + length,
            by rw [hcons, hlength, Option.map_some], hpassed.trans hpassed'⟩
      · obtain rfl : slots = 0 := by omega
        rw [readEntries, if_neg hlt] at hrun
        obtain ⟨-, rfl⟩ := Prod.mk.inj (Option.some.inj hrun)
        exact ⟨0, rfl, Passed.refl hs⟩

theorem zeros_readEntries {count fuel index length : ℕ} (pool : PoolStructures.ConstantPool)
    (hfuel : count ≤ index + fuel)
    (hlength : poolLength isBigEndian (count - index) left = some length) :
    ∃ r, Zeros (readEntries isBigEndian count fuel index pool) left ⟨length, 0⟩ r := by
  induction fuel generalizing index pool left length with
  | zero =>
      rw [Nat.sub_eq_zero_of_le (by omega)] at hlength
      obtain rfl : 0 = length := Option.some.inj hlength
      exact ⟨pool, .pure pool⟩
  | succ fuel ih =>
      by_cases hlt : index < count
      · obtain ⟨k, hk⟩ : ∃ k, count - index = k + 1 := Nat.exists_eq_add_one.mpr (by omega)
        rw [hk] at hlength
        -- behind the end the walk takes a tag of zero
        obtain ⟨t, ht⟩ : ∃ t, ConstantPoolTag.ofByte (left.headD 0) = some t := by
          rw [poolLength] at hlength
          obtain ⟨t, ht, -⟩ := Option.bind_eq_some_iff.mp hlength
          exact ⟨t, ht⟩
        obtain ⟨⟨index', pool'⟩, hindex, hentry⟩ := zeros_readConstPoolEntry isBigEndian ht
          index pool
        rw [poolLength_succ isBigEndian ht] at hlength
        obtain ⟨rest, hrest, rfl⟩ := Option.map_eq_some_iff.mp hlength
        have hslots : k - (if isWideTag t then 1 else 0) = count - (index' + 1) := by omega
        rw [hslots, ← drop_entry] at hrest
        obtain ⟨r, hr⟩ := ih pool' (by omega) hrest
        have hloop : Zeros (readConstPoolEntry isBigEndian index pool >>= fun entry =>
            readEntries isBigEndian count fuel (entry.1 + 1) entry.2) left
              (⟨1, 0⟩ + ⟨payloadLength isBigEndian t left.tail, 0⟩ + ⟨rest, 0⟩) r := hentry.bind hr
        refine ⟨r, ?_⟩
        rw [readEntries_succ hlt]
        exact hloop
      · rw [Nat.sub_eq_zero_of_le (Nat.le_of_not_lt hlt)] at hlength
        obtain rfl : 0 = length := Option.some.inj hlength
        rw [readEntries, if_neg hlt]
        exact ⟨pool, .pure pool⟩

end Pool

section Files
variable {isBigEndian : Bool} {left : Bytes}

/-- The constant pool and what stands behind it. -/
theorem least_processFile {s s' : Stream} {c : ClassFile} (hs : FileAt s left)
    (hrun : run Stream.serve (processFile isBigEndian) s = some (c, s')) :
    ∃ pool, poolLength isBigEndian (u2At isBigEndian left - 1) (left.drop 2) = some pool ∧
      Passed s s' left (⟨2 + pool, 0⟩ + sectionsExtent isBigEndian (left.drop (2 + pool))) := by
  rw [processFile, readConstantsPool, run_bind, run_bind, Option.bind_assoc] at hrun
  obtain ⟨⟨count, s₁⟩, hcount, hrun⟩ := Option.bind_eq_some_iff.mp hrun
  obtain ⟨⟨constantPool, s₂⟩, hpool, hsections⟩ := Option.bind_eq_some_iff.mp hrun
  obtain ⟨hpassed, hcounts⟩ := least_readU2 hs hcount
  have hle : u2At isBigEndian left ≤ count.toNat := hcounts.1
  have hslots : u2At isBigEndian left - 1 ≤ count.toNat - 1 := Nat.sub_le_sub_right hle 1
  obtain ⟨pool, hlength, hpassed'⟩ := least_readEntries (Nat.le_add_left _ _) hslots
    (hcounts.2.imp_left fun hsame => by rw [← hsame]) hpassed.at_rest hpool
  exact ⟨pool, hlength, (hpassed.trans hpassed').trans
    ((spans_readSections constantPool).least _ (hpassed.trans hpassed').at_rest hsections).1⟩

theorem zeros_processFile {pool : ℕ}
    (hlength : poolLength isBigEndian (u2At isBigEndian left - 1) (left.drop 2) = some pool) :
    ∃ c, Zeros (processFile isBigEndian) left
      (⟨2 + pool, 0⟩ + sectionsExtent isBigEndian (left.drop (2 + pool))) c := by
  obtain ⟨constantPool, hpool⟩ := zeros_readEntries emptyPool (Nat.le_add_left _ 1) hlength
  have hsections : Spans (readSections isBigEndian constantPool) (sectionsExtent isBigEndian) :=
    spans_readSections constantPool
  obtain ⟨c, hc⟩ := hsections.zeros (left.drop (2 + pool))
  have hconstants : Zeros (readU2 isBigEndian >>= fun count =>
      readEntries isBigEndian count.toNat count.toNat 1 emptyPool) left (⟨2, 0⟩ + ⟨pool, 0⟩)
        constantPool := zeros_readU2.bind hpool
  exact ⟨c, hconstants.bind hc⟩

/-- The first four bytes are a magic number. -/
def isMagic (content : Bytes) : Bool :=
  hostU4 (padded 4 content) == 0xcafebabe || hostU4 (padded 4 content) == swapLong 0xcafebabe

/-- `readHeader` behind the magic number. -/
def readVersions (bytes : Bytes) : Reads Header :=
  let magic := hostU4 bytes
  let isBigEndian := magic == 0xcafebabe
  let isValidHeader := isBigEndian || magic == swapLong 0xcafebabe
  if isValidHeader then
    readU2 isBigEndian >>= fun minorVersion => readU2 isBigEndian >>= fun majorVersion =>
      pure ⟨⟨magic, minorVersion, majorVersion⟩, isBigEndian, isValidHeader⟩
  else pure ⟨⟨magic, 0, 0⟩, isBigEndian, isValidHeader⟩

theorem readHeader_eq : readHeader = .ask ⟨4, true, true⟩ pure >>= readVersions := rfl

theorem readVersions_of_magic {content : Bytes} (hvalid : isMagic content = true) :
    readVersions (padded 4 content) =
      let isBigEndian := hostU4 (padded 4 content) == 0xcafebabe
      readU2 isBigEndian >>= fun minorVersion => readU2 isBigEndian >>= fun majorVersion =>
        pure ⟨⟨hostU4 (padded 4 content), minorVersion, majorVersion⟩, isBigEndian, true⟩ := by
  rw [isMagic] at hvalid
  simp only [readVersions, hvalid, if_true]

theorem readVersions_of_not_magic {content : Bytes} (hvalid : isMagic content = false) :
    readVersions (padded 4 content) = pure ⟨⟨hostU4 (padded 4 content), 0, 0⟩,
      hostU4 (padded 4 content) == 0xcafebabe, false⟩ := by
  rw [isMagic] at hvalid
  simp only [readVersions, hvalid, Bool.false_eq_true, if_false]

/-- The magic number is read into zeros. -/
theorem least_magic (content : Bytes) :
    Least (.ask ⟨4, true, true⟩ pure) content ⟨4, 0⟩ fun bytes => bytes = padded 4 content :=
  .ask (q := ⟨4, true, true⟩) (fun _ => by decide) fun _ _ hzeroed _ => hzeroed rfl

theorem least_readHeader {content : Bytes} (hvalid : isMagic content = true) :
    Least readHeader content ⟨8, 0⟩ fun header => header.isValidHeader = true ∧
      header.isBigEndian = (hostU4 (padded 4 content) == 0xcafebabe) := by
  have hheader : Least (.ask ⟨4, true, true⟩ pure >>= readVersions) content (⟨4, 0⟩ + ⟨4, 0⟩)
      fun header => header.isValidHeader = true ∧
        header.isBigEndian = (hostU4 (padded 4 content) == 0xcafebabe) := by
    refine (least_magic content).bind fun bytes hbytes => ?_
    rw [hbytes, readVersions_of_magic hvalid]
    exact (spans_readU2.least _).bind fun _ _ =>
      (spans_readU2.least _).map fun _ _ => ⟨rfl, rfl⟩
  rw [readHeader_eq]
  exact hheader

theorem least_readHeader_of_not_magic {content : Bytes} (hvalid : isMagic content = false) :
    Least readHeader content ⟨4, 0⟩ fun header => header.isValidHeader = false := by
  have hheader : Least (.ask ⟨4, true, true⟩ pure >>= readVersions) content (⟨4, 0⟩ + 0)
      fun header => header.isValidHeader = false := by
    refine (least_magic content).bind fun bytes hbytes => ?_
    rw [hbytes, readVersions_of_not_magic hvalid]
    exact .pure rfl
  rw [readHeader_eq]
  exact hheader

theorem zeros_readHeader {content : Bytes} (hvalid : isMagic content = true) :
    ∃ header : Header, Zeros readHeader content ⟨8, 0⟩ header ∧ header.isValidHeader = true ∧
      header.isBigEndian = (hostU4 (padded 4 content) == 0xcafebabe) := by
  have hmagic : Zeros (.ask ⟨4, true, true⟩ pure) content ⟨4, 0⟩ (padded 4 content) :=
    .ask ⟨4, true, true⟩ id
  obtain ⟨header, hversions, hheader⟩ : ∃ header : Header,
      Zeros (readVersions (padded 4 content)) (content.drop 4) (⟨2, 0⟩ + ⟨2, 0⟩) header ∧
        header.isValidHeader = true ∧
          header.isBigEndian = (hostU4 (padded 4 content) == 0xcafebabe) := by
    rw [readVersions_of_magic hvalid]
    exact ⟨_, zeros_readU2.bind (zeros_readU2.map _), rfl, rfl⟩
  rw [readHeader_eq]
  exact ⟨header, hmagic.bind hversions, hheader⟩

/-- A class file is a header and what stands behind it. -/
theorem fileExtent_eq (content : Bytes) :
    fileExtent content =
      let isBigEndian := hostU4 (padded 4 content) == 0xcafebabe
      if isMagic content then
        (poolLength isBigEndian (u2At isBigEndian (content.drop 8) - 1)
          ((content.drop 8).drop 2)).map fun pool =>
            ⟨8, 0⟩ + (⟨2 + pool, 0⟩ +
              sectionsExtent isBigEndian ((content.drop 8).drop (2 + pool)))
      else none := by
  simp only [fileExtent, isMagic, List.drop_drop, Option.bind_eq_bind]
  split
  · rw [Option.map_eq_bind]
    refine congrArg (Option.bind _) (funext fun pool => ?_)
    rw [Function.comp_apply, ← Extent.add_assoc, Extent.counted_add_counted, ← Nat.add_assoc]
  · rfl

/-- A file reader that accepts a content has passed its extent. -/
theorem least_readClassFile {content : Bytes} {s s' : Stream} {c : ClassFile}
    (hs : FileAt s content) (hrun : run Stream.serve readClassFile s = some (c, s')) :
    ∃ e, fileExtent content = some e ∧ Passed s s' content e := by
  rw [readClassFile, run_bind] at hrun
  obtain ⟨⟨header, s₁⟩, hheader, hfile⟩ := Option.bind_eq_some_iff.mp hrun
  cases hvalid : isMagic content with
  | true =>
      obtain ⟨hpassed, hheaderValid, hbig⟩ := least_readHeader hvalid hs hheader
      rw [if_pos hheaderValid, hbig] at hfile
      obtain ⟨pool, hpool, hpassed'⟩ := least_processFile hpassed.at_rest hfile
      refine ⟨_, ?_, hpassed.trans hpassed'⟩
      rw [fileExtent_eq]
      simp only [hvalid, if_true]
      exact Option.map_eq_some_iff.mpr ⟨pool, hpool, rfl⟩
  | false =>
      obtain ⟨-, hheaderValid⟩ := least_readHeader_of_not_magic hvalid hs hheader
      rw [if_neg (by simp [hheaderValid])] at hfile
      cases hfile

theorem zeros_readClassFile {content : Bytes} {e : Extent} (he : fileExtent content = some e) :
    ∃ c, Zeros readClassFile content e c := by
  rw [fileExtent_eq] at he
  cases hvalid : isMagic content with
  | true =>
      simp only [hvalid, if_true] at he
      obtain ⟨pool, hpool, rfl⟩ := Option.map_eq_some_iff.mp he
      obtain ⟨header, hheader, hheaderValid, hbig⟩ := zeros_readHeader hvalid
      obtain ⟨c, hc⟩ := zeros_processFile hpool
      refine ⟨c, hheader.bind ?_⟩
      rw [if_pos hheaderValid, hbig]
      exact hc
  | false =>
      simp only [hvalid, Bool.false_eq_true, if_false] at he
      cases he

end Files

end Tarracsh.ClassFileExtent
