import Tarracsh.LabelledRuns
import Mathlib.Data.Finset.Card
import Mathlib.Data.List.Dedup
import Mathlib.Data.Finset.Dedup

/-!
# The buffers of a jar

`Processor::run` reads the entries of a jar on one thread and processes them on
another. `_finishedBuffers` is a set of pointers, and `_inProgressBufferCount`
goes down by one for each pointer taken out of it. A null pointer stands for
every entry that could not be read.
-/
namespace Tarracsh.JarBuffers
open LabelledRuns

def MaxConcurrentBuffers : ℤ := 40

/-- Where the reading thread is. -/
inductive Reader (P : Type) where
  | atWait
  | blocked
  | ready
  | holding (buffer : Option P)
  deriving DecidableEq, Repr

/-- The processor between two steps. A buffer is known by the address that
`readAsBinary` returned; `heap` tells which read the memory at an address came
from, `deletions` what each `delete[]` of an address hit, and `finished` are the
buffers of the finished entries that are not reclaimed yet. -/
structure State (E P : Type) where
  entries : List E
  reader : Reader P := .atWait
  queue : List (Option P) := []
  finished : List (Option P) := []
  finishedBuffers : Finset (Option P) := ∅
  inProgressBufferCount : ℤ := 0
  reads : ℕ := 0
  heap : P → Option ℕ := fun _ => none
  deletions : List (Option ℕ) := []

inductive Action where
  | check
  | read
  | submit
  | finish
  deriving DecidableEq, Repr

section Model
variable {E P : Type} [DecidableEq P]

/-- `delete[]`. Null is no memory. -/
def State.delete (s : State E P) : Option P → State E P
  | none => s
  | some p => { s with
      heap := Function.update s.heap p none
      deletions := s.deletions ++ [s.heap p] }

/-- One turn of the loop in `waitForAvailableBuffer`. -/
def State.reclaim (s : State E P) (buffer : Option P) : State E P :=
  { s.delete buffer with
    finished := s.finished.filter (· ≠ buffer)
    finishedBuffers := s.finishedBuffers.erase buffer
    inProgressBufferCount := s.inProgressBufferCount - 1 }

/-- The loop, with any order of the set. -/
inductive Drained : State E P → State E P → Prop
  | empty {s : State E P} : s.finishedBuffers = ∅ → Drained s s
  | next {s t : State E P} {buffer : Option P} : buffer ∈ s.finishedBuffers →
      Drained (s.reclaim buffer) t → Drained s t

variable (readable : E → Bool)

/-- `readAsBinary` returns null for an unreadable entry, and otherwise an address
at which nothing is allocated. -/
def Reads (s : State E P) (e : E) : Option P → Prop
  | none => readable e = false
  | some p => readable e = true ∧ s.heap p = none

/-- The memory after a read. -/
def State.alloc (s : State E P) : Option P → P → Option ℕ
  | none => s.heap
  | some p => Function.update s.heap p (some s.reads)

/-- The condition variable may wake the reader at any time. -/
inductive Step : Action → State E P → State E P → Prop
  | check {s t : State E P} : s.reader = .atWait ∨ s.reader = .blocked → s.entries ≠ [] →
      Drained s t → Step .check s { t with
        reader := if t.inProgressBufferCount < MaxConcurrentBuffers then .ready else .blocked }
  | read {s : State E P} {e : E} {es : List E} {buffer : Option P} : s.reader = .ready →
      s.entries = e :: es → Reads readable s e buffer → Step .read s { s with
        entries := es
        reader := .holding buffer
        inProgressBufferCount := s.inProgressBufferCount + 1
        reads := s.reads + 1
        heap := s.alloc buffer }
  | submit {s : State E P} {buffer : Option P} : s.reader = .holding buffer →
      Step .submit s { s with reader := .atWait, queue := s.queue ++ [buffer] }
  | finish {s : State E P} {buffer : Option P} {queue : List (Option P)} :
      s.queue = buffer :: queue → Step .finish s { s with
        queue := queue
        finished := s.finished ++ [buffer]
        finishedBuffers := insert buffer s.finishedBuffers }

theorem Step.check_eq {readable : E → Bool} {s t u : State E P}
    (hreader : s.reader = .atWait ∨ s.reader = .blocked) (hentries : s.entries ≠ [])
    (hdrained : Drained s t)
    (hu : u = { t with
      reader := if t.inProgressBufferCount < MaxConcurrentBuffers then .ready else .blocked }) :
    Step readable .check s u := by
  rw [hu]
  exact .check hreader hentries hdrained

/-- The buffer that is read and not submitted. -/
def Reader.held : Reader P → List (Option P)
  | .holding buffer => [buffer]
  | _ => []

/-- The buffers of the entries that are read and not reclaimed. -/
def State.pending (s : State E P) : List (Option P) := s.reader.held ++ (s.queue ++ s.finished)

/-- The counter counts the entries that are read and not reclaimed. -/
def Accounted (s : State E P) : Prop := s.inProgressBufferCount = s.pending.length

/-- The reader waits and nobody will wake it. -/
def Stuck (s : State E P) : Prop :=
  s.reader = .blocked ∧ s.queue = [] ∧ s.finishedBuffers = ∅

/-- Every `delete[]` hits a buffer, and no buffer twice. -/
def DeletesOnce (s : State E P) : Prop := none ∉ s.deletions ∧ s.deletions.Nodup

structure Sound (s : State E P) : Prop where
  accounted : Accounted s
  atMost : s.inProgressBufferCount ≤ MaxConcurrentBuffers
  deletesOnce : DeletesOnce s
  notStuck : ¬Stuck s

end Model

section Invariant
variable {E P : Type} [DecidableEq P] {s t : State E P} {buffer : Option P}

/-- What the thread and the worker keep, wherever the reader is. The counter may
exceed the pending entries, but never by all of its range. -/
structure Core (s : State E P) : Prop where
  buffers : s.finishedBuffers = s.finished.toFinset
  atMost : s.inProgressBufferCount ≤ MaxConcurrentBuffers
  enough : (s.pending.length : ℤ) ≤ s.inProgressBufferCount
  excess : s.inProgressBufferCount < s.pending.length + MaxConcurrentBuffers
  live : ∀ p, some p ∈ s.pending → (s.heap p).isSome
  distinct : ∀ p, s.pending.count (some p) ≤ 1
  allocated : ∀ p id, s.heap p = some id → id < s.reads ∧ some id ∉ s.deletions
  injective : ∀ p q id, s.heap p = some id → s.heap q = some id → p = q
  deleted : ∀ x ∈ s.deletions, ∃ id, x = some id ∧ id < s.reads
  nodup : s.deletions.Nodup

/-- The invariant of the processor. -/
structure Inv (s : State E P) : Prop extends Core s where
  ready : s.reader = .ready → s.inProgressBufferCount < MaxConcurrentBuffers
  blocked : s.reader = .blocked → MaxConcurrentBuffers ≤ s.inProgressBufferCount

theorem length_filter_ne (l : List (Option P)) (b : Option P) :
    (l.filter (· ≠ b)).length + l.count b = l.length := by
  have hsplit := List.length_eq_countP_add_countP (· == b) (l := l)
  rw [← List.countP_eq_length_filter, List.count, hsplit, Nat.add_comm]
  congr 1
  apply List.countP_congr
  simp

@[simp] theorem pending_reclaim : (s.reclaim buffer).pending =
    s.reader.held ++ (s.queue ++ s.finished.filter (· ≠ buffer)) := by
  cases buffer <;> rfl

theorem length_pending_reclaim (s : State E P) (buffer : Option P) :
    (s.reclaim buffer).pending.length + s.finished.count buffer = s.pending.length := by
  have hlength := length_filter_ne s.finished buffer
  rw [pending_reclaim]
  simp only [State.pending, List.length_append]
  omega

theorem count_pending_reclaim (s : State E P) (buffer b : Option P) :
    (s.reclaim buffer).pending.count b + (if b = buffer then s.finished.count buffer else 0) =
      s.pending.count b := by
  rw [pending_reclaim]
  simp only [State.pending, List.count_append]
  split_ifs with hb
  · subst hb
    have hzero : (s.finished.filter (· ≠ b)).count b = 0 := by
      apply List.count_eq_zero.mpr
      simp
    omega
  · have hkept : (s.finished.filter (· ≠ buffer)).count b = s.finished.count b := by
      rw [List.count_filter]
      simpa using hb
    omega

theorem Core.mem_finished (h : Core s) (hb : buffer ∈ s.finishedBuffers) :
    buffer ∈ s.finished := by
  rw [h.buffers] at hb
  exact List.mem_toFinset.mp hb

omit [DecidableEq P] in
theorem mem_pending_of_finished (hb : buffer ∈ s.finished) : buffer ∈ s.pending :=
  List.mem_append_right _ (List.mem_append_right _ hb)

/-- A buffer that is reclaimed is not held or queued as well. -/
theorem Core.notMem_reclaim (h : Core s) {p : P} (hp : some p ∈ s.finishedBuffers) :
    some p ∉ (s.reclaim (some p)).pending := by
  have hpositive := List.count_pos_iff.mpr (h.mem_finished hp)
  have hcount := count_pending_reclaim s (some p) (some p)
  have hone := h.distinct p
  rw [if_pos rfl] at hcount
  apply List.count_eq_zero.mp
  omega

theorem mem_of_mem_reclaim {b : Option P} (hb : b ∈ (s.reclaim buffer).pending) :
    b ∈ s.pending := by
  have hcount := count_pending_reclaim s buffer b
  have hpositive := List.count_pos_iff.mpr hb
  apply List.count_pos_iff.mp
  omega

/-- The memory after a turn of the loop. -/
theorem Core.reclaim_heap (h : Core s) (hb : buffer ∈ s.finishedBuffers) :
    (∀ p, some p ∈ (s.reclaim buffer).pending → ((s.reclaim buffer).heap p).isSome) ∧
      (∀ p id, (s.reclaim buffer).heap p = some id →
        s.heap p = some id ∧ some id ∉ (s.reclaim buffer).deletions) ∧
      (∀ x ∈ (s.reclaim buffer).deletions, ∃ id, x = some id ∧ id < s.reads) ∧
      (s.reclaim buffer).deletions.Nodup := by
  cases buffer with
  | none =>
      exact ⟨fun p hp => h.live p (mem_of_mem_reclaim hp),
        fun p id hid => ⟨hid, (h.allocated p id hid).2⟩, h.deleted, h.nodup⟩
  | some q =>
      have hmem := mem_pending_of_finished (h.mem_finished hb)
      obtain ⟨id, hid⟩ := Option.isSome_iff_exists.mp (h.live q hmem)
      have hheap : (s.reclaim (some q)).heap = Function.update s.heap q none := rfl
      have hdeletions : (s.reclaim (some q)).deletions = s.deletions ++ [some id] := by
        rw [← hid]
        rfl
      rw [hheap, hdeletions]
      refine ⟨fun p hp => ?_, fun p id' hid' => ?_, fun x hx => ?_, ?_⟩
      · have hne : p ≠ q := by
          rintro rfl
          exact h.notMem_reclaim hb hp
        rw [Function.update_of_ne hne]
        exact h.live p (mem_of_mem_reclaim hp)
      · by_cases hpq : p = q
        · rw [hpq, Function.update_self] at hid'
          cases hid'
        · rw [Function.update_of_ne hpq] at hid'
          refine ⟨hid', ?_⟩
          rw [List.mem_append, List.mem_singleton, not_or]
          refine ⟨(h.allocated p id' hid').2, fun heq => hpq ?_⟩
          rw [Option.some.inj heq] at hid'
          exact h.injective p q id hid' hid
      · rcases List.mem_append.mp hx with hx | hx
        · exact h.deleted x hx
        · exact ⟨id, List.mem_singleton.mp hx, (h.allocated q id hid).1⟩
      · apply List.nodup_append.mpr
        refine ⟨h.nodup, List.nodup_singleton _, fun x hx y hy hxy => ?_⟩
        rw [List.mem_singleton] at hy
        subst hxy hy
        exact (h.allocated q id hid).2 hx

theorem Core.reclaim (h : Core s) (hb : buffer ∈ s.finishedBuffers) : Core (s.reclaim buffer) := by
  obtain ⟨hlive, hallocated, hdeleted, hnodup⟩ := h.reclaim_heap hb
  have hreads : (s.reclaim buffer).reads = s.reads := by cases buffer <;> rfl
  have hcount : (s.reclaim buffer).inProgressBufferCount = s.inProgressBufferCount - 1 := rfl
  have hlength := length_pending_reclaim s buffer
  have hpositive := List.count_pos_iff.mpr (h.mem_finished hb)
  have hatMost := h.atMost
  have henough := h.enough
  refine
    { buffers := ?_
      atMost := by rw [hcount]; omega
      enough := by rw [hcount]; omega
      excess := by rw [hcount]; omega
      live := hlive
      distinct := fun p => ?_
      allocated := fun p id hid => ?_
      injective := fun p q id hp hq => ?_
      deleted := by rw [hreads]; exact hdeleted
      nodup := hnodup }
  · change s.finishedBuffers.erase buffer = (s.finished.filter (· ≠ buffer)).toFinset
    rw [h.buffers]
    ext b
    simp [and_comm]
  · have hone := h.distinct p
    have hsplit := count_pending_reclaim s buffer (some p)
    omega
  · rw [hreads]
    exact ⟨(h.allocated p id (hallocated p id hid).1).1, (hallocated p id hid).2⟩
  · exact h.injective p q id (hallocated p id hp).1 (hallocated q id hq).1

/-- The loop leaves nothing finished and reads nothing. -/
theorem Drained.spec (h : Drained s t) (hs : Core s) :
    Core t ∧ t.finished = [] ∧ t.entries = s.entries ∧ t.reader = s.reader ∧
      t.queue = s.queue ∧
      t.inProgressBufferCount = s.inProgressBufferCount - s.finishedBuffers.card := by
  induction h with
  | empty hempty =>
      rename_i s
      have hfinished : s.finished = [] := by
        rw [hs.buffers, List.toFinset_eq_empty_iff] at hempty
        exact hempty
      refine ⟨hs, hfinished, rfl, rfl, rfl, ?_⟩
      rw [hempty]
      simp
  | next hb hrest ih =>
      rename_i s t buffer
      obtain ⟨hcore, hfinished, hentries, hreader, hqueue, hcount⟩ := ih (hs.reclaim hb)
      refine ⟨hcore, hfinished, hentries.trans ?_, hreader.trans ?_, hqueue.trans ?_, ?_⟩
      · cases buffer <;> rfl
      · cases buffer <;> rfl
      · cases buffer <;> rfl
      · rw [hcount]
        change s.inProgressBufferCount - 1 - (s.finishedBuffers.erase buffer).card = _
        have hcard := Finset.card_erase_add_one hb
        omega

/-- The pending entries change places. -/
theorem Core.of_perm (h : Core s) (hperm : t.pending.Perm s.pending)
    (hbuffers : t.finishedBuffers = t.finished.toFinset)
    (hcount : t.inProgressBufferCount = s.inProgressBufferCount) (hreads : t.reads = s.reads)
    (hheap : t.heap = s.heap) (hdeletions : t.deletions = s.deletions) : Core t where
  buffers := hbuffers
  atMost := by rw [hcount]; exact h.atMost
  enough := by rw [hcount, hperm.length_eq]; exact h.enough
  excess := by rw [hcount, hperm.length_eq]; exact h.excess
  live p hp := by rw [hheap]; exact h.live p (hperm.mem_iff.mp hp)
  distinct p := by rw [hperm.count_eq]; exact h.distinct p
  allocated := by rw [hheap, hreads, hdeletions]; exact h.allocated
  injective := by rw [hheap]; exact h.injective
  deleted := by rw [hdeletions, hreads]; exact h.deleted
  nodup := by rw [hdeletions]; exact h.nodup

/-- What is allocated has been read before. -/
theorem Core.alloc_injective (h : Core s) (q : P) : ∀ p r id,
    s.alloc (some q) p = some id → s.alloc (some q) r = some id → p = r := by
  intro p r id hp hr
  have hold : ∀ p, s.heap p ≠ some s.reads := fun p hid =>
    Nat.lt_irrefl _ (h.allocated p s.reads hid).1
  change Function.update s.heap q (some s.reads) p = some id at hp
  change Function.update s.heap q (some s.reads) r = some id at hr
  by_cases hpq : p = q <;> by_cases hrq : r = q
  · rw [hpq, hrq]
  · rw [hpq, Function.update_self] at hp
    rw [Function.update_of_ne hrq, ← hp] at hr
    exact absurd hr (hold r)
  · rw [hrq, Function.update_self] at hr
    rw [Function.update_of_ne hpq, ← hr] at hp
    exact absurd hp (hold p)
  · rw [Function.update_of_ne hpq] at hp
    rw [Function.update_of_ne hrq] at hr
    exact h.injective p r id hp hr

/-- The memory after a read. -/
theorem Core.alloc_heap (h : Core s) {readable : E → Bool} {e : E}
    (hreads : Reads readable s e buffer) :
    (∀ p, some p ∈ buffer :: s.pending → (s.alloc buffer p).isSome) ∧
      (∀ p, (buffer :: s.pending).count (some p) ≤ 1) ∧
      (∀ p id, s.alloc buffer p = some id → id < s.reads + 1 ∧ some id ∉ s.deletions) ∧
      (∀ p q id, s.alloc buffer p = some id → s.alloc buffer q = some id → p = q) := by
  have hallocated : ∀ p id, s.heap p = some id → id < s.reads + 1 ∧ some id ∉ s.deletions :=
    fun p id hid => ⟨Nat.lt_succ_of_lt (h.allocated p id hid).1, (h.allocated p id hid).2⟩
  cases buffer with
  | none =>
      refine ⟨fun p hp => ?_, fun p => ?_, hallocated, h.injective⟩
      · rcases List.mem_cons.mp hp with hp | hp
        · cases hp
        · exact h.live p hp
      · rw [List.count_cons_of_ne (by simp)]
        exact h.distinct p
  | some q =>
      have hfree : s.heap q = none := hreads.2
      have halloc : s.alloc (some q) = Function.update s.heap q (some s.reads) := rfl
      refine ⟨fun p hp => ?_, fun p => ?_, fun p id hid => ?_, h.alloc_injective q⟩
      · rw [halloc]
        by_cases hpq : p = q
        · rw [hpq, Function.update_self]
          rfl
        · rw [Function.update_of_ne hpq]
          rcases List.mem_cons.mp hp with hp | hp
          · exact absurd (Option.some.inj hp) hpq
          · exact h.live p hp
      · by_cases hpq : p = q
        · have hunused : some q ∉ s.pending := by
            intro hmem
            have hlive := h.live q hmem
            rw [hfree] at hlive
            cases hlive
          rw [hpq, List.count_cons_self, List.count_eq_zero.mpr hunused]
        · rw [List.count_cons_of_ne fun heq => hpq (Option.some.inj heq).symm]
          exact h.distinct p
      · rw [halloc] at hid
        by_cases hpq : p = q
        · rw [hpq, Function.update_self] at hid
          obtain rfl := Option.some.inj hid
          refine ⟨Nat.lt_succ_self _, fun hmem => ?_⟩
          obtain ⟨id, heq, hlt⟩ := h.deleted _ hmem
          rw [Option.some.inj heq] at hlt
          exact Nat.lt_irrefl _ hlt
        · rw [Function.update_of_ne hpq] at hid
          exact hallocated p id hid

/-- An entry is read. -/
theorem Core.read (h : Core s) {readable : E → Bool} {e : E} {es : List E}
    (hready : s.reader = .ready) (hroom : s.inProgressBufferCount < MaxConcurrentBuffers)
    (hreads : Reads readable s e buffer) :
    Core { s with
      entries := es
      reader := .holding buffer
      inProgressBufferCount := s.inProgressBufferCount + 1
      reads := s.reads + 1
      heap := s.alloc buffer } := by
  have hpending : s.pending = s.queue ++ s.finished := by
    rw [State.pending, hready]
    rfl
  have henough := h.enough
  have hexcess := h.excess
  have hdeleted : ∀ x ∈ s.deletions, ∃ id, x = some id ∧ id < s.reads + 1 := by
    intro x hx
    obtain ⟨id, heq, hlt⟩ := h.deleted x hx
    exact ⟨id, heq, Nat.lt_succ_of_lt hlt⟩
  have hlength : ((buffer :: s.pending).length : ℤ) = s.pending.length + 1 := by simp
  obtain ⟨hlive, hdistinct, hallocated, hinjective⟩ := h.alloc_heap hreads
  rw [hpending] at hlive hdistinct hlength henough hexcess
  exact
    { buffers := h.buffers
      atMost := Int.add_one_le_of_lt hroom
      enough := by
        change ((buffer :: (s.queue ++ s.finished)).length : ℤ) ≤ s.inProgressBufferCount + 1
        omega
      excess := by
        change s.inProgressBufferCount + 1 <
          ((buffer :: (s.queue ++ s.finished)).length : ℤ) + MaxConcurrentBuffers
        omega
      live := hlive
      distinct := hdistinct
      allocated := hallocated
      injective := hinjective
      deleted := hdeleted
      nodup := h.nodup }

/-- A check drains, and then waits or goes on. -/
theorem Inv.check (h : Inv s) (hreader : s.reader = .atWait ∨ s.reader = .blocked)
    (hdrained : Drained s t) :
    Inv { t with reader := if t.inProgressBufferCount < MaxConcurrentBuffers then .ready
                           else .blocked } ∧
      (State.pending { t with reader := if t.inProgressBufferCount < MaxConcurrentBuffers then
        .ready else .blocked }).length = s.queue.length ∧
      s.pending.length = s.queue.length + s.finished.length := by
  obtain ⟨hcore, hfinished, -, hsame, hqueue, -⟩ := hdrained.spec h.toCore
  have hheld : s.reader.held = [] := by rcases hreader with h | h <;> rw [h] <;> rfl
  have hheld' : (if t.inProgressBufferCount < MaxConcurrentBuffers then Reader.ready
      else (Reader.blocked : Reader P)).held = [] := by
    split_ifs <;> rfl
  refine ⟨⟨hcore.of_perm ?_ hcore.buffers rfl rfl rfl rfl, ?_, ?_⟩, ?_, ?_⟩
  · simp only [State.pending, hsame, hheld, hheld']
    exact List.Perm.refl _
  · intro hready
    by_contra hfull
    simp only [if_neg hfull] at hready
    cases hready
  · intro hblocked
    by_contra hfree
    simp only [if_pos (not_le.mp hfree)] at hblocked
    cases hblocked
  · simp only [State.pending, hheld', hfinished, hqueue, List.nil_append, List.append_nil]
  · simp only [State.pending, hheld, List.nil_append, List.length_append]

omit [DecidableEq P] in
theorem pending_submit (hholding : s.reader = .holding buffer) :
    (State.pending { s with reader := .atWait, queue := s.queue ++ [buffer] }).Perm s.pending := by
  simp only [State.pending, hholding, Reader.held, List.nil_append, List.append_assoc]
  exact List.perm_middle

theorem pending_finish {queue : List (Option P)} (hqueue : s.queue = buffer :: queue) :
    (State.pending { s with
      queue := queue
      finished := s.finished ++ [buffer]
      finishedBuffers := insert buffer s.finishedBuffers }).Perm s.pending := by
  rw [State.pending, State.pending, hqueue, ← List.append_assoc _ s.finished]
  apply List.Perm.append_left
  exact List.perm_append_singleton _ _

theorem inv_step {readable : E → Bool} {a : Action} (h : Inv s) (hstep : Step readable a s t) :
    Inv t := by
  cases hstep with
  | check hreader hentries hdrained => exact (h.check hreader hdrained).1
  | read hready hentries hreads =>
      exact ⟨h.toCore.read hready (h.ready hready) hreads, nofun, nofun⟩
  | submit hholding =>
      exact ⟨h.toCore.of_perm (pending_submit hholding) h.buffers rfl rfl rfl rfl, nofun, nofun⟩
  | finish hqueue =>
      refine ⟨h.toCore.of_perm (pending_finish hqueue) ?_ rfl rfl rfl rfl, h.ready, h.blocked⟩
      rw [h.buffers]
      ext b
      simp

/-- The three guarantees that the null buffer does not touch. -/
theorem Inv.notStuck (h : Inv s) : ¬Stuck s := by
  rintro ⟨hblocked, hqueue, hempty⟩
  have hfull := h.blocked hblocked
  have hexcess := h.excess
  rw [h.buffers, List.toFinset_eq_empty_iff] at hempty
  have hnone : s.pending = [] := by
    rw [State.pending, hblocked, hqueue, hempty]
    rfl
  rw [hnone] at hexcess
  simp at hexcess
  omega

theorem Inv.deletesOnce (h : Inv s) : DeletesOnce s := by
  refine ⟨fun hnone => ?_, h.nodup⟩
  obtain ⟨id, heq, -⟩ := h.deleted none hnone
  cases heq

theorem Inv.sound_iff (h : Inv s) : Sound s ↔ Accounted s :=
  ⟨Sound.accounted, fun haccounted => ⟨haccounted, h.atMost, h.deletesOnce, h.notStuck⟩⟩

/-- Only null can be in the list of finished buffers twice. -/
theorem Core.nodup_finished_iff (h : Core s) :
    s.finished.Nodup ↔ s.finished.count none ≤ 1 := by
  rw [List.nodup_iff_count_le_one]
  refine ⟨fun hall => hall none, fun hnone buffer => ?_⟩
  cases buffer with
  | none => exact hnone
  | some p =>
      have hone := h.distinct p
      simp only [State.pending, List.count_append] at hone
      omega

theorem Core.card_finishedBuffers_iff (h : Core s) :
    s.finishedBuffers.card = s.finished.length ↔ s.finished.count none ≤ 1 := by
  rw [← h.nodup_finished_iff, h.buffers]
  exact @Multiset.toFinset_card_eq_card_iff_nodup _ _ (s.finished : Multiset (Option P))

/-- The entries finished since the last check have at most one null buffer. -/
def OneNull (a : Action) (s : State E P) : Prop := a = .check → s.finished.count none ≤ 1

theorem accounted_step {readable : E → Bool} {a : Action} (h : Inv s) (haccounted : Accounted s)
    (hstep : Step readable a s t) : Accounted t ↔ OneNull a s := by
  cases hstep with
  | check hreader hentries hdrained =>
      obtain ⟨-, hlength, hpending⟩ := h.check hreader hdrained
      obtain ⟨-, -, -, -, -, hcount⟩ := hdrained.spec h.toCore
      have hcard := h.card_finishedBuffers_iff
      simp only [OneNull, true_imp_iff, ← hcard]
      rw [Accounted, hlength]
      rw [Accounted, hpending] at haccounted
      dsimp only
      omega
  | read hready hentries hreads =>
      refine iff_of_true ?_ nofun
      simp only [Accounted, State.pending, hready, Reader.held, List.nil_append,
        List.length_append, List.length_singleton] at haccounted ⊢
      omega
  | submit hholding =>
      refine iff_of_true ?_ nofun
      rw [Accounted, (pending_submit hholding).length_eq]
      exact haccounted
  | finish hqueue =>
      refine iff_of_true ?_ nofun
      rw [Accounted, (pending_finish hqueue).length_eq]
      exact haccounted

theorem inv_start (es : List E) : Inv ({ entries := es } : State E P) where
  buffers := rfl
  atMost := by simp [MaxConcurrentBuffers]
  enough := by simp [State.pending, Reader.held]
  excess := by simp [State.pending, Reader.held, MaxConcurrentBuffers]
  live := nofun
  distinct _ := Nat.zero_le 1
  allocated := nofun
  injective := nofun
  deleted := nofun
  nodup := List.nodup_nil
  ready := nofun
  blocked := nofun

end Invariant

/-- In a run over any entries, the accounting is sound in every state exactly when
each check finds at most one null buffer. -/
theorem sound_along_iff {E P : Type} [DecidableEq P] (readable : E → Bool) (es : List E)
    {run : List (Action × State E P)} (hrun : Run (Step readable) { entries := es } run) :
    Along Sound { entries := es } run ↔ Meets OneNull { entries := es } run := by
  have hinv := hrun.along (inv_start es) fun _ _ _ h hstep => inv_step h hstep
  have hstart : Accounted ({ entries := es } : State E P) := rfl
  rw [← hrun.along_iff (inv_start es) hstart (fun _ _ _ h hstep => inv_step h hstep)
    fun _ _ _ h haccounted hstep => accounted_step h haccounted hstep]
  constructor
  · intro hsound
    exact hsound.imp fun _ h => h.accounted
  · intro haccounted
    exact (along_and.mpr ⟨hinv, haccounted⟩).imp fun _ h => h.1.sound_iff.mpr h.2

/-- One readable entry is read, processed and reclaimed. -/
def readableRun : List (Action × State Bool ℕ) :=
  [ (.check, { entries := [true, true], reader := .ready }),
    (.read, { entries := [true], reader := .holding (some 7), inProgressBufferCount := 1
              reads := 1, heap := Function.update (fun _ => none) 7 (some 0) }),
    (.submit, { entries := [true], queue := [some 7], inProgressBufferCount := 1
                reads := 1, heap := Function.update (fun _ => none) 7 (some 0) }),
    (.finish, { entries := [true], finished := [some 7], finishedBuffers := {some 7}
                inProgressBufferCount := 1, reads := 1
                heap := Function.update (fun _ => none) 7 (some 0) }),
    (.check, { entries := [true], reader := .ready, reads := 1
               heap := Function.update (Function.update (fun _ => none) 7 (some 0)) 7 none
               deletions := [some 0] }) ]

theorem readableRun_isRun : Run (Step id) { entries := [true, true] } readableRun := by
  refine ⟨.check (.inl rfl) (List.cons_ne_nil _ _) (.empty rfl), .read rfl rfl ⟨rfl, rfl⟩,
    .submit rfl, .finish rfl, ?_, trivial⟩
  exact .check_eq (.inl rfl) (List.cons_ne_nil _ _)
    (.next (Finset.mem_singleton_self _) (.empty rfl)) rfl

theorem readableRun_sound : Along Sound { entries := [true, true] } readableRun :=
  (sound_along_iff id [true, true] readableRun_isRun).mpr
    ⟨fun _ => Nat.zero_le 1, nofun, nofun, nofun, fun _ => Nat.zero_le 1, trivial⟩

/-- Two entries that cannot be read are finished before the next check. -/
def unreadableRun : List (Action × State Bool ℕ) :=
  [ (.check, { entries := [false, false, true], reader := .ready }),
    (.read, { entries := [false, true], reader := .holding none, inProgressBufferCount := 1
              reads := 1 }),
    (.submit, { entries := [false, true], queue := [none], inProgressBufferCount := 1
                reads := 1 }),
    (.check, { entries := [false, true], reader := .ready, queue := [none]
               inProgressBufferCount := 1, reads := 1 }),
    (.read, { entries := [true], reader := .holding none, queue := [none]
              inProgressBufferCount := 2, reads := 2 }),
    (.submit, { entries := [true], queue := [none, none], inProgressBufferCount := 2
                reads := 2 }),
    (.finish, { entries := [true], queue := [none], finished := [none]
                finishedBuffers := {none}, inProgressBufferCount := 2, reads := 2 }),
    (.finish, { entries := [true], finished := [none, none]
                finishedBuffers := insert none {none}, inProgressBufferCount := 2, reads := 2 }),
    (.check, { entries := [true], reader := .ready, inProgressBufferCount := 1, reads := 2 }) ]

theorem unreadableRun_isRun : Run (Step id) { entries := [false, false, true] } unreadableRun := by
  refine ⟨.check (.inl rfl) (List.cons_ne_nil _ _) (.empty rfl), .read rfl rfl rfl, .submit rfl,
    .check (.inl rfl) (List.cons_ne_nil _ _) (.empty rfl), .read rfl rfl rfl, .submit rfl,
    .finish rfl, .finish rfl, ?_, trivial⟩
  exact .check_eq (.inl rfl) (List.cons_ne_nil _ _)
    (.next (Finset.mem_insert_self _ _) (.empty rfl)) rfl

theorem unreadable_miscounted :
    ¬∀ (readable : Bool → Bool) (es : List Bool) (run : List (Action × State Bool ℕ)),
      Run (Step readable) { entries := es } run → Along Sound { entries := es } run := by
  intro hall
  have hsound := hall id [false, false, true] unreadableRun unreadableRun_isRun
  have hlast : (1 : ℤ) = (0 : ℕ) := hsound.2.2.2.2.2.2.2.2.2.accounted
  exact absurd hlast (by decide)

end Tarracsh.JarBuffers
