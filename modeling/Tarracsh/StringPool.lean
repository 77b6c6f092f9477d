import Tarracsh.ByteStrings
import Tarracsh.TerminatedStrings
import Mathlib.Data.List.AList

/-!
# The string pool

`_pool` is the list of its first `_position` bytes and `_hash` is keyed by
string values. An assertion that fails, a byte written at or beyond `_size`
and a scan that finds no terminator have no result. Allocations succeed, so
the 64-bit counters do not wrap.

A session is one pool file with the pool object over it. The main theorem
covers every sequence of additions, saves and reloads.
-/
namespace Tarracsh.StringPool
open ByteStrings TerminatedStrings

def StartPoolSize : ℕ := 1024 * 1024 * 500

def ReadChunkSize : ℕ := 1024 * 4

structure Pool where
  isDirty : Bool
  pool : Bytes
  hash : AList fun _ : Bytes => ℕ
  size : ℕ

namespace Pool

/-- `&_pool[item]` read as a C string. -/
def getCString (p : Pool) (item : ℕ) : Option Bytes := cString 0 p.pool item

/-- The size after the growth check of `internalAdd`. -/
def grownSize (p : Pool) (stringValue : Bytes) : ℕ :=
  if stringValue.length + p.pool.length ≥ p.size then p.size * 2 else p.size

/-- The last byte written is the terminator at `_position + length`. -/
def internalAdd (p : Pool) (stringValue : Bytes) : Option (Pool × ℕ) :=
  match p.hash.lookup stringValue with
  | some offset => some (p, offset)
  | none =>
      let size := p.grownSize stringValue
      let result := p.pool.length
      let pool := p.pool ++ (stringValue ++ [0])
      if 0 ∈ stringValue then none
      else if p.pool.length + stringValue.length < size then do
        let key ← cString 0 pool result
        some (⟨true, pool, p.hash.insert key result, size⟩, result)
      else none

/-- The constructor adds the empty string. -/
def construct : Option Pool :=
  (internalAdd ⟨false, [], ∅, StartPoolSize⟩ []).map Prod.fst

/-- The chunk loop of `read`: a short chunk is the end of the file. -/
def readChunks (size : ℕ) (pool rest : Bytes) : Option Bytes :=
  let chunk := rest.take ReadChunkSize
  if pool.length + chunk.length ≤ size then
    if rest.length < ReadChunkSize then some (pool ++ chunk)
    else readChunks size (pool ++ chunk) (rest.drop ReadChunkSize)
  else none
termination_by rest.length
decreasing_by
  have hpos : 0 < ReadChunkSize := by decide
  rw [List.length_drop]
  omega

/-- The scan of `read` from `currentPosition` on. -/
def rehash (currentPosition : ℕ) (rest : Bytes) (hash : AList fun _ : Bytes => ℕ) :
    Option (AList fun _ : Bytes => ℕ) :=
  if rest = [] then some hash
  else
    match cString 0 rest 0 with
    | none => none
    | some value =>
        rehash (currentPosition + (value.length + 1)) (rest.drop (value.length + 1))
          (hash.insert value currentPosition)
termination_by rest.length
decreasing_by
  rw [List.length_drop]
  have := List.length_pos_of_ne_nil ‹_›
  omega

/-- A file larger than the buffer gets a buffer of its own size. -/
def readSize (p : Pool) (fileSize : ℕ) : ℕ := if fileSize > p.size then fileSize else p.size

def read (p : Pool) (file : Option Bytes) : Option Pool :=
  match file with
  | none => some p
  | some content => do
      let size := p.readSize content.length
      let pool ← readChunks size [] content
      let hash ← rehash 0 pool p.hash
      some ⟨false, pool, hash, size⟩

/-- The file after `write`, which leaves `_isDirty` as it is. -/
def write (p : Pool) (file : Option Bytes) : Option Bytes :=
  if p.isDirty then some p.pool else file

end Pool

inductive Op where
  | add (stringValue : Bytes)
  | write
  | reload
  deriving DecidableEq, Repr

/-- What the callers promise about a string. -/
def Op.Valid : Op → Prop
  | .add s => 0 ∉ s ∧ s.length ≤ 65535
  | .write => True
  | .reload => True

instance : DecidablePred Op.Valid
  | .add _ => inferInstanceAs (Decidable (_ ∧ _))
  | .write => .isTrue trivial
  | .reload => .isTrue trivial

def Op.added : Op → Option Bytes
  | .add s => some s
  | .write => none
  | .reload => none

/-- A pool with its file and the results of all additions so far. -/
structure Session where
  pool : Pool
  file : Option Bytes
  log : List (Bytes × ℕ)

namespace Session

def start : Option Session := Pool.construct.map fun p => ⟨p, none, []⟩

/-- A reload writes the file, drops the pool and reads into a new one. -/
def step (s : Session) : Op → Option Session
  | .add stringValue => do
      let (pool, offset) ← s.pool.internalAdd stringValue
      some ⟨pool, s.file, s.log ++ [(stringValue, offset)]⟩
  | .write => some ⟨s.pool, s.pool.write s.file, s.log⟩
  | .reload => do
      let file := s.pool.write s.file
      let fresh ← Pool.construct
      let pool ← fresh.read file
      some ⟨pool, file, s.log⟩

def run (ops : List Op) : Option Session := do
  let s ← start
  ops.foldlM step s

end Session

/-- The pool holds exactly `strings`, in order of addition. -/
structure Holds (strings : List Bytes) (p : Pool) : Prop where
  pool_eq : p.pool = terminated 0 strings
  nulFree : ∀ s ∈ strings, 0 ∉ s
  nodup : strings.Nodup
  head : strings.head? = some []
  lookup : ∀ s, p.hash.lookup s = offsetOf s strings
  startSize : StartPoolSize ≤ p.size
  position : p.pool.length ≤ p.size

namespace Holds
variable {strings : List Bytes} {p : Pool}

theorem getCString_of_lookup (h : Holds strings p) {s : Bytes} {offset : ℕ}
    (hs : p.hash.lookup s = some offset) : p.getCString offset = some s := by
  rw [h.lookup] at hs
  rw [Pool.getCString, h.pool_eq]
  exact cString_of_offsetOf h.nulFree hs

theorem lookup_injective (h : Holds strings p) {s t : Bytes} {offset : ℕ}
    (hs : p.hash.lookup s = some offset) (ht : p.hash.lookup t = some offset) : s = t := by
  rw [h.lookup] at hs ht
  exact offsetOf_injective 0 h.nulFree hs ht

/-- One doubling makes room for any string of class-file length. -/
theorem room (h : Holds strings p) {s : Bytes} (hs : s.length ≤ 65535) :
    p.pool.length + s.length < p.grownSize s := by
  have hstart := h.startSize
  have hposition := h.position
  have hsize : 65536 ≤ StartPoolSize := by decide
  unfold Pool.grownSize
  split_ifs <;> omega

/-- A new string is copied behind the pool and recorded at its offset. -/
theorem internalAdd_new (h : Holds strings p) {s : Bytes} (hfree : 0 ∉ s)
    (hs : s.length ≤ 65535) (hnew : p.hash.lookup s = none) :
    p.internalAdd s = some (⟨true, p.pool ++ (s ++ [0]), p.hash.insert s p.pool.length,
      p.grownSize s⟩, p.pool.length) := by
  have hkey : cString 0 (p.pool ++ (s ++ [0])) p.pool.length = some s := by
    have := cString_append (z := 0) p.pool (s ++ [0]) 0
    rw [Nat.zero_add] at this
    rw [this]
    exact cString_zero hfree []
  have hroom := h.room hs
  unfold Pool.internalAdd
  simp only [hnew, if_neg hfree, if_pos hroom, hkey, Option.bind_eq_bind, Option.bind_some]

/-- The strings of the pool after a new string was added. -/
theorem concat (h : Holds strings p) {s : Bytes} (hfree : 0 ∉ s) (hs : s.length ≤ 65535)
    (hnew : p.hash.lookup s = none) :
    Holds (strings ++ [s]) ⟨true, p.pool ++ (s ++ [0]), p.hash.insert s p.pool.length,
      p.grownSize s⟩ where
  pool_eq := by rw [terminated_concat, h.pool_eq]
  nulFree t ht := by
    rcases List.mem_append.mp ht with ht | ht
    · exact h.nulFree t ht
    · rwa [List.mem_singleton.mp ht]
  nodup := by
    refine List.nodup_append.mpr ⟨h.nodup, List.nodup_singleton s, ?_⟩
    intro a ha b hb hab
    rw [List.mem_singleton.mp hb] at hab
    rw [h.lookup] at hnew
    rw [hab, ← offsetOf_isSome, hnew] at ha
    exact absurd ha (by simp)
  head := by
    rw [List.head?_append, h.head]
    rfl
  lookup t := by
    rw [offsetOf_concat 0, ← h.lookup, ← h.pool_eq]
    by_cases hts : t = s
    · subst hts
      rw [AList.lookup_insert, hnew, if_pos rfl]
      rfl
    · rw [AList.lookup_insert_ne hts, if_neg hts, Option.or_none]
  startSize := by
    have := h.startSize
    unfold Pool.grownSize
    split_ifs <;> dsimp only <;> omega
  position := by
    have := h.room hs
    simp only [List.length_append, List.length_singleton]
    omega

/-- Adding a known string changes nothing; adding a new one appends it. -/
theorem internalAdd_spec (h : Holds strings p) {s : Bytes} (hfree : 0 ∉ s)
    (hs : s.length ≤ 65535) :
    ∃ strings' q offset, p.internalAdd s = some (q, offset) ∧ Holds strings' q ∧
      q.hash.lookup s = some offset ∧ strings <+: strings' ∧
      (strings' = strings ∧ q = p ∨ q.isDirty = true) := by
  cases hlookup : p.hash.lookup s with
  | some offset =>
      refine ⟨strings, p, offset, ?_, h, hlookup, List.prefix_rfl, .inl ⟨rfl, rfl⟩⟩
      rw [Pool.internalAdd, hlookup]
  | none =>
      exact ⟨strings ++ [s], _, _, h.internalAdd_new hfree hs hlookup, h.concat hfree hs hlookup,
        AList.lookup_insert _, List.prefix_append _ _, .inr rfl⟩

end Holds

theorem construct_spec :
    ∃ p, Pool.construct = some p ∧ p.isDirty = true ∧ Holds [[]] p := by
  have hsize : (0 : ℕ) < StartPoolSize := by decide
  refine ⟨⟨true, [0], (∅ : AList fun _ : Bytes => ℕ).insert [] 0, StartPoolSize⟩, ?_, rfl, ?_⟩
  · simp [Pool.construct, Pool.internalAdd, Pool.grownSize, cString, hsize, hsize.ne']
  · refine ⟨rfl, by simp, by simp, rfl, ?_, le_rfl, hsize⟩
    intro s
    by_cases hs : s = []
    · subst hs
      rw [AList.lookup_insert]
      rfl
    · rw [AList.lookup_insert_ne hs, AList.lookup_empty]
      simp [offsetOf, hs]

/-- Reading chunk by chunk reads the whole file, inside the buffer. -/
theorem readChunks_eq {size : ℕ} (pool rest : Bytes) (h : pool.length + rest.length ≤ size) :
    Pool.readChunks size pool rest = some (pool ++ rest) := by
  fun_induction Pool.readChunks size pool rest with
  | case1 pool rest chunk hfit hshort =>
      have hchunk : chunk = rest := List.take_of_length_le hshort.le
      rw [hchunk]
  | case2 pool rest chunk hfit hlong ih =>
      rw [ih (by simp only [chunk, List.length_append, List.length_take, List.length_drop]; omega)]
      simp only [chunk, List.append_assoc, List.take_append_drop]
  | case3 pool rest chunk hfit =>
      simp only [chunk, List.length_take] at hfit
      omega

/-- The scan records every string at its offset. -/
theorem rehash_spec (strings : List Bytes) (hfree : ∀ s ∈ strings, 0 ∉ s)
    (hnodup : strings.Nodup) (o : ℕ) (hash : AList fun _ : Bytes => ℕ) :
    ∃ hash', Pool.rehash o (terminated 0 strings) hash = some hash' ∧
      ∀ s, hash'.lookup s = ((offsetOf s strings).map (· + o)).or (hash.lookup s) := by
  induction strings generalizing o hash with
  | nil => exact ⟨hash, by rw [Pool.rehash]; simp, by simp [offsetOf]⟩
  | cons t ts ih =>
      obtain ⟨ht, hts⟩ := List.nodup_cons.mp hnodup
      obtain ⟨hash', hrun, hlookup⟩ := ih (fun s hs => hfree s (by simp [hs])) hts
        (o + (t.length + 1)) (hash.insert t o)
      refine ⟨hash', ?_, ?_⟩
      · rw [Pool.rehash, terminated_cons, if_neg (by simp), cString_zero (hfree t (by simp))]
        have hdrop : (t ++ 0 :: terminated 0 ts).drop (t.length + 1) = terminated 0 ts := by
          simp
        simpa only [hdrop] using hrun
      · intro s
        rw [hlookup, offsetOf]
        split_ifs with hst
        · subst hst
          rw [offsetOf_eq_none ht, AList.lookup_insert]
          simp
        · rw [AList.lookup_insert_ne hst, Option.map_map]
          congr 2
          funext n
          simp only [Function.comp_apply]
          omega

/-- A new pool that reads the file of another one holds the same strings. -/
theorem read_spec {strings : List Bytes} {p fresh : Pool} (h : Holds strings p)
    (hfresh : Holds [[]] fresh) :
    ∃ q, fresh.read (some p.pool) = some q ∧ Holds strings q ∧ q.pool = p.pool ∧
      q.isDirty = false ∧ q.size = fresh.readSize p.pool.length := by
  obtain ⟨hash, hrun, hlookup⟩ := rehash_spec strings h.nulFree h.nodup 0 fresh.hash
  have hsize : p.pool.length ≤ fresh.readSize p.pool.length := by
    unfold Pool.readSize
    split_ifs <;> omega
  have hread := readChunks_eq [] p.pool (by simpa using hsize)
  refine ⟨⟨false, p.pool, hash, fresh.readSize p.pool.length⟩, ?_, ?_, rfl, rfl, rfl⟩
  · simp only [Pool.read, hread, Option.bind_eq_bind, Option.bind_some, List.nil_append]
    rw [h.pool_eq, hrun]
    rfl
  · refine ⟨h.pool_eq, h.nulFree, h.nodup, h.head, ?_, ?_, hsize⟩
    · intro s
      have hempty : s ∉ strings → s ∉ [([] : Bytes)] := by
        intro hs hs'
        rw [List.mem_singleton.mp hs'] at hs
        exact hs (List.mem_of_head? h.head)
      rw [hlookup, hfresh.lookup]
      by_cases hs : s ∈ strings
      · obtain ⟨o, ho⟩ := Option.isSome_iff_exists.mp (offsetOf_isSome.mpr hs)
        simp [ho]
      · rw [offsetOf_eq_none hs, offsetOf_eq_none (hempty hs)]
        rfl
    · have := hfresh.startSize
      unfold Pool.readSize
      split_ifs <;> dsimp only <;> omega

/-- The session invariant: the file of a clean pool is the pool, and every
logged offset is the one the hash index holds. -/
structure Session.Valid (strings : List Bytes) (s : Session) : Prop where
  holds : Holds strings s.pool
  saved : s.pool.isDirty = false → s.file = some s.pool.pool
  logged : ∀ x ∈ s.log, s.pool.hash.lookup x.1 = some x.2

theorem Session.Valid.write_eq {strings : List Bytes} {s : Session} (h : s.Valid strings) :
    s.pool.write s.file = some s.pool.pool := by
  unfold Pool.write
  split_ifs with hdirty
  · rfl
  · exact h.saved (by simpa using hdirty)

theorem step_spec {strings : List Bytes} {s : Session} (h : s.Valid strings) {op : Op}
    (hop : op.Valid) :
    ∃ strings' s', s.step op = some s' ∧ s'.Valid strings' ∧
      s'.log.map Prod.fst = s.log.map Prod.fst ++ op.added.toList := by
  cases op with
  | add stringValue =>
      obtain ⟨strings', q, offset, hadd, hq, hoffset, ⟨more, hmore⟩, hdirty⟩ :=
        h.holds.internalAdd_spec hop.1 hop.2
      refine ⟨strings', ⟨q, s.file, s.log ++ [(stringValue, offset)]⟩, ?_, ⟨hq, ?_, ?_⟩, ?_⟩
      · simp [Session.step, hadd]
      · intro hclean
        rcases hdirty with ⟨-, rfl⟩ | hdirty
        · exact h.saved hclean
        · exact absurd (hclean.symm.trans hdirty) (by simp)
      · intro x hx
        rcases List.mem_append.mp hx with hx | hx
        · have hold := h.logged x hx
          rw [h.holds.lookup] at hold
          rw [hq.lookup, ← hmore]
          exact offsetOf_append hold more
        · rw [List.mem_singleton.mp hx]
          exact hoffset
      · simp [Op.added]
  | write =>
      refine ⟨strings, _, rfl, ⟨h.holds, fun _ => h.write_eq, h.logged⟩, ?_⟩
      simp [Op.added]
  | reload =>
      obtain ⟨fresh, hconstruct, -, hfresh⟩ := construct_spec
      obtain ⟨q, hread, hq, hpool, -, -⟩ := read_spec h.holds hfresh
      refine ⟨strings, ⟨q, some s.pool.pool, s.log⟩, ?_, ⟨hq, fun _ => by rw [hpool], ?_⟩, ?_⟩
      · simp [Session.step, h.write_eq, hconstruct, hread]
      · intro x hx
        rw [hq.lookup, ← h.holds.lookup]
        exact h.logged x hx
      · simp [Op.added]

theorem run_spec_from {strings : List Bytes} {s : Session} (h : s.Valid strings) (ops : List Op)
    (hops : ∀ op ∈ ops, op.Valid) :
    ∃ strings' s', ops.foldlM Session.step s = some s' ∧ s'.Valid strings' ∧
      s'.log.map Prod.fst = s.log.map Prod.fst ++ ops.filterMap Op.added := by
  induction ops generalizing strings s with
  | nil => exact ⟨strings, s, rfl, h, by simp⟩
  | cons op ops ih =>
      obtain ⟨strings₁, s₁, hstep, h₁, hlog₁⟩ := step_spec h (hops op (by simp))
      obtain ⟨strings₂, s₂, hrun, h₂, hlog₂⟩ := ih h₁ fun o ho => hops o (by simp [ho])
      refine ⟨strings₂, s₂, ?_, h₂, ?_⟩
      · rw [List.foldlM_cons, hstep]
        exact hrun
      · rw [hlog₂, hlog₁, List.filterMap_cons]
        cases op.added <;> simp

theorem run_spec (ops : List Op) (hops : ∀ op ∈ ops, op.Valid) :
    ∃ strings s, Session.run ops = some s ∧ s.Valid strings ∧
      s.log.map Prod.fst = ops.filterMap Op.added := by
  obtain ⟨p, hconstruct, hdirty, hp⟩ := construct_spec
  have hstart : Session.Valid [[]] ⟨p, none, []⟩ :=
    ⟨hp, fun h => absurd (hdirty.symm.trans h) (by simp), by simp⟩
  obtain ⟨strings, s, hrun, hs, hlog⟩ := run_spec_from hstart ops hops
  refine ⟨strings, s, ?_, hs, by simpa using hlog⟩
  simp [Session.run, Session.start, hconstruct, hrun]

/-- String interning. Every sequence of additions, saves and reloads runs
inside the buffer; each addition is logged; and in the state reached every
logged offset denotes its string, two of them being equal exactly when the
strings are. -/
theorem interning (ops : List Op) (hops : ∀ op ∈ ops, op.Valid) :
    ∃ s, Session.run ops = some s ∧ s.log.map Prod.fst = ops.filterMap Op.added ∧
      (∀ x ∈ s.log, s.pool.getCString x.2 = some x.1) ∧
      ∀ x ∈ s.log, ∀ y ∈ s.log, x.2 = y.2 ↔ x.1 = y.1 := by
  obtain ⟨strings, s, hrun, hs, hlog⟩ := run_spec ops hops
  refine ⟨s, hrun, hlog, fun x hx => hs.holds.getCString_of_lookup (hs.logged x hx), ?_⟩
  intro x hx y hy
  have hx' := hs.logged x hx
  have hy' := hs.logged y hy
  constructor
  · intro heq
    rw [heq] at hx'
    exact hs.holds.lookup_injective hx' hy'
  · intro heq
    rw [heq, hy'] at hx'
    exact (Option.some.inj hx').symm

/-- A string added before and after a reload. -/
theorem interning_across_reload :
    ∃ s, Session.run [.add (ascii "A"), .add [], .reload, .add (ascii "A")] = some s ∧
      s.log.map Prod.fst = [ascii "A", [], ascii "A"] ∧
      (∀ x ∈ s.log, s.pool.getCString x.2 = some x.1) ∧
      ∀ x ∈ s.log, ∀ y ∈ s.log, x.2 = y.2 ↔ x.1 = y.1 :=
  interning [.add (ascii "A"), .add [], .reload, .add (ascii "A")] (by decide)

end Tarracsh.StringPool
