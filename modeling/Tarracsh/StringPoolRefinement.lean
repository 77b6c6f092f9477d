import Tarracsh.StringPoolMemory

/-!
# A still buffer refines the pool of values

While the buffer stays where it is, every key of `_hash` reads as the string
it was made for, so the index of views and the index of values hold the same
pairs and every call does the same to both.
-/
namespace Tarracsh.StringPoolRefinement
open ByteStrings TerminatedStrings ByteFiles StringPool StringPoolMemory

variable {C : Type} [DecidableEq C] (hashCode : Bytes → C)

/-- The key of `n` reads as `v`, inside the bytes in use. -/
structure Represents (m : Memory C) (n : Node C) (v : Bytes) : Prop where
  block : n.key.block = m.block
  code : n.code = hashCode v
  length : n.key.length = v.length
  cells : (m.cells.drop n.key.offset).take v.length = v
  inside : n.key.offset + v.length < m.position

/-- The index holds exactly the pairs of the finite map `look`. -/
structure Indexes (m : Memory C) (look : Bytes → Option ℕ) : Prop where
  sound : ∀ n ∈ m.hash, ∃ v, Represents hashCode m n v ∧ look v = some n.value
  complete : ∀ v offset, look v = some offset → ∃ n ∈ m.hash, Represents hashCode m n v

/-- The pool over a moving buffer is in the state of the pool of values. -/
structure Refines (m : Memory C) (p : Pool) : Prop where
  isDirty : m.isDirty = p.isDirty
  cells : m.cells.take m.position = p.pool
  written : m.position ≤ m.cells.length
  size : m.size = p.size
  indexes : Indexes hashCode m p.hash.lookup

namespace Represents
variable {hashCode} {m : Memory C} {n : Node C} {v : Bytes}

omit [DecidableEq C] in
theorem bytes_eq (h : Represents hashCode m n v) : m.bytes n.key = some v := by
  rw [Memory.bytes_of_block h.block, h.length, h.cells]

omit [DecidableEq C] in
theorem unique {w : Bytes} (h : Represents hashCode m n v) (h' : Represents hashCode m n w) :
    v = w :=
  Option.some.inj (h.bytes_eq.symm.trans h'.bytes_eq)

theorem keyEquals_eq (h : Represents hashCode m n v) (s : Bytes) :
    m.keyEquals hashCode s n = some (decide (v = s)) := by
  unfold Memory.keyEquals
  split_ifs with hcond
  · rw [h.bytes_eq]
    rfl
  · have hne : v ≠ s := by
      rintro rfl
      exact hcond ⟨h.code, h.length⟩
    simp [hne]

omit [DecidableEq C] in
/-- A key survives every change outside the bytes in use. -/
theorem mono {r : Memory C} (h : Represents hashCode m n v) (hblock : r.block = m.block)
    (hcells : r.cells.take m.position = m.cells.take m.position)
    (hposition : m.position ≤ r.position) : Represents hashCode r n v := by
  have hinside := h.inside
  have hread : ∀ cells : Bytes, (cells.drop n.key.offset).take v.length =
      ((cells.take m.position).drop n.key.offset).take v.length := by
    intro cells
    rw [List.drop_take, List.take_take, min_eq_left (by omega)]
  refine ⟨h.block.trans hblock.symm, h.code, h.length, ?_, by omega⟩
  rw [hread, hcells, ← hread, h.cells]

end Represents

section Index
variable {hashCode} {m : Memory C} {look : Bytes → Option ℕ}

theorem find_spec {nodes : List (Node C)} (h : ∀ n ∈ nodes, ∃ v, Represents hashCode m n v)
    (s : Bytes) :
    (∃ i n, m.find hashCode s nodes = some (some i) ∧ nodes[i]? = some n ∧
        Represents hashCode m n s) ∨
      (m.find hashCode s nodes = some none ∧ ∀ n ∈ nodes, ¬ Represents hashCode m n s) := by
  induction nodes with
  | nil => exact .inr ⟨rfl, by simp⟩
  | cons n nodes ih =>
      obtain ⟨v, hv⟩ := h n (by simp)
      rw [Memory.find, hv.keyEquals_eq]
      by_cases hvs : v = s
      · subst hvs
        exact .inl ⟨0, n, by simp, rfl, hv⟩
      · rcases ih fun n hn => h n (by simp [hn]) with ⟨i, k, hi, hk, hrep⟩ | ⟨hnone, hall⟩
        · exact .inl ⟨i + 1, k, by simp [hvs, hi], by simpa using hk, hrep⟩
        · refine .inr ⟨by simp [hvs, hnone], ?_⟩
          intro k hk
          rcases List.mem_cons.mp hk with rfl | hk
          · exact fun hs => hvs (hv.unique hs)
          · exact hall k hk

/-- Lookups agree with the map. -/
theorem lookup_eq (h : Indexes hashCode m look) (s : Bytes) :
    m.lookup hashCode s = some (look s) := by
  rcases find_spec (fun n hn => (h.sound n hn).imp fun _ hv => hv.1) s with
    ⟨i, n, hi, hn, hrep⟩ | ⟨hnone, hall⟩
  · obtain ⟨v, hv, hlook⟩ := h.sound n (List.mem_of_getElem? hn)
    obtain rfl := hv.unique hrep
    simp [Memory.lookup, hi, hn, hlook]
  · have hlook : look s = none := by
      by_contra hsome
      obtain ⟨o, ho⟩ := Option.ne_none_iff_exists'.mp hsome
      obtain ⟨n, hn, hrep⟩ := h.complete s o ho
      exact hall n hn hrep
    simp [Memory.lookup, hnone, hlook]

/-- Assigning a new key adds one pair. -/
theorem assign_new (h : Indexes hashCode m look) (key : View) {s : Bytes} (value : ℕ)
    (hkey : Represents hashCode m ⟨key, hashCode s, value⟩ s) (hnew : look s = none) :
    ∃ r, m.assign hashCode key value = some r ∧ Memory.SameBuffer m r ∧
      Indexes hashCode r fun v => if v = s then some value else look v := by
  rcases find_spec (fun n hn => (h.sound n hn).imp fun _ hv => hv.1) s with
    ⟨i, n, hi, hn, hrep⟩ | ⟨hnone, hall⟩
  · obtain ⟨v, hv, hlook⟩ := h.sound n (List.mem_of_getElem? hn)
    obtain rfl := hv.unique hrep
    exact absurd (hnew.symm.trans hlook) (by simp)
  · refine ⟨{ m with hash := m.hash ++ [⟨key, hashCode s, value⟩] }, ?_, ⟨rfl, rfl, rfl, rfl, rfl⟩,
      ⟨?_, ?_⟩⟩
    · simp [Memory.assign, hkey.bytes_eq, hnone]
    · intro n hn
      rcases List.mem_append.mp hn with hn | hn
      · obtain ⟨v, hv, hlook⟩ := h.sound n hn
        refine ⟨v, ⟨hv.1, hv.2, hv.3, hv.4, hv.5⟩, ?_⟩
        have hne : v ≠ s := by
          rintro rfl
          exact absurd (hnew.symm.trans hlook) (by simp)
        rw [if_neg hne, hlook]
      · rw [List.mem_singleton.mp hn]
        exact ⟨s, ⟨hkey.1, hkey.2, hkey.3, hkey.4, hkey.5⟩, if_pos rfl⟩
    · intro v offset hv
      by_cases hvs : v = s
      · subst hvs
        exact ⟨_, by simp, ⟨hkey.1, hkey.2, hkey.3, hkey.4, hkey.5⟩⟩
      · rw [if_neg hvs] at hv
        obtain ⟨n, hn, hrep⟩ := h.complete v offset hv
        exact ⟨n, by simp [hn], ⟨hrep.1, hrep.2, hrep.3, hrep.4, hrep.5⟩⟩

/-- Assigning a key its own value changes nothing. -/
theorem assign_same (h : Indexes hashCode m look) (key : View) {s : Bytes} {value : ℕ}
    (hkey : m.bytes key = some s) (hold : look s = some value) :
    m.assign hashCode key value = some m := by
  rcases find_spec (fun n hn => (h.sound n hn).imp fun _ hv => hv.1) s with
    ⟨i, n, hi, hn, hrep⟩ | ⟨hnone, hall⟩
  · obtain ⟨v, hv, hlook⟩ := h.sound n (List.mem_of_getElem? hn)
    obtain rfl := hv.unique hrep
    obtain rfl := Option.some.inj (hold.symm.trans hlook)
    have hsame : m.hash.modify i (fun k => { k with value := n.value }) = m.hash := by
      apply List.ext_getElem?
      intro j
      rw [List.getElem?_modify]
      split_ifs with hij
      · subst hij
        rw [hn]
        rfl
      · simp
    simp [Memory.assign, hkey, hi, hsame]
  · obtain ⟨n, hn, hrep⟩ := h.complete s value hold
    exact absurd hrep (hall n hn)

omit [DecidableEq C] in
theorem Indexes.congr {look' : Bytes → Option ℕ} (h : Indexes hashCode m look)
    (heq : ∀ v, look v = look' v) : Indexes hashCode m look' := by
  obtain rfl : look = look' := funext heq
  exact h

omit [DecidableEq C] in
theorem Indexes.mono {r : Memory C} (h : Indexes hashCode m look) (hhash : r.hash = m.hash)
    (hblock : r.block = m.block) (hcells : r.cells.take m.position = m.cells.take m.position)
    (hposition : m.position ≤ r.position) : Indexes hashCode r look := by
  refine ⟨fun n hn => ?_, fun v offset hv => ?_⟩
  · obtain ⟨v, hrep, hlook⟩ := h.sound n (hhash ▸ hn)
    exact ⟨v, hrep.mono hblock hcells hposition, hlook⟩
  · obtain ⟨n, hn, hrep⟩ := h.complete v offset hv
    exact ⟨n, hhash ▸ hn, hrep.mono hblock hcells hposition⟩

end Index

section Refinement
variable {hashCode} {m : Memory C} {p : Pool}

omit [DecidableEq C] in
theorem Refines.position (h : Refines hashCode m p) : m.position = p.pool.length := by
  rw [← h.cells, List.length_take, min_eq_left h.written]

/-- The pool bytes behind `front` start with the string `s`. -/
theorem cString_of_take {cells front s tail : Bytes} {position : ℕ} (hfree : 0 ∉ s)
    (h : cells.take position = front ++ (s ++ 0 :: tail)) :
    cString 0 cells front.length = some s ∧ (cells.drop front.length).take s.length = s := by
  have hsplit : cells = front ++ (s ++ 0 :: (tail ++ cells.drop position)) := by
    conv_lhs => rw [← List.take_append_drop position cells, h]
    simp
  have hstring := cString_append (z := 0) front (s ++ 0 :: (tail ++ cells.drop position)) 0
  rw [Nat.zero_add] at hstring
  constructor
  · rw [hsplit, hstring]
    exact cString_zero hfree _
  · rw [hsplit, List.drop_left, List.take_left]

omit [DecidableEq C] in
/-- Without a move the growth check changes the size only. -/
theorem Refines.grown_of_still (h : Refines hashCode m p) {s : Bytes} {alloc : ℕ}
    (halloc : m.Full s → alloc = m.block) :
    (m.grown s alloc).block = m.block ∧ (m.grown s alloc).cells = m.cells ∧
      (m.grown s alloc).position = m.position ∧ (m.grown s alloc).hash = m.hash ∧
      (m.grown s alloc).size = p.grownSize s := by
  unfold Memory.grown Pool.grownSize
  rw [← h.size, ← h.position]
  by_cases hfull : m.Full s
  · rw [if_pos hfull, if_pos (by exact hfull)]
    exact ⟨halloc hfull, rfl, rfl, rfl, rfl⟩
  · rw [if_neg hfull, if_neg (by exact hfull)]
    exact ⟨rfl, rfl, rfl, rfl, rfl⟩

/-- Without a move an addition does what it does to the pool of values. -/
theorem add_refines {strings : List Bytes} (h : Refines hashCode m p) (hp : Holds strings p)
    {s : Bytes} (hfree : 0 ∉ s) (hs : s.length ≤ 65535) {alloc : ℕ}
    (hstay : ¬ Moves hashCode none m (.add s alloc)) :
    ∃ r q offset, m.internalAdd hashCode s alloc = some (r, offset) ∧
      p.internalAdd s = some (q, offset) ∧ Refines hashCode r q := by
  have hlookup := lookup_eq h.indexes s
  unfold Memory.internalAdd
  rw [hlookup]
  cases hfound : p.hash.lookup s with
  | some offset => exact ⟨m, p, offset, rfl, by rw [Pool.internalAdd, hfound], h⟩
  | none =>
      have hposition := h.position
      have halloc : m.Full s → alloc = m.block := by
        intro hfull
        by_contra hne
        exact hstay ⟨by rw [hlookup, hfound], hfull, hne⟩
      obtain ⟨hblock, hcells, hpos, hhash, hsize⟩ := h.grown_of_still halloc
      set g := m.grown s alloc
      have htake := Memory.append_spec (m := g) (s := s) (by
        rw [hpos, hcells]
        exact h.written)
      rw [hpos, hcells, h.cells] at htake
      obtain ⟨hkey, hread⟩ := cString_of_take hfree htake
      have hgrows : (g.append s).cells.take m.position = m.cells.take m.position := by
        have := congrArg (List.take m.position) htake
        rw [List.take_take, min_eq_left (by change _ ≤ g.position + _; omega), h.cells.symm,
          List.take_append_of_le_length (by rw [List.length_take]; have := h.written; omega),
          List.take_take, min_self] at this
        exact this
      have hindexes : Indexes hashCode (g.append s) p.hash.lookup :=
        h.indexes.mono hhash hblock hgrows (by change _ ≤ g.position + _; omega)
      have hrep : Represents hashCode (g.append s)
          ⟨⟨(g.append s).block, g.position, s.length⟩, hashCode s, g.position⟩ s :=
        ⟨rfl, rfl, rfl, by rw [hpos, hposition]; exact hread, by
          change g.position + s.length < g.position + (s.length + 1)
          omega⟩
      obtain ⟨r, hassign, hsame, hr⟩ := assign_new hindexes _ g.position hrep hfound
      refine ⟨r, _, p.pool.length, ?_, hp.internalAdd_new hfree hs hfound, ?_⟩
      · have hroom := hp.room hs
        simp only [Option.bind_eq_bind, Option.bind_some, if_neg hfree]
        rw [if_pos (by omega), hpos, hposition, hkey, Option.bind_some]
        rw [hpos, hposition] at hassign
        rw [hassign]
        rfl
      · refine ⟨hsame.isDirty, ?_, ?_, hsame.size.trans hsize, ?_⟩
        · rw [hsame.cells, hsame.position, htake]
        · rw [hsame.cells, hsame.position]
          have := congrArg List.length htake
          simp only [List.length_take, List.length_append, List.length_singleton] at this
          change g.position + (s.length + 1) ≤ _
          change min (g.position + (s.length + 1)) _ = _ at this
          omega
        · refine hr.congr fun v => ?_
          by_cases hvs : v = s
          · subst hvs
            rw [if_pos rfl, AList.lookup_insert, hpos, hposition]
          · rw [if_neg hvs, AList.lookup_insert_ne hvs]

/-- The scan indexes the strings that follow those already indexed. -/
theorem rehash_indexes (done rest : List Bytes) (hfree : ∀ s ∈ done ++ rest, 0 ∉ s)
    (hnodup : (done ++ rest).Nodup)
    (hcells : m.cells.take m.position = terminated 0 (done ++ rest))
    (hwritten : m.position ≤ m.cells.length)
    (h : Indexes hashCode m fun v => offsetOf v done) :
    ∃ r, Memory.rehash hashCode m.position (terminated 0 done).length m = some r ∧
      Memory.SameBuffer m r ∧ Indexes hashCode r fun v => offsetOf v (done ++ rest) := by
  induction rest generalizing done m with
  | nil =>
      have hend : m.position = (terminated 0 done).length := by
        rw [List.append_nil] at hcells
        rw [← hcells, List.length_take, min_eq_left hwritten]
      refine ⟨m, ?_, Memory.SameBuffer.refl m, by rwa [List.append_nil]⟩
      rw [Memory.rehash, if_neg (by omega)]
  | cons t rest ih =>
      have htfree : 0 ∉ t := hfree t (by simp)
      have htnew : t ∉ done := by
        intro hmem
        exact (List.nodup_append.mp hnodup).2.2 t hmem t (by simp) rfl
      have hsplit : m.cells.take m.position =
          terminated 0 done ++ (t ++ 0 :: terminated 0 rest) := by
        rw [hcells, terminated_append, terminated_cons]
      have hposition : m.position =
          (terminated 0 done).length + (t.length + (1 + (terminated 0 rest).length)) := by
        have := congrArg List.length hsplit
        rw [List.length_take, min_eq_left hwritten] at this
        simp only [this, List.length_append, List.length_cons]
        omega
      obtain ⟨hkey, hread⟩ := cString_of_take htfree hsplit
      obtain ⟨a, hassign, hsame, ha⟩ := assign_new (s := t) h
        ⟨m.block, (terminated 0 done).length, t.length⟩ (terminated 0 done).length
        ⟨rfl, rfl, rfl, hread, by dsimp only; omega⟩ (offsetOf_eq_none htnew)
      have ha' : Indexes hashCode a fun v => offsetOf v (done ++ [t]) := by
        refine ha.congr fun v => ?_
        rw [offsetOf_concat 0]
        by_cases hvt : v = t
        · subst hvt
          rw [if_pos rfl, offsetOf_eq_none htnew, if_pos rfl]
          rfl
        · rw [if_neg hvt, if_neg hvt, Option.or_none]
      have hlist : (done ++ [t]) ++ rest = done ++ t :: rest := by simp
      obtain ⟨r, hrun, hsame', hr⟩ := ih (m := a) (done ++ [t]) (by rwa [hlist]) (by rwa [hlist])
        (by rw [hsame.cells, hsame.position, hcells, hlist])
        (by rw [hsame.cells, hsame.position]; exact hwritten) ha'
      refine ⟨r, ?_, hsame.trans hsame', by rwa [hlist] at hr⟩
      rw [Memory.rehash, if_pos (by omega), hkey]
      simp only [hassign]
      rw [hsame.position, terminated_concat, List.length_append, List.length_append,
        List.length_singleton] at hrun
      exact hrun

omit [DecidableEq C] in
theorem Refines.replaced_size (h : Refines hashCode m p) (fileSize alloc : ℕ) :
    (m.replaced fileSize alloc).size = p.readSize fileSize := by
  unfold Memory.replaced Pool.readSize
  rw [h.size]
  split_ifs
  · rfl
  · exact h.size

/-- The scan passes over strings that are indexed already. -/
theorem rehash_known (done more rest : List Bytes) (hfree : ∀ s ∈ more, 0 ∉ s)
    (hnodup : (done ++ more).Nodup)
    (hcells : m.cells.take m.position = terminated 0 (done ++ more ++ rest))
    (hwritten : m.position ≤ m.cells.length)
    (h : Indexes hashCode m fun v => offsetOf v (done ++ more)) :
    Memory.rehash hashCode m.position (terminated 0 done).length m =
      Memory.rehash hashCode m.position (terminated 0 (done ++ more)).length m := by
  induction more generalizing done with
  | nil => rw [List.append_nil]
  | cons t more ih =>
      have hlist : done ++ [t] ++ more = done ++ t :: more := by simp
      have htnew : t ∉ done := by
        intro hmem
        exact (List.nodup_append.mp hnodup).2.2 t hmem t (by simp) rfl
      have hsplit : m.cells.take m.position =
          terminated 0 done ++ (t ++ 0 :: terminated 0 (more ++ rest)) := by
        rw [hcells, List.append_assoc, List.cons_append, terminated_append, terminated_cons]
      have hposition : (terminated 0 done).length < m.position := by
        have := congrArg List.length hsplit
        rw [List.length_take, min_eq_left hwritten] at this
        simp only [this, List.length_append, List.length_cons]
        omega
      obtain ⟨hkey, hread⟩ := cString_of_take (hfree t (by simp)) hsplit
      have hoffset : offsetOf t (done ++ t :: more) = some (terminated 0 done).length := by
        rw [← hlist]
        apply offsetOf_append
        rw [offsetOf_concat 0, offsetOf_eq_none htnew, if_pos rfl]
        rfl
      have hassign : m.assign hashCode ⟨m.block, (terminated 0 done).length, t.length⟩
          (terminated 0 done).length = some m :=
        assign_same h _ (by rw [Memory.bytes_of_block (by rfl), hread]) hoffset
      rw [Memory.rehash, if_pos hposition, hkey]
      simp only [hassign]
      have hrun := ih (done ++ [t]) (fun s hs => hfree s (by simp [hs])) (by rwa [hlist])
        (by rwa [hlist]) (by rwa [hlist])
      rw [terminated_concat, List.length_append, List.length_append, List.length_singleton] at hrun
      rw [hrun, hlist]

omit [DecidableEq C] in
/-- The pool of values with the bytes of a file. -/
theorem holds_of_file {strings : List Bytes} {p p₀ : Pool} {old : List Bytes} (hp : Holds old p)
    (h₀ : Holds strings p₀) :
    Holds strings ⟨false, p₀.pool, p₀.hash, p.readSize p₀.pool.length⟩ := by
  refine ⟨h₀.pool_eq, h₀.nulFree, h₀.nodup, h₀.head, h₀.lookup, ?_, ?_⟩
  · have := hp.startSize
    unfold Pool.readSize
    split_ifs <;> dsimp only <;> omega
  · dsimp only
    unfold Pool.readSize
    split_ifs <;> omega

/-- A read without a move of a file that goes on from the pool takes over its strings. -/
theorem read_refines {strings rest : List Bytes} {p₀ : Pool} (h : Refines hashCode m p)
    (hp : Holds strings p) (h₀ : Holds (strings ++ rest) p₀) {alloc : ℕ}
    (hstay : ¬ Moves hashCode (some p₀.pool) m (.read alloc)) :
    ∃ r q, m.read hashCode (some p₀.pool) alloc = some r ∧ Holds (strings ++ rest) q ∧
      Refines hashCode r q := by
  have hblock := replaced_block hashCode hstay
  have hhash := Memory.replaced_hash m p₀.pool.length alloc
  have hsize := h.replaced_size p₀.pool.length alloc
  have hq := holds_of_file hp h₀
  set g := m.replaced p₀.pool.length alloc
  obtain ⟨cells, hrun, htake⟩ := Memory.readChunks_spec g.size g.cells p₀.pool
    (Nat.zero_le _) (by
      rw [hsize, Nat.zero_add]
      exact hq.position)
  rw [Nat.zero_add] at hrun
  rw [Nat.zero_add, List.take_zero, List.nil_append] at htake
  have hwritten : p₀.pool.length ≤ cells.length := by
    have := congrArg List.length htake
    rw [List.length_take] at this
    omega
  have hposition : m.position ≤ p₀.pool.length := by
    rw [h.position, hp.pool_eq, h₀.pool_eq, terminated_append, List.length_append]
    omega
  set a : Memory C := { g with cells := cells, position := p₀.pool.length }
  have hfront : a.cells.take m.position = m.cells.take m.position := by
    have hcut := congrArg (List.take m.position) htake
    rw [List.take_take, min_eq_left hposition] at hcut
    rw [h.cells]
    change cells.take m.position = _
    rw [hcut, h₀.pool_eq, terminated_append, hp.pool_eq, h.position, hp.pool_eq, List.take_left]
  have ha : Indexes hashCode a fun v => offsetOf v strings :=
    (h.indexes.congr hp.lookup).mono hhash hblock hfront hposition
  have hcells : a.cells.take a.position = terminated 0 (strings ++ rest) := htake.trans h₀.pool_eq
  have hknown := rehash_known [] strings rest hp.nulFree hp.nodup hcells hwritten ha
  obtain ⟨r, hscan, hsame, hr⟩ :=
    rehash_indexes strings rest (m := a) h₀.nulFree h₀.nodup hcells hwritten ha
  refine ⟨{ r with isDirty := false }, _, ?_, hq, ⟨rfl, ?_, ?_, ?_, ?_⟩⟩
  · simp only [Memory.read, Option.bind_eq_bind]
    rw [hrun, Option.bind_some]
    change (Memory.rehash hashCode a.position 0 a).bind _ = _
    rw [show Memory.rehash hashCode a.position 0 a = some r from hknown.trans hscan]
    rfl
  · change r.cells.take r.position = p₀.pool
    rw [hsame.cells, hsame.position]
    exact htake
  · change r.position ≤ r.cells.length
    rw [hsame.cells, hsame.position]
    exact hwritten
  · change r.size = _
    rw [hsame.size]
    exact hsize
  · have hr' : Indexes hashCode { r with isDirty := false }
        fun v => offsetOf v (strings ++ rest) :=
      hr.mono rfl rfl rfl le_rfl
    exact hr'.congr fun v => (h₀.lookup v).symm

end Refinement

/-- The file is missing or was written by a pool. -/
def FromPool (file : Option Bytes) : Prop :=
  ∀ content, file = some content → ∃ strings p, Holds strings p ∧ content = p.pool

/-- A run without a move that reads only files that go on from the pool finds every result
at the end, and what the pool held before. -/
theorem run_finds {file : Option Bytes} (hfile : FromPool file) {m : Memory C} {p : Pool}
    {strings : List Bytes} (h : Refines hashCode m p) (hp : Holds strings p) {calls : List Step}
    (hcalls : ∀ call ∈ calls, call.Valid) (hstill : Still hashCode file m calls)
    (hcontinues : Continues hashCode file m calls) :
    ∃ r log, run hashCode file m calls = some (r, log) ∧
      (∀ x ∈ log, r.lookup hashCode x.1 = some (some x.2)) ∧
      ∀ s offset, offsetOf s strings = some offset → r.lookup hashCode s = some (some offset) := by
  induction calls generalizing m p strings with
  | nil =>
      refine ⟨m, [], rfl, by simp, fun s offset hs => ?_⟩
      rw [lookup_eq h.indexes, hp.lookup, hs]
  | cons call calls ih =>
      have hvalid := hcalls call (by simp)
      replace hcalls := fun c (hc : c ∈ calls) => hcalls c (List.mem_cons_of_mem _ hc)
      cases call with
      | add s alloc =>
          obtain ⟨r, q, offset, hr, hq, href⟩ := add_refines h hp hvalid.1 hvalid.2 hstill.1
          obtain ⟨strings', q', offset', hq', hholds, hlookup, ⟨more, hmore⟩, -⟩ :=
            hp.internalAdd_spec hvalid.1 hvalid.2
          obtain ⟨rfl, rfl⟩ := Prod.mk.inj (Option.some.inj (hq.symm.trans hq'))
          have hstep : step hashCode file m (.add s alloc) = some r := by
            rw [step, hr]
            rfl
          obtain ⟨t, log, hrun, hlog, hold⟩ :=
            ih href hholds hcalls (hstill.2 r hstep) (hcontinues.2 r hstep)
          refine ⟨t, (s, offset) :: log, by simp [run, hr, hrun], ?_, fun v o hv => ?_⟩
          · intro x hx
            rcases List.mem_cons.mp hx with rfl | hx
            · exact hold s offset (by rw [← hholds.lookup, hlookup])
            · exact hlog x hx
          · apply hold
            rw [← hmore]
            exact offsetOf_append hv more
      | read alloc =>
          have hread : ∃ r q rest, m.read hashCode file alloc = some r ∧
              Refines hashCode r q ∧ Holds (strings ++ rest) q := by
            cases file with
            | none => exact ⟨m, p, [], rfl, h, by rwa [List.append_nil]⟩
            | some content =>
                obtain ⟨saved, p₀, h₀, rfl⟩ := hfile content rfl
                have hprefix := hcontinues.1.resolve_left not_false p₀.pool rfl
                rw [h.cells, hp.pool_eq, h₀.pool_eq] at hprefix
                obtain ⟨rest, rfl⟩ := prefix_of_terminated hp.nulFree h₀.nulFree hprefix
                obtain ⟨r, q, hr, hq, hrq⟩ := read_refines h hp h₀ hstill.1
                exact ⟨r, q, rest, hr, hrq, hq⟩
          obtain ⟨r, q, rest, hr, hrq, hq⟩ := hread
          obtain ⟨t, log, hrun, hlog, hold⟩ :=
            ih hrq hq hcalls (hstill.2 r hr) (hcontinues.2 r hr)
          exact ⟨t, log, by simp [run, hr, hrun], hlog,
            fun v o hv => hold v o (offsetOf_append hv rest)⟩

theorem construct_refines {alloc : ℕ} {m : Memory C}
    (hm : Memory.construct hashCode alloc = some m) :
    ∃ p, Refines hashCode m p ∧ Holds [[]] p := by
  obtain ⟨p, hp, hholds⟩ : ∃ p : Pool, p = ⟨true, [0], (∅ : AList fun _ : Bytes => ℕ).insert [] 0,
      StartPoolSize⟩ ∧ Holds [[]] p := by
    obtain ⟨q, hq, -, hholds⟩ := StringPool.construct_spec
    refine ⟨q, ?_, hholds⟩
    have hsize : (0 : ℕ) < StartPoolSize := by decide
    simp [Pool.construct, Pool.internalAdd, Pool.grownSize, cString, hsize, hsize.ne'] at hq
    exact hq.symm
  obtain ⟨m', hm', -, rfl⟩ := construct_spec hashCode alloc
  obtain rfl := Option.some.inj (hm.symm.trans hm')
  refine ⟨p, ⟨by rw [hp], by rw [hp]; rfl, le_rfl, by rw [hp], ⟨?_, ?_⟩⟩, hholds⟩
  · intro n hn
    rw [List.mem_singleton.mp hn]
    exact ⟨[], ⟨rfl, rfl, rfl, rfl, by simp⟩, by rw [hholds.lookup]; rfl⟩
  · intro v offset hv
    rw [hholds.lookup] at hv
    obtain rfl : v = [] := by
      by_contra hne
      simp [offsetOf, hne] at hv
    exact ⟨_, List.mem_singleton.mpr rfl, ⟨rfl, rfl, rfl, rfl, by simp⟩⟩

/-- New strings can be added one after the other. -/
theorem exists_holds_append {strings : List Bytes} {p : Pool} (h : Holds strings p)
    (more : List Bytes) (hfree : ∀ s ∈ more, 0 ∉ s) (hlength : ∀ s ∈ more, s.length ≤ 65535)
    (hnodup : (strings ++ more).Nodup) : ∃ q, Holds (strings ++ more) q := by
  induction more generalizing strings p with
  | nil => exact ⟨p, by rwa [List.append_nil]⟩
  | cons s more ih =>
      have hlist : strings ++ s :: more = (strings ++ [s]) ++ more := by simp
      have hnew : p.hash.lookup s = none := by
        rw [h.lookup]
        apply offsetOf_eq_none
        intro hmem
        exact (List.nodup_append.mp hnodup).2.2 s hmem s (by simp) rfl
      rw [hlist] at hnodup ⊢
      exact ih (h.concat (hfree s (by simp)) (hlength s (by simp)) hnew)
        (fun t ht => hfree t (by simp [ht])) (fun t ht => hlength t (by simp [ht])) hnodup

/-- The strings of a pool that has outgrown its first buffer: one of every
length below 32400. -/
def manyStrings : List Bytes := (List.range 32400).map fun n => List.replicate n 97

theorem length_terminated_replicate (n : ℕ) :
    (terminated 0 ((List.range n).map fun k => List.replicate k (97 : UInt8))).length * 2 =
      n * (n + 1) := by
  induction n with
  | zero => rfl
  | succ n ih =>
      rw [List.range_succ, List.map_append, terminated_append, List.length_append, Nat.add_mul, ih]
      simp
      ring

theorem manyStrings_held : ∃ p, Holds manyStrings p := by
  obtain ⟨p, -, -, hp⟩ := StringPool.construct_spec
  have hrange : ∀ k : ℕ, (List.range (k + 1)).map (fun n => List.replicate n (97 : UInt8)) =
      [[]] ++ (List.range k).map fun n => List.replicate (n + 1) 97 := by
    intro k
    rw [List.range_succ_eq_map, List.map_cons, List.map_map]
    rfl
  have hsplit := hrange 32399
  change manyStrings = _ at hsplit
  have hnodup : manyStrings.Nodup := by
    refine List.Nodup.map (fun a b hab => ?_) List.nodup_range
    simpa using congrArg List.length hab
  rw [hsplit] at hnodup ⊢
  refine exists_holds_append hp _ ?_ ?_ hnodup
  · simp
  · simp only [List.mem_map, List.mem_range]
    rintro s ⟨n, hn, rfl⟩
    rw [List.length_replicate]
    omega

end Tarracsh.StringPoolRefinement
