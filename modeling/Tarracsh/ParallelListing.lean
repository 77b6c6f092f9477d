import Tarracsh.QuerySemantics
import Tarracsh.ExportPasses
import Tarracsh.LinkExactness
import Tarracsh.TaskPools
import Mathlib.Data.BitVec

/-!
# The tasks of a listing

`Table::list` hands the rows to a thread pool in chunks. Each task collects the
rows of its chunk in a vector of its own and counts them in an `int` that all
tasks share. The order in which the tasks act is not known. When the pool has
been waited for, the vectors are printed one after the other.
-/
namespace Tarracsh.ParallelListing
open TableModel TableInvariant QueryListener QuerySemantics CountedLoops CallGraphExport
open ExportPasses MachineIntegers TaskPools

/-- Where a task is. `scanning` is the head of its loop, and `counting` is behind
`push_back`. -/
inductive Phase where
  | waiting
  | scanning (index stop : ℕ)
  | counting (index stop : ℕ)
  | finished
  deriving DecidableEq, Repr

/-- A task with its vector of `outputByChuck`. -/
structure Task (α : Type) where
  phase : Phase
  outputById : List (Row α)

def chunkSize (activeThreads rowsScanned : ℕ) : ℕ :=
  if activeThreads = 0 then 0 else (rowsScanned + activeThreads - 1) % 2 ^ 64 / activeThreads

section Tasks
variable {α : Type} (t : Table α) (filter : Row α → Bool) (chunkSize chunkIndex : ℕ)

/-- The next action of a task, with what it adds to `rowsFound`. -/
def action (task : Task α) : Option (Task α × BitVec 32) :=
  match task.phase with
  | .waiting =>
      let index := chunkIndex * chunkSize % 2 ^ 64
      let stop := min ((index + chunkSize) % 2 ^ 64) t.autoIncrementIndex.length
      if chunkSize = 0 ∨ stop ≤ index then some ({ task with phase := .finished }, 0)
      else some ({ task with phase := .scanning index stop }, 0)
  | .scanning index stop =>
      if index < stop then do
        let row ← t.getRow index
        if !row.isDeleted && filter row then
          some (⟨.counting index stop, task.outputById ++ [row]⟩, 0)
        else some ({ task with phase := .scanning (index + 1) stop }, 0)
      else some ({ task with phase := .finished }, 0)
  | .counting index stop => some ({ task with phase := .scanning (index + 1) stop }, 1)
  | .finished => none

end Tasks

section Listings
variable {α : Type} (t : Table α) (hardwareThreads : ℕ) (filter : Row α → Bool)

/-- The number of tasks. -/
def threads : ℕ := activeThreads hardwareThreads t.autoIncrementIndex.length

abbrev Listing := Pool (Fin (threads t hardwareThreads)) (Task α) (BitVec 32)

def start : Listing t hardwareThreads := ⟨fun _ => ⟨.waiting, []⟩, 0⟩

def next (chunkIndex : Fin (threads t hardwareThreads)) : Task α → Option (Task α × BitVec 32) :=
  action t filter (chunkSize (threads t hardwareThreads) t.autoIncrementIndex.length) chunkIndex

variable {t hardwareThreads}

/-- `threadPool.wait()` returns. -/
def Waited (p : Listing t hardwareThreads) : Prop := ∀ i, (p.tasks i).phase = .finished

def printed (p : Listing t hardwareThreads) : List (Row α) :=
  (List.ofFn fun i => (p.tasks i).outputById).flatten

def rowsFound (p : Listing t hardwareThreads) : ℤ := p.total.toInt

variable (t hardwareThreads)

/-- `forEach` visits these rows. -/
def Visits (visited : List (Row α)) : Prop :=
  ∃ fuel, forEachRow t (fun visited row => some (visited ++ [row])) fuel [] = .returned visited

/-- However the tasks are scheduled, the listing comes to its end with these rows. -/
structure Lists (rows : List (Row α)) : Prop where
  bounded : ∃ n, ∀ schedule p,
    run (next t hardwareThreads filter) schedule (start t hardwareThreads) = some p →
      schedule.length ≤ n
  finishes : ∀ schedule p,
    run (next t hardwareThreads filter) schedule (start t hardwareThreads) = some p →
      ∃ schedule' q, run (next t hardwareThreads filter) schedule' p = some q ∧ Waited q
  ordered : rows.Pairwise fun r s => r.id < s.id
  printed : ∀ schedule p,
    run (next t hardwareThreads filter) schedule (start t hardwareThreads) = some p → Waited p →
      printed p = rows
  rowsFound : ∀ schedule p,
    run (next t hardwareThreads filter) schedule (start t hardwareThreads) = some p → Waited p →
      rowsFound p = rows.length

end Listings

section Chunks
variable {α : Type} {L : Layout α} {t : Table α} {rs : List (Row α)} {filter : Row α → Bool}

/-- The rows of a part of the table that are to be listed. -/
def found (filter : Row α → Bool) (rs : List (Row α)) (index count : ℕ) : List (Row α) :=
  ((rs.drop index).take count).filter fun r => !r.isDeleted && filter r

theorem found_succ {index : ℕ} (hlt : index < rs.length) (count : ℕ) :
    found filter rs index (count + 1) =
      (if !rs[index].isDeleted && filter rs[index] then [rs[index]] else []) ++
        found filter rs (index + 1) count := by
  rw [found, List.drop_eq_getElem_cons hlt, List.take_succ_cons, List.filter_cons, found]
  split <;> rfl

section Actions
variable (size chunkIndex : ℕ) {index stop : ℕ} {output : List (Row α)}

theorem action_stop (h : stop ≤ index) :
    action t filter size chunkIndex ⟨.scanning index stop, output⟩ =
      some (⟨.finished, output⟩, 0) := by
  simp [action, Nat.not_lt.mpr h]

theorem action_counting :
    action t filter size chunkIndex ⟨.counting index stop, output⟩ =
      some (⟨.scanning (index + 1) stop, output⟩, 1) := rfl

theorem action_found {r : Row α} (h : index < stop) (hr : t.getRow index = some r)
    (hfound : (!r.isDeleted && filter r) = true) :
    action t filter size chunkIndex ⟨.scanning index stop, output⟩ =
      some (⟨.counting index stop, output ++ [r]⟩, 0) := by
  simp only [action, h, hr, hfound, if_true, Option.bind_eq_bind, Option.bind_some]

theorem action_other {r : Row α} (h : index < stop) (hr : t.getRow index = some r)
    (hother : (!r.isDeleted && filter r) = false) :
    action t filter size chunkIndex ⟨.scanning index stop, output⟩ =
      some (⟨.scanning (index + 1) stop, output⟩, 0) := by
  simp only [action, h, hr, hother, if_true, Bool.false_eq_true, if_false, Option.bind_eq_bind,
    Option.bind_some]

end Actions

/-- The loop of a task. -/
theorem ends_scanning (hcore : Core L t rs) (size chunkIndex index count : ℕ)
    (hcount : index + count ≤ rs.length) (output : List (Row α)) :
    ∃ steps, Ends (action t filter size chunkIndex) ⟨.scanning index (index + count), output⟩
      ⟨.finished, output ++ found filter rs index count⟩
      ((found filter rs index count).length : BitVec 32) steps := by
  induction count generalizing index output with
  | zero =>
      have haction : action t filter size chunkIndex ⟨.scanning index index, output⟩ =
          some (⟨.finished, output⟩, 0) := action_stop size chunkIndex (Nat.le_refl index)
      have hlast := Ends.act haction (.done rfl)
      exact ⟨_, by simpa [found] using hlast⟩
  | succ count ih =>
      have hlt : index < rs.length := by omega
      have hrow : t.getRow index = some rs[index] := by
        rw [hcore.getRow_eq, List.getElem?_eq_getElem hlt]
      have hstop : index + (count + 1) = index + 1 + count := by omega
      rw [found_succ hlt, hstop]
      cases hfound : !rs[index].isDeleted && filter rs[index] with
      | true =>
          obtain ⟨steps, hrest⟩ := ih (index + 1) (by omega) (output ++ [rs[index]])
          have hall := Ends.act (action_found size chunkIndex (by omega) hrow hfound)
            (.act (action_counting size chunkIndex) hrest)
          exact ⟨_, by simpa [Nat.cast_add, add_comm] using hall⟩
      | false =>
          obtain ⟨steps, hrest⟩ := ih (index + 1) (by omega) output
          have hall := Ends.act (action_other size chunkIndex (by omega) hrow hfound) hrest
          exact ⟨_, by simpa using hall⟩

/-- A task is a loop over its chunk. -/
theorem ends_task (hcore : Core L t rs) {size chunkIndex : ℕ}
    (hfits : chunkIndex * size + size < 2 ^ 64) :
    ∃ steps, Ends (action t filter size chunkIndex) ⟨.waiting, []⟩
      ⟨.finished, found filter rs (chunkIndex * size) size⟩
      ((found filter rs (chunkIndex * size) size).length : BitVec 32) steps := by
  have hindex : chunkIndex * size % 2 ^ 64 = chunkIndex * size := Nat.mod_eq_of_lt (by omega)
  have hnext : (chunkIndex * size + size) % 2 ^ 64 = chunkIndex * size + size :=
    Nat.mod_eq_of_lt hfits
  have hlength := hcore.length_eq
  generalize hstart : chunkIndex * size = index at *
  by_cases hempty : size = 0 ∨ min (index + size) rs.length ≤ index
  · have hnone : found filter rs index size = [] := by
      rcases hempty with hempty | hempty
      · simp [found, hempty]
      · have hpast : rs.length ≤ index ∨ size = 0 := by omega
        rcases hpast with hpast | hpast
        · simp [found, List.drop_eq_nil_of_le hpast]
        · simp [found, hpast]
    have haction : action t filter size chunkIndex ⟨.waiting, []⟩ =
        some (⟨.finished, []⟩, 0) := by
      simp only [action, hstart, hindex, hnext, hlength, hempty, if_true]
    have hall := Ends.act haction (.done rfl)
    exact ⟨_, by simpa [hnone] using hall⟩
  · have haction : action t filter size chunkIndex ⟨.waiting, []⟩ =
        some (⟨.scanning index (min (index + size) rs.length), []⟩, 0) := by
      simp only [action, hstart, hindex, hnext, hlength, hempty, if_false]
    push Not at hempty
    obtain ⟨count, hcount⟩ := Nat.exists_eq_add_of_le hempty.2.le
    have hsame : found filter rs index size = found filter rs index count := by
      unfold found
      congr 1
      rw [List.take_eq_take_iff, List.length_drop]
      omega
    obtain ⟨steps, hloop⟩ := ends_scanning hcore size chunkIndex index count (by omega) []
    rw [hcount] at haction
    have hall := Ends.act haction hloop
    exact ⟨_, by simpa [hsame] using hall⟩

end Chunks

theorem activeThreads_le (hardwareThreads n : ℕ) :
    activeThreads hardwareThreads n ≤ n ∨ (n = 0 ∧ activeThreads hardwareThreads n = 1) := by
  by_cases hzero : n = 0
  · exact .inr ⟨hzero, by simp [activeThreads, hzero]⟩
  · left
    simp only [activeThreads, hzero, if_false]
    exact (Nat.min_le_right _ _).trans (Nat.mod_le n _)

/-- The chunks cover the rows, and their bounds fit 64 bits. -/
theorem chunkSize_spec {threads n : ℕ} (hpos : threads ≠ 0) (hn : n < 2 ^ 32)
    (hle : threads ≤ n ∨ (n = 0 ∧ threads = 1)) :
    n ≤ threads * chunkSize threads n ∧ threads * chunkSize threads n < 2 ^ 64 := by
  have hsmall : (n + threads - 1) % 2 ^ 64 = n + threads - 1 := Nat.mod_eq_of_lt (by omega)
  have hdivision := Nat.div_add_mod (n + threads - 1) threads
  have hrest := Nat.mod_lt (n + threads - 1) (Nat.pos_of_ne_zero hpos)
  rw [chunkSize, if_neg hpos, hsmall]
  omega

section Schedules
variable {α : Type} {L : Layout α} {t : Table α} {rs : List (Row α)} {filter : Row α → Bool}
  {hardwareThreads : ℕ}

theorem flatten_found (filter : Row α → Bool) (rs : List (Row α)) {threads size : ℕ}
    (h : rs.length ≤ threads * size) :
    (List.ofFn fun i : Fin threads => found filter rs (i * size) size).flatten =
      (live rs).filter filter := by
  have hrange : (List.ofFn fun i : Fin threads => found filter rs (i * size) size) =
      (List.range threads).map fun i => found filter rs (i * size) size :=
    List.ext_getElem (by simp) (by simp)
  have hchunks := flatten_chunks rs (fun r => !r.isDeleted && filter r) size threads
  rw [List.take_of_length_le h] at hchunks
  rw [hrange, live, List.filter_filter]
  simp only [found]
  rw [hchunks]
  congr 1
  funext r
  rw [Bool.and_comm]

variable (filter hardwareThreads) in
/-- From the start on, all schedules lead to the chunks of the rows. -/
theorem leads_start (hcore : Core L t rs) (hn : rs.length < 2 ^ 32) :
    ∃ ends total steps, Leads (next t hardwareThreads filter) (start t hardwareThreads) ends total
        steps ∧ (∀ i, (ends i).phase = .finished) ∧
      (List.ofFn fun i => (ends i).outputById).flatten = (live rs).filter filter ∧
      total = (((live rs).filter filter).length : BitVec 32) := by
  have hlength := hcore.length_eq
  have hpos : threads t hardwareThreads ≠ 0 := by
    rw [threads, hlength, Ne, activeThreads_eq_zero_iff]
    omega
  obtain ⟨hcover, hfits⟩ := chunkSize_spec hpos hn (by
    rw [threads, hlength]
    exact activeThreads_le hardwareThreads rs.length)
  rw [← hlength] at hcover hfits
  generalize hsize : chunkSize (threads t hardwareThreads) t.autoIncrementIndex.length = size at *
  have htasks : ∀ i : Fin (threads t hardwareThreads), ∃ steps,
      Ends (next t hardwareThreads filter i) ⟨.waiting, []⟩
        ⟨.finished, found filter rs (i * size) size⟩
        ((found filter rs (i * size) size).length : BitVec 32) steps := by
    intro i
    have hlast : i * size + size ≤ threads t hardwareThreads * size := by
      rw [← Nat.succ_mul]
      exact Nat.mul_le_mul_right size i.isLt
    rw [next, hsize]
    exact ends_task hcore (by omega)
  choose steps hsteps using htasks
  have hflatten := flatten_found filter rs (hlength ▸ hcover)
  refine ⟨_, _, _, ⟨_, steps, hsteps, rfl, rfl⟩, fun _ => rfl, hflatten, ?_⟩
  rw [← hflatten, List.length_flatten, List.map_ofFn, List.sum_ofFn, Nat.cast_sum]
  exact zero_add _

theorem ordered_live (hcore : Core L t rs) : (live rs).Pairwise fun r s => r.id < s.id := by
  refine List.Pairwise.filter _ (List.pairwise_iff_getElem.mpr fun i j hi hj hlt => ?_)
  rw [hcore.ids i _ (List.getElem?_eq_getElem hi), hcore.ids j _ (List.getElem?_eq_getElem hj)]
  exact hlt

theorem foldlM_append (rows visited : List (Row α)) :
    rows.foldlM (fun visited row => some (visited ++ [row])) visited = some (visited ++ rows) := by
  induction rows generalizing visited with
  | nil => simp
  | cons r rows ih => simp [List.foldlM_cons, ih]

theorem visits_iff (hcore : Core L t rs) (hn : rs.length < 2 ^ 32) {visited : List (Row α)} :
    Visits t visited ↔ visited = live rs := by
  have hsettles := settles_forEachRow hcore hn (fun visited row => some (visited ++ [row])) []
  rw [foldlM_append, List.nil_append] at hsettles
  constructor
  · rintro ⟨fuel, hrun⟩
    exact (Option.some.inj (hsettles.returned hrun).2).symm
  · rintro rfl
    obtain ⟨fuel, visited, hrun, hvisited⟩ := hsettles.exists_returned rfl
    rw [Option.some.inj hvisited]
    exact ⟨fuel, hrun⟩

theorem waited_iff_finished {p : Listing t hardwareThreads} {ends total steps}
    (h : Leads (next t hardwareThreads filter) p ends total steps)
    (hends : ∀ i, (ends i).phase = .finished) :
    Waited p ↔ Finished (next t hardwareThreads filter) p := by
  constructor
  · intro hp i
    simp [next, action, hp i]
  · intro hp i
    rw [(h.finished hp).1]
    exact hends i

/-- What is printed and counted when the pool has been waited for, whatever the
number of rows. -/
theorem waited_spec (hcore : Core L t rs) (hn : rs.length < 2 ^ 32)
    {schedule : List (Fin (threads t hardwareThreads))} {p : Listing t hardwareThreads}
    (hrun : run (next t hardwareThreads filter) schedule (start t hardwareThreads) = some p)
    (hp : Waited p) :
    printed p = (live rs).filter filter ∧
      p.total = (((live rs).filter filter).length : BitVec 32) := by
  obtain ⟨ends, total, steps, hstart, hends, hflatten, htotal⟩ :=
    leads_start filter hardwareThreads hcore hn
  obtain ⟨rest, -, hleads⟩ := hstart.after_run hrun
  obtain ⟨htasks, hsum⟩ := hleads.finished ((waited_iff_finished hleads hends).mp hp)
  rw [printed, htasks, hflatten, hsum, htotal]
  exact ⟨rfl, rfl⟩

/-- With fewer than `2 ^ 31` rows every schedule ends with those that `forEach`
visits and the filter accepts. -/
theorem lists_of_length_lt (hcore : Core L t rs) (hn : rs.length < 2 ^ 32)
    (hcount : ((live rs).filter filter).length < 2 ^ 31) :
    Lists t hardwareThreads filter ((live rs).filter filter) := by
  obtain ⟨ends, total, steps, hstart, hends, -, -⟩ :=
    leads_start filter hardwareThreads hcore hn
  constructor
  · refine ⟨steps, fun schedule p hrun => ?_⟩
    obtain ⟨rest, hsteps, -⟩ := hstart.after_run hrun
    omega
  · intro schedule p hrun
    obtain ⟨rest, -, hp⟩ := hstart.after_run hrun
    obtain ⟨schedule', q, hrun', hq⟩ := hp.exists_run
    obtain ⟨rest', -, hleads⟩ := hp.after_run hrun'
    exact ⟨schedule', q, hrun', (waited_iff_finished hleads hends).mpr hq⟩
  · exact List.Pairwise.filter _ (ordered_live hcore)
  · intro schedule p hrun hp
    exact (waited_spec hcore hn hrun hp).1
  · intro schedule p hrun hp
    rw [rowsFound, (waited_spec hcore hn hrun hp).2, BitVec.natCast_eq_ofNat]
    exact toInt_of_lt hcount

/-- No `int` is the number of `2 ^ 31` rows or more. -/
theorem Lists.length_lt {rows : List (Row α)} (h : Lists t hardwareThreads filter rows) :
    rows.length < 2 ^ 31 := by
  obtain ⟨schedule, p, hrun, hp⟩ := h.finishes [] _ rfl
  have hfound := h.rowsFound schedule p hrun hp
  have hlt : p.total.toInt < 2 ^ 31 := BitVec.toInt_lt
  rw [ParallelListing.rowsFound] at hfound
  omega

/-- The listing is that of the rows `forEach` visits and the filter accepts, as
long as there are fewer than `2 ^ 31` of them. -/
theorem lists_visited_iff (hcore : Core L t rs) (hn : rs.length < 2 ^ 32) (hardwareThreads : ℕ)
    (filter : Row α → Bool) :
    (∃ visited, Visits t visited ∧ Lists t hardwareThreads filter (visited.filter filter)) ↔
      ((live rs).filter filter).length < 2 ^ 31 := by
  constructor
  · rintro ⟨visited, hvisited, hlists⟩
    rw [(visits_iff hcore hn).mp hvisited] at hlists
    exact hlists.length_lt
  · intro hcount
    exact ⟨live rs, (visits_iff hcore hn).mpr rfl, lists_of_length_lt hcore hn hcount⟩

end Schedules

section Samples
open ByteStrings DomainTables LinkExactness

def crowdedRow (i : ℕ) : Row FileCols := ⟨0, i, {}⟩

/-- A table of `n` files. -/
def crowded (n : ℕ) : Table FileCols :=
  tableOf Files.format n crowdedRow (fun i => ascii (toString i)) fun _ _ _ _ h =>
    ascii_toString_injective h

theorem core_crowded (n : ℕ) :
    Core ⟨Files.format, fun _ => []⟩ (crowded n) ((List.range n).map crowdedRow) :=
  core_tableOf _ (fun _ => rfl) _

theorem live_crowded (n : ℕ) :
    live ((List.range n).map crowdedRow) = (List.range n).map crowdedRow := by
  rw [live, List.filter_eq_self]
  intro r hr
  obtain ⟨i, -, rfl⟩ := List.mem_map.mp hr
  simp [crowdedRow, Row.isDeleted]

/-- Six rows on eight hardware threads are six chunks, of which three have matching rows. -/
theorem lists_sample :
    ∃ visited, Visits (crowded 6) visited ∧
      Lists (crowded 6) 8 (fun r => r.id % 2 = 0) (visited.filter fun r => r.id % 2 = 0) :=
  (lists_visited_iff (core_crowded 6) (by simp) 8 _).mpr (by decide)

/-- With `2 ^ 31` rows the number that is reported is negative. -/
theorem crowded_not_counted :
    ¬∃ visited, Visits (crowded (2 ^ 31)) visited ∧
      Lists (crowded (2 ^ 31)) 8 (fun _ => true) (visited.filter fun _ => true) := by
  rintro ⟨visited, hvisited, hlists⟩
  have hsmall : ((List.range (2 ^ 31)).map crowdedRow).length < 2 ^ 32 := by
    rw [List.length_map, List.length_range]
    norm_num
  rw [(visits_iff (core_crowded (2 ^ 31)) hsmall).mp hvisited, live_crowded] at hlists
  have hlt := hlists.length_lt
  rw [List.filter_true, List.length_map, List.length_range] at hlt
  omega

end Samples

end Tarracsh.ParallelListing
