import Tarracsh.TableRuns
import Tarracsh.PartialRuns

/-!
# Calls of write that overlap

`write` looks for the file and tests the dirty flag before it takes the lock of
the table, so the save thread and `Database::stop` can both be past the test
when the first of them opens the file. A call that saw no file creates it when
its turn comes, and this truncates what another call has saved by then. The
rows saved there are clean and are not written again: each of them is lost
until it is changed the next time, and nothing else ever gets lost.
-/
namespace Tarracsh.ConcurrentSaves
open ByteStrings ByteFiles TableModel TableInvariant TableFile TableRuns DomainTables
open PartialRuns (run_rest run_singleton run_concat)

/-- Where a thread stands in `write`, with what it saw of the file. -/
inductive Writer where
  | outside
  | looked (fileExists : Bool)
  | waiting (fileExists : Bool)
  | writing

/-- The workers' calls take the lock as a whole. A call of `write` looks for the
file, tests the dirty flag, takes the lock and opens the file, and writes. -/
inductive Act (ι α : Type) where
  | change (op : Op α)
  | look (i : ι)
  | test (i : ι)
  | openFile (i : ι)
  | writeRows (i : ι)

structure State (ι α : Type) where
  table : Table α
  file : Option Bytes
  locked : Bool
  writers : ι → Writer

variable {ι α : Type} [DecidableEq ι] (L : Layout α) (A : Allocator α)

namespace State

/-- Thread `i` gets to another place, and nothing else happens. -/
def move (S : State ι α) (i : ι) (w : Writer) : State ι α :=
  { S with writers := Function.update S.writers i w }

/-- File operations succeed, except that "rb+" needs a file. -/
def step (S : State ι α) : Act ι α → Option (State ι α)
  | .change op =>
      if S.locked then none
      else do
        let s ← Session.step L A ⟨S.table, S.file⟩ op
        some { S with table := s.table }
  | .look i =>
      match S.writers i with
      | .outside => some (S.move i (.looked S.file.isSome))
      | _ => none
  | .test i =>
      match S.writers i with
      | .looked fileExists =>
          if !S.table.isDirty && fileExists then some (S.move i .outside)
          else some (S.move i (.waiting fileExists))
      | _ => none
  | .openFile i =>
      if S.locked then none
      else
        match S.writers i with
        | .waiting false =>
            some { S.move i .writing with file := some S.table.schema.bytes, locked := true }
        | .waiting true =>
            if S.file.isSome then some { S.move i .writing with locked := true }
            else some (S.move i .outside)
        | _ => none
  | .writeRows i =>
      match S.writers i with
      | .writing => do
          let content ← S.table.writeRows L (noFaults L) 0 (S.file.getD [])
          some
            { S.move i .outside with
              table := { S.table with dirtyRows := ∅, isDirty := false }
              file := some content
              locked := false }
      | _ => none

def run (S : State ι α) (acts : List (Act ι α)) : Option (State ι α) :=
  PartialRuns.run (step L A) S acts

end State

/-- The calls that hold the lock from their first to their last access. -/
def takesLock : Op α → Bool
  | .add _ | .addOrUpdate _ | .update _ | .updateInPlace _ _ | .deleteRow _ => true
  | _ => false

/-- A worker keeps the promises of the callers and marks the row it changes, a thread goes
on where it stands, and the rows are written in their places. -/
def Valid (S : State ι α) : Act ι α → Prop
  | .change op => S.locked = false ∧ takesLock op = true ∧ TableRuns.Valid L S.table op ∧
      MarksRows L A S.table op
  | .look i => S.writers i = .outside
  | .test i => ∃ fileExists, S.writers i = .looked fileExists
  | .openFile i => S.locked = false ∧ ∃ fileExists, S.writers i = .waiting fileExists
  | .writeRows i =>
      S.writers i = .writing ∧ Spaced (dirtyOf S.table) S.table.autoIncrementIndex.length

def ValidRun : State ι α → List (Act ι α) → Prop
  | _, [] => True
  | S, act :: acts => Valid L A S act ∧ ∀ S', S.step L A act = some S' → ValidRun S' acts

/-- The act creates the file anew. -/
def Truncates (S : State ι α) (act : Act ι α) : Prop :=
  ∃ i, act = .openFile i ∧ S.writers i = .waiting false

/-- The row was clean when a call created the file anew, and it has not been
changed since then. -/
def Lost (start : State ι α) (acts : List (Act ι α)) (row : ℕ) : Prop :=
  ∃ before act after S, acts = before ++ act :: after ∧ start.run L A before = some S ∧
    Truncates S act ∧ ∀ done T, done <+: after → S.run L A (act :: done) = some T →
      dirtyOf T.table row = false

variable {L A}

/-- A call of `write` that meets no other call is `Table::write`. -/
theorem write_alone {S : State ι α} {i : ι} (hout : S.writers i = .outside)
    (hlocked : S.locked = false) :
    S.run L A (.look i :: .test i :: if !S.table.isDirty && S.file.isSome then []
        else [.openFile i, .writeRows i]) =
      (S.table.write L (noFaults L) S.file).map fun out =>
        { S with table := out.1, file := out.2.1 } := by
  have hback : Function.update S.writers i .outside = S.writers := by
    rw [← hout, Function.update_eq_self]
  by_cases hearly : (!S.table.isDirty && S.file.isSome) = true
  · rw [if_pos hearly, Table.write, if_pos hearly]
    simp only [Bool.and_eq_true, Bool.not_eq_true', Option.isSome_iff_ne_none] at hearly
    simp [State.run, PartialRuns.run, State.step, State.move, hout, hback, hearly]
  · rw [if_neg hearly, Table.write, if_neg hearly]
    cases hfile : S.file with
    | none =>
        simp [State.run, PartialRuns.run, State.step, State.move, hout, hlocked, hfile, hback,
          noFaults]
        rfl
    | some content =>
        have hdirty : S.table.isDirty = true := by simpa [hfile] using hearly
        simp [State.run, PartialRuns.run, State.step, State.move, hout, hlocked, hfile, hback,
          hdirty, noFaults]

omit [DecidableEq ι] in
theorem not_truncates {S : State ι α} {act : Act ι α} (h : ∀ i, act ≠ .openFile i) :
    ¬ Truncates S act := by
  rintro ⟨i, hi, -⟩
  exact h i hi

section Lost
variable {start S S' : State ι α} {acts : List (Act ι α)} {act : Act ι α} {row : ℕ}

/-- A lost row has not been changed up to now. -/
theorem Lost.clean (h : Lost L A start acts row) (hrun : start.run L A acts = some S) :
    dirtyOf S.table row = false := by
  obtain ⟨before, first, after, T, rfl, hbefore, -, hclean⟩ := h
  exact hclean after S List.prefix_rfl ((run_rest hbefore _).symm.trans hrun)

/-- What one more act does to the lost rows. -/
theorem lost_concat (hrun : start.run L A acts = some S) (hstep : S.step L A act = some S')
    (row : ℕ) :
    Lost L A start (acts ++ [act]) row ↔
      dirtyOf S'.table row = false ∧ (Lost L A start acts row ∨ Truncates S act) := by
  have hrun' : start.run L A (acts ++ [act]) = some S' := (run_concat hrun act).trans hstep
  constructor
  · intro hlost
    refine ⟨hlost.clean hrun', ?_⟩
    obtain ⟨before, first, after, T, hacts, hbefore, htruncates, hclean⟩ := hlost
    rcases List.eq_nil_or_concat after with rfl | ⟨later, last, rfl⟩
    · obtain ⟨rfl, hfirst⟩ := List.append_inj' hacts rfl
      obtain rfl : act = first := by simpa using hfirst
      obtain rfl : S = T := Option.some.inj (hrun.symm.trans hbefore)
      exact .inr htruncates
    · have hacts' : acts ++ [act] = (before ++ first :: later) ++ [last] := by simpa using hacts
      obtain ⟨rfl, -⟩ := List.append_inj' hacts' rfl
      refine .inl ⟨before, first, later, T, rfl, hbefore, htruncates, fun done U hdone => ?_⟩
      exact hclean done U (hdone.trans (by simp))
  · rintro ⟨hclean, ⟨before, first, after, T, rfl, hbefore, htruncates, hall⟩ | htruncates⟩
    · refine ⟨before, first, after ++ [act], T, by simp, hbefore, htruncates, ?_⟩
      intro done U hdone hU
      rcases List.prefix_concat_iff.mp hdone with rfl | hdone
      · have hrest : start.run L A (before ++ first :: (after ++ [act])) = some U :=
          (run_rest hbefore _).trans hU
        rw [← List.cons_append, ← List.append_assoc, hrun'] at hrest
        exact Option.some.inj hrest ▸ hclean
      · exact hall done U hdone hU
    · refine ⟨acts, act, [], S, rfl, hrun, htruncates, fun done U hdone hU => ?_⟩
      obtain rfl := List.prefix_nil.mp hdone
      have hlast : S.step L A act = some U := (run_singleton S act).symm.trans hU
      exact Option.some.inj (hstep.symm.trans hlast) ▸ hclean

end Lost

/-- The slot of a clean row stays blank in the loop of `writeRows`. -/
theorem slotLoop_blank {rows : List Bytes} (hrows : ∀ row ∈ rows, row.length = L.rowSize)
    {dirty : ℕ → Bool} {i : ℕ} (hclean : dirty i = false) {k position : ℕ} {content : Bytes}
    (hu : WrittenInPlace L.rowSize (noFaults L) dirty (k + rows.length) k)
    (hposition : OnTrack L.schema.headerSize L.rowSize dirty (k + rows.length) k position)
    (hblank : ∀ b ∈ slot L.schema.headerSize L.rowSize content i, b = 0) :
    ∀ b ∈ slot L.schema.headerSize L.rowSize
        (slotLoop L.schema.headerSize L.rowSize (noFaults L) dirty rows k position
          (gap dirty k % 2 ^ 32) content) i, b = 0 := by
  induction rows generalizing k position content with
  | nil => exact hblank
  | cons row rows ih =>
      have hrow := hrows row (by simp)
      have hrows' : ∀ s ∈ rows, s.length = L.rowSize := fun s hs => hrows s (by simp [hs])
      have hcount : k + (row :: rows).length = k + 1 + rows.length := by
        rw [List.length_cons]
        omega
      rw [hcount] at hu hposition
      cases hd : dirty k with
      | true =>
          have hne : k ≠ i := by
            rintro rfl
            exact absurd (hd.symm.trans hclean) (by simp)
          obtain ⟨haccept, hgap⟩ := hu k le_rfl (by omega) hd
          rw [slotLoop_dirty hd hrow (hposition (by omega) hd) haccept hgap]
          exact ih hrows' (hu.mono (by omega)) onTrack_self
            (blank_slot_writeAt 0 hne hrow.le hblank)
      | false =>
          rw [slotLoop_clean hd]
          exact ih hrows' (hu.mono (by omega)) (onTrack_clean hd) hblank

theorem writeRows_filled {t : Table α} {rs : List (Row α)} (hc : Core L t rs)
    (hspaced : Spaced (dirtyOf t) t.autoIncrementIndex.length) (content : Bytes) :
    ∃ content', t.writeRows L (noFaults L) 0 content = some content' ∧
      Filled L.schema.headerSize L.rowSize (dirtyOf t) (rs.map L.rowBytes) 0 content content' ∧
      ∀ i, dirtyOf t i = false →
        (∀ b ∈ slot L.schema.headerSize L.rowSize content i, b = 0) →
        ∀ b ∈ slot L.schema.headerSize L.rowSize content' i, b = 0 := by
  have hposition : OnTrack L.schema.headerSize L.rowSize (dirtyOf t)
      (0 + (rs.map L.rowBytes).length) 0 L.schema.headerSize := by
    intro _ _ _
    simp
  have hu : WrittenInPlace L.rowSize (noFaults L) (dirtyOf t)
      (0 + (rs.map L.rowBytes).length) 0 := by
    rw [Nat.zero_add, List.length_map, ← hc.length_eq]
    exact undisturbed_noFaults hspaced 0
  exact ⟨_, writeRows_eq hc (noFaults L) 0 content,
    slotLoop_filled (rowSize_pos L) (rowBytes_lengths L rs) hu hposition,
    fun i hclean hblank => slotLoop_blank (rowBytes_lengths L rs) hclean hu hposition hblank⟩

/-- The calls that take the lock do not look at the file. -/
theorem step_file {op : Op α} (hlock : takesLock op = true) (t : Table α)
    (file file' : Option Bytes) :
    Session.step L A ⟨t, file⟩ op =
      (Session.step L A ⟨t, file'⟩ op).map fun s => ⟨s.table, file⟩ := by
  cases op with
  | add row => simp [Session.step, Option.map_bind]
  | addOrUpdate row => simp [Session.step, Option.map_bind]
  | update row => simp [Session.step, Option.map_bind]
  | updateInPlace id change => simp [Session.step, Option.map_bind]
  | deleteRow id => simp [Session.step, Option.map_bind]
  | updateStored id change => simp [takesLock] at hlock
  | archiveRow id => simp [takesLock] at hlock
  | write => simp [takesLock] at hlock
  | reopen => simp [takesLock] at hlock

/-- The calls that take the lock change one row, which is dirty then. -/
theorem locked_effect {t : Table α} {rs : List (Row α)} (hc : Core L t rs) (hf : Filed L t rs)
    (file : Option Bytes) {op : Op α} (hlock : takesLock op = true)
    (hvalid : TableRuns.Valid L t op) (hmarks : MarksRows L A t op) :
    ∃ t' rs' i m, Session.step L A ⟨t, file⟩ op = some ⟨t', file⟩ ∧
      Effect L t rs t' rs' i m ∧ (m = i ∨ (t.dirtyRows.lookup i).isSome) := by
  -- beside the file of its rows the table stands as after a save
  have hinv : Inv L ⟨t, some (image L rs)⟩ rs rs :=
    ⟨hc, hf, ⟨.inr rfl, le_rfl, fun i r hr hne => absurd hr hne⟩, hc.ids, keys_nodup hc hf⟩
  obtain ⟨t', rs', i, m, hstep, he, hm⟩ := step_effect (A := A) hinv hvalid
    (by cases op <;> first | rfl | simp [takesLock] at hlock)
    (by rintro rfl; simp [takesLock] at hlock) (by rintro rfl; simp [takesLock] at hlock)
  exact ⟨t', rs', i, m, by rw [step_file hlock t file (some (image L rs)), hstep]; rfl, he,
    hm hmarks⟩

/-- Where a run stands, with the rows of the table. -/
structure Standing (L : Layout α) (A : Allocator α) (start : State ι α) (acts : List (Act ι α))
    (S : State ι α) (rs : List (Row α)) : Prop where
  ran : start.run L A acts = some S
  core : Core L S.table rs
  filed : Filed L S.table rs
  header : ∀ content, S.file = some content → L.schema.headerSize ≤ content.length ∧
    content.take L.schema.headerSize = L.schema.bytes ∧
    content.length ≤ L.schema.headerSize + rs.length * L.rowSize
  opened : ∀ i, S.writers i = .writing → S.file.isSome
  lost : ∀ row, Lost L A start acts row → ∃ content, S.file = some content ∧
    ∀ b ∈ slot L.schema.headerSize L.rowSize content row, b = 0
  kept : ∀ (row : ℕ) (r : Row α), rs[row]? = some r → ¬ Lost L A start acts row →
    dirtyOf S.table row = true ∨ fileSlot L S.file row = some (L.rowBytes r)

section Steps
variable {start S S' : State ι α} {acts : List (Act ι α)} {rs : List (Row α)} {i : ι}

theorem standing_start {saved : List (Row α)} (hinv : Inv L ⟨start.table, start.file⟩ rs saved)
    (hout : ∀ i, start.writers i = .outside) : Standing L A start [] start rs where
  ran := rfl
  core := hinv.core
  filed := hinv.filed
  header content hcontent := by
    rcases hinv.tracks.file with ⟨hnone, -⟩ | hfile
    · exact absurd (hcontent.symm.trans hnone) (by simp)
    · obtain rfl := Option.some.inj (hcontent.symm.trans hfile)
      have hlength := Nat.mul_le_mul_right L.rowSize hinv.tracks.length
      rw [image_length]
      exact ⟨by omega, image_header L saved, by omega⟩
  opened i hi := absurd ((hout i).symm.trans hi) (by simp)
  lost row hlost := by
    obtain ⟨before, act, after, T, hacts, -⟩ := hlost
    simp at hacts
  kept row r hr _ := by
    by_cases hsaved : saved[row]? = some r
    · rcases hinv.tracks.file with ⟨-, rfl⟩ | hfile
      · simp at hsaved
      · have hfile : start.file = some (image L saved) := hfile
        right
        rw [fileSlot, hfile, Option.map_some, slot_image_row L hsaved]
    · exact .inl (hinv.tracks.tracked row r hr hsaved).1

/-- An act that changes neither the table nor the file. -/
theorem Standing.quiet (h : Standing L A start acts S rs) {act : Act ι α}
    (hstep : S.step L A act = some S') (htable : S'.table = S.table) (hfile : S'.file = S.file)
    (hopened : ∀ i, S'.writers i = .writing → S.file.isSome) (hnot : ¬ Truncates S act) :
    Standing L A start (acts ++ [act]) S' rs := by
  have hlost : ∀ row, Lost L A start (acts ++ [act]) row ↔ Lost L A start acts row := by
    intro row
    rw [lost_concat h.ran hstep, htable]
    constructor
    · rintro ⟨-, hlost | htruncates⟩
      · exact hlost
      · exact absurd htruncates hnot
    · exact fun hlost => ⟨hlost.clean h.ran, .inl hlost⟩
  have hcore := h.core
  have hfiled := h.filed
  have hheader := h.header
  have hblank := h.lost
  have hkept := h.kept
  rw [← htable] at hcore hfiled
  rw [← hfile] at hheader hblank hopened
  rw [← htable, ← hfile] at hkept
  exact ⟨(run_concat h.ran act).trans hstep, hcore, hfiled, hheader, hopened,
    fun row hrow => hblank row ((hlost row).mp hrow),
    fun row r hr hrow => hkept row r hr (mt (hlost row).mpr hrow)⟩

/-- A call that saw no file creates it: the clean rows are lost. -/
theorem Standing.truncated (h : Standing L A start acts S rs) (hlocked : S.locked = false)
    (hwaiting : S.writers i = .waiting false) :
    ∃ S', S.step L A (.openFile i) = some S' ∧
      Standing L A start (acts ++ [.openFile i]) S' rs := by
  have hstep : S.step L A (.openFile i) =
      some { S.move i .writing with file := some S.table.schema.bytes, locked := true } := by
    simp [State.step, hlocked, hwaiting]
  have hlength := schema_bytes_length L
  refine ⟨_, hstep, (run_concat h.ran _).trans hstep, h.core, h.filed, ?_, fun _ _ => rfl, ?_, ?_⟩
  · intro content hcontent
    obtain rfl := Option.some.inj hcontent
    rw [h.core.schema]
    exact ⟨hlength.ge, List.take_of_length_le hlength.le, by omega⟩
  · intro row _
    refine ⟨_, rfl, fun b hb => ?_⟩
    rw [h.core.schema, slot, List.drop_eq_nil_of_le (by omega)] at hb
    simp at hb
  · intro row r _ hrow
    cases hd : dirtyOf S.table row with
    | true => exact .inl hd
    | false =>
        exact absurd ((lost_concat h.ran hstep row).mpr ⟨hd, .inr ⟨i, rfl, hwaiting⟩⟩) hrow

/-- The dirty rows are written, and the lost ones are not. -/
theorem Standing.written (h : Standing L A start acts S rs) (hwriting : S.writers i = .writing)
    (hspaced : Spaced (dirtyOf S.table) S.table.autoIncrementIndex.length) :
    ∃ S', S.step L A (.writeRows i) = some S' ∧
      Standing L A start (acts ++ [.writeRows i]) S' rs := by
  obtain ⟨content, hfile⟩ := Option.isSome_iff_exists.mp (h.opened i hwriting)
  obtain ⟨hheader, htake, hbound⟩ := h.header content hfile
  obtain ⟨content', hrows, hfilled, hblank⟩ := writeRows_filled h.core hspaced content
  have hstep : S.step L A (.writeRows i) = some
      { S.move i .outside with
        table := { S.table with dirtyRows := ∅, isDirty := false }
        file := some content'
        locked := false } := by
    simp [State.step, hwriting, hfile, hrows]
  have hnot : ¬ Truncates S (.writeRows i) := not_truncates (by simp)
  have hlost : ∀ row, Lost L A start (acts ++ [.writeRows i]) row ↔ Lost L A start acts row := by
    intro row
    rw [lost_concat h.ran hstep]
    exact ⟨fun hrow => hrow.2.resolve_right hnot, fun hrow => ⟨rfl, .inl hrow⟩⟩
  refine ⟨_, hstep, (run_concat h.ran _).trans hstep,
    ⟨h.core.schema, h.core.heap, h.core.ids, h.core.nodup, h.core.rows⟩, h.filed, ?_,
    fun _ _ => rfl, ?_, ?_⟩
  · intro _ hcontent
    obtain rfl := Option.some.inj hcontent
    refine ⟨hheader.trans hfilled.longer, (hfilled.header hheader).trans htake,
      hfilled.bounded.trans (max_le hbound ?_)⟩
    rw [Nat.zero_add, List.length_map]
  · intro row hrow
    have hrow := (hlost row).mp hrow
    obtain ⟨_, hcontent, hslot⟩ := h.lost row hrow
    obtain rfl := Option.some.inj (hfile.symm.trans hcontent)
    exact ⟨content', rfl, hblank row (hrow.clean h.ran) hslot⟩
  · intro row r hr hrow
    right
    change some (slot L.schema.headerSize L.rowSize content' row) = _
    congr 1
    cases hd : dirtyOf S.table row with
    | true =>
        have hwritten := hfilled.written row (L.rowBytes r) (by rw [List.getElem?_map, hr]; rfl)
          (by rwa [Nat.zero_add])
        rwa [Nat.zero_add] at hwritten
    | false =>
        have hslot := (h.kept row r hr (mt (hlost row).mpr hrow)).resolve_left (by simp [hd])
        rw [hfile, fileSlot, Option.map_some] at hslot
        exact hfilled.kept row _ (rowBytes_length L r) (Option.some.inj hslot) (.inr (.inr hd))

/-- A worker changes one row, which is dirty then. -/
theorem Standing.changed (h : Standing L A start acts S rs) {op : Op α}
    (hvalid : Valid L A S (.change op : Act ι α)) :
    ∃ S' rs', S.step L A (.change op) = some S' ∧
      Standing L A start (acts ++ [.change op]) S' rs' := by
  obtain ⟨hlocked, hlock, hop, hmarks⟩ := hvalid
  obtain ⟨t', rs', k, m, hrun, he, hm⟩ := locked_effect h.core h.filed S.file hlock hop hmarks
  have hstep : S.step L A (.change op) = some { S with table := t' } := by
    simp [State.step, hlocked, hrun]
  have hnot : ¬ Truncates S (.change op) := not_truncates (by simp)
  refine ⟨_, rs', hstep, (run_concat h.ran _).trans hstep, he.core, he.filed h.filed, ?_,
    h.opened, ?_, ?_⟩
  · intro content hcontent
    obtain ⟨hheader, htake, hbound⟩ := h.header content hcontent
    have hlength := Nat.mul_le_mul_right L.rowSize he.length
    exact ⟨hheader, htake, by omega⟩
  · intro row hrow
    exact h.lost row (((lost_concat h.ran hstep row).mp hrow).2.resolve_right hnot)
  · intro row r hr hrow
    cases hd : dirtyOf t' row with
    | true => exact .inl rfl
    | false =>
        have hclean : ¬ (row = m ∨ dirtyOf S.table row = true) := by
          intro hmarked
          exact absurd (((he.marked row).mpr hmarked).symm.trans hd) (by simp)
        have hother : row ≠ k := by
          rintro rfl
          exact hclean (hm.imp_left Eq.symm)
        rw [he.others row hother] at hr
        have hlost : ¬ Lost L A start acts row := fun hlost =>
          hrow ((lost_concat h.ran hstep row).mpr ⟨hd, .inl hlost⟩)
        exact .inr ((h.kept row r hr hlost).resolve_left fun hdirty => hclean (.inr hdirty))

/-- Every act that is possible leads on. -/
theorem Standing.step (h : Standing L A start acts S rs) {act : Act ι α}
    (hvalid : Valid L A S act) :
    ∃ S' rs', S.step L A act = some S' ∧ Standing L A start (acts ++ [act]) S' rs' := by
  -- a thread that does not come to `writing` leaves the open file to the others
  have hopened : ∀ (i : ι) (w : Writer), (w = .writing → S.file.isSome) →
      ∀ j, (S.move i w).writers j = .writing → S.file.isSome := by
    intro i w hw j hj
    by_cases hji : j = i
    · subst hji
      exact hw (by simpa [State.move] using hj)
    · exact h.opened j (by simpa [State.move, Function.update_of_ne hji] using hj)
  cases act with
  | change op => exact h.changed hvalid
  | look i =>
      have hstep : S.step L A (.look i) = some (S.move i (.looked S.file.isSome)) := by
        have hout : S.writers i = .outside := hvalid
        simp [State.step, hout]
      exact ⟨_, rs, hstep, h.quiet hstep rfl rfl (hopened i _ (by simp)) (not_truncates (by simp))⟩
  | test i =>
      obtain ⟨fileExists, hlooked⟩ := hvalid
      have hnot : ¬ Truncates S (.test i : Act ι α) := not_truncates (by simp)
      by_cases hearly : (!S.table.isDirty && fileExists) = true
      · have hstep : S.step L A (.test i) = some (S.move i .outside) := by
          simp only [State.step, hlooked, hearly, if_true]
        exact ⟨_, rs, hstep, h.quiet hstep rfl rfl (hopened i _ (by simp)) hnot⟩
      · have hstep : S.step L A (.test i) = some (S.move i (.waiting fileExists)) := by
          simp [State.step, hlooked, hearly]
        exact ⟨_, rs, hstep, h.quiet hstep rfl rfl (hopened i _ (by simp)) hnot⟩
  | openFile i =>
      obtain ⟨hlocked, fileExists, hwaiting⟩ := hvalid
      cases fileExists with
      | false =>
          obtain ⟨S', hstep, hstanding⟩ := h.truncated hlocked hwaiting
          exact ⟨S', rs, hstep, hstanding⟩
      | true =>
          have hnot : ¬ Truncates S (.openFile i : Act ι α) := by
            rintro ⟨j, hj, hsaw⟩
            obtain rfl := Act.openFile.inj hj
            exact absurd (hwaiting.symm.trans hsaw) (by simp)
          by_cases hfile : S.file.isSome = true
          · have hstep : S.step L A (.openFile i) =
                some { S.move i .writing with locked := true } := by
              simp [State.step, hlocked, hwaiting, hfile]
            exact ⟨_, rs, hstep, h.quiet hstep rfl rfl (hopened i .writing fun _ => hfile) hnot⟩
          · have hstep : S.step L A (.openFile i) = some (S.move i .outside) := by
              simp [State.step, hlocked, hwaiting, hfile]
            exact ⟨_, rs, hstep, h.quiet hstep rfl rfl (hopened i _ (by simp)) hnot⟩
  | writeRows i =>
      obtain ⟨S', hstep, hstanding⟩ := h.written hvalid.1 hvalid.2
      exact ⟨S', rs, hstep, hstanding⟩

theorem Standing.run (h : Standing L A start acts S rs) {later : List (Act ι α)}
    (hvalid : ValidRun L A S later) :
    ∃ S' rs', Standing L A start (acts ++ later) S' rs' := by
  induction later generalizing S acts rs with
  | nil => exact ⟨S, rs, by rwa [List.append_nil]⟩
  | cons act later ih =>
      obtain ⟨S₁, rs₁, hstep, h₁⟩ := h.step hvalid.1
      obtain ⟨S', rs', h'⟩ := ih h₁ (hvalid.2 S₁ hstep)
      exact ⟨S', rs', by rwa [List.append_assoc] at h'⟩

/-- If no row is dirty and none is lost, the file is complete. -/
theorem Standing.complete (h : Standing L A start acts S rs) (hrs : rs ≠ [])
    (hall : ∀ row < rs.length, dirtyOf S.table row = false ∧ ¬ Lost L A start acts row) :
    S.file = some (image L rs) := by
  have hslot : ∀ (row : ℕ) (r : Row α), rs[row]? = some r →
      fileSlot L S.file row = some (L.rowBytes r) := by
    intro row r hr
    obtain ⟨hd, hlost⟩ := hall row (List.getElem?_eq_some_iff.mp hr).1
    exact (h.kept row r hr hlost).resolve_left (by simp [hd])
  have hpos := List.length_pos_of_ne_nil hrs
  obtain ⟨r, hr⟩ : ∃ r, rs[rs.length - 1]? = some r :=
    ⟨_, List.getElem?_eq_getElem (by omega)⟩
  obtain ⟨content, hfile, hlast⟩ := Option.map_eq_some_iff.mp (hslot _ r hr)
  obtain ⟨hheader, htake, hbound⟩ := h.header content hfile
  have hend := slot_end_le (rowBytes_length L r) hlast (rowSize_pos L)
  rw [Nat.sub_add_cancel hpos] at hend
  rw [hfile, image]
  congr 1
  refine eq_image (rowBytes_lengths L rs) htake ?_ ?_
  · rw [List.length_map]
    omega
  · intro row cells hcells
    rw [List.getElem?_map] at hcells
    obtain ⟨s, hs, rfl⟩ := Option.map_eq_some_iff.mp hcells
    have hrow := hslot row s hs
    rw [hfile, fileSlot, Option.map_some] at hrow
    exact Option.some.inj hrow

end Steps

/-- Workers and any number of calls of `write` in any order, from any state in
which no call of `write` is under way. No act fails. A row that is not dirty is
in the file unless a call that saw no file created it while the row was clean;
then nothing of the row is in the file. Without dirty and lost rows the file is
the whole table. -/
theorem overlapping_saves {start : State ι α} {rs saved : List (Row α)}
    (hinv : Inv L ⟨start.table, start.file⟩ rs saved) (hout : ∀ i, start.writers i = .outside)
    {acts : List (Act ι α)} (hvalid : ValidRun L A start acts) :
    ∃ S rs', start.run L A acts = some S ∧ Core L S.table rs' ∧ Filed L S.table rs' ∧
      (∀ row, Lost L A start acts row → ∃ content, S.file = some content ∧
        ∀ b ∈ slot L.schema.headerSize L.rowSize content row, b = 0) ∧
      (∀ (row : ℕ) (r : Row α), rs'[row]? = some r → ¬ Lost L A start acts row →
        dirtyOf S.table row = true ∨ fileSlot L S.file row = some (L.rowBytes r)) ∧
      (rs' ≠ [] →
        (∀ row < rs'.length, dirtyOf S.table row = false ∧ ¬ Lost L A start acts row) →
        S.file = some (image L rs')) := by
  obtain ⟨S, rs', h⟩ := (standing_start hinv hout).run hvalid
  exact ⟨S, rs', h.ran, h.core, h.filed, h.lost, h.kept, h.complete⟩

theorem ValidRun.cons {S S' : State ι α} {act : Act ι α} {acts : List (Act ι α)}
    (hvalid : Valid L A S act) (hstep : S.step L A act = some S') (h : ValidRun L A S' acts) :
    ValidRun L A S (act :: acts) := by
  refine ⟨hvalid, fun T hT => ?_⟩
  obtain rfl := Option.some.inj (hstep.symm.trans hT)
  exact h

def sampleStart : State Bool ClassFileCols :=
  ⟨Table.construct sampleLayout, none, false, fun _ => .outside⟩

/-- The class A is added, and two calls look for the file before one creates it. -/
def sampleActs : List (Act Bool ClassFileCols) :=
  [.change (.add sampleRow), .look false, .test false, .look true, .test true, .openFile false,
    .writeRows false, .openFile true, .writeRows true]

/-- The second call leaves a file without the class A. -/
theorem overlapping_saves_sample :
    ∃ S rs, sampleStart.run sampleLayout (.next _) sampleActs = some S ∧
      Core sampleLayout S.table rs ∧ ∃ content, S.file = some content ∧
        ∀ b ∈ slot sampleLayout.schema.headerSize sampleLayout.rowSize content 0, b = 0 := by
  have hvalid : ValidRun sampleLayout (.next _) sampleStart sampleActs := by
    refine .cons ⟨rfl, rfl, rfl, trivial⟩ rfl ?_
    refine .cons rfl rfl ?_
    refine .cons ⟨_, rfl⟩ rfl ?_
    refine .cons rfl rfl ?_
    refine .cons ⟨_, rfl⟩ rfl ?_
    refine .cons ⟨rfl, _, rfl⟩ rfl ?_
    refine .cons ⟨rfl, spaced_of_le (show 1 ≤ 2 ^ 32 by norm_num)⟩ rfl ?_
    refine .cons ⟨rfl, _, rfl⟩ rfl ?_
    exact .cons ⟨rfl, spaced_of_le (show 1 ≤ 2 ^ 32 by norm_num)⟩ rfl trivial
  obtain ⟨S, rs, hrun, hcore, -, hlost, -, -⟩ :=
    overlapping_saves (inv_start (L := sampleLayout)) (fun _ => rfl) hvalid
  refine ⟨S, rs, hrun, hcore, hlost 0 ⟨sampleActs.take 7, .openFile true, [.writeRows true], _, rfl,
    rfl, ⟨true, rfl, rfl⟩, fun done T hdone hT => ?_⟩⟩
  rcases List.prefix_cons_iff.mp hdone with rfl | ⟨rest, rfl, hrest⟩
  · exact Option.some.inj hT ▸ rfl
  · obtain rfl := List.prefix_nil.mp hrest
    exact Option.some.inj hT ▸ rfl

end Tarracsh.ConcurrentSaves
