import Tarracsh.TableFile
import Tarracsh.DomainTables

/-!
# Runs of a table over its file

A session is a table object with its file. Every sequence of valid calls keeps
the representation invariant as long as each save writes the rows in their
places and each update through a new row marks the row that it overwrites; and
what `write` leaves can be read back, as long as no row was archived.
-/
namespace Tarracsh.TableRuns
open ByteStrings ByteFiles StringPool TableModel TableInvariant TableFile DomainTables

/-- The calls on a table. `add`, `addOrUpdate` and `update` are given a newly
allocated row; `updateStored` passes a stored row, changed by its holder, to
`update`; `reopen` replaces the object by a new one that reads the file. -/
inductive Op (α : Type) where
  | add (row : Row α)
  | addOrUpdate (row : Row α)
  | update (row : Row α)
  | updateStored (id : ℕ) (change : Row α → Row α)
  | updateInPlace (id : ℕ) (change : Row α → Row α)
  | deleteRow (id : ℕ)
  | archiveRow (id : ℕ)
  | write
  | reopen

structure Session (α : Type) where
  table : Table α
  file : Option Bytes

variable {α : Type} (L : Layout α) (A : Allocator α)

namespace Session

def start : Session α := ⟨Table.construct L, none⟩

/-- File operations succeed. -/
def step (s : Session α) : Op α → Option (Session α)
  | .add row => do
      let (t, p) := s.table.allocate A row
      let (t, _) ← t.add L p
      some ⟨t, s.file⟩
  | .addOrUpdate row => do
      let (t, p) := s.table.allocate A row
      let (t, _) ← t.addOrUpdate L A p
      some ⟨t, s.file⟩
  | .update row => do
      let (t, p) := s.table.allocate A row
      let t ← t.update L A p
      some ⟨t, s.file⟩
  | .updateStored id change => do
      let p ← s.table.autoIncrementIndex[id]?
      let row ← s.table.heap.lookup p
      let t ← Table.update L { s.table with heap := s.table.heap.insert p (change row) } A p
      some ⟨t, s.file⟩
  | .updateInPlace id change => do
      let p ← s.table.autoIncrementIndex[id]?
      let t ← s.table.updateInPlace p change
      some ⟨t, s.file⟩
  | .deleteRow id => do
      let t ← s.table.deleteRow id
      some ⟨t, s.file⟩
  | .archiveRow id => do
      let p ← s.table.autoIncrementIndex[id]?
      let row ← s.table.heap.lookup p
      let t ← s.table.archiveRow p (L.getKey row.cols)
      some ⟨t, s.file⟩
  | .write => do
      let (t, file, _) ← s.table.write L (noFaults L) s.file
      some ⟨t, file⟩
  | .reopen => do
      let (t, _) ← (Table.construct L).read L A s.file
      some ⟨t, s.file⟩

def run (s : Session α) (ops : List (Op α)) : Option (Session α) := ops.foldlM (step L A) s

end Session

/-- The change keeps the id and the key columns of the row `id`. -/
def KeepsKey (t : Table α) (id : ℕ) (change : Row α → Row α) : Prop :=
  ∀ row, t.getRow id = some row →
    (change row).id = row.id ∧ L.getKey (change row).cols = L.getKey row.cols

/-- What the callers promise: `add` is given a new key, `update` a known one,
and in-place changes keep id and key of an existing row. -/
def Valid (t : Table α) : Op α → Prop
  | .add row => t.findByKey (L.getKey row.cols) = none
  | .addOrUpdate _ => True
  | .update row => (t.findByKey (L.getKey row.cols)).isSome
  | .updateStored id change => id < t.autoIncrementIndex.length ∧ KeepsKey L t id change
  | .updateInPlace id change => id < t.autoIncrementIndex.length ∧ KeepsKey L t id change
  | .deleteRow id => id < t.autoIncrementIndex.length
  | .archiveRow id => id < t.autoIncrementIndex.length
  | .write => True
  | .reopen => True

/-- What a save asks of the dirty rows. -/
def SavesInPlace (t : Table α) (op : Op α) : Prop :=
  op = .write → Spaced (dirtyOf t) t.autoIncrementIndex.length

/-- What an update through a new row asks of the row that is released. -/
def MarksRows (t : Table α) : Op α → Prop
  | .addOrUpdate row => MarksRow L A t row
  | .update row => MarksRow L A t row
  | _ => True

/-- Every call of the run meets the condition when it is made. -/
def Along (P : Table α → Op α → Prop) : Session α → List (Op α) → Prop
  | _, [] => True
  | s, op :: ops => P s.table op ∧ ∀ s', s.step L A op = some s' → Along P s' ops

def Op.isArchive : Op α → Bool
  | .archiveRow _ => true
  | _ => false

def Op.isReopen : Op α → Bool
  | .reopen => true
  | _ => false

/-- The state of a run: the rows of the table and the rows in the file. -/
structure Inv (s : Session α) (rs saved : List (Row α)) : Prop where
  core : Core L s.table rs
  filed : Filed L s.table rs
  tracks : Tracks L s.table rs s.file saved
  savedIds : ∀ (i : ℕ) (r : Row α), saved[i]? = some r → r.id = i
  savedKeys : (saved.map fun r => L.getKey r.cols).Nodup

variable {L A}

theorem inv_start : Inv L (Session.start L) [] [] where
  core := core_construct L
  filed := filed_construct L
  tracks := ⟨.inl ⟨rfl, rfl⟩, le_rfl, by simp⟩
  savedIds := by simp
  savedKeys := List.nodup_nil

/-- Distinct rows of a filed table have distinct keys. -/
theorem keys_nodup {t : Table α} {rs : List (Row α)} (hc : Core L t rs) (hf : Filed L t rs) :
    (rs.map fun r => L.getKey r.cols).Nodup := by
  rw [List.nodup_iff_injective_getElem]
  intro i j hij
  simp only [List.getElem_map] at hij
  have hi := List.getElem?_eq_getElem (l := rs) (i := i) (by simpa using i.isLt)
  have hj := List.getElem?_eq_getElem (l := rs) (i := j) (by simpa using j.isLt)
  exact Fin.ext (hf.key_injective hc hi hj hij)

/-- Touching one row keeps the file tracked if that row is marked or was dirty before. -/
theorem tracks_of_effect {t t' : Table α} {rs rs' : List (Row α)} {i m : ℕ}
    {file : Option Bytes} {saved : List (Row α)} (h : Tracks L t rs file saved)
    (he : Effect L t rs t' rs' i m) (hm : m = i ∨ (t.dirtyRows.lookup i).isSome) :
    Tracks L t' rs' file saved where
  file := h.file
  length := h.length.trans he.length
  tracked j r hr hne := by
    refine ⟨(he.marked j).mpr ?_, he.isDirty⟩
    by_cases hji : j = i
    · subst hji
      exact hm.imp_left Eq.symm
    · rw [he.others j hji] at hr
      exact .inr (h.tracked j r hr hne).1

theorem inv_of_effect {s : Session α} {rs saved : List (Row α)} (h : Inv L s rs saved)
    {t' : Table α} {rs' : List (Row α)} {i m : ℕ} (he : Effect L s.table rs t' rs' i m)
    (hm : m = i ∨ (s.table.dirtyRows.lookup i).isSome) : Inv L ⟨t', s.file⟩ rs' saved :=
  ⟨he.core, he.filed h.filed, tracks_of_effect h.tracks he hm, h.savedIds, h.savedKeys⟩

/-- Each call that changes rows touches one of them, and marks it if need be. -/
theorem step_effect {s : Session α} {rs saved : List (Row α)} (h : Inv L s rs saved)
    {op : Op α} (hvalid : Valid L s.table op) (harchive : op.isArchive = false)
    (hwrite : op ≠ .write) (hreopen : op ≠ .reopen) :
    ∃ t' rs' i m, s.step L A op = some ⟨t', s.file⟩ ∧ Effect L s.table rs t' rs' i m ∧
      (MarksRows L A s.table op → m = i ∨ (s.table.dirtyRows.lookup i).isSome) := by
  have hrow : ∀ {id : ℕ}, id < s.table.autoIncrementIndex.length →
      ∃ p r, s.table.autoIncrementIndex[id]? = some p ∧ rs[id]? = some r ∧
        s.table.heap.lookup p = some r ∧ s.table.getRow id = some r := by
    intro id hid
    have hp := List.getElem?_eq_getElem hid
    obtain ⟨r, hr, hlookup⟩ := h.core.exists_of_index hp
    exact ⟨_, r, hp, hr, hlookup, by rw [Table.getRow, hp, Option.bind_some, hlookup]⟩
  cases op with
  | add row =>
      obtain ⟨t', ht', he⟩ := add_effect A h.core row hvalid
      exact ⟨t', _, _, _, by simp [Session.step, ht'], he, fun _ => .inl rfl⟩
  | addOrUpdate row =>
      rcases addOrUpdate_effect A h.core row with
        ⟨-, t', ht', he⟩ | ⟨q, i, m, t', readId, -, -, ht', he, hmarks, -⟩
      · exact ⟨t', _, _, _, by simp [Session.step, ht'], he, fun _ => .inl rfl⟩
      · exact ⟨t', _, _, _, by simp [Session.step, ht'], he, hmarks⟩
  | update row =>
      obtain ⟨q, hq⟩ := Option.isSome_iff_exists.mp hvalid
      obtain ⟨i, m, t', -, ht', he, hmarks⟩ := update_effect A h.core row hq
      exact ⟨t', _, _, _, by simp [Session.step, ht'], he, hmarks⟩
  | updateStored id change =>
      obtain ⟨p, r, hp, hr, hlookup, hget⟩ := hrow hvalid.1
      obtain ⟨hid, hkey⟩ := hvalid.2 r hget
      obtain ⟨t', ht', he⟩ := update_stored_effect A h.core h.filed hp hr
        (hid.trans (h.core.ids id r hr)) hkey
      exact ⟨t', _, _, _, by simp [Session.step, hp, hlookup, ht'], he, fun _ => .inl rfl⟩
  | updateInPlace id change =>
      obtain ⟨p, r, hp, hr, hlookup, hget⟩ := hrow hvalid.1
      obtain ⟨hid, hkey⟩ := hvalid.2 r hget
      obtain ⟨t', ht', he⟩ := updateInPlace_effect h.core hp hr
        (hid.trans (h.core.ids id r hr)) hkey
      exact ⟨t', _, _, _, by simp [Session.step, hp, ht'], he, fun _ => .inl rfl⟩
  | deleteRow id =>
      obtain ⟨p, r, hp, hr, hlookup, hget⟩ := hrow hvalid
      obtain ⟨t', ht', he⟩ := deleteRow_effect h.core hr
      exact ⟨t', _, _, _, by simp [Session.step, ht'], he, fun _ => .inl rfl⟩
  | archiveRow id => simp [Op.isArchive] at harchive
  | write => exact absurd rfl hwrite
  | reopen => exact absurd rfl hreopen

/-- Where released rows keep their ids all marks are right. -/
theorem marks_of_keepsIds {t : Table α} {rs : List (Row α)} (hc : Core L t rs) (hids : A.KeepsIds)
    (op : Op α) : MarksRows L A t op := by
  cases op with
  | addOrUpdate row => exact marksRow_of_keepsIds A hc hids row
  | update row => exact marksRow_of_keepsIds A hc hids row
  | _ => trivial

/-- A save makes the rows of the table the rows of the file. -/
theorem step_write {s : Session α} {rs saved : List (Row α)} (h : Inv L s rs saved)
    (hspaced : Spaced (dirtyOf s.table) s.table.autoIncrementIndex.length) :
    ∃ t', s.step L A .write = some ⟨t', some (image L rs)⟩ ∧
      t'.autoIncrementIndex = s.table.autoIncrementIndex ∧
      Inv L ⟨t', some (image L rs)⟩ rs rs := by
  obtain ⟨t', ht', hc, hf, hindex, htracks⟩ := write_noFaults h.core h.tracks
    (h.core.length_eq ▸ hspaced)
  exact ⟨t', by simp [Session.step, ht'], hindex,
    ⟨hc, hf h.filed, htracks, h.core.ids, keys_nodup h.core h.filed⟩⟩

/-- A new object over the file represents the rows of the file. -/
theorem step_reopen {s : Session α} {rs saved : List (Row α)} (h : Inv L s rs saved) :
    ∃ t', s.step L A .reopen = some ⟨t', s.file⟩ ∧ Inv L ⟨t', s.file⟩ saved saved := by
  have htracks : ∀ t' : Table α, Tracks L t' saved s.file saved := fun t' =>
    ⟨h.tracks.file, le_rfl, fun i r hr hne => absurd hr hne⟩
  rcases h.tracks.file with ⟨hfile, rfl⟩ | hfile
  · refine ⟨Table.construct L, by simp [Session.step, hfile, Table.read], ?_⟩
    exact ⟨core_construct L, filed_construct L, htracks _, h.savedIds, h.savedKeys⟩
  · obtain ⟨t', ht', hc, hf, -, -⟩ := read_image A h.savedIds h.savedKeys
    refine ⟨t', by simp [Session.step, hfile, ht'], ?_⟩
    exact ⟨hc, hf, htracks t', h.savedIds, h.savedKeys⟩

theorem step_inv {s : Session α} {rs saved : List (Row α)} (h : Inv L s rs saved) {op : Op α}
    (hvalid : Valid L s.table op) (hspaced : SavesInPlace s.table op)
    (hmarks : MarksRows L A s.table op) (harchive : op.isArchive = false) :
    ∃ s' rs' saved', s.step L A op = some s' ∧ Inv L s' rs' saved' ∧
      rs'.length ≤ rs.length + 1 ∧
      (op.isReopen = false →
        s.table.autoIncrementIndex <+: s'.table.autoIncrementIndex) := by
  by_cases hwrite : op = .write
  · subst hwrite
    obtain ⟨t', hstep, hindex, hinv⟩ := step_write (A := A) h (hspaced rfl)
    exact ⟨_, rs, rs, hstep, hinv, by omega, fun _ => ⟨[], by rw [hindex, List.append_nil]⟩⟩
  · by_cases hreopen : op = .reopen
    · subst hreopen
      obtain ⟨t', hstep, hinv⟩ := step_reopen (A := A) h
      exact ⟨_, saved, saved, hstep, hinv, Nat.le_succ_of_le h.tracks.length,
        by simp [Op.isReopen]⟩
    · obtain ⟨t', rs', i, m, hstep, he, hm⟩ :=
        step_effect (A := A) h hvalid harchive hwrite hreopen
      exact ⟨_, rs', saved, hstep, inv_of_effect h he (hm hmarks), he.length_le,
        fun _ => he.index⟩

theorem run_inv {s : Session α} {rs saved : List (Row α)} (h : Inv L s rs saved)
    {ops : List (Op α)} (hvalid : Along L A (Valid L) s ops)
    (hspaced : Along L A SavesInPlace s ops) (hmarks : Along L A (MarksRows L A) s ops)
    (harchive : ∀ op ∈ ops, op.isArchive = false) :
    ∃ s' rs' saved', s.run L A ops = some s' ∧ Inv L s' rs' saved' ∧
      ((∀ op ∈ ops, op.isReopen = false) →
        s.table.autoIncrementIndex <+: s'.table.autoIncrementIndex) := by
  induction ops generalizing s rs saved with
  | nil => exact ⟨s, rs, saved, rfl, h, fun _ => List.prefix_rfl⟩
  | cons op ops ih =>
      obtain ⟨s₁, rs₁, saved₁, hstep, h₁, -, hgrows₁⟩ :=
        step_inv h hvalid.1 hspaced.1 hmarks.1 (harchive op (by simp))
      obtain ⟨s₂, rs₂, saved₂, hrun, h₂, hgrows₂⟩ := ih h₁ (hvalid.2 s₁ hstep)
        (hspaced.2 s₁ hstep) (hmarks.2 s₁ hstep) fun o ho => harchive o (by simp [ho])
      refine ⟨s₂, rs₂, saved₂, ?_, h₂, fun hnot => ?_⟩
      · rw [Session.run, List.foldlM_cons, hstep]
        exact hrun
      · exact (hgrows₁ (hnot op (by simp))).trans (hgrows₂ fun o ho => hnot o (by simp [ho]))

section Parts
variable {P : Table α → Op α → Prop} {s s' : Session α}

theorem Along.left {before after : List (Op α)} (h : Along L A P s (before ++ after)) :
    Along L A P s before := by
  induction before generalizing s with
  | nil => trivial
  | cons op before ih => exact ⟨h.1, fun s' hstep => ih (h.2 s' hstep)⟩

theorem Along.right {before after : List (Op α)} (h : Along L A P s (before ++ after))
    (hrun : s.run L A before = some s') : Along L A P s' after := by
  induction before generalizing s with
  | nil =>
      obtain rfl := Option.some.inj hrun
      exact h
  | cons op before ih =>
      rw [Session.run, List.foldlM_cons] at hrun
      obtain ⟨s₁, hstep, hrun⟩ := Option.bind_eq_some_iff.mp hrun
      exact ih (h.2 s₁ hstep) hrun

/-- A run is followed step by step. -/
theorem along_cons {op : Op α} {ops : List (Op α)} (hop : P s.table op)
    (hstep : s.step L A op = some s') (hrest : Along L A P s' ops) :
    Along L A P s (op :: ops) := by
  refine ⟨hop, fun s'' hs'' => ?_⟩
  obtain rfl := Option.some.inj (hstep.symm.trans hs'')
  exact hrest

end Parts

/-- Where released rows keep their ids every run marks the rows it changes. -/
theorem marks_along (hids : A.KeepsIds) {s : Session α} {rs saved : List (Row α)}
    (h : Inv L s rs saved) {ops : List (Op α)} (hvalid : Along L A (Valid L) s ops)
    (hspaced : Along L A SavesInPlace s ops) (harchive : ∀ op ∈ ops, op.isArchive = false) :
    Along L A (MarksRows L A) s ops := by
  induction ops generalizing s rs saved with
  | nil => trivial
  | cons op ops ih =>
      have hmarks := marks_of_keepsIds h.core hids op
      obtain ⟨s₁, rs₁, saved₁, hstep, h₁, -, -⟩ :=
        step_inv h hvalid.1 hspaced.1 hmarks (harchive op (by simp))
      exact along_cons hmarks hstep (ih h₁ (hvalid.2 s₁ hstep) (hspaced.2 s₁ hstep)
        fun o ho => harchive o (by simp [ho]))

/-- A run of a table with fewer than 2^32 rows saves in place. -/
theorem savesInPlace_of_small (hids : A.KeepsIds) {s : Session α} {rs saved : List (Row α)}
    (h : Inv L s rs saved) {ops : List (Op α)} (hvalid : Along L A (Valid L) s ops)
    (harchive : ∀ op ∈ ops, op.isArchive = false) (hsmall : rs.length + ops.length ≤ 2 ^ 32) :
    Along L A SavesInPlace s ops := by
  induction ops generalizing s rs saved with
  | nil => trivial
  | cons op ops ih =>
      rw [List.length_cons] at hsmall
      have hspaced : SavesInPlace s.table op := fun _ =>
        spaced_of_le (by rw [h.core.length_eq]; omega)
      obtain ⟨s₁, rs₁, saved₁, hstep, h₁, hlength, -⟩ :=
        step_inv h hvalid.1 hspaced (marks_of_keepsIds h.core hids op) (harchive op (by simp))
      exact along_cons hspaced hstep (ih h₁ (hvalid.2 s₁ hstep)
        (fun o ho => harchive o (by simp [ho])) (by omega))

/-- Two indexes, dirty set, dirty flag and file in step. -/
structure RepresentationInvariant (L : Layout α) (s : Session α) : Prop where
  ids : ∀ (i p : ℕ), s.table.autoIncrementIndex[i]? = some p →
    ∃ r, s.table.heap.lookup p = some r ∧ r.id = i
  keys : ∀ p ∈ s.table.autoIncrementIndex, ∃! key, s.table.rows.lookup key = some p
  values : ∀ key p, s.table.rows.lookup key = some p → p ∈ s.table.autoIncrementIndex
  size : s.table.size = s.table.autoIncrementIndex.length
  tracked : ∀ (i : ℕ) (r : Row α), s.table.getRow i = some r →
    fileSlot L s.file i ≠ some (L.rowBytes r) →
    (s.table.dirtyRows.lookup i).isSome ∧ s.table.isDirty = true

/-- As many keys as rows. -/
theorem size_eq {t : Table α} {rs : List (Row α)} (hc : Core L t rs) (hf : Filed L t rs) :
    t.size = t.autoIncrementIndex.length := by
  have hperm : t.rows.keys.Perm (rs.map fun r => L.getKey r.cols) := by
    rw [List.perm_ext_iff_of_nodup t.rows.keys_nodup (keys_nodup hc hf)]
    intro key
    rw [← AList.mem_keys, ← AList.lookup_isSome, List.mem_map]
    exact hf.lookup_isSome_iff hc key
  rw [Table.size, hperm.length_eq, List.length_map, hc.length_eq]

theorem Inv.representationInvariant {s : Session α} {rs saved : List (Row α)}
    (h : Inv L s rs saved) : RepresentationInvariant L s where
  ids i p hp := by
    obtain ⟨r, hr, hlookup⟩ := h.core.exists_of_index hp
    exact ⟨r, hlookup, h.core.ids i r hr⟩
  keys p hp := by
    obtain ⟨i, hi⟩ := List.getElem?_of_mem hp
    obtain ⟨r, hr, -⟩ := h.core.exists_of_index hi
    refine ⟨L.getKey r.cols, (h.filed _ p).mpr ⟨i, r, hi, hr, rfl⟩, fun key hkey => ?_⟩
    obtain ⟨j, r', hj, hr', hk⟩ := (h.filed key p).mp hkey
    obtain rfl := h.core.index_injective hi hj
    obtain rfl := Option.some.inj (hr.symm.trans hr')
    exact hk.symm
  values := h.core.rows
  size := size_eq h.core h.filed
  tracked i r hget hne := by
    obtain ⟨p, hp, hlookup⟩ := Option.bind_eq_some_iff.mp hget
    have hr : rs[i]? = some r := by rw [← h.core.lookup_of_index hp, hlookup]
    refine h.tracks.tracked i r hr fun hsaved => hne ?_
    rcases h.tracks.file with ⟨-, rfl⟩ | hfile
    · simp at hsaved
    · rw [fileSlot, hfile, Option.map_some, slot_image_row L hsaved]

variable (L A)

/-- Every valid run of a table from its creation, with saves in place and reopenings in
between, runs without a failed assertion and keeps the representation
invariant, if a released row keeps its id for the time being; and the index only
grows until the table is reopened. -/
theorem representation_invariant (hids : A.KeepsIds) (before after : List (Op α))
    (hvalid : Along L A (Valid L) (Session.start L) (before ++ after))
    (hspaced : Along L A SavesInPlace (Session.start L) (before ++ after))
    (harchive : ∀ op ∈ before ++ after, op.isArchive = false) :
    ∃ s s', (Session.start L).run L A before = some s ∧ s.run L A after = some s' ∧
      RepresentationInvariant L s ∧ RepresentationInvariant L s' ∧
      ((∀ op ∈ after, op.isReopen = false) →
        s.table.autoIncrementIndex <+: s'.table.autoIncrementIndex) := by
  have hmarks := marks_along hids inv_start hvalid hspaced harchive
  obtain ⟨s, rs, saved, hrun, h, -⟩ := run_inv inv_start hvalid.left hspaced.left hmarks.left
    fun op hop => harchive op (by simp [hop])
  obtain ⟨s', rs', saved', hrun', h', hgrows⟩ := run_inv h (hvalid.right hrun)
    (hspaced.right hrun) (hmarks.right hrun) fun op hop => harchive op (by simp [hop])
  exact ⟨s, s', hrun, hrun', h.representationInvariant, h'.representationInvariant, hgrows⟩

/-- A pool with the names of one jar and one class. -/
def samplePool : Pool where
  isDirty := true
  pool := ascii "\x00a.jar\x00A\x00"
  hash := ((AList.singleton [] 0).insert (ascii "a.jar") 1).insert (ascii "A") 7
  size := StartPoolSize

def sampleFiles : Table FileCols where
  heap := AList.singleton 1 ⟨0, 0, { filename := 1 }⟩
  rows := AList.singleton (ascii "a.jar") 1
  autoIncrementIndex := [1]
  isDirty := true
  dirtyRows := AList.singleton 0 .isNew
  schema := (Files.layout samplePool).schema

def sampleLayout : Layout ClassFileCols := ClassFiles.layout samplePool sampleFiles

/-- The class A of a.jar. -/
def sampleRow : Row ClassFileCols := ⟨0, 0, { classname := 7 }⟩

example : sampleLayout.getKey sampleRow.cols = ascii "a.jar@A" := by decide

/-- A class that is added, deleted, saved, read back and added again. -/
theorem representation_invariant_sample :
    ∃ s s', (Session.start sampleLayout).run sampleLayout (.next _)
        [.add sampleRow, .deleteRow 0, .write, .reopen] = some s ∧
      s.run sampleLayout (.next _) [.addOrUpdate sampleRow, .write] = some s' ∧
      RepresentationInvariant sampleLayout s ∧ RepresentationInvariant sampleLayout s' ∧
      s.table.autoIncrementIndex <+: s'.table.autoIncrementIndex := by
  have hvalid : Along sampleLayout (.next _) (Valid sampleLayout) (Session.start sampleLayout)
      ([.add sampleRow, .deleteRow 0, .write, .reopen] ++ [.addOrUpdate sampleRow, .write]) := by
    refine ⟨rfl, fun s hs => ?_⟩
    obtain ⟨t, ht, he⟩ := add_effect (.next _) (core_construct sampleLayout) sampleRow rfl
    obtain rfl : ⟨t, none⟩ = s := by simpa [Session.step, Session.start, ht] using hs
    refine ⟨by simp [Valid, he.core.length_eq], fun _ _ => ?_⟩
    exact ⟨trivial, fun _ _ => ⟨trivial, fun _ _ => ⟨trivial, fun _ _ => ⟨trivial, fun _ _ =>
      trivial⟩⟩⟩⟩
  have harchive : ∀ op ∈ [.add sampleRow, .deleteRow 0, .write, .reopen] ++
      [.addOrUpdate sampleRow, .write], Op.isArchive op = false := by simp [Op.isArchive]
  have hids := Allocator.next_keepsIds ClassFileCols
  obtain ⟨s, s', hrun, hrun', hs, hs', hgrows⟩ := representation_invariant sampleLayout (.next _)
    hids _ _ hvalid (savesInPlace_of_small hids inv_start hvalid harchive (by simp)) harchive
  exact ⟨s, s', hrun, hrun', hs, hs', hgrows (by simp [Op.isReopen])⟩

end Tarracsh.TableRuns
