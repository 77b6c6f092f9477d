import Tarracsh.TableRuns

/-!
# Saving a database while it is being filled

`Database::write` saves the string pool and then each table, one after the
other and without a lock over the whole, while worker threads intern strings
and add or update rows. What such a save leaves is a snapshot that consists of
the pool file, the files of the tables already written and the memory of the
tables still to be written. The files refer to nothing beyond themselves as
long as no row enters that snapshot with a reference that leaves it.

The key of a row may depend on the pool and on all tables.
-/
namespace Tarracsh.DatabaseSave
open ByteStrings ByteFiles StringPool TableModel TableInvariant TableFile TableRuns DomainTables

/-- The tables of a database, with the columns of a row that hold offsets into
the pool and ids of other rows. -/
structure Tables (ι : Type) (α : ι → Type) where
  format : ∀ i, Format (α i)
  getKey : Pool → (∀ i, Table (α i)) → ∀ i, α i → Bytes
  strings : ∀ i, α i → List StringCol
  refs : ∀ i, α i → List (ι × RefCol)

/-- `todo` lists the tables that the save in progress has still to write. -/
structure Database (ι : Type) (α : ι → Type) where
  pool : Pool
  poolFile : Option Bytes
  tables : ∀ i, Table (α i)
  files : ι → Option Bytes
  todo : List ι

/-- A save starts with the pool and writes the tables in the given order;
everything else is done by workers. -/
inductive Act (ι : Type) (α : ι → Type) where
  | intern (stringValue : Bytes)
  | addRow (i : ι) (row : Row (α i))
  | updateRow (i : ι) (row : Row (α i))
  | startSave (order : List ι)
  | writeTable

/-- `calculateRowCount`, zero without a file. -/
def fileRowCount {α : Type} (L : Layout α) (file : Option Bytes) : ℕ :=
  ((file.getD []).length - L.schema.headerSize) / L.rowSize

/-- The rows stored in a file. -/
def fileRows {α : Type} (L : Layout α) (file : Option Bytes) : List (Row α) :=
  (List.range (fileRowCount L file)).map fun k =>
    L.parseRow (slot L.schema.headerSize L.rowSize (file.getD []) k)

variable {ι : Type} {α : ι → Type} (D : Tables ι α)

namespace Tables

def layout (db : Database ι α) (i : ι) : Layout (α i) :=
  ⟨D.format i, D.getKey db.pool db.tables i⟩

/-- The offsets of a row lie below `n` and its ids below the counts. -/
def Inside (n : ℕ) (count : ι → ℕ) (i : ι) (a : α i) : Prop :=
  (∀ v ∈ D.strings i a, v.toNat < n) ∧ ∀ p ∈ D.refs i a, p.2.toNat < count p.1

/-- Rows that refer to nothing beyond `n` bytes of strings and the counts. -/
def Closed (n : ℕ) (count : ι → ℕ) (rows : ∀ i, List (Row (α i))) : Prop :=
  ∀ i, ∀ r ∈ rows i, D.Inside n count i r.cols

/-- The files refer to nothing beyond themselves. -/
def FilesClosed (db : Database ι α) : Prop :=
  ∀ i, ∀ r ∈ fileRows (D.layout db i) (db.files i),
    D.Inside (db.poolFile.getD []).length (fun j => fileRowCount (D.layout db j) (db.files j)) i
      r.cols

/-- A database without rows and files over the given pool. -/
def empty (pool : Pool) : Database ι α where
  pool := pool
  poolFile := none
  tables i := Table.construct ⟨D.format i, fun _ => []⟩
  files _ := none
  todo := []

/-- A new database. -/
def start : Option (Database ι α) := Pool.construct.map D.empty

variable [DecidableEq ι] (A : ∀ i, Allocator (α i))

/-- File operations succeed. -/
def step (db : Database ι α) : Act ι α → Option (Database ι α)
  | .intern stringValue => do
      let (pool, _) ← db.pool.internalAdd stringValue
      some { db with pool := pool }
  | .addRow i row => do
      let (t, p) := (db.tables i).allocate (A i) row
      let (t, _) ← t.add (D.layout db i) p
      some { db with tables := Function.update db.tables i t }
  | .updateRow i row => do
      let (t, p) := (db.tables i).allocate (A i) row
      let t ← t.update (D.layout db i) (A i) p
      some { db with tables := Function.update db.tables i t }
  | .startSave order =>
      some { db with poolFile := db.pool.write db.poolFile, todo := order }
  | .writeTable =>
      match db.todo with
      | [] => none
      | i :: todo => do
          let (t, file, _) ← (db.tables i).write (D.layout db i) (noFaults (D.layout db i))
            (db.files i)
          some
            { db with
              tables := Function.update db.tables i t
              files := Function.update db.files i file
              todo := todo }

def run (db : Database ι α) (acts : List (Act ι α)) : Option (Database ι α) :=
  acts.foldlM (D.step A) db

/-- A worker uses strings it interned and rows that were added before; one save
ends before the next one starts, and writes every table once. -/
def Valid (db : Database ι α) : Act ι α → Prop
  | .intern stringValue => 0 ∉ stringValue ∧ stringValue.length ≤ 65535
  | .addRow i row =>
      (db.tables i).findByKey ((D.layout db i).getKey row.cols) = none ∧
      D.Inside db.pool.pool.length (fun j => (db.tables j).autoIncrementIndex.length) i row.cols
  | .updateRow i row =>
      ((db.tables i).findByKey ((D.layout db i).getKey row.cols)).isSome ∧
      D.Inside db.pool.pool.length (fun j => (db.tables j).autoIncrementIndex.length) i row.cols
  | .startSave order => db.todo = [] ∧ order.Nodup ∧ ∀ i, i ∈ order
  | .writeTable => db.todo ≠ []

/-- The number of rows of a table in the snapshot of the save in progress. -/
def snapshotCount (db : Database ι α) (j : ι) : ℕ :=
  if j ∈ db.todo then (db.tables j).autoIncrementIndex.length
  else fileRowCount (D.layout db j) (db.files j)

/-- A row that enters a table still to be written does not refer beyond the
pool file or the files of the tables already written, and a table is written row by
row in place. -/
def Timely (db : Database ι α) : Act ι α → Prop
  | .addRow i row => i ∈ db.todo →
      D.Inside (db.poolFile.getD []).length (D.snapshotCount db) i row.cols
  | .updateRow i row => i ∈ db.todo →
      D.Inside (db.poolFile.getD []).length (D.snapshotCount db) i row.cols
  | .writeTable => ∀ i ∈ db.todo.head?,
      Spaced (dirtyOf (db.tables i)) (db.tables i).autoIncrementIndex.length
  | _ => True

/-- Every act of the run is valid and timely when it is taken. -/
def TimelyRun : Database ι α → List (Act ι α) → Prop
  | _, [] => True
  | db, act :: acts => D.Valid db act ∧ D.Timely db act ∧
      ∀ db', D.step A db act = some db' → TimelyRun db' acts

end Tables

section Files
variable {β : Type} {L : Layout β}

/-- The file holds the rows `saved`, and the rows behind them are dirty. -/
structure Covers (L : Layout β) (t : Table β) (rs : List (Row β)) (file : Option Bytes)
    (saved : List (Row β)) : Prop where
  file : file = none ∧ saved = [] ∨ file = some (image L saved)
  length : saved.length ≤ rs.length
  behind : ∀ i, saved.length ≤ i → i < rs.length → dirtyOf t i = true ∧ t.isDirty = true

variable {t : Table β} {rs saved : List (Row β)} {file : Option Bytes}

theorem Covers.rekey {F : Format β} {getKey : β → Bytes} (h : Covers ⟨F, getKey⟩ t rs file saved)
    (getKey' : β → Bytes) : Covers ⟨F, getKey'⟩ t rs file saved :=
  ⟨h.file, h.length, h.behind⟩

/-- The mark of an update may stand at another row. -/
theorem Covers.effect (h : Covers L t rs file saved) {t' : Table β} {rs' : List (Row β)} {i m : ℕ}
    (he : Effect L t rs t' rs' i m) (hm : m = i ∨ rs'.length = rs.length) :
    Covers L t' rs' file saved where
  file := h.file
  length := h.length.trans he.length
  behind j hj hlt := by
    refine ⟨(he.marked j).mpr ?_, he.isDirty⟩
    by_cases hold : j < rs.length
    · exact .inr (h.behind j hj hold).1
    · refine .inl ?_
      have hji : j = i := by
        by_contra hne
        have hother := he.others j hne
        rw [List.getElem?_eq_getElem hlt, List.getElem?_eq_none (by omega)] at hother
        exact absurd hother (by simp)
      rw [hji]
      exact (hm.resolve_right (by omega)).symm

/-- A save leaves as many rows as the table has, each of them from memory or from the file. -/
theorem Covers.write (hc : Core L t rs) (h : Covers L t rs file saved)
    (hspaced : Spaced (dirtyOf t) rs.length) :
    ∃ t' saved', t.write L (noFaults L) file = some (t', some (image L saved'), true) ∧
      Core L t' rs ∧ Covers L t' rs (some (image L saved')) saved' ∧
      saved'.length = rs.length ∧ ∀ r ∈ saved', r ∈ rs ∨ r ∈ saved := by
  by_cases hskip : (!t.isDirty && file.isSome) = true
  · obtain ⟨hisDirty, hexists⟩ := Bool.and_eq_true_iff.mp hskip
    have hfile : file = some (image L saved) := by
      rcases h.file with ⟨rfl, -⟩ | hfile
      · simp at hexists
      · exact hfile
    have hlength : saved.length = rs.length := by
      refine h.length.antisymm (not_lt.mp fun hlt => ?_)
      simp [(h.behind _ le_rfl hlt).2] at hisDirty
    exact ⟨t, saved, by rw [write_clean hskip, hfile], hc, hfile ▸ h, hlength, fun r hr => .inr hr⟩
  · -- the rows of the file, with the dirty ones replaced
    let saved' := rs.mapIdx fun i r => if dirtyOf t i then r else saved[i]?.getD r
    have hlength' : saved'.length = rs.length := List.length_mapIdx
    have hdirty : ∀ i, dirtyOf t i = true → saved'[i]? = rs[i]? := by
      intro i hd
      simp only [saved', List.getElem?_mapIdx, hd, if_true, Option.map_id']
    have hclean : ∀ (i : ℕ) (r : Row β), dirtyOf t i = false → saved'[i]? = some r →
        saved[i]? = some r := by
      intro i r hd hr
      have hlt : i < saved.length := by
        by_contra hnot
        have hi := (List.getElem?_eq_some_iff.mp hr).1
        exact absurd (hd.symm.trans (h.behind i (not_lt.mp hnot) (hlength' ▸ hi)).1) (by simp)
      simp only [saved', List.getElem?_mapIdx, hd, Bool.false_eq_true, if_false,
        List.getElem?_eq_getElem hlt, Option.getD_some] at hr
      obtain ⟨_, -, rfl⟩ := Option.map_eq_some_iff.mp hr
      exact List.getElem?_eq_getElem hlt
    obtain ⟨t', hwrite, hcore, -, -⟩ := write_image hc h.file h.length hspaced hskip hlength'
      hdirty hclean
    refine ⟨t', saved', hwrite, hcore, ⟨.inr rfl, hlength'.le, fun i hi hlt => ?_⟩, hlength',
      fun r hr => ?_⟩
    · omega
    · obtain ⟨i, hi⟩ := List.getElem?_of_mem hr
      cases hd : dirtyOf t i with
      | true => exact .inl (List.mem_of_getElem? (hdirty i hd ▸ hi))
      | false => exact .inr (List.mem_of_getElem? (hclean i r hd hi))

theorem fileRowCount_eq (h : file = none ∧ saved = [] ∨ file = some (image L saved)) :
    fileRowCount L file = saved.length := by
  rcases h with ⟨rfl, rfl⟩ | rfl
  · simp [fileRowCount]
  · rw [fileRowCount, Option.getD_some, image_length, Nat.add_sub_cancel_left,
      Nat.mul_div_cancel _ (rowSize_pos L)]

/-- The rows of the image of `saved`, their ids at 64 bits. -/
theorem fileRows_eq (h : file = none ∧ saved = [] ∨ file = some (image L saved)) :
    fileRows L file = saved.map fun r => { r with id := r.id % 256 ^ 8 } := by
  have hcount := fileRowCount_eq h
  rcases h with ⟨rfl, rfl⟩ | rfl
  · simp [fileRows, fileRowCount]
  · apply List.ext_getElem?
    intro k
    rw [fileRows, hcount, List.getElem?_map, List.getElem?_map]
    cases hr : saved[k]? with
    | none =>
        rw [List.getElem?_eq_none (by simpa using hr)]
        rfl
    | some r =>
        have hk := (List.getElem?_eq_some_iff.mp hr).1
        rw [List.getElem?_range hk, Option.map_some, Option.getD_some, slot_image_row L hr,
          parseRow_rowBytes]
        rfl

end Files

variable {D}

namespace Tables

theorem core_layout {db db' : Database ι α} {i : ι} {t : Table (α i)} {rs : List (Row (α i))}
    (h : Core (D.layout db i) t rs) : Core (D.layout db' i) t rs :=
  h.rekey _

theorem covers_layout {db db' : Database ι α} {i : ι} {t : Table (α i)}
    {rs saved : List (Row (α i))} {file : Option Bytes}
    (h : Covers (D.layout db i) t rs file saved) : Covers (D.layout db' i) t rs file saved :=
  h.rekey _

theorem Inside.mono {n n' : ℕ} {count count' : ι → ℕ} {i : ι} {a : α i}
    (h : D.Inside n count i a) (hn : n ≤ n') (hcount : ∀ j, count j ≤ count' j) :
    D.Inside n' count' i a :=
  ⟨fun v hv => (h.1 v hv).trans_le hn, fun p hp => (h.2 p hp).trans_le (hcount p.1)⟩

/-- Strings and counts may grow, and rows that are inside may enter. -/
theorem Closed.extend {n n' : ℕ} {count count' : ι → ℕ} {rows rows' : ∀ i, List (Row (α i))}
    (h : D.Closed n count rows) (hn : n ≤ n') (hcount : ∀ j, count j ≤ count' j)
    (hrows : ∀ i, ∀ r ∈ rows' i, r ∈ rows i ∨ D.Inside n' count' i r.cols) :
    D.Closed n' count' rows' := by
  intro i r hr
  rcases hrows i r hr with hold | hnew
  · exact (h i r hold).mono hn hcount
  · exact hnew

theorem length_le_update [DecidableEq ι] {rows : ∀ i, List (Row (α i))} {i : ι}
    {list : List (Row (α i))} (hlength : (rows i).length ≤ list.length) (j : ι) :
    (rows j).length ≤ (Function.update rows i list j).length := by
  by_cases hj : j = i
  · subst hj
    rwa [Function.update_self]
  · rw [Function.update_of_ne hj]

/-- How many rows the files have when the save in progress is over. -/
def counts [DecidableEq ι] (todo : List ι) (rows saved : ∀ i, List (Row (α i))) (i : ι) : ℕ :=
  if i ∈ todo then (rows i).length else (saved i).length

/-- The rows that the files may hold then: a row that changed without being marked stays
in the file as it was. -/
def snapshot [DecidableEq ι] (todo : List ι) (rows saved : ∀ i, List (Row (α i))) (i : ι) :
    List (Row (α i)) :=
  if i ∈ todo then rows i ++ saved i else saved i

variable [DecidableEq ι] {A : ∀ i, Allocator (α i)}

variable (D) in
/-- Memory is closed, and so is the snapshot of the save in progress. -/
structure Inv (db : Database ι α) (strings : List Bytes) (rows saved : ∀ i, List (Row (α i))) :
    Prop where
  pool : Holds strings db.pool
  dirty : db.pool.isDirty = true
  poolFile : (db.poolFile.getD []).length ≤ db.pool.pool.length
  core : ∀ i, Core (D.layout db i) (db.tables i) (rows i)
  covers : ∀ i, Covers (D.layout db i) (db.tables i) (rows i) (db.files i) (saved i)
  todo : db.todo.Nodup
  memory : D.Closed db.pool.pool.length (fun j => (rows j).length) rows
  snapshot : D.Closed (db.poolFile.getD []).length (counts db.todo rows saved)
    (snapshot db.todo rows saved)

namespace Inv
variable {db : Database ι α} {strings : List Bytes} {rows saved : ∀ i, List (Row (α i))}

theorem snapshotCount_eq (h : D.Inv db strings rows saved) (j : ι) :
    D.snapshotCount db j = counts db.todo rows saved j := by
  unfold snapshotCount counts
  split_ifs
  · exact (h.core j).length_eq
  · exact fileRowCount_eq (h.covers j).file

/-- Without a save in progress the files are closed. -/
theorem filesClosed (h : D.Inv db strings rows saved) (htodo : db.todo = []) :
    D.FilesClosed db := by
  intro i r hr
  rw [fileRows_eq (h.covers i).file] at hr
  obtain ⟨s, hs, rfl⟩ := List.mem_map.mp hr
  have hinside := h.snapshot i s (by rwa [Tables.snapshot, htodo, if_neg List.not_mem_nil])
  refine hinside.mono le_rfl fun j => ?_
  rw [← h.snapshotCount_eq, snapshotCount, htodo, if_neg List.not_mem_nil]

/-- A row that is inside enters a table. -/
theorem worker (h : D.Inv db strings rows saved) {i : ι} {t : Table (α i)}
    {list : List (Row (α i))} {k m : ℕ} {a : α i}
    (he : Effect (D.layout db i) (db.tables i) (rows i) t list k m)
    (hm : m = k ∨ list.length = (rows i).length)
    (hlist : ∀ r ∈ list, r ∈ rows i ∨ r.cols = a)
    (hvalid : D.Inside db.pool.pool.length (fun j => (db.tables j).autoIncrementIndex.length) i a)
    (htimely : i ∈ db.todo → D.Inside (db.poolFile.getD []).length (D.snapshotCount db) i a) :
    D.Inv { db with tables := Function.update db.tables i t } strings
      (Function.update rows i list) saved where
  pool := h.pool
  dirty := h.dirty
  poolFile := h.poolFile
  core j := by
    by_cases hj : j = i
    · subst hj
      simp only [Function.update_self]
      exact core_layout he.core
    · simp only [Function.update_of_ne hj]
      exact core_layout (h.core j)
  covers j := by
    by_cases hj : j = i
    · subst hj
      simp only [Function.update_self]
      exact covers_layout ((h.covers j).effect he hm)
    · simp only [Function.update_of_ne hj]
      exact covers_layout (h.covers j)
  todo := h.todo
  memory := by
    refine h.memory.extend le_rfl (length_le_update he.length) fun j r hr => ?_
    by_cases hj : j = i
    · subst hj
      rw [Function.update_self] at hr
      refine (hlist r hr).imp_right ?_
      rintro rfl
      exact hvalid.mono le_rfl fun j' =>
        (h.core j').length_eq.le.trans (length_le_update he.length j')
    · rw [Function.update_of_ne hj] at hr
      exact .inl hr
  snapshot := by
    have hcounts : ∀ j, counts db.todo rows saved j ≤
        counts db.todo (Function.update rows i list) saved j := by
      intro j
      unfold counts
      split_ifs
      · exact length_le_update he.length j
      · exact le_rfl
    refine h.snapshot.extend le_rfl hcounts fun j r hr => ?_
    by_cases hj : j = i
    · subst hj
      unfold Tables.snapshot at hr ⊢
      split_ifs at hr ⊢ with hmem
      · rw [Function.update_self, List.mem_append] at hr
        rcases hr with hr | hr
        · rcases hlist r hr with hold | rfl
          · exact .inl (List.mem_append_left _ hold)
          · exact .inr ((htimely hmem).mono le_rfl fun j' =>
              (h.snapshotCount_eq j').le.trans (hcounts j'))
        · exact .inl (List.mem_append_right _ hr)
      · exact .inl hr
    · unfold Tables.snapshot at hr ⊢
      rw [Function.update_of_ne hj] at hr
      exact .inl hr

/-- A string enters the pool. -/
theorem intern (h : D.Inv db strings rows saved) {stringValue : Bytes}
    (hfree : 0 ∉ stringValue) (hshort : stringValue.length ≤ 65535) :
    ∃ pool offset strings', db.pool.internalAdd stringValue = some (pool, offset) ∧
      D.Inv { db with pool := pool } strings' rows saved := by
  obtain ⟨strings', pool, offset, hadd, hpool, -, hgrows, hnew⟩ :=
    h.pool.internalAdd_spec hfree hshort
  have hlength : db.pool.pool.length ≤ pool.pool.length := by
    obtain ⟨more, rfl⟩ := hgrows
    rw [h.pool.pool_eq, hpool.pool_eq, TerminatedStrings.terminated_append, List.length_append]
    omega
  have hdirty : pool.isDirty = true := by
    rcases hnew with ⟨-, rfl⟩ | hdirty
    · exact h.dirty
    · exact hdirty
  exact ⟨pool, offset, strings', hadd, hpool, hdirty, h.poolFile.trans hlength,
    fun i => core_layout (h.core i), fun i => covers_layout (h.covers i), h.todo,
    h.memory.extend hlength (fun _ => le_rfl) fun _ _ hr => .inl hr, h.snapshot⟩

/-- A save takes the memory of all tables as its snapshot. -/
theorem startSave (h : D.Inv db strings rows saved) {order : List ι} (htodo : db.todo = [])
    (hnodup : order.Nodup) (hall : ∀ i, i ∈ order) :
    D.Inv { db with poolFile := db.pool.write db.poolFile, todo := order } strings rows saved := by
  have hpoolFile : (db.pool.write db.poolFile).getD [] = db.pool.pool := by
    simp [Pool.write, h.dirty]
  refine ⟨h.pool, h.dirty, by rw [hpoolFile], fun i => core_layout (h.core i),
    fun i => covers_layout (h.covers i), hnodup, h.memory, ?_⟩
  have hcounts : counts order rows saved = fun j => (rows j).length := by
    funext j
    rw [counts, if_pos (hall j)]
  simp only [hpoolFile, hcounts]
  refine h.memory.extend le_rfl (fun _ => le_rfl) fun i r hr => ?_
  rw [Tables.snapshot, if_pos (hall i), List.mem_append] at hr
  -- what stands in the files was inside when it was saved
  refine hr.imp_right fun hsaved => ?_
  have hinside := h.snapshot i r (by rwa [Tables.snapshot, htodo, if_neg List.not_mem_nil])
  refine hinside.mono h.poolFile fun j => ?_
  rw [counts, htodo, if_neg List.not_mem_nil]
  exact (h.covers j).length

/-- Writing the next table. -/
theorem writeTable (h : D.Inv db strings rows saved) {i : ι} {todo : List ι}
    (htodo : db.todo = i :: todo)
    (hspaced : Spaced (dirtyOf (db.tables i)) (db.tables i).autoIncrementIndex.length) :
    ∃ t file saved', (db.tables i).write (D.layout db i) (noFaults (D.layout db i)) (db.files i) =
        some (t, file, true) ∧
      D.Inv
        { db with
          tables := Function.update db.tables i t
          files := Function.update db.files i file
          todo := todo } strings rows (Function.update saved i saved') := by
  rw [(h.core i).length_eq] at hspaced
  obtain ⟨t, saved', hwrite, hcore, hcovers, hlength, hmem⟩ :=
    (h.covers i).write (h.core i) hspaced
  have hnodup : i ∉ todo ∧ todo.Nodup := by
    have := h.todo
    rwa [htodo, List.nodup_cons] at this
  refine ⟨t, _, saved', hwrite, h.pool, h.dirty, h.poolFile, fun j => ?_, fun j => ?_, hnodup.2,
    h.memory, h.snapshot.extend le_rfl (fun j => ?_) fun j r hr => .inl ?_⟩
  · by_cases hj : j = i
    · subst hj
      simp only [Function.update_self]
      exact core_layout hcore
    · simp only [Function.update_of_ne hj]
      exact core_layout (h.core j)
  · by_cases hj : j = i
    · subst hj
      simp only [Function.update_self]
      exact covers_layout hcovers
    · simp only [Function.update_of_ne hj]
      exact covers_layout (h.covers j)
  · by_cases hj : j = i
    · subst hj
      simp [counts, htodo, hnodup.1, hlength]
    · simp [counts, htodo, hj]
  · by_cases hj : j = i
    · subst hj
      simp only [Tables.snapshot, hnodup.1, if_false, Function.update_self] at hr
      rw [Tables.snapshot, htodo, if_pos List.mem_cons_self, List.mem_append]
      exact hmem r hr
    · simp only [Tables.snapshot, Function.update_of_ne hj] at hr
      simpa [Tables.snapshot, htodo, hj] using hr

end Inv

theorem step_writeTable (db : Database ι α) {i : ι} {todo : List ι} (htodo : db.todo = i :: todo)
    {t : Table (α i)} {f : Option Bytes} {b : Bool}
    (hwrite : (db.tables i).write (D.layout db i) (noFaults (D.layout db i)) (db.files i) =
      some (t, f, b)) :
    D.step A db .writeTable =
      some
        { db with
          tables := Function.update db.tables i t
          files := Function.update db.files i f
          todo := todo } := by
  simp only [step, htodo, hwrite, Option.bind_eq_bind, Option.bind_some]

theorem step_inv {db : Database ι α} {strings : List Bytes}
    {rows saved : ∀ i, List (Row (α i))} (h : D.Inv db strings rows saved) {act : Act ι α}
    (hvalid : D.Valid db act) (htimely : D.Timely db act) :
    ∃ db' strings' rows' saved', D.step A db act = some db' ∧ D.Inv db' strings' rows' saved' := by
  cases act with
  | intern stringValue =>
      obtain ⟨pool, offset, strings', hadd, hinv⟩ := h.intern hvalid.1 hvalid.2
      exact ⟨_, strings', rows, saved, by simp [step, hadd], hinv⟩
  | addRow i row =>
      obtain ⟨t, hadd, he⟩ := add_effect (A i) (h.core i) row hvalid.1
      refine ⟨_, strings, _, saved, by simp [step, hadd], h.worker he (.inl rfl) (a := row.cols)
        ?_ hvalid.2 htimely⟩
      intro r hr
      rcases List.mem_append.mp hr with hold | hnew
      · exact .inl hold
      · exact .inr (by rw [List.mem_singleton.mp hnew])
  | updateRow i row =>
      obtain ⟨q, hq⟩ := Option.isSome_iff_exists.mp hvalid.1
      obtain ⟨k, m, t, -, hupdate, he, -⟩ := update_effect (A i) (h.core i) row hq
      refine ⟨_, strings, _, saved, by simp [step, hupdate],
        h.worker he (.inr List.length_set) (a := row.cols) ?_ hvalid.2 htimely⟩
      intro r hr
      rcases List.mem_or_eq_of_mem_set hr with hold | rfl
      · exact .inl hold
      · exact .inr rfl
  | startSave order =>
      exact ⟨_, strings, rows, saved, rfl, h.startSave hvalid.1 hvalid.2.1 hvalid.2.2⟩
  | writeTable =>
      obtain ⟨i, todo, htodo⟩ := List.exists_cons_of_ne_nil hvalid
      obtain ⟨t, file, saved', hwrite, hinv⟩ := h.writeTable htodo (htimely i (by rw [htodo]; rfl))
      exact ⟨_, strings, rows, _, step_writeTable db htodo hwrite, hinv⟩

theorem run_inv {db : Database ι α} {strings : List Bytes}
    {rows saved : ∀ i, List (Row (α i))} (h : D.Inv db strings rows saved)
    {acts : List (Act ι α)} (hrun : D.TimelyRun A db acts) :
    ∃ db' strings' rows' saved', D.run A db acts = some db' ∧ D.Inv db' strings' rows' saved' := by
  induction acts generalizing db strings rows saved with
  | nil => exact ⟨db, strings, rows, saved, rfl, h⟩
  | cons act acts ih =>
      obtain ⟨db₁, strings₁, rows₁, saved₁, hstep, h₁⟩ := step_inv (A := A) h hrun.1 hrun.2.1
      obtain ⟨db₂, strings₂, rows₂, saved₂, hrun₂, h₂⟩ := ih h₁ (hrun.2.2 db₁ hstep)
      refine ⟨db₂, strings₂, rows₂, saved₂, ?_, h₂⟩
      rw [run, List.foldlM_cons, hstep]
      exact hrun₂

variable (D) in
theorem start_inv : ∃ db, D.start = some db ∧ D.Inv db [[]] (fun _ => []) fun _ => [] := by
  obtain ⟨pool, hconstruct, hdirty, hpool⟩ := construct_spec
  refine ⟨D.empty pool, by rw [start, hconstruct, Option.map_some], hpool, hdirty, Nat.zero_le _,
    fun i => (core_construct ⟨D.format i, fun _ => []⟩).rekey _, fun i => ?_, List.nodup_nil,
    fun i r hr => absurd hr (by simp), fun i r hr => absurd hr (by simp [Tables.snapshot])⟩
  exact ⟨.inl ⟨rfl, rfl⟩, le_rfl, fun _ _ hlt => absurd hlt (Nat.not_lt_zero _)⟩

end Tables

variable [DecidableEq ι]

/-- In every run of valid and timely acts on a new database, the files refer to
nothing beyond themselves whenever no save is in progress. -/
theorem filesClosed_of_timelyRun (D : Tables ι α) (A : ∀ i, Allocator (α i)) {db : Database ι α}
    (hstart : D.start = some db) (acts : List (Act ι α)) (hrun : D.TimelyRun A db acts) :
    ∃ db', D.run A db acts = some db' ∧ (db'.todo = [] → D.FilesClosed db') := by
  obtain ⟨db₀, hstart₀, h₀⟩ := Tables.start_inv D
  obtain rfl := Option.some.inj (hstart₀.symm.trans hstart)
  obtain ⟨db', strings, rows, saved, hrun', h⟩ := Tables.run_inv h₀ hrun
  exact ⟨db', hrun', h.filesClosed⟩

inductive DigestTable where
  | files | classfiles
  deriving DecidableEq, Repr

/-- The columns of each table of a digest database. -/
abbrev DigestCols : DigestTable → Type
  | .files => FileCols
  | .classfiles => ClassFileCols

/-- `DigestDb`. -/
def digestDb : Tables DigestTable DigestCols where
  format
    | .files => Files.format
    | .classfiles => ClassFiles.format
  getKey pool tables
    | .files => Files.getKey pool
    | .classfiles => ClassFiles.getStrongClassname pool (tables .files)
  strings
    | .files => fun r => [r.filename]
    | .classfiles => fun r => [r.classname]
  refs
    | .files => fun _ => []
    | .classfiles => fun r => [(.files, r.file)]

def nextAddresses (i : DigestTable) : Allocator (DigestCols i) := .next _

/-- A jar whose name is the first string behind the empty one. -/
def jarRow : Row FileCols := ⟨0, 0, { filename := 1 }⟩

section Sample
variable {pool : Pool}

/-- The pool after the name of the jar was interned. -/
theorem intern_jar (hpool : Holds [[]] pool) :
    ∃ pool', pool.internalAdd (ascii "a.jar") = some (pool', 1) ∧ pool'.pool.length = 7 := by
  have hbytes : pool.pool = [0] := hpool.pool_eq
  have hnew : pool.hash.lookup (ascii "a.jar") = none := by
    rw [hpool.lookup]
    decide
  have hadd := hpool.internalAdd_new (by decide) (by decide) hnew
  rw [hbytes] at hadd
  exact ⟨_, hadd, rfl⟩

theorem inside_jar {n : ℕ} {count : DigestTable → ℕ} :
    digestDb.Inside n count .files jarRow.cols ↔ 1 < n := by
  simp [Tables.Inside, digestDb, jarRow]

theorem timelyRun_cons {db db' : Database ι α} {D : Tables ι α} {A : ∀ i, Allocator (α i)}
    {act : Act ι α} {acts : List (Act ι α)} (hvalid : D.Valid db act) (htimely : D.Timely db act)
    (hstep : D.step A db act = some db') (hrest : D.TimelyRun A db' acts) :
    D.TimelyRun A db (act :: acts) := by
  refine ⟨hvalid, htimely, fun db'' hdb'' => ?_⟩
  obtain rfl := Option.some.inj (hstep.symm.trans hdb'')
  exact hrest

/-- The jar enters a database without jars. -/
theorem add_jar (db : Database DigestTable DigestCols) (hpool : Holds [[]] db.pool)
    (hempty : db.tables .files = Table.construct (Files.layout db.pool)) :
    ∃ pool' t, pool'.pool.length = 7 ∧
      digestDb.step nextAddresses db (.intern (ascii "a.jar")) =
        some { db with pool := pool' } ∧
      digestDb.step nextAddresses { db with pool := pool' } (.addRow .files jarRow) =
        some { db with pool := pool', tables := Function.update db.tables .files t } ∧
      Core (Files.layout pool') t [jarRow] ∧ Tracks (Files.layout pool') t [jarRow] none [] := by
  obtain ⟨pool', hintern, hlength⟩ := intern_jar hpool
  have hcore : Core (Files.layout pool') (db.tables .files) [] := by
    rw [hempty]
    exact core_construct (Files.layout pool')
  have hnew : (db.tables .files).rows.lookup ((Files.layout pool').getKey jarRow.cols) = none := by
    rw [hempty]
    rfl
  have htracks : Tracks (Files.layout pool') (db.tables .files) [] none [] :=
    ⟨.inl ⟨rfl, rfl⟩, le_rfl, by simp⟩
  obtain ⟨t, hadd, he⟩ := add_effect (.next _) hcore jarRow hnew
  refine ⟨pool', t, hlength, ?_, ?_, he.core, tracks_of_effect htracks he (.inl rfl)⟩
  · simp only [Tables.step, hintern, Option.bind_eq_bind, Option.bind_some]
  · have hadd' : Table.add (digestDb.layout { db with pool := pool' } .files)
        ((db.tables .files).allocate (nextAddresses .files) jarRow).1
        ((db.tables .files).allocate (nextAddresses .files) jarRow).2 = some (t, 0) := hadd
    simp only [Tables.step, hadd', Option.bind_eq_bind, Option.bind_some]

/-- A jar that enters between the pool and the tables is written to the file of
the jars, but its name is not in the file of the pool. -/
theorem late_jar (db : Database DigestTable DigestCols) (hpool : Holds [[]] db.pool)
    (hpoolFile : db.poolFile = some [0])
    (hfiles : db.tables .files = Table.construct (Files.layout db.pool))
    (hclassfiles : db.tables .classfiles =
      Table.construct (ClassFiles.layout db.pool (db.tables .files)))
    (hnone : ∀ i, db.files i = none) (htodo : db.todo = [.files, .classfiles]) :
    ∃ db', digestDb.run nextAddresses db
        [.intern (ascii "a.jar"), .addRow .files jarRow, .writeTable, .writeTable] = some db' ∧
      db'.todo = [] ∧ ¬ digestDb.FilesClosed db' := by
  obtain ⟨pool', t, -, hintern, hadd, hcore, htracks⟩ := add_jar db hpool hfiles
  obtain ⟨t₁, hwrite₁, -, -, -, htracks₁⟩ := write_noFaults hcore htracks (spaced_of_le (by decide))
  obtain ⟨t₂, hwrite₂, -, -, -, -⟩ := write_noFaults
    (core_construct (ClassFiles.layout pool' t₁))
    (show Tracks _ _ [] none [] from ⟨.inl ⟨rfl, rfl⟩, le_rfl, by simp⟩) (spaced_of_le (by decide))
  have hstep₁ : digestDb.step nextAddresses
      { db with pool := pool', tables := Function.update db.tables .files t } .writeTable =
      some
        { db with
          pool := pool'
          tables := Function.update (Function.update db.tables .files t) .files t₁
          files := Function.update db.files .files (some (image (Files.layout pool') [jarRow]))
          todo := [.classfiles] } := by
    refine Tables.step_writeTable
      { db with pool := pool', tables := Function.update db.tables .files t } htodo ?_ (b := true)
    simp only [Function.update_self, hnone]
    exact hwrite₁
  obtain ⟨db₂, hstep₂, htodo₂, hpoolFile₂, hfile₂⟩ : ∃ db₂, digestDb.step nextAddresses
      { db with
        pool := pool'
        tables := Function.update (Function.update db.tables .files t) .files t₁
        files := Function.update db.files .files (some (image (Files.layout pool') [jarRow]))
        todo := [.classfiles] } .writeTable = some db₂ ∧ db₂.todo = [] ∧
      db₂.poolFile = some [0] ∧ db₂.files .files = some (image (Files.layout pool') [jarRow]) := by
    refine ⟨_, Tables.step_writeTable _ rfl (t := t₂)
      (f := some (image (ClassFiles.layout pool' t₁) [])) (b := true) ?_, rfl, hpoolFile, ?_⟩
    · simp only [Function.update_of_ne, ne_eq, reduceCtorEq, not_false_eq_true, hnone, hclassfiles]
      exact hwrite₂
    · simp only [Function.update_of_ne, ne_eq, reduceCtorEq, not_false_eq_true,
        Function.update_self]
  refine ⟨db₂, ?_, htodo₂, fun hclosed => ?_⟩
  · simp only [Tables.run, List.foldlM_cons, List.foldlM_nil, hintern, hadd, hstep₁, hstep₂,
      Option.bind_eq_bind, Option.bind_some]
    rfl
  · have hrows : fileRows (digestDb.layout db₂ .files) (db₂.files .files) = [jarRow] := by
      rw [hfile₂]
      exact fileRows_eq htracks₁.file
    have hinside := hclosed .files jarRow (by rw [hrows]; exact List.mem_singleton_self jarRow)
    have hlt := inside_jar.mp hinside
    simp [hpoolFile₂] at hlt

/-- A write step takes the first table off the list and keeps the others. -/
theorem step_writeTable_rest {D : Tables ι α} {A : ∀ i, Allocator (α i)} {db db' : Database ι α}
    {i : ι} {todo : List ι} (htodo : db.todo = i :: todo)
    (hstep : D.step A db .writeTable = some db') :
    db'.todo = todo ∧ ∀ j ≠ i, db'.tables j = db.tables j := by
  simp only [Tables.step, htodo] at hstep
  obtain ⟨⟨t, file, result⟩, -, hdb'⟩ := Option.bind_eq_some_iff.mp hstep
  rw [← Option.some.inj hdb']
  exact ⟨rfl, fun j hj => Function.update_of_ne hj _ _⟩

end Sample

/-- The jar is interned and added before the save. -/
theorem filesClosed_sample :
    ∃ db db', digestDb.start = some db ∧
      digestDb.run nextAddresses db
        [.intern (ascii "a.jar"), .addRow .files jarRow, .startSave [.files, .classfiles],
          .writeTable, .writeTable] = some db' ∧ (db'.todo = [] → digestDb.FilesClosed db') := by
  obtain ⟨pool, hconstruct, -, hpool⟩ := construct_spec
  have hstart : digestDb.start = some (digestDb.empty pool) := by
    rw [Tables.start, hconstruct, Option.map_some]
  obtain ⟨pool', t, hlength, hintern, hadd, hcore, -⟩ := add_jar (digestDb.empty pool) hpool rfl
  have htimely : digestDb.TimelyRun nextAddresses (digestDb.empty pool)
      [.intern (ascii "a.jar"), .addRow .files jarRow, .startSave [.files, .classfiles],
        .writeTable, .writeTable] := by
    refine timelyRun_cons ⟨by decide, by decide⟩ trivial hintern (timelyRun_cons ⟨rfl, ?_⟩ ?_ hadd
      (timelyRun_cons ⟨rfl, by decide, ?_⟩ trivial rfl ⟨by simp [Tables.Valid], ?_,
        fun db hdb => ⟨?_, ?_, fun _ _ => trivial⟩⟩))
    · exact inside_jar.mpr (by simp [hlength])
    · exact fun hmem => absurd hmem (by simp [Tables.empty])
    · exact fun i => by cases i <;> decide
    · rintro i ⟨rfl⟩
      refine spaced_of_le ?_
      simp only [Function.update_self, hcore.length_eq]
      decide
    · simp [Tables.Valid, (step_writeTable_rest rfl hdb).1]
    · obtain ⟨htodo, htables⟩ := step_writeTable_rest rfl hdb
      rw [Tables.Timely, htodo]
      rintro i ⟨rfl⟩
      rw [htables .classfiles (by decide)]
      exact spaced_of_le (Nat.zero_le _)
  obtain ⟨db', hrun, hclosed⟩ := filesClosed_of_timelyRun digestDb nextAddresses hstart _ htimely
  exact ⟨_, db', hstart, hrun, hclosed⟩

/-- The jar is interned and added between the pool and the tables. -/
theorem not_filesClosed_sample :
    ∃ db db', digestDb.start = some db ∧
      digestDb.run nextAddresses db
        [.startSave [.files, .classfiles], .intern (ascii "a.jar"), .addRow .files jarRow,
          .writeTable, .writeTable] = some db' ∧ db'.todo = [] ∧ ¬ digestDb.FilesClosed db' := by
  obtain ⟨pool, hconstruct, hdirty, hpool⟩ := construct_spec
  have hstart : digestDb.start = some (digestDb.empty pool) := by
    rw [Tables.start, hconstruct, Option.map_some]
  have hwrite : pool.write none = some [0] := by
    rw [Pool.write, if_pos hdirty, hpool.pool_eq]
    rfl
  obtain ⟨db', hrun, htodo, hopen⟩ := late_jar
    { digestDb.empty pool with
      poolFile := pool.write none
      todo := [.files, .classfiles] } hpool hwrite rfl rfl (fun _ => rfl) rfl
  exact ⟨digestDb.empty pool, db', hstart, hrun, htodo, hopen⟩

end Tarracsh.DatabaseSave
