import Tarracsh.DigestMaps

/-!
# Digest runs over one directory

Every `public-digest` process opens the database in the output directory,
digests its inputs and saves, unless it is a dry run. With `rebuild` it first
moves the files to `.prev` and starts from nothing. The processes together
report and store what one pair of maps, and one kept aside at each rebuild,
would: no process can tell that the one before it ended. No record of a class
may be overwritten: a row that is released is read once more, and where the mark
of the new one ends up is not known then.

The inputs of a process are taken one after the other and file operations
succeed. No table writes what another one holds, so the order of the tables in
`Database::write` does not matter.
-/
namespace Tarracsh.DigestSessions
open ByteStrings QueryTrees StringPool TableModel TableInvariant TableFile TableRuns TableFrames
open DomainTables CallGraphTables CallGraphInvariant ClassFileDigest JarEntries Reporting
open DigestTasks DigestRuns DigestSimulation DigestOutcomes DryRuns TaskFrames DigestMaps
open ClassOutcomes (InputTexts processAll)

/-- The files of a database. -/
structure DbFiles where
  pool : Option Bytes
  files : Option Bytes
  classfiles : Option Bytes
  deriving DecidableEq, Repr

/-- A database that was never saved. -/
def DbFiles.none : DbFiles := ⟨Option.none, Option.none, Option.none⟩

/-- The output directory: the files and those with the extension `.prev`. -/
structure Directory where
  current : DbFiles
  prev : DbFiles
  deriving DecidableEq, Repr

def Directory.empty : Directory := ⟨DbFiles.none, DbFiles.none⟩

/-- `backupPrevFile`: the file and its `.prev`. -/
def backupPrevFile (file prev : Option Bytes) : Option Bytes × Option Bytes :=
  match file with
  | none => (none, prev)
  | some content => (none, some content)

/-- `Database::backup`. -/
def Directory.backup (d : Directory) : Directory :=
  let pool := backupPrevFile d.current.pool d.prev.pool
  let files := backupPrevFile d.current.files d.prev.files
  let classfiles := backupPrevFile d.current.classfiles d.prev.classfiles
  ⟨⟨pool.1, files.1, classfiles.1⟩, ⟨pool.2, files.2, classfiles.2⟩⟩

/-- `Database::clean` removes the files that are left. -/
def Directory.clean (d : Directory) : Directory := { d with current := DbFiles.none }

section Processes
variable (A : ∀ α : Type, Allocator α) {H : Bytes → Sha256} (garbage : ℕ → UInt8)

/-- `Database::read` into a new database. -/
def readDb (f : DbFiles) : Option (DigestDb × Bool) := do
  let fresh ← Pool.construct
  let pool ← fresh.read f.pool
  let (files, filesRead) ← (Table.construct (Files.layout pool)).read (Files.layout pool) (A _)
    f.files
  let empty := Table.construct (ClassFiles.layout pool files)
  if !filesRead then some (⟨pool, files, empty⟩, false)
  else do
    let (classfiles, classesRead) ← empty.read (ClassFiles.layout pool files) (A _) f.classfiles
    some (⟨pool, files, classfiles⟩, classesRead)

/-- `DigestDb::create`; there is no database when a file cannot be read. -/
def create (doClean : Bool) (d : Directory) : Option (Directory × Option DigestDb) :=
  if doClean then do
    let db ← DigestDb.create
    some (d.backup.clean, some db)
  else do
    let (db, result) ← readDb A d.current
    some (d, if result then some db else none)

/-- `Database::write`. -/
def writeDb (db : DigestDb) (f : DbFiles) : Option DbFiles := do
  let (_, files, _) ← db.files.write (Files.layout db.pool) (noFaults (Files.layout db.pool)) f.files
  let (_, classfiles, _) ← db.classfiles.write (ClassFiles.layout db.pool db.files)
    (noFaults (ClassFiles.layout db.pool db.files)) f.classfiles
  some ⟨db.pool.write f.pool, files, classfiles⟩

/-- The options and inputs of one process. -/
structure Process (H : Bytes → Sha256) where
  rebuild : Bool
  options : Options
  inputs : List (Input H)

/-- `PublicDigest::runAsStandalone` up to `endAnalysis`. There are no results
when the database cannot be opened. -/
def runAsStandalone (d : Directory) (p : Process H) : Outcome (Directory × Option Results) := do
  let (d, opened) ← .ofOption (create A p.rebuild d)
  match opened with
  | none => .returned (d, none)
  | some db => do
      let (db, results) ← processAll A garbage p.options (db, {}) p.inputs
      if p.options.dryRun then .returned (d, some results)
      else do
        let current ← .ofOption (writeDb db d.current)
        .returned (⟨current, d.prev⟩, some results)

/-- One process after the other. -/
def runProcesses (d : Directory) : List (Process H) → Outcome (Directory × List (Option Results))
  | [] => .returned (d, [])
  | p :: ps => do
      let (d, results) ← runAsStandalone A garbage d p
      let (d, rest) ← runProcesses d ps
      .returned (d, results :: rest)

end Processes

section Abstract
variable {H : Bytes → Sha256} (garbage : ℕ → UInt8)

def Maps.empty : Maps := ⟨fun _ => none, fun _ => none⟩

/-- The maps that were saved last, and those of before the last rebuild. -/
structure Generations where
  current : Option Maps
  prev : Option Maps

def Generations.empty : Generations := ⟨none, none⟩

/-- What a process starts from. -/
def opening (g : Generations) (p : Process H) : Generations :=
  if p.rebuild then ⟨none, g.current.or g.prev⟩ else g

/-- A process on maps. A dry run keeps nothing but what a rebuild has moved. -/
def digestProcess (g : Generations) (p : Process H) : Generations × Results :=
  let g := opening g p
  let digested := digestAll H garbage p.options (g.current.getD Maps.empty, {}) p.inputs
  (if p.options.dryRun then g else ⟨some digested.1, g.prev⟩, digested.2)

def digestProcesses (g : Generations) : List (Process H) → Generations × List Results
  | [] => (g, [])
  | p :: ps =>
      let digested := digestProcess garbage g p
      let rest := digestProcesses digested.1 ps
      (rest.1, digested.2 :: rest.2)

/-- No record of a class file or of a class is overwritten. -/
def KeepsRecords (options : Options) (m : Maps) (x : Input H) : Prop :=
  KeepsFiles H garbage options m x ∧ KeepsClasses H garbage options m x

/-- No process overwrites a record. -/
def AllKeepRecords (g : Generations) : List (Process H) → Prop
  | [] => True
  | p :: ps =>
      Throughout H garbage p.options (KeepsRecords garbage p.options)
          ((opening g p).current.getD Maps.empty, {}) p.inputs ∧
        AllKeepRecords (digestProcess garbage g p).1 ps

end Abstract

/-- The files of a database whose rows are all saved. -/
def filesOf (db : DigestDb) (fs : List (Row FileCols)) (cs : List (Row ClassFileCols)) : DbFiles :=
  ⟨some db.pool.pool, some (image (Files.layout db.pool) fs),
    some (image (ClassFiles.layout db.pool db.files) cs)⟩

/-- A database over files that hold all its rows. -/
structure Opened (words : List Bytes) (f : DbFiles) (db : DigestDb) (fs : List (Row FileCols))
    (cs : List (Row ClassFileCols)) : Prop where
  valid : Valid words db fs cs
  pool : db.pool.isDirty = false → f.pool = some db.pool.pool
  files : Tracks (Files.layout db.pool) db.files fs f.files fs
  classes : Tracks (ClassFiles.layout db.pool db.files) db.classfiles cs f.classfiles cs

section Reading
variable (A : ∀ α : Type, Allocator α) {words : List Bytes} {db db' : DigestDb}
  {fs fs' : List (Row FileCols)} {cs cs' : List (Row ClassFileCols)} {f : DbFiles}

theorem tracks_same {α : Type} {L : Layout α} {rs : List (Row α)} {file : Option Bytes}
    (t : Table α) (hfile : file = none ∧ rs = [] ∨ file = some (image L rs)) :
    Tracks L t rs file rs :=
  ⟨hfile, le_rfl, fun _ _ hr hne => absurd hr hne⟩

/-- A new database. -/
theorem create_opened (hnil : [] ∈ words) :
    ∃ db, DigestDb.create = some db ∧ readDb A DbFiles.none = some (db, true) ∧
      Opened words DbFiles.none db [] [] ∧ maps db = Maps.empty := by
  obtain ⟨pool, hpool, hdirty, hholds⟩ := construct_spec
  obtain ⟨db, hcreate, hvalid, hstored⟩ := create_valid words hnil
  have hdb : db = ⟨pool, Table.construct (Files.layout pool),
      Table.construct ⟨ClassFiles.format, fun _ => []⟩⟩ := by
    rw [DigestDb.create, hpool] at hcreate
    exact (Option.some.inj hcreate).symm
  refine ⟨db, hcreate, ?_, ⟨hvalid, ?_, tracks_same _ (.inl ⟨rfl, rfl⟩),
    tracks_same _ (.inl ⟨rfl, rfl⟩)⟩, Maps.ext ?_ hstored⟩
  · simp only [readDb, hpool, hdb, DbFiles.none, Pool.read, Table.read, Option.bind_eq_bind,
      Option.bind_some, Bool.not_true, Bool.false_eq_true, if_false]
    rfl
  · rw [hdb, hdirty]
    simp
  · funext name
    change (fileRow db name).map _ = none
    rw [fileRow_of_empty hvalid]
    rfl

/-- The maps of a database are determined by its rows and its strings. -/
theorem maps_of_rows (h : Valid words db fs cs) (h' : Valid words db' fs cs)
    (hpool : db'.pool.pool = db.pool.pool) : maps db' = maps db := by
  have htext : ∀ s, text db'.pool s = text db.pool s := by
    intro s
    rw [text, text, Pool.getCString, Pool.getCString, hpool]
  have hkeys : ∀ r, ClassFiles.getStrongClassname db'.pool db'.files r =
      ClassFiles.getStrongClassname db.pool db.files r := by
    intro r
    simp only [ClassFiles.getStrongClassname, h'.files.getRow_eq, h.files.getRow_eq, htext]
  apply Maps.ext
  · funext name
    change (findRow db'.files name).map _ = (findRow db.files name).map _
    congr 1
    apply Option.ext
    intro r
    rw [findRow_eq_some_iff h'.files h'.filedFiles, findRow_eq_some_iff h.files h.filedFiles]
    change r ∈ fs ∧ text db'.pool r.cols.filename = name ↔
      r ∈ fs ∧ text db.pool r.cols.filename = name
    rw [htext]
  · funext key
    apply Option.ext
    intro x
    change stored db' key = some x ↔ stored db key = some x
    rw [stored_eq_some_iff h', stored_eq_some_iff h]
    simp only [hkeys, recordOf, htext]

/-- Reading what was saved. -/
theorem readDb_filesOf (h : Valid words db fs cs) :
    ∃ db', readDb A (filesOf db fs cs) = some (db', true) ∧
      Opened words (filesOf db fs cs) db' fs cs ∧ maps db' = maps db := by
  obtain ⟨strings, hholds, hwords⟩ := h.pooled
  obtain ⟨fresh, hfresh, -, hfreshHolds⟩ := construct_spec
  obtain ⟨pool, hread, hpoolHolds, hpool, hclean, -⟩ := read_spec hholds hfreshHolds
  have hstring : pool.getCString = db.pool.getCString := by
    funext item
    rw [Pool.getCString, Pool.getCString, hpool]
  have htext : ∀ s, text pool s = text db.pool s := by
    intro s
    rw [text, text, hstring]
  have hlayout : Files.layout pool = Files.layout db.pool :=
    congrArg (Layout.mk Files.format) (funext fun r => htext r.filename)
  obtain ⟨files, hfiles, hcore, hfiled, -, -⟩ :=
    read_image (A _) h.files.ids (keys_nodup h.files h.filedFiles)
  have hlayout' : ClassFiles.layout pool files = ClassFiles.layout db.pool db.files := by
    refine congrArg (Layout.mk ClassFiles.format) (funext fun r => ?_)
    simp only [ClassFiles.getStrongClassname, hcore.getRow_eq, h.files.getRow_eq, htext]
  obtain ⟨classfiles, hclassfiles, hcore', hfiled', -, -⟩ :=
    read_image (A _) h.classes.ids (keys_nodup h.classes h.filedClasses)
  have hvalid : Valid words ⟨pool, files, classfiles⟩ fs cs :=
    { pooled := ⟨strings, hpoolHolds, hwords⟩
      files := by rw [hlayout]; exact hcore
      filedFiles := by rw [hlayout]; exact hfiled
      named := fun f hf => by rw [hstring]; exact h.named f hf
      classes := by rw [hlayout']; exact hcore'
      filedClasses := by rw [hlayout']; exact hfiled'
      owned := fun r hr => by rw [hstring]; exact h.owned r hr
      small := h.small }
  refine ⟨⟨pool, files, classfiles⟩, ?_, ⟨hvalid, fun _ => by rw [hpool]; rfl, ?_, ?_⟩,
    maps_of_rows h hvalid hpool⟩
  · simp only [readDb, filesOf, hfresh, hread, Option.bind_eq_bind, Option.bind_some]
    rw [hlayout, hfiles]
    simp only [Option.bind_some, Bool.not_true, Bool.false_eq_true, if_false]
    rw [hlayout', hclassfiles]
    rfl
  · rw [hlayout]
    exact tracks_same _ (.inr rfl)
  · rw [hlayout']
    exact tracks_same _ (.inr rfl)

/-- Saving what has changed since the files were read. -/
theorem writeDb_spec (h : Opened words f db fs cs) (hkept : DbKept db db')
    (hmarks : Marks none db.classfiles db'.classfiles) (h' : Valid words db' fs' cs')
    (hfs : fs'.length ≤ 2 ^ 32) (hcs : cs'.length ≤ 2 ^ 32) :
    writeDb db' f = some (filesOf db' fs' cs') := by
  have hfiles := tracks_of_marks h.valid.files h'.files hkept.files h.files.file h.files
  have hclasses := tracks_of_marks h.valid.classes h'.classes hmarks h.classes.file h.classes
  obtain ⟨files, hwrite, -⟩ := write_noFaults h'.files hfiles (spaced_of_le hfs)
  obtain ⟨classfiles, hwrite', -⟩ := write_noFaults h'.classes hclasses (spaced_of_le hcs)
  have hpool : db'.pool.write f.pool = some db'.pool.pool := by
    rw [Pool.write]
    split_ifs with hdirty
    · rfl
    · rcases hkept.pool with hsame | hmarked
      · rw [hsame] at hdirty ⊢
        exact h.pool (Bool.eq_false_iff.mpr hdirty)
      · exact absurd hmarked hdirty
  simp only [writeDb, hwrite, hwrite', hpool, Option.bind_eq_bind, Option.bind_some]
  rfl

end Reading

/-- The files hold maps of at most `n` files and classes, or nothing was saved. -/
def Holding (words : List Bytes) (f : DbFiles) (n : ℕ) : Option Maps → Prop
  | none => f = DbFiles.none
  | some m => ∃ db fs cs, Valid words db fs cs ∧ (fs.length ≤ n ∧ cs.length ≤ n) ∧
      f = filesOf db fs cs ∧ maps db = m

/-- The directory holds both generations. -/
structure Generations.In (words : List Bytes) (n : ℕ) (d : Directory) (g : Generations) : Prop where
  current : Holding words d.current n g.current
  prev : Holding words d.prev n g.prev

theorem Holding.mono {words : List Bytes} {f : DbFiles} {n n' : ℕ} {m : Option Maps}
    (h : Holding words f n m) (hn : n ≤ n') : Holding words f n' m := by
  cases m with
  | none => exact h
  | some m =>
      obtain ⟨db, fs, cs, hvalid, hlength, hrest⟩ := h
      exact ⟨db, fs, cs, hvalid, ⟨hlength.1.trans hn, hlength.2.trans hn⟩, hrest⟩

section Runs
variable (A : ∀ α : Type, Allocator α) {H : Bytes → Sha256} (garbage : ℕ → UInt8)
  {words : List Bytes} {d : Directory} {g : Generations} {n : ℕ}

/-- Opening what the files hold. -/
theorem readDb_holding (hnil : [] ∈ words) {f : DbFiles} {m : Option Maps}
    (h : Holding words f n m) :
    ∃ db fs cs, readDb A f = some (db, true) ∧ Opened words f db fs cs ∧
      (fs.length ≤ n ∧ cs.length ≤ n) ∧ maps db = m.getD Maps.empty := by
  cases m with
  | none =>
      obtain rfl : f = DbFiles.none := h
      obtain ⟨db, -, hread, hopened, hmaps⟩ := create_opened A hnil
      exact ⟨db, [], [], hread, hopened, ⟨Nat.zero_le n, Nat.zero_le n⟩, hmaps⟩
  | some m =>
      obtain ⟨db, fs, cs, hvalid, hlength, rfl, rfl⟩ := h
      obtain ⟨db', hread, hopened, hmaps⟩ := readDb_filesOf A hvalid
      exact ⟨db', fs, cs, hread, hopened, hlength, hmaps⟩

/-- A rebuild moves the files of one save as a whole. -/
theorem backup_holding (h : g.In words n d) :
    Generations.In words n d.backup.clean ⟨none, g.current.or g.prev⟩ := by
  refine ⟨rfl, ?_⟩
  have hcurrent := h.current
  cases hg : g.current with
  | none =>
      rw [hg] at hcurrent
      have hnone : d.current = DbFiles.none := hcurrent
      have hprev : d.backup.clean.prev = d.prev := by
        rw [Directory.clean, Directory.backup, hnone]
        rfl
      rw [hprev, Option.none_or]
      exact h.prev
  | some m =>
      rw [hg] at hcurrent
      obtain ⟨db, fs, cs, hvalid, hlength, hfiles, hmaps⟩ := hcurrent
      refine ⟨db, fs, cs, hvalid, hlength, ?_, hmaps⟩
      rw [Directory.clean, Directory.backup, hfiles]
      rfl

theorem create_spec (hnil : [] ∈ words) (h : g.In words n d) (p : Process H) :
    ∃ d₁ db fs cs, create A p.rebuild d = some (d₁, some db) ∧
      (opening g p).In words n d₁ ∧ Opened words d₁.current db fs cs ∧
      (fs.length ≤ n ∧ cs.length ≤ n) ∧ maps db = (opening g p).current.getD Maps.empty := by
  cases hrebuild : p.rebuild with
  | true =>
      obtain ⟨db, hcreate, -, hopened, hmaps⟩ := create_opened A hnil
      rw [opening, if_pos hrebuild]
      refine ⟨d.backup.clean, db, [], [], ?_, backup_holding h, hopened,
        ⟨Nat.zero_le n, Nat.zero_le n⟩, hmaps⟩
      simp only [create, if_true, hcreate, Option.bind_eq_bind, Option.bind_some]
  | false =>
      obtain ⟨db, fs, cs, hread, hopened, hlength, hmaps⟩ := readDb_holding A hnil h.current
      rw [opening, if_neg (by simp [hrebuild])]
      refine ⟨d, db, fs, cs, ?_, h, hopened, hlength, hmaps⟩
      simp only [create, Bool.false_eq_true, if_false, hread, Option.bind_eq_bind,
        Option.bind_some, if_true]

/-- The files and classes that a process can add. -/
def recordCount (p : Process H) : ℕ := (p.inputs.map fun x => classCount x + 1).sum

theorem recordCount_eq (p : Process H) :
    recordCount p = (p.inputs.map classCount).sum + p.inputs.length := by
  rw [recordCount, List.sum_map_add]
  simp

/-- One process. -/
theorem runAsStandalone_spec (hw : Lexicon words) (hnil : [] ∈ words) (h : g.In words n d)
    (p : Process H) (hp : ∀ x ∈ p.inputs, InputTexts garbage words x)
    (hkeeps : Throughout H garbage p.options (KeepsRecords garbage p.options)
      ((opening g p).current.getD Maps.empty, {}) p.inputs)
    (hroom : n + recordCount p ≤ 2 ^ 32) :
    ∃ d', runAsStandalone A garbage d p = .returned (d', some (digestProcess garbage g p).2) ∧
      (digestProcess garbage g p).1.In words (n + recordCount p) d' := by
  have hcount := recordCount_eq p
  obtain ⟨d₁, db, fs, cs, hcreate, hin, hopened, ⟨hfs, hcs⟩, hmaps⟩ := create_spec A hnil h p
  rw [← hmaps] at hkeeps
  obtain ⟨db', r', fs', cs', hrun, hvalid, hlength', hdigested, hkept, hadds⟩ := processAll_spec A
    garbage p.options hw p.inputs hp hopened.valid (by omega) {}
      (hkeeps.imp fun _ _ hboth => hboth.1)
  have hclasses := hadds (hkeeps.imp fun _ _ hboth => hboth.2)
  have hgrown := hclasses.length
  rw [hvalid.classes.length_eq, hopened.valid.classes.length_eq] at hgrown
  rw [hmaps] at hdigested
  have hresults : (digestProcess garbage g p).2 = r' := (congrArg Prod.snd hdigested).symm
  have hmore : n ≤ n + recordCount p := Nat.le_add_right _ _
  rw [hresults]
  cases hdry : p.options.dryRun with
  | true =>
      refine ⟨d₁, ?_, ?_⟩
      · simp only [runAsStandalone, hcreate, hrun, hdry, Outcome.ofOption_some,
          Outcome.returned_bind, if_true]
      · have hsame : (digestProcess garbage g p).1 = opening g p := if_pos hdry
        rw [hsame]
        exact ⟨hin.current.mono hmore, hin.prev.mono hmore⟩
  | false =>
      have hwrite := writeDb_spec hopened (hkept hdry) hclasses.marks hvalid (by omega) (by omega)
      refine ⟨⟨filesOf db' fs' cs', d₁.prev⟩, ?_, ?_⟩
      · simp only [runAsStandalone, hcreate, hrun, hdry, hwrite, Outcome.ofOption_some,
          Outcome.returned_bind, Bool.false_eq_true, if_false]
      · have hsaved : (digestProcess garbage g p).1 = ⟨some (digestAll H garbage p.options
            ((opening g p).current.getD Maps.empty, {}) p.inputs).1, (opening g p).prev⟩ :=
          if_neg (by simp [hdry])
        rw [hsaved, ← hdigested]
        exact ⟨⟨db', fs', cs', hvalid, ⟨by omega, by omega⟩, rfl, rfl⟩, hin.prev.mono hmore⟩

/-- All processes. -/
theorem runProcesses_spec (hw : Lexicon words) (hnil : [] ∈ words) (ps : List (Process H))
    (hps : ∀ p ∈ ps, ∀ x ∈ p.inputs, InputTexts garbage words x) (h : g.In words n d)
    (hkeeps : AllKeepRecords garbage g ps) (hroom : n + (ps.map recordCount).sum ≤ 2 ^ 32) :
    ∃ d', runProcesses A garbage d ps =
        .returned (d', (digestProcesses garbage g ps).2.map some) ∧
      (digestProcesses garbage g ps).1.In words (n + (ps.map recordCount).sum) d' := by
  induction ps generalizing d g n with
  | nil => exact ⟨d, rfl, h⟩
  | cons p ps ih =>
      rw [List.map_cons, List.sum_cons] at hroom ⊢
      obtain ⟨d₁, hrun, hin⟩ := runAsStandalone_spec A garbage hw hnil h p
        (hps p List.mem_cons_self) hkeeps.1 (by omega)
      obtain ⟨d', hrest, hin'⟩ := ih (fun q hq => hps q (List.mem_cons_of_mem p hq)) hin hkeeps.2
        (by omega)
      refine ⟨d', ?_, ?_⟩
      · simp only [runProcesses, hrun, hrest, Outcome.returned_bind]
        rfl
      · rw [← Nat.add_assoc]
        exact hin'

/-- Processes over an empty directory that overwrite no record and together hold no more
than 2^32 of them report what one pair of maps in memory would, and the two generations of
files can be opened and hold its maps. -/
theorem processes_are_one (hw : Lexicon words) (hnil : [] ∈ words) (ps : List (Process H))
    (hps : ∀ p ∈ ps, ∀ x ∈ p.inputs, InputTexts garbage words x)
    (hkeeps : AllKeepRecords garbage Generations.empty ps)
    (hroom : (ps.map recordCount).sum ≤ 2 ^ 32) :
    ∃ d db prev, runProcesses A garbage Directory.empty ps =
        .returned (d, (digestProcesses garbage Generations.empty ps).2.map some) ∧
      readDb A d.current = some (db, true) ∧
      maps db = (digestProcesses garbage Generations.empty ps).1.current.getD Maps.empty ∧
      readDb A d.prev = some (prev, true) ∧
      maps prev = (digestProcesses garbage Generations.empty ps).1.prev.getD Maps.empty := by
  have hempty : Generations.empty.In words 0 Directory.empty := ⟨rfl, rfl⟩
  obtain ⟨d, hrun, hin⟩ := runProcesses_spec A garbage hw hnil ps hps hempty hkeeps
    (by rwa [Nat.zero_add])
  obtain ⟨db, fs, cs, hread, -, -, hmaps⟩ := readDb_holding A hnil hin.current
  obtain ⟨prev, fs', cs', hread', -, -, hmaps'⟩ := readDb_holding A hnil hin.prev
  exact ⟨d, db, prev, hrun, hread, hmaps, hread', hmaps'⟩

end Runs

/-- Two runs, a dry run in between, and a rebuild. -/
def sampleProcesses : List (Process DigestOutcomes.sampleHash) :=
  [⟨false, {}, [.jar sampleJar [entryA], .classFile sampleFile]⟩,
    ⟨false, { dryRun := true }, [.jar sampleJar [entryA]]⟩,
    ⟨false, { useFileTimestamp := false }, [.jar sampleJar [entryA]]⟩,
    ⟨true, {}, [.classFile sampleFile]⟩]

theorem inputTexts_sampleProcesses :
    ∀ p ∈ sampleProcesses, ∀ x ∈ p.inputs,
      InputTexts (fun _ => 0) ClassOutcomes.outcomeWords x := by
  have hjar : InputTexts (fun _ => 0) ClassOutcomes.outcomeWords
      (.jar sampleJar [entryA] : Input DigestOutcomes.sampleHash) := by
    refine ⟨by decide, fun e he => ?_⟩
    rw [List.mem_singleton.mp he]
    decide
  have hfile := ClassOutcomes.inputTexts_sampleFile fun _ => 0
  simp only [sampleProcesses, List.forall_mem_cons, List.not_mem_nil, false_imp_iff, implies_true,
    and_true]
  exact ⟨⟨hjar, hfile⟩, hjar, hjar, hfile⟩

theorem keepsRecords_sampleFile (options : Options) (m : Maps) :
    KeepsRecords (fun _ => 0) options m
      (.classFile sampleFile : Input DigestOutcomes.sampleHash) := by
  refine ⟨keepsFiles_sampleFile _ options m, fun classname hclassname => ?_⟩
  rw [storedClass_sampleFile] at hclassname
  cases hclassname

/-- The class of the jar is new in the first process and up to date in the third. -/
theorem allKeepRecords_sampleProcesses :
    AllKeepRecords (fun _ => 0) Generations.empty sampleProcesses := by
  refine ⟨⟨⟨trivial, fun _ => ⟨fun _ => rfl, trivial⟩⟩, keepsRecords_sampleFile _ _, trivial⟩,
    ⟨⟨trivial, fun _ => ⟨fun hwrites => ?_, trivial⟩⟩, trivial⟩,
    ⟨⟨trivial, fun _ => ⟨fun hwrites => ?_, trivial⟩⟩, trivial⟩,
    ⟨keepsRecords_sampleFile _ _, trivial⟩, trivial⟩
  · exact absurd hwrites (by simp [KeyedReactions.Rules.Writes, rules])
  · exact absurd hwrites (by decide)

theorem processes_are_one_sample :
    ∃ d db prev, runProcesses Allocator.next (fun _ => 0) Directory.empty sampleProcesses =
        .returned (d, (digestProcesses (fun _ => 0) Generations.empty sampleProcesses).2.map some) ∧
      readDb Allocator.next d.current = some (db, true) ∧
      maps db = (digestProcesses (fun _ => 0) Generations.empty sampleProcesses).1.current.getD
        Maps.empty ∧
      readDb Allocator.next d.prev = some (prev, true) ∧
      maps prev = (digestProcesses (fun _ => 0) Generations.empty sampleProcesses).1.prev.getD
        Maps.empty :=
  processes_are_one Allocator.next (fun _ => 0) ClassOutcomes.lexicon_outcomeWords (by decide)
    sampleProcesses inputTexts_sampleProcesses allKeepRecords_sampleProcesses (by decide)

end Tarracsh.DigestSessions
