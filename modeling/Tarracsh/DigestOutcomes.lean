import Tarracsh.DigestSimulation

/-!
# Runs of a digest task

What `start`, the entries and `end` do to a valid digest database, in terms of
the map from class keys to stored classes and of the verdicts on the entries.
-/
namespace Tarracsh.DigestOutcomes
open ByteStrings QueryTrees StringPool TableModel TableInvariant TableFrames DomainTables
open CallGraphTables CallGraphInvariant ClassFileFormat ClassFileDigest JarEntries Reporting
open DigestTasks DigestRuns DigestSimulation KeyedReactions
open DigestView (bufferDigest bufferDigest_length eval_digestBuffer)

section Entries
variable (A : ∀ α : Type, Allocator α) {H : Bytes → Sha256} (garbage : ℕ → UInt8)
  (options : Options) {words : List Bytes} {filename : Bytes}

/-- All entries of a jar. -/
theorem processEntries_spec (hw : Lexicon words) (es : List (ReadEntry H))
    (hnames : ∀ e ∈ es, e.name ∈ words) {s : TaskState} {fs : List (Row FileCols)}
    {cs : List (Row ClassFileCols)} {row : Row FileCols}
    (h : Ready words options.dryRun filename s fs cs row) :
    ∃ s' fs' cs' row', (es.map fun e => e.entry).foldlM (processEntry A H garbage options) s =
        .returned s' ∧
      Ready words options.dryRun filename s' fs' cs' row' ∧
      stored s'.db = (rules H options.dryRun filename).after (stored s.db) es ∧
      notesOf s' row' = ((rules H options.dryRun filename).verdicts (stored s.db) es).foldl
        (note options filename) (notesOf s row) ∧
      Step s s' row row' ∧
      ((∀ e ∈ es, ¬(rules H options.dryRun filename).Writes (stored s.db) e) →
        s'.db.classfiles = s.db.classfiles) ∧
      ((rules H options.dryRun filename).Extends (stored s.db) es →
        AddsRows es.length s.db.classfiles s'.db.classfiles) := by
  induction es generalizing s fs cs row with
  | nil =>
      exact ⟨s, fs, cs, row, rfl, h, rfl, rfl, ⟨rfl, rfl⟩, fun _ => rfl, fun _ => AddsRows.refl _⟩
  | cons e es ih =>
      obtain ⟨s₁, fs₁, cs₁, row₁, hentry, hready, hstored, hnotes, hstep, hkept, hadds⟩ :=
        processEntry_spec A garbage options hw h e (hnames e List.mem_cons_self)
      obtain ⟨s', fs', cs', row', hrest, hready', hstored', hnotes', hstep', hkept',
        hadds'⟩ := ih (fun a ha => hnames a (List.mem_cons_of_mem e ha)) hready
      refine ⟨s', fs', cs', row', ?_, hready', ?_, ?_, ⟨?_, ?_⟩, ?_, fun hextends => ?_⟩
      · rw [List.map_cons, List.foldlM_cons, hentry]
        exact hrest
      · rw [hstored', hstored]
        rfl
      · rw [hnotes', hstored, hnotes]
        rfl
      · rw [hstep'.task, hstep.task]
      · rw [hstep'.row, hstep.row]
        rfl
      · intro hidle
        have hidleE := hidle e List.mem_cons_self
        have hsame : stored s₁.db = stored s.db := by rw [hstored, Rules.step, if_neg hidleE]
        refine (hkept' fun a ha => ?_).trans (hkept hidleE)
        rw [hsame]
        exact hidle a (List.mem_cons_of_mem e ha)
      · have hboth := (hadds hextends.1).trans (hadds' (hstored ▸ hextends.2))
        rwa [Nat.add_comm] at hboth

end Entries

/-- The row of a file. -/
def fileRow (db : DigestDb) (filename : Bytes) : Option (Row FileCols) :=
  (db.files.findByKey filename).bind db.files.heap.lookup

section Start
variable (A : ∀ α : Type, Allocator α) (options : Options) {words : List Bytes} {jar : JarFile}
  {db : DigestDb} {fs : List (Row FileCols)} {cs : List (Row ClassFileCols)}
  {row : Row FileCols}

theorem findByKey_of_fileRow (h : Valid words db fs cs) {filename : Bytes}
    (hrow : fileRow db filename = some row) :
    ∃ p, db.files.findByKey filename = some p ∧ db.files.heap.lookup p = some row ∧
      db.files.autoIncrementIndex[row.id]? = some p ∧
      db.pool.getCString row.cols.filename.toNat = some filename := by
  obtain ⟨p, hp, hlookup⟩ := Option.bind_eq_some_iff.mp hrow
  obtain ⟨i, f, hi, hf, hkey⟩ := (h.filedFiles filename p).mp hp
  rw [h.files.lookup_of_index hi, hf] at hlookup
  obtain rfl := Option.some.inj hlookup
  obtain ⟨name, hname⟩ := Option.isSome_iff_exists.mp (h.named f (List.mem_of_getElem? hf))
  refine ⟨p, hp, ?_, ?_, ?_⟩
  · rw [h.files.lookup_of_index hi, hf]
  · rw [h.files.ids i f hf]
    exact hi
  · rw [hname]
    change text db.pool f.cols.filename = filename at hkey
    rw [text, hname] at hkey
    exact congrArg some hkey

theorem findByKey_of_fileRow_none (h : Valid words db fs cs) {filename : Bytes}
    (hrow : fileRow db filename = none) : db.files.findByKey filename = none := by
  cases hp : db.files.findByKey filename with
  | none => rfl
  | some p =>
      obtain ⟨i, f, hi, hf, -⟩ := (h.filedFiles filename p).mp hp
      rw [fileRow, hp, Option.bind_some, h.files.lookup_of_index hi, hf] at hrow
      cases hrow

/-- The jar has a row. -/
theorem start_known (h : Valid words db fs cs) (hrow : fileRow db jar.filename = some row)
    (results : Results) :
    ∃ p, db.files.autoIncrementIndex[row.id]? = some p ∧ start A options jar db results =
        some (⟨db, ⟨p, false, isFileUnchanged options jar false row.cols, ∅⟩, results⟩,
          !isFileUnchanged options jar false row.cols) ∧
      Ready words options.dryRun jar.filename
        ⟨db, ⟨p, false, isFileUnchanged options jar false row.cols, ∅⟩, results⟩ fs cs row := by
  obtain ⟨p, hp, hlookup, hindex, hname⟩ := findByKey_of_fileRow h hrow
  refine ⟨p, hindex, ?_, h, hlookup, hname, fun _ => hindex⟩
  simp [start, getOrCreateFileRow, hp, hlookup]

/-- The jar is new. -/
theorem start_new (hw : Lexicon words) (h : Valid words db fs cs)
    (hrow : fileRow db jar.filename = none) (hmem : jar.filename ∈ words)
    (hroom : options.dryRun = false → fs.length + 1 < 2 ^ 64 - 1) (results : Results) :
    ∃ s fs' row, start A options jar db results = some (s, true) ∧
      Ready words options.dryRun jar.filename s fs' cs row ∧ stored s.db = stored db ∧
      s.db.classfiles = db.classfiles ∧ s.task.digestMap = ∅ ∧ s.results = results ∧
      s.task.isFileUnchanged = false ∧ row.cols.classfileCount = 0 ∧
      row.cols.fileSize = jar.size ∧ row.cols.lastWriteTime = jar.timestamp := by
  have hkey := findByKey_of_fileRow_none h hrow
  obtain ⟨pool, offset, hadd, hpooled, hgrows, hread⟩ := h.pooled.internalAdd hw hmem
  obtain ⟨hgrown, hsame⟩ := h.grows hpooled hgrows
  let new : Row FileCols := CallGraphDb.newRow
    { filename := UInt64.ofNat offset, type := Jar, lastWriteTime := jar.timestamp,
      fileSize := jar.size, classfileCount := 0 }
  have hname : pool.getCString new.cols.filename.toNat = some jar.filename := by
    change pool.getCString (UInt64.ofNat offset).toNat = some jar.filename
    rw [hpooled.toNat_ofNat hw hread, hread]
  have hunchanged : ∀ cols, isFileUnchanged options jar true cols = false := by
    intro cols
    simp [isFileUnchanged]
  cases hdry : options.dryRun with
  | true =>
      obtain ⟨hvalid, hstored⟩ := hgrown.of_files hpooled (fun _ _ hs => hs)
        (allocate_core (A _) hgrown.files new) hgrown.filedFiles hgrown.named
        (fun i f hf => ⟨f, hf, rfl⟩) h.small
      refine ⟨⟨⟨pool, (db.files.allocate (A _) new).1, db.classfiles⟩,
        ⟨(A _).malloc db.files.heap, true, false, ∅⟩, results⟩, fs, new, ?_,
        ⟨hvalid, AList.lookup_insert _, hname, nofun⟩, hstored.trans hsame, rfl, rfl, rfl, rfl,
        rfl, rfl, rfl⟩
      have hlookup : (db.files.allocate (A _) new).1.heap.lookup
          (db.files.allocate (A _) new).2 = some new := AList.lookup_insert _
      simp only [start, getOrCreateFileRow, hkey, hadd, hdry, Option.bind_eq_bind,
        Option.bind_some, if_true]
      rw [hlookup, Option.bind_some, hunchanged]
      rfl
  | false =>
      have hnewKey : text pool new.cols.filename = jar.filename := by
        rw [text, hname]
        rfl
      obtain ⟨files, hstore, hvalid, hstored, hindex, hlookup⟩ := hgrown.addFile A new
        (by rw [hname]; rfl) (by rw [hnewKey]; exact hkey) (hroom hdry)
      refine ⟨⟨⟨pool, files, db.classfiles⟩, ⟨(A _).malloc db.files.heap, true, false, ∅⟩,
        results⟩, fs ++ [{ new with id := fs.length }], { new with id := fs.length }, ?_,
        ⟨hvalid, hlookup, hname, fun _ => hindex⟩, hstored.trans hsame, rfl, rfl, rfl, rfl, rfl,
        rfl, rfl⟩
      simp only [start, getOrCreateFileRow, hkey, hadd, hdry, Option.bind_eq_bind,
        Option.bind_some, Bool.false_eq_true, if_false]
      rw [hstore]
      simp only [Option.bind_some]
      change (AList.lookup ((A _).malloc db.files.heap) files.heap).bind _ = _
      rw [hlookup, Option.bind_some, hunchanged]
      rfl

/-- A jar that is new or has changed is started. -/
theorem start_changed (hw : Lexicon words) (h : Valid words db fs cs) (hmem : jar.filename ∈ words)
    (hroom : fileRow db jar.filename = none → options.dryRun = false →
      fs.length + 1 < 2 ^ 64 - 1)
    (hchanged : ((fileRow db jar.filename).any fun row =>
      isFileUnchanged options jar false row.cols) = false) (results : Results) :
    ∃ s fs' row, start A options jar db results = some (s, true) ∧
      Ready words options.dryRun jar.filename s fs' cs row ∧ stored s.db = stored db ∧
      s.results = results ∧ s.task.isFileUnchanged = false ∧
      row.cols.classfileCount =
        ((fileRow db jar.filename).map fun row => row.cols.classfileCount).getD 0 ∧
      (row.cols.fileSize, row.cols.lastWriteTime) =
        ((fileRow db jar.filename).map fun row =>
          (row.cols.fileSize, row.cols.lastWriteTime)).getD (jar.size, jar.timestamp) := by
  cases hrow : fileRow db jar.filename with
  | none =>
      obtain ⟨s, fs', row, hstart, hready, hstored, -, -, hresults, hunchanged, hcount, hsize,
        htime⟩ := start_new A options hw h hrow hmem (hroom hrow) results
      exact ⟨s, fs', row, hstart, hready, hstored, hresults, hunchanged, hcount,
        Prod.ext hsize htime⟩
  | some row =>
      rw [hrow, Option.any_some] at hchanged
      obtain ⟨p, -, hstart, hready⟩ := start_known A options h hrow results
      rw [hchanged] at hstart hready
      exact ⟨_, fs, row, hstart, hready, rfl, rfl, rfl, rfl, rfl⟩

/-- `start` for any jar. -/
theorem start_spec (hw : Lexicon words) (h : Valid words db fs cs) (hmem : jar.filename ∈ words)
    (hroom : fs.length + 1 < 2 ^ 64 - 1) (results : Results) :
    ∃ s fs' row, start A options jar db results = some (s, !s.task.isFileUnchanged) ∧
      Ready words options.dryRun jar.filename s fs' cs row ∧ stored s.db = stored db ∧
      s.db.classfiles = db.classfiles ∧ s.task.digestMap = ∅ ∧ s.results = results := by
  cases hrow : fileRow db jar.filename with
  | some row =>
      obtain ⟨p, -, hstart, hready⟩ := start_known A options h hrow results
      exact ⟨_, fs, row, hstart, hready, rfl, rfl, rfl, rfl⟩
  | none =>
      obtain ⟨s, fs', row, hstart, hready, hstored, hclassfiles, hmap, hresults, hunchanged, -⟩ :=
        start_new A options hw h hrow hmem (fun _ => hroom) results
      exact ⟨s, fs', row, by rw [hstart, hunchanged]; rfl, hready, hstored, hclassfiles, hmap,
        hresults⟩

end Start

section Finish
variable (A : ∀ α : Type, Allocator α) (H : Bytes → Sha256) (options : Options)
  {words : List Bytes} {jar : JarFile} {s : TaskState} {fs : List (Row FileCols)}
  {cs : List (Row ClassFileCols)}
  {row : Row FileCols}

theorem jarDigest_isSome (digestMap : Finmap fun _ : Bytes => DigestCol) :
    ∃ d, jarDigest H digestMap = some d := by
  have hlength := bufferDigest_length H (mapBuffer digestMap)
  refine ⟨⟨(bufferDigest H (mapBuffer digestMap)).toArray, hlength⟩, ?_⟩
  rw [jarDigest, eval_digestBuffer, Option.bind_some, digestCol, dif_pos hlength]

/-- The row of the jar as `end` leaves it. -/
def finished (jar : JarFile) (row : Row FileCols) (digest : DigestCol) : Row FileCols :=
  { row with cols := { row.cols with
    digest := digest, lastWriteTime := jar.timestamp, fileSize := jar.size } }

theorem updateFile_spec (h : Ready words false jar.filename s fs cs row) (digest : DigestCol) :
    ∃ files fs', updateFile A jar s row digest = some files ∧
      Valid words { s.db with files := files } fs' cs ∧
      stored { s.db with files := files } = stored s.db ∧
      fileRow { s.db with files := files } jar.filename = some (finished jar row digest) := by
  have hmem := h.row_mem rfl
  have hlt := (List.getElem?_eq_some_iff.mp hmem).1
  obtain ⟨files, hupdate, heffect⟩ := update_stored_effect (A _) h.valid.files h.valid.filedFiles
    (h.added rfl) hmem (r := finished jar row digest) rfl rfl
  have hnew : (fs.set row.id (finished jar row digest))[row.id]? =
      some (finished jar row digest) := List.getElem?_set_self hlt
  have hkept : ∀ (i : ℕ) f, fs[i]? = some f →
      ∃ f', (fs.set row.id (finished jar row digest))[i]? = some f' ∧
        text s.db.pool f'.cols.filename = text s.db.pool f.cols.filename := by
    intro i f hf
    by_cases hi : row.id = i
    · subst hi
      obtain rfl := Option.some.inj (hmem.symm.trans hf)
      exact ⟨_, hnew, rfl⟩
    · exact ⟨f, (List.getElem?_set_ne hi).trans hf, rfl⟩
  have hnamed : ∀ f ∈ fs.set row.id (finished jar row digest),
      (s.db.pool.getCString f.cols.filename.toNat).isSome := by
    intro f hf
    rcases List.mem_or_eq_of_mem_set hf with hf | rfl
    · exact h.valid.named f hf
    · exact h.valid.named row (List.mem_of_getElem? hmem)
  obtain ⟨hvalid, hstored⟩ := h.valid.of_files h.valid.pooled (fun _ _ hs => hs) heffect.core
    (heffect.filed h.valid.filedFiles) hnamed hkept (by rw [List.length_set]; exact h.valid.small)
  refine ⟨files, _, hupdate, hvalid, hstored, ?_⟩
  obtain ⟨p, hp, hlookup⟩ := heffect.core.exists_of_row hnew
  have hfound : files.rows.lookup jar.filename = some p :=
    (hvalid.filedFiles _ p).mpr ⟨row.id, _, hp, hnew, h.text_filename⟩
  change (files.findByKey jar.filename).bind files.heap.lookup = _
  rw [Table.findByKey, hfound]
  exact hlookup

/-- `end` always returns. Unless the run is dry, it stores the digest. -/
theorem finish_spec (h : Ready words options.dryRun jar.filename s fs cs row)
    (hchanged : s.task.isFileUnchanged = false) :
    ∃ digest db' fs', jarDigest H s.task.digestMap = some digest ∧
      finish A H options jar s = some (db', reportJar options jar s.task.isNewJarFile
        (countJar s.results row.cols) row.cols digest) ∧
      Valid words db' fs' cs ∧
      stored db' = stored s.db ∧ db'.classfiles = s.db.classfiles ∧
      (options.dryRun = false →
        fileRow db' jar.filename = some (finished jar row digest)) ∧
      (options.dryRun = true → db' = s.db) := by
  obtain ⟨digest, hdigest⟩ := jarDigest_isSome H s.task.digestMap
  cases hdry : options.dryRun with
  | true =>
      refine ⟨digest, s.db, fs, hdigest, ?_, h.valid, rfl, rfl, nofun, fun _ => rfl⟩
      simp only [finish, h.lookup, hchanged, hdigest, hdry, Option.bind_eq_bind,
        Option.bind_some, Bool.false_eq_true, if_false, if_true]
  | false =>
      obtain ⟨files, fs', hupdate, hvalid, hstored, hrow⟩ := updateFile_spec A (hdry ▸ h) digest
      refine ⟨digest, { s.db with files := files }, fs', hdigest, ?_, hvalid, hstored, rfl,
        fun _ => hrow, nofun⟩
      simp only [finish, h.lookup, hchanged, hdigest, hdry, Option.bind_eq_bind,
        Option.bind_some, Bool.false_eq_true, if_false, hupdate]

end Finish

section Runs
variable (A : ∀ α : Type, Allocator α) {H : Bytes → Sha256} (garbage : ℕ → UInt8)
  (options : Options) {words : List Bytes} {jar : JarFile} {db : DigestDb}
  {fs : List (Row FileCols)} {cs : List (Row ClassFileCols)} {es : List (ReadEntry H)}

/-- A run from `start` over the entries to `end`. -/
theorem run_eq {entries : List JarEntry} {results : Results} {s s' : TaskState}
    {out : DigestDb × Results} (hstart : start A options jar db results = some (s, true))
    (hrun : entries.foldlM (processEntry A H garbage options) s = .returned s')
    (hfinish : finish A H options jar s' = some out) :
    run A H garbage options jar entries db results = .returned out := by
  simp only [run, runEntries, hstart, Outcome.ofOption_some, Outcome.returned_bind, if_true, hrun,
    hfinish]

/-- A run that is short-circuited. -/
theorem run_skipped {entries : List JarEntry} {results : Results} {s : TaskState}
    {out : DigestDb × Results} (hstart : start A options jar db results = some (s, false))
    (hfinish : finish A H options jar s = some out) :
    run A H garbage options jar entries db results = .returned out := by
  simp only [run, runEntries, hstart, Outcome.ofOption_some, Outcome.returned_bind,
    Bool.false_eq_true, if_false, hfinish]

/-- A run that is not short-circuited stores what the rules say. -/
theorem run_stored (hw : Lexicon words) (h : Valid words db fs cs) (hmem : jar.filename ∈ words)
    (hroom : fs.length + 1 < 2 ^ 64 - 1) (hnames : ∀ e ∈ es, e.name ∈ words) (results : Results)
    (hstarted : (start A options jar db results).map Prod.snd = some true) :
    ∃ s out, runEntries A H garbage options jar (es.map fun e => e.entry) db results =
        .returned s ∧
      finish A H options jar s = some out ∧
      stored out.1 = (rules H options.dryRun jar.filename).after (stored db) es := by
  obtain ⟨s₀, fs₀, row₀, hstart, hready₀, hstored₀, -, -, -⟩ :=
    start_spec A options hw h hmem hroom results
  have hchanged : s₀.task.isFileUnchanged = false := by
    rw [hstart] at hstarted
    simpa using hstarted
  obtain ⟨s, fs₁, cs₁, row₁, hrun, hready, hstored, -, hstep, -⟩ :=
    processEntries_spec A garbage options hw es hnames hready₀
  obtain ⟨digest, db', fs', -, hfinish, -, hstored', -⟩ :=
    finish_spec A H options hready (by rw [hstep.task, hchanged])
  refine ⟨s, _, ?_, hfinish, ?_⟩
  · simp [runEntries, hstart, hchanged, hrun]
  · rw [hstored', hstored, hstored₀]

end Runs

/-- A new database. -/
theorem create_valid (words : List Bytes) (hnil : [] ∈ words) :
    ∃ db, DigestDb.create = some db ∧ Valid words db [] [] ∧ stored db = fun _ => none := by
  obtain ⟨pool, hpool, hpooled⟩ := construct_pooled hnil
  refine ⟨⟨pool, Table.construct (Files.layout pool),
    Table.construct ⟨ClassFiles.format, fun _ => []⟩⟩, by simp [DigestDb.create, hpool], ?_, rfl⟩
  exact
    { pooled := hpooled
      files := core_construct _
      filedFiles := filed_construct _
      named := nofun
      classes := (core_construct ⟨ClassFiles.format, fun _ => []⟩).rekey _
      filedClasses := (filed_construct ⟨ClassFiles.format, fun _ => []⟩).rekey (by simp)
      owned := nofun
      small := by decide }

theorem fileRow_of_empty {words : List Bytes} {db : DigestDb} (h : Valid words db [] [])
    (filename : Bytes) : fileRow db filename = none := by
  cases hrow : fileRow db filename with
  | none => rfl
  | some row =>
      obtain ⟨p, -, -, hindex, -⟩ := findByKey_of_fileRow h hrow
      have hlt := (List.getElem?_eq_some_iff.mp hindex).1
      have hlength := h.files.length_eq
      rw [hlength] at hlt
      cases hlt

/-- A run over a database without files is not short-circuited. -/
theorem started_of_empty (A : ∀ α : Type, Allocator α) (options : Options) {words : List Bytes}
    (hw : Lexicon words) {db : DigestDb} (h : Valid words db [] []) {jar : JarFile}
    (hmem : jar.filename ∈ words) (results : Results) :
    (start A options jar db results).map Prod.snd = some true := by
  obtain ⟨s, fs', row, hstart, -⟩ := start_new A options hw h
    (fileRow_of_empty h jar.filename) hmem (fun _ => by decide) results
  rw [hstart]
  rfl

section Samples

/-- A class file for the class A. -/
def classA : Bytes :=
  headerBytes false 0 52 ++ (u2Bytes false 3 ++ ([1, 0, 1, 65, 7, 0, 1] ++
    ([0, 0, 0, 2] ++ List.replicate 10 0)))

def sampleHash : Bytes → Sha256 := fun _ => List.Vector.replicate 32 7

def sampleDigest : DigestCol :=
  ⟨((List.replicate 32 7 ++ List.replicate 8 0 : Bytes)).toArray, rfl⟩

theorem reads_of_eq {e : JarEntry} {r : Reading}
    (h : reading sampleHash (fun _ => 0) e = .returned r) (garbage : ℕ → UInt8) :
    reading sampleHash garbage e = .returned r := by
  rw [reading_garbage sampleHash garbage fun _ => 0, h]

/-- The class A under its own path. -/
def entryA : ReadEntry sampleHash where
  entry := ⟨ascii "A.class", 0, 0, classA⟩
  reading := .accepted [65] sampleDigest
  reads := reads_of_eq rfl

/-- The class A in two other directories, with different checksums. -/
def entryX : ReadEntry sampleHash where
  entry := ⟨ascii "x/A.class", 1, 0, classA⟩
  reading := .accepted [65] sampleDigest
  reads := reads_of_eq rfl

def entryY : ReadEntry sampleHash where
  entry := ⟨ascii "y/A.class", 2, 0, classA⟩
  reading := .accepted [65] sampleDigest
  reads := reads_of_eq rfl

/-- The class A for a later release. -/
def entryV : ReadEntry sampleHash where
  entry := ⟨ascii "META-INF/versions/9/A.class", 3, 0, classA⟩
  reading := .accepted (ascii "META-INF/versions/9/A") sampleDigest
  reads := reads_of_eq rfl

def sampleJar : JarFile := ⟨ascii "a.jar", 100, 1⟩

def sampleWords : List Bytes :=
  [[], ascii "a.jar", [65], ascii "META-INF/versions/9/A"]

theorem lexicon_sampleWords : Lexicon sampleWords := ⟨by decide, by decide⟩

theorem jarClasses_sample (e : ReadEntry sampleHash) (he : e.entry.isClassfile)
    (hname : e.name ∈ sampleWords) : JarClasses sampleWords [e] where
  distinct := List.nodup_singleton _
  classfiles _ ha := List.mem_singleton.mp ha ▸ he
  names _ ha := List.mem_singleton.mp ha ▸ hname

theorem jarClasses_release : JarClasses sampleWords [entryA, entryV] where
  distinct := by decide
  classfiles := by
    intro e he
    simp only [List.mem_cons, List.not_mem_nil, or_false] at he
    rcases he with rfl | rfl <;> decide
  names := by
    intro e he
    simp only [List.mem_cons, List.not_mem_nil, or_false] at he
    rcases he with rfl | rfl <;> decide

end Samples

end Tarracsh.DigestOutcomes
