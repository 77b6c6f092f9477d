import Tarracsh.TaskFrames

/-!
# The digest database as two maps

What a digest run is about are two maps: a record for every file name and a
record for every strong class name. `digestJar` and `digestClassFile` say
what a run does to them and to the results, without pool, tables and pointers.
The tasks of the program do the same, input after input, in dry runs too.
-/
namespace Tarracsh.DigestMaps
open ByteStrings QueryTrees StringPool ParsedClass ClassFileReader ClassFileParser
open ReaderRefinement TableModel TableInvariant TableFrames DomainTables CallGraphTables
open CallGraphInvariant ClassFileDigest SafeConsumption JarEntries Reporting DigestTasks
open DigestRuns DigestSimulation DigestOutcomes DigestAnalysis DryRuns TaskFrames KeyedReactions
open ClassOutcomes (InputTexts processAll)
open DigestView (bufferDigest bufferDigest_length eval_digestBuffer)

/-- A file row without the offset of its name. -/
def unnamed (cols : FileCols) : FileCols := { cols with filename := 0 }

/-- What a digest database says. -/
@[ext] structure Maps where
  files : Bytes → Option FileCols
  classes : Bytes → Option ClassRecord

def maps (db : DigestDb) : Maps where
  files filename := (fileRow db filename).map fun row => unnamed row.cols
  classes := stored db

section Abstract
variable (H : Bytes → Sha256) (garbage : ℕ → UInt8) (options : Options)

/-- The digest of a jar as a total function. -/
def digestOf (digestMap : Finmap fun _ : Bytes => DigestCol) : DigestCol :=
  ⟨(bufferDigest H (mapBuffer digestMap)).toArray, bufferDigest_length H (mapBuffer digestMap)⟩

/-- The record of a jar before its first class. -/
def newJar (jar : JarFile) : FileCols :=
  { type := Jar, lastWriteTime := jar.timestamp, fileSize := jar.size, classfileCount := 0 }

/-- What is reported of a jar that is skipped. -/
def skipJar (jar : JarFile) (record : FileCols) (results : Results) : Results :=
  ((countJar results record).onJarClasses fun stats =>
    { stats with taskResult := { stats.taskResult with
      count := stats.taskResult.count + record.classfileCount
      unchangedCount := stats.taskResult.unchangedCount + record.classfileCount } }
  ).asUnchangedJar options.isDiff jar.filename

/-- What the entries of a jar leave behind. -/
def gathered (jar : JarFile) (es : List (ReadEntry H)) (m : Maps) (results : Results) : Notes :=
  ((rules H options.dryRun jar.filename).verdicts m.classes es).foldl (note options jar.filename)
    ⟨((m.files jar.filename).getD (newJar jar)).classfileCount, ∅, results⟩

/-- The record of the jar with its classes counted. -/
def countedJar (jar : JarFile) (es : List (ReadEntry H)) (m : Maps) (results : Results) : FileCols :=
  { (m.files jar.filename).getD (newJar jar) with
    classfileCount := (gathered H options jar es m results).classfileCount }

/-- What is recorded of the jar in the end. A dry run counts in the record of a
known jar. -/
def recorded (jar : JarFile) (es : List (ReadEntry H)) (m : Maps) (results : Results) :
    Option FileCols :=
  let record := countedJar H options jar es m results
  if options.dryRun then (m.files jar.filename).map fun _ => record
  else some { record with
    digest := digestOf H (gathered H options jar es m results).digestMap
    lastWriteTime := jar.timestamp
    fileSize := jar.size }

/-- A jar that is not skipped. -/
def digestEntries (jar : JarFile) (es : List (ReadEntry H)) (m : Maps) (results : Results) :
    Maps × Results :=
  let notes := gathered H options jar es m results
  let record := countedJar H options jar es m results
  (⟨Function.update m.files jar.filename (recorded H options jar es m results),
      (rules H options.dryRun jar.filename).after m.classes es⟩,
    reportJar options jar (m.files jar.filename).isNone (countJar notes.results record) record
      (digestOf H notes.digestMap))

/-- A jar. -/
def digestJar (jar : JarFile) (es : List (ReadEntry H)) (m : Maps) (results : Results) :
    Maps × Results :=
  match (m.files jar.filename).filter (isFileUnchanged options jar false) with
  | some record => (m, skipJar options jar record results)
  | none => digestEntries H options jar es m results

/-- What the parser makes of a class file. -/
def fileReading (info : ClassFileInfo) : Reading :=
  match parsed .file info.content garbage with
  | none => .rejected
  | some (c, _) =>
      match getMainClassname c, publicDigest H c with
      | some classname, some digest => .accepted classname digest
      | _, _ => .rejected

/-- The record that a class file leaves under its name. -/
def fileRecord (info : ClassFileInfo) (digest : DigestCol) : FileCols :=
  { type := Classfile, lastWriteTime := info.timestamp, fileSize := info.size, digest := digest }

/-- The maps with a class file. A dry run stores nothing. -/
def storeClassFile (info : ClassFileInfo) (classname : Bytes) (digest : DigestCol) (m : Maps) :
    Maps :=
  if options.dryRun then m
  else ⟨Function.update m.files info.filename (some (fileRecord info digest)),
    Function.update m.classes (DomainTables.getStrongClassname info.filename classname)
      (some (storedRecord info classname digest))⟩

/-- A standalone class file. -/
def digestClassFile (info : ClassFileInfo) (m : Maps) (results : Results) : Maps × Results :=
  let found := m.files info.filename
  if options.useFileTimestamp && found.any fun record =>
      record.fileSize == info.size && record.lastWriteTime == info.timestamp then
    (m, (counting results).asUnchangedClassFile options.isDiff info.filename)
  else
    match fileReading H garbage info with
    | .rejected => (m, (counting results).asFailedClassFile options.isDiff info.filename)
    | .accepted classname digest =>
        (storeClassFile options info classname digest m,
          reportFile (counting results) options.isDiff
            (DomainTables.getStrongClassname info.filename classname) digest found)

/-- One input. -/
def digestInput (s : Maps × Results) : Input H → Maps × Results
  | .jar f es => digestJar H options f es s.1 s.2
  | .classFile file => digestClassFile H garbage options file.info s.1 s.2

/-- A run over the inputs. -/
def digestAll (s : Maps × Results) (xs : List (Input H)) : Maps × Results :=
  xs.foldl (digestInput H garbage options) s

/-- The class that a class file stores. -/
def storedClass (info : ClassFileInfo) (m : Maps) : Option Bytes :=
  if options.dryRun || (options.useFileTimestamp && (m.files info.filename).any fun record =>
      record.fileSize == info.size && record.lastWriteTime == info.timestamp) then none
  else
    match fileReading H garbage info with
    | .rejected => none
    | .accepted classname _ => some classname

/-- No record of a class file is overwritten. The records of jars may be. -/
def KeepsFiles (m : Maps) : Input H → Prop
  | .jar _ _ => True
  | .classFile file => (storedClass H garbage options file.info m).isSome →
      m.files file.info.filename = none

/-- No record of a class is overwritten. -/
def KeepsClasses (m : Maps) : Input H → Prop
  | .jar jar es => (m.files jar.filename).filter (isFileUnchanged options jar false) = none →
      (rules H options.dryRun jar.filename).Extends m.classes es
  | .classFile file => ∀ classname ∈ storedClass H garbage options file.info m,
      m.classes (DomainTables.getStrongClassname file.info.filename classname) = none

/-- Every input meets the condition on the maps that it finds. -/
def Throughout (P : Maps → Input H → Prop) : Maps × Results → List (Input H) → Prop
  | _, [] => True
  | s, x :: xs => P s.1 x ∧ Throughout P (digestInput H garbage options s x) xs

variable {H garbage options} in
theorem Throughout.imp {P Q : Maps → Input H → Prop} (h : ∀ m x, P m x → Q m x)
    {s : Maps × Results} {xs : List (Input H)} (hs : Throughout H garbage options P s xs) :
    Throughout H garbage options Q s xs := by
  induction xs generalizing s with
  | nil => trivial
  | cons x xs ih => exact ⟨h _ _ hs.1, ih hs.2⟩

end Abstract

/-- What has changed in the pool and the files is marked. -/
structure DbKept (db db' : DigestDb) : Prop where
  pool : PoolKept db.pool db'.pool
  files : Marks none db.files db'.files

theorem DbKept.refl (db : DigestDb) : DbKept db db := ⟨PoolKept.refl _, Marks.refl none _⟩

theorem DbKept.trans {db db' db'' : DigestDb} (h : DbKept db db') (h' : DbKept db' db'') :
    DbKept db db'' :=
  ⟨h.pool.trans h'.pool, h.files.trans h'.files⟩

/-- No file has been added, and no row in memory is lost. -/
structure DryKept (db db' : DigestDb) : Prop where
  pool : Grows db.pool db'.pool
  index : db'.files.autoIncrementIndex = db.files.autoIncrementIndex
  heap : ∀ p row, db.files.heap.lookup p = some row → db'.files.heap.lookup p = some row

theorem DryKept.refl (db : DigestDb) : DryKept db db := ⟨fun _ _ h => h, rfl, fun _ _ h => h⟩

section Start
variable (A : ∀ α : Type, Allocator α) (options : Options) {jar : JarFile} {db : DigestDb}
  {words : List Bytes} {fs : List (Row FileCols)} {cs : List (Row ClassFileCols)}

/-- A task that has been started, and what it will have done to the files. -/
structure Started (words : List Bytes) (jar : JarFile) (db : DigestDb) (s : TaskState)
    (fs : List (Row FileCols)) (cs : List (Row ClassFileCols)) (row : Row FileCols) : Prop where
  ready : Ready words options.dryRun jar.filename s fs cs row
  stored : DigestRuns.stored s.db = DigestRuns.stored db
  digestMap : s.task.digestMap = ∅
  isFileUnchanged : s.task.isFileUnchanged = false
  isNewJarFile : s.task.isNewJarFile = ((maps db).files jar.filename).isNone
  record : unnamed row.cols = ((maps db).files jar.filename).getD (newJar jar)
  files : ∀ s' row', Kept s s' → s'.db.files.heap.lookup s'.task.jarFileRow = some row' →
    fileRow s'.db = if options.dryRun = true ∧ fileRow db jar.filename = none then fileRow db
      else Function.update (fileRow db) jar.filename (some row')
  kept : options.dryRun = false → DbKept db s.db
  classfiles : s.db.classfiles = db.classfiles
  found : ∀ name, s.db.files.findByKey name = some s.task.jarFileRow ↔
    name = jar.filename ∧ ¬(options.dryRun = true ∧ fileRow db jar.filename = none)
  dry : options.dryRun = true → DryKept db s.db

/-- The row of the jar is the only one that differs. -/
theorem files_of_added {s s' : TaskState} {row row' : Row FileCols}
    (h : Ready words options.dryRun jar.filename s fs cs row)
    (hadded : s.db.files.autoIncrementIndex[row.id]? = some s.task.jarFileRow) (hkept : Kept s s')
    (hlookup : s'.db.files.heap.lookup s'.task.jarFileRow = some row') :
    fileRow s'.db = Function.update (fileRow s.db) jar.filename (some row') := by
  funext name
  rw [hkept.fileRow_eq hlookup, Function.update_apply, if_congr (findByKey_jarRow h hadded name)
    rfl rfl]

/-- A jar with a row. -/
theorem started_known (h : Valid words db fs cs) {row : Row FileCols}
    (hrow : fileRow db jar.filename = some row)
    (hchanged : isFileUnchanged options jar false row.cols = false) (results : Results) :
    ∃ s, start A options jar db results = some (s, true) ∧ s.results = results ∧
      Started options words jar db s fs cs row := by
  obtain ⟨p, hindex, hstart, hready⟩ := start_known A options h hrow results
  rw [hchanged] at hstart hready
  have hmaps : (maps db).files jar.filename = some (unnamed row.cols) := by
    change (fileRow db jar.filename).map _ = _
    rw [hrow]
    rfl
  refine ⟨_, hstart, rfl, hready, rfl, rfl, rfl, ?_, ?_, fun s' row' hkept hlookup => ?_,
    fun _ => DbKept.refl db, rfl, fun name => ?_, fun _ => DryKept.refl db⟩
  · rw [hmaps]
    rfl
  · rw [hmaps]
    rfl
  · rw [if_neg (by simp [hrow])]
    exact files_of_added options hready hindex hkept hlookup
  · exact (findByKey_jarRow hready hindex name).trans (by simp [hrow])

/-- A row that is allocated stands where no other row stands. -/
theorem dryKept_allocate {db' : DigestDb} {pool : Pool} (row : Row FileCols)
    (hgrows : Grows db.pool pool) (hpool : db'.pool = pool)
    (hfiles : db'.files = (db.files.allocate (A _) row).1) : DryKept db db' where
  pool := by rw [hpool]; exact hgrows
  index := by rw [hfiles]; rfl
  heap p r hp := by
    have hne : p ≠ (A _).malloc db.files.heap := by
      rintro rfl
      have hfresh := (A _).malloc_fresh db.files.heap
      rw [← AList.lookup_isSome, hp] at hfresh
      exact hfresh rfl
    rw [hfiles]
    exact (AList.lookup_insert_ne hne).trans hp

/-- A row that is allocated and not added changes nothing under the names. -/
theorem fileRow_allocate (h : Valid words db fs cs) (row : Row FileCols) {db' : DigestDb}
    (hfiles : db'.files = (db.files.allocate (A _) row).1) (name : Bytes) :
    fileRow db' name = fileRow db name ∧
      db'.files.findByKey name ≠ some ((A _).malloc db.files.heap) := by
  have hfresh : ∀ q, db.files.findByKey name = some q → q ≠ (A _).malloc db.files.heap :=
    fun q hq => malloc_ne (A _) h.files (h.files.rows name q hq)
  have hkeys : db'.files.findByKey name = db.files.findByKey name := by
    rw [hfiles]
    rfl
  rw [hkeys]
  refine ⟨?_, fun hq => hfresh _ hq rfl⟩
  rw [fileRow, fileRow, hkeys, hfiles]
  cases hq : db.files.findByKey name with
  | none => rfl
  | some q => exact AList.lookup_insert_ne (hfresh q hq)

/-- A jar without a row. -/
theorem started_new (hw : Lexicon words) (h : Valid words db fs cs)
    (hrow : fileRow db jar.filename = none) (hmem : jar.filename ∈ words)
    (hroom : fs.length + 1 < 2 ^ 64 - 1) (results : Results) :
    ∃ s fs' row, start A options jar db results = some (s, true) ∧ s.results = results ∧
      Started options words jar db s fs' cs row := by
  obtain ⟨s, fs', row, hstart, hready, hstored, -, hdigestMap, hresults, hunchanged, -⟩ :=
    start_new A options hw h hrow hmem (fun _ => hroom) results
  obtain ⟨offset, hadd, hclassfiles, hisNew, hpointer, hdry, hstore⟩ :=
    start_unknown (findByKey_of_fileRow_none h hrow) hstart
  have hmaps : (maps db).files jar.filename = none := by
    change (fileRow db jar.filename).map _ = _
    rw [hrow]
    rfl
  obtain ⟨pool, offset', hadd', hpooled, hgrows, hread⟩ := h.pooled.internalAdd hw hmem
  obtain ⟨rfl, rfl⟩ := Prod.mk.inj (Option.some.inj (hadd'.symm.trans hadd))
  suffices hrest : unnamed row.cols = newJar jar ∧
      (∀ s' row', Kept s s' → s'.db.files.heap.lookup s'.task.jarFileRow = some row' →
        fileRow s'.db = if options.dryRun = true ∧ fileRow db jar.filename = none then fileRow db
          else Function.update (fileRow db) jar.filename (some row')) ∧
      (options.dryRun = false → DbKept db s.db) ∧
      (∀ name, s.db.files.findByKey name = some s.task.jarFileRow ↔
        name = jar.filename ∧ ¬(options.dryRun = true ∧ fileRow db jar.filename = none)) ∧
      (options.dryRun = true → DryKept db s.db) from
    ⟨s, fs', row, hstart, hresults, hready, hstored, hdigestMap, hunchanged,
      by rw [hisNew, hmaps]; rfl, by rw [hmaps]; exact hrest.1, hrest.2.1, hrest.2.2.1,
      hclassfiles, hrest.2.2.2.1, hrest.2.2.2.2⟩
  cases hcase : options.dryRun with
  | true =>
      have hfiles := hdry hcase
      have hnew : s.db.files.heap.lookup s.task.jarFileRow =
          some (newJarRow jar offset') := by
        rw [hpointer, hfiles]
        exact AList.lookup_insert _
      obtain rfl := Option.some.inj (hready.lookup.symm.trans hnew)
      refine ⟨rfl, fun s' row' hkept hlookup => funext fun name => ?_, by simp, fun name => ?_,
        fun _ => dryKept_allocate A (newJarRow jar offset') hgrows rfl hfiles⟩
      · obtain ⟨hsame, hother⟩ := fileRow_allocate A h _ hfiles name
        rw [hkept.fileRow_eq hlookup, hpointer, if_neg hother, if_pos ⟨rfl, hrow⟩, hsame]
      · rw [hpointer]
        exact iff_of_false (fileRow_allocate A h _ hfiles name).2 (by simp [hrow])
  | false =>
      obtain ⟨id, hstore⟩ := hstore hcase
      obtain ⟨hgrown, -⟩ := h.grows hpooled hgrows
      have hkey : (Files.layout s.db.pool).getKey (newJarRow jar offset').cols = jar.filename := by
        change text s.db.pool (UInt64.ofNat offset') = jar.filename
        rw [text, hpooled.toNat_ofNat hw hread, hread]
        rfl
      have hstores := stores_add (A _) hgrown.files hgrown.filedFiles hstore
      have hfound : fileRow s.db = Function.update (fileRow db) jar.filename
          (some { newJarRow jar offset' with id := id }) := by
        rw [← hkey]
        exact hstores.found
      have hadded := hready.added hcase
      have hrow' : fileRow s.db jar.filename = some row := by
        rw [fileRow, (findByKey_jarRow hready hadded jar.filename).mpr rfl, Option.bind_some,
          hready.lookup]
      rw [hfound, Function.update_self] at hrow'
      obtain rfl := Option.some.inj hrow'
      refine ⟨rfl, fun s' row' hkept hlookup => ?_, fun _ => ?_, fun name => ?_, by simp⟩
      · rw [if_neg (by simp), files_of_added options hready hadded hkept hlookup, hfound,
          Function.update_idem]
      · exact ⟨internalAdd_kept hadd, hstores.marks⟩
      · exact (findByKey_jarRow hready hadded name).trans (by simp)

/-- `start` for a jar that is not skipped. -/
theorem started_of_changed (hw : Lexicon words) (h : Valid words db fs cs)
    (hmem : jar.filename ∈ words) (hroom : fs.length + 1 < 2 ^ 64 - 1)
    (hchanged : ((maps db).files jar.filename).filter (isFileUnchanged options jar false) = none)
    (results : Results) :
    ∃ s fs' row, start A options jar db results = some (s, true) ∧ s.results = results ∧
      Started options words jar db s fs' cs row := by
  cases hrow : fileRow db jar.filename with
  | none => exact started_new A options hw h hrow hmem hroom results
  | some row =>
      have hmaps : (maps db).files jar.filename = some (unnamed row.cols) := by
        change (fileRow db jar.filename).map _ = _
        rw [hrow]
        rfl
      rw [hmaps, Option.filter_eq_none_iff] at hchanged
      have hunchanged : isFileUnchanged options jar false row.cols = false :=
        Bool.eq_false_iff.mpr (hchanged (unnamed row.cols) rfl)
      obtain ⟨s, hstart, hresults, hstarted⟩ := started_known A options h hrow hunchanged results
      exact ⟨s, fs, row, hstart, hresults, hstarted⟩

end Start

/-- Records without names, under one more name. -/
theorem map_update (f : Bytes → Option (Row FileCols)) (filename : Bytes)
    (row : Option (Row FileCols)) :
    (fun name => (Function.update f filename row name).map fun r => unnamed r.cols) =
      Function.update (fun name => (f name).map fun r => unnamed r.cols) filename
        (row.map fun r => unnamed r.cols) := by
  funext name
  simp only [Function.update_apply]
  split_ifs <;> rfl

section Finish
variable {H : Bytes → Sha256} {options : Options} {words : List Bytes} {jar : JarFile}
  {s : TaskState} {fs : List (Row FileCols)} {cs : List (Row ClassFileCols)}
  {row : Row FileCols} {digest : DigestCol}

theorem jarDigest_eq (digestMap : Finmap fun _ : Bytes => DigestCol) :
    jarDigest H digestMap = some (digestOf H digestMap) := by
  rw [jarDigest, eval_digestBuffer, Option.bind_some, digestCol,
    dif_pos (bufferDigest_length H (mapBuffer digestMap))]
  rfl

/-- `end` stores the record of the jar and marks it. -/
theorem updateFile_stores (h : Ready words false jar.filename s fs cs row) {db : DigestDb}
    {files : Table FileCols} (hupdate : updateFile A jar s row digest = some files)
    (hmarks : Marks (some s.task.jarFileRow) db.files s.db.files) :
    fileRow { s.db with files := files } = Function.update (fileRow s.db) jar.filename
        (some (finished jar row digest)) ∧
      Marks none db.files files := by
  have hrow := h.row_mem rfl
  have hkey : (Files.layout s.db.pool).getKey (finished jar row digest).cols = jar.filename :=
    h.text_filename
  have hstores := stores_update (A _) h.valid.files h.valid.filedFiles (h.added rfl) hrow
    (r := finished jar row digest) rfl rfl hupdate
  obtain ⟨t', hupdate', heffect⟩ := update_stored_effect (A _) h.valid.files h.valid.filedFiles
    (h.added rfl) hrow (r := finished jar row digest) rfl rfl
  obtain rfl := Option.some.inj (hupdate'.symm.trans hupdate)
  refine ⟨?_, (hmarks.trans hstores.marks.weaken).close fun i hi => ?_⟩
  · rw [← hkey]
    exact hstores.found
  · obtain ⟨more, hmore⟩ := heffect.index
    have hlt := (List.getElem?_eq_some_iff.mp (h.added rfl)).1
    have hadded : t'.autoIncrementIndex[row.id]? = some s.task.jarFileRow := by
      rw [← hmore, List.getElem?_append_left hlt, h.added rfl]
    obtain rfl := heffect.core.index_injective hadded hi
    exact ⟨(heffect.marked row.id).mpr (.inl rfl), heffect.isDirty⟩

/-- `end` with a digest to store. -/
theorem finish_update (h : Ready words false jar.filename s fs cs row)
    (hdry : options.dryRun = false) (hchanged : s.task.isFileUnchanged = false)
    (hdigest : jarDigest H s.task.digestMap = some digest) {db' : DigestDb} {results : Results}
    (hfinish : finish A H options jar s = some (db', results)) :
    ∃ files, updateFile A jar s row digest = some files ∧ db' = { s.db with files := files } := by
  simp only [finish, h.lookup, hchanged, hdigest, hdry, Option.bind_eq_bind, Option.bind_some,
    Bool.false_eq_true, if_false] at hfinish
  obtain ⟨files, hupdate, hout⟩ := Option.bind_eq_some_iff.mp hfinish
  obtain ⟨rfl, -⟩ := Prod.mk.inj (Option.some.inj hout)
  exact ⟨files, hupdate, rfl⟩

end Finish

section Runs
variable (A : ∀ α : Type, Allocator α) {H : Bytes → Sha256} (garbage : ℕ → UInt8)
  (options : Options) {words : List Bytes} {db : DigestDb} {fs : List (Row FileCols)}
  {cs : List (Row ClassFileCols)}

/-- A jar that is skipped. -/
theorem skipped_refines {jar : JarFile} (h : Valid words db fs cs) {record : FileCols}
    (hrecord : ((maps db).files jar.filename).filter (isFileUnchanged options jar false) =
      some record) (entries : List JarEntry) (r : Results) :
    run A H garbage options jar entries db r =
      .returned (db, skipJar options jar record r) := by
  obtain ⟨hfound, hunchanged⟩ := Option.filter_eq_some_iff.mp hrecord
  obtain ⟨row, hrow, rfl⟩ := Option.map_eq_some_iff.mp hfound
  obtain ⟨p, -, hstart, hready⟩ := start_known A options h hrow r
  have hunchanged' : isFileUnchanged options jar false row.cols = true := hunchanged
  rw [hunchanged'] at hstart hready
  refine run_skipped A garbage options hstart ?_
  simp only [finish, hready.lookup, Option.bind_eq_bind, Option.bind_some, if_true]
  rfl

/-- What a task has gathered when `end` is called. -/
theorem notes_eq {jar : JarFile} {es : List (ReadEntry H)} {s₀ s : TaskState}
    {row₀ row : Row FileCols} (hstarted : Started options words jar db s₀ fs cs row₀)
    (hnotes : notesOf s row = ((rules H options.dryRun jar.filename).verdicts (stored s₀.db) es
      ).foldl (note options jar.filename) (notesOf s₀ row₀)) (hstep : Step s₀ s row₀ row) :
    notesOf s row = gathered H options jar es (maps db) s₀.results ∧
      unnamed row.cols = countedJar H options jar es (maps db) s₀.results := by
  have hcount : row₀.cols.classfileCount =
      (((maps db).files jar.filename).getD (newJar jar)).classfileCount := by
    rw [← hstarted.record]
    rfl
  have hgathered : notesOf s row = gathered H options jar es (maps db) s₀.results := by
    rw [hnotes, hstarted.stored, notesOf, hstarted.digestMap, hcount]
    rfl
  refine ⟨hgathered, ?_⟩
  rw [countedJar, ← hgathered, ← hstarted.record, hstep.row]
  rfl

/-- A dry run leaves the files but counts in the record of a known jar. -/
theorem files_dry {jar : JarFile} {es : List (ReadEntry H)} {r : Results} {db' : DigestDb}
    {row : Row FileCols} (hdry : options.dryRun = true)
    (hfiles : fileRow db' = if options.dryRun = true ∧ fileRow db jar.filename = none
      then fileRow db else Function.update (fileRow db) jar.filename (some row))
    (hcounted : unnamed row.cols = countedJar H options jar es (maps db) r) :
    (maps db').files = Function.update (maps db).files jar.filename
      (recorded H options jar es (maps db) r) := by
  have hmaps : (maps db).files jar.filename =
      (fileRow db jar.filename).map fun row => unnamed row.cols := rfl
  rw [recorded, if_pos hdry, hmaps]
  change (fun name => (fileRow db' name).map fun row => unnamed row.cols) = _
  rw [hfiles]
  cases hrow : fileRow db jar.filename with
  | none =>
      rw [if_pos ⟨hdry, rfl⟩]
      refine (Function.update_eq_self_iff.mpr ?_).symm
      rw [hrow]
      rfl
  | some old =>
      rw [if_neg (by simp), map_update, Option.map_some, hcounted]
      rfl

/-- `end` replaces the record of the jar. -/
theorem files_stored {jar : JarFile} {es : List (ReadEntry H)} {r : Results} {s : TaskState}
    {db' : DigestDb} {row : Row FileCols} {digest : DigestCol} (hdry : options.dryRun = false)
    (hfiles : fileRow s.db = if options.dryRun = true ∧ fileRow db jar.filename = none
      then fileRow db else Function.update (fileRow db) jar.filename (some row))
    (hfound : fileRow db' = Function.update (fileRow s.db) jar.filename
      (some (finished jar row digest)))
    (hcounted : unnamed row.cols = countedJar H options jar es (maps db) r)
    (hdigest : digest = digestOf H (gathered H options jar es (maps db) r).digestMap) :
    (maps db').files = Function.update (maps db).files jar.filename
      (recorded H options jar es (maps db) r) := by
  rw [if_neg (by simp [hdry])] at hfiles
  change (fun name => (fileRow db' name).map fun row => unnamed row.cols) = _
  rw [hfound, hfiles, Function.update_idem, map_update, recorded,
    if_neg (by simp [hdry]), ← hcounted, ← hdigest]
  rfl

/-- A run over a jar does to the maps what is meant. -/
theorem jar_refines {jar : JarFile} (hw : Lexicon words) (h : Valid words db fs cs)
    (hmem : jar.filename ∈ words) (hroom : fs.length + 1 < 2 ^ 64 - 1) (es : List (ReadEntry H))
    (hnames : ∀ e ∈ es, e.name ∈ words) (r : Results) :
    ∃ db' r' fs' cs', run A H garbage options jar (es.map fun e => e.entry) db r =
        .returned (db', r') ∧ Valid words db' fs' cs' ∧
      (maps db', r') = digestJar H options jar es (maps db) r ∧
      (options.dryRun = false → DbKept db db') ∧
      (KeepsClasses H garbage options (maps db) (.jar jar es) →
        AddsRows es.length db.classfiles db'.classfiles) := by
  rw [digestJar]
  cases hfilter : ((maps db).files jar.filename).filter (isFileUnchanged options jar false) with
  | some record =>
      exact ⟨db, _, fs, cs, skipped_refines A garbage options h hfilter _ r, h, rfl,
        fun _ => DbKept.refl db, fun _ => (AddsRows.refl _).mono (Nat.zero_le _)⟩
  | none =>
      obtain ⟨s₀, fs₀, row₀, hstart, hresults, hstarted⟩ :=
        started_of_changed A options hw h hmem hroom hfilter r
      obtain ⟨s, fs₁, cs₁, row₁, hrun, hready, hstored, hnotes, hstep, -, hadds⟩ :=
        processEntries_spec A garbage options hw es hnames hstarted.ready
      have hkept := processEntries_kept hrun
      obtain ⟨digest, db', fs', hdigest, hfinish, hvalid, hstored', hclasses, -, hdry⟩ :=
        finish_spec A H options hready (by rw [hstep.task, hstarted.isFileUnchanged])
      obtain ⟨hgathered, hcounted⟩ := notes_eq options hstarted hnotes hstep
      rw [hresults] at hgathered hcounted
      have hfiles := hstarted.files s row₁ hkept hready.lookup
      have hdigestOf : digest = digestOf H (gathered H options jar es (maps db) r).digestMap := by
        rw [jarDigest_eq] at hdigest
        rw [← hgathered]
        exact (Option.some.inj hdigest).symm
      have hreport : reportJar options jar s.task.isNewJarFile (countJar s.results row₁.cols)
          row₁.cols digest = (digestEntries H options jar es (maps db) r).2 := by
        have hresults₁ : s.results = (gathered H options jar es (maps db) r).results := by
          rw [← hgathered]
          rfl
        rw [hkept.isNewJarFile, hstarted.isNewJarFile, hresults₁, hdigestOf]
        change reportJar options jar _ (countJar _ (unnamed row₁.cols)) (unnamed row₁.cols) _ = _
        rw [hcounted]
        rfl
      have hclassesOf : stored db' = (digestEntries H options jar es (maps db) r).1.classes := by
        rw [hstored', hstored, hstarted.stored]
        rfl
      suffices hmaps : (maps db').files = Function.update (maps db).files jar.filename
          (recorded H options jar es (maps db) r) ∧ (options.dryRun = false → DbKept db db') from
        ⟨db', _, fs', cs₁, run_eq A garbage options hstart hrun hfinish, hvalid,
          Prod.ext (Maps.ext hmaps.1 hclassesOf) hreport, hmaps.2, fun hkeeps => by
            rw [hstarted.stored, hstarted.classfiles] at hadds
            rw [hclasses]
            exact hadds (hkeeps hfilter)⟩
      cases hcase : options.dryRun with
      | true =>
          rw [hdry hcase]
          exact ⟨files_dry options hcase hfiles hcounted, by simp⟩
      | false =>
          rw [hcase] at hready
          obtain ⟨files, hupdate, rfl⟩ := finish_update hready hcase
            (by rw [hstep.task, hstarted.isFileUnchanged]) hdigest hfinish
          have hkept₀ := hstarted.kept hcase
          have hmarks := hkept₀.files.weaken.trans hkept.marks
          rw [← hkept.jarFileRow] at hmarks
          obtain ⟨hfound, hmarked⟩ := updateFile_stores hready hupdate hmarks
          exact ⟨files_stored options hcase hfiles hfound hcounted hdigestOf, fun _ =>
            ⟨hkept₀.pool.trans hkept.pool, hmarked⟩⟩

/-- `updateDbInMemory` stores one file that is new. -/
theorem updateDbInMemory_maps (hw : Lexicon words) (h : Valid words db fs cs)
    {info : ClassFileInfo} (hfilename : info.filename ∈ words)
    (hnew : fileRow db info.filename = none) {classname : Bytes} {digest : DigestCol}
    {db' : DigestDb} (hupdate : updateDbInMemory A db info classname digest = some db') :
    (maps db').files = Function.update (maps db).files info.filename
        (some (fileRecord info digest)) ∧
      (∀ name, name ≠ info.filename → fileRow db' name = fileRow db name) ∧ DbKept db db' := by
  obtain ⟨⟨db₁, fileId⟩, hstore, hupdate⟩ := Option.bind_eq_some_iff.mp hupdate
  obtain ⟨⟨pool₁, offset₁⟩, hadd₁, hstore⟩ := Option.bind_eq_some_iff.mp hstore
  obtain ⟨⟨files, readId⟩, hfile, hstore⟩ := Option.bind_eq_some_iff.mp hstore
  obtain ⟨rfl, -⟩ := Prod.mk.inj (Option.some.inj hstore)
  obtain ⟨⟨pool₂, offset₂⟩, hadd₂, hupdate⟩ := Option.bind_eq_some_iff.mp hupdate
  obtain ⟨_, -, hupdate⟩ := Option.bind_eq_some_iff.mp hupdate
  obtain ⟨⟨classfiles, id⟩, -, hupdate⟩ := Option.bind_eq_some_iff.mp hupdate
  obtain rfl := Option.some.inj hupdate
  obtain ⟨pool, offset, hadd, hpooled, hgrows, hread⟩ := h.pooled.internalAdd hw hfilename
  obtain ⟨rfl, rfl⟩ := Prod.mk.inj (Option.some.inj (hadd.symm.trans hadd₁))
  obtain ⟨hgrown, -⟩ := h.grows hpooled hgrows
  have hkey : text pool (UInt64.ofNat offset) = info.filename := by
    rw [text, hpooled.toNat_ofNat hw hread, hread]
    rfl
  have hunknown : db.files.rows.lookup ((Files.layout pool).getKey (CallGraphDb.newRow
      { fileRecord info digest with filename := UInt64.ofNat offset }).cols) = none := by
    change db.files.rows.lookup (text pool (UInt64.ofNat offset)) = none
    rw [hkey]
    exact findByKey_of_fileRow_none h hnew
  have hstores := stores_addOrUpdate (A _) hgrown.files hgrown.filedFiles hunknown hfile
  have hfound : findRow files = Function.update (findRow db.files) info.filename (some
      { CallGraphDb.newRow { fileRecord info digest with filename := UInt64.ofNat offset } with
        id := readId 0 }) := by
    rw [← hkey]
    exact hstores.found
  refine ⟨?_, fun name hne => ?_, (internalAdd_kept hadd₁).trans (internalAdd_kept hadd₂),
    hstores.marks⟩
  · change (fun name => (findRow files name).map fun row => unnamed row.cols) = _
    rw [hfound, map_update]
    rfl
  · change findRow files name = findRow db.files name
    rw [hfound, Function.update_of_ne hne]

/-- The file is the only one that has changed, and a dry run changes nothing. -/
structure FileKept (dryRun : Bool) (filename : Bytes) (db db' : DigestDb) : Prop where
  others : ∀ name, name ≠ filename → fileRow db' name = fileRow db name
  dry : dryRun = true → db' = db
  kept : dryRun = false → DbKept db db'

theorem FileKept.refl (dryRun : Bool) (filename : Bytes) (db : DigestDb) :
    FileKept dryRun filename db db :=
  ⟨fun _ _ => rfl, fun _ => rfl, fun _ => DbKept.refl db⟩

/-- A class file that the parser accepts and that is new, if it is stored. -/
theorem digested_refines (hw : Lexicon words) (h : Valid words db fs cs)
    (hroom : fs.length + 1 < 2 ^ 64 - 1) {info : ClassFileInfo} (hfilename : info.filename ∈ words)
    (hnew : options.dryRun = false → fileRow db info.filename = none) {c : ClassFile}
    {classname : Bytes} {digest : DigestCol} (hdigest : publicDigest H c = some digest)
    (hclassname : getMainClassname c = some classname) (hmem : classname ∈ words) (r : Results) :
    ∃ db' fs' cs', DigestAnalysis.digestFile r A H options db info
        ((fileRow db info.filename).map fun row => row.cols) c =
        .returned (db', reportFile r options.isDiff
          (DomainTables.getStrongClassname info.filename classname) digest
          ((maps db).files info.filename)) ∧
      Valid words db' fs' cs' ∧ fs'.length ≤ fs.length + 1 ∧
      maps db' = storeClassFile options info classname digest (maps db) ∧
      FileKept options.dryRun info.filename db db' ∧
      ((options.dryRun = false →
          stored db (DomainTables.getStrongClassname info.filename classname) = none) →
        AddsRows 1 db.classfiles db'.classfiles) := by
  have hreport : ∀ strongClassname, reportFile r options.isDiff strongClassname digest
      ((fileRow db info.filename).map fun row => row.cols) =
        reportFile r options.isDiff strongClassname digest ((maps db).files info.filename) := by
    intro strongClassname
    change _ = reportFile r _ _ _ ((fileRow db info.filename).map fun row => unnamed row.cols)
    cases fileRow db info.filename <;> rfl
  simp only [DigestAnalysis.digestFile, hclassname, hdigest, Outcome.ofOption_some,
    Outcome.returned_bind, hreport, storeClassFile]
  cases hdry : options.dryRun with
  | true =>
      exact ⟨db, fs, cs, rfl, h, Nat.le_succ _, rfl, FileKept.refl _ _ db, fun _ =>
        (AddsRows.refl _).mono (Nat.zero_le 1)⟩
  | false =>
      have hnone := hnew hdry
      obtain ⟨db', fs', cs', hupdate, hvalid, hlength, hstored, hadds⟩ :=
        updateDbInMemory_spec A hw h hroom info hfilename hnone hmem digest
      obtain ⟨hfiles, hothers, hkept⟩ := updateDbInMemory_maps A hw h hfilename hnone hupdate
      refine ⟨db', fs', cs', ?_, hvalid, hlength, Maps.ext hfiles hstored,
        ⟨hothers, by simp, fun _ => hkept⟩, fun hfree => hadds (hfree rfl)⟩
      simp only [hupdate, Outcome.ofOption_some, Outcome.returned_bind, Bool.false_eq_true,
        if_false]

/-- A standalone class file does to the maps what is meant. -/
theorem classFile_refines (hw : Lexicon words) (h : Valid words db fs cs)
    (hroom : fs.length + 1 < 2 ^ 64 - 1) (file : ReadFile) (hfilename : file.info.filename ∈ words)
    (hkeeps : KeepsFiles H garbage options (maps db) (.classFile file))
    (hnames : ∀ c s classname, parsed .file file.info.content garbage = some (c, s) →
      getMainClassname c = some classname → classname ∈ words) (r : Results) :
    ∃ db' r' fs' cs', doClassFile A H garbage options db r file.info = .returned (db', r') ∧
      Valid words db' fs' cs' ∧ fs'.length ≤ fs.length + 1 ∧
      (maps db', r') = digestClassFile H garbage options file.info (maps db) r ∧
      FileKept options.dryRun file.info.filename db db' ∧
      (KeepsClasses H garbage options (maps db) (.classFile file) →
        AddsRows 1 db.classfiles db'.classfiles) := by
  have hunchanged : CallGraphAnalysis.isUnchanged options db.files file.info =
      (options.useFileTimestamp && ((maps db).files file.info.filename).any fun record =>
        record.fileSize == file.info.size && record.lastWriteTime == file.info.timestamp) := by
    change _ = (options.useFileTimestamp &&
      ((fileRow db file.info.filename).map fun row => unnamed row.cols).any _)
    rw [CallGraphAnalysis.isUnchanged, ← fileRow]
    cases fileRow db file.info.filename <;> rfl
  rw [doClassFile_eq r A H garbage options h, digestClassFile, hunchanged]
  by_cases hskip : (options.useFileTimestamp &&
      ((maps db).files file.info.filename).any fun record =>
        record.fileSize == file.info.size && record.lastWriteTime == file.info.timestamp) = true
  · simp only [if_pos hskip]
    exact ⟨db, _, fs, cs, rfl, h, Nat.le_succ _, rfl, FileKept.refl _ _ db, fun _ =>
      (AddsRows.refl _).mono (Nat.zero_le 1)⟩
  · simp only [if_neg hskip]
    obtain ⟨reader, hreader, hparse |
      ⟨c, s, digest, classname, hparse, hparsed, hdigest, hclassname⟩⟩ := file.cases H garbage
    · have hreading : fileReading H garbage file.info = .rejected := by
        rw [fileReading, parsed, hreader, Option.bind_some, hparse]
      simp only [hreader, hparse, hreading]
      exact ⟨db, _, fs, cs, rfl, h, Nat.le_succ _, rfl, FileKept.refl _ _ db, fun _ =>
        (AddsRows.refl _).mono (Nat.zero_le 1)⟩
    · have hreading : fileReading H garbage file.info = .accepted classname digest := by
        rw [fileReading, hparsed]
        simp only [hclassname, hdigest]
      have hstores : options.dryRun = false →
          storedClass H garbage options file.info (maps db) = some classname := by
        intro hdry
        rw [storedClass, hdry, Bool.false_or, if_neg hskip, hreading]
      have hnew : options.dryRun = false → fileRow db file.info.filename = none := by
        intro hdry
        exact Option.map_eq_none_iff.mp (hkeeps (by rw [hstores hdry]; rfl))
      obtain ⟨db', fs', cs', hrun, hvalid, hlength, hmaps, hkept, hadds⟩ := digested_refines A
        options hw h hroom hfilename hnew hdigest hclassname
        (hnames c s classname hparsed hclassname) (counting r)
      simp only [hreader, hparse, hreading]
      refine ⟨db', _, fs', cs', hrun, hvalid, hlength, ?_, hkept, fun hclasses =>
        hadds fun hdry => hclasses classname (hstores hdry)⟩
      rw [hmaps]

/-- The classes that an input can store. -/
def classCount : Input H → ℕ
  | .jar _ es => es.length
  | .classFile _ => 1

/-- One input. -/
theorem process_refines (hw : Lexicon words) (h : Valid words db fs cs)
    (hroom : fs.length + 1 < 2 ^ 64 - 1) (x : Input H) (hx : InputTexts garbage words x)
    (hkeeps : KeepsFiles H garbage options (maps db) x) (r : Results) :
    ∃ db' r' fs' cs', x.process A garbage options (db, r) = .returned (db', r') ∧
      Valid words db' fs' cs' ∧ fs'.length ≤ fs.length + 1 ∧
      (maps db', r') = digestInput H garbage options (maps db, r) x ∧
      (options.dryRun = false → DbKept db db') ∧
      (KeepsClasses H garbage options (maps db) x →
        AddsRows (classCount x) db.classfiles db'.classfiles) := by
  cases x with
  | classFile file =>
      obtain ⟨db', r', fs', cs', hrun, hvalid, hlength, hmaps, hkept, hadds⟩ :=
        classFile_refines A garbage options hw h hroom file hx.1 hkeeps hx.2 r
      exact ⟨db', r', fs', cs', hrun, hvalid, hlength, hmaps, hkept.kept, hadds⟩
  | jar f es =>
      obtain ⟨db', r', fs', cs', hrun, hvalid, hmaps, hkept, hadds⟩ :=
        jar_refines A garbage options hw h hx.1 hroom es hx.2 r
      have hsize := ClassOutcomes.run_size hrun
      rw [hvalid.files.length_eq, h.files.length_eq] at hsize
      exact ⟨db', r', fs', cs', hrun, hvalid, hsize, hmaps, hkept, hadds⟩

/-- A run over jars and class files. -/
theorem processAll_spec (hw : Lexicon words) (xs : List (Input H))
    (hxs : ∀ x ∈ xs, InputTexts garbage words x) (h : Valid words db fs cs)
    (hroom : fs.length + xs.length < 2 ^ 64 - 1) (r : Results)
    (hkeeps : Throughout H garbage options (KeepsFiles H garbage options) (maps db, r) xs) :
    ∃ db' r' fs' cs', processAll A garbage options (db, r) xs = .returned (db', r') ∧
      Valid words db' fs' cs' ∧ fs'.length ≤ fs.length + xs.length ∧
      (maps db', r') = digestAll H garbage options (maps db, r) xs ∧
      (options.dryRun = false → DbKept db db') ∧
      (Throughout H garbage options (KeepsClasses H garbage options) (maps db, r) xs →
        AddsRows (xs.map classCount).sum db.classfiles db'.classfiles) := by
  induction xs generalizing db fs cs r with
  | nil =>
      exact ⟨db, r, fs, cs, rfl, h, le_rfl, rfl, fun _ => DbKept.refl db, fun _ => AddsRows.refl _⟩
  | cons x xs ih =>
      rw [List.length_cons] at hroom
      obtain ⟨db₁, r₁, fs₁, cs₁, hprocess, hvalid, hlength, hmaps, hkept, hadds⟩ :=
        process_refines A garbage options hw h (by omega) x (hxs x List.mem_cons_self) hkeeps.1 r
      have hrestKeeps := hkeeps.2
      rw [← hmaps] at hrestKeeps
      obtain ⟨db', r', fs', cs', hrest, hvalid', hlength', hmaps', hkept', hadds'⟩ :=
        ih (fun y hy => hxs y (List.mem_cons_of_mem x hy)) hvalid (by omega) r₁ hrestKeeps
      refine ⟨db', r', fs', cs', ?_, hvalid', ?_, ?_, fun hdry => (hkept hdry).trans (hkept' hdry),
        fun hclasses => ?_⟩
      · rw [processAll, List.foldlM_cons, hprocess]
        exact hrest
      · rw [List.length_cons]
        omega
      · rw [hmaps', hmaps]
        rfl
      · rw [List.map_cons, List.sum_cons]
        exact (hadds hclasses.1).trans (hadds' (hmaps ▸ hclasses.2))

/-- What a run reports and leaves depends on the maps alone, not on the strings,
rows and pointers behind them or on where new rows are allocated, as long as no record of
a class file is overwritten. -/
theorem runs_depend_on_maps (A₂ : ∀ α : Type, Allocator α) (hw : Lexicon words) {db₂ : DigestDb}
    {fs₂ : List (Row FileCols)} {cs₂ : List (Row ClassFileCols)} (h : Valid words db fs cs)
    (h₂ : Valid words db₂ fs₂ cs₂) (hmaps : maps db₂ = maps db) (xs : List (Input H))
    (hxs : ∀ x ∈ xs, InputTexts garbage words x) (hroom : fs.length + xs.length < 2 ^ 64 - 1)
    (hroom₂ : fs₂.length + xs.length < 2 ^ 64 - 1) (r : Results)
    (hkeeps : Throughout H garbage options (KeepsFiles H garbage options) (maps db, r) xs) :
    ∃ out out₂, processAll A garbage options (db, r) xs = .returned out ∧
      processAll A₂ garbage options (db₂, r) xs = .returned out₂ ∧
      (maps out.1, out.2) = digestAll H garbage options (maps db, r) xs ∧
      maps out₂.1 = maps out.1 ∧ out₂.2 = out.2 := by
  obtain ⟨db', r', fs', cs', hrun, -, -, hdigested, -⟩ :=
    processAll_spec A garbage options hw xs hxs h hroom r hkeeps
  obtain ⟨db₂', r₂', fs₂', cs₂', hrun₂, -, -, hdigested₂, -⟩ :=
    processAll_spec A₂ garbage options hw xs hxs h₂ hroom₂ r (hmaps ▸ hkeeps)
  have hsame : (maps db₂', r₂') = (maps db', r') := by rw [hdigested₂, hmaps, ← hdigested]
  obtain ⟨hmaps', hresults⟩ := Prod.mk.inj hsame
  exact ⟨(db', r'), (db₂', r₂'), hrun, hrun₂, hdigested, hmaps', hresults⟩

end Runs

theorem skip_fresh {α : Type} (heap : Heap α) : heap.keys.sum + 2 ∉ heap := by
  intro hmem
  have := List.le_sum_of_mem (AList.mem_keys.mp hmem)
  omega

/-- An allocator that leaves gaps and clears what is released. -/
def skipOne (α : Type) : Allocator α := ⟨fun heap => heap.keys.sum + 2, skip_fresh, fun _ _ _ => 0⟩

/-- The class file of the sample is rejected and stores nothing. -/
theorem storedClass_sampleFile (garbage : ℕ → UInt8) (options : Options) (m : Maps) :
    storedClass sampleHash garbage options sampleFile.info m = none := by
  have hreading : fileReading sampleHash garbage sampleFile.info = .rejected := by
    have hnone : parsed .file sampleFile.info.content garbage = none := rfl
    rw [fileReading, hnone]
  rw [storedClass, hreading, ite_self]

theorem keepsFiles_sampleFile (garbage : ℕ → UInt8) (options : Options) (m : Maps) :
    KeepsFiles sampleHash garbage options m (.classFile sampleFile) := by
  rw [KeepsFiles, storedClass_sampleFile]
  simp

/-- A new database, with two ways to allocate. -/
theorem runs_depend_on_maps_sample :
    ∃ db out out₂, DigestDb.create = some db ∧
      processAll Allocator.next (fun _ => 0) {} (db, {})
        [.jar sampleJar [entryA], .classFile sampleFile] = .returned out ∧
      processAll skipOne (fun _ => 0) {} (db, {})
        [.jar sampleJar [entryA], .classFile sampleFile] = .returned out₂ ∧
      maps out₂.1 = maps out.1 ∧ out₂.2 = out.2 := by
  obtain ⟨db, hcreate, hvalid, -⟩ := create_valid ClassOutcomes.outcomeWords (by decide)
  have htexts : ∀ x ∈ [(Input.jar sampleJar [entryA] : Input sampleHash),
      .classFile sampleFile], InputTexts (fun _ => 0) ClassOutcomes.outcomeWords x := by
    simp only [List.forall_mem_cons, List.not_mem_nil, false_imp_iff, implies_true, and_true]
    refine ⟨⟨by decide, fun e he => ?_⟩, ClassOutcomes.inputTexts_sampleFile _⟩
    rw [List.mem_singleton.mp he]
    decide
  obtain ⟨out, out₂, hrun, hrun₂, -, hmaps, hresults⟩ := runs_depend_on_maps Allocator.next
    (fun _ => 0) {} skipOne ClassOutcomes.lexicon_outcomeWords hvalid hvalid rfl _ htexts (by decide)
    (by decide) {} ⟨trivial, keepsFiles_sampleFile _ _ _, trivial⟩
  exact ⟨db, out, out₂, hcreate, hrun, hrun₂, hmaps, hresults⟩

end Tarracsh.DigestMaps
