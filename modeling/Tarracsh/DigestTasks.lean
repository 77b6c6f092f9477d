import Tarracsh.Reporting
import Tarracsh.JarEntries
import Mathlib.Data.Finmap

/-!
# The digest of a jar

`DigestTask` looks up every class entry under the path of the entry and stores
it under the name that the class declares. `_digestMap` is read in the order of
the paths. SHA-256 is a function of the bytes.

`_jarFileRow` is a pointer to the row of the jar, which a dry run allocates and
does not add to the table. Its counter is changed in place.
-/
namespace Tarracsh.DigestTasks
open ByteStrings QueryTrees StringPool ParsedClass ClassFileReader ClassFileParser TableModel
open DomainTables CallGraphTables ClassFileDigest SafeConsumption JarEntries Reporting

structure DigestDb where
  pool : Pool
  files : Table FileCols
  classfiles : Table ClassFileCols

/-- `DigestDb::create` over an empty directory. -/
def DigestDb.create : Option DigestDb := do
  let pool ← Pool.construct
  some
    { pool := pool
      files := Table.construct (Files.layout pool)
      classfiles := Table.construct ⟨ClassFiles.format, fun _ => []⟩ }

/-- `DigestCol::operator=` asserts the length. -/
def digestCol (v : DigestVector) : Option DigestCol :=
  if h : v.length = DIGEST_LENGTH then some ⟨v.toArray, h⟩ else none

section Digests
variable (H : Bytes → Sha256)

/-- `ClassFileDigest::digest`. -/
def publicDigest (c : ClassFile) : Option DigestCol := (eval H (digest c)).bind digestCol

-- What `sort` asks of the lexicographic order.
local instance trans_bytes : IsTrans Bytes fun a b => a ≤ b := inferInstance
local instance antisymm_bytes : Std.Antisymm fun a b : Bytes => a ≤ b := inferInstance
local instance total_bytes : Std.Total fun a b : Bytes => a ≤ b := inferInstance

/-- The values of a map in the order of its keys. -/
def mapBuffer (digestMap : Finmap fun _ : Bytes => DigestCol) : Bytes :=
  (digestMap.keys.sort (· ≤ ·)).flatMap fun name =>
    ((digestMap.lookup name).map fun d => d.toList).getD []

def jarDigest (digestMap : Finmap fun _ : Bytes => DigestCol) : Option DigestCol :=
  (eval H (digestBuffer (mapBuffer digestMap))).bind digestCol

end Digests

/-- The jar that a task digests. -/
structure JarFile where
  filename : Bytes
  size : UInt64
  timestamp : Int64
  deriving DecidableEq, Repr

structure DigestTask where
  jarFileRow : ℕ
  isNewJarFile : Bool
  isFileUnchanged : Bool
  digestMap : Finmap fun _ : Bytes => DigestCol

/-- A task with what it works on. -/
structure TaskState where
  db : DigestDb
  task : DigestTask
  results : Results

section Task
variable (A : ∀ α : Type, Allocator α) (H : Bytes → Sha256) (garbage : ℕ → UInt8)
  (options : Options) (jar : JarFile)

/-- `DbBasedTask::getOrCreateFileRow` and `createJarFileRow`. The result ends with
`_isNewJarFile`. -/
def getOrCreateFileRow (db : DigestDb) : Option (DigestDb × ℕ × Bool) :=
  match db.files.findByKey jar.filename with
  | some p => some (db, p, false)
  | none => do
      let (pool, offset) ← db.pool.internalAdd jar.filename
      let (t, p) := db.files.allocate (A _) (CallGraphDb.newRow
        { filename := UInt64.ofNat offset, type := Jar, lastWriteTime := jar.timestamp,
          fileSize := jar.size, classfileCount := 0 })
      if options.dryRun then some ({ db with pool := pool, files := t }, p, true)
      else do
        let (files, _) ← t.add (Files.layout pool) p
        some ({ db with pool := pool, files := files }, p, true)

/-- `DbBasedTask::isFileUnchanged`. -/
def isFileUnchanged (isNewJarFile : Bool) (jarFileRow : FileCols) : Bool :=
  options.useFileTimestamp && !isNewJarFile && jarFileRow.fileSize == jar.size &&
    jarFileRow.lastWriteTime == jar.timestamp

/-- `DigestTask::start`. -/
def start (db : DigestDb) (results : Results) : Option (TaskState × Bool) := do
  let (db, p, isNewJarFile) ← getOrCreateFileRow A options jar db
  let row ← db.files.heap.lookup p
  let unchanged := isFileUnchanged options jar isNewJarFile row.cols
  some (⟨db, ⟨p, isNewJarFile, unchanged, ∅⟩, results⟩, !unchanged)

/-- `findByKey` and the row it points to. -/
def DigestDb.findClass (db : DigestDb) (strongClassname : Bytes) :
    Option (Option ClassFileCols) :=
  match db.classfiles.findByKey strongClassname with
  | none => some none
  | some p => (db.classfiles.heap.lookup p).map fun row => some row.cols

/-- The files after a change of the row behind `_jarFileRow`. -/
def TaskState.setJarRow (s : TaskState) (row : Row FileCols) : Table FileCols :=
  { s.db.files with heap := s.db.files.heap.insert s.task.jarFileRow row }

def withCount (row : Row FileCols) (classfileCount : UInt32) : Row FileCols :=
  { row with cols := { row.cols with classfileCount := classfileCount } }

/-- `++_jarFileRow->classfileCount`. -/
def TaskState.countClass (s : TaskState) (jarRow : Row FileCols) : TaskState :=
  let row := withCount jarRow (jarRow.cols.classfileCount + 1)
  { s with db := { s.db with files := s.setJarRow row } }

/-- `_digestMap[jarEntry.getClassname()] = digest`. -/
def TaskState.setDigest (s : TaskState) (e : JarEntry) (digest : DigestCol) : TaskState :=
  { s with task := { s.task with digestMap := s.task.digestMap.insert e.getClassname digest } }

/-- What `digestEntry` reports of a class that parses. -/
def reportDigested (isDiff : Bool) (strongClassname : Bytes) (digest : DigestCol)
    (results : Results) (row : Option ClassFileCols) : Results :=
  let results := match row with
    | some row => results.asModifiedJarClass isDiff strongClassname (digest == row.digest)
    | none => results.asNewJarClass isDiff strongClassname
  results.onJarClasses fun stats => { stats with parsedCount := stats.parsedCount + 1 }

/-- `DigestTask::digestEntry`. -/
def digestEntry (s : TaskState) (e : JarEntry) (strongClassname : Bytes)
    (row : Option ClassFileCols) : Outcome (TaskState × Option DigestCol) :=
  match construct .memory e.content garbage with
  | none => .thrown
  | some reader =>
      match parse reader with
      | none =>
          let results := s.results.asFailedJarClass options.isDiff strongClassname
          .returned ({ s with results := results.onJarClasses fun stats =>
            { stats with errors := stats.errors + 1 } }, none)
      | some (c, _) => do
          let digest ← .ofOption (publicDigest H c)
          let results := reportDigested options.isDiff strongClassname digest s.results row
          let s := { s with results := results }
          if options.dryRun then .returned (s, some digest)
          else do
            let (pool, classfiles, _) ← .ofOption (addOrUpdateClassfile A s.db.pool s.db.files
              s.db.classfiles s.task.jarFileRow e digest c)
            .returned ({ s with db := { s.db with pool := pool, classfiles := classfiles } },
              some digest)

/-- `DigestTask::processEntry`. -/
def processEntry (s : TaskState) (e : JarEntry) : Outcome TaskState := do
  let jarRow ← .ofOption (s.db.files.heap.lookup s.task.jarFileRow)
  let strongClassname := e.strongClassname (text s.db.pool jarRow.cols.filename)
  let row ← .ofOption (s.db.findClass strongClassname)
  let s := if row.isSome then s else s.countClass jarRow
  let s ← match row.filter (isClassfileUnchanged e) with
    | some row => .returned (TaskState.setDigest
        { s with results := s.results.asUnchangedJarClass options.isDiff strongClassname } e
        row.digest)
    | none => do
        let (s, digest) ← digestEntry A H garbage options s e strongClassname row
        match digest with
        | some digest => .returned (s.setDigest e digest)
        | none => .returned s
  .returned { s with results := s.results.onJarClasses fun stats =>
    { stats with
      count := stats.count + 1
      taskResult := { stats.taskResult with count := stats.taskResult.count + 1 } } }

/-- `DbBasedTask::updateFile`. -/
def updateFile (s : TaskState) (jarRow : Row FileCols) (digest : DigestCol) :
    Option (Table FileCols) :=
  let row := { jarRow with cols := { jarRow.cols with
    digest := digest, lastWriteTime := jar.timestamp, fileSize := jar.size } }
  (s.setJarRow row).update (Files.layout s.db.pool) (A _) s.task.jarFileRow

/-- What `end` counts first. -/
def countJar (results : Results) (jarRow : FileCols) : Results :=
  { results with jarfiles := { results.jarfiles with
    taskResult := { results.jarfiles.taskResult with
      count := results.jarfiles.taskResult.count + 1 }
    classfileCount := results.jarfiles.classfileCount + jarRow.classfileCount } }

/-- What `end` reports of a jar that was not skipped. -/
def reportJar (isNewJarFile : Bool) (results : Results) (jarRow : FileCols) (digest : DigestCol) :
    Results :=
  if isNewJarFile then results.asNewJar options.isDiff jar.filename
  else results.asModifiedJar options.isDiff jar.filename (jarRow.digest == digest)

/-- `DigestTask::end`. -/
def finish (s : TaskState) : Option (DigestDb × Results) := do
  let jarRow ← s.db.files.heap.lookup s.task.jarFileRow
  let results := countJar s.results jarRow.cols
  if s.task.isFileUnchanged then
    some (s.db, (results.onJarClasses fun stats =>
      { stats with taskResult := { stats.taskResult with
        count := stats.taskResult.count + jarRow.cols.classfileCount
        unchangedCount := stats.taskResult.unchangedCount + jarRow.cols.classfileCount } }
      ).asUnchangedJar options.isDiff jar.filename)
  else do
    let digest ← jarDigest H s.task.digestMap
    let results := reportJar options jar s.task.isNewJarFile results jarRow.cols digest
    if options.dryRun then some (s.db, results)
    else do
      let files ← updateFile A jar s jarRow digest
      some ({ s.db with files := files }, results)

/-- `Processor::run` over the class entries, one after the other, up to `end`. -/
def runEntries (entries : List JarEntry) (db : DigestDb) (results : Results) :
    Outcome TaskState := do
  let (s, started) ← .ofOption (start A options jar db results)
  if started then entries.foldlM (processEntry A H garbage options) s else .returned s

/-- `Processor::run`. -/
def run (entries : List JarEntry) (db : DigestDb) (results : Results) :
    Outcome (DigestDb × Results) := do
  let s ← runEntries A H garbage options jar entries db results
  .ofOption (finish A H options jar s)

end Task

section Analyzer
variable (A : ∀ α : Type, Allocator α) (H : Bytes → Sha256) (garbage : ℕ → UInt8)
  (options : Options)

/-- The first half of `updateDbInMemory`. The result ends with `fileRow.id` as the class
row copies it: the file row was released when the name of the file was known. -/
def storeFileRow (db : DigestDb) (info : ClassFileInfo) (digest : DigestCol) :
    Option (DigestDb × ℕ) := do
  let (pool, filename) ← db.pool.internalAdd info.filename
  let (t, p) := db.files.allocate (A _) (CallGraphDb.newRow
    { filename := UInt64.ofNat filename, type := Classfile, lastWriteTime := info.timestamp,
      fileSize := info.size, digest := digest })
  let (files, readId) ← t.addOrUpdate (Files.layout pool) (A _) p
  some ({ db with pool := pool, files := files }, readId 0)

/-- The second half. The key of the class row is computed through the file row of the
given id. -/
def storeClassRow (db : DigestDb) (info : ClassFileInfo) (fileId : ℕ) (classname : Bytes)
    (digest : DigestCol) : Option DigestDb := do
  let (pool, offset) ← db.pool.internalAdd classname
  let cols : ClassFileCols :=
    { file := UInt64.ofNat fileId, size := info.size, lastWriteTime := info.timestamp.toUInt64,
      digest := digest, classname := UInt64.ofNat offset }
  let (t, p) := db.classfiles.allocate (A _) (CallGraphDb.newRow cols)
  let _ ← db.files.getRow cols.file.toNat
  let (classfiles, _) ← t.addOrUpdate (ClassFiles.layout pool db.files) (A _) p
  some { db with pool := pool, classfiles := classfiles }

/-- `DigestAnalyzer::updateDbInMemory`. -/
def updateDbInMemory (db : DigestDb) (info : ClassFileInfo) (classname : Bytes)
    (digest : DigestCol) : Option DigestDb := do
  let (db, fileId) ← storeFileRow A db info digest
  storeClassRow A db info fileId classname digest

/-- `DigestAnalyzer::doClassFile`. -/
def doClassFile (db : DigestDb) (results : Results) (info : ClassFileInfo) :
    Outcome (DigestDb × Results) := do
  let fileRow ← .ofOption (match db.files.findByKey info.filename with
    | none => some none
    | some p => (db.files.heap.lookup p).map fun row => some row.cols)
  let unchanged := options.useFileTimestamp && fileRow.any fun row =>
    row.fileSize == info.size && row.lastWriteTime == info.timestamp
  let results := { results with standaloneClassfiles := { results.standaloneClassfiles with
    taskResult := { results.standaloneClassfiles.taskResult with
      count := results.standaloneClassfiles.taskResult.count + 1 } } }
  if unchanged then
    .returned (db, results.asUnchangedClassFile options.isDiff info.filename)
  else
    match construct .file info.content garbage with
    | none => .thrown
    | some reader =>
        match parse reader with
        | none => .returned (db, results.asFailedClassFile options.isDiff info.filename)
        | some (c, _) => do
            let classname ← .ofOption (getMainClassname c)
            let strongClassname := DomainTables.getStrongClassname info.filename classname
            let digest ← .ofOption (publicDigest H c)
            let results := match fileRow with
              | some row => results.asModifiedClassFile options.isDiff (digest == row.digest)
                  strongClassname
              | none => results.asNewClassFile options.isDiff strongClassname
            let results := { results with standaloneClassfiles :=
              { results.standaloneClassfiles with
                parsedCount := results.standaloneClassfiles.parsedCount + 1 } }
            if options.dryRun then .returned (db, results)
            else do
              let db ← .ofOption (updateDbInMemory A db info classname digest)
              .returned (db, results)

end Analyzer

end Tarracsh.DigestTasks
