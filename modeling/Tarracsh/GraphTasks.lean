import Tarracsh.CallGraphAnalysis
import Tarracsh.DigestTasks

/-!
# The call-graph task over a jar

`GraphTask` shares `DbBasedTask` with `DigestTask`: the row of the jar, the test
whether the jar is unchanged and the class rows. Unlike `DigestTask::end`, its
`end` never calls `updateFile`.
-/
namespace Tarracsh.GraphTasks
open ByteStrings StringPool TableModel DomainTables CallGraphTables JarEntries Reporting
open CallGraphAnalysis DigestTasks

/-- The tables that `DbBasedTask` works on. -/
def tables (db : GraphDb) : DigestDb := ⟨db.pool, db.files, db.classfiles⟩

def withTables (db : GraphDb) (t : DigestDb) : GraphDb :=
  { db with pool := t.pool, files := t.files, classfiles := t.classfiles }

@[simp] theorem tables_withTables (db : GraphDb) (t : DigestDb) : tables (withTables db t) = t :=
  rfl

/-- A task with what it works on. -/
structure GraphTask where
  db : GraphDb
  jarFileRow : ℕ
  isNewJarFile : Bool
  isFileUnchanged : Bool
  results : Results

section Task
variable (A : ∀ α : Type, Allocator α) (garbage : ℕ → UInt8) (options : Options) (jar : JarFile)

/-- `GraphTask::start`. -/
def start (db : GraphDb) (results : Results) : Option (GraphTask × Bool) := do
  let (t, p, isNewJarFile) ← getOrCreateFileRow A options jar (tables db)
  let row ← t.files.heap.lookup p
  let unchanged := isFileUnchanged options jar isNewJarFile row.cols
  some (⟨withTables db t, p, isNewJarFile, unchanged, results⟩, !unchanged)

/-- The class row under a name. -/
def findClassRow (db : GraphDb) (strongClassname : Bytes) : Option (Option (Row ClassFileCols)) :=
  match db.classfiles.findByKey strongClassname with
  | none => some none
  | some p => (db.classfiles.heap.lookup p).map some

/-- `++_jarFileRow->classfileCount`. -/
def GraphTask.countClass (s : GraphTask) (jarRow : Row FileCols) : GraphTask :=
  let row := withCount jarRow (jarRow.cols.classfileCount + 1)
  { s with db := { s.db with
    files := { s.db.files with heap := s.db.files.heap.insert s.jarFileRow row } } }

/-- `GraphTask::processEntry`. -/
def processEntry (s : GraphTask) (e : JarEntry) : Outcome GraphTask := do
  let jarRow ← .ofOption (s.db.files.heap.lookup s.jarFileRow)
  let filename := text s.db.pool jarRow.cols.filename
  let row ← .ofOption (findClassRow s.db (e.strongClassname filename))
  let s := if row.isSome then s else s.countClass jarRow
  let s ← match row.filter fun row => isClassfileUnchanged e row.cols with
    | some _ => .returned { s with
        results := s.results.asUnchangedJarClass options.isDiff (e.strongClassname filename) }
    | none => do
        let (db, results) ← processClassFile A options garbage filename s.jarFileRow s.db
          s.results e row
        .returned { s with db := db, results := results }
  .returned { s with results := s.results.onJarClasses fun stats =>
    { stats with count := stats.count + 1 } }

/-- `GraphTask::end`. -/
def finish (s : GraphTask) : Option (GraphDb × Results) := do
  let jarRow ← s.db.files.heap.lookup s.jarFileRow
  let jarfiles := { s.results.jarfiles with
    classfileCount := s.results.jarfiles.classfileCount + jarRow.cols.classfileCount }
  some (s.db, { s.results with jarfiles :=
    if s.isFileUnchanged then { jarfiles with taskResult := jarfiles.taskResult.addUnchanged }
    else jarfiles })

/-- `Processor::run` with a `GraphTask`, over the class entries. -/
def run (entries : List JarEntry) (db : GraphDb) (results : Results) :
    Outcome (GraphDb × Results) := do
  let (s, started) ← .ofOption (start A options jar db results)
  let s ← if started then entries.foldlM (processEntry A garbage options) s else .returned s
  .ofOption (finish s)

end Task

end Tarracsh.GraphTasks
