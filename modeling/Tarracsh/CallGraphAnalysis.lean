import Tarracsh.Reporting
import Tarracsh.JarEntries

/-!
# Analysing a class again

`CallGraphAnalyzer::doClassFile` and `GraphTask::processClassFile` replace what
the database holds of a class. Deletion goes through `_ownerClassIndex`, which
no function fills.
-/
namespace Tarracsh.CallGraphAnalysis
open ByteStrings StringPool TableModel DomainTables CallGraphTables ParsedClass SafeConsumption
open ClassFileReader ClassFileParser ClassFileProcessor JarEntries Reporting

/-- The database with the owner index of each node table. -/
structure GraphDb extends CallGraphDb where
  ownerClassIndex : NodeTable → AList fun _ : ℕ => Finset ℕ

namespace GraphDb

/-- `ClassOwnedTable::deleteClass`. -/
def deleteOwned (db : GraphDb) (i : NodeTable) (rowId : ℕ) : Option GraphDb := do
  let ids := ((db.ownerClassIndex i).lookup rowId).getD ∅
  let t ← (ids.sort).foldlM (fun t id => t.deleteRow id) (db.nodes i)
  some { db with
    nodes := Function.update db.nodes i t
    ownerClassIndex := Function.update db.ownerClassIndex i
      ((db.ownerClassIndex i).erase rowId) }

/-- `CallGraphDb::deleteClass`. -/
def deleteClass (db : GraphDb) (rowId : ℕ) : Option GraphDb := do
  let db ← db.deleteOwned .classRefs rowId
  let db ← db.deleteOwned .methods rowId
  let db ← db.deleteOwned .methodRefs rowId
  let db ← db.deleteOwned .fields rowId
  db.deleteOwned .fieldRefs rowId

/-- `CallGraphDb::create` over an empty directory. -/
def create : Option GraphDb := do
  let db ← CallGraphDb.create
  some { db with ownerClassIndex := fun _ => ∅ }

end GraphDb

section Standalone
variable (A : ∀ α : Type, Allocator α)

/-- The row of the file, new or updated. -/
def storeFile (db : CallGraphDb) (info : ClassFileInfo) : Option CallGraphDb := do
  let (db, filename) ← db.getPoolString info.filename
  let (t, p) := db.files.allocate (A _) (CallGraphDb.newRow
    { filename := filename, lastWriteTime := info.timestamp, fileSize := info.size,
      classfileCount := 1 })
  let (files, _) ← t.addOrUpdate (Files.layout db.pool) (A _) p
  some { db with files := files }

/-- The row of the class that is there already, and its nodes, are deleted. -/
def retireClass (db : GraphDb) (strongClassname : Bytes) : Option GraphDb :=
  match db.classfiles.findByKey strongClassname with
  | none => some db
  | some existingClassRow => do
      let row ← db.classfiles.heap.lookup existingClassRow
      let db ← db.deleteClass row.id
      let classfiles ← db.classfiles.archiveRow existingClassRow strongClassname
      let classfiles ← classfiles.deleteRow row.id
      some { db with classfiles := classfiles }

/-- A new row for the class. The result is its id. -/
def addClassRow (db : CallGraphDb) (fileId : ℕ) (classname : Bytes) (info : ClassFileInfo) :
    Option (CallGraphDb × ℕ) := do
  let (db, classname) ← db.getPoolString classname
  let (t, p) := db.classfiles.allocate (A _) (CallGraphDb.newRow
    { file := UInt64.ofNat fileId, classname := classname,
      lastWriteTime := info.timestamp.toUInt64, size := info.size, crc := 0 })
  let (classfiles, id) ← t.add (ClassFiles.layout db.pool db.files) p
  some ({ db with classfiles := classfiles }, id)

/-- What `doClassFile` does after a successful parse. The result ends with the
strong name of the class and whether it was there already, or with nothing
when the row of the file is not found. -/
def analyseClass (db : GraphDb) (info : ClassFileInfo) (c : ClassFile) :
    Option (GraphDb × Option (Bytes × Bool)) := do
  let graph ← storeFile A db.toCallGraphDb info
  let db := { db with toCallGraphDb := graph }
  match db.files.findByKey info.filename with
  | none => some (db, none)
  | some storedFileRow => do
      let fileRow ← db.files.heap.lookup storedFileRow
      let classname ← getMainClassname c
      let strongClassname := DomainTables.getStrongClassname info.filename classname
      let existed := (db.classfiles.findByKey strongClassname).isSome
      let db ← retireClass db strongClassname
      let (graph, rowId) ← addClassRow A db.toCallGraphDb fileRow.id classname info
      let graph ← extractNodes A rowId c graph
      some ({ db with toCallGraphDb := graph }, some (strongClassname, existed))

/-- The stored row has the size and the timestamp of the file. -/
def isUnchanged (options : Options) (files : Table FileCols) (info : ClassFileInfo) : Bool :=
  options.useFileTimestamp &&
    match (files.findByKey info.filename).bind files.heap.lookup with
    | none => false
    | some row => row.cols.fileSize == info.size && row.cols.lastWriteTime == info.timestamp

def reportClass (options : Options) (results : Results) : Option (Bytes × Bool) → Results
  | none => results
  | some (strongClassname, true) =>
      results.asModifiedClassFile options.isDiff false strongClassname
  | some (strongClassname, false) => results.asNewClassFile options.isDiff strongClassname

/-- `CallGraphAnalyzer::doClassFile`. -/
def doClassFile (options : Options) (garbage : ℕ → UInt8) (db : GraphDb) (results : Results)
    (info : ClassFileInfo) : Outcome (GraphDb × Results) :=
  let results := { results with standaloneClassfiles := { results.standaloneClassfiles with
    taskResult := { results.standaloneClassfiles.taskResult with
      count := results.standaloneClassfiles.taskResult.count + 1 } } }
  if isUnchanged options db.files info then
    .returned (db, results.asUnchangedClassFile options.isDiff info.filename)
  else
    match construct .file info.content garbage with
    | none => .thrown
    | some reader =>
        match parse reader with
        | none => .returned (db, results.asFailedClassFile options.isDiff info.filename)
        | some (c, _) =>
            let results := { results with standaloneClassfiles :=
              { results.standaloneClassfiles with
                parsedCount := results.standaloneClassfiles.parsedCount + 1 } }
            match analyseClass A db info c with
            | none => .undefined
            | some (db, found) => .returned (db, reportClass options results found)

end Standalone

section Jar
variable (A : ∀ α : Type, Allocator α)

/-- The row of a new jar, as `getOrCreateFileRow` adds it. -/
def createJarFileRow (db : CallGraphDb) (filename : Bytes) (size : UInt64) (timestamp : Int64) :
    Option (CallGraphDb × ℕ) := do
  let (db, filename) ← db.getPoolString filename
  let (t, p) := db.files.allocate (A _) (CallGraphDb.newRow
    { filename := filename, type := Jar, lastWriteTime := timestamp, fileSize := size,
      classfileCount := 0 })
  let (files, _) ← t.add (Files.layout db.pool) p
  some ({ db with files := files }, p)

/-- The class row is overwritten when its key is known, and `getClassFileRow` is then
given the id that stands at a released row. -/
def analyseEntry (db : GraphDb) (pJar : ℕ) (e : JarEntry) (c : ClassFile) : Option GraphDb := do
  let (pool, classfiles, rowId) ← addOrUpdateClassfile A db.pool db.files db.classfiles pJar e
    (Vector.replicate 40 0) c
  let _ ← classfiles.getRow rowId
  let graph ← extractNodes A rowId c
    { db.toCallGraphDb with pool := pool, classfiles := classfiles }
  some { db with toCallGraphDb := graph }

/-- `GraphTask::processClassFile` with the class row that `processEntry` found. -/
def processClassFile (options : Options) (garbage : ℕ → UInt8) (jarFilename : Bytes) (pJar : ℕ)
    (db : GraphDb) (results : Results) (e : JarEntry) (row : Option (Row ClassFileCols)) :
    Outcome (GraphDb × Results) :=
  match (match row with
    | none => some db
    | some row => db.deleteClass row.id) with
  | none => .undefined
  | some db =>
      match construct .memory e.content garbage with
      | none => .thrown
      | some reader =>
          match parse reader with
          | none =>
              let results := results.asFailedJarClass options.isDiff (e.strongClassname jarFilename)
              .returned (db, results.onJarClasses fun s => { s with errors := s.errors + 1 })
          | some (c, _) =>
              match analyseEntry A db pJar e c with
              | none => .undefined
              | some db => .returned (db, results)

end Jar

end Tarracsh.CallGraphAnalysis
