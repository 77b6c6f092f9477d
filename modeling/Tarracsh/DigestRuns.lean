import Tarracsh.DigestTasks
import Tarracsh.KeyedReactions
import Tarracsh.CallGraphInvariant

/-!
# A digest task as agents on a map

The class entries of a jar act on the map from class keys to stored classes.
Each one looks under its path and stores under the name that its class declares.
`processEntry` does what the rules say, and everything that it reports, counts
and remembers follows from the verdict.
-/
namespace Tarracsh.DigestRuns
open ByteStrings QueryTrees StreamReads StringPool ParsedClass ClassFileReader ClassFileParser
open ReaderRefinement TableModel TableInvariant DomainTables CallGraphTables CallGraphInvariant
open ClassFileDigest SafeConsumption JarEntries Reporting DigestTasks KeyedReactions

section Reading

/-- What the bytes of an entry are to a task. -/
inductive Reading where
  | rejected
  | accepted (classname : Bytes) (digest : DigestCol)
  deriving DecidableEq, Repr

variable (H : Bytes → Sha256)

def reading (garbage : ℕ → UInt8) (e : JarEntry) : Outcome Reading :=
  match construct .memory e.content garbage with
  | none => .thrown
  | some reader =>
      match parse reader with
      | none => .returned .rejected
      | some (c, _) => do
          let digest ← .ofOption (publicDigest H c)
          let classname ← .ofOption (getUniqueClassname e c)
          .returned (.accepted classname digest)

theorem reading_garbage (garbage garbage' : ℕ → UInt8) (e : JarEntry) :
    reading H garbage e = reading H garbage' e := by
  obtain ⟨hnone, hnone'⟩ | ⟨reader, reader', hreader, hreader', hcases⟩ :=
    memory_cases e.content garbage garbage'
  · rw [reading, reading, hnone, hnone']
  · rw [reading, reading, hreader, hreader']
    rcases hcases with ⟨hparse, hparse'⟩ | ⟨c, s, s', hparse, hparse'⟩
    · simp only [hparse, hparse']
    · simp only [hparse, hparse']

/-- A class entry that no reader throws at and no lookup fails for. -/
structure ReadEntry where
  entry : JarEntry
  reading : Reading
  reads : ∀ garbage, DigestRuns.reading H garbage entry = .returned reading

end Reading

/-- What a class row says, apart from its file. -/
structure ClassRecord where
  classname : Bytes
  size : UInt64
  crc : Int32
  lastWriteTime : UInt64
  digest : DigestCol
  deriving DecidableEq, Repr

def recordOf (pool : Pool) (r : ClassFileCols) : ClassRecord :=
  ⟨text pool r.classname, r.size, r.crc, r.lastWriteTime, r.digest⟩

/-- The class stored under a key. -/
def stored (db : DigestDb) (key : Bytes) : Option ClassRecord :=
  ((db.classfiles.findByKey key).bind db.classfiles.heap.lookup).map fun row =>
    recordOf db.pool row.cols

/-- `isClassfileUnchanged` for a row of a file that exists. -/
def upToDate (e : JarEntry) (r : ClassRecord) : Bool :=
  r.size == e.getSize && r.crc == e.crc && r.lastWriteTime == e.lastWriteTime

/-- What becomes of an entry. -/
inductive Verdict where
  | unchanged (digest : DigestCol)
  | modified (digest : DigestCol) (isSamePublicDigest : Bool)
  | new (digest : DigestCol)
  | failed (known : Bool)
  deriving DecidableEq, Repr

namespace Verdict

/-- The entry was found. -/
def known : Verdict → Bool
  | unchanged _ => true
  | modified _ _ => true
  | new _ => false
  | failed known => known

/-- The digest that goes into the map. -/
def digest : Verdict → Option DigestCol
  | unchanged d => some d
  | modified d _ => some d
  | new d => some d
  | failed _ => none

/-- The class was digested. -/
def digested : Verdict → Bool
  | modified _ _ => true
  | new _ => true
  | _ => false

end Verdict

section Rules
variable {H : Bytes → Sha256}

/-- The verdict on an entry that is digested. -/
def digestVerdict (reading : Reading) (found : Option ClassRecord) : Verdict :=
  match reading with
  | .rejected => .failed found.isSome
  | .accepted _ d =>
      match found with
      | some r => .modified d (d == r.digest)
      | none => .new d

def react (e : ReadEntry H) (found : Option ClassRecord) : Verdict :=
  match found.filter (upToDate e.entry) with
  | some r => .unchanged r.digest
  | none => digestVerdict e.reading found

/-- An entry counts as known exactly when something is stored under its path. -/
theorem react_known (e : ReadEntry H) (found : Option ClassRecord) :
    (react e found).known = found.isSome := by
  unfold react
  cases hfilter : found.filter (upToDate e.entry) with
  | some r =>
      have hmem := Option.eq_some_of_filter_eq_some hfilter
      rw [hmem]
      rfl
  | none =>
      unfold digestVerdict
      cases e.reading <;> cases found <;> rfl

/-- The name under which an accepted class is stored. -/
def ReadEntry.name (e : ReadEntry H) : Bytes :=
  match e.reading with
  | .rejected => e.entry.getClassname
  | .accepted classname _ => classname

/-- The record that an accepted class leaves. -/
def ReadEntry.record (e : ReadEntry H) : ClassRecord :=
  match e.reading with
  | .rejected => ⟨[], 0, 0, 0, Vector.replicate 40 0⟩
  | .accepted classname d => ⟨classname, e.entry.getSize, e.entry.crc, e.entry.lastWriteTime, d⟩

/-- The rules of a task over the jar with the given name. -/
def rules (H : Bytes → Sha256) (dryRun : Bool) (filename : Bytes) :
    Rules (ReadEntry H) Bytes ClassRecord Verdict where
  look e := e.entry.strongClassname filename
  react := react
  stores _ v := !dryRun && v.digested
  target e := DomainTables.getStrongClassname filename e.name
  record e := e.record

/-- What the report is told about an entry. -/
def reportVerdict (isDiff : Bool) (strongClassname : Bytes) (r : Results) : Verdict → Results
  | .unchanged _ => r.asUnchangedJarClass isDiff strongClassname
  | .modified _ same => (r.asModifiedJarClass isDiff strongClassname same).onJarClasses
      fun stats => { stats with parsedCount := stats.parsedCount + 1 }
  | .new _ => (r.asNewJarClass isDiff strongClassname).onJarClasses
      fun stats => { stats with parsedCount := stats.parsedCount + 1 }
  | .failed _ => (r.asFailedJarClass isDiff strongClassname).onJarClasses
      fun stats => { stats with errors := stats.errors + 1 }

/-- The results after an entry. -/
def report (options : Options) (filename : Bytes) (r : Results) (e : ReadEntry H) (v : Verdict) :
    Results :=
  (reportVerdict options.isDiff (e.entry.strongClassname filename) r v).onJarClasses fun stats =>
    { stats with
      count := stats.count + 1
      taskResult := { stats.taskResult with count := stats.taskResult.count + 1 } }

def remember (digestMap : Finmap fun _ : Bytes => DigestCol) (e : ReadEntry H) (v : Verdict) :
    Finmap fun _ : Bytes => DigestCol :=
  match v.digest with
  | some d => digestMap.insert e.entry.getClassname d
  | none => digestMap

def counted (classfileCount : UInt32) (v : Verdict) : UInt32 :=
  if v.known then classfileCount else classfileCount + 1

/-- What a task gathers besides the class rows. -/
structure Notes where
  classfileCount : UInt32
  digestMap : Finmap fun _ : Bytes => DigestCol
  results : Results

def note (options : Options) (filename : Bytes) (n : Notes) (x : ReadEntry H × Verdict) : Notes :=
  ⟨counted n.classfileCount x.2, remember n.digestMap x.1 x.2,
    report options filename n.results x.1 x.2⟩

def notesOf (s : TaskState) (row : Row FileCols) : Notes :=
  ⟨row.cols.classfileCount, s.task.digestMap, s.results⟩

end Rules

/-- The class entries of a jar, with names that are interned. -/
structure JarClasses {H : Bytes → Sha256} (words : List Bytes) (es : List (ReadEntry H)) :
    Prop where
  distinct : (es.map fun e => e.entry.name).Nodup
  classfiles : ∀ e ∈ es, e.entry.isClassfile
  names : ∀ e ∈ es, e.name ∈ words

namespace JarClasses
variable {H : Bytes → Sha256} {words : List Bytes} {es : List (ReadEntry H)}

theorem nodup (h : JarClasses words es) : es.Nodup := List.Nodup.of_map _ h.distinct

theorem eq_of_getClassname (h : JarClasses words es) {e e' : ReadEntry H} (he : e ∈ es)
    (he' : e' ∈ es) (hname : e.entry.getClassname = e'.entry.getClassname) : e = e' :=
  List.inj_on_of_nodup_map h.distinct he he'
    (name_eq_of_getClassname (h.classfiles e he) (h.classfiles e' he') hname)

/-- No two entries are looked up under one key. -/
theorem look_nodup (h : JarClasses words es) (dryRun : Bool) (filename : Bytes) :
    (es.map (rules H dryRun filename).look).Nodup := by
  apply h.nodup.map_on
  intro e he e' he' hlook
  exact h.eq_of_getClassname he he' (getStrongClassname_injective hlook)

theorem perm {es' : List (ReadEntry H)} (h : JarClasses words es) (hperm : es'.Perm es) :
    JarClasses words es' where
  distinct := (hperm.map _).nodup_iff.mpr h.distinct
  classfiles e he := h.classfiles e (hperm.mem_iff.mp he)
  names e he := h.names e (hperm.mem_iff.mp he)

end JarClasses

end Tarracsh.DigestRuns
