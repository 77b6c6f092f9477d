import Tarracsh.DigestMaps
import Tarracsh.FootprintSteps
import Tarracsh.StrongClassnames
import Mathlib.Algebra.Order.Group.Multiset
import Mathlib.Data.UInt

/-!
# The order of the inputs

`DigestAnalyzer` hands every jar and class file to a pool of threads. Whatever is
reported of an input is added to the results, and depends on nothing but the
record of its file and the classes under its name. Inputs whose strong class
names cannot clash leave the same database and the same account in any order, as
long as no record of a class file is overwritten.
-/
namespace Tarracsh.InputOrder
open ByteStrings QueryTrees StringPool ParsedClass TableModel TableInvariant DomainTables
open CallGraphTables CallGraphInvariant ClassFileDigest JarEntries Reporting DigestTasks DigestRuns
open DigestSimulation DigestOutcomes DigestAnalysis DryRuns DigestMaps KeyedReactions
open FootprintSteps StrongClassnames
open ClassOutcomes (InputTexts processAll)

section Tallies

/-- The counters of a `TaskResult`. -/
inductive TaskCounter where
  | unchangedCount | count | same | newFile | differentDigest
  deriving DecidableEq, Repr

/-- The counters of a `ClassfileStats`. -/
inductive StatsCounter where
  | count | parsedCount | errors
  | task (c : TaskCounter)
  deriving DecidableEq, Repr

/-- All counters of the results. -/
inductive Counter where
  | standalone (c : StatsCounter)
  | classfileCount
  | jars (c : TaskCounter)
  | jarClasses (c : StatsCounter)
  deriving DecidableEq, Repr

def TaskCounter.of (t : TaskResult) : TaskCounter → UInt32
  | unchangedCount => t.unchangedCount
  | count => t.count
  | same => t.same
  | newFile => t.newFile
  | differentDigest => t.differentDigest

def StatsCounter.of (s : ClassfileStats) : StatsCounter → UInt32
  | count => s.count
  | parsedCount => s.parsedCount
  | errors => s.errors
  | task c => c.of s.taskResult

def Counter.of (r : Results) : Counter → UInt32
  | standalone c => c.of r.standaloneClassfiles
  | classfileCount => r.jarfiles.classfileCount
  | jars c => c.of r.jarfiles.taskResult
  | jarClasses c => c.of r.jarfiles.classfiles

/-- The counters, and the records without their order. -/
abbrev Tally := (Counter → UInt32) × Multiset FileResult × Multiset ClassResult

def tally (r : Results) : Tally := (Counter.of r, r.fileResults, r.classResults)

/-- The results agree up to the order of the records. -/
structure SameAccount (r r' : Results) : Prop where
  counters : ∀ c, Counter.of r' c = Counter.of r c
  files : r'.fileResults.Perm r.fileResults
  classes : r'.classResults.Perm r.classResults

theorem sameAccount_iff {r r' : Results} : SameAccount r r' ↔ tally r' = tally r := by
  rw [tally, tally, Prod.mk.injEq, Prod.mk.injEq, Multiset.coe_eq_coe, Multiset.coe_eq_coe,
    funext_iff]
  exact ⟨fun h => ⟨h.counters, h.files, h.classes⟩, fun h => ⟨h.1, h.2.1, h.2.2⟩⟩

end Tallies

section Reports

/-- What `f` reports does not depend on what was there. -/
def AddsToTally (f : Results → Results) : Prop := ∃ reported, ∀ r, tally (f r) = tally r + reported

theorem AddsToTally.comp {f g : Results → Results} (hf : AddsToTally f) (hg : AddsToTally g) :
    AddsToTally fun r => f (g r) := by
  obtain ⟨x, hx⟩ := hf
  obtain ⟨y, hy⟩ := hg
  exact ⟨y + x, fun r => by rw [hx, hy, add_assoc]⟩

theorem adds_id : AddsToTally fun r => r := ⟨0, fun _ => (add_zero _).symm⟩

/-- Only the counters change, each by a fixed amount. -/
theorem adds_of_counters {f : Results → Results} (amount : Counter → UInt32)
    (hcounters : ∀ r c, Counter.of (f r) c = Counter.of r c + amount c)
    (hfiles : ∀ r, (f r).fileResults = r.fileResults)
    (hclasses : ∀ r, (f r).classResults = r.classResults) : AddsToTally f := by
  refine ⟨(amount, 0, 0), fun r => Prod.ext (funext (hcounters r)) ?_⟩
  rw [tally, hfiles, hclasses]
  exact (add_zero _).symm

theorem adds_addFile (isDiff : Bool) (file : FileResult) :
    AddsToTally fun r => r.addFile isDiff file := by
  cases isDiff with
  | true => exact ⟨(0, {file}, 0), fun _ => Prod.ext (add_zero _).symm
      (Prod.ext rfl (add_zero _).symm)⟩
  | false => exact adds_id

theorem adds_addClass (record : ClassResult) : AddsToTally fun r => r.addClass record :=
  ⟨(0, 0, {record}), fun _ => Prod.ext (add_zero _).symm (Prod.ext (add_zero _).symm rfl)⟩

theorem adds_addClassIf (isDiff : Bool) (record : ClassResult) :
    AddsToTally fun r => r.addClassIf isDiff record := by
  cases isDiff with
  | true => exact adds_addClass record
  | false => exact adds_id

/-- Every counter is raised by a fixed amount. -/
def RaisesTask (f : TaskResult → TaskResult) : Prop :=
  ∃ amount : TaskCounter → UInt32, ∀ t c, TaskCounter.of (f t) c = TaskCounter.of t c + amount c

def RaisesStats (f : ClassfileStats → ClassfileStats) : Prop :=
  ∃ amount : StatsCounter → UInt32, ∀ s c, StatsCounter.of (f s) c = StatsCounter.of s c + amount c

theorem raises_addNew : RaisesTask TaskResult.addNew :=
  ⟨fun c => if c = .newFile then 1 else 0, fun t c => by
    cases c <;> simp [TaskCounter.of, TaskResult.addNew]⟩

theorem raises_addUnchanged : RaisesTask TaskResult.addUnchanged :=
  ⟨fun c => if c = .unchangedCount then 1 else 0, fun t c => by
    cases c <;> simp [TaskCounter.of, TaskResult.addUnchanged]⟩

theorem raises_addModified (same : Bool) : RaisesTask fun t => t.addModified same :=
  ⟨fun c => if c = (if same then .same else .differentDigest) then 1 else 0, fun t c => by
    cases same <;> cases c <;> simp [TaskCounter.of, TaskResult.addModified]⟩

theorem raises_counts (count unchangedCount : UInt32) : RaisesTask fun t =>
    { t with count := t.count + count, unchangedCount := t.unchangedCount + unchangedCount } :=
  ⟨fun c => match c with
    | .count => count
    | .unchangedCount => unchangedCount
    | _ => 0, fun t c => by cases c <;> simp [TaskCounter.of]⟩

/-- A change of the counters of tasks within those of class files. -/
theorem raises_task {f : TaskResult → TaskResult} (hf : RaisesTask f) :
    RaisesStats fun s => { s with taskResult := f s.taskResult } := by
  obtain ⟨amount, hamount⟩ := hf
  refine ⟨fun c => match c with
    | .task c => amount c
    | _ => 0, fun s c => ?_⟩
  cases c with
  | task c => exact hamount s.taskResult c
  | count => exact (add_zero _).symm
  | parsedCount => exact (add_zero _).symm
  | errors => exact (add_zero _).symm

theorem raises_stats (count parsedCount errors : UInt32) : RaisesStats fun s =>
    { s with
      count := s.count + count
      parsedCount := s.parsedCount + parsedCount
      errors := s.errors + errors } :=
  ⟨fun c => match c with
    | .count => count
    | .parsedCount => parsedCount
    | .errors => errors
    | .task _ => 0, fun s c => by cases c <;> simp [StatsCounter.of]⟩

theorem adds_standalone {f : ClassfileStats → ClassfileStats} (hf : RaisesStats f) :
    AddsToTally fun r => { r with standaloneClassfiles := f r.standaloneClassfiles } := by
  obtain ⟨amount, hamount⟩ := hf
  refine adds_of_counters (fun c => match c with
    | .standalone c => amount c
    | _ => 0) (fun r c => ?_) (fun _ => rfl) fun _ => rfl
  cases c with
  | standalone c => exact hamount r.standaloneClassfiles c
  | classfileCount => exact (add_zero _).symm
  | jars c => exact (add_zero _).symm
  | jarClasses c => exact (add_zero _).symm

theorem adds_onJarClasses {f : ClassfileStats → ClassfileStats} (hf : RaisesStats f) :
    AddsToTally fun r => r.onJarClasses f := by
  obtain ⟨amount, hamount⟩ := hf
  refine adds_of_counters (fun c => match c with
    | .jarClasses c => amount c
    | _ => 0) (fun r c => ?_) (fun _ => rfl) fun _ => rfl
  cases c with
  | jarClasses c => exact hamount r.jarfiles.classfiles c
  | classfileCount => exact (add_zero _).symm
  | jars c => exact (add_zero _).symm
  | standalone c => exact (add_zero _).symm

/-- A change of the counters of jars. -/
theorem adds_jars {f : TaskResult → TaskResult} (hf : RaisesTask f) (classfileCount : UInt32) :
    AddsToTally fun r => { r with jarfiles := { r.jarfiles with
      taskResult := f r.jarfiles.taskResult
      classfileCount := r.jarfiles.classfileCount + classfileCount } } := by
  obtain ⟨amount, hamount⟩ := hf
  refine adds_of_counters (fun c => match c with
    | .jars c => amount c
    | .classfileCount => classfileCount
    | _ => 0) (fun r c => ?_) (fun _ => rfl) fun _ => rfl
  cases c with
  | jars c => exact hamount r.jarfiles.taskResult c
  | classfileCount => rfl
  | standalone c => exact (add_zero _).symm
  | jarClasses c => exact (add_zero _).symm

end Reports

section Inputs
variable (isDiff : Bool)

theorem adds_asNewClassFile (name : Bytes) : AddsToTally fun r => r.asNewClassFile isDiff name :=
  ((adds_addClass _).comp (adds_addFile isDiff _)).comp (adds_standalone (raises_task raises_addNew))

theorem adds_asModifiedClassFile (same : Bool) (name : Bytes) :
    AddsToTally fun r => r.asModifiedClassFile isDiff same name :=
  ((adds_addClass _).comp (adds_addFile isDiff _)).comp
    (adds_standalone (raises_task (raises_addModified same)))

theorem adds_asUnchangedClassFile (name : Bytes) :
    AddsToTally fun r => r.asUnchangedClassFile isDiff name :=
  (adds_addFile isDiff _).comp (adds_standalone (raises_task raises_addUnchanged))

theorem adds_asFailedClassFile (name : Bytes) :
    AddsToTally fun r => r.asFailedClassFile isDiff name := by
  have h := (adds_addFile isDiff
    { filename := name, isSamePublicDigest := false, failed := true }).comp
      (adds_standalone (raises_stats 0 0 1))
  simp only [UInt32.add_zero] at h
  exact h

theorem adds_counting : AddsToTally counting := by
  have h := adds_standalone (raises_task (raises_counts 1 0))
  simp only [UInt32.add_zero] at h
  exact h

theorem adds_reportFile (name : Bytes) (digest : DigestCol) (found : Option FileCols) :
    AddsToTally fun r => reportFile r isDiff name digest found := by
  have hparsed : AddsToTally countingParsed := by
    have h := adds_standalone (raises_stats 0 1 0)
    simp only [UInt32.add_zero] at h
    exact h
  cases found with
  | none => exact hparsed.comp (adds_asNewClassFile isDiff name)
  | some row => exact hparsed.comp (adds_asModifiedClassFile isDiff (digest == row.digest) name)

theorem adds_reportVerdict (name : Bytes) (v : Verdict) :
    AddsToTally fun r => reportVerdict isDiff name r v := by
  cases v with
  | unchanged d =>
      exact (adds_addClassIf isDiff _).comp (adds_onJarClasses (raises_task raises_addUnchanged))
  | modified d same =>
      have h := (adds_onJarClasses (raises_stats 0 1 0)).comp ((adds_addClassIf isDiff
        { strongClassname := name, isModified := true, isSamePublicDigest := same }).comp
          (adds_onJarClasses (raises_task (raises_addModified same))))
      simp only [UInt32.add_zero] at h
      exact h
  | new d =>
      have h := (adds_onJarClasses (raises_stats 0 1 0)).comp ((adds_addClassIf isDiff
        { strongClassname := name, isNew := true }).comp
          (adds_onJarClasses (raises_task raises_addNew)))
      simp only [UInt32.add_zero] at h
      exact h
  | failed known =>
      have h := (adds_onJarClasses (raises_stats 0 0 1)).comp ((adds_addClassIf isDiff
        { strongClassname := name, isSamePublicDigest := true }).comp
          (adds_onJarClasses (raises_stats 0 0 1)))
      simp only [UInt32.add_zero] at h
      exact h

theorem adds_countJar (row : FileCols) : AddsToTally fun r => countJar r row := by
  have h := adds_jars (raises_counts 1 0) row.classfileCount
  simp only [UInt32.add_zero] at h
  exact h

variable {H : Bytes → Sha256} (options : Options)

theorem adds_report (filename : Bytes) (e : ReadEntry H) (v : Verdict) :
    AddsToTally fun r => report options filename r e v := by
  have hcount := (adds_onJarClasses (raises_stats 1 0 0)).comp
    ((adds_onJarClasses (raises_task (raises_counts 1 0))).comp
      (adds_reportVerdict options.isDiff (e.entry.strongClassname filename) v))
  simp only [UInt32.add_zero] at hcount
  exact hcount

theorem adds_skipJar (jar : JarFile) (record : FileCols) :
    AddsToTally fun r => skipJar options jar record r := by
  have hskip := ((adds_addFile options.isDiff { filename := jar.filename }).comp
    (adds_jars raises_addUnchanged 0)).comp ((adds_onJarClasses (raises_task
      (raises_counts record.classfileCount record.classfileCount))).comp (adds_countJar record))
  simp only [UInt32.add_zero] at hskip
  exact hskip

theorem adds_reportJar (jar : JarFile) (isNewJarFile : Bool) (record : FileCols)
    (digest : DigestCol) :
    AddsToTally fun r => reportJar options jar isNewJarFile (countJar r record) record digest := by
  have hnew := (adds_addFile options.isDiff
    { filename := jar.filename, isNew := true, isSamePublicDigest := false }).comp
      (adds_jars raises_addNew 0)
  have hmodified := (adds_addFile options.isDiff
    { filename := jar.filename, isModified := true,
      isSamePublicDigest := record.digest == digest }).comp
      (adds_jars (raises_addModified (record.digest == digest)) 0)
  simp only [UInt32.add_zero] at hnew hmodified
  cases isNewJarFile with
  | true => exact hnew.comp (adds_countJar record)
  | false => exact hmodified.comp (adds_countJar record)

/-- What the entries leave, and what is reported of them. -/
theorem foldl_note (filename : Bytes) (xs : List (ReadEntry H × Verdict)) (count : UInt32)
    (digestMap : Finmap fun _ : Bytes => DigestCol) (r : Results) :
    (xs.foldl (note options filename) ⟨count, digestMap, r⟩).classfileCount =
        (xs.foldl (note options filename) ⟨count, digestMap, {}⟩).classfileCount ∧
      (xs.foldl (note options filename) ⟨count, digestMap, r⟩).digestMap =
        (xs.foldl (note options filename) ⟨count, digestMap, {}⟩).digestMap ∧
      (xs.foldl (note options filename) ⟨count, digestMap, r⟩).results =
        xs.foldl (fun r x => report options filename r x.1 x.2) r := by
  induction xs generalizing count digestMap r with
  | nil => exact ⟨rfl, rfl, rfl⟩
  | cons x xs ih =>
      have hr := ih (counted count x.2) (remember digestMap x.1 x.2)
        (report options filename r x.1 x.2)
      have hempty := ih (counted count x.2) (remember digestMap x.1 x.2)
        (report options filename {} x.1 x.2)
      exact ⟨hr.1.trans hempty.1.symm, hr.2.1.trans hempty.2.1.symm, hr.2.2⟩

theorem adds_entries (filename : Bytes) (xs : List (ReadEntry H × Verdict)) :
    AddsToTally fun r => xs.foldl (fun r x => report options filename r x.1 x.2) r := by
  induction xs with
  | nil => exact adds_id
  | cons x xs ih => exact ih.comp (adds_report options filename x.1 x.2)

end Inputs

theorem tally_nothing : tally {} = 0 := by
  refine Prod.ext (funext fun c => ?_) rfl
  rcases c with (_ | _ | _ | (_ | _)) | _ | (_ | _) | (_ | _ | _ | (_ | _)) <;> rfl

theorem AddsToTally.tally_eq {f : Results → Results} (hf : AddsToTally f) (r : Results) :
    tally (f r) = tally r + tally (f {}) := by
  obtain ⟨reported, hreported⟩ := hf
  rw [hreported r, hreported {}, tally_nothing, zero_add]

/-- The file or jar of an input. -/
def nameOf {H : Bytes → Sha256} : Input H → Bytes
  | .jar f _ => f.filename
  | .classFile file => file.info.filename

section Steps
variable {H : Bytes → Sha256} (garbage : ℕ → UInt8) (options : Options)

/-- The maps do not depend on the results, and the results are added to. -/
theorem digestInput_adds (x : Input H) (m : Maps) (r : Results) :
    (digestInput H garbage options (m, r) x).1 = (digestInput H garbage options (m, {}) x).1 ∧
      tally (digestInput H garbage options (m, r) x).2 =
        tally r + tally (digestInput H garbage options (m, {}) x).2 := by
  cases x with
  | classFile file =>
      simp only [digestInput, digestClassFile]
      by_cases hskip : (options.useFileTimestamp &&
          (m.files file.info.filename).any fun record =>
            record.fileSize == file.info.size && record.lastWriteTime == file.info.timestamp) = true
      · simp only [if_pos hskip]
        exact ⟨trivial, ((adds_asUnchangedClassFile options.isDiff _).comp adds_counting).tally_eq r⟩
      · simp only [if_neg hskip]
        cases fileReading H garbage file.info with
        | rejected =>
            exact ⟨rfl, ((adds_asFailedClassFile options.isDiff _).comp adds_counting).tally_eq r⟩
        | accepted classname digest =>
            have hreport := ((adds_reportFile options.isDiff
              (DomainTables.getStrongClassname file.info.filename classname) digest
              (m.files file.info.filename)).comp adds_counting).tally_eq r
            exact ⟨rfl, hreport⟩
  | jar jar es =>
      simp only [digestInput, digestJar]
      cases (m.files jar.filename).filter (isFileUnchanged options jar false) with
      | some record => exact ⟨rfl, (adds_skipJar options jar record).tally_eq r⟩
      | none =>
          obtain ⟨hcount, hdigestMap, hresults⟩ := foldl_note options jar.filename
            ((rules H options.dryRun jar.filename).verdicts m.classes es)
            ((m.files jar.filename).getD (newJar jar)).classfileCount ∅ r
          obtain ⟨-, -, hnothing⟩ := foldl_note options jar.filename
            ((rules H options.dryRun jar.filename).verdicts m.classes es)
            ((m.files jar.filename).getD (newJar jar)).classfileCount ∅ {}
          have hcounted : countedJar H options jar es m r = countedJar H options jar es m {} := by
            rw [countedJar, gathered, hcount]
            rfl
          have hdigest : digestOf H (gathered H options jar es m r).digestMap =
              digestOf H (gathered H options jar es m {}).digestMap := by
            rw [gathered, hdigestMap]
            rfl
          refine ⟨?_, ?_⟩
          · simp only [digestEntries, recorded, hcounted, hdigest]
          · simp only [digestEntries, hcounted, hdigest]
            rw [gathered, hresults, gathered, hnothing]
            exact ((adds_reportJar options jar _ _ _).comp (adds_entries options jar.filename _)
              ).tally_eq r

/-- The strong class names under a file name. -/
def keysOf (filename : Bytes) : Set Bytes :=
  { key | ∃ classname, DomainTables.getStrongClassname filename classname = key }

theorem storeClassFile_frame (info : ClassFileInfo) (classname : Bytes) (digest : DigestCol)
    (m : Maps) :
    (∀ filename, filename ≠ info.filename →
      (storeClassFile options info classname digest m).files filename = m.files filename) ∧
    ∀ key, key ∉ keysOf info.filename →
      (storeClassFile options info classname digest m).classes key = m.classes key := by
  rw [storeClassFile]
  split_ifs
  · exact ⟨fun _ _ => rfl, fun _ _ => rfl⟩
  · refine ⟨fun filename hne => Function.update_of_ne hne _ _, fun key hkey => ?_⟩
    refine Function.update_of_ne ?_ _ _
    rintro rfl
    exact hkey ⟨classname, rfl⟩

/-- An input changes the record of its file and classes under its name. -/
theorem digestInput_frame (x : Input H) (m : Maps) (r : Results) :
    (∀ filename, filename ≠ nameOf x →
      (digestInput H garbage options (m, r) x).1.files filename = m.files filename) ∧
    ∀ key, key ∉ keysOf (nameOf x) →
      (digestInput H garbage options (m, r) x).1.classes key = m.classes key := by
  cases x with
  | classFile file =>
      simp only [digestInput, digestClassFile]
      split_ifs
      · exact ⟨fun _ _ => rfl, fun _ _ => rfl⟩
      · cases fileReading H garbage file.info with
        | rejected => exact ⟨fun _ _ => rfl, fun _ _ => rfl⟩
        | accepted classname digest =>
            exact storeClassFile_frame options file.info classname digest m
  | jar jar es =>
      simp only [digestInput, digestJar]
      cases (m.files jar.filename).filter (isFileUnchanged options jar false) with
      | some record => exact ⟨fun _ _ => rfl, fun _ _ => rfl⟩
      | none =>
          refine ⟨fun filename hne => Function.update_of_ne hne _ _, fun key hkey => ?_⟩
          apply after_of_notMem
          rintro e - rfl
          exact hkey ⟨e.name, rfl⟩

/-- Maps that agree on what an input reads. -/
structure AgreeOn (filename : Bytes) (m m' : Maps) : Prop where
  files : m.files filename = m'.files filename
  classes : ∀ key ∈ keysOf filename, m.classes key = m'.classes key

theorem AgreeOn.trans {f : Bytes} {m m' m'' : Maps} (h : AgreeOn f m m') (h' : AgreeOn f m' m'') :
    AgreeOn f m m'' :=
  ⟨h.files.trans h'.files, fun key hkey => (h.classes key hkey).trans (h'.classes key hkey)⟩

theorem storeClassFile_reads (info : ClassFileInfo) (classname : Bytes) (digest : DigestCol)
    {m m' : Maps} (h : AgreeOn info.filename m m') :
    AgreeOn info.filename (storeClassFile options info classname digest m)
      (storeClassFile options info classname digest m') := by
  rw [storeClassFile, storeClassFile]
  split_ifs
  · exact h
  · refine ⟨?_, fun key hkey => ?_⟩
    · simp only [Function.update_self]
    · simp only [Function.update_apply, h.classes key hkey]

theorem digestInput_reads (x : Input H) {m m' : Maps} (h : AgreeOn (nameOf x) m m') :
    (digestInput H garbage options (m, {}) x).2 = (digestInput H garbage options (m', {}) x).2 ∧
      AgreeOn (nameOf x) (digestInput H garbage options (m, {}) x).1
        (digestInput H garbage options (m', {}) x).1 := by
  cases x with
  | classFile file =>
      have hfiles : m.files file.info.filename = m'.files file.info.filename := h.files
      simp only [digestInput, digestClassFile, hfiles]
      split_ifs
      · exact ⟨rfl, h⟩
      · cases fileReading H garbage file.info with
        | rejected => exact ⟨rfl, h⟩
        | accepted classname digest =>
            exact ⟨rfl, storeClassFile_reads options file.info classname digest h⟩
  | jar jar es =>
      have hfiles : m.files jar.filename = m'.files jar.filename := h.files
      have hlook : ∀ e ∈ es, (rules H options.dryRun jar.filename).look e ∈ keysOf jar.filename :=
        fun e _ => ⟨e.entry.getClassname, rfl⟩
      obtain ⟨hverdicts, hafter⟩ := run_congr hlook h.classes
      have hgathered : gathered H options jar es m {} = gathered H options jar es m' {} := by
        rw [gathered, gathered, hverdicts, hfiles]
      have hcounted : countedJar H options jar es m {} = countedJar H options jar es m' {} := by
        rw [countedJar, countedJar, hgathered, hfiles]
      simp only [digestInput, digestJar, hfiles]
      cases (m'.files jar.filename).filter (isFileUnchanged options jar false) with
      | some record => exact ⟨rfl, h⟩
      | none =>
          refine ⟨?_, ⟨?_, hafter⟩⟩
          · simp only [digestEntries, hgathered, hcounted, hfiles]
          · simp only [digestEntries, recorded, nameOf, hgathered, hcounted, hfiles,
              Function.update_self]

/-- The records of files and of classes. -/
def Cell : Bytes ⊕ Bytes → Type
  | .inl _ => Option FileCols
  | .inr _ => Option ClassRecord

def cells (m : Maps) : ∀ k, Cell k
  | .inl filename => m.files filename
  | .inr key => m.classes key

def ofCells (s : ∀ k, Cell k) : Maps := ⟨fun filename => s (.inl filename), fun key => s (.inr key)⟩

/-- An input as a step on the records. -/
def stepOf (x : Input H) : Step (Bytes ⊕ Bytes) Cell Tally where
  footprint := { k | k = .inl (nameOf x) ∨ ∃ key ∈ keysOf (nameOf x), k = .inr key }
  effect s := cells (digestInput H garbage options (ofCells s, {}) x).1
  pay s := tally (digestInput H garbage options (ofCells s, {}) x).2

theorem stepOf_local (x : Input H) : (stepOf garbage options x).Local where
  frame s k hk := by
    obtain ⟨hfiles, hclasses⟩ := digestInput_frame garbage options x (ofCells s) {}
    cases k with
    | inl filename => exact hfiles filename fun hname => hk (.inl (by rw [hname]))
    | inr key => exact hclasses key fun hkey => hk (.inr ⟨key, hkey, rfl⟩)
  reads s s' hsame := by
    have hagree : AgreeOn (nameOf x) (ofCells s) (ofCells s') :=
      ⟨hsame (.inl (nameOf x)) (.inl rfl), fun key hkey => hsame (.inr key) (.inr ⟨key, hkey, rfl⟩)⟩
    obtain ⟨hresults, hagree'⟩ := digestInput_reads garbage options x hagree
    refine ⟨congrArg tally hresults, ?_⟩
    rintro k (rfl | ⟨key, hkey, rfl⟩)
    · exact hagree'.files
    · exact hagree'.classes key hkey

/-- A run is a run of steps. -/
theorem digestAll_eq (xs : List (Input H)) (m : Maps) (r : Results) :
    FootprintSteps.run (cells m, tally r) (xs.map (stepOf garbage options)) =
      (cells (digestAll H garbage options (m, r) xs).1,
        tally (digestAll H garbage options (m, r) xs).2) := by
  induction xs generalizing m r with
  | nil => rfl
  | cons x xs ih =>
      obtain ⟨hmaps, hresults⟩ := digestInput_adds garbage options x m r
      rw [List.map_cons, FootprintSteps.run, List.foldl_cons, ← FootprintSteps.run]
      have hstep : perform (cells m, tally r) (stepOf garbage options x) =
          (cells (digestInput H garbage options (m, r) x).1,
            tally (digestInput H garbage options (m, r) x).2) := by
        rw [hmaps, hresults]
        rfl
      rw [hstep, ih]
      rfl

end Steps

/-- No strong class name belongs to both files. -/
def Separate (f g : Bytes) : Prop :=
  ∀ c d, DomainTables.getStrongClassname f c ≠ DomainTables.getStrongClassname g d

theorem Separate.ne {f g : Bytes} (h : Separate f g) : f ≠ g := by
  rintro rfl
  exact h [] [] rfl

theorem Separate.symm {f g : Bytes} (h : Separate f g) : Separate g f :=
  fun c d hsame => h d c hsame.symm

theorem Separate.not_mem {f g key : Bytes} (h : Separate f g) (hkey : key ∈ keysOf f) :
    key ∉ keysOf g := by
  obtain ⟨c, rfl⟩ := hkey
  rintro ⟨d, hd⟩
  exact h c d hd.symm

theorem apart_of_separate {H : Bytes → Sha256} (garbage : ℕ → UInt8) (options : Options)
    {x y : Input H} (h : Separate (nameOf x) (nameOf y)) :
    (stepOf garbage options x).Apart (stepOf garbage options y) := by
  rintro k (rfl | ⟨key, ⟨c, rfl⟩, rfl⟩) (hk | ⟨key', ⟨d, rfl⟩, hk⟩)
  · exact h.ne (Sum.inl.inj hk)
  · cases hk
  · cases hk
  · exact h c d (Sum.inr.inj hk)

instance {H : Bytes → Sha256} : Std.Symm fun x y : Input H => Separate (nameOf x) (nameOf y) :=
  ⟨fun _ _ h => h.symm⟩

section Separated
variable {H : Bytes → Sha256} {garbage : ℕ → UInt8} {options : Options} {m m' : Maps}
  {xs : List (Input H)}

theorem keepsFiles_congr {x : Input H} (h : KeepsFiles H garbage options m x)
    (hagree : AgreeOn (nameOf x) m' m) : KeepsFiles H garbage options m' x := by
  cases x with
  | jar jar es => trivial
  | classFile file =>
      have hfiles : m'.files file.info.filename = m.files file.info.filename := hagree.files
      simp only [KeepsFiles, storedClass, hfiles]
      exact h

/-- Inputs with separate names find what was there before all of them. -/
theorem throughout_of_separate (hseparate : xs.Pairwise fun x y => Separate (nameOf x) (nameOf y))
    (hkeeps : ∀ x ∈ xs, KeepsFiles H garbage options m x) (r : Results) :
    Throughout H garbage options (KeepsFiles H garbage options) (m, r) xs := by
  induction xs generalizing m r with
  | nil => trivial
  | cons x xs ih =>
      rw [List.pairwise_cons] at hseparate
      obtain ⟨hfiles, hclasses⟩ := digestInput_frame garbage options x m r
      refine ⟨hkeeps x List.mem_cons_self, ih hseparate.2 (fun y hy => ?_) _⟩
      have hapart := (hseparate.1 y hy).symm
      exact keepsFiles_congr (hkeeps y (List.mem_cons_of_mem x hy))
        ⟨hfiles _ hapart.ne, fun key hkey => hclasses key (hapart.not_mem hkey)⟩

end Separated

section Runs
variable (A A' : ∀ α : Type, Allocator α) {H : Bytes → Sha256} (garbage : ℕ → UInt8)
  (options : Options) {words : List Bytes} {db : DigestDb} {fs : List (Row FileCols)}
  {cs : List (Row ClassFileCols)}

/-- Inputs with separate names may be digested in any order. -/
theorem inputs_in_any_order (hw : Lexicon words) (h : Valid words db fs cs)
    {xs ys : List (Input H)} (hperm : xs.Perm ys)
    (hxs : ∀ x ∈ xs, InputTexts garbage words x) (hroom : fs.length + xs.length < 2 ^ 64 - 1)
    (hseparate : xs.Pairwise fun x y => Separate (nameOf x) (nameOf y))
    (hkeeps : ∀ x ∈ xs, KeepsFiles H garbage options (maps db) x) (r : Results) :
    ∃ out out', processAll A garbage options (db, r) xs = .returned out ∧
      processAll A' garbage options (db, r) ys = .returned out' ∧
      maps out'.1 = maps out.1 ∧ SameAccount out.2 out'.2 := by
  have hseparate' : ys.Pairwise fun x y => Separate (nameOf x) (nameOf y) :=
    (hperm.pairwise_iff fun h => h.symm).mp hseparate
  obtain ⟨db₁, r₁, fs₁, cs₁, hrun, -, -, hdigested, -⟩ := processAll_spec A garbage options hw xs
    hxs h hroom r (throughout_of_separate hseparate hkeeps r)
  obtain ⟨db₂, r₂, fs₂, cs₂, hrun', -, -, hdigested', -⟩ := processAll_spec A' garbage options hw ys
    (fun y hy => hxs y (hperm.mem_iff.mpr hy)) h (by rwa [← hperm.length_eq]) r
    (throughout_of_separate hseparate' (fun y hy => hkeeps y (hperm.mem_iff.mpr hy)) r)
  have hsteps := run_perm (hperm.map (stepOf garbage options))
    (fun a ha => by
      obtain ⟨x, -, rfl⟩ := List.mem_map.mp ha
      exact stepOf_local garbage options x)
    (fun a ha b hb => by
      obtain ⟨x, hx, rfl⟩ := List.mem_map.mp ha
      obtain ⟨y, hy, rfl⟩ := List.mem_map.mp hb
      by_cases hxy : x = y
      · exact .inl (congrArg _ hxy)
      · exact .inr (apart_of_separate garbage options
          (hseparate.forall hx hy hxy)))
    (cells (maps db), tally r)
  rw [digestAll_eq, digestAll_eq, ← hdigested, ← hdigested', Prod.mk.injEq] at hsteps
  refine ⟨(db₁, r₁), (db₂, r₂), hrun, hrun', ?_, sameAccount_iff.mpr hsteps.2.symm⟩
  exact congrArg ofCells hsteps.1.symm

end Runs

theorem filenameOf_getStrongClassname {filename : Bytes} (h : separator ∉ filename) (c : Bytes) :
    Results.filenameOf (DomainTables.getStrongClassname filename c) = filename := by
  rw [DomainTables.getStrongClassname]
  split_ifs
  · exact filenameOf_of_not_mem h
  · rw [ascii_separator, List.append_assoc]
    exact (filenameOf_append c).mpr h

/-- File names without the separator cannot clash. -/
theorem separate_of_not_mem {f g : Bytes} (hf : separator ∉ f) (hg : separator ∉ g) (hne : f ≠ g) :
    Separate f g := by
  intro c d hsame
  apply hne
  rw [← filenameOf_getStrongClassname hf c, hsame, filenameOf_getStrongClassname hg d]

theorem inputs_in_any_order_sample :
    ∃ db out out', DigestDb.create = some db ∧
      processAll Allocator.next (fun _ => 0) { isDiff := true } (db, {})
        [.jar sampleJar [entryA], .classFile sampleFile] = .returned out ∧
      processAll skipOne (fun _ => 0) { isDiff := true } (db, {})
        [.classFile sampleFile, .jar sampleJar [entryA]] = .returned out' ∧
      maps out'.1 = maps out.1 ∧ SameAccount out.2 out'.2 := by
  obtain ⟨db, hcreate, hvalid, -⟩ := create_valid ClassOutcomes.outcomeWords (by decide)
  have htexts : ∀ x ∈ [(Input.jar sampleJar [entryA] : Input sampleHash),
      .classFile sampleFile], InputTexts (fun _ => 0) ClassOutcomes.outcomeWords x := by
    simp only [List.forall_mem_cons, List.not_mem_nil, false_imp_iff, implies_true, and_true]
    refine ⟨⟨by decide, fun e he => ?_⟩, ClassOutcomes.inputTexts_sampleFile _⟩
    rw [List.mem_singleton.mp he]
    decide
  have hapart : Separate sampleJar.filename sampleFile.info.filename :=
    separate_of_not_mem (by decide) (by decide) (by decide)
  have hkeeps : ∀ x ∈ [(Input.jar sampleJar [entryA] : Input sampleHash), .classFile sampleFile],
      KeepsFiles sampleHash (fun _ => 0) { isDiff := true } (maps db) x := by
    simp only [List.forall_mem_cons, List.not_mem_nil, false_imp_iff, implies_true, and_true]
    exact ⟨trivial, keepsFiles_sampleFile _ _ _⟩
  obtain ⟨out, out', hrun, hrun', hmaps, hresults⟩ := inputs_in_any_order Allocator.next skipOne
    (fun _ => 0) { isDiff := true } ClassOutcomes.lexicon_outcomeWords hvalid (List.Perm.swap _ _ [])
    htexts (by decide) (List.pairwise_pair.mpr hapart) hkeeps {}
  exact ⟨db, out, out', hcreate, hrun, hrun', hmaps, hresults⟩

end Tarracsh.InputOrder
