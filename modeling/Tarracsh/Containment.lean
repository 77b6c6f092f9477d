import Tarracsh.DigestAnalysis
import Tarracsh.DigestStability
import Tarracsh.GraphSoundness
import Tarracsh.ReaderAgreement

/-!
# Malformed class files

A reader reads the header in its constructor, outside the block of the parser
that catches exceptions. The parser notices everything else that is wrong with
the layout, but the indices of a class are followed only after it returned.
-/
namespace Tarracsh.Containment
open ByteStrings QueryTrees StreamReads StringPool ParsedClass ClassFileReader ClassFileParser
open ReaderRefinement ReaderAgreement TableModel TableInvariant DomainTables CallGraphTables
open CallGraphInvariant ClassFileDigest PoolAlignment SafeConsumption JarEntries Reporting
open NodeHistory CallGraphAnalysis DigestTasks DigestRuns DigestSimulation DigestOutcomes
open DigestView DigestAnalysis DigestStability GraphSoundness

section Header

/-- The magic number in one of the two byte orders. -/
def Magic (bytes : Bytes) : Prop :=
  hostU4 bytes = 0xcafebabe ∨ hostU4 bytes = swapLong 0xcafebabe

instance (bytes : Bytes) : Decidable (Magic bytes) := inferInstanceAs (Decidable (_ ∨ _))

/-- The constructor of a reader finds everything it reads. -/
def HeaderComplete (content : Bytes) : Prop :=
  4 ≤ content.length ∧ (Magic (content.take 4) → 8 ≤ content.length)

instance (content : Bytes) : Decidable (HeaderComplete content) :=
  inferInstanceAs (Decidable (_ ∧ _))

theorem constructed_iff_headerComplete (kind : Kind) (content : Bytes) (garbage : ℕ → UInt8) :
    (construct kind content garbage).isSome ↔ HeaderComplete content := by
  rw [construct_isSome_iff, HeaderComplete, Magic]
  unfold readHeader
  by_cases h4 : 4 ≤ content.length
  · simp only [run_ask, dealing, fromList, h4, if_true, Option.bind_some, true_and]
    by_cases hmagic : hostU4 (content.take 4) = 0xcafebabe ∨
        hostU4 (content.take 4) = swapLong 0xcafebabe
    · have hvalid : (hostU4 (content.take 4) == 0xcafebabe ||
          hostU4 (content.take 4) == swapLong 0xcafebabe) = true := by
        simpa using hmagic
      rw [if_pos hvalid]
      simp only [hmagic, forall_const, run_bind, readU2, run_ask, fromList, List.length_drop]
      by_cases h6 : 2 ≤ content.length - 4
      · by_cases h8 : 2 ≤ content.length - 4 - 2
        · simp only [h6, h8, if_true, Option.bind_some, run_pure, List.length_drop]
          simp only [Option.isSome_some, true_iff]
          omega
        · simp only [h6, h8, if_true, if_false, Option.bind_some, run_pure, List.length_drop,
            Option.bind_none, Option.isSome_none, Bool.false_eq_true, false_iff]
          omega
      · simp only [h6, if_false, Option.bind_none, Option.isSome_none, Bool.false_eq_true,
          false_iff]
        omega
    · have hvalid : ¬(hostU4 (content.take 4) == 0xcafebabe ||
          hostU4 (content.take 4) == swapLong 0xcafebabe) = true := by
        simpa using hmagic
      rw [if_neg hvalid]
      simp [hmagic]
  · simp [dealing, fromList, h4]

end Header

section Lookups

/-- The indices that the digest of a class follows lead to entries of the kind
they are read as. -/
structure DigestResolves (c : ClassFile) : Prop where
  thisClass : c.mainClassInfo.thisClass = 0 ∨ IsClass c.constantPool c.mainClassInfo.thisClass
  superClass : c.mainClassInfo.superClass = 0 ∨ IsClass c.constantPool c.mainClassInfo.superClass
  interfaces : ∀ i ∈ c.interfaces, IsClass c.constantPool i
  attributes : ∀ a ∈ c.attributes, IsUtf8 c.constantPool a.nameIndex
  members : ∀ m ∈ c.methods ++ c.fields, isPublic m.accessFlags →
    IsUtf8 c.constantPool m.nameIndex ∧ (∀ a ∈ m.attributes, IsUtf8 c.constantPool a.nameIndex) ∧
      IsUtf8 c.constantPool m.descriptorIndex

/-- The indices that the call graph of a class follows. -/
structure GraphResolves (c : ClassFile) : Prop where
  thisClass : NamesClass c.constantPool c.mainClassInfo.thisClass
  members : ∀ m ∈ c.methods ++ c.fields,
    IsUtf8 c.constantPool m.nameIndex ∧ IsUtf8 c.constantPool m.descriptorIndex
  entries : ∀ entry ∈ visited c.constantPool, EntryResolves c.constantPool entry

theorem publicDigest_isSome_iff (H : Bytes → Sha256) {c : ClassFile} :
    (publicDigest H c).isSome ↔ DigestResolves c := by
  have heval : (publicDigest H c).isSome ↔ ∀ O : Bytes → Sha256, (eval O (digest c)).isSome := by
    simp only [publicDigest, eval_digest, Option.isSome_map, forall_const]
    cases hashedView c with
    | none => simp
    | some v => simp [digestCol, padded_length]
  rw [heval, digest_isSome_iff, className_isSome_iff, className_isSome_iff,
    attributeBodies_isSome_iff, publicViews_isSome_iff, publicViews_isSome_iff,
    interfaceHeads_isSome_iff]
  constructor
  · rintro ⟨hthis, hsuper, hattributes, hmethods, hfields, hinterfaces⟩
    refine ⟨hthis, hsuper, hinterfaces, hattributes, fun m hm => ?_⟩
    rcases List.mem_append.mp hm with hm | hm
    · exact hmethods m hm
    · exact hfields m hm
  · intro h
    exact ⟨h.thisClass, h.superClass, h.attributes,
      fun m hm => h.members m (List.mem_append_left _ hm),
      fun f hf => h.members f (List.mem_append_right _ hf), h.interfaces⟩

theorem DigestResolves.mainClassname {c : ClassFile} (h : DigestResolves c) :
    (getMainClassname c).isSome :=
  getClassInfoName_isSome.mpr (namesClass_of_isClass h.thisClass)

theorem graphResolves_iff {c : ClassFile} :
    GraphResolves c ↔ (getMainClassname c).isSome ∧ (extractTexts c).isSome := by
  rw [extractTexts_isSome, getMainClassname, getClassInfoName_isSome]
  constructor
  · intro h
    exact ⟨h.thisClass, fun m hm => h.members m (List.mem_append_left _ hm),
      fun f hf => h.members f (List.mem_append_right _ hf), h.entries⟩
  · rintro ⟨hthis, hmethods, hfields, hentries⟩
    refine ⟨hthis, fun m hm => ?_, hentries⟩
    rcases List.mem_append.mp hm with hm | hm
    · exact hmethods m hm
    · exact hfields m hm

end Lookups

/-- The class is counted once, and a failure is recorded once: by the counter of
errors and, for a diff, by one record that is marked as failed. -/
structure Recorded (isDiff failed : Bool) (stats stats' : ClassfileStats) (failures failures' : ℕ) :
    Prop where
  count : stats'.taskResult.count = stats.taskResult.count + 1
  errors : stats'.errors = stats.errors + if failed then 1 else 0
  failures : failures' = failures + if isDiff && failed then 1 else 0

/-- A call with a standalone class file returns and records what happened. -/
def FileContained {D : Type} (isDiff failed : Bool) (results : Results)
    (outcome : Outcome (D × Results)) : Prop :=
  ∃ db' results', outcome = .returned (db', results') ∧
    Recorded isDiff failed results.standaloneClassfiles results'.standaloneClassfiles
      (results.fileResults.countP fun r => r.failed) (results'.fileResults.countP fun r => r.failed)

/-- A call with an entry of a jar returns and records what happened. -/
def EntryContained (isDiff failed : Bool) (s : TaskState) (outcome : Outcome TaskState) : Prop :=
  ∃ s', outcome = .returned s' ∧
    Recorded isDiff failed s.results.jarfiles.classfiles s'.results.jarfiles.classfiles
      (s.results.classResults.countP fun r => r.failed)
      (s'.results.classResults.countP fun r => r.failed)

section Files
variable (isDiff : Bool) (results : Results)

variable {D : Type} (db : D)

theorem contained_unchanged (filename : Bytes) :
    FileContained isDiff false results
      (.returned (db, (counting results).asUnchangedClassFile isDiff filename)) := by
  refine ⟨_, _, rfl, ?_, ?_, ?_⟩
  · rcases isDiff <;> rfl
  · rcases isDiff <;> simp [Results.asUnchangedClassFile, Results.addFile, counting]
  · rcases isDiff <;> simp [Results.asUnchangedClassFile, Results.addFile, counting]

theorem contained_failed (filename : Bytes) :
    FileContained isDiff true results
      (.returned (db, (counting results).asFailedClassFile isDiff filename)) := by
  refine ⟨_, _, rfl, ?_, ?_, ?_⟩
  · rcases isDiff <;> rfl
  · rcases isDiff <;> simp [Results.asFailedClassFile, Results.addFile, counting]
  · rcases isDiff <;> simp [Results.asFailedClassFile, Results.addFile, counting]

theorem contained_new (strongClassname : Bytes) :
    FileContained isDiff false results
      (.returned
        (db, (countingParsed (counting results)).asNewClassFile isDiff strongClassname)) := by
  refine ⟨_, _, rfl, ?_, ?_, ?_⟩ <;> rcases isDiff <;>
    simp [Results.asNewClassFile, Results.addFile, Results.addClass, counting, countingParsed,
      TaskResult.addNew]

theorem contained_modified (same : Bool) (strongClassname : Bytes) :
    FileContained isDiff false results (.returned (db,
      (countingParsed (counting results)).asModifiedClassFile isDiff same strongClassname)) := by
  refine ⟨_, _, rfl, ?_, ?_, ?_⟩ <;> rcases isDiff <;> rcases same <;>
    simp [Results.asModifiedClassFile, Results.addFile, Results.addClass, counting,
      countingParsed, TaskResult.addModified]

theorem not_contained_thrown (failed : Bool) :
    ¬FileContained isDiff failed results (.thrown : Outcome (D × Results)) := by
  rintro ⟨_, _, h, -⟩
  cases h

theorem not_contained_undefined (failed : Bool) :
    ¬FileContained isDiff failed results (.undefined : Outcome (D × Results)) := by
  rintro ⟨_, _, h, -⟩
  cases h

end Files

section Standalone
variable (A : ∀ α : Type, Allocator α) (garbage : ℕ → UInt8) (options : Options)
  (results : Results) (info : ClassFileInfo) {words : List Bytes} {fs : List (Row FileCols)}

/-- The reader or the parser fails. -/
def readFails (kind : Kind) (content : Bytes) (garbage : ℕ → UInt8) : Bool :=
  (parsed kind content garbage).isNone

/-- The call for a class file that is not skipped. -/
theorem contained_read_iff {D : Type} {outcome : Outcome (D × Results)} (db : D)
    (filename : Bytes) {content : Bytes} {Resolves : ClassFile → Prop} {isDiff : Bool}
    (hthrown : construct .file content garbage = none → outcome = .thrown)
    (hfailed : ∀ reader, construct .file content garbage = some reader → parse reader = none →
      outcome = .returned (db, (counting results).asFailedClassFile isDiff filename))
    (haccepted : ∀ reader c s, construct .file content garbage = some reader →
      parse reader = some (c, s) → (FileContained isDiff false results outcome ↔ Resolves c)) :
    FileContained isDiff (readFails .file content garbage) results outcome ↔
      HeaderComplete content ∧
        ∀ c s, parsed .file content garbage = some (c, s) → Resolves c := by
  rw [← constructed_iff_headerComplete .file content garbage, readFails, parsed]
  cases hreader : construct .file content garbage with
  | none =>
      rw [hthrown hreader]
      exact ⟨fun h => absurd h (not_contained_thrown isDiff results _),
        fun h => absurd h.1 (by simp)⟩
  | some reader =>
      rw [Option.bind_some]
      cases hparse : parse reader with
      | none =>
          rw [hfailed reader hreader hparse]
          exact ⟨fun _ => ⟨rfl, by simp⟩, fun _ => contained_failed isDiff results db filename⟩
      | some result =>
          rw [Option.isNone_some, haccepted reader result.1 result.2 hreader hparse]
          constructor
          · rintro hresolves
            refine ⟨rfl, fun c s heq => ?_⟩
            obtain rfl := Option.some.inj heq
            exact hresolves
          · exact fun h => h.2 result.1 result.2 rfl

theorem contained_reportFile {D : Type} (db : D) (isDiff : Bool) (strongClassname : Bytes)
    (digest : DigestCol) (found : Option FileCols) :
    FileContained isDiff false results (.returned (db,
      reportFile (counting results) isDiff strongClassname digest found)) := by
  cases found with
  | none =>
      convert contained_new isDiff results db strongClassname using 3
      cases isDiff <;> rfl
  | some row =>
      convert contained_modified isDiff results db (digest == row.digest) strongClassname using 3
      cases isDiff <;> rfl

/-- A class that parses is digested unless a lookup fails or the released file row has lost its
id. -/
theorem digestFile_contained_iff (H : Bytes → Sha256) {db : DigestDb}
    {cs : List (Row ClassFileCols)} (hw : Lexicon words) (h : Valid words db fs cs)
    (hroom : fs.length + 1 < 2 ^ 64 - 1) (hfilename : info.filename ∈ words) {c : ClassFile}
    {found : Option FileCols}
    (hnames : ∀ classname, getMainClassname c = some classname → classname ∈ words) :
    FileContained options.isDiff false results
        (digestFile (counting results) A H options db info found c) ↔
      DigestResolves c ∧ ∀ digest, publicDigest H c = some digest → options.dryRun = false →
        ¬Strays A db info digest := by
  rw [← publicDigest_isSome_iff H]
  cases hdigest : publicDigest H c with
  | none =>
      have hundefined : digestFile (counting results) A H options db info found c =
          .undefined := by
        rw [digestFile, hdigest]
        cases getMainClassname c <;> rfl
      rw [hundefined]
      exact ⟨fun h => absurd h (not_contained_undefined options.isDiff results false), by simp⟩
  | some digest =>
      obtain ⟨classname, hclassname⟩ := Option.isSome_iff_exists.mp
        ((publicDigest_isSome_iff H).mp (by rw [hdigest]; rfl)).mainClassname
      simp only [digestFile, hclassname, hdigest, Outcome.ofOption_some, Outcome.returned_bind,
        Option.isSome_some, Option.some.injEq, forall_eq', true_and]
      split_ifs with hdry
      · exact ⟨fun _ hnot => absurd (hdry.symm.trans hnot) (by simp),
          fun _ => contained_reportFile results db _ _ _ _⟩
      · rcases updateDbInMemory_iff A hw h hroom info hfilename (hnames classname hclassname)
            digest with
          ⟨hstrays, hupdate⟩ | ⟨hfound, db', -, -, hupdate, -⟩
        · rw [hupdate]
          exact ⟨fun h => absurd h (not_contained_undefined options.isDiff results false),
            fun h => absurd hstrays (h (by simpa using hdry))⟩
        · rw [hupdate]
          exact ⟨fun _ _ => hfound, fun _ => contained_reportFile results db' _ _ _ _⟩

/-- `DigestAnalyzer::doClassFile`. -/
theorem digest_contained_iff (H : Bytes → Sha256) {db : DigestDb} {cs : List (Row ClassFileCols)}
    (hw : Lexicon words) (h : Valid words db fs cs) (hroom : fs.length + 1 < 2 ^ 64 - 1)
    (hfilename : info.filename ∈ words)
    (hnames : ∀ c s classname, parsed .file info.content garbage = some (c, s) →
      getMainClassname c = some classname → classname ∈ words) :
    FileContained options.isDiff
        (!CallGraphAnalysis.isUnchanged options db.files info &&
          readFails .file info.content garbage) results
        (DigestTasks.doClassFile A H garbage options db results info) ↔
      CallGraphAnalysis.isUnchanged options db.files info = true ∨
        (HeaderComplete info.content ∧ (∀ c s, parsed .file info.content garbage = some (c, s) →
          DigestResolves c) ∧ ¬FileStrays A H garbage options db info) := by
  rw [doClassFile_eq results A H garbage options h, FileStrays]
  cases CallGraphAnalysis.isUnchanged options db.files info with
  | true =>
      simp only [Bool.not_true, Bool.false_and, true_or, iff_true, if_true]
      exact contained_unchanged _ _ _ _
  | false =>
      simp only [Bool.not_false, Bool.true_and, Bool.false_eq_true, false_or, if_false]
      have hstrays : ((∀ c s, parsed .file info.content garbage = some (c, s) →
            DigestResolves c) ∧ ¬(options.dryRun = false ∧ True ∧ ∃ c s digest,
              parsed .file info.content garbage = some (c, s) ∧
                publicDigest H c = some digest ∧ Strays A db info digest)) ↔
          ∀ c s, parsed .file info.content garbage = some (c, s) →
            DigestResolves c ∧ ∀ digest, publicDigest H c = some digest →
              options.dryRun = false → ¬Strays A db info digest := by
        constructor
        · intro h c s hparsed
          exact ⟨h.1 c s hparsed, fun digest hdigest hdry hstrays =>
            h.2 ⟨hdry, trivial, c, s, digest, hparsed, hdigest, hstrays⟩⟩
        · intro h
          refine ⟨fun c s hparsed => (h c s hparsed).1, ?_⟩
          rintro ⟨hdry, -, c, s, digest, hparsed, hdigest, hstrays⟩
          exact (h c s hparsed).2 digest hdigest hdry hstrays
      rw [hstrays]
      refine contained_read_iff garbage results db info.filename (fun hreader => ?_)
        (fun reader hreader hparse => ?_) fun reader c s hreader hparse => ?_
      · rw [hreader]
      · simp only [hreader, hparse]
      · simp only [hreader, hparse]
        refine digestFile_contained_iff A options results info H hw h hroom hfilename fun name => ?_
        exact hnames c s name (by rw [parsed, hreader, Option.bind_some, hparse])

theorem contained_reportClass {D : Type} (db : D) (found : Bytes × Bool) :
    FileContained options.isDiff false results
      (.returned (db, reportClass options (countingParsed (counting results)) (some found))) := by
  obtain ⟨strongClassname, existed⟩ := found
  cases existed with
  | false => exact contained_new options.isDiff results db strongClassname
  | true => exact contained_modified options.isDiff results db false strongClassname

/-- `CallGraphAnalyzer::doClassFile`. -/
theorem graph_contained_iff {db : GraphDb} (hw : Lexicon words)
    (h : Sound words db.toCallGraphDb fs) (hindex : ∀ i, db.ownerClassIndex i = ∅)
    (hroom : fs.length + 1 < 2 ^ 64) (hfilename : info.filename ∈ words)
    (hnames : ∀ c s classname, parsed .file info.content garbage = some (c, s) →
      getMainClassname c = some classname → classname ∈ words)
    (htexts : ∀ c s ts, parsed .file info.content garbage = some (c, s) →
      extractTexts c = some ts → ∀ t ∈ ts, ∀ label ∈ labelOf t, label ∈ words) :
    FileContained options.isDiff
        (!CallGraphAnalysis.isUnchanged options db.files info &&
          readFails .file info.content garbage) results
        (CallGraphAnalysis.doClassFile A options garbage db results info) ↔
      CallGraphAnalysis.isUnchanged options db.files info = true ∨
        (HeaderComplete info.content ∧ ∀ c s, parsed .file info.content garbage = some (c, s) →
          GraphResolves c) := by
  rw [CallGraphAnalysis.doClassFile]
  cases CallGraphAnalysis.isUnchanged options db.files info with
  | true =>
      simp only [Bool.not_true, Bool.false_and, true_or, iff_true, if_true]
      exact contained_unchanged _ _ _ _
  | false =>
      simp only [Bool.not_false, Bool.true_and, Bool.false_eq_true, false_or, if_false]
      refine contained_read_iff garbage results db info.filename (fun hreader => ?_)
        (fun reader hreader hparse => ?_) fun reader c s hreader hparse => ?_
      · rw [hreader]
      · simp only [hreader, hparse]
        rfl
      · have hparsed : parsed .file info.content garbage = some (c, s) := by
          rw [parsed, hreader, Option.bind_some, hparse]
        simp only [hreader, hparse]
        rw [graphResolves_iff]
        constructor
        · rintro ⟨db', results', hreturned, -⟩
          cases hanalyse : analyseClass A db info c with
          | none =>
              rw [hanalyse] at hreturned
              cases hreturned
          | some result =>
              exact h.lookups_of_analyseClass A hw info hfilename (laidOut_of_parsed hparsed)
                hanalyse
        · rintro ⟨hmain, hextract⟩
          obtain ⟨classname, hclassname⟩ := Option.isSome_iff_exists.mp hmain
          obtain ⟨ts, hts⟩ := Option.isSome_iff_exists.mp hextract
          obtain ⟨db', found, fs', hanalyse, -, -⟩ := h.analyseClass A hw hindex hroom info
            hfilename (laidOut_of_parsed hparsed) hclassname
            (hnames c s classname hparsed hclassname) hts (htexts c s ts hparsed hts)
          rw [hanalyse]
          exact contained_reportClass options results db' found

end Standalone

section Entries
variable (A : ∀ α : Type, Allocator α) (H : Bytes → Sha256) (garbage : ℕ → UInt8)
  (options : Options) {words : List Bytes} {filename : Bytes} {s : TaskState}
  {fs : List (Row FileCols)} {cs : List (Row ClassFileCols)} {row : Row FileCols} {e : JarEntry}

/-- What is recorded of an entry that does not fail. -/
theorem recorded_report (r : Results) (e : ReadEntry H) {v : Verdict}
    (hv : ∀ known, v ≠ .failed known) :
    Recorded options.isDiff false r.jarfiles.classfiles
      (report options filename r e v).jarfiles.classfiles
      (r.classResults.countP fun x => x.failed)
      ((report options filename r e v).classResults.countP fun x => x.failed) := by
  cases v with
  | unchanged d =>
      refine ⟨?_, ?_, ?_⟩ <;> cases hdiff : options.isDiff <;>
        simp [report, reportVerdict, hdiff, Results.asUnchangedJarClass, Results.onJarClasses,
          Results.addClassIf, Results.addClass, TaskResult.addUnchanged]
  | modified d same =>
      refine ⟨?_, ?_, ?_⟩ <;> cases hdiff : options.isDiff <;> cases same <;>
        simp [report, reportVerdict, hdiff, Results.asModifiedJarClass, Results.onJarClasses,
          Results.addClassIf, Results.addClass, TaskResult.addModified]
  | new d =>
      refine ⟨?_, ?_, ?_⟩ <;> cases hdiff : options.isDiff <;>
        simp [report, reportVerdict, hdiff, Results.asNewJarClass, Results.onJarClasses,
          Results.addClassIf, Results.addClass, TaskResult.addNew]
  | failed known => exact absurd rfl (hv known)

/-- An entry that is found unchanged is not read. -/
theorem processEntry_unchanged {dryRun : Bool} (h : Ready words dryRun filename s fs cs row)
    (hunchanged : DigestStability.isUnchanged s e = true) :
    EntryContained options.isDiff false s (processEntry A H garbage options s e) := by
  obtain ⟨found, hfind, -, -⟩ := findClass_spec h.valid (e.strongClassname filename)
  simp only [DigestStability.isUnchanged, h.lookup, h.text_filename, hfind] at hunchanged
  cases found with
  | none => cases hunchanged
  | some r =>
      simp only [processEntry, h.lookup, Outcome.ofOption_some, Outcome.returned_bind,
        h.text_filename, hfind, Option.isSome_some, if_true, Option.filter_some, hunchanged]
      refine ⟨_, rfl, ?_, ?_, ?_⟩ <;> cases options.isDiff <;>
        simp [TaskState.setDigest, Results.asUnchangedJarClass, Results.onJarClasses,
          Results.addClassIf, Results.addClass, TaskResult.addUnchanged]

/-- An entry that is not found unchanged goes to `digestEntry`. -/
theorem processEntry_stale {dryRun : Bool} (h : Ready words dryRun filename s fs cs row)
    (hunchanged : DigestStability.isUnchanged s e = false) :
    ∃ found, s.db.findClass (e.strongClassname filename) = some found ∧
      found.filter (isClassfileUnchanged e) = none := by
  obtain ⟨found, hfind, -, -⟩ := findClass_spec h.valid (e.strongClassname filename)
  refine ⟨found, hfind, ?_⟩
  simp only [DigestStability.isUnchanged, h.lookup, h.text_filename, hfind] at hunchanged
  cases found with
  | none => rfl
  | some r =>
      simp only at hunchanged
      rw [Option.filter_some, hunchanged]
      rfl

/-- An entry that fails to parse advances the counter of errors twice. -/
theorem not_contained_of_rejected {dryRun : Bool} {isDiff : Bool}
    (h : Ready words dryRun filename s fs cs row)
    (hunchanged : DigestStability.isUnchanged s e = false)
    (hparsed : parsed .memory e.content garbage = none) :
    ¬EntryContained isDiff true s (processEntry A H garbage options s e) := by
  obtain ⟨found, hfind, hfilter⟩ := processEntry_stale h hunchanged
  rintro ⟨s', hreturned, hrecorded⟩
  have hresults : (if found.isSome then s else s.countClass row).results = s.results := by
    cases found <;> rfl
  simp only [processEntry, h.lookup, Outcome.ofOption_some, Outcome.returned_bind,
    h.text_filename, hfind, hfilter, digestEntry] at hreturned
  rw [parsed] at hparsed
  cases hreader : construct .memory e.content garbage with
  | none =>
      rw [hreader] at hreturned
      cases hreturned
  | some reader =>
      rw [hreader, Option.bind_some] at hparsed
      simp only [hreader, hparsed, Outcome.returned_bind, Outcome.returned.injEq, hresults]
        at hreturned
      have herrors := hrecorded.errors
      rw [← hreturned] at herrors
      have htwice : s.results.jarfiles.classfiles.errors + 1 + 1 =
          s.results.jarfiles.classfiles.errors + 1 := by
        rw [if_pos rfl] at herrors
        refine Eq.trans ?_ herrors
        cases options.isDiff <;> rfl
      exact absurd (UInt32.add_eq_left.mp htwice) (by decide)

/-- `DigestTask::processEntry`. -/
theorem entry_contained_iff (hw : Lexicon words)
    (h : Ready words options.dryRun filename s fs cs row)
    (hnames : ∀ c t classname, parsed .memory e.content garbage = some (c, t) →
      getUniqueClassname e c = some classname → classname ∈ words) :
    EntryContained options.isDiff
        (!DigestStability.isUnchanged s e && readFails .memory e.content garbage) s
        (processEntry A H garbage options s e) ↔
      DigestStability.isUnchanged s e = true ∨
        ∃ c t, parsed .memory e.content garbage = some (c, t) ∧ DigestResolves c := by
  cases hunchanged : DigestStability.isUnchanged s e with
  | true =>
      simp only [Bool.not_true, Bool.false_and, true_or, iff_true]
      exact processEntry_unchanged A H garbage options h hunchanged
  | false =>
      simp only [Bool.not_false, Bool.true_and, Bool.false_eq_true, false_or, readFails]
      cases hparsed : parsed .memory e.content garbage with
      | none =>
          rw [Option.isNone_none]
          refine ⟨fun hcontained => ?_, by simp⟩
          exact absurd hcontained
            (not_contained_of_rejected A H garbage options h hunchanged hparsed)
      | some result =>
          obtain ⟨reader, hreader, hparse⟩ := Option.bind_eq_some_iff.mp hparsed
          rw [Option.isNone_some]
          constructor
          · rintro ⟨s', hreturned, -⟩
            refine ⟨result.1, result.2, rfl, (publicDigest_isSome_iff H).mp ?_⟩
            obtain ⟨found, hfind, hfilter⟩ := processEntry_stale h hunchanged
            by_contra hnone
            rw [Bool.not_eq_true, Option.isSome_eq_false_iff, Option.isNone_iff_eq_none] at hnone
            simp only [processEntry, h.lookup, Outcome.ofOption_some, Outcome.returned_bind,
              h.text_filename, hfind, hfilter, digestEntry, hreader, hparse, hnone] at hreturned
            cases hreturned
          · rintro ⟨c, t, heq, hresolves⟩
            obtain rfl := Option.some.inj heq
            obtain ⟨digest, hdigest⟩ := Option.isSome_iff_exists.mp
              ((publicDigest_isSome_iff H).mpr hresolves)
            obtain ⟨classname, hunique⟩ : ∃ classname, getUniqueClassname e c = some classname := by
              rw [getUniqueClassname]
              split_ifs
              · exact ⟨_, rfl⟩
              · exact Option.isSome_iff_exists.mp hresolves.mainClassname
            have hreads : ∀ g, reading H g e = .returned (.accepted classname digest) := by
              intro g
              rw [reading_garbage H g garbage]
              simp only [reading, hreader, hparse, hdigest, hunique, Outcome.ofOption_some,
                Outcome.returned_bind]
            obtain ⟨s', fs', cs', row', hreturned, -, -, hnotes, -, -⟩ := processEntry_spec A
              garbage options hw h ⟨e, _, hreads⟩ (hnames c t classname hparsed hunique)
            refine ⟨s', hreturned, ?_⟩
            have hresults := congrArg Notes.results hnotes
            change s'.results = report options filename s.results _ _ at hresults
            rw [hresults]
            apply recorded_report H options
            intro known
            change react _ _ ≠ _
            rw [react]
            split
            · simp
            · change digestVerdict (.accepted classname digest) _ ≠ _
              cases stored s.db _ <;> simp [digestVerdict]

end Entries

/-- A call of `DigestAnalyzer::doClassFile` on a valid database with texts that
fit into the pool. -/
structure DigestCall (words : List Bytes) where
  A : ∀ α : Type, Allocator α
  H : Bytes → Sha256
  garbage : ℕ → UInt8
  options : Options
  db : DigestDb
  files : List (Row FileCols)
  classes : List (Row ClassFileCols)
  valid : Valid words db files classes
  room : files.length + 1 < 2 ^ 64 - 1
  results : Results
  info : ClassFileInfo
  filename : info.filename ∈ words
  names : ∀ c s classname, parsed .file info.content garbage = some (c, s) →
    getMainClassname c = some classname → classname ∈ words

namespace DigestCall
variable {words : List Bytes} (x : DigestCall words)

def unchanged : Bool := CallGraphAnalysis.isUnchanged x.options x.db.files x.info

def Contained : Prop :=
  FileContained x.options.isDiff
    (!x.unchanged && readFails .file x.info.content x.garbage) x.results
    (DigestTasks.doClassFile x.A x.H x.garbage x.options x.db x.results x.info)

end DigestCall

/-- A call of `CallGraphAnalyzer::doClassFile`. -/
structure GraphCall (words : List Bytes) where
  A : ∀ α : Type, Allocator α
  garbage : ℕ → UInt8
  options : Options
  db : GraphDb
  files : List (Row FileCols)
  sound : Sound words db.toCallGraphDb files
  index : ∀ i, db.ownerClassIndex i = ∅
  room : files.length + 1 < 2 ^ 64
  results : Results
  info : ClassFileInfo
  filename : info.filename ∈ words
  names : ∀ c s classname, parsed .file info.content garbage = some (c, s) →
    getMainClassname c = some classname → classname ∈ words
  texts : ∀ c s ts, parsed .file info.content garbage = some (c, s) →
    extractTexts c = some ts → ∀ t ∈ ts, ∀ label ∈ labelOf t, label ∈ words

namespace GraphCall
variable {words : List Bytes} (x : GraphCall words)

def unchanged : Bool := CallGraphAnalysis.isUnchanged x.options x.db.files x.info

def Contained : Prop :=
  FileContained x.options.isDiff
    (!x.unchanged && readFails .file x.info.content x.garbage) x.results
    (CallGraphAnalysis.doClassFile x.A x.options x.garbage x.db x.results x.info)

end GraphCall

/-- A call of `DigestTask::processEntry` between `start` and `end`. -/
structure EntryCall (words : List Bytes) where
  A : ∀ α : Type, Allocator α
  H : Bytes → Sha256
  garbage : ℕ → UInt8
  options : Options
  jar : Bytes
  state : TaskState
  files : List (Row FileCols)
  classes : List (Row ClassFileCols)
  row : Row FileCols
  ready : Ready words options.dryRun jar state files classes row
  entry : JarEntry
  names : ∀ c t classname, parsed .memory entry.content garbage = some (c, t) →
    getUniqueClassname entry c = some classname → classname ∈ words

namespace EntryCall
variable {words : List Bytes} (x : EntryCall words)

def unchanged : Bool := DigestStability.isUnchanged x.state x.entry

def Contained : Prop :=
  EntryContained x.options.isDiff
    (!x.unchanged && readFails .memory x.entry.content x.garbage) x.state
    (processEntry x.A x.H x.garbage x.options x.state x.entry)

end EntryCall

/-- A file without time stamp that the parser does not accept. -/
def sampleCall (content : Bytes) (hrejected : parsed .file content (fun _ => 0) = none)
    (db : DigestDb) (hvalid : Valid sampleWords db [] []) : DigestCall sampleWords where
  A := Allocator.next
  H := sampleHash
  garbage := fun _ => 0
  options := { useFileTimestamp := false }
  db := db
  files := []
  classes := []
  valid := hvalid
  room := by decide
  results := {}
  info := ⟨ascii "a.jar", 0, 0, content⟩
  filename := by change ascii "a.jar" ∈ sampleWords; decide
  names := by
    intro c s classname h
    rw [hrejected] at h
    cases h

end Tarracsh.Containment
