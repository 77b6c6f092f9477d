import Tarracsh.ClassOutcomes

/-!
# The digest service

A client sends the path and the dry-run flag, and the service analyses the input
with the database that it keeps. It does so with the base `Analyzer`, which
parses class files and neither reports on them nor touches the database; the
standalone command uses `DigestAnalyzer`.
-/
namespace Tarracsh.DigestService
open ByteStrings QueryTrees StringPool ParsedClass ClassFileReader ClassFileParser
open ReaderRefinement TableModel TableInvariant DomainTables CallGraphTables CallGraphInvariant
open ClassFileDigest SafeConsumption JarEntries Reporting DigestTasks DigestRuns
open DigestSimulation DigestOutcomes DigestStability DigestAnalysis Containment DryRuns
open ClassOutcomes

/-- A regular file below the input, by its extension. -/
inductive InputFile (H : Bytes → Sha256) where
  | jar (f : JarFile) (es : List (ReadEntry H))
  | classFile (file : ReadFile)
  | other

/-- What the input path is. -/
inductive InputPath (H : Bytes → Sha256) where
  | directory (files : List (InputFile H))
  | file (f : InputFile H)
  | missing

namespace InputPath
variable {H : Bytes → Sha256}

/-- `SubCommandOptions::processInput`. -/
def processInput : InputPath H → Bool
  | .directory _ => true
  | .file (.jar _ _) => true
  | .file (.classFile _) => true
  | .file .other => false
  | .missing => false

def files : InputPath H → List (InputFile H)
  | .directory fs => fs
  | .file f => [f]
  | .missing => []

end InputPath

/-- What the file is to a digest run. -/
def InputFile.input {H : Bytes → Sha256} : InputFile H → Option (Input H)
  | .jar f es => some (.jar f es)
  | .classFile file => some (.classFile file)
  | .other => none

/-- The jars and class files of the input. -/
def inputs {H : Bytes → Sha256} (path : InputPath H) : List (Input H) :=
  path.files.filterMap InputFile.input

/-- An analyzer with its two overridable hooks. -/
structure Analyzer (H : Bytes → Sha256) where
  processJar : DigestDb × Results → JarFile → List (ReadEntry H) → Outcome (DigestDb × Results)
  doClassFile : DigestDb × Results → ReadFile → Outcome (DigestDb × Results)

namespace Analyzer
variable {H : Bytes → Sha256} (a : Analyzer H)

def countClassFile (r : Results) : Results :=
  { r with standaloneClassfiles := { r.standaloneClassfiles with
    count := r.standaloneClassfiles.count + 1 } }

def processStandaloneClassFile (s : DigestDb × Results) (file : ReadFile) :
    Outcome (DigestDb × Results) :=
  a.doClassFile (s.1, countClassFile s.2) file

def processFile (s : DigestDb × Results) : InputFile H → Outcome (DigestDb × Results)
  | .jar f es => a.processJar s f es
  | .classFile file => a.processStandaloneClassFile s file
  | .other => .returned s

def analyzeInput (s : DigestDb × Results) (path : InputPath H) : Outcome (DigestDb × Results) :=
  path.files.foldlM a.processFile s

end Analyzer

section Analyzers
variable (H : Bytes → Sha256) (garbage : ℕ → UInt8)

/-- `Analyzer::parseClassFile`. -/
def parseClassFile (s : DigestDb × Results) (file : ReadFile) : Outcome (DigestDb × Results) :=
  match construct .file file.info.content garbage with
  | none => .thrown
  | some reader =>
      let stats := s.2.standaloneClassfiles
      match parse reader with
      | some _ => .returned (s.1, { s.2 with
          standaloneClassfiles := { stats with parsedCount := stats.parsedCount + 1 } })
      | none => .returned (s.1, { s.2 with
          standaloneClassfiles := { stats with errors := stats.errors + 1 } })

/-- `ParserTask::parseEntry`. -/
def parseEntry (r : Results) (e : JarEntry) : Outcome Results :=
  match construct .memory e.content garbage with
  | none => .thrown
  | some reader =>
      let r := r.onJarClasses fun stats => { stats with count := stats.count + 1 }
      match parse reader with
      | some _ => .returned (r.onJarClasses fun stats =>
          { stats with parsedCount := stats.parsedCount + 1 })
      | none => .returned (r.onJarClasses fun stats => { stats with errors := stats.errors + 1 })

/-- `Processor::run` with a `ParserTask`, whose `start` and `end` do nothing. -/
def parseJar (s : DigestDb × Results) (es : List (ReadEntry H)) : Outcome (DigestDb × Results) := do
  let r ← es.foldlM (fun r e => parseEntry garbage r e.entry) s.2
  .returned (s.1, r)

/-- The class `Analyzer`, without overrides. -/
def baseAnalyzer : Analyzer H where
  processJar s _ es := parseJar H garbage s es
  doClassFile := parseClassFile garbage

variable (A : ∀ α : Type, Allocator α) (options : Options)

def digestAnalyzer : Analyzer H where
  processJar s f es := DigestTasks.run A H garbage options f (es.map fun e => e.entry) s.1 s.2
  doClassFile s file := DigestTasks.doClassFile A H garbage options s.1 s.2 file.info

end Analyzers

section Messages

structure DiffRequest where
  input : Bytes
  dryRun : Bool

structure FileDigestResult where
  filename : Bytes
  isNew : Bool
  isModified : Bool
  isSameDigest : Bool
  failed : Bool
  deriving DecidableEq, Repr

structure ClassDigestResult where
  strongClassname : Bytes
  isNew : Bool
  isModified : Bool
  isSameDigest : Bool
  failed : Bool
  deriving DecidableEq, Repr

structure DiffResponse where
  files : List FileDigestResult
  classfiles : List ClassDigestResult
  deriving DecidableEq, Repr

def reportToResponse (report : Results) : DiffResponse where
  files := report.fileResults.map fun r =>
    ⟨r.filename, r.isNew, r.isModified, r.isSamePublicDigest, r.failed⟩
  classfiles := report.classResults.map fun r =>
    ⟨r.strongClassname, r.isNew, r.isModified, r.isSamePublicDigest, r.failed⟩

def responseToReport (report : Results) (response : DiffResponse) : Results :=
  { report with
    fileResults := report.fileResults ++ response.files.map fun diff =>
      { filename := diff.filename, isNew := diff.isNew, isModified := diff.isModified,
        isSamePublicDigest := diff.isSameDigest, failed := diff.failed }
    classResults := report.classResults ++ response.classfiles.map fun diff =>
      { strongClassname := diff.strongClassname, isNew := diff.isNew,
        isModified := diff.isModified, isSamePublicDigest := diff.isSameDigest,
        failed := diff.failed } }

/-- The two conversions lose nothing. -/
theorem responseToReport_reportToResponse (client report : Results) :
    (responseToReport client (reportToResponse report)).fileResults =
        client.fileResults ++ report.fileResults ∧
      (responseToReport client (reportToResponse report)).classResults =
        client.classResults ++ report.classResults := by
  simp [responseToReport, reportToResponse, Function.comp_def]

end Messages

section Commands
variable {H : Bytes → Sha256} (garbage : ℕ → UInt8) (fileSystem : Bytes → InputPath H)

/-- `ServiceImpl::Diff` with `RequestContext::update`. -/
def ServiceImpl.diff (db : DigestDb) (request : DiffRequest) :
    Outcome (DigestDb × Except Bytes DiffResponse) :=
  let path := fileSystem request.input
  if path.processInput then do
    let (db, results) ← (baseAnalyzer H garbage).analyzeInput (db, {}) path
    .returned (db, .ok (reportToResponse results))
  else .returned (db, .error (ascii "Invalid Input: " ++ request.input))

def optionsToRequest (input : Bytes) (options : Options) : DiffRequest := ⟨input, options.dryRun⟩

/-- `ServerCommand::diff`. The result is the database of the service, the results
that the client holds and whether the request succeeded. -/
def ServerCommand.diff (input : Bytes) (options : Options) (db : DigestDb) (results : Results) :
    Outcome (DigestDb × Results × Bool) := do
  let (db, reply) ← ServiceImpl.diff garbage fileSystem db (optionsToRequest input options)
  match reply with
  | .ok response => .returned (db, responseToReport results response, true)
  | .error _ => .returned (db, results, false)

/-- `PublicDigest::digestInput` without a server. -/
def digestInput (A : ∀ α : Type, Allocator α) (input : Bytes) (options : Options) (db : DigestDb)
    (results : Results) : Outcome (DigestDb × Results) :=
  let path := fileSystem input
  if path.processInput then
    (digestAnalyzer H garbage A options).analyzeInput (db, results) path
  else .returned (db, results)

end Commands

section Parsing
variable {H : Bytes → Sha256} (garbage : ℕ → UInt8)

/-- The records of a report. -/
def SameRecords (r r' : Results) : Prop :=
  r'.fileResults = r.fileResults ∧ r'.classResults = r.classResults

theorem SameRecords.trans {r r' r'' : Results} (h : SameRecords r r') (h' : SameRecords r' r'') :
    SameRecords r r'' := ⟨h'.1.trans h.1, h'.2.trans h.2⟩

theorem parseClassFile_spec (s : DigestDb × Results) (file : ReadFile) :
    ∃ r', parseClassFile garbage s file = .returned (s.1, r') ∧ SameRecords s.2 r' := by
  obtain ⟨reader, hreader⟩ := Option.isSome_iff_exists.mp
    ((constructed_iff_headerComplete .file file.info.content garbage).mpr file.header)
  simp only [parseClassFile, hreader]
  cases parse reader with
  | none => exact ⟨_, rfl, rfl, rfl⟩
  | some result => exact ⟨_, rfl, rfl, rfl⟩

theorem parseEntry_spec (r : Results) (e : ReadEntry H) :
    ∃ r', parseEntry garbage r e.entry = .returned r' ∧ SameRecords r r' := by
  obtain ⟨reader, hreader, -⟩ := readEntry_cases e garbage
  simp only [parseEntry, hreader]
  cases parse reader with
  | none => exact ⟨_, rfl, rfl, rfl⟩
  | some result => exact ⟨_, rfl, rfl, rfl⟩

theorem parseEntries_spec (es : List (ReadEntry H)) (r : Results) :
    ∃ r', es.foldlM (fun r e => parseEntry garbage r e.entry) r = .returned r' ∧
      SameRecords r r' := by
  induction es generalizing r with
  | nil => exact ⟨r, rfl, rfl, rfl⟩
  | cons e es ih =>
      obtain ⟨r₁, hentry, hsame⟩ := parseEntry_spec garbage r e
      obtain ⟨r', hrest, hsame'⟩ := ih r₁
      refine ⟨r', ?_, hsame.trans hsame'⟩
      rw [List.foldlM_cons, hentry]
      exact hrest

/-- The base analyzer neither reports nor stores. -/
theorem baseAnalyzer_processFile (s : DigestDb × Results) (f : InputFile H) :
    ∃ r', (baseAnalyzer H garbage).processFile s f = .returned (s.1, r') ∧
      SameRecords s.2 r' := by
  cases f with
  | other => exact ⟨s.2, rfl, rfl, rfl⟩
  | jar f es =>
      obtain ⟨r', hentries, hsame⟩ := parseEntries_spec garbage es s.2
      refine ⟨r', ?_, hsame⟩
      change parseJar H garbage s es = _
      rw [parseJar, hentries]
      rfl
  | classFile file =>
      obtain ⟨r', hparse, hsame⟩ :=
        parseClassFile_spec garbage (s.1, Analyzer.countClassFile s.2) file
      exact ⟨r', hparse, hsame⟩

theorem baseAnalyzer_processFiles (files : List (InputFile H)) (s : DigestDb × Results) :
    ∃ r', files.foldlM (baseAnalyzer H garbage).processFile s = .returned (s.1, r') ∧
      SameRecords s.2 r' := by
  induction files generalizing s with
  | nil => exact ⟨s.2, rfl, rfl, rfl⟩
  | cons f files ih =>
      obtain ⟨r₁, hfile, hsame⟩ := baseAnalyzer_processFile garbage s f
      obtain ⟨r', hrest, hsame'⟩ := ih (s.1, r₁)
      refine ⟨r', ?_, hsame.trans hsame'⟩
      rw [List.foldlM_cons, hfile]
      exact hrest

/-- The client holds no results and the service keeps its database. -/
theorem diff_spec (fileSystem : Bytes → InputPath H) (input : Bytes) (options : Options)
    (db : DigestDb) :
    ∃ client, ServerCommand.diff garbage fileSystem input options db {} =
        .returned (db, client, (fileSystem input).processInput) ∧
      client.fileResults = [] ∧ client.classResults = [] := by
  cases hinput : (fileSystem input).processInput with
  | false =>
      refine ⟨{}, ?_, rfl, rfl⟩
      simp only [ServerCommand.diff, ServiceImpl.diff, optionsToRequest, hinput,
        Bool.false_eq_true, if_false, Outcome.returned_bind]
  | true =>
      obtain ⟨r', hanalyze, hfiles, hclasses⟩ :=
        baseAnalyzer_processFiles garbage (fileSystem input).files (db, {})
      have hresponse := responseToReport_reportToResponse {} r'
      refine ⟨responseToReport {} (reportToResponse r'), ?_, ?_, ?_⟩
      · simp only [ServerCommand.diff, ServiceImpl.diff, optionsToRequest, hinput, if_true,
          Analyzer.analyzeInput, hanalyze, Outcome.returned_bind]
      · rw [hresponse.1, hfiles]
        rfl
      · rw [hresponse.2, hclasses]
        rfl

end Parsing

section Digesting
variable (A : ∀ α : Type, Allocator α) {H : Bytes → Sha256} (garbage : ℕ → UInt8)
  (options : Options) {words : List Bytes} {db : DigestDb} {fs : List (Row FileCols)}
  {cs : List (Row ClassFileCols)}

/-- In a diff every jar and class file gets a file record, if the call returns. -/
theorem digestAnalyzer_processFile (hw : Lexicon words) (h : Valid words db fs cs)
    (hroom : fs.length + 1 < 2 ^ 64 - 1) (hdiff : options.isDiff = true) {f : InputFile H}
    {x : Input H} (hf : f.input = some x) (hx : InputTexts garbage words x) (r : Results) :
    (digestAnalyzer H garbage A options).processFile (db, r) f = .undefined ∨
      ∃ db' r' fs' cs', (digestAnalyzer H garbage A options).processFile (db, r) f =
          .returned (db', r') ∧
        Valid words db' fs' cs' ∧ fs'.length ≤ fs.length + 1 ∧
        r'.fileResults.length = r.fileResults.length + 1 := by
  cases f with
  | other => cases hf
  | jar f es =>
      obtain rfl := Option.some.inj hf
      refine (process_accounts A garbage options hw h hroom (.jar f es) hx r).imp And.right ?_
      rintro ⟨-, db', r', fs', cs', hprocess, hvalid, hlength, -, -, -, hfiles⟩
      rw [hdiff] at hfiles
      exact ⟨db', r', fs', cs', hprocess, hvalid, hlength, hfiles⟩
  | classFile file =>
      obtain rfl := Option.some.inj hf
      refine (process_accounts A garbage options hw h hroom (.classFile file) hx
        (Analyzer.countClassFile r)).imp And.right ?_
      rintro ⟨-, db', r', fs', cs', hprocess, hvalid, hlength, -, -, -, hfiles⟩
      rw [hdiff] at hfiles
      exact ⟨db', r', fs', cs', hprocess, hvalid, hlength, hfiles⟩

theorem digestAnalyzer_processFiles (hw : Lexicon words) (hdiff : options.isDiff = true)
    (files : List (InputFile H))
    (hxs : ∀ x ∈ files.filterMap InputFile.input, InputTexts garbage words x)
    (h : Valid words db fs cs)
    (hroom : fs.length + (files.filterMap InputFile.input).length < 2 ^ 64 - 1) (r : Results) :
    (files.filterMap InputFile.input ≠ [] ∧
        files.foldlM (digestAnalyzer H garbage A options).processFile (db, r) = .undefined) ∨
      ∃ db' r', files.foldlM (digestAnalyzer H garbage A options).processFile (db, r) =
          .returned (db', r') ∧
        r'.fileResults.length =
          r.fileResults.length + (files.filterMap InputFile.input).length ∧
        (files.filterMap InputFile.input = [] → db' = db ∧ r' = r) := by
  induction files generalizing db fs cs r with
  | nil => exact .inr ⟨db, r, rfl, rfl, fun _ => ⟨rfl, rfl⟩⟩
  | cons f files ih =>
      cases hf : f.input with
      | none =>
          have hskip : (f :: files).foldlM (digestAnalyzer H garbage A options).processFile (db, r) =
              files.foldlM (digestAnalyzer H garbage A options).processFile (db, r) := by
            cases f with
            | other => rfl
            | jar f es => cases hf
            | classFile file => cases hf
          rw [List.filterMap_cons_none hf] at hxs hroom ⊢
          rw [hskip]
          exact ih hxs h hroom r
      | some x =>
          rw [List.filterMap_cons_some hf] at hxs hroom ⊢
          rw [List.length_cons] at hroom
          obtain hfile | ⟨db₁, r₁, fs₁, cs₁, hfile, hvalid, hsize, hlength₁⟩ :=
            digestAnalyzer_processFile A garbage options hw h (by omega) hdiff hf
              (hxs x List.mem_cons_self) r
          · refine .inl ⟨List.cons_ne_nil _ _, ?_⟩
            rw [List.foldlM_cons, hfile]
            rfl
          rw [List.foldlM_cons, hfile]
          refine (ih (fun y hy => hxs y (List.mem_cons_of_mem x hy)) hvalid (by omega) r₁).imp ?_ ?_
          · rintro ⟨-, hrest⟩
            exact ⟨List.cons_ne_nil _ _, hrest⟩
          · rintro ⟨db', r', hrest, hlength, -⟩
            refine ⟨db', r', hrest, ?_, nofun⟩
            rw [hlength, hlength₁, List.length_cons]
            omega

theorem inputs_of_invalid {path : InputPath H} (h : path.processInput = false) :
    inputs path = [] := by
  cases path with
  | directory files => cases h
  | missing => rfl
  | file f =>
      cases f with
      | other => rfl
      | jar f es => cases h
      | classFile file => cases h

/-- The client holds what the standalone run reports, and the databases are the
same afterwards. -/
structure Agrees (server standalone : DigestDb) (client results : Results) : Prop where
  files : client.fileResults.Perm results.fileResults
  classes : client.classResults.Perm results.classResults
  databases : server = standalone

/-- The service always replies, and it gives the answer of the standalone run exactly
when the input holds neither a jar nor a class file. -/
theorem service_agrees_iff (fileSystem : Bytes → InputPath H) (input : Bytes)
    (hw : Lexicon words) (h : Valid words db fs cs) (hdiff : options.isDiff = true)
    (hxs : ∀ x ∈ inputs (fileSystem input), InputTexts garbage words x)
    (hroom : fs.length + (inputs (fileSystem input)).length < 2 ^ 64 - 1) :
    ∃ server client ok, ServerCommand.diff garbage fileSystem input options db {} =
        .returned (server, client, ok) ∧
      ((∃ standalone results,
          digestInput garbage fileSystem A input options db {} = .returned (standalone, results) ∧
          Agrees server standalone client results) ↔
        inputs (fileSystem input) = []) := by
  obtain ⟨client, hclient, hfiles, hclasses⟩ := diff_spec garbage fileSystem input options db
  refine ⟨db, client, _, hclient, ?_⟩
  cases hinput : (fileSystem input).processInput with
  | false =>
      refine iff_of_true ⟨db, {}, ?_, ?_, ?_, rfl⟩ (inputs_of_invalid hinput)
      · simp only [digestInput, hinput, Bool.false_eq_true, if_false]
      · rw [hfiles]
      · rw [hclasses]
  | true =>
      have hdigest : digestInput garbage fileSystem A input options db {} =
          (fileSystem input).files.foldlM (digestAnalyzer H garbage A options).processFile
            (db, {}) := by
        simp only [digestInput, hinput, if_true, Analyzer.analyzeInput]
      rw [hdigest]
      obtain ⟨hsome, hrun⟩ | ⟨db', r', hrun, hlength, hsame⟩ := digestAnalyzer_processFiles A
        garbage options hw hdiff (fileSystem input).files hxs h hroom {}
      · rw [hrun]
        exact iff_of_false (by simp) hsome
      rw [hrun]
      constructor
      · rintro ⟨standalone, results, hreturned, hagrees⟩
        obtain ⟨-, rfl⟩ := Prod.mk.inj (Outcome.returned.inj hreturned)
        have hcount := hagrees.files.length_eq
        rw [hfiles, hlength] at hcount
        apply List.length_eq_zero_iff.mp
        change (List.filterMap InputFile.input (fileSystem input).files).length = 0
        change 0 = 0 + _ at hcount
        omega
      · intro hempty
        obtain ⟨rfl, rfl⟩ := hsame hempty
        exact ⟨_, _, rfl, by rw [hfiles], by rw [hclasses], rfl⟩

end Digesting

theorem service_agrees_sample :
    ∃ db server client ok standalone results, DigestDb.create = some db ∧
      ServerCommand.diff (fun _ => 0) (fun _ => (.directory [.other] : InputPath sampleHash))
        (ascii "src") { isDiff := true } db {} = .returned (server, client, ok) ∧
      digestInput (fun _ => 0) (fun _ => (.directory [.other] : InputPath sampleHash))
        Allocator.next (ascii "src") { isDiff := true } db {} = .returned (standalone, results) ∧
      Agrees server standalone client results := by
  obtain ⟨db, hcreate, hvalid, -⟩ := create_valid sampleWords (by decide)
  obtain ⟨server, client, ok, hserver, hiff⟩ :=
    service_agrees_iff Allocator.next (fun _ => 0) { isDiff := true }
      (fun _ => (.directory [.other] : InputPath sampleHash)) (ascii "src") lexicon_sampleWords
      hvalid rfl nofun (by decide)
  obtain ⟨standalone, results, hstandalone, hagrees⟩ := hiff.mpr rfl
  exact ⟨db, server, client, ok, standalone, results, hcreate, hserver, hstandalone, hagrees⟩

/-- The client gets nothing for a jar. -/
theorem jar_gets_no_answer :
    ¬∀ (A : ∀ α : Type, Allocator α) (H : Bytes → Sha256) (garbage : ℕ → UInt8)
      (options : Options) (words : List Bytes) (db : DigestDb) (fs : List (Row FileCols))
      (cs : List (Row ClassFileCols)) (fileSystem : Bytes → InputPath H) (input : Bytes),
      Lexicon words → Valid words db fs cs → options.isDiff = true →
      (∀ x ∈ inputs (fileSystem input), InputTexts garbage words x) →
      fs.length + (inputs (fileSystem input)).length < 2 ^ 64 - 1 →
      ∃ server client ok standalone results,
        ServerCommand.diff garbage fileSystem input options db {} =
            .returned (server, client, ok) ∧
          digestInput garbage fileSystem A input options db {} =
            .returned (standalone, results) ∧
          Agrees server standalone client results := by
  intro h
  obtain ⟨db, -, hvalid, -⟩ := create_valid sampleWords (by decide)
  let fileSystem : Bytes → InputPath sampleHash := fun _ => .file (.jar sampleJar [])
  have htexts : ∀ x ∈ inputs (fileSystem (ascii "a.jar")),
      InputTexts (fun _ => 0) sampleWords x := by
    intro x hx
    rw [show x = .jar sampleJar [] from List.mem_singleton.mp hx]
    exact ⟨by decide, nofun⟩
  obtain ⟨server, client, ok, standalone, results, hserver, hstandalone, hagrees⟩ :=
    h Allocator.next sampleHash (fun _ => 0) { isDiff := true } sampleWords db [] [] fileSystem
      (ascii "a.jar") lexicon_sampleWords hvalid rfl htexts (by decide)
  obtain ⟨client', hclient, hfiles, -⟩ := diff_spec (fun _ => 0) fileSystem (ascii "a.jar")
    { isDiff := true } db
  obtain ⟨-, hrun⟩ | ⟨db', r', hrun, hlength, -⟩ := digestAnalyzer_processFiles Allocator.next
    (fun _ => 0) { isDiff := true } lexicon_sampleWords rfl (fileSystem (ascii "a.jar")).files htexts
    hvalid (by decide) {}
  · cases hstandalone.symm.trans hrun
  have hresults : digestInput (fun _ => 0) fileSystem Allocator.next (ascii "a.jar")
      { isDiff := true } db {} = .returned (db', r') := hrun
  obtain ⟨-, rfl⟩ := Prod.mk.inj (Outcome.returned.inj (hresults.symm.trans hstandalone))
  have hclients := Prod.mk.inj (Outcome.returned.inj (hclient.symm.trans hserver))
  have hcount := hagrees.files.length_eq
  rw [← (Prod.mk.inj hclients.2).1, hfiles, hlength] at hcount
  cases hcount

end Tarracsh.DigestService
