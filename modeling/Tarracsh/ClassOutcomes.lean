import Tarracsh.DryRuns

/-!
# One outcome for every class

The counter of classes is compared with the sum of the counters of outcomes.
Every call leaves the difference as it is, except for an entry of a jar that
fails to parse: `asFailedJarClass` and `digestEntry` both count it as an error.
-/
namespace Tarracsh.ClassOutcomes
open ByteStrings QueryTrees StringPool ParsedClass ClassFileReader ClassFileParser
open ReaderRefinement TableModel TableInvariant DomainTables CallGraphTables CallGraphInvariant
open ClassFileDigest SafeConsumption JarEntries Reporting DigestTasks DigestRuns
open DigestSimulation DigestOutcomes DigestStability DigestAnalysis Containment DryRuns
open KeyedReactions

/-- The sum of the outcomes. -/
def outcomes (stats : ClassfileStats) : UInt32 :=
  stats.taskResult.newFile + stats.taskResult.same + stats.taskResult.differentDigest +
    stats.taskResult.unchangedCount + stats.errors

/-- The statistics of classes agree with the outcomes up to an excess of errors. -/
def Exceeds (n : ℕ) (stats : ClassfileStats) : Prop :=
  outcomes stats = stats.taskResult.count + UInt32.ofNat n

def Balanced (stats : ClassfileStats) : Prop := stats.taskResult.count = outcomes stats

theorem balanced_iff {n : ℕ} {stats : ClassfileStats} (h : Exceeds n stats) :
    Balanced stats ↔ n % 2 ^ 32 = 0 := by
  rw [Balanced, h, eq_comm, UInt32.add_eq_left, ← UInt32.toNat_inj, UInt32.toNat_ofNat']
  rfl

/-- How one call changes the statistics: the class gets an outcome, and an
excess if it is counted as an error twice. -/
def Advances (excess : ℕ) (stats stats' : ClassfileStats) : Prop :=
  ∀ n, Exceeds n stats → Exceeds (n + excess) stats'

theorem Advances.refl (stats : ClassfileStats) : Advances 0 stats stats := fun _ h => h

theorem Advances.trans {m n : ℕ} {stats stats' stats'' : ClassfileStats}
    (h : Advances m stats stats') (h' : Advances n stats' stats'') :
    Advances (m + n) stats stats'' := by
  intro k hk
  rw [← Nat.add_assoc]
  exact h' _ (h k hk)

theorem advances_of_eq {excess : ℕ} {stats stats' : ClassfileStats} (k : UInt32)
    (hcount : stats'.taskResult.count = stats.taskResult.count + k)
    (houtcomes : outcomes stats' = outcomes stats + k + UInt32.ofNat excess) :
    Advances excess stats stats' := by
  intro n h
  rw [Exceeds] at h ⊢
  rw [houtcomes, hcount, h, UInt32.ofNat_add]
  ac_rfl

section Reports
variable (options : Options) (r : Results)

/-- A verdict on an entry of a jar. -/
theorem advances_report {H : Bytes → Sha256} (filename : Bytes) (e : ReadEntry H) (v : Verdict) :
    Advances (match v with | .failed _ => 1 | _ => 0) r.jarfiles.classfiles
        (report options filename r e v).jarfiles.classfiles ∧
      (report options filename r e v).standaloneClassfiles = r.standaloneClassfiles := by
  have hstandalone : (report options filename r e v).standaloneClassfiles =
      r.standaloneClassfiles := by
    cases v <;> simp [report, reportVerdict, Results.asUnchangedJarClass, Results.onJarClasses,
      Results.asModifiedJarClass, Results.asNewJarClass, Results.asFailedJarClass]
  refine ⟨advances_of_eq 1 ?_ ?_, hstandalone⟩
  · cases v with
    | modified d same =>
        cases same <;> simp [report, reportVerdict, Results.asModifiedJarClass,
          Results.onJarClasses, TaskResult.addModified]
    | _ => simp [report, reportVerdict, Results.asUnchangedJarClass, Results.onJarClasses,
        Results.asNewJarClass, Results.asFailedJarClass, TaskResult.addUnchanged,
        TaskResult.addNew]
  · cases v with
    | unchanged d =>
        simp only [report, reportVerdict, Results.asUnchangedJarClass, Results.onJarClasses,
          Results.addClassIf_jarfiles, TaskResult.addUnchanged, outcomes]
        ac_rfl
    | modified d same =>
        cases same <;>
          simp only [report, reportVerdict, Results.asModifiedJarClass, Results.onJarClasses,
            Results.addClassIf_jarfiles, TaskResult.addModified, outcomes, if_true,
            Bool.false_eq_true, if_false] <;> ac_rfl
    | new d =>
        simp only [report, reportVerdict, Results.asNewJarClass, Results.onJarClasses,
          Results.addClassIf_jarfiles, TaskResult.addNew, outcomes]
        ac_rfl
    | failed known =>
        simp only [report, reportVerdict, Results.asFailedJarClass, Results.onJarClasses,
          Results.addClassIf_jarfiles, outcomes]
        ac_rfl

end Reports

section Records
variable {H : Bytes → Sha256} (options : Options) (filename : Bytes)

/-- The entry was digested and did not parse. -/
def isFailed : Verdict → Bool
  | .failed _ => true
  | _ => false

/-- The record that a diff gets for a verdict. -/
def classRecord (x : ReadEntry H × Verdict) : ClassResult :=
  match x.2 with
  | .unchanged _ => { strongClassname := x.1.entry.strongClassname filename,
                      isSamePublicDigest := true }
  | .modified _ same => { strongClassname := x.1.entry.strongClassname filename,
                          isModified := true, isSamePublicDigest := same }
  | .new _ => { strongClassname := x.1.entry.strongClassname filename, isNew := true }
  | .failed _ => { strongClassname := x.1.entry.strongClassname filename,
                   isSamePublicDigest := true }

/-- The record names the entry, and an entry that did not parse is not recorded
with the same digest. -/
def Tells (record : ClassResult) (x : ReadEntry H × Verdict) : Prop :=
  record.strongClassname = x.1.entry.strongClassname filename ∧
    (isFailed x.2 = true → record.isSamePublicDigest = false)

theorem tells_classRecord_iff (x : ReadEntry H × Verdict) :
    Tells filename (classRecord filename x) x ↔ ¬isFailed x.2 = true := by
  obtain ⟨e, v⟩ := x
  cases v <;> simp [Tells, classRecord, isFailed]

theorem report_classResults (r : Results) (e : ReadEntry H) (v : Verdict) :
    (report options filename r e v).classResults =
      r.classResults ++ if options.isDiff then [classRecord filename (e, v)] else [] := by
  cases v <;> simp only [report, reportVerdict, Results.onJarClasses, Results.asUnchangedJarClass,
    Results.asModifiedJarClass, Results.asNewJarClass, Results.asFailedJarClass,
    Results.addClassIf_classResults, classRecord]

theorem report_fileResults (r : Results) (e : ReadEntry H) (v : Verdict) :
    (report options filename r e v).fileResults = r.fileResults := by
  cases v <;> simp [report, reportVerdict, Results.onJarClasses, Results.asUnchangedJarClass,
    Results.asModifiedJarClass, Results.asNewJarClass, Results.asFailedJarClass]

/-- The verdicts on all entries of a jar. -/
theorem advances_notes (xs : List (ReadEntry H × Verdict)) (n : Notes) :
    Advances (xs.countP fun x => isFailed x.2) n.results.jarfiles.classfiles
        (xs.foldl (note options filename) n).results.jarfiles.classfiles ∧
      (xs.foldl (note options filename) n).results.standaloneClassfiles =
        n.results.standaloneClassfiles ∧
      (xs.foldl (note options filename) n).results.classResults = n.results.classResults ++
        (if options.isDiff then xs.map (classRecord filename) else []) ∧
      (xs.foldl (note options filename) n).results.fileResults = n.results.fileResults := by
  induction xs generalizing n with
  | nil => exact ⟨Advances.refl _, rfl, by simp, rfl⟩
  | cons x xs ih =>
      obtain ⟨hadvances, hstandalone, hrecords, hfiles⟩ := ih (note options filename n x)
      obtain ⟨hadvances', hstandalone'⟩ := advances_report options n.results filename x.1 x.2
      rw [List.foldl_cons]
      refine ⟨?_, hstandalone.trans hstandalone', ?_, hfiles.trans ?_⟩
      · have hboth := hadvances'.trans hadvances
        convert hboth using 1
        rw [List.countP_cons, Nat.add_comm]
        cases x.2 <;> rfl
      · rw [hrecords]
        change (report options filename n.results x.1 x.2).classResults ++ _ = _
        rw [report_classResults, List.append_assoc]
        split_ifs <;> simp
      · exact report_fileResults options filename n.results x.1 x.2

end Records

section Sizes
variable {A : ∀ α : Type, Allocator α} {H : Bytes → Sha256} {garbage : ℕ → UInt8}
  {options : Options} {jar : JarFile} {s s' : TaskState}

theorem add_length {α : Type} {L : Layout α} {t t' : Table α} {p id : ℕ}
    (h : t.add L p = some (t', id)) :
    t'.autoIncrementIndex.length = t.autoIncrementIndex.length + 1 := by
  obtain ⟨row, -, h⟩ := Option.bind_eq_some_iff.mp h
  obtain ⟨⟨t₁, id₁⟩, hadd, h⟩ := Option.bind_eq_some_iff.mp h
  obtain ⟨rfl, -⟩ := Prod.mk.inj (Option.some.inj h)
  obtain ⟨row', -, hadd⟩ := Option.bind_eq_some_iff.mp hadd
  split_ifs at hadd
  obtain ⟨rfl, -⟩ := Prod.mk.inj (Option.some.inj hadd)
  simp [Table.markNew]

theorem update_length {α : Type} {L : Layout α} {A : Allocator α} {t t' : Table α} {p : ℕ}
    (h : t.update L A p = some t') :
    t'.autoIncrementIndex.length = t.autoIncrementIndex.length := by
  obtain ⟨row, -, h⟩ := Option.bind_eq_some_iff.mp h
  obtain ⟨⟨t₁, id₁⟩, hupdate, h⟩ := Option.bind_eq_some_iff.mp h
  obtain rfl := Option.some.inj h
  obtain ⟨row', -, hupdate⟩ := Option.bind_eq_some_iff.mp hupdate
  obtain ⟨destRow, -, hupdate⟩ := Option.bind_eq_some_iff.mp hupdate
  split_ifs at hupdate with hdest
  · obtain ⟨rfl, -⟩ := Prod.mk.inj (Option.some.inj hupdate)
    rfl
  · obtain ⟨_, -, hupdate⟩ := Option.bind_eq_some_iff.mp hupdate
    obtain ⟨rfl, -⟩ := Prod.mk.inj (Option.some.inj hupdate)
    rfl

theorem digestEntry_files {e : JarEntry} {strongClassname : Bytes} {row : Option ClassFileCols}
    {digest : Option DigestCol}
    (h : digestEntry A H garbage options s e strongClassname row = .returned (s', digest)) :
    s'.db.files = s.db.files := by
  unfold digestEntry at h
  cases hreader : construct .memory e.content garbage with
  | none =>
      rw [hreader] at h
      cases h
  | some reader =>
      simp only [hreader] at h
      cases hparse : parse reader with
      | none =>
          simp only [hparse, Outcome.returned.injEq, Prod.mk.injEq] at h
          rw [← h.1]
      | some result =>
          simp only [hparse] at h
          obtain ⟨d, -, h⟩ := Outcome.bind_eq_returned_iff.mp h
          split_ifs at h
          · simp only [Outcome.returned.injEq, Prod.mk.injEq] at h
            rw [← h.1]
          · obtain ⟨stored, -, h⟩ := Outcome.bind_eq_returned_iff.mp h
            simp only [Outcome.returned.injEq, Prod.mk.injEq] at h
            rw [← h.1]

/-- No entry adds a file. -/
theorem processEntry_size {e : JarEntry} (h : processEntry A H garbage options s e = .returned s') :
    s'.db.files.autoIncrementIndex = s.db.files.autoIncrementIndex := by
  unfold processEntry at h
  obtain ⟨jarRow, -, h⟩ := Outcome.bind_eq_returned_iff.mp h
  obtain ⟨row, -, h⟩ := Outcome.bind_eq_returned_iff.mp h
  have hcounted : (if row.isSome then s else s.countClass jarRow).db.files.autoIncrementIndex =
      s.db.files.autoIncrementIndex := by
    split_ifs <;> rfl
  cases hfilter : row.filter (isClassfileUnchanged e) with
  | some r =>
      simp only [hfilter, Outcome.returned_bind] at h
      obtain rfl := Outcome.returned.inj h
      exact hcounted
  | none =>
      simp only [hfilter] at h
      obtain ⟨⟨s₁, digest⟩, hdigest, h⟩ := Outcome.bind_eq_returned_iff.mp h
      have hfiles := digestEntry_files hdigest
      cases digest with
      | some d =>
          obtain rfl := Outcome.returned.inj h
          exact (congrArg Table.autoIncrementIndex hfiles).trans hcounted
      | none =>
          obtain rfl := Outcome.returned.inj h
          exact (congrArg Table.autoIncrementIndex hfiles).trans hcounted

theorem processEntries_size {es : List JarEntry}
    (h : es.foldlM (processEntry A H garbage options) s = .returned s') :
    s'.db.files.autoIncrementIndex = s.db.files.autoIncrementIndex := by
  induction es generalizing s with
  | nil =>
      obtain rfl := Outcome.returned.inj h
      rfl
  | cons e es ih =>
      rw [List.foldlM_cons] at h
      obtain ⟨s₁, hentry, hrest⟩ := Outcome.bind_eq_returned_iff.mp h
      rw [ih hrest, processEntry_size hentry]

theorem start_size {db : DigestDb} {results : Results} {started : Bool}
    (h : DigestTasks.start A options jar db results = some (s, started)) :
    s.db.files.autoIncrementIndex.length ≤ db.files.autoIncrementIndex.length + 1 := by
  obtain ⟨⟨db₁, p, isNew⟩, hrow, h⟩ := Option.bind_eq_some_iff.mp h
  obtain ⟨row, -, h⟩ := Option.bind_eq_some_iff.mp h
  obtain ⟨rfl, -⟩ := Prod.mk.inj (Option.some.inj h)
  unfold getOrCreateFileRow at hrow
  cases hkey : db.files.findByKey jar.filename with
  | some q =>
      simp only [hkey, Option.some.injEq, Prod.mk.injEq] at hrow
      rw [← hrow.1]
      exact Nat.le_succ _
  | none =>
      simp only [hkey] at hrow
      obtain ⟨⟨pool, offset⟩, -, hrow⟩ := Option.bind_eq_some_iff.mp hrow
      split_ifs at hrow
      · simp only [Option.some.injEq, Prod.mk.injEq] at hrow
        rw [← hrow.1]
        exact Nat.le_succ _
      · obtain ⟨⟨files, id⟩, hadd, hrow⟩ := Option.bind_eq_some_iff.mp hrow
        simp only [Option.some.injEq, Prod.mk.injEq] at hrow
        rw [← hrow.1]
        exact (add_length hadd).le

theorem finish_size {out : DigestDb × Results} (h : finish A H options jar s = some out) :
    out.1.files.autoIncrementIndex.length = s.db.files.autoIncrementIndex.length := by
  obtain ⟨jarRow, -, h⟩ := Option.bind_eq_some_iff.mp h
  split_ifs at h
  · obtain rfl := Option.some.inj h
    rfl
  · obtain ⟨digest, -, h⟩ := Option.bind_eq_some_iff.mp h
    obtain rfl := Option.some.inj h
    rfl
  · obtain ⟨digest, -, h⟩ := Option.bind_eq_some_iff.mp h
    obtain ⟨files, hupdate, h⟩ := Option.bind_eq_some_iff.mp h
    obtain rfl := Option.some.inj h
    exact (update_length hupdate).trans rfl

/-- A run adds at most one file. -/
theorem run_size {entries : List JarEntry} {db : DigestDb} {results : Results}
    {out : DigestDb × Results}
    (h : run A H garbage options jar entries db results = .returned out) :
    out.1.files.autoIncrementIndex.length ≤ db.files.autoIncrementIndex.length + 1 := by
  obtain ⟨s, hentries, h⟩ := Outcome.bind_eq_returned_iff.mp h
  obtain ⟨⟨s₀, started⟩, hstart, hentries⟩ := Outcome.bind_eq_returned_iff.mp hentries
  rw [finish_size (Outcome.ofOption_eq_returned_iff.mp h)]
  refine le_trans (Nat.le_of_eq ?_) (start_size (Outcome.ofOption_eq_returned_iff.mp hstart))
  cases started with
  | true =>
      rw [processEntries_size hentries]
  | false =>
      obtain rfl := Outcome.returned.inj hentries
      rfl

end Sizes

section Jars
variable (A : ∀ α : Type, Allocator α) {H : Bytes → Sha256} (garbage : ℕ → UInt8)
  (options : Options) {words : List Bytes} {jar : JarFile} {db : DigestDb}
  {fs : List (Row FileCols)} {cs : List (Row ClassFileCols)}

/-- What a run leaves alone and what it adds. -/
structure Accounts (isDiff : Bool) (jarExcess : ℕ) (records : List ClassResult) (r r' : Results) :
    Prop where
  standalone : Advances 0 r.standaloneClassfiles r'.standaloneClassfiles
  classes : Advances jarExcess r.jarfiles.classfiles r'.jarfiles.classfiles
  classResults : r'.classResults = r.classResults ++ records
  fileResults : r'.fileResults.length = r.fileResults.length + isDiff.toNat

/-- The jar is skipped. -/
def skipped (db : DigestDb) (jar : JarFile) : Bool :=
  (fileRow db jar.filename).any fun row => isFileUnchanged options jar false row.cols

/-- The class entries that are processed, with what becomes of them. -/
def processed (db : DigestDb) (jar : JarFile) (es : List (ReadEntry H)) :
    List (ReadEntry H × Verdict) :=
  if skipped options db jar then []
  else (rules H options.dryRun jar.filename).verdicts (stored db) es

/-- `end` for a jar that was not skipped does not touch the classes. -/
theorem accounts_reportJar (jar : JarFile) (isNew : Bool) (r : Results) (row : FileCols)
    (digest : DigestCol) :
    (reportJar options jar isNew (countJar r row) row digest).standaloneClassfiles =
        r.standaloneClassfiles ∧
      (reportJar options jar isNew (countJar r row) row digest).jarfiles.classfiles =
        r.jarfiles.classfiles ∧
      (reportJar options jar isNew (countJar r row) row digest).classResults = r.classResults ∧
      (reportJar options jar isNew (countJar r row) row digest).fileResults.length =
        r.fileResults.length + options.isDiff.toNat := by
  cases isNew <;> simp [reportJar, countJar, Results.asNewJar, Results.asModifiedJar,
    Results.length_addFile]

/-- A skipped jar counts its classes as unchanged. -/
theorem accounts_skipped (h : Valid words db fs cs) {row : Row FileCols}
    (hrow : fileRow db jar.filename = some row)
    (hunchanged : isFileUnchanged options jar false row.cols = true)
    (entries : List JarEntry) (r : Results) :
    ∃ r', run A H garbage options jar entries db r = .returned (db, r') ∧
      Accounts options.isDiff 0 [] r r' := by
  obtain ⟨p, -, hstart, hready⟩ := start_known A options h hrow r
  rw [hunchanged] at hstart hready
  let r₁ := (countJar r row.cols).onJarClasses fun stats =>
    { stats with taskResult := { stats.taskResult with
      count := stats.taskResult.count + row.cols.classfileCount
      unchangedCount := stats.taskResult.unchangedCount + row.cols.classfileCount } }
  have hfinish : finish A H options jar ⟨db, ⟨p, false, true, ∅⟩, r⟩ =
      some (db, r₁.asUnchangedJar options.isDiff jar.filename) := by
    simp only [finish, hready.lookup, Option.bind_eq_bind, Option.bind_some, if_true]
    rfl
  refine ⟨_, run_skipped A garbage options hstart hfinish, ?_, ?_, ?_, ?_⟩
  · have hsame : (r₁.asUnchangedJar options.isDiff jar.filename).standaloneClassfiles =
        r.standaloneClassfiles := by
      simp [Results.asUnchangedJar, r₁, Results.onJarClasses, countJar]
    rw [hsame]
    exact Advances.refl _
  · apply advances_of_eq row.cols.classfileCount
    · simp [Results.asUnchangedJar, r₁, Results.onJarClasses, countJar]
    · simp only [Results.asUnchangedJar, r₁, Results.onJarClasses, countJar, outcomes,
        Results.addFile_jarfiles]
      change _ = _ + (0 : UInt32)
      rw [UInt32.add_zero]
      ac_rfl
  · simp [Results.asUnchangedJar, r₁, Results.onJarClasses, countJar]
  · rw [Results.asUnchangedJar, Results.length_addFile]
    rfl

/-- A run over a jar. -/
theorem jar_accounts (hw : Lexicon words) (h : Valid words db fs cs) (hmem : jar.filename ∈ words)
    (hroom : fs.length + 1 < 2 ^ 64 - 1) (es : List (ReadEntry H))
    (hnames : ∀ e ∈ es, e.name ∈ words) (r : Results) :
    ∃ db' r' fs' cs', run A H garbage options jar (es.map fun e => e.entry) db r =
        .returned (db', r') ∧ Valid words db' fs' cs' ∧
      Accounts options.isDiff ((processed options db jar es).countP fun x => isFailed x.2)
        (if options.isDiff then (processed options db jar es).map (classRecord jar.filename)
          else []) r r' := by
  cases hskipped : skipped options db jar with
  | true =>
      obtain ⟨row, hrow, hunchanged⟩ := (Option.any_eq_true _ _).mp hskipped
      obtain ⟨r', hrun, haccounts⟩ := @accounts_skipped A H garbage options _ _ _ _ _ h row hrow
        hunchanged (es.map fun e => e.entry) r
      refine ⟨db, r', fs, cs, hrun, h, ?_⟩
      simpa [processed, hskipped] using haccounts
  | false =>
      obtain ⟨s₀, fs₀, row₀, hstart, hready₀, hstored₀, hresults₀, hchanged, -⟩ :=
        start_changed A options hw h hmem (fun _ _ => hroom) hskipped r
      obtain ⟨s, fs₁, cs₁, row₁, hrun, hready, -, hnotes, hstep, -⟩ :=
        processEntries_spec A garbage options hw es hnames hready₀
      obtain ⟨digest, db', fs', -, hfinish, hvalid, -⟩ :=
        finish_spec A H options hready (by rw [hstep.task, hchanged])
      obtain ⟨hstandalone, hclasses, hrecords, hfiles⟩ := accounts_reportJar options jar
        s.task.isNewJarFile s.results row₁.cols digest
      have hprocessed : processed options db jar es =
          (rules H options.dryRun jar.filename).verdicts (stored s₀.db) es := by
        rw [processed, hskipped, hstored₀]
        rfl
      obtain ⟨hadvances, hstandalone', hrecords', hfiles'⟩ := advances_notes options jar.filename
        (processed options db jar es) (notesOf s₀ row₀)
      rw [hprocessed, ← hnotes] at hadvances hstandalone' hrecords' hfiles'
      simp only [notesOf, hresults₀] at hadvances hstandalone' hrecords' hfiles'
      refine ⟨db', _, fs', cs₁, run_eq A garbage options hstart hrun hfinish, hvalid, ?_, ?_, ?_,
        ?_⟩
      · rw [hstandalone, hstandalone']
        exact Advances.refl _
      · rw [hclasses, hprocessed]
        exact hadvances
      · rw [hrecords, hrecords', hprocessed]
      · rw [hfiles, hfiles']

end Jars

section ClassFiles
variable (A : ∀ α : Type, Allocator α) (H : Bytes → Sha256) (garbage : ℕ → UInt8)
  (options : Options) (r : Results) {words : List Bytes} {db : DigestDb}
  {fs : List (Row FileCols)} {cs : List (Row ClassFileCols)}

/-- A standalone class file with one outcome. -/
theorem accounts_of_eq {isDiff : Bool} {r' : Results} {records : List ClassResult}
    (hcount : r'.standaloneClassfiles.taskResult.count =
      r.standaloneClassfiles.taskResult.count + 1)
    (houtcomes : outcomes r'.standaloneClassfiles = outcomes r.standaloneClassfiles + 1)
    (hjars : r'.jarfiles = r.jarfiles) (hrecords : r'.classResults = r.classResults ++ records)
    (hfiles : r'.fileResults.length = r.fileResults.length + isDiff.toNat) :
    Accounts isDiff 0 records r r' where
  standalone := advances_of_eq 1 hcount (houtcomes.trans (UInt32.add_zero _).symm)
  classes := by
    rw [hjars]
    exact Advances.refl _
  classResults := hrecords
  fileResults := hfiles

theorem accounts_unchanged (isDiff : Bool) (filename : Bytes) :
    Accounts isDiff 0 [] r ((counting r).asUnchangedClassFile isDiff filename) := by
  apply accounts_of_eq
  · simp [Results.asUnchangedClassFile, counting, TaskResult.addUnchanged]
  · simp only [Results.asUnchangedClassFile, counting, TaskResult.addUnchanged,
      Results.addFile_standaloneClassfiles, outcomes]
    ac_rfl
  · simp [Results.asUnchangedClassFile, counting]
  · simp [Results.asUnchangedClassFile, counting]
  · simp [Results.asUnchangedClassFile, counting, Results.length_addFile]

theorem accounts_failed (isDiff : Bool) (filename : Bytes) :
    Accounts isDiff 0 [] r ((counting r).asFailedClassFile isDiff filename) := by
  apply accounts_of_eq
  · simp [Results.asFailedClassFile, counting]
  · simp only [Results.asFailedClassFile, counting, Results.addFile_standaloneClassfiles, outcomes]
    ac_rfl
  · simp [Results.asFailedClassFile, counting]
  · simp [Results.asFailedClassFile, counting]
  · simp [Results.asFailedClassFile, counting, Results.length_addFile]

/-- A class file that was digested gets a record, in a diff or not. -/
theorem accounts_reportFile (isDiff : Bool) (strongClassname : Bytes) (digest : DigestCol)
    (found : Option FileCols) :
    ∃ record, Accounts isDiff 0 [record] r
      (reportFile (counting r) isDiff strongClassname digest found) := by
  cases found with
  | none =>
      refine ⟨{ strongClassname := strongClassname, isNew := true }, ?_⟩
      apply accounts_of_eq
      · simp [reportFile, countingParsed, Results.asNewClassFile, Results.addClass, counting,
          TaskResult.addNew]
      · simp only [reportFile, countingParsed, Results.asNewClassFile, Results.addClass, counting,
          TaskResult.addNew, Results.addFile_standaloneClassfiles, outcomes]
        ac_rfl
      · simp [reportFile, countingParsed, Results.asNewClassFile, Results.addClass, counting]
      · simp [reportFile, countingParsed, Results.asNewClassFile, Results.addClass, counting]
      · simp [reportFile, countingParsed, Results.asNewClassFile, Results.addClass, counting,
          Results.length_addFile]
  | some row =>
      refine ⟨{ strongClassname := strongClassname, isModified := true,
                isSamePublicDigest := digest == row.digest }, ?_⟩
      apply accounts_of_eq
      · simp only [reportFile, countingParsed, Results.asModifiedClassFile, Results.addClass,
          counting, Results.addFile_standaloneClassfiles, TaskResult.addModified]
        split_ifs <;> rfl
      · cases hsame : digest == row.digest with
        | true =>
            simp only [reportFile, hsame, countingParsed, Results.asModifiedClassFile,
              Results.addClass, counting, Results.addFile_standaloneClassfiles,
              TaskResult.addModified, outcomes, if_true]
            ac_rfl
        | false =>
            simp only [reportFile, hsame, countingParsed, Results.asModifiedClassFile,
              Results.addClass, counting, Results.addFile_standaloneClassfiles,
              TaskResult.addModified, outcomes, Bool.false_eq_true, if_false]
            ac_rfl
      · simp [reportFile, countingParsed, Results.asModifiedClassFile, Results.addClass, counting]
      · simp [reportFile, countingParsed, Results.asModifiedClassFile, Results.addClass, counting]
      · simp [reportFile, countingParsed, Results.asModifiedClassFile, Results.addClass, counting,
          Results.length_addFile]

/-- A standalone class file. -/
theorem classFile_accounts (hw : Lexicon words) (h : Valid words db fs cs)
    (hroom : fs.length + 1 < 2 ^ 64 - 1) (file : ReadFile) (hfilename : file.info.filename ∈ words)
    (hnames : ∀ c s classname, parsed .file file.info.content garbage = some (c, s) →
      getMainClassname c = some classname → classname ∈ words) :
    (FileStrays A H garbage options db file.info ∧
        doClassFile A H garbage options db r file.info = .undefined) ∨
      ¬ FileStrays A H garbage options db file.info ∧
        ∃ db' r' fs' cs' records, doClassFile A H garbage options db r file.info =
            .returned (db', r') ∧
          Valid words db' fs' cs' ∧ fs'.length ≤ fs.length + 1 ∧
          Accounts options.isDiff 0 records r r' := by
  rw [doClassFile_eq r A H garbage options h]
  split_ifs with hunchanged
  · refine .inr ⟨?_, db, _, fs, cs, [], rfl, h, Nat.le_succ _, accounts_unchanged r _ _⟩
    rintro ⟨-, hchanged, -⟩
    exact absurd (hunchanged.symm.trans hchanged) (by simp)
  · obtain ⟨reader, hreader, hparse |
      ⟨c, s, digest, classname, hparse, hparsed, hdigest, hclassname⟩⟩ := file.cases H garbage
    · simp only [hreader, hparse]
      refine .inr ⟨?_, db, _, fs, cs, [], rfl, h, Nat.le_succ _, accounts_failed r _ _⟩
      rintro ⟨-, -, c, s, digest, hparsed, -⟩
      rw [parsed, hreader, Option.bind_some, hparse] at hparsed
      cases hparsed
    · obtain ⟨record, haccounts⟩ := accounts_reportFile r options.isDiff
        (DomainTables.getStrongClassname file.info.filename classname) digest
        ((fileRow db file.info.filename).map fun row => row.cols)
      simp only [hreader, hparse, digestFile, hclassname, hdigest, Outcome.ofOption_some,
        Outcome.returned_bind]
      split_ifs with hdry
      · refine .inr ⟨?_, db, _, fs, cs, _, rfl, h, Nat.le_succ _, haccounts⟩
        rintro ⟨hnot, -⟩
        exact absurd (hdry.symm.trans hnot) (by simp)
      · have hstrays : FileStrays A H garbage options db file.info ↔
            Strays A db file.info digest := by
          constructor
          · rintro ⟨-, -, c', s', digest', hparsed', hdigest', hstrays⟩
            obtain ⟨rfl, -⟩ := Prod.mk.inj (Option.some.inj (hparsed.symm.trans hparsed'))
            obtain rfl := Option.some.inj (hdigest.symm.trans hdigest')
            exact hstrays
          · exact fun hstrays => ⟨by simpa using hdry, by simpa using hunchanged, c, s, digest,
              hparsed, hdigest, hstrays⟩
        rw [hstrays]
        rcases updateDbInMemory_iff A hw h hroom file.info hfilename
            (hnames c s classname hparsed hclassname) digest with
          ⟨hstray, hupdate⟩ | ⟨hfound, db', fs', cs', hupdate, hvalid, hlength⟩
        · rw [hupdate]
          exact .inl ⟨hstray, rfl⟩
        · rw [hupdate]
          exact .inr ⟨hfound, db', _, fs', cs', _, rfl, hvalid, hlength, haccounts⟩

end ClassFiles

section Runs
variable (A : ∀ α : Type, Allocator α) {H : Bytes → Sha256} (garbage : ℕ → UInt8)
  (options : Options)

/-- The texts of the input are words of the pool. -/
def InputTexts (words : List Bytes) : Input H → Prop
  | .jar f es => f.filename ∈ words ∧ ∀ e ∈ es, e.name ∈ words
  | .classFile file => file.info.filename ∈ words ∧
      ∀ c s classname, parsed .file file.info.content garbage = some (c, s) →
        getMainClassname c = some classname → classname ∈ words

/-- The input is a class file that loses the id of its file row. -/
def Strays (db : DigestDb) : Input H → Prop
  | .jar _ _ => False
  | .classFile file => FileStrays A H garbage options db file.info

/-- The class entries of the input that are read and do not parse. -/
def failed (db : DigestDb) : Input H → ℕ
  | .jar f es => (processed options db f es).countP fun x => isFailed x.2
  | .classFile _ => 0

/-- The report has grown by one record for every class entry that was
processed. -/
def Told (s s' : DigestDb × Results) : Input H → Prop
  | .jar f es => ∃ records, s'.2.classResults = s.2.classResults ++ records ∧
      List.Forall₂ (Tells f.filename) records (processed options s.1 f es)
  | .classFile _ => True

/-- A run over jars and class files. -/
def processAll (s : DigestDb × Results) (xs : List (Input H)) : Outcome (DigestDb × Results) :=
  xs.foldlM (fun s x => x.process A garbage options s) s

/-- No class file of the run loses the id of its file row. -/
def NoneStrays : DigestDb × Results → List (Input H) → Prop
  | _, [] => True
  | s, x :: xs => ¬Strays A garbage options s.1 x ∧
      ∀ s', x.process A garbage options s = .returned s' → NoneStrays s' xs

/-- The report is right after every input. -/
def AllTold : DigestDb × Results → List (Input H) → Prop
  | _, [] => True
  | s, x :: xs => ∃ s', x.process A garbage options s = .returned s' ∧ Told options s s' x ∧
      AllTold s' xs

/-- The class entries of a run that are read and do not parse. -/
def failures : DigestDb × Results → List (Input H) → ℕ
  | _, [] => 0
  | s, x :: xs => failed options s.1 x +
      match x.process A garbage options s with
      | .returned s' => failures s' xs
      | _ => 0

/-- The standalone class files and the classes in jars are accounted for, and so
are the records of a diff. -/
structure OneOutcome (db : DigestDb) (xs : List (Input H)) (results : Results) : Prop where
  standalone : Balanced results.standaloneClassfiles
  classes : Balanced results.jarfiles.classfiles
  records : options.isDiff = true → AllTold A garbage options (db, {}) xs

variable {words : List Bytes} {db : DigestDb} {fs : List (Row FileCols)}
  {cs : List (Row ClassFileCols)}

/-- One input. -/
theorem process_accounts (hw : Lexicon words) (h : Valid words db fs cs)
    (hroom : fs.length + 1 < 2 ^ 64 - 1) (x : Input H) (hx : InputTexts garbage words x)
    (r : Results) :
    (Strays A garbage options db x ∧ x.process A garbage options (db, r) = .undefined) ∨
      ¬Strays A garbage options db x ∧
        ∃ db' r' fs' cs', x.process A garbage options (db, r) = .returned (db', r') ∧
          Valid words db' fs' cs' ∧ fs'.length ≤ fs.length + 1 ∧
          Advances 0 r.standaloneClassfiles r'.standaloneClassfiles ∧
          Advances (failed options db x) r.jarfiles.classfiles r'.jarfiles.classfiles ∧
          (options.isDiff = true →
            (Told options (db, r) (db', r') x ↔ failed options db x = 0)) ∧
          r'.fileResults.length = r.fileResults.length + options.isDiff.toNat := by
  cases x with
  | classFile file =>
      obtain hstrays | ⟨hfound, db', r', fs', cs', records, hprocess, hvalid, hlength, haccounts⟩ :=
        classFile_accounts A H garbage options r hw h hroom file hx.1 hx.2
      · exact .inl hstrays
      · exact .inr ⟨hfound, db', r', fs', cs', hprocess, hvalid, hlength, haccounts.standalone,
          haccounts.classes, fun _ => iff_of_true True.intro rfl, haccounts.fileResults⟩
  | jar f es =>
      obtain ⟨db', r', fs', cs', hprocess, hvalid, haccounts⟩ :=
        jar_accounts A garbage options hw h hx.1 hroom es hx.2 r
      have hsize := run_size hprocess
      rw [hvalid.files.length_eq, h.files.length_eq] at hsize
      refine .inr ⟨id, db', r', fs', cs', hprocess, hvalid, hsize, haccounts.standalone,
        haccounts.classes, fun hdiff => ?_, haccounts.fileResults⟩
      have hrecords := haccounts.classResults
      rw [if_pos hdiff] at hrecords
      have htold : Told options (db, r) (db', r') (.jar f es) ↔
          List.Forall₂ (Tells f.filename)
            ((processed options db f es).map (classRecord f.filename))
            (processed options db f es) := by
        constructor
        · rintro ⟨records, hgrown, htells⟩
          rwa [← List.append_cancel_left (hrecords.symm.trans hgrown)] at htells
        · exact fun htells => ⟨_, hrecords, htells⟩
      rw [htold, List.forall₂_map_left_iff, List.forall₂_same, failed, List.countP_eq_zero]
      exact forall₂_congr fun x _ => tells_classRecord_iff f.filename x

/-- All inputs, from any results. -/
theorem processAll_accounts (hw : Lexicon words) (xs : List (Input H))
    (hxs : ∀ x ∈ xs, InputTexts garbage words x) (h : Valid words db fs cs)
    (hroom : fs.length + xs.length < 2 ^ 64 - 1) (r : Results) :
    (¬NoneStrays A garbage options (db, r) xs ∧
        processAll A garbage options (db, r) xs = .undefined) ∨
      NoneStrays A garbage options (db, r) xs ∧
        ∃ out, processAll A garbage options (db, r) xs = .returned out ∧
          Advances 0 r.standaloneClassfiles out.2.standaloneClassfiles ∧
          Advances (failures A garbage options (db, r) xs) r.jarfiles.classfiles
            out.2.jarfiles.classfiles ∧
          (options.isDiff = true → (AllTold A garbage options (db, r) xs ↔
            failures A garbage options (db, r) xs = 0)) := by
  induction xs generalizing db fs cs r with
  | nil =>
      exact .inr ⟨trivial, (db, r), rfl, Advances.refl _, Advances.refl _,
        fun _ => iff_of_true True.intro rfl⟩
  | cons x xs ih =>
      rw [List.length_cons] at hroom
      rcases process_accounts A garbage options hw h (by omega) x (hxs x List.mem_cons_self) r with
        ⟨hstrays, hprocess⟩ |
        ⟨hfound, db', r', fs', cs', hprocess, hvalid, hlength, hstandalone, hclasses, htold, -⟩
      · refine .inl ⟨fun hnone => hnone.1 hstrays, ?_⟩
        rw [processAll, List.foldlM_cons, hprocess]
        rfl
      have hnone : NoneStrays A garbage options (db, r) (x :: xs) ↔
          NoneStrays A garbage options (db', r') xs := by
        constructor
        · exact fun hnone => hnone.2 _ hprocess
        · intro hnone
          refine ⟨hfound, fun s' hs' => ?_⟩
          obtain rfl := Outcome.returned.inj (hprocess.symm.trans hs')
          exact hnone
      have hrun : processAll A garbage options (db, r) (x :: xs) =
          processAll A garbage options (db', r') xs := by
        rw [processAll, List.foldlM_cons, hprocess]
        rfl
      have hfailures : failures A garbage options (db, r) (x :: xs) =
          failed options db x + failures A garbage options (db', r') xs := by
        rw [failures, hprocess]
      rw [hnone, hrun]
      refine (ih (fun y hy => hxs y (List.mem_cons_of_mem x hy)) hvalid (by omega) r').imp_right ?_
      rintro ⟨hrest, out, hreturned, hstandalone', hclasses', htold'⟩
      refine ⟨hrest, out, hreturned, hstandalone.trans hstandalone', ?_, fun hdiff => ?_⟩
      · rw [hfailures]
        exact hclasses.trans hclasses'
      · rw [hfailures, Nat.add_eq_zero_iff, ← htold hdiff, ← htold' hdiff]
        constructor
        · rintro ⟨s', hs', hboth⟩
          obtain rfl := Outcome.returned.inj (hprocess.symm.trans hs')
          exact hboth
        · exact fun hboth => ⟨(db', r'), hprocess, hboth⟩

/-- Every class has one outcome exactly when no class file loses the id of its file
row and no class entry that is read fails to parse. Without a diff, only the number
of these entries modulo the width of the counters shows. -/
theorem one_outcome_iff (hw : Lexicon words) (h : Valid words db fs cs) (xs : List (Input H))
    (hxs : ∀ x ∈ xs, InputTexts garbage words x) (hroom : fs.length + xs.length < 2 ^ 64 - 1) :
    (∃ out, processAll A garbage options (db, {}) xs = .returned out ∧
        OneOutcome A garbage options db xs out.2) ↔
      NoneStrays A garbage options (db, {}) xs ∧
        failures A garbage options (db, {}) xs % 2 ^ 32 = 0 ∧
          (options.isDiff = true → failures A garbage options (db, {}) xs = 0) := by
  rcases processAll_accounts A garbage options hw xs hxs h hroom {} with
    ⟨hstrays, hrun⟩ | ⟨hnone, out, hrun, hstandalone, hclasses, htold⟩
  · rw [hrun]
    exact iff_of_false (by simp) fun hboth => hstrays hboth.1
  have hbalanced : Balanced out.2.standaloneClassfiles := (balanced_iff (hstandalone 0 rfl)).mpr rfl
  have hiff : Balanced out.2.jarfiles.classfiles ↔
      failures A garbage options (db, {}) xs % 2 ^ 32 = 0 := by
    rw [balanced_iff (hclasses 0 rfl), Nat.zero_add]
  constructor
  · rintro ⟨out', hreturned, hone⟩
    obtain rfl := Outcome.returned.inj (hrun.symm.trans hreturned)
    exact ⟨hnone, hiff.mp hone.classes, fun hdiff => (htold hdiff).mp (hone.records hdiff)⟩
  · rintro ⟨-, hcount, hzero⟩
    exact ⟨out, hrun, hbalanced, hiff.mpr hcount, fun hdiff => (htold hdiff).mpr (hzero hdiff)⟩

end Runs

def outcomeWords : List Bytes := ascii "x.class" :: sampleWords

theorem lexicon_outcomeWords : Lexicon outcomeWords := ⟨by decide, by decide⟩

/-- The path of the class A with bytes that are no class file. -/
def entryN : ReadEntry sampleHash where
  entry := ⟨ascii "A.class", 0, 0, [0, 0, 0, 0]⟩
  reading := .rejected
  reads := reads_of_eq rfl

theorem inputTexts_sampleFile (garbage : ℕ → UInt8) :
    InputTexts garbage outcomeWords (.classFile sampleFile : Input sampleHash) := by
  refine ⟨by decide, fun c s classname h => ?_⟩
  have hnone : parsed .file sampleFile.info.content garbage = none := rfl
  rw [hnone] at h
  cases h

theorem failed_of_empty {words : List Bytes} {db : DigestDb} (h : Valid words db [] [])
    (hstored : stored db = fun _ => none) (options : Options) (e : ReadEntry sampleHash) :
    failed options db (.jar sampleJar [e]) =
      if isFailed (digestVerdict e.reading none) then 1 else 0 := by
  have hskipped : skipped options db sampleJar = false := by
    rw [skipped, fileRow_of_empty h]
    rfl
  rw [failed, processed, hskipped, hstored]
  change List.countP _ [(e, digestVerdict e.reading none)] = _
  rw [List.countP_singleton]

theorem one_outcome_sample :
    ∃ db out, DigestDb.create = some db ∧
      processAll Allocator.next (fun _ => 0) { isDiff := true } (db, {})
        [.jar sampleJar [entryA], .classFile sampleFile] = .returned out ∧
      OneOutcome Allocator.next (fun _ => 0) { isDiff := true } db
        [.jar sampleJar [entryA], .classFile sampleFile] out.2 := by
  obtain ⟨db, hcreate, hvalid, hstored⟩ := create_valid outcomeWords (by decide)
  have htexts : ∀ x ∈ [(Input.jar sampleJar [entryA] : Input sampleHash),
      .classFile sampleFile], InputTexts (fun _ => 0) outcomeWords x := by
    simp only [List.forall_mem_cons, List.not_mem_nil, false_imp_iff, implies_true, and_true]
    refine ⟨⟨by decide, fun e he => ?_⟩, inputTexts_sampleFile _⟩
    rw [List.mem_singleton.mp he]
    decide
  have hnone : NoneStrays Allocator.next (fun _ => 0) { isDiff := true } (db, {})
      [Input.jar sampleJar [entryA], .classFile sampleFile] := by
    refine ⟨id, fun s' _ => ⟨?_, fun _ _ => trivial⟩⟩
    rintro ⟨-, -, c, s, digest, hparsed, -⟩
    cases (show parsed .file sampleFile.info.content (fun _ => 0) = none from rfl).symm.trans
      hparsed
  have hzero : failures Allocator.next (fun _ => 0) { isDiff := true } (db, {})
      [Input.jar sampleJar [entryA], .classFile sampleFile] = 0 := by
    rw [failures, failed_of_empty hvalid hstored]
    have hclass : isFailed (digestVerdict entryA.reading none) = false := rfl
    rw [hclass, if_neg Bool.false_ne_true, Nat.zero_add]
    split
    · rw [failures, failed]
      split <;> rfl
    · rfl
  obtain ⟨out, hrun, hone⟩ := (one_outcome_iff Allocator.next (fun _ => 0) { isDiff := true }
    lexicon_outcomeWords hvalid _ htexts (by decide)).mpr
      ⟨hnone, by rw [hzero]; rfl, fun _ => hzero⟩
  exact ⟨db, out, hcreate, hrun, hone⟩

/-- A class entry that does not parse is counted as an error twice. -/
theorem failed_class_counts_twice :
    ¬∀ (A : ∀ α : Type, Allocator α) (H : Bytes → Sha256) (garbage : ℕ → UInt8)
      (options : Options) (words : List Bytes) (db : DigestDb) (fs : List (Row FileCols))
      (cs : List (Row ClassFileCols)) (xs : List (Input H)),
      Lexicon words → Valid words db fs cs → (∀ x ∈ xs, InputTexts garbage words x) →
      fs.length + xs.length < 2 ^ 64 - 1 →
      ∃ out, processAll A garbage options (db, {}) xs = .returned out ∧
        OneOutcome A garbage options db xs out.2 := by
  intro h
  obtain ⟨db, -, hvalid, hstored⟩ := create_valid outcomeWords (by decide)
  have htexts : ∀ x ∈ [(Input.jar sampleJar [entryN] : Input sampleHash)],
      InputTexts (fun _ => 0) outcomeWords x := by
    intro x hx
    rw [List.mem_singleton.mp hx]
    refine ⟨by decide, fun e he => ?_⟩
    rw [List.mem_singleton.mp he]
    decide
  obtain ⟨out, hrun, hone⟩ := h Allocator.next sampleHash (fun _ => 0) {} outcomeWords db [] [] _
    lexicon_outcomeWords hvalid htexts (by decide)
  obtain ⟨-, hrun'⟩ | ⟨-, out', hrun', -, hclasses, -⟩ := processAll_accounts Allocator.next
    (fun _ => 0) {} lexicon_outcomeWords _ htexts hvalid (by decide) {}
  · cases hrun.symm.trans hrun'
  obtain rfl := Outcome.returned.inj (hrun.symm.trans hrun')
  have hcount := (balanced_iff (hclasses 0 rfl)).mp hone.classes
  have htwice : failures Allocator.next (fun _ => 0) {} (db, {})
      [Input.jar sampleJar [entryN]] = 1 := by
    rw [failures, failed_of_empty hvalid hstored]
    have hclass : isFailed (digestVerdict entryN.reading none) = true := rfl
    rw [hclass, if_pos rfl]
    split <;> rfl
  rw [htwice] at hcount
  cases hcount

end Tarracsh.ClassOutcomes
