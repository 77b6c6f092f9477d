import Tarracsh.DigestOutcomes

/-!
# The order of the entries

Counters and digest map are the same in every order of the entries once the
verdicts are, and the verdicts are as long as no entry reacts otherwise to what
another one has stored.
-/
namespace Tarracsh.DigestOrder
open ByteStrings QueryTrees StringPool TableModel TableInvariant DomainTables CallGraphTables
open CallGraphInvariant ClassFileDigest JarEntries Reporting DigestTasks DigestRuns
open DigestSimulation DigestOutcomes KeyedReactions

variable {H : Bytes → Sha256}

/-- What is counted for an entry. -/
def bump (v : Verdict) (j : JarfileStats) : JarfileStats :=
  let stats := match v with
    | .unchanged _ => { j.classfiles with taskResult := j.classfiles.taskResult.addUnchanged }
    | .modified _ same => { j.classfiles with
        parsedCount := j.classfiles.parsedCount + 1
        taskResult := j.classfiles.taskResult.addModified same }
    | .new _ => { j.classfiles with
        parsedCount := j.classfiles.parsedCount + 1
        taskResult := j.classfiles.taskResult.addNew }
    | .failed _ => { j.classfiles with errors := j.classfiles.errors + 1 + 1 }
  { j with classfiles := { stats with
    count := stats.count + 1
    taskResult := { stats.taskResult with count := stats.taskResult.count + 1 } } }

/-- The part of the notes that does not depend on the order. -/
structure Tally where
  classfileCount : UInt32
  digestMap : Finmap fun _ : Bytes => DigestCol
  standaloneClassfiles : ClassfileStats
  jarfiles : JarfileStats

def tallyOf (n : Notes) : Tally :=
  ⟨n.classfileCount, n.digestMap, n.results.standaloneClassfiles, n.results.jarfiles⟩

def tally (t : Tally) (x : ReadEntry H × Verdict) : Tally :=
  ⟨counted t.classfileCount x.2, remember t.digestMap x.1 x.2, t.standaloneClassfiles,
    bump x.2 t.jarfiles⟩

theorem report_stats (options : Options) (filename : Bytes) (r : Results) (e : ReadEntry H)
    (v : Verdict) :
    (report options filename r e v).jarfiles = bump v r.jarfiles ∧
      (report options filename r e v).standaloneClassfiles = r.standaloneClassfiles := by
  cases v <;>
    simp [report, reportVerdict, bump, Results.onJarClasses, Results.asUnchangedJarClass,
      Results.asModifiedJarClass, Results.asNewJarClass, Results.asFailedJarClass]

theorem tallyOf_note (options : Options) (filename : Bytes) (n : Notes)
    (x : ReadEntry H × Verdict) : tallyOf (note options filename n x) = tally (tallyOf n) x := by
  obtain ⟨hjar, hstandalone⟩ := report_stats options filename n.results x.1 x.2
  simp only [tallyOf, note, tally, hjar, hstandalone]

theorem tallyOf_foldl (options : Options) (filename : Bytes) (xs : List (ReadEntry H × Verdict))
    (n : Notes) : tallyOf (xs.foldl (note options filename) n) = xs.foldl tally (tallyOf n) := by
  induction xs generalizing n with
  | nil => rfl
  | cons x xs ih => rw [List.foldl_cons, ih, tallyOf_note, List.foldl_cons]

theorem bump_comm (v w : Verdict) (j : JarfileStats) : bump v (bump w j) = bump w (bump v j) := by
  cases v <;> cases w <;>
    simp only [bump, TaskResult.addUnchanged, TaskResult.addNew, TaskResult.addModified] <;>
    split_ifs <;> rfl

theorem remember_comm {x y : ReadEntry H × Verdict}
    (h : x.1.entry.getClassname ≠ y.1.entry.getClassname)
    (digestMap : Finmap fun _ : Bytes => DigestCol) :
    remember (remember digestMap x.1 x.2) y.1 y.2 =
      remember (remember digestMap y.1 y.2) x.1 x.2 := by
  unfold remember
  cases x.2.digest <;> cases y.2.digest
  · rfl
  · rfl
  · rfl
  · exact Finmap.insert_insert_of_ne _ h

theorem tally_comm {x y : ReadEntry H × Verdict}
    (h : x.1.entry.getClassname ≠ y.1.entry.getClassname) (t : Tally) :
    tally (tally t x) y = tally (tally t y) x := by
  have hcount : counted (counted t.classfileCount x.2) y.2 =
      counted (counted t.classfileCount y.2) x.2 := by
    unfold counted
    split_ifs <;> rfl
  simp only [tally, hcount, remember_comm h, bump_comm y.2 x.2]

/-- What two runs over the entries must agree on: the digest of the jar, the
counters, the number of classes, and the stored classes up to row ids. -/
structure SameResults (H : Bytes → Sha256) (s s' : TaskState) (out out' : DigestDb × Results) :
    Prop where
  digest : jarDigest H s.task.digestMap = jarDigest H s'.task.digestMap
  jarfiles : out.2.jarfiles = out'.2.jarfiles
  standaloneClassfiles : out.2.standaloneClassfiles = out'.2.standaloneClassfiles
  classfileCount : (s.db.files.heap.lookup s.task.jarFileRow).map (fun r => r.cols.classfileCount) =
    (s'.db.files.heap.lookup s'.task.jarFileRow).map fun r => r.cols.classfileCount
  stored : stored out.1 = stored out'.1

section Orders
variable (A : ∀ α : Type, Allocator α) (garbage garbage' : ℕ → UInt8) (options : Options)
  {words : List Bytes} {jar : JarFile} {db : DigestDb} {fs : List (Row FileCols)}
  {cs : List (Row ClassFileCols)} {es es' : List (ReadEntry H)}

/-- The entries leave the same tally in every order. -/
theorem tally_perm (hes : JarClasses words es) (hperm : es'.Perm es) (f : ReadEntry H → Verdict)
    (t : Tally) :
    (es'.map fun e => (e, f e)).foldl tally t = (es.map fun e => (e, f e)).foldl tally t := by
  apply (hperm.map _).foldl_eq'
  intro x hx y hy z
  obtain ⟨e, he, rfl⟩ := List.mem_map.mp hx
  obtain ⟨a, ha, rfl⟩ := List.mem_map.mp hy
  by_cases heq : e = a
  · subst heq
    rfl
  · apply tally_comm
    intro hname
    exact heq (hes.eq_of_getClassname (hperm.mem_iff.mp he) (hperm.mem_iff.mp ha) hname)

/-- The results of `end` depend on the counters and not on the records. -/
theorem reportJar_stats {r r' : Results} (hjarfiles : r.jarfiles = r'.jarfiles)
    (hstandalone : r.standaloneClassfiles = r'.standaloneClassfiles) (isNew : Bool)
    (cols : FileCols) (digest : DigestCol) :
    (reportJar options jar isNew (countJar r cols) cols digest).jarfiles =
        (reportJar options jar isNew (countJar r' cols) cols digest).jarfiles ∧
      (reportJar options jar isNew (countJar r cols) cols digest).standaloneClassfiles =
        (reportJar options jar isNew (countJar r' cols) cols digest).standaloneClassfiles := by
  cases isNew <;> cases hdiff : options.isDiff <;>
    simp [reportJar, countJar, Results.asNewJar, Results.asModifiedJar, Results.addFile, hdiff,
      hjarfiles, hstandalone]

theorem undisturbed_of_dryRun (M : Bytes → Option ClassRecord)
    (h : options.dryRun = true ∨ Undisturbed (rules H false jar.filename) M es) :
    Undisturbed (rules H options.dryRun jar.filename) M es := by
  cases hdry : options.dryRun with
  | true =>
      have hidle : ∀ e, ¬(rules H true jar.filename).Writes M e := by
        intro e
        simp [Rules.Writes, rules]
      exact ⟨fun e _ a _ _ hwrites => absurd hwrites (hidle a),
        fun e _ a _ hwrites => absurd hwrites (hidle e)⟩
  | false =>
      rw [hdry] at h
      exact h.resolve_left Bool.false_ne_true

/-- Two states that differ in the order of the entries only. -/
theorem sameOutcome_of_tally {s s' : TaskState} {fs' : List (Row FileCols)}
    {cs' : List (Row ClassFileCols)} {row : Row FileCols}
    (h : Ready words options.dryRun jar.filename s fs cs row)
    (h' : Ready words options.dryRun jar.filename s' fs' cs' row)
    (hchanged : s.task.isFileUnchanged = false) (htask : s'.task = s.task)
    (hstored : stored s'.db = stored s.db) (hjarfiles : s'.results.jarfiles = s.results.jarfiles)
    (hstandalone : s'.results.standaloneClassfiles = s.results.standaloneClassfiles) :
    ∃ out out', finish A H options jar s = some out ∧ finish A H options jar s' = some out' ∧
      SameResults H s s' out out' := by
  obtain ⟨digest, db₁, fs₁, hdigest, hfinish, -, hstored₁, -⟩ := finish_spec A H options h hchanged
  obtain ⟨digest', db₂, fs₂, hdigest', hfinish', -, hstored₂, -⟩ :=
    finish_spec A H options h' (by rw [htask, hchanged])
  rw [htask] at hdigest' hfinish'
  obtain rfl := Option.some.inj (hdigest.symm.trans hdigest')
  obtain ⟨hjar, hstand⟩ := @reportJar_stats options jar _ _ hjarfiles.symm hstandalone.symm
    s.task.isNewJarFile row.cols digest
  refine ⟨_, _, hfinish, hfinish', ⟨by rw [htask], hjar, hstand, ?_, ?_⟩⟩
  · rw [h.lookup, h'.lookup]
  · exact hstored₁.trans (hstored.symm.trans hstored₂.symm)

/-- Two orders of the entries give the same outcome when the run is dry, or when
no entry that is stored under the key of another one changes what becomes of
that one, and entries that are stored under one key are stored alike. -/
theorem order_irrelevant (hw : Lexicon words) (h : Valid words db fs cs)
    (hmem : jar.filename ∈ words) (hroom : fs.length + 1 < 2 ^ 64 - 1)
    (hes : JarClasses words es) (hperm : es'.Perm es)
    (hundisturbed : options.dryRun = true ∨
      Undisturbed (rules H false jar.filename) (stored db) es) (results : Results) :
    ∃ s s' out out',
      runEntries A H garbage options jar (es.map fun e => e.entry) db results = .returned s ∧
      finish A H options jar s = some out ∧
      runEntries A H garbage' options jar (es'.map fun e => e.entry) db results = .returned s' ∧
      finish A H options jar s' = some out' ∧ SameResults H s s' out out' := by
  obtain ⟨s₀, fs₀, row₀, hstart, hready₀, hstored₀, -, -, -⟩ :=
    start_spec A options hw h hmem hroom results
  cases hunchanged : s₀.task.isFileUnchanged with
  | true =>
      obtain ⟨out, hout⟩ : ∃ out, finish A H options jar s₀ = some out := by
        simp [finish, hready₀.lookup, hunchanged]
      refine ⟨s₀, s₀, out, out, ?_, hout, ?_, hout, rfl, rfl, rfl, rfl, rfl⟩
      · simp [runEntries, hstart, hunchanged]
      · simp [runEntries, hstart, hunchanged]
  | false =>
      have hsettled := undisturbed_of_dryRun options (stored db) hundisturbed
      obtain ⟨s, fs₁, cs₁, row₁, hrun, hready, hstored, hnotes, hstep, -⟩ :=
        processEntries_spec A garbage options hw es hes.names hready₀
      obtain ⟨s', fs₂, cs₂, row₂, hrun', hready', hstored', hnotes', hstep', -⟩ :=
        processEntries_spec A garbage' options hw es' (hes.perm hperm).names hready₀
      rw [hstored₀, hsettled.verdicts_eq hes.nodup] at hnotes
      rw [hstored₀, (hsettled.perm hperm).verdicts_eq (hes.perm hperm).nodup] at hnotes'
      have htally : tallyOf (notesOf s' row₂) = tallyOf (notesOf s row₁) := by
        rw [hnotes, hnotes', tallyOf_foldl, tallyOf_foldl, tally_perm hes hperm]
      obtain ⟨hcount, hmap, hstandalone, hjarfiles⟩ := Tally.mk.inj htally
      have htask : s'.task = s.task := by
        rw [hstep'.task, hstep.task]
        exact congrArg (fun m => { s₀.task with digestMap := m }) hmap
      have hrow : row₂ = row₁ := by
        rw [hstep'.row, hstep.row]
        exact congrArg (withCount row₀) hcount
      rw [hrow] at hready'
      have hchanged : s.task.isFileUnchanged = false := by rw [hstep.task, hunchanged]
      have hmaps : stored s'.db = stored s.db := by
        rw [hstored, hstored', hstored₀, hsettled.after_perm hes.nodup hperm]
      obtain ⟨out, out', hout, hout', hsame⟩ := sameOutcome_of_tally A options hready hready'
        hchanged htask hmaps hjarfiles hstandalone
      refine ⟨s, s', out, out', ?_, hout, ?_, hout', hsame⟩
      · simp [runEntries, hstart, hunchanged, hrun]
      · simp [runEntries, hstart, hunchanged, hrun']

end Orders

/-- Entries that look and store under keys of their own. -/
theorem undisturbed_release (M : Bytes → Option ClassRecord) :
    Undisturbed (rules sampleHash false sampleJar.filename) M [entryA, entryV] where
  reaction e he a ha hne _ htarget := by
    simp only [List.mem_cons, List.not_mem_nil, or_false] at he ha
    rcases he with rfl | rfl <;> rcases ha with rfl | rfl
    · exact absurd rfl hne
    · exact absurd htarget (by decide)
    · exact absurd htarget (by decide)
    · exact absurd rfl hne
  record e he a ha _ _ htarget := by
    simp only [List.mem_cons, List.not_mem_nil, or_false] at he ha
    rcases he with rfl | rfl <;> rcases ha with rfl | rfl
    · rfl
    · exact absurd htarget (by decide)
    · exact absurd htarget (by decide)
    · rfl

theorem order_irrelevant_release :
    ∃ db s s' out out', DigestDb.create = some db ∧
      runEntries Allocator.next sampleHash (fun _ => 0) {} sampleJar
        ([entryA, entryV].map fun e => e.entry) db {} = .returned s ∧
      finish Allocator.next sampleHash {} sampleJar s = some out ∧
      runEntries Allocator.next sampleHash (fun _ => 0) {} sampleJar
        ([entryV, entryA].map fun e => e.entry) db {} = .returned s' ∧
      finish Allocator.next sampleHash {} sampleJar s' = some out' ∧
      SameResults sampleHash s s' out out' := by
  obtain ⟨db, hcreate, hvalid, -⟩ := create_valid sampleWords (by decide)
  obtain ⟨s, s', out, out', hrest⟩ := order_irrelevant Allocator.next (fun _ => 0) (fun _ => 0) {}
    lexicon_sampleWords hvalid (show sampleJar.filename ∈ sampleWords by decide) (by decide)
    jarClasses_release
    (List.Perm.swap entryA entryV []) (.inr (undisturbed_release _)) {}
  exact ⟨db, s, s', out, out', hcreate, hrest⟩

theorem jarClasses_directories : JarClasses sampleWords [entryX, entryY] where
  distinct := by decide
  classfiles := by
    intro e he
    simp only [List.mem_cons, List.not_mem_nil, or_false] at he
    rcases he with rfl | rfl <;> decide
  names := by
    intro e he
    simp only [List.mem_cons, List.not_mem_nil, or_false] at he
    rcases he with rfl | rfl <;> decide

/-- Two entries with the class A. The last one is stored. -/
theorem last_entry_is_stored :
    ¬∀ (A : ∀ α : Type, Allocator α) (H : Bytes → Sha256) (garbage garbage' : ℕ → UInt8)
      (options : Options) (words : List Bytes) (jar : JarFile) (db : DigestDb)
      (fs : List (Row FileCols)) (cs : List (Row ClassFileCols)) (es es' : List (ReadEntry H)),
      Lexicon words → Valid words db fs cs → jar.filename ∈ words →
      fs.length + 1 < 2 ^ 64 - 1 → JarClasses words es → es'.Perm es → ∀ results : Results,
      ∃ s s' out out',
        runEntries A H garbage options jar (es.map fun e => e.entry) db results = .returned s ∧
        finish A H options jar s = some out ∧
        runEntries A H garbage' options jar (es'.map fun e => e.entry) db results =
          .returned s' ∧
        finish A H options jar s' = some out' ∧ SameResults H s s' out out' := by
  intro h
  obtain ⟨db, -, hvalid, hstored⟩ := create_valid sampleWords (by decide)
  obtain ⟨s, s', out, out', hrun, hfinish, hrun', hfinish', hsame⟩ := h Allocator.next sampleHash
    (fun _ => 0) (fun _ => 0) {} sampleWords sampleJar db [] [] [entryX, entryY] [entryY, entryX]
    lexicon_sampleWords hvalid (by decide) (by decide) jarClasses_directories
    (List.Perm.swap entryX entryY []) {}
  have hmem : sampleJar.filename ∈ sampleWords := by decide
  have hstarted := started_of_empty Allocator.next {} lexicon_sampleWords hvalid hmem {}
  obtain ⟨t, o, ht, ho, hafter⟩ := run_stored Allocator.next (fun _ => 0) {} lexicon_sampleWords
    hvalid hmem (by decide) jarClasses_directories.names {} hstarted
  obtain ⟨t', o', ht', ho', hafter'⟩ := run_stored Allocator.next (fun _ => 0) {}
    lexicon_sampleWords hvalid hmem (by decide)
    (jarClasses_directories.perm (List.Perm.swap entryX entryY [])).names {} hstarted
  obtain rfl := Outcome.returned.inj (hrun.symm.trans ht)
  obtain rfl := Outcome.returned.inj (hrun'.symm.trans ht')
  obtain rfl := Option.some.inj (hfinish.symm.trans ho)
  obtain rfl := Option.some.inj (hfinish'.symm.trans ho')
  have hkey := congrFun hsame.stored (ascii "a.jar@A")
  rw [hafter, hafter', hstored] at hkey
  revert hkey
  decide

end Tarracsh.DigestOrder
