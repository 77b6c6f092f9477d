import Tarracsh.DigestOutcomes

/-!
# Digesting a jar twice

The second run finds what the first one stored. It looks under the path of an
entry, so it finds the entry if the class declares the name that its path gives,
or if the row that was there before already was that of the entry. An entry that
does not parse is stored nowhere and is counted again.
-/
namespace Tarracsh.DigestStability
open ByteStrings QueryTrees StringPool TableModel TableInvariant DomainTables CallGraphTables
open CallGraphInvariant ClassFileDigest JarEntries Reporting DigestTasks DigestRuns
open DigestSimulation DigestOutcomes KeyedReactions

variable {H : Bytes → Sha256}

/-- The local `isUnchanged` of `processEntry`. -/
def isUnchanged (s : TaskState) (e : JarEntry) : Bool :=
  match s.db.files.heap.lookup s.task.jarFileRow with
  | none => false
  | some jarRow =>
      match s.db.findClass (e.strongClassname (text s.db.pool jarRow.cols.filename)) with
      | some (some row) => isClassfileUnchanged e row
      | _ => false

section Unchanged
variable (A : ∀ α : Type, Allocator α) (garbage : ℕ → UInt8) (options : Options)

/-- Every call with an entry that parses reports it as unchanged. -/
def ReportsUnchanged : TaskState → List (ReadEntry H) → Prop
  | _, [] => True
  | s, e :: es => (e.reading ≠ .rejected → isUnchanged s e.entry = true) ∧
      ∀ s', processEntry A H garbage options s e.entry = .returned s' → ReportsUnchanged s' es

variable {options} {words : List Bytes} {filename : Bytes} {s : TaskState}
  {fs : List (Row FileCols)} {cs : List (Row ClassFileCols)} {row : Row FileCols}

/-- An entry is stored when it parses and is not up to date. -/
theorem writes_iff {M : Bytes → Option ClassRecord} {e : ReadEntry H} :
    (rules H false filename).Writes M e ↔ e.reading ≠ .rejected ∧
      (M (e.entry.strongClassname filename)).filter (upToDate e.entry) = none := by
  change (!false && (react e (M (e.entry.strongClassname filename))).digested) = true ↔ _
  unfold react
  cases hfilter : (M (e.entry.strongClassname filename)).filter (upToDate e.entry) with
  | some r => simp [Verdict.digested]
  | none =>
      cases hreading : e.reading with
      | rejected => simp [digestVerdict, Verdict.digested]
      | accepted classname d =>
          cases M (e.entry.strongClassname filename) <;> simp [digestVerdict, Verdict.digested]

theorem isUnchanged_eq {dryRun : Bool} (h : Ready words dryRun filename s fs cs row)
    (e : JarEntry) : isUnchanged s e =
      ((stored s.db (e.strongClassname filename)).filter (upToDate e)).isSome := by
  obtain ⟨found, hfind, hfound, hvalid⟩ := findClass_spec h.valid (e.strongClassname filename)
  rw [← hfound, ← filter_isClassfileUnchanged s.db.pool hvalid, Option.isSome_map]
  simp only [isUnchanged, h.lookup, h.text_filename, hfind]
  cases found with
  | none => rfl
  | some r =>
      simp only [Option.filter_some]
      cases isClassfileUnchanged e r <;> rfl

/-- All entries are reported as unchanged exactly when none is stored. -/
theorem reportsUnchanged_iff (hw : Lexicon words) (hdry : options.dryRun = false)
    (es : List (ReadEntry H)) (hnames : ∀ e ∈ es, e.name ∈ words)
    (h : Ready words options.dryRun filename s fs cs row) :
    ReportsUnchanged A garbage options s es ↔
      ∀ e ∈ es, ¬(rules H false filename).Writes (stored s.db) e := by
  induction es generalizing s fs cs row with
  | nil => simp [ReportsUnchanged]
  | cons e es ih =>
      obtain ⟨s₁, fs₁, cs₁, row₁, hentry, hready, hstored, -, -, -⟩ :=
        processEntry_spec A garbage options hw h e (hnames e List.mem_cons_self)
      rw [hdry] at hstored
      have hrest := ih (fun a ha => hnames a (List.mem_cons_of_mem e ha)) hready
      have hhead : (e.reading ≠ .rejected → isUnchanged s e.entry = true) ↔
          ¬(rules H false filename).Writes (stored s.db) e := by
        rw [writes_iff, isUnchanged_eq h, ← Option.ne_none_iff_isSome]
        tauto
      have hnext : (∀ s', processEntry A H garbage options s e.entry = .returned s' →
          ReportsUnchanged A garbage options s' es) ↔
          ReportsUnchanged A garbage options s₁ es := by
        constructor
        · exact fun hall => hall s₁ hentry
        · intro hs₁ s' hs'
          obtain rfl := Outcome.returned.inj (hentry.symm.trans hs')
          exact hs₁
      rw [ReportsUnchanged, hhead, hnext, hrest, List.forall_mem_cons]
      refine and_congr_right fun hidle => ?_
      rw [hstored, Rules.step, if_neg hidle]

end Unchanged

section Notes
variable (options : Options) (filename : Bytes)

/-- Every entry that is not known is counted. -/
theorem foldl_note_count (xs : List (ReadEntry H × Verdict)) (n : Notes) :
    (xs.foldl (note options filename) n).classfileCount =
      n.classfileCount + UInt32.ofNat (xs.countP fun x => !x.2.known) := by
  induction xs generalizing n with
  | nil => simp
  | cons x xs ih =>
      rw [List.foldl_cons, ih]
      cases hknown : x.2.known with
      | true => simp [note, counted, hknown]
      | false =>
          simp only [note, counted, hknown, List.countP_cons, Bool.not_false, if_true,
            Bool.false_eq_true, if_false]
          rw [UInt32.ofNat_add, UInt32.add_assoc, UInt32.add_comm 1]
          rfl

theorem foldl_note_digestMap (xs : List (ReadEntry H × Verdict)) (n : Notes) :
    (xs.foldl (note options filename) n).digestMap =
      xs.foldl (fun m x => remember m x.1 x.2) n.digestMap := by
  induction xs generalizing n with
  | nil => rfl
  | cons x xs ih => exact ih _

/-- The map depends on the digests of the verdicts. -/
theorem foldl_remember_congr {f g : ReadEntry H → Verdict} (es : List (ReadEntry H))
    (h : ∀ e ∈ es, (f e).digest = (g e).digest)
    (digestMap : Finmap fun _ : Bytes => DigestCol) :
    (es.map fun e => (e, f e)).foldl (fun m x => remember m x.1 x.2) digestMap =
      (es.map fun e => (e, g e)).foldl (fun m x => remember m x.1 x.2) digestMap := by
  induction es generalizing digestMap with
  | nil => rfl
  | cons e es ih =>
      have hhead : remember digestMap e (f e) = remember digestMap e (g e) := by
        rw [remember, remember, h e List.mem_cons_self]
      simp only [List.map_cons, List.foldl_cons, hhead]
      exact ih (fun a ha => h a (List.mem_cons_of_mem e ha)) _

end Notes

section Twice
variable {filename : Bytes} {M : Bytes → Option ClassRecord} {es : List (ReadEntry H)}
  {e : ReadEntry H}

/-- An accepted entry is up to date with its own record. -/
theorem react_record (e : ReadEntry H) {classname : Bytes} {d : DigestCol}
    (h : e.reading = .accepted classname d) : react e (some e.record) = .unchanged d := by
  have hrecord : e.record =
      ⟨classname, e.entry.getSize, e.entry.crc, e.entry.lastWriteTime, d⟩ := by
    rw [ReadEntry.record, h]
  rw [hrecord, react, Option.filter_some, if_pos (by simp [upToDate])]

theorem stores_record (e : ReadEntry H) :
    (rules H false filename).stores e ((rules H false filename).react e
      (some ((rules H false filename).record e))) = false := by
  change (!false && (react e (some e.record)).digested) = false
  cases hreading : e.reading with
  | accepted classname d =>
      rw [react_record e hreading]
      rfl
  | rejected =>
      rw [react]
      cases (some e.record).filter (upToDate e.entry) with
      | some r => rfl
      | none =>
          rw [hreading]
          rfl

/-- Every class that has to be stored declares the name that its path gives. -/
theorem own_iff : Own (rules H false filename) M es ↔
    ∀ e ∈ es, ∀ classname d, e.reading = .accepted classname d →
      classname = e.entry.getClassname ∨
        (M (e.entry.strongClassname filename)).any (upToDate e.entry) = true := by
  refine forall₂_congr fun e _ => ?_
  rw [writes_iff]
  change (_ → getStrongClassname filename e.name =
    getStrongClassname filename e.entry.getClassname) ↔ _
  have hkeys : getStrongClassname filename e.name =
      getStrongClassname filename e.entry.getClassname ↔ e.name = e.entry.getClassname :=
    ⟨fun hkey => getStrongClassname_injective hkey, fun hname => by rw [hname]⟩
  rw [hkeys]
  cases hreading : e.reading with
  | rejected => simp
  | accepted classname d =>
      have hname : e.name = classname := by rw [ReadEntry.name, hreading]
      cases hfound : M (e.entry.strongClassname filename) with
      | none => simp [hname]
      | some r =>
          cases hup : upToDate e.entry r <;> simp [hname, hup, Option.filter_some]

/-- What the second run finds. -/
theorem verdict_after (h : Own (rules H false filename) M es)
    (hnodup : (es.map (rules H false filename).look).Nodup) (he : e ∈ es) :
    ((rules H false filename).verdict ((rules H false filename).after M es) e).digest =
        ((rules H false filename).verdict M e).digest ∧
      (((rules H false filename).verdict ((rules H false filename).after M es) e).known = false ↔
        e.reading = .rejected ∧ M (e.entry.strongClassname filename) = none) := by
  have hafter := h.after_look hnodup he
  change (react e ((rules H false filename).after M es (e.entry.strongClassname filename))).digest
      = (react e (M (e.entry.strongClassname filename))).digest ∧
    ((react e ((rules H false filename).after M es
      (e.entry.strongClassname filename))).known = false ↔ _)
  change (rules H false filename).after M es (e.entry.strongClassname filename) = _ at hafter
  rw [react_known, hafter]
  by_cases hwrites : (rules H false filename).Writes M e
  · rw [if_pos hwrites]
    obtain ⟨hparses, hstale⟩ := writes_iff.mp hwrites
    cases hreading : e.reading with
    | rejected => exact absurd hreading hparses
    | accepted classname d =>
        constructor
        · change (react e (some e.record)).digest = _
          rw [react_record e hreading, react, hstale, hreading]
          cases M (e.entry.strongClassname filename) <;> rfl
        · simp
  · rw [if_neg hwrites]
    rw [writes_iff, not_and', not_not] at hwrites
    refine ⟨rfl, ?_⟩
    rw [Option.isSome_eq_false_iff, Option.isNone_iff_eq_none]
    constructor
    · intro hnone
      have hnone' : M (e.entry.strongClassname filename) = none := hnone
      exact ⟨hwrites (by rw [hnone']; rfl), hnone'⟩
    · exact fun hboth => hboth.2

end Twice

section Second
variable (A : ∀ α : Type, Allocator α) (garbage : ℕ → UInt8) (options : Options)

/-- A run over the jar reports every class that parses as unchanged, computes
the stored digest, adds no class row and leaves the number of classes. -/
structure Stable (jar : JarFile) (es : List (ReadEntry H)) (db : DigestDb) (s s' : TaskState)
    (db' : DigestDb) : Prop where
  unchanged : ReportsUnchanged A garbage options s es
  digest : (fileRow db jar.filename).map (fun row => row.cols.digest) =
    jarDigest H s'.task.digestMap
  classfiles : db'.classfiles.autoIncrementIndex.length = db.classfiles.autoIncrementIndex.length
  count : (fileRow db' jar.filename).map (fun row => row.cols.classfileCount) =
    (fileRow db jar.filename).map fun row => row.cols.classfileCount

variable {words : List Bytes} {jar : JarFile} {es : List (ReadEntry H)} {db : DigestDb}
  {fs : List (Row FileCols)} {cs : List (Row ClassFileCols)} {row : Row FileCols}

/-- A run over a jar that has a row. -/
theorem stable_iff_settled (hw : Lexicon words) (h : Valid words db fs cs)
    (hrow : fileRow db jar.filename = some row) (hnames : ∀ e ∈ es, e.name ∈ words)
    (hdry : options.dryRun = false) (results : Results)
    (hstarted : (start A options jar db results).map Prod.snd = some true) :
    ∃ s s' db' results', start A options jar db results = some (s, true) ∧
      (es.map fun e => e.entry).foldlM (processEntry A H garbage options) s = .returned s' ∧
      finish A H options jar s' = some (db', results') ∧
      (Stable A garbage options jar es db s s' db' ↔
        (∀ e ∈ es, ¬(rules H false jar.filename).Writes (stored db) e) ∧
        jarDigest H ((es.map fun e =>
            (e, (rules H false jar.filename).verdict (stored db) e)).foldl
          (fun m x => remember m x.1 x.2) ∅) = some row.cols.digest ∧
        UInt32.ofNat (es.countP fun e =>
          !((rules H false jar.filename).verdict (stored db) e).known) = 0) := by
  obtain ⟨p, -, hstart, hready⟩ := start_known A options h hrow results
  have hchanged : isFileUnchanged options jar false row.cols = false := by
    rw [hstart] at hstarted
    simpa using hstarted
  rw [hchanged] at hstart hready
  obtain ⟨s', fs', cs', row', hrun, hready', hstored, hnotes, hstep, hkept, -⟩ :=
    processEntries_spec A garbage options hw es hnames hready
  obtain ⟨digest, db', fs'', hdigest, hfinish, -, -, hclassfiles, hrow', -⟩ :=
    finish_spec A H options hready' (by rw [hstep.task])
  have hunchanged := reportsUnchanged_iff A garbage hw hdry es hnames hready
  rw [hdry] at hnotes hkept
  refine ⟨_, s', db', _, hstart, hrun, hfinish, ?_⟩
  have hcases : ∀ s, Stable A garbage options jar es db s s' db' ↔
      ReportsUnchanged A garbage options s es ∧ some digest = some row.cols.digest ∧
        db'.classfiles.autoIncrementIndex.length = db.classfiles.autoIncrementIndex.length ∧
        row'.cols.classfileCount = row.cols.classfileCount := by
    intro s
    constructor
    · rintro ⟨hall, hsame, hlength, hcount⟩
      rw [hrow, hdigest] at hsame
      rw [hrow, hrow' hdry] at hcount
      exact ⟨hall, hsame.symm, hlength, Option.some.inj hcount⟩
    · rintro ⟨hall, hsame, hlength, hcount⟩
      refine ⟨hall, ?_, hlength, ?_⟩
      · rw [hrow, hdigest]
        exact hsame.symm
      · rw [hrow, hrow' hdry]
        exact congrArg some hcount
  rw [hcases, hunchanged]
  refine and_congr_right fun hidle => ?_
  have hverdicts := (verdicts_of_settled hidle).2
  rw [hverdicts] at hnotes
  have hmap : s'.task.digestMap = (es.map fun e =>
      (e, (rules H false jar.filename).verdict (stored db) e)).foldl
        (fun m x => remember m x.1 x.2) ∅ := by
    have := congrArg Notes.digestMap hnotes
    rwa [foldl_note_digestMap] at this
  have hcount : row'.cols.classfileCount = row.cols.classfileCount +
      UInt32.ofNat (es.countP fun e =>
        !((rules H false jar.filename).verdict (stored db) e).known) := by
    have := congrArg Notes.classfileCount hnotes
    rw [foldl_note_count, List.countP_map] at this
    exact this
  rw [← hmap, hdigest, hcount, hclassfiles, hkept hidle]
  refine and_congr_right fun _ => ?_
  rw [eq_self_iff_true, true_and]
  exact UInt32.add_eq_left

end Second

section Runs
variable (A A' : ∀ α : Type, Allocator α) (garbage garbage' : ℕ → UInt8)
  (options options' : Options) {words : List Bytes} {jar : JarFile} {es : List (ReadEntry H)}
  {db : DigestDb} {fs : List (Row FileCols)} {cs : List (Row ClassFileCols)}

/-- A run that is not short-circuited leaves a row with the digest of the jar. -/
theorem run_row (hw : Lexicon words) (h : Valid words db fs cs) (hmem : jar.filename ∈ words)
    (hroom : fs.length + 1 < 2 ^ 64 - 1) (hnames : ∀ e ∈ es, e.name ∈ words)
    (hdry : options.dryRun = false) (results : Results)
    (hstarted : (start A options jar db results).map Prod.snd = some true) :
    ∃ db₁ results₁ fs₁ cs₁ row₁, run A H garbage options jar (es.map fun e => e.entry) db results =
        .returned (db₁, results₁) ∧ Valid words db₁ fs₁ cs₁ ∧
      stored db₁ = (rules H false jar.filename).after (stored db) es ∧
      fileRow db₁ jar.filename = some row₁ ∧
      jarDigest H (((rules H false jar.filename).verdicts (stored db) es).foldl
        (fun m x => remember m x.1 x.2) ∅) = some row₁.cols.digest := by
  obtain ⟨s₀, fs₀, row₀, hstart, hready₀, hstored₀, -, hmap₀, -⟩ :=
    start_spec A options hw h hmem hroom results
  have hchanged : s₀.task.isFileUnchanged = false := by
    rw [hstart] at hstarted
    simpa using hstarted
  obtain ⟨s, fs₁, cs₁, row₁, hrun, hready, hstored, hnotes, hstep, -⟩ :=
    processEntries_spec A garbage options hw es hnames hready₀
  obtain ⟨digest, db₁, fs', hdigest, hfinish, hvalid, hstored', -, hrow, -⟩ :=
    finish_spec A H options hready (by rw [hstep.task, hchanged])
  rw [hdry, hstored₀] at hnotes hstored
  rw [hchanged] at hstart
  refine ⟨db₁, _, fs', cs₁, _, run_eq A garbage options hstart hrun hfinish, hvalid,
    by rw [hstored', hstored], hrow hdry, ?_⟩
  have hmap := congrArg Notes.digestMap hnotes
  rw [foldl_note_digestMap] at hmap
  change s.task.digestMap = List.foldl _ s₀.task.digestMap _ at hmap
  rw [hmap₀] at hmap
  rw [← hmap, hdigest]
  rfl

/-- A second run over the same jar is stable exactly when every class that parses
declares the name that its path gives, or is up to date from the beginning, and
no entry that does not parse lacks a row under its path, except for multiples of
`2 ^ 32` of them. -/
theorem second_run_stable_iff (hw : Lexicon words) (h : Valid words db fs cs)
    (hmem : jar.filename ∈ words) (hroom : fs.length + 1 < 2 ^ 64 - 1)
    (hes : JarClasses words es) (hdry : options.dryRun = false) (hdry' : options'.dryRun = false)
    (results : Results) (hstarted : (start A options jar db results).map Prod.snd = some true) :
    ∃ db₁ results₁, run A H garbage options jar (es.map fun e => e.entry) db results =
        .returned (db₁, results₁) ∧
      ∀ results', (start A' options' jar db₁ results').map Prod.snd = some true →
        ∃ s s' db₂ results₂, start A' options' jar db₁ results' = some (s, true) ∧
          (es.map fun e => e.entry).foldlM (processEntry A' H garbage' options') s =
            .returned s' ∧
          finish A' H options' jar s' = some (db₂, results₂) ∧
          (Stable A' garbage' options' jar es db₁ s s' db₂ ↔
            (∀ e ∈ es, ∀ classname d, e.reading = .accepted classname d →
              classname = e.entry.getClassname ∨
                (stored db (e.entry.strongClassname jar.filename)).any
                  (upToDate e.entry) = true) ∧
            (es.countP fun e => e.reading == .rejected &&
              (stored db (e.entry.strongClassname jar.filename)).isNone) % 2 ^ 32 = 0) := by
  obtain ⟨db₁, results₁, fs₁, cs₁, row₁, hrun, hvalid, hstored, hrow, hdigest⟩ :=
    run_row A garbage options hw h hmem hroom hes.names hdry results hstarted
  refine ⟨db₁, results₁, hrun, fun results' hstarted' => ?_⟩
  obtain ⟨s, s', db₂, results₂, hstart, hentries, hfinish, hstable⟩ :=
    stable_iff_settled A' garbage' options' hw hvalid hrow hes.names hdry' results' hstarted'
  refine ⟨s, s', db₂, results₂, hstart, hentries, hfinish, ?_⟩
  have hnodup := hes.look_nodup false jar.filename
  rw [hstable, hstored, settled_iff hnodup fun e _ => stores_record e, ← own_iff]
  refine and_congr_right fun hown => ?_
  have hsame : jarDigest H ((es.map fun e => (e, (rules H false jar.filename).verdict
      ((rules H false jar.filename).after (stored db) es) e)).foldl
        (fun m x => remember m x.1 x.2) ∅) = some row₁.cols.digest := by
    rw [foldl_remember_congr es fun e he => (verdict_after hown hnodup he).1, ← hdigest,
      hown.verdicts_eq hnodup]
  have hcount : (es.countP fun e => !((rules H false jar.filename).verdict
      ((rules H false jar.filename).after (stored db) es) e).known) =
      es.countP fun e => e.reading == .rejected &&
        (stored db (e.entry.strongClassname jar.filename)).isNone := by
    apply List.countP_congr
    intro e he
    rw [Bool.not_eq_true', (verdict_after hown hnodup he).2, Bool.and_eq_true, beq_iff_eq,
      Option.isNone_iff_eq_none]
  rw [hcount, ← UInt32.toNat_inj, UInt32.toNat_ofNat']
  exact ⟨fun hboth => hboth.2, fun hzero => ⟨hsame, hzero⟩⟩

/-- Without the time stamp no run is short-circuited. -/
theorem started_of_row {row : Row FileCols} (h : Valid words db fs cs)
    (hrow : fileRow db jar.filename = some row) (hoff : options.useFileTimestamp = false)
    (results : Results) : (start A options jar db results).map Prod.snd = some true := by
  obtain ⟨p, -, hstart, -⟩ := start_known A options h hrow results
  rw [hstart]
  simp [isFileUnchanged, hoff]

end Runs

/-- Two runs over a jar with one class, without the time stamp. -/
theorem second_run_stable_sample :
    ∃ db db₁ results₁ s s' db₂ results₂, DigestDb.create = some db ∧
      run Allocator.next sampleHash (fun _ => 0) {} sampleJar [entryA.entry] db {} =
        .returned (db₁, results₁) ∧
      start Allocator.next { useFileTimestamp := false } sampleJar db₁ {} = some (s, true) ∧
      [entryA.entry].foldlM (processEntry Allocator.next sampleHash (fun _ => 0)
        { useFileTimestamp := false }) s = .returned s' ∧
      finish Allocator.next sampleHash { useFileTimestamp := false } sampleJar s' =
        some (db₂, results₂) ∧
      Stable Allocator.next (fun _ => 0) { useFileTimestamp := false } sampleJar [entryA] db₁ s s'
        db₂ := by
  obtain ⟨db, hcreate, hvalid, hstored⟩ := create_valid sampleWords (by decide)
  have hmem : sampleJar.filename ∈ sampleWords := by decide
  have hstarted := started_of_empty Allocator.next {} lexicon_sampleWords hvalid hmem {}
  have hes := jarClasses_sample entryA (by decide) (by decide)
  obtain ⟨db₁, results₁, fs₁, cs₁, row₁, hrun, hvalid₁, -, hrow₁, -⟩ := run_row Allocator.next
    (fun _ => 0) {} lexicon_sampleWords hvalid hmem (by decide) hes.names rfl {} hstarted
  obtain ⟨db₁', results₁', hrun', hsecond⟩ := second_run_stable_iff Allocator.next Allocator.next
    (fun _ => 0) (fun _ => 0) {} { useFileTimestamp := false } lexicon_sampleWords hvalid
    hmem (by decide) hes rfl rfl {} hstarted
  obtain ⟨rfl, rfl⟩ := Prod.mk.inj (Outcome.returned.inj (hrun.symm.trans hrun'))
  obtain ⟨s, s', db₂, results₂, hstart, hentries, hfinish, hiff⟩ :=
    hsecond {} (started_of_row Allocator.next _ hvalid₁ hrow₁ rfl {})
  refine ⟨db, db₁, results₁, s, s', db₂, results₂, hcreate, hrun, hstart, hentries, hfinish,
    hiff.mpr ⟨?_, ?_⟩⟩
  · intro e he classname d hreading
    obtain rfl := List.mem_singleton.mp he
    obtain ⟨rfl, -⟩ := Reading.accepted.inj hreading
    exact .inl (by decide)
  · rw [hstored]
    decide

/-- The class A in a directory x is never found again. -/
theorem class_in_other_directory_not_stable :
    ¬∀ (A A' : ∀ α : Type, Allocator α) (H : Bytes → Sha256) (garbage garbage' : ℕ → UInt8)
      (options options' : Options) (words : List Bytes) (jar : JarFile) (db : DigestDb)
      (fs : List (Row FileCols)) (cs : List (Row ClassFileCols)) (es : List (ReadEntry H)),
      Lexicon words → Valid words db fs cs → jar.filename ∈ words →
      fs.length + 1 < 2 ^ 64 - 1 → JarClasses words es → options.dryRun = false →
      options'.dryRun = false → ∀ results results' : Results,
      (start A options jar db results).map Prod.snd = some true →
      ∃ db₁ results₁, run A H garbage options jar (es.map fun e => e.entry) db results =
          .returned (db₁, results₁) ∧
        ((start A' options' jar db₁ results').map Prod.snd = some true →
          ∃ s s' db₂ results₂, start A' options' jar db₁ results' = some (s, true) ∧
            (es.map fun e => e.entry).foldlM (processEntry A' H garbage' options') s =
              .returned s' ∧
            finish A' H options' jar s' = some (db₂, results₂) ∧
            Stable A' garbage' options' jar es db₁ s s' db₂) := by
  intro h
  obtain ⟨db, -, hvalid, hstored⟩ := create_valid sampleWords (by decide)
  have hmem : sampleJar.filename ∈ sampleWords := by decide
  have hstarted := started_of_empty Allocator.next {} lexicon_sampleWords hvalid hmem {}
  have hes := jarClasses_sample entryX (by decide) (by decide)
  obtain ⟨db₁, results₁, fs₁, cs₁, row₁, hrun, hvalid₁, hstored₁, hrow₁, -⟩ := run_row
    Allocator.next (fun _ => 0) {} lexicon_sampleWords hvalid hmem (by decide) hes.names rfl {}
    hstarted
  obtain ⟨db₁', results₁', hrun', hsecond⟩ := h Allocator.next Allocator.next sampleHash
    (fun _ => 0) (fun _ => 0) {} { useFileTimestamp := false } sampleWords sampleJar db [] []
    [entryX] lexicon_sampleWords hvalid hmem (by decide) hes rfl rfl {} {} hstarted
  obtain ⟨rfl, rfl⟩ := Prod.mk.inj (Outcome.returned.inj (hrun.symm.trans hrun'))
  have hstarted₁ := started_of_row Allocator.next { useFileTimestamp := false } hvalid₁ hrow₁ rfl
    {}
  obtain ⟨s, s', db₂, results₂, hstart, hentries, hfinish, hstable⟩ := hsecond hstarted₁
  obtain ⟨t, t', db₂', results₂', hstart', hentries', hfinish', hiff⟩ := stable_iff_settled
    Allocator.next (fun _ => 0) { useFileTimestamp := false } lexicon_sampleWords hvalid₁ hrow₁
    hes.names rfl {} hstarted₁
  obtain ⟨rfl, -⟩ := Prod.mk.inj (Option.some.inj (hstart.symm.trans hstart'))
  obtain rfl := Outcome.returned.inj (hentries.symm.trans hentries')
  obtain ⟨rfl, -⟩ := Prod.mk.inj (Option.some.inj (hfinish.symm.trans hfinish'))
  have hidle := (hiff.mp hstable).1 entryX List.mem_cons_self
  rw [hstored₁, hstored] at hidle
  revert hidle
  decide

end Tarracsh.DigestStability
