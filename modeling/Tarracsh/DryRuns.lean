import Tarracsh.Containment

/-!
# Dry runs

A dry run does not store the classes that it digests, but `createJarFileRow`
interns the name of a new jar, and `processEntry` advances `classfileCount` in
the row of a known one.
-/
namespace Tarracsh.DryRuns
open ByteStrings QueryTrees StringPool ParsedClass ClassFileReader ClassFileParser
open ReaderRefinement TableModel TableInvariant DomainTables CallGraphTables CallGraphInvariant
open ClassFileDigest SafeConsumption JarEntries Reporting DigestTasks DigestRuns
open DigestSimulation DigestOutcomes DigestStability DigestAnalysis Containment KeyedReactions

section Contents
variable {α : Type}

/-- The tables have the same rows under the same keys, and the same rows are
dirty. -/
structure SameTable (t t' : Table α) : Prop where
  index : t'.autoIncrementIndex = t.autoIncrementIndex
  rows : t'.rows = t.rows
  contents : ∀ p ∈ t.autoIncrementIndex, t'.heap.lookup p = t.heap.lookup p
  isDirty : t'.isDirty = t.isDirty
  dirtyRows : t'.dirtyRows = t.dirtyRows

/-- The databases hold the same. Rows that no table holds do not count. -/
structure SameContents (db db' : DigestDb) : Prop where
  pool : db'.pool = db.pool
  files : SameTable db.files db'.files
  classfiles : SameTable db.classfiles db'.classfiles

theorem SameTable.refl (t : Table α) : SameTable t t := ⟨rfl, rfl, fun _ _ => rfl, rfl, rfl⟩

theorem SameTable.trans {t t' t'' : Table α} (h : SameTable t t') (h' : SameTable t' t'') :
    SameTable t t'' where
  index := h'.index.trans h.index
  rows := h'.rows.trans h.rows
  contents p hp := (h'.contents p (h.index ▸ hp)).trans (h.contents p hp)
  isDirty := h'.isDirty.trans h.isDirty
  dirtyRows := h'.dirtyRows.trans h.dirtyRows

theorem SameTable.symm {t t' : Table α} (h : SameTable t t') : SameTable t' t where
  index := h.index.symm
  rows := h.rows.symm
  contents p hp := (h.contents p (h.index ▸ hp)).symm
  isDirty := h.isDirty.symm
  dirtyRows := h.dirtyRows.symm

theorem SameContents.refl (db : DigestDb) : SameContents db db :=
  ⟨rfl, SameTable.refl _, SameTable.refl _⟩

theorem SameContents.symm {db db' : DigestDb} (h : SameContents db db') : SameContents db' db :=
  ⟨h.pool.symm, h.files.symm, h.classfiles.symm⟩

theorem SameContents.trans {db db' db'' : DigestDb} (h : SameContents db db')
    (h' : SameContents db' db'') : SameContents db db'' :=
  ⟨h'.pool.trans h.pool, h.files.trans h'.files, h.classfiles.trans h'.classfiles⟩

/-- What is found under a key is the same. -/
theorem SameTable.find_eq {L : Layout α} {t t' : Table α} {rs : List (Row α)}
    (h : SameTable t t') (hc : Core L t rs) (key : Bytes) :
    (t'.findByKey key).bind t'.heap.lookup = (t.findByKey key).bind t.heap.lookup := by
  rw [Table.findByKey, Table.findByKey, h.rows]
  cases hp : t.rows.lookup key with
  | none => rfl
  | some p => exact h.contents p (hc.rows key p hp)

variable {words : List Bytes} {db db' : DigestDb} {fs : List (Row FileCols)}
  {cs : List (Row ClassFileCols)}

theorem SameContents.fileRow_eq (h : SameContents db db') (hvalid : Valid words db fs cs)
    (filename : Bytes) : fileRow db' filename = fileRow db filename :=
  h.files.find_eq hvalid.files filename

theorem SameContents.stored_eq (h : SameContents db db') (hvalid : Valid words db fs cs) :
    stored db' = stored db := by
  funext key
  rw [stored, stored, h.classfiles.find_eq hvalid.classes, h.pool]

end Contents

section Frames
variable {A : ∀ α : Type, Allocator α} {H : Bytes → Sha256} {garbage : ℕ → UInt8}
  {options : Options} {s s' : TaskState}

/-- Only the row of the jar has changed. -/
structure Framed (s s' : TaskState) : Prop where
  pool : s'.db.pool = s.db.pool
  classfiles : s'.db.classfiles = s.db.classfiles
  files : s'.db.files = { s.db.files with heap := s'.db.files.heap }
  heap : ∀ p, p ≠ s.task.jarFileRow → s'.db.files.heap.lookup p = s.db.files.heap.lookup p
  jarFileRow : s'.task.jarFileRow = s.task.jarFileRow

theorem Framed.refl (s : TaskState) : Framed s s := ⟨rfl, rfl, rfl, fun _ _ => rfl, rfl⟩

theorem Framed.trans {s s' s'' : TaskState} (h : Framed s s') (h' : Framed s' s'') :
    Framed s s'' where
  pool := h'.pool.trans h.pool
  classfiles := h'.classfiles.trans h.classfiles
  files := by rw [h'.files, h.files]
  heap p hp := (h'.heap p (by rwa [h.jarFileRow])).trans (h.heap p hp)
  jarFileRow := h'.jarFileRow.trans h.jarFileRow

/-- The row of the jar and the results are all that is changed. -/
theorem Framed.of_eq (h : Framed s s') {s'' : TaskState} (hdb : s''.db = s'.db)
    (hrow : s''.task.jarFileRow = s'.task.jarFileRow) : Framed s s'' where
  pool := by rw [hdb, h.pool]
  classfiles := by rw [hdb, h.classfiles]
  files := by rw [hdb, ← h.files]
  heap p hp := by rw [hdb, h.heap p hp]
  jarFileRow := hrow.trans h.jarFileRow

theorem countClass_framed (s : TaskState) (row : Row FileCols) : Framed s (s.countClass row) where
  pool := rfl
  classfiles := rfl
  files := rfl
  heap _ hp := AList.lookup_insert_ne hp
  jarFileRow := rfl

/-- A dry run digests without storing. -/
theorem digestEntry_dry (hdry : options.dryRun = true) {e : JarEntry} {strongClassname : Bytes}
    {row : Option ClassFileCols} {digest : Option DigestCol}
    (h : digestEntry A H garbage options s e strongClassname row = .returned (s', digest)) :
    s'.db = s.db ∧ s'.task = s.task := by
  unfold digestEntry at h
  cases hreader : construct .memory e.content garbage with
  | none =>
      rw [hreader] at h
      cases h
  | some reader =>
      simp only [hreader] at h
      cases hparse : parse reader with
      | none =>
          simp only [hparse, Outcome.returned.injEq, Prod.mk.injEq] at h
          rw [← h.1]
          exact ⟨rfl, rfl⟩
      | some result =>
          simp only [hparse, hdry, if_true] at h
          obtain ⟨d, -, h⟩ := Outcome.bind_eq_returned_iff.mp h
          simp only [Outcome.returned.injEq, Prod.mk.injEq] at h
          rw [← h.1]
          exact ⟨rfl, rfl⟩

theorem processEntry_framed (hdry : options.dryRun = true) {e : JarEntry}
    (h : processEntry A H garbage options s e = .returned s') : Framed s s' := by
  unfold processEntry at h
  obtain ⟨jarRow, -, h⟩ := Outcome.bind_eq_returned_iff.mp h
  obtain ⟨row, -, h⟩ := Outcome.bind_eq_returned_iff.mp h
  have hcounted : Framed s (if row.isSome then s else s.countClass jarRow) := by
    cases row with
    | none => exact countClass_framed s jarRow
    | some r => exact Framed.refl s
  cases hfilter : row.filter (isClassfileUnchanged e) with
  | some r =>
      simp only [hfilter, Outcome.returned_bind] at h
      obtain rfl := Outcome.returned.inj h
      exact hcounted.of_eq rfl rfl
  | none =>
      simp only [hfilter] at h
      obtain ⟨⟨s₃, digest⟩, hdigest, h⟩ := Outcome.bind_eq_returned_iff.mp h
      obtain ⟨hdb, htask⟩ := digestEntry_dry hdry hdigest
      cases digest with
      | some d =>
          obtain rfl := Outcome.returned.inj h
          exact hcounted.of_eq hdb (by rw [← htask]; rfl)
      | none =>
          obtain rfl := Outcome.returned.inj h
          exact hcounted.of_eq hdb (by rw [← htask])

theorem processEntries_framed (hdry : options.dryRun = true) {es : List JarEntry}
    (h : es.foldlM (processEntry A H garbage options) s = .returned s') : Framed s s' := by
  induction es generalizing s with
  | nil =>
      obtain rfl := Outcome.returned.inj h
      exact Framed.refl s
  | cons e es ih =>
      rw [List.foldlM_cons] at h
      obtain ⟨s₁, hentry, hrest⟩ := Outcome.bind_eq_returned_iff.mp h
      exact (processEntry_framed hdry hentry).trans (ih hrest)

end Frames

section Jars
variable (A : ∀ α : Type, Allocator α) {H : Bytes → Sha256} (garbage : ℕ → UInt8)
  (options : Options) {words : List Bytes} {jar : JarFile} {db : DigestDb}
  {fs : List (Row FileCols)} {cs : List (Row ClassFileCols)} {es : List (ReadEntry H)}

/-- The class entries without a row under their path. -/
def unknown (db : DigestDb) (filename : Bytes) (es : List (ReadEntry H)) : ℕ :=
  es.countP fun e => (stored db (e.entry.strongClassname filename)).isNone

/-- The name of a new jar is interned already; a known jar is skipped or all its
class entries have rows. -/
def LeavesJar (db : DigestDb) (jar : JarFile) (es : List (ReadEntry H)) : Prop :=
  match fileRow db jar.filename with
  | none => (db.pool.hash.lookup jar.filename).isSome
  | some row => isFileUnchanged options jar false row.cols = true ∨
      unknown db jar.filename es % 2 ^ 32 = 0

/-- The counter of a dry run. -/
theorem dry_count (hw : Lexicon words) (hdry : options.dryRun = true) {s s' : TaskState}
    {row row' : Row FileCols} {fs' : List (Row FileCols)} {cs' : List (Row ClassFileCols)}
    (h : Ready words options.dryRun jar.filename s fs cs row)
    (hnames : ∀ e ∈ es, e.name ∈ words)
    (hrun : (es.map fun e => e.entry).foldlM (processEntry A H garbage options) s = .returned s')
    (h' : Ready words options.dryRun jar.filename s' fs' cs' row') :
    row' = withCount row (row.cols.classfileCount +
      UInt32.ofNat (unknown s.db jar.filename es)) := by
  obtain ⟨t, fs₁, cs₁, row₁, hrun₁, hready, -, hnotes, hstep, -⟩ :=
    processEntries_spec A garbage options hw es hnames h
  obtain rfl := Outcome.returned.inj (hrun.symm.trans hrun₁)
  obtain rfl := Option.some.inj (hready.lookup.symm.trans h'.lookup)
  have hidle : ∀ e ∈ es, ¬(rules H true jar.filename).Writes (stored s.db) e := by
    intro e _
    simp [Rules.Writes, rules]
  rw [hdry, (verdicts_of_settled hidle).2] at hnotes
  have hcount := congrArg Notes.classfileCount hnotes
  rw [foldl_note_count, List.countP_map] at hcount
  change row₁.cols.classfileCount = row.cols.classfileCount + _ at hcount
  have hknown : es.countP ((fun x : ReadEntry H × Verdict => !x.2.known) ∘
      fun e => (e, (rules H true jar.filename).verdict (stored s.db) e)) =
      unknown s.db jar.filename es := by
    apply List.countP_congr
    intro e _
    change (!(react e (stored s.db (e.entry.strongClassname jar.filename))).known) = true ↔ _
    rw [react_known, Option.not_isSome]
  rw [hstep.row, hcount, hknown]

/-- Only the row of the jar can differ. -/
theorem Framed.sameContents_iff {s s' : TaskState} {row row' : Row FileCols}
    (h : Framed s s') (hindex : s.task.jarFileRow ∈ s.db.files.autoIncrementIndex)
    (hrow : s.db.files.heap.lookup s.task.jarFileRow = some row)
    (hrow' : s'.db.files.heap.lookup s.task.jarFileRow = some row') :
    SameContents s.db s'.db ↔ row' = row := by
  constructor
  · intro hsame
    have hlookup := hsame.files.contents _ hindex
    rw [hrow, hrow'] at hlookup
    exact Option.some.inj hlookup
  · rintro rfl
    refine ⟨h.pool, ⟨by rw [h.files], by rw [h.files], fun p _ => ?_, by rw [h.files],
      by rw [h.files]⟩, by rw [h.classfiles]; exact SameTable.refl _⟩
    by_cases hp : p = s.task.jarFileRow
    · rw [hp, hrow, hrow']
    · exact h.heap p hp

theorem withCount_eq_iff {row : Row FileCols} {n : ℕ} :
    withCount row (row.cols.classfileCount + UInt32.ofNat n) = row ↔ n % 2 ^ 32 = 0 := by
  constructor
  · intro h
    have hcount : row.cols.classfileCount + UInt32.ofNat n = row.cols.classfileCount :=
      congrArg (fun r : Row FileCols => r.cols.classfileCount) h
    have hzero := congrArg UInt32.toNat (UInt32.add_eq_left.mp hcount)
    rwa [UInt32.toNat_ofNat'] at hzero
  · intro h
    have hzero : UInt32.ofNat n = 0 := by
      rw [← UInt32.toNat_inj, UInt32.toNat_ofNat']
      exact h
    rw [hzero, UInt32.add_zero]
    rfl

/-- A known jar. -/
theorem dry_known (hw : Lexicon words) (h : Valid words db fs cs)
    (hnames : ∀ e ∈ es, e.name ∈ words) (hdry : options.dryRun = true) {row : Row FileCols}
    (hrow : fileRow db jar.filename = some row) (results : Results) :
    ∃ db' results' fs' cs', run A H garbage options jar (es.map fun e => e.entry) db results =
        .returned (db', results') ∧ Valid words db' fs' cs' ∧
      (SameContents db db' ↔ LeavesJar options db jar es) := by
  obtain ⟨p, hindex, hstart, hready⟩ := start_known A options h hrow results
  rw [LeavesJar, hrow]
  cases hunchanged : isFileUnchanged options jar false row.cols with
  | true =>
      rw [hunchanged] at hstart hready
      obtain ⟨results', hfinish⟩ : ∃ results', finish A H options jar
          ⟨db, ⟨p, false, true, ∅⟩, results⟩ = some (db, results') := by
        simp only [finish, hready.lookup, Option.bind_eq_bind, Option.bind_some, if_true]
        exact ⟨_, rfl⟩
      exact ⟨db, results', fs, cs, run_skipped A garbage options hstart hfinish, h,
        iff_of_true (SameContents.refl db) (.inl hunchanged)⟩
  | false =>
      rw [hunchanged] at hstart hready
      obtain ⟨s', fs', cs', row', hrun, hready', -, -, hstep, -⟩ :=
        processEntries_spec A garbage options hw es hnames hready
      obtain ⟨digest, db', fs'', -, hfinish, hvalid, -, -, -, hdb⟩ :=
        finish_spec A H options hready' (by rw [hstep.task])
      obtain rfl := hdb hdry
      have hframed := processEntries_framed hdry hrun
      have hlookup' : s'.db.files.heap.lookup p = some row' := by
        rw [← hready'.lookup, hframed.jarFileRow]
      have hsame := hframed.sameContents_iff (List.mem_of_getElem? hindex) hready.lookup hlookup'
      refine ⟨s'.db, _, fs'', cs', run_eq A garbage options hstart hrun hfinish, hvalid, ?_⟩
      rw [hsame, dry_count A garbage options hw hdry hready hnames hrun hready', withCount_eq_iff]
      simp [hunchanged]

/-- A pool stays as it is exactly when the string is there. -/
theorem internalAdd_same_iff {pool pool' : Pool} {s : Bytes} {offset : ℕ}
    (h : pool.internalAdd s = some (pool', offset)) :
    pool' = pool ↔ (pool.hash.lookup s).isSome := by
  unfold Pool.internalAdd at h
  cases hlookup : pool.hash.lookup s with
  | some found =>
      simp only [hlookup, Option.some.injEq, Prod.mk.injEq] at h
      exact iff_of_true h.1.symm rfl
  | none =>
      simp only [hlookup] at h
      split_ifs at h
      obtain ⟨key, -, hpool⟩ := Option.bind_eq_some_iff.mp h
      obtain ⟨rfl, -⟩ := Prod.mk.inj (Option.some.inj hpool)
      refine iff_of_false (fun heq => ?_) nofun
      have hlength := congrArg (fun p : Pool => p.pool.length) heq
      simp at hlength

/-- A new jar. -/
theorem dry_new (hw : Lexicon words) (h : Valid words db fs cs) (hmem : jar.filename ∈ words)
    (hnames : ∀ e ∈ es, e.name ∈ words) (hdry : options.dryRun = true)
    (hrow : fileRow db jar.filename = none) (results : Results) :
    ∃ db' results' fs' cs', run A H garbage options jar (es.map fun e => e.entry) db results =
        .returned (db', results') ∧ Valid words db' fs' cs' ∧
      (SameContents db db' ↔ LeavesJar options db jar es) := by
  obtain ⟨s₀, fs₀, row₀, hstart, hready, -, hclassfiles, -, -, hunchanged, -⟩ :=
    start_new A options hw h hrow hmem (fun hfalse => nomatch hfalse.symm.trans hdry) results
  obtain ⟨s', fs', cs', row', hrun, hready', -, -, hstep, -⟩ :=
    processEntries_spec A garbage options hw es hnames hready
  obtain ⟨digest, db', fs'', -, hfinish, hvalid, -, -, -, hdb⟩ :=
    finish_spec A H options hready' (by rw [hstep.task, hunchanged])
  obtain rfl := hdb hdry
  have hframed := processEntries_framed hdry hrun
  obtain ⟨pool, offset, hadd, -, -, -⟩ := h.pooled.internalAdd hw hmem
  have hkey := findByKey_of_fileRow_none h hrow
  obtain ⟨new, hdb₀, hpointer⟩ : ∃ new : Row FileCols,
      s₀.db = ⟨pool, (db.files.allocate (A _) new).1, db.classfiles⟩ ∧
        s₀.task.jarFileRow = (A _).malloc db.files.heap := by
    have hs := hstart
    simp only [DigestTasks.start, getOrCreateFileRow, hkey, hadd, hdry, Option.bind_eq_bind,
      Option.bind_some, if_true] at hs
    obtain ⟨row, -, hs⟩ := Option.bind_eq_some_iff.mp hs
    obtain ⟨rfl, -⟩ := Prod.mk.inj (Option.some.inj hs)
    exact ⟨_, rfl, rfl⟩
  have hfresh : ∀ p ∈ db.files.autoIncrementIndex, p ≠ (A _).malloc db.files.heap := by
    rintro p hp rfl
    exact h.files.not_mem_of_not_mem_heap ((A _).malloc_fresh db.files.heap) hp
  have hfiles : SameTable db.files s'.db.files := by
    rw [hframed.files, hdb₀]
    refine ⟨rfl, rfl, fun p hp => ?_, rfl, rfl⟩
    have hne := hfresh p hp
    rw [hframed.heap p (by rwa [hpointer]), hdb₀]
    exact AList.lookup_insert_ne hne
  refine ⟨s'.db, _, fs'', cs', run_eq A garbage options hstart hrun hfinish, hvalid, ?_⟩
  rw [LeavesJar, hrow, ← internalAdd_same_iff hadd]
  have hpool : s'.db.pool = pool := by rw [hframed.pool, hdb₀]
  constructor
  · intro hsame
    rw [← hpool, hsame.pool]
  · intro heq
    refine ⟨hpool.trans heq, hfiles, ?_⟩
    rw [hframed.classfiles, hclassfiles]
    exact SameTable.refl _

/-- A dry run over a jar. -/
theorem dry_jar (hw : Lexicon words) (h : Valid words db fs cs) (hmem : jar.filename ∈ words)
    (hnames : ∀ e ∈ es, e.name ∈ words) (hdry : options.dryRun = true) (results : Results) :
    ∃ db' results' fs' cs', run A H garbage options jar (es.map fun e => e.entry) db results =
        .returned (db', results') ∧ Valid words db' fs' cs' ∧
      (SameContents db db' ↔ LeavesJar options db jar es) := by
  cases hrow : fileRow db jar.filename with
  | none => exact dry_new A garbage options hw h hmem hnames hdry hrow results
  | some row => exact dry_known A garbage options hw h hnames hdry hrow results

end Jars

/-- A standalone class file at which no reader throws and no lookup fails. -/
structure ReadFile where
  info : ClassFileInfo
  header : HeaderComplete info.content
  resolves : ∀ garbage c s, parsed .file info.content garbage = some (c, s) → DigestResolves c

/-- The parser fails, or what the task asks of the class is there. -/
theorem ReadFile.cases (file : ReadFile) (H : Bytes → Sha256) (garbage : ℕ → UInt8) :
    ∃ reader, construct .file file.info.content garbage = some reader ∧
      (parse reader = none ∨ ∃ c s digest classname, parse reader = some (c, s) ∧
        parsed .file file.info.content garbage = some (c, s) ∧
        publicDigest H c = some digest ∧ getMainClassname c = some classname) := by
  obtain ⟨reader, hreader⟩ := Option.isSome_iff_exists.mp
    ((constructed_iff_headerComplete .file file.info.content garbage).mpr file.header)
  refine ⟨reader, hreader, ?_⟩
  cases hparse : parse reader with
  | none => exact .inl rfl
  | some result =>
      have hparsed : parsed .file file.info.content garbage = some result := by
        rw [parsed, hreader, Option.bind_some, hparse]
      have hresolves := file.resolves garbage result.1 result.2 hparsed
      obtain ⟨digest, hdigest⟩ := Option.isSome_iff_exists.mp
        ((publicDigest_isSome_iff H).mpr hresolves)
      obtain ⟨classname, hclassname⟩ := Option.isSome_iff_exists.mp hresolves.mainClassname
      exact .inr ⟨result.1, result.2, digest, classname, rfl, hparsed, hdigest, hclassname⟩

/-- What a digest run is given. -/
inductive Input (H : Bytes → Sha256) where
  | jar (f : JarFile) (es : List (ReadEntry H))
  | classFile (file : ReadFile)

section Inputs
variable (A : ∀ α : Type, Allocator α) {H : Bytes → Sha256} (garbage : ℕ → UInt8)
  (options : Options)

namespace Input

def process (s : DigestDb × Results) : Input H → Outcome (DigestDb × Results)
  | .jar f es => run A H garbage options f (es.map fun e => e.entry) s.1 s.2
  | .classFile file => doClassFile A H garbage options s.1 s.2 file.info

/-- The texts of the input are interned. -/
def NamesInterned (words : List Bytes) : Input H → Prop
  | .jar f es => f.filename ∈ words ∧ ∀ e ∈ es, e.name ∈ words
  | .classFile _ => True

/-- A dry run with this input leaves the database. -/
def Leaves (db : DigestDb) : Input H → Prop
  | .jar f es => LeavesJar options db f es
  | .classFile _ => True

end Input

/-- All inputs are processed, and after each of them the database holds the
same as at first. -/
def AllSame (db : DigestDb) : DigestDb × Results → List (Input H) → Prop
  | _, [] => True
  | s, x :: xs => ∃ s', x.process A garbage options s = .returned s' ∧ SameContents db s'.1 ∧
      AllSame db s' xs

variable {words : List Bytes} {db : DigestDb} {fs : List (Row FileCols)}
  {cs : List (Row ClassFileCols)}

/-- A dry run returns with the database that it was given. -/
theorem doClassFile_dry (h : Valid words db fs cs) (hdry : options.dryRun = true)
    (file : ReadFile) (results : Results) :
    ∃ results', doClassFile A H garbage options db results file.info =
      .returned (db, results') := by
  rw [doClassFile_eq results A H garbage options h]
  split_ifs with hunchanged
  · exact ⟨_, rfl⟩
  · obtain ⟨reader, hreader, hparse | ⟨c, s, digest, classname, hparse, -, hdigest, hclassname⟩⟩ :=
      file.cases H garbage
    · simp only [hreader, hparse]
      exact ⟨_, rfl⟩
    · simp only [hreader, hparse, digestFile, hclassname, hdigest, Outcome.ofOption_some,
        Outcome.returned_bind, hdry, if_true]
      exact ⟨_, rfl⟩

/-- One input. -/
theorem Input.process_spec (hw : Lexicon words) (h : Valid words db fs cs)
    (hdry : options.dryRun = true) (x : Input H) (hx : x.NamesInterned words) (results : Results) :
    ∃ db' results' fs' cs', x.process A garbage options (db, results) = .returned (db', results') ∧
      Valid words db' fs' cs' ∧ (SameContents db db' ↔ x.Leaves options db) := by
  cases x with
  | jar f es => exact dry_jar A garbage options hw h hx.1 hx.2 hdry results
  | classFile file =>
      obtain ⟨results', hreturned⟩ :=
        @doClassFile_dry A H garbage options _ _ _ _ h hdry file results
      exact ⟨db, results', fs, cs, hreturned, h, iff_of_true (SameContents.refl db) True.intro⟩

/-- The condition depends on the contents of the database. -/
theorem SameContents.leaves_iff {db' : DigestDb} (h : SameContents db db')
    (hvalid : Valid words db fs cs) (x : Input H) :
    x.Leaves options db' ↔ x.Leaves options db := by
  cases x with
  | classFile file => rfl
  | jar f es =>
      rw [Input.Leaves, Input.Leaves, LeavesJar, LeavesJar, h.fileRow_eq hvalid, h.pool, unknown,
        unknown, h.stored_eq hvalid]

/-- From a database that holds the same as the first one. -/
theorem allSame_iff (hw : Lexicon words) (h : Valid words db fs cs)
    (hdry : options.dryRun = true) (xs : List (Input H)) (hxs : ∀ x ∈ xs, x.NamesInterned words)
    {s : DigestDb × Results} {fs' : List (Row FileCols)}
    {cs' : List (Row ClassFileCols)} (hsame : SameContents db s.1)
    (hvalid : Valid words s.1 fs' cs') :
    AllSame A garbage options db s xs ↔ ∀ x ∈ xs, x.Leaves options db := by
  induction xs generalizing s fs' cs' with
  | nil => simp [AllSame]
  | cons x xs ih =>
      obtain ⟨db', results', fs'', cs'', hprocess, hvalid', hleaves⟩ := x.process_spec A garbage
        options hw hvalid hdry (hxs x List.mem_cons_self) s.2
      have hhead : SameContents db db' ↔ x.Leaves options db := by
        rw [← hsame.leaves_iff options h x, ← hleaves]
        exact ⟨fun hnew => hsame.symm.trans hnew, fun hnew => hsame.trans hnew⟩
      have hrest : AllSame A garbage options db s (x :: xs) ↔
          SameContents db db' ∧ AllSame A garbage options db (db', results') xs := by
        constructor
        · rintro ⟨s', hs', hboth⟩
          obtain rfl := Outcome.returned.inj (hprocess.symm.trans hs')
          exact hboth
        · exact fun hboth => ⟨(db', results'), hprocess, hboth⟩
      rw [hrest, hhead, List.forall_mem_cons]
      refine and_congr_right fun hx => ?_
      exact ih (fun y hy => hxs y (List.mem_cons_of_mem x hy)) (hhead.mpr hx) hvalid'

/-- Dry runs leave the database exactly when the name of every new jar is
interned already, and every known jar is skipped or has rows for all its class
entries. -/
theorem dry_runs_leave_iff (hw : Lexicon words) (h : Valid words db fs cs)
    (hdry : options.dryRun = true) (xs : List (Input H)) (hxs : ∀ x ∈ xs, x.NamesInterned words)
    (results : Results) :
    AllSame A garbage options db (db, results) xs ↔ ∀ x ∈ xs, x.Leaves options db :=
  allSame_iff A garbage options hw h hdry xs hxs (SameContents.refl db) h

end Inputs

/-- A file that is no class file. -/
def sampleFile : ReadFile where
  info := ⟨ascii "x.class", 4, 0, [0, 0, 0, 0]⟩
  header := by decide
  resolves := by
    intro garbage c s h
    have hnone : parsed .file [0, 0, 0, 0] garbage = none := rfl
    change parsed .file [0, 0, 0, 0] garbage = some (c, s) at h
    rw [hnone] at h
    cases h

theorem dry_runs_leave_sample :
    ∃ db results db₁ results₁, DigestDb.create = some db ∧
      run Allocator.next sampleHash (fun _ => 0) {} sampleJar [entryA.entry] db results =
        .returned (db₁, results₁) ∧
      AllSame Allocator.next (fun _ => 0) { useFileTimestamp := false, dryRun := true } db₁
        (db₁, {}) [Input.jar sampleJar [entryA], .classFile sampleFile] := by
  obtain ⟨db, hcreate, hvalid, hstored⟩ := create_valid sampleWords (by decide)
  have hmem : sampleJar.filename ∈ sampleWords := by decide
  have hstarted := started_of_empty Allocator.next {} lexicon_sampleWords hvalid hmem {}
  have hes := jarClasses_sample entryA (by decide) (by decide)
  obtain ⟨db₁, results₁, fs₁, cs₁, row₁, hrun, hvalid₁, hstored₁, hrow₁, -⟩ := run_row
    Allocator.next (fun _ => 0) {} lexicon_sampleWords hvalid hmem (by decide) hes.names rfl {}
    hstarted
  refine ⟨db, {}, db₁, results₁, hcreate, hrun, (dry_runs_leave_iff Allocator.next (fun _ => 0) _
    lexicon_sampleWords hvalid₁ rfl _ ?_ {}).mpr ?_⟩
  · simp only [List.forall_mem_cons, List.not_mem_nil, false_imp_iff, implies_true, and_true]
    exact ⟨⟨hmem, hes.names⟩, True.intro⟩
  · simp only [List.forall_mem_cons, List.not_mem_nil, false_imp_iff, implies_true, and_true]
    refine ⟨?_, True.intro⟩
    rw [Input.Leaves, LeavesJar, hrow₁]
    refine .inr ?_
    rw [unknown, hstored₁, hstored]
    decide

/-- The name of a new jar is interned. -/
theorem new_jar_is_interned :
    ¬∀ (A : ∀ α : Type, Allocator α) (H : Bytes → Sha256) (garbage : ℕ → UInt8)
      (options : Options) (words : List Bytes) (db : DigestDb) (fs : List (Row FileCols))
      (cs : List (Row ClassFileCols)) (xs : List (Input H)) (results : Results),
      Lexicon words → Valid words db fs cs → options.dryRun = true →
      (∀ x ∈ xs, x.NamesInterned words) → AllSame A garbage options db (db, results) xs := by
  intro h
  obtain ⟨db, hcreate, hvalid, -⟩ := create_valid sampleWords (by decide)
  have hmem : sampleJar.filename ∈ sampleWords := by decide
  have hnamed : ∀ x ∈ [(Input.jar sampleJar [] : Input sampleHash)],
      x.NamesInterned sampleWords := by
    intro x hx
    rw [List.mem_singleton.mp hx]
    exact ⟨hmem, nofun⟩
  have hsame := h Allocator.next sampleHash (fun _ => 0) { dryRun := true } sampleWords db [] []
    [.jar sampleJar []] {} lexicon_sampleWords hvalid rfl hnamed
  have hleaves := (allSame_iff Allocator.next (fun _ => 0) { dryRun := true } lexicon_sampleWords
    hvalid rfl _ hnamed (SameContents.refl db) hvalid).mp hsame _ List.mem_cons_self
  rw [Input.Leaves, LeavesJar, fileRow_of_empty hvalid] at hleaves
  have hnone : (DigestDb.create.bind fun db => db.pool.hash.lookup sampleJar.filename) = none := by
    decide
  rw [hcreate, Option.bind_some] at hnone
  rw [hnone] at hleaves
  cases hleaves

end Tarracsh.DryRuns
