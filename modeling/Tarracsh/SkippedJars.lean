import Tarracsh.GraphTasks
import Tarracsh.GraphSoundness
import Tarracsh.DigestAnalysis

/-!
# Jars that the call-graph task skips

The row of a jar keeps the size and the time stamp of the version that created
it, while the class rows follow the versions that are analysed. Both are
functions of the history, and a skipped version is up to date when they agree.
-/
namespace Tarracsh.SkippedJars
open ByteStrings StringPool ParsedClass ClassFileReader ClassFileParser TableModel TableInvariant
open DomainTables CallGraphTables CallGraphInvariant ClassFileProcessor SafeConsumption JarEntries
open ReaderRefinement PoolAlignment Reporting CallGraphAnalysis NodeHistory Reanalysis
open GraphSoundness DigestTasks DigestRuns DigestSimulation DigestOutcomes GraphTasks
open KeyedReactions

section Frames
variable {A : ∀ α : Type, Allocator α} {db db' db'' : CallGraphDb}

/-- Files and classes stay, and the pool only grows. -/
structure Kept (db db' : CallGraphDb) : Prop where
  files : db'.files = db.files
  classfiles : db'.classfiles = db.classfiles
  pool : Grows db.pool db'.pool

theorem Kept.refl (db : CallGraphDb) : Kept db db := ⟨rfl, rfl, fun _ _ h => h⟩

theorem Kept.trans (h : Kept db db') (h' : Kept db' db'') : Kept db db'' where
  files := h'.files.trans h.files
  classfiles := h'.classfiles.trans h.classfiles
  pool offset s hs := h'.pool offset s (h.pool offset s hs)

theorem internalAdd_grows {pool pool' : Pool} {s : Bytes} {offset : ℕ}
    (h : pool.internalAdd s = some (pool', offset)) : Grows pool pool' := by
  unfold Pool.internalAdd at h
  cases hlookup : pool.hash.lookup s with
  | some found =>
      simp only [hlookup, Option.some.injEq, Prod.mk.injEq] at h
      rw [← h.1]
      exact fun _ _ ht => ht
  | none =>
      simp only [hlookup] at h
      split_ifs at h
      obtain ⟨key, -, hpool⟩ := Option.bind_eq_some_iff.mp h
      obtain ⟨rfl, -⟩ := Prod.mk.inj (Option.some.inj hpool)
      exact fun _ _ ht => TerminatedStrings.cString_append_right ht _

theorem getPoolString_kept {s : Bytes} {col : StringCol}
    (h : db.getPoolString s = some (db', col)) : Kept db db' := by
  obtain ⟨⟨pool, offset⟩, hadd, h⟩ := Option.bind_eq_some_iff.mp h
  obtain ⟨rfl, -⟩ := Prod.mk.inj (Option.some.inj h)
  exact ⟨rfl, rfl, internalAdd_grows hadd⟩

theorem record_kept {i : NodeTable} {cols : NodeCols i} (h : db.record A i cols = some db') :
    Kept db db' := by
  obtain ⟨⟨t, id⟩, -, h⟩ := Option.bind_eq_some_iff.mp h
  obtain rfl := Option.some.inj h
  exact ⟨rfl, rfl, fun _ _ hs => hs⟩

theorem recordTexts_kept {rowId : ℕ} {t : NodeTexts} (h : t.record A rowId db = some db') :
    Kept db db' := by
  cases t with
  | classRef name =>
      obtain ⟨⟨db₁, x⟩, hx, h⟩ := Option.bind_eq_some_iff.mp h
      exact (getPoolString_kept hx).trans (record_kept h)
  | method name descriptor =>
      obtain ⟨⟨db₁, x⟩, hx, h⟩ := Option.bind_eq_some_iff.mp h
      obtain ⟨⟨db₂, y⟩, hy, h⟩ := Option.bind_eq_some_iff.mp h
      exact ((getPoolString_kept hx).trans (getPoolString_kept hy)).trans (record_kept h)
  | field name descriptor =>
      obtain ⟨⟨db₁, x⟩, hx, h⟩ := Option.bind_eq_some_iff.mp h
      obtain ⟨⟨db₂, y⟩, hy, h⟩ := Option.bind_eq_some_iff.mp h
      exact ((getPoolString_kept hx).trans (getPoolString_kept hy)).trans (record_kept h)
  | methodRef classname name descriptor =>
      obtain ⟨⟨db₁, x⟩, hx, h⟩ := Option.bind_eq_some_iff.mp h
      obtain ⟨⟨db₂, y⟩, hy, h⟩ := Option.bind_eq_some_iff.mp h
      obtain ⟨⟨db₃, z⟩, hz, h⟩ := Option.bind_eq_some_iff.mp h
      exact (((getPoolString_kept hx).trans (getPoolString_kept hy)).trans
        (getPoolString_kept hz)).trans (record_kept h)
  | fieldRef classname name descriptor =>
      obtain ⟨⟨db₁, x⟩, hx, h⟩ := Option.bind_eq_some_iff.mp h
      obtain ⟨⟨db₂, y⟩, hy, h⟩ := Option.bind_eq_some_iff.mp h
      obtain ⟨⟨db₃, z⟩, hz, h⟩ := Option.bind_eq_some_iff.mp h
      exact (((getPoolString_kept hx).trans (getPoolString_kept hy)).trans
        (getPoolString_kept hz)).trans (record_kept h)

/-- Nodes are recorded without touching files and classes. -/
theorem recordAll_kept {rowId : ℕ} {ts : List NodeTexts}
    (h : ts.foldlM (fun db t => t.record A rowId db) db = some db') : Kept db db' := by
  induction ts generalizing db with
  | nil =>
      obtain rfl := Option.some.inj h
      exact Kept.refl db
  | cons t ts ih =>
      rw [List.foldlM_cons] at h
      obtain ⟨db₁, hrecord, hrest⟩ := Option.bind_eq_some_iff.mp h
      exact (recordTexts_kept hrecord).trans (ih hrest)

end Frames

section Reading

/-- What the bytes of an entry are to the call-graph task. -/
inductive GraphReading where
  | rejected
  | accepted (c : ClassFile) (classname : Bytes) (texts : List NodeTexts)

def graphReading (garbage : ℕ → UInt8) (e : JarEntry) : Outcome GraphReading :=
  match construct .memory e.content garbage with
  | none => .thrown
  | some reader =>
      match parse reader with
      | none => .returned .rejected
      | some (c, _) => do
          let classname ← .ofOption (getUniqueClassname e c)
          let texts ← .ofOption (extractTexts c)
          .returned (.accepted c classname texts)

/-- A class entry that no reader throws at and no lookup fails for. -/
structure GraphEntry where
  entry : JarEntry
  reading : GraphReading
  reads : ∀ garbage, graphReading garbage entry = .returned reading

namespace GraphEntry
variable (e : GraphEntry)

def isAccepted : Bool :=
  match e.reading with
  | .rejected => false
  | .accepted _ _ _ => true

/-- The name of the class. -/
def name : Bytes :=
  match e.reading with
  | .rejected => e.entry.getClassname
  | .accepted _ classname _ => classname

/-- The name of the class and the texts of its nodes are words of the pool. -/
def TextsIn (words : List Bytes) : Prop :=
  match e.reading with
  | .rejected => True
  | .accepted _ classname texts => classname ∈ words ∧ ∀ t ∈ texts, ∀ s ∈ labelOf t, s ∈ words

end GraphEntry

/-- The class entry is up to date, analysed, or it does not parse. -/
inductive GraphVerdict where
  | unchanged
  | analysed
  | failed
  deriving DecidableEq, Repr

def graphReact (e : GraphEntry) (found : Option ClassRecord) : GraphVerdict :=
  match found.filter (upToDate e.entry) with
  | some _ => .unchanged
  | none => if e.isAccepted then .analysed else .failed

/-- The call-graph task on the map from class keys to stored classes. -/
def graphRules (filename : Bytes) : Rules GraphEntry Bytes ClassRecord GraphVerdict where
  look e := e.entry.strongClassname filename
  react := graphReact
  stores _ v := v == .analysed
  target e := DomainTables.getStrongClassname filename e.name
  record e := ⟨e.name, e.entry.getSize, e.entry.crc, e.entry.lastWriteTime, Vector.replicate 40 0⟩

theorem graphRules_writes_iff {filename : Bytes} {M : Bytes → Option ClassRecord}
    {e : GraphEntry} : (graphRules filename).Writes M e ↔
      e.isAccepted = true ∧
        (M (e.entry.strongClassname filename)).filter (upToDate e.entry) = none := by
  change (graphReact e (M (e.entry.strongClassname filename)) == .analysed) = true ↔ _
  rw [graphReact, beq_iff_eq]
  cases (M (e.entry.strongClassname filename)).filter (upToDate e.entry) with
  | some r => simp
  | none => cases e.isAccepted <;> simp

theorem graphEntry_cases (e : GraphEntry) (garbage : ℕ → UInt8) :
    ∃ reader, construct .memory e.entry.content garbage = some reader ∧
      ((parse reader = none ∧ e.reading = .rejected) ∨
        ∃ c t classname texts, parse reader = some (c, t) ∧
          getUniqueClassname e.entry c = some classname ∧ extractTexts c = some texts ∧
          e.reading = .accepted c classname texts) := by
  have hreads := e.reads garbage
  unfold graphReading at hreads
  cases hreader : construct .memory e.entry.content garbage with
  | none =>
      rw [hreader] at hreads
      cases hreads
  | some reader =>
      refine ⟨reader, rfl, ?_⟩
      rw [hreader] at hreads
      cases hparse : parse reader with
      | none =>
          simp only [hparse, Outcome.returned.injEq] at hreads
          exact .inl ⟨rfl, hreads.symm⟩
      | some result =>
          simp only [hparse] at hreads
          obtain ⟨classname, hclassname, hreads⟩ := Outcome.bind_eq_returned_iff.mp hreads
          obtain ⟨texts, htexts, hreads⟩ := Outcome.bind_eq_returned_iff.mp hreads
          exact .inr ⟨result.1, result.2, classname, texts, rfl,
            Outcome.ofOption_eq_returned_iff.mp hclassname,
            Outcome.ofOption_eq_returned_iff.mp htexts, (Outcome.returned.inj hreads).symm⟩

end Reading

section Entries
variable {words : List Bytes} {filename : Bytes} {s : GraphTask} {fs : List (Row FileCols)}
  {cs : List (Row ClassFileCols)} {row : Row FileCols}

/-- The part of a task that it shares with `DigestTask`. -/
def sharedPart (s : GraphTask) : TaskState :=
  ⟨tables s.db, ⟨s.jarFileRow, s.isNewJarFile, s.isFileUnchanged, ∅⟩, s.results⟩

/-- A call-graph database between two classes. -/
structure GraphValid (words : List Bytes) (db : GraphDb) (fs : List (Row FileCols))
    (cs : List (Row ClassFileCols)) : Prop where
  valid : Valid words (tables db) fs cs
  index : ∀ i, db.ownerClassIndex i = ∅
  nodes : ∀ i, ∃ rs, Core ⟨i.format, fun _ => []⟩ (db.nodes i) rs

theorem GraphValid.sound {db : GraphDb} (h : GraphValid words db fs cs) :
    Sound words db.toCallGraphDb fs where
  pooled := h.valid.pooled
  files := h.valid.files
  filed := h.valid.filedFiles
  named := h.valid.named
  classes := ⟨cs, h.valid.classes.rekey _⟩
  nodes := h.nodes

/-- A task at work on a jar with a row in the table. -/
structure GraphReady (words : List Bytes) (filename : Bytes) (s : GraphTask)
    (fs : List (Row FileCols)) (cs : List (Row ClassFileCols)) (row : Row FileCols) : Prop where
  shared : Ready words false filename (sharedPart s) fs cs row
  index : ∀ i, s.db.ownerClassIndex i = ∅
  nodes : ∀ i, ∃ rs, Core ⟨i.format, fun _ => []⟩ (s.db.nodes i) rs

theorem GraphReady.graphValid (h : GraphReady words filename s fs cs row) :
    GraphValid words s.db fs cs := ⟨h.shared.valid, h.index, h.nodes⟩

variable (A : ∀ α : Type, Allocator α)

/-- The class row is stored and the nodes are recorded, unless the class was known and the
released row has lost its id. -/
theorem analyseEntry_spec (hw : Lexicon words) (h : GraphReady words filename s fs cs row)
    {e : JarEntry} {c : ClassFile} {classname : Bytes} {texts : List NodeTexts}
    (hlaid : LaidOut (2 ^ 16) c.constantPool) (hunique : getUniqueClassname e c = some classname)
    (hmem : classname ∈ words) (hextract : extractTexts c = some texts)
    (hts : ∀ t ∈ texts, ∀ x ∈ labelOf t, x ∈ words) :
    (¬(stored (tables s.db) (DomainTables.getStrongClassname filename classname) = none ∨
          (A ClassFileCols).KeepsIds) ∧
        analyseEntry A s.db s.jarFileRow e c = none) ∨
      ∃ db' cs', analyseEntry A s.db s.jarFileRow e c = some db' ∧
        GraphReady words filename { s with db := db' } fs cs' row ∧
        stored (tables db') = Function.update (stored (tables s.db))
          (DomainTables.getStrongClassname filename classname)
          (some ⟨classname, e.getSize, e.crc, e.lastWriteTime, Vector.replicate 40 0⟩) := by
  obtain ⟨pool, classfiles, id, cs', hadd, hvalid, hgrows, hstored, hread, -⟩ :=
    DigestSimulation.addOrUpdateClassfile_spec A hw h.shared hunique hmem (Vector.replicate 40 0)
  have hadd' : addOrUpdateClassfile A s.db.pool s.db.files s.db.classfiles s.jarFileRow e
      (Vector.replicate 40 0) c = some (pool, classfiles, id) := hadd
  have hrow : classfiles.getRow id = cs'[id]? := hvalid.classes.getRow_eq id
  cases hid : cs'[id]? with
  | none =>
      refine .inl ⟨fun hnew => ?_, ?_⟩
      · have hfound := hread hnew
        rw [hid] at hfound
        cases hfound
      · rw [hid] at hrow
        simp only [analyseEntry, hadd', hrow, Option.bind_eq_bind, Option.bind_some,
          Option.bind_none]
  | some classRow =>
  rw [hid] at hrow
  refine .inr ?_
  have hvalid₁ : GraphValid words { s.db with pool := pool, classfiles := classfiles } fs cs' :=
    ⟨hvalid, h.index, h.nodes⟩
  obtain ⟨graph, hrecord, hsound⟩ := hvalid₁.sound.recordAll A hw id hts
  have hkept := recordAll_kept hrecord
  obtain ⟨hvalid₂, hstored₂⟩ := hvalid.grows hsound.pooled hkept.pool
  have htables : tables { s.db with toCallGraphDb := graph } =
      { tables s.db with pool := graph.pool, classfiles := classfiles } := by
    simp only [tables, hkept.files, hkept.classfiles]
  refine ⟨{ s.db with toCallGraphDb := graph }, cs', ?_,
    ⟨⟨?_, ?_, ?_, fun hdry => ?_⟩, h.index, hsound.nodes⟩, ?_⟩
  · have hnodes := @extractNodes_eq A id c hlaid
      { s.db.toCallGraphDb with pool := pool, classfiles := classfiles }
    rw [hextract, Option.bind_some, hrecord] at hnodes
    simp only [analyseEntry, hadd', hrow, Option.bind_eq_bind, Option.bind_some, hnodes]
  · change Valid words (tables _) fs cs'
    rw [htables]
    exact hvalid₂
  · change graph.files.heap.lookup s.jarFileRow = some row
    rw [hkept.files]
    exact h.shared.lookup
  · exact hkept.pool _ _ (hgrows _ _ h.shared.filename)
  · change graph.files.autoIncrementIndex[row.id]? = some s.jarFileRow
    rw [hkept.files]
    exact h.shared.added hdry
  · rw [htables]
    exact hstored₂.trans hstored

variable (garbage : ℕ → UInt8) (options : Options)

/-- Nothing is deleted before the class is parsed. -/
theorem processClassFile_eq {db : GraphDb} (hindex : ∀ i, db.ownerClassIndex i = ∅) (pJar : ℕ)
    (results : Results) (e : JarEntry) (found : Option (Row ClassFileCols)) :
    processClassFile A options garbage filename pJar db results e found =
      processClassFile A options garbage filename pJar db results e none := by
  cases found with
  | none => rfl
  | some r => simp only [processClassFile, deleteClass_eq hindex]

theorem processClassFile_spec (hw : Lexicon words) (h : GraphReady words filename s fs cs row)
    (e : GraphEntry) (htexts : e.TextsIn words) (found : Option (Row ClassFileCols))
    (hstale : (stored (tables s.db) (e.entry.strongClassname filename)).filter
      (upToDate e.entry) = none) :
    (¬((graphRules filename).Extends (stored (tables s.db)) [e] ∨
          (A ClassFileCols).KeepsIds) ∧
        processClassFile A options garbage filename s.jarFileRow s.db s.results e.entry found =
          .undefined) ∨
      ∃ db' results' cs', processClassFile A options garbage filename s.jarFileRow s.db s.results
          e.entry found = .returned (db', results') ∧
        GraphReady words filename { s with db := db', results := results' } fs cs' row ∧
        stored (tables db') = (graphRules filename).step (stored (tables s.db)) e := by
  rw [processClassFile_eq A garbage options h.index]
  obtain ⟨reader, hreader, ⟨hparse, hreading⟩ | ⟨c, t, classname, texts, hparse, hunique, hextract,
    hreading⟩⟩ := graphEntry_cases e garbage
  · have hidle : ¬(graphRules filename).Writes (stored (tables s.db)) e := by
      rw [graphRules_writes_iff, GraphEntry.isAccepted, hreading]
      simp
    refine .inr ⟨s.db, (s.results.asFailedJarClass options.isDiff
      (e.entry.strongClassname filename)).onJarClasses fun stats =>
        { stats with errors := stats.errors + 1 }, cs, ?_,
      ⟨h.shared.of_eq rfl rfl, h.index, h.nodes⟩, ?_⟩
    · simp only [processClassFile, hreader, hparse]
    · rw [Rules.step, if_neg hidle]
  · have hwrites : (graphRules filename).Writes (stored (tables s.db)) e := by
      rw [graphRules_writes_iff, GraphEntry.isAccepted, hreading]
      exact ⟨rfl, hstale⟩
    rw [GraphEntry.TextsIn, hreading] at htexts
    have hname : e.name = classname := by rw [GraphEntry.name, hreading]
    have hparsed : parsed .memory e.entry.content garbage = some (c, t) := by
      rw [parsed, hreader, Option.bind_some, hparse]
    have htarget : (graphRules filename).target e =
        DomainTables.getStrongClassname filename classname := by rw [← hname]; rfl
    obtain ⟨hknown, hanalyse⟩ | ⟨db', cs', hanalyse, hready, hstored⟩ := analyseEntry_spec A hw h
      (laidOut_of_parsed hparsed) hunique htexts.1 hextract htexts.2
    · refine .inl ⟨fun hnew => hknown (hnew.imp_left fun hextends => ?_), ?_⟩
      · rw [← htarget]
        exact hextends.1 hwrites
      · simp only [processClassFile, hreader, hparse, hanalyse]
    refine .inr ⟨db', s.results, cs', ?_, hready, ?_⟩
    · simp only [processClassFile, hreader, hparse, hanalyse]
    · rw [Rules.step, if_pos hwrites, hstored]
      have hrecord : (graphRules filename).record e =
          ⟨classname, e.entry.getSize, e.entry.crc, e.entry.lastWriteTime,
            Vector.replicate 40 0⟩ := by rw [← hname]; rfl
      rw [htarget, hrecord]

/-- `findClassRow` finds what is stored. -/
theorem findClassRow_spec {db : GraphDb} (h : GraphValid words db fs cs) (key : Bytes) :
    ∃ found, findClassRow db key = some found ∧
      found.map (fun r => recordOf db.pool r.cols) = stored (tables db) key ∧
      ∀ r, found = some r → r.cols.file ≠ InvalidRef := by
  obtain ⟨cols, hfind, hstored, hvalid⟩ := findClass_spec h.valid key
  unfold DigestDb.findClass at hfind
  cases hkey : db.classfiles.findByKey key with
  | none =>
      have hkey' : (tables db).classfiles.findByKey key = none := hkey
      rw [hkey'] at hfind
      obtain rfl := Option.some.inj hfind
      exact ⟨none, by rw [findClassRow, hkey], hstored, nofun⟩
  | some p =>
      have hkey' : (tables db).classfiles.findByKey key = some p := hkey
      simp only [hkey'] at hfind
      obtain ⟨r, hlookup, rfl⟩ := Option.map_eq_some_iff.mp hfind
      have hlookup' : db.classfiles.heap.lookup p = some r := hlookup
      refine ⟨some r, ?_, hstored, ?_⟩
      · simp only [findClassRow, hkey, hlookup', Option.map_some]
      · intro r' hr'
        obtain rfl := Option.some.inj hr'
        exact hvalid r.cols rfl

theorem GraphReady.countClass (h : GraphReady words filename s fs cs row) :
    ∃ fs' row', GraphReady words filename (s.countClass row) fs' cs row' ∧
      stored (tables (s.countClass row).db) = stored (tables s.db) ∧
      row' = withCount row (row.cols.classfileCount + 1) := by
  obtain ⟨fs', hready, hstored⟩ := h.shared.countClass
  exact ⟨fs', _, ⟨hready, h.index, h.nodes⟩, hstored, rfl⟩

/-- One call of `processEntry`. -/
theorem processEntry_graph (hw : Lexicon words) (h : GraphReady words filename s fs cs row)
    (e : GraphEntry) (htexts : e.TextsIn words) :
    (¬((graphRules filename).Extends (stored (tables s.db)) [e] ∨
          (A ClassFileCols).KeepsIds) ∧
        GraphTasks.processEntry A garbage options s e.entry = .undefined) ∨
      ∃ s' fs' cs' row', GraphTasks.processEntry A garbage options s e.entry = .returned s' ∧
        GraphReady words filename s' fs' cs' row' ∧
        stored (tables s'.db) = (graphRules filename).step (stored (tables s.db)) e ∧
        row'.cols.fileSize = row.cols.fileSize ∧
        row'.cols.lastWriteTime = row.cols.lastWriteTime ∧
        s'.jarFileRow = s.jarFileRow ∧ s'.isFileUnchanged = s.isFileUnchanged := by
  obtain ⟨found, hfind, hfound, hvalid⟩ :=
    findClassRow_spec h.graphValid (e.entry.strongClassname filename)
  have hname : text s.db.pool row.cols.filename = filename := h.shared.text_filename
  have hlookup : s.db.files.heap.lookup s.jarFileRow = some row := h.shared.lookup
  obtain ⟨s₁, fs₁, row₁, hs₁, hready₁, hstored₁, hsize₁, htime₁, hjar₁, hunchanged₁⟩ :
      ∃ s₁ fs₁ row₁, (if found.isSome then s else s.countClass row) = s₁ ∧
        GraphReady words filename s₁ fs₁ cs row₁ ∧
        stored (tables s₁.db) = stored (tables s.db) ∧
        row₁.cols.fileSize = row.cols.fileSize ∧
        row₁.cols.lastWriteTime = row.cols.lastWriteTime ∧ s₁.jarFileRow = s.jarFileRow ∧
        s₁.isFileUnchanged = s.isFileUnchanged := by
    cases found with
    | some r => exact ⟨s, fs, row, rfl, h, rfl, rfl, rfl, rfl, rfl⟩
    | none =>
        obtain ⟨fs', row', hready, hstored, rfl⟩ := h.countClass
        exact ⟨_, fs', _, rfl, hready, hstored, rfl, rfl, rfl, rfl⟩
  have hfilter : (found.filter fun r => isClassfileUnchanged e.entry r.cols).map
      (fun r => recordOf s.db.pool r.cols) =
        (stored (tables s.db) (e.entry.strongClassname filename)).filter (upToDate e.entry) := by
    have hfile : ∀ c, (found.map fun r => r.cols) = some c → c.file ≠ InvalidRef := by
      intro c hc
      obtain ⟨r, hr, rfl⟩ := Option.map_eq_some_iff.mp hc
      exact hvalid r hr
    have hcols := filter_isClassfileUnchanged s.db.pool hfile e.entry
    rw [Option.map_map] at hcols
    rw [← hfound]
    refine Eq.trans ?_ hcols
    cases found with
    | none => rfl
    | some r =>
        simp only [Option.map_some, Option.filter_some]
        split_ifs <;> rfl
  cases hcase : found.filter fun r => isClassfileUnchanged e.entry r.cols with
  | some r =>
      rw [hcase, Option.map_some] at hfilter
      have hidle : ¬(graphRules filename).Writes (stored (tables s.db)) e := by
        rw [graphRules_writes_iff, ← hfilter]
        simp
      refine .inr ⟨{ s₁ with results := (s₁.results.asUnchangedJarClass options.isDiff
          (e.entry.strongClassname filename)).onJarClasses fun stats =>
            { stats with count := stats.count + 1 } }, fs₁, cs, row₁, ?_,
        ⟨hready₁.shared.of_eq rfl rfl, hready₁.index, hready₁.nodes⟩, ?_, hsize₁, htime₁, hjar₁,
        hunchanged₁⟩
      · simp only [GraphTasks.processEntry, hlookup, Outcome.ofOption_some,
          Outcome.returned_bind, hname, hfind, hcase, hs₁]
      · rw [Rules.step, if_neg hidle]
        exact hstored₁
  | none =>
      rw [hcase, Option.map_none] at hfilter
      obtain ⟨hknown, hprocess⟩ | ⟨db₂, results₂, cs₂, hprocess, hready₂, hstored₂⟩ :=
        processClassFile_spec A garbage options hw hready₁ e htexts found
          (by rw [hstored₁, ← hfilter])
      · refine .inl ⟨by rw [← hstored₁]; exact hknown, ?_⟩
        simp only [GraphTasks.processEntry, hlookup, Outcome.ofOption_some,
          Outcome.returned_bind, hname, hfind, hcase, hs₁, hprocess]
        rfl
      refine .inr ⟨{ s₁ with db := db₂, results := results₂.onJarClasses fun stats =>
          { stats with count := stats.count + 1 } }, fs₁, cs₂, row₁, ?_,
        ⟨hready₂.shared.of_eq rfl rfl, hready₂.index, hready₂.nodes⟩, ?_, hsize₁, htime₁, hjar₁,
        hunchanged₁⟩
      · simp only [GraphTasks.processEntry, hlookup, Outcome.ofOption_some,
          Outcome.returned_bind, hname, hfind, hcase, hs₁, hprocess]
      · rw [hstored₁] at hstored₂
        exact hstored₂

/-- All entries of a jar. -/
theorem processEntries_graph (hw : Lexicon words) (es : List GraphEntry)
    (htexts : ∀ e ∈ es, e.TextsIn words) (h : GraphReady words filename s fs cs row) :
    (¬((graphRules filename).Extends (stored (tables s.db)) es ∨ (A ClassFileCols).KeepsIds) ∧
        (es.map fun e => e.entry).foldlM (GraphTasks.processEntry A garbage options) s =
          .undefined) ∨
      ∃ s' fs' cs' row', (es.map fun e => e.entry).foldlM
          (GraphTasks.processEntry A garbage options) s = .returned s' ∧
        GraphReady words filename s' fs' cs' row' ∧
        stored (tables s'.db) = (graphRules filename).after (stored (tables s.db)) es ∧
        row'.cols.fileSize = row.cols.fileSize ∧
        row'.cols.lastWriteTime = row.cols.lastWriteTime := by
  induction es generalizing s fs cs row with
  | nil => exact .inr ⟨s, fs, cs, row, rfl, h, rfl, rfl, rfl⟩
  | cons e es ih =>
      rw [List.map_cons, List.foldlM_cons]
      obtain ⟨hknown, hentry⟩ | ⟨s₁, fs₁, cs₁, row₁, hentry, hready, hstored, hsize, htime, -⟩ :=
        processEntry_graph A garbage options hw h e (htexts e List.mem_cons_self)
      · refine .inl ⟨fun hextends => hknown (hextends.imp_left fun h => ⟨h.1, trivial⟩), ?_⟩
        rw [hentry]
        rfl
      rw [hentry]
      refine (ih (fun a ha => htexts a (List.mem_cons_of_mem e ha)) hready).imp ?_ ?_
      · rintro ⟨hknown, hrest⟩
        rw [hstored] at hknown
        exact ⟨fun hextends => hknown (hextends.imp_left And.right), hrest⟩
      · rintro ⟨s', fs', cs', row', hrest, hready', hstored', hsize', htime'⟩
        refine ⟨s', fs', cs', row', hrest, hready', ?_, hsize'.trans hsize, htime'.trans htime⟩
        rw [hstored', hstored]
        rfl

/-- The row of the jar is found under its name. -/
theorem GraphReady.fileRow (h : GraphReady words filename s fs cs row) :
    fileRow (tables s.db) filename = some row := by
  have hfound : s.db.files.rows.lookup filename = some s.jarFileRow :=
    (h.shared.valid.filedFiles filename s.jarFileRow).mpr
      ⟨row.id, row, h.shared.added rfl, h.shared.row_mem rfl, h.shared.text_filename⟩
  change (s.db.files.rows.lookup filename).bind s.db.files.heap.lookup = some row
  rw [hfound]
  exact h.shared.lookup

end Entries

section Versions

/-- A version of the jar, with the options of the run that meets it. -/
structure GraphVersion where
  size : UInt64
  timestamp : Int64
  options : Options
  entries : List GraphEntry

/-- What tells two versions of a class file apart. -/
abbrev Stamp := UInt64 × Int32 × UInt64

def stampOf (e : JarEntry) : Stamp := (e.getSize, e.crc, e.lastWriteTime)

def recordStamp (r : ClassRecord) : Stamp := (r.size, r.crc, r.lastWriteTime)

theorem upToDate_iff (e : JarEntry) (r : ClassRecord) :
    upToDate e r = true ↔ recordStamp r = stampOf e := by
  simp [upToDate, recordStamp, stampOf, and_assoc]

namespace GraphVersion
variable (v : GraphVersion) (filename : Bytes)

def jar : JarFile := ⟨filename, v.size, v.timestamp⟩

/-- The run is not dry, the class entries have different paths, and every class
has the name of its path. -/
structure Regular : Prop where
  notDry : v.options.dryRun = false
  distinct : (v.entries.map fun e => e.entry.getClassname).Nodup
  own : ∀ e ∈ v.entries, e.name = e.entry.getClassname

/-- The class files of the version, by name. -/
def classFiles (name : Bytes) : Option Stamp :=
  (v.entries.find? fun e => e.isAccepted && e.name == name).map fun e => stampOf e.entry

/-- The class files after the version is analysed. -/
def imprint (M : Bytes → Option Stamp) (name : Bytes) : Option Stamp :=
  (v.classFiles name).or (M name)

/-- The version has the size and the time stamp in the row of the jar. -/
def skippedBy (first : Option (UInt64 × Int64)) : Bool :=
  v.options.useFileTimestamp && first == some (v.size, v.timestamp)

/-- No class file of the version changes one of those given. -/
def Keeps (M : Bytes → Option Stamp) : Prop :=
  ∀ e ∈ v.entries, e.isAccepted = true → M e.name = none ∨ M e.name = some (stampOf e.entry)

end GraphVersion

/-- Every version with the size and the time stamp of the first has the class
files that were last analysed under their names, and no others were. -/
def Restored : Option (UInt64 × Int64) → (Bytes → Option Stamp) → List GraphVersion → Prop
  | _, _, [] => True
  | first, M, v :: vs =>
      if v.skippedBy first then (∀ name, M name = v.classFiles name) ∧ Restored first M vs
      else Restored (some (first.getD (v.size, v.timestamp))) (v.imprint M) vs

/-- No version that is analysed changes a class file. -/
def NoneChanged : Option (UInt64 × Int64) → (Bytes → Option Stamp) → List GraphVersion → Prop
  | _, _, [] => True
  | first, M, v :: vs =>
      if v.skippedBy first then NoneChanged first M vs
      else v.Keeps M ∧
        NoneChanged (some (first.getD (v.size, v.timestamp))) (v.imprint M) vs

/-- The stored class files of the jar, by name. -/
def stamps (db : GraphDb) (filename name : Bytes) : Option Stamp :=
  (stored (tables db) (DomainTables.getStrongClassname filename name)).map recordStamp

namespace GraphVersion
variable {v : GraphVersion} {filename : Bytes}

theorem Regular.own_rules (h : v.Regular) (filename : Bytes) (M : Bytes → Option ClassRecord) :
    Own (graphRules filename) M v.entries := by
  intro e he _
  change DomainTables.getStrongClassname filename e.name = e.entry.strongClassname filename
  rw [h.own e he]
  rfl

theorem Regular.nodup_look (h : v.Regular) (filename : Bytes) :
    (v.entries.map (graphRules filename).look).Nodup := by
  have hlook : v.entries.map (graphRules filename).look =
      (v.entries.map fun e => e.entry.getClassname).map
        (DomainTables.getStrongClassname filename) := by
    rw [List.map_map]
    rfl
  rw [hlook]
  exact h.distinct.map fun a b hab => getStrongClassname_injective hab

/-- A version that changes no class file overwrites no class row. -/
theorem Regular.extends (h : v.Regular) {db : GraphDb} (hkeeps : v.Keeps (stamps db filename)) :
    (graphRules filename).Extends (stored (tables db)) v.entries := by
  refine (h.own_rules filename _).extends (h.nodup_look filename) fun e he hwrites => ?_
  obtain ⟨haccepted, hstale⟩ := graphRules_writes_iff.mp hwrites
  have hkey : DomainTables.getStrongClassname filename e.name =
      e.entry.strongClassname filename := by
    rw [h.own e he]
    rfl
  change stored (tables db) (e.entry.strongClassname filename) = none
  rcases hkeeps e he haccepted with hnone | hsame
  · rw [stamps, hkey, Option.map_eq_none_iff] at hnone
    exact hnone
  · rw [stamps, hkey, Option.map_eq_some_iff] at hsame
    obtain ⟨r, hr, hstamp⟩ := hsame
    rw [hr, Option.filter_some, if_pos ((upToDate_iff _ _).mpr hstamp)] at hstale
    cases hstale

end GraphVersion

theorem stamps_after {v : GraphVersion} (h : v.Regular) {filename : Bytes} {db db' : GraphDb}
    (hstored : stored (tables db') = (graphRules filename).after (stored (tables db)) v.entries) :
    stamps db' filename = v.imprint (stamps db filename) := by
  have hown := h.own_rules filename (stored (tables db))
  have hnodup := h.nodup_look filename
  funext name
  rw [stamps, hstored, GraphVersion.imprint, GraphVersion.classFiles]
  cases hfind : v.entries.find? fun e => e.isAccepted && e.name == name with
  | some e =>
      have hmem := List.mem_of_find?_eq_some hfind
      have hboth := List.find?_some hfind
      rw [Bool.and_eq_true, beq_iff_eq] at hboth
      obtain ⟨haccepted, rfl⟩ := hboth
      have hafter := hown.after_look hnodup hmem
      change (graphRules filename).after _ _ (e.entry.strongClassname filename) = _ at hafter
      rw [h.own e hmem]
      change ((graphRules filename).after _ _ (e.entry.strongClassname filename)).map _ = _
      rw [hafter]
      split_ifs with hwrites
      · rfl
      · rw [graphRules_writes_iff, not_and] at hwrites
        obtain ⟨r, hr⟩ := Option.ne_none_iff_exists'.mp (hwrites haccepted)
        obtain ⟨hfound, hup⟩ := Option.filter_eq_some_iff.mp hr
        change (stored (tables db) (e.entry.strongClassname filename)).map recordStamp = _
        rw [hfound]
        exact congrArg some ((upToDate_iff _ _).mp hup)
  | none =>
      have hkept : (graphRules filename).after (stored (tables db)) v.entries
          (DomainTables.getStrongClassname filename name) =
            stored (tables db) (DomainTables.getStrongClassname filename name) := by
        by_cases hname : ∃ e ∈ v.entries, e.name = name
        · obtain ⟨e, he, rfl⟩ := hname
          have hrejected := List.find?_eq_none.mp hfind e he
          have hidle : ¬(graphRules filename).Writes (stored (tables db)) e := by
            intro hwrites
            have haccepted := (graphRules_writes_iff.mp hwrites).1
            simp [haccepted] at hrejected
          have hafter := hown.after_look hnodup he
          rw [if_neg hidle] at hafter
          rw [h.own e he]
          exact hafter
        · apply hown.after_of_notMem hnodup
          rw [List.mem_map]
          rintro ⟨e, he, hlook⟩
          exact hname ⟨e, he, (h.own e he).trans (getStrongClassname_injective hlook)⟩
      rw [hkept]
      rfl

end Versions

section Histories
variable (A : ∀ α : Type, Allocator α) (garbage : ℕ → UInt8) (filename : Bytes)

/-- A run over the version that is on disk. -/
def analyseVersion (s : GraphDb × Results) (v : GraphVersion) : Outcome (GraphDb × Results) :=
  GraphTasks.run A garbage v.options (v.jar filename) (v.entries.map fun e => e.entry) s.1 s.2

/-- `start` returns false. -/
def Skips (s : GraphDb × Results) (v : GraphVersion) : Prop :=
  (GraphTasks.start A v.options (v.jar filename) s.1 s.2).map Prod.snd = some false

/-- Whenever a run skips the jar, the class rows of the jar are those of the version
on disk. -/
def AllCurrent : GraphDb × Results → List GraphVersion → Prop
  | _, [] => True
  | s, v :: vs => (Skips A filename s v → ∀ name, stamps s.1 filename name = v.classFiles name) ∧
      ∀ s', analyseVersion A garbage filename s v = .returned s' → AllCurrent s' vs

/-- The versions that a run begins with: those up to the first run that does not
return. -/
def reached : GraphDb × Results → List GraphVersion → List GraphVersion
  | _, [] => []
  | s, v :: vs => v :: match analyseVersion A garbage filename s v with
      | .returned s' => reached s' vs
      | _ => []

/-- What the database says about the jar. -/
structure Tracks (words : List Bytes) (db : GraphDb) (first : Option (UInt64 × Int64))
    (M : Bytes → Option Stamp) : Prop where
  valid : ∃ fs cs, GraphValid words db fs cs ∧ (first = none → fs.length + 1 < 2 ^ 64 - 1)
  row : (fileRow (tables db) filename).map
    (fun row => (row.cols.fileSize, row.cols.lastWriteTime)) = first
  classes : stamps db filename = M

/-- The two tasks start alike. -/
theorem start_eq (options : Options) (jar : JarFile) (db : GraphDb) (results : Results) :
    GraphTasks.start A options jar db results =
      (DigestTasks.start A options jar (tables db) results).map fun s =>
        (⟨withTables db s.1.db, s.1.task.jarFileRow, s.1.task.isNewJarFile,
          s.1.task.isFileUnchanged, s.1.results⟩, s.2) := by
  unfold GraphTasks.start DigestTasks.start
  cases getOrCreateFileRow A options jar (tables db) with
  | none => rfl
  | some found =>
      simp only [Option.bind_eq_bind, Option.bind_some]
      cases found.1.files.heap.lookup found.2.1 with
      | none => rfl
      | some row => rfl

variable {filename} {words : List Bytes} {db : GraphDb} {first : Option (UInt64 × Int64)}
  {M : Bytes → Option Stamp}

/-- A version that is skipped leaves the database as it is. -/
theorem Tracks.skipped (h : Tracks filename words db first M) {v : GraphVersion}
    (hskipped : v.skippedBy first = true) (results : Results) :
    Skips A filename (db, results) v ∧ ∃ results',
      analyseVersion A garbage filename (db, results) v = .returned (db, results') := by
  obtain ⟨fs, cs, hvalid, -⟩ := h.valid
  rw [GraphVersion.skippedBy, Bool.and_eq_true, beq_iff_eq, ← h.row, Option.map_eq_some_iff]
    at hskipped
  obtain ⟨htimestamp, row, hrow, hstamp⟩ := hskipped
  have hunchanged : isFileUnchanged v.options (v.jar filename) false row.cols = true := by
    obtain ⟨hsize, htime⟩ := Prod.mk.inj hstamp
    simp [isFileUnchanged, htimestamp, hsize, htime, GraphVersion.jar]
  have hrow' : fileRow (tables db) (v.jar filename).filename = some row := hrow
  obtain ⟨p, -, hstart, hready⟩ := start_known A v.options hvalid.valid hrow' results
  rw [hunchanged] at hstart
  constructor
  · rw [Skips, start_eq, hstart]
    rfl
  · have hlookup : (withTables db (tables db)).files.heap.lookup p = some row := hready.lookup
    simp only [analyseVersion, GraphTasks.run, start_eq, hstart, Option.map_some,
      Outcome.ofOption_some, Outcome.returned_bind, Bool.not_true, Bool.false_eq_true, if_false,
      GraphTasks.finish, hlookup, Option.bind_eq_bind, Option.bind_some]
    exact ⟨_, rfl⟩

/-- A version that is not skipped is started. -/
theorem Tracks.started (hw : Lexicon words) (hmem : filename ∈ words)
    (h : Tracks filename words db first M) {v : GraphVersion} (hdry : v.options.dryRun = false)
    (hskipped : v.skippedBy first = false) (results : Results) :
    ∃ s fs cs row, GraphTasks.start A v.options (v.jar filename) db results = some (s, true) ∧
      GraphReady words filename s fs cs row ∧ stored (tables s.db) = stored (tables db) ∧
      (row.cols.fileSize, row.cols.lastWriteTime) = first.getD (v.size, v.timestamp) := by
  obtain ⟨fs, cs, hvalid, hroom⟩ := h.valid
  have hfirst : (fileRow (tables db) (v.jar filename).filename).map
      (fun row => (row.cols.fileSize, row.cols.lastWriteTime)) = first := h.row
  have hchanged : ((fileRow (tables db) (v.jar filename).filename).any fun row =>
      isFileUnchanged v.options (v.jar filename) false row.cols) = false := by
    rw [GraphVersion.skippedBy, ← hfirst] at hskipped
    refine Eq.trans ?_ hskipped
    rw [Bool.eq_iff_iff]
    cases fileRow (tables db) (v.jar filename).filename with
    | none => simp
    | some row => simp [isFileUnchanged, GraphVersion.jar, and_assoc]
  have hnew : fileRow (tables db) (v.jar filename).filename = none → first = none := by
    intro hrow
    rw [← hfirst, hrow]
    rfl
  obtain ⟨s, fs', row, hstart, hready, hstored, -, -, -, hstamp⟩ :=
    start_changed A v.options hw hvalid.valid hmem (fun hrow _ => hroom (hnew hrow)) hchanged
      results
  rw [hdry] at hready
  rw [hfirst] at hstamp
  rw [start_eq, hstart]
  exact ⟨⟨withTables db s.db, s.task.jarFileRow, s.task.isNewJarFile, s.task.isFileUnchanged,
    s.results⟩, fs', cs, row, rfl, ⟨hready.of_eq rfl rfl, hvalid.index, hvalid.nodes⟩, hstored,
    hstamp⟩

/-- A version that is analysed leaves its class files, and the row of the jar
keeps the size and the time stamp of the first one. -/
theorem Tracks.processed (hw : Lexicon words) (hmem : filename ∈ words)
    (h : Tracks filename words db first M) {v : GraphVersion} (hregular : v.Regular)
    (htexts : ∀ e ∈ v.entries, e.TextsIn words) (hskipped : v.skippedBy first = false)
    (results : Results) :
    ¬Skips A filename (db, results) v ∧
      ((¬((A ClassFileCols).KeepsIds ∨ v.Keeps M) ∧
          analyseVersion A garbage filename (db, results) v = .undefined) ∨
        ∃ s', analyseVersion A garbage filename (db, results) v = .returned s' ∧
          Tracks filename words s'.1 (some (first.getD (v.size, v.timestamp))) (v.imprint M)) := by
  obtain ⟨s, fs, cs, row, hstart, hready, hstored, hstamp⟩ :=
    h.started A hw hmem hregular.notDry hskipped results
  refine ⟨by rw [Skips, hstart]; simp, ?_⟩
  refine (processEntries_graph A garbage v.options hw v.entries htexts hready).imp ?_ ?_
  · rintro ⟨hknown, hentries⟩
    rw [hstored] at hknown
    refine ⟨fun hkeeps => hknown (hkeeps.symm.imp_left fun hkeeps => ?_), ?_⟩
    · exact hregular.extends (by rw [h.classes]; exact hkeeps)
    · simp only [analyseVersion, GraphTasks.run, hstart, Outcome.ofOption_some,
        Outcome.returned_bind, if_true, hentries]
      rfl
  · rintro ⟨s', fs', cs', row', hentries, hready', hstored', hsize, htime⟩
    have hlookup : s'.db.files.heap.lookup s'.jarFileRow = some row' := hready'.shared.lookup
    simp only [analyseVersion, GraphTasks.run, hstart, Outcome.ofOption_some,
      Outcome.returned_bind, if_true, hentries, GraphTasks.finish, hlookup, Option.bind_eq_bind,
      Option.bind_some]
    refine ⟨_, rfl, ⟨fs', cs', hready'.graphValid, nofun⟩, ?_, ?_⟩
    · rw [hready'.fileRow, Option.map_some, hsize, htime, hstamp]
    · rw [← h.classes]
      exact stamps_after hregular (hstored'.trans (by rw [hstored]))

/-- One step decides, and the rest of the history follows. -/
theorem Tracks.allCurrent_iff (hw : Lexicon words) (hmem : filename ∈ words)
    (vs : List GraphVersion) (hregular : ∀ v ∈ vs, v.Regular)
    (htexts : ∀ v ∈ vs, ∀ e ∈ v.entries, e.TextsIn words)
    (h : Tracks filename words db first M) (results : Results) :
    AllCurrent A garbage filename (db, results) vs ↔
      Restored first M (reached A garbage filename (db, results) vs) := by
  induction vs generalizing db first M results with
  | nil => exact Iff.rfl
  | cons v vs ih =>
      have hrest := fun {db' first' M'} (h' : Tracks filename words db' first' M') results' =>
        ih (fun w hw => hregular w (List.mem_cons_of_mem v hw))
          (fun w hw => htexts w (List.mem_cons_of_mem v hw)) h' results'
      rw [AllCurrent, reached, Restored, h.classes]
      cases hskipped : v.skippedBy first with
      | true =>
          obtain ⟨hskips, results', hrun⟩ := h.skipped A garbage hskipped results
          simp only [hrun, if_true, Outcome.returned.injEq, forall_eq', hrest h results']
          exact and_congr_left fun _ => ⟨fun hboth => hboth hskips, fun hsame _ => hsame⟩
      | false =>
          obtain ⟨hstarts, hundefined | ⟨s', hrun, htracks⟩⟩ := h.processed A garbage hw hmem
            (hregular v List.mem_cons_self) (htexts v List.mem_cons_self) hskipped results
          · rw [if_neg Bool.false_ne_true, hundefined.2]
            exact iff_of_true ⟨fun hskips => absurd hskips hstarts, nofun⟩ trivial
          · simp only [hrun, Bool.false_eq_true, if_false, Outcome.returned.injEq, forall_eq',
              hrest htracks s'.2]
            exact and_iff_right fun hskips => absurd hskips hstarts

/-- All runs return if no class row is overwritten or a released row keeps its id. -/
theorem Tracks.returns (hw : Lexicon words) (hmem : filename ∈ words)
    (vs : List GraphVersion) (hregular : ∀ v ∈ vs, v.Regular)
    (htexts : ∀ v ∈ vs, ∀ e ∈ v.entries, e.TextsIn words)
    (h : Tracks filename words db first M)
    (hkeeps : (A ClassFileCols).KeepsIds ∨ NoneChanged first M vs) (results : Results) :
    reached A garbage filename (db, results) vs = vs ∧
      ∃ s', vs.foldlM (analyseVersion A garbage filename) (db, results) = .returned s' := by
  induction vs generalizing db first M results with
  | nil => exact ⟨rfl, _, rfl⟩
  | cons v vs ih =>
      have hrest := fun {db' first' M'} (h' : Tracks filename words db' first' M') hkeeps results' =>
        ih (fun w hw => hregular w (List.mem_cons_of_mem v hw))
          (fun w hw => htexts w (List.mem_cons_of_mem v hw)) h' hkeeps results'
      rw [NoneChanged] at hkeeps
      rw [reached, List.foldlM_cons]
      cases hskipped : v.skippedBy first with
      | true =>
          rw [hskipped, if_pos rfl] at hkeeps
          obtain ⟨-, results', hrun⟩ := h.skipped A garbage hskipped results
          obtain ⟨hreached, hall⟩ := hrest h hkeeps results'
          rw [hrun]
          exact ⟨congrArg (v :: ·) hreached, hall⟩
      | false =>
          rw [hskipped, if_neg Bool.false_ne_true] at hkeeps
          obtain ⟨-, ⟨hlost, -⟩ | ⟨s', hrun, htracks⟩⟩ := h.processed A garbage hw hmem
            (hregular v List.mem_cons_self) (htexts v List.mem_cons_self) hskipped results
          · exact absurd (hkeeps.imp_right And.left) hlost
          · obtain ⟨hreached, hall⟩ := hrest htracks (hkeeps.imp_right And.right) s'.2
            rw [hrun]
            exact ⟨congrArg (v :: ·) hreached, hall⟩

/-- The jar is not known yet. -/
theorem tracks_of_unknown {fs : List (Row FileCols)} {cs : List (Row ClassFileCols)}
    (h : GraphValid words db fs cs) (hroom : fs.length + 1 < 2 ^ 64 - 1)
    (hrow : fileRow (tables db) filename = none)
    (hclasses : ∀ path, stored (tables db)
      (DomainTables.getStrongClassname filename path) = none) :
    Tracks filename words db none fun _ => none where
  valid := ⟨fs, cs, h, fun _ => hroom⟩
  row := by rw [hrow]; rfl
  classes := by
    funext path
    rw [stamps, hclasses]
    rfl

/-- Over any sequence of regular versions, a skipped jar is up to date exactly
when a version with the size and the time stamp of the first has the class files
that were last analysed. All versions are reached unless one changes a class file
and the class row that is then released loses its id. -/
theorem skipped_current_iff (hw : Lexicon words) (hmem : filename ∈ words)
    {fs : List (Row FileCols)} {cs : List (Row ClassFileCols)} (h : GraphValid words db fs cs)
    (hroom : fs.length + 1 < 2 ^ 64 - 1) (hrow : fileRow (tables db) filename = none)
    (hclasses : ∀ path, stored (tables db)
      (DomainTables.getStrongClassname filename path) = none)
    (vs : List GraphVersion) (hregular : ∀ v ∈ vs, v.Regular)
    (htexts : ∀ v ∈ vs, ∀ e ∈ v.entries, e.TextsIn words) (results : Results) :
    (AllCurrent A garbage filename (db, results) vs ↔
        Restored none (fun _ => none) (reached A garbage filename (db, results) vs)) ∧
      ((A ClassFileCols).KeepsIds ∨ NoneChanged none (fun _ => none) vs →
        reached A garbage filename (db, results) vs = vs ∧
          ∃ s', vs.foldlM (analyseVersion A garbage filename) (db, results) = .returned s') :=
  have htracks := tracks_of_unknown h hroom hrow hclasses
  ⟨htracks.allCurrent_iff A garbage hw hmem vs hregular htexts results,
    fun hkeeps => htracks.returns A garbage hw hmem vs hregular htexts hkeeps results⟩

end Histories

section Samples

theorem graphReading_garbage (garbage garbage' : ℕ → UInt8) (e : JarEntry) :
    graphReading garbage e = graphReading garbage' e := by
  obtain ⟨hnone, hnone'⟩ | ⟨reader, reader', hreader, hreader', hcases⟩ :=
    memory_cases e.content garbage garbage'
  · rw [graphReading, graphReading, hnone, hnone']
  · rw [graphReading, graphReading, hreader, hreader']
    rcases hcases with ⟨hparse, hparse'⟩ | ⟨c, s, s', hparse, hparse'⟩
    · simp only [hparse, hparse']
    · simp only [hparse, hparse']

/-- The class A with a given checksum. -/
def sampleEntry (crc : Int32) : JarEntry := ⟨ascii "A.class", crc, 0, classA⟩

def sampleReading : GraphReading :=
  match graphReading (fun _ => 0) (sampleEntry 0) with
  | .returned r => r
  | _ => .rejected

theorem graphReading_sampleEntry (crc : Int32) :
    graphReading (fun _ => 0) (sampleEntry crc) = .returned sampleReading := by
  obtain ⟨r, hr⟩ : ∃ r, graphReading (fun _ => 0) (sampleEntry 0) = .returned r := ⟨_, rfl⟩
  have hcrc : graphReading (fun _ => 0) (sampleEntry crc) =
      graphReading (fun _ => 0) (sampleEntry 0) := by
    simp only [graphReading, sampleEntry, getUniqueClassname, JarEntry.isMultiReleaseEntry,
      JarEntry.getClassname]
    rfl
  rw [hcrc, sampleReading, hr]

theorem sampleReading_eq : ∃ c, sampleReading = .accepted c [65] [.classRef [65]] := ⟨_, rfl⟩

def sampleGraphEntry (crc : Int32) : GraphEntry where
  entry := sampleEntry crc
  reading := sampleReading
  reads garbage := by
    rw [graphReading_garbage garbage fun _ => 0]
    exact graphReading_sampleEntry crc

/-- A version with one class. -/
def sampleGraphVersion (size : UInt64) (crc : Int32) : GraphVersion :=
  ⟨size, 1, {}, [sampleGraphEntry crc]⟩

theorem sampleGraphVersion_regular (size : UInt64) (crc : Int32) :
    (sampleGraphVersion size crc).Regular where
  notDry := rfl
  distinct := List.nodup_singleton _
  own e he := by
    rw [List.mem_singleton.mp he]
    obtain ⟨c, hc⟩ := sampleReading_eq
    change GraphEntry.name ⟨sampleEntry crc, sampleReading, _⟩ = _
    simp only [GraphEntry.name, hc]
    rfl

theorem sampleGraphEntry_textsIn (crc : Int32) :
    (sampleGraphEntry crc).TextsIn sampleWords := by
  obtain ⟨c, hc⟩ := sampleReading_eq
  change GraphEntry.TextsIn ⟨sampleEntry crc, sampleReading, _⟩ sampleWords
  simp only [GraphEntry.TextsIn, hc]
  decide

theorem create_graphValid (words : List Bytes) (hnil : [] ∈ words) :
    ∃ db, GraphDb.create = some db ∧ GraphValid words db [] [] ∧
      stored (tables db) = fun _ => none := by
  obtain ⟨pool, hpool, hpooled⟩ := construct_pooled hnil
  obtain ⟨tables', htables, hvalid, hstored⟩ := create_valid words hnil
  obtain rfl : tables' = ⟨pool, Table.construct (Files.layout pool),
      Table.construct ⟨ClassFiles.format, fun _ => []⟩⟩ := by
    simpa [DigestDb.create, hpool, eq_comm] using htables
  refine ⟨⟨⟨pool, Table.construct (Files.layout pool),
    Table.construct ⟨ClassFiles.format, fun _ => []⟩,
    fun i => Table.construct ⟨i.format, fun _ => []⟩⟩, fun _ => ∅⟩, ?_,
    ⟨hvalid, fun _ => rfl, fun i => ⟨[], core_construct _⟩⟩, hstored⟩
  simp [GraphDb.create, CallGraphDb.create, hpool]

theorem sample_textsIn {sizes : List (UInt64 × Int32)} :
    ∀ v ∈ sizes.map fun x => sampleGraphVersion x.1 x.2, ∀ e ∈ v.entries,
      e.TextsIn sampleWords := by
  intro v hv e he
  obtain ⟨x, -, rfl⟩ := List.mem_map.mp hv
  rw [List.mem_singleton.mp he]
  exact sampleGraphEntry_textsIn x.2

theorem sample_regular {sizes : List (UInt64 × Int32)} :
    ∀ v ∈ sizes.map fun x => sampleGraphVersion x.1 x.2, v.Regular := by
  intro v hv
  obtain ⟨x, -, rfl⟩ := List.mem_map.mp hv
  exact sampleGraphVersion_regular x.1 x.2

theorem sampleGraphEntry_isAccepted (crc : Int32) : (sampleGraphEntry crc).isAccepted = true := by
  obtain ⟨c, hc⟩ := sampleReading_eq
  change GraphEntry.isAccepted ⟨sampleEntry crc, sampleReading, _⟩ = true
  simp only [GraphEntry.isAccepted, hc]

/-- The class file of a version of the sample. -/
theorem classFiles_sample (size : UInt64) (crc : Int32) :
    (sampleGraphVersion size crc).classFiles [65] = some (stampOf (sampleEntry crc)) := by
  have hname : (sampleGraphEntry crc).name = [65] :=
    (sampleGraphVersion_regular size crc).own _ List.mem_cons_self
  rw [GraphVersion.classFiles]
  change Option.map _ (List.find? _ [sampleGraphEntry crc]) = _
  rw [List.find?_singleton, sampleGraphEntry_isAccepted, hname]
  rfl

theorem skipped_current_sample :
    ∃ db, GraphDb.create = some db ∧
      AllCurrent Allocator.next (fun _ => 0) (ascii "a.jar") (db, {})
        ([(100, 0), (100, 0)].map fun x => sampleGraphVersion x.1 x.2) := by
  obtain ⟨db, hcreate, hvalid, hstored⟩ := create_graphValid sampleWords (by decide)
  obtain ⟨hiff, hreturns⟩ := skipped_current_iff Allocator.next (fun _ => 0) lexicon_sampleWords
    (show ascii "a.jar" ∈ sampleWords by decide) hvalid (by decide)
    (fileRow_of_empty hvalid.valid _) (fun path => by rw [hstored])
    ([(100, 0), (100, 0)].map fun x => sampleGraphVersion x.1 x.2) sample_regular sample_textsIn {}
  refine ⟨db, hcreate, hiff.mpr ?_⟩
  rw [(hreturns (.inl (Allocator.next_keepsIds _))).1]
  simp only [List.map_cons, List.map_nil, Restored]
  rw [if_neg (by decide), if_pos (by decide)]
  exact ⟨fun name => Option.or_none, trivial⟩

/-- A version without class files. -/
def emptyVersion (size : UInt64) : GraphVersion := ⟨size, 1, {}, []⟩

/-- A jar without class files comes back after another version was analysed. -/
theorem restored_jar_is_stale :
    ¬∀ (A : ∀ α : Type, Allocator α) (garbage : ℕ → UInt8) (filename : Bytes)
      (words : List Bytes) (db : GraphDb) (fs : List (Row FileCols))
      (cs : List (Row ClassFileCols)) (vs : List GraphVersion) (results : Results),
      Lexicon words → filename ∈ words → GraphValid words db fs cs →
      fs.length + 1 < 2 ^ 64 - 1 → fileRow (tables db) filename = none →
      (∀ path, stored (tables db) (DomainTables.getStrongClassname filename path) = none) →
      (∀ v ∈ vs, v.Regular) → (∀ v ∈ vs, ∀ e ∈ v.entries, e.TextsIn words) →
      AllCurrent A garbage filename (db, results) vs := by
  intro h
  obtain ⟨db, -, hvalid, hstored⟩ := create_graphValid sampleWords (by decide)
  have hunknown : ∀ path, stored (tables db)
      (DomainTables.getStrongClassname (ascii "a.jar") path) = none := fun path => by rw [hstored]
  let vs := [emptyVersion 100, sampleGraphVersion 200 1, emptyVersion 100]
  have hregular : ∀ v ∈ vs, v.Regular := by
    simp only [vs, List.forall_mem_cons, List.not_mem_nil, false_imp_iff, implies_true, and_true]
    exact ⟨⟨rfl, List.nodup_nil, nofun⟩, sampleGraphVersion_regular 200 1,
      ⟨rfl, List.nodup_nil, nofun⟩⟩
  have htexts : ∀ v ∈ vs, ∀ e ∈ v.entries, e.TextsIn sampleWords := by
    simp only [vs, List.forall_mem_cons, List.not_mem_nil, false_imp_iff, implies_true, and_true]
    refine ⟨nofun, fun e he => ?_, nofun⟩
    rw [List.mem_singleton.mp he]
    exact sampleGraphEntry_textsIn 1
  have htracks := tracks_of_unknown hvalid (by decide) (fileRow_of_empty hvalid.valid _) hunknown
  have hcurrent := h Allocator.next (fun _ => 0) (ascii "a.jar") sampleWords db [] [] vs {}
    lexicon_sampleWords (by decide) hvalid (by decide) (fileRow_of_empty hvalid.valid _) hunknown
    hregular htexts
  have hrestored := (htracks.allCurrent_iff Allocator.next (fun _ => 0) lexicon_sampleWords
    (by decide) vs hregular htexts {}).mp hcurrent
  rw [(htracks.returns Allocator.next (fun _ => 0) lexicon_sampleWords (by decide) vs hregular
    htexts (.inl (Allocator.next_keepsIds _)) {}).1] at hrestored
  simp only [vs, Restored] at hrestored
  rw [if_neg (by decide), if_neg (by decide), if_pos (by decide)] at hrestored
  have hstale := hrestored.1 [65]
  rw [GraphVersion.imprint, classFiles_sample] at hstale
  cases hstale

end Samples

end Tarracsh.SkippedJars
