import Tarracsh.Reanalysis

/-!
# Nodes that outlive their class

Nothing deletes the nodes of an earlier version. A node with a name that the
last version has is overwritten, so the last version replaces the others
exactly when it keeps all their names. In a jar the analysis moreover goes on
with an id that it reads from a released class row.
-/
namespace Tarracsh.StaleNodes
open ByteStrings StringPool PoolStructures ParsedClass ClassFileReader ClassFileFormat
open ReaderRefinement TableModel TableInvariant DomainTables CallGraphTables CallGraphInvariant
open SafeConsumption JarEntries Reporting CallGraphAnalysis NodeHistory ClassVersions Reanalysis

/-- The strings of the versions. -/
def wordsOf (filename classname : Bytes) (tss : List (List NodeTexts)) : List Bytes :=
  [] :: filename :: classname :: tss.flatten.flatMap labelOf

theorem label_mem_wordsOf {filename classname : Bytes} {tss : List (List NodeTexts)}
    {ts : List NodeTexts} (hts : ts ∈ tss) {t : NodeTexts} (ht : t ∈ ts) {s : Bytes}
    (hs : s ∈ labelOf t) : s ∈ wordsOf filename classname tss := by
  simp only [wordsOf, List.mem_cons, List.mem_flatMap, List.mem_flatten]
  exact .inr (.inr (.inr ⟨t, ⟨ts, hts, ht⟩, hs⟩))

/-- A new database. -/
theorem create_spec (words : List Bytes) (hnil : [] ∈ words) (strong : Bytes) :
    ∃ db, GraphDb.create = some db ∧ (∀ i, db.ownerClassIndex i = ∅) ∧
      History words strong (fun _ => False) db.toCallGraphDb (fun _ => []) ∧
      db.files = Table.construct (Files.layout db.pool) ∧
      db.classfiles = Table.construct ⟨ClassFiles.format, fun _ => []⟩ := by
  obtain ⟨pool, hpool, hpooled⟩ := construct_pooled hnil
  refine ⟨⟨⟨pool, Table.construct (Files.layout pool),
    Table.construct ⟨ClassFiles.format, fun _ => []⟩,
    fun i => Table.construct ⟨i.format, fun _ => []⟩⟩, fun _ => ∅⟩, ?_, fun _ => rfl, ?_, rfl, rfl⟩
  · simp [GraphDb.create, CallGraphDb.create, hpool]
  · refine ⟨hpooled, fun _ h => h.elim, fun i => ⟨[], ?_, ?_, by simp, by simp, by simp⟩⟩
    · exact (core_construct ⟨i.format, fun _ => []⟩).rekey _
    · exact (filed_construct ⟨i.format, fun _ => []⟩).rekey (by simp)

section FileRuns
variable (A : ∀ α : Type, Allocator α) {words : List Bytes} {garbage : ℕ → UInt8}
  {filename classname : Bytes} {last : Option (UInt64 × Int64)} {tss : List (List NodeTexts)}

/-- `doClassFile` for the versions, from a new database on. -/
def doClassFiles (options : Options) (filename : Bytes)
    (versions : List (FileVersion garbage classname)) : Outcome (GraphDb × Results) :=
  match GraphDb.create with
  | none => .undefined
  | some db => versions.foldlM
      (fun s v => doClassFile A options garbage s.1 s.2 (v.info filename)) (db, {})

/-- The versions that are not skipped. -/
def analysed (options : Options) : Option (UInt64 × Int64) →
    List (FileVersion garbage classname) → List (FileVersion garbage classname)
  | _, [] => []
  | last, v :: versions =>
      if skips options last v then analysed options last versions
      else v :: analysed options (some (v.size, v.timestamp)) versions

theorem fileState_create {db : GraphDb} (hindex : ∀ i, db.ownerClassIndex i = ∅)
    (hhistory : History words (DomainTables.getStrongClassname filename classname)
      (fun _ => False) db.toCallGraphDb (fun _ => []))
    (hfiles : db.files = Table.construct (Files.layout db.pool))
    (hclasses : db.classfiles = Table.construct ⟨ClassFiles.format, fun _ => []⟩) :
    FileState words filename classname none [] db where
  history := hhistory.of_eq nofun hhistory.pooled (fun _ _ hs => hs) rfl nofun
  index := hindex
  files := by
    refine ⟨[], ?_, ?_, nofun, rfl⟩
    · rw [hfiles]
      exact core_construct _
    · rw [hfiles]
      exact filed_construct _
  classes := by
    refine ⟨[], ?_, rfl, nofun, nofun, ?_⟩
    · rw [hclasses]
      exact core_construct _
    · rw [hclasses]
      rfl

/-- All versions are fed to `doClassFile`. -/
theorem fileState_foldlM (hw : Lexicon words) (options : Options)
    (versions : List (FileVersion garbage classname)) {db : GraphDb} (results : Results)
    (h : FileState words filename classname last tss db)
    (hlt : tss.length + versions.length ≤ 2 ^ 64) (hfilename : filename ∈ words)
    (hclassname : classname ∈ words)
    (htexts : ∀ v ∈ versions, ∀ t ∈ v.texts, ∀ s ∈ labelOf t, s ∈ words) :
    ∃ db' results' last', versions.foldlM
        (fun s v => doClassFile A options garbage s.1 s.2 (v.info filename)) (db, results) =
          .returned (db', results') ∧
      FileState words filename classname last'
        (((analysed options last versions).map fun v => v.texts).reverse ++ tss) db' := by
  induction versions generalizing db results last tss with
  | nil => exact ⟨db, results, last, rfl, h⟩
  | cons v versions ih =>
      rw [List.length_cons] at hlt
      obtain ⟨db₁, results₁, hstep, hstate⟩ := h.doClassFile A hw (by omega) options results v
        hfilename hclassname (htexts v (by simp))
      have hrest : ∀ u ∈ versions, ∀ t ∈ u.texts, ∀ s ∈ labelOf t, s ∈ words :=
        fun u hu => htexts u (by simp [hu])
      rw [analysed]
      split_ifs at hstate ⊢ with hskips
      · obtain ⟨db', results', last', hrun, hfinal⟩ := ih results₁ hstate (by omega) hrest
        refine ⟨db', results', last', ?_, hfinal⟩
        rw [List.foldlM_cons, hstep]
        exact hrun
      · obtain ⟨db', results', last', hrun, hfinal⟩ := ih results₁ hstate
          (by rw [List.length_cons]; omega) hrest
        refine ⟨db', results', last', ?_, ?_⟩
        · rw [List.foldlM_cons, hstep]
          exact hrun
        · simpa using hfinal

/-- The version that the database describes. -/
def currentTexts (options : Options) (versions : List (FileVersion garbage classname)) :
    List NodeTexts :=
  ((analysed options none versions).getLast?.map fun v => v.texts).getD []

end FileRuns

section FileResults
variable (A : ∀ α : Type, Allocator α) {garbage : ℕ → UInt8} {classname : Bytes}

/-- The first version is never skipped. -/
theorem analysed_ne_nil (options : Options) {versions : List (FileVersion garbage classname)}
    (h : versions ≠ []) : analysed options none versions ≠ [] := by
  cases versions with
  | nil => exact absurd rfl h
  | cons v versions => simp [analysed, skips]

/-- Standalone class files. -/
theorem doClassFiles_replaced (options : Options) (filename : Bytes)
    (versions : List (FileVersion garbage classname)) (v : FileVersion garbage classname)
    (hw : Lexicon (wordsOf filename classname ((versions ++ [v]).map fun v => v.texts)))
    (hlt : versions.length < 2 ^ 64) :
    ∃ db results, doClassFiles A options filename (versions ++ [v]) = .returned (db, results) ∧
      (Replaced db.toCallGraphDb v.texts ↔ ∀ i,
        (∀ u ∈ analysed options none (versions ++ [v]),
          namesIn i u.texts ⊆ namesIn i (currentTexts options (versions ++ [v]))) ∧
        ∀ label ∈ survivors i (currentTexts options (versions ++ [v])),
          label ∈ labelsIn i v.texts) := by
  obtain ⟨db₀, hcreate, hindex, hhistory, hfiles, hclasses⟩ :=
    create_spec (wordsOf filename classname ((versions ++ [v]).map fun v => v.texts))
      (by simp [wordsOf]) (DomainTables.getStrongClassname filename classname)
  have hlength : ([] : List (List NodeTexts)).length + (versions ++ [v]).length ≤ 2 ^ 64 := by
    rw [List.length_append, List.length_singleton, List.length_nil]
    omega
  obtain ⟨db, results, last, hrun, hstate⟩ := fileState_foldlM A hw options (versions ++ [v]) {}
    (fileState_create hindex hhistory hfiles hclasses) hlength (by simp [wordsOf])
    (by simp [wordsOf]) fun u hu t ht s hs => label_mem_wordsOf (List.mem_map_of_mem hu) ht hs
  refine ⟨db, results, ?_, ?_⟩
  · rw [doClassFiles, hcreate]
    exact hrun
  obtain ⟨earlier, current, hsplit⟩ := List.eq_nil_or_concat (analysed options none
    (versions ++ [v])) |>.resolve_left (analysed_ne_nil options (by simp))
  have hcurrent : currentTexts options (versions ++ [v]) = current.texts := by
    rw [currentTexts, hsplit]
    simp
  have htss : ((analysed options none (versions ++ [v])).map fun v => v.texts).reverse ++ [] =
      current.texts :: (earlier.map fun v => v.texts).reverse := by
    rw [hsplit]
    simp
  rw [htss] at hstate
  obtain ⟨cs, hcs⟩ := hstate.classes
  have hlive : ∀ o ≤ (earlier.map fun v => v.texts).reverse.length,
      LiveClass db.toCallGraphDb o ↔ o = (earlier.map fun v => v.texts).reverse.length := by
    intro o ho
    rw [hcs.liveClass_iff (Nat.lt_succ_of_le ho), List.length_cons]
    omega
  rw [replaced_latest hstate.history hlive, hcurrent, hsplit]
  refine forall_congr' fun i => and_congr_left fun _ => ?_
  simp [or_imp, forall_and]

end FileResults

section EntryRuns
variable (A : ∀ α : Type, Allocator α) {words : List Bytes} {garbage : ℕ → UInt8}
  {filename name classname : Bytes} {pJar : ℕ} {tss : List (List NodeTexts)}

/-- A new database with the row of a jar. -/
def createJar (filename : Bytes) (size : UInt64) (timestamp : Int64) : Option (GraphDb × ℕ) := do
  let db ← GraphDb.create
  let (graph, pJar) ← createJarFileRow A db.toCallGraphDb filename size timestamp
  some ({ db with toCallGraphDb := graph }, pJar)

/-- `processClassFile` for the versions, from a new database with the jar on. -/
def processClassFiles (options : Options) (filename : Bytes) (size : UInt64) (timestamp : Int64)
    (versions : List (EntryVersion garbage name classname)) : Outcome (GraphDb × Results) :=
  match createJar A filename size timestamp with
  | none => .undefined
  | some (db, pJar) => versions.foldlM
      (fun s v => processClassFile A options garbage filename pJar s.1 s.2 v.entry v.row) (db, {})

/-- Whenever the class row is written again, the released row still has its id. -/
def RowsKept (options : Options) (filename : Bytes) (pJar : ℕ) :
    GraphDb × Results → List (EntryVersion garbage name classname) → Prop
  | _, [] => True
  | s, v :: versions => RowKept A s.1 pJar v ∧
      ∀ s', processClassFile A options garbage filename pJar s.1 s.2 v.entry v.row = .returned s' →
        RowsKept options filename pJar s' versions

/-- The same for a new database. -/
def RowsKeptFrom (options : Options) (filename : Bytes) (size : UInt64) (timestamp : Int64)
    (versions : List (EntryVersion garbage name classname)) : Prop :=
  ∀ db pJar, createJar A filename size timestamp = some (db, pJar) →
    RowsKept A options filename pJar (db, {}) versions

/-- The jar gets the only row of the files. -/
theorem createJarFileRow_spec (hw : Lexicon words) (hfilename : filename ∈ words) {db : GraphDb}
    (hindex : ∀ i, db.ownerClassIndex i = ∅)
    (hhistory : History words (DomainTables.getStrongClassname filename classname)
      (fun _ => False) db.toCallGraphDb (fun _ => []))
    (hfiles : db.files = Table.construct (Files.layout db.pool))
    (hclasses : db.classfiles = Table.construct ⟨ClassFiles.format, fun _ => []⟩)
    (size : UInt64) (timestamp : Int64) :
    ∃ graph pJar, createJarFileRow A db.toCallGraphDb filename size timestamp =
        some (graph, pJar) ∧
      EntryState words filename classname pJar [] { db with toCallGraphDb := graph } := by
  obtain ⟨pool, col, hcol, hpooled, hgrows, hread⟩ :=
    getPoolString_spec hw hhistory.pooled hfilename
  let row : Row FileCols := CallGraphDb.newRow
    { filename := col, type := Jar, lastWriteTime := timestamp, fileSize := size,
      classfileCount := 0 }
  have hcore : Core (Files.layout pool) db.files [] := by
    rw [hfiles]
    exact (core_construct _).rekey _
  have hfiled : Filed (Files.layout pool) db.files [] := by
    rw [hfiles]
    exact (filed_construct (Files.layout db.pool)).rekey (by simp)
  obtain ⟨files, hadd, heffect⟩ := add_effect (A _) hcore row (by rw [hfiles]; rfl)
  have hindex' : files.autoIncrementIndex[0]? = some ((A _).malloc db.files.heap) := by
    rw [(add_rows (A _) hadd).2, hfiles]
    rfl
  refine ⟨{ db.toCallGraphDb with pool := pool, files := files }, (A _).malloc db.files.heap,
    ?_, ?_⟩
  · simp only [createJarFileRow, hcol db.toCallGraphDb rfl, Option.bind_eq_bind,
      Option.bind_some]
    rw [hadd]
    rfl
  constructor
  · exact hhistory.of_eq nofun hpooled hgrows rfl fun o ho => absurd rfl ho.2
  · exact hindex
  · refine ⟨some (size, timestamp), { row with id := 0 },
      ⟨heffect.core, heffect.filed hfiled, ?_, rfl⟩, heffect.core.lookup_of_index hindex', rfl⟩
    intro r hr
    rw [List.mem_singleton.mp hr]
    exact hread
  · refine ⟨[], ⟨?_, ?_, nofun, nofun⟩, iff_of_true rfl rfl⟩
    · change Core _ db.classfiles []
      rw [hclasses]
      exact (core_construct _).rekey _
    · change Filed _ db.classfiles []
      rw [hclasses]
      exact (filed_construct ⟨ClassFiles.format, fun _ => []⟩).rekey (by simp)

/-- The versions are analysed as long as the released rows keep their ids, and no further. -/
theorem entryState_foldlM (hw : Lexicon words) (options : Options)
    (versions : List (EntryVersion garbage name classname)) {db : GraphDb} (results : Results)
    (h : EntryState words filename classname pJar tss db) (hclassname : classname ∈ words)
    (htexts : ∀ v ∈ versions, ∀ t ∈ v.texts, ∀ s ∈ labelOf t, s ∈ words) :
    (¬RowsKept A options filename pJar (db, results) versions ∧ versions.foldlM
        (fun s v => processClassFile A options garbage filename pJar s.1 s.2 v.entry v.row)
        (db, results) = .undefined) ∨
      RowsKept A options filename pJar (db, results) versions ∧ ∃ db', versions.foldlM
          (fun s v => processClassFile A options garbage filename pJar s.1 s.2 v.entry v.row)
          (db, results) = .returned (db', results) ∧
        EntryState words filename classname pJar ((versions.map fun v => v.texts).reverse ++ tss)
          db' := by
  induction versions generalizing db tss with
  | nil => exact .inr ⟨trivial, db, rfl, h⟩
  | cons v versions ih =>
      rw [List.foldlM_cons]
      by_cases hkept : RowKept A db pJar v
      · obtain ⟨db₁, hstep, hstate⟩ := h.processClassFile A hw options results v hclassname
          (htexts v (by simp)) hkept
        have hrows : RowsKept A options filename pJar (db, results) (v :: versions) ↔
            RowsKept A options filename pJar (db₁, results) versions := by
          simp only [RowsKept, hkept, hstep, true_and, Outcome.returned.injEq, forall_eq']
        rw [hrows, hstep]
        refine (ih hstate fun u hu => htexts u (by simp [hu])).imp_right ?_
        rintro ⟨hrest, db', hrun, hfinal⟩
        exact ⟨hrest, db', hrun, by simpa using hfinal⟩
      · refine .inl ⟨fun hrows => hkept hrows.1, ?_⟩
        rw [h.processClassFile_undefined A hw options results v hclassname hkept]
        rfl

/-- A row that was not released, or one that keeps its id, is no obstacle. -/
theorem rowsKept_of_keepsIds (hw : Lexicon words) (options : Options)
    (versions : List (EntryVersion garbage name classname)) {db : GraphDb} (results : Results)
    (h : EntryState words filename classname pJar tss db) (hclassname : classname ∈ words)
    (htexts : ∀ v ∈ versions, ∀ t ∈ v.texts, ∀ s ∈ labelOf t, s ∈ words)
    (hids : (tss = [] ∧ versions.length ≤ 1) ∨ (A ClassFileCols).KeepsIds) :
    RowsKept A options filename pJar (db, results) versions := by
  induction versions generalizing db tss with
  | nil => trivial
  | cons v versions ih =>
      have hkept : RowKept A db pJar v :=
        h.rowKept A hw v hclassname (hids.imp_left And.left)
      obtain ⟨db₁, hstep, hstate⟩ := h.processClassFile A hw options results v hclassname
        (htexts v (by simp)) hkept
      refine ⟨hkept, fun s' hs' => ?_⟩
      obtain rfl := Outcome.returned.inj (hstep.symm.trans hs')
      rcases hids with ⟨-, hlength⟩ | hids
      · obtain rfl : versions = [] := by simpa using hlength
        trivial
      · exact ih hstate (fun u hu => htexts u (by simp [hu])) (.inr hids)

/-- Class files in jars. -/
theorem processClassFiles_replaced (options : Options) (filename : Bytes) (size : UInt64)
    (timestamp : Int64) (versions : List (EntryVersion garbage name classname))
    (v : EntryVersion garbage name classname)
    (hw : Lexicon (wordsOf filename classname ((versions ++ [v]).map fun v => v.texts))) :
    ((∃ db results, processClassFiles A options filename size timestamp (versions ++ [v]) =
          .returned (db, results) ∧ Replaced db.toCallGraphDb v.texts) ↔
        RowsKeptFrom A options filename size timestamp (versions ++ [v]) ∧
          ∀ i, ∀ u ∈ versions, namesIn i u.texts ⊆ namesIn i v.texts) ∧
      (versions = [] ∨ (A ClassFileCols).KeepsIds →
        RowsKeptFrom A options filename size timestamp (versions ++ [v])) := by
  obtain ⟨db₀, hcreate, hindex, hhistory, hfiles, hclasses⟩ :=
    create_spec (wordsOf filename classname ((versions ++ [v]).map fun v => v.texts))
      (by simp [wordsOf]) (DomainTables.getStrongClassname filename classname)
  obtain ⟨graph, pJar, hjar, hstart⟩ := createJarFileRow_spec A hw (by simp [wordsOf]) hindex
    hhistory hfiles hclasses size timestamp
  have hcreated : createJar A filename size timestamp =
      some ({ db₀ with toCallGraphDb := graph }, pJar) := by
    simp only [createJar, hcreate, hjar, Option.bind_eq_bind, Option.bind_some]
  have hkept : RowsKeptFrom A options filename size timestamp (versions ++ [v]) ↔
      RowsKept A options filename pJar ({ db₀ with toCallGraphDb := graph }, {})
        (versions ++ [v]) := by
    rw [RowsKeptFrom, hcreated]
    constructor
    · exact fun h => h _ _ rfl
    · intro h db p heq
      obtain ⟨rfl, rfl⟩ := Prod.mk.inj (Option.some.inj heq)
      exact h
  have htexts : ∀ u ∈ versions ++ [v], ∀ t ∈ u.texts, ∀ s ∈ labelOf t,
      s ∈ wordsOf filename classname ((versions ++ [v]).map fun v => v.texts) :=
    fun u hu t ht s hs => label_mem_wordsOf (List.mem_map_of_mem hu) ht hs
  rw [hkept]
  refine ⟨?_, fun hids => rowsKept_of_keepsIds A hw options _ {} hstart (by simp [wordsOf]) htexts
    (hids.imp_left fun hnil => ⟨rfl, by simp [hnil]⟩)⟩
  simp only [processClassFiles, hcreated]
  obtain ⟨hlost, hrun⟩ | ⟨hrows, db, hrun, hstate⟩ := entryState_foldlM A hw options
    (versions ++ [v]) {} hstart (by simp [wordsOf]) htexts
  · rw [hrun]
    exact iff_of_false (by simp) fun h => hlost h.1
  have htss : ((versions ++ [v]).map fun v => v.texts).reverse ++ [] =
      v.texts :: (versions.map fun v => v.texts).reverse := by
    simp
  rw [htss] at hstate
  have hlive : LiveClass db.toCallGraphDb 0 := by
    obtain ⟨cs, hcs, hne⟩ := hstate.classes
    obtain ⟨r, rest, rfl⟩ := List.exists_cons_of_ne_nil fun hnil =>
      List.cons_ne_nil _ _ (hne.mp hnil)
    refine ⟨r, hcs.core.getRow_eq 0, ?_⟩
    rw [Row.isDeleted, hcs.flags r (by simp)]
    rfl
  have hreplaced : Replaced db.toCallGraphDb v.texts ↔
      ∀ i, ∀ u ∈ versions, namesIn i u.texts ⊆ namesIn i v.texts := by
    rw [replaced_in_place hstate.history hlive]
    simp
  rw [hrun, ← hreplaced]
  constructor
  · rintro ⟨db', results, hreturned, hlast⟩
    obtain ⟨rfl, -⟩ := Prod.mk.inj (Outcome.returned.inj hreturned)
    exact ⟨hrows, hlast⟩
  · rintro ⟨-, hlast⟩
    exact ⟨db, {}, rfl, hlast⟩

end EntryRuns

/-- After versions of one class, every live node comes from the last version and
has a live owner exactly when the last analysed version has all names of the
others and leaves nothing that the last version does not have. Standalone
versions with the size and time of the one before are skipped. In a jar the
released class rows must also keep their ids. -/
theorem last_version_replaces_iff (A : ∀ α : Type, Allocator α) (options : Options)
    (garbage : ℕ → UInt8) (filename name classname : Bytes) (size : UInt64) (timestamp : Int64) :
    (∀ (versions : List (FileVersion garbage classname)) (v : FileVersion garbage classname),
      Lexicon (wordsOf filename classname ((versions ++ [v]).map fun v => v.texts)) →
      versions.length < 2 ^ 64 →
      ∃ db results, doClassFiles A options filename (versions ++ [v]) = .returned (db, results) ∧
        (Replaced db.toCallGraphDb v.texts ↔ ∀ i,
          (∀ u ∈ analysed options none (versions ++ [v]),
            namesIn i u.texts ⊆ namesIn i (currentTexts options (versions ++ [v]))) ∧
          ∀ label ∈ survivors i (currentTexts options (versions ++ [v])),
            label ∈ labelsIn i v.texts)) ∧
    ∀ (versions : List (EntryVersion garbage name classname))
      (v : EntryVersion garbage name classname),
      Lexicon (wordsOf filename classname ((versions ++ [v]).map fun v => v.texts)) →
      ((∃ db results, processClassFiles A options filename size timestamp (versions ++ [v]) =
            .returned (db, results) ∧ Replaced db.toCallGraphDb v.texts) ↔
          RowsKeptFrom A options filename size timestamp (versions ++ [v]) ∧
            ∀ i, ∀ u ∈ versions, namesIn i u.texts ⊆ namesIn i v.texts) ∧
        (versions = [] ∨ (A ClassFileCols).KeepsIds →
          RowsKeptFrom A options filename size timestamp (versions ++ [v])) :=
  ⟨doClassFiles_replaced A options filename,
    processClassFiles_replaced A options filename size timestamp⟩

section Samples

/-- The class A, whose pool begins with its name. -/
def classA (count : UInt16) (entries : Bytes) : Bytes :=
  headerBytes false 0 52 ++ (u2Bytes false count ++ ([1, 0, 1, 65, 7, 0, 1] ++ entries ++
    ([0, 0, 0, 2] ++ List.replicate 10 0)))

/-- It refers to itself only, or to the class B too. -/
def alone : Bytes := classA 3 []

def withB : Bytes := classA 5 [1, 0, 1, 66, 7, 0, 3]

def sampleClass (rest : List (Option ConstantPoolRecord)) : ClassFile :=
  { constantPool := ⟨none :: some (.utf8Info [65]) :: some (.classInfo 1) :: rest⟩
    mainClassInfo := ⟨0, 2, 0⟩
    interfaces := []
    fields := []
    methods := []
    attributes := [] }

theorem parses_of_map {kind : Kind} {content : Bytes} {c : ClassFile}
    (h : (parsed kind content fun _ => 0).map Prod.fst = some c) :
    ∃ s, parsed kind content (fun _ => 0) = some (c, s) := by
  obtain ⟨⟨c, s⟩, hparsed, rfl⟩ := Option.map_eq_some_iff.mp h
  exact ⟨s, hparsed⟩

def aloneVersion (kind : Kind) : Version kind fun _ => 0 where
  content := alone
  «class» := sampleClass []
  texts := [.classRef [65]]
  parses := parses_of_map (by cases kind <;> decide)
  extracted := by decide

def withBVersion (kind : Kind) : Version kind fun _ => 0 where
  content := withB
  «class» := sampleClass [some (.utf8Info [66]), some (.classInfo 3)]
  texts := [.classRef [65], .classRef [66]]
  parses := parses_of_map (by cases kind <;> decide)
  extracted := by decide

def aloneFile : FileVersion (fun _ => 0) [65] :=
  { aloneVersion .file with size := 31, timestamp := 0, main := by decide }

def withBFile : FileVersion (fun _ => 0) [65] :=
  { withBVersion .file with size := 38, timestamp := 1, main := by decide }

def aloneEntry : EntryVersion (fun _ => 0) (ascii "A.class") [65] :=
  { aloneVersion .memory with crc := 0, lastWriteTime := 0, row := none, unique := by decide }

def withBEntry : EntryVersion (fun _ => 0) (ascii "A.class") [65] :=
  { withBVersion .memory with crc := 1, lastWriteTime := 1, row := none, unique := by decide }

def sampleWords : List Bytes :=
  wordsOf (ascii "A.class") [65] [[.classRef [65]], [.classRef [65], .classRef [66]]]

theorem lexicon_sampleWords : Lexicon sampleWords := ⟨by decide, by decide⟩

theorem last_version_replaces_sample :
    (∃ db results, doClassFiles Allocator.next {} (ascii "A.class") ([aloneFile] ++ [withBFile]) =
        .returned (db, results) ∧ Replaced db.toCallGraphDb withBFile.texts) ∧
    ∃ db results, processClassFiles Allocator.next {} (ascii "A.class") 0 0
        ([aloneEntry] ++ [withBEntry]) = .returned (db, results) ∧
      Replaced db.toCallGraphDb withBEntry.texts := by
  obtain ⟨hfiles, hentries⟩ := last_version_replaces_iff Allocator.next {} (fun _ => 0)
    (ascii "A.class") (ascii "A.class") [65] 0 0
  obtain ⟨db, results, hrun, hiff⟩ := hfiles [aloneFile] withBFile lexicon_sampleWords (by decide)
  obtain ⟨hiff', hkeeps⟩ := hentries [aloneEntry] withBEntry lexicon_sampleWords
  refine ⟨⟨db, results, hrun, hiff.mpr ?_⟩, hiff'.mpr ⟨hkeeps (.inr ?_), ?_⟩⟩
  · intro i
    cases i <;> decide
  · exact Allocator.next_keepsIds _
  · intro i
    cases i <;> decide

/-- The second version drops the reference to B. -/
theorem dropped_reference_stays :
    ¬∀ (A : ∀ α : Type, Allocator α) (options : Options) (garbage : ℕ → UInt8)
      (filename classname : Bytes) (versions : List (FileVersion garbage classname))
      (v : FileVersion garbage classname),
      Lexicon (wordsOf filename classname ((versions ++ [v]).map fun v => v.texts)) →
      versions.length < 2 ^ 64 →
      ∃ db results, doClassFiles A options filename (versions ++ [v]) = .returned (db, results) ∧
        Replaced db.toCallGraphDb v.texts := by
  intro h
  have hlexicon : Lexicon (wordsOf (ascii "A.class") [65]
      (([withBFile] ++ [aloneFile]).map fun v => v.texts)) := ⟨by decide, by decide⟩
  obtain ⟨db, results, hrun, hreplaced⟩ := h Allocator.next {} (fun _ => 0) (ascii "A.class") [65]
    [withBFile] aloneFile hlexicon (by decide)
  obtain ⟨db', results', hrun', hiff⟩ := doClassFiles_replaced Allocator.next {} (ascii "A.class")
    [withBFile] aloneFile hlexicon (by decide)
  obtain ⟨rfl, rfl⟩ := Prod.mk.inj (Outcome.returned.inj (hrun.symm.trans hrun'))
  have hnames := (hiff.mp hreplaced .classRefs).1
  revert hnames
  decide

end Samples

end Tarracsh.StaleNodes
