import Tarracsh.GraphContents
import Tarracsh.TaskFrames

/-!
# Analysing the files of a program

`CallGraphAnalyzer` puts the class files and the jars of a program into a new
database, one after the other. When the names differ, every file adds a row for
itself and one for each class that parses, together with the nodes of the class.
-/
namespace Tarracsh.ProgramAnalysis
open ByteStrings StringPool KeyedUpdates ParsedClass ClassFileReader ClassFileParser TableModel
open TableInvariant DomainTables CallGraphTables CallGraphInvariant ClassFileProcessor
open PoolAlignment ReaderRefinement SafeConsumption JarEntries Reporting CallGraphAnalysis
open TaskFrames (newJarRow)
open NodeHistory Reanalysis DigestTasks DigestSimulation DigestOutcomes GraphTasks SkippedJars
open GraphContents

section Inputs

/-- What the bytes of a standalone class file are to the analyzer. -/
def fileReading (garbage : ℕ → UInt8) (info : ClassFileInfo) : Outcome GraphReading :=
  match construct .file info.content garbage with
  | none => .thrown
  | some reader =>
      match parse reader with
      | none => .returned .rejected
      | some (c, _) => do
          let classname ← .ofOption (getMainClassname c)
          let texts ← .ofOption (extractTexts c)
          .returned (.accepted c classname texts)

/-- A class file that the reader does not throw at and no lookup fails for. -/
structure GraphFile where
  info : ClassFileInfo
  reading : GraphReading
  reads : ∀ garbage, fileReading garbage info = .returned reading

inductive GraphInput where
  | classFile (file : GraphFile)
  | jar (jar : JarFile) (entries : List GraphEntry)

/-- A class with the texts of its nodes. -/
structure ClassNodes where
  name : ClassName
  texts : List NodeTexts

/-- What a reading adds to the database. -/
def classIn (filename : Bytes) : GraphReading → Option ClassNodes
  | .rejected => none
  | .accepted _ classname texts =>
      some ⟨⟨DomainTables.getStrongClassname filename classname, classname⟩, texts⟩

namespace GraphInput

def filename : GraphInput → Bytes
  | .classFile file => file.info.filename
  | .jar f _ => f.filename

/-- The readings of the classes. -/
def readings : GraphInput → List GraphReading
  | .classFile file => [file.reading]
  | .jar _ entries => entries.map fun e => e.reading

/-- The classes that parse. -/
def classes (x : GraphInput) : List ClassNodes := x.readings.filterMap (classIn x.filename)

/-- Every class of a jar lies under the path of its name. -/
def Own : GraphInput → Prop
  | .classFile _ => True
  | .jar _ entries => ∀ e ∈ entries, e.name = e.entry.getClassname

end GraphInput

/-- The classes are added in their order. -/
def addClasses (C : Contents) (classes : List ClassNodes) : Contents :=
  classes.foldl (fun C c => C.analyse c.name c.texts) C

/-- What a file adds to a database. A class file that does not parse adds
nothing. -/
def addInput (C : Contents) (x : GraphInput) : Contents :=
  match x with
  | .classFile _ => if x.classes = [] then C else addClasses (C.addFile x.filename) x.classes
  | .jar _ _ => addClasses (C.addFile x.filename) x.classes

/-- The contents of the database of a program. -/
def program (xs : List GraphInput) : Contents := xs.foldl addInput Contents.empty

/-- The nodes of a class. -/
def nodesIn (i : NodeTable) (c : ClassNodes) : List Node :=
  nodesOf c.name.strongClassname i c.texts

/-- The nodes of the classes, in the order in which they are analysed. -/
def declared (xs : List GraphInput) (i : NodeTable) : List Node :=
  (xs.flatMap fun x => x.classes).flatMap (nodesIn i)

/-- The files and the classes have new names, and there is room for them. -/
structure Admitted (words : List Bytes) (C : Contents) (xs : List GraphInput) : Prop where
  files : (C.files ++ xs.map fun x => x.filename).Nodup
  room : C.files.length + xs.length < 2 ^ 64 - 1
  classes : (C.classes.map (fun c => c.strongClassname) ++
    (xs.flatMap fun x => x.classes).map fun c => c.name.strongClassname).Nodup
  small : C.classes.length + (xs.flatMap fun x => x.classes).length ≤ 2 ^ 64
  own : ∀ x ∈ xs, x.Own
  filenames : ∀ x ∈ xs, x.filename ∈ words
  interned : ∀ x ∈ xs, ∀ c ∈ x.classes, c.name.classname ∈ words ∧
    ∀ t ∈ c.texts, ∀ s ∈ labelOf t, s ∈ words

section Run
variable (A : ∀ α : Type, Allocator α) (garbage : ℕ → UInt8) (options : Options)

/-- One task of the analyzer. -/
def analyseInput (s : GraphDb × Results) : GraphInput → Outcome (GraphDb × Results)
  | .classFile file => doClassFile A options garbage s.1 s.2 file.info
  | .jar f entries =>
      GraphTasks.run A garbage options f (entries.map fun e => e.entry) s.1 s.2

def analyseInputs (s : GraphDb × Results) (xs : List GraphInput) : Outcome (GraphDb × Results) :=
  xs.foldlM (analyseInput A garbage options) s

end Run

end Inputs

section Rows
variable {words : List Bytes} {db : CallGraphDb} {fs : List (Row FileCols)}
  {cs : List (Row ClassFileCols)} {C : Contents}

theorem length_files (h : Census words db fs cs C) : fs.length = C.files.length := by
  rw [← h.files, List.length_map]

theorem length_classes (h : Census words db fs cs C) : cs.length = C.classes.length := by
  rw [← h.classes, List.length_map]

end Rows

section Standalone
variable (A : ∀ α : Type, Allocator α) {words : List Bytes} {fs : List (Row FileCols)}
  {cs : List (Row ClassFileCols)} {C : Contents}

/-- The row of a file that is not known. -/
theorem storeFile_new (hw : Lexicon words) {db : CallGraphDb} (h : Census words db fs cs C)
    (info : ClassFileInfo) (hmem : info.filename ∈ words) (hnew : info.filename ∉ C.files)
    (hroom : C.files.length + 1 < 2 ^ 64 - 1) :
    ∃ pool files f p, storeFile A db info = some { db with pool := pool, files := files } ∧
      Census words { db with pool := pool, files := files } (fs ++ [f]) cs
        (C.addFile info.filename) ∧
      f.id = fs.length ∧ text pool f.cols.filename = info.filename ∧
      files.findByKey info.filename = some p ∧ files.heap.lookup p = some f := by
  obtain ⟨pool, col, hcol, h₁, -, hlookup⟩ := h.getPoolString hw hmem
  have hpooled : Pooled words pool := h₁.valid.pooled
  let row : Row FileCols := CallGraphDb.newRow
    { filename := col, lastWriteTime := info.timestamp, fileSize := info.size,
      classfileCount := 1 }
  have hkey : (Files.layout pool).getKey row.cols = info.filename := text_of_lookup hpooled hlookup
  have hunknown : db.files.rows.lookup ((Files.layout pool).getKey row.cols) = none := by
    rw [hkey]
    exact h₁.files_lookup.mpr hnew
  rcases addOrUpdate_effect (A _) h₁.valid.files row with
    ⟨-, files, hadd, heffect⟩ | ⟨q, -, -, -, -, hq, -⟩
  · have h₂ := h₁.addFile (r := row) hlookup (by rw [length_files h]; exact hroom) heffect
    have hrow : (fs ++ [{ row with id := fs.length }])[fs.length]? =
        some { row with id := fs.length } := by simp
    obtain ⟨p, hp, hheap⟩ := heffect.core.exists_of_row hrow
    have hfound : files.rows.lookup info.filename = some p :=
      (h₂.valid.filedFiles _ p).mpr ⟨fs.length, _, hp, hrow, hkey⟩
    refine ⟨pool, files, { row with id := fs.length }, p, ?_, h₂, rfl, hkey, hfound, hheap⟩
    simp only [storeFile, hcol, Option.bind_eq_bind, Option.bind_some]
    rw [hadd]
    rfl
  · exact absurd (hunknown.symm.trans hq) (by simp)

/-- The row of a class that is not known. -/
theorem addClassRow_new (hw : Lexicon words) {db : CallGraphDb} (h : Census words db fs cs C)
    (info : ClassFileInfo) {f : Row FileCols} (hf : fs[f.id]? = some f)
    (hname : text db.pool f.cols.filename = info.filename) {classname : Bytes}
    (hmem : classname ∈ words)
    (hnew : DomainTables.getStrongClassname info.filename classname ∉
      C.classes.map fun c => c.strongClassname) :
    ∃ pool classfiles r, addClassRow A db f.id classname info =
        some ({ db with pool := pool, classfiles := classfiles }, cs.length) ∧
      Census words { db with pool := pool, classfiles := classfiles } fs (cs ++ [r])
        (C.addClass ⟨DomainTables.getStrongClassname info.filename classname, classname⟩) := by
  obtain ⟨pool, col, hcol, h₁, hgrown, hlookup⟩ := h.getPoolString hw hmem
  have hlt := (List.getElem?_eq_some_iff.mp hf).1
  have hsmall := h.valid.small
  let row : Row ClassFileCols := CallGraphDb.newRow
    { file := UInt64.ofNat f.id, classname := col, lastWriteTime := info.timestamp.toUInt64,
      size := info.size, crc := 0 }
  have hid : row.cols.file.toNat = f.id := by
    change (UInt64.ofNat f.id).toNat = f.id
    rw [UInt64.toNat_ofNat', Nat.mod_eq_of_lt (by omega)]
  have hfile : fs[row.cols.file.toNat]? = some f := by rw [hid, hf]
  have hfilename : text pool f.cols.filename = info.filename := by
    rw [hgrown.grows.text (h.valid.named f (List.mem_of_getElem? hf)), hname]
  have hkey : (ClassFiles.layout pool db.files).getKey row.cols =
      DomainTables.getStrongClassname info.filename classname := by
    have hrow : db.files.getRow row.cols.file.toNat = some f :=
      (h₁.valid.files.getRow_eq _).trans hfile
    change ClassFiles.getStrongClassname pool db.files row.cols = _
    simp only [ClassFiles.getStrongClassname, hrow, hfilename]
    rw [show text pool row.cols.classname = classname from text_of_lookup h₁.valid.pooled hlookup]
  obtain ⟨classfiles, hadd, heffect⟩ := add_effect (A _) h₁.valid.classes row (by
    rw [hkey]
    exact h₁.classes_lookup.mpr hnew)
  refine ⟨pool, classfiles, { row with id := cs.length }, ?_,
    h₁.addClass (r := row) hfile hfilename hlookup ⟨rfl, rfl⟩ heffect⟩
  simp only [addClassRow, hcol, Option.bind_eq_bind, Option.bind_some]
  rw [hadd]
  rfl

/-- What `doClassFile` does for a class that parses. -/
theorem analyseClass_new (hw : Lexicon words) {db : GraphDb}
    (h : Census words db.toCallGraphDb fs cs C) (hindex : ∀ i, db.ownerClassIndex i = ∅)
    (info : ClassFileInfo) (hfilename : info.filename ∈ words) (hnewFile : info.filename ∉ C.files)
    (hroom : C.files.length + 1 < 2 ^ 64 - 1) (hsmall : C.classes.length < 2 ^ 64) {c : ClassFile}
    (hlaid : LaidOut (2 ^ 16) c.constantPool) {classname : Bytes}
    (hmain : getMainClassname c = some classname) (hclassname : classname ∈ words)
    (hnewClass : DomainTables.getStrongClassname info.filename classname ∉
      C.classes.map fun c => c.strongClassname)
    {ts : List NodeTexts} (hextract : extractTexts c = some ts)
    (hts : ∀ t ∈ ts, ∀ s ∈ labelOf t, s ∈ words) :
    ∃ db' found fs' cs', CallGraphAnalysis.analyseClass A db info c = some (db', found) ∧
      Census words db'.toCallGraphDb fs' cs' ((C.addFile info.filename).analyse
        ⟨DomainTables.getStrongClassname info.filename classname, classname⟩ ts) ∧
      (∀ i, db'.ownerClassIndex i = ∅) := by
  obtain ⟨pool₁, files, f, p, hstore, h₁, hid, hname, hp, hlookup⟩ :=
    storeFile_new A hw h info hfilename hnewFile hroom
  have hf : (fs ++ [f])[f.id]? = some f := by
    rw [hid]
    simp
  have hunknown : db.classfiles.findByKey (DomainTables.getStrongClassname info.filename
      classname) = none := h₁.classes_lookup.mpr hnewClass
  obtain ⟨pool₂, classfiles, r, hadd, h₂⟩ :=
    addClassRow_new A hw h₁ info hf hname hclassname hnewClass
  obtain ⟨pool₃, nodes, hrecord, -, h₃⟩ :=
    h₂.recordClass A hw (by rw [length_classes h]; exact hsmall) hts
  refine ⟨{ db with pool := pool₃, files := files, classfiles := classfiles, nodes := nodes },
    some (DomainTables.getStrongClassname info.filename classname, false), _, _, ?_, h₃, hindex⟩
  have hextract' := @extractNodes_eq A cs.length _ hlaid
    ⟨pool₂, files, classfiles, db.nodes⟩
  rw [hextract, Option.bind_some, hrecord] at hextract'
  simp only [CallGraphAnalysis.analyseClass, hstore, Option.bind_eq_bind, Option.bind_some, hp,
    hlookup, hmain, retireClass, hunknown, hadd, hextract', Option.isSome_none]

theorem graphFile_cases (file : GraphFile) (garbage : ℕ → UInt8) :
    ∃ reader, construct .file file.info.content garbage = some reader ∧
      ((parse reader = none ∧ file.reading = .rejected) ∨
        ∃ c t classname texts, parse reader = some (c, t) ∧
          getMainClassname c = some classname ∧ extractTexts c = some texts ∧
          file.reading = .accepted c classname texts) := by
  have hreads := file.reads garbage
  unfold fileReading at hreads
  cases hreader : construct .file file.info.content garbage with
  | none =>
      rw [hreader] at hreads
      cases hreads
  | some reader =>
      refine ⟨reader, rfl, ?_⟩
      rw [hreader] at hreads
      cases hparse : parse reader with
      | none =>
          simp only [hparse, Outcome.returned.injEq] at hreads
          exact .inl ⟨rfl, hreads.symm⟩
      | some result =>
          simp only [hparse] at hreads
          obtain ⟨classname, hclassname, hreads⟩ := Outcome.bind_eq_returned_iff.mp hreads
          obtain ⟨texts, htexts, hreads⟩ := Outcome.bind_eq_returned_iff.mp hreads
          exact .inr ⟨result.1, result.2, classname, texts, rfl,
            Outcome.ofOption_eq_returned_iff.mp hclassname,
            Outcome.ofOption_eq_returned_iff.mp htexts, (Outcome.returned.inj hreads).symm⟩

end Standalone

section Jars
variable (A : ∀ α : Type, Allocator α) (garbage : ℕ → UInt8) (options : Options)
  {words : List Bytes} {fs : List (Row FileCols)} {cs : List (Row ClassFileCols)}
  {row : Row FileCols} {C : Contents} {filename : Bytes} {s : GraphTask}

/-- A task at work on a jar of the program. -/
structure Working (words : List Bytes) (filename : Bytes) (s : GraphTask)
    (fs : List (Row FileCols)) (cs : List (Row ClassFileCols)) (row : Row FileCols)
    (C : Contents) : Prop where
  census : Census words s.db.toCallGraphDb fs cs C
  index : ∀ i, s.db.ownerClassIndex i = ∅
  lookup : s.db.files.heap.lookup s.jarFileRow = some row
  added : s.db.files.autoIncrementIndex[row.id]? = some s.jarFileRow
  filename : text s.db.pool row.cols.filename = filename

theorem Working.row_mem (h : Working words filename s fs cs row C) : fs[row.id]? = some row := by
  rw [← h.census.valid.files.lookup_of_index h.added, h.lookup]

theorem Working.graphValid (h : Working words filename s fs cs row C) :
    GraphValid words s.db fs cs where
  valid := h.census.valid
  index := h.index
  nodes i := by
    obtain ⟨rs, hrs⟩ := h.census.nodes i
    exact ⟨rs, hrs.core.rekey _⟩

/-- `start` for a jar that is not known. -/
theorem start_working (hw : Lexicon words) {db : GraphDb}
    (h : Census words db.toCallGraphDb fs cs C) (hindex : ∀ i, db.ownerClassIndex i = ∅)
    {jar : JarFile} (hdry : options.dryRun = false) (hmem : jar.filename ∈ words)
    (hnew : jar.filename ∉ C.files) (hroom : C.files.length + 1 < 2 ^ 64 - 1)
    (results : Results) :
    ∃ s fs' row, GraphTasks.start A options jar db results = some (s, true) ∧
      Working words jar.filename s fs' cs row (C.addFile jar.filename) := by
  obtain ⟨pool, offset, hadd, hpooled, hgrown, hlookup⟩ := intern_spec hw h.valid.pooled hmem
  have h₁ := h.withPool hpooled hgrown
  have hcolumn : pool.hash.lookup jar.filename =
      some (newJarRow jar offset).cols.filename.toNat := hlookup
  have hname : text pool (newJarRow jar offset).cols.filename = jar.filename :=
    text_of_lookup hpooled hcolumn
  have hunknown : db.files.rows.lookup jar.filename = none := h.files_lookup.mpr hnew
  obtain ⟨files, hstore, heffect⟩ := add_effect (A _) h₁.valid.files (newJarRow jar offset) (by
    change db.files.rows.lookup (text pool (newJarRow jar offset).cols.filename) = none
    rw [hname, hunknown])
  have h₂ := h₁.addFile hcolumn (by rw [length_files h]; exact hroom) heffect
  have hindex' : files.autoIncrementIndex[fs.length]? = some ((A _).malloc db.files.heap) := by
    rw [(add_rows (A _) hstore).2, ← h.valid.files.length_eq]
    simp
  have hrow : files.heap.lookup ((A _).malloc db.files.heap) =
      some { newJarRow jar offset with id := fs.length } := by
    rw [heffect.core.lookup_of_index hindex']
    simp
  refine ⟨⟨withTables db ⟨pool, files, db.classfiles⟩, (A _).malloc db.files.heap, true, false,
    results⟩, _, _, ?_, h₂, hindex, hrow, hindex', hname⟩
  have hunchanged : ∀ cols, isFileUnchanged options jar true cols = false := by
    intro cols
    simp [isFileUnchanged]
  have hrowOf : CallGraphDb.newRow
      { filename := UInt64.ofNat offset, type := Jar, lastWriteTime := jar.timestamp,
        fileSize := jar.size, classfileCount := 0 } = newJarRow jar offset := rfl
  have hkey : (tables db).files.findByKey jar.filename = none := hunknown
  have hadd' : (tables db).pool.internalAdd jar.filename = some (pool, offset) := hadd
  have hstore' : ((tables db).files.allocate (A _) (newJarRow jar offset)).1.add
      (Files.layout pool) ((tables db).files.allocate (A _) (newJarRow jar offset)).2 =
        some (files, fs.length) := hstore
  simp only [GraphTasks.start, getOrCreateFileRow, hkey, hadd', hdry, Option.bind_eq_bind,
    Option.bind_some, Bool.false_eq_true, if_false]
  rw [hrowOf, hstore']
  simp only [Option.bind_some]
  change (AList.lookup ((A _).malloc db.files.heap) files.heap).bind _ = _
  rw [hrow, Option.bind_some, hunchanged]
  rfl

/-- The row of the jar changes in place. -/
theorem Working.countClass (h : Working words filename s fs cs row C) :
    ∃ fs', Working words filename (s.countClass row) fs' cs
      (withCount row (row.cols.classfileCount + 1)) C := by
  obtain ⟨fs', hcore, hfiled, hlength, hrows⟩ := insert_heap h.census.valid.files h.lookup
    (r := withCount row (row.cols.classfileCount + 1)) rfl rfl
  have hkept : ∀ (i : ℕ) f, fs[i]? = some f → ∃ f', fs'[i]? = some f' ∧
      f'.cols.filename = f.cols.filename := by
    intro i f hf
    rcases hrows i f hf with hsame | ⟨rfl, hnew⟩
    · exact ⟨f, hsame, rfl⟩
    · exact ⟨_, hnew, rfl⟩
  have hnames : fs'.map (fun f => f.cols.filename) = fs.map fun f => f.cols.filename := by
    apply List.ext_getElem (by simp [hlength])
    intro i hi hi'
    rw [List.length_map] at hi'
    obtain ⟨f', hf', hname⟩ := hkept i _ (List.getElem?_eq_getElem hi')
    rw [List.getElem_map, List.getElem_map, ← hname]
    exact congrArg (fun f => f.cols.filename) (List.getElem?_eq_some_iff.mp hf').2
  have hcensus := h.census.of_files h.census.valid.pooled (Grown.refl _) hcore
    (hfiled h.census.valid.filedFiles) (fun f' hf' => by
      have hmem : f'.cols.filename ∈ fs.map fun f => f.cols.filename := by
        rw [← hnames]
        exact List.mem_map_of_mem hf'
      obtain ⟨f, hf, hname⟩ := List.mem_map.mp hmem
      rw [← hname]
      exact h.census.valid.named f hf)
    (fun i f hf => by
      obtain ⟨f', hf', hname⟩ := hkept i f hf
      exact ⟨f', hf', by rw [hname]⟩)
    (hlength ▸ h.census.valid.small)
  have hfiles : fs'.map (fun f => text s.db.pool f.cols.filename) = C.files := by
    have := congrArg (List.map (text s.db.pool)) hnames
    rw [List.map_map, List.map_map] at this
    exact this.trans h.census.files
  rw [hfiles] at hcensus
  exact ⟨fs', hcensus, h.index, AList.lookup_insert _, h.added, h.filename⟩

/-- The class of an entry that is not known. -/
theorem Working.analyseEntry (hw : Lexicon words) (h : Working words filename s fs cs row C)
    (hsmall : C.classes.length < 2 ^ 64) {e : JarEntry} {c : ClassFile}
    (hlaid : LaidOut (2 ^ 16) c.constantPool) {classname : Bytes}
    (hunique : getUniqueClassname e c = some classname) (hmem : classname ∈ words)
    (hnew : DomainTables.getStrongClassname filename classname ∉
      C.classes.map fun c => c.strongClassname)
    {ts : List NodeTexts} (hextract : extractTexts c = some ts)
    (hts : ∀ t ∈ ts, ∀ s ∈ labelOf t, s ∈ words) :
    ∃ db' cs', CallGraphAnalysis.analyseEntry A s.db s.jarFileRow e c = some db' ∧
      Working words filename { s with db := db' } fs cs' row
        (C.analyse ⟨DomainTables.getStrongClassname filename classname, classname⟩ ts) := by
  obtain ⟨pool, offset, hadd, hpooled, hgrown, hlookup⟩ :=
    intern_spec hw h.census.valid.pooled hmem
  have h₁ := h.census.withPool hpooled hgrown
  let new : Row ClassFileCols := CallGraphDb.newRow
    { file := UInt64.ofNat row.id, lastWriteTime := e.lastWriteTime, size := e.getSize,
      classname := UInt64.ofNat offset, digest := Vector.replicate 40 0, crc := e.crc }
  have hlt := (List.getElem?_eq_some_iff.mp h.row_mem).1
  have hid : new.cols.file.toNat = row.id := by
    have hsmall := h.census.valid.small
    change (UInt64.ofNat row.id).toNat = row.id
    rw [UInt64.toNat_ofNat', Nat.mod_eq_of_lt (by omega)]
  have hfile : fs[new.cols.file.toNat]? = some row := by rw [hid, h.row_mem]
  have hfilename : text pool row.cols.filename = filename := by
    rw [hgrown.grows.text (h.census.valid.named row (List.mem_of_getElem? h.row_mem)), h.filename]
  have hkey : (ClassFiles.layout pool s.db.files).getKey new.cols =
      DomainTables.getStrongClassname filename classname := by
    have hrow : s.db.files.getRow new.cols.file.toNat = some row :=
      (h₁.valid.files.getRow_eq _).trans hfile
    change ClassFiles.getStrongClassname pool s.db.files new.cols = _
    simp only [ClassFiles.getStrongClassname, hrow, hfilename]
    rw [show text pool new.cols.classname = classname from text_of_lookup hpooled hlookup]
  have hunknown : s.db.classfiles.rows.lookup
      ((ClassFiles.layout pool s.db.files).getKey new.cols) = none := by
    rw [hkey]
    exact h₁.classes_lookup.mpr hnew
  rcases addOrUpdate_effect (A _) h₁.valid.classes new with
    ⟨-, classfiles, hstore, heffect⟩ | ⟨q, -, -, -, -, hq, -⟩
  swap
  · exact absurd (hunknown.symm.trans hq) (by simp)
  have h₂ := h₁.addClass (r := new) hfile hfilename hlookup ⟨rfl, rfl⟩ heffect
  obtain ⟨pool', nodes, hrecord, hgrown', h₃⟩ :=
    h₂.recordClass A hw (by rw [length_classes h.census]; exact hsmall) hts
  have hextract' := @extractNodes_eq A cs.length _ hlaid
    ⟨pool, s.db.files, classfiles, s.db.nodes⟩
  rw [hextract, Option.bind_some, hrecord] at hextract'
  have hstore' : addOrUpdateClassfile A s.db.pool s.db.files s.db.classfiles s.jarFileRow e
      (Vector.replicate 40 0) c = some (pool, classfiles, cs.length) := by
    simp only [addOrUpdateClassfile, hunique, h.lookup, hadd, Option.bind_eq_bind,
      Option.bind_some]
    rw [hstore]
    rfl
  have hrow : classfiles.getRow cs.length = some { new with id := cs.length } :=
    (heffect.core.getRow_eq _).trans (by simp)
  refine ⟨{ s.db with pool := pool', classfiles := classfiles, nodes := nodes }, _, ?_, h₃,
    h.index, h.lookup, h.added, ?_⟩
  · simp only [CallGraphAnalysis.analyseEntry, hstore', hrow, Option.bind_eq_bind,
      Option.bind_some, hextract']
  · rw [← hfilename]
    exact hgrown'.grows.text
      (hgrown.grows.isSome (h.census.valid.named row (List.mem_of_getElem? h.row_mem)))

/-- A class that parses is new, and its texts are interned. -/
structure AdmittedClass (words : List Bytes) (C : Contents) (found : Option ClassNodes) :
    Prop where
  fresh : ∀ c ∈ found, c.name.strongClassname ∉ C.classes.map fun c => c.strongClassname
  small : ∀ _ ∈ found, C.classes.length < 2 ^ 64
  interned : ∀ c ∈ found, c.name.classname ∈ words ∧ ∀ t ∈ c.texts, ∀ s ∈ labelOf t, s ∈ words

/-- The reading decides what an entry adds. -/
theorem Working.processClassFile (hw : Lexicon words) (h : Working words filename s fs cs row C)
    (e : GraphEntry)
    (hadmitted : AdmittedClass words C (classIn filename e.reading))
    (found : Option (Row ClassFileCols)) :
    ∃ db' results' cs', CallGraphAnalysis.processClassFile A options garbage filename s.jarFileRow
        s.db s.results e.entry found = .returned (db', results') ∧
      Working words filename { s with db := db', results := results' } fs cs' row
        (addClasses C (classIn filename e.reading).toList) := by
  rw [processClassFile_eq A garbage options h.index]
  obtain ⟨reader, hreader, ⟨hparse, hreading⟩ | ⟨c, t, classname, texts, hparse, hunique, hextract,
    hreading⟩⟩ := graphEntry_cases e garbage
  · rw [hreading]
    refine ⟨s.db, (s.results.asFailedJarClass options.isDiff
      (e.entry.strongClassname filename)).onJarClasses fun stats =>
        { stats with errors := stats.errors + 1 }, cs, ?_, h.census, h.index, h.lookup, h.added,
      h.filename⟩
    simp only [CallGraphAnalysis.processClassFile, hreader, hparse]
  · rw [hreading] at hadmitted ⊢
    obtain ⟨hfresh, hsmall, hinterned⟩ := hadmitted
    obtain ⟨hclassname, htexts⟩ := hinterned _ rfl
    have hparsed : parsed .memory e.entry.content garbage = some (c, t) := by
      rw [parsed, hreader, Option.bind_some, hparse]
    obtain ⟨db', cs', hanalyse, hworking⟩ := h.analyseEntry A hw (hsmall _ rfl)
      (laidOut_of_parsed hparsed) hunique hclassname (hfresh _ rfl) hextract htexts
    refine ⟨db', s.results, cs', ?_, hworking⟩
    simp only [CallGraphAnalysis.processClassFile, hreader, hparse, hanalyse]

/-- One call of `processEntry`. -/
theorem Working.processEntry (hw : Lexicon words) (h : Working words filename s fs cs row C)
    (e : GraphEntry) (hown : e.name = e.entry.getClassname)
    (hadmitted : AdmittedClass words C (classIn filename e.reading)) :
    ∃ s' fs' cs' row', GraphTasks.processEntry A garbage options s e.entry = .returned s' ∧
      Working words filename s' fs' cs' row'
        (addClasses C (classIn filename e.reading).toList) := by
  obtain ⟨found, hfind, -, -⟩ :=
    findClassRow_spec h.graphValid (e.entry.strongClassname filename)
  obtain ⟨s₁, fs₁, row₁, hs₁, h₁⟩ : ∃ s₁ fs₁ row₁,
      (if found.isSome then s else s.countClass row) = s₁ ∧
        Working words filename s₁ fs₁ cs row₁ C := by
    cases found with
    | some r => exact ⟨s, fs, row, rfl, h⟩
    | none =>
        obtain ⟨fs', hcounted⟩ := h.countClass
        exact ⟨_, fs', _, rfl, hcounted⟩
  cases hcase : found.filter fun r => isClassfileUnchanged e.entry r.cols with
  | some r =>
      -- A class that is up to date is known, so that the entry does not parse.
      have hunread : classIn filename e.reading = none := by
        rw [Option.eq_none_iff_forall_ne_some]
        intro c hc
        have hname : c.name.strongClassname = e.entry.strongClassname filename := by
          rw [GraphEntry.name] at hown
          cases hreading : e.reading with
          | rejected =>
              rw [hreading] at hc
              cases hc
          | accepted cf classname texts =>
              rw [hreading] at hc hown
              obtain rfl := Option.some.inj hc
              exact congrArg (DomainTables.getStrongClassname filename) hown
        have hunknown : s.db.classfiles.findByKey (e.entry.strongClassname filename) = none := by
          rw [← hname]
          exact h.census.classes_lookup.mpr (hadmitted.fresh c hc)
        rw [findClassRow, hunknown] at hfind
        obtain rfl := Option.some.inj hfind
        cases hcase
      rw [hunread]
      refine ⟨{ s₁ with results := (s₁.results.asUnchangedJarClass options.isDiff
          (e.entry.strongClassname filename)).onJarClasses fun stats =>
            { stats with count := stats.count + 1 } }, fs₁, cs, row₁, ?_,
        h₁.census, h₁.index, h₁.lookup, h₁.added, h₁.filename⟩
      simp only [GraphTasks.processEntry, h.lookup, Outcome.ofOption_some, Outcome.returned_bind,
        h.filename, hfind, hcase, hs₁]
  | none =>
      obtain ⟨db₂, results₂, cs₂, hprocess, h₂⟩ :=
        h₁.processClassFile A garbage options hw e hadmitted found
      refine ⟨{ s₁ with db := db₂, results := results₂.onJarClasses fun stats =>
          { stats with count := stats.count + 1 } }, fs₁, cs₂, row₁, ?_,
        h₂.census, h₂.index, h₂.lookup, h₂.added, h₂.filename⟩
      simp only [GraphTasks.processEntry, h.lookup, Outcome.ofOption_some, Outcome.returned_bind,
        h.filename, hfind, hcase, hs₁, hprocess]

/-- What a list of classes needs of the contents before it. -/
structure AdmittedClasses (words : List Bytes) (C : Contents) (found : List ClassNodes) :
    Prop where
  nodup : (C.classes.map (fun c => c.strongClassname) ++
    found.map fun c => c.name.strongClassname).Nodup
  small : C.classes.length + found.length ≤ 2 ^ 64
  interned : ∀ c ∈ found, c.name.classname ∈ words ∧
    ∀ t ∈ c.texts, ∀ s ∈ labelOf t, s ∈ words

theorem AdmittedClasses.head {found : Option ClassNodes} {rest : List ClassNodes}
    (h : AdmittedClasses words C (found.toList ++ rest)) : AdmittedClass words C found where
  fresh c hc := by
    obtain rfl := hc
    have hnodup := h.nodup
    simp only [Option.toList_some, List.singleton_append, List.map_cons] at hnodup
    intro hmem
    exact (List.nodup_append.mp hnodup).2.2 _ hmem _ List.mem_cons_self rfl
  small c hc := by
    obtain rfl := hc
    have hsmall := h.small
    simp only [Option.toList_some, List.length_append, List.length_singleton] at hsmall
    omega
  interned c hc := h.interned c (List.mem_append_left _ (Option.mem_toList.mpr hc))

theorem AdmittedClasses.single {found : Option ClassNodes}
    (h : AdmittedClasses words C found.toList) : AdmittedClass words C found := by
  rw [← List.append_nil found.toList] at h
  exact h.head

theorem AdmittedClasses.tail {found : Option ClassNodes} {rest : List ClassNodes}
    (h : AdmittedClasses words C (found.toList ++ rest)) :
    AdmittedClasses words (addClasses C found.toList) rest := by
  cases found with
  | none => exact h
  | some c =>
      obtain ⟨hnodup, hsmall, hinterned⟩ := h
      refine ⟨?_, ?_, fun a ha => hinterned a (List.mem_append_right _ ha)⟩
      · simpa [addClasses, Contents.analyse, Contents.addClass] using hnodup
      · simp only [Option.toList_some, List.length_append, List.length_singleton] at hsmall
        simp only [addClasses, Option.toList_some, List.foldl_cons, List.foldl_nil,
          Contents.analyse, Contents.addClass, List.length_append, List.length_singleton]
        omega

/-- All entries of a jar. -/
theorem Working.processEntries (hw : Lexicon words) (es : List GraphEntry)
    (hown : ∀ e ∈ es, e.name = e.entry.getClassname)
    (hadmitted : AdmittedClasses words C (es.filterMap fun e => classIn filename e.reading))
    (h : Working words filename s fs cs row C) :
    ∃ s' fs' cs' row', (es.map fun e => e.entry).foldlM
        (GraphTasks.processEntry A garbage options) s = .returned s' ∧
      Working words filename s' fs' cs' row'
        (addClasses C (es.filterMap fun e => classIn filename e.reading)) := by
  induction es generalizing s fs cs row C with
  | nil => exact ⟨s, fs, cs, row, rfl, h⟩
  | cons e es ih =>
      have hsplit : (e :: es).filterMap (fun e => classIn filename e.reading) =
          (classIn filename e.reading).toList ++
            es.filterMap fun e => classIn filename e.reading := by
        rw [List.filterMap_cons]
        cases classIn filename e.reading <;> rfl
      rw [hsplit] at hadmitted ⊢
      obtain ⟨s₁, fs₁, cs₁, row₁, hentry, h₁⟩ := h.processEntry A garbage options hw e
        (hown e List.mem_cons_self) hadmitted.head
      obtain ⟨s', fs', cs', row', hrest, h'⟩ :=
        ih (fun a ha => hown a (List.mem_cons_of_mem e ha)) hadmitted.tail h₁
      refine ⟨s', fs', cs', row', ?_, ?_⟩
      · rw [List.map_cons, List.foldlM_cons, hentry]
        exact hrest
      · rw [addClasses, List.foldl_append]
        exact h'

end Jars

section Contents
variable {words : List Bytes} {C : Contents} {x : GraphInput} {xs : List GraphInput}

theorem files_addClasses (C : Contents) (classes : List ClassNodes) :
    (addClasses C classes).files = C.files := by
  induction classes generalizing C with
  | nil => rfl
  | cons c classes ih => exact (ih _).trans rfl

theorem classes_addClasses (C : Contents) (classes : List ClassNodes) :
    (addClasses C classes).classes = C.classes ++ classes.map fun c => c.name := by
  induction classes generalizing C with
  | nil => simp [addClasses]
  | cons c classes ih =>
      rw [addClasses, List.foldl_cons]
      refine (ih _).trans ?_
      simp [Contents.analyse, Contents.addClass]

/-- A class file has one class at most. -/
theorem classes_classFile (file : GraphFile) :
    (GraphInput.classFile file).classes = (classIn file.info.filename file.reading).toList := by
  change [file.reading].filterMap (classIn file.info.filename) = _
  cases hclass : classIn file.info.filename file.reading with
  | none => rw [List.filterMap_cons_none hclass]; rfl
  | some c => rw [List.filterMap_cons_some hclass]; rfl

theorem classes_addInput (C : Contents) (x : GraphInput) :
    (addInput C x).classes = C.classes ++ x.classes.map fun c => c.name := by
  cases x with
  | classFile file =>
      rw [addInput]
      split_ifs with hempty
      · rw [hempty, List.map_nil, List.append_nil]
      · rw [classes_addClasses]
        rfl
  | jar f entries =>
      rw [addInput, classes_addClasses]
      rfl

theorem files_addInput (C : Contents) (x : GraphInput) :
    (addInput C x).files = C.files ∨ (addInput C x).files = C.files ++ [x.filename] := by
  cases x with
  | classFile file =>
      rw [addInput]
      split_ifs with hempty
      · exact .inl rfl
      · exact .inr (files_addClasses _ _)
  | jar f entries => exact .inr (files_addClasses _ _)

theorem Admitted.new (h : Admitted words C (x :: xs)) : x.filename ∉ C.files := by
  intro hmem
  exact (List.nodup_append.mp h.files).2.2 _ hmem _ List.mem_cons_self rfl

theorem Admitted.head (h : Admitted words C (x :: xs)) : AdmittedClasses words C x.classes where
  nodup := by
    have hclasses := h.classes
    rw [List.flatMap_cons, List.map_append, ← List.append_assoc] at hclasses
    exact (List.nodup_append.mp hclasses).1
  small := by
    have hsmall := h.small
    rw [List.flatMap_cons, List.length_append] at hsmall
    omega
  interned := h.interned x List.mem_cons_self

theorem Admitted.tail (h : Admitted words C (x :: xs)) : Admitted words (addInput C x) xs where
  files := by
    have hfiles := h.files
    rcases files_addInput C x with hsame | hsame
    · rw [hsame]
      exact hfiles.sublist ((List.sublist_cons_self _ _).append_left C.files)
    · rw [hsame, List.append_assoc]
      exact hfiles
  room := by
    have hroom := h.room
    rw [List.length_cons] at hroom
    rcases files_addInput C x with hsame | hsame
    · rw [hsame]
      omega
    · rw [hsame, List.length_append, List.length_singleton]
      omega
  classes := by
    have hclasses := h.classes
    rw [List.flatMap_cons, List.map_append, ← List.append_assoc] at hclasses
    rw [classes_addInput, List.map_append, List.map_map]
    exact hclasses
  small := by
    have hsmall := h.small
    rw [List.flatMap_cons, List.length_append] at hsmall
    rw [classes_addInput, List.length_append, List.length_map]
    omega
  own y hy := h.own y (List.mem_cons_of_mem x hy)
  filenames y hy := h.filenames y (List.mem_cons_of_mem x hy)
  interned y hy := h.interned y (List.mem_cons_of_mem x hy)

theorem nodes_addClasses (C : Contents) (classes : List ClassNodes) (i : NodeTable) :
    (addClasses C classes).nodes i =
      (classes.map (nodesIn i)).foldl (replaceAll (Node.key i)) (C.nodes i) := by
  induction classes generalizing C with
  | nil => rfl
  | cons c classes ih => exact ih _

theorem nodes_addInput (C : Contents) (x : GraphInput) (i : NodeTable) :
    (addInput C x).nodes i =
      (x.classes.map (nodesIn i)).foldl (replaceAll (Node.key i)) (C.nodes i) := by
  cases x with
  | classFile file =>
      rw [addInput]
      split_ifs with hempty
      · rw [hempty]
        rfl
      · exact nodes_addClasses _ _ i
  | jar f entries => exact nodes_addClasses _ _ i

/-- The files bring their classes one after the other. -/
theorem nodes_foldl (C : Contents) (xs : List GraphInput) (i : NodeTable) :
    (xs.foldl addInput C).nodes i = ((xs.flatMap fun x => x.classes).map (nodesIn i)).foldl
      (replaceAll (Node.key i)) (C.nodes i) := by
  induction xs generalizing C with
  | nil => rfl
  | cons x xs ih =>
      rw [List.foldl_cons, ih, nodes_addInput, List.flatMap_cons, List.map_append,
        List.foldl_append]

theorem classes_foldl (C : Contents) (xs : List GraphInput) :
    (xs.foldl addInput C).classes =
      C.classes ++ (xs.flatMap fun x => x.classes).map fun c => c.name := by
  induction xs generalizing C with
  | nil => simp
  | cons x xs ih =>
      rw [List.foldl_cons, ih, classes_addInput, List.flatMap_cons, List.map_append,
        List.append_assoc]

/-- Every class gets a row. -/
theorem classes_program (xs : List GraphInput) :
    (program xs).classes = (xs.flatMap fun x => x.classes).map fun c => c.name := by
  rw [program, classes_foldl]
  rfl

/-- A node takes the place of the one that has its key. -/
theorem nodes_program (xs : List GraphInput) (i : NodeTable) :
    (program xs).nodes i = replaceAll (Node.key i) [] (declared xs i) := by
  rw [program, nodes_foldl, foldl_replaceAll, declared, List.flatMap_def]
  rfl

end Contents

section Programs
variable (A : ∀ α : Type, Allocator α) (garbage : ℕ → UInt8) (options : Options)
  {words : List Bytes} {C : Contents} {db : GraphDb}

/-- A database between two files of a program. -/
structure HoldsContents (words : List Bytes) (db : GraphDb) (C : Contents) : Prop where
  census : ∃ fs cs, Census words db.toCallGraphDb fs cs C
  index : ∀ i, db.ownerClassIndex i = ∅

/-- A standalone class file. -/
theorem HoldsContents.classFile (hw : Lexicon words) (h : HoldsContents words db C)
    (results : Results) (file : GraphFile) (hmem : file.info.filename ∈ words)
    (hnew : file.info.filename ∉ C.files) (hroom : C.files.length + 1 < 2 ^ 64 - 1)
    (hadmitted : AdmittedClasses words C (GraphInput.classFile file).classes) :
    ∃ db' results', doClassFile A options garbage db results file.info =
        .returned (db', results') ∧ HoldsContents words db' (addInput C (.classFile file)) := by
  obtain ⟨fs, cs, hcensus⟩ := h.census
  have hunknown : db.files.findByKey file.info.filename = none := hcensus.files_lookup.mpr hnew
  have hchanged : isUnchanged options db.files file.info = false := by
    rw [isUnchanged, hunknown, Option.bind_none, Bool.and_false]
  rw [addInput, classes_classFile]
  rw [classes_classFile] at hadmitted
  obtain ⟨reader, hreader, ⟨hparse, hreading⟩ | ⟨c, t, classname, texts, hparse, hmain, hextract,
    hreading⟩⟩ := graphFile_cases file garbage
  · rw [hreading]
    obtain ⟨results', hrun⟩ : ∃ results', doClassFile A options garbage db results file.info =
        .returned (db, results') := by
      simp only [CallGraphAnalysis.doClassFile, hchanged, hreader, hparse]
      exact ⟨_, rfl⟩
    exact ⟨db, results', hrun, h⟩
  · rw [hreading] at hadmitted ⊢
    obtain ⟨hfresh, hsmall, hinterned⟩ := hadmitted.single
    obtain ⟨hclassname, htexts⟩ := hinterned _ rfl
    have hparsed : parsed .file file.info.content garbage = some (c, t) := by
      rw [parsed, hreader, Option.bind_some, hparse]
    obtain ⟨db', found, fs', cs', hanalyse, hcensus', hindex⟩ := analyseClass_new A hw hcensus
      h.index file.info hmem hnew hroom (hsmall _ rfl) (laidOut_of_parsed hparsed) hmain hclassname
      (hfresh _ rfl) hextract htexts
    obtain ⟨results', hrun⟩ : ∃ results', doClassFile A options garbage db results file.info =
        .returned (db', results') := by
      simp only [CallGraphAnalysis.doClassFile, hchanged, hreader, hparse, hanalyse]
      exact ⟨_, rfl⟩
    exact ⟨db', results', hrun, ⟨fs', cs', hcensus'⟩, hindex⟩

/-- A jar with all its entries. -/
theorem HoldsContents.jar (hw : Lexicon words) (h : HoldsContents words db C) (results : Results)
    (hdry : options.dryRun = false) (f : JarFile) (entries : List GraphEntry)
    (hmem : f.filename ∈ words) (hnew : f.filename ∉ C.files)
    (hroom : C.files.length + 1 < 2 ^ 64 - 1)
    (hown : ∀ e ∈ entries, e.name = e.entry.getClassname)
    (hadmitted : AdmittedClasses words C (GraphInput.jar f entries).classes) :
    ∃ db' results', GraphTasks.run A garbage options f (entries.map fun e => e.entry) db results =
        .returned (db', results') ∧ HoldsContents words db' (addInput C (.jar f entries)) := by
  obtain ⟨fs, cs, hcensus⟩ := h.census
  have hclasses : (GraphInput.jar f entries).classes =
      entries.filterMap fun e => classIn f.filename e.reading := by
    change (entries.map fun e => e.reading).filterMap (classIn f.filename) = _
    rw [List.filterMap_map]
    rfl
  obtain ⟨s, fs₁, row, hstart, hworking⟩ :=
    start_working A options hw hcensus h.index hdry hmem hnew hroom results
  rw [hclasses] at hadmitted
  obtain ⟨s', fs', cs', row', hrun, hworking'⟩ := Working.processEntries A garbage options hw
    entries hown (C := C.addFile f.filename)
    ⟨hadmitted.nodup, hadmitted.small, hadmitted.interned⟩ hworking
  obtain ⟨results', hfinish⟩ : ∃ results', GraphTasks.finish s' = some (s'.db, results') := by
    simp only [GraphTasks.finish, hworking'.lookup, Option.bind_eq_bind, Option.bind_some]
    exact ⟨_, rfl⟩
  refine ⟨s'.db, results', ?_, ⟨fs', cs', ?_⟩, hworking'.index⟩
  · simp only [GraphTasks.run, hstart, Outcome.ofOption_some, Outcome.returned_bind, if_true, hrun,
      hfinish]
  · rw [addInput, hclasses]
    exact hworking'.census

/-- One file of the program. -/
theorem HoldsContents.input (hw : Lexicon words) (h : HoldsContents words db C) (results : Results)
    (hdry : options.dryRun = false) {x : GraphInput} {xs : List GraphInput}
    (hadmitted : Admitted words C (x :: xs)) :
    ∃ db' results', analyseInput A garbage options (db, results) x = .returned (db', results') ∧
      HoldsContents words db' (addInput C x) := by
  have hmem := hadmitted.filenames x List.mem_cons_self
  have hown := hadmitted.own x List.mem_cons_self
  have hroom : C.files.length + 1 < 2 ^ 64 - 1 := by
    have := hadmitted.room
    rw [List.length_cons] at this
    omega
  cases x with
  | classFile file =>
      exact h.classFile A garbage options hw results file hmem hadmitted.new hroom hadmitted.head
  | jar f entries =>
      exact h.jar A garbage options hw results hdry f entries hmem hadmitted.new hroom hown
        hadmitted.head

/-- All files of the program, from any contents that admit them. -/
theorem HoldsContents.inputs (hw : Lexicon words) (hdry : options.dryRun = false)
    {xs : List GraphInput} (h : HoldsContents words db C) (hadmitted : Admitted words C xs)
    (results : Results) :
    ∃ db' results', analyseInputs A garbage options (db, results) xs = .returned (db', results') ∧
      HoldsContents words db' (xs.foldl addInput C) := by
  induction xs generalizing db C results with
  | nil => exact ⟨db, results, rfl, h⟩
  | cons x xs ih =>
      obtain ⟨db₁, results₁, hinput, h₁⟩ := h.input A garbage options hw results hdry hadmitted
      obtain ⟨db', results', hrest, h'⟩ := ih h₁ hadmitted.tail results₁
      refine ⟨db', results', ?_, h'⟩
      rw [analyseInputs, List.foldlM_cons, hinput]
      exact hrest

/-- The new database has no contents. -/
theorem create_holds (hnil : [] ∈ words) :
    ∃ db, GraphDb.create = some db ∧ HoldsContents words db Contents.empty := by
  obtain ⟨pool, hpool, -⟩ := construct_pooled hnil
  obtain ⟨tables', htables, hvalid, -⟩ := create_valid words hnil
  obtain rfl : tables' = ⟨pool, Table.construct (Files.layout pool),
      Table.construct ⟨ClassFiles.format, fun _ => []⟩⟩ := by
    simpa [DigestDb.create, hpool, eq_comm] using htables
  refine ⟨⟨⟨pool, Table.construct (Files.layout pool),
    Table.construct ⟨ClassFiles.format, fun _ => []⟩,
    fun i => Table.construct ⟨i.format, fun _ => []⟩⟩, fun _ => ∅⟩, ?_,
    ⟨[], [], hvalid, rfl, rfl, by simp, fun i => ⟨[], ?_⟩⟩, fun _ => rfl⟩
  · simp [GraphDb.create, CallGraphDb.create, hpool]
  · exact ⟨core_construct _, filed_construct _, by simp, by simp, by simp, by simp [Contents.empty]⟩

end Programs

end Tarracsh.ProgramAnalysis
