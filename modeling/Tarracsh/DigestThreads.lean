import Tarracsh.InputOrder
import Tarracsh.InterleavedThreads
import Mathlib.Algebra.BigOperators.Fin

/-!
# Digest tasks on a pool of threads

`DigestAnalyzer` detaches a task for every jar and class file. The tasks share
the database and the results. A class file is one turn of its task; a jar takes
one for `start`, one for each entry, in the order in which the threads of its
`Processor` come to them, and one for `end`. A turn is a whole call: the program
locks tables, pool and report for each access within one (`getRow` reads the
vector of rows without the lock), and what is between two accesses is not
modelled.

However the turns are interleaved, no task meets a row of another one, and in
the end there are the maps and the account of a run over one input after the
other, as long as no record of a class file is overwritten.
-/
namespace Tarracsh.DigestThreads
open ByteStrings QueryTrees StringPool ParsedClass TableModel TableInvariant TableFrames
open DomainTables CallGraphTables CallGraphInvariant ClassFileDigest JarEntries Reporting
open DigestTasks DigestRuns DigestSimulation DigestOutcomes DigestAnalysis DryRuns TaskFrames
open DigestMaps KeyedReactions InputOrder InterleavedThreads
open ClassOutcomes (InputTexts processAll)

instance : LawfulMonad Outcome :=
  LawfulMonad.mk' Outcome (fun x => by cases x <;> rfl) (fun _ _ => rfl)
    (fun x _ _ => by cases x <;> rfl)

/-- What a task has still to do. -/
inductive Stage (H : Bytes → Sha256) where
  | waiting (x : Input H)
  | working (jar : JarFile) (task : DigestTask) (todo : List (ReadEntry H))
  | done

section Turns
variable (A : ∀ α : Type, Allocator α) {H : Bytes → Sha256} (garbage : ℕ → UInt8)
  (options : Options)

/-- A turn of a task. -/
def turn (s : DigestDb × Results) : Stage H → Outcome ((DigestDb × Results) × Stage H)
  | .waiting (.classFile file) => do
      let out ← doClassFile A H garbage options s.1 s.2 file.info
      .returned (out, .done)
  | .waiting (.jar jar es) => do
      let started ← .ofOption (start A options jar s.1 s.2)
      .returned ((started.1.db, started.1.results),
        .working jar started.1.task (if started.2 then es else []))
  | .working jar task (e :: todo) => do
      let s ← processEntry A H garbage options ⟨s.1, task, s.2⟩ e.entry
      .returned ((s.db, s.results), .working jar s.task todo)
  | .working jar task [] => do
      let out ← .ofOption (finish A H options jar ⟨s.1, task, s.2⟩)
      .returned (out, .done)
  | .done => .returned (s, .done)

/-- The turns that an input takes. -/
def turnsOf : Input H → ℕ
  | .classFile _ => 1
  | .jar _ es => es.length + 2

/-- All tasks are detached and none has had a turn. -/
def launched (s : DigestDb × Results) (xs : List (Input H)) :
    System (Fin xs.length) (DigestDb × Results) (Stage H) :=
  ⟨s, fun i => .waiting xs[i]⟩

end Turns

/-- What a turn of the task of one file leaves to the tasks of the others. -/
structure Spares (dryRun : Bool) (filename : Bytes) (db db' : DigestDb) : Prop where
  files : ∀ name, name ≠ filename → fileRow db' name = fileRow db name
  classes : ∀ key, key ∉ keysOf filename → stored db' key = stored db key
  index : db.files.autoIncrementIndex <+: db'.files.autoIncrementIndex
  pool : dryRun = true → Grows db.pool db'.pool
  added : dryRun = true → db'.files.autoIncrementIndex = db.files.autoIncrementIndex
  heap : dryRun = true → ∀ p row, db.files.heap.lookup p = some row →
    text db.pool row.cols.filename ≠ filename → db'.files.heap.lookup p = some row

theorem Spares.refl (dryRun : Bool) (filename : Bytes) (db : DigestDb) :
    Spares dryRun filename db db :=
  ⟨fun _ _ => rfl, fun _ _ => rfl, List.prefix_rfl, fun _ _ _ h => h, fun _ => rfl,
    fun _ _ _ h _ => h⟩

/-- The row behind `_jarFileRow`. In a dry run the row of a new jar is not in the
table. -/
structure Held (dryRun isNew : Bool) (filename : Bytes) (db : DigestDb) (p : ℕ)
    (row : Row FileCols) : Prop where
  lookup : db.files.heap.lookup p = some row
  named : db.pool.getCString row.cols.filename.toNat = some filename
  added : (dryRun && isNew) = false → db.files.findByKey filename = some p
  apart : (dryRun && isNew) = true →
    fileRow db filename = none ∧ p ∉ db.files.autoIncrementIndex

section Rows
variable {words : List Bytes} {dryRun isNew : Bool} {filename : Bytes} {db db' : DigestDb}
  {fs fs' : List (Row FileCols)} {cs cs' : List (Row ClassFileCols)} {p : ℕ} {row : Row FileCols}

theorem Held.fileRow_eq (h : Held dryRun isNew filename db p row) :
    fileRow db filename = if dryRun && isNew then none else some row := by
  split_ifs with hcase
  · exact (h.apart hcase).1
  · rw [fileRow, h.added (Bool.eq_false_iff.mpr hcase), Option.bind_some, h.lookup]

/-- A task on which other tasks have had turns. -/
theorem Held.spared (h : Held dryRun isNew filename db p row) (hvalid : Valid words db fs cs)
    (hvalid' : Valid words db' fs' cs') {other : Bytes} (hne : filename ≠ other)
    (hspares : Spares dryRun other db db') : Held dryRun isNew filename db' p row := by
  have hsame := hspares.files filename hne
  cases hcase : dryRun && isNew with
  | true =>
      obtain ⟨hnone, hindex⟩ := h.apart hcase
      have hdry : dryRun = true := (Bool.and_eq_true_iff.mp hcase).1
      have htext : text db.pool row.cols.filename ≠ other := by
        rw [text, h.named]
        exact hne
      exact ⟨hspares.heap hdry p row h.lookup htext, hspares.pool hdry _ _ h.named,
        by simp [hcase], fun _ => ⟨hsame.trans hnone, by rwa [hspares.added hdry]⟩⟩
  | false =>
      have hrow : fileRow db filename = some row := by rw [h.fileRow_eq, hcase, if_neg (by simp)]
      obtain ⟨q, hq, -, hindex, -⟩ := findByKey_of_fileRow hvalid hrow
      have hadded := h.added hcase
      obtain rfl := Option.some.inj (hq.symm.trans hadded)
      obtain ⟨q', hq', hlookup', hindex', hname'⟩ :=
        findByKey_of_fileRow hvalid' (hsame.trans hrow)
      have hlt := (List.getElem?_eq_some_iff.mp hindex).1
      have hmoved : db'.files.autoIncrementIndex[row.id]? = some q := by
        obtain ⟨more, hmore⟩ := hspares.index
        rw [← hmore, List.getElem?_append_left hlt, hindex]
      obtain rfl := Option.some.inj (hmoved.symm.trans hindex')
      exact ⟨hlookup', hname', fun _ => hq', by simp [hcase]⟩

/-- The task is ready for its next entry or for `end`. -/
theorem Held.ready {task : DigestTask}
    (h : Held dryRun task.isNewJarFile filename db task.jarFileRow row)
    (hvalid : Valid words db fs cs) (results : Results) :
    Ready words dryRun filename ⟨db, task, results⟩ fs cs row where
  valid := hvalid
  lookup := h.lookup
  filename := h.named
  added hdry := by
    obtain ⟨q, hq, hlookup, hindex, -⟩ := findByKey_of_fileRow hvalid
      (h.fileRow_eq.trans (if_neg (by simp [hdry])))
    have hadded := h.added (by simp [hdry])
    rw [← Option.some.inj (hq.symm.trans hadded)]
    exact hindex

/-- Every pointer of the table is found under the name of its row. -/
theorem exists_findByKey (h : Valid words db fs cs) (hp : p ∈ db.files.autoIncrementIndex) :
    ∃ name, db.files.findByKey name = some p := by
  obtain ⟨i, hi⟩ := List.getElem?_of_mem hp
  have hlt : i < fs.length := by
    rw [← h.files.length_eq]
    exact (List.getElem?_eq_some_iff.mp hi).1
  exact ⟨_, (h.filedFiles _ p).mpr ⟨i, fs[i], hi, List.getElem?_eq_getElem hlt, rfl⟩⟩

/-- No other name leads to the row. -/
theorem Held.findByKey_ne (h : Held dryRun isNew filename db p row) (hvalid : Valid words db fs cs)
    {name : Bytes} (hne : name ≠ filename) : db.files.findByKey name ≠ some p := by
  intro hname
  obtain ⟨i, f, hi, hf, hkey⟩ := (hvalid.filedFiles name p).mp hname
  have hrow : some f = some row := by
    rw [← h.lookup, hvalid.files.lookup_of_index hi, hf]
  obtain rfl := Option.some.inj hrow
  refine hne (hkey.symm.trans ?_)
  change text db.pool f.cols.filename = filename
  rw [text, h.named]
  rfl

end Rows

section Achievements
variable {H : Bytes → Sha256} (garbage : ℕ → UInt8) (options : Options)

/-- A jar that is not skipped, after some of its entries. -/
structure AtWork (m : Maps) (jar : JarFile) (before : List (ReadEntry H)) (db : DigestDb)
    (task : DigestTask) (paid : Tally) : Prop where
  changed : (m.files jar.filename).filter (isFileUnchanged options jar false) = none
  isFileUnchanged : task.isFileUnchanged = false
  isNewJarFile : task.isNewJarFile = (m.files jar.filename).isNone
  held : ∃ row, Held options.dryRun task.isNewJarFile jar.filename db task.jarFileRow row ∧
    unnamed row.cols = countedJar H options jar before m {}
  digestMap : task.digestMap = (gathered H options jar before m {}).digestMap
  classes : ∀ key ∈ keysOf jar.filename,
    stored db key = (rules H options.dryRun jar.filename).after m.classes before key
  paid : paid = tally (gathered H options jar before m {}).results

/-- A jar that is skipped, before `end`. -/
structure Skipped (m : Maps) (jar : JarFile) (db : DigestDb) (task : DigestTask) (paid : Tally) :
    Prop where
  isFileUnchanged : task.isFileUnchanged = true
  held : ∃ row, Held options.dryRun task.isNewJarFile jar.filename db task.jarFileRow row ∧
    (m.files jar.filename).filter (DigestTasks.isFileUnchanged options jar false) =
      some (unnamed row.cols)
  agree : AgreeOn jar.filename (maps db) m
  paid : paid = 0

/-- What the task of an input has achieved and reported, with nothing but the
maps that it was launched on in mind. -/
inductive Achieved (m : Maps) (x : Input H) (db : DigestDb) (paid : Tally) : Stage H → Prop
  | waiting (agree : AgreeOn (nameOf x) (maps db) m) (zero : paid = 0) :
      Achieved m x db paid (.waiting x)
  | working {jar : JarFile} {task : DigestTask} (before : List (ReadEntry H))
      {todo : List (ReadEntry H)} (input : x = .jar jar (before ++ todo))
      (work : AtWork options m jar before db task paid) :
      Achieved m x db paid (.working jar task todo)
  | skipped {jar : JarFile} {task : DigestTask} {es : List (ReadEntry H)} (input : x = .jar jar es)
      (skipped : Skipped options m jar db task paid) : Achieved m x db paid (.working jar task [])
  | done (agree : AgreeOn (nameOf x) (maps db) (digestInput H garbage options (m, {}) x).1)
      (paid_eq : paid = tally (digestInput H garbage options (m, {}) x).2) :
      Achieved m x db paid .done

variable {words : List Bytes} {m : Maps} {db db' : DigestDb} {fs fs' : List (Row FileCols)}
  {cs cs' : List (Row ClassFileCols)}

theorem Spares.agree {dryRun : Bool} {f g : Bytes} (h : Spares dryRun g db db')
    (hseparate : Separate f g) : AgreeOn f (maps db') (maps db) where
  files := congrArg (Option.map _) (h.files f hseparate.ne)
  classes key hkey := h.classes key (hseparate.not_mem hkey)

/-- What a task has achieved is left to it. -/
theorem achieved_spared {x : Input H} {t : Stage H} {paid : Tally} {g : Bytes}
    (h : Achieved garbage options m x db paid t) (hvalid : Valid words db fs cs)
    (hvalid' : Valid words db' fs' cs') (hspares : Spares options.dryRun g db db')
    (hseparate : Separate (nameOf x) g) : Achieved garbage options m x db' paid t := by
  have hagree := hspares.agree hseparate
  cases h with
  | waiting agree zero => exact .waiting (hagree.trans agree) zero
  | done agree paid_eq => exact .done (hagree.trans agree) paid_eq
  | working before input work =>
      subst input
      obtain ⟨row, hheld, hrecord⟩ := work.held
      have hheld' := hheld.spared hvalid hvalid' hseparate.ne hspares
      exact .working before rfl { work with
        held := ⟨row, hheld', hrecord⟩
        classes := fun key hkey => (hagree.classes key hkey).trans (work.classes key hkey) }
  | skipped input skipped =>
      subst input
      obtain ⟨row, hheld, hrecord⟩ := skipped.held
      have hheld' := hheld.spared hvalid hvalid' hseparate.ne hspares
      exact .skipped rfl { skipped with
        held := ⟨row, hheld', hrecord⟩
        agree := hagree.trans skipped.agree }

/-- The rows that a task may still add. -/
def Stage.need : Stage H → ℕ
  | .waiting _ => 1
  | _ => 0

/-- The turns that a task still takes. -/
def Stage.left : Stage H → ℕ
  | .waiting x => turnsOf x
  | .working _ _ todo => todo.length + 1
  | .done => 0

/-- A turn of the task of one input. -/
structure Played (words : List Bytes) (m : Maps) (x : Input H) (s : DigestDb × Results)
    (t : Stage H) (paid : Tally) (s' : DigestDb × Results) (t' : Stage H) (pay : Tally) : Prop where
  valid : ∃ fs cs, Valid words s'.1 fs cs
  achieved : Achieved garbage options m x s'.1 (paid + pay) t'
  account : tally s'.2 = tally s.2 + pay
  size : s'.1.files.autoIncrementIndex.length + t'.need ≤
    s.1.files.autoIncrementIndex.length + t.need
  left : t'.left ≤ t.left - 1
  spares : Spares options.dryRun (nameOf x) s.1 s'.1

end Achievements

section Moves
variable (A : ∀ α : Type, Allocator α) {H : Bytes → Sha256} (garbage : ℕ → UInt8)
  (options : Options) {words : List Bytes} {m : Maps} {db : DigestDb} {r : Results}
  {fs : List (Row FileCols)} {cs : List (Row ClassFileCols)} {paid : Tally}

theorem spares_of_fileKept {filename : Bytes} {db' : DigestDb}
    (h : FileKept options.dryRun filename db db')
    (hclasses : ∀ key, key ∉ keysOf filename → stored db' key = stored db key) :
    Spares options.dryRun filename db db' := by
  refine ⟨h.others, hclasses, ?_, fun hdry => ?_, fun hdry => by rw [h.dry hdry],
    fun hdry => by rw [h.dry hdry]; exact fun _ _ hrow _ => hrow⟩
  · cases hdry : options.dryRun with
    | true => rw [h.dry hdry]
    | false => exact (h.kept hdry).files.index
  · rw [h.dry hdry]
    exact fun _ _ hs => hs

/-- A class file is done in one turn. -/
theorem turn_classFile (hw : Lexicon words) (h : Valid words db fs cs)
    (hroom : fs.length + 1 < 2 ^ 64 - 1) {file : ReadFile}
    (htexts : InputTexts garbage words (.classFile file : Input H))
    (hkeeps : KeepsFiles H garbage options m (.classFile file))
    (hagree : AgreeOn file.info.filename (maps db) m) :
    ∃ s' t' pay, turn A garbage options (db, r) (.waiting (.classFile file : Input H)) =
        .returned (s', t') ∧
      Played garbage options words m (.classFile file) (db, r) (.waiting (.classFile file)) 0
        s' t' pay := by
  obtain ⟨db', r', fs', cs', hrun, hvalid, hlength, hmaps, hkept, -⟩ :=
    classFile_refines A garbage options hw h hroom file htexts.1 (keepsFiles_congr hkeeps hagree)
      htexts.2 r
  obtain ⟨hsame, htally⟩ :=
    digestInput_adds garbage options (.classFile file : Input H) (maps db) r
  obtain ⟨hresults, hdone⟩ :=
    digestInput_reads garbage options (.classFile file : Input H) hagree
  obtain ⟨-, hclasses⟩ := digestInput_frame garbage options (.classFile file : Input H) (maps db) r
  have hdigested : (maps db', r') = digestInput H garbage options (maps db, r) (.classFile file) :=
    hmaps
  have hmaps' : maps db' = _ := congrArg Prod.fst hdigested
  have hturn : turn A garbage options (db, r) (.waiting (.classFile file : Input H)) =
      .returned ((db', r'), .done) := by
    simp only [turn, hrun, Outcome.returned_bind]
  refine ⟨_, _, tally (digestInput H garbage options (m, {}) (.classFile file)).2, hturn,
    ⟨⟨fs', cs', hvalid⟩, .done ?_ (zero_add _), ?_, ?_, Nat.zero_le _,
      spares_of_fileKept options hkept fun key hkey => ?_⟩⟩
  · rw [hmaps', hsame]
    exact hdone
  · rw [← hresults, ← htally, ← hdigested]
  · change db'.files.autoIncrementIndex.length + 0 ≤ db.files.autoIncrementIndex.length + 1
    rw [hvalid.files.length_eq, h.files.length_eq]
    exact hlength
  · exact (congrFun (congrArg Maps.classes hmaps') key).trans (hclasses key hkey)

/-- `start` for a jar that is skipped. -/
theorem turn_start_skipped (h : Valid words db fs cs) {jar : JarFile} (es : List (ReadEntry H))
    (hagree : AgreeOn jar.filename (maps db) m) {record : FileCols}
    (hrecord : (m.files jar.filename).filter (isFileUnchanged options jar false) = some record) :
    ∃ s' t' pay, turn A garbage options (db, r) (.waiting (.jar jar es)) = .returned (s', t') ∧
      Played garbage options words m (.jar jar es) (db, r) (.waiting (.jar jar es)) 0
        s' t' pay := by
  have hfound := hrecord
  rw [← hagree.files] at hfound
  obtain ⟨hfound, hunchanged⟩ := Option.filter_eq_some_iff.mp hfound
  obtain ⟨row, hrow, rfl⟩ := Option.map_eq_some_iff.mp hfound
  obtain ⟨p, hindex, hstart, hready⟩ := start_known A options h hrow r
  have hunchanged' : isFileUnchanged options jar false row.cols = true := hunchanged
  rw [hunchanged'] at hstart hready
  have hheld : Held options.dryRun false jar.filename db p row :=
    ⟨hready.lookup, hready.filename,
      fun _ => (findByKey_jarRow hready hindex jar.filename).mpr rfl, by simp⟩
  have hturn : turn A garbage options (db, r) (.waiting (.jar jar es)) =
      .returned ((db, r), .working jar ⟨p, false, true, ∅⟩ []) := by
    simp only [turn, hstart, Outcome.ofOption_some, Outcome.returned_bind]
    rfl
  refine ⟨_, _, 0, hturn, ⟨⟨fs, cs, h⟩, .skipped rfl ⟨rfl, ⟨row, hheld, hrecord⟩, hagree,
    add_zero 0⟩, (add_zero _).symm, Nat.le_succ _, ?_, Spares.refl _ _ db⟩⟩
  change 0 + 1 ≤ es.length + 2 - 1
  omega

/-- `start` for a jar that is not skipped. -/
theorem turn_start (hw : Lexicon words) (h : Valid words db fs cs)
    (hroom : fs.length + 1 < 2 ^ 64 - 1) {jar : JarFile} (hmem : jar.filename ∈ words)
    (es : List (ReadEntry H)) (hagree : AgreeOn jar.filename (maps db) m)
    (hchanged : (m.files jar.filename).filter (isFileUnchanged options jar false) = none) :
    ∃ s' t' pay, turn A garbage options (db, r) (.waiting (.jar jar es)) = .returned (s', t') ∧
      Played garbage options words m (.jar jar es) (db, r) (.waiting (.jar jar es)) 0
        s' t' pay := by
  have hfiles : (maps db).files jar.filename = m.files jar.filename := hagree.files
  obtain ⟨s, fs', row, hstart, rfl, hstarted⟩ :=
    started_of_changed A options hw h hmem hroom (by rw [hfiles]; exact hchanged) r
  have hready := hstarted.ready
  have hisNew : s.task.isNewJarFile = (m.files jar.filename).isNone := by
    rw [hstarted.isNewJarFile, hfiles]
  have hnew : (options.dryRun && s.task.isNewJarFile) = true ↔
      options.dryRun = true ∧ fileRow db jar.filename = none := by
    rw [Bool.and_eq_true, hstarted.isNewJarFile, Option.isNone_iff_eq_none]
    exact and_congr_right fun _ => Option.map_eq_none_iff
  have hrow := hstarted.files s row (Kept.refl s) hready.lookup
  have hheld : Held options.dryRun s.task.isNewJarFile jar.filename s.db s.task.jarFileRow row := by
    refine ⟨hready.lookup, hready.filename, fun hcase => ?_, fun hcase => ⟨?_, fun hp => ?_⟩⟩
    · exact (hstarted.found _).mpr ⟨rfl, by rw [← hnew, hcase]; exact Bool.false_ne_true⟩
    · rw [hrow, if_pos (hnew.mp hcase)]
      exact (hnew.mp hcase).2
    · obtain ⟨name, hname⟩ := exists_findByKey hready.valid hp
      exact ((hstarted.found name).mp hname).2 (hnew.mp hcase)
  have hrecord : unnamed row.cols = countedJar H options jar [] m {} := by
    rw [hstarted.record, hfiles]
    rfl
  have hturn : turn A garbage options (db, s.results) (.waiting (.jar jar es)) =
      .returned ((s.db, s.results), .working jar s.task es) := by
    simp only [turn, hstart, Outcome.ofOption_some, Outcome.returned_bind, if_true]
  refine ⟨_, _, 0, hturn, ⟨⟨fs', cs, hready.valid⟩, .working [] rfl ⟨hchanged,
    hstarted.isFileUnchanged, hisNew, ⟨row, hheld, hrecord⟩, hstarted.digestMap,
    fun key hkey => ?_, ?_⟩, (add_zero _).symm, ?_, ?_, ⟨fun name hne => ?_,
      fun key _ => congrFun hstarted.stored key, ?_, fun hdry => (hstarted.dry hdry).pool,
      fun hdry => (hstarted.dry hdry).index,
      fun hdry p row hp _ => (hstarted.dry hdry).heap p row hp⟩⟩⟩
  · exact (congrFun hstarted.stored key).trans (hagree.classes key hkey)
  · exact (add_zero 0).trans tally_nothing.symm
  · exact ClassOutcomes.start_size hstart
  · change es.length + 1 ≤ es.length + 2 - 1
    omega
  · change fileRow s.db name = fileRow db name
    rw [hrow]
    split_ifs
    · rfl
    · exact Function.update_of_ne hne _ _
  · cases hdry : options.dryRun with
    | true =>
        change _ <+: s.db.files.autoIncrementIndex
        rw [(hstarted.dry hdry).index]
    | false => exact (hstarted.kept hdry).files.index

theorem gathered_concat (jar : JarFile) (es : List (ReadEntry H)) (e : ReadEntry H) (m : Maps)
    (r : Results) :
    gathered H options jar (es ++ [e]) m r = note options jar.filename
      (gathered H options jar es m r) (e, (rules H options.dryRun jar.filename).verdict
        ((rules H options.dryRun jar.filename).after m.classes es) e) := by
  rw [gathered, verdicts_concat, List.foldl_concat]
  rfl

/-- A turn between `start` and `end` changes no row but that of the jar, and no
class of another file. -/
theorem spares_of_entry {jar : JarFile} {s s' : TaskState} {row row' : Row FileCols}
    {e : ReadEntry H} (h : Valid words s.db fs cs)
    (hheld : Held options.dryRun s.task.isNewJarFile jar.filename s.db s.task.jarFileRow row)
    (hentry : processEntry A H garbage options s e.entry = .returned s')
    (hlookup : s'.db.files.heap.lookup s'.task.jarFileRow = some row')
    (hstored : stored s'.db = (rules H options.dryRun jar.filename).step (stored s.db) e) :
    Spares options.dryRun jar.filename s.db s'.db := by
  have hkept := processEntry_kept hentry
  refine ⟨fun name hne => ?_, fun key hkey => ?_, ?_, fun hdry => ?_, fun _ => ?_,
    fun hdry p row₁ hp hname => ?_⟩
  · rw [hkept.fileRow_eq hlookup, if_neg (hheld.findByKey_ne h hne)]
  · rw [hstored]
    refine step_of_ne fun _ => ?_
    rintro rfl
    exact hkey ⟨e.name, rfl⟩
  · rw [hkept.files]
  · rw [(processEntry_framed hdry hentry).pool]
    exact fun _ _ hs => hs
  · rw [hkept.files]
  · refine (hkept.heap p ?_).trans hp
    rintro rfl
    obtain rfl := Option.some.inj (hp.symm.trans hheld.lookup)
    apply hname
    rw [text, hheld.named]
    rfl

/-- The row stays where it was. -/
theorem held_of_entry {jar : JarFile} {s s' : TaskState} {row row' : Row FileCols}
    {e : ReadEntry H} {fs' : List (Row FileCols)} {cs' : List (Row ClassFileCols)}
    (h : Valid words s.db fs cs)
    (hheld : Held options.dryRun s.task.isNewJarFile jar.filename s.db s.task.jarFileRow row)
    (hentry : processEntry A H garbage options s e.entry = .returned s')
    (hready : Ready words options.dryRun jar.filename s' fs' cs' row') :
    Held options.dryRun s'.task.isNewJarFile jar.filename s'.db s'.task.jarFileRow row' := by
  have hkept := processEntry_kept hentry
  have hsize := ClassOutcomes.processEntry_size hentry
  have hkey : s'.db.files.findByKey jar.filename = s.db.files.findByKey jar.filename := by
    rw [hkept.files]
    rfl
  rw [hkept.isNewJarFile]
  refine ⟨hready.lookup, hready.filename, fun hcase => ?_, fun hcase => ?_⟩
  · rw [hkey, hkept.jarFileRow]
    exact hheld.added hcase
  · obtain ⟨hnone, hindex⟩ := hheld.apart hcase
    have hother : ¬s.db.files.findByKey jar.filename = some s.task.jarFileRow :=
      fun hp => hindex (h.files.rows _ _ hp)
    rw [hkept.fileRow_eq hready.lookup, if_neg hother, hsize, hkept.jarFileRow]
    exact ⟨hnone, hindex⟩

/-- The classes are counted one by one. -/
theorem counted_of_entry {jar : JarFile} {before : List (ReadEntry H)} {e : ReadEntry H}
    {row row' : Row FileCols} {v : Verdict}
    (hrecord : unnamed row.cols = countedJar H options jar before m {})
    (hgathered : gathered H options jar (before ++ [e]) m {} =
      note options jar.filename (gathered H options jar before m {}) (e, v))
    (hrow : row' = withCount row row'.cols.classfileCount)
    (hcount : row'.cols.classfileCount = counted row.cols.classfileCount v) :
    unnamed row'.cols = countedJar H options jar (before ++ [e]) m {} := by
  have hold : row.cols.classfileCount = (gathered H options jar before m {}).classfileCount :=
    congrArg FileCols.classfileCount hrecord
  rw [countedJar, hgathered, hrow]
  change { unnamed row.cols with classfileCount := row'.cols.classfileCount } = _
  rw [hrecord, hcount, hold]
  rfl

/-- An entry of a jar. -/
theorem turn_entry (hw : Lexicon words) (h : Valid words db fs cs) {jar : JarFile}
    {before todo : List (ReadEntry H)} {e : ReadEntry H} (hname : e.name ∈ words)
    {task : DigestTask} (hwork : AtWork options m jar before db task paid) :
    ∃ s' t' pay, turn A garbage options (db, r) (.working jar task (e :: todo)) =
        .returned (s', t') ∧
      Played garbage options words m (.jar jar (before ++ e :: todo)) (db, r)
        (.working jar task (e :: todo)) paid s' t' pay := by
  obtain ⟨row, hheld, hrecord⟩ := hwork.held
  obtain ⟨s, hs⟩ : ∃ s : TaskState, s = ⟨db, task, r⟩ := ⟨_, rfl⟩
  have hready : Ready words options.dryRun jar.filename s fs cs row := by
    rw [hs]
    exact hheld.ready h r
  obtain ⟨s', fs', cs', row', hentry, hready', hstored, hnotes, hstep, -⟩ :=
    processEntry_spec A garbage options hw hready e hname
  have hturn : turn A garbage options (db, r) (.working jar task (e :: todo)) =
      .returned ((s'.db, s'.results), .working jar s'.task todo) := by
    simp only [turn, ← hs, hentry, Outcome.returned_bind]
  obtain ⟨rfl, rfl, rfl⟩ : db = s.db ∧ task = s.task ∧ r = s.results := by
    rw [hs]
    exact ⟨rfl, rfl, rfl⟩
  obtain ⟨v, hv⟩ : ∃ v, v = (rules H options.dryRun jar.filename).verdict
      ((rules H options.dryRun jar.filename).after m.classes before) e := ⟨_, rfl⟩
  have hgathered := gathered_concat options jar before e m {}
  have hverdict : (rules H options.dryRun jar.filename).verdict (stored s.db) e = v := by
    rw [hv]
    exact verdict_congr (hwork.classes _ ⟨e.entry.getClassname, rfl⟩)
  rw [← hv] at hgathered
  rw [hverdict] at hnotes
  have hheld' := held_of_entry A garbage options h hheld hentry hready'
  have hrecord' := counted_of_entry options hrecord hgathered hstep.row
    (congrArg Notes.classfileCount hnotes)
  have hresults : s'.results = report options jar.filename s.results e v :=
    congrArg Notes.results hnotes
  have hdigestMap : s'.task.digestMap = remember s.task.digestMap e v :=
    congrArg Notes.digestMap hnotes
  have htask : s'.task.isNewJarFile = s.task.isNewJarFile ∧
      s'.task.isFileUnchanged = s.task.isFileUnchanged := by
    rw [hstep.task]
    exact ⟨rfl, rfl⟩
  refine ⟨_, _, tally (report options jar.filename {} e v), hturn, ⟨⟨fs', cs', hready'.valid⟩,
    .working (before ++ [e]) (by rw [List.append_assoc]; rfl)
      ⟨hwork.changed, htask.2.trans hwork.isFileUnchanged, htask.1.trans hwork.isNewJarFile,
        ⟨row', hheld', hrecord'⟩, ?_, fun key hkey => ?_, ?_⟩, ?_, ?_, le_rfl,
      spares_of_entry A garbage options h hheld hentry hready'.lookup hstored⟩⟩
  · rw [hdigestMap, hwork.digestMap, hgathered]
    rfl
  · have hlook : ∀ a ∈ [e], (rules H options.dryRun jar.filename).look a ∈ keysOf jar.filename :=
      fun a _ => ⟨a.entry.getClassname, rfl⟩
    rw [after_concat]
    exact (congrFun hstored key).trans ((run_congr hlook hwork.classes).2 key hkey)
  · rw [hwork.paid, hgathered]
    exact ((adds_report options jar.filename e v).tally_eq _).symm
  · rw [hresults]
    exact (adds_report options jar.filename e v).tally_eq s.results
  · rw [ClassOutcomes.processEntry_size hentry]
    exact le_rfl

/-- What `end` records of the jar. -/
theorem recorded_of_end {jar : JarFile} {es : List (ReadEntry H)} {task : DigestTask}
    {db' : DigestDb} {row : Row FileCols} {digest : DigestCol}
    (hheld : Held options.dryRun task.isNewJarFile jar.filename db task.jarFileRow row)
    (hisNew : task.isNewJarFile = (m.files jar.filename).isNone)
    (hrecord : unnamed row.cols = countedJar H options jar es m {})
    (hdigest : digest = digestOf H (gathered H options jar es m {}).digestMap)
    (hdry : options.dryRun = true → db' = db)
    (hstored : options.dryRun = false →
      fileRow db' jar.filename = some (finished jar row digest)) :
    (maps db').files jar.filename = recorded H options jar es m {} := by
  change (fileRow db' jar.filename).map (fun row => unnamed row.cols) = _
  rw [recorded]
  cases hcase : options.dryRun with
  | true =>
      rw [hdry hcase, hheld.fileRow_eq, hcase, hisNew, if_pos rfl]
      cases m.files jar.filename with
      | none => rfl
      | some old => exact congrArg some hrecord
  | false =>
      rw [hstored hcase, if_neg Bool.false_ne_true, ← hrecord, ← hdigest]
      rfl

/-- `end` changes no row but that of the jar. -/
theorem spares_of_end {jar : JarFile} {s : TaskState} {row : Row FileCols} {digest : DigestCol}
    {db' : DigestDb} {results : Results}
    (hready : Ready words options.dryRun jar.filename s fs cs row)
    (hchanged : s.task.isFileUnchanged = false)
    (hdigest : jarDigest H s.task.digestMap = some digest)
    (hfinish : finish A H options jar s = some (db', results)) (hstored : stored db' = stored s.db)
    (hdry : options.dryRun = true → db' = s.db) :
    Spares options.dryRun jar.filename s.db db' := by
  cases hcase : options.dryRun with
  | true =>
      rw [hdry hcase]
      exact Spares.refl _ _ s.db
  | false =>
      rw [hcase] at hready
      obtain ⟨files, hupdate, rfl⟩ := finish_update hready hcase hchanged hdigest hfinish
      obtain ⟨hfound, hmarks⟩ := updateFile_stores hready hupdate (Marks.refl _ _)
      refine ⟨fun name hne => ?_, fun key _ => congrFun hstored key, hmarks.index, by simp, by simp,
        by simp⟩
      rw [hfound, Function.update_of_ne hne]

/-- `end` for a jar that was not skipped. -/
theorem turn_end (h : Valid words db fs cs) {jar : JarFile} {es : List (ReadEntry H)}
    {task : DigestTask} (hwork : AtWork options m jar es db task paid) :
    ∃ s' t' pay,
      turn A garbage options (db, r) (.working jar task [] : Stage H) = .returned (s', t') ∧
      Played garbage options words m (.jar jar es) (db, r) (.working jar task []) paid
        s' t' pay := by
  obtain ⟨row, hheld, hrecord⟩ := hwork.held
  have hready := hheld.ready h r
  obtain ⟨digest, db', fs', hdigest, hfinish, hvalid, hstored, -, hrow, hdry⟩ :=
    finish_spec A H options hready hwork.isFileUnchanged
  have hturn : turn A garbage options (db, r) (.working jar task [] : Stage H) =
      .returned ((db', reportJar options jar task.isNewJarFile (countJar r row.cols) row.cols
        digest), .done) := by
    simp only [turn, hfinish, Outcome.ofOption_some, Outcome.returned_bind]
  have hdigestOf : digest = digestOf H (gathered H options jar es m {}).digestMap := by
    rw [← hwork.digestMap]
    rw [jarDigest_eq] at hdigest
    exact (Option.some.inj hdigest).symm
  have hreport : ∀ results : Results, reportJar options jar task.isNewJarFile
      (countJar results row.cols) row.cols digest = reportJar options jar
        (m.files jar.filename).isNone (countJar results (countedJar H options jar es m {}))
        (countedJar H options jar es m {}) digest := by
    intro results
    rw [← hrecord, ← hwork.isNewJarFile]
    rfl
  have hdigested : digestInput H garbage options (m, {}) (.jar jar es) =
      digestEntries H options jar es m {} := by
    rw [digestInput, digestJar, hwork.changed]
  have hadds := adds_reportJar options jar (m.files jar.filename).isNone
    (countedJar H options jar es m {}) digest
  refine ⟨_, _, tally (reportJar options jar (m.files jar.filename).isNone
    (countJar {} (countedJar H options jar es m {})) (countedJar H options jar es m {}) digest),
    hturn, ⟨⟨fs', cs, hvalid⟩, .done ⟨?_, fun key hkey => ?_⟩ ?_, ?_, ?_, Nat.zero_le _,
      spares_of_end A options hready hwork.isFileUnchanged hdigest hfinish hstored hdry⟩⟩
  · rw [hdigested]
    refine (recorded_of_end options hheld hwork.isNewJarFile hrecord hdigestOf hdry hrow).trans ?_
    exact (Function.update_self jar.filename (recorded H options jar es m {}) m.files).symm
  · rw [hdigested]
    exact (congrFun hstored key).trans (hwork.classes key hkey)
  · rw [hdigested, hwork.paid]
    refine (hadds.tally_eq (gathered H options jar es m {}).results).symm.trans ?_
    rw [hdigestOf]
    rfl
  · rw [hreport]
    exact hadds.tally_eq r
  · change db'.files.autoIncrementIndex.length + 0 ≤ db.files.autoIncrementIndex.length + 0
    exact (ClassOutcomes.finish_size hfinish).le

/-- `end` for a jar that is skipped. -/
theorem turn_end_skipped (h : Valid words db fs cs) {jar : JarFile} {es : List (ReadEntry H)}
    {task : DigestTask} (hskipped : Skipped options m jar db task paid) :
    ∃ s' t' pay,
      turn A garbage options (db, r) (.working jar task [] : Stage H) = .returned (s', t') ∧
      Played garbage options words m (.jar jar es) (db, r) (.working jar task []) paid
        s' t' pay := by
  obtain ⟨row, hheld, hrecord⟩ := hskipped.held
  have hturn : turn A garbage options (db, r) (.working jar task [] : Stage H) =
      .returned ((db, skipJar options jar (unnamed row.cols) r), .done) := by
    simp only [turn, finish, hheld.lookup, hskipped.isFileUnchanged, Option.bind_eq_bind,
      Option.bind_some, if_true, Outcome.ofOption_some, Outcome.returned_bind]
    rfl
  have hdigested : digestInput H garbage options (m, {}) (.jar jar es) =
      (m, skipJar options jar (unnamed row.cols) {}) := by
    rw [digestInput, digestJar, hrecord]
  have hpaid : paid + tally (skipJar options jar (unnamed row.cols) {}) =
      tally (digestInput H garbage options (m, {}) (.jar jar es)).2 := by
    rw [hskipped.paid, zero_add, hdigested]
  refine ⟨_, _, tally (skipJar options jar (unnamed row.cols) {}), hturn, ⟨⟨fs, cs, h⟩,
    .done ?_ hpaid, (adds_skipJar options jar (unnamed row.cols)).tally_eq r, le_rfl, Nat.zero_le _,
    Spares.refl _ _ db⟩⟩
  rw [hdigested]
  exact hskipped.agree

/-- Every turn of a task is possible. -/
theorem turn_played (hw : Lexicon words) (h : Valid words db fs cs) {x : Input H}
    (hx : InputTexts garbage words x) (hkeeps : KeepsFiles H garbage options m x) {t : Stage H}
    (hat : Achieved garbage options m x db paid t) (hroom : fs.length + t.need < 2 ^ 64 - 1) :
    ∃ s' t' pay, turn A garbage options (db, r) t = .returned (s', t') ∧
      Played garbage options words m x (db, r) t paid s' t' pay := by
  cases hat with
  | waiting agree zero =>
      subst zero
      cases x with
      | classFile file => exact turn_classFile A garbage options hw h hroom hx hkeeps agree
      | jar jar es =>
          cases hfilter : (m.files jar.filename).filter (isFileUnchanged options jar false) with
          | some record => exact turn_start_skipped A garbage options h es agree hfilter
          | none => exact turn_start A garbage options hw h hroom hx.1 es agree hfilter
  | @working jar task before todo input work =>
      subst input
      cases todo with
      | nil =>
          rw [List.append_nil]
          exact turn_end A garbage options h work
      | cons e todo =>
          have hname := hx.2 e (List.mem_append_right before List.mem_cons_self)
          exact turn_entry A garbage options hw h hname work
  | skipped input skipped =>
      subst input
      exact turn_end_skipped A garbage options h skipped
  | done agree paid_eq =>
      refine ⟨_, _, 0, rfl, ⟨⟨fs, cs, h⟩, .done agree ?_, (add_zero _).symm, le_rfl,
        le_rfl, Spares.refl _ _ db⟩⟩
      rw [add_zero, paid_eq]

end Moves

section Outside
variable {H : Bytes → Sha256} {xs : List (Input H)} {m m' m'' : Maps}

/-- Only what belongs to the inputs differs. -/
structure Outside (xs : List (Input H)) (m m' : Maps) : Prop where
  files : ∀ name, (∀ x ∈ xs, name ≠ nameOf x) → m'.files name = m.files name
  classes : ∀ key, (∀ x ∈ xs, key ∉ keysOf (nameOf x)) → m'.classes key = m.classes key

theorem Outside.refl (xs : List (Input H)) (m : Maps) : Outside xs m m :=
  ⟨fun _ _ => rfl, fun _ _ => rfl⟩

/-- Maps that agree for every input are the same. -/
theorem Outside.maps_eq (h : Outside xs m m') (h' : Outside xs m m'')
    (hagree : ∀ x ∈ xs, AgreeOn (nameOf x) m' m'') : m' = m'' := by
  apply Maps.ext
  · funext name
    by_cases hname : ∀ x ∈ xs, name ≠ nameOf x
    · rw [h.files name hname, h'.files name hname]
    · push Not at hname
      obtain ⟨x, hx, rfl⟩ := hname
      exact (hagree x hx).files
  · funext key
    by_cases hkey : ∀ x ∈ xs, key ∉ keysOf (nameOf x)
    · rw [h.classes key hkey, h'.classes key hkey]
    · push Not at hkey
      obtain ⟨x, hx, hmem⟩ := hkey
      exact (hagree x hx).classes key hmem

variable (garbage : ℕ → UInt8) (options : Options)

/-- Inputs with separate names, one after the other: each does what it does
alone. -/
theorem digestAll_apart (hseparate : xs.Pairwise fun x y => Separate (nameOf x) (nameOf y))
    (m : Maps) (r : Results) :
    (∀ x ∈ xs, AgreeOn (nameOf x) (digestAll H garbage options (m, r) xs).1
        (digestInput H garbage options (m, {}) x).1) ∧
      Outside xs m (digestAll H garbage options (m, r) xs).1 ∧
      tally (digestAll H garbage options (m, r) xs).2 =
        tally r + (xs.map fun x => tally (digestInput H garbage options (m, {}) x).2).sum := by
  have hlocal : ∀ a ∈ xs.map (stepOf garbage options), a.Local := by
    intro a ha
    obtain ⟨x, -, rfl⟩ := List.mem_map.mp ha
    exact stepOf_local garbage options x
  have hapart : (xs.map (stepOf garbage options)).Pairwise FootprintSteps.Step.Apart :=
    List.pairwise_map.mpr (hseparate.imp (apart_of_separate garbage options))
  obtain ⟨hown, hframe, hpay⟩ := FootprintSteps.run_apart hlocal hapart (cells m, tally r)
  rw [digestAll_eq] at hown hframe hpay
  refine ⟨fun x hx => ⟨?_, fun key hkey => ?_⟩, ⟨fun name hname => ?_, fun key hkey => ?_⟩, ?_⟩
  · exact hown _ (List.mem_map_of_mem hx) (.inl (nameOf x)) (.inl rfl)
  · exact hown _ (List.mem_map_of_mem hx) (.inr key) (.inr ⟨key, hkey, rfl⟩)
  · refine hframe (.inl name) fun a ha hmem => ?_
    obtain ⟨x, hx, rfl⟩ := List.mem_map.mp ha
    rcases hmem with hsame | ⟨key, -, hsame⟩
    · exact hname x hx (Sum.inl.inj hsame)
    · cases hsame
  · refine hframe (.inr key) fun a ha hmem => ?_
    obtain ⟨x, hx, rfl⟩ := List.mem_map.mp ha
    rcases hmem with hsame | ⟨key', hkey', hsame⟩
    · cases hsame
    · rw [Sum.inr.inj hsame] at hkey
      exact hkey x hx hkey'
  · rw [List.map_map] at hpay
    exact hpay

end Outside

section Runs
variable (A A' : ∀ α : Type, Allocator α) {H : Bytes → Sha256} (garbage : ℕ → UInt8)
  (options : Options) {words : List Bytes} {db : DigestDb} {fs : List (Row FileCols)}
  {cs : List (Row ClassFileCols)} {xs : List (Input H)}

/-- How the turns of the tasks are judged. -/
def digestRules (words : List Bytes) (m : Maps) (xs : List (Input H)) :
    InterleavedThreads.Rules (Fin xs.length) (DigestDb × Results) (Stage H) Tally where
  Inv s := ∃ fs cs, Valid words s.1 fs cs ∧ Outside xs m (maps s.1)
  At i s t paid := Achieved garbage options m xs[i] s.1 paid t
  account s := tally s.2
  used s := s.1.files.autoIncrementIndex.length
  need t := t.need
  left t := t.left
  room := 2 ^ 64 - 2

theorem separate_of_ne (hseparate : xs.Pairwise fun x y => Separate (nameOf x) (nameOf y))
    {i j : Fin xs.length} (hne : i ≠ j) : Separate (nameOf xs[i]) (nameOf xs[j]) := by
  have hlt := List.pairwise_iff_getElem.mp hseparate
  rcases lt_or_gt_of_ne (Fin.val_ne_of_ne hne) with hij | hji
  · exact hlt i j i.isLt j.isLt hij
  · exact (hlt j i j.isLt i.isLt hji).symm

/-- Every turn leaves alone what the other tasks rely on. -/
theorem digest_obeys (hw : Lexicon words) (hxs : ∀ x ∈ xs, InputTexts garbage words x)
    (hseparate : xs.Pairwise fun x y => Separate (nameOf x) (nameOf y)) (m : Maps)
    (hkeeps : ∀ x ∈ xs, KeepsFiles H garbage options m x) :
    Obeys (turn A garbage options) (digestRules garbage options words m xs) := by
  rintro i ⟨db, r⟩ t paid ⟨fs, cs, hvalid, houtside⟩ hat hroom
  have hsmall : fs.length + t.need < 2 ^ 64 - 1 := by
    change db.files.autoIncrementIndex.length + t.need ≤ 2 ^ 64 - 2 at hroom
    rw [hvalid.files.length_eq] at hroom
    omega
  have hmem : xs[i] ∈ xs := List.getElem_mem i.isLt
  obtain ⟨s', t', pay, hturn, hplayed⟩ :=
    turn_played A garbage options hw hvalid (hxs _ hmem) (hkeeps _ hmem) hat hsmall
  obtain ⟨fs', cs', hvalid'⟩ := hplayed.valid
  refine ⟨s', t', pay, hturn, ⟨⟨fs', cs', hvalid', ?_⟩, hplayed.achieved, hplayed.account,
    hplayed.size, hplayed.left, fun j hne u paid hat' => ?_⟩⟩
  · refine ⟨fun name hname => ?_, fun key hkey => ?_⟩
    · have hsame := hplayed.spares.files name (hname _ hmem)
      exact (congrArg (Option.map _) hsame).trans (houtside.files name hname)
    · exact (hplayed.spares.classes key (hkey _ hmem)).trans
        (houtside.classes key hkey)
  · exact achieved_spared garbage options hat' hvalid hvalid' hplayed.spares
      (separate_of_ne hseparate hne)

theorem launched_standing (h : Valid words db fs cs)
    (hroom : fs.length + xs.length < 2 ^ 64 - 1) (r : Results) :
    Standing (digestRules garbage options words (maps db) xs) (tally r) (launched (db, r) xs)
      fun _ => 0 where
  inv := ⟨fs, cs, h, Outside.refl xs _⟩
  each i := .waiting ⟨rfl, fun _ _ => rfl⟩ rfl
  account := by rw [Finset.sum_const_zero, add_zero]; rfl
  room := by
    change db.files.autoIncrementIndex.length + ∑ _ : Fin xs.length, 1 ≤ 2 ^ 64 - 2
    rw [h.files.length_eq, Finset.sum_const, Finset.card_univ, Fintype.card_fin, smul_eq_mul]
    omega

theorem Stage.eq_done {t : Stage H} (h : t.left = 0) : t = .done := by
  cases t with
  | done => rfl
  | working jar task todo => cases h
  | waiting x => cases x <;> cases h

/-- However the threads take turns, no task throws, fails an assertion or loses
an update, as long as no record of a class file is overwritten: once every task
has had its turns, the database says what it says after one input at a time, and
the same is reported. -/
theorem tasks_in_any_interleaving (hw : Lexicon words) (h : Valid words db fs cs)
    (hxs : ∀ x ∈ xs, InputTexts garbage words x) (hroom : fs.length + xs.length < 2 ^ 64 - 1)
    (hseparate : xs.Pairwise fun x y => Separate (nameOf x) (nameOf y))
    (hkeeps : ∀ x ∈ xs, KeepsFiles H garbage options (maps db) x) (r : Results)
    (schedule : List (Fin xs.length)) :
    ∃ S, InterleavedThreads.run (turn A garbage options) (launched (db, r) xs) schedule =
        .returned S ∧
      (∃ fs' cs', Valid words S.shared.1 fs' cs') ∧
      ((∀ i : Fin xs.length, turnsOf xs[i] ≤ schedule.count i) →
        (∀ i, S.stages i = .done) ∧
        ∃ out, processAll A' garbage options (db, r) xs = .returned out ∧
          maps S.shared.1 = maps out.1 ∧ SameAccount out.2 S.shared.2) := by
  obtain ⟨S, paid, hrun, hstanding, hleft⟩ := (launched_standing garbage options h hroom r).run
    (digest_obeys A garbage options hw hxs hseparate (maps db) hkeeps) schedule
  obtain ⟨fs', cs', hvalid, houtside⟩ := hstanding.inv
  refine ⟨S, hrun, ⟨fs', cs', hvalid⟩, fun hturns => ?_⟩
  have hdone : ∀ i, S.stages i = .done := by
    intro i
    have hturned := hleft i
    change (S.stages i).left ≤ turnsOf xs[i] - schedule.count i at hturned
    have henough := hturns i
    exact Stage.eq_done (by omega)
  have heach : ∀ i : Fin xs.length, AgreeOn (nameOf xs[i]) (maps S.shared.1)
      (digestInput H garbage options (maps db, {}) xs[i]).1 ∧
        paid i = tally (digestInput H garbage options (maps db, {}) xs[i]).2 := by
    intro i
    have hat : Achieved garbage options (maps db) xs[i] S.shared.1 (paid i) (S.stages i) :=
      hstanding.each i
    rw [hdone i] at hat
    cases hat with
    | done agree paid_eq => exact ⟨agree, paid_eq⟩
  obtain ⟨db', r', fs₁, cs₁, hprocess, -, -, hdigested, -⟩ :=
    processAll_spec A' garbage options hw xs hxs h hroom r
      (throughout_of_separate hseparate hkeeps r)
  obtain ⟨hagree, houtside', htally⟩ := digestAll_apart garbage options hseparate (maps db) r
  rw [← hdigested] at hagree houtside' htally
  refine ⟨hdone, (db', r'), hprocess, ?_, sameAccount_iff.mpr ?_⟩
  · refine houtside.maps_eq houtside' fun x hx => ?_
    obtain ⟨i, hi, rfl⟩ := List.getElem_of_mem hx
    have hsame := hagree _ hx
    exact (heach ⟨i, hi⟩).1.trans ⟨hsame.files.symm, fun key hkey => (hsame.classes key hkey).symm⟩
  · have hsum : ∑ i, paid i =
        (xs.map fun x => tally (digestInput H garbage options (maps db, {}) x).2).sum := by
      rw [← Fin.sum_univ_fun_getElem]
      exact Finset.sum_congr rfl fun i _ => (heach i).2
    rw [htally, ← hsum]
    exact hstanding.account

end Runs

/-- The class file has its turn while the jar is at work. -/
theorem tasks_in_any_interleaving_sample :
    ∃ db S out, DigestDb.create = some db ∧
      InterleavedThreads.run (turn Allocator.next (fun _ => 0) { isDiff := true })
        (launched (db, {}) [.jar sampleJar [entryA], .classFile sampleFile]) [0, 1, 0, 0] =
          .returned S ∧
      (∀ i, S.stages i = .done) ∧
      processAll skipOne (fun _ => 0) { isDiff := true } (db, {})
        [.jar sampleJar [entryA], .classFile sampleFile] = .returned out ∧
      maps S.shared.1 = maps out.1 ∧ SameAccount out.2 S.shared.2 := by
  obtain ⟨db, hcreate, hvalid, -⟩ := create_valid ClassOutcomes.outcomeWords (by decide)
  have htexts : ∀ x ∈ [(Input.jar sampleJar [entryA] : Input sampleHash),
      .classFile sampleFile], InputTexts (fun _ => 0) ClassOutcomes.outcomeWords x := by
    simp only [List.forall_mem_cons, List.not_mem_nil, false_imp_iff, implies_true, and_true]
    refine ⟨⟨by decide, fun e he => ?_⟩, ClassOutcomes.inputTexts_sampleFile _⟩
    rw [List.mem_singleton.mp he]
    decide
  have hapart : Separate sampleJar.filename sampleFile.info.filename :=
    separate_of_not_mem (by decide) (by decide) (by decide)
  have hkeeps : ∀ x ∈ [(Input.jar sampleJar [entryA] : Input sampleHash), .classFile sampleFile],
      KeepsFiles sampleHash (fun _ => 0) { isDiff := true } (maps db) x := by
    simp only [List.forall_mem_cons, List.not_mem_nil, false_imp_iff, implies_true, and_true]
    exact ⟨trivial, keepsFiles_sampleFile _ _ _⟩
  obtain ⟨S, hrun, -, hend⟩ := tasks_in_any_interleaving Allocator.next skipOne (fun _ => 0)
    { isDiff := true } ClassOutcomes.lexicon_outcomeWords hvalid htexts (by decide)
    (List.pairwise_pair.mpr hapart) hkeeps {} [0, 1, 0, 0]
  obtain ⟨hdone, out, hprocess, hmaps, hresults⟩ := hend (Fin.forall_fin_two.mpr
    ⟨by decide, by decide⟩)
  exact ⟨db, S, out, hcreate, hrun, hdone, hprocess, hmaps, hresults⟩

end Tarracsh.DigestThreads
