import Tarracsh.CallGraphAnalysis
import Tarracsh.NodeHistory
import Tarracsh.Reanalysis

/-!
# Call-graph databases in order

What every operation of the call-graph analyzer needs of the tables, whatever
files and classes were analysed before. Class rows may be archived and deleted,
so only the files are asked to be found under their names. Between analyses
`analyseClass` fails at the lookups in the constant pool and nowhere else.
-/
namespace Tarracsh.GraphSoundness
open ByteStrings StringPool ParsedClass TableModel TableInvariant DomainTables CallGraphTables
open CallGraphInvariant PoolAlignment ClassFileProcessor SafeConsumption JarEntries
open CallGraphAnalysis NodeHistory Reanalysis

/-- The tables are in order and every file is found under its name. -/
structure Sound (words : List Bytes) (db : CallGraphDb) (fs : List (Row FileCols)) : Prop where
  pooled : Pooled words db.pool
  files : Core (Files.layout db.pool) db.files fs
  filed : Filed (Files.layout db.pool) db.files fs
  named : ∀ f ∈ fs, (db.pool.getCString f.cols.filename.toNat).isSome
  classes : ∃ cs, Core ⟨ClassFiles.format, fun _ => []⟩ db.classfiles cs
  nodes : ∀ i, ∃ rs, Core ⟨i.format, fun _ => []⟩ (db.nodes i) rs

section Operations
variable (A : ∀ α : Type, Allocator α) {words : List Bytes} {db : CallGraphDb}
  {fs : List (Row FileCols)}

theorem Sound.grows (h : Sound words db fs) {pool : Pool} (hpooled : Pooled words pool)
    (hgrows : Grows db.pool pool) : Sound words { db with pool := pool } fs where
  pooled := hpooled
  files := h.files.rekey _
  filed := h.filed.rekey fun f hf => hgrows.text (h.named f hf)
  named f hf := hgrows.isSome (h.named f hf)
  classes := h.classes
  nodes := h.nodes

theorem Sound.getPoolString (hw : Lexicon words) (h : Sound words db fs) {s : Bytes}
    (hs : s ∈ words) : ∃ db' col, db.getPoolString s = some (db', col) ∧ Sound words db' fs := by
  obtain ⟨pool, col, hcol, hpooled, hgrows, -⟩ := getPoolString_spec hw h.pooled hs
  exact ⟨_, col, hcol db rfl, h.grows hpooled hgrows⟩

/-- A node goes into its table, whatever its key is. -/
theorem Sound.record (h : Sound words db fs) (i : NodeTable) (cols : NodeCols i) :
    ∃ db', db.record A i cols = some db' ∧ Sound words db' fs := by
  obtain ⟨rs, hrs⟩ := h.nodes i
  have hcore : Core (db.layout i) (db.nodes i) rs := hrs.rekey _
  obtain ⟨t, readId, hadd, rs', hcore'⟩ : ∃ t readId, ((db.nodes i).allocate (A _)
      (CallGraphDb.newRow cols)).1.addOrUpdate (db.layout i) (A _) ((db.nodes i).allocate (A _)
        (CallGraphDb.newRow cols)).2 = some (t, readId) ∧ ∃ rs', Core (db.layout i) t rs' := by
    rcases addOrUpdate_effect (A _) hcore (CallGraphDb.newRow cols) with
      ⟨-, t, hadd, heffect⟩ | ⟨q, id, m, t, readId, -, -, hadd, heffect, -⟩
    · exact ⟨t, _, hadd, _, heffect.core⟩
    · exact ⟨t, _, hadd, _, heffect.core⟩
  refine ⟨{ db with nodes := Function.update db.nodes i t }, ?_,
    ⟨h.pooled, h.files, h.filed, h.named, h.classes, fun j => ?_⟩⟩
  · simp only [CallGraphDb.record, Option.bind_eq_bind]
    rw [hadd]
    rfl
  · change ∃ rs, Core _ (Function.update db.nodes i t j) rs
    by_cases hj : j = i
    · subst hj
      rw [Function.update_self]
      exact ⟨rs', hcore'.rekey _⟩
    · rw [Function.update_of_ne hj]
      exact h.nodes j

theorem Sound.recordTexts (hw : Lexicon words) (h : Sound words db fs) (rowId : ℕ)
    {t : NodeTexts} (ht : ∀ s ∈ labelOf t, s ∈ words) :
    ∃ db', t.record A rowId db = some db' ∧ Sound words db' fs := by
  cases t with
  | method name descriptor =>
      obtain ⟨db₁, x, hx, h₁⟩ := h.getPoolString hw (ht name (by simp [labelOf]))
      obtain ⟨db₂, y, hy, h₂⟩ := h₁.getPoolString hw (ht descriptor (by simp [labelOf]))
      obtain ⟨db', hrecord, h'⟩ := h₂.record A .methods
        { ownerClass := UInt64.ofNat rowId, name := x, descriptor := y }
      exact ⟨db', by simp [NodeTexts.record, hx, hy, hrecord], h'⟩
  | field name descriptor =>
      obtain ⟨db₁, x, hx, h₁⟩ := h.getPoolString hw (ht name (by simp [labelOf]))
      obtain ⟨db₂, y, hy, h₂⟩ := h₁.getPoolString hw (ht descriptor (by simp [labelOf]))
      obtain ⟨db', hrecord, h'⟩ := h₂.record A .fields
        { ownerClass := UInt64.ofNat rowId, name := x, descriptor := y }
      exact ⟨db', by simp [NodeTexts.record, hx, hy, hrecord], h'⟩
  | classRef name =>
      obtain ⟨db₁, x, hx, h₁⟩ := h.getPoolString hw (ht name (by simp [labelOf]))
      obtain ⟨db', hrecord, h'⟩ := h₁.record A .classRefs
        { ownerClass := UInt64.ofNat rowId, name := x }
      exact ⟨db', by simp [NodeTexts.record, hx, hrecord], h'⟩
  | methodRef classname name descriptor =>
      obtain ⟨db₁, x, hx, h₁⟩ := h.getPoolString hw (ht classname (by simp [labelOf]))
      obtain ⟨db₂, y, hy, h₂⟩ := h₁.getPoolString hw (ht name (by simp [labelOf]))
      obtain ⟨db₃, z, hz, h₃⟩ := h₂.getPoolString hw (ht descriptor (by simp [labelOf]))
      obtain ⟨db', hrecord, h'⟩ := h₃.record A .methodRefs
        { ownerClass := UInt64.ofNat rowId, classname := x, name := y, descriptor := z }
      exact ⟨db', by simp [NodeTexts.record, hx, hy, hz, hrecord], h'⟩
  | fieldRef classname name descriptor =>
      obtain ⟨db₁, x, hx, h₁⟩ := h.getPoolString hw (ht classname (by simp [labelOf]))
      obtain ⟨db₂, y, hy, h₂⟩ := h₁.getPoolString hw (ht name (by simp [labelOf]))
      obtain ⟨db₃, z, hz, h₃⟩ := h₂.getPoolString hw (ht descriptor (by simp [labelOf]))
      obtain ⟨db', hrecord, h'⟩ := h₃.record A .fieldRefs
        { ownerClass := UInt64.ofNat rowId, classname := x, name := y, descriptor := z }
      exact ⟨db', by simp [NodeTexts.record, hx, hy, hz, hrecord], h'⟩

theorem Sound.recordAll (hw : Lexicon words) (h : Sound words db fs) (rowId : ℕ)
    {ts : List NodeTexts} (hts : ∀ t ∈ ts, ∀ s ∈ labelOf t, s ∈ words) :
    ∃ db', ts.foldlM (fun db t => t.record A rowId db) db = some db' ∧ Sound words db' fs := by
  induction ts generalizing db with
  | nil => exact ⟨db, rfl, h⟩
  | cons t ts ih =>
      obtain ⟨db₁, hrecord, h₁⟩ := h.recordTexts A hw rowId (hts t (by simp))
      obtain ⟨db', hrest, h'⟩ := ih h₁ fun a ha => hts a (by simp [ha])
      refine ⟨db', ?_, h'⟩
      rw [List.foldlM_cons, hrecord]
      exact hrest

/-- The file has a row with its name. -/
theorem Sound.storeFile (hw : Lexicon words) (h : Sound words db fs) (info : ClassFileInfo)
    (hmem : info.filename ∈ words) :
    ∃ db' fs' p f, storeFile A db info = some db' ∧ Sound words db' fs' ∧
      fs'.length ≤ fs.length + 1 ∧ db'.files.findByKey info.filename = some p ∧
      db'.files.heap.lookup p = some f ∧ fs'[f.id]? = some f ∧
      text db'.pool f.cols.filename = info.filename := by
  obtain ⟨pool, col, hcol, hpooled, hgrows, hread⟩ := getPoolString_spec hw h.pooled hmem
  have hs := h.grows hpooled hgrows
  let row : Row FileCols := CallGraphDb.newRow
    { filename := col, lastWriteTime := info.timestamp, fileSize := info.size,
      classfileCount := 1 }
  have hkey : (Files.layout pool).getKey row.cols = info.filename := by
    change text pool col = info.filename
    rw [text, hread]
    rfl
  obtain ⟨files, readId, id, m, fs', hadd, heffect, hmem', hlength, hrow⟩ : ∃ files readId id m fs',
      (db.files.allocate (A _) row).1.addOrUpdate (Files.layout pool) (A _)
        (db.files.allocate (A _) row).2 = some (files, readId) ∧
      Effect (Files.layout pool) db.files fs files fs' id m ∧
      (∀ f ∈ fs', f = { row with id := id } ∨ f ∈ fs) ∧ fs'.length ≤ fs.length + 1 ∧
      fs'[id]? = some { row with id := id } := by
    rcases addOrUpdate_effect (A _) hs.files row with
      ⟨-, files, hadd, heffect⟩ | ⟨q, id, m, files, readId, -, hq, hadd, heffect, -⟩
    · refine ⟨files, _, _, _, _, hadd, heffect, fun f hf => ?_, by simp, by simp⟩
      rcases List.mem_append.mp hf with hf | hf
      · exact .inr hf
      · exact .inl (List.mem_singleton.mp hf)
    · have hlt : id < fs.length := by
        rw [← hs.files.length_eq]
        exact (List.getElem?_eq_some_iff.mp hq).1
      refine ⟨files, readId, id, m, _, hadd, heffect, fun f hf => ?_, by simp, ?_⟩
      · exact (List.mem_or_eq_of_mem_set hf).symm
      · exact List.getElem?_set_self hlt
  obtain ⟨p, hp, hlookup⟩ := heffect.core.exists_of_row hrow
  refine ⟨{ db with pool := pool, files := files }, fs', p, { row with id := id }, ?_,
    ⟨hpooled, heffect.core, heffect.filed hs.filed, ?_, h.classes, h.nodes⟩, hlength, ?_, hlookup,
    hrow, hkey⟩
  · simp only [CallGraphAnalysis.storeFile, hcol db rfl, Option.bind_eq_bind, Option.bind_some]
    rw [hadd]
    rfl
  · intro f hf
    rcases hmem' f hf with rfl | hf
    · change (pool.getCString col.toNat).isSome
      rw [hread]
      rfl
    · exact hs.named f hf
  · exact (heffect.filed hs.filed _ p).mpr ⟨id, _, hp, hrow, hkey⟩

end Operations

section Analysis
variable (A : ∀ α : Type, Allocator α) {words : List Bytes} {db : GraphDb}
  {fs : List (Row FileCols)}

/-- After the retirement no class is found under the name. -/
theorem Sound.retireClass (h : Sound words db.toCallGraphDb fs)
    (hindex : ∀ i, db.ownerClassIndex i = ∅) (strong : Bytes) :
    ∃ classfiles, retireClass db strong = some { db with classfiles := classfiles } ∧
      Sound words { db.toCallGraphDb with classfiles := classfiles } fs ∧
      classfiles.rows.lookup strong = none := by
  obtain ⟨cs, hcs⟩ := h.classes
  cases hfound : db.classfiles.rows.lookup strong with
  | none =>
      refine ⟨db.classfiles, ?_, h, hfound⟩
      simp only [CallGraphAnalysis.retireClass, Table.findByKey, hfound]
  | some p =>
      obtain ⟨j, hj⟩ := List.getElem?_of_mem (hcs.rows _ _ hfound)
      obtain ⟨r, hr, hlookup⟩ := hcs.exists_of_index hj
      have hid := hcs.ids _ r hr
      obtain ⟨t, harchive, hcore, -, hnone⟩ := archiveRow_core hcs hfound
      obtain ⟨t', hdelete, heffect⟩ := deleteRow_effect hcore hr
      refine ⟨t', ?_, ⟨h.pooled, h.files, h.filed, h.named, ⟨_, heffect.core⟩, h.nodes⟩, ?_⟩
      · simp only [CallGraphAnalysis.retireClass, Table.findByKey, hfound, hlookup,
          Option.bind_eq_bind, Option.bind_some, deleteClass_eq hindex, harchive, hid, hdelete]
      · rw [(deleteRow_rows hdelete).1, hnone]

/-- The new class row has the name that was retired. -/
theorem Sound.addClassRow {db : CallGraphDb} (hw : Lexicon words) (h : Sound words db fs)
    (info : ClassFileInfo) {f : Row FileCols} (hf : fs[f.id]? = some f)
    (hname : text db.pool f.cols.filename = info.filename) (hsmall : fs.length < 2 ^ 64)
    {classname : Bytes} (hmem : classname ∈ words)
    (hfree : db.classfiles.rows.lookup
      (DomainTables.getStrongClassname info.filename classname) = none) :
    ∃ db' rowId, addClassRow A db f.id classname info = some (db', rowId) ∧
      Sound words db' fs := by
  obtain ⟨pool, col, hcol, hpooled, hgrows, hread⟩ := getPoolString_spec hw h.pooled hmem
  have hs := h.grows hpooled hgrows
  obtain ⟨cs, hcs⟩ := h.classes
  have hlt := (List.getElem?_eq_some_iff.mp hf).1
  let row : Row ClassFileCols := CallGraphDb.newRow
    { file := UInt64.ofNat f.id, classname := col, lastWriteTime := info.timestamp.toUInt64,
      size := info.size, crc := 0 }
  have hfile : row.cols.file.toNat = f.id := by
    change (UInt64.ofNat f.id).toNat = f.id
    rw [UInt64.toNat_ofNat', Nat.mod_eq_of_lt (by omega)]
  have hkey : (ClassFiles.layout pool db.files).getKey row.cols =
      DomainTables.getStrongClassname info.filename classname := by
    have hnamed := hgrows.text (h.named f (List.mem_of_getElem? hf))
    have hclass : text pool row.cols.classname = classname := by
      change text pool col = classname
      rw [text, hread]
      rfl
    change ClassFiles.getStrongClassname pool db.files row.cols = _
    simp only [ClassFiles.getStrongClassname, hfile, h.files.getRow_eq, hf, hnamed, hname, hclass]
  have hcore : Core (ClassFiles.layout pool db.files) db.classfiles cs := hcs.rekey _
  obtain ⟨classfiles, hadd, heffect⟩ := add_effect (A _) hcore row (by rw [hkey, hfree])
  refine ⟨{ db with pool := pool, classfiles := classfiles }, cs.length, ?_,
    ⟨hs.pooled, hs.files, hs.filed, hs.named, ⟨_, heffect.core.rekey _⟩, hs.nodes⟩⟩
  simp only [CallGraphAnalysis.addClassRow, hcol db rfl, Option.bind_eq_bind, Option.bind_some]
  rw [hadd]
  rfl

/-- A class whose lookups succeed is analysed. -/
theorem Sound.analyseClass (hw : Lexicon words) (h : Sound words db.toCallGraphDb fs)
    (hindex : ∀ i, db.ownerClassIndex i = ∅) (hsmall : fs.length + 1 < 2 ^ 64)
    (info : ClassFileInfo) (hfilename : info.filename ∈ words) {c : ClassFile}
    (hlaid : LaidOut (2 ^ 16) c.constantPool) {classname : Bytes}
    (hmain : getMainClassname c = some classname) (hclassname : classname ∈ words)
    {ts : List NodeTexts} (hextract : extractTexts c = some ts)
    (hts : ∀ t ∈ ts, ∀ s ∈ labelOf t, s ∈ words) :
    ∃ db' found fs', analyseClass A db info c = some (db', some found) ∧
      Sound words db'.toCallGraphDb fs' ∧ (∀ i, db'.ownerClassIndex i = ∅) := by
  obtain ⟨db₁, fs', p, f, hstore, h₁, hlength, hp, hlookup, hf, hname⟩ :=
    h.storeFile A hw info hfilename
  obtain ⟨classfiles, hretire, h₂, hfree⟩ := @Sound.retireClass words
    { db with toCallGraphDb := db₁ } fs' h₁ hindex
    (DomainTables.getStrongClassname info.filename classname)
  obtain ⟨db₃, rowId, hadd, h₃⟩ := h₂.addClassRow A hw info hf hname (by omega) hclassname hfree
  obtain ⟨db₄, hrecord, h₄⟩ := h₃.recordAll A hw rowId hts
  refine ⟨{ db with toCallGraphDb := db₄ },
    (DomainTables.getStrongClassname info.filename classname, (db₁.classfiles.findByKey
      (DomainTables.getStrongClassname info.filename classname)).isSome), fs', ?_, h₄, hindex⟩
  have hnodes := @extractNodes_eq A rowId _ hlaid db₃
  rw [hextract, Option.bind_some, hrecord] at hnodes
  simp only [CallGraphAnalysis.analyseClass, hstore, Option.bind_eq_bind, Option.bind_some, hp,
    hlookup, hmain, hretire, hadd, hnodes]

/-- No class is analysed without its lookups. -/
theorem Sound.lookups_of_analyseClass (hw : Lexicon words) (h : Sound words db.toCallGraphDb fs)
    (info : ClassFileInfo) (hfilename : info.filename ∈ words) {c : ClassFile}
    (hlaid : LaidOut (2 ^ 16) c.constantPool) {result : GraphDb × Option (Bytes × Bool)}
    (hanalyse : CallGraphAnalysis.analyseClass A db info c = some result) :
    (getMainClassname c).isSome ∧ (extractTexts c).isSome := by
  obtain ⟨db₁, fs', p, f, hstore, -, -, hp, hlookup, -⟩ := h.storeFile A hw info hfilename
  simp only [CallGraphAnalysis.analyseClass, hstore, Option.bind_eq_bind, Option.bind_some, hp,
    hlookup] at hanalyse
  obtain ⟨classname, hmain, hrest⟩ := Option.bind_eq_some_iff.mp hanalyse
  obtain ⟨db₂, -, hrest⟩ := Option.bind_eq_some_iff.mp hrest
  obtain ⟨⟨db₃, rowId⟩, -, hrest⟩ := Option.bind_eq_some_iff.mp hrest
  obtain ⟨db₄, hextract, -⟩ := Option.bind_eq_some_iff.mp hrest
  refine ⟨by rw [hmain]; rfl, ?_⟩
  rw [@extractNodes_eq A rowId _ hlaid db₃] at hextract
  obtain ⟨ts, hts, -⟩ := Option.bind_eq_some_iff.mp hextract
  rw [hts]
  rfl

end Analysis

/-- A new database. -/
theorem create_sound (words : List Bytes) (hnil : [] ∈ words) :
    ∃ db, GraphDb.create = some db ∧ (∀ i, db.ownerClassIndex i = ∅) ∧
      Sound words db.toCallGraphDb [] := by
  obtain ⟨pool, hpool, hpooled⟩ := construct_pooled hnil
  refine ⟨⟨⟨pool, Table.construct (Files.layout pool),
    Table.construct ⟨ClassFiles.format, fun _ => []⟩,
    fun i => Table.construct ⟨i.format, fun _ => []⟩⟩, fun _ => ∅⟩, ?_, fun _ => rfl, ?_⟩
  · simp [GraphDb.create, CallGraphDb.create, hpool]
  · exact ⟨hpooled, core_construct _, filed_construct _, by simp, ⟨[], core_construct _⟩,
      fun i => ⟨[], core_construct _⟩⟩

end Tarracsh.GraphSoundness
