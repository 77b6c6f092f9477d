import Tarracsh.SkippedJars
import Tarracsh.ClassVersions

/-!
# What a call-graph database says

`Contents` lists the files, the classes and the nodes of a database by their
texts. A node belongs to a class by the strong name of the class, and its key is
a function of the two. `Census` ties the tables to such contents: a file or a
class is appended, and a node takes the place of the one that has its key.
-/
namespace Tarracsh.GraphContents
open ByteStrings StringPool KeyedUpdates ParsedClass TableModel TableInvariant DomainTables
open CallGraphTables CallGraphInvariant SafeConsumption NodeHistory ClassVersions DigestTasks
open DigestSimulation

structure ClassName where
  strongClassname : Bytes
  classname : Bytes
  deriving DecidableEq, Repr

/-- A node with the strong name of its class. -/
structure Node where
  strongClassname : Bytes
  label : List Bytes
  deriving DecidableEq, Repr

/-- The key of a row that says this. -/
def Node.key (i : NodeTable) (x : Node) : Bytes :=
  x.strongClassname ++ ascii "#" ++ i.nameOf x.label

structure Contents where
  files : List Bytes
  classes : List ClassName
  nodes : NodeTable → List Node

/-- The nodes of a class that go to a table. -/
def nodesOf (strongClassname : Bytes) (i : NodeTable) (ts : List NodeTexts) : List Node :=
  (labelsIn i ts).map fun label => ⟨strongClassname, label⟩

namespace Contents

def empty : Contents := ⟨[], [], fun _ => []⟩

def addFile (C : Contents) (filename : Bytes) : Contents :=
  { C with files := C.files ++ [filename] }

def addClass (C : Contents) (c : ClassName) : Contents := { C with classes := C.classes ++ [c] }

/-- A new class with its nodes. -/
def analyse (C : Contents) (c : ClassName) (ts : List NodeTexts) : Contents :=
  { C.addClass c with
    nodes := fun i => replaceAll (Node.key i) (C.nodes i) (nodesOf c.strongClassname i ts) }

end Contents

section Interning

/-- The column is the offset under which the pool keeps its text. -/
def Canonical (pool : Pool) (s : StringCol) : Prop :=
  pool.hash.lookup (text pool s) = some s.toNat

/-- Every text stays, and every string keeps its offset. -/
structure Grown (pool pool' : Pool) : Prop where
  grows : Grows pool pool'
  lookup : ∀ s offset, pool.hash.lookup s = some offset → pool'.hash.lookup s = some offset

variable {words : List Bytes} {pool pool' pool'' : Pool}

theorem Grown.refl (pool : Pool) : Grown pool pool := ⟨fun _ _ hs => hs, fun _ _ hs => hs⟩

theorem Grown.trans (h : Grown pool pool') (h' : Grown pool' pool'') : Grown pool pool'' :=
  ⟨fun offset s hs => h'.grows offset s (h.grows offset s hs),
    fun s offset hs => h'.lookup s offset (h.lookup s offset hs)⟩

theorem text_of_lookup (h : Pooled words pool) {s : StringCol} {value : Bytes}
    (hs : pool.hash.lookup value = some s.toNat) : text pool s = value := by
  obtain ⟨strings, hholds, -⟩ := h
  rw [text, hholds.getCString_of_lookup hs]
  rfl

theorem canonical_of_lookup (h : Pooled words pool) {s : StringCol} {value : Bytes}
    (hs : pool.hash.lookup value = some s.toNat) : Canonical pool s := by
  rw [Canonical, text_of_lookup h hs, hs]

theorem Canonical.isSome {s : StringCol} (hs : Canonical pool s) (h : Pooled words pool) :
    (pool.getCString s.toNat).isSome := by
  obtain ⟨strings, hholds, -⟩ := h
  rw [hholds.getCString_of_lookup hs]
  rfl

theorem Canonical.grown {s : StringCol} (hs : Canonical pool s) (h : Pooled words pool)
    (hgrown : Grown pool pool') : Canonical pool' s := by
  rw [Canonical, hgrown.grows.text (hs.isSome h)]
  exact hgrown.lookup _ _ hs

theorem Canonical.eq_of_text_eq {s s' : StringCol} (hs : Canonical pool s)
    (hs' : Canonical pool s') (h : text pool s = text pool s') : s = s' := by
  rw [Canonical, h] at hs
  exact UInt64.toNat.inj (Option.some.inj (hs.symm.trans hs'))

theorem internalAdd_lookup {s : Bytes} {offset : ℕ}
    (h : pool.internalAdd s = some (pool', offset)) (hread : pool'.getCString offset = some s) :
    pool'.hash.lookup s = some offset ∧
      ∀ t o, pool.hash.lookup t = some o → pool'.hash.lookup t = some o := by
  unfold Pool.internalAdd at h
  cases hlookup : pool.hash.lookup s with
  | some found =>
      simp only [hlookup, Option.some.injEq, Prod.mk.injEq] at h
      obtain ⟨rfl, rfl⟩ := h
      exact ⟨hlookup, fun _ _ ht => ht⟩
  | none =>
      simp only [hlookup] at h
      split_ifs at h
      obtain ⟨key, hkey, h⟩ := Option.bind_eq_some_iff.mp h
      obtain ⟨rfl, rfl⟩ := Prod.mk.inj (Option.some.inj h)
      obtain rfl := Option.some.inj (hkey.symm.trans hread)
      refine ⟨AList.lookup_insert _, fun t o ht => ?_⟩
      have hne : t ≠ key := by
        rintro rfl
        rw [hlookup] at ht
        cases ht
      rw [← ht]
      exact AList.lookup_insert_ne hne

/-- Columns that hold the offsets of their texts. -/
theorem texts_of_lookups (h : Pooled words pool) {cols : List StringCol} {values : List Bytes}
    (hcols : List.Forall₂ (fun s value => pool.hash.lookup value = some s.toNat) cols values) :
    cols.map (text pool) = values ∧ ∀ s ∈ cols, Canonical pool s := by
  induction hcols with
  | nil => exact ⟨rfl, by simp⟩
  | cons hs _ ih =>
      refine ⟨by rw [List.map_cons, ih.1, text_of_lookup h hs], ?_⟩
      rw [List.forall_mem_cons]
      exact ⟨canonical_of_lookup h hs, ih.2⟩

/-- A string is interned. -/
theorem intern_spec (hw : Lexicon words) (h : Pooled words pool) {s : Bytes} (hs : s ∈ words) :
    ∃ pool' offset, pool.internalAdd s = some (pool', offset) ∧ Pooled words pool' ∧
      Grown pool pool' ∧ pool'.hash.lookup s = some (UInt64.ofNat offset).toNat := by
  obtain ⟨pool', offset, hadd, hpooled, hgrows, hread⟩ := h.internalAdd hw hs
  obtain ⟨hlookup, hkept⟩ := internalAdd_lookup hadd hread
  refine ⟨pool', offset, hadd, hpooled, ⟨hgrows, hkept⟩, ?_⟩
  rw [hpooled.toNat_ofNat hw hread, hlookup]

end Interning

/-- What a class row says. -/
def classOf (db : CallGraphDb) (r : ClassFileCols) : ClassName :=
  ⟨ClassFiles.getStrongClassname db.pool db.files r, text db.pool r.classname⟩

/-- What the row of a node says. -/
def nodeOf (db : CallGraphDb) (i : NodeTable) (r : NodeCols i) : Node :=
  ⟨db.getStrongClassname (i.ownerClass r).toNat, db.label i r⟩

theorem getKey_eq_key (db : CallGraphDb) (i : NodeTable) (r : NodeCols i) :
    db.getKey i r = (nodeOf db i r).key i := by
  rw [CallGraphDb.getKey_eq, CallGraphDb.strongName, Node.key, nodeOf,
    CallGraphDb.nameOf_label]

/-- No edge has been counted. -/
def Unlinked : ∀ i, NodeCols i → Prop
  | .methods => fun r => r.refCount = 0
  | .fields => fun r => r.refCount = 0
  | .classRefs => fun r => r.edgeCount = 0
  | .methodRefs => fun r => r.edgeCount = 0
  | .fieldRefs => fun r => r.edgeCount = 0

/-- A node table holds live rows of the first `n` classes that say what the list
says. -/
structure Listed (db : CallGraphDb) (n : ℕ) (i : NodeTable) (list : List Node)
    (rs : List (Row (NodeCols i))) : Prop where
  core : Core (db.layout i) (db.nodes i) rs
  filed : Filed (db.layout i) (db.nodes i) rs
  fresh : ∀ r ∈ rs, r.flags = 0 ∧ Unlinked i r.cols
  owned : ∀ r ∈ rs, (i.ownerClass r.cols).toNat < n
  canonical : ∀ r ∈ rs, ∀ s ∈ i.texts r.cols, Canonical db.pool s
  mem_iff : ∀ x, x ∈ rs.map (fun r => nodeOf db i r.cols) ↔ x ∈ list

/-- The tables of files, classes and nodes have the contents. -/
structure Census (words : List Bytes) (db : CallGraphDb) (fs : List (Row FileCols))
    (cs : List (Row ClassFileCols)) (C : Contents) : Prop where
  valid : Valid words ⟨db.pool, db.files, db.classfiles⟩ fs cs
  files : fs.map (fun f => text db.pool f.cols.filename) = C.files
  classes : cs.map (fun r => classOf db r.cols) = C.classes
  fresh : ∀ r ∈ cs, r.flags = 0 ∧ r.cols.refCount = 0 ∧ Canonical db.pool r.cols.classname
  nodes : ∀ i, ∃ rs, Listed db cs.length i (C.nodes i) rs

section Frames
variable {words : List Bytes} {db db' : CallGraphDb} {fs fs' : List (Row FileCols)}
  {cs cs' : List (Row ClassFileCols)} {C : Contents} {i : NodeTable}
  {rs : List (Row (NodeCols i))} {list : List Node} {n n' : ℕ}

/-- The rows say the same when the classes keep their strong names. -/
theorem Listed.frame (h : Listed db n i list rs) (hpooled : Pooled words db.pool)
    (hgrown : Grown db.pool db'.pool) (hn : n ≤ n')
    (hnodes : db'.nodes i = db.nodes i)
    (hstrong : ∀ o < n, db'.getStrongClassname o = db.getStrongClassname o) :
    Listed db' n' i list rs := by
  have hsame : ∀ r ∈ rs, nodeOf db' i r.cols = nodeOf db i r.cols := by
    intro r hr
    rw [nodeOf, nodeOf, hstrong _ (h.owned r hr), Node.mk.injEq]
    refine ⟨rfl, List.map_congr_left fun s hs => ?_⟩
    exact hgrown.grows.text ((h.canonical r hr s hs).isSome hpooled)
  constructor
  · rw [hnodes]
    exact h.core.rekey _
  · rw [hnodes]
    refine h.filed.rekey fun r hr => ?_
    rw [getKey_eq_key, getKey_eq_key, hsame r hr]
  · exact h.fresh
  · exact fun r hr => (h.owned r hr).trans_le hn
  · exact fun r hr s hs => (h.canonical r hr s hs).grown hpooled hgrown
  · intro x
    rw [List.map_congr_left hsame, h.mem_iff]

/-- The strong name of a stored class. -/
theorem Census.getStrongClassname_eq (h : Census words db fs cs C) (o : ℕ) :
    db.getStrongClassname o = ((C.classes[o]?).map fun c => c.strongClassname).getD [] := by
  have hrow : db.classfiles.getRow o = cs[o]? := h.valid.classes.getRow_eq o
  rw [CallGraphDb.getStrongClassname, hrow, ← h.classes, List.getElem?_map]
  cases cs[o]? <;> rfl

/-- Files and classes change, and the classes that are there say the same. -/
theorem Census.frame (h : Census words db fs cs C)
    (hvalid : Valid words ⟨db'.pool, db'.files, db'.classfiles⟩ fs' (cs ++ cs'))
    (hgrown : Grown db.pool db'.pool) (hnodes : db'.nodes = db.nodes)
    (hclasses : ∀ r ∈ cs, classOf db' r.cols = classOf db r.cols)
    (hfresh : ∀ r ∈ cs', r.flags = 0 ∧ r.cols.refCount = 0 ∧
      Canonical db'.pool r.cols.classname) :
    Census words db' fs' (cs ++ cs')
      { C with
        files := fs'.map fun f => text db'.pool f.cols.filename
        classes := C.classes ++ cs'.map fun r => classOf db' r.cols } := by
  have hclasses' : (cs ++ cs').map (fun r => classOf db' r.cols) =
      C.classes ++ cs'.map fun r => classOf db' r.cols := by
    rw [List.map_append, List.map_congr_left hclasses, h.classes]
  refine ⟨hvalid, rfl, hclasses', fun r hr => ?_, fun i => ?_⟩
  · rcases List.mem_append.mp hr with hr | hr
    · obtain ⟨hflags, hcount, hcanonical⟩ := h.fresh r hr
      exact ⟨hflags, hcount, hcanonical.grown h.valid.pooled hgrown⟩
    · exact hfresh r hr
  · obtain ⟨rs, hrs⟩ := h.nodes i
    refine ⟨rs, hrs.frame h.valid.pooled hgrown (by simp) (by rw [hnodes])
      fun o ho => ?_⟩
    have hrow : db.classfiles.getRow o = cs[o]? := h.valid.classes.getRow_eq o
    have hrow' : db'.classfiles.getRow o = (cs ++ cs')[o]? := hvalid.classes.getRow_eq o
    rw [List.getElem?_append_left ho, List.getElem?_eq_getElem ho] at hrow'
    rw [List.getElem?_eq_getElem ho] at hrow
    rw [CallGraphDb.getStrongClassname, CallGraphDb.getStrongClassname, hrow, hrow']
    exact congrArg ClassName.strongClassname (hclasses _ (List.getElem_mem ho))

/-- The contents name the files. -/
theorem Census.files_lookup (h : Census words db fs cs C) {filename : Bytes} :
    db.files.rows.lookup filename = none ↔ filename ∉ C.files := by
  have hfiled : ∀ p, db.files.rows.lookup filename = some p ↔ _ := h.valid.filedFiles filename
  rw [Option.eq_none_iff_forall_ne_some, ← h.files, List.mem_map]
  constructor
  · rintro hnone ⟨f, hf, hname⟩
    obtain ⟨k, hk⟩ := List.getElem?_of_mem hf
    obtain ⟨p, hp, -⟩ := h.valid.files.exists_of_row hk
    exact hnone p ((hfiled p).mpr ⟨k, f, hp, hk, hname⟩)
  · rintro hnot p hp
    obtain ⟨k, f, -, hf, hname⟩ := (hfiled p).mp hp
    exact hnot ⟨f, List.mem_of_getElem? hf, hname⟩

/-- The contents name the classes. -/
theorem Census.classes_lookup (h : Census words db fs cs C) {strong : Bytes} :
    db.classfiles.rows.lookup strong = none ↔
      strong ∉ C.classes.map fun c => c.strongClassname := by
  have hfiled : ∀ p, db.classfiles.rows.lookup strong = some p ↔ _ :=
    h.valid.filedClasses strong
  rw [Option.eq_none_iff_forall_ne_some, ← h.classes, List.map_map, List.mem_map]
  constructor
  · rintro hnone ⟨r, hr, hname⟩
    obtain ⟨k, hk⟩ := List.getElem?_of_mem hr
    obtain ⟨p, hp, -⟩ := h.valid.classes.exists_of_row hk
    exact hnone p ((hfiled p).mpr ⟨k, r, hp, hk, hname⟩)
  · rintro hnot p hp
    obtain ⟨k, r, -, hr, hname⟩ := (hfiled p).mp hp
    exact hnot ⟨r, List.mem_of_getElem? hr, hname⟩

/-- Rows of one table differ in what they say. -/
theorem Listed.nodup (h : Listed db n i list rs) : (rs.map fun r => nodeOf db i r.cols).Nodup := by
  rw [List.nodup_iff_injective_get]
  rintro ⟨j, hj⟩ ⟨k, hk⟩ hsame
  rw [List.length_map] at hj hk
  simp only [List.get_eq_getElem, List.getElem_map] at hsame
  obtain ⟨p, hp, -⟩ := h.core.exists_of_row (List.getElem?_eq_getElem hj)
  obtain ⟨q, hq, -⟩ := h.core.exists_of_row (List.getElem?_eq_getElem hk)
  have hkey : db.getKey i rs[j].cols = db.getKey i rs[k].cols := by
    rw [getKey_eq_key, getKey_eq_key, hsame]
  have hfound := (h.filed _ p).mpr ⟨j, _, hp, List.getElem?_eq_getElem hj, rfl⟩
  have hfound' := (h.filed _ q).mpr ⟨k, _, hq, List.getElem?_eq_getElem hk, hkey.symm⟩
  obtain rfl := Option.some.inj (hfound.symm.trans hfound')
  rw [Fin.mk.injEq]
  exact h.core.index_injective hp hq

theorem Listed.length_le (h : Listed db n i list rs) : rs.length ≤ list.length := by
  have hsub : (rs.map fun r => nodeOf db i r.cols) ⊆ list := fun x hx => (h.mem_iff x).mp hx
  have hlength := (List.subperm_of_subset h.nodup hsub).length_le
  rwa [List.length_map] at hlength

end Frames

section Recording
variable (A : ∀ α : Type, Allocator α) {words : List Bytes} {db : CallGraphDb}
  {fs : List (Row FileCols)} {cs : List (Row ClassFileCols)} {C : Contents}

/-- Pool and files change, and the files keep their names. -/
theorem Census.of_files (h : Census words db fs cs C) {pool : Pool} {files : Table FileCols}
    {fs' : List (Row FileCols)} (hpooled : Pooled words pool) (hgrown : Grown db.pool pool)
    (hcore : Core (Files.layout pool) files fs') (hfiled : Filed (Files.layout pool) files fs')
    (hnamed : ∀ f ∈ fs', (pool.getCString f.cols.filename.toNat).isSome)
    (hfiles : ∀ (i : ℕ) f, fs[i]? = some f → ∃ f', fs'[i]? = some f' ∧
      text pool f'.cols.filename = text pool f.cols.filename)
    (hsmall : fs'.length < 2 ^ 64 - 1) :
    Census words { db with pool := pool, files := files } fs' cs
      { C with files := fs'.map fun f => text pool f.cols.filename } := by
  have hvalid := (h.valid.of_files hpooled hgrown.grows hcore hfiled hnamed hfiles hsmall).1
  have hclasses : ∀ r ∈ cs,
      classOf { db with pool := pool, files := files } r.cols = classOf db r.cols := by
    intro r hr
    have hstrong := @DigestSimulation.getStrongClassname_eq _ _ _ _
      ⟨pool, files, db.classfiles⟩ h.valid hgrown.grows (fun i f hf => by
        obtain ⟨f', hf', hname⟩ := hfiles i f hf
        exact ⟨f', (hcore.getRow_eq i).trans hf', hname⟩) r hr
    rw [classOf, classOf, ClassName.mk.injEq]
    exact ⟨hstrong, hgrown.grows.text (h.valid.owned r hr).2⟩
  have hframe := @Census.frame words db { db with pool := pool, files := files } fs fs' cs [] C h
    (by simpa using hvalid) hgrown rfl hclasses (by simp)
  rwa [List.append_nil, List.map_nil, List.append_nil] at hframe

/-- The pool grows, and the contents stay. -/
theorem Census.withPool (h : Census words db fs cs C) {pool : Pool} (hpooled : Pooled words pool)
    (hgrown : Grown db.pool pool) : Census words { db with pool := pool } fs cs C := by
  have hnames : ∀ f ∈ fs, text pool f.cols.filename = text db.pool f.cols.filename :=
    fun f hf => hgrown.grows.text (h.valid.named f hf)
  have hcensus := h.of_files hpooled hgrown (h.valid.files.rekey _)
    (h.valid.filedFiles.rekey hnames) (fun f hf => hgrown.grows.isSome (h.valid.named f hf))
    (fun _ f hf => ⟨f, hf, rfl⟩) h.valid.small
  rwa [List.map_congr_left hnames, h.files] at hcensus

/-- A string is interned, and the contents stay. -/
theorem Census.getPoolString (hw : Lexicon words) (h : Census words db fs cs C) {s : Bytes}
    (hs : s ∈ words) :
    ∃ pool col, db.getPoolString s = some ({ db with pool := pool }, col) ∧
      Census words { db with pool := pool } fs cs C ∧ Grown db.pool pool ∧
      pool.hash.lookup s = some col.toNat := by
  obtain ⟨pool, offset, hadd, hpooled, hgrown, hlookup⟩ := intern_spec hw h.valid.pooled hs
  refine ⟨pool, UInt64.ofNat offset, ?_, h.withPool hpooled hgrown, hgrown, hlookup⟩
  simp only [CallGraphDb.getPoolString, hadd, Option.bind_eq_bind, Option.bind_some]

/-- A file gets a row. -/
theorem Census.addFile (h : Census words db fs cs C) {r : Row FileCols}
    {files : Table FileCols} {filename : Bytes}
    (hname : db.pool.hash.lookup filename = some r.cols.filename.toNat)
    (hroom : fs.length + 1 < 2 ^ 64 - 1)
    (heffect : Effect (Files.layout db.pool) db.files fs files
      (fs ++ [{ r with id := fs.length }]) fs.length fs.length) :
    Census words { db with files := files } (fs ++ [{ r with id := fs.length }]) cs
      (C.addFile filename) := by
  have hcensus := h.of_files h.valid.pooled (Grown.refl _) heffect.core
    (heffect.filed h.valid.filedFiles) (fun f hf => by
      rcases List.mem_append.mp hf with hf | hf
      · exact h.valid.named f hf
      · rw [List.mem_singleton.mp hf]
        exact (canonical_of_lookup h.valid.pooled hname).isSome h.valid.pooled)
    (fun i f hf => ⟨f, by
      rw [List.getElem?_append_left (List.getElem?_eq_some_iff.mp hf).1, hf], rfl⟩)
    (by simpa using hroom)
  rw [List.map_append, h.files, List.map_singleton, text_of_lookup h.valid.pooled hname] at hcensus
  exact hcensus

/-- A class gets a row. -/
theorem Census.addClass (h : Census words db fs cs C) {r : Row ClassFileCols}
    {classfiles : Table ClassFileCols} {f : Row FileCols} {filename classname : Bytes}
    (hfile : fs[r.cols.file.toNat]? = some f)
    (hfilename : text db.pool f.cols.filename = filename)
    (hclassname : db.pool.hash.lookup classname = some r.cols.classname.toNat)
    (hfresh : r.flags = 0 ∧ r.cols.refCount = 0)
    (heffect : Effect (ClassFiles.layout db.pool db.files) db.classfiles cs classfiles
      (cs ++ [{ r with id := cs.length }]) cs.length cs.length) :
    Census words { db with classfiles := classfiles } fs (cs ++ [{ r with id := cs.length }])
      (C.addClass ⟨DomainTables.getStrongClassname filename classname, classname⟩) := by
  have hcanonical := canonical_of_lookup h.valid.pooled hclassname
  have hvalid : Valid words ⟨db.pool, db.files, classfiles⟩ fs
      (cs ++ [{ r with id := cs.length }]) :=
    { h.valid with
      classes := heffect.core
      filedClasses := heffect.filed h.valid.filedClasses
      owned := by
        intro r hr
        rcases List.mem_append.mp hr with hr | hr
        · exact h.valid.owned r hr
        · rw [List.mem_singleton.mp hr]
          exact ⟨(List.getElem?_eq_some_iff.mp hfile).1, hcanonical.isSome h.valid.pooled⟩ }
  have hcensus := @Census.frame words db { db with classfiles := classfiles } fs fs cs
    [{ r with id := cs.length }] C h hvalid (Grown.refl _) rfl (fun _ _ => rfl) (by
      intro r hr
      rw [List.mem_singleton.mp hr]
      exact ⟨hfresh.1, hfresh.2, hcanonical⟩)
  have hclass : classOf { db with classfiles := classfiles } r.cols =
      ⟨DomainTables.getStrongClassname filename classname, classname⟩ := by
    have hrow : db.files.getRow r.cols.file.toNat = some f :=
      (h.valid.files.getRow_eq _).trans hfile
    rw [classOf, ClassFiles.getStrongClassname]
    simp only [hrow, hfilename, text_of_lookup h.valid.pooled hclassname]
  rw [h.files, List.map_singleton, hclass] at hcensus
  exact hcensus

/-- A node takes the place of the one with its key. -/
theorem Census.record (h : Census words db fs cs C) {i : NodeTable} {cols : NodeCols i} {o : ℕ}
    (ho : o < cs.length) (hsmall : o < 2 ^ 64) (howned : i.ownerClass cols = UInt64.ofNat o)
    (hunlinked : Unlinked i cols) (hcanonical : ∀ s ∈ i.texts cols, Canonical db.pool s) :
    ∃ nodes, db.record A i cols = some { db with nodes := nodes } ∧
      Census words { db with nodes := nodes } fs cs
        { C with
          nodes := Function.update C.nodes i
            (replace (Node.key i) (C.nodes i) ⟨db.getStrongClassname o, db.label i cols⟩) } := by
  obtain ⟨rs, hrs⟩ := h.nodes i
  obtain ⟨t, readId, id, m, rs', ht, heffect, -, hmem⟩ :=
    addOrUpdate_mem (A _) hrs.core hrs.filed (CallGraphDb.newRow cols)
  have htoNat : (i.ownerClass cols).toNat = o := by
    rw [howned, UInt64.toNat_ofNat', Nat.mod_eq_of_lt hsmall]
  have hnode : nodeOf db i cols = ⟨db.getStrongClassname o, db.label i cols⟩ := by
    rw [nodeOf, htoNat]
  have hkey : ∀ s : Row (NodeCols i), (db.layout i).getKey s.cols ≠ (db.layout i).getKey cols ↔
      (nodeOf db i s.cols).key i ≠ (nodeOf db i cols).key i := by
    intro s
    change db.getKey i s.cols ≠ db.getKey i cols ↔ _
    rw [getKey_eq_key, getKey_eq_key]
  refine ⟨Function.update db.nodes i t, ?_, h.valid, h.files, h.classes, h.fresh, fun j => ?_⟩
  · simp only [CallGraphDb.record, ht, Option.bind_eq_bind, Option.bind_some]
  by_cases hji : j = i
  · subst hji
    rw [← hnode]
    change ∃ rs, Listed _ cs.length j (Function.update C.nodes j _ j) rs
    rw [Function.update_self]
    refine ⟨rs', ?_, ?_, ?_, ?_, ?_, ?_⟩
    · rw [layout_nodes]
      change Core _ (Function.update db.nodes j t j) rs'
      rw [Function.update_self]
      exact heffect.core
    · rw [layout_nodes]
      change Filed _ (Function.update db.nodes j t j) rs'
      rw [Function.update_self]
      exact heffect.filed hrs.filed
    · intro s hs
      rcases (hmem s).mp hs with rfl | ⟨hs, -⟩
      · exact ⟨rfl, hunlinked⟩
      · exact hrs.fresh s hs
    · intro s hs
      rcases (hmem s).mp hs with rfl | ⟨hs, -⟩
      · exact htoNat.trans_lt ho
      · exact hrs.owned s hs
    · intro s hs
      rcases (hmem s).mp hs with rfl | ⟨hs, -⟩
      · exact hcanonical
      · exact hrs.canonical s hs
    · intro x
      rw [mem_replace, List.mem_map]
      constructor
      · rintro ⟨s, hs, rfl⟩
        rcases (hmem s).mp hs with rfl | ⟨hs, hne⟩
        · exact .inl rfl
        · exact .inr ⟨(hrs.mem_iff _).mp (List.mem_map_of_mem hs), (hkey s).mp hne⟩
      · rintro (rfl | ⟨hx, hne⟩)
        · exact ⟨_, (hmem _).mpr (.inl rfl), rfl⟩
        · obtain ⟨s, hs, rfl⟩ := List.mem_map.mp ((hrs.mem_iff x).mpr hx)
          exact ⟨s, (hmem s).mpr (.inr ⟨hs, (hkey s).mpr hne⟩), rfl⟩
  · change ∃ rs, Listed _ cs.length j (Function.update C.nodes i _ j) rs
    rw [Function.update_of_ne hji]
    obtain ⟨rs, hrs⟩ := h.nodes j
    exact ⟨rs, hrs.frame h.valid.pooled (Grown.refl _) le_rfl (Function.update_of_ne hji _ _)
      fun _ _ => rfl⟩

theorem Census.intern_two (hw : Lexicon words) (h : Census words db fs cs C) {a b : Bytes}
    (ha : a ∈ words) (hb : b ∈ words) :
    ∃ pool₁ pool₂ x y, db.getPoolString a = some ({ db with pool := pool₁ }, x) ∧
      CallGraphDb.getPoolString { db with pool := pool₁ } b =
        some ({ db with pool := pool₂ }, y) ∧
      Census words { db with pool := pool₂ } fs cs C ∧ Grown db.pool pool₂ ∧
      pool₂.hash.lookup a = some x.toNat ∧ pool₂.hash.lookup b = some y.toNat := by
  obtain ⟨pool₁, x, hx, h₁, hgrown₁, hlookup₁⟩ := h.getPoolString hw ha
  obtain ⟨pool₂, y, hy, h₂, hgrown₂, hlookup₂⟩ := h₁.getPoolString hw hb
  exact ⟨pool₁, pool₂, x, y, hx, hy, h₂, hgrown₁.trans hgrown₂, hgrown₂.lookup _ _ hlookup₁,
    hlookup₂⟩

theorem Census.intern_three (hw : Lexicon words) (h : Census words db fs cs C) {a b c : Bytes}
    (ha : a ∈ words) (hb : b ∈ words) (hc : c ∈ words) :
    ∃ pool₁ pool₂ pool₃ x y z, db.getPoolString a = some ({ db with pool := pool₁ }, x) ∧
      CallGraphDb.getPoolString { db with pool := pool₁ } b =
        some ({ db with pool := pool₂ }, y) ∧
      CallGraphDb.getPoolString { db with pool := pool₂ } c =
        some ({ db with pool := pool₃ }, z) ∧
      Census words { db with pool := pool₃ } fs cs C ∧ Grown db.pool pool₃ ∧
      pool₃.hash.lookup a = some x.toNat ∧ pool₃.hash.lookup b = some y.toNat ∧
      pool₃.hash.lookup c = some z.toNat := by
  obtain ⟨pool₁, x, hx, h₁, hgrown₁, hlookup₁⟩ := h.getPoolString hw ha
  obtain ⟨pool₂, pool₃, y, z, hy, hz, h₃, hgrown₂, hlookup₂, hlookup₃⟩ := h₁.intern_two hw hb hc
  exact ⟨pool₁, pool₂, pool₃, x, y, z, hx, hy, hz, h₃, hgrown₁.trans hgrown₂,
    hgrown₂.lookup _ _ hlookup₁, hlookup₂, hlookup₃⟩

/-- A node whose texts are interned first. -/
theorem Census.recordTexts_eq (hw : Lexicon words) (h : Census words db fs cs C) (o : ℕ)
    {t : NodeTexts} (ht : ∀ s ∈ labelOf t, s ∈ words) :
    ∃ pool cols, t.record A o db =
        CallGraphDb.record A { db with pool := pool } (tableOf t) cols ∧
      Census words { db with pool := pool } fs cs C ∧ Grown db.pool pool ∧
      (tableOf t).ownerClass cols = UInt64.ofNat o ∧ Unlinked (tableOf t) cols ∧
      List.Forall₂ (fun s value => pool.hash.lookup value = some s.toNat)
        ((tableOf t).texts cols) (labelOf t) := by
  cases t with
  | classRef name =>
      obtain ⟨pool, x, hx, h₁, hgrown, hlookup⟩ :=
        h.getPoolString hw (ht name (by simp [labelOf]))
      refine ⟨pool, { ownerClass := UInt64.ofNat o, name := x }, ?_, h₁, hgrown, rfl, rfl,
        .cons hlookup .nil⟩
      simp only [NodeTexts.record, hx, Option.bind_eq_bind, Option.bind_some, tableOf]
  | method name descriptor =>
      obtain ⟨pool₁, pool₂, x, y, hx, hy, h₂, hgrown, hlookupx, hlookupy⟩ :=
        h.intern_two hw (ht name (by simp [labelOf])) (ht descriptor (by simp [labelOf]))
      refine ⟨pool₂, { ownerClass := UInt64.ofNat o, name := x, descriptor := y }, ?_, h₂, hgrown,
        rfl, rfl, .cons hlookupx (.cons hlookupy .nil)⟩
      simp only [NodeTexts.record, hx, hy, Option.bind_eq_bind, Option.bind_some, tableOf]
  | field name descriptor =>
      obtain ⟨pool₁, pool₂, x, y, hx, hy, h₂, hgrown, hlookupx, hlookupy⟩ :=
        h.intern_two hw (ht name (by simp [labelOf])) (ht descriptor (by simp [labelOf]))
      refine ⟨pool₂, { ownerClass := UInt64.ofNat o, name := x, descriptor := y }, ?_, h₂, hgrown,
        rfl, rfl, .cons hlookupx (.cons hlookupy .nil)⟩
      simp only [NodeTexts.record, hx, hy, Option.bind_eq_bind, Option.bind_some, tableOf]
  | methodRef classname name descriptor =>
      obtain ⟨pool₁, pool₂, pool₃, x, y, z, hx, hy, hz, h₃, hgrown, hlookups⟩ :=
        h.intern_three hw (ht classname (by simp [labelOf])) (ht name (by simp [labelOf]))
          (ht descriptor (by simp [labelOf]))
      refine ⟨pool₃, { ownerClass := UInt64.ofNat o, classname := x, name := y, descriptor := z },
        ?_, h₃, hgrown, rfl, rfl, .cons hlookups.1 (.cons hlookups.2.1 (.cons hlookups.2.2 .nil))⟩
      simp only [NodeTexts.record, hx, hy, hz, Option.bind_eq_bind, Option.bind_some, tableOf]
  | fieldRef classname name descriptor =>
      obtain ⟨pool₁, pool₂, pool₃, x, y, z, hx, hy, hz, h₃, hgrown, hlookups⟩ :=
        h.intern_three hw (ht classname (by simp [labelOf])) (ht name (by simp [labelOf]))
          (ht descriptor (by simp [labelOf]))
      refine ⟨pool₃, { ownerClass := UInt64.ofNat o, classname := x, name := y, descriptor := z },
        ?_, h₃, hgrown, rfl, rfl, .cons hlookups.1 (.cons hlookups.2.1 (.cons hlookups.2.2 .nil))⟩
      simp only [NodeTexts.record, hx, hy, hz, Option.bind_eq_bind, Option.bind_some, tableOf]

/-- Recording the nodes of a stored class. -/
theorem Census.recordAll (hw : Lexicon words) (h : Census words db fs cs C) {o : ℕ}
    (ho : o < cs.length) (hsmall : o < 2 ^ 64) {ts : List NodeTexts}
    (hts : ∀ t ∈ ts, ∀ s ∈ labelOf t, s ∈ words) :
    ∃ pool nodes, ts.foldlM (fun db t => t.record A o db) db =
        some { db with pool := pool, nodes := nodes } ∧ Grown db.pool pool ∧
      Census words { db with pool := pool, nodes := nodes } fs cs
        { C with
          nodes := fun i => replaceAll (Node.key i) (C.nodes i)
            (nodesOf (db.getStrongClassname o) i ts) } := by
  induction ts generalizing db C with
  | nil => exact ⟨db.pool, db.nodes, rfl, Grown.refl _, h⟩
  | cons t ts ih =>
      obtain ⟨pool₁, cols, heq, h₁, hgrown₁, howned, hunlinked, htexts⟩ :=
        h.recordTexts_eq A hw o (hts t List.mem_cons_self)
      obtain ⟨hlabel, hcanonical⟩ := texts_of_lookups h₁.valid.pooled htexts
      obtain ⟨nodes₁, hrecord, h₂⟩ := h₁.record A ho hsmall howned hunlinked hcanonical
      have hstrong : CallGraphDb.getStrongClassname { db with pool := pool₁ } o =
          db.getStrongClassname o := by
        rw [h₁.getStrongClassname_eq, h.getStrongClassname_eq]
      have hstrong' : CallGraphDb.getStrongClassname { db with pool := pool₁, nodes := nodes₁ } o =
          db.getStrongClassname o := by
        rw [h₂.getStrongClassname_eq, h.getStrongClassname_eq]
      obtain ⟨pool₂, nodes₂, hrest, hgrown₂, h₃⟩ :=
        ih h₂ fun t' ht' => hts t' (List.mem_cons_of_mem t ht')
      refine ⟨pool₂, nodes₂, ?_, hgrown₁.trans hgrown₂, ?_⟩
      · rw [List.foldlM_cons, heq, hrecord]
        exact hrest
      · rw [hstrong', hstrong] at h₃
        refine cast (congrArg (Census words _ fs cs) ?_) h₃
        rw [Contents.mk.injEq]
        refine ⟨rfl, rfl, funext fun i => ?_⟩
        by_cases hi : tableOf t = i
        · subst hi
          have hnode : CallGraphDb.label { db with pool := pool₁ } (tableOf t) cols =
              labelOf t := hlabel
          simp [nodesOf, labelsIn, replaceAll, hnode]
        · simp [nodesOf, labelsIn, replaceAll, Function.update_of_ne (Ne.symm hi), hi]

/-- The latest class gets its nodes. -/
theorem Census.recordClass (hw : Lexicon words) {r : Row ClassFileCols} {name : ClassName}
    (h : Census words db fs (cs ++ [r]) (C.addClass name)) (hsmall : cs.length < 2 ^ 64)
    {ts : List NodeTexts} (hts : ∀ t ∈ ts, ∀ s ∈ labelOf t, s ∈ words) :
    ∃ pool nodes, ts.foldlM (fun db t => t.record A cs.length db) db =
        some { db with pool := pool, nodes := nodes } ∧ Grown db.pool pool ∧
      Census words { db with pool := pool, nodes := nodes } fs (cs ++ [r])
        (C.analyse name ts) := by
  have hlength : C.classes.length = cs.length := by
    have := congrArg List.length h.classes
    simpa [Contents.addClass, eq_comm] using this
  have hstrong : db.getStrongClassname cs.length = name.strongClassname := by
    rw [h.getStrongClassname_eq, ← hlength]
    simp [Contents.addClass]
  obtain ⟨pool, nodes, hrecord, hgrown, hcensus⟩ := h.recordAll A hw
    (by simp : cs.length < (cs ++ [r]).length) hsmall hts
  rw [hstrong] at hcensus
  exact ⟨pool, nodes, hrecord, hgrown, hcensus⟩

end Recording

end Tarracsh.GraphContents
