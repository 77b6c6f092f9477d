import Tarracsh.ProgramAnalysis
import Tarracsh.LinkExactness

/-!
# The call graph of a program

The vertices are the classes and the nodes of a program, by their texts. Of the
nodes of a table that have one class and one name only the last one analysed is
a vertex, so a method is lost if another one overloads it. An edge leads from a
reference to every class of that name, or to every member of a class of that
name with the name and the descriptor of the reference. Linking the database of
a program gives each of these edges once and counts it at both ends.
-/
namespace Tarracsh.ProgramGraph
open ByteStrings StringPool KeyedUpdates TableModel TableInvariant DomainTables CallGraphTables
open CallGraphInvariant CallGraphLinking CountedLoops LinkPasses LinkIndexes LinkJoins LinkRuns
open LinkExactness SafeConsumption CallGraphAnalysis Reporting GraphContents ProgramAnalysis

/-- A class or a node, by its texts. -/
inductive Vertex where
  | classfile (c : ClassName)
  | node (i : NodeTable) (x : Node)
  deriving DecidableEq, Repr

/-- The table of a node. -/
def Vertex.table : Vertex → Option NodeTable
  | .classfile _ => none
  | .node i _ => some i

section Graph
variable (C : Contents)

inductive IsVertex : Vertex → Prop
  | classfile {c : ClassName} : c ∈ C.classes → IsVertex (.classfile c)
  | node {i : NodeTable} {x : Node} : x ∈ C.nodes i → IsVertex (.node i x)

/-- The reference names the class, or the member of a class. -/
inductive Refers : Vertex → Vertex → Prop
  | toClass {x : Node} {c : ClassName} : x ∈ C.nodes .classRefs → c ∈ C.classes →
      x.label = [c.classname] → Refers (.node .classRefs x) (.classfile c)
  | toMethod {x y : Node} {c : ClassName} : x ∈ C.nodes .methodRefs → y ∈ C.nodes .methods →
      c ∈ C.classes → c.strongClassname = y.strongClassname → x.label = c.classname :: y.label →
      Refers (.node .methodRefs x) (.node .methods y)
  | toField {x y : Node} {c : ClassName} : x ∈ C.nodes .fieldRefs → y ∈ C.nodes .fields →
      c ∈ C.classes → c.strongClassname = y.strongClassname → x.label = c.classname :: y.label →
      Refers (.node .fieldRefs x) (.node .fields y)

end Graph

section Reading

def liveRows {α : Type} (t : Table α) : List (Row α) :=
  (t.autoIncrementIndex.filterMap t.heap.lookup).filter fun r => !r.isDeleted

/-- The edges that lead to a member, and those that leave a reference. -/
def edgesCounted : ∀ i, NodeCols i → UInt64
  | .methods => MethodCols.refCount
  | .fields => FieldCols.refCount
  | .classRefs => ClassRefCols.edgeCount
  | .methodRefs => MethodRefCols.edgeCount
  | .fieldRefs => MethodRefCols.edgeCount

variable (db : LinkDb)

def classVertex (r : Row ClassFileCols) : Vertex := .classfile (classOf db.toCallGraphDb r.cols)

def nodeVertex (i : NodeTable) (r : Row (NodeCols i)) : Vertex :=
  .node i (nodeOf db.toCallGraphDb i r.cols)

/-- The vertices with the edges that their rows count. -/
def verticesOf : List (Vertex × ℕ) :=
  (liveRows db.classfiles).map (fun r => (classVertex db r, r.cols.refCount.toNat)) ++
    [NodeTable.methods, .fields, .classRefs, .methodRefs, .fieldRefs].flatMap fun i =>
      (liveRows (db.nodes i)).map fun r => (nodeVertex db i r, (edgesCounted i r.cols).toNat)

def classAt (id : RefCol) : Option Vertex := (db.classfiles.getRow id.toNat).map (classVertex db)

def nodeAt (i : NodeTable) (id : RefCol) : Option Vertex :=
  ((db.nodes i).getRow id.toNat).map (nodeVertex db i)

/-- The two ends of an edge. -/
def endsOf (source target : RefCol → Option Vertex) (e : Row EdgeCols) :
    Option (Vertex × Vertex) := do
  some (← source e.cols.fromId, ← target e.cols.toId)

def edgesOf : List (Option (Vertex × Vertex)) :=
  (liveRows (db.edges .classRefEdges)).map (endsOf (nodeAt db .classRefs) (classAt db)) ++
  (liveRows (db.edges .methodRefEdges)).map (endsOf (nodeAt db .methodRefs) (nodeAt db .methods)) ++
  (liveRows (db.edges .fieldRefEdges)).map (endsOf (nodeAt db .fieldRefs) (nodeAt db .fields))

/-- The tables show the call graph of the contents. -/
structure ShowsGraph (C : Contents) : Prop where
  vertices : ∀ v, v ∈ (verticesOf db).map Prod.fst ↔ IsVertex C v
  distinct : ((verticesOf db).map Prod.fst).Nodup
  edges : ∃ es : List (Vertex × Vertex), edgesOf db = es.map some ∧ es.Nodup ∧
    (∀ e, e ∈ es ↔ Refers C e.1 e.2) ∧
    ∀ v ∈ verticesOf db, v.2 = es.countP fun e => e.1 = v.1 ∨ e.2 = v.1

end Reading

section Kinds
variable {ρ τ : Type} {matching : Row ρ → Row τ → Prop} {owner : ρ → RefCol}
  {edgeCount : ρ → UInt64} {refCount : τ → UInt64} {rs : List (Row ρ)} {ts : List (Row τ)}
  {es : List (Row EdgeCols)} {source target : RefCol → Option Vertex} {f : Row ρ → Vertex}
  {g : Row τ → Vertex}

theorem exists_map_some {α β : Type} {h : α → Option β} {list : List α}
    (hh : ∀ a ∈ list, (h a).isSome) : ∃ bs : List β, list.map h = bs.map some := by
  refine ⟨list.filterMap h, ?_⟩
  induction list with
  | nil => rfl
  | cons a list ih =>
      rw [List.forall_mem_cons] at hh
      obtain ⟨b, hb⟩ := Option.isSome_iff_exists.mp hh.1
      rw [List.map_cons, List.filterMap_cons_some hb, List.map_cons, ih hh.2, hb]

/-- Rows are found under their ids, and no two of them are one vertex. -/
structure Located {α : Type} (rows : List (Row α)) (at_ : RefCol → Option Vertex)
    (vertex : Row α → Vertex) : Prop where
  live : ∀ r ∈ rows, r.isDeleted = false ∧ r.id < 2 ^ 64
  found : ∀ r ∈ rows, at_ (UInt64.ofNat r.id) = some (vertex r)
  injective : ∀ r ∈ rows, ∀ r' ∈ rows, vertex r = vertex r' → r = r'

theorem ends_of_mem (h : Linked matching owner edgeCount refCount rs ts es)
    (hrs : Located rs source f) (hts : Located ts target g) {e : Row EdgeCols} (he : e ∈ es) :
    ∃ r ∈ rs, ∃ t ∈ ts, matching r t ∧ e.cols.fromId.toNat = r.id ∧ e.cols.toId.toNat = t.id ∧
      e.cols.ownerClass = owner r.cols ∧ endsOf source target e = some (f r, g t) := by
  obtain ⟨-, r, hr, t, ht, -, -, hmatching, hcols⟩ := h.only e he
  have hfrom : e.cols.fromId = UInt64.ofNat r.id := by rw [hcols, edgeOf]
  have hto : e.cols.toId = UInt64.ofNat t.id := by rw [hcols, edgeOf]
  refine ⟨r, hr, t, ht, hmatching, ?_, ?_, by rw [hcols, edgeOf], ?_⟩
  · rw [hfrom, UInt64.toNat_ofNat', Nat.mod_eq_of_lt (hrs.live r hr).2]
  · rw [hto, UInt64.toNat_ofNat', Nat.mod_eq_of_lt (hts.live t ht).2]
  · rw [endsOf, hfrom, hto, hrs.found r hr, hts.found t ht]
    rfl

/-- The ends tell the edges of one kind apart. -/
theorem nodup_ids (h : Linked matching owner edgeCount refCount rs ts es)
    (hrs : Located rs source f) (hts : Located ts target g) :
    (es.map fun e => (e.cols.fromId.toNat, e.cols.toId.toNat)).Nodup := by
  rw [List.nodup_iff_count_le_one]
  rintro ⟨a, b⟩
  have hcount : (es.map fun e => (e.cols.fromId.toNat, e.cols.toId.toNat)).count (a, b) =
      es.countP fun e => e.cols.fromId.toNat = a ∧ e.cols.toId.toNat = b := by
    rw [List.count, List.countP_map]
    apply List.countP_congr
    intro e _
    simp
  rw [hcount]
  rcases Nat.eq_zero_or_pos (es.countP fun e =>
    e.cols.fromId.toNat = a ∧ e.cols.toId.toNat = b) with hzero | hpos
  · omega
  · obtain ⟨e, he, hends⟩ := List.countP_pos_iff.mp hpos
    rw [decide_eq_true_eq] at hends
    obtain ⟨r, hr, t, ht, hmatching, hfrom, hto, -⟩ := ends_of_mem h hrs hts he
    obtain rfl : r.id = a := hfrom.symm.trans hends.1
    obtain rfl : t.id = b := hto.symm.trans hends.2
    exact (h.one r hr t ht (hrs.live r hr).1 (hts.live t ht).1 hmatching).le

/-- What the edges of one kind join. -/
theorem ends_of_linked (h : Linked matching owner edgeCount refCount rs ts es)
    (hrs : Located rs source f) (hts : Located ts target g) :
    ∃ ps : List (Vertex × Vertex), es.map (endsOf source target) = ps.map some ∧ ps.Nodup ∧
      (∀ p, p ∈ ps ↔ ∃ r ∈ rs, ∃ t ∈ ts, matching r t ∧ p = (f r, g t)) ∧
      (∀ r ∈ rs, (edgeCount r.cols).toNat = ps.countP fun p => p.1 = f r) ∧
      ∀ t ∈ ts, (refCount t.cols).toNat = ps.countP fun p => p.2 = g t := by
  have hsome : ∀ e ∈ es, (endsOf source target e).isSome := by
    intro e he
    obtain ⟨r, -, t, -, -, -, -, -, hends⟩ := ends_of_mem h hrs hts he
    rw [hends]
    rfl
  obtain ⟨ps, hps⟩ := exists_map_some hsome
  have hcount : ∀ (P : Vertex × Vertex → Prop) [DecidablePred P] (Q : Row EdgeCols → Prop)
      [DecidablePred Q], (∀ e ∈ es, ∀ p, endsOf source target e = some p → (Q e ↔ P p)) →
      (es.countP fun e => Q e) = ps.countP fun p => P p := by
    intro P _ Q _ hPQ
    have hmap := congrArg (List.countP fun o => o.any fun p => decide (P p)) hps
    rw [List.countP_map, List.countP_map] at hmap
    refine Eq.trans (List.countP_congr fun e he => ?_) hmap
    obtain ⟨r, -, t, -, -, -, -, -, hends⟩ := ends_of_mem h hrs hts he
    simp [hends, hPQ e he _ hends]
  have hmem : ∀ p, p ∈ ps ↔ ∃ e ∈ es, endsOf source target e = some p := by
    intro p
    have hsome : some p ∈ ps.map some ↔ p ∈ ps := by simp
    rw [← hsome, ← hps, List.mem_map]
  refine ⟨ps, hps, ?_, fun p => (hmem p).trans ⟨?_, ?_⟩, fun r hr => ?_, fun t ht => ?_⟩
  · apply List.Nodup.of_map some
    rw [← hps]
    have hids := nodup_ids h hrs hts
    apply List.Nodup.map_on _ (List.Nodup.of_map _ hids)
    intro e he e' he' heq
    obtain ⟨r, hr, t, ht, -, hfrom, hto, -, hends⟩ := ends_of_mem h hrs hts he
    obtain ⟨r', hr', t', ht', -, hfrom', hto', -, hends'⟩ := ends_of_mem h hrs hts he'
    rw [hends, hends', Option.some.injEq, Prod.mk.injEq] at heq
    obtain rfl := hrs.injective r hr r' hr' heq.1
    obtain rfl := hts.injective t ht t' ht' heq.2
    exact List.inj_on_of_nodup_map hids he he' (by rw [hfrom, hto, hfrom', hto'])
  · rintro ⟨e, he, hends⟩
    obtain ⟨r, hr, t, ht, hmatching, -, -, -, hends'⟩ := ends_of_mem h hrs hts he
    exact ⟨r, hr, t, ht, hmatching, Option.some.inj (hends.symm.trans hends')⟩
  · rintro ⟨r, hr, t, ht, hmatching, rfl⟩
    have hone := h.one r hr t ht (hrs.live r hr).1 (hts.live t ht).1 hmatching
    obtain ⟨e, he, hids⟩ := List.countP_pos_iff.mp (hone.symm ▸ Nat.one_pos)
    rw [decide_eq_true_eq] at hids
    have hfrom : e.cols.fromId = UInt64.ofNat r.id := by rw [← hids.1, UInt64.ofNat_toNat]
    have hto : e.cols.toId = UInt64.ofNat t.id := by rw [← hids.2, UInt64.ofNat_toNat]
    refine ⟨e, he, ?_⟩
    rw [endsOf, hfrom, hto, hrs.found r hr, hts.found t ht]
    rfl
  · rw [h.edgeCounts r hr]
    apply hcount
    intro e he p hends
    obtain ⟨r', hr', t', -, -, hfrom, -, -, hends'⟩ := ends_of_mem h hrs hts he
    obtain rfl := Option.some.inj (hends.symm.trans hends')
    rw [hfrom]
    constructor
    · intro hid
      have hfound := hrs.found r' hr'
      rw [hid, hrs.found r hr] at hfound
      exact (Option.some.inj hfound).symm
    · intro hvertex
      rw [hrs.injective r' hr' r hr hvertex]
  · rw [h.refCounts t ht]
    apply hcount
    intro e he p hends
    obtain ⟨r', -, t', ht', -, -, hto, -, hends'⟩ := ends_of_mem h hrs hts he
    obtain rfl := Option.some.inj (hends.symm.trans hends')
    rw [hto]
    constructor
    · intro hid
      have hfound := hts.found t' ht'
      rw [hid, hts.found t ht] at hfound
      exact (Option.some.inj hfound).symm
    · intro hvertex
      rw [hts.injective t' ht' t ht hvertex]

end Kinds

section Tables
variable {α : Type} {L : Layout α} {t : Table α} {rows : List (Row α)} {vertex : Row α → Vertex}

theorem liveRows_eq (hc : Core L t rows) (hlive : ∀ r ∈ rows, r.isDeleted = false) :
    liveRows t = rows := by
  have hrows : t.autoIncrementIndex.filterMap t.heap.lookup = rows := by
    have hheap := congrArg (List.filterMap id) hc.heap
    rw [List.filterMap_map, List.filterMap_map] at hheap
    exact hheap.trans List.filterMap_some
  rw [liveRows, hrows, List.filter_eq_self]
  intro r hr
  rw [hlive r hr]
  rfl

theorem located (hc : Core L t rows) (hlt : rows.length < 2 ^ 64)
    (hlive : ∀ r ∈ rows, r.isDeleted = false) (hnodup : (rows.map vertex).Nodup) :
    Located rows (fun id => (t.getRow id.toNat).map vertex) vertex where
  live r hr := by
    obtain ⟨i, hi⟩ := List.getElem?_of_mem hr
    have hilt := (List.getElem?_eq_some_iff.mp hi).1
    have hid := hc.ids i r hi
    exact ⟨hlive r hr, by omega⟩
  found r hr := by
    obtain ⟨i, hi⟩ := List.getElem?_of_mem hr
    have hilt := (List.getElem?_eq_some_iff.mp hi).1
    rw [hc.ids i r hi, UInt64.toNat_ofNat', Nat.mod_eq_of_lt (by omega), hc.getRow_eq, hi]
    rfl
  injective r hr r' hr' := List.inj_on_of_nodup_map hnodup hr hr'

end Tables

/-- The rows of the database say what the contents list. -/
structure Reads (db : LinkDb) (R : Rows) (C : Contents) : Prop where
  stored : Stored db R
  small : R.Small
  liveClasses : ∀ r ∈ R.classfiles, r.isDeleted = false
  liveNodes : ∀ i, ∀ r ∈ R.nodes i, r.isDeleted = false
  classes : R.classfiles.map (fun r => classOf db.toCallGraphDb r.cols) = C.classes
  distinct : (C.classes.map fun c => c.strongClassname).Nodup
  nodes : ∀ i x, x ∈ (R.nodes i).map (fun r => nodeOf db.toCallGraphDb i r.cols) ↔ x ∈ C.nodes i
  nodup : ∀ i, ((R.nodes i).map fun r => nodeOf db.toCallGraphDb i r.cols).Nodup
  owned : ∀ i, ∀ r ∈ R.nodes i, (i.ownerClass r.cols).toNat < R.classfiles.length

namespace Reads
variable {db : LinkDb} {R : Rows} {C : Contents}

theorem nodup_classes (h : Reads db R C) : (R.classfiles.map (classVertex db)).Nodup := by
  have hmap : R.classfiles.map (classVertex db) = C.classes.map Vertex.classfile := by
    rw [← h.classes, List.map_map]
    rfl
  rw [hmap]
  exact (List.Nodup.of_map _ h.distinct).map fun a b hab => Vertex.classfile.inj hab

theorem nodup_nodes (h : Reads db R C) (i : NodeTable) :
    ((R.nodes i).map (nodeVertex db i)).Nodup := by
  have hmap : (R.nodes i).map (nodeVertex db i) =
      ((R.nodes i).map fun r => nodeOf db.toCallGraphDb i r.cols).map (Vertex.node i) := by
    rw [List.map_map]
    rfl
  rw [hmap]
  exact (h.nodup i).map fun a b hab => (Vertex.node.inj hab).2

theorem locatedClasses (h : Reads db R C) :
    Located R.classfiles (classAt db) (classVertex db) :=
  located h.stored.classfiles (h.small.1.trans (by norm_num)) h.liveClasses h.nodup_classes

theorem locatedNodes (h : Reads db R C) (i : NodeTable) :
    Located (R.nodes i) (nodeAt db i) (nodeVertex db i) :=
  located (h.stored.nodes i) ((h.small.2 i).trans (by norm_num)) (h.liveNodes i) (h.nodup_nodes i)

/-- The strong name of a node is that of the row of its class. -/
theorem owner_spec (h : Reads db R C) {i : NodeTable} {r : Row (NodeCols i)} (hr : r ∈ R.nodes i) :
    ∃ owner, R.classfiles[(i.ownerClass r.cols).toNat]? = some owner ∧
      (classOf db.toCallGraphDb owner.cols).strongClassname =
        (nodeOf db.toCallGraphDb i r.cols).strongClassname ∧
      classOf db.toCallGraphDb owner.cols ∈ C.classes := by
  have hlt := h.owned i r hr
  refine ⟨_, List.getElem?_eq_getElem hlt, ?_, ?_⟩
  · have hrow : db.classfiles.getRow (i.ownerClass r.cols).toNat = _ :=
      (h.stored.classfiles.getRow_eq _).trans (List.getElem?_eq_getElem hlt)
    rw [nodeOf, CallGraphDb.getStrongClassname, hrow]
    rfl
  · rw [← h.classes]
    exact List.mem_map_of_mem (f := fun r => classOf db.toCallGraphDb r.cols)
      (List.getElem_mem hlt)

/-- The class references and the classes that they name. -/
theorem namesClass_iff (h : Reads db R C) (p : Vertex × Vertex) :
    (∃ r ∈ R.nodes .classRefs, ∃ t ∈ R.classfiles, namesClass db.pool r t ∧
      p = (nodeVertex db .classRefs r, classVertex db t)) ↔
    ∃ x c, p = (.node .classRefs x, .classfile c) ∧ x ∈ C.nodes .classRefs ∧ c ∈ C.classes ∧
      x.label = [c.classname] := by
  constructor
  · rintro ⟨r, hr, t, ht, hnames, rfl⟩
    refine ⟨_, _, rfl, (h.nodes _ _).mp (List.mem_map_of_mem
      (f := fun r => nodeOf db.toCallGraphDb .classRefs r.cols) hr), ?_, ?_⟩
    · rw [← h.classes]
      exact List.mem_map_of_mem (f := fun r => classOf db.toCallGraphDb r.cols) ht
    · exact congrArg (fun s => [s]) hnames
  · rintro ⟨x, c, rfl, hx, hc, hlabel⟩
    obtain ⟨r, hr, rfl⟩ := List.mem_map.mp ((h.nodes _ _).mpr hx)
    rw [← h.classes] at hc
    obtain ⟨t, ht, rfl⟩ := List.mem_map.mp hc
    exact ⟨r, hr, t, ht, (List.cons.inj hlabel).1, rfl⟩

/-- The references to members and the members that they name. -/
theorem namesMember_iff (h : Reads db R C) {i j : NodeTable} (T : Types (NodeCols i) (NodeCols j))
    (hi : ∀ r, i.texts r = [T.classname r, T.refName r, T.refDescriptor r])
    (hj : ∀ t, j.texts t = [T.targetName t, T.targetDescriptor t])
    (howner : ∀ t, j.ownerClass t = T.targetOwner t) (p : Vertex × Vertex) :
    (∃ r ∈ R.nodes i, ∃ t ∈ R.nodes j, namesMember db.pool T R.classfiles r t ∧
      p = (nodeVertex db i r, nodeVertex db j t)) ↔
    ∃ x y c, p = (.node i x, .node j y) ∧ x ∈ C.nodes i ∧ y ∈ C.nodes j ∧ c ∈ C.classes ∧
      c.strongClassname = y.strongClassname ∧ x.label = c.classname :: y.label := by
  have hnames : ∀ r, ∀ t ∈ R.nodes j, ∀ owner,
      R.classfiles[(j.ownerClass t.cols).toNat]? = some owner →
      (namesMember db.pool T R.classfiles r t ↔
        (nodeOf db.toCallGraphDb i r.cols).label =
          (classOf db.toCallGraphDb owner.cols).classname ::
            (nodeOf db.toCallGraphDb j t.cols).label) := by
    intro r t ht owner hfound
    simp only [namesMember, ← howner, hfound, Option.some.injEq, exists_eq_left', nodeOf, classOf,
      CallGraphDb.label, hi, hj, List.map_cons, List.map_nil, List.cons.injEq, and_true]
  constructor
  · rintro ⟨r, hr, t, ht, hmatching, rfl⟩
    obtain ⟨owner, hfound, hstrong, hmem⟩ := h.owner_spec ht
    exact ⟨_, _, _, rfl,
      (h.nodes _ _).mp (List.mem_map_of_mem
        (f := fun r => nodeOf db.toCallGraphDb i r.cols) hr),
      (h.nodes _ _).mp (List.mem_map_of_mem
        (f := fun r => nodeOf db.toCallGraphDb j r.cols) ht),
      hmem, hstrong, (hnames r t ht owner hfound).mp hmatching⟩
  · rintro ⟨x, y, c, rfl, hx, hy, hc, hstrong, hlabel⟩
    obtain ⟨r, hr, rfl⟩ := List.mem_map.mp ((h.nodes _ _).mpr hx)
    obtain ⟨t, ht, rfl⟩ := List.mem_map.mp ((h.nodes _ _).mpr hy)
    obtain ⟨owner, hfound, hstrong', hmem⟩ := h.owner_spec ht
    obtain rfl := List.inj_on_of_nodup_map h.distinct hc hmem (hstrong.trans hstrong'.symm)
    exact ⟨r, hr, t, ht, (hnames r t ht owner hfound).mpr hlabel, rfl⟩

/-- The vertices are the rows of the six tables. -/
theorem verticesOf_eq (h : Reads db R C) : verticesOf db =
    R.classfiles.map (fun r => (classVertex db r, r.cols.refCount.toNat)) ++
      [NodeTable.methods, .fields, .classRefs, .methodRefs, .fieldRefs].flatMap fun i =>
        (R.nodes i).map fun r => (nodeVertex db i r, (edgesCounted i r.cols).toNat) := by
  have hnodes : ∀ i, liveRows (db.nodes i) = R.nodes i :=
    fun i => liveRows_eq (h.stored.nodes i) (h.liveNodes i)
  rw [verticesOf, liveRows_eq h.stored.classfiles h.liveClasses]
  simp only [hnodes]

theorem mem_verticesOf (h : Reads db R C) (v : Vertex × ℕ) : v ∈ verticesOf db ↔
    (∃ r ∈ R.classfiles, (classVertex db r, r.cols.refCount.toNat) = v) ∨
      ∃ i, ∃ r ∈ R.nodes i, (nodeVertex db i r, (edgesCounted i r.cols).toNat) = v := by
  have hall : ∀ i, i ∈ [NodeTable.methods, .fields, .classRefs, .methodRefs, .fieldRefs] := by
    intro i
    cases i <;> decide
  rw [h.verticesOf_eq, List.mem_append, List.mem_map, List.mem_flatMap]
  apply or_congr_right
  constructor
  · rintro ⟨i, -, hi⟩
    exact ⟨i, List.mem_map.mp hi⟩
  · rintro ⟨i, hi⟩
    exact ⟨i, hall i, List.mem_map.mpr hi⟩

theorem isVertex_iff (h : Reads db R C) (v : Vertex) :
    v ∈ (verticesOf db).map Prod.fst ↔ IsVertex C v := by
  rw [List.mem_map]
  constructor
  · rintro ⟨w, hw, rfl⟩
    rcases (h.mem_verticesOf w).mp hw with ⟨r, hr, rfl⟩ | ⟨i, r, hr, rfl⟩
    · refine .classfile ?_
      rw [← h.classes]
      exact List.mem_map_of_mem (f := fun r => classOf db.toCallGraphDb r.cols) hr
    · exact .node ((h.nodes i _).mp (List.mem_map_of_mem
        (f := fun r => nodeOf db.toCallGraphDb i r.cols) hr))
  · intro hv
    cases hv with
    | classfile hc =>
        rw [← h.classes] at hc
        obtain ⟨r, hr, rfl⟩ := List.mem_map.mp hc
        exact ⟨_, (h.mem_verticesOf _).mpr (.inl ⟨r, hr, rfl⟩), rfl⟩
    | node hx =>
        obtain ⟨r, hr, rfl⟩ := List.mem_map.mp ((h.nodes _ _).mpr hx)
        exact ⟨_, (h.mem_verticesOf _).mpr (.inr ⟨_, r, hr, rfl⟩), rfl⟩

theorem nodup_verticesOf (h : Reads db R C) : ((verticesOf db).map Prod.fst).Nodup := by
  have hmap : (verticesOf db).map Prod.fst = R.classfiles.map (classVertex db) ++
      [NodeTable.methods, .fields, .classRefs, .methodRefs, .fieldRefs].flatMap fun i =>
        (R.nodes i).map (nodeVertex db i) := by
    rw [h.verticesOf_eq, List.map_append, List.map_map, List.map_flatMap]
    simp only [List.map_map]
    rfl
  rw [hmap, List.nodup_append, List.nodup_flatMap]
  refine ⟨h.nodup_classes, ⟨fun i _ => h.nodup_nodes i, ?_⟩, ?_⟩
  · have hdistinct : [NodeTable.methods, .fields, .classRefs, .methodRefs, .fieldRefs].Nodup := by
      decide
    refine List.Pairwise.imp ?_ hdistinct
    intro i j hij v hi hj
    obtain ⟨r, -, rfl⟩ := List.mem_map.mp hi
    obtain ⟨t, -, heq⟩ := List.mem_map.mp hj
    exact hij (Vertex.node.inj heq).1.symm
  · intro v hv w hw hvw
    obtain ⟨r, -, rfl⟩ := List.mem_map.mp hv
    obtain ⟨i, -, hw⟩ := List.mem_flatMap.mp hw
    obtain ⟨t, -, rfl⟩ := List.mem_map.mp hw
    cases hvw

/-- Both ends of an edge of one kind are of given kinds. -/
theorem countP_ends {ps : List (Vertex × Vertex)} {a b : Option NodeTable} (hab : a ≠ b)
    (hps : ∀ p ∈ ps, p.1.table = a ∧ p.2.table = b) (v : Vertex) :
    (ps.countP fun p => p.1 = v ∨ p.2 = v) =
      (if v.table = a then ps.countP fun p => p.1 = v else 0) +
      if v.table = b then ps.countP fun p => p.2 = v else 0 := by
  by_cases ha : v.table = a
  · have hb : v.table ≠ b := fun hb => hab (ha.symm.trans hb)
    rw [if_pos ha, if_neg hb, Nat.add_zero]
    apply List.countP_congr
    intro p hp
    have hne : p.2 ≠ v := fun heq => hb (heq ▸ (hps p hp).2)
    simp [hne]
  · rw [if_neg ha, Nat.zero_add]
    have hne : ∀ p ∈ ps, p.1 ≠ v := fun p hp heq => ha (heq ▸ (hps p hp).1)
    by_cases hb : v.table = b
    · rw [if_pos hb]
      apply List.countP_congr
      intro p hp
      simp [hne p hp]
    · rw [if_neg hb, List.countP_eq_zero]
      intro p hp
      have hne' : p.2 ≠ v := fun heq => hb (heq ▸ (hps p hp).2)
      simp [hne p hp, hne']

/-- The edges and the counters are those of the call graph. -/
theorem shows (h : Reads db R C) (he : Exact db.pool R) : ShowsGraph db C where
  vertices := h.isVertex_iff
  distinct := h.nodup_verticesOf
  edges := by
    obtain ⟨ps₁, hmap₁, hnodup₁, hmem₁, hsource₁, htarget₁⟩ :=
      ends_of_linked he.classes (h.locatedNodes .classRefs) h.locatedClasses
    obtain ⟨ps₂, hmap₂, hnodup₂, hmem₂, hsource₂, htarget₂⟩ :=
      ends_of_linked he.methods (h.locatedNodes .methodRefs) (h.locatedNodes .methods)
    obtain ⟨ps₃, hmap₃, hnodup₃, hmem₃, hsource₃, htarget₃⟩ :=
      ends_of_linked he.fields (h.locatedNodes .fieldRefs) (h.locatedNodes .fields)
    have hkinds₁ : ∀ p ∈ ps₁, p.1.table = some .classRefs ∧ p.2.table = none := by
      intro p hp
      obtain ⟨r, -, t, -, -, rfl⟩ := (hmem₁ p).mp hp
      exact ⟨rfl, rfl⟩
    have hkinds₂ : ∀ p ∈ ps₂, p.1.table = some .methodRefs ∧ p.2.table = some .methods := by
      intro p hp
      obtain ⟨r, -, t, -, -, rfl⟩ := (hmem₂ p).mp hp
      exact ⟨rfl, rfl⟩
    have hkinds₃ : ∀ p ∈ ps₃, p.1.table = some .fieldRefs ∧ p.2.table = some .fields := by
      intro p hp
      obtain ⟨r, -, t, -, -, rfl⟩ := (hmem₃ p).mp hp
      exact ⟨rfl, rfl⟩
    refine ⟨ps₁ ++ ps₂ ++ ps₃, ?_, ?_, ?_, ?_⟩
    · rw [edgesOf, liveRows_eq (h.stored.edges _) fun e hmem => (he.classes.only e hmem).1,
        liveRows_eq (h.stored.edges _) fun e hmem => (he.methods.only e hmem).1,
        liveRows_eq (h.stored.edges _) fun e hmem => (he.fields.only e hmem).1, hmap₁, hmap₂,
        hmap₃, List.map_append, List.map_append]
    · rw [List.nodup_append, List.nodup_append]
      refine ⟨⟨hnodup₁, hnodup₂, ?_⟩, hnodup₃, ?_⟩
      · rintro p hp q hq rfl
        have := (hkinds₁ p hp).1.symm.trans (hkinds₂ p hq).1
        cases this
      · rintro p hp q hq rfl
        rcases List.mem_append.mp hp with hp | hp
        · have := (hkinds₁ p hp).1.symm.trans (hkinds₃ p hq).1
          cases this
        · have := (hkinds₂ p hp).1.symm.trans (hkinds₃ p hq).1
          cases this
    · intro p
      have hiff₁ := (hmem₁ p).trans (h.namesClass_iff p)
      have hiff₂ := (hmem₂ p).trans
        (h.namesMember_iff (i := .methodRefs) (j := .methods) methodTypes (fun _ => rfl)
          (fun _ => rfl) (fun _ => rfl) p)
      have hiff₃ := (hmem₃ p).trans
        (h.namesMember_iff (i := .fieldRefs) (j := .fields) fieldTypes (fun _ => rfl)
          (fun _ => rfl) (fun _ => rfl) p)
      rw [List.mem_append, List.mem_append, hiff₁, hiff₂, hiff₃]
      constructor
      · rintro ((⟨x, c, rfl, hx, hc, hlabel⟩ | ⟨x, y, c, rfl, hx, hy, hc, hstrong, hlabel⟩) |
          ⟨x, y, c, rfl, hx, hy, hc, hstrong, hlabel⟩)
        · exact .toClass hx hc hlabel
        · exact .toMethod hx hy hc hstrong hlabel
        · exact .toField hx hy hc hstrong hlabel
      · obtain ⟨v, w⟩ := p
        intro hrefers
        cases hrefers with
        | toClass hx hc hlabel => exact .inl (.inl ⟨_, _, rfl, hx, hc, hlabel⟩)
        | toMethod hx hy hc hstrong hlabel =>
            exact .inl (.inr ⟨_, _, _, rfl, hx, hy, hc, hstrong, hlabel⟩)
        | toField hx hy hc hstrong hlabel =>
            exact .inr ⟨_, _, _, rfl, hx, hy, hc, hstrong, hlabel⟩
    · intro v hv
      rw [List.countP_append, List.countP_append, countP_ends (by simp) hkinds₁,
        countP_ends (by decide) hkinds₂, countP_ends (by decide) hkinds₃]
      rcases (h.mem_verticesOf v).mp hv with ⟨t, ht, rfl⟩ | ⟨i, r, hr, rfl⟩
      · simpa [classVertex, Vertex.table] using htarget₁ t ht
      · cases i with
        | methods => simpa [nodeVertex, Vertex.table, edgesCounted] using htarget₂ r hr
        | fields => simpa [nodeVertex, Vertex.table, edgesCounted] using htarget₃ r hr
        | classRefs => simpa [nodeVertex, Vertex.table, edgesCounted] using hsource₁ r hr
        | methodRefs => simpa [nodeVertex, Vertex.table, edgesCounted] using hsource₂ r hr
        | fieldRefs => simpa [nodeVertex, Vertex.table, edgesCounted] using hsource₃ r hr

end Reads

section Linking
variable {words : List Bytes} {db : CallGraphDb} {fs : List (Row FileCols)}
  {cs : List (Row ClassFileCols)} {C : Contents} {rs : ∀ i, List (Row (NodeCols i))}

/-- The tables of edges are new, as no analysis adds to them. -/
def linkDb (db : CallGraphDb) : LinkDb := { db with edges := fun e => Table.construct e.layout }

theorem stored_linkDb (h : Census words db fs cs C)
    (hrs : ∀ i, Listed db cs.length i (C.nodes i) (rs i)) :
    Stored (linkDb db) ⟨cs, rs, fun _ => []⟩ where
  classfiles := h.valid.classes.rekey _
  nodes i := (hrs i).core.rekey _
  edges _ := core_construct _
  filed _ := filed_construct _

theorem linkable (h : Census words db fs cs C)
    (hrs : ∀ i, Listed db cs.length i (C.nodes i) (rs i)) :
    Linkable db.pool ⟨cs, rs, fun _ => []⟩ where
  edges _ := rfl
  classfiles r hr := (h.fresh r hr).2.1
  methods r hr := ((hrs .methods).fresh r hr).2
  fields r hr := ((hrs .fields).fresh r hr).2
  classRefs r hr := ((hrs .classRefs).fresh r hr).2
  methodRefs r hr := ((hrs .methodRefs).fresh r hr).2
  fieldRefs r hr := ((hrs .fieldRefs).fresh r hr).2
  owners i r hr := (hrs i).owned r hr
  interned := by
    have hcanonical : ∀ s, Compared ⟨cs, rs, fun _ => []⟩ s → Canonical db.pool s := by
      rintro s (⟨r, hr, rfl⟩ | ⟨i, r, hr, hs⟩)
      · exact (h.fresh r hr).2.2
      · exact (hrs i).canonical r hr s hs
    intro s s' hs hs' htext
    exact (hcanonical s hs).eq_of_text_eq (hcanonical s' hs') htext

/-- Strong names tell the classes apart. -/
theorem nodup_strongClassname (h : Census words db fs cs C) :
    (C.classes.map fun c => c.strongClassname).Nodup := by
  rw [← h.classes, List.map_map, List.nodup_iff_injective_get]
  rintro ⟨j, hj⟩ ⟨k, hk⟩ hsame
  rw [List.length_map] at hj hk
  simp only [List.get_eq_getElem, List.getElem_map] at hsame
  obtain ⟨p, hp, -⟩ := h.valid.classes.exists_of_row (List.getElem?_eq_getElem hj)
  obtain ⟨q, hq, -⟩ := h.valid.classes.exists_of_row (List.getElem?_eq_getElem hk)
  have hfound := (h.valid.filedClasses _ p).mpr ⟨j, _, hp, List.getElem?_eq_getElem hj, rfl⟩
  have hfound' :=
    (h.valid.filedClasses _ q).mpr ⟨k, _, hq, List.getElem?_eq_getElem hk, hsame.symm⟩
  obtain rfl := Option.some.inj (hfound.symm.trans hfound')
  rw [Fin.mk.injEq]
  exact h.valid.classes.index_injective hp hq

theorem files_linkRefNodes {A : ∀ α : Type, Allocator α} {I : Iteration} {fuel : ℕ}
    {db linked : LinkDb} (h : db.linkRefNodes A I fuel = .returned linked) :
    linked.files = db.files := by
  obtain ⟨classesByName, -, h⟩ := Progress.bind_eq_returned h
  obtain ⟨methodsIndex, -, h⟩ := Progress.bind_eq_returned h
  obtain ⟨fieldsIndex, -, h⟩ := Progress.bind_eq_returned h
  obtain ⟨db₁, h₁, h⟩ := Progress.bind_eq_returned h
  obtain ⟨db₂, h₂, h₃⟩ := Progress.bind_eq_returned h
  obtain ⟨s₁, -, h₁⟩ := Progress.bind_eq_returned h₁
  obtain ⟨s₂, -, h₂⟩ := Progress.bind_eq_returned h₂
  obtain ⟨s₃, -, h₃⟩ := Progress.bind_eq_returned h₃
  cases h₁
  cases h₂
  cases h₃
  rfl

/-- Counting edges changes neither the owners nor the texts of nodes. -/
theorem nodes_linked (R : Rows) (new : EdgeTable → List EdgeCols) (i : NodeTable) :
    ∃ (K : Counter (NodeCols i)) (side : EdgeCols → RefCol) (es : List EdgeCols),
      (R.linked new).nodes i = counted K side es (R.nodes i) ∧
        ∀ r n, i.ownerClass (K.add r n) = i.ownerClass r ∧ i.texts (K.add r n) = i.texts r := by
  cases i with
  | methods => exact ⟨_, _, _, rfl, fun _ _ => ⟨rfl, rfl⟩⟩
  | fields => exact ⟨_, _, _, rfl, fun _ _ => ⟨rfl, rfl⟩⟩
  | classRefs => exact ⟨_, _, _, rfl, fun _ _ => ⟨rfl, rfl⟩⟩
  | methodRefs => exact ⟨_, _, _, rfl, fun _ _ => ⟨rfl, rfl⟩⟩
  | fieldRefs => exact ⟨_, _, _, rfl, fun _ _ => ⟨rfl, rfl⟩⟩

theorem length_counted {α : Type} (K : Counter α) (side : EdgeCols → RefCol)
    (es : List EdgeCols) (rows : List (Row α)) : (counted K side es rows).length = rows.length :=
  List.length_mapIdx

theorem not_isDeleted {α : Type} {r : Row α} (h : r.flags = 0) : r.isDeleted = false := by
  rw [Row.isDeleted, h]
  rfl

/-- The linked rows say what the rows said. -/
theorem reads_linked (h : Census words db fs cs C)
    (hrs : ∀ i, Listed db cs.length i (C.nodes i) (rs i))
    (hsmall : Rows.Small ⟨cs, rs, fun _ => []⟩) {linked : LinkDb} {new : EdgeTable → List EdgeCols}
    (hpool : linked.pool = db.pool) (hfiles : linked.files = db.files)
    (hstored : Stored linked (Rows.linked ⟨cs, rs, fun _ => []⟩ new)) :
    Reads linked (Rows.linked ⟨cs, rs, fun _ => []⟩ new) C := by
  have hclassOf : ∀ r, classOf linked.toCallGraphDb r = classOf db r := by
    intro r
    rw [classOf, classOf, hpool, hfiles]
  have hstrong : ∀ o, linked.toCallGraphDb.getStrongClassname o = db.getStrongClassname o := by
    intro o
    have hrow : linked.classfiles.getRow o = _ :=
      (hstored.classfiles.getRow_eq o).trans
        (getElem?_counted classRefCounter EdgeCols.toId (new .classRefEdges) cs o)
    have hrow' : db.classfiles.getRow o = cs[o]? := h.valid.classes.getRow_eq o
    rw [CallGraphDb.getStrongClassname, CallGraphDb.getStrongClassname, hrow, hrow']
    cases cs[o]? with
    | none => rfl
    | some row => exact congrArg ClassName.strongClassname (hclassOf _)
  have hmap : ∀ i, ((Rows.linked ⟨cs, rs, fun _ => []⟩ new).nodes i).map
      (fun r => nodeOf linked.toCallGraphDb i r.cols) =
        (rs i).map fun r => nodeOf db i r.cols := by
    intro i
    obtain ⟨K, side, es, hnodes, hsame⟩ := nodes_linked ⟨cs, rs, fun _ => []⟩ new i
    have hnodeOf : ∀ r, nodeOf linked.toCallGraphDb i r = nodeOf db i r := by
      intro r
      rw [nodeOf, nodeOf, hstrong, CallGraphDb.label, hpool]
      rfl
    rw [hnodes, map_counted]
    · exact List.map_congr_left fun r _ => hnodeOf r.cols
    · intro r n
      rw [nodeOf, nodeOf, CallGraphDb.label, recount, (hsame _ _).1, (hsame _ _).2]
      rfl
  refine ⟨hstored, ?_, ?_, ?_, ?_, nodup_strongClassname h, ?_, ?_, ?_⟩
  · refine ⟨(length_counted _ _ _ _).trans_lt hsmall.1, fun i => ?_⟩
    obtain ⟨K, side, es, hnodes, -⟩ := nodes_linked ⟨cs, rs, fun _ => []⟩ new i
    rw [hnodes, length_counted]
    exact hsmall.2 i
  · intro r hr
    obtain ⟨r₀, hr₀, n, rfl⟩ := mem_counted hr
    exact not_isDeleted (h.fresh r₀ hr₀).1
  · intro i r hr
    obtain ⟨K, side, es, hnodes, -⟩ := nodes_linked ⟨cs, rs, fun _ => []⟩ new i
    rw [hnodes] at hr
    obtain ⟨r₀, hr₀, n, rfl⟩ := mem_counted hr
    exact not_isDeleted ((hrs i).fresh r₀ hr₀).1
  · rw [← h.classes]
    refine (map_counted ?_).trans (List.map_congr_left fun r _ => hclassOf r.cols)
    intro r n
    rfl
  · intro i x
    rw [hmap, (hrs i).mem_iff]
  · intro i
    rw [hmap]
    exact (hrs i).nodup
  · intro i r hr
    obtain ⟨K, side, es, hnodes, hsame⟩ := nodes_linked ⟨cs, rs, fun _ => []⟩ new i
    rw [hnodes] at hr
    obtain ⟨r₀, hr₀, n, rfl⟩ := mem_counted hr
    rw [recount, (hsame _ _).1]
    exact ((hrs i).owned r₀ hr₀).trans_eq (length_counted _ _ _ _).symm

/-- The database of some contents is linked. -/
theorem linked_reads (A : ∀ α : Type, Allocator α) (I : Iteration) (h : Census words db fs cs C)
    (hclasses : C.classes.length < 2 ^ 32) (hnodes : ∀ i, (C.nodes i).length < 2 ^ 32) :
    (∃ fuel linked, (linkDb db).linkRefNodes A I fuel = .returned linked) ∧
      ∀ fuel linked, (linkDb db).linkRefNodes A I fuel = .returned linked →
        ∃ R, Reads linked R C ∧ Exact linked.pool R := by
  choose rs hrs using h.nodes
  have hstored := stored_linkDb h hrs
  have hlinkable := linkable h hrs
  have hsmall : Rows.Small ⟨cs, rs, fun _ => []⟩ :=
    ⟨by rw [← length_classes h] at hclasses; exact hclasses,
      fun i => (hrs i).length_le.trans_lt (hnodes i)⟩
  have hsettles := settles_linkRefNodes A I hstored hsmall
  constructor
  · obtain ⟨fuel, linked, hrun, -⟩ :=
      hsettles.exists_returned ⟨hlinkable.owned, hlinkable.fresh⟩
    exact ⟨fuel, linked, hrun⟩
  · intro fuel linked hrun
    obtain ⟨-, hpool, new, hjoined, hlinked⟩ := hsettles.returned hrun
    refine ⟨_, reads_linked h hrs hsmall hpool (files_linkRefNodes hrun) hlinked, ?_⟩
    rw [hpool]
    exact exact_linked hlinkable hsmall
      ⟨hstored.classfiles.ids, fun i => (hstored.nodes i).ids⟩ hjoined

end Linking

section Programs
variable (A : ∀ α : Type, Allocator α) (I : Iteration) (garbage : ℕ → UInt8) (options : Options)
  {words : List Bytes} {xs : List GraphInput}

/-- The files have different names, so have the classes, and all tables have
room. -/
structure Analysable (words : List Bytes) (xs : List GraphInput) : Prop where
  admitted : Admitted words Contents.empty xs
  classes : (program xs).classes.length < 2 ^ 32
  nodes : ∀ i, ((program xs).nodes i).length < 2 ^ 32

/-- All files are analysed, and the database is linked. -/
def Analyses (xs : List GraphInput) (results : Results) (linked : LinkDb) : Prop :=
  ∃ db db' results' fuel, GraphDb.create = some db ∧
    analyseInputs A garbage options (db, results) xs = .returned (db', results') ∧
    (linkDb db'.toCallGraphDb).linkRefNodes A I fuel = .returned linked

/-- The database that is linked has the contents of the program. -/
theorem analyseInputs_census (hw : Lexicon words) (hnil : [] ∈ words)
    (hdry : options.dryRun = false) (h : Analysable words xs) (results : Results) :
    ∃ db db' results', GraphDb.create = some db ∧
      analyseInputs A garbage options (db, results) xs = .returned (db', results') ∧
      ∃ fs cs, Census words db'.toCallGraphDb fs cs (program xs) := by
  obtain ⟨db, hcreate, hempty⟩ := create_holds hnil
  obtain ⟨db', results', hrun, hholds⟩ :=
    hempty.inputs A garbage options hw hdry h.admitted results
  exact ⟨db, db', results', hcreate, hrun, hholds.census⟩

theorem exists_analyses (hw : Lexicon words) (hnil : [] ∈ words) (hdry : options.dryRun = false)
    (h : Analysable words xs) (results : Results) :
    ∃ linked, Analyses A I garbage options xs results linked := by
  obtain ⟨db, db', results', hcreate, hrun, fs, cs, hcensus⟩ :=
    analyseInputs_census A garbage options hw hnil hdry h results
  obtain ⟨fuel, linked, hlink⟩ := (linked_reads A I hcensus h.classes h.nodes).1
  exact ⟨linked, db, db', results', fuel, hcreate, hrun, hlink⟩

theorem reads_of_analyses (hw : Lexicon words) (hnil : [] ∈ words) (hdry : options.dryRun = false)
    (h : Analysable words xs) {results : Results} {linked : LinkDb}
    (hrun : Analyses A I garbage options xs results linked) :
    ∃ R, Reads linked R (program xs) ∧ Exact linked.pool R := by
  obtain ⟨db, db', results', hcreate, hinputs, fs, cs, hcensus⟩ :=
    analyseInputs_census A garbage options hw hnil hdry h results
  obtain ⟨db₀, db₁, results₁, fuel, hcreate₀, hinputs₀, hlink⟩ := hrun
  obtain rfl := Option.some.inj (hcreate.symm.trans hcreate₀)
  obtain ⟨rfl, -⟩ := Prod.mk.inj (Outcome.returned.inj (hinputs.symm.trans hinputs₀))
  exact (linked_reads A I hcensus h.classes h.nodes).2 fuel linked hlink

theorem shows_of_analyses (hw : Lexicon words) (hnil : [] ∈ words) (hdry : options.dryRun = false)
    (h : Analysable words xs) {results : Results} {linked : LinkDb}
    (hrun : Analyses A I garbage options xs results linked) : ShowsGraph linked (program xs) := by
  obtain ⟨R, hreads, hexact⟩ := reads_of_analyses A I garbage options hw hnil hdry h hrun
  exact hreads.shows hexact

/-- The classes that the files bring, and of the nodes with one key the last. -/
structure Collects (C : Contents) (xs : List GraphInput) : Prop where
  classes : C.classes = (xs.flatMap fun x => x.classes).map fun c => c.name
  last : ∀ i x, x ∈ C.nodes i ↔ IsLast (Node.key i) (declared xs i) x
  all : ∀ i, ((declared xs i).map (Node.key i)).Nodup → C.nodes i = declared xs i

theorem collects_program (xs : List GraphInput) : Collects (program xs) xs where
  classes := classes_program xs
  last i x := by rw [nodes_program, mem_replaceAll_nil]
  all i hnodup := by rw [nodes_program, replaceAll_of_nodup hnodup, List.nil_append]

/-- Of two methods with one name the second one stays. -/
example : (addClasses Contents.empty [⟨⟨ascii "A", ascii "A"⟩,
      [.method (ascii "m") (ascii "()V"), .method (ascii "m") (ascii "(I)V")]⟩]).nodes .methods =
    [⟨ascii "A", [ascii "m", ascii "(I)V"]⟩] := by decide

/-- The analysis of a program ends, and its tables show the call graph of what the
program holds: all its classes, and of the nodes with one class and one name the last. -/
theorem analyses_callGraph (hw : Lexicon words) (hnil : [] ∈ words)
    (hdry : options.dryRun = false) (h : Analysable words xs) (results : Results) :
    Collects (program xs) xs ∧ (∃ linked, Analyses A I garbage options xs results linked) ∧
      ∀ linked, Analyses A I garbage options xs results linked → ShowsGraph linked (program xs) :=
  ⟨collects_program xs, exists_analyses A I garbage options hw hnil hdry h results,
    fun _ hrun => shows_of_analyses A I garbage options hw hnil hdry h hrun⟩

end Programs

section Samples

def programWords : List Bytes := ascii "b.jar" :: DigestOutcomes.sampleWords

theorem lexicon_programWords : Lexicon programWords := ⟨by decide, by decide⟩

/-- Two jars with the class A, which refers to itself. -/
def sampleJarFile (filename : Bytes) : GraphInput :=
  .jar ⟨filename, 100, 1⟩ [SkippedJars.sampleGraphEntry 0]

theorem classes_sampleJarFile (filename : Bytes) : (sampleJarFile filename).classes =
    [⟨⟨DomainTables.getStrongClassname filename [65], [65]⟩, [.classRef [65]]⟩] := by
  obtain ⟨c, hc⟩ := SkippedJars.sampleReading_eq
  change [SkippedJars.sampleReading].filterMap (classIn filename) = _
  rw [hc]
  rfl

theorem addInput_sampleJarFile (C : Contents) (filename : Bytes) :
    addInput C (sampleJarFile filename) = (C.addFile filename).analyse
      ⟨DomainTables.getStrongClassname filename [65], [65]⟩ [.classRef [65]] := by
  change addClasses (C.addFile filename) (sampleJarFile filename).classes = _
  rw [classes_sampleJarFile]
  rfl

theorem own_sampleJarFile (filename : Bytes) : (sampleJarFile filename).Own := by
  intro e he
  rw [List.mem_singleton.mp he]
  exact (SkippedJars.sampleGraphVersion_regular 100 0).own _ List.mem_cons_self

theorem classes_sample : [sampleJarFile (ascii "a.jar"), sampleJarFile (ascii "b.jar")].flatMap
    GraphInput.classes =
      [⟨⟨DomainTables.getStrongClassname (ascii "a.jar") [65], [65]⟩, [.classRef [65]]⟩,
        ⟨⟨DomainTables.getStrongClassname (ascii "b.jar") [65], [65]⟩, [.classRef [65]]⟩] := by
  simp [classes_sampleJarFile]

theorem program_sample : program [sampleJarFile (ascii "a.jar"), sampleJarFile (ascii "b.jar")] =
    ((Contents.empty.addFile (ascii "a.jar")).analyse
      ⟨DomainTables.getStrongClassname (ascii "a.jar") [65], [65]⟩ [.classRef [65]] |>.addFile
        (ascii "b.jar")).analyse
      ⟨DomainTables.getStrongClassname (ascii "b.jar") [65], [65]⟩ [.classRef [65]] := by
  simp only [program, List.foldl_cons, List.foldl_nil, addInput_sampleJarFile]

theorem analysable_sample :
    Analysable programWords [sampleJarFile (ascii "a.jar"), sampleJarFile (ascii "b.jar")] := by
  have hclasses := classes_sample
  have hprogram := program_sample
  refine ⟨⟨by decide, by decide, ?_, ?_, ?_, ?_, ?_⟩, ?_, ?_⟩
  · rw [hclasses]
    decide
  · rw [hclasses]
    decide
  · intro x hx
    rcases List.mem_cons.mp hx with rfl | hx
    · exact own_sampleJarFile _
    · rw [List.mem_singleton.mp hx]
      exact own_sampleJarFile _
  · decide
  · intro x hx c hc
    have hmem : c ∈ [sampleJarFile (ascii "a.jar"), sampleJarFile (ascii "b.jar")].flatMap
        GraphInput.classes := List.mem_flatMap.mpr ⟨x, hx, hc⟩
    rw [hclasses] at hmem
    clear hc hx
    revert c
    decide
  · rw [hprogram]
    decide
  · rw [hprogram]
    intro i
    cases i <;> decide

theorem analyses_callGraph_sample : ∃ linked,
    Analyses Allocator.next Iteration.sorted (fun _ => 0) {}
      [sampleJarFile (ascii "a.jar"), sampleJarFile (ascii "b.jar")] {} linked ∧
    ShowsGraph linked (program [sampleJarFile (ascii "a.jar"), sampleJarFile (ascii "b.jar")]) ∧
    Collects (program [sampleJarFile (ascii "a.jar"), sampleJarFile (ascii "b.jar")])
      [sampleJarFile (ascii "a.jar"), sampleJarFile (ascii "b.jar")] := by
  obtain ⟨hcollects, ⟨linked, hrun⟩, hshows⟩ := analyses_callGraph Allocator.next Iteration.sorted
    (fun _ => 0) {} lexicon_programWords (by decide) rfl analysable_sample {}
  exact ⟨linked, hrun, hshows linked hrun, hcollects⟩

end Samples

end Tarracsh.ProgramGraph
