import Tarracsh.ProgramGraph
import Tarracsh.ExportedGraph

/-!
# The exported call graph of a program

`CallGraphExporter` draws a node for every class of the program. Each edge of
the call graph becomes a solid edge between the classes of its ends, except that
all edges to classes start at the first class, and each reference that leads
nowhere becomes a dashed edge to a node for what is missing.
-/
namespace Tarracsh.ProgramExport
open ByteStrings StringPool TableModel TableInvariant DomainTables CallGraphTables
open CallGraphInvariant CallGraphLinking CountedLoops LinkJoins LinkRuns LinkExactness
open CallGraphExport ExportPasses
open SafeConsumption CallGraphAnalysis Reporting GraphContents ProgramAnalysis ProgramGraph

section Statement
variable (x : Exporter) (C : Contents)

/-- The strong name of the class that a vertex belongs to. -/
def owner : Vertex → Bytes
  | .classfile c => c.strongClassname
  | .node _ y => y.strongClassname

/-- The class where an edge starts. Linking leaves the edges to classes without
an owner, and they start at the class with id zero. -/
def start : Vertex → Bytes
  | .node .classRefs _ => ((C.classes.map ClassName.strongClassname).head?).getD []
  | v => owner v

/-- The label of an edge to the vertex. -/
def targetLabel : Vertex → Bytes
  | .classfile _ => ascii "class"
  | .node i y => y.key i ++ ascii " " ++ y.label.getD 1 []

def targetColor : Vertex → String
  | .classfile _ => kClassEdgeColor
  | .node .methods _ => kMethodEdgeColor
  | .node _ _ => kFieldEdgeColor

structure DrawnAs (e : EdgeRecord) (p : Vertex × Vertex) : Prop where
  source : ⟨e.fromId, start C p.1, false⟩ ∈ x.nodes
  target : ⟨e.toId, owner p.2, false⟩ ∈ x.nodes
  label : e.label = targetLabel p.2
  color : e.color = targetColor p.2

/-- A member that a reference is looking for. -/
def wanted (y : Node) : Bytes :=
  y.label.getD 0 [] ++ ascii "#" ++ y.label.getD 1 [] ++ ascii " " ++ y.label.getD 2 []

/-- The label of the node for what is missing. -/
def missingLabel : NodeTable → Node → Bytes
  | .classRefs, y => y.label.getD 0 [] ++ ascii " (missing)"
  | _, y => wanted y

/-- The label of the edge to it. -/
def missingEdgeLabel : NodeTable → Node → Bytes
  | .classRefs, y => y.label.getD 0 []
  | _, y => wanted y ++ ascii " (missing)"

structure MissingAs (e : EdgeRecord) (u : NodeTable × Node) : Prop where
  source : ⟨e.fromId, u.2.strongClassname, false⟩ ∈ x.nodes
  target : ⟨e.toId, missingLabel u.1 u.2, true⟩ ∈ x.nodes
  label : e.label = missingEdgeLabel u.1 u.2
  color : e.color = kMissingColor

/-- The tables of references. -/
def referenceTables : List NodeTable := [.classRefs, .methodRefs, .fieldRefs]

/-- The records are a drawing of the call graph of the contents. -/
structure Draws : Prop where
  ids : ∀ (i : ℕ) (n : NodeRecord), x.nodes[i]? = some n → n.id = i
  classes : (x.nodes.filter fun n => !n.isMissing).map NodeRecord.label =
    C.classes.map ClassName.strongClassname
  missing : ((x.nodes.filter fun n => n.isMissing).map NodeRecord.label).Nodup
  solid : ∃ ps : List (Vertex × Vertex), ps.Nodup ∧ (∀ p, p ∈ ps ↔ Refers C p.1 p.2) ∧
    List.Forall₂ (DrawnAs x C) (x.edges.filter fun e => e.style = .solid) ps
  dashed : ∃ us : List (NodeTable × Node), us.Nodup ∧
    (∀ u, u ∈ us ↔ u.1 ∈ referenceTables ∧ u.2 ∈ C.nodes u.1 ∧
      ∀ v, ¬ Refers C (.node u.1 u.2) v) ∧
    List.Forall₂ (MissingAs x) (x.edges.filter fun e => e.style = .dashed) us

end Statement

section Lists

/-- Records and pairs that come from the same rows. -/
theorem forall₂_of_ends {α β γ : Type} {P : β → γ → Prop} {f : α → Option β}
    {ends : α → Option γ} {rows : List α} {ps : List γ} (hmap : rows.map ends = ps.map some)
    (h : ∀ e ∈ rows, ∀ p, ends e = some p → ∃ d, f e = some d ∧ P d p) :
    List.Forall₂ P (rows.filterMap f) ps := by
  induction rows generalizing ps with
  | nil =>
      obtain rfl := List.map_eq_nil_iff.mp hmap.symm
      exact .nil
  | cons e rows ih =>
      cases ps with
      | nil => cases hmap
      | cons p ps =>
          obtain ⟨hp, hps⟩ := List.cons.inj hmap
          obtain ⟨d, hd, hP⟩ := h e List.mem_cons_self p hp
          rw [List.filterMap_cons_some hd]
          exact .cons hP (ih hps fun e he => h e (List.mem_cons_of_mem _ he))

theorem forall₂_comp {α β γ : Type} {P : α → β → Prop} {Q : β → γ → Prop} {S : α → γ → Prop}
    (hS : ∀ a b c, P a b → Q b c → S a c) {as : List α} {bs : List β} {cs : List γ}
    (h : List.Forall₂ P as bs) (h' : List.Forall₂ Q bs cs) : List.Forall₂ S as cs := by
  induction h generalizing cs with
  | nil =>
      cases h'
      exact .nil
  | cons hab _ ih =>
      cases h' with
      | cons hbc h' => exact .cons (hS _ _ _ hab hbc) (ih h')

theorem live_eq_self {α : Type} {rs : List (Row α)} (h : ∀ r ∈ rs, r.isDeleted = false) :
    live rs = rs := by
  rw [live, List.filter_eq_self]
  intro r hr
  rw [h r hr]
  rfl

/-- Every row has a node, whose id is that of the row. -/
theorem classNode_of_lt {rs : List (Row ClassFileCols)}
    (hids : ∀ (i : ℕ) (r : Row ClassFileCols), rs[i]? = some r → r.id = i) {k : ℕ}
    (hk : k < rs.length) : classNode rs k = some k := by
  rw [classNode, List.findIdx?_eq_some_iff_getElem]
  refine ⟨hk, ?_, fun j hj => ?_⟩
  · rw [hids k _ (List.getElem?_eq_getElem hk)]
    exact decide_eq_true rfl
  · rw [hids j _ (List.getElem?_eq_getElem (hj.trans hk))]
    simp
    omega

end Lists

section Isolation
variable {C : Contents} {db : LinkDb}

/-- Nothing refers to a reference. -/
theorem not_refers_reference {i : NodeTable} (hi : i ∈ referenceTables) (v : Vertex) (y : Node) :
    ¬ Refers C v (.node i y) := by
  intro h
  cases h with
  | toMethod => exact absurd hi (by decide)
  | toField => exact absurd hi (by decide)

/-- A vertex counts no edge if it has none. -/
theorem isolated_iff (h : ShowsGraph db C) {v : Vertex × ℕ} (hv : v ∈ verticesOf db) :
    v.2 = 0 ↔ ∀ w, ¬ Refers C v.1 w ∧ ¬ Refers C w v.1 := by
  obtain ⟨es, -, -, hmem, hcount⟩ := h.edges
  rw [hcount v hv, List.countP_eq_zero]
  constructor
  · intro hnone w
    constructor
    · intro hrefers
      exact hnone _ ((hmem (v.1, w)).mpr hrefers) (by simp)
    · intro hrefers
      exact hnone _ ((hmem (w, v.1)).mpr hrefers) (by simp)
  · intro hnone p hp hend
    have hrefers := (hmem p).mp hp
    rcases of_decide_eq_true hend with hfirst | hsecond
    · rw [hfirst] at hrefers
      exact (hnone _).1 hrefers
    · rw [hsecond] at hrefers
      exact (hnone _).2 hrefers

end Isolation

section Drawing
variable {db : LinkDb} {R : Rows} {C : Contents} {x : Exporter}

theorem live_classfiles (h : Reads db R C) : live R.classfiles = R.classfiles :=
  live_eq_self h.liveClasses

theorem nodeOf_of_lt (h : Reads db R C) {k : ℕ} (hk : k < R.classfiles.length) :
    ExportedGraph.nodeOf R k = some (k : ℤ) := by
  rw [ExportedGraph.nodeOf, live_classfiles h,
    classNode_of_lt h.stored.classfiles.ids hk]
  rfl

/-- The node of a class is drawn under the position of its row. -/
theorem classNode_mem (h : Reads db R C) (hx : ExportedGraph.WellFormedGraph db R x) {k : ℕ}
    {r : Row ClassFileCols} (hr : R.classfiles[k]? = some r) :
    ⟨(k : ℤ), (classOf db.toCallGraphDb r.cols).strongClassname, false⟩ ∈ x.nodes := by
  have hmem : (⟨(k : ℤ), (classOf db.toCallGraphDb r.cols).strongClassname, false⟩ : NodeRecord) ∈
      x.nodes.filter fun n => !n.isMissing := by
    rw [hx.classes, live_classfiles h]
    refine List.mem_of_getElem? (i := k) ?_
    rw [List.getElem?_mapIdx, hr]
    rfl
  exact (List.mem_filter.mp hmem).1

theorem labels_of_classes (h : Reads db R C) (hx : ExportedGraph.WellFormedGraph db R x) :
    (x.nodes.filter fun n => !n.isMissing).map NodeRecord.label =
      C.classes.map ClassName.strongClassname := by
  rw [hx.classes, live_classfiles h, ← h.classes]
  apply List.ext_getElem?
  intro k
  simp only [List.getElem?_map, List.getElem?_mapIdx, Option.map_map]
  rfl

/-- An edge to a class is drawn from the first class. -/
theorem drawn_classEdge (h : Reads db R C) (he : Exact db.pool R)
    (hx : ExportedGraph.WellFormedGraph db R x) {e : Row EdgeCols}
    (hmem : e ∈ R.edges .classRefEdges) {p : Vertex × Vertex}
    (hends : endsOf (nodeAt db .classRefs) (classAt db) e = some p) :
    ∃ d, classEdge (ExportedGraph.nodeOf R) e.cols = some d ∧ DrawnAs x C d p := by
  obtain ⟨r, -, t, ht, -, -, hto, howner, hends'⟩ :=
    ends_of_mem he.classes (h.locatedNodes .classRefs) h.locatedClasses hmem
  rw [hends', Option.some_inj] at hends
  subst hends
  obtain ⟨k, hk⟩ := List.getElem?_of_mem ht
  have hlt := (List.getElem?_eq_some_iff.mp hk).1
  have hid : e.cols.toId.toNat = k := hto.trans (h.stored.classfiles.ids k t hk)
  have hpos : 0 < R.classfiles.length := by omega
  have hfirst := List.getElem?_eq_getElem hpos
  have hstart : start C (nodeVertex db .classRefs r) =
      (classOf db.toCallGraphDb R.classfiles[0].cols).strongClassname := by
    rw [nodeVertex, start, ← h.classes, List.map_map, List.head?_eq_getElem?, List.getElem?_map,
      hfirst]
    rfl
  refine ⟨⟨(0 : ℕ), k, ascii "class", kClassEdgeColor, .solid⟩, ?_, ?_, ?_, rfl, rfl⟩
  · rw [classEdge, howner, hid, nodeOf_of_lt h hlt]
    change (ExportedGraph.nodeOf R 0 >>= _) = _
    rw [nodeOf_of_lt h hpos]
    rfl
  · rw [hstart]
    exact classNode_mem h hx hfirst
  · exact classNode_mem h hx hk

/-- An edge to a member is drawn between the classes of its ends. -/
theorem drawn_memberEdge (h : Reads db R C) (hx : ExportedGraph.WellFormedGraph db R x)
    {i j : NodeTable} {T : Types (NodeCols i) (NodeCols j)} {edgeCount : NodeCols i → UInt64}
    {refCount : NodeCols j → UInt64} {es : List (Row EdgeCols)}
    (he : Linked (namesMember db.pool T R.classfiles) i.ownerClass edgeCount refCount (R.nodes i)
      (R.nodes j) es)
    (hstart : ∀ y, start C (.node i y) = y.strongClassname) {label : NodeCols j → Bytes}
    {color : String} (hlabel : ∀ t, label t = targetLabel (.node j (nodeOf db.toCallGraphDb j t)))
    (hcolor : ∀ y, targetColor (.node j y) = color) {e : Row EdgeCols} (hmem : e ∈ es)
    {p : Vertex × Vertex} (hends : endsOf (nodeAt db i) (nodeAt db j) e = some p) :
    ∃ d, memberEdge (ExportedGraph.nodeOf R) (R.nodes j) j.ownerClass label color e.cols =
      some d ∧ DrawnAs x C d p := by
  obtain ⟨r, hr, t, ht, -, -, hto, howner, hends'⟩ :=
    ends_of_mem he (h.locatedNodes i) (h.locatedNodes j) hmem
  rw [hends', Option.some_inj] at hends
  subst hends
  obtain ⟨k, hk⟩ := List.getElem?_of_mem ht
  have hid : e.cols.toId.toNat = k := hto.trans ((h.stored.nodes j).ids k t hk)
  obtain ⟨source, hsource, hfrom, -⟩ := h.owner_spec hr
  obtain ⟨target, htarget, hclass, -⟩ := h.owner_spec ht
  refine ⟨⟨((i.ownerClass r.cols).toNat : ℕ), ((j.ownerClass t.cols).toNat : ℕ), label t.cols,
    color, .solid⟩, ?_, ?_, ?_, hlabel _, (hcolor _).symm⟩
  · rw [memberEdge, howner, hid, hk, nodeOf_of_lt h (h.owned i r hr)]
    change (ExportedGraph.nodeOf R (j.ownerClass t.cols).toNat >>= _) = _
    rw [nodeOf_of_lt h (h.owned j t ht)]
    rfl
  · rw [nodeVertex, hstart, ← hfrom]
    exact classNode_mem h hx hsource
  · rw [show owner (nodeVertex db j t) = _ from hclass.symm]
    exact classNode_mem h hx htarget

theorem methodLabel_eq (r : MethodCols) : methodLabel db r =
    targetLabel (.node .methods (nodeOf db.toCallGraphDb .methods r)) := by
  change db.toCallGraphDb.getKey .methods r ++ _ ++ _ = _
  rw [getKey_eq_key]
  rfl

theorem fieldLabel_eq (r : FieldCols) : fieldLabel db r =
    targetLabel (.node .fields (nodeOf db.toCallGraphDb .fields r)) := by
  change db.toCallGraphDb.getKey .fields r ++ _ ++ _ = _
  rw [getKey_eq_key]
  rfl

/-- The solid edges are the edges of the call graph. -/
theorem drawn_solid (h : Reads db R C) (he : Exact db.pool R)
    (hx : ExportedGraph.WellFormedGraph db R x)
    (hsolid : x.edges.filter (fun e => e.style = .solid) =
      ExportedGraph.classEdges R (ExportedGraph.nodeOf R) ++
        ExportedGraph.methodEdges db R (ExportedGraph.nodeOf R) ++
        ExportedGraph.fieldEdges db R (ExportedGraph.nodeOf R)) :
    ∃ ps : List (Vertex × Vertex), ps.Nodup ∧ (∀ p, p ∈ ps ↔ Refers C p.1 p.2) ∧
      List.Forall₂ (DrawnAs x C) (x.edges.filter fun e => e.style = .solid) ps := by
  obtain ⟨ps, hmap, hnodup, hmem, -⟩ := (h.shows he).edges
  have hlive : ∀ i, (∀ e ∈ R.edges i, e.isDeleted = false) →
      liveRows (db.edges i) = live (R.edges i) := by
    intro i hi
    rw [liveRows_eq (h.stored.edges i) hi, live_eq_self hi]
  rw [edgesOf, hlive _ fun e hmem => (he.classes.only e hmem).1,
    hlive _ fun e hmem => (he.methods.only e hmem).1,
    hlive _ fun e hmem => (he.fields.only e hmem).1] at hmap
  obtain ⟨qs, ps₃, rfl, hqs, hps₃⟩ := List.append_eq_map_iff.mp hmap
  obtain ⟨ps₁, ps₂, rfl, hps₁, hps₂⟩ := List.append_eq_map_iff.mp hqs.symm
  refine ⟨_, hnodup, hmem, ?_⟩
  rw [hsolid]
  refine List.rel_append (List.rel_append ?_ ?_) ?_
  · refine forall₂_of_ends hps₁.symm fun e hmem p hends => ?_
    exact drawn_classEdge h he hx (mem_live.mp hmem).1 hends
  · refine forall₂_of_ends hps₂.symm fun e hmem p hends => ?_
    exact drawn_memberEdge (i := .methodRefs) (j := .methods) h hx he.methods (fun _ => rfl)
      methodLabel_eq (fun _ => rfl) (mem_live.mp hmem).1 hends
  · refine forall₂_of_ends hps₃.symm fun e hmem p hends => ?_
    exact drawn_memberEdge (i := .fieldRefs) (j := .fields) h hx he.fields (fun _ => rfl)
      fieldLabel_eq (fun _ => rfl) (mem_live.mp hmem).1 hends

/-- The references of a table that have no edge. -/
def unresolved (db : LinkDb) (R : Rows) (i : NodeTable) : List (NodeTable × Node) :=
  ((R.nodes i).filter fun r => edgesCounted i r.cols = 0).map fun r =>
    (i, nodeOf db.toCallGraphDb i r.cols)

theorem mem_unresolved (h : Reads db R C) (he : Exact db.pool R) {i : NodeTable}
    (hi : i ∈ referenceTables) (u : NodeTable × Node) : u ∈ unresolved db R i ↔
      u.1 = i ∧ u.2 ∈ C.nodes i ∧ ∀ v, ¬ Refers C (.node i u.2) v := by
  have hcount : ∀ r ∈ R.nodes i, (edgesCounted i r.cols = 0 ↔
      ∀ v, ¬ Refers C (nodeVertex db i r) v) := by
    intro r hr
    have hisolated := isolated_iff (h.shows he) ((h.mem_verticesOf _).mpr (.inr ⟨i, r, hr, rfl⟩))
    rw [← UInt64.toNat_inj, UInt64.toNat_zero]
    exact hisolated.trans (forall_congr' fun v => and_iff_left (not_refers_reference hi v _))
  rw [unresolved, List.mem_map]
  constructor
  · rintro ⟨r, hr, rfl⟩
    obtain ⟨hmem, hzero⟩ := List.mem_filter.mp hr
    exact ⟨rfl, (h.nodes i _).mp (List.mem_map_of_mem
      (f := fun r => nodeOf db.toCallGraphDb i r.cols) hmem),
      (hcount r hmem).mp (of_decide_eq_true hzero)⟩
  · rintro ⟨rfl, hnode, hnone⟩
    obtain ⟨r, hr, hread⟩ := List.mem_map.mp ((h.nodes _ _).mpr hnode)
    have hvertex : nodeVertex db u.1 r = .node u.1 u.2 := congrArg (Vertex.node u.1) hread
    have hzero := (hcount r hr).mpr fun v => hvertex ▸ hnone v
    exact ⟨r, List.mem_filter.mpr ⟨hr, decide_eq_true hzero⟩, Prod.ext rfl hread⟩

theorem nodup_unresolved (h : Reads db R C) :
    (referenceTables.flatMap (unresolved db R)).Nodup := by
  have hdistinct : referenceTables.Nodup := by decide
  rw [List.nodup_flatMap]
  constructor
  · intro i _
    have hnodes : ((R.nodes i).map fun r => (i, nodeOf db.toCallGraphDb i r.cols)).Nodup := by
      refine List.Nodup.of_map Prod.snd ?_
      rw [List.map_map]
      exact h.nodup i
    exact hnodes.sublist (List.filter_sublist.map _)
  · refine hdistinct.imp fun {i j} hij u hi hj => ?_
    obtain ⟨r, -, rfl⟩ := List.mem_map.mp hi
    obtain ⟨t, -, heq⟩ := List.mem_map.mp hj
    exact hij (Prod.mk.inj heq).1.symm

/-- The exporter reads from the reference what the node says. -/
structure Describes (R : Rows) (x : Exporter) (ref : Reference) (u : NodeTable × Node) :
    Prop where
  source : ∃ k : ℕ, ExportedGraph.nodeOf R ref.ownerClass.toNat = some (k : ℤ) ∧
    ⟨k, u.2.strongClassname, false⟩ ∈ x.nodes
  missingKey : ref.missingKey = missingLabel u.1 u.2
  label : ref.label = missingEdgeLabel u.1 u.2

theorem describes_unresolved (h : Reads db R C) (hx : ExportedGraph.WellFormedGraph db R x)
    (i : NodeTable) {ref : NodeCols i → Reference}
    (hcount : ∀ r, (ref r).edgeCount = edgesCounted i r)
    (howner : ∀ r, (ref r).ownerClass = i.ownerClass r)
    (hkey : ∀ r, (ref r).missingKey = missingLabel i (nodeOf db.toCallGraphDb i r))
    (hlabel : ∀ r, (ref r).label = missingEdgeLabel i (nodeOf db.toCallGraphDb i r)) :
    List.Forall₂ (Describes R x)
      (((live (R.nodes i)).map fun r => ref r.cols).filter
        (isUnresolved (ExportedGraph.nodeOf R))) (unresolved db R i) := by
  have hfilter : (live (R.nodes i)).filter
      (isUnresolved (ExportedGraph.nodeOf R) ∘ fun r => ref r.cols) =
        (R.nodes i).filter fun r => edgesCounted i r.cols = 0 := by
    rw [live_eq_self (h.liveNodes i)]
    apply List.filter_congr
    intro r hr
    simp [isUnresolved, hcount, howner, nodeOf_of_lt h (h.owned i r hr)]
  rw [List.filter_map, hfilter, unresolved, List.forall₂_map_left_iff, List.forall₂_map_right_iff,
    List.forall₂_same]
  intro r hr
  have hmem := (List.mem_filter.mp hr).1
  obtain ⟨source, hsource, hstrong, -⟩ := h.owner_spec hmem
  refine ⟨⟨(i.ownerClass r.cols).toNat, ?_, ?_⟩, hkey r.cols, hlabel r.cols⟩
  · rw [howner]
    exact nodeOf_of_lt h (h.owned i r hmem)
  · rw [← hstrong]
    exact classNode_mem h hx hsource

/-- The dashed edges are the references that lead nowhere. -/
theorem drawn_dashed (h : Reads db R C) (he : Exact db.pool R)
    (hx : ExportedGraph.WellFormedGraph db R x) :
    ∃ us : List (NodeTable × Node), us.Nodup ∧
      (∀ u, u ∈ us ↔ u.1 ∈ referenceTables ∧ u.2 ∈ C.nodes u.1 ∧
        ∀ v, ¬ Refers C (.node u.1 u.2) v) ∧
      List.Forall₂ (MissingAs x) (x.edges.filter fun e => e.style = .dashed) us := by
  refine ⟨referenceTables.flatMap (unresolved db R), nodup_unresolved h, fun u => ?_, ?_⟩
  · rw [List.mem_flatMap]
    constructor
    · rintro ⟨i, hi, hu⟩
      obtain ⟨rfl, hnode, hnone⟩ := (mem_unresolved h he hi u).mp hu
      exact ⟨hi, hnode, hnone⟩
    · rintro ⟨hi, hnode, hnone⟩
      exact ⟨u.1, hi, (mem_unresolved h he hi u).mpr ⟨rfl, hnode, hnone⟩⟩
  · have hall : List.Forall₂ (Describes R x)
        ((ExportedGraph.references db R).filter (isUnresolved (ExportedGraph.nodeOf R)))
        (unresolved db R .classRefs ++ unresolved db R .methodRefs ++
          unresolved db R .fieldRefs) := by
      rw [ExportedGraph.references, List.filter_append, List.filter_append]
      refine List.rel_append (List.rel_append ?_ ?_) ?_
      · exact describes_unresolved h hx .classRefs (fun _ => rfl) (fun _ => rfl) (fun _ => rfl)
          (fun _ => rfl)
      · exact describes_unresolved h hx .methodRefs (fun _ => rfl) (fun _ => rfl) (fun _ => rfl)
          (fun _ => rfl)
      · exact describes_unresolved h hx .fieldRefs (fun _ => rfl) (fun _ => rfl) (fun _ => rfl)
          (fun _ => rfl)
    have htables : referenceTables.flatMap (unresolved db R) = unresolved db R .classRefs ++
        unresolved db R .methodRefs ++ unresolved db R .fieldRefs := by
      simp [referenceTables]
    rw [htables]
    refine forall₂_comp ?_ hx.dashed hall
    intro e ref u hleads hdescribes
    obtain ⟨k, hnode, hmem⟩ := hdescribes.source
    have hfrom : e.fromId = k := Option.some.inj (hleads.fromId.symm.trans hnode)
    refine ⟨by rw [hfrom]; exact hmem, ?_, hleads.label.trans hdescribes.label, hleads.color⟩
    rw [← hdescribes.missingKey]
    exact hleads.toId

/-- What a run of the exporter returns. -/
theorem draws_of_run (h : Reads db R C) (he : Exact db.pool R) {fuel : ℕ}
    {out : Option Exporter} (hrun : run db fuel = .returned out) :
    (C.classes = [] ∧ out = none) ∨
      C.classes ≠ [] ∧ ∃ x, out = some x ∧ (x.nodes.length < 2 ^ 31 → Draws x C) := by
  have hempty : R.classfiles = [] ↔ C.classes = [] := by
    rw [← h.classes, List.map_eq_nil_iff]
  rcases ExportedGraph.collected_of_run h.stored hrun with ⟨hnil, rfl⟩ | ⟨hne, x, rfl, hx⟩
  · rw [live_classfiles h] at hnil
    exact .inl ⟨hempty.mp hnil, rfl⟩
  · rw [live_classfiles h] at hne
    refine .inr ⟨fun hnil => hne (hempty.mpr hnil), x, rfl, fun hlt => ?_⟩
    have hwell := ExportedGraph.wellFormed_of_collected hlt hx
    obtain ⟨labels, hshows, -, hsolid, -⟩ := hx
    have hclasses : (live R.classfiles).length < 2 ^ 31 := by
      have := hshows.length_nodes
      omega
    rw [ExportedGraph.nodeId_eq_nodeOf hclasses] at hsolid
    exact ⟨hwell.ids, labels_of_classes h hwell, hwell.missing, drawn_solid h he hwell hsolid,
      drawn_dashed h he hwell⟩

theorem inRange (h : Reads db R C) (he : Exact db.pool R) : ExportedGraph.InRange R := by
  have hmember : ∀ {i j : NodeTable} {T : Types (NodeCols i) (NodeCols j)}
      {owner : NodeCols i → RefCol} {edgeCount : NodeCols i → UInt64}
      {refCount : NodeCols j → UInt64} {es : List (Row EdgeCols)},
      Linked (namesMember db.pool T R.classfiles) owner edgeCount refCount (R.nodes i) (R.nodes j)
        es → ∀ e ∈ live es, e.cols.toId.toNat < (R.nodes j).length := by
    intro i j T owner edgeCount refCount es hes e hmem
    obtain ⟨-, -, t, ht, -, -, hto, -, -⟩ :=
      ends_of_mem hes (h.locatedNodes i) (h.locatedNodes j) (mem_live.mp hmem).1
    obtain ⟨k, hk⟩ := List.getElem?_of_mem ht
    rw [hto, (h.stored.nodes j).ids k t hk]
    exact (List.getElem?_eq_some_iff.mp hk).1
  exact ⟨hmember (i := .methodRefs) he.methods, hmember (i := .fieldRefs) he.fields⟩

theorem exists_run (h : Reads db R C) (he : Exact db.pool R)
    (hsmall : (edgesOf db).length < 2 ^ 32) : ∃ fuel out, run db fuel = .returned out := by
  have hlive : ∀ i, (∀ e ∈ R.edges i, e.isDeleted = false) →
      liveRows (db.edges i) = R.edges i := fun i hi => liveRows_eq (h.stored.edges i) hi
  rw [edgesOf, hlive _ fun e hmem => (he.classes.only e hmem).1,
    hlive _ fun e hmem => (he.methods.only e hmem).1,
    hlive _ fun e hmem => (he.fields.only e hmem).1, List.length_append, List.length_append,
    List.length_map, List.length_map, List.length_map] at hsmall
  refine ExportedGraph.exists_returned h.stored (inRange h he) h.small fun i => ?_
  cases i <;> omega

/-- A missing node is made for a reference. -/
theorem length_nodes_le (h : Reads db R C) {fuel : ℕ} {x : Exporter}
    (hrun : run db fuel = .returned (some x)) :
    x.nodes.length ≤ C.classes.length + (C.nodes .classRefs).length +
      (C.nodes .methodRefs).length + (C.nodes .fieldRefs).length := by
  rcases ExportedGraph.collected_of_run h.stored hrun with ⟨-, hnone⟩ | ⟨-, x', hx', hx⟩
  · cases hnone
  · obtain rfl := Option.some.inj hx'
    obtain ⟨labels, hshows, hlabels, -, -⟩ := hx
    have hrows : ∀ i, (live (R.nodes i)).length ≤ (C.nodes i).length := by
      intro i
      have hsub := (List.subperm_of_subset (h.nodup i) fun y hy => (h.nodes i y).mp hy).length_le
      rw [List.length_map] at hsub
      exact (List.length_filter_le _ _).trans hsub
    have hclassRefs := hrows .classRefs
    have hmethodRefs := hrows .methodRefs
    have hfieldRefs := hrows .fieldRefs
    have hreferences := hlabels.trans (List.length_filter_le _ _)
    have hclasses := congrArg List.length h.classes
    rw [List.length_map] at hclasses
    rw [ExportedGraph.references, List.length_append, List.length_append, List.length_map,
      List.length_map, List.length_map] at hreferences
    rw [hshows.length_nodes, live_classfiles h, hclasses]
    omega

end Drawing

section Counting
variable {C : Contents}

/-- The vertices that an edge may join. -/
def verticesIn (C : Contents) : List Vertex :=
  C.classes.map .classfile ++ [NodeTable.methods, .fields, .classRefs, .methodRefs,
    .fieldRefs].flatMap fun i => (C.nodes i).map (.node i)

theorem mem_verticesIn_of_classes {c : ClassName} (hc : c ∈ C.classes) :
    .classfile c ∈ verticesIn C :=
  List.mem_append_left _ (List.mem_map_of_mem hc)

theorem mem_verticesIn_of_nodes {i : NodeTable} {y : Node} (hy : y ∈ C.nodes i) :
    .node i y ∈ verticesIn C := by
  refine List.mem_append_right _ (List.mem_flatMap.mpr ⟨i, ?_, List.mem_map_of_mem hy⟩)
  cases i <;> decide

theorem length_edgesOf_le (h : ShowsGraph db C) :
    (edgesOf db).length ≤ (verticesIn C).length * (verticesIn C).length := by
  obtain ⟨es, hes, hnodup, hmem, -⟩ := h.edges
  have hsub : es ⊆ verticesIn C ×ˢ verticesIn C := by
    intro e he
    have hrefers := (hmem e).mp he
    rw [List.mem_product]
    obtain ⟨source, target⟩ := e
    cases hrefers with
    | toClass hx hc _ => exact ⟨mem_verticesIn_of_nodes hx, mem_verticesIn_of_classes hc⟩
    | toMethod hx hy _ _ _ => exact ⟨mem_verticesIn_of_nodes hx, mem_verticesIn_of_nodes hy⟩
    | toField hx hy _ _ _ => exact ⟨mem_verticesIn_of_nodes hx, mem_verticesIn_of_nodes hy⟩
  have hlength := (List.subperm_of_subset hnodup hsub).length_le
  rw [List.length_product] at hlength
  rwa [hes, List.length_map]

end Counting

section Programs
variable (A : ∀ α : Type, Allocator α) (I : Iteration) (garbage : ℕ → UInt8) (options : Options)
  {words : List Bytes} {xs : List GraphInput}

/-- The graph that is exported for a program is a drawing of its call graph. -/
theorem export_draws (hw : Lexicon words) (hnil : [] ∈ words) (hdry : options.dryRun = false)
    (h : Analysable words xs) {results : Results} {linked : LinkDb}
    (hrun : Analyses A I garbage options xs results linked) :
    (∀ fuel out, run linked fuel = .returned out →
      ((program xs).classes = [] ∧ out = none) ∨ (program xs).classes ≠ [] ∧
        ∃ x, out = some x ∧ (x.nodes.length < 2 ^ 31 → Draws x (program xs))) ∧
    ((edgesOf linked).length < 2 ^ 32 → ∃ fuel out, run linked fuel = .returned out) := by
  obtain ⟨R, hreads, hexact⟩ := reads_of_analyses A I garbage options hw hnil hdry h hrun
  exact ⟨fun fuel out hout => draws_of_run hreads hexact hout, exists_run hreads hexact⟩

end Programs

section Samples

/-- The exporter ends with the graph of two jars, which has few nodes. -/
theorem exists_run_sample : ∃ linked fuel x,
    Analyses Allocator.next Iteration.sorted (fun _ => 0) {}
      [sampleJarFile (ascii "a.jar"), sampleJarFile (ascii "b.jar")] {} linked ∧
    run linked fuel = .returned (some x) ∧ x.nodes.length < 2 ^ 31 := by
  obtain ⟨linked, hrun⟩ := exists_analyses Allocator.next Iteration.sorted (fun _ => 0) {}
    lexicon_programWords (by decide) rfl analysable_sample {}
  obtain ⟨R, hreads, hexact⟩ := reads_of_analyses Allocator.next Iteration.sorted (fun _ => 0) {}
    lexicon_programWords (by decide) rfl analysable_sample hrun
  have hedges : (edgesOf linked).length < 2 ^ 32 := by
    refine (length_edgesOf_le (hreads.shows hexact)).trans_lt ?_
    rw [program_sample]
    decide
  obtain ⟨fuel, out, hout⟩ := exists_run hreads hexact hedges
  rcases draws_of_run hreads hexact hout with ⟨hnone, -⟩ | ⟨-, x, rfl, -⟩
  · rw [program_sample] at hnone
    cases hnone
  · refine ⟨linked, fuel, x, hrun, hout, (length_nodes_le hreads hout).trans_lt ?_⟩
    rw [program_sample]
    decide

theorem export_draws_sample : ∃ linked fuel x,
    Analyses Allocator.next Iteration.sorted (fun _ => 0) {}
      [sampleJarFile (ascii "a.jar"), sampleJarFile (ascii "b.jar")] {} linked ∧
    run linked fuel = .returned (some x) ∧
    Draws x (program [sampleJarFile (ascii "a.jar"), sampleJarFile (ascii "b.jar")]) := by
  obtain ⟨linked, fuel, x, hrun, hout, hlt⟩ := exists_run_sample
  have hdraws := export_draws Allocator.next Iteration.sorted (fun _ => 0) {}
    lexicon_programWords (by decide) rfl analysable_sample hrun
  rcases hdraws.1 fuel _ hout with ⟨-, hnone⟩ | ⟨-, x', hx', hx⟩
  · cases hnone
  · obtain rfl := Option.some.inj hx'
    exact ⟨linked, fuel, x, hrun, hout, hx hlt⟩

end Samples

end Tarracsh.ProgramExport
