import Tarracsh.CallGraphExport
import Tarracsh.LinkRuns

/-!
# The passes of the exporter

A loop over a table that stays is a fold over its live rows. Along the folds
the nodes are those of the live classes followed by one for each missing label
that has come up, the maps give their positions, and every collected edge
belongs to one row that was visited.
-/
namespace Tarracsh.ExportPasses
open ByteStrings TableModel TableInvariant DomainTables CallGraphTables CallGraphLinking
open CountedLoops LinkPasses MachineIntegers CallGraphExport

/-- The rows that are not deleted. -/
def live {α : Type} (rs : List (Row α)) : List (Row α) := rs.filter fun r => !r.isDeleted

theorem mem_live {α : Type} {rs : List (Row α)} {r : Row α} :
    r ∈ live rs ↔ r ∈ rs ∧ r.isDeleted = false := by
  simp [live]

section Loops
variable {α S : Type} {L : Layout α} {t : Table α} {rs : List (Row α)}

/-- Over fewer than `2 ^ 32` rows the loop is the fold over the live ones. -/
theorem settles_forEachRow (h : Core L t rs) (hn : rs.length < 2 ^ 32)
    (func : S → Row α → Option S) (s : S) :
    Settles (fun fuel => forEachRow t func fuel s) ((live rs).foldlM func s).isSome
      (fun s' => (live rs).foldlM func s = some s') := by
  let visited : ℕ → Option S := fun k => (live (rs.take k)).foldlM func s
  have hsucc : ∀ k r, rs[k]? = some r →
      visited (k + 1) = if r.isDeleted then visited k else visited k >>= fun s => func s r := by
    intro k r hr
    simp only [visited, live, List.take_add_one, hr, Option.toList_some, List.filter_append,
      List.foldlM_append]
    cases hdel : r.isDeleted with
    | true => simp [hdel]
    | false => simp [hdel]
  have hall : visited rs.length = (live rs).foldlM func s := by simp [visited]
  rw [← hall]
  refine settles_forEach hn (fun k s' => visited k = some s') (fun k => (visited k).isSome) ?_
    (fun _ _ _ => ⟨L, rs, h, rfl⟩) ?_ ?_ rfl rfl
  · intro k hk hgood
    rw [hsucc k _ (List.getElem?_eq_getElem hk)] at hgood
    cases hv : visited k with
    | some s' => rfl
    | none => simp [hv] at hgood
  · intro k s' p r hgood hs' hp hlookup hdel
    have hr : rs[k]? = some r := by rw [← h.lookup_of_index hp, hlookup]
    rw [hsucc k r hr, if_pos hdel]
    exact ⟨hgood, hs'⟩
  · intro k s' p r hgood hs' hp hlookup hdel
    have hr : rs[k]? = some r := by rw [← h.lookup_of_index hp, hlookup]
    have hnext : visited (k + 1) = func s' r := by
      rw [hsucc k r hr, hs', hdel]
      rfl
    rw [hnext, hlookup]
    cases hfunc : func s' r with
    | some s'' => exact .inl ⟨rfl, s'', hfunc, rfl⟩
    | none => exact .inr ⟨by simp, hfunc⟩

theorem foldlM_of_returned (h : Core L t rs) {func : S → Row α → Option S} {fuel : ℕ} {s s' : S}
    (hrun : forEachRow t func fuel s = .returned s') : (live rs).foldlM func s = some s' := by
  have hlt : t.autoIncrementIndex.length < 2 ^ 32 :=
    length_lt_of_returned (fun _ _ _ _ => rfl) hrun
  rw [h.length_eq] at hlt
  exact ((settles_forEachRow h hlt func s).returned hrun).2

/-- What every visit keeps holds behind the fold. -/
theorem foldlM_invariant {β : Type} {func : S → β → Option S} (Inv : List β → S → Prop)
    (hstep : ∀ done a s s', Inv done s → func s a = some s' → Inv (done ++ [a]) s')
    {done l : List β} {s s' : S} (hs : Inv done s) (hfold : l.foldlM func s = some s') :
    Inv (done ++ l) s' := by
  induction l generalizing done s with
  | nil =>
      obtain rfl := Option.some.inj hfold
      rwa [List.append_nil]
  | cons a l ih =>
      rw [List.foldlM_cons] at hfold
      obtain ⟨s₁, ha, hl⟩ := Option.bind_eq_some_iff.mp hfold
      rw [← List.singleton_append, ← List.append_assoc]
      exact ih (hstep done a s s₁ hs ha) hl

end Loops

section Nodes
variable (db : LinkDb) (classes : List (Row ClassFileCols))

/-- The position of the node of a class. -/
def classNode (id : ℕ) : Option ℕ := classes.findIdx? fun r => r.id = id

/-- The node id that edges are drawn with. A negative one is taken for none. -/
def nodeId (id : ℕ) : Option ℤ := ((classNode classes id).map toInt).filter fun n => 0 ≤ n

def classNodes : List NodeRecord :=
  classes.mapIdx fun i r =>
    ⟨toInt i, ClassFiles.getStrongClassname db.pool db.files r.cols, false⟩

/-- The nodes of missing targets, from position `n` on. -/
def missingNodes (n : ℕ) (labels : List Bytes) : List NodeRecord :=
  labels.mapIdx fun i label => ⟨toInt (n + i), label, true⟩

/-- The nodes and the two maps, when the given labels are missing. -/
structure Shows (labels : List Bytes) (x : Exporter) : Prop where
  nodes : x.nodes = classNodes db classes ++ missingNodes classes.length labels
  classIds : ∀ id, x.classNodeIds.lookup id = (classNode classes id).map toInt
  missingIds : ∀ label, x.missingNodeIds.lookup label =
    (labels.idxOf? label).map fun i => toInt (classes.length + i)
  nodup : labels.Nodup

variable {db classes} {labels : List Bytes} {x : Exporter} {row : Row ClassFileCols}

theorem classNode_eq_some {id i : ℕ} (h : classNode classes id = some i) :
    ∃ r, classes[i]? = some r ∧ r.id = id := by
  rw [classNode, List.findIdx?_eq_some_iff_getElem] at h
  obtain ⟨hlt, hid, -⟩ := h
  exact ⟨classes[i], List.getElem?_eq_getElem hlt, by simpa using hid⟩

theorem classNode_isSome_iff {id : ℕ} :
    (classNode classes id).isSome ↔ ∃ r ∈ classes, r.id = id := by
  rw [classNode, List.findIdx?_isSome, List.any_eq_true]
  simp

@[simp] theorem length_classNodes : (classNodes db classes).length = classes.length := by
  simp [classNodes]

@[simp] theorem length_missingNodes (n : ℕ) : (missingNodes n labels).length = labels.length := by
  simp [missingNodes]

theorem Shows.length_nodes (h : Shows db classes labels x) :
    x.nodes.length = classes.length + labels.length := by
  simp [h.nodes]

theorem Shows.getClassNodeId (h : Shows db classes labels x) (id : RefCol) :
    (nodeId classes id.toNat = none ∧ x.getClassNodeId id < 0) ∨
      (nodeId classes id.toNat = some (x.getClassNodeId id) ∧ 0 ≤ x.getClassNodeId id) := by
  unfold Exporter.getClassNodeId nodeId
  rw [h.classIds]
  cases classNode classes id.toNat with
  | none => exact .inl ⟨rfl, by simp⟩
  | some i =>
      by_cases hi : 0 ≤ toInt i
      · exact .inr ⟨by simp [hi], hi⟩
      · exact .inl ⟨by simpa using hi, by simpa using hi⟩

/-- The nodes and maps do not depend on the edges. -/
theorem Shows.pushEdge (h : Shows db classes labels x) (e : EdgeRecord) :
    Shows db classes labels (x.pushEdge e) :=
  ⟨h.nodes, h.classIds, h.missingIds, h.nodup⟩

theorem idxOf?_concat {κ : Type} [BEq κ] (l : List κ) (a b : κ) :
    (l ++ [a]).idxOf? b = (l.idxOf? b).or (if a == b then some l.length else none) := by
  rw [List.idxOf?, List.findIdx?_append, List.findIdx?_singleton]
  cases h : a == b with
  | true => simp
  | false => simp

/-- A label is found, or it gets a new node. -/
theorem Shows.getMissingNodeId (h : Shows db classes labels x) (label : Bytes) :
    ∃ labels' j, labels <+: labels' ∧ labels'.length ≤ labels.length + 1 ∧
      Shows db classes labels' (x.getMissingNodeId label).1 ∧
      labels'[j]? = some label ∧ (x.getMissingNodeId label).2 = toInt (classes.length + j) ∧
      (x.getMissingNodeId label).1.edges = x.edges := by
  unfold Exporter.getMissingNodeId
  rw [h.missingIds]
  cases hj : labels.idxOf? label with
  | some j =>
      obtain ⟨hlt, hlabel, -⟩ := List.idxOf?_eq_some_iff.mp hj
      exact ⟨labels, j, List.prefix_refl _, Nat.le_succ _, h,
        by rw [List.getElem?_eq_getElem hlt, hlabel], rfl, rfl⟩
  | none =>
      have hnew : label ∉ labels := List.idxOf?_eq_none_iff.mp hj
      dsimp only [Option.map_none]
      refine ⟨labels ++ [label], labels.length, List.prefix_append _ _, by simp,
        ⟨?_, h.classIds, ?_, ?_⟩, by simp, by rw [h.length_nodes], rfl⟩
      · simp [h.nodes, missingNodes, List.mapIdx_append]
      · intro l
        rw [idxOf?_concat]
        by_cases hl : l = label
        · subst hl
          rw [AList.lookup_insert, hj, h.length_nodes]
          simp
        · rw [AList.lookup_insert_ne hl, h.missingIds]
          simp [Ne.symm hl]
      · simpa [List.nodup_append] using ⟨h.nodup, fun l hl => ne_of_mem_of_not_mem hl hnew⟩

/-- The rows that the class nodes have been built from. -/
theorem shows_addClassNode (hid : ∀ r ∈ classes, r.id ≠ row.id) (h : Shows db classes [] x) :
    Shows db (classes ++ [row]) [] (x.addClassNode db row) := by
  have hlength : x.nodes.length = classes.length := by simp [h.length_nodes]
  refine ⟨?_, ?_, fun label => ?_, List.nodup_nil⟩
  · simp [Exporter.addClassNode, h.nodes, classNodes, missingNodes]
  · intro id
    have hnode : classNode (classes ++ [row]) id =
        (classNode classes id).or (if row.id = id then some classes.length else none) := by
      rw [classNode, List.findIdx?_append, List.findIdx?_singleton, classNode]
      by_cases hrow : row.id = id
      · simp [hrow]
      · simp [hrow]
    rw [hnode]
    change (x.classNodeIds.insert row.id (toInt x.nodes.length)).lookup id = _
    by_cases hrow : row.id = id
    · subst hrow
      have hnone : classNode classes row.id = none := by
        rw [← Option.not_isSome_iff_eq_none, classNode_isSome_iff]
        rintro ⟨r, hr, heq⟩
        exact hid r hr heq
      rw [AList.lookup_insert, hnone, hlength]
      simp
    · rw [AList.lookup_insert_ne (Ne.symm hrow), h.classIds]
      simp [hrow]
  · rw [Exporter.addClassNode, h.missingIds]
    simp

end Nodes

section Edges
variable (db : LinkDb) (classes : List (Row ClassFileCols))

section Records
variable (node : ℕ → Option ℤ)

/-- The edge for a row of `classRefEdges`, between the nodes of two classes. -/
def classEdge (e : EdgeCols) : Option EdgeRecord := do
  let fromId ← node e.ownerClass.toNat
  let toId ← node e.toId.toNat
  some ⟨fromId, toId, ascii "class", kClassEdgeColor, .solid⟩

/-- The edge for a row of `methodRefEdges` or `fieldRefEdges`. -/
def memberEdge {τ : Type} (members : List (Row τ)) (ownerClass : τ → RefCol) (label : τ → Bytes)
    (color : String) (e : EdgeCols) : Option EdgeRecord := do
  let fromId ← node e.ownerClass.toNat
  let row ← members[e.toId.toNat]?
  let toId ← node (ownerClass row.cols).toNat
  some ⟨fromId, toId, label row.cols, color, .solid⟩

/-- A reference without edges whose owner has a node. -/
def isUnresolved (ref : Reference) : Bool :=
  ref.edgeCount = 0 && (node ref.ownerClass.toNat).isSome

end Records

/-- The edge leads from the owner of the reference to the node of its target. -/
def Dashed (labels : List Bytes) (e : EdgeRecord) (ref : Reference) : Prop :=
  ∃ fromId j, nodeId classes ref.ownerClass.toNat = some fromId ∧
    labels[j]? = some ref.missingKey ∧
    e = ⟨fromId, toInt (classes.length + j), ref.label, kMissingColor, .dashed⟩

/-- The solid edges, and the references that the dashed edges belong to. Each of
these has made one missing node at most. -/
def Collected (solid : List EdgeRecord) (refs : List Reference) (x : Exporter) : Prop :=
  ∃ labels, Shows db classes labels x ∧ labels.length ≤ refs.length ∧
    x.edges.filter (·.style = .solid) = solid ∧
    List.Forall₂ (Dashed classes labels) (x.edges.filter (·.style = .dashed)) refs

variable {db classes} {solid : List EdgeRecord} {refs : List Reference} {x x' : Exporter}

theorem Dashed.mono {labels labels' : List Bytes} (hlabels : labels <+: labels') {e : EdgeRecord}
    {ref : Reference} (h : Dashed classes labels e ref) : Dashed classes labels' e ref := by
  obtain ⟨fromId, j, hfrom, hj, rfl⟩ := h
  obtain ⟨new, rfl⟩ := hlabels
  have hlt := (List.getElem?_eq_some_iff.mp hj).1
  exact ⟨fromId, j, hfrom, by rw [List.getElem?_append_left hlt, hj], rfl⟩

/-- A solid edge is pushed. -/
theorem Collected.pushSolid (h : Collected db classes solid refs x) {e : EdgeRecord}
    (he : e.style = .solid) : Collected db classes (solid ++ [e]) refs (x.pushEdge e) := by
  obtain ⟨labels, hx, hlength, hsolid, hdashed⟩ := h
  refine ⟨labels, hx.pushEdge e, hlength, ?_, ?_⟩
  · simp [Exporter.pushEdge, he, hsolid]
  · simpa [Exporter.pushEdge, he] using hdashed

theorem Collected.collectClassEdge (h : Collected db classes solid refs x) (e : EdgeCols) :
    Collected db classes (solid ++ (classEdge (nodeId classes) e).toList) refs
      (x.collectClassEdge e) := by
  obtain ⟨labels, hx, -, -, -⟩ := id h
  unfold Exporter.collectClassEdge classEdge
  rcases hx.getClassNodeId e.ownerClass with ⟨hnone, hneg⟩ | ⟨hfrom, hpos⟩
  · have hnot : ¬ (x.getClassNodeId e.ownerClass ≥ 0 ∧ x.getClassNodeId e.toId ≥ 0) := by omega
    simpa [hnone, if_neg hnot] using h
  · rcases hx.getClassNodeId e.toId with ⟨hnone, hneg⟩ | ⟨hto, hpos'⟩
    · have hnot : ¬ (x.getClassNodeId e.ownerClass ≥ 0 ∧ x.getClassNodeId e.toId ≥ 0) := by omega
      simpa [hfrom, hnone, if_neg hnot] using h
    · simpa [hfrom, hto, hpos, hpos'] using h.pushSolid rfl

theorem Collected.collectMemberEdge (h : Collected db classes solid refs x) {τ : Type}
    {L : Layout τ} {members : Table τ} {rows : List (Row τ)} (hrows : Core L members rows)
    {ownerClass : τ → RefCol} {label : τ → Bytes} {color : String} {e : EdgeCols}
    (hx' : x.collectMemberEdge members ownerClass label color e = some x') :
    Collected db classes
      (solid ++ (memberEdge (nodeId classes) rows ownerClass label color e).toList) refs x' := by
  obtain ⟨labels, hx, -, -, -⟩ := id h
  unfold Exporter.collectMemberEdge at hx'
  unfold memberEdge
  rw [hrows.getRow_eq] at hx'
  cases hrow : rows[e.toId.toNat]? with
  | none => simp [hrow] at hx'
  | some row =>
      simp only [hrow, Option.bind_eq_bind, Option.bind_some] at hx' ⊢
      rcases hx.getClassNodeId e.ownerClass with ⟨hnone, hneg⟩ | ⟨hfrom, hpos⟩
      · rw [if_pos hneg, Option.some_inj] at hx'
        subst hx'
        simpa [hnone] using h
      · rw [if_neg (by omega)] at hx'
        rcases hx.getClassNodeId (ownerClass row.cols) with ⟨hnone, hneg⟩ | ⟨hto, hpos'⟩
        · rw [if_pos hneg, Option.some_inj] at hx'
          subst hx'
          simpa [hfrom, hnone] using h
        · rw [if_neg (by omega), Option.some_inj] at hx'
          subst hx'
          simpa [hfrom, hto] using h.pushSolid rfl

theorem Collected.collectMissing (h : Collected db classes solid refs x) (ref : Reference) :
    Collected db classes solid (refs ++ [ref].filter (isUnresolved (nodeId classes)))
      (x.collectMissing ref) := by
  obtain ⟨labels, hx, hlength, hsolid, hdashed⟩ := id h
  unfold Exporter.collectMissing
  by_cases hcount : ref.edgeCount = 0
  · rw [if_pos hcount]
    rcases hx.getClassNodeId ref.ownerClass with ⟨hnone, hneg⟩ | ⟨hfrom, hpos⟩
    · simpa [isUnresolved, hnone, if_pos hneg] using h
    · obtain ⟨labels', j, hlabels, hlength', hx', hj, hto, hedges⟩ :=
        hx.getMissingNodeId ref.missingKey
      have hunresolved : isUnresolved (nodeId classes) ref = true := by
        simp [isUnresolved, hcount, hfrom]
      dsimp only
      rw [if_neg (by omega), List.filter_singleton, hunresolved, cond_true, hto]
      refine ⟨labels', hx'.pushEdge _, ?_, ?_, ?_⟩
      · rw [List.length_append, List.length_singleton]
        omega
      · simp [Exporter.pushEdge, hedges, hsolid]
      · simp only [Exporter.pushEdge, hedges, List.filter_append]
        exact List.rel_append (hdashed.imp fun _ _ => Dashed.mono hlabels)
          (.cons ⟨_, j, hfrom, hj, rfl⟩ .nil)
  · simpa [isUnresolved, if_neg hcount, hcount] using h

section Passes
variable {α : Type} {L : Layout α} {t : Table α} {rows : List (Row α)} {fuel : ℕ}

/-- A pass whose every visit collects the solid edge of a row, if it has one. -/
theorem Collected.solidPass (h : Collected db classes solid refs x) (hrows : Core L t rows)
    {func : Exporter → Row α → Option Exporter} (edge : α → Option EdgeRecord)
    (hfunc : ∀ solid x row x', Collected db classes solid refs x → func x row = some x' →
      Collected db classes (solid ++ (edge row.cols).toList) refs x')
    (hrun : forEachRow t func fuel x = .returned x') :
    Collected db classes (solid ++ (live rows).filterMap fun row => edge row.cols) refs x' := by
  let Inv : List (Row α) → Exporter → Prop := fun done x =>
    Collected db classes (solid ++ done.filterMap fun row => edge row.cols) refs x
  have hstart : Inv [] x := by simpa [Inv] using h
  refine foldlM_invariant Inv ?_ hstart (foldlM_of_returned hrows hrun)
  intro done row x x' hx hx'
  have hstep := hfunc _ x row x' hx hx'
  rw [List.append_assoc] at hstep
  simp only [Inv, List.filterMap_append]
  cases hedge : edge row.cols with
  | none => simpa [hedge] using hstep
  | some e => simpa [hedge] using hstep

/-- The pass over the references of a kind. -/
theorem Collected.missingPass (h : Collected db classes solid refs x) (hrows : Core L t rows)
    (ref : α → Reference)
    (hrun : forEachRow t (fun x row => some (x.collectMissing (ref row.cols))) fuel x =
      .returned x') :
    Collected db classes solid (refs ++
      ((live rows).map fun row => ref row.cols).filter (isUnresolved (nodeId classes))) x' := by
  let Inv : List (Row α) → Exporter → Prop := fun done x => Collected db classes solid
    (refs ++ (done.map fun row => ref row.cols).filter (isUnresolved (nodeId classes))) x
  have hstart : Inv [] x := by simpa [Inv] using h
  refine foldlM_invariant Inv ?_ hstart (foldlM_of_returned hrows hrun)
  intro done row x x' hx hx'
  obtain rfl := Option.some.inj hx'
  have hstep := hx.collectMissing (ref row.cols)
  rw [List.append_assoc, ← List.filter_append] at hstep
  simpa [Inv] using hstep

end Passes

end Edges

end Tarracsh.ExportPasses
