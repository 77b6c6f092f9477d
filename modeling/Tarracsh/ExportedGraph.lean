import Tarracsh.ExportPasses
import Tarracsh.LinkRepetition

/-!
# The exported graph is well formed

What a whole run of the exporter leaves, in terms of the rows of the database:
the nodes of the live classes, one node for each missing label, an edge for
every row of the edge tables between live classes and a dashed edge for every
reference without edges.
-/
namespace Tarracsh.ExportedGraph
open ByteStrings StringPool TableModel TableInvariant DomainTables CallGraphTables
open CallGraphLinking CountedLoops LinkPasses LinkJoins LinkRuns MachineIntegers CallGraphExport
open ExportPasses LinkExactness LinkRepetition

section Statement
variable (db : LinkDb) (R : Rows)

/-- The node of a class, as its position among the live classes. -/
def nodeOf (id : ℕ) : Option ℤ := (classNode (live R.classfiles) id).map Nat.cast

/-- The live references, in the order in which the exporter goes over them. -/
def references : List Reference :=
  ((live (R.nodes .classRefs)).map fun r => classReference db.pool r.cols) ++
  ((live (R.nodes .methodRefs)).map fun r => memberReference db.pool r.cols) ++
  (live (R.nodes .fieldRefs)).map fun r => memberReference db.pool r.cols

section Edges
variable (node : ℕ → Option ℤ)

def classEdges : List EdgeRecord :=
  (live (R.edges .classRefEdges)).filterMap fun e => classEdge node e.cols

def methodEdges : List EdgeRecord :=
  (live (R.edges .methodRefEdges)).filterMap fun e =>
    memberEdge node (R.nodes .methods) MethodCols.ownerClass (methodLabel db) kMethodEdgeColor
      e.cols

def fieldEdges : List EdgeRecord :=
  (live (R.edges .fieldRefEdges)).filterMap fun e =>
    memberEdge node (R.nodes .fields) FieldCols.ownerClass (fieldLabel db) kFieldEdgeColor e.cols

end Edges

/-- The dashed edge leads from the node of the owner to the node that stands
for the missing target. -/
structure LeadsToMissing (x : Exporter) (e : EdgeRecord) (ref : Reference) : Prop where
  fromId : nodeOf R ref.ownerClass.toNat = some e.fromId
  toId : ⟨e.toId, ref.missingKey, true⟩ ∈ x.nodes
  label : e.label = ref.label
  color : e.color = kMissingColor

structure WellFormedGraph (x : Exporter) : Prop where
  ids : ∀ (i : ℕ) (n : NodeRecord), x.nodes[i]? = some n → n.id = i
  classes : x.nodes.filter (fun n => !n.isMissing) =
    (live R.classfiles).mapIdx fun i r =>
      ⟨i, ClassFiles.getStrongClassname db.pool db.files r.cols, false⟩
  missing : ((x.nodes.filter (·.isMissing)).map NodeRecord.label).Nodup
  ends : ∀ e ∈ x.edges, (∃ n ∈ x.nodes, n.id = e.fromId) ∧ ∃ n ∈ x.nodes, n.id = e.toId
  dashed : List.Forall₂ (LeadsToMissing R x) (x.edges.filter (·.style = .dashed))
    ((references db R).filter (isUnresolved (nodeOf R)))
  methods : x.edges.filter (fun e => e.style = .solid ∧ e.color = kMethodEdgeColor) =
    methodEdges db R (nodeOf R)
  fields : x.edges.filter (fun e => e.style = .solid ∧ e.color = kFieldEdgeColor) =
    fieldEdges db R (nodeOf R)

/-- Every edge leads to a member that is there. -/
structure InRange : Prop where
  methods : ∀ e ∈ live (R.edges .methodRefEdges), e.cols.toId.toNat < (R.nodes .methods).length
  fields : ∀ e ∈ live (R.edges .fieldRefEdges), e.cols.toId.toNat < (R.nodes .fields).length

end Statement

section Run
variable {db : LinkDb} {R : Rows} {fuel : ℕ} {x : Exporter}

theorem nodup_ids {α : Type} {rs : List (Row α)} (h : Numbered rs) :
    ((live rs).map Row.id).Nodup := by
  refine List.Nodup.sublist (List.filter_sublist.map _) ?_
  rw [List.nodup_iff_getElem?_ne_getElem?]
  intro i j hij hj heq
  rw [List.length_map] at hj
  rw [List.getElem?_map, List.getElem?_map, List.getElem?_eq_getElem hj,
    List.getElem?_eq_getElem (hij.trans hj), Option.map_some, Option.map_some,
    Option.some_inj, h i _ (List.getElem?_eq_getElem _), h j _ (List.getElem?_eq_getElem _)] at heq
  omega

theorem shows_of_buildClassNodes (h : Stored db R)
    (hrun : buildClassNodes db fuel = .returned x) :
    Shows db (live R.classfiles) [] x ∧ x.edges = [] := by
  let Inv : List (Row ClassFileCols) → Exporter → Prop := fun done x =>
    (done.map Row.id).Nodup → Shows db done [] x ∧ x.edges = []
  have hstart : Inv [] {} :=
    fun _ => ⟨⟨rfl, fun _ => rfl, fun _ => rfl, List.nodup_nil⟩, rfl⟩
  refine foldlM_invariant Inv ?_ hstart (foldlM_of_returned h.classfiles hrun)
    (nodup_ids h.classfiles.ids)
  intro done row x x' hx hx' hnodup
  obtain rfl := Option.some.inj hx'
  rw [List.map_append, List.map_singleton, List.nodup_append] at hnodup
  obtain ⟨hshows, hedges⟩ := hx hnodup.1
  refine ⟨shows_addClassNode ?_ hshows, hedges⟩
  intro r hr
  exact hnodup.2.2 _ (List.mem_map_of_mem hr) _ (List.mem_singleton.mpr rfl)

/-- What the passes have collected at the end. -/
theorem collected_of_collectEdges (h : Stored db R) {x x' : Exporter}
    (hx : Shows db (live R.classfiles) [] x) (hedges : x.edges = [])
    (hrun : collectEdges db fuel x = .returned x') :
    Collected db (live R.classfiles)
      (classEdges R (nodeId (live R.classfiles)) ++
        methodEdges db R (nodeId (live R.classfiles)) ++
        fieldEdges db R (nodeId (live R.classfiles)))
      ((references db R).filter (isUnresolved (nodeId (live R.classfiles)))) x' := by
  have hstart : Collected db (live R.classfiles) [] [] x :=
    ⟨[], hx, le_rfl, by simp [hedges], by simp [hedges]⟩
  obtain ⟨x₂, hclasses, hrun⟩ := Progress.bind_eq_returned hrun
  obtain ⟨x₄, hmethods, hfields⟩ := Progress.bind_eq_returned hrun
  obtain ⟨x₁, hclassEdges, hclassRefs⟩ := Progress.bind_eq_returned hclasses
  obtain ⟨x₃, hmethodEdges, hmethodRefs⟩ := Progress.bind_eq_returned hmethods
  obtain ⟨x₅, hfieldEdges, hfieldRefs⟩ := Progress.bind_eq_returned hfields
  have h₁ := hstart.solidPass (h.edges .classRefEdges) _ (fun solid x row x' hx hx' => by
    obtain rfl := Option.some.inj hx'
    exact hx.collectClassEdge row.cols) hclassEdges
  have h₂ := h₁.missingPass (h.nodes .classRefs) _ hclassRefs
  have h₃ := h₂.solidPass (h.edges .methodRefEdges) _ (fun solid x row x' hx hx' =>
    hx.collectMemberEdge (h.nodes .methods) hx') hmethodEdges
  have h₄ := h₃.missingPass (h.nodes .methodRefs) _ hmethodRefs
  have h₅ := h₄.solidPass (h.edges .fieldRefEdges) _ (fun solid x row x' hx hx' =>
    hx.collectMemberEdge (h.nodes .fields) hx') hfieldEdges
  have h₆ := h₅.missingPass (h.nodes .fieldRefs) _ hfieldRefs
  rw [references, List.filter_append, List.filter_append]
  exact h₆

/-- Below `2 ^ 31` nodes the id of a class node is its position. -/
theorem nodeId_eq_nodeOf (hlt : (live R.classfiles).length < 2 ^ 31) :
    nodeId (live R.classfiles) = nodeOf R := by
  funext id
  unfold nodeId nodeOf
  cases hnode : classNode (live R.classfiles) id with
  | none => rfl
  | some i =>
      obtain ⟨r, hr, -⟩ := classNode_eq_some hnode
      have hi := (List.getElem?_eq_some_iff.mp hr).1
      simp [toInt_of_lt (hi.trans hlt)]

section Shown
variable {labels : List Bytes} (h : Shows db (live R.classfiles) labels x)
include h

theorem id_of_shows (hlt : x.nodes.length < 2 ^ 31) {i : ℕ} {n : NodeRecord}
    (hn : x.nodes[i]? = some n) : n.id = i := by
  have hi := (List.getElem?_eq_some_iff.mp hn).1
  rw [← toInt_of_lt (hi.trans hlt)]
  rw [h.nodes] at hn
  rcases Nat.lt_or_ge i (live R.classfiles).length with hclass | hmissing
  · rw [List.getElem?_append_left (by simpa using hclass), classNodes, List.getElem?_mapIdx,
      Option.map_eq_some_iff] at hn
    obtain ⟨r, -, rfl⟩ := hn
    rfl
  · rw [List.getElem?_append_right (by simpa using hmissing), length_classNodes, missingNodes,
      List.getElem?_mapIdx, Option.map_eq_some_iff] at hn
    obtain ⟨label, -, rfl⟩ := hn
    rw [Nat.add_sub_cancel' hmissing]

/-- The class nodes are those that are not missing. -/
theorem filter_of_shows :
    x.nodes.filter (fun n => !n.isMissing) = classNodes db (live R.classfiles) ∧
      x.nodes.filter (·.isMissing) = missingNodes (live R.classfiles).length labels := by
  have hclass : ∀ n ∈ classNodes db (live R.classfiles), n.isMissing = false := by
    intro n hn
    obtain ⟨i, hi, rfl⟩ := List.mem_mapIdx.mp hn
    rfl
  have hmissing : ∀ n ∈ missingNodes (live R.classfiles).length labels, n.isMissing = true := by
    intro n hn
    obtain ⟨i, hi, rfl⟩ := List.mem_mapIdx.mp hn
    rfl
  rw [h.nodes, List.filter_append, List.filter_append]
  constructor
  · rw [List.filter_eq_self.mpr (by simpa using hclass), List.filter_eq_nil_iff.mpr
      (by simpa using hmissing), List.append_nil]
  · rw [List.filter_eq_nil_iff.mpr (by simpa using hclass), List.filter_eq_self.mpr
      (by simpa using hmissing), List.nil_append]

theorem classNodes_of_shows (hlt : x.nodes.length < 2 ^ 31) :
    classNodes db (live R.classfiles) = (live R.classfiles).mapIdx fun i r =>
      ⟨i, ClassFiles.getStrongClassname db.pool db.files r.cols, false⟩ := by
  have hle := h.length_nodes
  apply List.ext_getElem?
  intro i
  rw [classNodes, List.getElem?_mapIdx, List.getElem?_mapIdx]
  cases hr : (live R.classfiles)[i]? with
  | none => rfl
  | some r =>
      have hi := (List.getElem?_eq_some_iff.mp hr).1
      rw [Option.map_some, Option.map_some, toInt_of_lt (by omega)]

/-- The node of a class is emitted. -/
theorem mem_nodes_of_nodeOf (hlt : x.nodes.length < 2 ^ 31) {id : ℕ} {n : ℤ}
    (hn : nodeOf R id = some n) : ∃ node ∈ x.nodes, node.id = n := by
  obtain ⟨i, hi, rfl⟩ := Option.map_eq_some_iff.mp hn
  obtain ⟨r, hr, -⟩ := classNode_eq_some hi
  have hlength : i < x.nodes.length := by
    rw [h.length_nodes]
    exact Nat.lt_add_right _ (List.getElem?_eq_some_iff.mp hr).1
  exact ⟨x.nodes[i], List.getElem_mem _, id_of_shows h hlt (List.getElem?_eq_getElem hlength)⟩

/-- So is the node of a missing label. -/
theorem mem_nodes_of_label {j : ℕ} {label : Bytes} (hj : labels[j]? = some label) :
    ⟨toInt ((live R.classfiles).length + j), label, true⟩ ∈ x.nodes := by
  rw [h.nodes, List.mem_append]
  refine .inr (List.mem_of_getElem? (i := j) ?_)
  rw [missingNodes, List.getElem?_mapIdx, hj, Option.map_some]

end Shown

theorem ends_of_mem_memberEdges {node : ℕ → Option ℤ} {τ : Type} {members : List (Row τ)}
    {ownerClass : τ → RefCol} {label : τ → Bytes} {color : String} {es : List (Row EdgeCols)}
    {e : EdgeRecord}
    (he : e ∈ es.filterMap fun e => memberEdge node members ownerClass label color e.cols) :
    (∃ id, node id = some e.fromId) ∧ (∃ id, node id = some e.toId) ∧ e.style = .solid ∧
      e.color = color := by
  obtain ⟨row, -, hrow⟩ := List.mem_filterMap.mp he
  obtain ⟨fromId, hfrom, hrow⟩ := Option.bind_eq_some_iff.mp hrow
  obtain ⟨member, -, hrow⟩ := Option.bind_eq_some_iff.mp hrow
  obtain ⟨toId, hto, hrow⟩ := Option.bind_eq_some_iff.mp hrow
  obtain rfl := Option.some.inj hrow
  exact ⟨⟨_, hfrom⟩, ⟨_, hto⟩, rfl, rfl⟩

theorem ends_of_mem_classEdges {node : ℕ → Option ℤ} {e : EdgeRecord}
    (he : e ∈ classEdges R node) :
    (∃ id, node id = some e.fromId) ∧ (∃ id, node id = some e.toId) ∧ e.style = .solid ∧
      e.color = kClassEdgeColor := by
  obtain ⟨row, -, hrow⟩ := List.mem_filterMap.mp he
  obtain ⟨fromId, hfrom, hrow⟩ := Option.bind_eq_some_iff.mp hrow
  obtain ⟨toId, hto, hrow⟩ := Option.bind_eq_some_iff.mp hrow
  obtain rfl := Option.some.inj hrow
  exact ⟨⟨_, hfrom⟩, ⟨_, hto⟩, rfl, rfl⟩

/-- The colour of a solid edge says of which kind it is. -/
theorem filter_color {es cs ms fs : List EdgeRecord}
    (hes : es.filter (·.style = .solid) = cs ++ ms ++ fs)
    (hcs : ∀ e ∈ cs, e.color = kClassEdgeColor) (hms : ∀ e ∈ ms, e.color = kMethodEdgeColor)
    (hfs : ∀ e ∈ fs, e.color = kFieldEdgeColor) (color : String) :
    es.filter (fun e => e.style = .solid ∧ e.color = color) =
      (if kClassEdgeColor = color then cs else []) ++
      (if kMethodEdgeColor = color then ms else []) ++
      if kFieldEdgeColor = color then fs else [] := by
  have hpart : ∀ (l : List EdgeRecord) (own : String), (∀ e ∈ l, e.color = own) →
      l.filter (fun e => e.color = color) = if own = color then l else [] := by
    intro l own hl
    split_ifs with hown
    · rw [List.filter_eq_self]
      intro e he
      simp [hl e he, hown]
    · rw [List.filter_eq_nil_iff]
      intro e he
      simp [hl e he, hown]
  have hsplit : es.filter (fun e => e.style = .solid ∧ e.color = color) =
      (es.filter (·.style = .solid)).filter fun e => e.color = color := by
    rw [List.filter_filter]
    congr 1
    funext e
    rw [Bool.decide_and, Bool.and_comm]
  rw [hsplit, hes, List.filter_append, List.filter_append, hpart cs _ hcs, hpart ms _ hms,
    hpart fs _ hfs]

/-- The solid edges by kind. -/
theorem filter_of_collected {node : ℕ → Option ℤ}
    (hsolid : x.edges.filter (·.style = .solid) =
      classEdges R node ++ methodEdges db R node ++ fieldEdges db R node) (color : String) :
    x.edges.filter (fun e => e.style = .solid ∧ e.color = color) =
      (if kClassEdgeColor = color then classEdges R node else []) ++
      (if kMethodEdgeColor = color then methodEdges db R node else []) ++
      if kFieldEdgeColor = color then fieldEdges db R node else [] :=
  filter_color hsolid (fun _ he => (ends_of_mem_classEdges he).2.2.2)
    (fun _ he => (ends_of_mem_memberEdges he).2.2.2)
    (fun _ he => (ends_of_mem_memberEdges he).2.2.2) color

theorem wellFormed_of_collected (hlt : x.nodes.length < 2 ^ 31)
    (hx : Collected db (live R.classfiles)
      (classEdges R (nodeId (live R.classfiles)) ++
        methodEdges db R (nodeId (live R.classfiles)) ++
        fieldEdges db R (nodeId (live R.classfiles)))
      ((references db R).filter (isUnresolved (nodeId (live R.classfiles)))) x) :
    WellFormedGraph db R x := by
  obtain ⟨labels, hshows, -, hsolid, hdashed⟩ := hx
  have hclasses : (live R.classfiles).length < 2 ^ 31 := by
    have := hshows.length_nodes
    omega
  rw [nodeId_eq_nodeOf hclasses] at hsolid hdashed
  have hleads : List.Forall₂ (LeadsToMissing R x) (x.edges.filter (·.style = .dashed))
      ((references db R).filter (isUnresolved (nodeOf R))) := by
    refine hdashed.imp ?_
    rintro e ref ⟨fromId, j, hfrom, hj, rfl⟩
    rw [nodeId_eq_nodeOf hclasses] at hfrom
    exact ⟨hfrom, mem_nodes_of_label hshows hj, rfl, rfl⟩
  refine ⟨fun i n => id_of_shows hshows hlt, ?_, ?_, ?_, hleads, ?_, ?_⟩
  · rw [(filter_of_shows hshows).1, classNodes_of_shows hshows hlt]
  · rw [(filter_of_shows hshows).2]
    have hlabels : (missingNodes (live R.classfiles).length labels).map NodeRecord.label =
        labels := by
      apply List.ext_getElem?
      intro i
      simp [missingNodes, Function.comp_def]
    rw [hlabels]
    exact hshows.nodup
  · intro e he
    cases hstyle : e.style with
    | solid =>
        have hmem : e ∈ x.edges.filter (·.style = .solid) := by simp [he, hstyle]
        rw [hsolid, List.mem_append, List.mem_append] at hmem
        have hends : (∃ id, nodeOf R id = some e.fromId) ∧ ∃ id, nodeOf R id = some e.toId := by
          rcases hmem with (hmem | hmem) | hmem
          · exact ⟨(ends_of_mem_classEdges hmem).1, (ends_of_mem_classEdges hmem).2.1⟩
          · exact ⟨(ends_of_mem_memberEdges hmem).1, (ends_of_mem_memberEdges hmem).2.1⟩
          · exact ⟨(ends_of_mem_memberEdges hmem).1, (ends_of_mem_memberEdges hmem).2.1⟩
        obtain ⟨⟨a, ha⟩, ⟨b, hb⟩⟩ := hends
        exact ⟨mem_nodes_of_nodeOf hshows hlt ha, mem_nodes_of_nodeOf hshows hlt hb⟩
    | dashed =>
        have hboth : List.Forall₂ (fun (e : EdgeRecord) ref =>
            ((∃ n ∈ x.nodes, n.id = e.fromId) ∧ ∃ n ∈ x.nodes, n.id = e.toId) ∧
              LeadsToMissing R x e ref) (x.edges.filter (·.style = .dashed))
            ((references db R).filter (isUnresolved (nodeOf R))) :=
          hleads.imp fun e ref href =>
            ⟨⟨mem_nodes_of_nodeOf hshows hlt href.fromId, _, href.toId, rfl⟩, href⟩
        have hends := ((List.forall₂_and_left _ _).mp hboth).1
        exact hends e (by simp [he, hstyle])
  · rw [filter_of_collected hsolid]
    simp [kClassEdgeColor, kMethodEdgeColor, kFieldEdgeColor]
  · rw [filter_of_collected hsolid]
    simp [kClassEdgeColor, kMethodEdgeColor, kFieldEdgeColor]

/-- A run that returns has collected everything, unless no class is live. -/
theorem collected_of_run (h : Stored db R) {out : Option Exporter}
    (hrun : run db fuel = .returned out) :
    (live R.classfiles = [] ∧ out = none) ∨
      (live R.classfiles ≠ [] ∧ ∃ x, out = some x ∧ Collected db (live R.classfiles)
        (classEdges R (nodeId (live R.classfiles)) ++
          methodEdges db R (nodeId (live R.classfiles)) ++
          fieldEdges db R (nodeId (live R.classfiles)))
        ((references db R).filter (isUnresolved (nodeId (live R.classfiles)))) x) := by
  obtain ⟨x, hbuild, hrun⟩ := Progress.bind_eq_returned hrun
  obtain ⟨hshows, hedges⟩ := shows_of_buildClassNodes h hbuild
  have hempty : x.nodes.isEmpty = true ↔ live R.classfiles = [] := by
    rw [List.isEmpty_iff_length_eq_zero, hshows.length_nodes]
    simp
  by_cases hnil : live R.classfiles = []
  · rw [if_pos (hempty.mpr hnil)] at hrun
    cases hrun
    exact .inl ⟨hnil, rfl⟩
  · rw [if_neg (fun hn => hnil (hempty.mp hn))] at hrun
    obtain ⟨x', hcollect, hrun⟩ := Progress.bind_eq_returned hrun
    cases hrun
    exact .inr ⟨hnil, x', rfl, collected_of_collectEdges h hshows hedges hcollect⟩

section Returns

theorem settles_total {α S : Type} {L : Layout α} {t : Table α} {rs : List (Row α)}
    (h : Core L t rs) (hn : rs.length < 2 ^ 32) {func : S → Row α → Option S}
    (hfunc : ∀ row ∈ live rs, ∀ s, (func s row).isSome) (s : S) :
    Settles (fun fuel => forEachRow t func fuel s) True fun _ => True := by
  have hsome : ∀ l : List (Row α), (∀ row ∈ l, ∀ s, (func s row).isSome) →
      ∀ s, (l.foldlM func s).isSome := by
    intro l
    induction l with
    | nil => exact fun _ _ => rfl
    | cons row l ih =>
        intro hl s
        obtain ⟨s', hs'⟩ := Option.isSome_iff_exists.mp (hl row (by simp) s)
        rw [List.foldlM_cons, hs']
        exact ih (fun row hrow => hl row (by simp [hrow])) s'
  exact ((settles_forEachRow h hn func s).congr (iff_true_intro (hsome _ hfunc s))).mono
    fun _ _ => trivial

/-- Over fewer than `2 ^ 32` rows in every table the exporter comes to an end. -/
theorem exists_returned (h : Stored db R) (hr : InRange R) (hs : R.Small)
    (he : ∀ e, (R.edges e).length < 2 ^ 32) : ∃ fuel out, run db fuel = .returned out := by
  have hmember : ∀ {τ : Type} {i : EdgeTable} {L : Layout τ} {t : Table τ} {rows : List (Row τ)}
      (_ : Core L t rows) (_ : ∀ e ∈ live (R.edges i), e.cols.toId.toNat < rows.length)
      (owner : τ → RefCol) (label : τ → Bytes) (color : String),
      ∀ row ∈ live (R.edges i), ∀ x : Exporter,
        (x.collectMemberEdge t owner label color row.cols).isSome := by
    intro τ i L t rows hrows hrange owner label color row hrow x
    unfold Exporter.collectMemberEdge
    rw [hrows.getRow_eq, List.getElem?_eq_getElem (hrange row hrow)]
    dsimp only [Option.bind_eq_bind, Option.bind_some]
    split_ifs
    · rfl
    · rfl
    · rfl
  have hclass : ∀ x, Settles (fun fuel => collectClassEdges db fuel x) (True ∧ True)
      fun _ => True := fun x =>
    (settles_total (h.edges .classRefEdges) (he _) (fun _ _ _ => rfl) x).bind fun x _ =>
      settles_total (h.nodes .classRefs) (hs.2 _) (fun _ _ _ => rfl) x
  have hmethod : ∀ x, Settles (fun fuel => collectMethodEdges db fuel x) (True ∧ True)
      fun _ => True := fun x =>
    (settles_total (h.edges .methodRefEdges) (he _)
      (hmember (h.nodes .methods) hr.methods _ _ _) x).bind fun x _ =>
      settles_total (h.nodes .methodRefs) (hs.2 _) (fun _ _ _ => rfl) x
  have hfield : ∀ x, Settles (fun fuel => collectFieldEdges db fuel x) (True ∧ True)
      fun _ => True := fun x =>
    (settles_total (h.edges .fieldRefEdges) (he _)
      (hmember (h.nodes .fields) hr.fields _ _ _) x).bind fun x _ =>
      settles_total (h.nodes .fieldRefs) (hs.2 _) (fun _ _ _ => rfl) x
  have hrest : ∀ x : Exporter, Settles (fun fuel => if x.nodes.isEmpty then pure none else do
      let x ← collectEdges db fuel x
      pure (some x)) True fun _ => True := by
    intro x
    by_cases hx : x.nodes.isEmpty
    · simp only [hx, if_true]
      exact fun fuel => .inr (.inl ⟨trivial, none, rfl, trivial⟩)
    · simp only [hx, Bool.false_eq_true, if_false]
      refine (((hclass x).bind fun x _ => (hmethod x).bind fun x _ => hfield x).map
        fun _ _ => trivial).congr ?_
      simp
  have hbuild : Settles (fun fuel => buildClassNodes db fuel) True fun _ => True := by
    refine settles_total h.classfiles hs.1 ?_ ({} : Exporter)
    exact fun _ _ _ => rfl
  have hrun := hbuild.bind fun x _ => hrest x
  obtain ⟨fuel, out, hout, -⟩ := hrun.exists_returned ⟨trivial, trivial⟩
  exact ⟨fuel, out, hout⟩

end Returns

end Run

section Samples

/-- The names of two class files and of their classes. -/
def twoPool : Pool where
  isDirty := true
  pool := [0] ++ ascii "A.class" ++ [0] ++ ascii "A" ++ [0] ++ ascii "B.class" ++ [0] ++
    ascii "B" ++ [0]
  hash := (((∅ : AList fun _ : Bytes => ℕ).insert [] 0).insert (ascii "A.class") 1 |>.insert
    (ascii "A") 9).insert (ascii "B.class") 11 |>.insert (ascii "B") 19
  size := StartPoolSize

def twoNames (i : ℕ) : StringCol := if i = 0 then 9 else 19

def twoClass (i : ℕ) : Row ClassFileCols :=
  ⟨0, i, { file := UInt64.ofNat i, classname := twoNames i }⟩

/-- Each class refers to itself. -/
def twoRef (i : ℕ) : Row ClassRefCols :=
  ⟨0, i, { ownerClass := UInt64.ofNat i, name := twoNames i }⟩

def twoFile (i : ℕ) : Row FileCols := ⟨0, i, { filename := if i = 0 then 1 else 11 }⟩

def twoFilenames (i : ℕ) : Bytes := if i = 0 then ascii "A.class" else ascii "B.class"

def twoClassnames (i : ℕ) : Bytes := if i = 0 then ascii "A" else ascii "B"

def twoStrongNames (i : ℕ) : Bytes :=
  DomainTables.getStrongClassname (twoFilenames i) (twoClassnames i)

/-- The database after the analysis of two class files. -/
def twoClasses : LinkDb where
  pool := twoPool
  files := tableOf Files.format 2 twoFile twoFilenames (by decide)
  classfiles := tableOf ClassFiles.format 2 twoClass twoStrongNames (by decide)
  nodes
    | .classRefs => tableOf ClassRefs.format 2 twoRef
        (fun i => twoStrongNames i ++ ascii "#" ++ twoClassnames i) (by decide)
    | .methods => Table.construct ⟨Methods.format, fun _ => []⟩
    | .fields => Table.construct ⟨Fields.format, fun _ => []⟩
    | .methodRefs => Table.construct ⟨MethodRefs.format, fun _ => []⟩
    | .fieldRefs => Table.construct ⟨FieldRefs.format, fun _ => []⟩
  edges e := Table.construct e.layout

def twoRows : Rows where
  classfiles := (List.range 2).map twoClass
  nodes
    | .classRefs => (List.range 2).map twoRef
    | .methods => []
    | .fields => []
    | .methodRefs => []
    | .fieldRefs => []
  edges _ := []

theorem stored_twoClasses : Stored twoClasses twoRows where
  classfiles := core_tableOf (by decide) (fun _ => rfl) _
  nodes i := by
    cases i with
    | classRefs => exact core_tableOf (by decide) (fun _ => rfl) _
    | methods => exact core_construct _
    | fields => exact core_construct _
    | methodRefs => exact core_construct _
    | fieldRefs => exact core_construct _
  edges e := core_construct _
  filed e := filed_construct _

end Samples

end Tarracsh.ExportedGraph
