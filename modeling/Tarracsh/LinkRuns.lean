import Tarracsh.LinkJoins

/-!
# A whole run of the linker

`linkRefNodes` builds its three indexes and makes its three passes. It returns
when every table has fewer than `2 ^ 32` rows, every live member has an owner
and no matching pair is joined yet; the rows it leaves count the new edges.
-/
namespace Tarracsh.LinkRuns
open ByteStrings TableModel TableInvariant DomainTables CallGraphTables CallGraphLinking
open CountedLoops LinkPasses LinkIndexes LinkJoins

/-- The rows of the tables that linking uses. -/
structure Rows where
  classfiles : List (Row ClassFileCols)
  nodes : ∀ i, List (Row (NodeCols i))
  edges : EdgeTable → List (Row EdgeCols)

/-- The database holds the given rows. -/
structure Stored (db : LinkDb) (R : Rows) : Prop where
  classfiles : Core ⟨ClassFiles.format, fun _ => []⟩ db.classfiles R.classfiles
  nodes : ∀ i, Core ⟨i.format, fun _ => []⟩ (db.nodes i) (R.nodes i)
  edges : ∀ e, Core e.layout (db.edges e) (R.edges e)
  filed : ∀ e, Filed e.layout (db.edges e) (R.edges e)

namespace Rows

/-- The ids fit into the counter of `forEach`. -/
def Small (R : Rows) : Prop :=
  R.classfiles.length < 2 ^ 32 ∧ ∀ i, (R.nodes i).length < 2 ^ 32

/-- Every live member has an owner. -/
def Owned (R : Rows) : Prop :=
  (∀ r ∈ R.nodes .methods, r.isDeleted = false →
    (memberKey methodTypes R.classfiles r).isSome) ∧
  ∀ r ∈ R.nodes .fields, r.isDeleted = false → (memberKey fieldTypes R.classfiles r).isSome

/-- The edges of each table join the matching rows. -/
structure JoinedBy (R : Rows) (new : EdgeTable → List EdgeCols) : Prop where
  classes : Joins classMatching (fun _ => 0) (R.nodes .classRefs) R.classfiles
    (new .classRefEdges)
  methods : Joins (memberMatching methodTypes R.classfiles) methodTypes.refOwner
    (R.nodes .methodRefs) (R.nodes .methods) (new .methodRefEdges)
  fields : Joins (memberMatching fieldTypes R.classfiles) fieldTypes.refOwner
    (R.nodes .fieldRefs) (R.nodes .fields) (new .fieldRefEdges)

/-- No matching rows are joined. -/
structure Fresh (R : Rows) : Prop where
  classes : Unjoined classMatching (R.nodes .classRefs) R.classfiles
    ((R.edges .classRefEdges).map Row.cols)
  methods : Unjoined (memberMatching methodTypes R.classfiles) (R.nodes .methodRefs)
    (R.nodes .methods) ((R.edges .methodRefEdges).map Row.cols)
  fields : Unjoined (memberMatching fieldTypes R.classfiles) (R.nodes .fieldRefs)
    (R.nodes .fields) ((R.edges .fieldRefEdges).map Row.cols)

/-- The new edges of the three tables. -/
def newEdges (classes methods fields : List EdgeCols) : EdgeTable → List EdgeCols
  | .classRefEdges => classes
  | .methodRefEdges => methods
  | .fieldRefEdges => fields

/-- The rows after the edges have been filed and counted. -/
def linked (R : Rows) (new : EdgeTable → List EdgeCols) : Rows where
  classfiles := counted classRefCounter EdgeCols.toId (new .classRefEdges) R.classfiles
  nodes
    | .methods => counted Types.lawful_methodTypes.refCounter EdgeCols.toId
        (new .methodRefEdges) (R.nodes .methods)
    | .fields => counted Types.lawful_fieldTypes.refCounter EdgeCols.toId
        (new .fieldRefEdges) (R.nodes .fields)
    | .classRefs => counted classEdgeCounter EdgeCols.fromId
        (new .classRefEdges) (R.nodes .classRefs)
    | .methodRefs => counted Types.lawful_methodTypes.edgeCounter EdgeCols.fromId
        (new .methodRefEdges) (R.nodes .methodRefs)
    | .fieldRefs => counted Types.lawful_fieldTypes.edgeCounter EdgeCols.fromId
        (new .fieldRefEdges) (R.nodes .fieldRefs)
  edges e := fileEdges (R.edges e) (new e)

end Rows

section Run
variable (A : ∀ α : Type, Allocator α) (I : Iteration) {db : LinkDb} {R : Rows}

theorem settles_linkClassRefs (h : Stored db R) (hs : R.Small) {index : ClassesByName}
    (hindex : IndexesClasses db.classfiles R.classfiles index) :
    Settles (fun fuel => db.linkClassRefs A I fuel index)
      (Unjoined classMatching (R.nodes .classRefs) R.classfiles
        ((R.edges .classRefEdges).map Row.cols))
      (fun db' => ∃ new, Joins classMatching (fun _ => 0) (R.nodes .classRefs) R.classfiles new ∧
        ∃ s, db' = { db with
          classfiles := s.targets
          nodes := Function.update db.nodes .classRefs s.refs
          edges := Function.update db.edges .classRefEdges s.edges } ∧
        Represents ClassRefs.format ClassFiles.format .classRefEdges s
          (counted classEdgeCounter EdgeCols.fromId new (R.nodes .classRefs))
          (fileEdges (R.edges .classRefEdges) new)
          (counted classRefCounter EdgeCols.toId new R.classfiles)) := by
  have hpass := settles_classPass A I (E := .classRefEdges) (s := ⟨_, _, _⟩)
    ⟨h.nodes .classRefs, h.edges .classRefEdges, h.filed .classRefEdges, h.classfiles⟩
    (hs.2 .classRefs) hs.1 hindex
  refine hpass.map ?_
  rintro s ⟨new, hjoins, hrep⟩
  exact ⟨new, hjoins, s, rfl, hrep⟩

section Members
variable (db : LinkDb) {index : MembersIndex} {classes : List (Row ClassFileCols)}

theorem settles_linkMethodRefs {rs : List (Row MethodRefCols)} {es : List (Row EdgeCols)}
    {ts : List (Row MethodCols)}
    (h : Represents MethodRefs.format Methods.format .methodRefEdges
      ⟨db.nodes .methodRefs, db.edges .methodRefEdges, db.nodes .methods⟩ rs es ts)
    (hrs : rs.length < 2 ^ 32) (hts : ts.length < 2 ^ 32)
    (hindex : IndexesMembers methodTypes classes (db.nodes .methods) ts index) :
    Settles (fun fuel => db.linkMethodRefs A I fuel index)
      (Unjoined (memberMatching methodTypes classes) rs ts (es.map Row.cols))
      (fun db' => ∃ new, Joins (memberMatching methodTypes classes) methodTypes.refOwner rs ts new ∧
        ∃ s, db' = { db with
          nodes := Function.update (Function.update db.nodes .methodRefs s.refs) .methods s.targets
          edges := Function.update db.edges .methodRefEdges s.edges } ∧
        Represents MethodRefs.format Methods.format .methodRefEdges s
          (counted Types.lawful_methodTypes.edgeCounter EdgeCols.fromId new rs)
          (fileEdges es new)
          (counted Types.lawful_methodTypes.refCounter EdgeCols.toId new ts)) := by
  have hpass := settles_memberPass A I Types.lawful_methodTypes h hrs hts hindex
  refine hpass.map ?_
  rintro s ⟨new, hjoins, hrep⟩
  exact ⟨new, hjoins, s, rfl, hrep⟩

theorem settles_linkFieldRefs {rs : List (Row FieldRefCols)} {es : List (Row EdgeCols)}
    {ts : List (Row FieldCols)}
    (h : Represents FieldRefs.format Fields.format .fieldRefEdges
      ⟨db.nodes .fieldRefs, db.edges .fieldRefEdges, db.nodes .fields⟩ rs es ts)
    (hrs : rs.length < 2 ^ 32) (hts : ts.length < 2 ^ 32)
    (hindex : IndexesMembers fieldTypes classes (db.nodes .fields) ts index) :
    Settles (fun fuel => db.linkFieldRefs A I fuel index)
      (Unjoined (memberMatching fieldTypes classes) rs ts (es.map Row.cols))
      (fun db' => ∃ new, Joins (memberMatching fieldTypes classes) fieldTypes.refOwner rs ts new ∧
        ∃ s, db' = { db with
          nodes := Function.update (Function.update db.nodes .fieldRefs s.refs) .fields s.targets
          edges := Function.update db.edges .fieldRefEdges s.edges } ∧
        Represents FieldRefs.format Fields.format .fieldRefEdges s
          (counted Types.lawful_fieldTypes.edgeCounter EdgeCols.fromId new rs)
          (fileEdges es new)
          (counted Types.lawful_fieldTypes.refCounter EdgeCols.toId new ts)) := by
  have hpass := settles_memberPass A I Types.lawful_fieldTypes h hrs hts hindex
  refine hpass.map ?_
  rintro s ⟨new, hjoins, hrep⟩
  exact ⟨new, hjoins, s, rfl, hrep⟩

end Members

/-- The three passes over the references. -/
theorem settles_passes (h : Stored db R) (hs : R.Small) {classesByName : ClassesByName}
    {methodsIndex fieldsIndex : MembersIndex}
    (hclasses : IndexesClasses db.classfiles R.classfiles classesByName)
    (hmethods : IndexesMembers methodTypes R.classfiles (db.nodes .methods) (R.nodes .methods)
      methodsIndex)
    (hfields : IndexesMembers fieldTypes R.classfiles (db.nodes .fields) (R.nodes .fields)
      fieldsIndex) :
    Settles (fun fuel => db.linkClassRefs A I fuel classesByName >>= fun db =>
        db.linkMethodRefs A I fuel methodsIndex >>= fun db =>
        db.linkFieldRefs A I fuel fieldsIndex) R.Fresh
      (fun db' => db'.pool = db.pool ∧ ∃ new, R.JoinedBy new ∧ Stored db' (R.linked new)) := by
  have hfresh : Unjoined classMatching (R.nodes .classRefs) R.classfiles
        ((R.edges .classRefEdges).map Row.cols) ∧
      Unjoined (memberMatching methodTypes R.classfiles) (R.nodes .methodRefs)
        (R.nodes .methods) ((R.edges .methodRefEdges).map Row.cols) ∧
      Unjoined (memberMatching fieldTypes R.classfiles) (R.nodes .fieldRefs)
        (R.nodes .fields) ((R.edges .fieldRefEdges).map Row.cols) ↔ R.Fresh :=
    ⟨fun h => ⟨h.1, h.2.1, h.2.2⟩, fun h => ⟨h.1, h.2, h.3⟩⟩
  refine Settles.congr ((settles_linkClassRefs A I h hs hclasses).bind ?_) hfresh
  rintro db₁ ⟨new₁, hjoins₁, s₁, hdb₁, h₁⟩
  refine (settles_linkMethodRefs A I db₁ (by
    rw [hdb₁]
    exact ⟨h.nodes .methodRefs, h.edges .methodRefEdges, h.filed .methodRefEdges,
      h.nodes .methods⟩) (hs.2 .methodRefs) (hs.2 .methods) (by
    rw [hdb₁]
    exact hmethods)).bind ?_
  rintro db₂ ⟨new₂, hjoins₂, s₂, hdb₂, h₂⟩
  refine (settles_linkFieldRefs A I db₂ (by
    rw [hdb₂, hdb₁]
    exact ⟨h.nodes .fieldRefs, h.edges .fieldRefEdges, h.filed .fieldRefEdges,
      h.nodes .fields⟩) (hs.2 .fieldRefs) (hs.2 .fields) (by
    rw [hdb₂, hdb₁]
    exact hfields)).mono ?_
  rintro _ ⟨new₃, hjoins₃, s₃, rfl, h₃⟩
  subst hdb₂ hdb₁
  refine ⟨rfl, Rows.newEdges new₁ new₂ new₃,
    ⟨hjoins₁, hjoins₂, hjoins₃⟩, h₁.targets, ?_, ?_, ?_⟩
  · intro i
    cases i with
    | methods => exact h₂.targets
    | fields => exact h₃.targets
    | classRefs => exact h₁.refs
    | methodRefs => exact h₂.refs
    | fieldRefs => exact h₃.refs
  · intro e
    cases e with
    | classRefEdges => exact h₁.edges
    | methodRefEdges => exact h₂.edges
    | fieldRefEdges => exact h₃.edges
  · intro e
    cases e with
    | classRefEdges => exact h₁.filed
    | methodRefEdges => exact h₂.filed
    | fieldRefEdges => exact h₃.filed

/-- How a run of the linker ends over tables of fewer than `2 ^ 32` rows. -/
theorem settles_linkRefNodes (h : Stored db R) (hs : R.Small) :
    Settles (fun fuel => db.linkRefNodes A I fuel) (R.Owned ∧ R.Fresh)
      (fun db' => db'.pool = db.pool ∧ ∃ new, R.JoinedBy new ∧ Stored db' (R.linked new)) := by
  have hrun := (settles_createClassnameIndex h.classfiles hs.1).bind fun classesByName hclasses =>
    (settles_createMemberIndex methodTypes h.classfiles (h.nodes .methods) (hs.2 .methods)).bind
      fun methodsIndex hmethods =>
    (settles_createMemberIndex fieldTypes h.classfiles (h.nodes .fields) (hs.2 .fields)).bind
      fun fieldsIndex hfields => settles_passes A I h hs hclasses hmethods hfields
  exact hrun.congr ⟨fun ⟨_, hm, hf, hfresh⟩ => ⟨⟨hm, hf⟩, hfresh⟩,
    fun ⟨⟨hm, hf⟩, hfresh⟩ => ⟨trivial, hm, hf, hfresh⟩⟩

section Endless

theorem foldlM_frame {S X Y : Type} {f : S → X → Option S} (view : S → Y)
    (hf : ∀ s x s', f s x = some s' → view s' = view s) {xs : List X} {s s' : S}
    (h : xs.foldlM f s = some s') : view s' = view s := by
  induction xs generalizing s with
  | nil =>
      obtain rfl := Option.some.inj h
      rfl
  | cons x xs ih =>
      rw [List.foldlM_cons] at h
      obtain ⟨s₁, hx, hxs⟩ := Option.bind_eq_some_iff.mp h
      rw [ih hxs, hf s x s₁ hx]

theorem updateInPlace_index {α : Type} {t t' : Table α} {p : ℕ} {change : Row α → Row α}
    (h : t.updateInPlace p change = some t') : t'.autoIncrementIndex = t.autoIncrementIndex := by
  obtain ⟨row, -, hrow⟩ := Option.bind_eq_some_iff.mp h
  obtain rfl := Option.some.inj hrow
  rfl

theorem linkEdge_refs {ρ τ : Type} {E : EdgeTable} {cols : EdgeCols} {pTarget : Option ℕ}
    {change : τ → τ} {s s' : Pass ρ τ} (h : linkEdge A E cols pTarget change s = some s') :
    s'.refs = s.refs := by
  obtain ⟨_, -, h⟩ := Option.bind_eq_some_iff.mp h
  obtain ⟨_, -, h⟩ := Option.bind_eq_some_iff.mp h
  obtain ⟨_, -, h⟩ := Option.bind_eq_some_iff.mp h
  obtain rfl := Option.some.inj h
  rfl

/-- The loop over the references runs over one and the same index. -/
theorem linkClassRef_index {E : EdgeTable} {index : ClassesByName}
    {s s' : Pass ClassRefCols ClassFileCols} {p : ℕ}
    (h : linkClassRef A I E index s p = some s') :
    s'.refs.autoIncrementIndex = s.refs.autoIncrementIndex := by
  obtain ⟨row, -, h⟩ := Option.bind_eq_some_iff.mp h
  cases hclasses : index.lookup row.cols.name with
  | none =>
      simp only [hclasses] at h
      obtain rfl := Option.some.inj h
      rfl
  | some classes =>
      simp only [hclasses] at h
      obtain ⟨refs, hrefs, h⟩ := Option.bind_eq_some_iff.mp h
      have hframe : s'.refs = refs := foldlM_frame Pass.refs (fun s x s' hx => by
        obtain ⟨_, -, hx⟩ := Option.bind_eq_some_iff.mp hx
        exact linkEdge_refs A hx) h
      rw [hframe, updateInPlace_index hrefs]

theorem linkMemberRef_index {ρ τ : Type} {T : Types ρ τ} {E : EdgeTable} {index : MembersIndex}
    {s s' : Pass ρ τ} {p : ℕ} (h : linkMemberRef A I E T index s p = some s') :
    s'.refs.autoIncrementIndex = s.refs.autoIncrementIndex := by
  obtain ⟨row, -, h⟩ := Option.bind_eq_some_iff.mp h
  dsimp only at h
  split_ifs at h
  · obtain ⟨s₁, hfold, h⟩ := Option.bind_eq_some_iff.mp h
    obtain ⟨refs, hrefs, h⟩ := Option.bind_eq_some_iff.mp h
    obtain rfl := Option.some.inj h
    have hframe : s₁.refs = s.refs := foldlM_frame Pass.refs
      (fun s x s' hx => linkEdge_refs A hx) hfold
    rw [updateInPlace_index hrefs, hframe]
  · obtain rfl := Option.some.inj h
    rfl

theorem linkClassRefs_nodes {fuel : ℕ} {index : ClassesByName} {db db' : LinkDb}
    (h : db.linkClassRefs A I fuel index = .returned db') {i : NodeTable}
    (hi : i ≠ .classRefs) : db'.nodes i = db.nodes i := by
  obtain ⟨s, -, hs⟩ := Progress.bind_eq_returned h
  cases hs
  exact Function.update_of_ne hi _ _

theorem linkMethodRefs_nodes {fuel : ℕ} {index : MembersIndex} {db db' : LinkDb}
    (h : db.linkMethodRefs A I fuel index = .returned db') {i : NodeTable}
    (hi : i ≠ .methods) (hi' : i ≠ .methodRefs) : db'.nodes i = db.nodes i := by
  obtain ⟨s, -, hs⟩ := Progress.bind_eq_returned h
  cases hs
  exact (Function.update_of_ne hi _ _).trans (Function.update_of_ne hi' _ _)

/-- A loop over `2 ^ 32` rows or more keeps the linker from returning. -/
theorem endless_linkRefNodes (h : Stored db R) (hs : ¬ R.Small) :
    Endless fun fuel => db.linkRefNodes A I fuel := by
  intro fuel db' hrun
  obtain ⟨classesByName, hclasses, hrun⟩ := Progress.bind_eq_returned hrun
  obtain ⟨methodsIndex, hmethods, hrun⟩ := Progress.bind_eq_returned hrun
  obtain ⟨fieldsIndex, hfields, hrun⟩ := Progress.bind_eq_returned hrun
  obtain ⟨db₁, hrun₁, hrun⟩ := Progress.bind_eq_returned hrun
  obtain ⟨db₂, hrun₂, hrun₃⟩ := Progress.bind_eq_returned hrun
  obtain ⟨s₁, hloop₁, -⟩ := Progress.bind_eq_returned hrun₁
  obtain ⟨s₂, hloop₂, -⟩ := Progress.bind_eq_returned hrun₂
  obtain ⟨s₃, hloop₃, -⟩ := Progress.bind_eq_returned hrun₃
  have hnodes : ∀ i, (db.nodes i).autoIncrementIndex.length < 2 ^ 32 := by
    intro i
    cases i with
    | methods => exact length_lt_of_returned (fun _ _ _ _ => rfl) hmethods
    | fields => exact length_lt_of_returned (fun _ _ _ _ => rfl) hfields
    | classRefs => exact length_lt_of_returned (fun _ _ _ => linkClassRef_index A I) hloop₁
    | methodRefs =>
        have hlt := length_lt_of_returned (fun _ _ _ => linkMemberRef_index A I) hloop₂
        rwa [linkClassRefs_nodes A I hrun₁ (by decide)] at hlt
    | fieldRefs =>
        have hlt := length_lt_of_returned (fun _ _ _ => linkMemberRef_index A I) hloop₃
        rwa [linkMethodRefs_nodes A I hrun₂ (by decide) (by decide),
          linkClassRefs_nodes A I hrun₁ (by decide)] at hlt
  refine hs ⟨?_, fun i => ?_⟩
  · have hlt := length_lt_of_returned (fun _ _ _ _ => rfl) hclasses
    rwa [← h.classfiles.length_eq]
  · rw [← (h.nodes i).length_eq]
    exact hnodes i

end Endless

end Run

end Tarracsh.LinkRuns
