import Tarracsh.ProgramGraph

/-!
# The order of the files of a program

A node takes the place of the one that has its key, also when that belongs to
another class. When no two classes have nodes under one key, the contents of
the database are those of the classes one by one, and the call graph does not
depend on the order in which the files are analysed.
-/
namespace Tarracsh.ProgramOrder
open ByteStrings KeyedUpdates TableModel DomainTables CallGraphTables CallGraphInvariant
open CallGraphLinking SafeConsumption NodeHistory ClassVersions CallGraphAnalysis Reporting
open GraphContents ProgramAnalysis ProgramGraph

section Groups
variable {C : Contents} {i : NodeTable} {xs : List GraphInput}

/-- The nodes of the classes have different keys. -/
def Apart (i : NodeTable) (c c' : ClassNodes) : Prop :=
  ∀ x ∈ nodesIn i c, ∀ y ∈ nodesIn i c', x.key i ≠ y.key i

theorem Apart.symm {c c' : ClassNodes} (h : Apart i c c') : Apart i c' c :=
  fun x hx y hy heq => h y hy x hx heq.symm

/-- A mark that strong names do not have separates the keys of two classes. -/
theorem apart_of_not_mem {c c' : ClassNodes} (h : (35 : UInt8) ∉ c.name.strongClassname)
    (h' : (35 : UInt8) ∉ c'.name.strongClassname)
    (hne : c.name.strongClassname ≠ c'.name.strongClassname) : Apart i c c' := by
  intro x hx y hy heq
  obtain ⟨label, -, rfl⟩ := List.mem_map.mp hx
  obtain ⟨label', -, rfl⟩ := List.mem_map.mp hy
  have htake : ∀ strong rest : Bytes, (35 : UInt8) ∉ strong →
      (strong ++ ascii "#" ++ rest).takeWhile (· ≠ 35) = strong := by
    intro strong rest hstrong
    rw [List.append_assoc]
    exact TerminatedStrings.takeWhile_terminated hstrong rest
  have hstrong := congrArg (List.takeWhile (· ≠ 35)) heq
  rw [Node.key, Node.key, htake _ _ h, htake _ _ h'] at hstrong
  exact hne hstrong

theorem mem_classes_program {c : ClassName} : c ∈ (program xs).classes ↔
    ∃ d ∈ xs.flatMap (fun x => x.classes), d.name = c := by
  rw [classes_program, List.mem_map]

/-- What every class leaves of its own nodes. -/
theorem mem_nodes_program (h : (xs.flatMap fun x => x.classes).Pairwise (Apart i)) {x : Node} :
    x ∈ (program xs).nodes i ↔ ∃ c ∈ xs.flatMap (fun x => x.classes),
      x ∈ replaceAll (Node.key i) [] (nodesIn i c) := by
  have hgroups : ((xs.flatMap fun x => x.classes).map (nodesIn i)).Pairwise fun g g' =>
      ∀ a ∈ g, ∀ a' ∈ g', Node.key i a ≠ Node.key i a' := List.pairwise_map.mpr h
  rw [program, nodes_foldl, mem_foldl_replaceAll hgroups]
  simp [Contents.empty]

theorem nodup_nodes_program (xs : List GraphInput) (i : NodeTable) :
    ((program xs).nodes i).Nodup := by
  rw [nodes_program]
  exact List.Nodup.of_map _ (nodup_replaceAll List.nodup_nil)

end Groups

section Same
variable {C C' : Contents} {db db' : LinkDb}

/-- The classes and the nodes are the same. -/
structure SameContents (C C' : Contents) : Prop where
  classes : ∀ c, c ∈ C.classes ↔ c ∈ C'.classes
  nodes : ∀ i x, x ∈ C.nodes i ↔ x ∈ C'.nodes i

theorem SameContents.symm (h : SameContents C C') : SameContents C' C :=
  ⟨fun c => (h.classes c).symm, fun i x => (h.nodes i x).symm⟩

theorem SameContents.isVertex (h : SameContents C C') {v : Vertex} (hv : IsVertex C v) :
    IsVertex C' v := by
  cases hv with
  | classfile hc => exact .classfile ((h.classes _).mp hc)
  | node hx => exact .node ((h.nodes _ _).mp hx)

theorem SameContents.refers (h : SameContents C C') {v w : Vertex} (hvw : Refers C v w) :
    Refers C' v w := by
  cases hvw with
  | toClass hx hc hlabel => exact .toClass ((h.nodes _ _).mp hx) ((h.classes _).mp hc) hlabel
  | toMethod hx hy hc hstrong hlabel =>
      exact .toMethod ((h.nodes _ _).mp hx) ((h.nodes _ _).mp hy) ((h.classes _).mp hc) hstrong
        hlabel
  | toField hx hy hc hstrong hlabel =>
      exact .toField ((h.nodes _ _).mp hx) ((h.nodes _ _).mp hy) ((h.classes _).mp hc) hstrong
        hlabel

/-- A vertex is there with the same counter. -/
theorem mem_verticesOf_of_agree (h : ShowsGraph db C) (h' : ShowsGraph db' C')
    (hagree : SameContents C C') {es es' : List (Vertex × Vertex)} (hes : es.Perm es')
    (hcount : ∀ v ∈ verticesOf db, v.2 = es.countP fun e => e.1 = v.1 ∨ e.2 = v.1)
    (hcount' : ∀ v ∈ verticesOf db', v.2 = es'.countP fun e => e.1 = v.1 ∨ e.2 = v.1)
    {v : Vertex × ℕ} (hv : v ∈ verticesOf db) : v ∈ verticesOf db' := by
  have hvertex := hagree.isVertex ((h.vertices v.1).mp (List.mem_map_of_mem hv))
  obtain ⟨w, hw, hfirst⟩ := List.mem_map.mp ((h'.vertices v.1).mpr hvertex)
  have hsecond : w.2 = v.2 := by
    rw [hcount v hv, hcount' w hw, hfirst, hes.countP_eq]
  rwa [← Prod.ext hfirst hsecond]

/-- Databases that show the same contents have the same graph. -/
theorem perm_of_shows (h : ShowsGraph db C) (h' : ShowsGraph db' C') (hagree : SameContents C C') :
    (verticesOf db).Perm (verticesOf db') ∧ (edgesOf db).Perm (edgesOf db') := by
  obtain ⟨es, hes, hnodup, hmem, hcount⟩ := h.edges
  obtain ⟨es', hes', hnodup', hmem', hcount'⟩ := h'.edges
  have hedges : es.Perm es' := by
    rw [List.perm_ext_iff_of_nodup hnodup hnodup']
    intro e
    rw [hmem, hmem']
    exact ⟨hagree.refers, hagree.symm.refers⟩
  constructor
  · rw [List.perm_ext_iff_of_nodup (List.Nodup.of_map _ h.distinct)
      (List.Nodup.of_map _ h'.distinct)]
    exact fun v => ⟨mem_verticesOf_of_agree h h' hagree hedges hcount hcount',
      mem_verticesOf_of_agree h' h hagree.symm hedges.symm hcount' hcount⟩
  · rw [hes, hes']
    exact hedges.map some

end Same

section Reordered
variable {words : List Bytes} {xs ys : List GraphInput}

theorem perm_flatMap_classes (hperm : xs.Perm ys) :
    (xs.flatMap fun x => x.classes).Perm (ys.flatMap fun x => x.classes) :=
  hperm.flatMap_right _

/-- The contents are the same in every order. -/
theorem agree_of_perm (hperm : xs.Perm ys)
    (hapart : ∀ i, (xs.flatMap fun x => x.classes).Pairwise (Apart i)) :
    SameContents (program xs) (program ys) := by
  have hclasses := perm_flatMap_classes hperm
  constructor
  · intro c
    simp only [mem_classes_program, hclasses.mem_iff]
  · intro i x
    have hapart' : (ys.flatMap fun x => x.classes).Pairwise (Apart i) :=
      (hclasses.pairwise_iff fun h => h.symm).mp (hapart i)
    simp only [mem_nodes_program (hapart i), mem_nodes_program hapart', hclasses.mem_iff]

theorem Admitted.perm (h : Admitted words Contents.empty xs) (hperm : xs.Perm ys) :
    Admitted words Contents.empty ys := by
  have hclasses := perm_flatMap_classes hperm
  constructor
  · exact (hperm.map _).nodup_iff.mp h.files
  · rw [← hperm.length_eq]
    exact h.room
  · exact (hclasses.map _).nodup_iff.mp h.classes
  · rw [← hclasses.length_eq]
    exact h.small
  · exact fun x hx => h.own x (hperm.mem_iff.mpr hx)
  · exact fun x hx => h.filenames x (hperm.mem_iff.mpr hx)
  · exact fun x hx => h.interned x (hperm.mem_iff.mpr hx)

theorem Analysable.perm (h : Analysable words xs) (hperm : xs.Perm ys)
    (hapart : ∀ i, (xs.flatMap fun x => x.classes).Pairwise (Apart i)) :
    Analysable words ys := by
  have hagree := agree_of_perm hperm hapart
  refine ⟨Admitted.perm h.admitted hperm, ?_, fun i => ?_⟩
  · have hlength := (perm_flatMap_classes hperm).length_eq
    have hclasses := h.classes
    rw [classes_program, List.length_map] at hclasses ⊢
    rwa [← hlength]
  · have hnodes := (List.perm_ext_iff_of_nodup (nodup_nodes_program xs i)
      (nodup_nodes_program ys i)).mpr (hagree.nodes i)
    rw [← hnodes.length_eq]
    exact h.nodes i

/-- The call graph depends neither on the order in which the files come, nor on
the addresses of the rows, nor on the order in which sets are iterated. -/
theorem callGraph_order (A A' : ∀ α : Type, Allocator α) (I I' : Iteration)
    (garbage garbage' : ℕ → UInt8) (options : Options) (hw : Lexicon words) (hnil : [] ∈ words)
    (hdry : options.dryRun = false) (h : Analysable words xs) (hperm : xs.Perm ys)
    (hapart : ∀ i, (xs.flatMap fun x => x.classes).Pairwise (Apart i)) (results : Results) :
    ∃ linked linked', Analyses A I garbage options xs results linked ∧
      Analyses A' I' garbage' options ys results linked' ∧
      (verticesOf linked).Perm (verticesOf linked') ∧ (edgesOf linked).Perm (edgesOf linked') := by
  have h' := Analysable.perm h hperm hapart
  obtain ⟨linked, hrun⟩ := exists_analyses A I garbage options hw hnil hdry h results
  obtain ⟨linked', hrun'⟩ := exists_analyses A' I' garbage' options hw hnil hdry h' results
  have hshows := shows_of_analyses A I garbage options hw hnil hdry h hrun
  have hshows' := shows_of_analyses A' I' garbage' options hw hnil hdry h' hrun'
  exact ⟨linked, linked', hrun, hrun', perm_of_shows hshows hshows' (agree_of_perm hperm hapart)⟩

end Reordered

section Samples

theorem apart_sample (i : NodeTable) :
    ([sampleJarFile (ascii "a.jar"), sampleJarFile (ascii "b.jar")].flatMap
      fun x => x.classes).Pairwise (Apart i) := by
  rw [classes_sample, List.pairwise_pair]
  exact apart_of_not_mem (by decide) (by decide) (by decide)

theorem callGraph_order_sample : ∃ linked linked',
    Analyses Allocator.next Iteration.sorted (fun _ => 0) {}
      [sampleJarFile (ascii "a.jar"), sampleJarFile (ascii "b.jar")] {} linked ∧
    Analyses Allocator.next Iteration.sorted (fun _ => 0) {}
      [sampleJarFile (ascii "b.jar"), sampleJarFile (ascii "a.jar")] {} linked' ∧
    (verticesOf linked).Perm (verticesOf linked') ∧ (edgesOf linked).Perm (edgesOf linked') :=
  callGraph_order Allocator.next Allocator.next Iteration.sorted Iteration.sorted (fun _ => 0)
    (fun _ => 0) {} lexicon_programWords (by decide) rfl analysable_sample (List.Perm.swap _ _ _)
    apart_sample {}

end Samples

end Tarracsh.ProgramOrder
