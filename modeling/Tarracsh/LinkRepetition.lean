import Tarracsh.LinkExactness

/-!
# Linking a second time

The edges and the counters of a run are stored, and the next run computes them
again. It asks the edge tables to add the edges that are there already, so it
can only return when there are none.
-/
namespace Tarracsh.LinkRepetition
open ByteStrings TableModel TableInvariant DomainTables CallGraphTables CallGraphLinking
open CountedLoops LinkPasses LinkIndexes LinkJoins LinkRuns LinkExactness

section Kinds
variable {ρ τ : Type} {matching matching' : Row ρ → Row τ → Prop} {owner : ρ → RefCol}
  {rs : List (Row ρ)} {ts : List (Row τ)} {new : List EdgeCols}

variable (matching rs ts) in
/-- No live reference matches a live target. -/
def Unmatched : Prop :=
  ∀ r ∈ rs, ∀ t ∈ ts, r.isDeleted = false → t.isDeleted = false → ¬ matching r t

theorem Unmatched.eq_nil (h : Unmatched matching rs ts) (hj : Joins matching owner rs ts new) :
    new = [] := by
  apply List.eq_nil_iff_forall_not_mem.mpr
  intro e he
  obtain ⟨r, hr, t, ht, hlive, hlive', hmatch, -⟩ := (hj.mem_iff e).mp he
  exact h r hr t ht hlive hlive' hmatch

theorem Unmatched.unjoined (h : Unmatched matching rs ts) (es : List EdgeCols) :
    Unjoined matching rs ts es := by
  intro r hr t ht hlive hlive' hmatch
  exact absurd hmatch (h r hr t ht hlive hlive')

/-- What a pass has joined would be joined again. -/
theorem unmatched_of_unjoined (hj : Joins matching owner rs ts new) {CR : Counter ρ}
    {C : Counter τ} {es : List (Row EdgeCols)}
    (hmatching : ∀ r ∈ rs, ∀ t ∈ ts, ∀ m n,
      matching' (recount CR r m) (recount C t n) ↔ matching r t)
    (h : Unjoined matching' (counted CR EdgeCols.fromId new rs) (counted C EdgeCols.toId new ts)
      ((fileEdges es new).map Row.cols)) : Unmatched matching rs ts := by
  intro r hr t ht hlive hlive' hmatch
  obtain ⟨m, hrm⟩ := recount_mem_counted CR EdgeCols.fromId new hr
  obtain ⟨n, htn⟩ := recount_mem_counted C EdgeCols.toId new ht
  have hedge : edgeOf owner r t ∈ (fileEdges es new).map Row.cols := by
    rw [map_cols_fileEdges]
    exact List.mem_append_right _ ((hj.mem_iff _).mpr ⟨r, hr, t, ht, hlive, hlive', hmatch, rfl⟩)
  exact h _ hrm _ htn hlive hlive' ((hmatching r hr t ht m n).mpr hmatch) _ hedge ⟨rfl, rfl⟩

end Kinds

/-- The counters are not among the columns that are compared. -/
theorem memberMatching_recount {ρ τ : Type} {T : Types ρ τ} (hT : Types.Lawful T)
    (classes : List (Row ClassFileCols)) (es : List EdgeCols) (r : Row ρ) (t : Row τ) (m n : ℕ) :
    memberMatching T (counted classRefCounter EdgeCols.toId es classes)
      (recount hT.edgeCounter r m) (recount hT.refCounter t n) ↔ memberMatching T classes r t := by
  obtain ⟨howner, hname, hdescriptor⟩ := hT.target_recount t n
  rw [memberMatching, hT.referenceKey_recount, memberKey, howner, hname, hdescriptor,
    getElem?_counted, Option.map_map]
  rfl

/-- No live reference of any kind matches a live target. -/
structure NothingMatches (R : Rows) : Prop where
  classes : Unmatched classMatching (R.nodes .classRefs) R.classfiles
  methods : Unmatched (memberMatching methodTypes R.classfiles) (R.nodes .methodRefs)
    (R.nodes .methods)
  fields : Unmatched (memberMatching fieldTypes R.classfiles) (R.nodes .fieldRefs)
    (R.nodes .fields)

section Rows
variable {R : Rows} {new : EdgeTable → List EdgeCols}

theorem NothingMatches.linked_eq (h : NothingMatches R) (hj : R.JoinedBy new) :
    R.linked new = R := by
  have hclasses := h.classes.eq_nil hj.classes
  have hmethods := h.methods.eq_nil hj.methods
  have hfields := h.fields.eq_nil hj.fields
  obtain ⟨classfiles, nodes, edges⟩ := R
  simp only [Rows.linked, hclasses, counted_nil, Rows.mk.injEq, true_and]
  constructor
  · funext i
    cases i <;> simp [hmethods, hfields]
  · funext e
    cases e <;> simp [hclasses, hmethods, hfields, fileEdges]

theorem NothingMatches.fresh (h : NothingMatches R) : R.Fresh :=
  ⟨h.classes.unjoined _, h.methods.unjoined _, h.fields.unjoined _⟩

theorem nothingMatches_of_fresh (hj : R.JoinedBy new) (h : (R.linked new).Fresh) :
    NothingMatches R where
  classes := unmatched_of_unjoined hj.classes (fun _ _ _ _ _ _ => Iff.rfl) h.classes
  methods := unmatched_of_unjoined hj.methods
    (fun r _ t _ => memberMatching_recount Types.lawful_methodTypes _ _ r t) h.methods
  fields := unmatched_of_unjoined hj.fields
    (fun r _ t _ => memberMatching_recount Types.lawful_fieldTypes _ _ r t) h.fields

theorem small_linked (h : R.Small) : (R.linked new).Small := by
  refine ⟨by simpa [Rows.linked] using h.1, fun i => ?_⟩
  have := h.2 i
  cases i <;> simpa [Rows.linked] using this

end Rows

/-- A database determines its rows. -/
theorem rows_unique {α : Type} {L L' : Layout α} {t : Table α} {rs rs' : List (Row α)}
    (h : Core L t rs) (h' : Core L' t rs') : rs = rs' := by
  have heq := h.heap.symm.trans h'.heap
  exact (List.map_injective_iff.mpr (Option.some_injective _)) heq

theorem Stored.unique {db : LinkDb} {R R' : Rows} (h : Stored db R) (h' : Stored db R') :
    R = R' := by
  obtain ⟨classfiles, nodes, edges⟩ := R
  obtain ⟨classfiles', nodes', edges'⟩ := R'
  simp only [Rows.mk.injEq]
  exact ⟨rows_unique h.classfiles h'.classfiles,
    funext fun i => rows_unique (h.nodes i) (h'.nodes i),
    funext fun e => rows_unique (h.edges e) (h'.edges e)⟩

/-- The linker returns, without adding a key that is there, and leaves all
edges and counters as they are. -/
def LeavesUnchanged (A : ∀ α : Type, Allocator α) (I : Iteration) (db : LinkDb) (R : Rows) : Prop :=
  ∃ fuel db', db.linkRefNodes A I fuel = .returned db' ∧ Stored db' R

section Runs
variable {A A' : ∀ α : Type, Allocator α} {I I' : Iteration} {db db₁ db₂ : LinkDb} {R R₁ : Rows}
  {fuel : ℕ}

/-- What the first run has left. -/
theorem linked_of_returned (h : Stored db R) (hrun : db.linkRefNodes A I fuel = .returned db₁)
    (h₁ : Stored db₁ R₁) : R.Small ∧ R.Owned ∧ ∃ new, R.JoinedBy new ∧ R₁ = R.linked new := by
  have hsmall : R.Small := by
    by_contra hs
    exact endless_linkRefNodes A I h hs fuel db₁ hrun
  obtain ⟨⟨howned, -⟩, -, new, hj, hlinked⟩ := (settles_linkRefNodes A I h hsmall).returned hrun
  exact ⟨hsmall, howned, new, hj, Stored.unique h₁ hlinked⟩

theorem nothingMatches_of_leavesUnchanged (h : Stored db R)
    (hrun : db.linkRefNodes A I fuel = .returned db₁) (h₁ : Stored db₁ R₁) (h₂ : Stored db₂ R₁)
    (hagain : LeavesUnchanged A' I' db₂ R₁) : NothingMatches R := by
  obtain ⟨hsmall, -, new, hj, rfl⟩ := linked_of_returned h hrun h₁
  obtain ⟨fuel', db₃, hrun', -⟩ := hagain
  have hfresh := ((settles_linkRefNodes A' I' h₂ (small_linked hsmall)).returned hrun').1.2
  exact nothingMatches_of_fresh hj hfresh

end Runs

/-- Linking again, after the rows of the first run have been reopened, changes
nothing if and only if there was nothing to link. -/
theorem relinking_unchanged_iff (A A' : ∀ α : Type, Allocator α) (I I' : Iteration)
    {db db₁ db₂ : LinkDb} {R R₁ : Rows} {fuel : ℕ} (h : Stored db R)
    (hrun : db.linkRefNodes A I fuel = .returned db₁) (h₁ : Stored db₁ R₁) (h₂ : Stored db₂ R₁) :
    LeavesUnchanged A' I' db₂ R₁ ↔ NothingMatches R := by
  constructor
  · exact nothingMatches_of_leavesUnchanged h hrun h₁ h₂
  · intro hnothing
    obtain ⟨hsmall, howned, new, hj, rfl⟩ := linked_of_returned h hrun h₁
    have hsame := hnothing.linked_eq hj
    rw [hsame] at h₂ ⊢
    obtain ⟨fuel', db₃, hrun', -, new', hj', hlinked'⟩ :=
      (settles_linkRefNodes A' I' h₂ hsmall).exists_returned ⟨howned, hnothing.fresh⟩
    rw [hnothing.linked_eq hj'] at hlinked'
    exact ⟨fuel', db₃, hrun', hlinked'⟩

theorem small_analysedRows (name : StringCol) : (analysedRows 1 name).Small := by
  refine ⟨by simp [analysedRows], fun i => ?_⟩
  cases i <;> simp [analysedRows]

/-- A class that refers to the class `java/lang/Object` of no file is linked with nothing,
once or twice. -/
theorem relinking_unmatched :
    ∃ fuel db₁ R₁, (analysed 1 3).linkRefNodes Allocator.next Iteration.sorted fuel =
      .returned db₁ ∧ Stored db₁ R₁ ∧
      LeavesUnchanged Allocator.next Iteration.sorted db₁ R₁ := by
  have hnothing : NothingMatches (analysedRows 1 3) := by
    refine ⟨?_, fun r hr => absurd hr (by simp [analysedRows]),
      fun r hr => absurd hr (by simp [analysedRows])⟩
    intro r hr c hc _ _ hmatch
    obtain ⟨i, -, rfl⟩ := List.mem_map.mp hr
    obtain ⟨j, -, rfl⟩ := List.mem_map.mp hc
    exact absurd hmatch (by simp [classMatching, analysedRef, analysedClass])
  have howned : (analysedRows 1 3).Owned :=
    ⟨fun r hr => absurd hr (by simp [analysedRows]), fun r hr => absurd hr (by simp [analysedRows])⟩
  obtain ⟨fuel, db₁, hrun, -, new, -, h₁⟩ :=
    (settles_linkRefNodes Allocator.next Iteration.sorted (stored_analysed 1 3)
      (small_analysedRows 3)).exists_returned ⟨howned, hnothing.fresh⟩
  exact ⟨fuel, db₁, _, hrun, h₁, (relinking_unchanged_iff Allocator.next Allocator.next
    Iteration.sorted Iteration.sorted (stored_analysed 1 3) hrun h₁ h₁).mpr hnothing⟩

/-- A class refers to itself, so the second run adds the edge of the first. -/
theorem relinking_analysed_once :
    ∃ fuel db₁ R₁, (analysed 1 1).linkRefNodes Allocator.next Iteration.sorted fuel =
      .returned db₁ ∧ Stored db₁ R₁ ∧
      ¬ LeavesUnchanged Allocator.next Iteration.sorted db₁ R₁ := by
  have hlinkable := linkable_analysed (n := 1) (by norm_num) (by norm_num)
  obtain ⟨fuel, db₁, hrun, -, new, -, h₁⟩ :=
    (settles_linkRefNodes Allocator.next Iteration.sorted (stored_analysed 1 1)
      (small_analysedRows 1)).exists_returned ⟨hlinkable.owned, hlinkable.fresh⟩
  refine ⟨fuel, db₁, _, hrun, h₁, fun hagain => ?_⟩
  have hnothing := nothingMatches_of_leavesUnchanged (stored_analysed 1 1) hrun h₁ h₁ hagain
  exact hnothing.classes (analysedRef 1 1 0) (by simp [analysedRows]) (analysedClass 0)
    (by simp [analysedRows]) (by decide) (by decide) rfl

end Tarracsh.LinkRepetition
