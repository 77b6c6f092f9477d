import Tarracsh.LinkRuns

/-!
# Linking computes the matching relation

Over a database without edges, whose counters are zero, whose members have
owners and whose names are interned, the linker returns with exactly the edges
that the texts call for if and only if no table has `2 ^ 32` rows or more.
-/
namespace Tarracsh.LinkExactness
open ByteStrings TableModel TableInvariant StringPool DomainTables CallGraphTables
open CallGraphLinking CountedLoops LinkPasses LinkIndexes LinkJoins LinkRuns

section Kinds
variable {ρ τ : Type}

/-- The edges of one kind are those of the matching live rows, and both ends
count them. -/
structure Linked (matching : Row ρ → Row τ → Prop) (owner : ρ → RefCol) (edgeCount : ρ → UInt64)
    (refCount : τ → UInt64) (rs : List (Row ρ)) (ts : List (Row τ)) (es : List (Row EdgeCols)) :
    Prop where
  only : ∀ e ∈ es, e.isDeleted = false ∧ ∃ r ∈ rs, ∃ t ∈ ts, r.isDeleted = false ∧
    t.isDeleted = false ∧ matching r t ∧ e.cols = edgeOf owner r t
  one : ∀ r ∈ rs, ∀ t ∈ ts, r.isDeleted = false → t.isDeleted = false → matching r t →
    (es.countP fun e => e.cols.fromId.toNat = r.id ∧ e.cols.toId.toNat = t.id) = 1
  none : ∀ r ∈ rs, ∀ t ∈ ts, r.isDeleted = false → t.isDeleted = false → ¬ matching r t →
    (es.countP fun e => e.cols.fromId.toNat = r.id ∧ e.cols.toId.toNat = t.id) = 0
  edgeCounts : ∀ r ∈ rs,
    (edgeCount r.cols).toNat = es.countP fun e => e.cols.fromId.toNat = r.id
  refCounts : ∀ t ∈ ts, (refCount t.cols).toNat = es.countP fun e => e.cols.toId.toNat = t.id

theorem toNat_eq_iff {x : UInt64} {n : ℕ} (hn : n < 2 ^ 64) : x.toNat = n ↔ x = UInt64.ofNat n := by
  constructor
  · intro h
    rw [← h, UInt64.ofNat_toNat]
  · rintro rfl
    rw [UInt64.toNat_ofNat', Nat.mod_eq_of_lt hn]

section Counts
variable {matching : Row ρ → Row τ → Prop} {owner : ρ → RefCol} {rs : List (Row ρ)}
  {ts : List (Row τ)} {new : List EdgeCols}

/-- There is at most one edge between one end and each of the others. -/
theorem countP_le_length {α : Type} (hd : Distinct new) {near far : EdgeCols → RefCol}
    (hkey : ∀ e e', near e = near e' → far e = far e' →
      EdgeTable.getKey e = EdgeTable.getKey e')
    {rows : List (Row α)} (hfar : ∀ e ∈ new, ∃ r ∈ rows, far e = UInt64.ofNat r.id)
    (x : RefCol) : (new.countP fun e => near e = x) ≤ rows.length := by
  rw [List.countP_eq_length_filter]
  have hnodup : ((new.filter fun e => near e = x).map far).Nodup := by
    apply List.Nodup.map_on
    · intro e he e' he' heq
      rw [List.mem_filter, decide_eq_true_eq] at he he'
      exact List.inj_on_of_nodup_map hd he.1 he'.1 (hkey e e' (he.2.trans he'.2.symm) heq)
    · exact (List.Nodup.of_map _ hd).filter _
  have hsub : (new.filter fun e => near e = x).map far ⊆ rows.map fun r => UInt64.ofNat r.id := by
    intro y hy
    obtain ⟨e, he, rfl⟩ := List.mem_map.mp hy
    obtain ⟨r, hr, heq⟩ := hfar e (List.mem_of_mem_filter he)
    exact List.mem_map.mpr ⟨r, hr, heq.symm⟩
  simpa using (List.subperm_of_subset hnodup hsub).length_le

theorem countP_fromId_le (h : Joins matching owner rs ts new) (x : RefCol) :
    (new.countP fun e => e.fromId = x) ≤ ts.length := by
  refine countP_le_length h.distinct (fun e e' hfrom hto => getKey_eq_iff.mpr ⟨hfrom, hto⟩) ?_ x
  intro e he
  obtain ⟨r, -, t, ht, -, -, -, rfl⟩ := (h.mem_iff e).mp he
  exact ⟨t, ht, rfl⟩

theorem countP_toId_le (h : Joins matching owner rs ts new) (x : RefCol) :
    (new.countP fun e => e.toId = x) ≤ rs.length := by
  refine countP_le_length h.distinct (fun e e' hto hfrom => getKey_eq_iff.mpr ⟨hfrom, hto⟩) ?_ x
  intro e he
  obtain ⟨r, hr, t, -, -, -, -, rfl⟩ := (h.mem_iff e).mp he
  exact ⟨r, hr, rfl⟩

/-- Two edges with the same ends are one. -/
theorem countP_ends (h : Joins matching owner rs ts new) {r : Row ρ} {t : Row τ}
    (hmem : edgeOf owner r t ∈ new) :
    (new.countP fun e => e.fromId = UInt64.ofNat r.id ∧ e.toId = UInt64.ofNat t.id) = 1 := by
  have hcount : (new.countP fun e => e.fromId = UInt64.ofNat r.id ∧ e.toId = UInt64.ofNat t.id) =
      new.count (edgeOf owner r t) := by
    rw [List.count]
    apply List.countP_congr
    intro e he
    simp only [decide_eq_true_eq, beq_iff_eq]
    constructor
    · rintro ⟨hfrom, hto⟩
      exact List.inj_on_of_nodup_map h.distinct he hmem (getKey_eq_iff.mpr ⟨hfrom, hto⟩)
    · rintro rfl
      exact ⟨rfl, rfl⟩
  rw [hcount]
  exact List.count_eq_one_of_mem (List.Nodup.of_map _ h.distinct) hmem

/-- The value of a counter that was zero. -/
theorem toNat_counted {α : Type} {C : Counter α} {value : α → UInt64}
    (hvalue : ∀ a n, value (C.add a n) = value a + n) {side : EdgeCols → RefCol}
    {rows : List (Row α)} (hrows : Numbered rows) (hlt : rows.length ≤ 2 ^ 32)
    (hzero : ∀ r ∈ rows, value r.cols = 0)
    (hcount : ∀ x, (new.countP fun e => side e = x) ≤ 2 ^ 32) {r : Row α}
    (hr : r ∈ counted C side new rows) :
    (value r.cols).toNat = new.countP fun e => (side e).toNat = r.id := by
  obtain ⟨i, hi⟩ := List.getElem?_of_mem hr
  rw [getElem?_counted, Option.map_eq_some_iff] at hi
  obtain ⟨r₀, hr₀, rfl⟩ := hi
  have hid : r₀.id = i := hrows i r₀ hr₀
  have hilt := (List.getElem?_eq_some_iff.mp hr₀).1
  have hsame : (new.countP fun e => (side e).toNat = (recount C r₀
      (new.countP fun e => side e = UInt64.ofNat i)).id) =
        new.countP fun e => side e = UInt64.ofNat i := by
    apply List.countP_congr
    intro e _
    have hiff : (side e).toNat = i ↔ side e = UInt64.ofNat i := toNat_eq_iff (by omega)
    simpa [recount, hid] using hiff
  have hle := hcount (UInt64.ofNat i)
  rw [hsame, recount, hvalue, hzero r₀ (List.mem_of_getElem? hr₀), UInt64.zero_add,
    UInt64.toNat_ofNat', Nat.mod_eq_of_lt (by omega)]

theorem countP_fileEdges (p : EdgeCols → Bool) :
    (fileEdges [] new).countP (fun e => p e.cols) = new.countP p := by
  have hmap := map_cols_fileEdges [] new
  rw [List.map_nil, List.nil_append] at hmap
  rw [← hmap, List.countP_map, hmap]
  rfl

theorem mem_counted {α : Type} {C : Counter α} {side : EdgeCols → RefCol} {rows : List (Row α)}
    {r : Row α} (h : r ∈ counted C side new rows) : ∃ r₀ ∈ rows, ∃ n, r = recount C r₀ n := by
  obtain ⟨i, hi⟩ := List.getElem?_of_mem h
  rw [getElem?_counted, Option.map_eq_some_iff] at hi
  obtain ⟨r₀, hr₀, rfl⟩ := hi
  exact ⟨r₀, List.mem_of_getElem? hr₀, _, rfl⟩

theorem recount_mem_counted {α : Type} (C : Counter α) (side : EdgeCols → RefCol)
    (new : List EdgeCols) {rows : List (Row α)} {r : Row α} (h : r ∈ rows) :
    ∃ n, recount C r n ∈ counted C side new rows := by
  obtain ⟨i, hi⟩ := List.getElem?_of_mem h
  have hget := getElem?_counted C side new rows i
  rw [hi, Option.map_some] at hget
  exact ⟨_, List.mem_of_getElem? hget⟩

/-- A pass over rows whose counters are zero leaves them linked. -/
theorem linked_of_joins (h : Joins matching owner rs ts new) (hrs : Numbered rs)
    (hts : Numbered ts) (hrslt : rs.length ≤ 2 ^ 32) (htslt : ts.length ≤ 2 ^ 32)
    {CR : Counter ρ} {C : Counter τ} {edgeCount : ρ → UInt64} {refCount : τ → UInt64}
    (hedge : ∀ r n, edgeCount (CR.add r n) = edgeCount r + n)
    (href : ∀ t n, refCount (C.add t n) = refCount t + n)
    (hedgezero : ∀ r ∈ rs, edgeCount r.cols = 0) (hrefzero : ∀ t ∈ ts, refCount t.cols = 0)
    (howner : ∀ r n, owner (CR.add r n) = owner r) {matching' : Row ρ → Row τ → Prop}
    (hmatching : ∀ r ∈ rs, ∀ t ∈ ts, ∀ m n,
      matching' (recount CR r m) (recount C t n) ↔ matching r t) :
    Linked matching' owner edgeCount refCount (counted CR EdgeCols.fromId new rs)
      (counted C EdgeCols.toId new ts) (fileEdges [] new) := by
  have hends : ∀ r ∈ rs, ∀ t ∈ ts, ((fileEdges [] new).countP fun e =>
      e.cols.fromId.toNat = r.id ∧ e.cols.toId.toNat = t.id) =
        new.countP fun e => e.fromId = UInt64.ofNat r.id ∧ e.toId = UInt64.ofNat t.id := by
    intro r hr t ht
    have hrid := hrs.id_lt hr
    have htid := hts.id_lt ht
    rw [countP_fileEdges fun e => e.fromId.toNat = r.id ∧ e.toId.toNat = t.id]
    apply List.countP_congr
    intro e _
    have hfrom : e.fromId.toNat = r.id ↔ e.fromId = UInt64.ofNat r.id := toNat_eq_iff (by omega)
    have hto : e.toId.toNat = t.id ↔ e.toId = UInt64.ofNat t.id := toNat_eq_iff (by omega)
    simp only [hfrom, hto]
  refine ⟨?_, ?_, ?_, ?_, ?_⟩
  · intro e he
    have hflags : e.flags = 0 := by
      rcases flags_of_mem_fileEdges he with hnil | hflags
      · simp at hnil
      · exact hflags
    refine ⟨by simp [Row.isDeleted, hflags], ?_⟩
    have hnew : e.cols ∈ new := by
      have := List.mem_map_of_mem (f := Row.cols) he
      rwa [map_cols_fileEdges, List.map_nil, List.nil_append] at this
    obtain ⟨r, hr, t, ht, hlive, hlive', hmatch, heq⟩ := (h.mem_iff e.cols).mp hnew
    obtain ⟨m, hrm⟩ := recount_mem_counted CR EdgeCols.fromId new hr
    obtain ⟨n, htn⟩ := recount_mem_counted C EdgeCols.toId new ht
    refine ⟨_, hrm, _, htn, hlive, hlive', (hmatching r hr t ht m n).mpr hmatch, ?_⟩
    rw [heq, edgeOf, edgeOf, recount, howner]
    rfl
  · intro r' hr' t' ht' hlive hlive' hmatch
    obtain ⟨r, hr, m, rfl⟩ := mem_counted hr'
    obtain ⟨t, ht, n, rfl⟩ := mem_counted ht'
    have hmem : edgeOf owner r t ∈ new := (h.mem_iff _).mpr
      ⟨r, hr, t, ht, hlive, hlive', (hmatching r hr t ht m n).mp hmatch, rfl⟩
    exact (hends r hr t ht).trans (countP_ends h hmem)
  · intro r' hr' t' ht' hlive hlive' hmatch
    obtain ⟨r, hr, m, rfl⟩ := mem_counted hr'
    obtain ⟨t, ht, n, rfl⟩ := mem_counted ht'
    refine (hends r hr t ht).trans (List.countP_eq_zero.mpr ?_)
    intro e he heq
    obtain ⟨r₁, hr₁, t₁, ht₁, -, -, hmatch₁, rfl⟩ := (h.mem_iff e).mp he
    rw [decide_eq_true_eq] at heq
    obtain rfl := hrs.eq_of_ofNat_id hrslt hr₁ hr heq.1
    obtain rfl := hts.eq_of_ofNat_id htslt ht₁ ht heq.2
    exact hmatch ((hmatching r₁ hr₁ t₁ ht₁ m n).mpr hmatch₁)
  · intro r hr
    rw [countP_fileEdges fun e => e.fromId.toNat = r.id]
    exact toNat_counted hedge hrs hrslt hedgezero
      (fun x => (countP_fromId_le h x).trans htslt) hr
  · intro t ht
    rw [countP_fileEdges fun e => e.toId.toNat = t.id]
    exact toNat_counted href hts htslt hrefzero (fun x => (countP_toId_le h x).trans hrslt) ht

end Counts

end Kinds

section Statement
variable (pool : Pool)

/-- The name of the reference is the name of the class. -/
def namesClass (r : Row ClassRefCols) (t : Row ClassFileCols) : Prop :=
  text pool r.cols.name = text pool t.cols.classname

/-- The reference has the class name of the owner of the member, and its name
and descriptor. -/
def namesMember {ρ τ : Type} (T : Types ρ τ) (classes : List (Row ClassFileCols)) (r : Row ρ)
    (t : Row τ) : Prop :=
  ∃ owner, classes[(T.targetOwner t.cols).toNat]? = some owner ∧
    text pool (T.classname r.cols) = text pool owner.cols.classname ∧
    text pool (T.refName r.cols) = text pool (T.targetName t.cols) ∧
    text pool (T.refDescriptor r.cols) = text pool (T.targetDescriptor t.cols)

/-- The edges and counters of all three kinds are right. -/
structure Exact (R : Rows) : Prop where
  classes : Linked (namesClass pool) (fun _ => 0) ClassRefCols.edgeCount ClassFileCols.refCount
    (R.nodes .classRefs) R.classfiles (R.edges .classRefEdges)
  methods : Linked (namesMember pool methodTypes R.classfiles) MethodRefCols.ownerClass
    MethodRefCols.edgeCount MethodCols.refCount (R.nodes .methodRefs) (R.nodes .methods)
    (R.edges .methodRefEdges)
  fields : Linked (namesMember pool fieldTypes R.classfiles) MethodRefCols.ownerClass
    MethodRefCols.edgeCount FieldCols.refCount (R.nodes .fieldRefs) (R.nodes .fields)
    (R.edges .fieldRefEdges)

end Statement

/-- The columns whose texts are compared. -/
def Compared (R : Rows) (s : StringCol) : Prop :=
  (∃ r ∈ R.classfiles, s = r.cols.classname) ∨ ∃ i, ∃ r ∈ R.nodes i, s ∈ i.texts r.cols

/-- What linking may start from: no edges and zero counters, owners that are
there, and one offset for each text. -/
structure Linkable (pool : Pool) (R : Rows) : Prop where
  edges : ∀ e, R.edges e = []
  classfiles : ∀ r ∈ R.classfiles, r.cols.refCount = 0
  methods : ∀ r ∈ R.nodes .methods, r.cols.refCount = 0
  fields : ∀ r ∈ R.nodes .fields, r.cols.refCount = 0
  classRefs : ∀ r ∈ R.nodes .classRefs, r.cols.edgeCount = 0
  methodRefs : ∀ r ∈ R.nodes .methodRefs, r.cols.edgeCount = 0
  fieldRefs : ∀ r ∈ R.nodes .fieldRefs, r.cols.edgeCount = 0
  owners : ∀ i, ∀ r ∈ R.nodes i, (i.ownerClass r.cols).toNat < R.classfiles.length
  interned : ∀ s s', Compared R s → Compared R s' → text pool s = text pool s' → s = s'

/-- The same rows up to the counters. -/
structure SameColumns (R R' : Rows) : Prop where
  classfiles : R'.classfiles.map (fun r => { r with cols := { r.cols with refCount := 0 } }) =
    R.classfiles.map fun r => { r with cols := { r.cols with refCount := 0 } }
  methods : (R'.nodes .methods).map (fun r => { r with cols := { r.cols with refCount := 0 } }) =
    (R.nodes .methods).map fun r => { r with cols := { r.cols with refCount := 0 } }
  fields : (R'.nodes .fields).map (fun r => { r with cols := { r.cols with refCount := 0 } }) =
    (R.nodes .fields).map fun r => { r with cols := { r.cols with refCount := 0 } }
  classRefs : (R'.nodes .classRefs).map
      (fun r => { r with cols := { r.cols with edgeCount := 0 } }) =
    (R.nodes .classRefs).map fun r => { r with cols := { r.cols with edgeCount := 0 } }
  methodRefs : (R'.nodes .methodRefs).map
      (fun r => { r with cols := { r.cols with edgeCount := 0 } }) =
    (R.nodes .methodRefs).map fun r => { r with cols := { r.cols with edgeCount := 0 } }
  fieldRefs : (R'.nodes .fieldRefs).map
      (fun r => { r with cols := { r.cols with edgeCount := 0 } }) =
    (R.nodes .fieldRefs).map fun r => { r with cols := { r.cols with edgeCount := 0 } }

/-- The linker returns, without a failed assertion, with the edges and counters
that the texts call for, and changes nothing else. -/
def Links (A : ∀ α : Type, Allocator α) (I : Iteration) (db : LinkDb) (R : Rows) : Prop :=
  ∃ fuel db' R', db.linkRefNodes A I fuel = .returned db' ∧ Stored db' R' ∧
    db'.pool = db.pool ∧ SameColumns R R' ∧ Exact db.pool R'

section Proof
variable {pool : Pool} {R : Rows} {new : EdgeTable → List EdgeCols}

theorem Linkable.owned (h : Linkable pool R) : R.Owned := by
  constructor
  · intro r hr _
    have hlt : (methodTypes.targetOwner r.cols).toNat < R.classfiles.length :=
      h.owners .methods r hr
    simpa [memberKey] using hlt
  · intro r hr _
    have hlt : (fieldTypes.targetOwner r.cols).toNat < R.classfiles.length :=
      h.owners .fields r hr
    simpa [memberKey] using hlt

theorem Linkable.fresh (h : Linkable pool R) : R.Fresh := by
  constructor
  all_goals
    intro r _ t _ _ _ _ e he
    simp [h.edges] at he

theorem map_counted {α β : Type} {C : Counter α} {side : EdgeCols → RefCol} {new : List EdgeCols}
    {rows : List (Row α)} {f : Row α → β} (hf : ∀ r n, f (recount C r n) = f r) :
    (counted C side new rows).map f = rows.map f := by
  apply List.ext_getElem?
  intro i
  rw [List.getElem?_map, List.getElem?_map, getElem?_counted, Option.map_map]
  cases rows[i]? with
  | none => rfl
  | some r => simp [hf]

theorem sameColumns_linked : SameColumns R (R.linked new) :=
  ⟨map_counted fun _ _ => rfl, map_counted fun _ _ => rfl, map_counted fun _ _ => rfl,
    map_counted fun _ _ => rfl, map_counted fun _ _ => rfl, map_counted fun _ _ => rfl⟩

theorem Linkable.text_eq_iff (h : Linkable pool R) {s s' : StringCol} (hs : Compared R s)
    (hs' : Compared R s') : text pool s = text pool s' ↔ s = s' :=
  ⟨h.interned s s' hs hs', congrArg (text pool)⟩

/-- Equal texts of references and members are equal columns. -/
theorem Linkable.namesMember_iff (h : Linkable pool R) {ρ τ : Type} {T : Types ρ τ}
    (hT : Types.Lawful T) (es : List EdgeCols) {r : Row ρ} {t : Row τ}
    (hr : ∀ s ∈ [T.classname r.cols, T.refName r.cols, T.refDescriptor r.cols], Compared R s)
    (ht : ∀ s ∈ [T.targetName t.cols, T.targetDescriptor t.cols], Compared R s) (m n : ℕ) :
    namesMember pool T (counted classRefCounter EdgeCols.toId es R.classfiles)
      (recount hT.edgeCounter r m) (recount hT.refCounter t n) ↔
      memberMatching T R.classfiles r t := by
  obtain ⟨hclass, hname, hdescriptor, -⟩ := hT.reference_recount r m
  obtain ⟨howner, hname', hdescriptor'⟩ := hT.target_recount t n
  simp only [namesMember, hclass, hname, hdescriptor, howner, hname', hdescriptor',
    getElem?_counted]
  simp only [recount]
  cases hrow : R.classfiles[(T.targetOwner t.cols).toNat]? with
  | none => simp [memberMatching, memberKey, hrow]
  | some owner =>
      have howned : Compared R owner.cols.classname :=
        .inl ⟨owner, List.mem_of_getElem? hrow, rfl⟩
      simp only [Option.map_some, Option.some.injEq, exists_eq_left', memberMatching, memberKey,
        hrow, referenceKey, Prod.mk.injEq]
      have hclassname := h.text_eq_iff (hr (T.classname r.cols) (by simp)) howned
      have hnames := h.text_eq_iff (hr (T.refName r.cols) (by simp))
        (ht (T.targetName t.cols) (by simp))
      have hdescriptors := h.text_eq_iff (hr (T.refDescriptor r.cols) (by simp))
        (ht (T.targetDescriptor t.cols) (by simp))
      have hcolumn : ∀ x, (classRefCounter.add owner.cols x).classname = owner.cols.classname :=
        fun _ => rfl
      rw [hcolumn, hclassname, hnames, hdescriptors]
      constructor
      · rintro ⟨h₁, h₂, h₃⟩
        exact ⟨h₁.symm, h₂.symm, h₃.symm⟩
      · rintro ⟨h₁, h₂, h₃⟩
        exact ⟨h₁.symm, h₂.symm, h₃.symm⟩

/-- What a run leaves is exact. -/
theorem exact_linked (h : Linkable pool R) (hs : R.Small)
    (hn : Numbered R.classfiles ∧ ∀ i, Numbered (R.nodes i)) (hj : R.JoinedBy new) :
    Exact pool (R.linked new) := by
  have hcompared : ∀ i, ∀ r ∈ R.nodes i, ∀ s ∈ i.texts r.cols, Compared R s :=
    fun i r hr s hs => .inr ⟨i, r, hr, hs⟩
  have hedges : ∀ e, (R.linked new).edges e = fileEdges [] (new e) := by
    intro e
    rw [← h.edges e]
    rfl
  constructor
  · rw [hedges]
    refine linked_of_joins hj.classes (hn.2 .classRefs) hn.1 (hs.2 .classRefs).le hs.1.le
      (fun _ _ => rfl) (fun _ _ => rfl) h.classRefs h.classfiles (fun _ _ => rfl) ?_
    intro r hr t ht _ _
    have hname : Compared R r.cols.name := hcompared .classRefs r hr _ (by simp [NodeTable.texts])
    exact h.text_eq_iff hname (.inl ⟨t, ht, rfl⟩)
  · rw [hedges]
    refine linked_of_joins hj.methods (hn.2 .methodRefs) (hn.2 .methods) (hs.2 .methodRefs).le
      (hs.2 .methods).le (fun _ _ => rfl) (fun _ _ => rfl) h.methodRefs h.methods
      (fun _ _ => rfl) ?_
    intro r hr t ht m n
    exact h.namesMember_iff Types.lawful_methodTypes (new .classRefEdges)
      (hcompared .methodRefs r hr) (hcompared .methods t ht) m n
  · rw [hedges]
    refine linked_of_joins hj.fields (hn.2 .fieldRefs) (hn.2 .fields) (hs.2 .fieldRefs).le
      (hs.2 .fields).le (fun _ _ => rfl) (fun _ _ => rfl) h.fieldRefs h.fields
      (fun _ _ => rfl) ?_
    intro r hr t ht m n
    exact h.namesMember_iff Types.lawful_fieldTypes (new .classRefEdges)
      (hcompared .fieldRefs r hr) (hcompared .fields t ht) m n

end Proof

/-- Linking computes the matching relation exactly when no table has `2 ^ 32`
rows or more. -/
theorem links_iff_small (A : ∀ α : Type, Allocator α) (I : Iteration) {db : LinkDb} {R : Rows}
    (h : Stored db R) (hl : Linkable db.pool R) : Links A I db R ↔ R.Small := by
  constructor
  · rintro ⟨fuel, db', R', hrun, -⟩
    by_contra hs
    exact endless_linkRefNodes A I h hs fuel db' hrun
  · intro hs
    obtain ⟨fuel, db', hrun, hpool, new, hj, hstored⟩ :=
      (settles_linkRefNodes A I h hs).exists_returned ⟨hl.owned, hl.fresh⟩
    exact ⟨fuel, db', _, hrun, hstored, hpool, sameColumns_linked,
      exact_linked hl hs ⟨h.classfiles.ids, fun i => (h.nodes i).ids⟩ hj⟩

section Samples

/-- A table of `n` rows, with the keys they are held under. -/
def tableOf {α : Type} (F : Format α) (n : ℕ) (row : ℕ → Row α) (key : ℕ → Bytes)
    (hkey : ∀ i < n, ∀ j < n, key i = key j → i = j) : Table α where
  heap := ⟨(List.range n).map fun i => ⟨i, row i⟩, by
    rw [List.NodupKeys, List.keys, List.map_map]
    simpa [Function.comp_def] using List.nodup_range⟩
  rows := ⟨(List.range n).map fun i => ⟨key i, i⟩, by
    rw [List.NodupKeys, List.keys, List.map_map]
    apply List.Nodup.map_on _ List.nodup_range
    intro i hi j hj hij
    exact hkey i (List.mem_range.mp hi) j (List.mem_range.mp hj) hij⟩
  autoIncrementIndex := List.range n
  isDirty := false
  dirtyRows := ∅
  schema := F.schema

theorem core_tableOf {α : Type} {F : Format α} {n : ℕ} {row : ℕ → Row α} {key : ℕ → Bytes}
    (hkey : ∀ i < n, ∀ j < n, key i = key j → i = j) (hrow : ∀ i, (row i).id = i)
    (getKey : α → Bytes) :
    Core ⟨F, getKey⟩ (tableOf F n row key hkey) ((List.range n).map row) where
  schema := rfl
  heap := by
    rw [List.map_map]
    apply List.map_congr_left
    intro i hi
    exact AList.mem_lookup_iff.mpr (List.mem_map.mpr ⟨i, hi, rfl⟩)
  ids i r hr := by
    rw [List.getElem?_map, Option.map_eq_some_iff] at hr
    obtain ⟨j, hj, rfl⟩ := hr
    obtain ⟨hlt, rfl⟩ := List.getElem?_eq_some_iff.mp hj
    rw [hrow, List.getElem_range]
  nodup := List.nodup_range
  rows k p hp := by
    obtain ⟨i, hi, heq⟩ := List.mem_map.mp (AList.mem_lookup_iff.mp hp)
    cases heq
    exact hi

/-- A class file in a directory of its own. -/
def analysedName (i : ℕ) : Bytes := ascii (toString i) ++ ascii "/A.class"

/-- Where the names of the class files start in the pool. -/
def nameOffset (i : ℕ) : ℕ :=
  20 + (TerminatedStrings.terminated 0 ((List.range i).map analysedName)).length

/-- The pool with the names of the class, of its super class and of its `n` files. -/
def analysedPool (n : ℕ) : Pool where
  isDirty := true
  pool := [0] ++ ascii "A" ++ [0] ++ ascii "java/lang/Object" ++ [0] ++
    TerminatedStrings.terminated 0 ((List.range n).map analysedName)
  hash := (List.range n).foldl (fun hash i => hash.insert (analysedName i) (nameOffset i))
    ((((∅ : AList fun _ : Bytes => ℕ).insert [] 0).insert (ascii "A") 1).insert
      (ascii "java/lang/Object") 3)
  size := StartPoolSize * 2 ^ (n.log2 / 4)

def analysedKey (i : ℕ) : Bytes := DomainTables.getStrongClassname (analysedName i) (ascii "A")

theorem analysedName_injective (n : ℕ) :
    ∀ i < n, ∀ j < n, analysedName i = analysedName j → i = j := fun _ _ _ _ hij =>
  ascii_toString_injective (List.append_cancel_right hij)

theorem analysedKey_injective (n : ℕ) :
    ∀ i < n, ∀ j < n, analysedKey i = analysedKey j → i = j := by
  intro i hi j hj hij
  simp only [analysedKey, DomainTables.getStrongClassname,
    if_neg (show ascii "A" ≠ [] by decide)] at hij
  exact analysedName_injective n i hi j hj
    (List.append_cancel_right (List.append_cancel_right hij))

def analysedFile (i : ℕ) : Row FileCols := ⟨0, i, { filename := UInt64.ofNat (nameOffset i) }⟩

def analysedClass (i : ℕ) : Row ClassFileCols :=
  ⟨0, i, { file := UInt64.ofNat i, classname := 1 }⟩

/-- The one reference, of the last class. -/
def analysedRef (n : ℕ) (name : StringCol) (i : ℕ) : Row ClassRefCols :=
  ⟨0, i, { ownerClass := UInt64.ofNat (n - 1), name := name }⟩

/-- The database after a run over `n` class files, of which the last one refers to a class. -/
def analysed (n : ℕ) (name : StringCol) : LinkDb where
  pool := analysedPool n
  files := tableOf Files.format n analysedFile analysedName (analysedName_injective n)
  classfiles := tableOf ClassFiles.format n analysedClass analysedKey (analysedKey_injective n)
  nodes
    | .classRefs => tableOf ClassRefs.format 1 (analysedRef n name)
        (fun _ => analysedKey (n - 1) ++ ascii "#" ++ text (analysedPool n) name) (by omega)
    | .methods => Table.construct ⟨Methods.format, fun _ => []⟩
    | .fields => Table.construct ⟨Fields.format, fun _ => []⟩
    | .methodRefs => Table.construct ⟨MethodRefs.format, fun _ => []⟩
    | .fieldRefs => Table.construct ⟨FieldRefs.format, fun _ => []⟩
  edges e := Table.construct e.layout

def analysedRows (n : ℕ) (name : StringCol) : Rows where
  classfiles := (List.range n).map analysedClass
  nodes
    | .classRefs => (List.range 1).map (analysedRef n name)
    | .methods => []
    | .fields => []
    | .methodRefs => []
    | .fieldRefs => []
  edges _ := []

theorem length_analysedRows (n : ℕ) (name : StringCol) :
    (analysedRows n name).classfiles.length = n := by
  simp [analysedRows]

theorem stored_analysed (n : ℕ) (name : StringCol) :
    Stored (analysed n name) (analysedRows n name) where
  classfiles := core_tableOf (analysedKey_injective n) (fun _ => rfl) _
  nodes i := by
    cases i with
    | classRefs => exact core_tableOf (by omega) (fun _ => rfl) _
    | methods => exact core_construct _
    | fields => exact core_construct _
    | methodRefs => exact core_construct _
    | fieldRefs => exact core_construct _
  edges e := core_construct _
  filed e := filed_construct _

theorem compared_analysedRows {n : ℕ} {s : StringCol} (h : Compared (analysedRows n 1) s) :
    s = 1 := by
  rcases h with ⟨r, hr, rfl⟩ | ⟨i, r, hr, hs⟩
  · obtain ⟨i, -, rfl⟩ := List.mem_map.mp hr
    rfl
  · cases i with
    | classRefs =>
        obtain ⟨i, -, rfl⟩ := List.mem_map.mp hr
        exact List.mem_singleton.mp hs
    | methods => simp [analysedRows] at hr
    | fields => simp [analysedRows] at hr
    | methodRefs => simp [analysedRows] at hr
    | fieldRefs => simp [analysedRows] at hr

/-- With the name of the class itself. -/
theorem linkable_analysed {n : ℕ} (hn : 0 < n) (hlt : n ≤ 2 ^ 32) :
    Linkable (analysed n 1).pool (analysedRows n 1) where
  edges _ := rfl
  classfiles r hr := by
    obtain ⟨i, -, rfl⟩ := List.mem_map.mp hr
    rfl
  methods r hr := by simp [analysedRows] at hr
  fields r hr := by simp [analysedRows] at hr
  classRefs r hr := by
    obtain ⟨i, -, rfl⟩ := List.mem_map.mp hr
    rfl
  methodRefs r hr := by simp [analysedRows] at hr
  fieldRefs r hr := by simp [analysedRows] at hr
  owners i r hr := by
    cases i with
    | classRefs =>
        obtain ⟨i, -, rfl⟩ := List.mem_map.mp hr
        have howner : (NodeTable.classRefs.ownerClass (analysedRef n 1 i).cols).toNat = n - 1 := by
          rw [show NodeTable.classRefs.ownerClass (analysedRef n 1 i).cols = UInt64.ofNat (n - 1)
            from rfl, UInt64.toNat_ofNat', Nat.mod_eq_of_lt (by omega)]
        rw [howner, length_analysedRows]
        omega
    | methods => simp [analysedRows] at hr
    | fields => simp [analysedRows] at hr
    | methodRefs => simp [analysedRows] at hr
    | fieldRefs => simp [analysedRows] at hr
  interned s s' hs hs' _ := (compared_analysedRows hs).trans (compared_analysedRows hs').symm

/-- A class is linked with itself, as every class refers to itself. -/
theorem links_analysed_once :
    Links Allocator.next Iteration.sorted (analysed 1 1) (analysedRows 1 1) := by
  refine (links_iff_small Allocator.next Iteration.sorted (stored_analysed 1 1)
    (linkable_analysed (by norm_num) (by norm_num))).mpr ?_
  refine ⟨by simp [analysedRows], fun i => ?_⟩
  cases i <;> simp [analysedRows]

/-- The loop over the class rows of a run over `2 ^ 32` files never comes to an end. -/
theorem analysed_too_often :
    Stored (analysed (2 ^ 32) 1) (analysedRows (2 ^ 32) 1) ∧
      Linkable (analysed (2 ^ 32) 1).pool (analysedRows (2 ^ 32) 1) ∧
      ¬ Links Allocator.next Iteration.sorted (analysed (2 ^ 32) 1) (analysedRows (2 ^ 32) 1) := by
  refine ⟨stored_analysed _ _, linkable_analysed (by norm_num) le_rfl, ?_⟩
  rintro ⟨fuel, db', R', hrun, -⟩
  refine endless_linkRefNodes Allocator.next Iteration.sorted (stored_analysed (2 ^ 32) 1) ?_ fuel
    db' hrun
  rintro ⟨hclasses, -⟩
  rw [length_analysedRows] at hclasses
  exact absurd hclasses (lt_irrefl _)

end Samples

end Tarracsh.LinkExactness
