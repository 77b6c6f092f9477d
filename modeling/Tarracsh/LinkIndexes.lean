import Tarracsh.LinkPasses

/-!
# The indexes of linking, and what a reference finds in them

The index of the classes holds the pointers of the live class rows under their
names, and the index of the members the ids of the live rows under the name of
the owner, their name and their descriptor. A reference is joined with what
stands under its own columns.
-/
namespace Tarracsh.LinkIndexes
open ByteStrings TableModel TableInvariant DomainTables CallGraphTables CallGraphLinking
open CountedLoops LinkPasses

namespace Iteration
variable (I : Iteration)

theorem order_empty : I.order ∅ = [] := by
  apply List.eq_nil_iff_forall_not_mem.mpr
  intro x hx
  simpa using (I.mem_order ∅ x).mp hx

theorem length_order (s : Finset ℕ) : (I.order s).length = s.card := by
  have hs : (I.order s).toFinset = s := by
    ext x
    rw [List.mem_toFinset, I.mem_order]
  rw [← List.toFinset_card_of_nodup (I.nodup s), hs]

end Iteration

section Building
variable {α K Index : Type} (get : Index → K → Finset ℕ) (insert : Index → K → ℕ → Index)
  (key : Row α → Option K) (value : ℕ → Row α → ℕ)

/-- The index holds the values of the first `k` rows that are not deleted,
under their keys. -/
def Indexed (t : Table α) (rs : List (Row α)) (k : ℕ) (index : Index) : Prop :=
  ∀ key' v, v ∈ get index key' ↔
    ∃ (i p : ℕ) (r : Row α), i < k ∧ t.autoIncrementIndex[i]? = some p ∧ rs[i]? = some r ∧
      r.isDeleted = false ∧ key r = some key' ∧ value p r = v

variable {get insert key value}

/-- One more row changes the index only if it is live. -/
theorem Indexed.succ {L : Layout α} {t : Table α} {rs : List (Row α)} (hc : Core L t rs) {k p : ℕ}
    {r : Row α} {index index' : Index} (h : Indexed get key value t rs k index)
    (hp : t.autoIncrementIndex[k]? = some p) (hr : t.heap.lookup p = some r)
    (hindex : ∀ key' v, v ∈ get index' key' ↔
      (r.isDeleted = false ∧ key r = some key' ∧ value p r = v) ∨ v ∈ get index key') :
    Indexed get key value t rs (k + 1) index' := by
  have hrow : rs[k]? = some r := by rw [← hc.lookup_of_index hp, hr]
  intro key' v
  rw [hindex, h]
  constructor
  · rintro (⟨hlive, hkey, hvalue⟩ | ⟨i, q, r', hi, hrest⟩)
    · exact ⟨k, p, r, by omega, hp, hrow, hlive, hkey, hvalue⟩
    · exact ⟨i, q, r', by omega, hrest⟩
  · rintro ⟨i, q, r', hi, hq, hr', hlive, hkey, hvalue⟩
    rcases Nat.lt_succ_iff_lt_or_eq.mp hi with hlt | rfl
    · exact .inr ⟨i, q, r', hlt, hq, hr', hlive, hkey, hvalue⟩
    · obtain rfl := Option.some.inj (hp.symm.trans hq)
      obtain rfl := Option.some.inj (hrow.symm.trans hr')
      exact .inl ⟨hlive, hkey, hvalue⟩

/-- The loop of both indexes, which fails at a live row without a key. -/
theorem settles_index {L : Layout α} {t : Table α} {rs : List (Row α)} (hc : Core L t rs)
    (hrs : rs.length < 2 ^ 32)
    (hinsert : ∀ index key key' v w, w ∈ get (insert index key v) key' ↔
      (key = key' ∧ v = w) ∨ w ∈ get index key')
    {func : Index → ℕ → Option Index}
    (hfunc : ∀ index p r, t.heap.lookup p = some r →
      func index p = (key r).map fun k => insert index k (value p r))
    {empty : Index} (hempty : ∀ k v, v ∉ get empty k) :
    Settles (fun fuel => forEach (fun _ => t) func fuel empty)
      (∀ r ∈ rs, r.isDeleted = false → (key r).isSome)
      (Indexed get key value t rs rs.length) := by
  let good : ℕ → Prop := fun k => ∀ r ∈ rs.take k, r.isDeleted = false → (key r).isSome
  have hsucc : ∀ {k : ℕ} {r : Row α}, rs[k]? = some r →
      (good (k + 1) ↔ good k ∧ (r.isDeleted = false → (key r).isSome)) := by
    intro k r hr
    simp only [good, List.take_add_one, hr, Option.toList_some, List.mem_append,
      List.mem_singleton]
    constructor
    · exact fun h => ⟨fun r' hr' => h r' (.inl hr'), h r (.inr rfl)⟩
    · rintro ⟨h, hr⟩ r' (hr' | rfl)
      · exact h r' hr'
      · exact hr
  have hall : good rs.length ↔ ∀ r ∈ rs, r.isDeleted = false → (key r).isSome := by
    simp only [good, List.take_length]
  refine Settles.congr ?_ hall
  refine settles_forEach hrs (Indexed get key value t rs) good ?_ ?_ ?_ ?_ ?_ ?_
  · intro k hk h
    exact ((hsucc (List.getElem?_eq_getElem hk)).mp h).1
  · exact fun _ _ _ => ⟨L, rs, hc, rfl⟩
  · intro k index p r hg h hp hr hdel
    have hrow : rs[k]? = some r := by rw [← hc.lookup_of_index hp, hr]
    refine ⟨(hsucc hrow).mpr ⟨hg, by simp [hdel]⟩, h.succ hc hp hr fun key' v => ?_⟩
    simp [hdel]
  · intro k index p r hg h hp hr hlive
    have hrow : rs[k]? = some r := by rw [← hc.lookup_of_index hp, hr]
    rw [hsucc hrow, hfunc index p r hr]
    cases hkey : key r with
    | none =>
        right
        simp [hlive]
    | some key' =>
        left
        refine ⟨⟨hg, by simp⟩, _, rfl, h.succ hc hp hr fun k v => ?_⟩
        rw [hinsert]
        simp [hlive, hkey]
  · simp [good]
  · intro key' v
    simp [hempty]

end Building

section Classes

/-- The classes that the index holds under a name. -/
def classesOf (index : ClassesByName) (classname : StringCol) : Finset ℕ :=
  (index.lookup classname).getD ∅

theorem mem_classesOf_insertClass (index : ClassesByName) (name name' : StringCol) (p q : ℕ) :
    q ∈ classesOf (insertClass index name p) name' ↔
      (name = name' ∧ p = q) ∨ q ∈ classesOf index name' := by
  unfold insertClass classesOf
  by_cases hname : name' = name
  · subst hname
    cases hlookup : index.lookup name' with
    | none => simp [AList.lookup_insert, eq_comm]
    | some rows => simp [AList.lookup_insert, eq_comm]
  · have hname' : name ≠ name' := Ne.symm hname
    cases hlookup : index.lookup name with
    | none => simp [AList.lookup_insert_ne hname, hname']
    | some rows => simp [AList.lookup_insert_ne hname, hname']

/-- The pointers of the live classes with the given name. -/
def IndexesClasses (t : Table ClassFileCols) (rs : List (Row ClassFileCols))
    (index : ClassesByName) : Prop :=
  Indexed classesOf (fun r => some r.cols.classname) (fun p _ => p) t rs rs.length index

theorem settles_createClassnameIndex {t : Table ClassFileCols} {rs : List (Row ClassFileCols)}
    (hc : Core ⟨ClassFiles.format, fun _ => []⟩ t rs) (hrs : rs.length < 2 ^ 32) :
    Settles (fun fuel => createClassnameIndex fuel t) True (IndexesClasses t rs) := by
  refine (settles_index hc hrs mem_classesOf_insertClass ?_ ?_).congr (by simp)
  · intro index p r hr
    simp [hr]
  · simp [classesOf]

end Classes

section Members

/-- The members that the index holds under the three columns. -/
def membersOf (index : MembersIndex) (key : StringCol × StringCol × StringCol) : Finset ℕ :=
  (((((index.lookup key.1).getD ∅).lookup key.2.1).getD ∅).lookup key.2.2).getD ∅

theorem membersOf_insertMember (index : MembersIndex) (key key' : StringCol × StringCol × StringCol)
    (id id' : ℕ) :
    id' ∈ membersOf (insertMember index key.1 key.2.1 key.2.2 id) key' ↔
      (key = key' ∧ id = id') ∨ id' ∈ membersOf index key' := by
  obtain ⟨c, n, d⟩ := key
  obtain ⟨c', n', d'⟩ := key'
  unfold insertMember membersOf
  by_cases hc : c' = c
  · subst hc
    by_cases hn : n' = n
    · subst hn
      by_cases hd : d' = d
      · subst hd
        simp [AList.lookup_insert, eq_comm]
      · simp [AList.lookup_insert, AList.lookup_insert_ne hd, Ne.symm hd]
    · simp [AList.lookup_insert, AList.lookup_insert_ne hn, Ne.symm hn]
  · simp [AList.lookup_insert_ne hc, Ne.symm hc]

variable {ρ τ : Type} (T : Types ρ τ)

/-- Under which columns a member stands: those of its owner come first. -/
def memberKey (classes : List (Row ClassFileCols)) (r : Row τ) :
    Option (StringCol × StringCol × StringCol) :=
  classes[(T.targetOwner r.cols).toNat]?.map fun owner =>
    (owner.cols.classname, T.targetName r.cols, T.targetDescriptor r.cols)

/-- The ids of the live members with the given columns. -/
def IndexesMembers (classes : List (Row ClassFileCols)) (t : Table τ) (rs : List (Row τ))
    (index : MembersIndex) : Prop :=
  Indexed membersOf (memberKey T classes) (fun _ r => r.id) t rs rs.length index

theorem settles_createMemberIndex {F : Format τ} {classTable : Table ClassFileCols}
    {classes : List (Row ClassFileCols)}
    (hclasses : Core ⟨ClassFiles.format, fun _ => []⟩ classTable classes) {t : Table τ}
    {rs : List (Row τ)} (hc : Core ⟨F, fun _ => []⟩ t rs) (hrs : rs.length < 2 ^ 32) :
    Settles (fun fuel => createMemberIndex T fuel classTable t)
      (∀ r ∈ rs, r.isDeleted = false → (memberKey T classes r).isSome)
      (IndexesMembers T classes t rs) := by
  refine settles_index hc hrs membersOf_insertMember ?_ ?_
  · intro index p r hr
    simp only [hr, hclasses.getRow_eq, memberKey, Option.bind_eq_bind, Option.bind_some]
    cases classes[(T.targetOwner r.cols).toNat]? with
    | none => rfl
    | some owner => rfl
  · simp [membersOf]

def referenceKey (r : Row ρ) : StringCol × StringCol × StringCol :=
  (T.classname r.cols, T.refName r.cols, T.refDescriptor r.cols)

theorem getMemberMatches_eq (I : Iteration) (index : MembersIndex) (r : Row ρ) :
    getMemberMatches T I index r.cols = I.order (membersOf index (referenceKey T r)) := by
  unfold getMemberMatches membersOf referenceKey
  cases hc : index.lookup (T.classname r.cols) with
  | none => simp [Iteration.order_empty]
  | some memberName2Descriptors =>
      cases hn : memberName2Descriptors.lookup (T.refName r.cols) with
      | none => simp [hn, Iteration.order_empty]
      | some descriptor2Member =>
          cases hd : descriptor2Member.lookup (T.refDescriptor r.cols) with
          | none => simp [hn, hd, Iteration.order_empty]
          | some members => simp [hn, hd]

end Members

namespace Types
variable {ρ τ : Type}

/-- The counters are columns of their own. -/
structure Lawful (T : Types ρ τ) : Prop where
  edgeCount_set : ∀ r n, T.edgeCount (T.setEdgeCount r n) = n
  setEdgeCount_set : ∀ r m n, T.setEdgeCount (T.setEdgeCount r m) n = T.setEdgeCount r n
  setEdgeCount_get : ∀ r, T.setEdgeCount r (T.edgeCount r) = r
  refCount_set : ∀ t n, T.refCount (T.setRefCount t n) = n
  setRefCount_set : ∀ t m n, T.setRefCount (T.setRefCount t m) n = T.setRefCount t n
  setRefCount_get : ∀ t, T.setRefCount t (T.refCount t) = t
  reference : ∀ r n, (T.classname (T.setEdgeCount r n), T.refName (T.setEdgeCount r n),
    T.refDescriptor (T.setEdgeCount r n), T.refOwner (T.setEdgeCount r n)) =
      (T.classname r, T.refName r, T.refDescriptor r, T.refOwner r)
  target : ∀ t n, (T.targetOwner (T.setRefCount t n), T.targetName (T.setRefCount t n),
    T.targetDescriptor (T.setRefCount t n)) =
      (T.targetOwner t, T.targetName t, T.targetDescriptor t)

theorem lawful_methodTypes : Lawful methodTypes := by
  constructor <;> intros <;> rfl

theorem lawful_fieldTypes : Lawful fieldTypes := by
  constructor <;> intros <;> rfl

namespace Lawful
variable {T : Types ρ τ} (hT : Lawful T)

def edgeCounter : Counter ρ where
  add r n := T.setEdgeCount r (T.edgeCount r + n)
  add_zero r := by rw [UInt64.add_zero, hT.setEdgeCount_get]
  add_add r m n := by rw [hT.setEdgeCount_set, hT.edgeCount_set, UInt64.add_assoc]

def refCounter : Counter τ where
  add t n := T.setRefCount t (T.refCount t + n)
  add_zero t := by rw [UInt64.add_zero, hT.setRefCount_get]
  add_add t m n := by rw [hT.setRefCount_set, hT.refCount_set, UInt64.add_assoc]

/-- Counting the edges of a reference leaves the other columns. -/
theorem reference_recount (r : Row ρ) (n : ℕ) :
    T.classname (recount hT.edgeCounter r n).cols = T.classname r.cols ∧
      T.refName (recount hT.edgeCounter r n).cols = T.refName r.cols ∧
      T.refDescriptor (recount hT.edgeCounter r n).cols = T.refDescriptor r.cols ∧
      T.refOwner (recount hT.edgeCounter r n).cols = T.refOwner r.cols := by
  have hreference := hT.reference r.cols (T.edgeCount r.cols + UInt64.ofNat n)
  simp only [Prod.mk.injEq] at hreference
  exact hreference

theorem target_recount (t : Row τ) (n : ℕ) :
    T.targetOwner (recount hT.refCounter t n).cols = T.targetOwner t.cols ∧
      T.targetName (recount hT.refCounter t n).cols = T.targetName t.cols ∧
      T.targetDescriptor (recount hT.refCounter t n).cols = T.targetDescriptor t.cols := by
  have htarget := hT.target t.cols (T.refCount t.cols + UInt64.ofNat n)
  simp only [Prod.mk.injEq] at htarget
  exact htarget

theorem referenceKey_recount (r : Row ρ) (n : ℕ) :
    referenceKey T (recount hT.edgeCounter r n) = referenceKey T r := by
  obtain ⟨hclass, hname, hdescriptor, -⟩ := hT.reference_recount r n
  rw [referenceKey, hclass, hname, hdescriptor, referenceKey]

end Lawful

end Types

def classEdgeCounter : Counter ClassRefCols where
  add r n := { r with edgeCount := r.edgeCount + n }
  add_zero r := by simp
  add_add r m n := by simp [UInt64.add_assoc]

def classRefCounter : Counter ClassFileCols where
  add t n := { t with refCount := t.refCount + n }
  add_zero t := by simp
  add_add t m n := by simp [UInt64.add_assoc]

section Callbacks
variable (A : ∀ α : Type, Allocator α) (I : Iteration) {E : EdgeTable}

/-- The edges of a class reference, to the ids of the classes it finds. -/
def matchedClasses (index : ClassesByName) (pointers : List ℕ) (r : Row ClassRefCols) :
    List EdgeCols :=
  (I.order (classesOf index r.cols.name)).map fun p =>
    { fromId := UInt64.ofNat r.id, toId := UInt64.ofNat (pointers.idxOf p) }

/-- The edges from a reference to the classes that it finds. -/
theorem foldlM_linkClass {F : Format ClassRefCols} {G : Format ClassFileCols}
    {s : Pass ClassRefCols ClassFileCols} {rs : List (Row ClassRefCols)}
    {es : List (Row EdgeCols)} {ts : List (Row ClassFileCols)} (h : Represents F G E s rs es ts)
    (hts : ts.length ≤ 2 ^ 32) {found : List ℕ}
    (hfound : ∀ p ∈ found, p ∈ s.targets.autoIncrementIndex) (hd : Distinct (es.map Row.cols))
    (id : ℕ) :
    Outcome F G E s rs classRefCounter es ts
      (found.map fun p =>
        { fromId := UInt64.ofNat id,
          toId := UInt64.ofNat (s.targets.autoIncrementIndex.idxOf p) })
      (found.foldlM (fun s pClassFileRow =>
        (s.targets.heap.lookup pClassFileRow).bind fun classFileRow =>
          linkEdge A E { fromId := UInt64.ofNat id, toId := UInt64.ofNat classFileRow.id }
            (some pClassFileRow) (fun cols => { cols with refCount := cols.refCount + 1 }) s)
        s) := by
  refine foldlM_linkEdge A classRefCounter hts ?_ h rfl rfl hd
  intro p hp
  have hlt := List.idxOf_lt_length_iff.mpr (hfound p hp)
  have hpointer : s.targets.autoIncrementIndex[s.targets.autoIncrementIndex.idxOf p]? =
      some p := by
    rw [List.getElem?_eq_getElem hlt, List.getElem_idxOf]
  refine ⟨_, h.targets.length_eq ▸ hlt, rfl, ?_⟩
  intro s' rs' es' ts' hs' hpointers
  have hsame : s'.targets.autoIncrementIndex[s.targets.autoIncrementIndex.idxOf p]? =
      some p := by
    rw [hpointers]
    exact hpointer
  obtain ⟨t, ht, hrow⟩ := hs'.targets.exists_of_index hsame
  simp only [hrow, Option.bind_some, hs'.targets.ids _ t ht, hpointer]
  rfl

theorem linkClassRef_outcome {F : Format ClassRefCols} {G : Format ClassFileCols}
    (index : ClassesByName) {s : Pass ClassRefCols ClassFileCols} {rs : List (Row ClassRefCols)}
    {es : List (Row EdgeCols)} {ts : List (Row ClassFileCols)}
    (h : Represents F G E s rs es ts) (hrs : rs.length ≤ 2 ^ 32) (hts : ts.length ≤ 2 ^ 32)
    (hindex : ∀ name, ∀ p ∈ classesOf index name, p ∈ s.targets.autoIncrementIndex)
    (hd : Distinct (es.map Row.cols)) {i p : ℕ} {r : Row ClassRefCols}
    (hp : s.refs.autoIncrementIndex[i]? = some p) (hr : rs[i]? = some r) :
    Outcome F G E s
      (counted classEdgeCounter EdgeCols.fromId
        (matchedClasses I index s.targets.autoIncrementIndex r) rs)
      classRefCounter es ts (matchedClasses I index s.targets.autoIncrementIndex r)
      (linkClassRef A I E index s p) := by
  have hlookup : s.refs.heap.lookup p = some r := by rw [h.refs.lookup_of_index hp, hr]
  have hfrom : ∀ e ∈ matchedClasses I index s.targets.autoIncrementIndex r,
      e.fromId = UInt64.ofNat i := by
    intro e he
    obtain ⟨q, -, rfl⟩ := List.mem_map.mp he
    rw [h.refs.ids i r hr]
  unfold linkClassRef
  simp only [hlookup, Option.bind_eq_bind, Option.bind_some]
  cases hclasses : index.lookup r.cols.name with
  | none =>
      have hnil : matchedClasses I index s.targets.autoIncrementIndex r = [] := by
        simp [matchedClasses, classesOf, hclasses, Iteration.order_empty]
      rw [hnil]
      refine .inl ⟨by simpa using hd, s, rfl, ?_, rfl, rfl⟩
      simpa [fileEdges] using h
  | some classes =>
      have hmatched : matchedClasses I index s.targets.autoIncrementIndex r =
          (I.order classes).map fun p =>
            { fromId := UInt64.ofNat r.id,
              toId := UInt64.ofNat (s.targets.autoIncrementIndex.idxOf p) } := by
        simp [matchedClasses, classesOf, hclasses]
      have hlength : (matchedClasses I index s.targets.autoIncrementIndex r).length =
          classes.card := by
        rw [hmatched, List.length_map, Iteration.length_order]
      obtain ⟨refs, hupdate, hcore, hrefs⟩ := updateInPlace_counter classEdgeCounter h.refs hp hr
        (UInt64.ofNat classes.card)
      have hs : Represents F G E { s with refs := refs }
          (counted classEdgeCounter EdgeCols.fromId
            (matchedClasses I index s.targets.autoIncrementIndex r) rs) es ts := by
        refine ⟨?_, h.edges, h.filed, h.targets⟩
        rw [counted_of_forall classEdgeCounter EdgeCols.fromId hrs hr hfrom, hlength]
        exact hcore
      have hbind : (s.refs.updateInPlace p fun row =>
          { row with cols := { row.cols with
            edgeCount := row.cols.edgeCount + UInt64.ofNat classes.card } }) = some refs := hupdate
      have hfound : ∀ q ∈ I.order classes, q ∈ s.targets.autoIncrementIndex := by
        intro q hq
        exact hindex r.cols.name q (by simpa [classesOf, hclasses] using (I.mem_order _ q).mp hq)
      have hfold := foldlM_linkClass A hs hts hfound hd r.id
      rw [← hmatched] at hfold
      simp only [hbind, Option.bind_some]
      rcases hfold with ⟨hd', s', hresult, hs', hrefs', htargets⟩ | ⟨hbad, hresult⟩
      · exact .inl ⟨hd', s', hresult, hs', hrefs'.trans hrefs, htargets⟩
      · exact .inr ⟨hbad, hresult⟩

/-- The edges of a reference to members. -/
def matchedMembers {ρ τ : Type} (T : Types ρ τ) (index : MembersIndex) (r : Row ρ) :
    List EdgeCols :=
  (I.order (membersOf index (referenceKey T r))).map fun id =>
    { ownerClass := T.refOwner r.cols, fromId := UInt64.ofNat r.id, toId := UInt64.ofNat id }

theorem linkMemberRef_outcome {ρ τ : Type} {T : Types ρ τ} (hT : Types.Lawful T) {F : Format ρ}
    {G : Format τ} (index : MembersIndex) {s : Pass ρ τ} {rs : List (Row ρ)}
    {es : List (Row EdgeCols)} {ts : List (Row τ)} (h : Represents F G E s rs es ts)
    (hrs : rs.length ≤ 2 ^ 32) (hts : ts.length ≤ 2 ^ 32)
    (hindex : ∀ key, ∀ id ∈ membersOf index key, id < ts.length)
    (hd : Distinct (es.map Row.cols)) {i p : ℕ} {r : Row ρ}
    (hp : s.refs.autoIncrementIndex[i]? = some p) (hr : rs[i]? = some r) :
    Outcome F G E s (counted hT.edgeCounter EdgeCols.fromId (matchedMembers I T index r) rs)
      hT.refCounter es ts (matchedMembers I T index r) (linkMemberRef A I E T index s p) := by
  have hlookup : s.refs.heap.lookup p = some r := by rw [h.refs.lookup_of_index hp, hr]
  have hfrom : ∀ e ∈ matchedMembers I T index r, e.fromId = UInt64.ofNat i := by
    intro e he
    obtain ⟨id, -, rfl⟩ := List.mem_map.mp he
    rw [h.refs.ids i r hr]
  unfold linkMemberRef
  simp only [hlookup, Option.bind_eq_bind, Option.bind_some, getMemberMatches_eq]
  by_cases hpos : 0 < (I.order (membersOf index (referenceKey T r))).length
  · rw [if_pos hpos]
    have hfold : Outcome F G E s rs hT.refCounter es ts (matchedMembers I T index r)
        ((I.order (membersOf index (referenceKey T r))).foldlM (fun s id =>
          linkEdge A E
            { ownerClass := T.refOwner r.cols, fromId := UInt64.ofNat r.id,
              toId := UInt64.ofNat id }
            s.targets.autoIncrementIndex[id]?
            (fun cols => T.setRefCount cols (T.refCount cols + 1)) s) s) := by
      refine foldlM_linkEdge A hT.refCounter hts ?_ h rfl rfl hd
      intro id hmem
      refine ⟨id, hindex _ id ((I.mem_order _ id).mp hmem), rfl, ?_⟩
      intro s' rs' es' ts' _ hpointers
      rw [hpointers]
      rfl
    rcases hfold with ⟨hd', s', hfold, hs', hrefs, htargets⟩ | ⟨hbad, hfold⟩
    · obtain ⟨refs, hupdate, hcore, hrefs'⟩ := updateInPlace_counter hT.edgeCounter hs'.refs
        (hrefs.symm ▸ hp) hr (UInt64.ofNat (matchedMembers I T index r).length)
      refine .inl ⟨hd', { s' with refs := refs }, ?_,
        ⟨?_, hs'.edges, hs'.filed, hs'.targets⟩, hrefs'.trans hrefs, htargets⟩
      · simp only [hfold, Option.bind_some]
        rw [matchedMembers, List.length_map] at hupdate
        exact congrArg (fun t : Option (Table ρ) =>
          t.bind fun refs => some { s' with refs := refs }) hupdate
      · rw [counted_of_forall hT.edgeCounter EdgeCols.fromId hrs hr hfrom]
        exact hcore
    · refine .inr ⟨hbad, ?_⟩
      simp only [hfold, Option.bind_none]
  · rw [if_neg hpos]
    have hnil : matchedMembers I T index r = [] := by
      rw [matchedMembers, List.map_eq_nil_iff]
      exact List.length_eq_zero_iff.mp (by omega)
    rw [hnil]
    refine .inl ⟨by simpa using hd, s, rfl, ?_, rfl, rfl⟩
    simpa [fileEdges] using h

end Callbacks

end Tarracsh.LinkIndexes
