import Tarracsh.LinkIndexes

/-!
# The edges of a pass are the matching pairs

`Joins` says what a pass over one kind of references should file: one edge for
every live reference and every live target that match, and nothing else.
-/
namespace Tarracsh.LinkJoins
open ByteStrings TableModel TableInvariant DomainTables CallGraphTables CallGraphLinking
open CountedLoops LinkPasses LinkIndexes

section
variable {ρ τ : Type} (matching : Row ρ → Row τ → Prop) (owner : ρ → RefCol)

def edgeOf (r : Row ρ) (t : Row τ) : EdgeCols where
  ownerClass := owner r.cols
  fromId := UInt64.ofNat r.id
  toId := UInt64.ofNat t.id

/-- One edge for each pair of a live reference and a live target that match. -/
structure Joins (rs : List (Row ρ)) (ts : List (Row τ)) (es : List EdgeCols) : Prop where
  distinct : Distinct es
  mem_iff : ∀ e, e ∈ es ↔ ∃ r ∈ rs, ∃ t ∈ ts, r.isDeleted = false ∧ t.isDeleted = false ∧
    matching r t ∧ e = edgeOf owner r t

/-- Rows stand at their ids. -/
def Numbered {α : Type} (rs : List (Row α)) : Prop :=
  ∀ (i : ℕ) (r : Row α), rs[i]? = some r → r.id = i

/-- No edge joins a live reference with a live target that match. -/
def Unjoined (rs : List (Row ρ)) (ts : List (Row τ)) (es : List EdgeCols) : Prop :=
  ∀ r ∈ rs, ∀ t ∈ ts, r.isDeleted = false → t.isDeleted = false → matching r t →
    ∀ e ∈ es, ¬ (e.fromId = UInt64.ofNat r.id ∧ e.toId = UInt64.ofNat t.id)

variable {matching owner}

theorem Joins.distinct_append_iff {rs : List (Row ρ)} {ts : List (Row τ)}
    {es new : List EdgeCols} (h : Joins matching owner rs ts new) (hd : Distinct es) :
    Distinct (es ++ new) ↔ Unjoined matching rs ts es := by
  rw [Distinct, List.map_append, List.nodup_append]
  constructor
  · rintro ⟨-, -, hne⟩ r hr t ht hlive hlive' hmatch e he hends
    have hnew := (h.mem_iff _).mpr ⟨r, hr, t, ht, hlive, hlive', hmatch, rfl⟩
    exact hne _ (List.mem_map_of_mem he) _ (List.mem_map_of_mem hnew) (getKey_eq_iff.mpr hends)
  · intro hun
    refine ⟨hd, h.distinct, ?_⟩
    intro key hkey key' hkey' heq
    obtain ⟨e, he, rfl⟩ := List.mem_map.mp hkey
    obtain ⟨e', he', rfl⟩ := List.mem_map.mp hkey'
    obtain ⟨r, hr, t, ht, hlive, hlive', hmatch, rfl⟩ := (h.mem_iff e').mp he'
    exact hun r hr t ht hlive hlive' hmatch e he (getKey_eq_iff.mp heq)

theorem Numbered.getElem? {α : Type} {rs : List (Row α)} (h : Numbered rs) {r : Row α}
    (hr : r ∈ rs) : rs[r.id]? = some r := by
  obtain ⟨i, hi⟩ := List.getElem?_of_mem hr
  rw [h i r hi, hi]

theorem Numbered.id_lt {α : Type} {rs : List (Row α)} (h : Numbered rs) {r : Row α}
    (hr : r ∈ rs) : r.id < rs.length :=
  (List.getElem?_eq_some_iff.mp (h.getElem? hr)).1

/-- Two rows of one table with the same id column are one row. -/
theorem Numbered.eq_of_ofNat_id {α : Type} {rs : List (Row α)} (h : Numbered rs)
    (hrs : rs.length ≤ 2 ^ 32) {r r' : Row α} (hr : r ∈ rs) (hr' : r' ∈ rs)
    (hid : UInt64.ofNat r.id = UInt64.ofNat r'.id) : r = r' := by
  have hlt := h.id_lt hr
  have hlt' := h.id_lt hr'
  have hnat := eq_of_ofNat_eq (by omega) (by omega) hid
  have hget := h.getElem? hr
  rw [hnat, h.getElem? hr'] at hget
  exact (Option.some.inj hget).symm

section Outgoing
variable {rs : List (Row ρ)} {ts : List (Row τ)} {matched : Row ρ → List EdgeCols}
  {found : Row ρ → List ℕ} {r : Row ρ} {e : EdgeCols}

theorem fromId_of_mem_outgoing
    (hmatched : matched r =
      (found r).map fun j => ⟨owner r.cols, UInt64.ofNat r.id, UInt64.ofNat j⟩)
    (he : e ∈ outgoing matched r) : e.fromId = UInt64.ofNat r.id := by
  unfold outgoing at he
  split_ifs at he
  · simp at he
  · rw [hmatched] at he
    obtain ⟨j, -, rfl⟩ := List.mem_map.mp he
    rfl

/-- The edges of one reference. -/
theorem mem_outgoing_iff (hts : Numbered ts)
    (hmatched : matched r =
      (found r).map fun j => ⟨owner r.cols, UInt64.ofNat r.id, UInt64.ofNat j⟩)
    (hfound : r.isDeleted = false → ∀ j, j ∈ found r ↔
      ∃ t, ts[j]? = some t ∧ t.isDeleted = false ∧ matching r t) :
    e ∈ outgoing matched r ↔ ∃ t ∈ ts,
      r.isDeleted = false ∧ t.isDeleted = false ∧ matching r t ∧ e = edgeOf owner r t := by
  constructor
  · intro he
    unfold outgoing at he
    split_ifs at he with hdel
    · simp at he
    · rw [hmatched] at he
      obtain ⟨j, hj, rfl⟩ := List.mem_map.mp he
      obtain ⟨t, ht, hlive, hmatch⟩ := (hfound (by simpa using hdel) j).mp hj
      refine ⟨t, List.mem_of_getElem? ht, by simpa using hdel, hlive, hmatch, ?_⟩
      rw [edgeOf, hts j t ht]
  · rintro ⟨t, ht, hlive, hlive', hmatch, rfl⟩
    rw [outgoing, if_neg (by simp [hlive]), hmatched]
    exact List.mem_map.mpr ⟨t.id, (hfound hlive t.id).mpr ⟨t, hts.getElem? ht, hlive', hmatch⟩,
      rfl⟩

theorem nodup_outgoing (hts : Numbered ts) (htslt : ts.length ≤ 2 ^ 32)
    (hmatched : matched r =
      (found r).map fun j => ⟨owner r.cols, UInt64.ofNat r.id, UInt64.ofNat j⟩)
    (hnodup : (found r).Nodup)
    (hfound : r.isDeleted = false → ∀ j, j ∈ found r ↔
      ∃ t, ts[j]? = some t ∧ t.isDeleted = false ∧ matching r t) :
    (outgoing matched r).Nodup := by
  unfold outgoing
  split_ifs with hdel
  · exact List.nodup_nil
  · rw [hmatched]
    apply List.Nodup.map_on _ hnodup
    intro j hj j' hj' heq
    obtain ⟨t, ht, -⟩ := (hfound (by simpa using hdel) j).mp hj
    obtain ⟨t', ht', -⟩ := (hfound (by simpa using hdel) j').mp hj'
    have hid : UInt64.ofNat t.id = UInt64.ofNat t'.id := by
      rw [hts j t ht, hts j' t' ht']
      exact congrArg EdgeCols.toId heq
    obtain rfl := hts.eq_of_ofNat_id htslt (List.mem_of_getElem? ht)
      (List.mem_of_getElem? ht') hid
    rw [← hts j t ht, hts j' t ht']

/-- Edges to the ids that each live reference finds. -/
theorem joins_outgoing (hrs : Numbered rs) (hts : Numbered ts) (hrslt : rs.length ≤ 2 ^ 32)
    (htslt : ts.length ≤ 2 ^ 32) (found : Row ρ → List ℕ)
    (hmatched : ∀ r ∈ rs, matched r =
      (found r).map fun j => ⟨owner r.cols, UInt64.ofNat r.id, UInt64.ofNat j⟩)
    (hnodup : ∀ r ∈ rs, (found r).Nodup)
    (hfound : ∀ r ∈ rs, r.isDeleted = false → ∀ j, j ∈ found r ↔
      ∃ t, ts[j]? = some t ∧ t.isDeleted = false ∧ matching r t) :
    Joins matching owner rs ts (rs.flatMap (outgoing matched)) := by
  have hmem : ∀ e, e ∈ rs.flatMap (outgoing matched) ↔ ∃ r ∈ rs, ∃ t ∈ ts,
      r.isDeleted = false ∧ t.isDeleted = false ∧ matching r t ∧ e = edgeOf owner r t := by
    intro e
    rw [List.mem_flatMap]
    exact exists_congr fun r => and_congr_right fun hr =>
      mem_outgoing_iff hts (hmatched r hr) (hfound r hr)
  refine ⟨List.Nodup.map_on ?_ ?_, hmem⟩
  · intro e he e' he' hkey
    obtain ⟨r, hr, t, ht, -, -, -, rfl⟩ := (hmem e).mp he
    obtain ⟨r', hr', t', ht', -, -, -, rfl⟩ := (hmem e').mp he'
    obtain ⟨hfrom, hto⟩ := getKey_eq_iff.mp hkey
    rw [hrs.eq_of_ofNat_id hrslt hr hr' hfrom, hts.eq_of_ofNat_id htslt ht ht' hto]
  · rw [List.nodup_flatMap]
    constructor
    · intro r hr
      exact nodup_outgoing hts htslt (hmatched r hr) (hnodup r hr) (hfound r hr)
    · rw [List.pairwise_iff_getElem]
      intro i j hi hj hij e he he'
      have hfrom : ∀ {k : ℕ} (hk : k < rs.length), e ∈ outgoing matched rs[k] →
          e.fromId = UInt64.ofNat k := by
        intro k hk hek
        rw [fromId_of_mem_outgoing (hmatched rs[k] (List.getElem_mem hk)) hek,
          hrs k rs[k] (List.getElem?_eq_getElem hk)]
      have heq := eq_of_ofNat_eq (by omega) (by omega) ((hfrom hi he).symm.trans (hfrom hj he'))
      omega

end Outgoing

end

section Passes
variable (A : ∀ α : Type, Allocator α) (I : Iteration) {E : EdgeTable}

theorem idxOf_eq_of_getElem? {l : List ℕ} (h : l.Nodup) {i p : ℕ} (hp : l[i]? = some p) :
    l.idxOf p = i := by
  obtain ⟨hi, rfl⟩ := List.getElem?_eq_some_iff.mp hp
  exact h.idxOf_getElem i hi

/-- The reference names the class. -/
def classMatching (r : Row ClassRefCols) (t : Row ClassFileCols) : Prop :=
  r.cols.name = t.cols.classname

theorem settles_classPass {F : Format ClassRefCols} {s : Pass ClassRefCols ClassFileCols}
    {rs : List (Row ClassRefCols)} {es : List (Row EdgeCols)} {ts : List (Row ClassFileCols)}
    (h : Represents F ClassFiles.format E s rs es ts) (hrs : rs.length < 2 ^ 32)
    (hts : ts.length < 2 ^ 32) {index : ClassesByName}
    (hindex : IndexesClasses s.targets ts index) :
    Settles (fun fuel => forEach Pass.refs (linkClassRef A I E index) fuel s)
      (Unjoined classMatching rs ts (es.map Row.cols))
      (fun s' => ∃ new, Joins classMatching (fun _ => 0) rs ts new ∧
        Represents F ClassFiles.format E s' (counted classEdgeCounter EdgeCols.fromId new rs)
          (fileEdges es new) (counted classRefCounter EdgeCols.toId new ts)) := by
  set pointers := s.targets.autoIncrementIndex with hpointers
  have hmem : ∀ name, ∀ p ∈ classesOf index name, p ∈ pointers := by
    intro name p hp
    obtain ⟨i, p', r, -, hi, -, -, -, rfl⟩ := (hindex name p).mp hp
    exact List.mem_of_getElem? hi
  have hjoins : Joins classMatching (fun _ => 0) rs ts
      (rs.flatMap (outgoing (matchedClasses I index pointers))) := by
    refine joins_outgoing h.refs.ids h.targets.ids hrs.le hts.le
      (fun r => (I.order (classesOf index r.cols.name)).map pointers.idxOf) ?_ ?_ ?_
    · intro r _
      simp [matchedClasses]
    · intro r _
      apply List.Nodup.map_on _ (I.nodup _)
      intro p hp q hq heq
      exact (List.idxOf_inj (hmem _ p ((I.mem_order _ p).mp hp))).mp heq
    · intro r _ _ j
      rw [List.mem_map]
      constructor
      · rintro ⟨p, hp, rfl⟩
        obtain ⟨i, p', t, -, hi, ht, hlive, hname, rfl⟩ :=
          (hindex _ p).mp ((I.mem_order _ p).mp hp)
        rw [idxOf_eq_of_getElem? h.targets.nodup hi]
        exact ⟨t, ht, hlive, (Option.some.inj hname).symm⟩
      · rintro ⟨t, ht, hlive, hname⟩
        obtain ⟨p, hp, -⟩ := h.targets.exists_of_row ht
        refine ⟨p, (I.mem_order _ p).mpr ((hindex _ p).mpr ?_),
          idxOf_eq_of_getElem? h.targets.nodup hp⟩
        exact ⟨j, p, t, (List.getElem?_eq_some_iff.mp ht).1, hp, ht, hlive,
          congrArg some hname.symm, rfl⟩
  have hpass := settles_pass (linkClassRef A I E index) classEdgeCounter classRefCounter
    (matchedClasses I index pointers) (fun _ _ => rfl) h hrs ?_
  · exact (hpass.congr (hjoins.distinct_append_iff (distinct_of_filed h.edges h.filed))).mono
      fun s' hs' => ⟨_, hjoins, hs'⟩
  · intro s' rs' es' ts' i p r hs' hrs' hts' htargets hd hp hr
    have hout := linkClassRef_outcome A I index hs' (by omega) (by omega)
      (by rw [htargets]; exact hmem) hd hp hr
    rwa [htargets] at hout

variable {ρ τ : Type} (T : Types ρ τ)

/-- The reference has the columns of the member and of its class. -/
def memberMatching (classes : List (Row ClassFileCols)) (r : Row ρ) (t : Row τ) : Prop :=
  memberKey T classes t = some (referenceKey T r)

variable {T}

theorem settles_memberPass (hT : Types.Lawful T) {F : Format ρ} {G : Format τ} {s : Pass ρ τ}
    {rs : List (Row ρ)} {es : List (Row EdgeCols)} {ts : List (Row τ)}
    (h : Represents F G E s rs es ts) (hrs : rs.length < 2 ^ 32) (hts : ts.length < 2 ^ 32)
    {classes : List (Row ClassFileCols)} {index : MembersIndex}
    (hindex : IndexesMembers T classes s.targets ts index) :
    Settles (fun fuel => forEach Pass.refs (linkMemberRef A I E T index) fuel s)
      (Unjoined (memberMatching T classes) rs ts (es.map Row.cols))
      (fun s' => ∃ new, Joins (memberMatching T classes) T.refOwner rs ts new ∧
        Represents F G E s' (counted hT.edgeCounter EdgeCols.fromId new rs)
          (fileEdges es new) (counted hT.refCounter EdgeCols.toId new ts)) := by
  have hmem : ∀ key, ∀ id ∈ membersOf index key, id < ts.length := by
    intro key id hid
    obtain ⟨i, p, t, hi, -, ht, -, -, rfl⟩ := (hindex key id).mp hid
    exact (h.targets.ids i t ht).trans_lt hi
  have hjoins : Joins (memberMatching T classes) T.refOwner rs ts
      (rs.flatMap (outgoing (matchedMembers I T index))) := by
    refine joins_outgoing h.refs.ids h.targets.ids hrs.le hts.le
      (fun r => I.order (membersOf index (referenceKey T r))) ?_ ?_ ?_
    · intro r _
      rfl
    · intro r _
      exact I.nodup _
    · intro r _ _ j
      rw [I.mem_order, hindex]
      constructor
      · rintro ⟨i, p, t, -, -, ht, hlive, hkey, rfl⟩
        exact ⟨t, (congrArg (ts[·]?) (h.targets.ids i t ht)).trans ht, hlive, hkey⟩
      · rintro ⟨t, ht, hlive, hkey⟩
        obtain ⟨p, hp, -⟩ := h.targets.exists_of_row ht
        exact ⟨j, p, t, (List.getElem?_eq_some_iff.mp ht).1, hp, ht, hlive, hkey,
          h.targets.ids j t ht⟩
  have hpass := settles_pass (linkMemberRef A I E T index) hT.edgeCounter hT.refCounter
    (matchedMembers I T index) ?_ h hrs ?_
  · exact (hpass.congr (hjoins.distinct_append_iff (distinct_of_filed h.edges h.filed))).mono
      fun s' hs' => ⟨_, hjoins, hs'⟩
  · intro r n
    obtain ⟨-, -, -, howner⟩ := hT.reference_recount r n
    rw [matchedMembers, hT.referenceKey_recount, howner]
    rfl
  · intro s' rs' es' ts' i p r hs' hrs' hts' htargets hd hp hr
    exact linkMemberRef_outcome A I hT index hs' (by omega) (by omega)
      (by rw [hts']; exact hmem) hd hp hr

end Passes

end Tarracsh.LinkJoins
