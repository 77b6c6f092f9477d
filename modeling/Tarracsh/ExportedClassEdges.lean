import Tarracsh.ExportedGraph
import Mathlib.Data.List.ProdSigma

/-!
# Where exported class edges start

The exporter starts a class edge at the node of the owner that is stored with
it. `linkClassRefs` leaves that column at zero, unlike the template for members,
so that every class edge starts at the class with id zero, if that is live.
-/
namespace Tarracsh.ExportedClassEdges
open ByteStrings StringPool TableModel TableInvariant DomainTables CallGraphTables
open CallGraphLinking CountedLoops LinkPasses LinkIndexes LinkJoins LinkRuns LinkExactness
open LinkRepetition MachineIntegers CallGraphExport ExportPasses ExportedGraph

section Statement
variable (pool : Pool) (R : Rows)

/-- The solid class edges of an export. -/
def exportedClassEdges : Option Exporter → List EdgeRecord
  | none => []
  | some x => x.edges.filter fun e => e.style = .solid ∧ e.color = kClassEdgeColor

/-- The live references with the live classes they name. -/
def referringPairs : List (Row ClassRefCols × Row ClassFileCols) :=
  (live (R.nodes .classRefs) ×ˢ live R.classfiles).filter fun p =>
    text pool p.1.cols.name = text pool p.2.cols.classname

/-- The id of the node of a class. -/
def idOf (id : ℕ) : Option ℤ := (classNode (live R.classfiles) id).map toInt

/-- The class edge between two nodes, if both are there. -/
def joined (fromId toId : Option ℤ) : Option EdgeRecord := do
  let fromId ← fromId
  let toId ← toId
  some ⟨fromId, toId, ascii "class", kClassEdgeColor, .solid⟩

/-- One edge from the owner of each reference to each class it names. -/
def referringEdges : List EdgeRecord :=
  (referringPairs pool R).filterMap fun p =>
    joined (idOf R p.1.cols.ownerClass.toNat) (idOf R p.2.id)

/-- The class is live. -/
def Live (id : ℕ) : Prop := ∃ c ∈ R.classfiles, c.isDeleted = false ∧ c.id = id

/-- The class is live and the id of its node is not negative. -/
def Drawn (id : ℕ) : Prop := ∃ n, idOf R id = some n ∧ 0 ≤ n

/-- Wherever an edge is drawn, its reference belongs to the class with id zero,
and no edge of an earlier run is drawn. -/
structure StartsAtFirst : Prop where
  references : ∀ r ∈ live (R.nodes .classRefs), ∀ c ∈ live R.classfiles,
    text pool r.cols.name = text pool c.cols.classname →
    (Live R 0 ∧ Drawn R c.id → r.cols.ownerClass = 0) ∧
    (¬ (Live R 0 ∧ Drawn R c.id) → ¬ Live R r.cols.ownerClass.toNat)
  earlier : ∀ e ∈ live (R.edges .classRefEdges), ¬ (Live R 0 ∧ Drawn R e.cols.toId.toNat)

/-- One offset for each text. -/
def UniqueOffsets : Prop :=
  ∀ s s', Compared R s → Compared R s' → text pool s = text pool s' → s = s'

/-- The edges that linking has filed have no owner. -/
def Ownerless : Prop := ∀ e ∈ R.edges .classRefEdges, e.cols.ownerClass = 0

end Statement

section Lists
variable {α β : Type} {f g : α → Option β}

/-- A partial function that extends another one yields at least as much, and
no more only if they are the same. -/
theorem filterMap_extends {l : List α} (h : ∀ a ∈ l, ∀ b, g a = some b → f a = some b) :
    (l.filterMap g).length ≤ (l.filterMap f).length ∧
      ((l.filterMap f).length ≤ (l.filterMap g).length → ∀ a ∈ l, f a = g a) := by
  induction l with
  | nil => simp
  | cons a l ih =>
      obtain ⟨hle, heq⟩ := ih fun a ha => h a (by simp [ha])
      have ha := h a (by simp)
      cases hg : g a with
      | some b =>
          have hf := ha b hg
          simp only [List.filterMap_cons, hg, hf, List.length_cons, List.forall_mem_cons, true_and]
          exact ⟨by omega, fun hlength => heq (by omega)⟩
      | none =>
          cases hf : f a with
          | none =>
              simp only [List.filterMap_cons, hg, hf, List.forall_mem_cons, true_and]
              exact ⟨hle, heq⟩
          | some b =>
              simp only [List.filterMap_cons, hg, hf, List.length_cons]
              exact ⟨by omega, fun hlength => by omega⟩

theorem perm_filterMap_iff {l : List α} {old : List β}
    (h : (old ++ l.filterMap f).Perm (l.filterMap g) → ∀ a ∈ l, ∀ b, g a = some b → f a = some b) :
    (old ++ l.filterMap f).Perm (l.filterMap g) ↔ old = [] ∧ ∀ a ∈ l, f a = g a := by
  constructor
  · intro hperm
    obtain ⟨hle, heq⟩ := filterMap_extends (h hperm)
    have hlength := hperm.length_eq
    rw [List.length_append] at hlength
    exact ⟨List.length_eq_zero_iff.mp (by omega), heq (by omega)⟩
  · rintro ⟨rfl, heq⟩
    rw [List.nil_append, List.filterMap_congr heq]

end Lists

section Rows
variable {R : Rows} {new : EdgeTable → List EdgeCols}

/-- Counting changes neither the ids nor which rows are live. -/
theorem classNode_counted {side : EdgeCols → RefCol} {es : List EdgeCols}
    {rows : List (Row ClassFileCols)} (id : ℕ) :
    classNode (live (counted classRefCounter side es rows)) id = classNode (live rows) id := by
  have hids : ∀ rows : List (Row ClassFileCols), classNode (live rows) id =
      ((rows.map fun r => (r.isDeleted, r.id)).filter fun p => !p.1).findIdx?
        fun p => p.2 = id := by
    intro rows
    rw [List.filter_map, List.findIdx?_map]
    rfl
  rw [hids, hids, map_counted fun _ _ => rfl]

theorem live_fileEdges (rows : List (Row EdgeCols)) (es : List EdgeCols) :
    (live (fileEdges rows es)).map Row.cols = (live rows).map Row.cols ++ es := by
  induction es generalizing rows with
  | nil => simp [fileEdges]
  | cons e es ih =>
      have hlive : live (rows ++ [⟨0, rows.length, e⟩]) = live rows ++ [⟨0, rows.length, e⟩] := by
        simp [live, Row.isDeleted]
      rw [show fileEdges rows (e :: es) = fileEdges (rows ++ [⟨0, rows.length, e⟩]) es from rfl,
        ih, hlive]
      simp

/-- The new edges are those of the referring pairs. -/
theorem perm_referringPairs {pool : Pool} (hi : UniqueOffsets pool R) (hs : R.Small)
    (hrefs : Numbered (R.nodes .classRefs)) (hclasses : Numbered R.classfiles)
    (hj : R.JoinedBy new) :
    (new .classRefEdges).Perm ((referringPairs pool R).map fun p =>
      edgeOf (fun _ : ClassRefCols => 0) p.1 p.2) := by
  have hnew : (new .classRefEdges).Nodup := hj.classes.distinct.of_map
  have hmem : ∀ p : Row ClassRefCols × Row ClassFileCols, p ∈ referringPairs pool R ↔
      (p.1 ∈ R.nodes .classRefs ∧ p.1.isDeleted = false) ∧
        (p.2 ∈ R.classfiles ∧ p.2.isDeleted = false) ∧
        text pool p.1.cols.name = text pool p.2.cols.classname := by
    rintro ⟨r, c⟩
    rw [referringPairs, List.mem_filter, List.mem_product, mem_live, mem_live]
    simp [and_assoc]
  have hpairs : (referringPairs pool R).Nodup :=
    (((nodup_ids hrefs).of_map).product ((nodup_ids hclasses).of_map)).filter _
  have hedges : ((referringPairs pool R).map fun p =>
      edgeOf (fun _ : ClassRefCols => 0) p.1 p.2).Nodup := by
    refine hpairs.map_on ?_
    intro p hp q hq hpq
    simp only [edgeOf, EdgeCols.mk.injEq] at hpq
    have hp := (hmem p).mp hp
    have hq := (hmem q).mp hq
    exact Prod.ext
      (hrefs.eq_of_ofNat_id (hs.2 .classRefs).le hp.1.1 hq.1.1 hpq.2.1)
      (hclasses.eq_of_ofNat_id hs.1.le hp.2.1.1 hq.2.1.1 hpq.2.2)
  rw [List.perm_ext_iff_of_nodup hnew hedges]
  intro e
  rw [hj.classes.mem_iff, List.mem_map]
  constructor
  · rintro ⟨r, hr, c, hc, hlive, hlive', hmatch, rfl⟩
    exact ⟨(r, c), (hmem _).mpr ⟨⟨hr, hlive⟩, ⟨hc, hlive'⟩, congrArg (text pool) hmatch⟩, rfl⟩
  · rintro ⟨⟨r, c⟩, hp, rfl⟩
    obtain ⟨⟨hr, hlive⟩, ⟨hc, hlive'⟩, htext⟩ := (hmem _).mp hp
    refine ⟨r, hr, c, hc, hlive, hlive', ?_, rfl⟩
    exact hi _ _ (.inr ⟨.classRefs, r, hr, by simp [NodeTable.texts]⟩) (.inl ⟨c, hc, rfl⟩) htext

/-- Linking files class edges without an owner. -/
theorem ownerless_linked (h : Ownerless R) (hj : R.JoinedBy new) : Ownerless (R.linked new) := by
  intro e he
  have hmem : e.cols ∈ (fileEdges (R.edges .classRefEdges) (new .classRefEdges)).map Row.cols :=
    List.mem_map_of_mem he
  rw [map_cols_fileEdges, List.mem_append] at hmem
  rcases hmem with hmem | hmem
  · obtain ⟨row, hrow, heq⟩ := List.mem_map.mp hmem
    rw [← heq]
    exact h row hrow
  · obtain ⟨r, -, c, -, -, -, -, heq⟩ := (hj.classes.mem_iff _).mp hmem
    rw [heq]
    rfl

end Rows

section Ids
variable {R : Rows}

theorem idOf_isSome_iff {id : ℕ} : (idOf R id).isSome ↔ Live R id := by
  rw [idOf, Option.isSome_map, classNode_isSome_iff]
  constructor
  · rintro ⟨c, hc, hid⟩
    exact ⟨c, (mem_live.mp hc).1, (mem_live.mp hc).2, hid⟩
  · rintro ⟨c, hc, hlive, hid⟩
    exact ⟨c, mem_live.mpr ⟨hc, hlive⟩, hid⟩

/-- The exporter draws with the ids that are not negative. -/
theorem nodeId_eq_some_iff {id : ℕ} {n : ℤ} :
    nodeId (live R.classfiles) id = some n ↔ idOf R id = some n ∧ 0 ≤ n := by
  rw [nodeId, Option.filter_eq_some_iff]
  simp [idOf]

theorem nodeId_isSome_iff {id : ℕ} : (nodeId (live R.classfiles) id).isSome ↔ Drawn R id := by
  rw [Option.isSome_iff_exists]
  exact exists_congr fun n => nodeId_eq_some_iff

theorem toInt_injective {m n : ℕ} (hm : m < 2 ^ 32) (hn : n < 2 ^ 32) (h : toInt m = toInt n) :
    m = n := by
  have hbits := congrArg BitVec.toNat (BitVec.toInt_inj.mp h)
  rw [BitVec.toNat_ofNat, BitVec.toNat_ofNat] at hbits
  omega

/-- Two classes with the same node are the same. -/
theorem idOf_injective (hs : R.classfiles.length < 2 ^ 32) {a b : ℕ} {n : ℤ}
    (ha : idOf R a = some n) (hb : idOf R b = some n) : a = b := by
  obtain ⟨i, hi, rfl⟩ := Option.map_eq_some_iff.mp ha
  obtain ⟨j, hj, hij⟩ := Option.map_eq_some_iff.mp hb
  obtain ⟨r, hr, rfl⟩ := classNode_eq_some hi
  obtain ⟨r', hr', rfl⟩ := classNode_eq_some hj
  have hle : (live R.classfiles).length ≤ R.classfiles.length := List.length_filter_le _ _
  have hi := (List.getElem?_eq_some_iff.mp hr).1
  have hj := (List.getElem?_eq_some_iff.mp hr').1
  obtain rfl := toInt_injective (by omega) (by omega) hij
  rw [hr] at hr'
  rw [Option.some.inj hr']

/-- The class with id zero has the first node. -/
theorem drawn_zero (hn : Numbered R.classfiles) : Live R 0 ↔ Drawn R 0 := by
  constructor
  · rintro ⟨c, hc, hlive, hid⟩
    have hfirst := hn.getElem? hc
    rw [hid] at hfirst
    cases hrows : R.classfiles with
    | nil => simp [hrows] at hc
    | cons r rest =>
        rw [hrows] at hfirst
        obtain rfl := Option.some.inj hfirst
        have hnode : classNode (live R.classfiles) 0 = some 0 := by
          simp [classNode, live, hrows, hlive, hid, List.findIdx?_cons]
        exact ⟨toInt 0, by rw [idOf, hnode, Option.map_some], by decide⟩
  · rintro ⟨n, hn, -⟩
    rw [← idOf_isSome_iff, hn]
    rfl

end Ids

section Edges
variable {db db' : LinkDb} {R : Rows} {new : EdgeTable → List EdgeCols} {out : Option Exporter}
  {fuel : ℕ}

/-- The edge of a referring pair as the exporter draws it. -/
theorem classEdge_edgeOf (hs : R.Small) (hn : Numbered R.classfiles) {r : Row ClassRefCols}
    {c : Row ClassFileCols} (hc : c ∈ R.classfiles) :
    classEdge (nodeId (live R.classfiles)) (edgeOf (fun _ : ClassRefCols => 0) r c) =
      joined (nodeId (live R.classfiles) 0) (nodeId (live R.classfiles) c.id) := by
  have hlt := hn.id_lt hc
  have hid : (UInt64.ofNat c.id).toNat = c.id := by
    rw [UInt64.toNat_ofNat', Nat.mod_eq_of_lt (by have := hs.1; omega)]
  simp only [classEdge, edgeOf, hid]
  rfl

/-- The exported class edges are those of the rows that linking has left. -/
theorem exportedClassEdges_eq (h : Stored db' (R.linked new))
    (hrun : run db' fuel = .returned out) :
    exportedClassEdges out =
      ((live (R.edges .classRefEdges)).filterMap fun e =>
        classEdge (nodeId (live R.classfiles)) e.cols) ++
      (new .classRefEdges).filterMap (classEdge (nodeId (live R.classfiles))) := by
  have hnode : nodeId (live (R.linked new).classfiles) = nodeId (live R.classfiles) := by
    funext id
    rw [nodeId, nodeId, show (R.linked new).classfiles = counted classRefCounter EdgeCols.toId
      (new .classRefEdges) R.classfiles from rfl, classNode_counted]
  have hedges : classEdges (R.linked new) (nodeId (live R.classfiles)) =
      ((live (R.edges .classRefEdges)).filterMap fun e =>
        classEdge (nodeId (live R.classfiles)) e.cols) ++
      (new .classRefEdges).filterMap (classEdge (nodeId (live R.classfiles))) := by
    have hmap : ∀ rows : List (Row EdgeCols),
        (rows.filterMap fun e => classEdge (nodeId (live R.classfiles)) e.cols) =
          (rows.map Row.cols).filterMap (classEdge (nodeId (live R.classfiles))) :=
      fun rows => by rw [List.filterMap_map]; rfl
    rw [classEdges, hmap, hmap, show (R.linked new).edges .classRefEdges =
      fileEdges (R.edges .classRefEdges) (new .classRefEdges) from rfl, live_fileEdges,
      List.filterMap_append]
  rw [← hedges]
  rcases collected_of_run h hrun with ⟨hnil, rfl⟩ | ⟨-, x, rfl, labels, -, -, hsolid, -⟩
  · have hnone : ∀ id, nodeId (live R.classfiles) id = none := by
      intro id
      rw [← hnode, hnil]
      rfl
    rw [exportedClassEdges, classEdges, eq_comm, List.filterMap_eq_nil_iff]
    intro e _
    simp [classEdge, hnone]
  · rw [hnode] at hsolid
    rw [exportedClassEdges, filter_of_collected hsolid]
    simp [kClassEdgeColor, kMethodEdgeColor, kFieldEdgeColor]

/-- When an edge of a pair is drawn as the reference calls for. -/
theorem pair_eq_iff (hs : R.Small) (hn : Numbered R.classfiles) {r : Row ClassRefCols}
    {c : Row ClassFileCols} (hc : c ∈ live R.classfiles) :
    joined (nodeId (live R.classfiles) 0) (nodeId (live R.classfiles) c.id) =
      joined (idOf R r.cols.ownerClass.toNat) (idOf R c.id) ↔
    (Live R 0 ∧ Drawn R c.id → r.cols.ownerClass = 0) ∧
      (¬ (Live R 0 ∧ Drawn R c.id) → ¬ Live R r.cols.ownerClass.toNat) := by
  have hlive : Live R c.id := ⟨c, (mem_live.mp hc).1, (mem_live.mp hc).2, rfl⟩
  obtain ⟨j, hj⟩ := Option.isSome_iff_exists.mp (idOf_isSome_iff.mpr hlive)
  have howned : (idOf R r.cols.ownerClass.toNat).isSome ↔ Live R r.cols.ownerClass.toNat :=
    idOf_isSome_iff
  rw [drawn_zero hn, ← howned]
  by_cases hdrawn : Drawn R 0 ∧ Drawn R c.id
  · obtain ⟨⟨a, ha, hpos⟩, ⟨j', hj', hpos'⟩⟩ := id hdrawn
    obtain rfl : j = j' := Option.some.inj (hj.symm.trans hj')
    rw [nodeId_eq_some_iff.mpr ⟨ha, hpos⟩, nodeId_eq_some_iff.mpr ⟨hj, hpos'⟩, hj]
    simp only [hdrawn, not_true, false_implies, and_true, true_implies]
    constructor
    · intro heq
      cases howner : idOf R r.cols.ownerClass.toNat with
      | none => simp [joined, howner] at heq
      | some i =>
          obtain rfl : a = i := by simpa [joined, howner] using heq
          exact UInt64.toNat.inj (idOf_injective hs.1 howner ha)
    · intro howner
      have hzero : idOf R (r.cols.ownerClass.toNat) = some a := by
        rw [howner]
        exact ha
      rw [hzero]
  · have hnone : joined (nodeId (live R.classfiles) 0) (nodeId (live R.classfiles) c.id) =
        none := by
      cases hzero : nodeId (live R.classfiles) 0 with
      | none => rfl
      | some a =>
          cases hto : nodeId (live R.classfiles) c.id with
          | none => rfl
          | some b =>
              exact absurd ⟨⟨a, nodeId_eq_some_iff.mp hzero⟩, b, nodeId_eq_some_iff.mp hto⟩ hdrawn
    rw [hnone, hj]
    simp only [hdrawn, false_implies, true_and, not_false_eq_true, true_implies]
    cases idOf R r.cols.ownerClass.toNat with
    | none => simp [joined]
    | some i => simp [joined]

theorem joined_eq_some {a b : Option ℤ} {e : EdgeRecord} (h : joined a b = some e) :
    a = some e.fromId ∧ b = some e.toId := by
  obtain ⟨fromId, ha, h⟩ := Option.bind_eq_some_iff.mp h
  obtain ⟨toId, hb, h⟩ := Option.bind_eq_some_iff.mp h
  obtain rfl := Option.some.inj h
  exact ⟨ha, hb⟩

/-- An edge of an earlier run starts at the class with id zero. -/
theorem classEdge_ownerless {node : ℕ → Option ℤ} {e : EdgeCols} (he : e.ownerClass = 0) :
    classEdge node e = joined (node 0) (node e.toId.toNat) := by
  rw [classEdge, he]
  rfl

theorem earlier_iff (ho : Ownerless R) (hn : Numbered R.classfiles) :
    ((live (R.edges .classRefEdges)).filterMap fun e =>
      classEdge (nodeId (live R.classfiles)) e.cols) = [] ↔
    ∀ e ∈ live (R.edges .classRefEdges), ¬ (Live R 0 ∧ Drawn R e.cols.toId.toNat) := by
  rw [List.filterMap_eq_nil_iff]
  refine forall₂_congr fun e he => ?_
  rw [classEdge_ownerless (ho e (mem_live.mp he).1), drawn_zero hn, ← nodeId_isSome_iff,
    ← nodeId_isSome_iff]
  cases nodeId (live R.classfiles) 0 with
  | none => simp [joined]
  | some a =>
      cases nodeId (live R.classfiles) e.cols.toId.toNat with
      | none => simp [joined]
      | some b => simp [joined]

/-- The exported edges are the referring ones exactly when every pair is drawn
from its owner. -/
theorem perm_iff (hi : UniqueOffsets db.pool R) (ho : Ownerless R) (hs : R.Small)
    (hrefs : Numbered (R.nodes .classRefs)) (hn : Numbered R.classfiles) (hj : R.JoinedBy new)
    (h : Stored db' (R.linked new)) (hrun : run db' fuel = .returned out) :
    (exportedClassEdges out).Perm (referringEdges db.pool R) ↔ StartsAtFirst db.pool R := by
  let old := (live (R.edges .classRefEdges)).filterMap fun e =>
    classEdge (nodeId (live R.classfiles)) e.cols
  let pairs := referringPairs db.pool R
  let f : Row ClassRefCols × Row ClassFileCols → Option EdgeRecord := fun p =>
    joined (nodeId (live R.classfiles) 0) (nodeId (live R.classfiles) p.2.id)
  let g : Row ClassRefCols × Row ClassFileCols → Option EdgeRecord := fun p =>
    joined (idOf R p.1.cols.ownerClass.toNat) (idOf R p.2.id)
  have hmem : ∀ r c, (r, c) ∈ pairs ↔ (r ∈ live (R.nodes .classRefs) ∧ c ∈ live R.classfiles) ∧
      text db.pool r.cols.name = text db.pool c.cols.classname := by
    intro r c
    simp only [pairs, referringPairs, List.mem_filter, List.mem_product, decide_eq_true_eq]
  have hexported : (exportedClassEdges out).Perm (old ++ pairs.filterMap f) := by
    rw [exportedClassEdges_eq h hrun]
    refine List.Perm.append_left _ ?_
    refine ((perm_referringPairs hi hs hrefs hn hj).filterMap _).trans ?_
    rw [List.filterMap_map]
    refine .of_eq (List.filterMap_congr ?_)
    rintro ⟨r, c⟩ hp
    exact classEdge_edgeOf hs hn (mem_live.mp ((hmem r c).mp hp).1.2).1
  have hdrawn : ∀ e ∈ old ++ pairs.filterMap f,
      nodeId (live R.classfiles) 0 = some e.fromId ∧ 0 ≤ e.toId := by
    intro e he
    rcases List.mem_append.mp he with he | he
    · obtain ⟨row, hrow, heq⟩ := List.mem_filterMap.mp he
      rw [classEdge_ownerless (ho row (mem_live.mp hrow).1)] at heq
      obtain ⟨hfrom, hto⟩ := joined_eq_some heq
      exact ⟨hfrom, (nodeId_eq_some_iff.mp hto).2⟩
    · obtain ⟨p, -, heq⟩ := List.mem_filterMap.mp he
      obtain ⟨hfrom, hto⟩ := joined_eq_some heq
      exact ⟨hfrom, (nodeId_eq_some_iff.mp hto).2⟩
  have hextends : (old ++ pairs.filterMap f).Perm (pairs.filterMap g) →
      ∀ p ∈ pairs, ∀ e, g p = some e → f p = some e := by
    intro hperm p hp e he
    obtain ⟨hfrom, hpos⟩ := hdrawn e (hperm.mem_iff.mpr (List.mem_filterMap.mpr ⟨p, hp, he⟩))
    have hto := nodeId_eq_some_iff.mpr ⟨(joined_eq_some he).2, hpos⟩
    have hboth : f p = joined (some e.fromId) (some e.toId) := by simp only [f, hfrom, hto]
    have hsame : g p = joined (some e.fromId) (some e.toId) := by
      rw [← (joined_eq_some he).1, ← (joined_eq_some he).2]
    rw [hboth, ← hsame, he]
  have hpair : (∀ p ∈ pairs, f p = g p) ↔ ∀ r ∈ live (R.nodes .classRefs),
      ∀ c ∈ live R.classfiles, text db.pool r.cols.name = text db.pool c.cols.classname →
      (Live R 0 ∧ Drawn R c.id → r.cols.ownerClass = 0) ∧
      (¬ (Live R 0 ∧ Drawn R c.id) → ¬ Live R r.cols.ownerClass.toNat) := by
    constructor
    · intro hall r hr c hc hname
      exact (pair_eq_iff hs hn hc).mp (hall (r, c) ((hmem r c).mpr ⟨⟨hr, hc⟩, hname⟩))
    · rintro hall ⟨r, c⟩ hp
      obtain ⟨⟨hr, hc⟩, hname⟩ := (hmem r c).mp hp
      exact (pair_eq_iff hs hn hc).mpr (hall r hr c hc hname)
  have hreferring : referringEdges db.pool R = pairs.filterMap g := rfl
  have hsame : (exportedClassEdges out).Perm (referringEdges db.pool R) ↔
      (old ++ pairs.filterMap f).Perm (pairs.filterMap g) := by
    rw [hreferring]
    exact ⟨hexported.symm.trans, hexported.trans⟩
  rw [hsame, perm_filterMap_iff hextends, hpair, earlier_iff ho hn]
  exact ⟨fun ⟨hold, hall⟩ => ⟨hall, hold⟩, fun ⟨hall, hold⟩ => ⟨hold, hall⟩⟩

end Edges

section Returns
variable {R : Rows} {new : EdgeTable → List EdgeCols}

theorem cols_of_mem_fileEdges {rows : List (Row EdgeCols)} {es : List EdgeCols}
    {r : Row EdgeCols} (h : r ∈ fileEdges rows es) : r ∈ rows ∨ r.cols ∈ es := by
  induction es generalizing rows with
  | nil => exact .inl h
  | cons e es ih =>
      rcases ih h with hmem | hmem
      · rcases List.mem_append.mp hmem with hmem | hmem
        · exact .inl hmem
        · rw [List.mem_singleton.mp hmem]
          exact .inr List.mem_cons_self
      · exact .inr (List.mem_cons_of_mem _ hmem)

/-- An edge that joins a target leads to it. -/
theorem toId_lt {ρ τ : Type} {matching : Row ρ → Row τ → Prop} {owner : ρ → RefCol}
    {rs : List (Row ρ)} {ts : List (Row τ)} {es : List EdgeCols} (hj : Joins matching owner rs ts es)
    (hts : Numbered ts) {e : EdgeCols} (he : e ∈ es) : e.toId.toNat < ts.length := by
  obtain ⟨r, -, t, ht, -, -, -, rfl⟩ := (hj.mem_iff e).mp he
  obtain ⟨k, hk⟩ := List.getElem?_of_mem ht
  have hlt := (List.getElem?_eq_some_iff.mp hk).1
  have hle : (edgeOf owner r t).toId.toNat ≤ t.id := by
    rw [edgeOf, UInt64.toNat_ofNat']
    exact Nat.mod_le _ _
  rw [hts k t hk] at hle
  omega

/-- Linking adds edges in range. -/
theorem inRange_linked (hr : InRange R) (hids : ∀ i, Numbered (R.nodes i)) (hj : R.JoinedBy new) :
    InRange (R.linked new) := by
  constructor
  · intro e he
    simp only [Rows.linked, length_counted]
    rcases cols_of_mem_fileEdges (mem_live.mp he).1 with hold | hnew
    · exact hr.methods e (mem_live.mpr ⟨hold, (mem_live.mp he).2⟩)
    · exact toId_lt hj.methods (hids _) hnew
  · intro e he
    simp only [Rows.linked, length_counted]
    rcases cols_of_mem_fileEdges (mem_live.mp he).1 with hold | hnew
    · exact hr.fields e (mem_live.mpr ⟨hold, (mem_live.mp he).2⟩)
    · exact toId_lt hj.fields (hids _) hnew

end Returns

/-- Linking and exporting come to an end: members have owners, no edge of an earlier run
comes again or leads out of range, and all rows can be counted. -/
structure Exportable (R : Rows) : Prop where
  small : R.Small
  owned : R.Owned
  fresh : R.Fresh
  inRange : InRange R
  edges : ∀ new, R.JoinedBy new → ∀ e, ((R.linked new).edges e).length < 2 ^ 32

/-- After linking, the exported class edges are those from the owner of each
reference to each class it names if and only if whatever is drawn belongs to
the class with id zero. -/
theorem class_edges_start_at_owner_iff (A : ∀ α : Type, Allocator α) (I : Iteration)
    {db : LinkDb} {R : Rows} (h : Stored db R) (hi : UniqueOffsets db.pool R) (ho : Ownerless R) :
    (∀ {db' : LinkDb} {fuel fuel' : ℕ} {out : Option Exporter},
      db.linkRefNodes A I fuel = .returned db' → run db' fuel' = .returned out →
        ((exportedClassEdges out).Perm (referringEdges db.pool R) ↔ StartsAtFirst db.pool R)) ∧
      (Exportable R → ∃ db' fuel fuel' out,
        db.linkRefNodes A I fuel = .returned db' ∧ run db' fuel' = .returned out) := by
  constructor
  · intro db' fuel fuel' out hlink hrun
    have hsmall : R.Small := by
      by_contra hs
      exact endless_linkRefNodes A I h hs fuel db' hlink
    obtain ⟨-, -, new, hj, hlinked⟩ := (settles_linkRefNodes A I h hsmall).returned hlink
    exact perm_iff hi ho hsmall (h.nodes .classRefs).ids h.classfiles.ids hj hlinked hrun
  · intro hexportable
    obtain ⟨fuel, db', hlink, -, new, hj, hlinked⟩ :=
      (settles_linkRefNodes A I h hexportable.small).exists_returned
        ⟨hexportable.owned, hexportable.fresh⟩
    obtain ⟨fuel', out, hrun⟩ := exists_returned hlinked
      (inRange_linked hexportable.inRange (fun i => (h.nodes i).ids) hj)
      (small_linked hexportable.small) (hexportable.edges new hj)
    exact ⟨db', fuel, fuel', out, hlink, hrun⟩

section Samples

theorem compared_twoRows {s : StringCol} (h : Compared twoRows s) : s = 9 ∨ s = 19 := by
  have hname : ∀ i, twoNames i = 9 ∨ twoNames i = 19 := by
    intro i
    unfold twoNames
    split_ifs
    · exact .inl rfl
    · exact .inr rfl
  rcases h with ⟨r, hr, rfl⟩ | ⟨i, r, hr, hs⟩
  · obtain ⟨i, -, rfl⟩ := List.mem_map.mp hr
    exact hname i
  · cases i with
    | classRefs =>
        obtain ⟨i, -, rfl⟩ := List.mem_map.mp hr
        rw [List.mem_singleton.mp hs]
        exact hname i
    | methods => simp [twoRows] at hr
    | fields => simp [twoRows] at hr
    | methodRefs => simp [twoRows] at hr
    | fieldRefs => simp [twoRows] at hr

theorem interned_twoRows : UniqueOffsets twoClasses.pool twoRows := by
  intro s s' hs hs' htext
  rcases compared_twoRows hs with rfl | rfl
  · rcases compared_twoRows hs' with rfl | rfl
    · rfl
    · exact absurd htext (by decide)
  · rcases compared_twoRows hs' with rfl | rfl
    · exact absurd htext (by decide)
    · rfl

/-- The linker and then the exporter, each with a few iterations. -/
def linkAndExport (db : LinkDb) : Progress (List EdgeRecord) := do
  let db' ← db.linkRefNodes Allocator.next Iteration.sorted 3
  let out ← run db' 3
  pure (exportedClassEdges out)

theorem exists_of_linkAndExport {db : LinkDb} {es : List EdgeRecord}
    (h : linkAndExport db = .returned es) :
    ∃ db' out, db.linkRefNodes Allocator.next Iteration.sorted 3 = .returned db' ∧
      run db' 3 = .returned out ∧ exportedClassEdges out = es := by
  obtain ⟨db', hlink, h⟩ := Progress.bind_eq_returned h
  obtain ⟨out, hrun, h⟩ := Progress.bind_eq_returned h
  cases h
  exact ⟨db', out, hlink, hrun, rfl⟩

/-- A class that refers to itself and has id zero. -/
theorem analysed_once_start_at_owner :
    ∃ db' out, (analysed 1 1).linkRefNodes Allocator.next Iteration.sorted 3 = .returned db' ∧
      run db' 3 = .returned out ∧
      (exportedClassEdges out).Perm (referringEdges (analysed 1 1).pool (analysedRows 1 1)) := by
  have hrun : linkAndExport (analysed 1 1) =
      .returned [⟨0, 0, ascii "class", kClassEdgeColor, .solid⟩] := by decide +kernel
  obtain ⟨db', out, hlink, hrun, -⟩ := exists_of_linkAndExport hrun
  have hlinkable := linkable_analysed (n := 1) (by norm_num) (by norm_num)
  have hlive : Live (analysedRows 1 1) 0 := ⟨analysedClass 0, by decide, by decide, rfl⟩
  have hdrawn : Drawn (analysedRows 1 1) 0 :=
    (drawn_zero (stored_analysed 1 1).classfiles.ids).mp hlive
  refine ⟨db', out, hlink, hrun, ((class_edges_start_at_owner_iff Allocator.next Iteration.sorted
    (stored_analysed 1 1) hlinkable.interned (by simp [Ownerless, analysedRows])).1 hlink hrun).mpr
    ⟨?_, by simp [analysedRows, live]⟩⟩
  intro r hr c hc _
  obtain ⟨i, hi, rfl⟩ := List.mem_map.mp (mem_live.mp hr).1
  obtain ⟨j, hj, rfl⟩ := List.mem_map.mp (mem_live.mp hc).1
  obtain rfl : j = 0 := by simpa using hj
  exact ⟨fun _ => rfl, fun hnot => absurd ⟨hlive, hdrawn⟩ hnot⟩

/-- The second class refers to itself, but the edge starts at the first. -/
theorem twoClasses_start_at_first :
    Stored twoClasses twoRows ∧ UniqueOffsets twoClasses.pool twoRows ∧ Ownerless twoRows ∧
      ∃ db' out, twoClasses.linkRefNodes Allocator.next Iteration.sorted 3 = .returned db' ∧
        run db' 3 = .returned out ∧
        ¬ (exportedClassEdges out).Perm (referringEdges twoClasses.pool twoRows) := by
  refine ⟨stored_twoClasses, interned_twoRows, by simp [Ownerless, twoRows], ?_⟩
  have hrun : linkAndExport twoClasses =
      .returned [⟨0, 0, ascii "class", kClassEdgeColor, .solid⟩,
        ⟨0, 1, ascii "class", kClassEdgeColor, .solid⟩] := by decide +kernel
  obtain ⟨db', out, hlink, hrun, hedges⟩ := exists_of_linkAndExport hrun
  refine ⟨db', out, hlink, hrun, ?_⟩
  rw [hedges]
  decide +kernel

end Samples

end Tarracsh.ExportedClassEdges
