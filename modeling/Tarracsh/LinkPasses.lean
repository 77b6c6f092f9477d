import Tarracsh.CallGraphLinking
import Tarracsh.TableInvariant

/-!
# One pass over the references of a kind

What a pass has done is said by the list of edges it has filed: the rows of
the references and of the targets count the edges at their ends, and all other
columns stay. A pass fails at the first edge whose two ends are joined already.
-/
namespace Tarracsh.LinkPasses
open ByteStrings TableModel TableInvariant DomainTables CallGraphTables CallGraphLinking
open CountedLoops

/-- The key of an edge names its two ends. -/
theorem getKey_eq_iff {e e' : EdgeCols} :
    EdgeTable.getKey e = EdgeTable.getKey e' ↔ e.fromId = e'.fromId ∧ e.toId = e'.toId := by
  have hfree : ∀ n : ℕ, (45 : UInt8) ∉ ascii (toString n) := by
    intro n hmem
    have := digit_of_mem_ascii_toString hmem
    simp at this
  have hkey : ∀ e : EdgeCols, EdgeTable.getKey e =
      ascii (toString e.fromId.toNat) ++ 45 :: ascii (toString e.toId.toNat) := by
    intro e
    rw [EdgeTable.getKey, show ascii "-" = [45] from rfl, List.append_assoc]
    rfl
  rw [hkey, hkey, List.append_cons_inj_of_notMem (hfree _) (hfree _)]
  constructor
  · rintro ⟨hfrom, -, hto⟩
    exact ⟨UInt64.toNat.inj (ascii_toString_injective hfrom),
      UInt64.toNat.inj (ascii_toString_injective hto)⟩
  · rintro ⟨hfrom, hto⟩
    exact ⟨by rw [hfrom], rfl, by rw [hto]⟩

theorem eq_of_ofNat_eq {m n : ℕ} (hm : m < 2 ^ 64) (hn : n < 2 ^ 64)
    (h : UInt64.ofNat m = UInt64.ofNat n) : m = n := by
  have := congrArg UInt64.toNat h
  rwa [UInt64.toNat_ofNat', UInt64.toNat_ofNat', Nat.mod_eq_of_lt hm, Nat.mod_eq_of_lt hn] at this

/-- No two edges join the same ends. -/
def Distinct (es : List EdgeCols) : Prop := (es.map EdgeTable.getKey).Nodup

section Loops
variable {α S : Type} {table : S → Table α} {func : S → ℕ → Option S}

/-- Over fewer than `2 ^ 32` rows `forEach` visits every row once. -/
theorem settles_forEach {n : ℕ} (hn : n < 2 ^ 32) (Inv : ℕ → S → Prop) (good : ℕ → Prop)
    (hmono : ∀ k < n, good (k + 1) → good k)
    (hrows : ∀ k s, Inv k s → ∃ (L : Layout α) (rs : List (Row α)),
      Core L (table s) rs ∧ rs.length = n)
    (hdeleted : ∀ k s p r, good k → Inv k s → (table s).autoIncrementIndex[k]? = some p →
      (table s).heap.lookup p = some r → r.isDeleted → good (k + 1) ∧ Inv (k + 1) s)
    (hlive : ∀ k s p r, good k → Inv k s → (table s).autoIncrementIndex[k]? = some p →
      (table s).heap.lookup p = some r → r.isDeleted = false →
      (good (k + 1) ∧ ∃ s', func s p = some s' ∧ Inv (k + 1) s') ∨
      (¬ good (k + 1) ∧ func s p = none))
    {s : S} (hgood : good 0) (hs : Inv 0 s) :
    Settles (fun fuel => forEach table func fuel s) (good n) (Inv n) := by
  refine settles_loop hn Inv good hmono ?_ ?_ hgood hs
  · intro s hs
    obtain ⟨L, rs, hcore, hlength⟩ := hrows n s hs
    have hnone : (table s).autoIncrementIndex[n]? = none := by
      rw [List.getElem?_eq_none_iff, hcore.length_eq, hlength]
    simp [hnone]
  · intro k s hk hg hs
    obtain ⟨L, rs, hcore, hlength⟩ := hrows k s hs
    obtain ⟨p, hp, hlookup⟩ := hcore.exists_of_row (List.getElem?_eq_getElem (hlength.symm ▸ hk))
    cases hdel : rs[k].isDeleted with
    | true =>
        obtain ⟨hg', hs'⟩ := hdeleted k s p _ hg hs hp hlookup hdel
        exact .inl ⟨hg', s, by simp [hp, hlookup, hdel], hs'⟩
    | false =>
        rcases hlive k s p _ hg hs hp hlookup hdel with ⟨hg', s', hfunc, hs'⟩ | ⟨hbad, hfunc⟩
        · exact .inl ⟨hg', s', by simp [hp, hlookup, hdel, hfunc], hs'⟩
        · exact .inr ⟨hbad, by simp [hp, hlookup, hdel, hfunc]⟩

/-- Over `2 ^ 32` rows or more `forEach` does not return. -/
theorem length_lt_of_returned
    (hfunc : ∀ s p s', func s p = some s' →
      (table s').autoIncrementIndex = (table s).autoIncrementIndex)
    {fuel : ℕ} {s s' : S} (h : forEach table func fuel s = .returned s') :
    (table s).autoIncrementIndex.length < 2 ^ 32 := by
  by_contra hs
  refine endless_loop (fun s => 2 ^ 32 ≤ (table s).autoIncrementIndex.length) ?_ ?_
    (Nat.le_of_not_lt hs) fuel s' h
  · intro k s hk hs
    have hp : (table s).autoIncrementIndex[k]? = some (table s).autoIncrementIndex[k] :=
      List.getElem?_eq_getElem (by omega)
    simp only [hp]
    cases (table s).heap.lookup (table s).autoIncrementIndex[k] with
    | none => simp
    | some row =>
        by_cases hdel : row.isDeleted = true
        · simp [hdel]
        · cases hr : func s (table s).autoIncrementIndex[k] <;> simp [hdel]
  · intro k s s' hs hturn
    cases hp : (table s).autoIncrementIndex[k]? with
    | none => simp [hp] at hturn
    | some p =>
        cases hlookup : (table s).heap.lookup p with
        | none => simp [hp, hlookup] at hturn
        | some row =>
            by_cases hdel : row.isDeleted = true
            · simp only [hp, hlookup, hdel, if_true, Turn.next.injEq] at hturn
              exact hturn ▸ hs
            · cases hr : func s p with
              | none => simp [hp, hlookup, hdel, hr] at hturn
              | some s₁ =>
                  simp only [hp, hlookup, hdel, hr, Bool.false_eq_true, if_false,
                    Turn.next.injEq] at hturn
                  rw [← hturn, hfunc s p s₁ hr]
                  exact hs

end Loops

/-- A column that counts, as a change to the columns of a row. -/
structure Counter (α : Type) where
  add : α → UInt64 → α
  add_zero : ∀ a, add a 0 = a
  add_add : ∀ a m n, add (add a m) n = add a (m + n)

section Counting
variable {α : Type} (C : Counter α) (side : EdgeCols → RefCol)

def recount (r : Row α) (n : ℕ) : Row α := { r with cols := C.add r.cols (UInt64.ofNat n) }

/-- The rows with the edges counted at the given side. -/
def counted (es : List EdgeCols) (rows : List (Row α)) : List (Row α) :=
  rows.mapIdx fun i r => recount C r (es.countP fun e => side e = UInt64.ofNat i)

theorem recount_zero (r : Row α) : recount C r 0 = r := by
  rw [recount, show UInt64.ofNat 0 = 0 from rfl, C.add_zero]

theorem getElem?_counted (es : List EdgeCols) (rows : List (Row α)) (i : ℕ) :
    (counted C side es rows)[i]? =
      rows[i]?.map fun r => recount C r (es.countP fun e => side e = UInt64.ofNat i) := by
  rw [counted, List.getElem?_mapIdx]

@[simp] theorem length_counted (es : List EdgeCols) (rows : List (Row α)) :
    (counted C side es rows).length = rows.length := by
  simp [counted]

@[simp] theorem counted_nil (rows : List (Row α)) : counted C side [] rows = rows := by
  apply List.ext_getElem?
  intro i
  rw [getElem?_counted]
  cases rows[i]? with
  | none => rfl
  | some r => rw [Option.map_some, List.countP_nil, recount_zero]

theorem counted_append (es es' : List EdgeCols) (rows : List (Row α)) :
    counted C side es' (counted C side es rows) = counted C side (es ++ es') rows := by
  apply List.ext_getElem?
  intro i
  rw [getElem?_counted, getElem?_counted, getElem?_counted, Option.map_map]
  cases rows[i]? with
  | none => rfl
  | some r =>
      simp only [Option.map_some, Function.comp_apply, recount, C.add_add, List.countP_append,
        UInt64.ofNat_add]

/-- Edges that all have the one end `i` are counted there only. -/
theorem counted_of_forall {es : List EdgeCols} {rows : List (Row α)} {i : ℕ} {r : Row α}
    (hrows : rows.length ≤ 2 ^ 32) (hi : rows[i]? = some r)
    (hes : ∀ e ∈ es, side e = UInt64.ofNat i) :
    counted C side es rows = rows.set i (recount C r es.length) := by
  have hlt := (List.getElem?_eq_some_iff.mp hi).1
  apply List.ext_getElem?
  intro j
  rw [getElem?_counted, List.getElem?_set]
  by_cases hij : i = j
  · subst hij
    have hall : (es.countP fun e => side e = UInt64.ofNat i) = es.length := by
      rw [List.countP_eq_length]
      intro e he
      simp [hes e he]
    rw [if_pos rfl, if_pos hlt, hi, Option.map_some, hall]
  · rw [if_neg hij]
    cases hj : rows[j]? with
    | none => rfl
    | some r' =>
        have hjlt := (List.getElem?_eq_some_iff.mp hj).1
        have hnone : (es.countP fun e => side e = UInt64.ofNat j) = 0 := by
          rw [List.countP_eq_zero]
          intro e he heq
          rw [hes e he, decide_eq_true_eq] at heq
          exact hij (eq_of_ofNat_eq (by omega) (by omega) heq)
        rw [Option.map_some, hnone, recount_zero]

end Counting

/-- A row is counted in place. -/
theorem updateInPlace_counter {α : Type} (C : Counter α) {F : Format α} {t : Table α}
    {rows : List (Row α)} (hc : Core ⟨F, fun _ => []⟩ t rows) {i p : ℕ} {r : Row α}
    (hp : t.autoIncrementIndex[i]? = some p) (hi : rows[i]? = some r) (n : UInt64) :
    ∃ t', t.updateInPlace p (fun row => { row with cols := C.add row.cols n }) = some t' ∧
      Core ⟨F, fun _ => []⟩ t' (rows.set i { r with cols := C.add r.cols n }) ∧
      t'.autoIncrementIndex = t.autoIncrementIndex := by
  let change : Row α → Row α := fun row => { row with cols := C.add row.cols n }
  have hid : (change r).id = i := hc.ids i r hi
  obtain ⟨t', hupdate, heffect⟩ := updateInPlace_effect hc hp hi hid rfl
  refine ⟨t', hupdate, heffect.core, ?_⟩
  have hlength := heffect.core.length_eq
  have hold := hc.length_eq
  rw [List.length_set] at hlength
  exact (heffect.index.eq_of_length (by omega)).symm

/-- The rows after new edges have been added. -/
def fileEdges (rows : List (Row EdgeCols)) (es : List EdgeCols) : List (Row EdgeCols) :=
  es.foldl (fun rows e => rows ++ [⟨0, rows.length, e⟩]) rows

theorem fileEdges_append (rows : List (Row EdgeCols)) (es es' : List EdgeCols) :
    fileEdges rows (es ++ es') = fileEdges (fileEdges rows es) es' :=
  List.foldl_append

theorem map_cols_fileEdges (rows : List (Row EdgeCols)) (es : List EdgeCols) :
    (fileEdges rows es).map Row.cols = rows.map Row.cols ++ es := by
  induction es generalizing rows with
  | nil => simp [fileEdges]
  | cons e es ih =>
      rw [show fileEdges rows (e :: es) = fileEdges (rows ++ [⟨0, rows.length, e⟩]) es from rfl,
        ih]
      simp

theorem flags_of_mem_fileEdges {rows : List (Row EdgeCols)} {es : List EdgeCols}
    {r : Row EdgeCols} (h : r ∈ fileEdges rows es) : r ∈ rows ∨ r.flags = 0 := by
  induction es generalizing rows with
  | nil => exact .inl h
  | cons e es ih =>
      have hrest : r ∈ rows ++ [⟨0, rows.length, e⟩] ∨ r.flags = 0 := ih h
      rcases hrest with hmem | hflags
      · rcases List.mem_append.mp hmem with hmem | hmem
        · exact .inl hmem
        · rw [List.mem_singleton] at hmem
          exact .inr (by rw [hmem])
      · exact .inr hflags

section Passes
variable {ρ τ : Type} (F : Format ρ) (G : Format τ) (E : EdgeTable)

/-- The tables of a pass represent the given rows. The keys of references and
targets play no role. -/
structure Represents (s : Pass ρ τ) (rs : List (Row ρ)) (es : List (Row EdgeCols))
    (ts : List (Row τ)) : Prop where
  refs : Core ⟨F, fun _ => []⟩ s.refs rs
  edges : Core E.layout s.edges es
  filed : Filed E.layout s.edges es
  targets : Core ⟨G, fun _ => []⟩ s.targets ts

/-- How linking with the edges `new` can end: their ends were not joined and
they are filed, or it fails. The references are then the rows `rs'`. -/
def Outcome (s : Pass ρ τ) (rs' : List (Row ρ)) (C : Counter τ)
    (es : List (Row EdgeCols)) (ts : List (Row τ)) (new : List EdgeCols)
    (result : Option (Pass ρ τ)) : Prop :=
  (Distinct (es.map Row.cols ++ new) ∧
    ∃ s', result = some s' ∧
      Represents F G E s' rs' (fileEdges es new) (counted C EdgeCols.toId new ts) ∧
      s'.refs.autoIncrementIndex = s.refs.autoIncrementIndex ∧
      s'.targets.autoIncrementIndex = s.targets.autoIncrementIndex) ∨
  (¬ Distinct (es.map Row.cols ++ new) ∧ result = none)

variable {F G E}

theorem lookup_isSome_iff {t : Table EdgeCols} {es : List (Row EdgeCols)}
    (hc : Core E.layout t es) (hf : Filed E.layout t es) (key : Bytes) :
    (t.rows.lookup key).isSome ↔ key ∈ (es.map Row.cols).map EdgeTable.getKey := by
  rw [List.map_map, List.mem_map]
  exact hf.lookup_isSome_iff hc key

theorem distinct_of_filed {t : Table EdgeCols} {es : List (Row EdgeCols)}
    (hc : Core E.layout t es) (hf : Filed E.layout t es) : Distinct (es.map Row.cols) := by
  rw [Distinct, List.map_map, List.nodup_iff_getElem?_ne_getElem?]
  intro i j hij hj heq
  rw [List.length_map] at hj
  rw [List.getElem?_map, List.getElem?_map, List.getElem?_eq_getElem hj,
    List.getElem?_eq_getElem (by omega), Option.map_some, Option.map_some, Option.some_inj] at heq
  have := hf.key_injective hc (List.getElem?_eq_getElem (hij.trans hj))
    (List.getElem?_eq_getElem hj) heq
  omega

theorem distinct_concat {es : List EdgeCols} (h : Distinct es) (e : EdgeCols) :
    Distinct (es ++ [e]) ↔ EdgeTable.getKey e ∉ es.map EdgeTable.getKey := by
  rw [Distinct, List.map_append, List.map_singleton, List.nodup_append]
  constructor
  · rintro ⟨-, -, hne⟩ hmem
    exact hne _ hmem _ (List.mem_singleton.mpr rfl) rfl
  · intro hnot
    refine ⟨h, List.nodup_singleton _, ?_⟩
    rintro a ha b hb rfl
    rw [List.mem_singleton] at hb
    exact hnot (hb ▸ ha)

theorem Distinct.of_append {es es' : List EdgeCols} (h : Distinct (es ++ es')) : Distinct es := by
  rw [Distinct, List.map_append] at h
  exact h.of_append_left

/-- First some edges, then the others. -/
theorem Outcome.bind {s : Pass ρ τ} {rs : List (Row ρ)} {C : Counter τ}
    {es : List (Row EdgeCols)} {ts : List (Row τ)} {new new' : List EdgeCols}
    {result : Option (Pass ρ τ)} {f : Pass ρ τ → Option (Pass ρ τ)}
    (h : Outcome F G E s rs C es ts new result)
    (hf : ∀ s', Represents F G E s' rs (fileEdges es new) (counted C EdgeCols.toId new ts) →
      s'.targets.autoIncrementIndex = s.targets.autoIncrementIndex →
      Distinct ((fileEdges es new).map Row.cols) →
      Outcome F G E s' rs C (fileEdges es new) (counted C EdgeCols.toId new ts) new'
        (f s')) :
    Outcome F G E s rs C es ts (new ++ new') (result >>= f) := by
  have hassoc : es.map Row.cols ++ (new ++ new') =
      (fileEdges es new).map Row.cols ++ new' := by
    rw [map_cols_fileEdges, List.append_assoc]
  rcases h with ⟨hd, s', rfl, hs', hrefs, htargets⟩ | ⟨hd, rfl⟩
  · rw [← map_cols_fileEdges] at hd
    rcases hf s' hs' htargets hd with ⟨hd', s'', hr, hs'', hrefs', htargets'⟩ | ⟨hd', hr⟩
    · refine .inl ⟨hassoc ▸ hd', s'', hr, ?_, hrefs'.trans hrefs, htargets'.trans htargets⟩
      rw [fileEdges_append, ← counted_append]
      exact hs''
    · exact .inr ⟨hassoc ▸ hd', hr⟩
  · refine .inr ⟨fun hd' => hd ?_, rfl⟩
    rw [← List.append_assoc] at hd'
    exact hd'.of_append

section Edges
variable (A : ∀ α : Type, Allocator α) (C : Counter τ)

/-- One edge is filed and counted at its target. -/
theorem linkEdge_outcome {s : Pass ρ τ} {rs : List (Row ρ)} {es : List (Row EdgeCols)}
    {ts : List (Row τ)} (h : Represents F G E s rs es ts) (hts : ts.length ≤ 2 ^ 32)
    {e : EdgeCols} {j : ℕ} (hj : j < ts.length) (hto : e.toId = UInt64.ofNat j)
    (hd : Distinct (es.map Row.cols)) :
    Outcome F G E s rs C es ts [e]
      (linkEdge A E e s.targets.autoIncrementIndex[j]? (fun cols => C.add cols 1) s) := by
  have hrow : ts[j]? = some ts[j] := List.getElem?_eq_getElem hj
  obtain ⟨p, hp, -⟩ := h.targets.exists_of_row hrow
  have hkey := lookup_isSome_iff h.edges h.filed (EdgeTable.getKey e)
  by_cases hmem : EdgeTable.getKey e ∈ (es.map Row.cols).map EdgeTable.getKey
  · refine .inr ⟨fun hd' => (distinct_concat hd e).mp hd' hmem, ?_⟩
    have hadd := add_eq_none (A _) (L := E.layout) (r := CallGraphDb.newRow e) (hkey.mpr hmem)
    simp [linkEdge, hadd]
  · have hfree : s.edges.rows.lookup (E.layout.getKey (CallGraphDb.newRow e).cols) = none := by
      rw [← Option.not_isSome_iff_eq_none]
      exact fun hsome => hmem (hkey.mp hsome)
    obtain ⟨edges, hadd, hedges⟩ := add_effect (A _) h.edges (CallGraphDb.newRow e) hfree
    obtain ⟨targets, hupdate, htargets, hindex⟩ := updateInPlace_counter C h.targets hp hrow 1
    refine .inl ⟨(distinct_concat hd e).mpr hmem, ⟨s.refs, edges, targets⟩, ?_, ?_, rfl, hindex⟩
    · simp [linkEdge, hadd, hp, hupdate]
    · refine ⟨h.refs, hedges.core, hedges.filed h.filed, ?_⟩
      rw [counted_of_forall C EdgeCols.toId hts hrow (by simpa using hto)]
      exact htargets

/-- Each edge of a list is filed and counted at its target. -/
theorem foldlM_linkEdge {X : Type} {xs : List X} {edge : X → EdgeCols}
    {step : Pass ρ τ → X → Option (Pass ρ τ)} {pointers : List ℕ} {n : ℕ} (hn : n ≤ 2 ^ 32)
    (hstep : ∀ x ∈ xs, ∃ j < n, (edge x).toId = UInt64.ofNat j ∧
      ∀ s rs es ts, Represents F G E s rs es ts → s.targets.autoIncrementIndex = pointers →
        step s x = linkEdge A E (edge x) pointers[j]? (fun cols => C.add cols 1) s)
    {s : Pass ρ τ} {rs : List (Row ρ)} {es : List (Row EdgeCols)} {ts : List (Row τ)}
    (h : Represents F G E s rs es ts) (hpointers : s.targets.autoIncrementIndex = pointers)
    (hts : ts.length = n) (hd : Distinct (es.map Row.cols)) :
    Outcome F G E s rs C es ts (xs.map edge) (xs.foldlM step s) := by
  induction xs generalizing s es ts with
  | nil =>
      refine .inl ⟨by simpa using hd, s, rfl, ?_, rfl, rfl⟩
      simpa [fileEdges] using h
  | cons x xs ih =>
      obtain ⟨j, hj, hto, hx⟩ := hstep x (by simp)
      have hedge := linkEdge_outcome A C h (by omega) (hts.symm ▸ hj) hto hd
      rw [hpointers, ← hx s rs es ts h hpointers] at hedge
      rw [List.foldlM_cons, List.map_cons, ← List.singleton_append]
      refine hedge.bind fun s' hs' htargets hd' => ?_
      exact ih (fun y hy => hstep y (by simp [hy])) hs' (htargets.trans hpointers)
        (by rw [length_counted]; exact hts) hd'

end Edges

/-- The edges of a reference that is not deleted. -/
def outgoing (matched : Row ρ → List EdgeCols) (r : Row ρ) : List EdgeCols :=
  if r.isDeleted then [] else matched r

/-- A pass files the edges of all references, or fails. -/
theorem settles_pass (func : Pass ρ τ → ℕ → Option (Pass ρ τ)) (CR : Counter ρ) (C : Counter τ)
    (matched : Row ρ → List EdgeCols)
    (hmatched : ∀ r n, matched (recount CR r n) = matched r)
    {s : Pass ρ τ} {rs : List (Row ρ)} {es : List (Row EdgeCols)} {ts : List (Row τ)}
    (h : Represents F G E s rs es ts) (hrs : rs.length < 2 ^ 32)
    (hfunc : ∀ s' rs' es' ts' (i p : ℕ) r, Represents F G E s' rs' es' ts' →
      rs'.length = rs.length → ts'.length = ts.length →
      s'.targets.autoIncrementIndex = s.targets.autoIncrementIndex →
      Distinct (es'.map Row.cols) → s'.refs.autoIncrementIndex[i]? = some p → rs'[i]? = some r →
      Outcome F G E s' (counted CR EdgeCols.fromId (matched r) rs') C es' ts' (matched r)
        (func s' p)) :
    Settles (fun fuel => forEach Pass.refs func fuel s)
      (Distinct (es.map Row.cols ++ rs.flatMap (outgoing matched)))
      (fun s' => Represents F G E s'
        (counted CR EdgeCols.fromId (rs.flatMap (outgoing matched)) rs)
        (fileEdges es (rs.flatMap (outgoing matched)))
        (counted C EdgeCols.toId (rs.flatMap (outgoing matched)) ts)) := by
  let new : ℕ → List EdgeCols := fun k => (rs.take k).flatMap (outgoing matched)
  have hall : new rs.length = rs.flatMap (outgoing matched) := by simp [new]
  have hsucc : ∀ k r, rs[k]? = some r → new (k + 1) = new k ++ outgoing matched r := by
    intro k r hr
    simp [new, List.take_add_one, hr]
  let Inv : ℕ → Pass ρ τ → Prop := fun k s' =>
    Represents F G E s' (counted CR EdgeCols.fromId (new k) rs) (fileEdges es (new k))
      (counted C EdgeCols.toId (new k) ts) ∧
    s'.targets.autoIncrementIndex = s.targets.autoIncrementIndex
  have hrow : ∀ {k s' p r'}, Inv k s' → s'.refs.autoIncrementIndex[k]? = some p →
      s'.refs.heap.lookup p = some r' → ∃ r n, rs[k]? = some r ∧ r' = recount CR r n ∧
        (counted CR EdgeCols.fromId (new k) rs)[k]? = some r' := by
    intro k s' p r' hs' hp hlookup
    have hget := hs'.1.refs.lookup_of_index hp
    rw [hlookup] at hget
    have hmap := hget
    rw [getElem?_counted, eq_comm, Option.map_eq_some_iff] at hmap
    obtain ⟨r, hr, hr'⟩ := hmap
    exact ⟨r, _, hr, hr'.symm, hget.symm⟩
  rw [← hall]
  refine (settles_forEach hrs Inv (fun k => Distinct (es.map Row.cols ++ new k)) ?_ ?_ ?_ ?_ ?_
    ⟨?_, rfl⟩).mono fun s' hs' => hs'.1
  · intro k hk hd
    rw [hsucc k _ (List.getElem?_eq_getElem hk), ← List.append_assoc] at hd
    exact hd.of_append
  · intro k s' hs'
    exact ⟨_, _, hs'.1.refs, length_counted _ _ _ _⟩
  · intro k s' p r' hg hs' hp hlookup hdel
    obtain ⟨r, n, hr, rfl, -⟩ := hrow hs' hp hlookup
    have hnone : outgoing matched r = [] := if_pos hdel
    have hsame : new (k + 1) = new k := by rw [hsucc k r hr, hnone, List.append_nil]
    simp only [Inv, hsame]
    exact ⟨hg, hs'⟩
  · intro k s' p r' hg hs' hp hlookup hdel
    obtain ⟨r, n, hr, rfl, hr'⟩ := hrow hs' hp hlookup
    have hsome : outgoing matched r = matched (recount CR r n) := by
      rw [hmatched, outgoing, if_neg (by rw [show r.isDeleted = false from hdel]; simp)]
    have hout := hfunc s' _ _ _ k p _ hs'.1 (length_counted _ _ _ _) (length_counted _ _ _ _)
      hs'.2 (by rw [map_cols_fileEdges]; exact hg) hp hr'
    rw [← hsome] at hout
    simp only [Inv, hsucc k r hr, ← List.append_assoc, ← map_cols_fileEdges es (new k)]
    rcases hout with ⟨hd, s'', hresult, hs'', -, htargets⟩ | ⟨hd, hresult⟩
    · refine .inl ⟨hd, s'', hresult, ?_, htargets.trans hs'.2⟩
      rw [fileEdges_append, ← counted_append, ← counted_append]
      exact hs''
    · exact .inr ⟨hd, hresult⟩
  · rw [show new 0 = [] from rfl, List.append_nil]
    exact distinct_of_filed h.edges h.filed
  · simpa [new, fileEdges] using h

end Passes

end Tarracsh.LinkPasses
