import Tarracsh.QueryListener
import Tarracsh.TableInvariant
import Tarracsh.DomainTables
import Mathlib.Data.List.Infix

/-!
# What a query lists

A filter means what its own column, operator and literal say, and an expression
is the Boolean combination of its filters. The listener agrees with this exactly
when each regex filter finds the same with the flag of the first regex filter of
its pattern as with its own.
-/
namespace Tarracsh.QueryListener
open ByteStrings

namespace FilterContext
variable (search : Bytes → Bool → Bytes → Bool) (f : FilterContext)

/-- The text that the literal stands for. -/
def literal : Bytes := sanitized f.escapedString

/-- A trailing `/i`. -/
def isCaseInsensitive : Bool := (ascii "/i").isSuffixOf f.literal

/-- The literal without a trailing `/i`. -/
def pattern : Bytes :=
  if f.isCaseInsensitive then f.literal.take (f.literal.length - 2) else f.literal

/-- What a filter says of the value of its column. -/
def means (value : Bytes) : Bool :=
  match f.oper with
  | .REGEX => search f.pattern f.isCaseInsensitive value
  | .EQUAL => decide (value = f.literal)
  | .NOT_EQUAL => decide (value ≠ f.literal)
  | .STARTS_WITH negated => decide (f.literal <+: value) != negated
  | .ENDS_WITH negated => decide (f.literal <:+ value) != negated

end FilterContext

namespace ExprContext

/-- The filters from left to right. -/
def filters : ExprContext → List FilterContext
  | .filter f => [f]
  | .logical left _ right => left.filters ++ right.filters

/-- The filters with their nodes. -/
def nodes : NodeId → ExprContext → List (NodeId × FilterContext)
  | ctx, .filter f => [(0 :: ctx, f)]
  | ctx, .logical left _ right => nodes (1 :: ctx) left ++ nodes (3 :: ctx) right

/-- The Boolean combination of the filters. -/
def eval (holds : FilterContext → Bool) : ExprContext → Bool
  | .filter f => holds f
  | .logical left .AND right => left.eval holds && right.eval holds
  | .logical left .OR right => left.eval holds || right.eval holds

/-- How deep the predicates call each other. -/
def depth : ExprContext → ℕ
  | .filter _ => 2
  | .logical left _ right => max left.depth right.depth + 1

theorem depth_pos (e : ExprContext) : 0 < e.depth := by
  cases e <;> simp [depth]

end ExprContext

end Tarracsh.QueryListener

namespace Tarracsh.QuerySemantics
open ByteStrings TableModel TableInvariant QueryListener

section Listing
variable {α : Type} {L : Layout α} {t : Table α} {rs : List (Row α)}
  {filter : Row α → Option Bool} {p : Row α → Bool}

theorem scan_eq (hcore : Core L t rs)
    (hfilter : ∀ r ∈ rs, r.isDeleted = false → filter r = some (p r)) (index count : ℕ)
    (hcount : index + count ≤ rs.length) :
    scan t filter index count =
      some (((rs.drop index).take count).filter fun r => !r.isDeleted && p r) := by
  induction count generalizing index with
  | zero => rfl
  | succ count ih =>
      have hlt : index < rs.length := by omega
      have hrow : t.getRow index = some rs[index] := by
        rw [hcore.getRow_eq, List.getElem?_eq_getElem hlt]
      rw [scan, hrow, ih (index + 1) (by omega), List.drop_eq_getElem_cons hlt, List.take_succ_cons]
      cases hdeleted : rs[index].isDeleted with
      | true => simp [hdeleted]
      | false =>
          have hfound := hfilter _ (List.getElem_mem hlt) hdeleted
          cases hp : p rs[index] <;> simp [hdeleted, hfound, hp]

/-- The chunks are the rows one after the other. -/
theorem flatten_chunks (rs : List (Row α)) (q : Row α → Bool) (chunkSize count : ℕ) :
    ((List.range count).map fun chunkIndex =>
      ((rs.drop (chunkIndex * chunkSize)).take chunkSize).filter q).flatten =
      (rs.take (count * chunkSize)).filter q := by
  induction count with
  | zero => simp
  | succ count ih =>
      rw [List.range_succ, List.map_append, List.flatten_append, ih, Nat.succ_mul, List.take_add,
        List.filter_append]
      simp

theorem activeThreads_eq_zero_iff (hardwareThreads n : ℕ) :
    activeThreads hardwareThreads n = 0 ↔ n ≠ 0 ∧ 2 ^ 32 ∣ n := by
  unfold activeThreads
  split_ifs <;> simp_all <;> omega

/-- The rows that `list` prints. Their number is cast to 32 bits. -/
theorem list_eq (hcore : Core L t rs) (hardwareThreads : ℕ)
    (hfilter : ∀ r ∈ rs, r.isDeleted = false → filter r = some (p r)) :
    list t hardwareThreads filter =
      some (if rs.length ≠ 0 ∧ 2 ^ 32 ∣ rs.length then []
        else rs.filter fun r => !r.isDeleted && p r) := by
  have hlength := hcore.length_eq
  unfold list
  simp only [hlength]
  generalize hthreads : activeThreads hardwareThreads rs.length = threads
  have hzero := activeThreads_eq_zero_iff hardwareThreads rs.length
  rw [hthreads] at hzero
  simp only [← hzero]
  generalize hsize : (if threads = 0 then 0 else (rs.length + threads - 1) / threads) = chunkSize
  have hchunk : ∀ chunkIndex, (if chunkSize = 0 ∨
      min (chunkIndex * chunkSize + chunkSize) rs.length ≤ chunkIndex * chunkSize then some []
      else scan t filter (chunkIndex * chunkSize)
        (min (chunkIndex * chunkSize + chunkSize) rs.length - chunkIndex * chunkSize)) =
      some (((rs.drop (chunkIndex * chunkSize)).take chunkSize).filter
        fun r => !r.isDeleted && p r) := by
    intro chunkIndex
    generalize chunkIndex * chunkSize = index
    split_ifs with hempty
    · rcases hempty with hempty | hempty
      · simp [hempty]
      · have hpast : rs.length ≤ index ∨ chunkSize = 0 := by omega
        rcases hpast with hpast | hpast
        · simp [List.drop_eq_nil_of_le hpast]
        · simp [hpast]
    · push Not at hempty
      rw [scan_eq hcore hfilter index _ (by omega)]
      congr 2
      rw [List.take_eq_take_iff, List.length_drop]
      omega
  have hmap : ((List.range threads).mapM fun chunkIndex =>
      some (((rs.drop (chunkIndex * chunkSize)).take chunkSize).filter
        fun r => !r.isDeleted && p r)) =
      some ((List.range threads).map fun chunkIndex =>
        ((rs.drop (chunkIndex * chunkSize)).take chunkSize).filter
          fun r => !r.isDeleted && p r) := List.mapM_pure
  simp only [hchunk, hmap, Option.bind_eq_bind, Option.bind_some, flatten_chunks]
  congr 1
  split_ifs with hnone
  · simp [hnone]
  · rw [if_neg hnone] at hsize
    have hall : rs.length ≤ threads * chunkSize := by
      have hdivision := Nat.div_add_mod (rs.length + threads - 1) threads
      have hrest := Nat.mod_lt (rs.length + threads - 1) (Nat.pos_of_ne_zero hnone)
      rw [hsize] at hdivision
      omega
    rw [List.take_of_length_le hall]

end Listing

section Caches
variable {f g : FilterContext} {fs gs : List FilterContext} {cache : Bytes → Option Regex}

def regex (f : FilterContext) : Regex := ⟨f.pattern, f.isCaseInsensitive⟩

/-- The regex cache after a filter. -/
def remember (cache : Bytes → Option Regex) (f : FilterContext) : Bytes → Option Regex :=
  if f.oper = .REGEX ∧ cache f.pattern = none then
    Function.update cache f.pattern (some (regex f))
  else cache

/-- The first regex filter of a pattern. -/
def firstOf (fs : List FilterContext) (pattern : Bytes) : Option FilterContext :=
  fs.find? fun f => f.oper = .REGEX ∧ f.pattern = pattern

/-- The filters fill the cache in their order. -/
theorem foldl_remember (fs : List FilterContext) (cache : Bytes → Option Regex) (p : Bytes) :
    fs.foldl remember cache p = (cache p).or ((firstOf fs p).map regex) := by
  induction fs generalizing cache with
  | nil => simp [firstOf]
  | cons f fs ih =>
      rw [List.foldl_cons, ih]
      unfold remember firstOf
      rw [List.find?_cons]
      by_cases hp : f.pattern = p
      · subst hp
        by_cases hregex : f.oper = .REGEX
        · cases hc : cache f.pattern <;> simp [hregex, hc]
        · simp [hregex]
      · have hkept : (if f.oper = .REGEX ∧ cache f.pattern = none then
            Function.update cache f.pattern (some (regex f)) else cache) p = cache p := by
          split_ifs
          · exact Function.update_of_ne (Ne.symm hp) _ _
          · rfl
        simp [hkept, hp]

/-- The regex that a filter gets from the cache. -/
def cached (cache : Bytes → Option Regex) (f : FilterContext) : Option Regex :=
  if f.oper = .REGEX then cache f.pattern else none

theorem firstOf_isSome (hf : f ∈ fs) (hregex : f.oper = .REGEX) :
    (firstOf fs f.pattern).isSome := by
  rw [firstOf, List.find?_isSome]
  exact ⟨f, hf, by simp [hregex]⟩

theorem cached_foldl (hf : f ∈ fs) (gs : List FilterContext) :
    cached ((fs ++ gs).foldl remember cache) f = cached (fs.foldl remember cache) f := by
  unfold cached
  split_ifs with hregex
  · obtain ⟨g, hg⟩ := Option.isSome_iff_exists.mp (firstOf_isSome hf hregex)
    have happend : firstOf (fs ++ gs) f.pattern = some g := by
      rw [firstOf, List.find?_append, ← firstOf, hg]
      rfl
    rw [foldl_remember, foldl_remember, happend, hg]
  · rfl

end Caches

section Walk
variable {α : Type} (search : Bytes → Bool → Bytes → Bool) {l : Listener α} {ctx : NodeId}
  {f : FilterContext}

/-- The cache of texts holds what it would compute. -/
def Sanitizes (l : Listener α) : Prop :=
  ∀ value result, l.sanitizedStringCache value = some result → result = sanitized value

/-- The right side of the comparison that the predicate of a filter keeps. -/
def rightOf (f : FilterContext) : Bytes := if f.oper = .REGEX then f.pattern else f.literal

theorem getSanitizedString_spec (h : Sanitizes l) (value : Bytes) :
    ∃ cache, l.getSanitizedString value =
      (sanitized value, { l with sanitizedStringCache := cache }) ∧
      Sanitizes { l with sanitizedStringCache := cache } := by
  unfold Listener.getSanitizedString
  cases hc : l.sanitizedStringCache value with
  | some result =>
      obtain rfl := h value result hc
      exact ⟨l.sanitizedStringCache, rfl, h⟩
  | none =>
      refine ⟨_, rfl, fun value' result hresult => ?_⟩
      by_cases heq : value' = value
      · simp only [heq, Function.update_self, Option.some.injEq] at hresult
        rw [heq, hresult]
      · simp only [Function.update_of_ne heq] at hresult
        exact h value' result hresult

/-- What a filter adds to the listener. -/
theorem exitFilter_spec (h : Sanitizes l) (ctx : NodeId) (f : FilterContext) :
    ∃ cache, l.exitFilter search ctx f = { l with
        sanitizedStringCache := cache
        regexCache := remember l.regexCache f
        rulePredicates := Function.update l.rulePredicates ctx (some (Listener.columnPredicate
          search f.column f.oper (cached (remember l.regexCache f) f) (rightOf f))) } ∧
      Sanitizes (l.exitFilter search ctx f) := by
  obtain ⟨cache, hget, hcache⟩ := getSanitizedString_spec h f.escapedString
  suffices hexit : l.exitFilter search ctx f = { l with
      sanitizedStringCache := cache
      regexCache := remember l.regexCache f
      rulePredicates := Function.update l.rulePredicates ctx (some (Listener.columnPredicate
        search f.column f.oper (cached (remember l.regexCache f) f) (rightOf f))) } by
    rw [hexit]
    exact ⟨cache, rfl, hcache⟩
  by_cases hregex : f.oper = .REGEX
  · have hpattern : (if (ascii "/i").isSuffixOf (sanitized f.escapedString) then
        (sanitized f.escapedString).take ((sanitized f.escapedString).length - 2)
        else sanitized f.escapedString) = f.pattern := rfl
    simp only [Listener.exitFilter, hget, hregex, hpattern, Listener.getRegex, remember, cached,
      rightOf, if_true, true_and]
    cases hc : l.regexCache f.pattern with
    | some r => simp [hc]
    | none => simp [regex, FilterContext.isCaseInsensitive, FilterContext.literal]
  · have hother : l.exitFilter search ctx f = { l with
        sanitizedStringCache := cache
        rulePredicates := Function.update l.rulePredicates ctx (some (Listener.columnPredicate
          search f.column f.oper none (sanitized f.escapedString))) } := by
      simp only [Listener.exitFilter, hget]
    simp [hother, remember, cached, rightOf, hregex, FilterContext.literal]

/-- The predicates of the nodes of an expression. -/
def Compiled (predicates : NodeId → Option (RowPredicate α)) (cache : Bytes → Option Regex) :
    NodeId → ExprContext → Prop
  | ctx, .filter f =>
      predicates ctx = some (Listener.filterPredicate (0 :: ctx)) ∧
        predicates (0 :: ctx) =
          some (Listener.columnPredicate search f.column f.oper (cached cache f) (rightOf f))
  | ctx, .logical left oper right =>
      predicates ctx = some (Listener.logicalPredicate (1 :: ctx) oper (3 :: ctx)) ∧
        Compiled predicates cache (1 :: ctx) left ∧ Compiled predicates cache (3 :: ctx) right

variable {search}

theorem Compiled.mono {predicates predicates' : NodeId → Option (RowPredicate α)}
    {cache cache' : Bytes → Option Regex} {e : ExprContext}
    (h : Compiled search predicates cache ctx e)
    (hpredicates : ∀ node, ctx <:+ node → predicates' node = predicates node)
    (hcache : ∀ f ∈ e.filters, cached cache' f = cached cache f) :
    Compiled search predicates' cache' ctx e := by
  induction e generalizing ctx with
  | filter f =>
      refine ⟨?_, ?_⟩
      · rw [hpredicates _ List.suffix_rfl]
        exact h.1
      · rw [hpredicates _ (List.suffix_cons _ _), hcache f (List.mem_singleton_self f)]
        exact h.2
  | logical left oper right ihleft ihright =>
      refine ⟨?_, ihleft h.2.1 ?_ ?_, ihright h.2.2 ?_ ?_⟩
      · rw [hpredicates _ List.suffix_rfl]
        exact h.1
      · exact fun node hnode => hpredicates node ((List.suffix_cons _ _).trans hnode)
      · exact fun f hf => hcache f (List.mem_append_left _ hf)
      · exact fun node hnode => hpredicates node ((List.suffix_cons _ _).trans hnode)
      · exact fun f hf => hcache f (List.mem_append_right _ hf)

/-- The two sides of an expression have no node in common. -/
theorem not_suffix_of_sibling {i j : ℕ} (hij : i ≠ j) {node : NodeId} (hi : (i :: ctx) <:+ node) :
    ¬(j :: ctx) <:+ node := by
  intro hj
  have hsuffix := List.suffix_of_suffix_length_le hi hj (by simp)
  have heq := hsuffix.eq_of_length (by simp)
  exact hij (List.cons.inj heq).1

/-- The columns of the filters are columns of the table. -/
def Valid (mainTable : Option (MainTable α)) (fs : List FilterContext) : Prop :=
  ∃ m, mainTable = some m ∧ ∀ f ∈ fs, (m.columnByName f.column).isSome

theorem enterColumn_eq (h : Valid l.mainTable [f]) : l.enterColumn f.column = l := by
  obtain ⟨m, hm, hvalid⟩ := h
  have hcolumn := hvalid f (List.mem_singleton_self f)
  unfold Listener.enterColumn
  rw [hm]
  simp [hcolumn]

variable (search) in
/-- What the walk of an expression leaves behind. -/
structure Walked (l l' : Listener α) (ctx : NodeId) (e : ExprContext) : Prop where
  sanitizes : Sanitizes l'
  mainTable : l'.mainTable = l.mainTable
  wherePredicate : l'.wherePredicate = l.wherePredicate
  semanticErrors : l'.semanticErrors = l.semanticErrors
  regexCache : l'.regexCache = e.filters.foldl remember l.regexCache
  others : ∀ node, ¬ctx <:+ node → l'.rulePredicates node = l.rulePredicates node
  compiled : Compiled search l'.rulePredicates l'.regexCache ctx e

theorem walked_filter (h : Sanitizes l) (ctx : NodeId) (hvalid : Valid l.mainTable [f]) :
    Walked search l (Listener.walkExpr search ctx (.filter f) l) ctx (.filter f) := by
  have hsanitizes : Sanitizes (l.enterExpr ctx (.filter f)) := h
  have hcolumn : (l.enterExpr ctx (.filter f)).enterColumn f.column =
      l.enterExpr ctx (.filter f) := enterColumn_eq hvalid
  obtain ⟨cache, hexit, hleft⟩ := exitFilter_spec search hsanitizes (0 :: ctx) f
  have hwalk : Listener.walkExpr search ctx (.filter f) l =
      (l.enterExpr ctx (.filter f)).exitFilter search (0 :: ctx) f := by
    rw [Listener.walkExpr, hcolumn]
  rw [hwalk]
  refine ⟨hleft, ?_, ?_, ?_, ?_, ?_, ?_⟩
  · rw [hexit]
    rfl
  · rw [hexit]
    rfl
  · rw [hexit]
    rfl
  · rw [hexit]
    rfl
  · intro node hnode
    have hne : node ≠ ctx := fun heq => hnode (heq ▸ List.suffix_rfl)
    have hne' : node ≠ 0 :: ctx := fun heq => hnode (heq ▸ List.suffix_cons _ _)
    rw [hexit]
    simp only [Function.update_of_ne hne', Listener.enterExpr, Function.update_of_ne hne]
  · rw [hexit]
    refine ⟨?_, Function.update_self _ _ _⟩
    have hne : ctx ≠ 0 :: ctx := fun heq => by simpa using congrArg List.length heq
    simp only [Function.update_of_ne hne, Listener.enterExpr, Function.update_self]

theorem Valid.mono {mainTable : Option (MainTable α)} {fs gs : List FilterContext}
    (h : Valid mainTable gs) (hsub : fs ⊆ gs) : Valid mainTable fs := by
  obtain ⟨m, hm, hvalid⟩ := h
  exact ⟨m, hm, fun f hf => hvalid f (hsub hf)⟩

theorem walkExpr_spec (h : Sanitizes l) (ctx : NodeId) (e : ExprContext)
    (hvalid : Valid l.mainTable e.filters) :
    Walked search l (Listener.walkExpr search ctx e l) ctx e := by
  induction e generalizing l ctx with
  | filter f => exact walked_filter h ctx hvalid
  | logical left oper right ihleft ihright =>
      have hentered : Sanitizes (l.enterExpr ctx (.logical left oper right)) := h
      have hleft := ihleft hentered (1 :: ctx) (hvalid.mono (List.subset_append_left _ _))
      have hvalidRight : Valid (Listener.walkExpr search (1 :: ctx) left
          (l.enterExpr ctx (.logical left oper right))).mainTable right.filters := by
        rw [hleft.mainTable]
        exact hvalid.mono (List.subset_append_right _ _)
      have hright := ihright hleft.sanitizes (3 :: ctx) hvalidRight
      rw [Listener.walkExpr]
      generalize Listener.walkExpr search (1 :: ctx) left _ = m at hleft hright ⊢
      generalize Listener.walkExpr search (3 :: ctx) right m = l' at hright ⊢
      have hcache :
          l'.regexCache = (left.filters ++ right.filters).foldl remember l.regexCache := by
        rw [hright.regexCache, hleft.regexCache, List.foldl_append]
        rfl
      refine ⟨hright.sanitizes, ?_, ?_, ?_, hcache, ?_, ?_, ?_, hright.compiled⟩
      · rw [hright.mainTable, hleft.mainTable]
        rfl
      · rw [hright.wherePredicate, hleft.wherePredicate]
        rfl
      · rw [hright.semanticErrors, hleft.semanticErrors]
        rfl
      · intro node hnode
        have hne : node ≠ ctx := fun heq => hnode (heq ▸ List.suffix_rfl)
        rw [hright.others node fun hs => hnode ((List.suffix_cons _ _).trans hs),
          hleft.others node fun hs => hnode ((List.suffix_cons _ _).trans hs)]
        exact Function.update_of_ne hne _ _
      · have hshort : ∀ i, ¬(i :: ctx) <:+ ctx := fun i hs => by
          simpa using hs.length_le
        rw [hright.others ctx (hshort 3), hleft.others ctx (hshort 1)]
        exact Function.update_self _ _ _
      · refine hleft.compiled.mono (fun node hnode => ?_) (fun f hf => ?_)
        · exact hright.others node (not_suffix_of_sibling (by decide) hnode)
        · rw [hcache, hleft.regexCache]
          exact cached_foldl hf right.filters

end Walk

section Evaluation
variable {α : Type} {search : Bytes → Bool → Bytes → Bool} {l : Listener α} {ctx : NodeId}
  {cache : Bytes → Option Regex} {row : Row α} {value : Bytes → Bytes}

/-- What the predicate of a filter computes. -/
def computes (search : Bytes → Bool → Bytes → Bool) (cache : Bytes → Option Regex)
    (f : FilterContext) (value : Bytes) : Bool :=
  let result := Listener.compares search (cached cache f) f.oper value (rightOf f)
  if f.oper.NOT then !result else result

theorem invokePredicate_filter {f : FilterContext} {node : NodeId}
    (hnode : l.rulePredicates node =
      some (Listener.columnPredicate search f.column f.oper (cached cache f) (rightOf f)))
    (hvalue : l.getColumnValue row f.column = some (value f.column)) (fuel : ℕ) :
    l.invokePredicate (fuel + 1) node row = some (computes search cache f (value f.column)) := by
  rw [Listener.invokePredicate, hnode]
  simp only [Listener.columnPredicate, hvalue]
  rfl

/-- With fuel for its depth, an expression is the Boolean combination of what its
filters compute. -/
theorem invokePredicate_expr {e : ExprContext}
    (h : Compiled search l.rulePredicates cache ctx e)
    (hvalue : ∀ f ∈ e.filters, l.getColumnValue row f.column = some (value f.column)) {fuel : ℕ}
    (hfuel : e.depth ≤ fuel) :
    l.invokePredicate fuel ctx row =
      some (e.eval fun f => computes search cache f (value f.column)) := by
  induction e generalizing ctx fuel with
  | filter f =>
      obtain ⟨fuel, rfl⟩ := Nat.exists_eq_add_of_le' (show 2 ≤ fuel from hfuel)
      rw [Listener.invokePredicate, h.1]
      exact invokePredicate_filter h.2 (hvalue f (List.mem_singleton_self f)) fuel
  | logical left oper right ihleft ihright =>
      have hdepth : left.depth + 1 ≤ fuel ∧ right.depth + 1 ≤ fuel := by
        simp only [ExprContext.depth] at hfuel
        omega
      obtain ⟨fuel, rfl⟩ := Nat.exists_eq_succ_of_ne_zero (by omega : fuel ≠ 0)
      have hleft := ihleft h.2.1 (fun f hf => hvalue f (List.mem_append_left _ hf))
        (Nat.le_of_add_le_add_right hdepth.1)
      have hright := ihright h.2.2 (fun f hf => hvalue f (List.mem_append_right _ hf))
        (Nat.le_of_add_le_add_right hdepth.2)
      rw [Listener.invokePredicate, h.1]
      simp only [Listener.logicalPredicate, hleft, hright, Option.bind_eq_bind, Option.bind_some]
      cases oper with
      | AND =>
          rw [ExprContext.eval]
          split_ifs with hl <;> simp_all
      | OR =>
          rw [ExprContext.eval]
          split_ifs with hl <;> simp_all

theorem Compiled.node {predicates : NodeId → Option (RowPredicate α)} {e : ExprContext}
    (h : Compiled search predicates cache ctx e) {node : NodeId} {f : FilterContext}
    (hnode : (node, f) ∈ e.nodes ctx) :
    predicates node =
      some (Listener.columnPredicate search f.column f.oper (cached cache f) (rightOf f)) := by
  induction e generalizing ctx with
  | filter g =>
      obtain ⟨rfl, rfl⟩ := Prod.mk.inj (List.mem_singleton.mp hnode)
      exact h.2
  | logical left oper right ihleft ihright =>
      rcases List.mem_append.mp hnode with hnode | hnode
      · exact ihleft h.2.1 hnode
      · exact ihright h.2.2 hnode

theorem exists_node {e : ExprContext} (ctx : NodeId) {f : FilterContext} (hf : f ∈ e.filters) :
    ∃ node, (node, f) ∈ e.nodes ctx := by
  induction e generalizing ctx with
  | filter g =>
      obtain rfl := List.mem_singleton.mp hf
      exact ⟨0 :: ctx, List.mem_singleton_self _⟩
  | logical left oper right ihleft ihright =>
      rcases List.mem_append.mp hf with hf | hf
      · obtain ⟨node, hnode⟩ := ihleft (1 :: ctx) hf
        exact ⟨node, List.mem_append_left _ hnode⟩
      · obtain ⟨node, hnode⟩ := ihright (3 :: ctx) hf
        exact ⟨node, List.mem_append_right _ hnode⟩

theorem mem_filters_of_node {e : ExprContext} {node : NodeId} {f : FilterContext}
    (hnode : (node, f) ∈ e.nodes ctx) : f ∈ e.filters := by
  induction e generalizing ctx with
  | filter g => exact List.mem_singleton.mpr (Prod.mk.inj (List.mem_singleton.mp hnode)).2
  | logical left oper right ihleft ihright =>
      rcases List.mem_append.mp hnode with hnode | hnode
      · exact List.mem_append_left _ (ihleft hnode)
      · exact List.mem_append_right _ (ihright hnode)

theorem computes_other {f : FilterContext} (hoper : f.oper ≠ .REGEX) (value : Bytes) :
    computes search cache f value = f.means search value := by
  have hprefix : f.literal.isPrefixOf value = decide (f.literal <+: value) := by
    rw [Bool.eq_iff_iff, List.isPrefixOf_iff_prefix, decide_eq_true_iff]
  have hsuffix : f.literal.isSuffixOf value = decide (f.literal <:+ value) := by
    rw [Bool.eq_iff_iff, List.isSuffixOf_iff_suffix, decide_eq_true_iff]
  have hequal : (value == f.literal) = decide (value = f.literal) := by
    rw [Bool.eq_iff_iff, beq_iff_eq, decide_eq_true_iff]
  unfold computes FilterContext.means cached rightOf
  rw [if_neg hoper, if_neg hoper]
  cases hop : f.oper with
  | REGEX => exact absurd hop hoper
  | EQUAL => exact hequal
  | NOT_EQUAL => simp [Listener.compares, OperContext.NOT, bne, hequal]
  | STARTS_WITH negated => cases negated <;> simp [Listener.compares, OperContext.NOT, hprefix]
  | ENDS_WITH negated => cases negated <;> simp [Listener.compares, OperContext.NOT, hsuffix]

theorem computes_regex {f : FilterContext} (hoper : f.oper = .REGEX) {r : Regex}
    (hr : cache f.pattern = some r) (value : Bytes) :
    computes search cache f value = search r.pattern r.icase value := by
  unfold computes cached
  simp [hoper, hr, Listener.compares, OperContext.NOT]

end Evaluation

section Queries
variable {α : Type} (search : Bytes → Bool → Bytes → Bool)
  (columns : Bytes → Option (Row α → Bytes))
  (rs : List (Row α)) (context : ListContext)

/-- The text of a column in a row. -/
def columnText (r : Row α) (column : Bytes) : Bytes := (columns column).elim [] fun text => text r

def filtersOf : List FilterContext := context.whereExpr.elim [] ExprContext.filters

def nodesOf : List (NodeId × FilterContext) :=
  context.whereExpr.elim [] (ExprContext.nodes Listener.whereNode)

/-- The rows that satisfy the `where` clause. -/
def answer : List (Row α) :=
  rs.filter fun r => !r.isDeleted && context.whereExpr.elim true fun e =>
    e.eval fun f => f.means search (columnText columns r f.column)

/-- The rows listed are the answer, and each filter has its own meaning. -/
structure Compositional (getTable : Bytes → Option (MainTable α)) (hardwareThreads fuel : ℕ) :
    Prop where
  listed : Listener.walk search getTable hardwareThreads fuel (.list context) =
    some (.rows (answer search columns rs context))
  filters : ∀ x ∈ nodesOf context, ∀ r ∈ rs, r.isDeleted = false →
    (Listener.walkList search getTable context).invokePredicate fuel x.1 r =
      some (x.2.means search (columnText columns r x.2.column))

/-- Each regex filter finds the same with the flag of the first regex filter of its
pattern as with its own. -/
def FlagsAgree : Prop :=
  ∀ f ∈ filtersOf context, f.oper = .REGEX → ∀ g, firstOf (filtersOf context) f.pattern = some g →
    ∀ r ∈ rs, r.isDeleted = false →
      search f.pattern g.isCaseInsensitive (columnText columns r f.column) =
        search f.pattern f.isCaseInsensitive (columnText columns r f.column)

/-- The number of rows is not a positive multiple of `2 ^ 32`, or no row is to be
listed. -/
def RowsFit : Prop := 2 ^ 32 ∣ rs.length → answer search columns rs context = []

end Queries

section Answers
variable {α : Type} {search : Bytes → Bool → Bytes → Bool} {L : Layout α} {t : Table α}
  {columns : Bytes → Option (Row α → Bytes)} {rs : List (Row α)} {context : ListContext}
  {getTable : Bytes → Option (MainTable α)} {fuel : ℕ}

theorem getColumnValue_eq {l : Listener α} (hcore : Core L t rs)
    (htable : l.mainTable = some ⟨t, columns⟩) {r : Row α} (hr : r ∈ rs) {column : Bytes}
    (hcolumn : (columns column).isSome) :
    l.getColumnValue r column = some (columnText columns r column) := by
  obtain ⟨i, hi⟩ := List.mem_iff_getElem?.mp hr
  have hrow : t.getRow r.id = some r := by
    rw [hcore.getRow_eq, hcore.ids i r hi, hi]
  obtain ⟨text, htext⟩ := Option.isSome_iff_exists.mp hcolumn
  simp [Listener.getColumnValue, columnText, htable, hrow, htext]

/-- The regex cache after the walk. -/
def cacheOf (context : ListContext) : Bytes → Option Regex :=
  (filtersOf context).foldl remember fun _ => none

variable (search) in
/-- The listener at the end of the walk. -/
theorem walkList_spec (hcore : Core L t rs)
    (htable : getTable context.tablename = some ⟨t, columns⟩)
    (hcolumns : ∀ f ∈ filtersOf context, (columns f.column).isSome)
    (hfuel : context.whereExpr.elim 0 ExprContext.depth ≤ fuel) :
    (Listener.walkList search getTable context).hasSemanticErrors = false ∧
      (Listener.walkList search getTable context).mainTable = some ⟨t, columns⟩ ∧
      ∀ r ∈ rs,
        (Listener.walkList search getTable context).wherePredicate
            ⟨(Listener.walkList search getTable context).invokePredicate fuel,
              (Listener.walkList search getTable context).getColumnValue⟩ r =
          some (context.whereExpr.elim true fun e => e.eval fun f =>
            computes search (cacheOf context) f (columnText columns r f.column)) ∧
        ∀ x ∈ nodesOf context,
          (Listener.walkList search getTable context).invokePredicate fuel x.1 r =
            some (computes search (cacheOf context) x.2 (columnText columns r x.2.column)) := by
  obtain ⟨tablename, whereExpr⟩ := context
  cases whereExpr with
  | none =>
      simp [Listener.walkList, Listener.enterList, htable, Listener.hasSemanticErrors, nodesOf]
  | some e =>
      generalize hentered : (Listener.enterList {} getTable tablename).enterWhere
        Listener.whereNode = l
      have hl : l = { mainTable := some ⟨t, columns⟩, wherePredicate := fun this row =>
          this.invokePredicate Listener.whereNode row } := by
        rw [← hentered, Listener.enterList, htable]
        rfl
      have hstart : Sanitizes l := by
        intro value result hresult
        rw [hl] at hresult
        cases hresult
      have hvalid : Valid l.mainTable e.filters := ⟨⟨t, columns⟩, by rw [hl], hcolumns⟩
      have hwalked : Walked search l (Listener.walkExpr search Listener.whereNode e l)
          Listener.whereNode e := walkExpr_spec hstart Listener.whereNode e hvalid
      have hwalk : Listener.walkList search getTable ⟨tablename, some e⟩ =
          Listener.walkExpr search Listener.whereNode e l := by
        rw [← hentered]
        rfl
      rw [hwalk]
      generalize Listener.walkExpr search Listener.whereNode e l = l' at hwalked ⊢
      have hcache : l'.regexCache = cacheOf ⟨tablename, some e⟩ := by
        rw [hwalked.regexCache, hl]
        rfl
      have htable' : l'.mainTable = some ⟨t, columns⟩ := by rw [hwalked.mainTable, hl]
      have hcompiled := hwalked.compiled
      rw [hcache] at hcompiled
      refine ⟨?_, htable', fun r hr => ?_⟩
      · rw [Listener.hasSemanticErrors, hwalked.semanticErrors, hl]
        rfl
      · have hvalue : ∀ f ∈ e.filters,
            l'.getColumnValue r f.column = some (columnText columns r f.column) :=
          fun f hf => getColumnValue_eq hcore htable' hr (hcolumns f hf)
        constructor
        · rw [hwalked.wherePredicate, hl]
          exact invokePredicate_expr hcompiled hvalue hfuel
        · rintro ⟨node, f⟩ hnode
          have hpositive : 0 < fuel := lt_of_lt_of_le (ExprContext.depth_pos e) hfuel
          obtain ⟨fuel, rfl⟩ := Nat.exists_eq_succ_of_ne_zero hpositive.ne'
          exact invokePredicate_filter (hcompiled.node hnode)
            (hvalue f (mem_filters_of_node hnode)) fuel

variable (search) in
/-- The regex that a regex filter searches with. -/
theorem computes_cacheOf {f : FilterContext} (hf : f ∈ filtersOf context) (hoper : f.oper = .REGEX)
    (value : Bytes) :
    ∃ g, firstOf (filtersOf context) f.pattern = some g ∧
      computes search (cacheOf context) f value =
        search f.pattern g.isCaseInsensitive value := by
  obtain ⟨g, hg⟩ := Option.isSome_iff_exists.mp (firstOf_isSome hf hoper)
  have hpattern : g.pattern = f.pattern := by
    have hfound := List.find?_some hg
    simp only [decide_eq_true_iff] at hfound
    exact hfound.2
  have hcache : cacheOf context f.pattern = some (regex g) := by
    rw [cacheOf, foldl_remember, hg]
    rfl
  refine ⟨g, hg, ?_⟩
  rw [computes_regex hoper hcache, regex, hpattern]

theorem exists_nodeOf {f : FilterContext} (hf : f ∈ filtersOf context) :
    ∃ node, (node, f) ∈ nodesOf context := by
  obtain ⟨tablename, whereExpr⟩ := context
  cases whereExpr with
  | none => cases hf
  | some e => exact exists_node Listener.whereNode hf

theorem mem_filtersOf {x : NodeId × FilterContext} (hx : x ∈ nodesOf context) :
    x.2 ∈ filtersOf context := by
  obtain ⟨tablename, whereExpr⟩ := context
  cases whereExpr with
  | none => cases hx
  | some e => exact mem_filters_of_node hx

/-- Each filter computes its own meaning exactly when the flags agree. -/
theorem computes_iff :
    (∀ f ∈ filtersOf context, ∀ r ∈ rs, r.isDeleted = false →
      computes search (cacheOf context) f (columnText columns r f.column) =
        f.means search (columnText columns r f.column)) ↔
      FlagsAgree search columns rs context := by
  constructor
  · intro h f hf hoper g hg r hr hdeleted
    obtain ⟨g', hg', hcomputes⟩ := computes_cacheOf search hf hoper
      (columnText columns r f.column)
    obtain rfl := Option.some.inj (hg.symm.trans hg')
    rw [← hcomputes, h f hf r hr hdeleted, FilterContext.means, hoper]
  · intro h f hf r hr hdeleted
    by_cases hoper : f.oper = .REGEX
    · obtain ⟨g, hg, hcomputes⟩ := computes_cacheOf search hf hoper
        (columnText columns r f.column)
      rw [hcomputes, h f hf hoper g hg r hr hdeleted, FilterContext.means, hoper]
    · exact computes_other hoper _

theorem eval_congr {e : ExprContext} {p q : FilterContext → Bool}
    (h : ∀ f ∈ e.filters, p f = q f) : e.eval p = e.eval q := by
  induction e with
  | filter f => exact h f (List.mem_singleton_self f)
  | logical left oper right ihleft ihright =>
      have hleft := ihleft fun f hf => h f (List.mem_append_left _ hf)
      have hright := ihright fun f hf => h f (List.mem_append_right _ hf)
      cases oper <;> simp only [ExprContext.eval, hleft, hright]

variable (search) in
/-- The rows listed are those for which the filters compute so, unless there are a
multiple of `2 ^ 32` rows. -/
theorem walk_computes (hcore : Core L t rs) (hardwareThreads : ℕ)
    (htable : getTable context.tablename = some ⟨t, columns⟩)
    (hcolumns : ∀ f ∈ filtersOf context, (columns f.column).isSome)
    (hfuel : context.whereExpr.elim 0 ExprContext.depth ≤ fuel) :
    Listener.walk search getTable hardwareThreads fuel (.list context) =
      some (.rows (if rs.length ≠ 0 ∧ 2 ^ 32 ∣ rs.length then []
        else rs.filter fun r => !r.isDeleted && context.whereExpr.elim true fun e =>
          e.eval fun f =>
            computes search (cacheOf context) f (columnText columns r f.column))) := by
  obtain ⟨herrors, hmain, hrows⟩ := walkList_spec search hcore htable hcolumns hfuel
  have hlist := list_eq hcore hardwareThreads fun r hr _ => (hrows r hr).1
  rw [Listener.walk, Listener.exitList, herrors, hmain]
  simp only [Bool.false_eq_true, if_false, Option.bind_eq_bind, Option.bind_some, hlist]

theorem filter_computes (hagree : FlagsAgree search columns rs context) :
    (rs.filter fun r => !r.isDeleted && context.whereExpr.elim true fun e =>
      e.eval fun f => computes search (cacheOf context) f (columnText columns r f.column)) =
      answer search columns rs context := by
  apply List.filter_congr
  intro r hr
  cases hdeleted : r.isDeleted with
  | true => rfl
  | false =>
      cases hwhere : context.whereExpr with
      | none => rfl
      | some e =>
          refine congrArg _ (eval_congr fun f hf => ?_)
          refine computes_iff.mpr hagree f ?_ r hr hdeleted
          rw [filtersOf, hwhere]
          exact hf

/-- For every table, every `list` statement with a valid table and valid columns and
every search function: the listing is compositional exactly when no regex filter is
decided by the flag of another one, and the rows fit. -/
theorem compositional_iff (hcore : Core L t rs) (hardwareThreads : ℕ)
    (htable : getTable context.tablename = some ⟨t, columns⟩)
    (hcolumns : ∀ f ∈ filtersOf context, (columns f.column).isSome)
    (hfuel : context.whereExpr.elim 0 ExprContext.depth ≤ fuel) :
    Compositional search columns rs context getTable hardwareThreads fuel ↔
      FlagsAgree search columns rs context ∧ RowsFit search columns rs context := by
  obtain ⟨-, -, hrows⟩ := walkList_spec search hcore htable hcolumns hfuel
  have hfilters : (∀ x ∈ nodesOf context, ∀ r ∈ rs, r.isDeleted = false →
      (Listener.walkList search getTable context).invokePredicate fuel x.1 r =
        some (x.2.means search (columnText columns r x.2.column))) ↔
      FlagsAgree search columns rs context := by
    rw [← computes_iff]
    constructor
    · intro h f hf r hr hdeleted
      obtain ⟨node, hnode⟩ := exists_nodeOf hf
      have hmeans := h (node, f) hnode r hr hdeleted
      rw [(hrows r hr).2 (node, f) hnode] at hmeans
      exact Option.some.inj hmeans
    · intro h x hx r hr hdeleted
      rw [(hrows r hr).2 x hx, h x.2 (mem_filtersOf hx) r hr hdeleted]
  have hlisted (hagree : FlagsAgree search columns rs context) :
      Listener.walk search getTable hardwareThreads fuel (.list context) =
        some (.rows (answer search columns rs context)) ↔ RowsFit search columns rs context := by
    rw [walk_computes search hcore hardwareThreads htable hcolumns hfuel, filter_computes hagree]
    simp only [Option.some.injEq, Shown.rows.injEq, RowsFit]
    split_ifs with hmultiple
    · exact ⟨fun h _ => h.symm, fun h => (h hmultiple.2).symm⟩
    · refine iff_of_true rfl fun hdvd => ?_
      have hempty : rs = [] := by
        by_contra hne
        exact hmultiple ⟨fun h => hne (List.length_eq_zero_iff.mp h), hdvd⟩
      rw [answer, hempty]
      rfl
  constructor
  · intro h
    have hagree := hfilters.mp h.filters
    exact ⟨hagree, (hlisted hagree).mp h.listed⟩
  · rintro ⟨hagree, hfit⟩
    exact ⟨(hlisted hagree).mpr hfit, hfilters.mpr hagree⟩

end Answers

/-- `regex_search` for patterns without special characters. -/
def literalSearch (pattern : Bytes) (icase : Bool) (text : Bytes) : Bool :=
  let fold := fun b : UInt8 => if icase ∧ 65 ≤ b ∧ b ≤ 90 then b + 32 else b
  decide (pattern.map fold <:+: text.map fold)

def samplePool : StringPool.Pool where
  isDirty := true
  pool := ascii "A.jar" ++ [0]
  hash := AList.singleton (ascii "A.jar") 0
  size := 10

def sampleRow : Row DomainTables.FileCols := ⟨0, 0, {}⟩

/-- The table `files` with the one file `A.jar`. -/
def sampleTable : Table DomainTables.FileCols where
  heap := AList.singleton 1 sampleRow
  rows := AList.singleton (ascii "A.jar") 1
  autoIncrementIndex := [1]
  isDirty := true
  dirtyRows := AList.singleton 0 .isNew
  schema := DomainTables.Files.format.schema

theorem core_sampleTable : Core (DomainTables.Files.layout samplePool) sampleTable [sampleRow] :=
  core_singleton (DomainTables.Files.layout samplePool) rfl _ _ _ _

def sampleColumns (name : Bytes) : Option (Row DomainTables.FileCols → Bytes) :=
  if name = ascii "filename" then some fun r => DomainTables.text samplePool r.cols.filename
  else none

def sampleTables (name : Bytes) : Option (MainTable DomainTables.FileCols) :=
  if name = ascii "files" then some ⟨sampleTable, sampleColumns⟩ else none

def regexFilter (literal : String) : ExprContext :=
  .filter ⟨ascii "filename", .REGEX, ascii literal⟩

/-- `list files where (filename *^* 'JAR/i' or filename *^* 'b')`. -/
def samplePatterns : ListContext :=
  ⟨ascii "files", some (.logical (regexFilter "'JAR/i'") .OR (regexFilter "'b'"))⟩

theorem compositional_two_patterns :
    Compositional literalSearch sampleColumns [sampleRow] samplePatterns sampleTables 8 3 := by
  refine (compositional_iff core_sampleTable 8 rfl (by decide) (by decide)).mpr ⟨?_, ?_⟩
  · intro f hf _ g hg r _ _
    have hfirst : ∀ f ∈ filtersOf samplePatterns,
        firstOf (filtersOf samplePatterns) f.pattern = some f := by decide
    rw [hfirst f hf] at hg
    obtain rfl := Option.some.inj hg
    rfl
  · intro hdvd
    exact absurd hdvd (by decide)

/-- `list files where (filename *^* 'JAR' or filename *^* 'JAR/i')`. -/
def sampleClash : ListContext :=
  ⟨ascii "files", some (.logical (regexFilter "'JAR'") .OR (regexFilter "'JAR/i'"))⟩

theorem clash_not_listed :
    Core (DomainTables.Files.layout samplePool) sampleTable [sampleRow] ∧
      sampleTables sampleClash.tablename = some ⟨sampleTable, sampleColumns⟩ ∧
      (∀ f ∈ filtersOf sampleClash, (sampleColumns f.column).isSome) ∧
      ∀ fuel ≥ 3, Listener.walk literalSearch sampleTables 8 fuel (.list sampleClash) ≠
        some (.rows (answer literalSearch sampleColumns [sampleRow] sampleClash)) := by
  refine ⟨core_sampleTable, rfl, by decide, fun fuel hfuel hlisted => ?_⟩
  rw [walk_computes literalSearch core_sampleTable 8 rfl (by decide) hfuel] at hlisted
  exact absurd (Shown.rows.inj (Option.some.inj hlisted)) (by decide)

end Tarracsh.QuerySemantics
