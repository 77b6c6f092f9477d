import Tarracsh.CallGraphInvariant
import Tarracsh.SafeConsumption

/-!
# The nodes of a class over several analyses

All rows of a class have the same strong name, so the nodes that one analysis
records meet those of the earlier ones under their names. `Entries` lists what
a node table holds: the owner of each live row and its texts.
-/
namespace Tarracsh.NodeHistory
open ByteStrings StringPool KeyedUpdates TableModel TableInvariant DomainTables CallGraphTables
open CallGraphInvariant SafeConsumption

/-- An owner with the texts of a node. -/
abbrev Entry := ℕ × List Bytes

/-- The key of an entry. -/
def Entry.name (i : NodeTable) (x : Entry) : Bytes := i.nameOf x.2

/-- What a row says. -/
def entryOf (db : CallGraphDb) (i : NodeTable) (r : Row (NodeCols i)) : Entry :=
  ((i.ownerClass r.cols).toNat, db.label i r.cols)

/-- The node table holds live rows of the given owners, with the given
entries. -/
structure Entries (db : CallGraphDb) (owners : ℕ → Prop) (i : NodeTable) (entries : List Entry)
    (rs : List (Row (NodeCols i))) : Prop where
  core : Core (db.layout i) (db.nodes i) rs
  filed : Filed (db.layout i) (db.nodes i) rs
  owned : ∀ r ∈ rs, r.flags = 0 ∧ ∃ o, owners o ∧ i.ownerClass r.cols = UInt64.ofNat o
  readable : ∀ r ∈ rs, Readable db.pool i r.cols
  mem_iff : ∀ x, x ∈ rs.map (entryOf db i) ↔ x ∈ entries

/-- The database after some analyses of the class with the strong name. -/
structure History (words : List Bytes) (strong : Bytes) (owners : ℕ → Prop) (db : CallGraphDb)
    (entries : NodeTable → List Entry) : Prop where
  pooled : Pooled words db.pool
  owner : ∀ o, owners o → Owner db o ∧ db.getStrongClassname o = strong
  nodes : ∀ i, ∃ rs, Entries db owners i (entries i) rs

section Growth
variable {words : List Bytes} {strong : Bytes} {owners : ℕ → Prop} {db : CallGraphDb}
  {entries : NodeTable → List Entry}

/-- The key of a node is its name behind the strong name of the class. -/
theorem History.getKey_eq (h : History words strong owners db entries) {i : NodeTable}
    {r : NodeCols i} {o : ℕ} (ho : owners o) (hr : i.ownerClass r = UInt64.ofNat o) :
    db.getKey i r = strong ++ ascii "#" ++ i.nameOf (db.label i r) := by
  obtain ⟨howner, hstrong⟩ := h.owner o ho
  rw [getKey_of_owned howner.1 hr, hstrong]

/-- Classes, files and pool may change as long as the owners keep their strong
name. -/
theorem Entries.of_eq {db' : CallGraphDb} {i : NodeTable} {list : List Entry}
    {rs : List (Row (NodeCols i))} (h : Entries db owners i list rs)
    {owners' : ℕ → Prop} (howners : ∀ o, owners o → owners' o)
    (hnodes : db'.nodes i = db.nodes i)
    (hgrows : Grows db.pool db'.pool)
    (hkeys : ∀ r ∈ rs, db'.getKey i r.cols = db.getKey i r.cols) :
    Entries db' owners' i list rs := by
  have hlabels : ∀ r ∈ rs, db'.label i r.cols = db.label i r.cols := by
    intro r hr
    apply List.map_congr_left
    intro s hs
    exact hgrows.text (h.readable r hr s hs)
  constructor
  · rw [hnodes]
    exact h.core.rekey _
  · rw [hnodes]
    exact h.filed.rekey hkeys
  · intro r hr
    obtain ⟨hflags, o, ho, hro⟩ := h.owned r hr
    exact ⟨hflags, o, howners o ho, hro⟩
  · intro r hr s hs
    exact hgrows.isSome (h.readable r hr s hs)
  · intro x
    have hmap : rs.map (entryOf db' i) = rs.map (entryOf db i) := by
      apply List.map_congr_left
      intro r hr
      rw [entryOf, entryOf, hlabels r hr]
    rw [hmap, h.mem_iff]

/-- Classes and files change, and the pool grows. -/
theorem History.of_eq {db' : CallGraphDb} (h : History words strong owners db entries)
    {owners' : ℕ → Prop} (howners : ∀ o, owners o → owners' o) (hpooled : Pooled words db'.pool)
    (hgrows : Grows db.pool db'.pool) (hnodes : db'.nodes = db.nodes)
    (howner : ∀ o, owners' o → Owner db' o ∧ db'.getStrongClassname o = strong) :
    History words strong owners' db' entries where
  pooled := hpooled
  owner := howner
  nodes i := by
    obtain ⟨rs, hrs⟩ := h.nodes i
    refine ⟨rs, hrs.of_eq howners (by rw [hnodes]) hgrows ?_⟩
    intro r hr
    obtain ⟨-, o, ho, hro⟩ := hrs.owned r hr
    obtain ⟨howner', hstrong'⟩ := howner o (howners o ho)
    rw [h.getKey_eq ho hro, getKey_of_owned howner'.1 hro, hstrong']
    congr 2
    apply List.map_congr_left
    intro s hs
    exact hgrows.text (hrs.readable r hr s hs)

theorem History.getPoolString (hw : Lexicon words) (h : History words strong owners db entries)
    {s : Bytes} (hs : s ∈ words) :
    ∃ pool col, db.getPoolString s = some ({ db with pool := pool }, col) ∧
      History words strong owners { db with pool := pool } entries ∧ Grows db.pool pool ∧
      pool.getCString col.toNat = some s := by
  obtain ⟨pool, col, hcol, hpooled, hgrows, hread⟩ := getPoolString_spec hw h.pooled hs
  refine ⟨pool, col, hcol db rfl, ?_, hgrows, hread⟩
  refine h.of_eq (fun _ ho => ho) hpooled hgrows rfl fun o ho => ?_
  obtain ⟨howner, hstrong⟩ := h.owner o ho
  exact ⟨howner.grows hgrows, (howner.getStrongClassname_grows hgrows).trans hstrong⟩

end Growth

section Recording
variable (A : ∀ α : Type, Allocator α) {words : List Bytes} {strong : Bytes} {owners : ℕ → Prop}
  {db : CallGraphDb} {entries : NodeTable → List Entry}

/-- A recorded node takes the place of the one with its name. -/
theorem History.record (h : History words strong owners db entries) {i : NodeTable}
    {cols : NodeCols i} {o : ℕ} (ho : owners o) (howned : i.ownerClass cols = UInt64.ofNat o)
    (hreadable : Readable db.pool i cols) :
    ∃ nodes, db.record A i cols = some { db with nodes := nodes } ∧
      History words strong owners { db with nodes := nodes }
        (Function.update entries i
          (replace (Entry.name i) (entries i) (o, db.label i cols))) := by
  obtain ⟨rs, hrs⟩ := h.nodes i
  obtain ⟨t, readId, id, m, rs', ht, heffect, -, hmem⟩ :=
    addOrUpdate_mem (A _) hrs.core hrs.filed (CallGraphDb.newRow cols)
  have hentry : (((i.ownerClass cols).toNat, db.label i cols) : Entry) = (o, db.label i cols) := by
    rw [howned, UInt64.toNat_ofNat', Nat.mod_eq_of_lt (h.owner o ho).1.1]
  have hkey : ∀ s ∈ rs, ((db.layout i).getKey s.cols ≠ (db.layout i).getKey cols ↔
      Entry.name i (entryOf db i s) ≠ Entry.name i (o, db.label i cols)) := by
    intro s hs
    obtain ⟨-, o', ho', hso⟩ := hrs.owned s hs
    change db.getKey i s.cols ≠ db.getKey i cols ↔ _
    rw [h.getKey_eq ho' hso, h.getKey_eq ho howned, Ne, List.append_cancel_left_eq]
    rfl
  refine ⟨Function.update db.nodes i t, ?_, h.pooled, h.owner, fun j => ?_⟩
  · simp only [CallGraphDb.record, ht, Option.bind_eq_bind, Option.bind_some]
  by_cases hji : j = i
  · subst hji
    rw [Function.update_self]
    refine ⟨rs', ?_, ?_, ?_, ?_, ?_⟩
    · rw [layout_nodes]
      change Core _ (Function.update db.nodes j t j) rs'
      rw [Function.update_self]
      exact heffect.core
    · rw [layout_nodes]
      change Filed _ (Function.update db.nodes j t j) rs'
      rw [Function.update_self]
      exact heffect.filed hrs.filed
    · intro s hs
      rcases (hmem s).mp hs with rfl | ⟨hs, -⟩
      · exact ⟨rfl, o, ho, howned⟩
      · exact hrs.owned s hs
    · intro s hs
      rcases (hmem s).mp hs with rfl | ⟨hs, -⟩
      · exact hreadable
      · exact hrs.readable s hs
    · intro x
      rw [mem_replace, List.mem_map]
      constructor
      · rintro ⟨s, hs, rfl⟩
        rcases (hmem s).mp hs with rfl | ⟨hs, hne⟩
        · exact .inl hentry
        · exact .inr ⟨(hrs.mem_iff _).mp (List.mem_map_of_mem hs), (hkey s hs).mp hne⟩
      · rintro (rfl | ⟨hx, hne⟩)
        · exact ⟨_, (hmem _).mpr (.inl rfl), hentry⟩
        · obtain ⟨s, hs, rfl⟩ := List.mem_map.mp ((hrs.mem_iff x).mpr hx)
          exact ⟨s, (hmem s).mpr (.inr ⟨hs, (hkey s hs).mpr hne⟩), rfl⟩
  · rw [Function.update_of_ne hji]
    obtain ⟨rs, hrs⟩ := h.nodes j
    refine ⟨rs, hrs.of_eq (fun _ ho => ho) (Function.update_of_ne hji _ _) (fun _ _ hs => hs) ?_⟩
    intro r _
    have hlayout := @layout_nodes db (Function.update db.nodes i t) j
    exact congrArg (fun L : Layout (NodeCols j) => L.getKey r.cols) hlayout

end Recording

section Texts

/-- The table that a node goes to. -/
def tableOf : NodeTexts → NodeTable
  | .method .. => .methods
  | .field .. => .fields
  | .classRef .. => .classRefs
  | .methodRef .. => .methodRefs
  | .fieldRef .. => .fieldRefs

/-- Its texts in the order of `texts`. -/
def labelOf : NodeTexts → List Bytes
  | .method name descriptor => [name, descriptor]
  | .field name descriptor => [name, descriptor]
  | .classRef name => [name]
  | .methodRef classname name descriptor => [classname, name, descriptor]
  | .fieldRef classname name descriptor => [classname, name, descriptor]

/-- The entries that the nodes of one analysis make for a table. -/
def entriesFor (o : ℕ) (i : NodeTable) (ts : List NodeTexts) : List Entry :=
  (ts.filter fun t => tableOf t = i).map fun t => (o, labelOf t)

variable (A : ∀ α : Type, Allocator α) {words : List Bytes} {strong : Bytes} {owners : ℕ → Prop}
  {db : CallGraphDb} {entries : NodeTable → List Entry}

/-- A row with interned texts is recorded. -/
theorem History.record_interned (h : History words strong owners db entries) {i : NodeTable}
    (cols : NodeCols i) (label : List Bytes) {o : ℕ} (ho : owners o)
    (howned : i.ownerClass cols = UInt64.ofNat o)
    (hlabel : (i.texts cols).map (fun s => db.pool.getCString s.toNat) = label.map some) :
    ∃ nodes, db.record A i cols = some { db with nodes := nodes } ∧
      History words strong owners { db with nodes := nodes }
        (Function.update entries i (replace (Entry.name i) (entries i) (o, label))) := by
  have hreadable : Readable db.pool i cols := by
    intro s hs
    have hmem : db.pool.getCString s.toNat ∈ label.map some := by
      rw [← hlabel]
      exact List.mem_map_of_mem hs
    obtain ⟨value, -, hvalue⟩ := List.mem_map.mp hmem
    rw [← hvalue]
    rfl
  have htexts : db.label i cols = label := by
    have := congrArg (List.map fun x : Option Bytes => x.getD []) hlabel
    rw [List.map_map, List.map_map] at this
    exact this.trans (List.map_id label)
  obtain ⟨nodes, hrecord, hhistory⟩ := h.record A ho howned hreadable
  rw [htexts] at hhistory
  exact ⟨nodes, hrecord, hhistory⟩

theorem History.intern_two (hw : Lexicon words) (h : History words strong owners db entries)
    {a b : Bytes} (ha : a ∈ words) (hb : b ∈ words) :
    ∃ pool₁ pool₂ x y, db.getPoolString a = some ({ db with pool := pool₁ }, x) ∧
      CallGraphDb.getPoolString { db with pool := pool₁ } b =
        some ({ db with pool := pool₂ }, y) ∧
      History words strong owners { db with pool := pool₂ } entries ∧ Grows db.pool pool₂ ∧
      pool₂.getCString x.toNat = some a ∧ pool₂.getCString y.toNat = some b := by
  obtain ⟨pool₁, x, hx, h₁, hgrows₁, hread₁⟩ := h.getPoolString hw ha
  obtain ⟨pool₂, y, hy, h₂, hgrows₂, hread₂⟩ := h₁.getPoolString hw hb
  exact ⟨pool₁, pool₂, x, y, hx, hy, h₂, fun _ _ hs => hgrows₂ _ _ (hgrows₁ _ _ hs),
    hgrows₂ _ _ hread₁, hread₂⟩

theorem History.intern_three (hw : Lexicon words) (h : History words strong owners db entries)
    {a b c : Bytes} (ha : a ∈ words) (hb : b ∈ words) (hc : c ∈ words) :
    ∃ pool₁ pool₂ pool₃ x y z, db.getPoolString a = some ({ db with pool := pool₁ }, x) ∧
      CallGraphDb.getPoolString { db with pool := pool₁ } b =
        some ({ db with pool := pool₂ }, y) ∧
      CallGraphDb.getPoolString { db with pool := pool₂ } c =
        some ({ db with pool := pool₃ }, z) ∧
      History words strong owners { db with pool := pool₃ } entries ∧ Grows db.pool pool₃ ∧
      pool₃.getCString x.toNat = some a ∧ pool₃.getCString y.toNat = some b ∧
      pool₃.getCString z.toNat = some c := by
  obtain ⟨pool₁, x, hx, h₁, hgrows₁, hread₁⟩ := h.getPoolString hw ha
  obtain ⟨pool₂, pool₃, y, z, hy, hz, h₃, hgrows, hread₂, hread₃⟩ := h₁.intern_two hw hb hc
  exact ⟨pool₁, pool₂, pool₃, x, y, z, hx, hy, hz, h₃, fun _ _ hs => hgrows _ _ (hgrows₁ _ _ hs),
    hgrows _ _ hread₁, hread₂, hread₃⟩

/-- Recording one node. -/
theorem History.recordTexts (hw : Lexicon words) (h : History words strong owners db entries)
    {o : ℕ} (ho : owners o) {t : NodeTexts} (ht : ∀ s ∈ labelOf t, s ∈ words) :
    ∃ pool nodes, t.record A o db = some { db with pool := pool, nodes := nodes } ∧
      Grows db.pool pool ∧ History words strong owners { db with pool := pool, nodes := nodes }
        (Function.update entries (tableOf t)
          (replace (Entry.name (tableOf t)) (entries (tableOf t)) (o, labelOf t))) := by
  cases t with
  | method name descriptor =>
      simp only [labelOf, List.mem_cons, List.not_mem_nil, or_false, forall_eq_or_imp,
        forall_eq] at ht
      obtain ⟨pool₁, pool₂, x, y, hx, hy, h₂, hgrows, hreadx, hready⟩ := h.intern_two hw ht.1 ht.2
      obtain ⟨nodes, hrecord, h₃⟩ := h₂.record_interned A (i := .methods)
        { ownerClass := UInt64.ofNat o, name := x, descriptor := y } [name, descriptor] ho
        rfl (by simp [NodeTable.texts, hreadx, hready])
      refine ⟨pool₂, nodes, ?_, hgrows, h₃⟩
      simp only [NodeTexts.record, hx, hy, hrecord, Option.bind_eq_bind, Option.bind_some]
  | field name descriptor =>
      simp only [labelOf, List.mem_cons, List.not_mem_nil, or_false, forall_eq_or_imp,
        forall_eq] at ht
      obtain ⟨pool₁, pool₂, x, y, hx, hy, h₂, hgrows, hreadx, hready⟩ := h.intern_two hw ht.1 ht.2
      obtain ⟨nodes, hrecord, h₃⟩ := h₂.record_interned A (i := .fields)
        { ownerClass := UInt64.ofNat o, name := x, descriptor := y } [name, descriptor] ho
        rfl (by simp [NodeTable.texts, hreadx, hready])
      refine ⟨pool₂, nodes, ?_, hgrows, h₃⟩
      simp only [NodeTexts.record, hx, hy, hrecord, Option.bind_eq_bind, Option.bind_some]
  | classRef name =>
      obtain ⟨pool, x, hx, h₁, hgrows, hreadx⟩ := h.getPoolString hw (ht name (by simp [labelOf]))
      obtain ⟨nodes, hrecord, h₂⟩ := h₁.record_interned A (i := .classRefs)
        { ownerClass := UInt64.ofNat o, name := x } [name] ho rfl
        (by simp [NodeTable.texts, hreadx])
      refine ⟨pool, nodes, ?_, hgrows, h₂⟩
      simp only [NodeTexts.record, hx, hrecord, Option.bind_eq_bind, Option.bind_some]
  | methodRef classname name descriptor =>
      simp only [labelOf, List.mem_cons, List.not_mem_nil, or_false, forall_eq_or_imp,
        forall_eq] at ht
      obtain ⟨pool₁, pool₂, pool₃, x, y, z, hx, hy, hz, h₃, hgrows, hreadx, hready, hreadz⟩ :=
        h.intern_three hw ht.1 ht.2.1 ht.2.2
      obtain ⟨nodes, hrecord, h₄⟩ := h₃.record_interned A (i := .methodRefs)
        { ownerClass := UInt64.ofNat o, classname := x, name := y, descriptor := z }
        [classname, name, descriptor] ho rfl (by simp [NodeTable.texts, hreadx, hready, hreadz])
      refine ⟨pool₃, nodes, ?_, hgrows, h₄⟩
      simp only [NodeTexts.record, hx, hy, hz, hrecord, Option.bind_eq_bind, Option.bind_some]
  | fieldRef classname name descriptor =>
      simp only [labelOf, List.mem_cons, List.not_mem_nil, or_false, forall_eq_or_imp,
        forall_eq] at ht
      obtain ⟨pool₁, pool₂, pool₃, x, y, z, hx, hy, hz, h₃, hgrows, hreadx, hready, hreadz⟩ :=
        h.intern_three hw ht.1 ht.2.1 ht.2.2
      obtain ⟨nodes, hrecord, h₄⟩ := h₃.record_interned A (i := .fieldRefs)
        { ownerClass := UInt64.ofNat o, classname := x, name := y, descriptor := z }
        [classname, name, descriptor] ho rfl (by simp [NodeTable.texts, hreadx, hready, hreadz])
      refine ⟨pool₃, nodes, ?_, hgrows, h₄⟩
      simp only [NodeTexts.record, hx, hy, hz, hrecord, Option.bind_eq_bind, Option.bind_some]

/-- Recording the nodes of a class. -/
theorem History.recordAll (hw : Lexicon words) (h : History words strong owners db entries)
    {o : ℕ} (ho : owners o) {ts : List NodeTexts} (hts : ∀ t ∈ ts, ∀ s ∈ labelOf t, s ∈ words) :
    ∃ pool nodes, ts.foldlM (fun db t => t.record A o db) db =
        some { db with pool := pool, nodes := nodes } ∧
      Grows db.pool pool ∧ History words strong owners { db with pool := pool, nodes := nodes }
        (fun i => replaceAll (Entry.name i) (entries i) (entriesFor o i ts)) := by
  induction ts generalizing db entries with
  | nil => exact ⟨db.pool, db.nodes, rfl, fun _ _ hs => hs, h⟩
  | cons t ts ih =>
      obtain ⟨pool₁, nodes₁, hrecord, hgrows₁, h₁⟩ := h.recordTexts A hw ho (hts t (by simp))
      obtain ⟨pool₂, nodes₂, hrest, hgrows₂, h₂⟩ := ih h₁ fun t' ht' => hts t' (by simp [ht'])
      refine ⟨pool₂, nodes₂, ?_, fun _ _ hs => hgrows₂ _ _ (hgrows₁ _ _ hs), ?_⟩
      · rw [List.foldlM_cons, hrecord]
        exact hrest
      · refine cast (congrArg _ (funext fun i => ?_)) h₂
        by_cases hi : tableOf t = i
        · subst hi
          simp [entriesFor, replaceAll]
        · simp [entriesFor, replaceAll, Function.update_of_ne (Ne.symm hi), hi]

end Texts

end Tarracsh.NodeHistory
