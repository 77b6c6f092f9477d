import Tarracsh.CallGraphTables
import Tarracsh.KeyedUpdates
import Tarracsh.TableInvariant

/-!
# The nodes of one class in the call-graph database

All strings come from a vocabulary that is small enough for 64-bit offsets.
Interning one of them leaves every text that was readable as it was, so the
keys of the stored rows do not change. A recorded node then updates the rows
of its table under the name of the node.
-/
namespace Tarracsh.CallGraphInvariant
open ByteStrings TerminatedStrings StringPool KeyedUpdates TableModel TableInvariant DomainTables
open CallGraphTables

/-- What the callers promise about a string. -/
def Interned (s : Bytes) : Prop := 0 ∉ s ∧ s.length ≤ 65535

instance (s : Bytes) : Decidable (Interned s) := inferInstanceAs (Decidable (_ ∧ _))

structure Vocabulary (words : List Bytes) : Prop where
  interned : ∀ s ∈ words, Interned s
  count : words.length < 2 ^ 32

/-- Words that one pool with 64-bit offsets can hold. -/
structure Lexicon (words : List Bytes) : Prop where
  interned : ∀ s ∈ words, Interned s
  fits : (terminated 0 words).length < 2 ^ 64

/-- The pool holds words of the vocabulary only. -/
def Pooled (words : List Bytes) (pool : Pool) : Prop :=
  ∃ strings, Holds strings pool ∧ strings ⊆ words

/-- Every readable text stays. -/
def Grows (pool pool' : Pool) : Prop :=
  ∀ offset s, pool.getCString offset = some s → pool'.getCString offset = some s

theorem Grows.text {pool pool' : Pool} (h : Grows pool pool') {s : StringCol}
    (hs : (pool.getCString s.toNat).isSome) : text pool' s = text pool s := by
  obtain ⟨value, hvalue⟩ := Option.isSome_iff_exists.mp hs
  rw [DomainTables.text, DomainTables.text, hvalue, h _ _ hvalue]

theorem Grows.isSome {pool pool' : Pool} (h : Grows pool pool') {s : StringCol}
    (hs : (pool.getCString s.toNat).isSome) : (pool'.getCString s.toNat).isSome := by
  obtain ⟨value, hvalue⟩ := Option.isSome_iff_exists.mp hs
  rw [h _ _ hvalue]
  rfl

section Interning
variable {words : List Bytes} {pool : Pool}

theorem terminated_length_le {strings : List Bytes} (h : ∀ s ∈ strings, s.length ≤ 65535) :
    (terminated 0 strings).length ≤ strings.length * 65536 := by
  induction strings with
  | nil => simp
  | cons s strings ih =>
      have hs := h s (by simp)
      have := ih fun t ht => h t (by simp [ht])
      simp only [terminated_cons, List.length_append, List.length_cons]
      omega

theorem Vocabulary.lexicon (h : Vocabulary words) : Lexicon words where
  interned := h.interned
  fits := by
    have hlength := terminated_length_le fun s hs => (h.interned s hs).2
    have := h.count
    omega

theorem terminated_length_eq (strings : List Bytes) :
    (terminated 0 strings).length = (strings.map fun s => s.length + 1).sum := by
  induction strings with
  | nil => rfl
  | cons s strings ih =>
      simp only [terminated_cons, List.length_append, List.length_cons, List.map_cons,
        List.sum_cons, ih]
      omega

/-- The offsets of a pool fit into a column. -/
theorem Pooled.length_lt (hw : Lexicon words) (h : Pooled words pool) :
    pool.pool.length < 2 ^ 64 := by
  obtain ⟨strings, hholds, hsub⟩ := h
  have hle : (terminated 0 strings).length ≤ (terminated 0 words).length := by
    obtain ⟨sub, hperm, hsublist⟩ := List.subperm_of_subset hholds.nodup hsub
    rw [terminated_length_eq, terminated_length_eq, ← (hperm.map _).sum_eq]
    exact (hsublist.map _).sum_le_sum fun _ _ => Nat.zero_le _
  have := hw.fits
  rw [hholds.pool_eq]
  omega

theorem Pooled.toNat_ofNat (hw : Lexicon words) (h : Pooled words pool) {offset : ℕ}
    {s : Bytes} (hs : pool.getCString offset = some s) : (UInt64.ofNat offset).toNat = offset := by
  have hlt := lt_length_of_cString hs
  have := h.length_lt hw
  rw [UInt64.toNat_ofNat', Nat.mod_eq_of_lt (by omega)]

theorem Pooled.internalAdd (hw : Lexicon words) (h : Pooled words pool) {s : Bytes}
    (hs : s ∈ words) :
    ∃ pool' offset, pool.internalAdd s = some (pool', offset) ∧ Pooled words pool' ∧
      Grows pool pool' ∧ pool'.getCString offset = some s := by
  obtain ⟨strings, hholds, hsub⟩ := h
  obtain ⟨hfree, hshort⟩ := hw.interned s hs
  cases hlookup : pool.hash.lookup s with
  | some offset =>
      refine ⟨pool, offset, ?_, ⟨strings, hholds, hsub⟩, fun _ _ h => h,
        hholds.getCString_of_lookup hlookup⟩
      rw [Pool.internalAdd, hlookup]
  | none =>
      have hconcat := hholds.concat hfree hshort hlookup
      refine ⟨_, _, hholds.internalAdd_new hfree hshort hlookup, ⟨_, hconcat, ?_⟩, ?_,
        hconcat.getCString_of_lookup (AList.lookup_insert _)⟩
      · apply List.append_subset.mpr
        exact ⟨hsub, by simpa using hs⟩
      · intro offset t ht
        exact cString_append_right ht _

theorem construct_pooled (hw : [] ∈ words) :
    ∃ pool, Pool.construct = some pool ∧ Pooled words pool := by
  obtain ⟨pool, hpool, -, hholds⟩ := construct_spec
  exact ⟨pool, hpool, [[]], hholds, by simpa using hw⟩

theorem getPoolString_spec (hw : Lexicon words) (h : Pooled words pool) {s : Bytes}
    (hs : s ∈ words) :
    ∃ pool' col, (∀ db : CallGraphDb, db.pool = pool →
        db.getPoolString s = some ({ db with pool := pool' }, col)) ∧
      Pooled words pool' ∧ Grows pool pool' ∧ pool'.getCString col.toNat = some s := by
  obtain ⟨pool', offset, hadd, hpooled, hgrows, hread⟩ := h.internalAdd hw hs
  refine ⟨pool', UInt64.ofNat offset, ?_, hpooled, hgrows, ?_⟩
  · intro db hdb
    simp [CallGraphDb.getPoolString, hdb, hadd]
  · rw [hpooled.toNat_ofNat hw hread, hread]

end Interning

/-- The row of the class and the row of its file, with readable names. -/
def Owner (db : CallGraphDb) (rowId : ℕ) : Prop :=
  rowId < 2 ^ 64 ∧ ∃ row fileRow, db.classfiles.getRow rowId = some row ∧
    db.files.getRow row.cols.file.toNat = some fileRow ∧
    (db.pool.getCString fileRow.cols.filename.toNat).isSome ∧
    (db.pool.getCString row.cols.classname.toNat).isSome

def Readable (pool : Pool) (i : NodeTable) (r : NodeCols i) : Prop :=
  ∀ s ∈ i.texts r, (pool.getCString s.toNat).isSome

/-- A node table represents the rows `rs`, which are live rows of the class
and what is left of `items` under their names. -/
structure Nodes (db : CallGraphDb) (rowId : ℕ) (i : NodeTable) (items : List (List Bytes))
    (rs : List (Row (NodeCols i))) : Prop where
  core : Core (db.layout i) (db.nodes i) rs
  filed : Filed (db.layout i) (db.nodes i) rs
  owned : ∀ r ∈ rs, r.flags = 0 ∧ i.ownerClass r.cols = UInt64.ofNat rowId
  readable : ∀ r ∈ rs, Readable db.pool i r.cols
  covers : Covers i.nameOf (rs.map fun r => db.label i r.cols) items

/-- The database while the nodes of one class are extracted. -/
structure Extracted (words : List Bytes) (rowId : ℕ) (db : CallGraphDb)
    (items : NodeTable → List (List Bytes)) : Prop where
  pooled : Pooled words db.pool
  owner : Owner db rowId
  nodes : ∀ i, ∃ rs, Nodes db rowId i (items i) rs

section Growth
variable {db : CallGraphDb} {rowId : ℕ} {pool : Pool}

theorem Owner.grows (h : Owner db rowId) (hgrows : Grows db.pool pool) :
    Owner { db with pool := pool } rowId := by
  obtain ⟨hlt, row, fileRow, hrow, hfile, hfilename, hclassname⟩ := h
  exact ⟨hlt, row, fileRow, hrow, hfile, hgrows.isSome hfilename, hgrows.isSome hclassname⟩

theorem Owner.getStrongClassname_grows (h : Owner db rowId) (hgrows : Grows db.pool pool) :
    CallGraphDb.getStrongClassname { db with pool := pool } rowId =
      db.getStrongClassname rowId := by
  obtain ⟨hlt, row, fileRow, hrow, hfile, hfilename, hclassname⟩ := h
  simp only [CallGraphDb.getStrongClassname, hrow, ClassFiles.getStrongClassname, hfile,
    hgrows.text hfilename, hgrows.text hclassname]

theorem label_grows (hgrows : Grows db.pool pool) {i : NodeTable} {r : NodeCols i}
    (hr : Readable db.pool i r) :
    CallGraphDb.label { db with pool := pool } i r = db.label i r := by
  apply List.map_congr_left
  intro s hs
  exact hgrows.text (hr s hs)

theorem Readable.grows (hgrows : Grows db.pool pool) {i : NodeTable} {r : NodeCols i}
    (hr : Readable db.pool i r) : Readable pool i r :=
  fun s hs => hgrows.isSome (hr s hs)

/-- The key of a node of the class joins two parts, of which only the name
differs from node to node. -/
theorem getKey_of_owned (hlt : rowId < 2 ^ 64) {i : NodeTable} {r : NodeCols i}
    (hr : i.ownerClass r = UInt64.ofNat rowId) :
    db.getKey i r = db.getStrongClassname rowId ++ ascii "#" ++
      i.nameOf (db.label i r) := by
  have htoNat : (UInt64.ofNat rowId).toNat = rowId := by
    rw [UInt64.toNat_ofNat', Nat.mod_eq_of_lt hlt]
  rw [CallGraphDb.getKey_eq, CallGraphDb.strongName, hr, htoNat, CallGraphDb.nameOf_label]

theorem getKey_eq_iff (hlt : rowId < 2 ^ 64) {i : NodeTable} {r s : NodeCols i}
    (hr : i.ownerClass r = UInt64.ofNat rowId) (hs : i.ownerClass s = UInt64.ofNat rowId) :
    db.getKey i r = db.getKey i s ↔
      i.nameOf (db.label i r) = i.nameOf (db.label i s) := by
  rw [getKey_of_owned hlt hr, getKey_of_owned hlt hs, List.append_cancel_left_eq]

/-- Interning a string changes no stored node. -/
theorem Nodes.grows {i : NodeTable} {items : List (List Bytes)} {rs : List (Row (NodeCols i))}
    (h : Nodes db rowId i items rs) (howner : Owner db rowId) (hgrows : Grows db.pool pool) :
    Nodes { db with pool := pool } rowId i items rs where
  core := h.core.rekey _
  filed := by
    apply h.filed.rekey
    intro r hr
    rw [getKey_of_owned howner.1 (h.owned r hr).2, getKey_of_owned howner.1 (h.owned r hr).2,
      howner.getStrongClassname_grows hgrows, label_grows hgrows (h.readable r hr)]
  owned := h.owned
  readable r hr := (h.readable r hr).grows hgrows
  covers := by
    have hlabels : rs.map (fun r => CallGraphDb.label { db with pool := pool } i r.cols) =
        rs.map fun r => db.label i r.cols := by
      apply List.map_congr_left
      intro r hr
      exact label_grows hgrows (h.readable r hr)
    rw [hlabels]
    exact h.covers

end Growth

section Recording
variable (A : ∀ α : Type, Allocator α) {db : CallGraphDb} {rowId : ℕ}

/-- The node tables do not enter a key. -/
theorem layout_nodes (nodes : ∀ i, Table (NodeCols i)) (i : NodeTable) :
    CallGraphDb.layout { db with nodes := nodes } i = db.layout i := by
  cases i <;> rfl

theorem Nodes.of_nodes_eq {i : NodeTable} {items : List (List Bytes)}
    {rs : List (Row (NodeCols i))} (h : Nodes db rowId i items rs)
    {nodes : ∀ i, Table (NodeCols i)} (hnodes : nodes i = db.nodes i) :
    Nodes { db with nodes := nodes } rowId i items rs := by
  constructor
  · rw [layout_nodes]
    change Core _ (nodes i) _
    rw [hnodes]
    exact h.core
  · rw [layout_nodes]
    change Filed _ (nodes i) _
    rw [hnodes]
    exact h.filed
  · exact h.owned
  · exact h.readable
  · exact h.covers

/-- The rows after an operation that wrote one row of the class. -/
theorem Nodes.of_effect {i : NodeTable} {items items' : List (List Bytes)}
    {rs rs' : List (Row (NodeCols i))} (h : Nodes db rowId i items rs) {r : Row (NodeCols i)}
    (howned : r.flags = 0 ∧ i.ownerClass r.cols = UInt64.ofNat rowId)
    (hreadable : Readable db.pool i r.cols) {t : Table (NodeCols i)} {j m : ℕ}
    (heffect : Effect (db.layout i) (db.nodes i) rs t rs' j m)
    (hmem : ∀ s ∈ rs', s ∈ rs ∨ s = { r with id := j })
    (hcovers : Covers i.nameOf (rs'.map fun s => db.label i s.cols) items')
    {nodes : ∀ i, Table (NodeCols i)} (hnodes : nodes i = t) :
    Nodes { db with nodes := nodes } rowId i items' rs' := by
  constructor
  · rw [layout_nodes]
    change Core _ (nodes i) _
    rw [hnodes]
    exact heffect.core
  · rw [layout_nodes]
    change Filed _ (nodes i) _
    rw [hnodes]
    exact heffect.filed h.filed
  · intro s hs
    rcases hmem s hs with hs | rfl
    · exact h.owned s hs
    · exact howned
  · intro s hs
    rcases hmem s hs with hs | rfl
    · exact h.readable s hs
    · exact hreadable
  · exact hcovers

/-- A recorded node is a new row, or replaces the row of its name. -/
theorem Nodes.addOrUpdate {i : NodeTable} {items : List (List Bytes)}
    {rs : List (Row (NodeCols i))} (h : Nodes db rowId i items rs) (hlt : rowId < 2 ^ 64)
    {r : Row (NodeCols i)} (howned : r.flags = 0 ∧ i.ownerClass r.cols = UInt64.ofNat rowId)
    (hreadable : Readable db.pool i r.cols) :
    ∃ t readId rs', ((db.nodes i).allocate (A _) r).1.addOrUpdate (db.layout i) (A _)
        ((db.nodes i).allocate (A _) r).2 = some (t, readId) ∧
      ∀ nodes : ∀ i, Table (NodeCols i), nodes i = t →
        Nodes { db with nodes := nodes } rowId i (items ++ [db.label i r.cols]) rs' := by
  have hkey : ∀ {s : Row (NodeCols i)}, s ∈ rs →
      (db.getKey i r.cols = db.getKey i s.cols ↔
        i.nameOf (db.label i r.cols) = i.nameOf (db.label i s.cols)) := fun hs =>
    getKey_eq_iff hlt howned.2 (h.owned _ hs).2
  rcases addOrUpdate_effect (A _) h.core r with
    ⟨hnew, t, ht, heffect⟩ | ⟨q, j, m, t, readId, hq, hj, ht, heffect, -⟩
  · refine ⟨t, _, _, ht, fun nodes => h.of_effect howned hreadable heffect ?_ ?_⟩
    · intro s hs
      rcases List.mem_append.mp hs with hs | hs
      · exact .inl hs
      · exact .inr (List.mem_singleton.mp hs)
    · rw [List.map_append]
      apply h.covers.append
      intro hmem
      rw [List.map_map] at hmem
      obtain ⟨s, hs, hname⟩ := List.mem_map.mp hmem
      obtain ⟨k, hk⟩ := List.getElem?_of_mem hs
      obtain ⟨p, hp, -⟩ := h.core.exists_of_row hk
      have hfound := (h.filed _ p).mpr ⟨k, s, hp, hk, ((hkey hs).mpr hname.symm).symm⟩
      exact absurd (hnew.symm.trans hfound) (by simp)
  · obtain ⟨k, old, hk, hold, hsame⟩ := (h.filed _ q).mp hq
    obtain rfl := h.core.index_injective hj hk
    have hlabel : (rs.map fun s => db.label i s.cols)[j]? = some (db.label i old.cols) := by
      rw [List.getElem?_map, hold]
      rfl
    refine ⟨t, _, _, ht, fun nodes => h.of_effect howned hreadable heffect ?_ ?_⟩
    · intro s hs
      exact List.mem_or_eq_of_mem_set hs
    · rw [List.map_set]
      exact h.covers.set hlabel ((hkey (List.mem_of_getElem? hold)).mp hsame.symm)

variable {words : List Bytes} {items : NodeTable → List (List Bytes)}

theorem Extracted.record (h : Extracted words rowId db items) {i : NodeTable} {cols : NodeCols i}
    (howned : i.ownerClass cols = UInt64.ofNat rowId) (hreadable : Readable db.pool i cols)
    {items' : NodeTable → List (List Bytes)} (hitems : items' i = items i ++ [db.label i cols])
    (hothers : ∀ j, j ≠ i → items' j = items j) :
    ∃ db', db.record A i cols = some db' ∧ Extracted words rowId db' items' := by
  obtain ⟨rs, hrs⟩ := h.nodes i
  obtain ⟨t, readId, rs', ht, hnodes⟩ :=
    hrs.addOrUpdate A h.owner.1 (r := CallGraphDb.newRow cols) ⟨rfl, howned⟩ hreadable
  refine ⟨{ db with nodes := Function.update db.nodes i t }, ?_, h.pooled, h.owner, ?_⟩
  · simp only [CallGraphDb.record, ht, Option.bind_eq_bind, Option.bind_some]
  · intro j
    by_cases hji : j = i
    · subst hji
      rw [hitems]
      exact ⟨rs', hnodes _ (Function.update_self _ _ _)⟩
    · rw [hothers j hji]
      obtain ⟨rs, hrs⟩ := h.nodes j
      exact ⟨rs, hrs.of_nodes_eq (Function.update_of_ne hji _ _)⟩

theorem Extracted.getPoolString (hw : Vocabulary words) (h : Extracted words rowId db items)
    {s : Bytes} (hs : s ∈ words) :
    ∃ pool col, db.getPoolString s = some ({ db with pool := pool }, col) ∧
      Extracted words rowId { db with pool := pool } items ∧ Grows db.pool pool ∧
      pool.getCString col.toNat = some s := by
  obtain ⟨pool, col, hcol, hpooled, hgrows, hread⟩ := getPoolString_spec hw.lexicon h.pooled hs
  refine ⟨pool, col, hcol db rfl, ⟨hpooled, h.owner.grows hgrows, ?_⟩, hgrows, hread⟩
  intro i
  obtain ⟨rs, hrs⟩ := h.nodes i
  exact ⟨rs, hrs.grows h.owner hgrows⟩

end Recording

section Creation
variable (A : ∀ α : Type, Allocator α) {words : List Bytes}

/-- The first row of a new table. -/
theorem addOrUpdate_construct {α : Type} (F : Format α) (getKey getKey' : α → Bytes)
    (A : Allocator α) (r : Row α) :
    ∃ t, ((Table.construct ⟨F, getKey⟩).allocate A r).1.addOrUpdate ⟨F, getKey'⟩ A
        ((Table.construct ⟨F, getKey⟩).allocate A r).2 = some (t, fun _ => 0) ∧
      t.getRow 0 = some { r with id := 0 } := by
  rcases addOrUpdate_effect A ((core_construct ⟨F, getKey⟩).rekey getKey') r with
    ⟨-, t, ht, heffect⟩ | ⟨q, i, m, t, readId, hq, -⟩
  · refine ⟨t, ht, ?_⟩
    rw [heffect.core.getRow_eq]
    rfl
  · simp [Table.construct] at hq

theorem add_construct {α : Type} (F : Format α) (getKey getKey' : α → Bytes)
    (A : Allocator α) (r : Row α) :
    ∃ t, ((Table.construct ⟨F, getKey⟩).allocate A r).1.add ⟨F, getKey'⟩
        ((Table.construct ⟨F, getKey⟩).allocate A r).2 = some (t, 0) ∧
      t.getRow 0 = some { r with id := 0 } := by
  have hnew : (Table.construct ⟨F, getKey⟩).rows.lookup (getKey' r.cols) = none := by
    simp [Table.construct]
  obtain ⟨t, ht, heffect⟩ := add_effect A ((core_construct ⟨F, getKey⟩).rekey getKey') r hnew
  refine ⟨t, ht, ?_⟩
  rw [heffect.core.getRow_eq]
  rfl

theorem createWithClass_spec (hw : Vocabulary words) (hnil : [] ∈ words)
    {filename classname : Bytes} (hfilename : filename ∈ words) (hclassname : classname ∈ words)
    (fileRow : FileCols) (classRow : ClassFileCols) :
    ∃ db rowId, CallGraphDb.createWithClass A filename classname fileRow classRow =
        some (db, rowId) ∧ Extracted words rowId db fun _ => [] := by
  obtain ⟨pool, hpool, hpooled⟩ := construct_pooled hnil
  have hcreate : CallGraphDb.create = some
      { pool := pool
        files := Table.construct (Files.layout pool)
        classfiles := Table.construct ⟨ClassFiles.format, fun _ => []⟩
        nodes := fun i => Table.construct ⟨i.format, fun _ => []⟩ } := by
    simp [CallGraphDb.create, hpool]
  obtain ⟨pool₁, file, hfile, hpooled₁, -, hreadFile⟩ :=
    getPoolString_spec hw.lexicon hpooled hfilename
  obtain ⟨files, hfiles, hfileRow⟩ := addOrUpdate_construct Files.format (Files.getKey pool)
    (Files.getKey pool₁) (A _) (CallGraphDb.newRow { fileRow with filename := file })
  obtain ⟨pool₂, name, hname, hpooled₂, hgrows, hreadName⟩ :=
    getPoolString_spec hw.lexicon hpooled₁ hclassname
  obtain ⟨classfiles, hclassfiles, hclassRow⟩ := add_construct ClassFiles.format (fun _ => [])
    (ClassFiles.getStrongClassname pool₂ files) (A _)
    (CallGraphDb.newRow { classRow with file := UInt64.ofNat 0, classname := name })
  refine ⟨⟨pool₂, files, classfiles, fun i => Table.construct ⟨i.format, fun _ => []⟩⟩, 0, ?_,
    hpooled₂, ⟨by decide, _, _, hclassRow, hfileRow, ?_, ?_⟩, ?_⟩
  · simp only [CallGraphDb.createWithClass, hcreate, CallGraphDb.addClass, Option.bind_eq_bind,
      Option.bind_some, hfile, Files.layout, hfiles, hname, ClassFiles.layout,
      hclassfiles]
  · exact Option.isSome_iff_exists.mpr ⟨filename, hgrows _ _ hreadFile⟩
  · exact Option.isSome_iff_exists.mpr ⟨classname, hreadName⟩
  · intro i
    exact ⟨[], (core_construct ⟨i.format, fun _ => []⟩).rekey _,
      (filed_construct ⟨i.format, fun _ => []⟩).rekey (by simp), by simp, by simp, covers_nil⟩

end Creation

end Tarracsh.CallGraphInvariant
