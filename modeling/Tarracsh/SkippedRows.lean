import Tarracsh.TableRuns
import Tarracsh.LinkPasses

/-!
# A row behind 2^32 clean ones

The loop of `writeRows` counts the clean rows that it skips in 32 bits and seeks
only when the count is positive. A dirty row behind 2^32 clean ones is written
where the file happens to stand, which is over the first row, and is clean from
then on.
-/
namespace Tarracsh.SkippedRows
open ByteStrings ByteFiles TableModel TableInvariant TableFile TableRuns DomainTables
open CallGraphLinking LinkPasses

section Loop
variable {h r : ℕ} {f : FileFaults} {dirty : ℕ → Bool}

theorem gap_of_clean {n : ℕ} (hclean : ∀ i < n, dirty i = false) : gap dirty n = n := by
  induction n with
  | zero => rfl
  | succ n ih =>
      rw [gap_clean (hclean n n.lt_succ_self), ih fun i hi => hclean i (hi.trans n.lt_succ_self)]

theorem spaced_of_dirty {n : ℕ} (hdirty : ∀ i < n, dirty i = true) : Spaced dirty n := by
  intro i hi _ hpos
  cases i with
  | zero => exact absurd hpos (lt_irrefl 0)
  | succ i =>
      rw [gap_dirty (hdirty i (Nat.lt_of_succ_lt hi))] at hpos
      exact absurd hpos (lt_irrefl 0)

/-- The loop over clean rows leaves everything as it is. -/
theorem slotLoop_of_clean {rows : List Bytes} (rest : List Bytes) {i position : ℕ} {content : Bytes}
    (hclean : ∀ j, i ≤ j → j < i + rows.length → dirty j = false) :
    slotLoop h r f dirty (rows ++ rest) i position (gap dirty i % 2 ^ 32) content =
      slotLoop h r f dirty rest (i + rows.length) position
        (gap dirty (i + rows.length) % 2 ^ 32) content := by
  induction rows generalizing i with
  | nil => rfl
  | cons row rows ih =>
      rw [List.length_cons] at hclean
      rw [List.cons_append, slotLoop_clean (hclean i le_rfl (by omega)),
        ih fun j hj hlt => hclean j (by omega) (by omega), List.length_cons, Nat.add_assoc,
        Nat.add_comm 1]

end Loop

section Adding
variable {α : Type} {L : Layout α} {A : Allocator α}

theorem run_append {s s' : Session α} {ops ops' : List (Op α)} (h : s.run L A ops = some s') :
    s.run L A (ops ++ ops') = s'.run L A ops' := by
  rw [Session.run, List.foldlM_append]
  change (s.run L A ops).bind _ = _
  rw [h]
  rfl

theorem along_append {P : Table α → Op α → Prop} {s s' : Session α} {ops ops' : List (Op α)}
    (h : Along L A P s ops) (hrun : s.run L A ops = some s') (h' : Along L A P s' ops') :
    Along L A P s (ops ++ ops') := by
  induction ops generalizing s with
  | nil =>
      obtain rfl := Option.some.inj hrun
      exact h'
  | cons op ops ih =>
      rw [Session.run, List.foldlM_cons] at hrun
      obtain ⟨s₁, hstep, hrest⟩ := Option.bind_eq_some_iff.mp hrun
      exact along_cons h.1 hstep (ih (h.2 s₁ hstep) hrest)

/-- The rows of the run, with their ids. -/
def numbered (row : ℕ → Row α) (n : ℕ) : List (Row α) :=
  (List.range n).map fun i => { row i with id := i }

def adding (row : ℕ → Row α) (n : ℕ) : List (Op α) := (List.range n).map fun i => .add (row i)

@[simp] theorem length_numbered (row : ℕ → Row α) (n : ℕ) : (numbered row n).length = n := by
  simp [numbered]

theorem numbered_succ (row : ℕ → Row α) (n : ℕ) :
    numbered row (n + 1) = numbered row n ++ [{ row n with id := n }] := by
  simp [numbered, List.range_succ]

/-- Rows with different keys are added to a new table. -/
theorem adding_spec {row : ℕ → Row α} {n : ℕ}
    (hkeys : ∀ i j, i < j → j < n → L.getKey (row i).cols ≠ L.getKey (row j).cols) :
    ∃ t, (Session.start L).run L A (adding row n) = some ⟨t, none⟩ ∧
      Along L A (Valid L) (Session.start L) (adding row n) ∧
      Inv L ⟨t, none⟩ (numbered row n) [] := by
  induction n with
  | zero => exact ⟨_, rfl, trivial, inv_start⟩
  | succ n ih =>
      obtain ⟨t, hrun, hvalid, hinv⟩ := ih fun i j hij hj => hkeys i j hij (by omega)
      have hnew : t.findByKey (L.getKey (row n).cols) = none := by
        rw [Table.findByKey, Option.eq_none_iff_forall_ne_some]
        intro p hp
        obtain ⟨i, r, -, hr, hkey⟩ := (hinv.filed _ p).mp hp
        obtain ⟨hlt, rfl⟩ := List.getElem?_eq_some_iff.mp hr
        rw [length_numbered] at hlt
        simp only [numbered, List.getElem_map, List.getElem_range] at hkey
        exact hkeys i n hlt n.lt_succ_self hkey
      obtain ⟨t', hadd, heffect⟩ := add_effect A hinv.core (row n) hnew
      have hstep : Session.step L A ⟨t, none⟩ (.add (row n)) = some ⟨t', none⟩ := by
        simp [Session.step, hadd]
      have hops : adding row (n + 1) = adding row n ++ [.add (row n)] := by
        simp [adding, List.range_succ]
      rw [hops, numbered_succ]
      refine ⟨t', ?_, along_append hvalid hrun ⟨hnew, fun _ _ => trivial⟩, ?_⟩
      · rw [run_append hrun, Session.run, List.foldlM_cons, hstep]
        rfl
      · have hinv' := inv_of_effect hinv heffect (.inl rfl)
        rwa [length_numbered] at hinv'

end Adding

section Writing
variable {α : Type} {L : Layout α} {A : Allocator α}

/-- A save with a dirty row leaves no row dirty. -/
theorem dirtyRows_of_write {t t' : Table α} {file file' : Option Bytes} {done : Bool}
    (hdirty : t.isDirty = true)
    (h : t.write L (noFaults L) file = some (t', file', done)) : t'.dirtyRows = ∅ := by
  have hopened : (noFaults L).opened = true := rfl
  have hseek : (noFaults L).seekStart = true := rfl
  have hclosed : (noFaults L).closed = true := rfl
  rw [Table.write, hdirty] at h
  simp only [Bool.not_true, Bool.false_and, Bool.false_eq_true, if_false, hopened, hseek] at h
  cases file with
  | none =>
      obtain ⟨content, -, h⟩ := Option.bind_eq_some_iff.mp h
      rw [if_pos hclosed] at h
      rw [← (Prod.mk.inj (Option.some.inj h)).1]
  | some written =>
      obtain ⟨content, -, h⟩ := Option.bind_eq_some_iff.mp h
      rw [if_pos hclosed] at h
      rw [← (Prod.mk.inj (Option.some.inj h)).1]

/-- One dirty row, behind 2^32 clean ones, is written over the first row. -/
theorem write_over_first {t : Table α} {rows : List (Row α)} {last : Row α} (content : Bytes)
    (hc : Core L t (rows ++ [last])) (hrows : rows.length = 2 ^ 32) (hdirty : t.isDirty = true)
    (hclean : ∀ i, dirtyOf t i = true ↔ i = 2 ^ 32) :
    t.write L (noFaults L) (some content) =
      some ({ t with dirtyRows := ∅, isDirty := false },
        some (writeAt 0 content L.schema.headerSize (L.rowBytes last)), true) := by
  have hfalse : ∀ i < 2 ^ 32, dirtyOf t i = false := by
    intro i hi
    rw [← Bool.not_eq_true, hclean]
    omega
  have hlast : slotLoop L.schema.headerSize L.rowSize (noFaults L) (dirtyOf t)
      ((rows ++ [last]).map L.rowBytes) 0 L.schema.headerSize 0 content =
        writeAt 0 content L.schema.headerSize (L.rowBytes last) := by
    rw [List.map_append]
    refine (slotLoop_of_clean [L.rowBytes last] fun j _ hj => hfalse j ?_).trans ?_
    · rwa [Nat.zero_add, List.length_map, hrows] at hj
    · have htake : (L.rowBytes last).take L.rowSize = L.rowBytes last :=
        List.take_of_length_le (rowBytes_length L last).le
      rw [Nat.zero_add, List.length_map, hrows, gap_of_clean hfalse, Nat.mod_self, slotLoop,
        if_pos ((hclean _).mpr rfl), if_neg fun hskip => absurd hskip.1 (lt_irrefl 0)]
      have haccept : (noFaults L).accept (2 ^ 32) = L.rowSize := rfl
      simp only [haccept, htake, lt_irrefl, if_false, slotLoop, ite_self]
  have hloop : t.writeRows L (noFaults L) 0 content =
      some (writeAt 0 content L.schema.headerSize (L.rowBytes last)) := by
    rw [writeRows_eq hc]
    exact congrArg some hlast
  have hopened : (noFaults L).opened = true := rfl
  have hseek : (noFaults L).seekStart = true := rfl
  have hclosed : (noFaults L).closed = true := rfl
  rw [Table.write, hdirty]
  simp only [Bool.not_true, Bool.false_and, Bool.false_eq_true, if_false, hopened, hseek, hclosed,
    hloop, Option.bind_eq_bind, Option.bind_some, if_true]

/-- The rows are saved, and none of them is dirty. -/
theorem adding_saved {row : ℕ → Row α} {n : ℕ}
    (hkeys : ∀ i j, i < j → j < n + 1 → L.getKey (row i).cols ≠ L.getKey (row j).cols) :
    ∃ t, (Session.start L).run L A (adding row (n + 1) ++ [.write]) =
        some ⟨t, some (image L (numbered row (n + 1)))⟩ ∧
      Along L A (Valid L) (Session.start L) (adding row (n + 1) ++ [.write]) ∧
      t.dirtyRows = ∅ ∧ Core L t (numbered row (n + 1)) := by
  obtain ⟨t, hrun, hvalid, hinv⟩ := adding_spec (L := L) (A := A) hkeys
  have hdirty : ∀ i < n + 1, dirtyOf t i = true ∧ t.isDirty = true := by
    intro i hi
    have hr := List.getElem?_eq_getElem ((length_numbered row (n + 1)).symm ▸ hi)
    exact hinv.tracks.tracked i _ hr (by simp)
  have hcount := hinv.core.length_eq.trans (length_numbered row (n + 1))
  obtain ⟨t', hstep, -, hinv'⟩ := step_write (A := A) hinv
    (spaced_of_dirty fun i hi => (hdirty i (hcount ▸ hi)).1)
  refine ⟨t', ?_, along_append hvalid hrun ⟨trivial, fun _ _ => trivial⟩, ?_, hinv'.core⟩
  · rw [run_append hrun, Session.run, List.foldlM_cons, hstep]
    rfl
  · obtain ⟨⟨t₁, file₁, done⟩, hwrite, hsome⟩ := Option.bind_eq_some_iff.mp hstep
    obtain ⟨rfl, -⟩ := Session.mk.inj (Option.some.inj hsome)
    exact dirtyRows_of_write (hdirty 0 n.succ_pos).2 hwrite

/-- A row that is not dirty is not in the file. -/
theorem not_invariant_of_overwritten {t : Table α} {rows : List (Row α)} {first last : Row α}
    {content : Bytes} (hc : Core L t rows) (hfirst : rows[0]? = some first)
    (hid : first.id % 256 ^ 8 ≠ last.id % 256 ^ 8) (hclean : t.isDirty = false) :
    ¬ RepresentationInvariant L
      ⟨t, some (writeAt 0 content L.schema.headerSize (L.rowBytes last))⟩ := by
  intro hinvariant
  obtain ⟨p, hp, hlookup⟩ := hc.exists_of_row hfirst
  have hget : t.getRow 0 = some first := by
    rw [Table.getRow, hp, Option.bind_some, hlookup]
  refine absurd (hinvariant.tracked 0 _ hget fun hslot => ?_).2 (by simp [hclean])
  have hself : slot L.schema.headerSize L.rowSize (writeAt 0 content
      (L.schema.headerSize + 0 * L.rowSize) (L.rowBytes last)) 0 = L.rowBytes last :=
    slot_writeAt_self 0 0 (rowBytes_length L last) (by rw [Layout.rowSize]; omega)
  rw [Nat.zero_mul, Nat.add_zero] at hself
  have hbytes : L.rowBytes last = L.rowBytes first := by
    rw [← hself]
    exact Option.some.inj hslot
  have hparsed := congrArg (fun bytes => (L.parseRow bytes).id) hbytes
  simp only [parseRow_rowBytes] at hparsed
  exact hid hparsed.symm

/-- The last row is deleted after all rows were saved, and the save of the deleted row
overwrites row 0. -/
theorem overwrites_first {row : ℕ → Row α} {n : ℕ} (hn : n = 2 ^ 32)
    (hkeys : ∀ i j, i < j → j < n + 1 → L.getKey (row i).cols ≠ L.getKey (row j).cols) :
    ∃ s, (Session.start L).run L A (adding row (n + 1) ++ [.write, .deleteRow n, .write]) = some s ∧
      Along L A (Valid L) (Session.start L)
        (adding row (n + 1) ++ [.write, .deleteRow n, .write]) ∧
      ¬ RepresentationInvariant L s := by
  have hops : adding row (n + 1) ++ [.write, .deleteRow n, .write] =
      adding row (n + 1) ++ [.write] ++ [.deleteRow n, .write] := by simp
  rw [hops]
  obtain ⟨t, hrun, hvalid, hclean, hc⟩ := adding_saved (L := L) (A := A) hkeys
  have hlength := length_numbered row n
  have hlast : (numbered row (n + 1))[n]? = some { row n with id := n } := by
    rw [numbered_succ, List.getElem?_append_right hlength.le, hlength, Nat.sub_self]
    rfl
  obtain ⟨t', hdelete, heffect⟩ := deleteRow_effect hc hlast
  -- the deleted row is the only dirty one
  have hdirty : ∀ i, dirtyOf t' i = true ↔ i = 2 ^ 32 := by
    intro i
    rw [dirtyOf, heffect.marked i, hclean, hn]
    simp
  set last : Row α := { row n with id := n, flags := (row n).flags ||| Deleted }
  have hset : (numbered row (n + 1)).set n last = numbered row n ++ [last] := by
    rw [numbered_succ, List.set_append_right _ _ hlength.le, hlength, Nat.sub_self]
    rfl
  have hc' : Core L t' (numbered row n ++ [last]) := hset ▸ heffect.core
  set content := image L (numbered row (n + 1))
  -- and the second save writes it over row 0
  have hwrite := write_over_first content hc' (hlength.trans hn) heffect.isDirty hdirty
  have hstep : Session.step L A ⟨t, some content⟩ (.deleteRow n) = some ⟨t', some content⟩ := by
    simp [Session.step, hdelete]
  have hstep' : Session.step L A ⟨t', some content⟩ .write =
      some ⟨{ t' with dirtyRows := ∅, isDirty := false },
        some (writeAt 0 content L.schema.headerSize (L.rowBytes last))⟩ := by
    simp [Session.step, hwrite]
  refine ⟨⟨{ t' with dirtyRows := ∅, isDirty := false },
      some (writeAt 0 content L.schema.headerSize (L.rowBytes last))⟩, ?_,
    along_append hvalid hrun ⟨?_, fun _ _ => ⟨trivial, fun _ _ => trivial⟩⟩, ?_⟩
  · rw [run_append hrun, Session.run, List.foldlM_cons, hstep]
    change (Session.step L A _ _).bind _ = _
    rw [hstep']
    rfl
  · change n < t.autoIncrementIndex.length
    rw [hc.length_eq, length_numbered]
    exact n.lt_succ_self
  · have hfirst : (numbered row n ++ [last])[0]? = some { row 0 with id := 0 } := by
      rw [List.getElem?_append_left (by omega), numbered, List.getElem?_map,
        List.getElem?_range (by omega)]
      rfl
    have hsaved : Core L { t' with dirtyRows := ∅, isDirty := false } (numbered row n ++ [last]) :=
      ⟨hc'.schema, hc'.heap, hc'.ids, hc'.nodup, hc'.rows⟩
    refine not_invariant_of_overwritten hsaved hfirst ?_ rfl
    change 0 % 256 ^ 8 ≠ n % 256 ^ 8
    omega

end Writing

/-- Edges from different references. -/
def edge (i : ℕ) : Row EdgeCols := ⟨0, 0, { fromId := UInt64.ofNat i }⟩

/-- 2^32 + 1 edges are linked and saved, the last of them is deleted, and the next save
replaces the first edge in the file, which is not dirty. -/
theorem not_representation_invariant :
    ∃ n, n = 2 ^ 32 ∧ ∃ s,
      (Session.start EdgeTable.methodRefEdges.layout).run EdgeTable.methodRefEdges.layout (.next _)
        (adding edge (n + 1) ++ [.write, .deleteRow n, .write]) = some s ∧
      Along EdgeTable.methodRefEdges.layout (.next _) (Valid EdgeTable.methodRefEdges.layout)
        (Session.start EdgeTable.methodRefEdges.layout)
        (adding edge (n + 1) ++ [.write, .deleteRow n, .write]) ∧
      ¬ RepresentationInvariant EdgeTable.methodRefEdges.layout s := by
  refine ⟨_, rfl, overwrites_first rfl fun i j hij hj hkey => hij.ne ?_⟩
  have hends := getKey_eq_iff.mp hkey
  exact eq_of_ofNat_eq (by omega) (by omega) hends.1

end Tarracsh.SkippedRows
