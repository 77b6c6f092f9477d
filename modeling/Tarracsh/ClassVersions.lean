import Tarracsh.NodeHistory
import Tarracsh.CallGraphAnalysis

/-!
# Versions of a class

What the node tables hold after several versions of one class, and when that is
what the last version declares. `entriesAfter` takes the versions with the
latest first and does not mention the database.
-/
namespace Tarracsh.ClassVersions
open ByteStrings KeyedUpdates ParsedClass ClassFileReader ReaderRefinement TableModel
open TableInvariant CallGraphTables SafeConsumption NodeHistory

/-- A content that the parser accepts, with its class and the texts of its
nodes. -/
structure Version (kind : Kind) (garbage : ℕ → UInt8) where
  content : Bytes
  «class» : ClassFile
  texts : List NodeTexts
  parses : ∃ s, parsed kind content garbage = some («class», s)
  extracted : extractTexts «class» = some texts

/-- The labels for one table. -/
def labelsIn (i : NodeTable) (ts : List NodeTexts) : List (List Bytes) :=
  (ts.filter fun t => tableOf t = i).map labelOf

def namesIn (i : NodeTable) (ts : List NodeTexts) : List Bytes := (labelsIn i ts).map i.nameOf

/-- What one analysis leaves: of the labels with one name the last. -/
def survivors (i : NodeTable) (ts : List NodeTexts) : List (List Bytes) :=
  replaceAll i.nameOf [] (labelsIn i ts)

/-- The entries of a table after the analyses, the latest first. The owner
depends on how many came before. -/
def entriesAfter (owner : ℕ → ℕ) (i : NodeTable) : List (List NodeTexts) → List Entry
  | [] => []
  | ts :: earlier => replaceAll (Entry.name i) (entriesAfter owner i earlier)
      (entriesFor (owner earlier.length) i ts)

section Entries
variable {owner : ℕ → ℕ} {i : NodeTable} {ts current : List NodeTexts}
  {earlier tss : List (List NodeTexts)}

theorem entriesFor_eq (o : ℕ) (i : NodeTable) (ts : List NodeTexts) :
    entriesFor o i ts = (labelsIn i ts).map fun label => (o, label) := by
  rw [entriesFor, labelsIn, List.map_map]
  rfl

theorem survivors_subset {label : List Bytes} (h : label ∈ survivors i ts) :
    label ∈ labelsIn i ts := by
  rcases mem_or_of_mem_replaceAll h with hmem | ⟨hmem, -⟩
  · exact hmem
  · cases hmem

/-- The entries of the latest analysis, and the earlier ones that it does not
replace. -/
theorem mem_entriesAfter_cons {x : Entry} :
    x ∈ entriesAfter owner i (ts :: earlier) ↔
      (x.1 = owner earlier.length ∧ x.2 ∈ survivors i ts) ∨
        (x ∈ entriesAfter owner i earlier ∧ x.name i ∉ namesIn i ts) := by
  have hmap := @replaceAll_map _ _ _ (Entry.name i) _
    (fun label => (owner earlier.length, label)) [] (labelsIn i ts)
  rw [List.map_nil] at hmap
  rw [entriesAfter, mem_replaceAll, entriesFor_eq, hmap, List.map_map, List.mem_map]
  apply or_congr_left
  constructor
  · rintro ⟨label, hlabel, rfl⟩
    exact ⟨rfl, hlabel⟩
  · rintro ⟨howner, hlabel⟩
    exact ⟨x.2, hlabel, Prod.ext howner.symm rfl⟩

theorem name_mem_entriesAfter {k : Bytes} :
    k ∈ (entriesAfter owner i tss).map (Entry.name i) ↔ ∃ ts ∈ tss, k ∈ namesIn i ts := by
  induction tss with
  | nil => simp [entriesAfter]
  | cons ts earlier ih =>
      rw [List.exists_mem_cons_iff, ← ih]
      constructor
      · intro hk
        obtain ⟨x, hx, rfl⟩ := List.mem_map.mp hk
        rcases mem_entriesAfter_cons.mp hx with ⟨-, hlabel⟩ | ⟨hx, -⟩
        · exact .inl (List.mem_map_of_mem (survivors_subset hlabel))
        · exact .inr (List.mem_map_of_mem hx)
      · intro hk
        have hnames : (entriesFor (owner earlier.length) i ts).map (Entry.name i) =
            namesIn i ts := by
          rw [entriesFor_eq, List.map_map]
          rfl
        rw [entriesAfter]
        apply key_mem_replaceAll
        rw [hnames]
        exact hk.symm

theorem owner_lt_of_mem {x : Entry} (hx : x ∈ entriesAfter id i tss) : x.1 < tss.length := by
  induction tss with
  | nil => cases hx
  | cons ts earlier ih =>
      rw [List.length_cons]
      rcases mem_entriesAfter_cons.mp hx with ⟨howner, -⟩ | ⟨hx, -⟩
      · rw [howner]
        exact Nat.lt_succ_self _
      · exact (ih hx).trans (Nat.lt_succ_self _)

/-- An earlier entry is left exactly when an earlier version has a name that
the current one has not. -/
theorem stale_iff :
    (∃ x ∈ entriesAfter owner i earlier, x.name i ∉ namesIn i current) ↔
      ¬∀ ts ∈ earlier, namesIn i ts ⊆ namesIn i current := by
  push Not
  constructor
  · rintro ⟨x, hx, hname⟩
    obtain ⟨ts, hts, hk⟩ := name_mem_entriesAfter.mp (List.mem_map_of_mem hx)
    exact ⟨ts, hts, fun hsubset => hname (hsubset hk)⟩
  · rintro ⟨ts, hts, hsubset⟩
    obtain ⟨k, hk, hname⟩ : ∃ k ∈ namesIn i ts, k ∉ namesIn i current := by
      by_contra hall
      push Not at hall
      exact hsubset hall
    obtain ⟨x, hx, rfl⟩ := List.mem_map.mp
      ((@name_mem_entriesAfter owner _ _ _).mpr ⟨ts, hts, hk⟩)
    exact ⟨x, hx, hname⟩

end Entries

/-- A class row that is not deleted. -/
def LiveClass (db : CallGraphDb) (rowId : ℕ) : Prop :=
  ∃ row, db.classfiles.getRow rowId = some row ∧ row.isDeleted = false

/-- Every live node comes from a member or reference of the version, and its
class row is not deleted. -/
def Replaced (db : CallGraphDb) (ts : List NodeTexts) : Prop :=
  ∀ i id r, (db.nodes i).getRow id = some r → r.isDeleted = false →
    db.label i r.cols ∈ labelsIn i ts ∧ LiveClass db (i.ownerClass r.cols).toNat

section Histories
variable {words : List Bytes} {strong : Bytes} {owners : ℕ → Prop} {db : CallGraphDb}
  {entries : NodeTable → List Entry} {current last : List NodeTexts}
  {earlier : List (List NodeTexts)}

theorem replaced_iff (h : History words strong owners db entries) :
    Replaced db last ↔ ∀ i, ∀ x ∈ entries i, x.2 ∈ labelsIn i last ∧ LiveClass db x.1 := by
  constructor
  · intro hreplaced i x hx
    obtain ⟨rs, hrs⟩ := h.nodes i
    obtain ⟨r, hr, rfl⟩ := List.mem_map.mp ((hrs.mem_iff x).mpr hx)
    obtain ⟨id, hid⟩ := List.getElem?_of_mem hr
    refine hreplaced i id r ((hrs.core.getRow_eq id).trans hid) ?_
    rw [Row.isDeleted, (hrs.owned r hr).1]
    rfl
  · intro hentries i id r hrow _
    obtain ⟨rs, hrs⟩ := h.nodes i
    rw [hrs.core.getRow_eq] at hrow
    exact hentries i (entryOf db i r)
      ((hrs.mem_iff _).mp (List.mem_map_of_mem (List.mem_of_getElem? hrow)))

/-- Only the latest class row is live. -/
theorem replaced_latest
    (h : History words strong owners db fun i => entriesAfter id i (current :: earlier))
    (hlive : ∀ o ≤ earlier.length, LiveClass db o ↔ o = earlier.length) :
    Replaced db last ↔ ∀ i, (∀ ts ∈ earlier, namesIn i ts ⊆ namesIn i current) ∧
      ∀ label ∈ survivors i current, label ∈ labelsIn i last := by
  rw [replaced_iff h]
  refine forall_congr' fun i => ?_
  constructor
  · intro hentries
    constructor
    · by_contra hstale
      obtain ⟨x, hx, hname⟩ := (@stale_iff id _ _ _).mpr hstale
      have hlt := owner_lt_of_mem hx
      have hlast := (hlive x.1 hlt.le).mp
        (hentries x (mem_entriesAfter_cons.mpr (.inr ⟨hx, hname⟩))).2
      omega
    · intro label hlabel
      exact (hentries (earlier.length, label)
        (mem_entriesAfter_cons.mpr (.inl ⟨rfl, hlabel⟩))).1
  · rintro ⟨hnames, hlabels⟩ x hx
    rcases mem_entriesAfter_cons.mp hx with ⟨howner, hlabel⟩ | hx
    · exact ⟨hlabels _ hlabel, (hlive x.1 (le_of_eq howner)).mpr howner⟩
    · exact absurd hnames (stale_iff.mp ⟨x, hx⟩)

/-- There is one class row, which is updated. -/
theorem replaced_in_place
    (h : History words strong owners db fun i => entriesAfter (fun _ => 0) i (current :: earlier))
    (hlive : LiveClass db 0) :
    Replaced db current ↔ ∀ i, ∀ ts ∈ earlier, namesIn i ts ⊆ namesIn i current := by
  have howner : ∀ i tss, ∀ x ∈ entriesAfter (fun _ => 0) i tss, x.1 = 0 := by
    intro i tss
    induction tss with
    | nil => nofun
    | cons ts earlier ih =>
        intro x hx
        rcases mem_entriesAfter_cons.mp hx with ⟨howner, -⟩ | ⟨hx, -⟩
        · exact howner
        · exact ih x hx
  rw [replaced_iff h]
  refine forall_congr' fun i => ?_
  constructor
  · intro hentries
    by_contra hstale
    obtain ⟨x, hx, hname⟩ := (@stale_iff (fun _ => 0) _ _ _).mpr hstale
    have hlabel := (hentries x (mem_entriesAfter_cons.mpr (.inr ⟨hx, hname⟩))).1
    exact hname (List.mem_map_of_mem hlabel)
  · intro hnames x hx
    rw [howner i _ x hx]
    rcases mem_entriesAfter_cons.mp hx with ⟨-, hlabel⟩ | hx
    · exact ⟨survivors_subset hlabel, hlive⟩
    · exact absurd hnames (stale_iff.mp ⟨x, hx⟩)

end Histories

end Tarracsh.ClassVersions
