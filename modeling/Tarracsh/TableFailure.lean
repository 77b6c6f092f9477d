import Tarracsh.TableRuns

/-!
# Saves that fail half-way

`writeRows` leaves its loop at the first seek or row write that fails, clears
the dirty rows all the same, and `write` goes on to report success. A fault
that the loop meets leaves the last byte of some dirty row as it was in the
file, and so does a failed seek to the first row, after which rows are written
from the start of the file on. Whether a save can lose something is therefore
decided by the dirty rows and the faults alone.
-/
namespace Tarracsh.TableFailure
open ByteStrings ByteFiles TableModel TableInvariant TableFile TableRuns

section Loop
variable {h r : ℕ} {f : FileFaults} {dirty : ℕ → Bool}

/-- A cell behind everything that is written stays as it is. -/
theorem getElem?_writeAt_behind {content cells : Bytes} {position c : ℕ}
    (hc : position + cells.length ≤ c) :
    (writeAt 0 content position cells)[c]? = content[c]? := by
  by_cases hnil : cells = []
  · rw [hnil, writeAt_nil]
  · rw [getElem?_writeAt 0 position c hnil, if_neg (by omega)]
    split_ifs with hlt
    · rfl
    · omega
    · rw [List.getElem?_eq_none (by omega)]

/-- Where the loop writes row `k`. -/
def target (h r k position skipped : ℕ) : ℕ := if 0 < skipped then h + k * r else position

/-- The three ways the loop can take at a dirty row. -/
theorem slotLoop_step {row : Bytes} {rows : List Bytes} {k position skipped : ℕ}
    {content : Bytes} (hdirty : dirty k = true) :
    slotLoop h r f dirty (row :: rows) k position skipped content =
      if 0 < skipped ∧ f.seekRow k = false then content
      else if (row.take (f.accept k)).length ≠ r then
        writeAt 0 content (target h r k position skipped) (row.take (f.accept k))
      else slotLoop h r f dirty rows (k + 1) (target h r k position skipped + r) 0
        (writeAt 0 content (target h r k position skipped) (row.take (f.accept k))) := by
  rw [slotLoop, if_pos hdirty]
  rfl

theorem undisturbed_of_after_clean {n k : ℕ} (hd : dirty k = false)
    (hu : WrittenInPlace r f dirty n (k + 1)) : WrittenInPlace r f dirty n k := by
  intro i hi hn hdi
  have hne : i ≠ k := by
    rintro rfl
    exact absurd (hd.symm.trans hdi) (by simp)
  exact hu i (by omega) hn hdi

theorem undisturbed_of_after_dirty {n k : ℕ} (haccept : r ≤ f.accept k)
    (hgap : 0 < gap dirty k → gap dirty k % 2 ^ 32 ≠ 0 ∧ f.seekRow k = true)
    (hu : WrittenInPlace r f dirty n (k + 1)) : WrittenInPlace r f dirty n k := by
  intro i hi hn hdi
  by_cases hik : i = k
  · subst hik
    exact ⟨haccept, hgap⟩
  · exact hu i (by omega) hn hdi

/-- The loop never stands behind the row after the last one that it has written, so it
writes no row too far behind. -/
theorem target_le {k position : ℕ} (hbehind : position + gap dirty k * r ≤ h + k * r) :
    target h r k position (gap dirty k % 2 ^ 32) ≤ h + k * r := by
  unfold target
  split_ifs with hs
  · exact le_rfl
  · omega

/-- A row that is written in its place was either sought or directly behind the last one. -/
theorem placed_of_target_eq (hr : 0 < r) {k position : ℕ}
    (hbehind : position + gap dirty k * r ≤ h + k * r)
    (htarget : target h r k position (gap dirty k % 2 ^ 32) = h + k * r) :
    (gap dirty k = 0 → position = h + k * r) ∧
      (0 < gap dirty k → gap dirty k % 2 ^ 32 ≠ 0) := by
  unfold target at htarget
  constructor
  · intro hgap
    rwa [hgap, Nat.zero_mod, if_neg (lt_irrefl 0)] at htarget
  · intro hgap hskip
    rw [hskip, if_neg (lt_irrefl 0)] at htarget
    have := Nat.mul_pos hgap hr
    omega

/-- The last row written out of its place is unfinished: all later ones are sought. -/
theorem slotLoop_after_misplaced (hr : 0 < r) {rows : List Bytes}
    (hrows : ∀ row ∈ rows, row.length = r) {k : ℕ} (position : ℕ) {content : Bytes}
    (hu : WrittenInPlace r f dirty (k + rows.length) k) (hd : dirty k = false)
    (hlength : h + (k + rows.length) * r ≤ content.length) {i : ℕ} (hi : i < k) :
    (slotLoop h r f dirty rows k position (gap dirty k % 2 ^ 32) content)[lastCell h r i]? =
      content[lastCell h r i]? := by
  have hposition : OnTrack h r dirty (k + rows.length) k position := fun _ hdirty =>
    absurd (hd.symm.trans hdirty) (by simp)
  have hinside : h + (i + 1) * r ≤ content.length := by
    have := Nat.mul_le_mul_right r (show i + 1 ≤ k + rows.length by omega)
    omega
  have hslot : (slot h r content i).length = r := by
    rw [slot, List.length_take, List.length_drop]
    rw [Nat.succ_mul] at hinside
    omega
  have hkept := (slotLoop_filled hr hrows hu hposition).kept i _ hslot rfl (.inl hi)
  have hcell := (slot_eq_iff hslot).mp hkept (r - 1) (by omega)
  have hold := (slot_eq_iff hslot).mp (rfl : slot h r content i = _) (r - 1) (by omega)
  rw [lastCell, hcell, hold]

/-- A row that is written before its place is followed by a clean one, if by any. -/
theorem slotLoop_behind_misplaced (hr : 0 < r) {rows : List Bytes}
    (hrows : ∀ row ∈ rows, row.length = r) {k position : ℕ} {content : Bytes}
    (hafter : gap dirty (k + 1) = 0) (hbefore : position < h + (k + 1) * r)
    (hu : WrittenInPlace r f dirty (k + 1 + rows.length) (k + 1))
    (hontrack : OnTrack h r dirty (k + 1 + rows.length) (k + 1) position)
    (hlength : (∃ i < k + 1 + rows.length, dirty i = false) →
      h + (k + 1 + rows.length) * r ≤ content.length) :
    (slotLoop h r f dirty rows (k + 1) position 0 content)[lastCell h r k]? =
      content[lastCell h r k]? := by
  cases rows with
  | nil => rfl
  | cons next rows =>
      have hnext : k + 1 < k + 1 + (next :: rows).length := by
        rw [List.length_cons]
        omega
      have hclean : dirty (k + 1) = false := by
        by_contra hdirty
        have hposition := hontrack hnext (by simpa using hdirty) hafter
        omega
      have hlater := slotLoop_after_misplaced hr hrows position hu hclean
        (hlength ⟨k + 1, hnext, hclean⟩) k.lt_succ_self
      rwa [hafter, Nat.zero_mod] at hlater

/-- Either every dirty row is written in its place or one of them is unfinished: it meets
a fault, or it is the last one that is written elsewhere. -/
theorem slotLoop_outcome (hr : 0 < r) {rows : List Bytes} (hrows : ∀ row ∈ rows, row.length = r)
    {k : ℕ} (position : ℕ) (content : Bytes) (hbehind : position + gap dirty k * r ≤ h + k * r)
    (hlength : (∃ i < k + rows.length, dirty i = false) →
      h + (k + rows.length) * r ≤ content.length) :
    (∃ i, k ≤ i ∧ i < k + rows.length ∧ dirty i = true ∧
      (slotLoop h r f dirty rows k position (gap dirty k % 2 ^ 32) content)[lastCell h r i]? =
        content[lastCell h r i]?) ∨
    WrittenInPlace r f dirty (k + rows.length) k ∧
      OnTrack h r dirty (k + rows.length) k position := by
  induction rows generalizing k position content with
  | nil =>
      refine .inr ⟨fun i hi hn _ => ?_, fun hk => absurd hk (lt_irrefl k)⟩
      rw [List.length_nil] at hn
      omega
  | cons row rows ih =>
      have hcount : k + (row :: rows).length = k + 1 + rows.length := by
        rw [List.length_cons]
        omega
      have hrow := hrows row (by simp)
      have hrest : ∀ s ∈ rows, s.length = r := fun s hs => hrows s (by simp [hs])
      have hnext : h + (k + 1) * r = h + k * r + r := by
        rw [Nat.succ_mul]
        omega
      rw [hcount] at hlength ⊢
      cases hd : dirty k with
      | false =>
          have hgap : gap dirty (k + 1) * r = gap dirty k * r + r := by
            rw [gap_clean hd, Nat.succ_mul]
          rw [slotLoop_clean hd]
          rcases ih hrest position content (by omega) hlength with
            ⟨i, hki, hin, hdi, hcell⟩ | ⟨hu, -⟩
          · exact .inl ⟨i, by omega, hin, hdi, hcell⟩
          · refine .inr ⟨undisturbed_of_after_clean hd hu, fun _ hdirty => ?_⟩
            exact absurd (hd.symm.trans hdirty) (by simp)
      | true =>
          have htarget := target_le hbehind
          set position' := target h r k position (gap dirty k % 2 ^ 32) with hposition'
          set written := row.take (f.accept k) with hwritten
          have hwrittenLength : written.length = min (f.accept k) r := by
            rw [hwritten, List.length_take, hrow]
          -- the cells behind what is written stay
          have hkeep : ∀ i, k ≤ i → position' + written.length ≤ lastCell h r i →
              (writeAt 0 content position' written)[lastCell h r i]? = content[lastCell h r i]? :=
            fun i _ hle => getElem?_writeAt_behind hle
          rw [slotLoop_step hd]
          split_ifs with hseek hshort
          · exact .inl ⟨k, le_rfl, by omega, hd, rfl⟩
          · have hlt : written.length < r := lt_of_le_of_ne (by omega) hshort
            refine .inl ⟨k, le_rfl, by omega, hd, hkeep k le_rfl ?_⟩
            unfold lastCell
            omega
          · have hfull : written.length = r := not_not.mp hshort
            have haccept : r ≤ f.accept k := by omega
            have hafter : gap dirty (k + 1) = 0 := gap_dirty hd
            have hgrow := length_le_writeAt 0 content written position'
            have hih := ih hrest (position' + r) (writeAt 0 content position' written)
              (by rw [hafter]; omega) fun hclean => (hlength hclean).trans hgrow
            rw [hafter, Nat.zero_mod] at hih
            rcases hih with ⟨i, hki, hin, hdi, hcell⟩ | ⟨hu, hontrack⟩
            · refine .inl ⟨i, by omega, hin, hdi, hcell.trans (hkeep i (by omega) ?_)⟩
              have := Nat.mul_le_mul_right r hki
              unfold lastCell
              rw [hfull]
              omega
            · by_cases hplaced : position' = h + k * r
              · obtain ⟨hzero, hpos⟩ := placed_of_target_eq hr hbehind hplaced
                refine .inr ⟨undisturbed_of_after_dirty haccept (fun hgap => ⟨hpos hgap, ?_⟩) hu,
                  fun _ _ => hzero⟩
                by_contra hfalse
                exact hseek ⟨Nat.pos_of_ne_zero (hpos hgap), by simpa using hfalse⟩
              · refine .inl ⟨k, le_rfl, by omega, hd, ?_⟩
                have hlater := slotLoop_behind_misplaced hr hrest hafter (by omega) hu hontrack
                  fun hclean => (hlength hclean).trans hgrow
                exact hlater.trans (hkeep k le_rfl (by unfold lastCell; omega))

/-- Rows written behind the first cell of a file do not give it a nonzero
value. -/
theorem slotLoop_first {b : UInt8} (hb : b ≠ 0) (hh : 0 < h) {rows : List Bytes}
    {k position skipped : ℕ} {content : Bytes} (hposition : 0 < position)
    (hfirst : content[0]? ≠ some b) :
    (slotLoop h r f dirty rows k position skipped content)[0]? ≠ some b := by
  induction rows generalizing k position skipped content with
  | nil => exact hfirst
  | cons row rows ih =>
      cases hd : dirty k with
      | false =>
          rw [slotLoop, if_neg (by simp [hd])]
          exact ih hposition hfirst
      | true =>
          have htarget : 0 < target h r k position skipped := by
            unfold target
            split_ifs
            · omega
            · exact hposition
          have hkeep : (writeAt 0 content (target h r k position skipped)
              (row.take (f.accept k)))[0]? ≠ some b := by
            by_cases hnil : row.take (f.accept k) = []
            · rwa [hnil, writeAt_nil]
            · rw [getElem?_writeAt 0 _ _ hnil, if_neg (by omega)]
              split_ifs
              · exact hfirst
              · simpa using Ne.symm hb
          rw [slotLoop_step hd]
          split_ifs
          · exact hfirst
          · exact hkeep
          · exact ih (by omega) hkeep

end Loop

variable {α : Type} (L : Layout α)

/-- The file begins with the schema and holds the bytes of every row. -/
def InLine (rs : List (Row α)) (file : Option Bytes) : Prop :=
  ∃ content, file = some content ∧ content.take L.schema.headerSize = L.schema.bytes ∧
    ∀ (i : ℕ) (r : Row α), rs[i]? = some r →
      slot L.schema.headerSize L.rowSize content i = L.rowBytes r

/-- Every row whose bytes are not in the file is still dirty. -/
def Pending (t : Table α) (rs : List (Row α)) (file : Option Bytes) : Prop :=
  ∀ (i : ℕ) (r : Row α), rs[i]? = some r → fileSlot L file i ≠ some (L.rowBytes r) →
    dirtyOf t i = true ∧ t.isDirty = true

/-- A file that the table may have before a save. -/
structure Tracked (t : Table α) (rs : List (Row α)) (file : Option Bytes) : Prop where
  header : ∀ content, file = some content →
    content.take L.schema.headerSize = L.schema.bytes
  pending : Pending L t rs file

/-- Either the save reports success and the file is in line with the rows, or
what is missing is still dirty and the next save without faults writes it. -/
def LosesNothing (f : FileFaults) (t : Table α) (rs : List (Row α)) (file : Option Bytes) :
    Prop :=
  ∃ t' file' result, t.write L f file = some (t', file', result) ∧
    (result = true ∧ InLine L rs file' ∨
      Pending L t' rs file' ∧ ∃ t'' file'',
        t'.write L (noFaults L) file' = some (t'', file'', true) ∧ InLine L rs file'')

/-- The faults that cannot lose a row: the save ends before it touches a file
that exists, and the next one can write every row in its place, or no dirty row is
written short, in the wrong place or not at all. -/
def Harmless (f : FileFaults) (t : Table α) (rowCount : ℕ) (fileExists : Bool) : Prop :=
  fileExists = true ∧
    (t.isDirty = false ∨ f.seekStart = false ∧ Spaced (dirtyOf t) rowCount) ∨
  f.seekStart = true ∧
    (f.seekHeader = true ∨ fileExists = false ∨ rowCount = 0 ∨ dirtyOf t 0 = false) ∧
    WrittenInPlace L.rowSize f (dirtyOf t) rowCount 0

section Save
variable {L} {t : Table α} {rs : List (Row α)} {f : FileFaults}

/-- The table after the row loop and a successful close. -/
def saved (t : Table α) : Table α := { t with isDirty := false, dirtyRows := ∅ }

theorem headerSize_pos : 0 < L.schema.headerSize := by
  simp [Schema.headerSize, HEADER_SIZE]

variable (L) in
/-- Where the row loop starts. -/
def start (f : FileFaults) (file : Option Bytes) : ℕ :=
  if f.seekHeader = true ∨ file = none then L.schema.headerSize else 0

theorem start_le (file : Option Bytes) : start L f file ≤ L.schema.headerSize := by
  unfold start
  split_ifs
  · exact le_rfl
  · exact Nat.zero_le _

theorem onTrack_start_iff (file : Option Bytes) {dirty : ℕ → Bool} {n : ℕ} :
    OnTrack L.schema.headerSize L.rowSize dirty n 0 (start L f file) ↔
      f.seekHeader = true ∨ file.isSome = false ∨ n = 0 ∨ dirty 0 = false := by
  have hnone : file.isSome = false ↔ file = none := by simp
  have hpos := headerSize_pos (L := L)
  rw [hnone, ← or_assoc]
  unfold OnTrack start
  split_ifs with hstart
  · simp [hstart]
  · constructor
    · intro hontrack
      refine .inr ?_
      by_contra hnot
      rw [not_or, Bool.not_eq_false] at hnot
      have := hontrack (Nat.pos_of_ne_zero hnot.1) hnot.2 rfl
      omega
    · rintro (h | h | h) hn hdirty
      · exact absurd h hstart
      · omega
      · exact absurd (hdirty.symm.trans h) (by simp)

/-- A save that gets as far as the row loop. -/
theorem write_eq (hc : Core L t rs) (hopened : f.opened = true) (hclosed : f.closed = true)
    (hstart : f.seekStart = true) (file : Option Bytes)
    (hdirty : file.isSome = true → t.isDirty = true) :
    t.write L f file = some (saved t, some (slotLoop L.schema.headerSize L.rowSize f (dirtyOf t)
      (rs.map L.rowBytes) 0 (start L f file) 0 (file.getD L.schema.bytes)), true) := by
  have hgo : ¬ (!t.isDirty && file.isSome) = true := by
    cases hfile : file.isSome
    · simp
    · simp [hdirty hfile]
  rw [Table.write, if_neg hgo, if_neg (by simp [hopened]), if_neg (by simp [hstart])]
  cases file with
  | none =>
      simp only [writeRows_eq hc, hc.schema, schema_bytes_length, ite_self, hclosed, if_true,
        Option.bind_eq_bind, Option.bind_some, or_true, Option.getD_none, saved, start]
  | some content =>
      simp only [writeRows_eq hc, hclosed, if_true, Option.bind_eq_bind, Option.bind_some,
        reduceCtorEq, or_false, Option.getD_some, start]
      rfl

/-- An undisturbed loop over a tracked file brings it in line. -/
theorem inLine_of_undisturbed {content : Bytes} {position : ℕ}
    (hheader : content.take L.schema.headerSize = L.schema.bytes)
    (hpending : ∀ (i : ℕ) (r : Row α), rs[i]? = some r →
      slot L.schema.headerSize L.rowSize content i ≠ L.rowBytes r → dirtyOf t i = true)
    (hu : WrittenInPlace L.rowSize f (dirtyOf t) rs.length 0)
    (hposition : OnTrack L.schema.headerSize L.rowSize (dirtyOf t) rs.length 0 position) :
    InLine L rs (some (slotLoop L.schema.headerSize L.rowSize f (dirtyOf t) (rs.map L.rowBytes) 0
      position 0 content)) := by
  have hfilled : Filled L.schema.headerSize L.rowSize (dirtyOf t) (rs.map L.rowBytes) 0 content
      (slotLoop L.schema.headerSize L.rowSize f (dirtyOf t) (rs.map L.rowBytes) 0
        position 0 content) :=
    slotLoop_filled (rowSize_pos L) (rowBytes_lengths L rs) (by simpa using hu)
      (by simpa using hposition)
  have hlong : L.schema.headerSize ≤ content.length := by
    have := congrArg List.length hheader
    rw [List.length_take, schema_bytes_length] at this
    omega
  refine ⟨_, rfl, (hfilled.header hlong).trans hheader, fun i r hr => ?_⟩
  have hrow : (rs.map L.rowBytes)[i]? = some (L.rowBytes r) := by
    rw [List.getElem?_map, hr, Option.map_some]
  cases hd : dirtyOf t i with
  | true =>
      have := hfilled.written i _ hrow (by rwa [Nat.zero_add])
      rwa [Nat.zero_add] at this
  | false =>
      refine hfilled.kept i _ (rowBytes_length L r) ?_ (.inr (.inr hd))
      by_contra hne
      exact absurd (hd.symm.trans (hpending i r hr hne)) (by simp)

/-- A save of a table that is not dirty leaves the file in line. -/
theorem write_inLine_of_clean {content : Bytes} (htracked : Tracked L t rs (some content))
    (hclean : t.isDirty = false) :
    t.write L f (some content) = some (t, some content, true) ∧ InLine L rs (some content) := by
  refine ⟨write_clean (by simp [hclean]), content, rfl, htracked.header content rfl,
    fun i r hr => ?_⟩
  by_contra hne
  have := (htracked.pending i r hr (by simpa [fileSlot] using hne)).2
  exact absurd (hclean.symm.trans this) (by simp)

/-- A save that does not stop early and meets no fault brings the file in line. -/
theorem write_inLine (hc : Core L t rs) (hopened : f.opened = true) (hclosed : f.closed = true)
    {file : Option Bytes} (htracked : Tracked L t rs file) (hstart : f.seekStart = true)
    (hposition : OnTrack L.schema.headerSize L.rowSize (dirtyOf t) rs.length 0 (start L f file))
    (hu : WrittenInPlace L.rowSize f (dirtyOf t) rs.length 0) :
    ∃ t' file', t.write L f file = some (t', file', true) ∧ InLine L rs file' := by
  by_cases hclean : file.isSome = true ∧ t.isDirty = false
  · obtain ⟨hfile, hclean⟩ := hclean
    obtain ⟨content, rfl⟩ := Option.isSome_iff_exists.mp hfile
    obtain ⟨hwrite, hinLine⟩ := write_inLine_of_clean (f := f) htracked hclean
    exact ⟨t, some content, hwrite, hinLine⟩
  · have hdirty : file.isSome = true → t.isDirty = true := by
      intro hfile
      by_contra hfalse
      exact hclean ⟨hfile, by simpa using hfalse⟩
    refine ⟨_, _, write_eq hc hopened hclosed hstart file hdirty, ?_⟩
    refine inLine_of_undisturbed ?_ (fun i r hr hne => ?_) hu hposition
    · cases file with
      | none => rw [Option.getD_none, ← schema_bytes_length, List.take_length]
      | some content => exact htracked.header content rfl
    · refine (htracked.pending i r hr fun heq => hne ?_).1
      obtain ⟨content, rfl, hslot⟩ := Option.map_eq_some_iff.mp heq
      exact hslot

theorem losesNothing_of_harmless (hc : Core L t rs) (hopened : f.opened = true)
    (hclosed : f.closed = true) {file : Option Bytes} (htracked : Tracked L t rs file)
    (hharmless : Harmless L f t rs.length file.isSome) : LosesNothing L f t rs file := by
  rcases hharmless with ⟨hfile, hearly⟩ | ⟨hstart, hheader, hu⟩
  · obtain ⟨content, rfl⟩ := Option.isSome_iff_exists.mp hfile
    by_cases hclean : t.isDirty = false
    · obtain ⟨hwrite, hinLine⟩ := write_inLine_of_clean (f := f) htracked hclean
      exact ⟨t, some content, true, hwrite, .inl ⟨rfl, hinLine⟩⟩
    · obtain ⟨hseek, hspaced⟩ := hearly.resolve_left hclean
      have hnext := write_inLine hc rfl rfl htracked rfl
        ((onTrack_start_iff (some content)).mpr (.inl rfl))
        (undisturbed_noFaults (L := L) hspaced 0)
      refine ⟨t, some content, false, ?_, .inr ⟨htracked.pending, hnext⟩⟩
      simp [Table.write, hclean, hopened, hseek]
  · obtain ⟨t', file', hwrite, hinLine⟩ := write_inLine hc hopened hclosed htracked hstart
      ((onTrack_start_iff file).mpr hheader) hu
    exact ⟨t', file', true, hwrite, .inl ⟨rfl, hinLine⟩⟩

/-- Nothing is dirty after the row loop. -/
theorem not_pending_saved {file : Option Bytes} {i : ℕ} {r : Row α} (hr : rs[i]? = some r)
    (hslot : fileSlot L file i ≠ some (L.rowBytes r)) : ¬ Pending L (saved t) rs file := by
  intro hpending
  have := (hpending i r hr hslot).2
  exact absurd this (by simp [saved])

/-- A slot whose last cell is not that of the row does not hold the row. -/
theorem slot_ne_of_lastCell {content : Bytes} {i : ℕ} {r : Row α}
    (hcell : content[lastCell L.schema.headerSize L.rowSize i]? ≠
      (L.rowBytes r)[L.rowSize - 1]?) :
    slot L.schema.headerSize L.rowSize content i ≠ L.rowBytes r := by
  intro hslot
  have hpos := rowSize_pos L
  exact hcell ((slot_eq_iff (rowBytes_length L r)).mp hslot (L.rowSize - 1) (by omega))

/-- A save that leaves a row unfinished loses it. -/
theorem loses_of_lastCell {file : Option Bytes} {content : Bytes}
    (hwrite : t.write L f file = some (saved t, some content, true)) {i : ℕ} {r : Row α}
    (hr : rs[i]? = some r)
    (hcell : content[lastCell L.schema.headerSize L.rowSize i]? ≠
      (L.rowBytes r)[L.rowSize - 1]?) : ¬ LosesNothing L f t rs file := by
  have hslot := slot_ne_of_lastCell hcell
  rintro ⟨t', file', result, hwrite', hlose⟩
  rw [hwrite, Option.some.injEq, Prod.mk.injEq, Prod.mk.injEq] at hwrite'
  obtain ⟨rfl, rfl, rfl⟩ := hwrite'
  rcases hlose with ⟨-, content', hfile, -, hslots⟩ | ⟨hpending, -⟩
  · obtain rfl := Option.some.inj hfile
    exact hslot (hslots i r hr)
  · exact not_pending_saved hr (by simpa [fileSlot] using hslot) hpending

/-- A new file whose start cannot be sought stays without its schema. -/
theorem loses_new_seekStart (hc : Core L t rs) (hopened : f.opened = true)
    (hstart : f.seekStart = false) : ¬ LosesNothing L f t rs none := by
  have hsignature : L.schema.bytes[0]? = some 0xca := by
    simp only [Schema.bytes, List.append_assoc]
    rfl
  have hnot : ∀ content : Bytes, content[0]? ≠ some 0xca → ¬ InLine L rs (some content) := by
    rintro content hfirst ⟨content', hfile, hheader, -⟩
    obtain rfl := Option.some.inj hfile
    apply hfirst
    rw [← hsignature, ← hheader, List.getElem?_take, if_pos headerSize_pos]
  rintro ⟨t', file', result, hwrite, hlose⟩
  have hsaved : t.write L f none = some (t, some [], false) := by
    simp [Table.write, hopened, hstart]
  rw [hsaved, Option.some.injEq, Prod.mk.injEq, Prod.mk.injEq] at hwrite
  obtain ⟨rfl, rfl, rfl⟩ := hwrite
  rcases hlose with ⟨hfalse, -⟩ | ⟨-, t'', file'', hwrite, hinLine⟩
  · exact absurd hfalse (by simp)
  · by_cases hclean : t.isDirty = false
    · simp only [Table.write, hclean, Bool.not_false, Option.isSome_some, Bool.and_self, if_true,
        Option.some.injEq, Prod.mk.injEq] at hwrite
      obtain ⟨-, rfl, -⟩ := hwrite
      exact hnot [] (by simp) hinLine
    · rw [write_eq hc rfl rfl rfl (some []) (fun _ => by simpa using hclean), Option.some.injEq,
        Prod.mk.injEq, Prod.mk.injEq] at hwrite
      obtain ⟨-, rfl, -⟩ := hwrite
      refine hnot _ (slotLoop_first (by decide) headerSize_pos ?_ (by simp)) hinLine
      simpa [noFaults, start] using headerSize_pos

/-- A new file in which the loop meets a fault lacks a row. -/
theorem loses_new_disturbed (hc : Core L t rs) (hopened : f.opened = true)
    (hclosed : f.closed = true) (hstart : f.seekStart = true) (htracked : Tracked L t rs none)
    (hu : ¬ WrittenInPlace L.rowSize f (dirtyOf t) rs.length 0) :
    ¬ LosesNothing L f t rs none := by
  have hwrite := write_eq hc hopened hclosed hstart none (by simp)
  have hpos := rowSize_pos L
  have hcount : 0 + (rs.map L.rowBytes).length = rs.length := by simp
  -- without a file every row is dirty
  have hall : ¬ ∃ i < rs.length, dirtyOf t i = false := by
    rintro ⟨i, hi, hclean⟩
    have := (htracked.pending i _ (List.getElem?_eq_getElem hi) (by simp [fileSlot])).1
    exact absurd (hclean.symm.trans this) (by simp)
  have hbehind : start L f none + gap (dirtyOf t) 0 * L.rowSize ≤
      L.schema.headerSize + 0 * L.rowSize := by simpa [gap] using start_le none
  rcases slotLoop_outcome (f := f) hpos (rowBytes_lengths L rs) _ L.schema.bytes hbehind
    fun hclean => absurd (hcount ▸ hclean) hall with ⟨i, -, hin, -, hcell⟩ | ⟨hundisturbed, -⟩
  · rw [hcount] at hin
    refine loses_of_lastCell (r := rs[i]) hwrite (List.getElem?_eq_getElem hin) ?_
    rw [Option.getD_none]
    refine fun heq => absurd (hcell.symm.trans heq) ?_
    rw [List.getElem?_eq_none, List.getElem?_eq_getElem]
    · simp
    · rw [rowBytes_length]
      omega
    · rw [schema_bytes_length, lastCell]
      omega
  · exact absurd (hcount ▸ hundisturbed) hu

/-- A row with another last byte. -/
def smear (row : Bytes) : Bytes := row.set (row.length - 1) (row.getD (row.length - 1) 0 + 1)

theorem smear_length (row : Bytes) : (smear row).length = row.length := by simp [smear]

theorem smear_last (row : Bytes) (hrow : 0 < row.length) :
    (smear row)[row.length - 1]? ≠ row[row.length - 1]? := by
  rw [smear, List.getElem?_set_self (by omega), List.getD_eq_getElem?_getD,
    List.getElem?_eq_getElem (by omega)]
  simp

variable (L) in
/-- A file in which every dirty row differs from the table at its last byte. -/
def smearedFile (t : Table α) (rs : List (Row α)) : Bytes :=
  L.schema.bytes ++ ((rs.map L.rowBytes).mapIdx fun i row =>
    if dirtyOf t i then smear row else row).flatten

theorem smeared_rows_length :
    ∀ row ∈ (rs.map L.rowBytes).mapIdx (fun i row => if dirtyOf t i then smear row else row),
      row.length = L.rowSize := by
  intro row hrow
  obtain ⟨i, hi, rfl⟩ := List.mem_mapIdx.mp hrow
  have := rowBytes_lengths L rs _ (List.getElem_mem hi)
  split_ifs
  · rw [smear_length, this]
  · exact this

theorem slot_smearedFile {i : ℕ} {r : Row α} (hr : rs[i]? = some r) :
    slot L.schema.headerSize L.rowSize (smearedFile L t rs) i =
      if dirtyOf t i then smear (L.rowBytes r) else L.rowBytes r := by
  rw [smearedFile, slot_image (schema_bytes_length L) smeared_rows_length, List.getElem?_mapIdx,
    List.getElem?_map, hr]
  rfl

theorem smearedFile_length :
    (smearedFile L t rs).length = L.schema.headerSize + rs.length * L.rowSize := by
  rw [smearedFile, List.length_append, schema_bytes_length,
    length_flatten_of_length smeared_rows_length, List.length_mapIdx, List.length_map]

theorem tracked_smearedFile (hdirty : t.isDirty = true) :
    Tracked L t rs (some (smearedFile L t rs)) where
  header content hcontent := by
    obtain rfl := Option.some.inj hcontent
    rw [smearedFile, ← schema_bytes_length, List.take_left]
  pending i r hr hne := by
    refine ⟨?_, hdirty⟩
    by_contra hclean
    exact hne (by rw [fileSlot, Option.map_some, slot_smearedFile hr, if_neg hclean])

/-- The last byte of a dirty row in the smeared file is not that of the row. -/
theorem lastCell_smearedFile {i : ℕ} {r : Row α} (hr : rs[i]? = some r)
    (hdirty : dirtyOf t i = true) :
    (smearedFile L t rs)[lastCell L.schema.headerSize L.rowSize i]? ≠
      (L.rowBytes r)[L.rowSize - 1]? := by
  have hpos := rowSize_pos L
  have hslot := slot_smearedFile (L := L) (t := t) hr
  rw [if_pos hdirty] at hslot
  have hcell := (slot_eq_iff ((smear_length _).trans (rowBytes_length L r))).mp hslot
    (L.rowSize - 1) (by omega)
  have hlast := smear_last (L.rowBytes r) (by rw [rowBytes_length]; exact hpos)
  rw [rowBytes_length] at hlast
  rw [lastCell, hcell]
  exact hlast

/-- A loop that does not write every dirty row in its place leaves one of them in the
smeared file. -/
theorem unfinished_smearedFile {position : ℕ} (hposition : position ≤ L.schema.headerSize)
    (hfault : ¬ (WrittenInPlace L.rowSize f (dirtyOf t) rs.length 0 ∧
      OnTrack L.schema.headerSize L.rowSize (dirtyOf t) rs.length 0 position)) :
    ∃ (i : ℕ) (r : Row α), rs[i]? = some r ∧
      (slotLoop L.schema.headerSize L.rowSize f (dirtyOf t) (rs.map L.rowBytes) 0 position 0
        (smearedFile L t rs))[lastCell L.schema.headerSize L.rowSize i]? ≠
      (L.rowBytes r)[L.rowSize - 1]? := by
  have hcount : 0 + (rs.map L.rowBytes).length = rs.length := by simp
  have hbehind : position + gap (dirtyOf t) 0 * L.rowSize ≤
      L.schema.headerSize + 0 * L.rowSize := by simpa [gap] using hposition
  have hlength : L.schema.headerSize + (0 + (rs.map L.rowBytes).length) * L.rowSize ≤
      (smearedFile L t rs).length := by rw [hcount, smearedFile_length]
  rcases slotLoop_outcome (f := f) (rowSize_pos L) (rowBytes_lengths L rs) _ (smearedFile L t rs)
    hbehind fun _ => hlength with ⟨i, -, hin, hdi, hcell⟩ | hplaced
  · rw [hcount] at hin
    have hr := List.getElem?_eq_getElem hin
    exact ⟨i, _, hr, fun heq => lastCell_smearedFile hr hdi (hcell.symm.trans heq)⟩
  · rw [hcount] at hplaced
    exact absurd hplaced hfault

/-- Some file that the table may have loses a row when a dirty row is written
short, in the wrong place or not at all. -/
theorem loses_smearedFile (hc : Core L t rs) (hopened : f.opened = true)
    (hclosed : f.closed = true) (hstart : f.seekStart = true) (hdirty : t.isDirty = true)
    (hfault : ¬ (WrittenInPlace L.rowSize f (dirtyOf t) rs.length 0 ∧
      OnTrack L.schema.headerSize L.rowSize (dirtyOf t) rs.length 0
        (start L f (some (smearedFile L t rs))))) :
    ¬ LosesNothing L f t rs (some (smearedFile L t rs)) := by
  obtain ⟨i, r, hr, hcell⟩ := unfinished_smearedFile (start_le _) hfault
  exact loses_of_lastCell
    (write_eq hc hopened hclosed hstart (some (smearedFile L t rs)) fun _ => hdirty) hr hcell

/-- A save that ends before it touches the file leaves to the next one what that cannot
write in place. -/
theorem loses_later (hc : Core L t rs) (hopened : f.opened = true) (hstart : f.seekStart = false)
    (hdirty : t.isDirty = true) (hspaced : ¬ Spaced (dirtyOf t) rs.length) :
    ¬ LosesNothing L f t rs (some (smearedFile L t rs)) := by
  have hfault : ¬ (WrittenInPlace L.rowSize (noFaults L) (dirtyOf t) rs.length 0 ∧
      OnTrack L.schema.headerSize L.rowSize (dirtyOf t) rs.length 0
        (start L (noFaults L) (some (smearedFile L t rs)))) := by
    refine fun hplaced => hspaced fun i hi hd hgap => ?_
    exact ((hplaced.1 i (Nat.zero_le i) hi hd).2 hgap).1
  obtain ⟨i, r, hr, hcell⟩ := unfinished_smearedFile (start_le _) hfault
  have hslot := slot_ne_of_lastCell hcell
  have hsaved : t.write L f (some (smearedFile L t rs)) =
      some (t, some (smearedFile L t rs), false) := by
    simp [Table.write, hdirty, hopened, hstart]
  rintro ⟨t', file', result, hwrite, hlose⟩
  rw [hsaved, Option.some.injEq, Prod.mk.injEq, Prod.mk.injEq] at hwrite
  obtain ⟨rfl, rfl, rfl⟩ := hwrite
  rcases hlose with ⟨hfalse, -⟩ | ⟨-, t'', file'', hwrite, content, hfile, -, hslots⟩
  · exact absurd hfalse (by simp)
  · rw [write_eq hc rfl rfl rfl _ fun _ => hdirty, Option.some.injEq, Prod.mk.injEq,
      Prod.mk.injEq] at hwrite
    obtain ⟨-, rfl, -⟩ := hwrite
    obtain rfl := Option.some.inj hfile
    exact hslot (hslots i r hr)

end Save

/-- A save loses no row, whatever the file held for the dirty rows before,
exactly when its faults are harmless. -/
theorem losesNothing_iff {t : Table α} {rs : List (Row α)} (hc : Core L t rs)
    {file : Option Bytes} (htracked : Tracked L t rs file) (f : FileFaults)
    (hopened : f.opened = true) (hclosed : f.closed = true) :
    (∀ file', file'.isSome = file.isSome → Tracked L t rs file' → LosesNothing L f t rs file') ↔
      Harmless L f t rs.length file.isSome := by
  constructor
  · intro hall
    by_contra hharmful
    unfold Harmless at hharmful
    cases file with
    | none =>
        refine absurd (hall none rfl htracked) ?_
        cases hstart : f.seekStart with
        | false => exact loses_new_seekStart hc hopened hstart
        | true =>
            refine loses_new_disturbed hc hopened hclosed hstart htracked fun hu => hharmful ?_
            exact .inr ⟨hstart, .inr (.inl rfl), hu⟩
    | some content =>
        have hdirty : t.isDirty = true := by
          by_contra hclean
          exact hharmful (.inl ⟨rfl, .inl (by simpa using hclean)⟩)
        have hloses := hall (some (smearedFile L t rs)) rfl (tracked_smearedFile hdirty)
        cases hstart : f.seekStart with
        | false =>
            refine loses_later hc hopened hstart hdirty (fun hspaced => hharmful ?_) hloses
            exact .inl ⟨rfl, .inr ⟨hstart, hspaced⟩⟩
        | true =>
            refine loses_smearedFile hc hopened hclosed hstart hdirty
              (fun hplaced => hharmful ?_) hloses
            exact .inr ⟨hstart, (onTrack_start_iff (L := L) (some (smearedFile L t rs))).mp hplaced.2,
              hplaced.1⟩
  · intro hharmless file' hfile htracked'
    rw [← hfile] at hharmless
    exact losesNothing_of_harmless hc hopened hclosed htracked' hharmless

/-- The table of one class that was never saved. -/
def sampleTable : Table DomainTables.ClassFileCols where
  heap := AList.singleton 1 sampleRow
  rows := AList.singleton (ascii "a.jar@A") 1
  autoIncrementIndex := [1]
  isDirty := true
  dirtyRows := AList.singleton 0 .isNew
  schema := sampleLayout.schema

theorem core_sampleTable : Core sampleLayout sampleTable [sampleRow] :=
  core_singleton sampleLayout rfl _ _ _ _

theorem tracked_sampleTable : Tracked sampleLayout sampleTable [sampleRow] none where
  header := by simp
  pending i r hr _ := by
    cases i with
    | zero => exact ⟨rfl, rfl⟩
    | succ i => simp at hr

/-- The seek to the first row fails, which a new file does not need. -/
theorem losesNothing_new_file :
    LosesNothing sampleLayout { noFaults sampleLayout with seekHeader := false } sampleTable
      [sampleRow] none := by
  refine (losesNothing_iff sampleLayout core_sampleTable tracked_sampleTable
    { noFaults sampleLayout with seekHeader := false } rfl rfl).mpr ?_ none rfl tracked_sampleTable
  exact .inr ⟨rfl, .inr (.inl rfl), undisturbed_noFaults (spaced_of_le (by decide)) 0⟩

/-- The disk takes ten of the hundred bytes of the only row. -/
theorem loses_short_row :
    Core sampleLayout sampleTable [sampleRow] ∧
      Tracked sampleLayout sampleTable [sampleRow] none ∧
      ¬ LosesNothing sampleLayout { noFaults sampleLayout with accept := fun _ => 10 }
        sampleTable [sampleRow] none := by
  refine ⟨core_sampleTable, tracked_sampleTable, ?_⟩
  refine loses_new_disturbed core_sampleTable rfl rfl rfl tracked_sampleTable fun hu => ?_
  have hshort : sampleLayout.rowSize ≤ 10 := (hu 0 le_rfl (by simp) rfl).1
  exact absurd hshort (by decide)

end Tarracsh.TableFailure
