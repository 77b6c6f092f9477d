import Tarracsh.TableInvariant

/-!
# What the write loop leaves in the file

`slotLoop` is the loop of `writeRows` once the pointers have been resolved. It
seeks to a dirty row behind clean ones, unless the 32 bits of the number of clean
rows are all zero. WrittenInPlace by that and by faults it fills the slot of every
dirty row and keeps all others.
-/
namespace Tarracsh.TableFile
open ByteStrings ByteFiles TableModel TableInvariant

section Loop
variable (h r : ℕ) (f : FileFaults) (dirty : ℕ → Bool)

def slotLoop : List Bytes → (i position skipped : ℕ) → Bytes → Bytes
  | [], _, _, _, content => content
  | row :: rows, i, position, skipped, content =>
      if dirty i then
        if 0 < skipped ∧ f.seekRow i = false then content
        else
          let position := if 0 < skipped then h + i * r else position
          let written := row.take (f.accept i)
          let content := writeAt 0 content position written
          if written.length ≠ r then content
          else slotLoop rows (i + 1) (position + r) 0 content
      else slotLoop rows (i + 1) position ((skipped + 1) % 2 ^ 32) content

/-- How many clean rows stand directly before row `i`. -/
def gap : ℕ → ℕ
  | 0 => 0
  | i + 1 => if dirty i then 0 else gap i + 1

/-- If the loop writes row `k` of `n` without a seek, it stands at its place. -/
def OnTrack (n k position : ℕ) : Prop :=
  k < n → dirty k = true → gap dirty k = 0 → position = h + k * r

/-- No dirty row stands directly behind a positive multiple of 2^32 clean ones. -/
def Spaced (n : ℕ) : Prop :=
  ∀ i < n, dirty i = true → 0 < gap dirty i → gap dirty i % 2 ^ 32 ≠ 0

/-- No dirty row from `k` to `n` meets a fault or is written where the loop stands
instead of in its place. -/
def WrittenInPlace (n k : ℕ) : Prop :=
  ∀ i, k ≤ i → i < n → dirty i = true →
    r ≤ f.accept i ∧
      (0 < gap dirty i → gap dirty i % 2 ^ 32 ≠ 0 ∧ f.seekRow i = true)

/-- The last cell of slot `i`. -/
def lastCell (i : ℕ) : ℕ := h + i * r + (r - 1)

variable {h r f dirty}

theorem gap_dirty {i : ℕ} (hd : dirty i = true) : gap dirty (i + 1) = 0 := by
  rw [gap, if_pos hd]

theorem gap_clean {i : ℕ} (hd : dirty i = false) : gap dirty (i + 1) = gap dirty i + 1 := by
  rw [gap, if_neg (by simp [hd])]

theorem gap_le (i : ℕ) : gap dirty i ≤ i := by
  induction i with
  | zero => exact le_rfl
  | succ i ih =>
      rw [gap]
      split_ifs <;> omega

/-- Below 2^32 rows there is no room for so many clean ones. -/
theorem spaced_of_le {n : ℕ} (hn : n ≤ 2 ^ 32) : Spaced dirty n := by
  intro i hi _ hpos
  have : gap dirty i ≤ i := gap_le i
  rw [Nat.mod_eq_of_lt (by omega)]
  omega

theorem WrittenInPlace.mono {n k k' : ℕ} (hu : WrittenInPlace r f dirty n k) (hk : k ≤ k') :
    WrittenInPlace r f dirty n k' := fun i hi => hu i (hk.trans hi)

/-- The loop at a dirty row without a fault. -/
theorem slotLoop_dirty {row : Bytes} {rows : List Bytes} {i position : ℕ}
    {content : Bytes} (hdirty : dirty i = true) (hrow : row.length = r)
    (hposition : gap dirty i = 0 → position = h + i * r) (haccept : r ≤ f.accept i)
    (hgap : 0 < gap dirty i → gap dirty i % 2 ^ 32 ≠ 0 ∧ f.seekRow i = true) :
    slotLoop h r f dirty (row :: rows) i position (gap dirty i % 2 ^ 32) content =
      slotLoop h r f dirty rows (i + 1) (h + (i + 1) * r) (gap dirty (i + 1) % 2 ^ 32)
        (writeAt 0 content (h + i * r) row) := by
  have hwritten : row.take (f.accept i) = row := List.take_of_length_le (by omega)
  have hpos : (if 0 < gap dirty i % 2 ^ 32 then h + i * r else position) = h + i * r := by
    split_ifs with hs
    · rfl
    · refine hposition (Nat.eq_zero_of_not_pos fun hpos => hs ?_)
      exact Nat.pos_of_ne_zero (hgap hpos).1
  have hnot : ¬ (0 < gap dirty i % 2 ^ 32 ∧ f.seekRow i = false) := by
    rintro ⟨hs, hfail⟩
    have hseek := (hgap (hs.trans_le (Nat.mod_le _ _))).2
    exact absurd (hseek.symm.trans hfail) (by simp)
  rw [slotLoop, if_pos hdirty, if_neg hnot, gap_dirty hdirty]
  simp only [hpos, hwritten, hrow, ne_eq, not_true_eq_false, if_false, Nat.zero_mod]
  rw [Nat.succ_mul, Nat.add_assoc]

theorem slotLoop_clean {row : Bytes} {rows : List Bytes} {i position : ℕ}
    {content : Bytes} (hclean : dirty i = false) :
    slotLoop h r f dirty (row :: rows) i position (gap dirty i % 2 ^ 32) content =
      slotLoop h r f dirty rows (i + 1) position (gap dirty (i + 1) % 2 ^ 32) content := by
  rw [slotLoop, if_neg (by simp [hclean]), gap_clean hclean, Nat.mod_add_mod]

theorem onTrack_self {n i : ℕ} : OnTrack h r dirty n i (h + i * r) := fun _ _ _ => rfl

theorem onTrack_clean {n i position : ℕ} (hclean : dirty i = false) :
    OnTrack h r dirty n (i + 1) position := by
  intro _ _ hgap
  rw [gap_clean hclean] at hgap
  omega

/-- What an undisturbed loop over the rows from `k` on leaves in the file. -/
structure Filled (h r : ℕ) (dirty : ℕ → Bool) (rows : List Bytes) (k : ℕ)
    (content content' : Bytes) : Prop where
  written : ∀ (j : ℕ) (row : Bytes), rows[j]? = some row → dirty (k + j) = true →
    slot h r content' (k + j) = row
  kept : ∀ (i : ℕ) (row : Bytes), row.length = r → slot h r content i = row →
    (i < k ∨ k + rows.length ≤ i ∨ dirty i = false) → slot h r content' i = row
  header : h ≤ content.length → content'.take h = content.take h
  longer : content.length ≤ content'.length
  bounded : content'.length ≤ max content.length (h + (k + rows.length) * r)

/-- A dirty row is written and the rows behind it follow. -/
theorem Filled.cons_dirty (hr : 0 < r) {row : Bytes} {rows : List Bytes} {k : ℕ}
    {content content' : Bytes} (hrow : row.length = r) (hd : dirty k = true)
    (hf : Filled h r dirty rows (k + 1) (writeAt 0 content (h + k * r) row) content') :
    Filled h r dirty (row :: rows) k content content' where
  written j s hs hds := by
    cases j with
    | zero =>
        obtain rfl := Option.some.inj hs
        exact hf.kept k row hrow (slot_writeAt_self 0 k hrow hr) (.inl (by omega))
    | succ j =>
        have := hf.written j s (by simpa using hs) (by rwa [Nat.add_right_comm])
        rwa [Nat.add_right_comm] at this
  kept i s hs hslot hout := by
    rw [List.length_cons] at hout
    have hik : k ≠ i := by
      rintro rfl
      rcases hout with hlt | hge | hclean
      · omega
      · omega
      · exact absurd (hd.symm.trans hclean) (by simp)
    apply hf.kept i s hs (slot_writeAt_of_ne 0 hik hrow.le hs hslot)
    rcases hout with hlt | hge | hclean
    · exact .inl (by omega)
    · exact .inr (.inl (by omega))
    · exact .inr (.inr hclean)
  header hh := by
    have hgrow := length_le_writeAt 0 content row (h + k * r)
    rw [hf.header (by omega), take_writeAt 0 hh (by omega)]
  longer := (length_le_writeAt 0 content row (h + k * r)).trans hf.longer
  bounded := by
    have hne : row ≠ [] := List.ne_nil_of_length_pos (by omega)
    have hbounded := hf.bounded
    have hstep : h + k * r + r ≤ h + (k + 1 + rows.length) * r := by
      rw [Nat.add_mul, Nat.succ_mul]
      omega
    have hcount : k + (row :: rows).length = k + 1 + rows.length := by
      rw [List.length_cons]
      omega
    rw [length_writeAt 0 content (h + k * r) hne, hrow] at hbounded
    rw [hcount]
    omega

/-- A clean row stays as it is. -/
theorem Filled.cons_clean {row : Bytes} {rows : List Bytes} {k : ℕ} {content content' : Bytes}
    (hd : dirty k = false) (hf : Filled h r dirty rows (k + 1) content content') :
    Filled h r dirty (row :: rows) k content content' where
  written j s hs hds := by
    cases j with
    | zero => exact absurd (hd.symm.trans hds) (by simp)
    | succ j =>
        have := hf.written j s (by simpa using hs) (by rwa [Nat.add_right_comm])
        rwa [Nat.add_right_comm] at this
  kept i s hs hslot hout := by
    rw [List.length_cons] at hout
    apply hf.kept i s hs hslot
    rcases hout with hlt | hge | hclean
    · exact .inl (by omega)
    · exact .inr (.inl (by omega))
    · exact .inr (.inr hclean)
  header := hf.header
  longer := hf.longer
  bounded := by
    have hbounded := hf.bounded
    rwa [Nat.add_right_comm, Nat.add_assoc] at hbounded

theorem slotLoop_filled (hr : 0 < r) {rows : List Bytes} (hrows : ∀ row ∈ rows, row.length = r)
    {k position : ℕ} {content : Bytes} (hu : WrittenInPlace r f dirty (k + rows.length) k)
    (hposition : OnTrack h r dirty (k + rows.length) k position) :
    Filled h r dirty rows k content
      (slotLoop h r f dirty rows k position (gap dirty k % 2 ^ 32) content) := by
  induction rows generalizing k position content with
  | nil => exact ⟨by simp, fun i row _ hs _ => hs, fun _ => rfl, le_rfl, le_max_left _ _⟩
  | cons row rows ih =>
      have hcount : k + (row :: rows).length = k + 1 + rows.length := by
        rw [List.length_cons]
        omega
      rw [hcount] at hu hposition
      have hrow := hrows row (by simp)
      have hrest : ∀ s ∈ rows, s.length = r := fun s hs => hrows s (by simp [hs])
      cases hd : dirty k with
      | true =>
          obtain ⟨haccept, hgap⟩ := hu k le_rfl (by omega) hd
          rw [slotLoop_dirty hd hrow (hposition (by omega) hd) haccept hgap]
          apply Filled.cons_dirty hr hrow hd
          exact ih hrest (hu.mono (by omega)) onTrack_self
      | false =>
          rw [slotLoop_clean hd]
          apply Filled.cons_clean hd
          exact ih hrest (hu.mono (by omega)) (onTrack_clean hd)

end Loop

variable {α : Type} (L : Layout α)

theorem rowSize_pos : 0 < L.rowSize := by
  unfold Layout.rowSize
  omega

theorem rowBytes_length (row : Row α) : (L.rowBytes row).length = L.rowSize := by
  simp only [Layout.rowBytes, List.length_append, littleEndian_length, L.encode_length,
    Layout.rowSize]

theorem rowBytes_lengths (rs : List (Row α)) :
    ∀ row ∈ rs.map L.rowBytes, row.length = L.rowSize := by
  intro row hrow
  obtain ⟨r, -, rfl⟩ := List.mem_map.mp hrow
  exact rowBytes_length L r

theorem schema_bytes_length : L.schema.bytes.length = L.schema.headerSize := by
  simp only [Schema.bytes, Schema.headerSize, List.length_append, littleEndian_length,
    L.name_length, length_flatten_of_length L.columns_length, HEADER_SIZE]

/-- The file of a table whose rows are all saved. -/
def image (rs : List (Row α)) : Bytes := L.schema.bytes ++ (rs.map L.rowBytes).flatten

/-- The bytes the file holds for the row `i`. -/
def fileSlot (file : Option Bytes) (i : ℕ) : Option Bytes :=
  file.map fun content => slot L.schema.headerSize L.rowSize content i

theorem slot_image_row {rs : List (Row α)} {i : ℕ} {r : Row α} (hr : rs[i]? = some r) :
    slot L.schema.headerSize L.rowSize (image L rs) i = L.rowBytes r := by
  rw [image, slot_image (schema_bytes_length L) (rowBytes_lengths L rs), List.getElem?_map, hr]
  rfl

theorem image_length (rs : List (Row α)) :
    (image L rs).length = L.schema.headerSize + rs.length * L.rowSize := by
  rw [image, List.length_append, schema_bytes_length,
    length_flatten_of_length (rowBytes_lengths L rs), List.length_map]

theorem image_header (rs : List (Row α)) :
    (image L rs).take L.schema.headerSize = L.schema.bytes := by
  rw [image, ← schema_bytes_length, List.take_left]

variable {L} {t : Table α} {rs : List (Row α)}

def dirtyOf (t : Table α) (i : ℕ) : Bool := (t.dirtyRows.lookup i).isSome

/-- On a table that represents its rows no assertion of the loop fails. -/
theorem writeLoop_eq (hschema : t.schema = L.schema) (f : FileFaults) {pointers : List ℕ}
    {rows : List (Row α)} (hheap : pointers.map t.heap.lookup = rows.map some) {k : ℕ}
    (hids : ∀ (j : ℕ) (r : Row α), rows[j]? = some r → r.id = k + j)
    (position skipped : ℕ) (content : Bytes) :
    t.writeLoop L f pointers k position skipped content =
      some (slotLoop L.schema.headerSize L.rowSize f (dirtyOf t) (rows.map L.rowBytes) k position
        skipped content) := by
  induction rows generalizing pointers k position skipped content with
  | nil =>
      obtain rfl : pointers = [] := by simpa using hheap
      rfl
  | cons r rows ih =>
      obtain ⟨p, pointers, rfl⟩ : ∃ p ps, pointers = p :: ps := by
        cases pointers with
        | nil => simp at hheap
        | cons p ps => exact ⟨p, ps, rfl⟩
      obtain ⟨hp, hheap⟩ := List.cons.inj hheap
      have hp : t.heap.lookup p = some r := hp
      have hid := hids 0 r rfl
      have hids' : ∀ (j : ℕ) (s : Row α), rows[j]? = some s → s.id = k + 1 + j := by
        intro j s hs
        have := hids (j + 1) s (by simpa using hs)
        omega
      rw [Table.writeLoop, hp, List.map_cons, slotLoop]
      simp only [Option.bind_eq_bind, Option.bind_some, hid, Nat.add_zero, ne_eq,
        not_true_eq_false, if_false, hschema]
      change (if dirtyOf t k = true then _ else _) = _
      split_ifs <;> first | rfl | exact ih hheap hids' _ _ _

theorem writeRows_eq (hc : Core L t rs) (f : FileFaults) (position : ℕ) (content : Bytes) :
    t.writeRows L f position content =
      some (slotLoop L.schema.headerSize L.rowSize f (dirtyOf t) (rs.map L.rowBytes) 0
        (if f.seekHeader then L.schema.headerSize else position) 0 content) := by
  rw [Table.writeRows, hc.schema]
  exact writeLoop_eq hc.schema f hc.heap (fun j r hr => by rw [hc.ids j r hr]; omega) _ _ _

/-- All file operations succeed. -/
def noFaults (L : Layout α) : FileFaults where
  opened := true
  seekStart := true
  seekHeader := true
  seekRow := fun _ => true
  accept := fun _ => L.rowSize
  closed := true

theorem undisturbed_noFaults {dirty : ℕ → Bool} {n : ℕ} (hs : Spaced dirty n) (k : ℕ) :
    WrittenInPlace L.rowSize (noFaults L) dirty n k :=
  fun i _ hi hd => ⟨le_rfl, fun hgap => ⟨hs i hi hd hgap, rfl⟩⟩

/-- The file holds the rows `saved`, and every row that differs from what is
saved for its id is dirty. -/
structure Tracks (L : Layout α) (t : Table α) (rs : List (Row α)) (file : Option Bytes)
    (saved : List (Row α)) : Prop where
  file : file = none ∧ saved = [] ∨ file = some (image L saved)
  length : saved.length ≤ rs.length
  tracked : ∀ (i : ℕ) (r : Row α), rs[i]? = some r → saved[i]? ≠ some r →
    dirtyOf t i = true ∧ t.isDirty = true

/-- A file does not depend on how keys are computed. -/
theorem Tracks.rekey {F : Format α} {getKey : α → Bytes} {file : Option Bytes}
    {saved : List (Row α)} (h : Tracks ⟨F, getKey⟩ t rs file saved) (getKey' : α → Bytes) :
    Tracks ⟨F, getKey'⟩ t rs file saved :=
  ⟨h.file, h.length, h.tracked⟩

/-- Filling the dirty slots gives the image of rows that are those of the table where they
are dirty and those of the file elsewhere. -/
theorem filled_eq_image {saved rs' : List (Row α)} {dirty : ℕ → Bool} {content : Bytes}
    (hf : Filled L.schema.headerSize L.rowSize dirty (rs.map L.rowBytes) 0 (image L saved) content)
    (hlength : saved.length ≤ rs.length) (hlength' : rs'.length = rs.length)
    (hdirty : ∀ i, dirty i = true → rs'[i]? = rs[i]?)
    (hclean : ∀ (i : ℕ) (r : Row α), dirty i = false → rs'[i]? = some r → saved[i]? = some r) :
    content = image L rs' := by
  have hslots : ∀ (i : ℕ) (r : Row α), rs'[i]? = some r →
      slot L.schema.headerSize L.rowSize content i = L.rowBytes r := by
    intro i r hr
    cases hd : dirty i with
    | true =>
        rw [hdirty i hd] at hr
        have := hf.written i (L.rowBytes r) (by rw [List.getElem?_map, hr]; rfl)
          (by rwa [Nat.zero_add])
        rwa [Nat.zero_add] at this
    | false =>
        exact hf.kept i _ (rowBytes_length L r) (slot_image_row L (hclean i r hd hr))
          (.inr (.inr hd))
  have hheader : L.schema.headerSize ≤ (image L saved).length := by
    rw [image_length]
    omega
  apply eq_image (rowBytes_lengths L rs')
  · rw [hf.header hheader, image_header]
  · have hsaved := Nat.mul_le_mul_right L.rowSize hlength
    have hupper := hf.bounded
    have hlower := hf.longer
    rw [image_length] at hupper hlower
    rw [List.length_map, Nat.zero_add] at hupper
    rw [List.length_map, hlength']
    cases hn : rs.length with
    | zero =>
        rw [hn] at hupper hsaved
        omega
    | succ n =>
        obtain ⟨r, hr⟩ : ∃ r, rs'[n]? = some r := ⟨rs'[n], List.getElem?_eq_getElem (by omega)⟩
        have := slot_end_le (rowBytes_length L r) (hslots n r hr) (rowSize_pos L)
        rw [hn] at hupper hsaved
        omega
  · intro i row hrow
    rw [List.getElem?_map] at hrow
    obtain ⟨r, hr, rfl⟩ := Option.map_eq_some_iff.mp hrow
    exact hslots i r hr

/-- What a write without faults puts into the file. -/
theorem write_image {file : Option Bytes} {saved rs' : List (Row α)} (hc : Core L t rs)
    (hfile : file = none ∧ saved = [] ∨ file = some (image L saved))
    (hlength : saved.length ≤ rs.length) (hspaced : Spaced (dirtyOf t) rs.length)
    (hneeded : ¬ (!t.isDirty && file.isSome) = true) (hlength' : rs'.length = rs.length)
    (hdirty : ∀ i, dirtyOf t i = true → rs'[i]? = rs[i]?)
    (hclean : ∀ (i : ℕ) (r : Row α), dirtyOf t i = false → rs'[i]? = some r →
      saved[i]? = some r) :
    ∃ t', t.write L (noFaults L) file = some (t', some (image L rs'), true) ∧ Core L t' rs ∧
      (Filed L t rs → Filed L t' rs) ∧ t'.autoIncrementIndex = t.autoIncrementIndex := by
  have hrun : ∀ position, t.writeRows L (noFaults L) position (image L saved) =
      some (image L rs') := by
    intro position
    rw [writeRows_eq hc]
    congr 1
    have hu : WrittenInPlace L.rowSize (noFaults L) (dirtyOf t)
        (0 + (rs.map L.rowBytes).length) 0 := by
      rw [Nat.zero_add, List.length_map]
      exact undisturbed_noFaults hspaced 0
    refine filled_eq_image (slotLoop_filled (rowSize_pos L) (rowBytes_lengths L rs) hu
      fun _ _ _ => ?_) hlength hlength' hdirty hclean
    simp [noFaults]
  refine ⟨{ t with isDirty := false, dirtyRows := ∅ }, ?_,
    ⟨hc.schema, hc.heap, hc.ids, hc.nodup, hc.rows⟩, fun hf => hf, rfl⟩
  rw [Table.write, if_neg hneeded]
  rcases hfile with ⟨rfl, rfl⟩ | rfl
  · have hnew : t.schema.bytes = image L [] := by simp [image, hc.schema]
    simp only [noFaults, Bool.not_true, Bool.false_eq_true, if_false, if_true]
    rw [hnew]
    change ((t.writeRows L (noFaults L) _ (image L [])).bind _) = _
    rw [hrun]
    rfl
  · change ((t.writeRows L (noFaults L) 0 (image L saved)).bind _) = _
    rw [hrun]
    rfl

/-- Nothing is written for a table that is not dirty and has a file. -/
theorem write_clean {file : Option Bytes} {f : FileFaults}
    (hclean : (!t.isDirty && file.isSome) = true) : t.write L f file = some (t, file, true) := by
  rw [Table.write, if_pos hclean]

/-- A write without faults brings the file in line with the table. -/
theorem write_noFaults {file : Option Bytes} {saved : List (Row α)} (hc : Core L t rs)
    (hs : Tracks L t rs file saved) (hspaced : Spaced (dirtyOf t) rs.length) :
    ∃ t', t.write L (noFaults L) file = some (t', some (image L rs), true) ∧ Core L t' rs ∧
      (Filed L t rs → Filed L t' rs) ∧ t'.autoIncrementIndex = t.autoIncrementIndex ∧
      Tracks L t' rs (some (image L rs)) rs := by
  have hdone : ∀ t' : Table α, Tracks L t' rs (some (image L rs)) rs := fun t' =>
    ⟨.inr rfl, le_rfl, fun i r hr hne => absurd hr hne⟩
  by_cases hskip : (!t.isDirty && file.isSome) = true
  · obtain ⟨hisDirty, hexists⟩ := Bool.and_eq_true_iff.mp hskip
    have hfile : file = some (image L saved) := by
      rcases hs.file with ⟨rfl, -⟩ | hfile
      · simp at hexists
      · exact hfile
    have hall : ∀ (i : ℕ) (r : Row α), rs[i]? = some r → saved[i]? = some r := by
      intro i r hr
      by_contra hne
      simp [(hs.tracked i r hr hne).2] at hisDirty
    have hsaved : saved = rs := by
      apply List.ext_getElem?
      intro i
      cases hr : rs[i]? with
      | some r => exact hall i r hr
      | none =>
          rw [List.getElem?_eq_none_iff] at hr ⊢
          exact hs.length.trans hr
    refine ⟨t, ?_, hc, id, rfl, hdone t⟩
    rw [write_clean hskip, hfile, hsaved]
  · obtain ⟨t', hwrite, hcore, hfiled, hindex⟩ := write_image hc hs.file hs.length hspaced hskip
      rfl (fun _ _ => rfl) fun i r hd hr => by
        by_contra hne
        exact absurd (hd.symm.trans (hs.tracked i r hr hne).1) (by simp)
    exact ⟨t', hwrite, hcore, hfiled, hindex, hdone t'⟩

/-- Parsing the bytes of a row gives it back, its id at 64 bits. -/
theorem parseRow_rowBytes (r : Row α) :
    L.parseRow (L.rowBytes r) = { r with id := r.id % 256 ^ 8 } := by
  have hflags : (L.rowBytes r).take 8 = littleEndian 8 r.flags.toNat := by
    rw [Layout.rowBytes, List.append_assoc]
    exact List.take_left' (littleEndian_length 8 _)
  have hid : ((L.rowBytes r).drop 8).take 8 = littleEndian 8 r.id := by
    rw [Layout.rowBytes, List.append_assoc, List.drop_left' (littleEndian_length 8 _)]
    exact List.take_left' (littleEndian_length 8 _)
  have hcols : (L.rowBytes r).drop 16 = L.encode r.cols := by
    rw [Layout.rowBytes]
    exact List.drop_left' (by simp)
  have hbound : r.flags.toNat % 256 ^ 8 = r.flags.toNat := Nat.mod_eq_of_lt r.flags.toNat_lt
  rw [Layout.parseRow, hflags, hid, hcols, ofLittleEndian_littleEndian,
    ofLittleEndian_littleEndian, L.decode_encode, hbound, UInt64.ofNat_toNat]

/-- The loop of `readRows` at the bytes of one row. -/
theorem readRows_cons (A : Allocator α) (t : Table α) (r : Row α) (rows : List (Row α)) :
    t.readRows L A ((r :: rows).map L.rowBytes).flatten =
      ((t.allocate A { r with id := r.id % 256 ^ 8 }).1.internalAdd
        (t.allocate A { r with id := r.id % 256 ^ 8 }).2 (L.getKey r.cols)).bind
        fun added => added.1.readRows L A (rows.map L.rowBytes).flatten := by
  have htake : (((r :: rows).map L.rowBytes).flatten).take L.rowSize = L.rowBytes r := by
    rw [List.map_cons, List.flatten_cons]
    exact List.take_left' (rowBytes_length L r)
  have hdrop : (((r :: rows).map L.rowBytes).flatten).drop L.rowSize =
      (rows.map L.rowBytes).flatten := by
    rw [List.map_cons, List.flatten_cons]
    exact List.drop_left' (rowBytes_length L r)
  have hlong : ¬ (((r :: rows).map L.rowBytes).flatten).length < L.rowSize := by
    rw [List.map_cons, List.flatten_cons, List.length_append, rowBytes_length]
    omega
  rw [Table.readRows, if_neg hlong]
  simp only [htake, hdrop, parseRow_rowBytes]
  split
  · rename_i hnone
    rw [hnone, Option.bind_none]
  · rename_i hsome
    rw [hsome, Option.bind_some]

/-- A row whose key is new is appended. -/
theorem readRows_new (A : Allocator α) {t : Table α} {rs : List (Row α)} (hc : Core L t rs)
    (hf : Filed L t rs) {r : Row α} (hid : r.id = rs.length)
    (hnew : t.rows.lookup (L.getKey r.cols) = none) (rows : List (Row α)) :
    ∃ t', t.readRows L A ((r :: rows).map L.rowBytes).flatten =
        t'.readRows L A (rows.map L.rowBytes).flatten ∧ Core L t' (rs ++ [r]) ∧
      Filed L t' (rs ++ [r]) ∧ t'.isDirty = t.isDirty ∧ t'.dirtyRows = t.dirtyRows := by
  obtain ⟨t', ht', hdirty, hrows, heffect⟩ := internalAdd_effect A hc
    { r with id := r.id % 256 ^ 8 } hnew
  have happ : rs ++ [{ r with id := rs.length }] = rs ++ [r] := by rw [← hid]
  have hcore := heffect.core
  have hfiled := heffect.filed hf
  rw [happ] at hcore hfiled
  refine ⟨t', ?_, ⟨hcore.schema, hcore.heap, hcore.ids, hcore.nodup, hcore.rows⟩, hfiled, hdirty,
    hrows⟩
  rw [readRows_cons, ht', Option.bind_some]

/-- A row whose key is known fails the assertion of `internalAdd`. -/
theorem readRows_known (A : Allocator α) {t : Table α} {r : Row α}
    (hknown : (t.rows.lookup (L.getKey r.cols)).isSome) (rows : List (Row α)) :
    t.readRows L A ((r :: rows).map L.rowBytes).flatten = none := by
  obtain ⟨p, hp⟩ := Option.isSome_iff_exists.mp hknown
  rw [readRows_cons, Table.internalAdd]
  simp [Table.allocate, AList.lookup_insert, hp]

/-- Reading rows of new and distinct keys appends them. -/
theorem readRows_spec (A : Allocator α) (rows : List (Row α)) {t : Table α}
    {rs : List (Row α)} (hc : Core L t rs) (hf : Filed L t rs)
    (hids : ∀ (j : ℕ) (r : Row α), rows[j]? = some r → r.id = rs.length + j)
    (hkeys : ((rs ++ rows).map fun r => L.getKey r.cols).Nodup) :
    ∃ t', t.readRows L A (rows.map L.rowBytes).flatten = some t' ∧ Core L t' (rs ++ rows) ∧
      Filed L t' (rs ++ rows) ∧ t'.isDirty = t.isDirty ∧ t'.dirtyRows = t.dirtyRows := by
  induction rows generalizing t rs with
  | nil =>
      refine ⟨t, ?_, by rwa [List.append_nil], by rwa [List.append_nil], rfl, rfl⟩
      rw [Table.readRows, if_pos (by simpa using rowSize_pos L)]
  | cons r rows ih =>
      have hid : r.id = rs.length := by simpa using hids 0 r rfl
      have hnew : t.rows.lookup (L.getKey r.cols) = none := by
        by_contra hsome
        obtain ⟨p, hp⟩ := Option.ne_none_iff_exists'.mp hsome
        obtain ⟨i, s, -, hs, hks⟩ := (hf _ p).mp hp
        rw [List.map_append] at hkeys
        refine (List.nodup_append.mp hkeys).2.2 (L.getKey s.cols) ?_ (L.getKey r.cols) ?_ hks
        · exact List.mem_map_of_mem (List.mem_of_getElem? hs)
        · simp
      obtain ⟨t', hread, hc', hf', hdirty, hrows⟩ := readRows_new A hc hf hid hnew rows
      have hlist : rs ++ [r] ++ rows = rs ++ r :: rows := by simp
      obtain ⟨t'', ht'', hc'', hf'', hdirty', hrows'⟩ := ih hc' hf' (by
        intro j s hs
        have := hids (j + 1) s (by simpa using hs)
        rw [List.length_append, List.length_singleton]
        omega) (by rwa [hlist])
      rw [hlist] at hc'' hf''
      exact ⟨t'', hread.trans ht'', hc'', hf'', hdirty'.trans hdirty, hrows'.trans hrows⟩

section Header
variable (L)

theorem image_split (rs : List (Row α)) :
    image L rs = littleEndian 8 KAPA_TABLE_SIGNATURE ++ (L.schema.name ++
      (littleEndian 8 L.schema.columns.length ++
        (L.schema.columns.flatten ++ (rs.map L.rowBytes).flatten))) := by
  simp only [image, Schema.bytes, List.append_assoc]

theorem image_signature (rs : List (Row α)) :
    ofLittleEndian ((image L rs).take 8) = KAPA_TABLE_SIGNATURE := by
  rw [image_split, List.take_left' (littleEndian_length 8 _), ofLittleEndian_littleEndian]
  decide

theorem image_name (rs : List (Row α)) :
    ((image L rs).drop 8).take MAX_TABLE_NAME = L.schema.name := by
  rw [image_split, List.drop_left' (littleEndian_length 8 _), List.take_left' L.name_length]

theorem image_columnCount (rs : List (Row α)) :
    ofLittleEndian (((image L rs).drop (8 + MAX_TABLE_NAME)).take 8) =
      L.schema.columns.length := by
  rw [image_split, ← List.drop_drop, List.drop_left' (littleEndian_length 8 _),
    List.drop_left' L.name_length, List.take_left' (littleEndian_length 8 _),
    ofLittleEndian_littleEndian]
  exact Nat.mod_eq_of_lt L.columns_count

theorem image_columns (rs : List (Row α)) :
    (List.range L.schema.columns.length).map (fun k =>
      slot HEADER_SIZE PROPERTIES_SIZE (image L rs) k) = L.schema.columns := by
  apply List.ext_getElem?
  intro k
  rw [List.getElem?_map]
  by_cases hk : k < L.schema.columns.length
  · rw [List.getElem?_range hk, Option.map_some, List.getElem?_eq_getElem hk]
    have hend : HEADER_SIZE + (k + 1) * PROPERTIES_SIZE ≤ L.schema.bytes.length := by
      rw [schema_bytes_length, Schema.headerSize]
      exact Nat.add_le_add_left (Nat.mul_le_mul_right PROPERTIES_SIZE hk) HEADER_SIZE
    rw [image, slot_append hend, Schema.bytes, slot_image (by
      simp only [List.length_append, littleEndian_length, L.name_length, HEADER_SIZE])
      L.columns_length, List.getElem?_eq_getElem hk]
    rfl
  · rw [List.getElem?_eq_none (by simpa using hk), List.getElem?_eq_none (by omega)]
    rfl

end Header

/-- A new table reads the rows of an image behind the schema. -/
theorem read_eq_readRows (A : Allocator α) (rs : List (Row α)) :
    (Table.construct L).read L A (some (image L rs)) =
      ((Table.construct L).readRows L A (rs.map L.rowBytes).flatten).map fun t' => (t', true) := by
  have hlong : ¬ (image L rs).length < HEADER_SIZE := by
    rw [image_length, Schema.headerSize]
    omega
  have hrest : (image L rs).drop (HEADER_SIZE + L.schema.columns.length * PROPERTIES_SIZE) =
      (rs.map L.rowBytes).flatten := List.drop_left' (schema_bytes_length L)
  simp only [Table.read, if_neg hlong, image_signature, ne_eq, not_true_eq_false, if_false,
    image_name, image_columnCount, image_columns, hrest]
  rw [Option.map_eq_bind]
  rfl

/-- A new table that reads the image of rows represents them. -/
theorem read_image (A : Allocator α) {rs : List (Row α)}
    (hids : ∀ (i : ℕ) (r : Row α), rs[i]? = some r → r.id = i)
    (hkeys : (rs.map fun r => L.getKey r.cols).Nodup) :
    ∃ t', (Table.construct L).read L A (some (image L rs)) = some (t', true) ∧ Core L t' rs ∧
      Filed L t' rs ∧ t'.isDirty = false ∧ t'.dirtyRows = ∅ := by
  obtain ⟨t', ht', hc, hf, hdirty, hrows⟩ := readRows_spec A rs (core_construct L)
    (filed_construct L) (fun j r hr => by rw [hids j r hr]; simp) hkeys
  exact ⟨t', by rw [read_eq_readRows, ht', Option.map_some], hc, hf, hdirty, hrows⟩

end Tarracsh.TableFile
