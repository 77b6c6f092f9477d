import Tarracsh.TableRuns

/-!
# Reading back what was saved

A run that ends with a save leaves a file from which a new table object gets
the same rows, ids and keys, as long as no row was archived: `archiveRow`
changes the key of a row in `_rows` only, and the file has no place for it.
-/
namespace Tarracsh.TablePersistence
open ByteStrings ByteFiles TableModel TableInvariant TableFile TableRuns

variable {α : Type} (L : Layout α) (A : Allocator α)

/-- The id of the row that `findByKey` returns. -/
def findId (t : Table α) (key : Bytes) : Option ℕ :=
  (t.findByKey key).bind fun p => (t.heap.lookup p).map Row.id

/-- A new table object reads the file of the session without a failed
assertion and gets the rows and keys of the session's table. -/
def RoundTrip (s : Session α) : Prop :=
  ∃ t', (Table.construct L).read L A s.file = some (t', true) ∧
    t'.autoIncrementIndex.length = s.table.autoIncrementIndex.length ∧
    t'.size = s.table.size ∧
    (∀ i, (t'.getRow i).map L.rowBytes = (s.table.getRow i).map L.rowBytes) ∧
    ∀ key, (s.table.findByKey key).isSome →
      (findId t' key).isSome ∧ findId t' key = findId s.table key

variable {L A}

/-- A key finds the id of the row that has it. -/
theorem findId_eq_some_iff {t : Table α} {rs : List (Row α)} (hc : Core L t rs)
    (hf : Filed L t rs) (key : Bytes) (i : ℕ) :
    findId t key = some i ↔ ∃ r, rs[i]? = some r ∧ L.getKey r.cols = key := by
  constructor
  · intro h
    obtain ⟨p, hp, hid⟩ := Option.bind_eq_some_iff.mp h
    obtain ⟨r, hr, rfl⟩ := Option.map_eq_some_iff.mp hid
    obtain ⟨j, s, hj, hs, hkey⟩ := (hf key p).mp hp
    rw [hc.lookup_of_index hj, hs] at hr
    obtain rfl := Option.some.inj hr
    exact ⟨s, by rwa [hc.ids j s hs], hkey⟩
  · rintro ⟨r, hr, hkey⟩
    obtain ⟨p, hp, hlookup⟩ := hc.exists_of_row hr
    have hfind : t.findByKey key = some p := (hf key p).mpr ⟨i, r, hp, hr, hkey⟩
    rw [findId, hfind, Option.bind_some, hlookup, Option.map_some, hc.ids i r hr]

/-- Two tables of the same rows look alike. -/
theorem roundTrip_of_filed {s : Session α} {rs : List (Row α)} (hc : Core L s.table rs)
    (hf : Filed L s.table rs) (hfile : s.file = some (image L rs)) : RoundTrip L A s := by
  obtain ⟨t', hread, hc', hf', -, -⟩ := read_image A hc.ids (keys_nodup hc hf)
  have hlength : t'.autoIncrementIndex.length = s.table.autoIncrementIndex.length := by
    rw [hc'.length_eq, hc.length_eq]
  refine ⟨t', by rw [hfile, hread], hlength, ?_, fun i => ?_, fun key hkey => ?_⟩
  · rw [size_eq hc' hf', size_eq hc hf, hlength]
  · rw [hc'.getRow_eq, hc.getRow_eq]
  · obtain ⟨p, hp⟩ := Option.isSome_iff_exists.mp hkey
    obtain ⟨i, r, -, hr, hk⟩ := (hf key p).mp hp
    have hid := (findId_eq_some_iff hc hf key i).mpr ⟨r, hr, hk⟩
    have hid' := (findId_eq_some_iff hc' hf' key i).mpr ⟨r, hr, hk⟩
    exact ⟨by simp [hid'], hid'.trans hid.symm⟩

variable (L A)

/-- A valid run in which no row is archived, each save is in place, each update marks
the row it overwrites and the last call is a save can be read back. -/
theorem roundTrip_of_run (ops : List (Op α))
    (hvalid : Along L A (Valid L) (Session.start L) (ops ++ [.write]))
    (hspaced : Along L A SavesInPlace (Session.start L) (ops ++ [.write]))
    (hmarks : Along L A (MarksRows L A) (Session.start L) ops)
    (harchive : ∀ op ∈ ops, op.isArchive = false) :
    ∃ s, (Session.start L).run L A (ops ++ [.write]) = some s ∧ RoundTrip L A s := by
  obtain ⟨s, rs, saved, hrun, h, -⟩ := run_inv inv_start hvalid.left hspaced.left hmarks
    harchive
  obtain ⟨t', hstep, -, hinv⟩ := step_write (A := A) h ((hspaced.right hrun).1 rfl)
  refine ⟨_, ?_, roundTrip_of_filed hinv.core hinv.filed rfl⟩
  rw [Session.run, List.foldlM_append]
  change ((Session.start L).run L A ops).bind _ = _
  rw [hrun, Option.bind_some, List.foldlM_cons, hstep]
  rfl

/-- A class that gets a second row of its key before it is saved, and another class that is
added after that. -/
theorem roundTrip_of_run_sample :
    ∃ s, (Session.start sampleLayout).run sampleLayout (.next _)
        [.add sampleRow, .addOrUpdate { sampleRow with flags := 2 }, .write,
          .addOrUpdate { sampleRow with cols := { classname := 0 } }, .write] = some s ∧
      RoundTrip sampleLayout (.next _) s := by
  have hids := Allocator.next_keepsIds DomainTables.ClassFileCols
  have hvalid : Along sampleLayout (.next _) (Valid sampleLayout) (Session.start sampleLayout)
      ([.add sampleRow, .addOrUpdate { sampleRow with flags := 2 }, .write,
        .addOrUpdate { sampleRow with cols := { classname := 0 } }] ++ [.write]) :=
    ⟨rfl, fun _ _ => ⟨trivial, fun _ _ => ⟨trivial, fun _ _ => ⟨trivial, fun _ _ =>
      ⟨trivial, fun _ _ => trivial⟩⟩⟩⟩⟩
  have harchive : ∀ op ∈ [.add sampleRow, .addOrUpdate { sampleRow with flags := 2 }, .write,
      .addOrUpdate { sampleRow with cols := { classname := 0 } }] ++ [.write],
        Op.isArchive op = false := by simp [Op.isArchive]
  have hspaced := savesInPlace_of_small hids inv_start hvalid harchive (by simp)
  have hmarks := marks_along hids inv_start hvalid hspaced harchive
  exact roundTrip_of_run sampleLayout (.next _) _ hvalid hspaced hmarks.left
    fun op hop => harchive op (List.mem_append_left _ hop)

section Archive
variable {L A} {t : Table α} {rs : List (Row α)}

/-- Archiving takes the key of a filed row away. -/
theorem archiveRow_spec (hc : Core L t rs) (hf : Filed L t rs) {i : ℕ} {r : Row α} {p : ℕ}
    (hp : t.autoIncrementIndex[i]? = some p) (hr : rs[i]? = some r) :
    ∃ t', t.archiveRow p (L.getKey r.cols) = some t' ∧ Core L t' rs ∧
      t'.rows.lookup (L.getKey r.cols) = none := by
  obtain ⟨t', ht', hcore, -, hnone⟩ := archiveRow_core hc ((hf _ p).mpr ⟨i, r, hp, hr, rfl⟩)
  exact ⟨t', ht', hcore, hnone⟩

/-- Rows that repeat a key cannot be read. -/
theorem read_repeated_key {r s : Row α} (hid : r.id = 0)
    (hkey : L.getKey s.cols = L.getKey r.cols) :
    (Table.construct L).read L A (some (image L [r, s])) = none := by
  obtain ⟨t', hread, hc, hf, -, -⟩ := readRows_new A (core_construct L) (filed_construct L) hid
    rfl [s]
  obtain ⟨p, hp, -⟩ := hc.exists_of_row (i := 0) (r := r) rfl
  have hknown : t'.rows.lookup (L.getKey s.cols) = some p :=
    (hf _ p).mpr ⟨0, r, hp, rfl, hkey.symm⟩
  rw [read_eq_readRows, hread, readRows_known A (by simp [hknown]), Option.map_none]

/-- What `doClassFile` does with a class that it saw before, between two saves. -/
def reanalysis (r : Row α) : List (Op α) :=
  [.add r, .write, .archiveRow 0, .deleteRow 0, .add r]

/-- A class that is analysed twice cannot be read back. -/
theorem reanalysis_not_read (r : Row α) :
    Along L A (Valid L) (Session.start L) (reanalysis r ++ [.write]) ∧
    ∃ s, (Session.start L).run L A (reanalysis r ++ [.write]) = some s ∧
      (Table.construct L).read L A s.file = none := by
  let old : Row α := { r with id := 0 }
  let deleted : Row α := { old with flags := old.flags ||| Deleted }
  obtain ⟨t₁, h₁, he₁⟩ := add_effect A (core_construct L) r rfl
  have hstep₁ : (Session.start L).step L A (.add r) = some ⟨t₁, none⟩ := by
    simp [Session.step, Session.start, h₁]
  have hinv₁ : Inv L ⟨t₁, none⟩ [old] [] := inv_of_effect inv_start he₁ (.inl rfl)
  obtain ⟨t₂, hstep₂, -, hinv₂⟩ := step_write (A := A) hinv₁
    (spaced_of_le (by simp [he₁.core.length_eq]))
  obtain ⟨p, hp, hlookup⟩ := hinv₂.core.exists_of_row (i := 0) rfl
  obtain ⟨t₃, h₃, hc₃, hkey₃⟩ := archiveRow_spec hinv₂.core hinv₂.filed hp rfl
  have hstep₃ : ∀ file, Session.step L A ⟨t₂, file⟩ (.archiveRow 0) = some ⟨t₃, file⟩ := by
    intro file
    simp only [Session.step, hp, hlookup, h₃, Option.bind_eq_bind, Option.bind_some]
  have htracks₃ : Tracks L t₃ [old] (some (image L [old])) [old] :=
    ⟨.inr rfl, le_rfl, fun i s hs hne => absurd hs hne⟩
  obtain ⟨t₄, h₄, he₄⟩ := deleteRow_effect hc₃ (i := 0) rfl
  have hstep₄ : ∀ file, Session.step L A ⟨t₃, file⟩ (.deleteRow 0) = some ⟨t₄, file⟩ := by
    intro file
    simp [Session.step, h₄]
  have hkey₄ : t₄.rows.lookup (L.getKey r.cols) = none := by
    rw [(deleteRow_rows h₄).1, hkey₃]
  obtain ⟨t₅, h₅, he₅⟩ := add_effect A he₄.core r hkey₄
  have hstep₅ : ∀ file, Session.step L A ⟨t₄, file⟩ (.add r) = some ⟨t₅, file⟩ := by
    intro file
    simp [Session.step, h₅]
  obtain ⟨t₆, h₆, -, -, -, -⟩ := write_noFaults he₅.core
    (tracks_of_effect (tracks_of_effect htracks₃ he₄ (.inl rfl)) he₅ (.inl rfl))
    (spaced_of_le (by simp))
  have hstep₆ : Session.step L A ⟨t₅, some (image L [old])⟩ .write =
      some ⟨t₆, some (image L [deleted, { r with id := 1 }])⟩ := by
    simp only [Session.step, h₆, Option.bind_eq_bind, Option.bind_some]
    rfl
  refine ⟨?_, ⟨t₆, some (image L [deleted, { r with id := 1 }])⟩, ?_, read_repeated_key rfl rfl⟩
  · refine along_cons rfl hstep₁ (along_cons trivial hstep₂ (along_cons ?_ (hstep₃ _)
      (along_cons ?_ (hstep₄ _) (along_cons hkey₄ (hstep₅ _)
        (along_cons trivial hstep₆ trivial)))))
    · simp [Valid, hinv₂.core.length_eq]
    · simp [Valid, hc₃.length_eq]
  · simp only [Session.run, reanalysis, List.cons_append, List.nil_append, List.foldlM_cons,
      List.foldlM_nil, hstep₁, hstep₂, hstep₃, hstep₄, hstep₅, hstep₆, Option.bind_eq_bind,
      Option.bind_some]
    rfl

end Archive

/-- Class A of a.jar, analysed and saved twice. -/
theorem not_roundTrip_reanalysis :
    Along sampleLayout (.next _) (Valid sampleLayout) (Session.start sampleLayout)
        (reanalysis sampleRow ++ [.write]) ∧
      ¬ ∃ s, (Session.start sampleLayout).run sampleLayout (.next _)
          (reanalysis sampleRow ++ [.write]) = some s ∧ RoundTrip sampleLayout (.next _) s := by
  obtain ⟨hvalid, s, hrun, hread⟩ := reanalysis_not_read (L := sampleLayout) (A := .next _)
    sampleRow
  refine ⟨hvalid, ?_⟩
  rintro ⟨s', hrun', t', hread', -⟩
  obtain rfl := Option.some.inj (hrun.symm.trans hrun')
  exact absurd (hread.symm.trans hread') (by simp)

end Tarracsh.TablePersistence
