import Tarracsh.ClassVersions

/-!
# Analysing a class again and again

Every version of a standalone class gets a class row of its own, and the
versions in a jar share one. `FileState` and `EntryState` say what the database
is between two versions.
-/
namespace Tarracsh.Reanalysis
open ByteStrings StringPool ParsedClass ClassFileReader ClassFileParser ReaderRefinement
open PoolAlignment TableModel TableInvariant DomainTables CallGraphTables CallGraphInvariant
open ClassFileProcessor SafeConsumption JarEntries Reporting CallGraphAnalysis NodeHistory
open ClassVersions

section Tables
variable {α : Type} {L : Layout α} {t : Table α} {rs : List (Row α)}

/-- A table all of whose rows have one key has one row. -/
theorem addOrUpdate_single (A : Allocator α) (hc : Core L t rs) (hf : Filed L t rs) (r : Row α)
    (hkeys : ∀ s ∈ rs, L.getKey s.cols = L.getKey r.cols) :
    ∃ t' readId, (t.allocate A r).1.addOrUpdate L A (t.allocate A r).2 = some (t', readId) ∧
      Core L t' [{ r with id := 0 }] ∧ Filed L t' [{ r with id := 0 }] ∧
      (rs = [] ∨ A.KeepsIds → readId 0 = 0) := by
  obtain ⟨t', readId, id, m, rs', ht', heffect, hread, hmem⟩ := addOrUpdate_mem A hc hf r
  have hall : ∀ s, s ∈ rs' ↔ s = { r with id := id } := by
    intro s
    rw [hmem]
    constructor
    · rintro (rfl | ⟨hs, hne⟩)
      · rfl
      · exact absurd (hkeys s hs) hne
    · exact .inl
  have hid : ∀ j s, rs'[j]? = some s → j = id := by
    intro j s hs
    rw [← heffect.core.ids j s hs, (hall s).mp (List.mem_of_getElem? hs)]
  obtain ⟨j, hj⟩ := List.getElem?_of_mem ((hall _).mpr rfl)
  have hlt := (List.getElem?_eq_some_iff.mp hj).1
  have hzero : id = 0 := by
    have := hid 0 _ (List.getElem?_eq_getElem (Nat.zero_lt_of_lt hlt))
    exact this.symm
  have hrs : rs' = [{ r with id := 0 }] := by
    subst hzero
    apply List.ext_getElem?
    intro k
    by_cases hk : k < rs'.length
    · obtain rfl := hid k _ (List.getElem?_eq_getElem hk)
      rw [List.getElem?_eq_getElem hk, (hall _).mp (List.getElem_mem hk)]
      rfl
    · have hpos : k ≠ 0 := by
        rintro rfl
        omega
      rw [List.getElem?_eq_none (by omega), List.getElem?_singleton, if_neg hpos]
  subst hzero
  rw [hrs] at heffect
  refine ⟨t', readId, ht', heffect.core, heffect.filed hf, fun h => hread ?_ 0⟩
  refine h.imp_left fun hnil => ?_
  rw [Option.eq_none_iff_forall_ne_some]
  intro p hp
  obtain ⟨i, s, -, hs, -⟩ := (hf _ p).mp hp
  simp [hnil] at hs

end Tables

/-- `deleteClass` deletes nothing. -/
theorem deleteClass_eq {db : GraphDb} (h : ∀ i, db.ownerClassIndex i = ∅) (rowId : ℕ) :
    db.deleteClass rowId = some db := by
  have howned : ∀ i, db.deleteOwned i rowId = some db := by
    intro i
    have herase : (db.ownerClassIndex i).erase rowId = db.ownerClassIndex i := by
      rw [h i]
      rfl
    have hids : ((db.ownerClassIndex i).lookup rowId).getD ∅ = ∅ := by
      rw [h i]
      rfl
    simp [GraphDb.deleteOwned, herase, hids]
  simp [GraphDb.deleteClass, howned]

/-- The table of files holds at most the one file. -/
structure FileRows (filename : Bytes) (last : Option (UInt64 × Int64)) (pool : Pool)
    (files : Table FileCols) (fs : List (Row FileCols)) : Prop where
  core : Core (Files.layout pool) files fs
  filed : Filed (Files.layout pool) files fs
  named : ∀ r ∈ fs, pool.getCString r.cols.filename.toNat = some filename
  stamps : fs.map (fun r => (r.cols.fileSize, r.cols.lastWriteTime)) = last.toList

section Files
variable {filename : Bytes} {last : Option (UInt64 × Int64)} {pool pool' : Pool}
  {files : Table FileCols} {fs : List (Row FileCols)}

theorem FileRows.grows (h : FileRows filename last pool files fs) (hgrows : Grows pool pool') :
    FileRows filename last pool' files fs where
  core := h.core.rekey _
  filed := by
    refine h.filed.rekey fun r hr => ?_
    apply hgrows.text
    rw [h.named r hr]
    rfl
  named r hr := hgrows _ _ (h.named r hr)
  stamps := h.stamps

theorem FileRows.getKey (h : FileRows filename last pool files fs) {r : Row FileCols}
    (hr : r ∈ fs) : (Files.layout pool).getKey r.cols = filename := by
  change text pool r.cols.filename = filename
  rw [text, h.named r hr]
  rfl

/-- The file is found under its name. -/
theorem FileRows.findByKey (h : FileRows filename last pool files fs) :
    (files.findByKey filename).bind files.heap.lookup = fs[0]? := by
  cases fs with
  | nil =>
      have hnone : files.rows.lookup filename = none := by
        rw [Option.eq_none_iff_forall_ne_some]
        intro p hp
        obtain ⟨i, r, -, hr, -⟩ := (h.filed _ p).mp hp
        simp at hr
      rw [Table.findByKey, hnone]
      rfl
  | cons r rest =>
      obtain ⟨p, hp, hlookup⟩ := h.core.exists_of_row (i := 0) (r := r) rfl
      have hfound : files.rows.lookup filename = some p :=
        (h.filed _ p).mpr ⟨0, r, hp, rfl, h.getKey (by simp)⟩
      rw [Table.findByKey, hfound]
      exact hlookup

end Files

/-- A class row of the only file, with a readable name. -/
def Names (classname : Bytes) (pool : Pool) (r : Row ClassFileCols) : Prop :=
  r.cols.file = 0 ∧ pool.getCString r.cols.classname.toNat = some classname

/-- The class rows of a standalone file. Only the last one is live and found
under the name of the class. -/
structure ClassRows (strong classname : Bytes) (pool : Pool) (classfiles : Table ClassFileCols)
    (n : ℕ) (cs : List (Row ClassFileCols)) : Prop where
  core : Core ⟨ClassFiles.format, fun _ => []⟩ classfiles cs
  length : cs.length = n
  named : ∀ r ∈ cs, Names classname pool r
  flags : ∀ j r, cs[j]? = some r → r.flags = if j + 1 = n then 0 else Deleted
  found : classfiles.rows.lookup strong = classfiles.autoIncrementIndex.getLast?

section Classes
variable {filename classname strong : Bytes} {last : Option (UInt64 × Int64)} {pool pool' : Pool}
  {files : Table FileCols} {classfiles : Table ClassFileCols} {fs : List (Row FileCols)}
  {cs : List (Row ClassFileCols)} {n : ℕ}

theorem Names.grows {r : Row ClassFileCols} (h : Names classname pool r)
    (hgrows : Grows pool pool') : Names classname pool' r :=
  ⟨h.1, hgrows _ _ h.2⟩

theorem ClassRows.grows (h : ClassRows strong classname pool classfiles n cs)
    (hgrows : Grows pool pool') : ClassRows strong classname pool' classfiles n cs :=
  { h with named := fun r hr => (h.named r hr).grows hgrows }

theorem FileRows.strong_eq {f : Row FileCols} (h : FileRows filename last pool files (f :: fs))
    {r : Row ClassFileCols} (hr : Names classname pool r) :
    files.getRow r.cols.file.toNat = some f ∧
      ClassFiles.getStrongClassname pool files r.cols =
        DomainTables.getStrongClassname filename classname := by
  have hrow : files.getRow r.cols.file.toNat = some f := by
    rw [h.core.getRow_eq, hr.1]
    rfl
  refine ⟨hrow, ?_⟩
  rw [ClassFiles.getStrongClassname, hrow]
  simp [text, h.named f (by simp), hr.2]

/-- A named class row owns nodes. -/
theorem owner_of_rows {db : CallGraphDb} {f : Row FileCols}
    (hfiles : FileRows filename last db.pool db.files (f :: fs)) {o : ℕ} {r : Row ClassFileCols}
    (hr : db.classfiles.getRow o = some r) (hnamed : Names classname db.pool r)
    (ho : o < 2 ^ 64) :
    Owner db o ∧
      db.getStrongClassname o = DomainTables.getStrongClassname filename classname := by
  obtain ⟨hfile, hstrong⟩ := hfiles.strong_eq hnamed
  refine ⟨⟨ho, r, f, hr, hfile, ?_, ?_⟩, ?_⟩
  · rw [hfiles.named f (by simp)]
    rfl
  · rw [hnamed.2]
    rfl
  · rw [CallGraphDb.getStrongClassname, hr]
    exact hstrong

theorem ClassRows.owner {db : CallGraphDb} {f : Row FileCols}
    (hfiles : FileRows filename last db.pool db.files (f :: fs))
    (h : ClassRows strong classname db.pool db.classfiles n cs) (hn : n ≤ 2 ^ 64) {o : ℕ}
    (ho : o < n) :
    Owner db o ∧
      db.getStrongClassname o = DomainTables.getStrongClassname filename classname := by
  have hlt : o < cs.length := by rw [h.length]; exact ho
  exact owner_of_rows hfiles ((h.core.getRow_eq o).trans (List.getElem?_eq_getElem hlt))
    (h.named _ (List.getElem_mem hlt)) (by omega)

theorem ClassRows.liveClass_iff {db : CallGraphDb}
    (h : ClassRows strong classname db.pool db.classfiles n cs) {o : ℕ} (ho : o < n) :
    LiveClass db o ↔ o + 1 = n := by
  have hlt : o < cs.length := by rw [h.length]; exact ho
  simp only [LiveClass, h.core.getRow_eq, List.getElem?_eq_getElem hlt, Option.some.injEq,
    exists_eq_left', Row.isDeleted, h.flags o _ (List.getElem?_eq_getElem hlt)]
  split_ifs with hlast
  · simp [hlast]
  · simp [hlast, Deleted]

end Classes

section Standalone
variable (A : ∀ α : Type, Allocator α) {words : List Bytes} {classname strong : Bytes}
  {last : Option (UInt64 × Int64)} {fs : List (Row FileCols)} {cs : List (Row ClassFileCols)}
  {n : ℕ}

/-- The file has one row, with the size and time of the latest version. -/
theorem storeFile_spec (hw : Lexicon words) (db : CallGraphDb) (info : ClassFileInfo)
    (hpooled : Pooled words db.pool) (hfiles : FileRows info.filename last db.pool db.files fs)
    (hmem : info.filename ∈ words) :
    ∃ pool files f, storeFile A db info = some { db with pool := pool, files := files } ∧
      Pooled words pool ∧ Grows db.pool pool ∧
      FileRows info.filename (some (info.size, info.timestamp)) pool files [f] ∧ f.id = 0 := by
  obtain ⟨pool, col, hcol, hpooled', hgrows, hread⟩ := getPoolString_spec hw hpooled hmem
  have hrows := hfiles.grows hgrows
  let row : Row FileCols := CallGraphDb.newRow
    { filename := col, lastWriteTime := info.timestamp, fileSize := info.size,
      classfileCount := 1 }
  have hkey : (Files.layout pool).getKey row.cols = info.filename := by
    change text pool col = info.filename
    rw [text, hread]
    rfl
  obtain ⟨files, readId, hadd, hcore, hfiled, -⟩ := addOrUpdate_single (A _) hrows.core hrows.filed
    row
    fun s hs => (hrows.getKey hs).trans hkey.symm
  refine ⟨pool, files, { row with id := 0 }, ?_, hpooled', hgrows, ⟨hcore, hfiled, ?_, rfl⟩, rfl⟩
  · simp only [storeFile, hcol db rfl, Option.bind_eq_bind, Option.bind_some]
    rw [hadd]
    rfl
  · intro r hr
    rw [List.mem_singleton.mp hr]
    exact hread

/-- The class rows when no class is found under the name. -/
structure Retired (strong classname : Bytes) (pool : Pool) (classfiles : Table ClassFileCols)
    (n : ℕ) (cs : List (Row ClassFileCols)) : Prop where
  core : Core ⟨ClassFiles.format, fun _ => []⟩ classfiles cs
  length : cs.length = n
  named : ∀ r ∈ cs, Names classname pool r
  flags : ∀ r ∈ cs, r.flags = Deleted
  found : classfiles.rows.lookup strong = none

theorem retireClass_spec (db : GraphDb) (hindex : ∀ i, db.ownerClassIndex i = ∅)
    (h : ClassRows strong classname db.pool db.classfiles n cs) :
    ∃ classfiles cs', retireClass db strong = some { db with classfiles := classfiles } ∧
      Retired strong classname db.pool classfiles n cs' := by
  cases hlast : db.classfiles.autoIncrementIndex.getLast? with
  | none =>
      have hfound := h.found.trans hlast
      have hnil : cs = [] := by
        have hindex := List.getLast?_eq_none_iff.mp hlast
        have hlength := h.core.length_eq
        rw [hindex] at hlength
        exact List.length_eq_zero_iff.mp hlength.symm
      subst hnil
      refine ⟨db.classfiles, [], ?_, h.core, h.length, nofun, nofun, hfound⟩
      simp only [retireClass, Table.findByKey, hfound]
  | some p =>
      have hfound := h.found.trans hlast
      have hlength := h.core.length_eq
      rw [List.getLast?_eq_getElem?, hlength] at hlast
      obtain ⟨r, hr, hlookup⟩ := h.core.exists_of_index hlast
      have hid := h.core.ids _ r hr
      have hlt := (List.getElem?_eq_some_iff.mp hr).1
      obtain ⟨t, harchive, hcore, -, hnone⟩ := archiveRow_core h.core hfound
      obtain ⟨t', hdelete, heffect⟩ := deleteRow_effect hcore hr
      refine ⟨t', _, ?_, heffect.core, ?_, ?_, ?_, ?_⟩
      · simp only [retireClass, Table.findByKey, hfound, hlookup, Option.bind_eq_bind,
          Option.bind_some, deleteClass_eq hindex, harchive, hid, hdelete]
      · rw [List.length_set, h.length]
      · intro s hs
        rcases List.mem_or_eq_of_mem_set hs with hs | rfl
        · exact h.named s hs
        · exact h.named r (List.mem_of_getElem? hr)
      · intro s hs
        obtain ⟨j, hj⟩ := List.getElem?_of_mem hs
        rw [List.getElem?_set] at hj
        split_ifs at hj with heq
        · obtain rfl := Option.some.inj hj
          rw [h.flags _ r hr, h.length, if_pos (by rw [h.length] at hlt; omega)]
          rfl
        · have hlt' := (List.getElem?_eq_some_iff.mp hj).1
          rw [h.flags j s hj, if_neg (by rw [← h.length]; omega)]
      · rw [(deleteRow_rows hdelete).1, hnone]

/-- The new class row is the one that is found. -/
theorem addClassRow_spec (hw : Lexicon words) (db : CallGraphDb) (info : ClassFileInfo)
    {f : Row FileCols} (hpooled : Pooled words db.pool)
    (hfiles : FileRows info.filename last db.pool db.files (f :: fs))
    (h : Retired (DomainTables.getStrongClassname info.filename classname) classname db.pool
      db.classfiles n cs) (hmem : classname ∈ words) :
    ∃ pool classfiles cs',
      addClassRow A db 0 classname info =
        some ({ db with pool := pool, classfiles := classfiles }, n) ∧
      Pooled words pool ∧ Grows db.pool pool ∧
      ClassRows (DomainTables.getStrongClassname info.filename classname) classname pool
        classfiles (n + 1) cs' := by
  obtain ⟨pool, col, hcol, hpooled', hgrows, hread⟩ := getPoolString_spec hw hpooled hmem
  let row : Row ClassFileCols := CallGraphDb.newRow
    { file := UInt64.ofNat 0, classname := col, lastWriteTime := info.timestamp.toUInt64,
      size := info.size, crc := 0 }
  have hnamed : Names classname pool row := ⟨rfl, hread⟩
  have hkey : (ClassFiles.layout pool db.files).getKey row.cols =
      DomainTables.getStrongClassname info.filename classname :=
    ((hfiles.grows hgrows).strong_eq hnamed).2
  have hcore : Core (ClassFiles.layout pool db.files) db.classfiles cs := h.core.rekey _
  obtain ⟨classfiles, hadd, heffect⟩ := add_effect (A _) hcore row (by rw [hkey, h.found])
  obtain ⟨hrows, hindex⟩ := add_rows (A _) hadd
  refine ⟨pool, classfiles, cs ++ [{ row with id := cs.length }], ?_, hpooled', hgrows,
    heffect.core.rekey _, by simp [h.length], ?_, ?_, ?_⟩
  · simp only [addClassRow, hcol db rfl, Option.bind_eq_bind, Option.bind_some]
    rw [hadd, h.length]
    rfl
  · intro r hr
    rcases List.mem_append.mp hr with hr | hr
    · exact (h.named r hr).grows hgrows
    · rw [List.mem_singleton.mp hr]
      exact hnamed
  · intro j r hr
    rw [List.getElem?_append, h.length] at hr
    split_ifs at hr with hlt
    · rw [h.flags r (List.mem_of_getElem? hr), if_neg (by omega)]
    · rw [List.getElem?_singleton] at hr
      split_ifs at hr
      obtain rfl := Option.some.inj hr
      rw [if_pos (by omega)]
      rfl
  · rw [hrows, hindex, hkey, AList.lookup_insert, List.getLast?_concat]

/-- A version of a standalone class file. -/
structure FileVersion (garbage : ℕ → UInt8) (classname : Bytes) extends
    Version .file garbage where
  size : UInt64
  timestamp : Int64
  main : getMainClassname «class» = some classname

@[simps]
def FileVersion.info {garbage : ℕ → UInt8} (filename : Bytes) (v : FileVersion garbage classname) :
    ClassFileInfo where
  filename := filename
  size := v.size
  timestamp := v.timestamp
  content := v.content

/-- The database between two versions, of which the given ones, the latest
first, were analysed. -/
structure FileState (words : List Bytes) (filename classname : Bytes)
    (last : Option (UInt64 × Int64)) (tss : List (List NodeTexts)) (db : GraphDb) : Prop where
  history : History words (DomainTables.getStrongClassname filename classname) (· < tss.length)
    db.toCallGraphDb fun i => entriesAfter id i tss
  index : ∀ i, db.ownerClassIndex i = ∅
  files : ∃ fs, FileRows filename last db.pool db.files fs
  classes : ∃ cs, ClassRows (DomainTables.getStrongClassname filename classname) classname
    db.pool db.classfiles tss.length cs

variable {garbage : ℕ → UInt8} {filename : Bytes} {tss : List (List NodeTexts)}

/-- One more version is analysed. -/
theorem FileState.analyseClass (hw : Lexicon words) {db : GraphDb}
    (h : FileState words filename classname last tss db) (hlt : tss.length < 2 ^ 64)
    (v : FileVersion garbage classname) (hfilename : filename ∈ words)
    (hclassname : classname ∈ words) (htexts : ∀ t ∈ v.texts, ∀ s ∈ labelOf t, s ∈ words) :
    ∃ db' found, analyseClass A db (v.info filename) v.class = some (db', found) ∧
      FileState words filename classname (some (v.size, v.timestamp)) (v.texts :: tss) db' := by
  obtain ⟨fs, hfs⟩ := h.files
  obtain ⟨cs, hcs⟩ := h.classes
  obtain ⟨pool₁, files, f, hstore, hpooled₁, hgrows₁, hfiles, hid⟩ :=
    storeFile_spec A hw db.toCallGraphDb (v.info filename) h.history.pooled hfs hfilename
  obtain ⟨p, hp, hlookup⟩ := Option.bind_eq_some_iff.mp hfiles.findByKey
  obtain ⟨classfiles₁, cs₁, hretire, hretired⟩ := retireClass_spec
    { db with pool := pool₁, files := files } h.index (hcs.grows hgrows₁)
  obtain ⟨pool₂, classfiles₂, cs₂, hadd, hpooled₂, hgrows₂, hclasses⟩ := addClassRow_spec A hw
    ⟨pool₁, files, classfiles₁, db.nodes⟩ (v.info filename) hpooled₁ hfiles hretired hclassname
  have hhistory : History words (DomainTables.getStrongClassname filename classname)
      (· < tss.length + 1) ⟨pool₂, files, classfiles₂, db.nodes⟩
      fun i => entriesAfter id i tss := by
    refine h.history.of_eq (fun o ho => Nat.lt_succ_of_lt ho) hpooled₂
      (fun _ _ hs => hgrows₂ _ _ (hgrows₁ _ _ hs)) rfl fun o ho => ?_
    exact hclasses.owner (hfiles.grows hgrows₂) (Nat.succ_le_of_lt hlt) ho
  obtain ⟨pool₃, nodes, hrecord, hgrows₃, hhistory'⟩ :=
    hhistory.recordAll A hw (Nat.lt_succ_self _) htexts
  obtain ⟨s, hparsed⟩ := v.parses
  refine ⟨{ db with pool := pool₃, files := files, classfiles := classfiles₂, nodes := nodes },
    some (DomainTables.getStrongClassname filename classname,
      (db.classfiles.findByKey (DomainTables.getStrongClassname filename classname)).isSome), ?_,
    hhistory', h.index, ⟨_, (hfiles.grows hgrows₂).grows hgrows₃⟩, ⟨_, hclasses.grows hgrows₃⟩⟩
  have hextract := @extractNodes_eq A tss.length _ (laidOut_of_parsed hparsed)
    ⟨pool₂, files, classfiles₂, db.nodes⟩
  rw [v.extracted, Option.bind_some, hrecord] at hextract
  rw [FileVersion.info_filename] at hp
  simp only [CallGraphAnalysis.analyseClass, hstore, Option.bind_eq_bind, Option.bind_some,
    FileVersion.info_filename, hp, hlookup, v.main, hretire, hid, hadd, hextract]

/-- A version that `doClassFile` takes for the stored one. -/
def skips (options : Options) (last : Option (UInt64 × Int64))
    (v : FileVersion garbage classname) : Bool :=
  options.useFileTimestamp && last == some (v.size, v.timestamp)

theorem FileState.isUnchanged {db : GraphDb}
    (h : FileState words filename classname last tss db) (options : Options)
    (v : FileVersion garbage classname) :
    isUnchanged options db.files (v.info filename) = skips options last v := by
  obtain ⟨fs, hfs⟩ := h.files
  rw [CallGraphAnalysis.isUnchanged, skips, FileVersion.info_filename, hfs.findByKey]
  congr 1
  have hstamps := hfs.stamps
  cases fs with
  | nil =>
      rw [List.map_nil] at hstamps
      rw [Option.toList_eq_nil_iff.mp hstamps.symm]
      rfl
  | cons f rest =>
      cases last with
      | none => simp at hstamps
      | some stamp =>
          rw [List.map_cons, Option.toList_some, List.cons.injEq] at hstamps
          rw [← hstamps.1]
          rfl

/-- One call of `doClassFile`. -/
theorem FileState.doClassFile (hw : Lexicon words) {db : GraphDb}
    (h : FileState words filename classname last tss db) (hlt : tss.length < 2 ^ 64)
    (options : Options) (results : Results) (v : FileVersion garbage classname)
    (hfilename : filename ∈ words) (hclassname : classname ∈ words)
    (htexts : ∀ t ∈ v.texts, ∀ s ∈ labelOf t, s ∈ words) :
    ∃ db' results', doClassFile A options garbage db results (v.info filename) =
        .returned (db', results') ∧
      if skips options last v then FileState words filename classname last tss db'
      else FileState words filename classname (some (v.size, v.timestamp)) (v.texts :: tss)
        db' := by
  unfold CallGraphAnalysis.doClassFile
  rw [h.isUnchanged]
  split_ifs with hskips
  · exact ⟨_, _, rfl, h⟩
  · obtain ⟨s, hparsed⟩ := v.parses
    obtain ⟨reader, hreader, hparse⟩ := Option.bind_eq_some_iff.mp hparsed
    obtain ⟨db', found, hanalyse, hstate⟩ :=
      h.analyseClass A hw hlt v hfilename hclassname htexts
    simp only [FileVersion.info_content, hreader, hparse, hanalyse]
    exact ⟨_, _, rfl, hstate⟩

end Standalone

section Jar
variable (A : ∀ α : Type, Allocator α) {words : List Bytes} {garbage : ℕ → UInt8}
  {filename name classname : Bytes} {pJar : ℕ} {tss : List (List NodeTexts)}

/-- A version of a class in a jar, with the class row that `processEntry` passes
on. -/
structure EntryVersion (garbage : ℕ → UInt8) (name classname : Bytes) extends
    Version .memory garbage where
  crc : Int32
  lastWriteTime : UInt64
  row : Option (Row ClassFileCols)
  unique : getUniqueClassname ⟨name, crc, lastWriteTime, content⟩ «class» = some classname

@[simps]
def EntryVersion.entry (v : EntryVersion garbage name classname) : JarEntry where
  name := name
  crc := v.crc
  lastWriteTime := v.lastWriteTime
  content := v.content

/-- The class row of a jar, once there is one. -/
structure EntryRow (classname : Bytes) (pool : Pool) (files : Table FileCols)
    (classfiles : Table ClassFileCols) (cs : List (Row ClassFileCols)) : Prop where
  core : Core (ClassFiles.layout pool files) classfiles cs
  filed : Filed (ClassFiles.layout pool files) classfiles cs
  named : ∀ r ∈ cs, Names classname pool r
  flags : ∀ r ∈ cs, r.flags = 0

/-- The database between two versions, all of which were analysed. -/
structure EntryState (words : List Bytes) (filename classname : Bytes) (pJar : ℕ)
    (tss : List (List NodeTexts)) (db : GraphDb) : Prop where
  history : History words (DomainTables.getStrongClassname filename classname)
    (fun o => o = 0 ∧ tss ≠ []) db.toCallGraphDb fun i => entriesAfter (fun _ => 0) i tss
  index : ∀ i, db.ownerClassIndex i = ∅
  files : ∃ stamp f, FileRows filename stamp db.pool db.files [f] ∧
    db.files.heap.lookup pJar = some f ∧ f.id = 0
  classes : ∃ cs, EntryRow classname db.pool db.files db.classfiles cs ∧ (cs = [] ↔ tss = [])

theorem EntryRow.grows {pool pool' : Pool} {files : Table FileCols}
    {classfiles : Table ClassFileCols} {cs : List (Row ClassFileCols)} {f : Row FileCols}
    {stamp : Option (UInt64 × Int64)} (h : EntryRow classname pool files classfiles cs)
    (hfiles : FileRows filename stamp pool files [f]) (hgrows : Grows pool pool') :
    EntryRow classname pool' files classfiles cs where
  core := h.core.rekey _
  filed := by
    refine h.filed.rekey fun r hr => ?_
    rw [((hfiles.grows hgrows).strong_eq ((h.named r hr).grows hgrows)).2,
      (hfiles.strong_eq (h.named r hr)).2]
  named r hr := (h.named r hr).grows hgrows
  flags := h.flags

/-- The class row is added or updated under the id 0, which is what the analysis goes on with
as far as a released row keeps it. -/
theorem addOrUpdateClassfile_spec (hw : Lexicon words) {db : GraphDb}
    (h : EntryState words filename classname pJar tss db) (v : EntryVersion garbage name classname)
    (hclassname : classname ∈ words) (digest : DigestCol) :
    ∃ pool classfiles r rowId, addOrUpdateClassfile A db.pool db.files db.classfiles pJar v.entry
        digest v.class = some (pool, classfiles, rowId) ∧
      Pooled words pool ∧ Grows db.pool pool ∧ EntryRow classname pool db.files classfiles [r] ∧
      (tss = [] ∨ (A ClassFileCols).KeepsIds → rowId = 0) := by
  obtain ⟨stamp, f, hfiles, hjar, hid⟩ := h.files
  obtain ⟨cs, hcs, hnil⟩ := h.classes
  obtain ⟨pool, offset, hadd, hpooled, hgrows, hread⟩ :=
    h.history.pooled.internalAdd hw hclassname
  have hrows := hcs.grows hfiles hgrows
  let row : Row ClassFileCols := CallGraphDb.newRow
    { file := UInt64.ofNat 0, lastWriteTime := v.lastWriteTime, size := v.entry.getSize,
      classname := UInt64.ofNat offset, digest := digest, crc := v.crc }
  have hnamed : Names classname pool row := by
    refine ⟨rfl, ?_⟩
    change pool.getCString (UInt64.ofNat offset).toNat = some classname
    rw [hpooled.toNat_ofNat hw hread, hread]
  have hkey : ∀ {r}, Names classname pool r → (ClassFiles.layout pool db.files).getKey r.cols =
      DomainTables.getStrongClassname filename classname :=
    fun hr => ((hfiles.grows hgrows).strong_eq hr).2
  obtain ⟨classfiles, readId, hstore, hcore, hfiled, hread⟩ := addOrUpdate_single (A _) hrows.core
    hrows.filed row fun s hs => (hkey (hrows.named s hs)).trans (hkey hnamed).symm
  refine ⟨pool, classfiles, { row with id := 0 }, readId 0, ?_, hpooled, hgrows,
    ⟨hcore, hfiled, ?_, ?_⟩, fun hids => hread (hids.imp_left hnil.mpr)⟩
  · have hunique : getUniqueClassname v.entry v.class = some classname := v.unique
    simp only [addOrUpdateClassfile, hunique, hjar, hadd, hid, Option.bind_eq_bind,
      Option.bind_some, EntryVersion.entry_lastWriteTime, EntryVersion.entry_crc]
    rw [hstore]
    rfl
  · intro r hr
    rw [List.mem_singleton.mp hr]
    exact hnamed
  · intro r hr
    rw [List.mem_singleton.mp hr]
    rfl

/-- The row that is released when the class row is written again still has its id. -/
def RowKept (db : GraphDb) (pJar : ℕ) (v : EntryVersion garbage name classname) : Prop :=
  (addOrUpdateClassfile A db.pool db.files db.classfiles pJar v.entry (Vector.replicate 40 0)
    v.class).map (fun x => x.2.2) = some 0

theorem EntryState.rowKept (hw : Lexicon words) {db : GraphDb}
    (h : EntryState words filename classname pJar tss db) (v : EntryVersion garbage name classname)
    (hclassname : classname ∈ words) (hids : tss = [] ∨ (A ClassFileCols).KeepsIds) :
    RowKept A db pJar v := by
  obtain ⟨pool, classfiles, r, rowId, hadd, -, -, -, hread⟩ :=
    addOrUpdateClassfile_spec A hw h v hclassname (Vector.replicate 40 0)
  rw [RowKept, hadd, Option.map_some, hread hids]

/-- `processClassFile` behind `deleteClass` and the parser. -/
theorem EntryState.processClassFile_eq {db : GraphDb}
    (h : EntryState words filename classname pJar tss db) (options : Options) (results : Results)
    (v : EntryVersion garbage name classname) :
    processClassFile A options garbage filename pJar db results v.entry v.row =
      match analyseEntry A db pJar v.entry v.class with
      | none => .undefined
      | some db => .returned (db, results) := by
  obtain ⟨s, hparsed⟩ := v.parses
  obtain ⟨reader, hreader, hparse⟩ := Option.bind_eq_some_iff.mp hparsed
  unfold CallGraphAnalysis.processClassFile
  cases hanalyse : analyseEntry A db pJar v.entry v.class with
  | none =>
      cases v.row with
      | none => simp only [EntryVersion.entry_content, hreader, hparse, hanalyse]
      | some row =>
          simp only [deleteClass_eq h.index, EntryVersion.entry_content, hreader, hparse, hanalyse]
  | some db' =>
      cases v.row with
      | none => simp only [EntryVersion.entry_content, hreader, hparse, hanalyse]
      | some row =>
          simp only [deleteClass_eq h.index, EntryVersion.entry_content, hreader, hparse, hanalyse]

/-- One call of `processClassFile` that finds the id of the class row. -/
theorem EntryState.processClassFile (hw : Lexicon words) {db : GraphDb}
    (h : EntryState words filename classname pJar tss db) (options : Options) (results : Results)
    (v : EntryVersion garbage name classname) (hclassname : classname ∈ words)
    (htexts : ∀ t ∈ v.texts, ∀ s ∈ labelOf t, s ∈ words) (hkept : RowKept A db pJar v) :
    ∃ db', processClassFile A options garbage filename pJar db results v.entry v.row =
        .returned (db', results) ∧
      EntryState words filename classname pJar (v.texts :: tss) db' := by
  obtain ⟨pool₁, classfiles, r, rowId, hadd, hpooled, hgrows₁, hclasses, -⟩ :=
    addOrUpdateClassfile_spec A hw h v hclassname (Vector.replicate 40 0)
  rw [RowKept, hadd, Option.map_some, Option.some.injEq] at hkept
  obtain rfl : rowId = 0 := hkept
  obtain ⟨stamp, f, hfiles, hjar, hid⟩ := h.files
  have hfiles₁ := hfiles.grows hgrows₁
  have hrow : classfiles.getRow 0 = some r := hclasses.core.getRow_eq 0
  have hhistory : History words (DomainTables.getStrongClassname filename classname)
      (fun o => o = 0 ∧ v.texts :: tss ≠ []) ⟨pool₁, db.files, classfiles, db.nodes⟩
      fun i => entriesAfter (fun _ => 0) i tss := by
    refine h.history.of_eq (fun o ho => ⟨ho.1, List.cons_ne_nil _ _⟩) hpooled hgrows₁ rfl ?_
    rintro o ⟨rfl, -⟩
    exact owner_of_rows hfiles₁ hrow (hclasses.named r (by simp)) (by decide)
  obtain ⟨pool₂, nodes, hrecord, hgrows₂, hhistory'⟩ :=
    hhistory.recordAll A hw ⟨rfl, List.cons_ne_nil _ _⟩ htexts
  obtain ⟨s, hparsed⟩ := v.parses
  have hextract := @extractNodes_eq A 0 _ (laidOut_of_parsed hparsed)
    ⟨pool₁, db.files, classfiles, db.nodes⟩
  rw [v.extracted, Option.bind_some, hrecord] at hextract
  have hanalyse : analyseEntry A db pJar v.entry v.class =
      some { db with pool := pool₂, classfiles := classfiles, nodes := nodes } := by
    simp only [analyseEntry, hadd, hrow, Option.bind_eq_bind, Option.bind_some, hextract]
  refine ⟨{ db with pool := pool₂, classfiles := classfiles, nodes := nodes }, ?_, hhistory',
    h.index, ⟨stamp, f, hfiles₁.grows hgrows₂, hjar, hid⟩,
    ⟨[r], hclasses.grows hfiles₁ hgrows₂, by simp⟩⟩
  rw [h.processClassFile_eq, hanalyse]

/-- Another id is that of no row. -/
theorem EntryState.processClassFile_undefined (hw : Lexicon words) {db : GraphDb}
    (h : EntryState words filename classname pJar tss db) (options : Options) (results : Results)
    (v : EntryVersion garbage name classname) (hclassname : classname ∈ words)
    (hlost : ¬RowKept A db pJar v) :
    CallGraphAnalysis.processClassFile A options garbage filename pJar db results v.entry v.row =
      .undefined := by
  obtain ⟨pool, classfiles, r, rowId, hadd, -, -, hclasses, -⟩ :=
    addOrUpdateClassfile_spec A hw h v hclassname (Vector.replicate 40 0)
  rw [RowKept, hadd, Option.map_some, Option.some.injEq] at hlost
  have hrow : classfiles.getRow rowId = none := by
    rw [hclasses.core.getRow_eq, List.getElem?_singleton, if_neg hlost]
  have hanalyse : analyseEntry A db pJar v.entry v.class = none := by
    simp only [analyseEntry, hadd, hrow, Option.bind_eq_bind, Option.bind_some, Option.bind_none]
  rw [h.processClassFile_eq, hanalyse]

end Jar

end Tarracsh.Reanalysis
