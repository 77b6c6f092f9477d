import Tarracsh.DigestRuns
import Tarracsh.TableFrames

/-!
# Digest databases

`Valid` ties a digest database to the rows of its two tables. The class stored
under a key is the row with that key, so an added or updated class row is an
update of the map, and no change to pool or files touches the map.
-/
namespace Tarracsh.DigestSimulation
open ByteStrings StringPool ParsedClass ClassFileReader ClassFileParser TableModel TableInvariant
open TableFrames DomainTables CallGraphTables CallGraphInvariant SafeConsumption JarEntries Reporting
open ClassFileDigest DigestTasks DigestRuns KeyedReactions

/-- The database represents the given rows. -/
structure Valid (words : List Bytes) (db : DigestDb) (fs : List (Row FileCols))
    (cs : List (Row ClassFileCols)) : Prop where
  pooled : Pooled words db.pool
  files : Core (Files.layout db.pool) db.files fs
  filedFiles : Filed (Files.layout db.pool) db.files fs
  named : ∀ f ∈ fs, (db.pool.getCString f.cols.filename.toNat).isSome
  classes : Core (ClassFiles.layout db.pool db.files) db.classfiles cs
  filedClasses : Filed (ClassFiles.layout db.pool db.files) db.classfiles cs
  owned : ∀ r ∈ cs, r.cols.file.toNat < fs.length ∧
    (db.pool.getCString r.cols.classname.toNat).isSome
  small : fs.length < 2 ^ 64 - 1

section Rows
variable {words : List Bytes} {db : DigestDb} {fs : List (Row FileCols)}
  {cs : List (Row ClassFileCols)}

theorem stored_eq_some_iff (h : Valid words db fs cs) {key : Bytes} {x : ClassRecord} :
    stored db key = some x ↔ ∃ r ∈ cs,
      ClassFiles.getStrongClassname db.pool db.files r.cols = key ∧
        recordOf db.pool r.cols = x := by
  rw [stored, Option.map_eq_some_iff]
  constructor
  · rintro ⟨r, hr, hx⟩
    obtain ⟨p, hp, hlookup⟩ := Option.bind_eq_some_iff.mp hr
    obtain ⟨i, s, hi, hs, hkey⟩ := (h.filedClasses key p).mp hp
    rw [h.classes.lookup_of_index hi, hs] at hlookup
    obtain rfl := Option.some.inj hlookup
    exact ⟨s, List.mem_of_getElem? hs, hkey, hx⟩
  · rintro ⟨r, hr, hkey, hx⟩
    obtain ⟨i, hi⟩ := List.getElem?_of_mem hr
    obtain ⟨p, hp, hlookup⟩ := h.classes.exists_of_row hi
    refine ⟨r, Option.bind_eq_some_iff.mpr ⟨p, ?_, hlookup⟩, hx⟩
    exact (h.filedClasses key p).mpr ⟨i, r, hp, hi, hkey⟩

/-- The row that `findByKey` returns is there. -/
theorem findClass_spec (h : Valid words db fs cs) (key : Bytes) :
    ∃ row, db.findClass key = some row ∧ row.map (recordOf db.pool) = stored db key ∧
      ∀ r, row = some r → r.file ≠ InvalidRef := by
  cases hkey : db.classfiles.findByKey key with
  | none =>
      refine ⟨none, ?_, ?_, nofun⟩
      · rw [DigestDb.findClass, hkey]
      · rw [stored, hkey]
        rfl
  | some p =>
      obtain ⟨i, s, hi, hs, -⟩ := (h.filedClasses key p).mp hkey
      have hlookup : db.classfiles.heap.lookup p = some s := by
        rw [h.classes.lookup_of_index hi, hs]
      refine ⟨some s.cols, ?_, ?_, ?_⟩
      · rw [DigestDb.findClass, hkey]
        simp only [hlookup, Option.map_some]
      · rw [stored, hkey, Option.bind_some, hlookup]
        rfl
      · intro r hr hinvalid
        obtain rfl := Option.some.inj hr
        have hlt := (h.owned s (List.mem_of_getElem? hs)).1
        have hsmall := h.small
        rw [hinvalid] at hlt
        change 2 ^ 64 - 1 < fs.length at hlt
        omega

/-- A row has the same key as long as its file keeps its name. -/
theorem getStrongClassname_eq {db' : DigestDb} (h : Valid words db fs cs)
    (hgrows : Grows db.pool db'.pool)
    (hfiles : ∀ (i : ℕ) f, fs[i]? = some f → ∃ f', db'.files.getRow i = some f' ∧
      text db'.pool f'.cols.filename = text db'.pool f.cols.filename)
    {r : Row ClassFileCols} (hr : r ∈ cs) :
    ClassFiles.getStrongClassname db'.pool db'.files r.cols =
      ClassFiles.getStrongClassname db.pool db.files r.cols := by
  obtain ⟨hlt, hname⟩ := h.owned r hr
  have hf : fs[r.cols.file.toNat]? = some fs[r.cols.file.toNat] := List.getElem?_eq_getElem hlt
  obtain ⟨f', hf', hfilename⟩ := hfiles _ _ hf
  simp only [ClassFiles.getStrongClassname, hf', h.files.getRow_eq, hf, hfilename,
    hgrows.text hname, hgrows.text (h.named _ (List.getElem_mem hlt))]

theorem recordOf_grows (h : Valid words db fs cs) {pool : Pool} (hgrows : Grows db.pool pool)
    {r : Row ClassFileCols} (hr : r ∈ cs) :
    recordOf pool r.cols = recordOf db.pool r.cols := by
  rw [recordOf, recordOf, hgrows.text (h.owned r hr).2]

/-- The pool grows and the files keep their names. -/
theorem Valid.of_files (h : Valid words db fs cs) {pool : Pool} {files : Table FileCols}
    {fs' : List (Row FileCols)} (hpooled : Pooled words pool) (hgrows : Grows db.pool pool)
    (hcore : Core (Files.layout pool) files fs') (hfiled : Filed (Files.layout pool) files fs')
    (hnamed : ∀ f ∈ fs', (pool.getCString f.cols.filename.toNat).isSome)
    (hfiles : ∀ (i : ℕ) f, fs[i]? = some f → ∃ f', fs'[i]? = some f' ∧
      text pool f'.cols.filename = text pool f.cols.filename) (hsmall : fs'.length < 2 ^ 64 - 1) :
    Valid words ⟨pool, files, db.classfiles⟩ fs' cs ∧
      stored ⟨pool, files, db.classfiles⟩ = stored db := by
  have hkeys : ∀ r ∈ cs, ClassFiles.getStrongClassname pool files r.cols =
      ClassFiles.getStrongClassname db.pool db.files r.cols := by
    intro r hr
    refine @getStrongClassname_eq _ _ _ _ ⟨pool, files, db.classfiles⟩ h hgrows
      (fun i f hf => ?_) _ hr
    obtain ⟨f', hf', hfilename⟩ := hfiles i f hf
    exact ⟨f', (hcore.getRow_eq i).trans hf', hfilename⟩
  have hlength : fs.length ≤ fs'.length := by
    by_contra hlt
    have hlast : fs'.length < fs.length := by omega
    obtain ⟨f', hf', -⟩ := hfiles fs'.length _ (List.getElem?_eq_getElem hlast)
    have := (List.getElem?_eq_some_iff.mp hf').1
    omega
  have hvalid : Valid words ⟨pool, files, db.classfiles⟩ fs' cs :=
    { pooled := hpooled
      files := hcore
      filedFiles := hfiled
      named := hnamed
      classes := h.classes.rekey _
      filedClasses := h.filedClasses.rekey hkeys
      owned := fun r hr => ⟨(h.owned r hr).1.trans_le hlength, hgrows.isSome (h.owned r hr).2⟩
      small := hsmall }
  refine ⟨hvalid, funext fun key => Option.ext fun x => ?_⟩
  rw [stored_eq_some_iff hvalid, stored_eq_some_iff h]
  refine exists_congr fun r => and_congr_right fun hr => ?_
  rw [hkeys r hr, recordOf_grows h hgrows hr]

/-- A string is interned. -/
theorem Valid.grows (h : Valid words db fs cs) {pool : Pool} (hpooled : Pooled words pool)
    (hgrows : Grows db.pool pool) :
    Valid words { db with pool := pool } fs cs ∧ stored { db with pool := pool } = stored db :=
  h.of_files hpooled hgrows (h.files.rekey _)
    (h.filedFiles.rekey fun f hf => hgrows.text (h.named f hf))
    (fun f hf => hgrows.isSome (h.named f hf)) (fun _ f hf => ⟨f, hf, rfl⟩) h.small

/-- A file gets a row under a new name. -/
theorem Valid.addFile (A : ∀ α : Type, Allocator α) (h : Valid words db fs cs)
    (new : Row FileCols)
    (hname : (db.pool.getCString new.cols.filename.toNat).isSome)
    (hkey : db.files.rows.lookup (text db.pool new.cols.filename) = none)
    (hroom : fs.length + 1 < 2 ^ 64 - 1) :
    ∃ files, (db.files.allocate (A _) new).1.add (Files.layout db.pool)
        (db.files.allocate (A _) new).2 = some (files, fs.length) ∧
      Valid words { db with files := files } (fs ++ [{ new with id := fs.length }]) cs ∧
      stored { db with files := files } = stored db ∧
      files.autoIncrementIndex[fs.length]? = some ((A _).malloc db.files.heap) ∧
      files.heap.lookup ((A _).malloc db.files.heap) = some { new with id := fs.length } := by
  obtain ⟨files, hstore, heffect⟩ := add_effect (A _) h.files new hkey
  have hindex : files.autoIncrementIndex[fs.length]? = some ((A _).malloc db.files.heap) := by
    rw [(add_rows (A _) hstore).2, ← h.files.length_eq]
    simp
  have hnamed : ∀ f ∈ fs ++ [{ new with id := fs.length }],
      (db.pool.getCString f.cols.filename.toNat).isSome := by
    intro f hf
    rcases List.mem_append.mp hf with hf | hf
    · exact h.named f hf
    · rw [List.mem_singleton.mp hf]
      exact hname
  have hkept : ∀ (i : ℕ) f, fs[i]? = some f →
      ∃ f', (fs ++ [{ new with id := fs.length }])[i]? = some f' ∧
        text db.pool f'.cols.filename = text db.pool f.cols.filename := by
    intro i f hf
    refine ⟨f, ?_, rfl⟩
    rw [List.getElem?_append_left (List.getElem?_eq_some_iff.mp hf).1]
    exact hf
  obtain ⟨hvalid, hstored⟩ := h.of_files h.pooled (fun _ _ hs => hs) heffect.core
    (heffect.filed h.filedFiles) hnamed hkept (by simpa using hroom)
  refine ⟨files, hstore, hvalid, hstored, hindex, ?_⟩
  rw [heffect.core.lookup_of_index hindex]
  simp

/-- A class row that is added or updated is an update of the map. The callers read the id of
a class that was not stored, and it is marked. -/
theorem Valid.storeClass (A : ∀ α : Type, Allocator α) (h : Valid words db fs cs)
    (new : Row ClassFileCols) (hfile : new.cols.file.toNat < fs.length)
    (hname : (db.pool.getCString new.cols.classname.toNat).isSome) :
    ∃ classfiles readId cs', (db.classfiles.allocate (A _) new).1.addOrUpdate
        (ClassFiles.layout db.pool db.files) (A _) (db.classfiles.allocate (A _) new).2 =
          some (classfiles, readId) ∧
      Valid words { db with classfiles := classfiles } fs cs' ∧
      stored { db with classfiles := classfiles } = Function.update (stored db)
        (ClassFiles.getStrongClassname db.pool db.files new.cols)
        (some (recordOf db.pool new.cols)) ∧
      (stored db (ClassFiles.getStrongClassname db.pool db.files new.cols) = none ∨
        (A ClassFileCols).KeepsIds → ∀ n, (cs'[readId n]?).isSome) ∧
      (stored db (ClassFiles.getStrongClassname db.pool db.files new.cols) = none →
        AddsRows 1 db.classfiles classfiles) := by
  obtain ⟨classfiles, readId, id, m, cs', hupdate, heffect, hread, hrows⟩ :=
    addOrUpdate_mem (A _) h.classes h.filedClasses new
  have hvalid : Valid words { db with classfiles := classfiles } fs cs' :=
    { h with
      classes := heffect.core
      filedClasses := heffect.filed h.filedClasses
      owned := by
        intro r hr
        rcases (hrows r).mp hr with rfl | ⟨hr, -⟩
        · exact ⟨hfile, hname⟩
        · exact h.owned r hr }
  have hunknown : stored db (ClassFiles.getStrongClassname db.pool db.files new.cols) = none →
      db.classfiles.rows.lookup (ClassFiles.getStrongClassname db.pool db.files new.cols) =
        none := by
    intro hnone
    rw [Option.eq_none_iff_forall_ne_some]
    intro p hp
    obtain ⟨j, r, -, hr, hkey⟩ := (h.filedClasses _ p).mp hp
    have hsome := (stored_eq_some_iff h).mpr ⟨r, List.mem_of_getElem? hr, hkey, rfl⟩
    exact absurd (hnone.symm.trans hsome) (by simp)
  refine ⟨classfiles, readId, cs', hupdate, hvalid, ?_, fun hnew n => ?_, fun hnone =>
    adds_addOrUpdate (A _) h.classes (hunknown hnone) hupdate⟩
  rotate_left
  · obtain ⟨i, hi⟩ := List.getElem?_of_mem ((hrows _).mpr (.inl rfl))
    have hid : id = i := heffect.core.ids _ _ hi
    rw [hread (hnew.imp_left hunknown) n, hid, hi]
    rfl
  funext key
  apply Option.ext
  intro x
  rw [stored_eq_some_iff hvalid, Function.update_apply]
  split_ifs with heq
  · subst heq
    constructor
    · rintro ⟨r, hr, hkeyr, rfl⟩
      rcases (hrows r).mp hr with rfl | ⟨-, hne⟩
      · rfl
      · exact absurd hkeyr hne
    · intro hx
      exact ⟨{ new with id := id }, (hrows _).mpr (.inl rfl), rfl, Option.some.inj hx⟩
  · rw [stored_eq_some_iff h]
    refine exists_congr fun r => ?_
    rw [hrows]
    constructor
    · rintro ⟨rfl | ⟨hr, -⟩, hkeyr, hx⟩
      · exact absurd hkeyr.symm heq
      · exact ⟨hr, hkeyr, hx⟩
    · rintro ⟨hr, hkeyr, hx⟩
      exact ⟨.inr ⟨hr, fun hsame => heq (hkeyr.symm.trans hsame)⟩, hkeyr, hx⟩

end Rows

/-- A task at work on a jar. The row of a new jar is in the table unless the run
is dry. -/
structure Ready (words : List Bytes) (dryRun : Bool) (filename : Bytes) (s : TaskState)
    (fs : List (Row FileCols)) (cs : List (Row ClassFileCols)) (row : Row FileCols) : Prop where
  valid : Valid words s.db fs cs
  lookup : s.db.files.heap.lookup s.task.jarFileRow = some row
  filename : s.db.pool.getCString row.cols.filename.toNat = some filename
  added : dryRun = false → s.db.files.autoIncrementIndex[row.id]? = some s.task.jarFileRow

section Steps
variable {words : List Bytes} {dryRun : Bool} {filename : Bytes} {s : TaskState}
  {fs : List (Row FileCols)} {cs : List (Row ClassFileCols)} {row : Row FileCols}

theorem Ready.row_mem (h : Ready words dryRun filename s fs cs row) (hdry : dryRun = false) :
    fs[row.id]? = some row := by
  rw [← h.valid.files.lookup_of_index (h.added hdry), h.lookup]

theorem Ready.text_filename (h : Ready words dryRun filename s fs cs row) :
    text s.db.pool row.cols.filename = filename := by
  rw [text, h.filename]
  rfl

/-- The row of the jar is changed in place. -/
theorem Ready.setJarRow (h : Ready words dryRun filename s fs cs row) (cols : FileCols)
    (hname : cols.filename = row.cols.filename) :
    ∃ fs', Valid words { s.db with files := s.setJarRow { row with cols := cols } } fs' cs ∧
      stored { s.db with files := s.setJarRow { row with cols := cols } } = stored s.db := by
  have hkey : (Files.layout s.db.pool).getKey cols = (Files.layout s.db.pool).getKey row.cols := by
    change text s.db.pool cols.filename = text s.db.pool row.cols.filename
    rw [hname]
  obtain ⟨fs', hcore, hfiled, hlength, hrows⟩ := insert_heap h.valid.files h.lookup
    (r := { row with cols := cols }) rfl hkey
  have hkept : ∀ (i : ℕ) f, fs[i]? = some f → ∃ f', fs'[i]? = some f' ∧
      f'.cols.filename = f.cols.filename := by
    intro i f hf
    rcases hrows i f hf with hsame | ⟨rfl, hnew⟩
    · exact ⟨f, hsame, rfl⟩
    · exact ⟨_, hnew, hname⟩
  refine ⟨fs', h.valid.of_files h.valid.pooled (fun _ _ hs => hs) hcore
    (hfiled h.valid.filedFiles) (fun f' hf' => ?_) (fun i f hf => ?_)
    (hlength ▸ h.valid.small)⟩
  swap
  · obtain ⟨f', hf', hfilename⟩ := hkept i f hf
    exact ⟨f', hf', by rw [hfilename]⟩
  obtain ⟨i, hi⟩ := List.getElem?_of_mem hf'
  have hlt : i < fs.length := hlength ▸ (List.getElem?_eq_some_iff.mp hi).1
  obtain ⟨f'', hf'', hfilename⟩ := hkept i _ (List.getElem?_eq_getElem hlt)
  obtain rfl := Option.some.inj (hi.symm.trans hf'')
  rw [hfilename]
  exact h.valid.named _ (List.getElem_mem hlt)

theorem Ready.countClass (h : Ready words dryRun filename s fs cs row) :
    ∃ fs', Ready words dryRun filename (s.countClass row) fs' cs
        (withCount row (row.cols.classfileCount + 1)) ∧
      stored (s.countClass row).db = stored s.db := by
  obtain ⟨fs', hvalid, hstored⟩ := h.setJarRow
    { row.cols with classfileCount := row.cols.classfileCount + 1 } rfl
  exact ⟨fs', ⟨hvalid, AList.lookup_insert _, h.filename, h.added⟩, hstored⟩

variable (A : ∀ α : Type, Allocator α)

/-- A class row that is added or updated is an update of the map. The callers read the id of
a class that was not stored, and it is marked. -/
theorem addOrUpdateClassfile_spec (hw : Lexicon words)
    (h : Ready words false filename s fs cs row) {e : JarEntry} {c : ClassFile}
    {classname : Bytes} (hunique : getUniqueClassname e c = some classname)
    (hmem : classname ∈ words) (digest : DigestCol) :
    ∃ pool classfiles id cs', addOrUpdateClassfile A s.db.pool s.db.files s.db.classfiles
        s.task.jarFileRow e digest c = some (pool, classfiles, id) ∧
      Valid words { s.db with pool := pool, classfiles := classfiles } fs cs' ∧
      Grows s.db.pool pool ∧
      stored { s.db with pool := pool, classfiles := classfiles } =
        Function.update (stored s.db) (DomainTables.getStrongClassname filename classname)
          (some ⟨classname, e.getSize, e.crc, e.lastWriteTime, digest⟩) ∧
      (stored s.db (DomainTables.getStrongClassname filename classname) = none ∨
        (A ClassFileCols).KeepsIds → (cs'[id]?).isSome) ∧
      (stored s.db (DomainTables.getStrongClassname filename classname) = none →
        AddsRows 1 s.db.classfiles classfiles) := by
  obtain ⟨pool, offset, hadd, hpooled, hgrows, hread⟩ := h.valid.pooled.internalAdd hw hmem
  obtain ⟨hvalid, hsame⟩ := h.valid.grows hpooled hgrows
  let new : Row ClassFileCols := CallGraphDb.newRow
    { file := UInt64.ofNat row.id, lastWriteTime := e.lastWriteTime, size := e.getSize,
      classname := UInt64.ofNat offset, digest := digest, crc := e.crc }
  have hname : pool.getCString new.cols.classname.toNat = some classname := by
    change pool.getCString (UInt64.ofNat offset).toNat = some classname
    rw [hpooled.toNat_ofNat hw hread, hread]
  have hlt := (List.getElem?_eq_some_iff.mp (h.row_mem rfl)).1
  have hfile : new.cols.file.toNat = row.id := by
    have hsmall := h.valid.small
    change (UInt64.ofNat row.id).toNat = row.id
    rw [UInt64.toNat_ofNat', Nat.mod_eq_of_lt (by omega)]
  have hkey : ClassFiles.getStrongClassname pool s.db.files new.cols =
      DomainTables.getStrongClassname filename classname := by
    simp only [ClassFiles.getStrongClassname, hfile, h.valid.files.getRow_eq, h.row_mem rfl, text,
      hname, hgrows _ _ h.filename, Option.getD_some]
  have hrecord : recordOf pool new.cols =
      ⟨classname, e.getSize, e.crc, e.lastWriteTime, digest⟩ := by
    rw [recordOf, text, hname]
    rfl
  obtain ⟨classfiles, readId, cs', hupdate, hvalid', hstored, hread, hadds⟩ := hvalid.storeClass A
    new (by rw [hfile]; exact hlt) (by rw [hname]; rfl)
  rw [hkey, hsame] at hread hadds
  refine ⟨pool, classfiles, readId 0, cs', ?_, hvalid', hgrows, ?_, fun hnew => hread hnew 0,
    hadds⟩
  · simp only [addOrUpdateClassfile, hunique, h.lookup, hadd, Option.bind_eq_bind,
      Option.bind_some]
    rw [hupdate]
    rfl
  · rw [hstored, hsame, hkey, hrecord]

end Steps

section Entries
variable {H : Bytes → Sha256}

theorem readEntry_cases (e : ReadEntry H) (garbage : ℕ → UInt8) :
    ∃ reader, construct .memory e.entry.content garbage = some reader ∧
      ((parse reader = none ∧ e.reading = .rejected) ∨
        ∃ c t classname digest, parse reader = some (c, t) ∧ publicDigest H c = some digest ∧
          getUniqueClassname e.entry c = some classname ∧
          e.reading = .accepted classname digest) := by
  have hreads := e.reads garbage
  unfold reading at hreads
  cases hreader : construct .memory e.entry.content garbage with
  | none =>
      rw [hreader] at hreads
      cases hreads
  | some reader =>
      refine ⟨reader, rfl, ?_⟩
      rw [hreader] at hreads
      cases hparse : parse reader with
      | none =>
          simp only [hparse, Outcome.returned.injEq] at hreads
          exact .inl ⟨rfl, hreads.symm⟩
      | some result =>
          simp only [hparse] at hreads
          cases hdigest : publicDigest H result.1 with
          | none =>
              rw [hdigest] at hreads
              cases hreads
          | some digest =>
              rw [hdigest] at hreads
              cases hunique : getUniqueClassname e.entry result.1 with
              | none =>
                  rw [hunique] at hreads
                  cases hreads
              | some classname =>
                  rw [hunique] at hreads
                  exact .inr ⟨result.1, result.2, classname, digest, rfl, hdigest, hunique,
                    (Outcome.returned.inj hreads).symm⟩

/-- The test of the code on a row is that of the rules on what it says. -/
theorem filter_isClassfileUnchanged (pool : Pool) {found : Option ClassFileCols}
    (hvalid : ∀ r, found = some r → r.file ≠ InvalidRef) (e : JarEntry) :
    (found.filter (isClassfileUnchanged e)).map (recordOf pool) =
      (found.map (recordOf pool)).filter (upToDate e) := by
  cases found with
  | none => rfl
  | some r =>
      have hsame : isClassfileUnchanged e r = upToDate e (recordOf pool r) := by
        have hfile : (r.file != InvalidRef) = true := bne_iff_ne.mpr (hvalid r rfl)
        simp only [isClassfileUnchanged, upToDate, recordOf, hfile, Bool.and_true]
      simp only [Option.filter_some, Option.map_some, hsame]
      split_ifs <;> rfl

variable {words : List Bytes} {filename : Bytes} {s : TaskState} {fs : List (Row FileCols)}
  {cs : List (Row ClassFileCols)} {row : Row FileCols}

/-- Only the database and the pointer to the row of the jar matter. -/
theorem Ready.of_eq {dryRun : Bool} {s' : TaskState} (h : Ready words dryRun filename s fs cs row)
    (hdb : s'.db = s.db) (hrow : s'.task.jarFileRow = s.task.jarFileRow) :
    Ready words dryRun filename s' fs cs row where
  valid := hdb ▸ h.valid
  lookup := by rw [hdb, hrow, h.lookup]
  filename := by rw [hdb, h.filename]
  added hdry := by rw [hdb, hrow, h.added hdry]

variable (A : ∀ α : Type, Allocator α) (garbage : ℕ → UInt8) (options : Options)

/-- An entry that is not up to date. -/
theorem digestEntry_spec (hw : Lexicon words)
    (h : Ready words options.dryRun filename s fs cs row) (e : ReadEntry H)
    (hname : e.name ∈ words) {found : Option ClassFileCols}
    (hfound : found.map (recordOf s.db.pool) = stored s.db (e.entry.strongClassname filename))
    (hstale : (found.map (recordOf s.db.pool)).filter (upToDate e.entry) = none) :
    ∃ s' cs', digestEntry A H garbage options s e.entry (e.entry.strongClassname filename) found =
        .returned (s', ((rules H options.dryRun filename).verdict (stored s.db) e).digest) ∧
      Ready words options.dryRun filename s' fs cs' row ∧
      stored s'.db = (rules H options.dryRun filename).step (stored s.db) e ∧
      s'.task = s.task ∧
      s'.results = reportVerdict options.isDiff (e.entry.strongClassname filename) s.results
        ((rules H options.dryRun filename).verdict (stored s.db) e) ∧
      (¬(rules H options.dryRun filename).Writes (stored s.db) e →
        s'.db.classfiles = s.db.classfiles) ∧
      ((rules H options.dryRun filename).Adds (stored s.db) e →
        AddsRows 1 s.db.classfiles s'.db.classfiles) := by
  have hverdict : (rules H options.dryRun filename).verdict (stored s.db) e =
      digestVerdict e.reading (found.map (recordOf s.db.pool)) := by
    change react e (stored s.db (e.entry.strongClassname filename)) = _
    rw [← hfound, react, hstale]
  obtain ⟨results, hresults⟩ : ∃ results, results = reportVerdict options.isDiff
      (e.entry.strongClassname filename) s.results
      ((rules H options.dryRun filename).verdict (stored s.db) e) := ⟨_, rfl⟩
  obtain ⟨reader, hreader, ⟨hparse, hreading⟩ | ⟨c, t, classname, digest, hparse, hdigest, hunique,
    hreading⟩⟩ := readEntry_cases e garbage
  · rw [hreading, digestVerdict] at hverdict
    have hidle : ¬(rules H options.dryRun filename).Writes (stored s.db) e := by
      rw [Rules.Writes, hverdict]
      simp [rules, Verdict.digested]
    refine ⟨{ s with results := results }, cs, ?_, h.of_eq rfl rfl, ?_, rfl, hresults,
      fun _ => rfl, fun _ => (AddsRows.refl _).mono (Nat.zero_le 1)⟩
    · simp only [digestEntry, hreader, hparse, hresults, hverdict]
      rfl
    · rw [Rules.step, if_neg hidle]
  · rw [hreading] at hverdict
    have hdigested : (digestVerdict (.accepted classname digest)
        (found.map (recordOf s.db.pool))).digested = true ∧
        (digestVerdict (.accepted classname digest)
          (found.map (recordOf s.db.pool))).digest = some digest := by
      cases found <;> exact ⟨rfl, rfl⟩
    have hreport : reportDigested options.isDiff (e.entry.strongClassname filename) digest
        s.results found = results := by
      rw [hresults, hverdict]
      cases found <;> rfl
    have hdigest' : ((rules H options.dryRun filename).verdict (stored s.db) e).digest =
        some digest := by
      rw [hverdict, hdigested.2]
    rw [← hresults, hdigest']
    cases hdry : options.dryRun with
    | true =>
        have hidle : ¬(rules H true filename).Writes (stored s.db) e := by
          simp [Rules.Writes, rules]
        refine ⟨{ s with results := results }, cs, ?_, (hdry ▸ h).of_eq rfl rfl, ?_, rfl, rfl,
          fun _ => rfl, fun _ => (AddsRows.refl _).mono (Nat.zero_le 1)⟩
        · simp only [digestEntry, hreader, hparse, hdigest, hdry, Outcome.ofOption_some,
            Outcome.returned_bind, if_true, hreport]
        · rw [Rules.step, if_neg hidle]
    | false =>
        rw [hdry] at h hverdict
        have hnamed : e.name = classname := by rw [ReadEntry.name, hreading]
        have hwrites : (rules H false filename).Writes (stored s.db) e := by
          rw [Rules.Writes, hverdict]
          exact hdigested.1
        obtain ⟨pool, classfiles, id, cs', hadd, hvalid, hgrows, hstored, -, hadds⟩ :=
          addOrUpdateClassfile_spec A hw h hunique (hnamed ▸ hname) digest
        have htarget : (rules H false filename).target e =
            DomainTables.getStrongClassname filename classname := by
          rw [← hnamed]
          rfl
        refine ⟨{ s with
            db := { s.db with pool := pool, classfiles := classfiles }
            results := results },
          cs', ?_, ⟨hvalid, h.lookup, hgrows _ _ h.filename, h.added⟩, ?_, rfl, rfl,
          fun hidle => absurd hwrites hidle, fun hnew => hadds (htarget ▸ hnew hwrites)⟩
        · simp only [digestEntry, hreader, hparse, hdigest, hdry, Outcome.ofOption_some,
            Outcome.returned_bind, Bool.false_eq_true, if_false, hadd, hreport]
        · rw [Rules.step, if_pos hwrites]
          have hrecord : (rules H false filename).record e =
              ⟨classname, e.entry.getSize, e.entry.crc, e.entry.lastWriteTime, digest⟩ := by
            change e.record = _
            rw [ReadEntry.record, hreading]
          rw [htarget, hrecord]
          exact hstored

/-- What changes from one entry to the next. -/
structure Step (s s' : TaskState) (row row' : Row FileCols) : Prop where
  task : s'.task = { s.task with digestMap := s'.task.digestMap }
  row : row' = withCount row row'.cols.classfileCount

/-- One call of `processEntry`. -/
theorem processEntry_spec (hw : Lexicon words)
    (h : Ready words options.dryRun filename s fs cs row) (e : ReadEntry H)
    (hname : e.name ∈ words) :
    ∃ s' fs' cs' row', processEntry A H garbage options s e.entry = .returned s' ∧
      Ready words options.dryRun filename s' fs' cs' row' ∧
      stored s'.db = (rules H options.dryRun filename).step (stored s.db) e ∧
      notesOf s' row' = note options filename (notesOf s row)
        (e, (rules H options.dryRun filename).verdict (stored s.db) e) ∧
      Step s s' row row' ∧
      (¬(rules H options.dryRun filename).Writes (stored s.db) e →
        s'.db.classfiles = s.db.classfiles) ∧
      ((rules H options.dryRun filename).Adds (stored s.db) e →
        AddsRows 1 s.db.classfiles s'.db.classfiles) := by
  obtain ⟨found, hfind, hfound, hvalid⟩ :=
    findClass_spec h.valid (e.entry.strongClassname filename)
  have hverdict : (rules H options.dryRun filename).verdict (stored s.db) e =
      react e (found.map (recordOf s.db.pool)) := by
    rw [hfound]
    rfl
  obtain ⟨v, hv⟩ : ∃ v, v = (rules H options.dryRun filename).verdict (stored s.db) e := ⟨_, rfl⟩
  obtain ⟨s₁, fs₁, row₁, hs₁, hready₁, hstored₁, hrow₁, hrest⟩ : ∃ s₁ fs₁ row₁,
      (if found.isSome then s else s.countClass row) = s₁ ∧
      Ready words options.dryRun filename s₁ fs₁ cs row₁ ∧ stored s₁.db = stored s.db ∧
      row₁ = withCount row (counted row.cols.classfileCount v) ∧
      s₁.task = s.task ∧ s₁.results = s.results ∧ s₁.db.pool = s.db.pool ∧
        s₁.db.classfiles = s.db.classfiles := by
    have hknown : v.known = found.isSome := by
      rw [hv, hverdict, react_known, Option.isSome_map]
    rw [counted, hknown]
    cases found with
    | some r => exact ⟨s, fs, row, rfl, h, rfl, rfl, rfl, rfl, rfl, rfl⟩
    | none =>
        obtain ⟨fs', hready, hstored⟩ := h.countClass
        exact ⟨_, fs', _, rfl, hready, hstored, rfl, rfl, rfl, rfl, rfl⟩
  obtain ⟨htask, hresults, hpool, hclassfiles⟩ := hrest
  cases hfilter : found.filter (isClassfileUnchanged e.entry) with
  | some r =>
      have hunchanged : v = .unchanged r.digest := by
        have hup := filter_isClassfileUnchanged s.db.pool hvalid e.entry
        rw [hfilter, Option.map_some] at hup
        rw [hv, hverdict, react, ← hup]
        rfl
      have hidle : ¬(rules H options.dryRun filename).Writes (stored s.db) e := by
        rw [Rules.Writes, ← hv, hunchanged]
        simp [rules, Verdict.digested]
      refine ⟨⟨s₁.db, { s.task with digestMap := remember s.task.digestMap e v },
        report options filename s.results e v⟩, fs₁, cs, row₁, ?_,
        hready₁.of_eq rfl (by rw [htask]), ?_, ?_, ⟨rfl, by rw [hrow₁]; rfl⟩, fun _ => hclassfiles,
        fun _ => hclassfiles ▸ (AddsRows.refl _).mono (Nat.zero_le 1)⟩
      · simp only [processEntry, h.lookup, Outcome.ofOption_some, Outcome.returned_bind,
          h.text_filename, hfind, hs₁, hfilter, TaskState.setDigest, htask, hresults, hunchanged,
          report, reportVerdict, remember, Verdict.digest]
      · rw [hstored₁, Rules.step, if_neg hidle]
      · rw [← hv, hrow₁]
        rfl
  | none =>
      have hstale : (found.map (recordOf s₁.db.pool)).filter (upToDate e.entry) = none := by
        rw [hpool, ← filter_isClassfileUnchanged s.db.pool hvalid, hfilter]
        rfl
      obtain ⟨s₂, cs₂, hdigest, hready₂, hstored₂, htask₂, hresults₂, hclassfiles₂, hadds₂⟩ :=
        digestEntry_spec A garbage options hw hready₁ e hname
          (by rw [hpool, hstored₁, hfound]) hstale
      rw [hstored₁] at hdigest hstored₂ hresults₂ hclassfiles₂ hadds₂
      rw [hclassfiles] at hadds₂
      rw [← hv] at hdigest hresults₂
      refine ⟨⟨s₂.db, { s.task with digestMap := remember s.task.digestMap e v },
        report options filename s.results e v⟩, fs₁, cs₂, row₁, ?_,
        hready₂.of_eq rfl (by rw [htask₂, htask]), hstored₂, ?_, ⟨rfl, by rw [hrow₁]; rfl⟩,
        fun hidle => (hclassfiles₂ hidle).trans hclassfiles, hadds₂⟩
      · simp only [processEntry, h.lookup, Outcome.ofOption_some, Outcome.returned_bind,
          h.text_filename, hfind, hs₁, hfilter, hdigest, remember, report]
        cases v.digest with
        | some d => simp only [TaskState.setDigest, hresults₂, htask₂, htask, hresults]
        | none => simp only [hresults₂, htask₂, htask, hresults]
      · rw [← hv, hrow₁]
        rfl

end Entries

end Tarracsh.DigestSimulation
