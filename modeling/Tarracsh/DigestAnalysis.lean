import Tarracsh.DigestOutcomes
import Tarracsh.CallGraphAnalysis

/-!
# Standalone class files in the digest database

`DigestAnalyzer::doClassFile` looks a class file up by its path and compares the
digest of the file row. What it stores is again a valid database, if it gets so far:
for a known path it goes on with an id that it reads from a released row.
-/
namespace Tarracsh.DigestAnalysis
open ByteStrings QueryTrees StringPool ParsedClass ClassFileReader ClassFileParser ReaderRefinement
open TableModel TableInvariant TableFrames DomainTables CallGraphTables CallGraphInvariant
open ClassFileDigest
open SafeConsumption JarEntries Reporting DigestTasks DigestRuns DigestSimulation DigestOutcomes

section Store
variable (A : ∀ α : Type, Allocator α) {words : List Bytes} {db : DigestDb}
  {fs : List (Row FileCols)} {cs : List (Row ClassFileCols)}

/-- A file row that is added or updated leaves the classes as they are. -/
theorem storeFile_spec (h : Valid words db fs cs) (hroom : fs.length + 1 < 2 ^ 64 - 1)
    (row : Row FileCols) (hname : (db.pool.getCString row.cols.filename.toNat).isSome) :
    ∃ files readId id fs', (db.files.allocate (A _) row).1.addOrUpdate (Files.layout db.pool) (A _)
        (db.files.allocate (A _) row).2 = some (files, readId) ∧
      Valid words { db with files := files } fs' cs ∧
      stored { db with files := files } = stored db ∧ fs'.length ≤ fs.length + 1 ∧
      fs'[id]? = some { row with id := id } ∧
      (db.files.findByKey ((Files.layout db.pool).getKey row.cols) = none → readId 0 = id) := by
  have hnamed : ∀ (id : ℕ) f, f = { row with id := id } ∨ f ∈ fs →
      (db.pool.getCString f.cols.filename.toNat).isSome := by
    rintro id f (rfl | hf)
    · exact hname
    · exact h.named f hf
  rcases addOrUpdate_effect (A _) h.files row with
    ⟨-, files, hadd, heffect⟩ | ⟨q, id, m, files, readId, hq, hid, hadd, heffect, -⟩
  · obtain ⟨hvalid, hstored⟩ := h.of_files h.pooled (fun _ _ hs => hs) heffect.core
      (heffect.filed h.filedFiles)
      (fun f hf => hnamed fs.length f ((List.mem_append.mp hf).symm.imp_left List.mem_singleton.mp))
      (fun i f hf => ⟨f, by
        rw [List.getElem?_append_left (List.getElem?_eq_some_iff.mp hf).1, hf], rfl⟩)
      (by simpa using hroom)
    exact ⟨files, _, _, _, hadd, hvalid, hstored, by simp, by simp, fun _ => rfl⟩
  · have hlt : id < fs.length := by
      rw [← h.files.length_eq]
      exact (List.getElem?_eq_some_iff.mp hid).1
    have hold : fs[id]? = some fs[id] := List.getElem?_eq_getElem hlt
    have hkey : (Files.layout db.pool).getKey fs[id].cols =
        (Files.layout db.pool).getKey row.cols := by
      obtain ⟨i, f, hi, hf, hkey⟩ := (h.filedFiles _ q).mp hq
      obtain rfl := h.files.index_injective hid hi
      rw [hold] at hf
      rw [Option.some.inj hf, hkey]
    obtain ⟨hvalid, hstored⟩ := h.of_files h.pooled (fun _ _ hs => hs) heffect.core
      (heffect.filed h.filedFiles)
      (fun f hf => hnamed id f (List.mem_or_eq_of_mem_set hf).symm)
      (fun i f hf => by
        by_cases hi : id = i
        · subst hi
          obtain rfl := Option.some.inj (hold.symm.trans hf)
          exact ⟨_, List.getElem?_set_self hlt, hkey.symm⟩
        · exact ⟨f, (List.getElem?_set_ne hi).trans hf, rfl⟩)
      (by rw [List.length_set]; exact h.small)
    exact ⟨files, readId, id, _, hadd, hvalid, hstored, by simp, List.getElem?_set_self hlt,
      fun hnone => absurd (hq.symm.trans hnone) (by simp)⟩

/-- The record that `updateDbInMemory` stores. -/
def storedRecord (info : ClassFileInfo) (classname : Bytes) (digest : DigestCol) : ClassRecord :=
  ⟨classname, info.size, 0, info.timestamp.toUInt64, digest⟩

/-- The file row of a class file is stored in any case. A new one keeps its id. -/
theorem storeFileRow_spec (hw : Lexicon words) (h : Valid words db fs cs)
    (hroom : fs.length + 1 < 2 ^ 64 - 1) (info : ClassFileInfo) (hfilename : info.filename ∈ words)
    (digest : DigestCol) :
    ∃ db₁ fileId id row fs', storeFileRow A db info digest = some (db₁, fileId) ∧
      Valid words db₁ fs' cs ∧ fs'.length ≤ fs.length + 1 ∧ stored db₁ = stored db ∧
      fs'[id]? = some row ∧ db₁.pool.getCString row.cols.filename.toNat = some info.filename ∧
      (fileRow db info.filename = none → fileId = id) ∧ db₁.classfiles = db.classfiles := by
  obtain ⟨pool, offset, hadd, hpooled, hgrows, hread⟩ := h.pooled.internalAdd hw hfilename
  obtain ⟨hvalid, hstored⟩ := h.grows hpooled hgrows
  let row : Row FileCols := CallGraphDb.newRow
    { filename := UInt64.ofNat offset, type := Classfile, lastWriteTime := info.timestamp,
      fileSize := info.size, digest := digest }
  have hname : pool.getCString row.cols.filename.toNat = some info.filename := by
    change pool.getCString (UInt64.ofNat offset).toNat = some info.filename
    rw [hpooled.toNat_ofNat hw hread, hread]
  obtain ⟨files, readId, id, fs', hfile, hvalid', hstored', hlength, hrow, hnew⟩ :=
    storeFile_spec A hvalid hroom row (by rw [hname]; rfl)
  refine ⟨⟨pool, files, db.classfiles⟩, readId 0, id, _, fs', ?_, hvalid', hlength,
    hstored'.trans hstored, hrow, hname, fun hunknown => hnew ?_, rfl⟩
  · simp only [storeFileRow, hadd, Option.bind_eq_bind, Option.bind_some]
    rw [hfile]
    rfl
  · have hkey : (Files.layout pool).getKey row.cols = info.filename := by
      change text pool row.cols.filename = info.filename
      rw [text, hname]
      rfl
    change db.files.findByKey ((Files.layout pool).getKey row.cols) = none
    rw [hkey]
    exact findByKey_of_fileRow_none h hunknown

/-- The class row is filed with the file of the given id. -/
theorem storeClassRow_spec (hw : Lexicon words) (h : Valid words db fs cs) (info : ClassFileInfo)
    {classname : Bytes} (hclassname : classname ∈ words) (digest : DigestCol) {fileId : ℕ}
    {row : Row FileCols} (hrow : fs[fileId % 2 ^ 64]? = some row) :
    ∃ db' cs', storeClassRow A db info fileId classname digest = some db' ∧
      Valid words db' fs cs' ∧ db'.files = db.files ∧
      stored db' = Function.update (stored db)
        (DomainTables.getStrongClassname (text db.pool row.cols.filename) classname)
        (some (storedRecord info classname digest)) ∧
      (stored db (DomainTables.getStrongClassname (text db.pool row.cols.filename) classname) =
        none → AddsRows 1 db.classfiles db'.classfiles) := by
  obtain ⟨pool, offset, hadd, hpooled, hgrows, hread⟩ := h.pooled.internalAdd hw hclassname
  obtain ⟨hvalid, hstored⟩ := h.grows hpooled hgrows
  let classRow : Row ClassFileCols := CallGraphDb.newRow
    { file := UInt64.ofNat fileId, size := info.size,
      lastWriteTime := info.timestamp.toUInt64, digest := digest,
      classname := UInt64.ofNat offset }
  have hname : pool.getCString classRow.cols.classname.toNat = some classname := by
    change pool.getCString (UInt64.ofNat offset).toNat = some classname
    rw [hpooled.toNat_ofNat hw hread, hread]
  have hfileId : classRow.cols.file.toNat = fileId % 2 ^ 64 := UInt64.toNat_ofNat'
  have hgetRow : db.files.getRow classRow.cols.file.toNat = some row := by
    rw [hfileId, h.files.getRow_eq, hrow]
  have hkey : ClassFiles.getStrongClassname pool db.files classRow.cols =
      DomainTables.getStrongClassname (text db.pool row.cols.filename) classname := by
    obtain ⟨filename, hfilename⟩ :=
      Option.isSome_iff_exists.mp (h.named row (List.mem_of_getElem? hrow))
    simp only [ClassFiles.getStrongClassname, hgetRow, text, hgrows _ _ hfilename, hfilename, hname,
      Option.getD_some]
  have hrecord : recordOf pool classRow.cols = storedRecord info classname digest := by
    rw [recordOf, text, hname]
    rfl
  obtain ⟨classfiles, readId, cs', hupdate, hvalid', hstored', -, hadds⟩ := hvalid.storeClass A
    classRow (by rw [hfileId]; exact (List.getElem?_eq_some_iff.mp hrow).1) (by rw [hname]; rfl)
  rw [hstored, hkey] at hadds
  refine ⟨⟨pool, db.files, classfiles⟩, cs', ?_, hvalid', rfl, ?_, hadds⟩
  · have hfound : db.files.getRow (UInt64.ofNat fileId).toNat = some row := hgetRow
    simp only [storeClassRow, hadd, hfound, Option.bind_eq_bind, Option.bind_some]
    rw [hupdate]
    rfl
  · rw [hstored', hstored, hkey, hrecord]

/-- An id that no file row has ends in an access outside the index. -/
theorem storeClassRow_none (h : Valid words db fs cs) (info : ClassFileInfo) (classname : Bytes)
    (digest : DigestCol) {fileId : ℕ} (hrow : fs[fileId % 2 ^ 64]? = none) :
    storeClassRow A db info fileId classname digest = none := by
  have hgetRow : db.files.getRow (UInt64.ofNat fileId).toNat = none := by
    rw [UInt64.toNat_ofNat', h.files.getRow_eq, hrow]
  rw [storeClassRow]
  cases db.pool.internalAdd classname with
  | none => rfl
  | some added => simp only [Option.bind_eq_bind, Option.bind_some, hgetRow, Option.bind_none]

/-- The file row of the class file is known, and the id that stands at the released row is not
the id of a file row. -/
def Strays (db : DigestDb) (info : ClassFileInfo) (digest : DigestCol) : Prop :=
  ∃ db₁ fileId, storeFileRow A db info digest = some (db₁, fileId) ∧
    db₁.files.getRow (fileId % 2 ^ 64) = none

/-- What a class file leaves in the database, if the released row still tells the id of a file. -/
theorem updateDbInMemory_iff (hw : Lexicon words) (h : Valid words db fs cs)
    (hroom : fs.length + 1 < 2 ^ 64 - 1) (info : ClassFileInfo) (hfilename : info.filename ∈ words)
    {classname : Bytes} (hclassname : classname ∈ words) (digest : DigestCol) :
    (Strays A db info digest ∧ updateDbInMemory A db info classname digest = none) ∨
      ¬ Strays A db info digest ∧
        ∃ db' fs' cs', updateDbInMemory A db info classname digest = some db' ∧
          Valid words db' fs' cs' ∧ fs'.length ≤ fs.length + 1 := by
  obtain ⟨db₁, fileId, id, row, fs', hstore, hvalid, hlength, -⟩ :=
    storeFileRow_spec A hw h hroom info hfilename digest
  have hupdate : updateDbInMemory A db info classname digest =
      storeClassRow A db₁ info fileId classname digest := by
    rw [updateDbInMemory, hstore]
    rfl
  have hstrays : Strays A db info digest ↔ fs'[fileId % 2 ^ 64]? = none := by
    rw [← hvalid.files.getRow_eq]
    constructor
    · rintro ⟨db₂, fileId₂, hstore₂, hnone⟩
      obtain ⟨rfl, rfl⟩ := Prod.mk.inj (Option.some.inj (hstore.symm.trans hstore₂))
      exact hnone
    · exact fun hnone => ⟨db₁, fileId, hstore, hnone⟩
  rw [hstrays, hupdate]
  cases hrow : fs'[fileId % 2 ^ 64]? with
  | none => exact .inl ⟨rfl, storeClassRow_none A hvalid info classname digest hrow⟩
  | some f =>
      obtain ⟨db', cs', hclass, hvalid', -⟩ := storeClassRow_spec A hw hvalid info hclassname digest
        hrow
      exact .inr ⟨by simp, db', fs', cs', hclass, hvalid', hlength⟩

/-- What a new class file leaves in the database. -/
theorem updateDbInMemory_spec (hw : Lexicon words) (h : Valid words db fs cs)
    (hroom : fs.length + 1 < 2 ^ 64 - 1) (info : ClassFileInfo) (hfilename : info.filename ∈ words)
    (hnew : fileRow db info.filename = none) {classname : Bytes} (hclassname : classname ∈ words)
    (digest : DigestCol) :
    ∃ db' fs' cs', updateDbInMemory A db info classname digest = some db' ∧
      Valid words db' fs' cs' ∧ fs'.length ≤ fs.length + 1 ∧
      stored db' = Function.update (stored db)
        (DomainTables.getStrongClassname info.filename classname)
        (some (storedRecord info classname digest)) ∧
      (stored db (DomainTables.getStrongClassname info.filename classname) = none →
        AddsRows 1 db.classfiles db'.classfiles) := by
  obtain ⟨db₁, fileId, id, row, fs', hstore, hvalid, hlength, hstored, hrow, hname, hsame, hkept⟩ :=
    storeFileRow_spec A hw h hroom info hfilename digest
  obtain rfl := hsame hnew
  have hsmall := hvalid.small
  have hlt := (List.getElem?_eq_some_iff.mp hrow).1
  have hid : fileId % 2 ^ 64 = fileId := Nat.mod_eq_of_lt (by omega)
  obtain ⟨db', cs', hclass, hvalid', -, hstored', hadds⟩ := storeClassRow_spec A hw hvalid info
    hclassname digest (by rw [hid]; exact hrow)
  have htext : text db₁.pool row.cols.filename = info.filename := by
    rw [text, hname]
    rfl
  rw [hstored, htext] at hstored' hadds
  rw [hkept] at hadds
  refine ⟨db', fs', cs', ?_, hvalid', hlength, hstored', hadds⟩
  rw [updateDbInMemory, hstore]
  exact hclass

end Store

section Parts
variable (results : Results)

/-- The counter that `doClassFile` advances first. -/
def counting : Results :=
  { results with standaloneClassfiles := { results.standaloneClassfiles with
    taskResult := { results.standaloneClassfiles.taskResult with
      count := results.standaloneClassfiles.taskResult.count + 1 } } }

def countingParsed : Results :=
  { results with standaloneClassfiles := { results.standaloneClassfiles with
    parsedCount := results.standaloneClassfiles.parsedCount + 1 } }

/-- What is reported of a class file with the given digest. -/
def reportFile (isDiff : Bool) (strongClassname : Bytes) (digest : DigestCol)
    (found : Option FileCols) : Results :=
  countingParsed (match found with
    | some row => results.asModifiedClassFile isDiff (digest == row.digest) strongClassname
    | none => results.asNewClassFile isDiff strongClassname)

variable (A : ∀ α : Type, Allocator α) (H : Bytes → Sha256) (garbage : ℕ → UInt8)
  (options : Options)

/-- The part of `doClassFile` after a successful parse. -/
def digestFile (db : DigestDb) (info : ClassFileInfo) (found : Option FileCols) (c : ClassFile) :
    Outcome (DigestDb × Results) := do
  let classname ← .ofOption (getMainClassname c)
  let strongClassname := DomainTables.getStrongClassname info.filename classname
  let digest ← .ofOption (publicDigest H c)
  let results := reportFile results options.isDiff strongClassname digest found
  if options.dryRun then .returned (db, results)
  else do
    let db ← .ofOption (updateDbInMemory A db info classname digest)
    .returned (db, results)

/-- The call digests a class file that the database knows, and the id it finds at the released
file row is not the id of a file row. -/
def FileStrays (db : DigestDb) (info : ClassFileInfo) : Prop :=
  options.dryRun = false ∧ CallGraphAnalysis.isUnchanged options db.files info = false ∧
    ∃ c s digest, parsed .file info.content garbage = some (c, s) ∧
      publicDigest H c = some digest ∧ Strays A db info digest

variable {words : List Bytes} {db : DigestDb} {fs : List (Row FileCols)}
  {cs : List (Row ClassFileCols)}

/-- `doClassFile` by cases: skipped, thrown, failed or digested. -/
theorem doClassFile_eq (h : Valid words db fs cs) (info : ClassFileInfo) :
    doClassFile A H garbage options db results info =
      if CallGraphAnalysis.isUnchanged options db.files info then
        .returned (db, (counting results).asUnchangedClassFile options.isDiff info.filename)
      else
        match construct .file info.content garbage with
        | none => .thrown
        | some reader =>
            match parse reader with
            | none =>
                .returned (db, (counting results).asFailedClassFile options.isDiff info.filename)
            | some (c, _) => digestFile (counting results) A H options db info
                ((fileRow db info.filename).map fun row => row.cols) c := by
  cases hrow : fileRow db info.filename with
  | none =>
      have hp := findByKey_of_fileRow_none h hrow
      have hunchanged : CallGraphAnalysis.isUnchanged options db.files info = false := by
        rw [CallGraphAnalysis.isUnchanged, hp]
        simp
      simp only [doClassFile, hp, hunchanged, Outcome.ofOption_some, Outcome.returned_bind,
        Option.any_none, Bool.and_false, Bool.false_eq_true, if_false]
      rfl
  | some row =>
      obtain ⟨p, hp, hlookup, -, -⟩ := findByKey_of_fileRow h hrow
      have hunchanged : CallGraphAnalysis.isUnchanged options db.files info =
          (options.useFileTimestamp && (row.cols.fileSize == info.size &&
            row.cols.lastWriteTime == info.timestamp)) := by
        rw [CallGraphAnalysis.isUnchanged, hp]
        simp [hlookup]
      simp only [doClassFile, hp, hlookup, hunchanged, Outcome.ofOption_some,
        Outcome.returned_bind, Option.map_some, Option.any_some]
      rfl

end Parts

end Tarracsh.DigestAnalysis
