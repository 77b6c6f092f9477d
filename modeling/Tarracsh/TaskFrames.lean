import Tarracsh.ClassOutcomes
import Tarracsh.TableFrames

/-!
# What a digest task leaves alone

Between `start` and `end` a task changes no file row but that of its jar, and
that one without marking it. `end` marks the row of the jar, so that after a run
over a jar the next save writes whatever has changed in the table of files.
-/
namespace Tarracsh.TaskFrames
open ByteStrings QueryTrees StringPool ParsedClass ClassFileReader ClassFileParser
open TableModel TableInvariant TableFile TableFrames DomainTables CallGraphTables
open CallGraphInvariant ClassFileDigest SafeConsumption JarEntries Reporting DigestTasks
open DigestRuns DigestSimulation DigestOutcomes DigestAnalysis

/-- A pool that has changed is dirty. -/
def PoolKept (pool pool' : Pool) : Prop := pool' = pool ∨ pool'.isDirty = true

theorem PoolKept.refl (pool : Pool) : PoolKept pool pool := .inl rfl

theorem PoolKept.trans {pool pool' pool'' : Pool} (h : PoolKept pool pool')
    (h' : PoolKept pool' pool'') : PoolKept pool pool'' := by
  rcases h' with rfl | hdirty
  · exact h
  · exact .inr hdirty

theorem internalAdd_kept {pool pool' : Pool} {s : Bytes} {offset : ℕ}
    (h : pool.internalAdd s = some (pool', offset)) : PoolKept pool pool' := by
  unfold Pool.internalAdd at h
  cases hlookup : pool.hash.lookup s with
  | some o =>
      simp only [hlookup, Option.some.injEq, Prod.mk.injEq] at h
      exact .inl h.1.symm
  | none =>
      simp only [hlookup] at h
      split_ifs at h
      obtain ⟨key, -, h⟩ := Option.bind_eq_some_iff.mp h
      simp only [Option.some.injEq, Prod.mk.injEq] at h
      rw [← h.1]
      exact .inr rfl

section Entries
variable {A : ∀ α : Type, Allocator α} {H : Bytes → Sha256} {garbage : ℕ → UInt8}
  {options : Options} {s s' s'' : TaskState}

/-- What `digestEntry` changes. -/
theorem digestEntry_tables {e : JarEntry} {strongClassname : Bytes} {row : Option ClassFileCols}
    {digest : Option DigestCol}
    (h : digestEntry A H garbage options s e strongClassname row = .returned (s', digest)) :
    s'.db.files = s.db.files ∧ s'.task = s.task ∧ PoolKept s.db.pool s'.db.pool := by
  unfold digestEntry at h
  cases hreader : construct .memory e.content garbage with
  | none =>
      rw [hreader] at h
      cases h
  | some reader =>
      simp only [hreader] at h
      cases hparse : parse reader with
      | none =>
          simp only [hparse, Outcome.returned.injEq, Prod.mk.injEq] at h
          rw [← h.1]
          exact ⟨rfl, rfl, PoolKept.refl _⟩
      | some result =>
          simp only [hparse] at h
          obtain ⟨d, -, h⟩ := Outcome.bind_eq_returned_iff.mp h
          split_ifs at h
          · simp only [Outcome.returned.injEq, Prod.mk.injEq] at h
            rw [← h.1]
            exact ⟨rfl, rfl, PoolKept.refl _⟩
          · obtain ⟨⟨pool, classfiles, id⟩, hstore, h⟩ := Outcome.bind_eq_returned_iff.mp h
            have hstore := Outcome.ofOption_eq_returned_iff.mp hstore
            obtain ⟨classname, -, hstore⟩ := Option.bind_eq_some_iff.mp hstore
            obtain ⟨jarRow, -, hstore⟩ := Option.bind_eq_some_iff.mp hstore
            obtain ⟨⟨pool₁, offset⟩, hadd, hstore⟩ := Option.bind_eq_some_iff.mp hstore
            obtain ⟨⟨classfiles₁, id₁⟩, -, hstore⟩ := Option.bind_eq_some_iff.mp hstore
            obtain ⟨rfl, -⟩ := Prod.mk.inj (Option.some.inj hstore)
            simp only [Outcome.returned.injEq, Prod.mk.injEq] at h
            rw [← h.1]
            exact ⟨rfl, rfl, internalAdd_kept hadd⟩

/-- Of the files only the row of the jar has changed. -/
structure Kept (s s' : TaskState) : Prop where
  files : s'.db.files = { s.db.files with heap := s'.db.files.heap }
  heap : ∀ p, p ≠ s.task.jarFileRow → s'.db.files.heap.lookup p = s.db.files.heap.lookup p
  pool : PoolKept s.db.pool s'.db.pool
  jarFileRow : s'.task.jarFileRow = s.task.jarFileRow
  isNewJarFile : s'.task.isNewJarFile = s.task.isNewJarFile

theorem Kept.refl (s : TaskState) : Kept s s :=
  ⟨rfl, fun _ _ => rfl, PoolKept.refl _, rfl, rfl⟩

theorem Kept.trans (h : Kept s s') (h' : Kept s' s'') : Kept s s'' where
  files := by rw [h'.files, h.files]
  heap p hp := (h'.heap p (by rwa [h.jarFileRow])).trans (h.heap p hp)
  pool := h.pool.trans h'.pool
  jarFileRow := h'.jarFileRow.trans h.jarFileRow
  isNewJarFile := h'.isNewJarFile.trans h.isNewJarFile

theorem countClass_kept (s : TaskState) (row : Row FileCols) : Kept s (s.countClass row) where
  files := rfl
  heap _ hp := AList.lookup_insert_ne hp
  pool := PoolKept.refl _
  jarFileRow := rfl
  isNewJarFile := rfl

theorem processEntry_kept {e : JarEntry}
    (h : processEntry A H garbage options s e = .returned s') : Kept s s' := by
  unfold processEntry at h
  obtain ⟨jarRow, -, h⟩ := Outcome.bind_eq_returned_iff.mp h
  obtain ⟨row, -, h⟩ := Outcome.bind_eq_returned_iff.mp h
  obtain ⟨s₁, hs₁⟩ : ∃ s₁, s₁ = if row.isSome then s else s.countClass jarRow := ⟨_, rfl⟩
  have hcounted : Kept s s₁ := by
    rw [hs₁]
    cases row with
    | none => exact countClass_kept s jarRow
    | some r => exact Kept.refl s
  simp only [← hs₁] at h
  cases hfilter : row.filter (isClassfileUnchanged e) with
  | some r =>
      simp only [hfilter, Outcome.returned_bind] at h
      obtain rfl := Outcome.returned.inj h
      exact hcounted.trans ⟨rfl, fun _ _ => rfl, PoolKept.refl _, rfl, rfl⟩
  | none =>
      simp only [hfilter] at h
      obtain ⟨⟨s₂, digest⟩, hdigest, h⟩ := Outcome.bind_eq_returned_iff.mp h
      obtain ⟨hfiles, htask, hpool⟩ := digestEntry_tables hdigest
      have hentry : Kept s₁ s₂ :=
        ⟨by rw [hfiles], fun _ _ => by rw [hfiles], hpool, by rw [htask], by rw [htask]⟩
      cases digest with
      | some d =>
          obtain rfl := Outcome.returned.inj h
          exact (hcounted.trans hentry).trans ⟨rfl, fun _ _ => rfl, PoolKept.refl _, rfl, rfl⟩
      | none =>
          obtain rfl := Outcome.returned.inj h
          exact (hcounted.trans hentry).trans ⟨rfl, fun _ _ => rfl, PoolKept.refl _, rfl, rfl⟩

/-- All entries of a jar. -/
theorem processEntries_kept {es : List JarEntry}
    (hrun : es.foldlM (processEntry A H garbage options) s = .returned s') : Kept s s' := by
  induction es generalizing s with
  | nil =>
      obtain rfl := Outcome.returned.inj hrun
      exact Kept.refl s
  | cons e es ih =>
      rw [List.foldlM_cons] at hrun
      obtain ⟨s₁, hentry, hrest⟩ := Outcome.bind_eq_returned_iff.mp hrun
      exact (processEntry_kept hentry).trans (ih hrest)

end Entries

/-- The row of the jar is all that differs and is not marked. -/
theorem Kept.marks {s s' : TaskState} (h : Kept s s') :
    Marks (some s.task.jarFileRow) s.db.files s'.db.files := by
  have hfiles := h.files
  refine ⟨by rw [hfiles], fun i hi => ?_, fun hd => ?_, fun i p hp hfree => .inl ⟨?_, ?_⟩⟩
  · rw [hfiles]
    exact hi
  · rw [hfiles]
    exact hd
  · rw [hfiles] at hp
    exact hp
  · exact h.heap p fun hne => hfree (by rw [hne])

section Names
variable {words : List Bytes} {dryRun : Bool} {filename : Bytes} {s s' : TaskState}
  {fs : List (Row FileCols)} {cs : List (Row ClassFileCols)} {row : Row FileCols}

/-- A row that is in the table is there under the name of the jar only. -/
theorem findByKey_jarRow (h : Ready words dryRun filename s fs cs row)
    (hadded : s.db.files.autoIncrementIndex[row.id]? = some s.task.jarFileRow) (name : Bytes) :
    s.db.files.findByKey name = some s.task.jarFileRow ↔ name = filename := by
  have hrow : fs[row.id]? = some row := by
    rw [← h.valid.files.lookup_of_index hadded, h.lookup]
  have hkey : text s.db.pool row.cols.filename = filename := h.text_filename
  refine (h.valid.filedFiles name s.task.jarFileRow).trans ⟨?_, ?_⟩
  · rintro ⟨i, f, hi, hf, hname⟩
    obtain rfl := h.valid.files.index_injective hadded hi
    obtain rfl := Option.some.inj (hrow.symm.trans hf)
    exact hname.symm.trans hkey
  · rintro rfl
    exact ⟨row.id, row, hadded, hrow, hkey⟩

/-- The rows under the names of files after the entries. -/
theorem Kept.fileRow_eq {row' : Row FileCols} (h : Kept s s')
    (hlookup : s'.db.files.heap.lookup s'.task.jarFileRow = some row') (name : Bytes) :
    fileRow s'.db name = if s.db.files.findByKey name = some s.task.jarFileRow then some row'
      else fileRow s.db name := by
  have hkeys : s'.db.files.findByKey name = s.db.files.findByKey name := by
    rw [h.files]
    rfl
  rw [fileRow, hkeys]
  split_ifs with hp
  · rw [hp, Option.bind_some, ← h.jarFileRow, hlookup]
  · rw [fileRow]
    cases hq : s.db.files.findByKey name with
    | none => rfl
    | some q =>
        rw [Option.bind_some, Option.bind_some]
        exact h.heap q fun hne => hp (by rw [hq, hne])

end Names

section Start
variable {A : ∀ α : Type, Allocator α} {options : Options} {jar : JarFile} {db : DigestDb}
  {words : List Bytes} {fs : List (Row FileCols)} {cs : List (Row ClassFileCols)}

/-- The row that `createJarFileRow` fills in. -/
def newJarRow (jar : JarFile) (offset : ℕ) : Row FileCols :=
  CallGraphDb.newRow
    { filename := UInt64.ofNat offset, type := Jar, lastWriteTime := jar.timestamp,
      fileSize := jar.size, classfileCount := 0 }

/-- `start` for a jar without a row. -/
theorem start_unknown {results : Results} {s : TaskState} {started : Bool}
    (hkey : db.files.findByKey jar.filename = none)
    (h : DigestTasks.start A options jar db results = some (s, started)) :
    ∃ offset, db.pool.internalAdd jar.filename = some (s.db.pool, offset) ∧
      s.db.classfiles = db.classfiles ∧ s.task.isNewJarFile = true ∧
      s.task.jarFileRow = (A FileCols).malloc db.files.heap ∧
      (options.dryRun = true →
        s.db.files = (db.files.allocate (A _) (newJarRow jar offset)).1) ∧
      (options.dryRun = false → ∃ id,
        (db.files.allocate (A _) (newJarRow jar offset)).1.add (Files.layout s.db.pool)
          (db.files.allocate (A _) (newJarRow jar offset)).2 = some (s.db.files, id)) := by
  obtain ⟨⟨db₁, p, isNew⟩, hrow, h⟩ := Option.bind_eq_some_iff.mp h
  obtain ⟨row, -, h⟩ := Option.bind_eq_some_iff.mp h
  obtain ⟨rfl, -⟩ := Prod.mk.inj (Option.some.inj h)
  unfold getOrCreateFileRow at hrow
  simp only [hkey] at hrow
  obtain ⟨⟨pool, offset⟩, hadd, hrow⟩ := Option.bind_eq_some_iff.mp hrow
  refine ⟨offset, ?_⟩
  cases hdry : options.dryRun with
  | true =>
      simp only [hdry, if_true, Option.some.injEq, Prod.mk.injEq] at hrow
      obtain ⟨rfl, rfl, rfl⟩ := hrow
      exact ⟨hadd, rfl, rfl, rfl, fun _ => rfl, by simp⟩
  | false =>
      simp only [hdry, Bool.false_eq_true, if_false] at hrow
      obtain ⟨⟨files, id⟩, hstore, hrow⟩ := Option.bind_eq_some_iff.mp hrow
      simp only [Option.some.injEq, Prod.mk.injEq] at hrow
      obtain ⟨rfl, rfl, rfl⟩ := hrow
      exact ⟨hadd, rfl, rfl, rfl, by simp, fun _ => ⟨id, hstore⟩⟩

end Start

end Tarracsh.TaskFrames
