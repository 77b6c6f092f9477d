import Tarracsh.DigestStability

/-!
# Versions of a jar

`classfileCount` is advanced for every class entry that has no row under its
path and is never set back. Over a history of versions it is the number of
class entries as long as entries are only added, every entry that is new
parses, and what is stored is stored under the path of the entry.
-/
namespace Tarracsh.DigestHistory
open ByteStrings QueryTrees StringPool TableModel TableInvariant DomainTables CallGraphTables
open CallGraphInvariant ClassFileDigest JarEntries Reporting DigestTasks DigestRuns
open DigestSimulation DigestOutcomes DigestStability KeyedReactions

/-- A version of the jar, with the options of the run over it. -/
structure JarVersion (H : Bytes → Sha256) where
  size : UInt64
  timestamp : Int64
  entries : List (ReadEntry H)
  options : Options

variable {H : Bytes → Sha256}

namespace JarVersion
variable (v : JarVersion H) (filename : Bytes)

def jar : JarFile := ⟨filename, v.size, v.timestamp⟩

@[simp] theorem jar_filename : (v.jar filename).filename = filename := rfl

/-- The paths of the class entries, without `.class`. -/
def paths : List Bytes := v.entries.map fun e => e.entry.getClassname

/-- `start` returns false. -/
def skipped (db : DigestDb) : Bool :=
  (fileRow db filename).any fun row => isFileUnchanged v.options (v.jar filename) false row.cols

end JarVersion

section Conditions
variable (filename : Bytes) (db : DigestDb) (before : List Bytes) (v : JarVersion H)

/-- An entry with a row that is up to date, or with a class that declares the
name of its path, or with a row that is left from the version before. -/
def Settles (e : ReadEntry H) : Prop :=
  match e.reading with
  | .rejected => e.entry.getClassname ∈ before
  | .accepted classname _ => classname = e.entry.getClassname ∨
      (stored db (e.entry.strongClassname filename)).any (upToDate e.entry) = true

/-- The version only adds entries to the one before, and those that are added
settle. A version that is skipped adds none. -/
structure Additive : Prop where
  keeps : before ⊆ v.paths
  small : v.entries.length < 2 ^ 32
  skips : v.skipped filename db = true → v.paths ⊆ before
  settles : v.skipped filename db = false → ∀ e ∈ v.entries, Settles filename db before e

end Conditions

/-- A new member of a list without duplicates is one that is not in a part of it. -/
theorem countP_notMem {B : Type} [DecidableEq B] {part whole : List B} (hpart : part.Nodup)
    (hwhole : whole.Nodup) (hsub : part ⊆ whole) :
    part.length + whole.countP (fun x => decide (x ∉ part)) = whole.length := by
  have hperm : (whole.filter fun x => decide (x ∈ part)).Perm part := by
    apply (List.perm_ext_iff_of_nodup (hwhole.filter _) hpart).mpr
    intro x
    rw [List.mem_filter, decide_eq_true_iff]
    exact ⟨fun h => h.2, fun h => ⟨hsub h, h⟩⟩
  have hsplit := whole.length_eq_countP_add_countP fun x => decide (x ∈ part)
  rw [List.countP_eq_length_filter, hperm.length_eq] at hsplit
  simpa only [decide_eq_true_eq] using hsplit.symm

/-- The database knows exactly the paths of the version before, and their
number. -/
structure Knows (words : List Bytes) (filename : Bytes) (db : DigestDb) (before : List Bytes) :
    Prop where
  valid : ∃ fs cs, Valid words db fs cs ∧
    (fileRow db filename = none → fs.length + 1 < 2 ^ 64 - 1)
  nodup : before.Nodup
  keys : ∀ name, (stored db (DomainTables.getStrongClassname filename name)).isSome ↔ name ∈ before
  count : ((fileRow db filename).map fun row => row.cols.classfileCount).getD 0 =
    UInt32.ofNat before.length

section Steps
variable {words : List Bytes} {filename : Bytes} {db : DigestDb} {before : List Bytes}
  {v : JarVersion H}

theorem JarClasses.paths_nodup {es : List (ReadEntry H)} (h : JarClasses words es) :
    (es.map fun e => e.entry.getClassname).Nodup :=
  h.nodup.map_on fun _ he _ he' hname => h.eq_of_getClassname he he' hname

/-- Entries that settle are stored under their paths. -/
theorem own_of_settles (h : ∀ e ∈ v.entries, Settles filename db before e) :
    Own (rules H false filename) (stored db) v.entries := by
  apply own_iff.mpr
  intro e he classname d hreading
  have := h e he
  rwa [Settles, hreading] at this

/-- Afterwards exactly the paths of the version are known. -/
theorem keys_after (h : Knows words filename db before) (hes : JarClasses words v.entries)
    (hkeeps : before ⊆ v.paths) (hsettles : ∀ e ∈ v.entries, Settles filename db before e)
    (name : Bytes) :
    ((rules H false filename).after (stored db) v.entries
      (DomainTables.getStrongClassname filename name)).isSome ↔ name ∈ v.paths := by
  have hown := own_of_settles hsettles
  have hnodup := hes.look_nodup false filename
  by_cases hname : name ∈ v.paths
  · obtain ⟨e, he, rfl⟩ := List.mem_map.mp hname
    have hafter := hown.after_look hnodup he
    change (rules H false filename).after (stored db) v.entries
      (e.entry.strongClassname filename) = _ at hafter
    refine iff_of_true ?_ hname
    change ((rules H false filename).after (stored db) v.entries
      (e.entry.strongClassname filename)).isSome
    rw [hafter]
    split_ifs with hwrites
    · rfl
    · rw [writes_iff, not_and', not_not] at hwrites
      change (stored db (e.entry.strongClassname filename)).isSome
      by_cases hfilter :
          (stored db (e.entry.strongClassname filename)).filter (upToDate e.entry) = none
      · have hknown := hsettles e he
        rw [Settles, hwrites hfilter] at hknown
        exact (h.keys _).mpr hknown
      · obtain ⟨r, hr⟩ := Option.ne_none_iff_exists'.mp hfilter
        rw [Option.eq_some_of_filter_eq_some hr]
        rfl
  · have hkey : DomainTables.getStrongClassname filename name ∉
        v.entries.map (rules H false filename).look := by
      intro hmem
      obtain ⟨e, he, hlook⟩ := List.mem_map.mp hmem
      apply hname
      rw [← getStrongClassname_injective hlook]
      exact List.mem_map_of_mem he
    rw [hown.after_of_notMem hnodup hkey, h.keys]
    exact iff_of_false (fun hbefore => hname (hkeeps hbefore)) hname

/-- The entries that are counted are those that the version before had not. -/
theorem count_unknown (h : Knows words filename db before) (hes : JarClasses words v.entries)
    (hkeeps : before ⊆ v.paths) :
    before.length + (v.entries.countP fun e =>
      !((rules H false filename).verdict (stored db) e).known) = v.entries.length := by
  have hunknown : (v.entries.countP fun e =>
      !((rules H false filename).verdict (stored db) e).known) =
      v.paths.countP fun name => decide (name ∉ before) := by
    rw [JarVersion.paths, List.countP_map]
    apply List.countP_congr
    intro e _
    change (!(react e (stored db (e.entry.strongClassname filename))).known) = true ↔ _
    rw [react_known, Bool.not_eq_true', ← Bool.not_eq_true]
    change ¬(stored db (DomainTables.getStrongClassname filename
      e.entry.getClassname)).isSome = true ↔ _
    rw [h.keys]
    simp
  have hpaths : v.paths.Nodup := JarClasses.paths_nodup hes
  have hlength : v.paths.length = v.entries.length := by
    rw [JarVersion.paths, List.length_map]
  rw [hunknown, ← hlength]
  convert countP_notMem h.nodup hpaths hkeeps

end Steps

section Runs
variable (A : ∀ α : Type, Allocator α) (garbage : ℕ → UInt8) (filename : Bytes)

/-- A run over one version. -/
def digestVersion (s : DigestDb × Results) (v : JarVersion H) : Outcome (DigestDb × Results) :=
  run A H garbage v.options (v.jar filename) (v.entries.map fun e => e.entry) s.1 s.2

/-- The row of the jar has the number of the class entries, and a run that is
skipped reports as many unchanged classes. -/
structure Counts (s s' : DigestDb × Results) (v : JarVersion H) : Prop where
  count : (fileRow s'.1 filename).map (fun row => row.cols.classfileCount.toNat) =
    some v.entries.length
  skipped : v.skipped filename s.1 = true →
    s'.2.jarfiles.classfiles.taskResult.count =
        s.2.jarfiles.classfiles.taskResult.count + UInt32.ofNat v.entries.length ∧
      s'.2.jarfiles.classfiles.taskResult.unchangedCount =
        s.2.jarfiles.classfiles.taskResult.unchangedCount + UInt32.ofNat v.entries.length

/-- Every run returns and counts. -/
def AllCount : DigestDb × Results → List (JarVersion H) → Prop
  | _, [] => True
  | s, v :: vs => ∃ s', digestVersion A garbage filename s v = .returned s' ∧
      Counts filename s s' v ∧ AllCount s' vs

/-- Every version only adds to the one before. -/
def AllAdditive : DigestDb × Results → List Bytes → List (JarVersion H) → Prop
  | _, _, [] => True
  | s, before, v :: vs => Additive filename s.1 before v ∧
      ∀ s', digestVersion A garbage filename s v = .returned s' → AllAdditive s' v.paths vs

variable {filename} {words : List Bytes} {db : DigestDb} {before : List Bytes} {v : JarVersion H}

/-- A run that is skipped. -/
theorem Knows.run_skipped (h : Knows words filename db before)
    (hes : JarClasses words v.entries) (hadd : Additive filename db before v)
    (hskipped : v.skipped filename db = true) (results : Results) :
    ∃ s', digestVersion A garbage filename (db, results) v = .returned s' ∧
      Counts filename (db, results) s' v ∧ Knows words filename s'.1 v.paths := by
  obtain ⟨fs, cs, hvalid, hroom⟩ := h.valid
  cases hrow : fileRow db filename with
  | none => simp [JarVersion.skipped, hrow] at hskipped
  | some row =>
      have hunchanged : isFileUnchanged v.options (v.jar filename) false row.cols = true := by
        simpa [JarVersion.skipped, hrow] using hskipped
      have hknown : fileRow db (v.jar filename).filename = some row := hrow
      obtain ⟨p, -, hstart, hready⟩ := start_known A v.options hvalid hknown results
      have hpaths : v.paths.Nodup := JarClasses.paths_nodup hes
      have hperm : before.Perm v.paths := (List.perm_ext_iff_of_nodup h.nodup hpaths).mpr
        fun name => ⟨fun hname => hadd.keeps hname, fun hname => hadd.skips hskipped hname⟩
      have hlength : before.length = v.entries.length := by
        rw [hperm.length_eq, JarVersion.paths, List.length_map]
      have hcount : row.cols.classfileCount = UInt32.ofNat v.entries.length := by
        have hcount := h.count
        rw [hrow, hlength] at hcount
        exact hcount
      rw [hunchanged] at hstart hready
      have hrun : ∃ results', digestVersion A garbage filename (db, results) v =
          .returned (db, results') ∧
          results'.jarfiles.classfiles.taskResult.count =
            results.jarfiles.classfiles.taskResult.count + row.cols.classfileCount ∧
          results'.jarfiles.classfiles.taskResult.unchangedCount =
            results.jarfiles.classfiles.taskResult.unchangedCount + row.cols.classfileCount := by
        simp only [digestVersion, run, runEntries, hstart, Outcome.ofOption_some,
          Outcome.returned_bind, Bool.not_true, Bool.false_eq_true, if_false, finish, hready.lookup,
          Option.bind_eq_bind, Option.bind_some, if_true]
        refine ⟨_, rfl, ?_, ?_⟩ <;> cases v.options.isDiff <;> rfl
      obtain ⟨results', hreturned, htotal, hsame⟩ := hrun
      refine ⟨(db, results'), hreturned, ⟨?_, fun _ => ?_⟩, ⟨fs, cs, hvalid, hroom⟩, hpaths, ?_, ?_⟩
      · rw [hrow, Option.map_some, hcount, UInt32.toNat_ofNat', Nat.mod_eq_of_lt hadd.small]
      · rw [htotal, hsame, hcount]
        exact ⟨rfl, rfl⟩
      · intro name
        rw [h.keys, hperm.mem_iff]
      · rw [h.count, hperm.length_eq]

/-- A run that is not skipped adds the entries without a row to the counter. -/
theorem processed_spec (hw : Lexicon words) {fs : List (Row FileCols)}
    {cs : List (Row ClassFileCols)} (h : Valid words db fs cs)
    (hroom : fileRow db filename = none → fs.length + 1 < 2 ^ 64 - 1) (hmem : filename ∈ words)
    (hes : JarClasses words v.entries) (hdry : v.options.dryRun = false)
    (hskipped : v.skipped filename db = false)
    (hown : Own (rules H false filename) (stored db) v.entries) (results : Results) :
    ∃ s' row', digestVersion A garbage filename (db, results) v = .returned s' ∧
      (∃ fs' cs', Valid words s'.1 fs' cs') ∧ fileRow s'.1 filename = some row' ∧
      row'.cols.classfileCount =
        ((fileRow db filename).map fun row => row.cols.classfileCount).getD 0 +
          UInt32.ofNat (v.entries.countP fun e =>
            !((rules H false filename).verdict (stored db) e).known) ∧
      stored s'.1 = (rules H false filename).after (stored db) v.entries := by
  have hchanged : ((fileRow db (v.jar filename).filename).any fun row =>
      isFileUnchanged v.options (v.jar filename) false row.cols) = false := hskipped
  obtain ⟨s₀, fs₀, row₀, hstart, hready₀, hstored₀, -, hunchanged, hcount₀, -⟩ :=
    start_changed A v.options hw h hmem (fun hrow _ => hroom hrow) hchanged results
  obtain ⟨s, fs₁, cs₁, row₁, hrun, hready, hstored, hnotes, hstep, -⟩ :=
    processEntries_spec A garbage v.options hw v.entries hes.names hready₀
  obtain ⟨digest, db', fs', -, hfinish, hvalid', hstored', -, hrow', -⟩ :=
    finish_spec A H v.options hready (by rw [hstep.task, hunchanged])
  rw [hdry, hstored₀] at hnotes hstored
  simp only [JarVersion.jar_filename] at hnotes hstored hrow' hcount₀
  have hcount := congrArg Notes.classfileCount hnotes
  rw [hown.verdicts_eq (hes.look_nodup false filename), foldl_note_count, List.countP_map] at hcount
  refine ⟨_, _, run_eq A garbage v.options hstart hrun hfinish, ⟨fs', cs₁, hvalid'⟩, hrow' hdry, ?_,
    hstored'.trans hstored⟩
  · rw [← hcount₀]
    exact hcount

/-- A version that adds to the one before. -/
theorem Knows.run_processed (hw : Lexicon words) (h : Knows words filename db before)
    (hmem : filename ∈ words) (hes : JarClasses words v.entries)
    (hdry : v.options.dryRun = false) (hadd : Additive filename db before v)
    (hskipped : v.skipped filename db = false) (results : Results) :
    ∃ s', digestVersion A garbage filename (db, results) v = .returned s' ∧
      Counts filename (db, results) s' v ∧ Knows words filename s'.1 v.paths := by
  obtain ⟨fs, cs, hvalid, hroom⟩ := h.valid
  have hsettles := hadd.settles hskipped
  obtain ⟨s', row', hreturned, ⟨fs', cs', hvalid'⟩, hrow, hcount, hstored⟩ := processed_spec A
    garbage hw hvalid hroom hmem hes hdry hskipped (own_of_settles hsettles) results
  have hlength : row'.cols.classfileCount = UInt32.ofNat v.entries.length := by
    rw [hcount, h.count, ← UInt32.ofNat_add, count_unknown h hes hadd.keeps]
  refine ⟨s', hreturned, ⟨?_, fun hskip => absurd hskip (by rw [hskipped]; exact nofun)⟩,
    ⟨fs', cs', hvalid', fun hnone => nomatch hnone.symm.trans hrow⟩, JarClasses.paths_nodup hes,
    fun name => ?_, ?_⟩
  · rw [hrow, Option.map_some, hlength, UInt32.toNat_ofNat', Nat.mod_eq_of_lt hadd.small]
  · rw [hstored]
    exact keys_after h hes hadd.keeps hsettles name
  · rw [hrow, JarVersion.paths, List.length_map]
    exact hlength

/-- One run. -/
theorem Knows.digestVersion (hw : Lexicon words) (h : Knows words filename db before)
    (hmem : filename ∈ words) (hes : JarClasses words v.entries)
    (hdry : v.options.dryRun = false) (hadd : Additive filename db before v) (results : Results) :
    ∃ s', digestVersion A garbage filename (db, results) v = .returned s' ∧
      Counts filename (db, results) s' v ∧ Knows words filename s'.1 v.paths := by
  cases hskipped : v.skipped filename db with
  | true => exact h.run_skipped A garbage hes hadd hskipped results
  | false => exact h.run_processed A garbage hw hmem hes hdry hadd hskipped results

theorem Knows.allCount (hw : Lexicon words) (hmem : filename ∈ words)
    {s : DigestDb × Results} (h : Knows words filename s.1 before) {vs : List (JarVersion H)}
    (hvs : ∀ v ∈ vs, JarClasses words v.entries ∧ v.options.dryRun = false)
    (hadd : AllAdditive A garbage filename s before vs) : AllCount A garbage filename s vs := by
  induction vs generalizing s before with
  | nil => exact True.intro
  | cons v vs ih =>
      obtain ⟨hes, hdry⟩ := hvs v List.mem_cons_self
      obtain ⟨s', hreturned, hcounts, hknows⟩ :=
        h.digestVersion A garbage hw hmem hes hdry hadd.1 s.2
      refine ⟨s', hreturned, hcounts, ih hknows (fun w hw => ?_) (hadd.2 s' hreturned)⟩
      exact hvs w (List.mem_cons_of_mem v hw)

/-- From a database that does not know the jar, every run leaves the number of
class entries as long as every version only adds to the one before. -/
theorem classfileCount_tracks (hw : Lexicon words) {fs : List (Row FileCols)}
    {cs : List (Row ClassFileCols)} (h : Valid words db fs cs)
    (hroom : fs.length + 1 < 2 ^ 64 - 1) (hmem : filename ∈ words)
    (hnew : fileRow db filename = none)
    (hkeys : ∀ name, stored db (DomainTables.getStrongClassname filename name) = none)
    {vs : List (JarVersion H)}
    (hvs : ∀ v ∈ vs, JarClasses words v.entries ∧ v.options.dryRun = false) (results : Results)
    (hadd : AllAdditive A garbage filename (db, results) [] vs) :
    AllCount A garbage filename (db, results) vs := by
  have hknows : Knows words filename db [] :=
    { valid := ⟨fs, cs, h, fun _ => hroom⟩
      nodup := List.nodup_nil
      keys := fun name => by simp [hkeys name]
      count := by rw [hnew]; rfl }
  exact Knows.allCount A garbage hw hmem hknows hvs hadd

end Runs

/-- A version without time stamp. -/
def sampleVersion (entries : List (ReadEntry sampleHash)) : JarVersion sampleHash :=
  ⟨100, 1, entries, { useFileTimestamp := false }⟩

theorem sampleVersion_skipped (entries : List (ReadEntry sampleHash)) (filename : Bytes)
    (db : DigestDb) : (sampleVersion entries).skipped filename db = false := by
  unfold JarVersion.skipped
  cases fileRow db filename <;> rfl

theorem sampleVersion_additive {before : List Bytes} {entries : List (ReadEntry sampleHash)}
    (db : DigestDb) (hkeeps : before ⊆ (sampleVersion entries).paths)
    (hentries : entries ⊆ [entryA, entryV]) (hsmall : entries.length < 2 ^ 32) :
    Additive sampleJar.filename db before (sampleVersion entries) where
  keeps := hkeeps
  small := hsmall
  skips h := absurd h (by rw [sampleVersion_skipped]; exact nofun)
  settles _ e he := by
    have hmem := hentries he
    simp only [List.mem_cons, List.not_mem_nil, or_false] at hmem
    rcases hmem with rfl | rfl
    · exact .inl (by decide)
    · exact .inl (by decide)

theorem classfileCount_tracks_sample :
    ∃ db, DigestDb.create = some db ∧ AllCount Allocator.next (fun _ => 0) sampleJar.filename
      (db, {}) [sampleVersion [entryA], sampleVersion [entryA, entryV]] := by
  obtain ⟨db, hcreate, hvalid, hstored⟩ := create_valid sampleWords (by decide)
  refine ⟨db, hcreate, classfileCount_tracks Allocator.next (fun _ => 0) lexicon_sampleWords hvalid
    (by decide) (by decide) (fileRow_of_empty hvalid _) (fun _ => by rw [hstored]) ?_ {}
    ⟨?_, fun s' _ => ⟨?_, fun _ _ => True.intro⟩⟩⟩
  · intro v hv
    simp only [List.mem_cons, List.not_mem_nil, or_false] at hv
    rcases hv with rfl | rfl
    · exact ⟨jarClasses_sample entryA (by decide) (by decide), rfl⟩
    · exact ⟨jarClasses_release, rfl⟩
  · exact sampleVersion_additive db (by simp) (by simp) (by decide)
  · exact sampleVersion_additive s'.1 (by simp [JarVersion.paths, sampleVersion]) (by simp)
      (by decide)

/-- The counter does not go back when an entry is removed. -/
theorem removed_entry_still_counted :
    ¬∀ (A : ∀ α : Type, Allocator α) (H : Bytes → Sha256) (garbage : ℕ → UInt8)
      (words : List Bytes) (filename : Bytes) (db : DigestDb) (fs : List (Row FileCols))
      (cs : List (Row ClassFileCols)) (vs : List (JarVersion H)) (results : Results),
      Lexicon words → Valid words db fs cs → fs.length + 1 < 2 ^ 64 - 1 → filename ∈ words →
      fileRow db filename = none →
      (∀ name, stored db (DomainTables.getStrongClassname filename name) = none) →
      (∀ v ∈ vs, JarClasses words v.entries ∧ v.options.dryRun = false) →
      AllCount A garbage filename (db, results) vs := by
  intro h
  obtain ⟨db, -, hvalid, hstored⟩ := create_valid sampleWords (by decide)
  have hmem : sampleJar.filename ∈ sampleWords := by decide
  have hnew := fileRow_of_empty hvalid sampleJar.filename
  have hes := jarClasses_sample entryA (by decide) (by decide)
  obtain ⟨s₁, hrun₁, -, s₂, hrun₂, hcounts₂, -⟩ := h Allocator.next sampleHash (fun _ => 0)
    sampleWords sampleJar.filename db [] [] [sampleVersion [entryA, entryV], sampleVersion [entryA]]
    {} lexicon_sampleWords hvalid (by decide) hmem hnew (fun _ => by rw [hstored]) (by
      intro v hv
      simp only [List.mem_cons, List.not_mem_nil, or_false] at hv
      rcases hv with rfl | rfl
      · exact ⟨jarClasses_release, rfl⟩
      · exact ⟨hes, rfl⟩)
  have hknows : Knows sampleWords sampleJar.filename db [] :=
    { valid := ⟨[], [], hvalid, fun _ => by decide⟩
      nodup := List.nodup_nil
      keys := fun name => by simp [hstored]
      count := by rw [hnew]; rfl }
  obtain ⟨t₁, htrun₁, -, hknows₁⟩ := hknows.digestVersion Allocator.next (fun _ => 0)
    lexicon_sampleWords hmem jarClasses_release rfl
    (sampleVersion_additive db (by simp) (by simp) (by decide)) {}
  obtain rfl := Outcome.returned.inj (hrun₁.symm.trans htrun₁)
  obtain ⟨fs₁, cs₁, hvalid₁, hroom₁⟩ := hknows₁.valid
  have hown : Own (rules sampleHash false sampleJar.filename) (stored s₁.1) [entryA] := by
    refine own_iff.mpr fun e he classname d hreading => .inl ?_
    obtain rfl := List.mem_singleton.mp he
    obtain ⟨rfl, -⟩ := Reading.accepted.inj hreading
    decide
  obtain ⟨t₂, row₂, htrun₂, -, hrow₂, hcount₂, -⟩ := processed_spec Allocator.next (fun _ => 0)
    lexicon_sampleWords hvalid₁ hroom₁ hmem (v := sampleVersion [entryA]) hes rfl
    (sampleVersion_skipped _ _ _) hown s₁.2
  obtain rfl := Outcome.returned.inj (hrun₂.symm.trans htrun₂)
  have hknown : ((rules sampleHash false sampleJar.filename).verdict (stored s₁.1) entryA).known =
      true := by
    change (react entryA (stored s₁.1 (entryA.entry.strongClassname sampleJar.filename))).known = _
    rw [react_known]
    exact (hknows₁.keys entryA.entry.getClassname).mpr (by decide)
  rw [hknows₁.count] at hcount₂
  simp only [sampleVersion, List.countP_singleton, hknown] at hcount₂
  have htotal := hcounts₂.count
  rw [hrow₂, Option.map_some, hcount₂] at htotal
  revert htotal
  decide

end Tarracsh.DigestHistory
