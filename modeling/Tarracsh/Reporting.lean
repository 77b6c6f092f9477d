import Tarracsh.ByteStrings

/-!
# Results and the report

The counters are 32-bit and count what happened to standalone class files, to
jars and to the class files in jars. The report keeps one record for a file or
class, most of them only for a diff.
-/
namespace Tarracsh.Reporting
open ByteStrings

/-- How a call ends: with an exception, without a defined result, or normally. -/
inductive Outcome (S : Type) where
  | thrown
  | undefined
  | returned (s : S)
  deriving DecidableEq, Repr

namespace Outcome

/-- An assertion that fails or a pointer that dangles leaves no defined result. -/
def ofOption {S : Type} : Option S → Outcome S
  | none => .undefined
  | some s => .returned s

instance : Monad Outcome where
  pure := .returned
  bind
    | .thrown, _ => .thrown
    | .undefined, _ => .undefined
    | .returned s, f => f s

@[simp] theorem returned_bind {S T : Type} (s : S) (f : S → Outcome T) :
    (.returned s : Outcome S) >>= f = f s := rfl

@[simp] theorem ofOption_some {S : Type} (s : S) : ofOption (some s) = .returned s := rfl

theorem bind_eq_returned_iff {S T : Type} {x : Outcome S} {f : S → Outcome T} {t : T} :
    x >>= f = .returned t ↔ ∃ s, x = .returned s ∧ f s = .returned t := by
  cases x with
  | thrown => exact ⟨nofun, nofun⟩
  | undefined => exact ⟨nofun, nofun⟩
  | returned s => simp

theorem ofOption_eq_returned_iff {S : Type} {x : Option S} {s : S} :
    ofOption x = .returned s ↔ x = some s := by
  cases x with
  | none => exact ⟨nofun, nofun⟩
  | some a => simp

end Outcome

/-- The options that analysis reads. -/
structure Options where
  useFileTimestamp : Bool := true
  dryRun : Bool := false
  isDiff : Bool := false
  deriving DecidableEq, Repr

structure TaskResult where
  unchangedCount : UInt32 := 0
  count : UInt32 := 0
  same : UInt32 := 0
  newFile : UInt32 := 0
  differentDigest : UInt32 := 0
  deriving DecidableEq, Repr

structure ClassfileStats where
  count : UInt32 := 0
  parsedCount : UInt32 := 0
  errors : UInt32 := 0
  taskResult : TaskResult := {}
  deriving DecidableEq, Repr

structure JarfileStats where
  classfileCount : UInt32 := 0
  taskResult : TaskResult := {}
  classfiles : ClassfileStats := {}
  deriving DecidableEq, Repr

structure FileResult where
  filename : Bytes
  isNew : Bool := false
  isModified : Bool := false
  isSamePublicDigest : Bool := true
  failed : Bool := false
  deriving DecidableEq, Repr

structure ClassResult where
  strongClassname : Bytes
  isNew : Bool := false
  isModified : Bool := false
  isSamePublicDigest : Bool := false
  failed : Bool := false
  deriving DecidableEq, Repr

structure Results where
  standaloneClassfiles : ClassfileStats := {}
  jarfiles : JarfileStats := {}
  fileResults : List FileResult := []
  classResults : List ClassResult := []
  deriving DecidableEq, Repr

namespace TaskResult
variable (t : TaskResult)

def addNew : TaskResult := { t with newFile := t.newFile + 1 }

def addUnchanged : TaskResult := { t with unchangedCount := t.unchangedCount + 1 }

def addModified (isSamePublicDigest : Bool) : TaskResult :=
  if isSamePublicDigest then { t with same := t.same + 1 }
  else { t with differentDigest := t.differentDigest + 1 }

end TaskResult

namespace Results
variable (r : Results) (isDiff : Bool)

def addFile (file : FileResult) : Results :=
  if isDiff then { r with fileResults := r.fileResults ++ [file] } else r

def addClass (record : ClassResult) : Results :=
  { r with classResults := r.classResults ++ [record] }

def addClassIf (record : ClassResult) : Results := if isDiff then r.addClass record else r

section Records
variable (file : FileResult) (record : ClassResult)

@[simp] theorem addFile_standaloneClassfiles :
    (r.addFile isDiff file).standaloneClassfiles = r.standaloneClassfiles := by
  cases isDiff <;> rfl

@[simp] theorem addFile_jarfiles : (r.addFile isDiff file).jarfiles = r.jarfiles := by
  cases isDiff <;> rfl

@[simp] theorem addFile_classResults :
    (r.addFile isDiff file).classResults = r.classResults := by
  cases isDiff <;> rfl

theorem length_addFile : (r.addFile isDiff file).fileResults.length =
    r.fileResults.length + isDiff.toNat := by
  cases isDiff <;> simp [addFile]

@[simp] theorem addClassIf_standaloneClassfiles :
    (r.addClassIf isDiff record).standaloneClassfiles = r.standaloneClassfiles := by
  cases isDiff <;> rfl

@[simp] theorem addClassIf_jarfiles : (r.addClassIf isDiff record).jarfiles = r.jarfiles := by
  cases isDiff <;> rfl

@[simp] theorem addClassIf_fileResults :
    (r.addClassIf isDiff record).fileResults = r.fileResults := by
  cases isDiff <;> rfl

theorem addClassIf_classResults : (r.addClassIf isDiff record).classResults =
    r.classResults ++ if isDiff then [record] else [] := by
  cases isDiff <;> simp [addClassIf, addClass]

end Records

/-- `splitStrongClassname` up to its first part. -/
def filenameOf (strongClassname : Bytes) : Bytes := strongClassname.takeWhile (· ≠ 64)

def asNewClassFile (strongClassname : Bytes) : Results :=
  let r := { r with standaloneClassfiles := { r.standaloneClassfiles with
    taskResult := r.standaloneClassfiles.taskResult.addNew } }
  (r.addFile isDiff
    { filename := filenameOf strongClassname, isNew := true, isSamePublicDigest := false }).addClass
    { strongClassname := strongClassname, isNew := true }

def asModifiedClassFile (isSamePublicDigest : Bool) (strongClassname : Bytes) : Results :=
  let r := { r with standaloneClassfiles := { r.standaloneClassfiles with
    taskResult := r.standaloneClassfiles.taskResult.addModified isSamePublicDigest } }
  (r.addFile isDiff
    { filename := filenameOf strongClassname, isModified := true,
      isSamePublicDigest := isSamePublicDigest }).addClass
    { strongClassname := strongClassname, isModified := true,
      isSamePublicDigest := isSamePublicDigest }

def asUnchangedClassFile (filename : Bytes) : Results :=
  let r := { r with standaloneClassfiles := { r.standaloneClassfiles with
    taskResult := r.standaloneClassfiles.taskResult.addUnchanged } }
  r.addFile isDiff { filename := filename }

def asFailedClassFile (filename : Bytes) : Results :=
  let r := { r with standaloneClassfiles := { r.standaloneClassfiles with
    errors := r.standaloneClassfiles.errors + 1 } }
  r.addFile isDiff { filename := filename, isSamePublicDigest := false, failed := true }

/-- The statistics of the class files in jars. -/
def onJarClasses (change : ClassfileStats → ClassfileStats) : Results :=
  { r with jarfiles := { r.jarfiles with classfiles := change r.jarfiles.classfiles } }

def asNewJarClass (strongClassname : Bytes) : Results :=
  (r.onJarClasses fun s => { s with taskResult := s.taskResult.addNew }).addClassIf isDiff
    { strongClassname := strongClassname, isNew := true }

def asModifiedJarClass (strongClassname : Bytes) (isSamePublicDigest : Bool) : Results :=
  (r.onJarClasses fun s =>
    { s with taskResult := s.taskResult.addModified isSamePublicDigest }).addClassIf isDiff
    { strongClassname := strongClassname, isModified := true,
      isSamePublicDigest := isSamePublicDigest }

def asUnchangedJarClass (strongClassname : Bytes) : Results :=
  (r.onJarClasses fun s => { s with taskResult := s.taskResult.addUnchanged }).addClassIf isDiff
    { strongClassname := strongClassname, isSamePublicDigest := true }

/-- A diff gets the record of an unchanged class. -/
def asFailedJarClass (strongClassname : Bytes) : Results :=
  (r.onJarClasses fun s => { s with errors := s.errors + 1 }).addClassIf isDiff
    { strongClassname := strongClassname, isSamePublicDigest := true }

def asNewJar (filename : Bytes) : Results :=
  let r := { r with jarfiles := { r.jarfiles with taskResult := r.jarfiles.taskResult.addNew } }
  r.addFile isDiff { filename := filename, isNew := true, isSamePublicDigest := false }

def asModifiedJar (filename : Bytes) (isSamePublicDigest : Bool) : Results :=
  let r := { r with jarfiles := { r.jarfiles with
    taskResult := r.jarfiles.taskResult.addModified isSamePublicDigest } }
  r.addFile isDiff
    { filename := filename, isModified := true, isSamePublicDigest := isSamePublicDigest }

def asUnchangedJar (filename : Bytes) : Results :=
  let r := { r with jarfiles := { r.jarfiles with
    taskResult := r.jarfiles.taskResult.addUnchanged } }
  r.addFile isDiff { filename := filename }

end Results

end Tarracsh.Reporting
