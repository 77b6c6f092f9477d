import Tarracsh.DomainTables
import Tarracsh.SafeConsumption

/-!
# Class files, alone and in jars

A standalone class file and a jar entry as the tasks see them, and the part of
`DbBasedTask` that the digest and the call-graph tasks share. The key of a class
is built from the name of the jar and either the name that the class file declares or, below
`META-INF/versions/`, the path of the entry.
-/
namespace Tarracsh.JarEntries
open ByteStrings StringPool ParsedClass TableModel DomainTables CallGraphTables SafeConsumption

/-- A standalone class file as `StandaloneClassFileInfo` and the reader see it. -/
structure ClassFileInfo where
  filename : Bytes
  size : UInt64
  timestamp : Int64
  content : Bytes

/-- A class entry with its uncompressed bytes. -/
structure JarEntry where
  name : Bytes
  crc : Int32
  lastWriteTime : UInt64
  content : Bytes
  deriving DecidableEq, Repr

namespace JarEntry
variable (e : JarEntry)

def getSize : UInt64 := UInt64.ofNat e.content.length

/-- The entry is a file whose path ends in `.class`. -/
def isClassfile : Bool := (ascii ".class").isSuffixOf e.name

/-- The path without `.class`. -/
def getClassname : Bytes := e.name.take (e.name.length - 6)

def isMultiReleaseEntry : Bool := (ascii "META-INF/versions/").isPrefixOf e.name

/-- `JarEntryInfo::strongClassname`. -/
def strongClassname (jarFilename : Bytes) : Bytes :=
  DomainTables.getStrongClassname jarFilename e.getClassname

end JarEntry

/-- Class entries with the same path without `.class` have the same path. -/
theorem name_eq_of_getClassname {e e' : JarEntry} (he : e.isClassfile) (he' : e'.isClassfile)
    (h : e.getClassname = e'.getClassname) : e.name = e'.name := by
  have hsplit : ∀ a : JarEntry, a.isClassfile → a.name = a.getClassname ++ ascii ".class" := by
    intro a ha
    obtain ⟨path, hpath⟩ := List.isSuffixOf_iff_suffix.mp ha
    have hlength : (ascii ".class").length = 6 := by decide
    rw [JarEntry.getClassname, ← hpath, List.length_append, hlength, Nat.add_sub_cancel,
      List.take_left]
  rw [hsplit e he, hsplit e' he', h]

/-- Within one file the strong name determines the class name. -/
theorem getStrongClassname_injective {filename a b : Bytes}
    (h : DomainTables.getStrongClassname filename a = DomainTables.getStrongClassname filename b) :
    a = b := by
  unfold DomainTables.getStrongClassname at h
  split_ifs at h with ha hb hb
  · rw [ha, hb]
  · have := congrArg List.length h
    simp [ascii] at this
  · have := congrArg List.length h
    simp [ascii] at this
  · exact List.append_cancel_left h

/-- `DbBasedTask::getUniqueClassname`. -/
def getUniqueClassname (e : JarEntry) (c : ClassFile) : Option Bytes :=
  if e.isMultiReleaseEntry then some e.getClassname else getMainClassname c

/-- `InvalidRef`, which no row has as its id. -/
def InvalidRef : RefCol := UInt64.ofNat (2 ^ 64 - 1)

/-- `DbBasedTask::isClassfileUnchanged`. -/
def isClassfileUnchanged (e : JarEntry) (row : ClassFileCols) : Bool :=
  row.size == e.getSize && row.crc == e.crc && row.file != InvalidRef &&
    row.lastWriteTime == e.lastWriteTime

section Tables
variable (A : ∀ α : Type, Allocator α)

/-- `DbBasedTask::addOrUpdateClassfile` for the jar whose row is at `pJar`. The
result ends with `classfileRow.id`, which is read from a released row when the key
of the class was known. -/
def addOrUpdateClassfile (pool : Pool) (files : Table FileCols)
    (classfiles : Table ClassFileCols) (pJar : ℕ) (e : JarEntry) (digest : DigestCol)
    (c : ClassFile) : Option (Pool × Table ClassFileCols × ℕ) := do
  let classname ← getUniqueClassname e c
  let jarRow ← files.heap.lookup pJar
  let (pool, offset) ← pool.internalAdd classname
  let (t, p) := classfiles.allocate (A _) (CallGraphDb.newRow
    { file := UInt64.ofNat jarRow.id, lastWriteTime := e.lastWriteTime, size := e.getSize,
      classname := UInt64.ofNat offset, digest := digest, crc := e.crc })
  let (classfiles, readId) ← t.addOrUpdate (ClassFiles.layout pool files) (A _) p
  some (pool, classfiles, readId 0)

end Tables

end Tarracsh.JarEntries
