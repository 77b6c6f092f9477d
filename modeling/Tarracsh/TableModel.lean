import Tarracsh.RecordCodecs
import Tarracsh.ByteFiles
import Mathlib.Data.List.AList
import Mathlib.Algebra.Order.BigOperators.Group.List

/-!
# Tables

Rows live on a heap and are held through pointers, once in `_rows` under their
key and once in `_autoIncrementIndex` at their id. A failed assertion and an
access through a dead pointer have no result. `update` and `addOrUpdate`, and some
of their callers, read the id of a row that was released just before: what stands
there is up to the allocator.

A file is its bytes, or `none` while it does not exist. Which seeks fail and
how many bytes of a row are written is a parameter of `write`.
-/
namespace Tarracsh.TableModel
open ByteStrings ByteFiles RecordCodecs

def KAPA_TABLE_SIGNATURE : ℕ := 0xca5ab1a9ca

def MAX_TABLE_NAME : ℕ := 128

/-- `sizeof(column::Properties)`. -/
def PROPERTIES_SIZE : ℕ := 400

/-- `sizeof(TableLayout::Header)`: signature, name and column count. -/
def HEADER_SIZE : ℕ := 8 + MAX_TABLE_NAME + 8

/-- `AutoIncrementedRow` followed by the columns of a table. -/
structure Row (α : Type) where
  flags : UInt64
  id : ℕ
  cols : α
  deriving DecidableEq, Repr

/-- `RowFlags::Deleted`. -/
def Deleted : UInt64 := 1

def Row.isDeleted {α : Type} (r : Row α) : Bool := r.flags &&& Deleted != 0

inductive DirtyType where
  | isUpdate | isNew | isDeleted
  deriving DecidableEq, Repr

/-- The name and the column records, each `PROPERTIES_SIZE` bytes. -/
structure Schema where
  name : Bytes
  columns : List Bytes
  deriving DecidableEq, Repr

/-- What a table stores: its schema and the format of its columns. -/
structure Format (α : Type) extends Codec α where
  schema : Schema
  name_length : schema.name.length = MAX_TABLE_NAME
  columns_length : ∀ c ∈ schema.columns, c.length = PROPERTIES_SIZE
  columns_count : schema.columns.length < 2 ^ 64

/-- A format with the key of a row, which no table computes from flags or id. -/
structure Layout (α : Type) extends Format α where
  getKey : α → Bytes

abbrev Heap (α : Type) := AList fun _ : ℕ => Row α

structure Table (α : Type) where
  heap : Heap α
  rows : AList fun _ : Bytes => ℕ
  autoIncrementIndex : List ℕ
  isDirty : Bool
  dirtyRows : AList fun _ : ℕ => DirtyType
  schema : Schema

/-- `malloc` returns a pointer that is not in use. `freedId` is what the reads of
`row->id` find, one after the other, once the row at the pointer is released;
the heap is that before the release. -/
structure Allocator (α : Type) where
  malloc : Heap α → ℕ
  malloc_fresh : ∀ heap, malloc heap ∉ heap
  freedId : Heap α → ℕ → ℕ → ℕ

/-- A released row keeps its id for the time being. -/
def Allocator.KeepsIds {α : Type} (A : Allocator α) : Prop :=
  ∀ heap p row, heap.lookup p = some row → ∀ n, A.freedId heap p n = row.id

/-- The address behind the last one in use; a release touches nothing. -/
def Allocator.next (α : Type) : Allocator α where
  malloc heap := heap.keys.sum + 1
  malloc_fresh heap hmem := by
    have := List.le_sum_of_mem (AList.mem_keys.mp hmem)
    omega
  freedId heap p _ := ((heap.lookup p).map Row.id).getD 0

theorem Allocator.next_keepsIds (α : Type) : (Allocator.next α).KeepsIds := by
  intro heap p row hrow n
  simp [Allocator.next, hrow]

variable {α : Type} (L : Layout α)

namespace Layout

def rowSize : ℕ := 16 + L.width

def rowBytes (r : Row α) : Bytes :=
  littleEndian 8 r.flags.toNat ++ littleEndian 8 r.id ++ L.encode r.cols

/-- A row as it stands in a buffer of `rowSize` bytes. -/
def parseRow (bytes : Bytes) : Row α where
  flags := UInt64.ofNat (ofLittleEndian (bytes.take 8))
  id := ofLittleEndian ((bytes.drop 8).take 8)
  cols := L.decode (bytes.drop 16)

end Layout

namespace Schema

/-- `writeHeader` and `writeSchema`. -/
def bytes (s : Schema) : Bytes :=
  littleEndian 8 KAPA_TABLE_SIGNATURE ++ s.name ++ littleEndian 8 s.columns.length ++
    s.columns.flatten

/-- `getHeaderSize`. -/
def headerSize (s : Schema) : ℕ := HEADER_SIZE + s.columns.length * PROPERTIES_SIZE

end Schema

namespace Table

/-- A table object after `init`. -/
def construct : Table α where
  heap := ∅
  rows := ∅
  autoIncrementIndex := []
  isDirty := false
  dirtyRows := ∅
  schema := L.schema

section Operations
variable (t : Table α)

def size : ℕ := t.rows.keys.length

def findByKey (key : Bytes) : Option ℕ := t.rows.lookup key

/-- The row a given id denotes. -/
def getRow (id : ℕ) : Option (Row α) := (t.autoIncrementIndex[id]?).bind t.heap.lookup

/-- `allocateRow` and the constructor of the row. -/
def allocate (A : Allocator α) (r : Row α) : Table α × ℕ :=
  ({ t with heap := t.heap.insert (A.malloc t.heap) r }, A.malloc t.heap)

/-- The bookkeeping shared by all updates. -/
def markUpdate (id : ℕ) : Table α :=
  { t with isDirty := true,
           dirtyRows := if (t.dirtyRows.lookup id).isSome then t.dirtyRows
             else t.dirtyRows.insert id .isUpdate }

def markNew (id : ℕ) : Table α :=
  { t with isDirty := true, dirtyRows := t.dirtyRows.insert id .isNew }

/-- The result is the id the row got. -/
def internalAdd (p : ℕ) (key : Bytes) : Option (Table α × ℕ) := do
  let row ← t.heap.lookup p
  if (t.rows.lookup key).isSome then none
  else
    let id := t.autoIncrementIndex.length
    some ({ t with heap := t.heap.insert p { row with id := id }, rows := t.rows.insert key p,
                   autoIncrementIndex := t.autoIncrementIndex ++ [p] }, id)

/-- The given row is copied over the stored one and released. The result is what the
reads of `row->id` find from then on. -/
def internalUpdate (A : Allocator α) (p : ℕ) (key : Bytes) : Option (Table α × (ℕ → ℕ)) := do
  let row ← t.heap.lookup p
  let destRow ← t.rows.lookup key
  if destRow = p then some (t, fun _ => row.id)
  else do
    let stored ← t.heap.lookup destRow
    let row := { row with id := stored.id }
    let heap := (t.heap.insert destRow row).insert p row
    some ({ t with heap := heap.erase p }, A.freedId heap p)

def add (p : ℕ) : Option (Table α × ℕ) := do
  let row ← t.heap.lookup p
  let (t', id) ← t.internalAdd p (L.getKey row.cols)
  some (t'.markNew id, id)

def update (A : Allocator α) (p : ℕ) : Option (Table α) := do
  let row ← t.heap.lookup p
  let (t', readId) ← t.internalUpdate A p (L.getKey row.cols)
  some (t'.markUpdate (readId 0))

/-- The mark is the first read of `row->id` and the result the second. It comes with the reads of
the callers, none of which uses the result. -/
def addOrUpdate (A : Allocator α) (p : ℕ) : Option (Table α × (ℕ → ℕ)) := do
  let row ← t.heap.lookup p
  let key := L.getKey row.cols
  if (t.rows.lookup key).isSome then do
    let (t', readId) ← t.internalUpdate A p key
    some (t'.markUpdate (readId 0), fun n => readId (n + 2))
  else do
    let (t', id) ← t.internalAdd p key
    some (t'.markNew id, fun _ => id)

/-- The callback changes the row at `p` and returns it. -/
def updateInPlace (p : ℕ) (change : Row α → Row α) : Option (Table α) := do
  let row ← t.heap.lookup p
  some (markUpdate { t with heap := t.heap.insert p (change row) } (change row).id)

def deleteRow (id : ℕ) : Option (Table α) := do
  let p ← t.autoIncrementIndex[id]?
  let row ← t.heap.lookup p
  some (markUpdate { t with heap := t.heap.insert p { row with flags := row.flags ||| Deleted } }
    row.id)

/-- `ClassFiles::archiveRow`. -/
def archiveRow (p : ℕ) (strongClassname : Bytes) : Option (Table α) := do
  let row ← t.heap.lookup p
  let archivedKey := strongClassname ++ ascii "#" ++ ascii (toString row.id)
  let rows := t.rows.insert archivedKey p
  some { t with rows := if rows.lookup strongClassname = some p then rows.erase strongClassname
                  else rows }

end Operations

end Table

/-- Which file operations of `write` succeed, and how many bytes of a row
`fwrite` accepts. -/
structure FileFaults where
  opened : Bool
  seekStart : Bool
  seekHeader : Bool
  seekRow : ℕ → Bool
  accept : ℕ → ℕ
  closed : Bool

namespace Table

/-- The loop of `writeRows` from id `autoincrement` on; `break` ends it with
what was written so far. `skippedRows` is an `unsigned`. -/
def writeLoop (f : FileFaults) (t : Table α) :
    List ℕ → (autoincrement position skippedRows : ℕ) → Bytes → Option Bytes
  | [], _, _, _, content => some content
  | p :: pointers, autoincrement, position, skippedRows, content => do
      let row ← t.heap.lookup p
      if row.id ≠ autoincrement then none
      else if (t.dirtyRows.lookup autoincrement).isSome then
        if 0 < skippedRows ∧ f.seekRow autoincrement = false then some content
        else
          let position := if 0 < skippedRows then t.schema.headerSize + autoincrement * L.rowSize
            else position
          let written := (L.rowBytes row).take (f.accept autoincrement)
          let content := writeAt 0 content position written
          if written.length ≠ L.rowSize then some content
          else writeLoop f t pointers (autoincrement + 1) (position + L.rowSize) 0 content
      else writeLoop f t pointers (autoincrement + 1) position ((skippedRows + 1) % 2 ^ 32) content

/-- A failed seek to the first row is logged and nothing else. -/
def writeRows (f : FileFaults) (t : Table α) (position : ℕ) (content : Bytes) : Option Bytes :=
  t.writeLoop L f t.autoIncrementIndex 0 (if f.seekHeader then t.schema.headerSize else position)
    0 content

/-- The table, its file and the result of `write`. -/
def write (f : FileFaults) (t : Table α) (file : Option Bytes) :
    Option (Table α × Option Bytes × Bool) :=
  if !t.isDirty && file.isSome then some (t, file, true)
  else if !f.opened then some (t, file, false)
  else if !f.seekStart then some (t, some (file.getD []), false)
  else do
    let content ← match file with
      | some content => t.writeRows L f 0 content
      | none => t.writeRows L f t.schema.bytes.length t.schema.bytes
    let t' := { t with dirtyRows := ∅ }
    if f.closed then some ({ t' with isDirty := false }, some content, true)
    else some (t', some content, false)

/-- The loop of `readRows`; a short rest is the end of the file. -/
def readRows (A : Allocator α) (t : Table α) (rest : Bytes) : Option (Table α) :=
  if rest.length < L.rowSize then some t
  else
    let row := L.parseRow (rest.take L.rowSize)
    let allocated := t.allocate A row
    match allocated.1.internalAdd allocated.2 (L.getKey row.cols) with
    | none => none
    | some (t', _) => readRows A t' (rest.drop L.rowSize)
termination_by rest.length
decreasing_by
  have : 0 < L.rowSize := by
    unfold Layout.rowSize
    omega
  rw [List.length_drop]
  omega

/-- The table and the result of `read`. A table whose `read` returned false is
not used any further. -/
def read (A : Allocator α) (t : Table α) (file : Option Bytes) : Option (Table α × Bool) :=
  match file with
  | none => some (t, true)
  | some content =>
      if content.length < HEADER_SIZE then some (t, false)
      else if ofLittleEndian (content.take 8) ≠ KAPA_TABLE_SIGNATURE then some (t, false)
      else do
        let name := (content.drop 8).take MAX_TABLE_NAME
        let columnCount := ofLittleEndian ((content.drop (8 + MAX_TABLE_NAME)).take 8)
        let columns := (List.range columnCount).map fun k =>
          slot HEADER_SIZE PROPERTIES_SIZE content k
        let rest := content.drop (HEADER_SIZE + columnCount * PROPERTIES_SIZE)
        let t' ← readRows L A { t with schema := ⟨name, columns⟩ } rest
        some (t', true)

end Table

end Tarracsh.TableModel
