import Tarracsh.StringPool
import Tarracsh.TableModel

/-!
# The tables of the call-graph and digest databases

The columns of each row in the order of its packed structure, the schema that
`defineColumns` declares and the key of a row. A `StringCol` is an offset into
the pool and a `RefCol` an id in another table. A key is read through the pool
and the referenced rows; no caller follows an offset or an id that does not
exist, where the text is taken as empty.
-/
namespace Tarracsh.DomainTables
open ByteStrings RecordCodecs StringPool TableModel

inductive StorageType where
  | Int32 | UInt32 | UInt64 | Ref | String | Digest
  deriving DecidableEq, Repr

inductive DisplayAs where
  | AsInt32 | AsUInt32 | AsUInt64 | AsRef | AsString | AsDigest | AsDatetime | AsSize
  | AsEntryType | AsBool | AsAccessFlags
  deriving DecidableEq, Repr

def MAX_COLUMN_NAME : ℕ := 128

structure Properties where
  name : String
  type : StorageType
  displayAs : DisplayAs
  offsetInRow : ℕ
  refTable : String
  displayColumn : String
  deriving DecidableEq, Repr

namespace Properties

/-- `DECLARE_COLUMN_PROP`. -/
def column (name : String) (type : StorageType) (displayAs : DisplayAs) (offsetInRow : ℕ) :
    Properties :=
  ⟨name, type, displayAs, offsetInRow, "", ""⟩

/-- `DECLARE_FOREIGN_COLUMN_PROP`, always a reference. -/
def foreign (name : String) (offsetInRow : ℕ) (refTable displayColumn : String) : Properties :=
  ⟨name, .Ref, .AsRef, offsetInRow, refTable, displayColumn⟩

def bytes (p : Properties) : Bytes :=
  padded MAX_COLUMN_NAME (ascii p.name) ++ littleEndian 4 p.type.ctorIdx ++
    littleEndian 4 p.displayAs.ctorIdx ++ littleEndian 8 p.offsetInRow ++
    padded MAX_TABLE_NAME (ascii p.refTable) ++ padded MAX_COLUMN_NAME (ascii p.displayColumn)

theorem bytes_length (p : Properties) : p.bytes.length = PROPERTIES_SIZE := by
  simp [bytes, MAX_COLUMN_NAME, MAX_TABLE_NAME, PROPERTIES_SIZE]

end Properties

/-- A table of the given columns. -/
def format {α : Type} (codec : Codec α) (name : String) (columns : List Properties)
    (hcount : columns.length < 2 ^ 64) : Format α where
  toCodec := codec
  schema := ⟨padded MAX_TABLE_NAME (ascii name), columns.map Properties.bytes⟩
  name_length := padded_length _ _
  columns_length c hc := by
    obtain ⟨p, -, rfl⟩ := List.mem_map.mp hc
    exact p.bytes_length
  columns_count := by simpa using hcount

abbrev StringCol := UInt64

abbrev RefCol := UInt64

/-- `DIGEST_LENGTH` is 40. -/
abbrev DigestCol := Vector UInt8 40

/-- `_stringPool->getCString`. An offset at which no string ends has the empty text. -/
def text (pool : Pool) (s : StringCol) : Bytes := (pool.getCString s.toNat).getD []

/-- `EntryType::Classfile`. -/
def Classfile : Int32 := 0

/-- `EntryType::Jar`. -/
def Jar : Int32 := 1

structure FileCols where
  type : Int32 := Classfile
  filename : StringCol := 0
  lastWriteTime : Int64 := 0
  fileSize : UInt64 := 0
  classfileCount : UInt32 := 0
  digest : DigestCol := Vector.replicate 40 0
  deriving DecidableEq, Repr

namespace Files

def codec : Codec FileCols :=
  (Codec.int32.prod (Codec.uint64.prod (Codec.int64.prod (Codec.uint64.prod
    (Codec.uint32.prod (Codec.array 40)))))).map
    (fun v => ⟨v.1, v.2.1, v.2.2.1, v.2.2.2.1, v.2.2.2.2.1, v.2.2.2.2.2⟩)
    (fun r => (r.type, r.filename, r.lastWriteTime, r.fileSize, r.classfileCount, r.digest))
    fun _ => rfl

def columns : List Properties :=
  [.column "id" .UInt64 .AsUInt64 8,
    .column "type" .Int32 .AsEntryType 16,
    .column "filename" .String .AsString 20,
    .column "lastWriteTime" .UInt64 .AsDatetime 28,
    .column "fileSize" .UInt64 .AsSize 36,
    .column "classfileCount" .UInt32 .AsUInt32 44,
    .column "digest" .Digest .AsDigest 48]

def format : Format FileCols := DomainTables.format codec "files" columns (by decide)

def getKey (pool : Pool) (r : FileCols) : Bytes := text pool r.filename

def layout (pool : Pool) : Layout FileCols := ⟨format, getKey pool⟩

end Files

/-- `utils::getStrongClassname`. -/
def getStrongClassname (filename jvmClassname : Bytes) : Bytes :=
  if jvmClassname = [] then filename else filename ++ ascii "@" ++ jvmClassname

structure ClassFileCols where
  file : RefCol := 0
  classname : StringCol := 0
  lastWriteTime : UInt64 := 0
  size : UInt64 := 0
  crc : Int32 := 0
  digest : DigestCol := Vector.replicate 40 0
  refCount : UInt64 := 0
  deriving DecidableEq, Repr

namespace ClassFiles

def codec : Codec ClassFileCols :=
  (Codec.uint64.prod (Codec.uint64.prod (Codec.uint64.prod (Codec.uint64.prod
    (Codec.int32.prod ((Codec.array 40).prod Codec.uint64)))))).map
    (fun v => ⟨v.1, v.2.1, v.2.2.1, v.2.2.2.1, v.2.2.2.2.1, v.2.2.2.2.2.1, v.2.2.2.2.2.2⟩)
    (fun r => (r.file, r.classname, r.lastWriteTime, r.size, r.crc, r.digest, r.refCount))
    fun _ => rfl

def columns : List Properties :=
  [.column "id" .UInt64 .AsUInt64 8,
    .foreign "file" 16 "files" "filename",
    .column "classname" .String .AsString 24,
    .column "lastWriteTime" .UInt64 .AsDatetime 32,
    .column "size" .UInt64 .AsSize 40,
    .column "crc" .Int32 .AsInt32 48,
    .column "digest" .Digest .AsDigest 52,
    .column "refCount" .UInt64 .AsUInt64 92]

def format : Format ClassFileCols := DomainTables.format codec "classfiles" columns (by decide)

def getStrongClassname (pool : Pool) (files : Table FileCols) (r : ClassFileCols) : Bytes :=
  match files.getRow r.file.toNat with
  | none => []
  | some fileRow =>
      DomainTables.getStrongClassname (text pool fileRow.cols.filename) (text pool r.classname)

def layout (pool : Pool) (files : Table FileCols) : Layout ClassFileCols :=
  ⟨format, getStrongClassname pool files⟩

end ClassFiles

end Tarracsh.DomainTables
