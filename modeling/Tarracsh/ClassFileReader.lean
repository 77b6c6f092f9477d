import Tarracsh.ByteStrings
import Tarracsh.StreamReads

/-!
# The class-file readers

`ClassFileReader` is an abstract class: every read of the parser ends in the
virtual `readBytes` of the reader at hand, either through `readRaw`, which
first compares a 32-bit count of the bytes it has read with the size, or
directly. A sequence of reads is therefore a tree of requests, and a reader is
a server of such requests.

`readU1`, `readU2` and `readU4` read into an uninitialised local. What such a
local holds is not determined, so the state carries an arbitrary sequence of
bytes to draw it from. A `FileReader` never looks whether its stream delivered
the bytes: past the end of the file the destination keeps what it held.
-/
namespace Tarracsh.ClassFileReader
open ByteStrings QueryTrees StreamReads

/-- One read of `count` bytes. -/
structure Request where
  count : ℕ
  /-- The read goes through `readRaw`. -/
  counted : Bool
  /-- The destination was zeroed before, it is not an uninitialised local. -/
  zeroed : Bool
  deriving DecidableEq, Repr

abbrev Reads := Tree Request Bytes

inductive Kind where
  | memory | file
  deriving DecidableEq, Repr

/-- The part of a reader that reads change. -/
structure Stream where
  kind : Kind
  content : Bytes
  position : ℕ
  bytesRead : UInt32
  garbage : ℕ → UInt8

namespace Stream

/-- What the destination of a request holds before the read. -/
def destination (s : Stream) (q : Request) : Bytes :=
  if q.zeroed then List.replicate q.count 0 else (List.range q.count).map s.garbage

/-- The next uninitialised local holds other bytes. -/
def drawn (s : Stream) (q : Request) : Stream :=
  if q.zeroed then s else { s with garbage := fun i => s.garbage (i + q.count) }

/-- `MemoryReader::readBytes` refuses to run over the end. `FileReader::readBytes`
is an `ifstream::read`. -/
def readBytes (q : Request) (s : Stream) : Option (Bytes × Stream) :=
  let delivered := (s.content.drop s.position).take q.count
  match s.kind with
  | .memory =>
      if s.content.length < s.position + q.count then none
      else some (delivered, { s.drawn q with position := s.position + q.count })
  | .file =>
      some (delivered ++ (s.destination q).drop delivered.length,
        { s.drawn q with position := s.position + delivered.length })

/-- The `readRaw` overload for a character buffer. -/
def readRaw (q : Request) (s : Stream) : Option (Bytes × Stream) :=
  if s.content.length < (s.bytesRead + UInt32.ofNat q.count).toNat then none
  else (s.readBytes q).map fun answer =>
    (answer.1, { answer.2 with bytesRead := s.bytesRead + UInt32.ofNat q.count })

def serve (q : Request) (s : Stream) : Option (Bytes × Stream) :=
  if q.counted then s.readRaw q else s.readBytes q

end Stream

def swapShort (value : UInt16) : UInt16 := value >>> 8 ||| value <<< 8

def swapLong (value : UInt32) : UInt32 :=
  value >>> 24 ||| (value <<< 8 &&& (0x00FF0000 : UInt32)) |||
    (value >>> 8 &&& (0x0000FF00 : UInt32)) ||| value <<< 24

/-- Two bytes in memory as the `u2` of a little-endian host. -/
def hostU2 (bytes : Bytes) : UInt16 := UInt16.ofNat (ofLittleEndian bytes)

def hostU4 (bytes : Bytes) : UInt32 := UInt32.ofNat (ofLittleEndian bytes)

/-- The `u2` in a buffer that was filled from the file. -/
def toU2 (isBigEndian : Bool) (bytes : Bytes) : UInt16 :=
  if isBigEndian then hostU2 bytes else swapShort (hostU2 bytes)

def toU4 (isBigEndian : Bool) (bytes : Bytes) : UInt32 :=
  if isBigEndian then hostU4 bytes else swapLong (hostU4 bytes)

section
variable (isBigEndian : Bool)

/-- `read(u2 &)` into a variable that is zero. -/
def read2 : Reads UInt16 := .ask ⟨2, true, true⟩ fun bytes => pure (toU2 isBigEndian bytes)

/-- `read(u4 &)` into a variable that is zero. -/
def read4 : Reads UInt32 := .ask ⟨4, true, true⟩ fun bytes => pure (toU4 isBigEndian bytes)

def readU1 : Reads UInt8 := .ask ⟨1, true, false⟩ fun bytes => pure (bytes.headD 0)

def readU2 : Reads UInt16 := .ask ⟨2, true, false⟩ fun bytes => pure (toU2 isBigEndian bytes)

def readU4 : Reads UInt32 := .ask ⟨4, true, false⟩ fun bytes => pure (toU4 isBigEndian bytes)

end

structure ClassFileHeader where
  magic : UInt32
  minorVersion : UInt16
  majorVersion : UInt16
  deriving DecidableEq, Repr

/-- What `readHeader` leaves in the reader. -/
structure Header where
  header : ClassFileHeader
  isBigEndian : Bool
  isValidHeader : Bool
  deriving DecidableEq, Repr

def readHeader : Reads Header :=
  .ask ⟨4, true, true⟩ fun bytes => do
    let magic := hostU4 bytes
    let isBigEndian := magic == 0xcafebabe
    let isValidHeader := isBigEndian || magic == swapLong 0xcafebabe
    if isValidHeader then do
      let minorVersion ← readU2 isBigEndian
      let majorVersion ← readU2 isBigEndian
      pure ⟨⟨magic, minorVersion, majorVersion⟩, isBigEndian, isValidHeader⟩
    else pure ⟨⟨magic, 0, 0⟩, isBigEndian, isValidHeader⟩

/-- A constructed reader. -/
structure Reader where
  header : Header
  stream : Stream

/-- The stream before the header is read. -/
def start (kind : Kind) (content : Bytes) (garbage : ℕ → UInt8) : Stream :=
  ⟨kind, content, 0, 0, garbage⟩

/-- The constructor over a non-null buffer or an existing file; `none` is an
exception. -/
def construct (kind : Kind) (content : Bytes) (garbage : ℕ → UInt8) : Option Reader :=
  if kind = .memory ∧ content.length = 0 then none
  else (run Stream.serve readHeader (start kind content garbage)).map fun result =>
    ⟨result.1, result.2⟩

end Tarracsh.ClassFileReader
