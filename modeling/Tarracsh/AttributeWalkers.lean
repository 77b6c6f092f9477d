import Tarracsh.VectorReader
import Tarracsh.ConstantTexts
import Tarracsh.MachineIntegers

/-!
# The attribute walkers

The functions of `AttributesManager` that walk through an attribute body, as trees
whose questions are the reads and jumps of a `VectorReader`. The answer to a jump is
empty.

A lookup in the constant pool that has no result leaves the text undefined. It does
not stop the walk, so that every access that can follow it is counted.
-/
namespace Tarracsh.AttributeWalkers
open ByteStrings QueryTrees StreamReads ClassFileReader PoolStructures ConstantTexts
  MachineIntegers

section Accesses

inductive Access where
  | read (byteCount : ℕ)
  | jump (steps : UInt32)
  deriving DecidableEq, Repr

abbrev Walk := Tree Access Bytes

/-- The steps of a jump are converted to `int`. -/
def jump (steps : UInt32) (r : VectorReader.Reader) : VectorReader.Reader :=
  { r with position := wrap (r.position + steps.toBitVec.toInt) }

def serve : Access → VectorReader.Reader → Option (Bytes × VectorReader.Reader)
  | .read byteCount, r => VectorReader.readRaw byteCount r
  | .jump steps, r => some ([], jump steps r)

variable (isBigEndian : Bool)

def readU1 : Walk UInt8 := .ask (.read 1) fun bytes => pure (bytes.headD 0)

def readU2 : Walk UInt16 := .ask (.read 2) fun bytes => pure (toU2 isBigEndian bytes)

def readU4 : Walk UInt32 := .ask (.read 4) fun bytes => pure (toU4 isBigEndian bytes)

def jumpOver (steps : UInt32) : Walk Unit := .ask (.jump steps) fun _ => pure ()

end Accesses

section Texts

def number (n : ℕ) : Bytes := ascii (ToString.toString n)

/-- The texts, when all of them are defined. -/
def allTexts (texts : List (Option Bytes)) : Option (List Bytes) := texts.mapM id

/-- A list of parts with their number in front. -/
def countedText (label : Bytes) (empty : Bytes) (count : ℕ) (parts : List Bytes) : Bytes :=
  if parts = [] then empty
  else label ++ number count ++ ascii ", " ++ join (ascii ", ") parts

end Texts

section StackMapTable
variable (isBigEndian : Bool)

structure StackMapCounters where
  same : ℕ := 0
  sameLocals : ℕ := 0
  sameLocalsExtended : ℕ := 0
  chop : ℕ := 0
  sameExtended : ℕ := 0
  append : ℕ := 0
  full : ℕ := 0
  unknown : ℕ := 0
  deriving DecidableEq, Repr

def JVM_ITEM_Object : UInt8 := 7
def JVM_ITEM_Uninitialized : UInt8 := 8

def skipVerificationType : Walk Unit := do
  let tag ← readU1
  if tag = JVM_ITEM_Object ∨ tag = JVM_ITEM_Uninitialized then do
    let _ ← readU2 isBigEndian
    pure ()
  else pure ()

def skipVerificationTypes (count : ℕ) : Walk Unit := do
  let _ ← repeated count (skipVerificationType isBigEndian)
  pure ()

/-- One turn of the loop over the frames. -/
def frame (counters : StackMapCounters) : Walk StackMapCounters := do
  let frameType ← readU1
  if frameType ≤ 63 then pure { counters with same := counters.same + 1 }
  else if frameType ≤ 127 then do
    skipVerificationType isBigEndian
    pure { counters with sameLocals := counters.sameLocals + 1 }
  else if frameType = 247 then do
    let _ ← readU2 isBigEndian
    skipVerificationType isBigEndian
    pure { counters with sameLocalsExtended := counters.sameLocalsExtended + 1 }
  else if frameType ≥ 248 ∧ frameType ≤ 250 then do
    let _ ← readU2 isBigEndian
    pure { counters with chop := counters.chop + 1 }
  else if frameType = 251 then do
    let _ ← readU2 isBigEndian
    pure { counters with sameExtended := counters.sameExtended + 1 }
  else if frameType ≥ 252 ∧ frameType ≤ 254 then do
    let _ ← readU2 isBigEndian
    skipVerificationTypes isBigEndian (frameType.toNat - 251)
    pure { counters with append := counters.append + 1 }
  else if frameType = 255 then do
    let _ ← readU2 isBigEndian
    let locals ← readU2 isBigEndian
    skipVerificationTypes isBigEndian locals.toNat
    let stackItems ← readU2 isBigEndian
    skipVerificationTypes isBigEndian stackItems.toNat
    pure { counters with full := counters.full + 1 }
  else pure { counters with unknown := counters.unknown + 1 }

def frames : ℕ → StackMapCounters → Walk StackMapCounters
  | 0, counters => pure counters
  | n + 1, counters => do
      let counters ← frame isBigEndian counters
      frames n counters

/-- The counters that are not zero, with their labels. -/
def summaryParts (c : StackMapCounters) : List Bytes :=
  ([(ascii "same", c.same), (ascii "same_locals", c.sameLocals),
    (ascii "same_locals_ext", c.sameLocalsExtended), (ascii "chop", c.chop),
    (ascii "same_ext", c.sameExtended), (ascii "append", c.append), (ascii "full", c.full),
    (ascii "unknown", c.unknown)].filter fun part => 0 < part.2).map
    fun part => part.1 ++ ascii "=" ++ number part.2

def stackMapText (entryCount : ℕ) (counters : StackMapCounters) : Bytes :=
  ascii "Attr - StackMapTable" ++
    if entryCount = 0 then ascii " (no frames)"
    else if summaryParts counters = [] then ascii " frames=" ++ number entryCount
    else ascii " frames=" ++ number entryCount ++ ascii ", [" ++
      join (ascii ", ") (summaryParts counters) ++ ascii "]"

def toStringStackMapTable : Walk Bytes := do
  let entryCount ← readU2 isBigEndian
  let counters ← frames isBigEndian entryCount.toNat {}
  pure (stackMapText entryCount.toNat counters)

end StackMapTable

section Code
variable (isBigEndian : Bool)

structure ExceptionTable where
  startPC : UInt16
  endPC : UInt16
  handlerPC : UInt16
  catchType : UInt16
  deriving DecidableEq, Repr

def exceptionTableEntry : Walk ExceptionTable := do
  let startPC ← readU2 isBigEndian
  let endPC ← readU2 isBigEndian
  let handlerPC ← readU2 isBigEndian
  let catchType ← readU2 isBigEndian
  pure ⟨startPC, endPC, handlerPC, catchType⟩

def codeText (maxStack maxLocals codeLength exceptionTableLength : ℕ) : Bytes :=
  ascii "Attr - Code" ++ ascii " maxStack=" ++ number maxStack ++ ascii ", maxLocals=" ++
    number maxLocals ++ ascii ", codeLength=" ++ number codeLength ++
    ascii ", exceptionTableLength=" ++ number exceptionTableLength

def toStringCode : Walk Bytes := do
  let maxStack ← readU2 isBigEndian
  let maxLocals ← readU2 isBigEndian
  let codeLength ← readU4 isBigEndian
  jumpOver codeLength
  let exceptionTableLength ← readU2 isBigEndian
  let _ ← repeated exceptionTableLength.toNat (exceptionTableEntry isBigEndian)
  pure (codeText maxStack.toNat maxLocals.toNat codeLength.toNat exceptionTableLength.toNat)

end Code

section Record
variable (isBigEndian : Bool) (pool : ConstantPool) (turns : ℕ)

/-- An attribute of a component is jumped over. -/
def skipAttribute : Walk Unit := do
  let _ ← readU2 isBigEndian
  let attributeLength ← readU4 isBigEndian
  jumpOver attributeLength

/-- The text of a component. -/
def componentText (nameIndex descriptorIndex : UInt16) : Option Bytes := do
  let name ← pool.getString nameIndex
  let descriptor ← getTypeString pool turns descriptorIndex
  pure (name ++ ascii ":" ++ descriptor)

def component : Walk (Option Bytes) := do
  let nameIndex ← readU2 isBigEndian
  let descriptorIndex ← readU2 isBigEndian
  let attributesCount ← readU2 isBigEndian
  let _ ← repeated attributesCount.toNat (skipAttribute isBigEndian)
  pure (componentText pool turns nameIndex descriptorIndex)

def recordText (componentCount : ℕ) (parts : List Bytes) : Bytes :=
  ascii "Attr - Record" ++ countedText (ascii " components=") (ascii " (no components)")
    componentCount parts

def toStringRecord : Walk (Option Bytes) := do
  let componentCount ← readU2 isBigEndian
  let parts ← repeated componentCount.toNat (component isBigEndian pool turns)
  pure ((allTexts parts).map (recordText componentCount.toNat))

end Record

section Tables
variable (isBigEndian : Bool) (pool : ConstantPool)

def accessModifiers : List Bytes :=
  [ascii "public", ascii "private", ascii "protected", ascii "static", ascii "final",
    ascii "synchronized", ascii "super", ascii "volatile", ascii "bridge", ascii "transient",
    ascii "varargs", ascii "native", ascii "interface", ascii "abstract", ascii "strict",
    ascii "synthetic", ascii "annotation", ascii "enum", ascii "module"]

/-- The modifiers whose bit is set, by their place in the list. -/
def accessText (accessFlags : UInt16) : Bytes :=
  join (ascii " ") ((accessModifiers.zipIdx.filter fun part =>
    accessFlags.toNat.testBit part.2).map Prod.fst)

def innerClassText (innerClassInfoIndex outerClassInfoIndex innerNameIndex accessFlags : UInt16) :
    Option Bytes := do
  let innerClassname ← getClassInfoName pool innerClassInfoIndex
  let outerClassname ← getClassInfoName pool outerClassInfoIndex
  let name ← getClassname pool innerNameIndex
  pure (accessText accessFlags ++ ascii " class: " ++ name ++ ascii ", outer class: " ++
    outerClassname ++ ascii ", inner class: " ++ innerClassname)

def innerClassToString : Walk (Option Bytes) := do
  let innerClassInfoIndex ← readU2 isBigEndian
  let outerClassInfoIndex ← readU2 isBigEndian
  let innerNameIndex ← readU2 isBigEndian
  let innerClassAccessFlags ← readU2 isBigEndian
  pure (innerClassText pool innerClassInfoIndex outerClassInfoIndex innerNameIndex
    innerClassAccessFlags)

def toStringInnerClasses : Walk (Option Bytes) := do
  let numberOfClasses ← readU2 isBigEndian
  let parts ← repeated numberOfClasses.toNat (innerClassToString isBigEndian pool)
  pure ((allTexts parts).map fun parts =>
    ascii "Attr - InnerClasses" ++ ascii "\n" ++ join (ascii "\n") parts)

def exceptionName : Walk (Option Bytes) := do
  let exceptionIndex ← readU2 isBigEndian
  pure (formatClassName pool exceptionIndex)

def toStringExceptions : Walk (Option Bytes) := do
  let count ← readU2 isBigEndian
  let names ← repeated count.toNat (exceptionName isBigEndian pool)
  pure ((allTexts names).map fun names =>
    ascii "Attr - Exceptions" ++ countedText (ascii " count=") (ascii " (none)") names.length names)

def lineNumber : Walk Bytes := do
  let startPc ← readU2 isBigEndian
  let line ← readU2 isBigEndian
  pure ([0x7B] ++ ascii "pc:" ++ number startPc.toNat ++ ascii ", line:" ++ number line.toNat ++
    [0x7D])

def toStringLineNumberTable : Walk Bytes := do
  let lineNumberTableLength ← readU2 isBigEndian
  let parts ← repeated lineNumberTableLength.toNat (lineNumber isBigEndian)
  pure (ascii "Attr - LineNumberTable" ++
    countedText (ascii " count=") (ascii " (empty)") lineNumberTableLength.toNat parts)

end Tables

section Dispatch

/-- The attributes of this module. -/
inductive AttributeTag where
  | innerClasses | code | exceptions | lineNumberTable | stackMapTable | record
  deriving DecidableEq, Repr

def toString (isBigEndian : Bool) (pool : ConstantPool) (turns : ℕ) :
    AttributeTag → Walk (Option Bytes)
  | .innerClasses => toStringInnerClasses isBigEndian pool
  | .code => do
      let text ← toStringCode isBigEndian
      pure (some text)
  | .exceptions => toStringExceptions isBigEndian pool
  | .lineNumberTable => do
      let text ← toStringLineNumberTable isBigEndian
      pure (some text)
  | .stackMapTable => do
      let text ← toStringStackMapTable isBigEndian
      pure (some text)
  | .record => toStringRecord isBigEndian pool turns

end Dispatch

end Tarracsh.AttributeWalkers
