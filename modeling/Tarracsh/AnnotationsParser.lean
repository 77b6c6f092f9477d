import Tarracsh.VectorReader

/-!
# The annotations parser

The read functions of `AnnotationsParser` over a `VectorReader`, up to the texts that
are made of what was read.

`readElementValue` calls itself for nested annotations and arrays. The depth of
these calls is bounded by a number here; every call reads a tag, so the number of
bytes is enough.
-/
namespace Tarracsh.AnnotationsParser
open ByteStrings QueryTrees StreamReads ClassFileReader

/-- Reads are asked for by their number of bytes. -/
abbrev VectorReads := Tree ℕ Bytes

section Structures

structure EnumConstValue where
  typeNameIndex : UInt16 := 0
  constNameIndex : UInt16 := 0
  deriving DecidableEq, Repr

structure ArrayValues (E : Type) where
  count : UInt16 := 0
  values : List E := []

mutual

structure Value where
  constValueIndex : UInt16 := 0
  enumConstValue : EnumConstValue := {}
  classInfoIndex : UInt16 := 0
  annotationValue : Option Annotation := none
  arrayValues : ArrayValues ElementValue := {}

structure ElementValue where
  tag : UInt8
  value : Value

structure AnnotationValuePair where
  nameIndex : UInt16
  value : ElementValue

structure Annotation where
  typeIndex : UInt16
  count : UInt16
  values : List AnnotationValuePair

end

structure RuntimeAnnotations where
  count : UInt16
  items : List Annotation

structure ParameterAnnotation where
  count : UInt16
  items : List Annotation

structure RuntimeParameterAnnotations where
  parameterCount : UInt8
  items : List ParameterAnnotation

structure LocalVarTargetEntry where
  startPC : UInt16
  length : UInt16
  index : UInt16
  deriving DecidableEq, Repr

structure TargetPathItem where
  typePathKind : UInt8
  typeArgumentIndex : UInt8
  deriving DecidableEq, Repr

structure TargetPath where
  length : UInt8
  items : List TargetPathItem
  deriving DecidableEq, Repr

/-- The member of the union that was written. -/
inductive TargetInfo where
  | unset
  | typeParameterTarget (typeParameterIndex : UInt8)
  | supertypeTarget (supertypeIndex : UInt16)
  | typeParameterBoundTarget (typeParameterIndex boundIndex : UInt8)
  | formalParameterTarget (formalParameterIndex : UInt8)
  | throwsTarget (throwsTypeIndex : UInt16)
  | catchTarget (exceptionTableIndex : UInt16)
  | offsetTarget (offset : UInt16)
  | typeArgumentTarget (offset typeArgumentIndex : UInt16)
  deriving DecidableEq, Repr

structure LocalVarTarget where
  tableLength : UInt16
  items : List LocalVarTargetEntry
  deriving DecidableEq, Repr

/-- Only the local variable targets write the third member. -/
structure TypeAnnotation where
  targetType : UInt8
  targetInfo : TargetInfo
  localVarTarget : Option LocalVarTarget
  targetPath : TargetPath
  typeIndex : UInt16
  count : UInt16
  values : List AnnotationValuePair

structure RuntimeTypeAnnotations where
  count : UInt16
  items : List TypeAnnotation

end Structures

section Tags

@[match_pattern] abbrev JVM_SIGNATURE_SLASH : UInt8 := 0x2F
@[match_pattern] abbrev JVM_SIGNATURE_DOT : UInt8 := 0x2E
@[match_pattern] abbrev JVM_SIGNATURE_SPECIAL : UInt8 := 0x3C
@[match_pattern] abbrev JVM_SIGNATURE_ENDSPECIAL : UInt8 := 0x3E
@[match_pattern] abbrev JVM_SIGNATURE_ARRAY : UInt8 := 0x5B
@[match_pattern] abbrev JVM_SIGNATURE_BYTE : UInt8 := 0x42
@[match_pattern] abbrev JVM_SIGNATURE_CHAR : UInt8 := 0x43
@[match_pattern] abbrev JVM_SIGNATURE_CLASS : UInt8 := 0x4C
@[match_pattern] abbrev JVM_SIGNATURE_ENDCLASS : UInt8 := 0x3B
@[match_pattern] abbrev JVM_SIGNATURE_ENUM : UInt8 := 0x45
@[match_pattern] abbrev JVM_SIGNATURE_FLOAT : UInt8 := 0x46
@[match_pattern] abbrev JVM_SIGNATURE_DOUBLE : UInt8 := 0x44
@[match_pattern] abbrev JVM_SIGNATURE_FUNC : UInt8 := 0x28
@[match_pattern] abbrev JVM_SIGNATURE_ENDFUNC : UInt8 := 0x29
@[match_pattern] abbrev JVM_SIGNATURE_INT : UInt8 := 0x49
@[match_pattern] abbrev JVM_SIGNATURE_LONG : UInt8 := 0x4A
@[match_pattern] abbrev JVM_SIGNATURE_SHORT : UInt8 := 0x53
@[match_pattern] abbrev JVM_SIGNATURE_VOID : UInt8 := 0x56
@[match_pattern] abbrev JVM_SIGNATURE_BOOLEAN : UInt8 := 0x5A
@[match_pattern] abbrev JVM_SIGNATURE_CLASS2 : UInt8 := 0x63
@[match_pattern] abbrev JVM_SIGNATURE_ANNOTATION : UInt8 := 0x40
@[match_pattern] abbrev JVM_SIGNATURE_ENUM2 : UInt8 := 0x65
@[match_pattern] abbrev JVM_SIGNATURE_STRING : UInt8 := 0x73

end Tags

section Reads
variable (asserts isBigEndian : Bool)

/-- `assert(false)`, which release builds leave out. -/
def assertFalse : VectorReads Unit := if asserts then .stuck else pure ()

def readU1 : VectorReads UInt8 := .ask 1 fun bytes => pure (bytes.headD 0)

def readU2 : VectorReads UInt16 := .ask 2 fun bytes => pure (toU2 isBigEndian bytes)

section Nested
variable (readElementValue : VectorReads ElementValue)

def readAnnotationValuePair : VectorReads AnnotationValuePair := do
  let nameIndex ← readU2 isBigEndian
  let value ← readElementValue
  pure ⟨nameIndex, value⟩

def readAnnotationValues (count : UInt16) : VectorReads (List AnnotationValuePair) :=
  repeated count.toNat (readAnnotationValuePair isBigEndian readElementValue)

def readAnnotation : VectorReads Annotation := do
  let typeIndex ← readU2 isBigEndian
  let count ← readU2 isBigEndian
  let values ← readAnnotationValues isBigEndian readElementValue count
  pure ⟨typeIndex, count, values⟩

/-- The switch of `readElementValue`. It has no default. -/
def readValue (tag : UInt8) : VectorReads Value :=
  match tag with
  | JVM_SIGNATURE_ARRAY => do
      let count ← readU2 isBigEndian
      let values ← repeated count.toNat readElementValue
      pure { arrayValues := ⟨count, values⟩ }
  | JVM_SIGNATURE_INT | JVM_SIGNATURE_LONG | JVM_SIGNATURE_SHORT | JVM_SIGNATURE_BOOLEAN
  | JVM_SIGNATURE_CHAR | JVM_SIGNATURE_BYTE | JVM_SIGNATURE_FLOAT | JVM_SIGNATURE_DOUBLE
  | JVM_SIGNATURE_STRING => do
      let constValueIndex ← readU2 isBigEndian
      pure { constValueIndex := constValueIndex }
  | JVM_SIGNATURE_CLASS2 => do
      let classInfoIndex ← readU2 isBigEndian
      pure { classInfoIndex := classInfoIndex }
  | JVM_SIGNATURE_ANNOTATION => do
      let childAnnotation ← readAnnotation isBigEndian readElementValue
      pure { annotationValue := some childAnnotation }
  | JVM_SIGNATURE_ENUM2 => do
      let typeNameIndex ← readU2 isBigEndian
      let constNameIndex ← readU2 isBigEndian
      pure { enumConstValue := ⟨typeNameIndex, constNameIndex⟩ }
  | JVM_SIGNATURE_SLASH | JVM_SIGNATURE_DOT | JVM_SIGNATURE_SPECIAL | JVM_SIGNATURE_ENDSPECIAL
  | JVM_SIGNATURE_CLASS | JVM_SIGNATURE_ENDCLASS | JVM_SIGNATURE_ENUM | JVM_SIGNATURE_FUNC
  | JVM_SIGNATURE_ENDFUNC | JVM_SIGNATURE_VOID => do
      assertFalse asserts
      pure {}
  | _ => pure {}

end Nested

def readElementValue : ℕ → VectorReads ElementValue
  | 0 => .stuck
  | depth + 1 => do
      let tag ← readU1
      let value ← readValue asserts isBigEndian (readElementValue depth) tag
      pure ⟨tag, value⟩

def readLocalVarTargetEntry : VectorReads LocalVarTargetEntry := do
  let startPC ← readU2 isBigEndian
  let length ← readU2 isBigEndian
  let index ← readU2 isBigEndian
  pure ⟨startPC, length, index⟩

/-- The switch on the target type. -/
def readTargetInfo (targetType : UInt8) : VectorReads (TargetInfo × Option LocalVarTarget) :=
  match targetType with
  | 0x00 | 0x01 => do
      let typeParameterIndex ← readU1
      pure (.typeParameterTarget typeParameterIndex, none)
  | 0x10 => do
      let supertypeIndex ← readU2 isBigEndian
      pure (.supertypeTarget supertypeIndex, none)
  | 0x11 | 0x12 => do
      let typeParameterIndex ← readU1
      let boundIndex ← readU1
      pure (.typeParameterBoundTarget typeParameterIndex boundIndex, none)
  | 0x13 | 0x14 | 0x15 => pure (.unset, none)
  | 0x16 => do
      let formalParameterIndex ← readU1
      pure (.formalParameterTarget formalParameterIndex, none)
  | 0x17 => do
      let throwsTypeIndex ← readU2 isBigEndian
      pure (.throwsTarget throwsTypeIndex, none)
  | 0x40 | 0x41 => do
      let count ← readU2 isBigEndian
      let items ← repeated count.toNat (readLocalVarTargetEntry isBigEndian)
      pure (.unset, some ⟨count, items⟩)
  | 0x42 => do
      let exceptionTableIndex ← readU2 isBigEndian
      pure (.catchTarget exceptionTableIndex, none)
  | 0x43 | 0x44 | 0x45 | 0x46 => do
      let offset ← readU2 isBigEndian
      pure (.offsetTarget offset, none)
  | 0x47 | 0x48 | 0x49 | 0x4A | 0x4B => do
      let offset ← readU2 isBigEndian
      let typeArgumentIndex ← readU2 isBigEndian
      pure (.typeArgumentTarget offset typeArgumentIndex, none)
  | _ => do
      assertFalse asserts
      pure (.unset, none)

def readTargetPathItem : VectorReads TargetPathItem := do
  let typePathKind ← readU1
  let typeArgumentIndex ← readU1
  pure ⟨typePathKind, typeArgumentIndex⟩

def readTargetPath : VectorReads TargetPath := do
  let length ← readU1
  let items ← repeated length.toNat readTargetPathItem
  pure ⟨length, items⟩

section Lists
variable (depth : ℕ)

def readTypeAnnotation : VectorReads TypeAnnotation := do
  let targetType ← readU1
  let target ← readTargetInfo asserts isBigEndian targetType
  let targetPath ← readTargetPath
  let typeIndex ← readU2 isBigEndian
  let count ← readU2 isBigEndian
  let values ← readAnnotationValues isBigEndian (readElementValue asserts isBigEndian depth) count
  pure ⟨targetType, target.1, target.2, targetPath, typeIndex, count, values⟩

def readAnnotations (count : ℕ) : VectorReads (List Annotation) :=
  repeated count ( readAnnotation isBigEndian (readElementValue asserts isBigEndian depth))

def readParameterAnnotation : VectorReads ParameterAnnotation := do
  let count ← readU2 isBigEndian
  let items ← readAnnotations asserts isBigEndian depth count.toNat
  pure ⟨count, items⟩

/-- `toStringRuntimeAnnotations` up to the text. -/
def readRuntimeAnnotations : VectorReads RuntimeAnnotations := do
  let count ← readU2 isBigEndian
  let items ← readAnnotations asserts isBigEndian depth count.toNat
  pure ⟨count, items⟩

def readRuntimeParameterAnnotations : VectorReads RuntimeParameterAnnotations := do
  let parameterCount ← readU1
  let items ← repeated parameterCount.toNat ( readParameterAnnotation asserts isBigEndian depth)
  pure ⟨parameterCount, items⟩

def readRuntimeTypeAnnotations : VectorReads RuntimeTypeAnnotations := do
  let count ← readU2 isBigEndian
  let items ← repeated count.toNat ( readTypeAnnotation asserts isBigEndian depth)
  pure ⟨count, items⟩

def readAnnotationDefault : VectorReads ElementValue := readElementValue asserts isBigEndian depth

end Lists

end Reads

end Tarracsh.AnnotationsParser
