import Tarracsh.AnnotationsParser
import Tarracsh.ClassFileFormat

/-!
# The annotation attributes of the format

The bodies of the annotation attributes as the virtual machine specifies them, with
their encoding and the structure of the parser that each stands for. A count is kept
with a function on that many positions, so every image can be encoded. The index of
a type argument is one byte wide.
-/
namespace Tarracsh.AnnotationFormat
open ByteStrings ClassFileFormat AnnotationsParser

inductive ConstantTag where
  | byte | char | double | float | int | long | short | boolean | string
  deriving DecidableEq, Repr

def ConstantTag.toByte : ConstantTag → UInt8
  | .byte => 0x42
  | .char => 0x43
  | .double => 0x44
  | .float => 0x46
  | .int => 0x49
  | .long => 0x4A
  | .short => 0x53
  | .boolean => 0x5A
  | .string => 0x73

inductive ElementValueImage where
  | constant (tag : ConstantTag) (constValueIndex : UInt16)
  | enumConst (typeNameIndex constNameIndex : UInt16)
  | classInfo (classInfoIndex : UInt16)
  | nested (typeIndex count : UInt16) (names : Fin count.toNat → UInt16)
      (values : Fin count.toNat → ElementValueImage)
  | array (count : UInt16) (values : Fin count.toNat → ElementValueImage)

structure AnnotationImage where
  typeIndex : UInt16
  count : UInt16
  names : Fin count.toNat → UInt16
  values : Fin count.toNat → ElementValueImage

structure ParameterImage where
  count : UInt16
  items : Fin count.toNat → AnnotationImage

/-- The target of a type annotation. The first argument distinguishes the target types
that share a layout. -/
inductive TargetImage where
  | typeParameter (kind : Fin 2) (typeParameterIndex : UInt8)
  | supertype (supertypeIndex : UInt16)
  | typeParameterBound (kind : Fin 2) (typeParameterIndex boundIndex : UInt8)
  | empty (kind : Fin 3)
  | formalParameter (formalParameterIndex : UInt8)
  | throws (throwsTypeIndex : UInt16)
  | localVar (kind : Fin 2) (tableLength : UInt16)
      (table : Fin tableLength.toNat → LocalVarTargetEntry)
  | exceptionTable (exceptionTableIndex : UInt16)
  | offset (kind : Fin 4) (offset : UInt16)
  | typeArgument (kind : Fin 5) (offset : UInt16) (typeArgumentIndex : UInt8)

structure TypeAnnotationImage where
  target : TargetImage
  pathLength : UInt8
  path : Fin pathLength.toNat → TargetPathItem
  contents : AnnotationImage

/-- The body of an annotation attribute, visible or not. -/
inductive AttributeBody where
  | annotations (count : UInt16) (items : Fin count.toNat → AnnotationImage)
  | parameterAnnotations (parameterCount : UInt8)
      (items : Fin parameterCount.toNat → ParameterImage)
  | typeAnnotations (count : UInt16) (items : Fin count.toNat → TypeAnnotationImage)
  | annotationDefault (value : ElementValueImage)

def TargetImage.targetType : TargetImage → UInt8
  | .typeParameter kind _ => 0x00 + UInt8.ofNat kind
  | .supertype _ => 0x10
  | .typeParameterBound kind _ _ => 0x11 + UInt8.ofNat kind
  | .empty kind => 0x13 + UInt8.ofNat kind
  | .formalParameter _ => 0x16
  | .throws _ => 0x17
  | .localVar kind _ _ => 0x40 + UInt8.ofNat kind
  | .exceptionTable _ => 0x42
  | .offset kind _ => 0x43 + UInt8.ofNat kind
  | .typeArgument kind _ _ => 0x47 + UInt8.ofNat kind

def TargetImage.IsTypeArgument : TargetImage → Prop
  | .typeArgument _ _ _ => True
  | _ => False

/-- No annotation of the attribute targets a type argument. -/
def AttributeBody.NoTypeArgument : AttributeBody → Prop
  | .typeAnnotations _ items => ∀ i, ¬(items i).target.IsTypeArgument
  | _ => True

section Encoding
variable (isBigEndian : Bool)

def pairsBytes {n : ℕ} (names : Fin n → UInt16) (values : Fin n → Bytes) : Bytes :=
  (List.finRange n).flatMap fun i => u2Bytes isBigEndian (names i) ++ values i

def annotationBytes (typeIndex count : UInt16) (names : Fin count.toNat → UInt16)
    (values : Fin count.toNat → Bytes) : Bytes :=
  u2Bytes isBigEndian typeIndex ++
    (u2Bytes isBigEndian count ++ pairsBytes isBigEndian names values)

def ElementValueImage.encode : ElementValueImage → Bytes
  | .constant tag constValueIndex => tag.toByte :: u2Bytes isBigEndian constValueIndex
  | .enumConst typeNameIndex constNameIndex =>
      0x65 :: (u2Bytes isBigEndian typeNameIndex ++ u2Bytes isBigEndian constNameIndex)
  | .classInfo classInfoIndex => 0x63 :: u2Bytes isBigEndian classInfoIndex
  | .nested typeIndex count names values =>
      0x40 :: annotationBytes isBigEndian typeIndex count names fun i => (values i).encode
  | .array count values =>
      0x5B :: (u2Bytes isBigEndian count ++
        (List.finRange count.toNat).flatMap fun i => (values i).encode)

def AnnotationImage.encode (a : AnnotationImage) : Bytes :=
  annotationBytes isBigEndian a.typeIndex a.count a.names fun i => (a.values i).encode isBigEndian

def ParameterImage.encode (p : ParameterImage) : Bytes :=
  u2Bytes isBigEndian p.count ++
    (List.finRange p.count.toNat).flatMap fun i => (p.items i).encode isBigEndian

def entryBytes (e : LocalVarTargetEntry) : Bytes :=
  u2Bytes isBigEndian e.startPC ++ (u2Bytes isBigEndian e.length ++ u2Bytes isBigEndian e.index)

section Target
variable (indexBytes : UInt8 → Bytes)

/-- The bytes after the target type, with a given encoding of the index of a type
argument. -/
def TargetImage.encodeWith : TargetImage → Bytes
  | .typeParameter _ typeParameterIndex => [typeParameterIndex]
  | .supertype supertypeIndex => u2Bytes isBigEndian supertypeIndex
  | .typeParameterBound _ typeParameterIndex boundIndex => [typeParameterIndex, boundIndex]
  | .empty _ => []
  | .formalParameter formalParameterIndex => [formalParameterIndex]
  | .throws throwsTypeIndex => u2Bytes isBigEndian throwsTypeIndex
  | .localVar _ tableLength table =>
      u2Bytes isBigEndian tableLength ++
        (List.finRange tableLength.toNat).flatMap fun i => entryBytes isBigEndian (table i)
  | .exceptionTable exceptionTableIndex => u2Bytes isBigEndian exceptionTableIndex
  | .offset _ codeOffset => u2Bytes isBigEndian codeOffset
  | .typeArgument _ codeOffset typeArgumentIndex =>
      u2Bytes isBigEndian codeOffset ++ indexBytes typeArgumentIndex

def pathBytes {n : ℕ} (path : Fin n → TargetPathItem) : Bytes :=
  (List.finRange n).flatMap fun i => [(path i).typePathKind, (path i).typeArgumentIndex]

def TypeAnnotationImage.encodeWith (t : TypeAnnotationImage) : Bytes :=
  [t.target.targetType] ++ (t.target.encodeWith isBigEndian indexBytes ++
    (([t.pathLength] ++ pathBytes t.path) ++ t.contents.encode isBigEndian))

def typeAnnotationsBytes (count : UInt16) (items : Fin count.toNat → TypeAnnotationImage) :
    Bytes :=
  u2Bytes isBigEndian count ++
    (List.finRange count.toNat).flatMap fun i => (items i).encodeWith isBigEndian indexBytes

end Target

def AttributeBody.encode : AttributeBody → Bytes
  | .annotations count items =>
      u2Bytes isBigEndian count ++
        (List.finRange count.toNat).flatMap fun i => (items i).encode isBigEndian
  | .parameterAnnotations parameterCount items =>
      parameterCount :: (List.finRange parameterCount.toNat).flatMap fun i =>
        (items i).encode isBigEndian
  | .typeAnnotations count items =>
      typeAnnotationsBytes isBigEndian (fun index => [index]) count items
  | .annotationDefault value => value.encode isBigEndian

end Encoding

section Structures

def pairs {n : ℕ} (names : Fin n → UInt16) (values : Fin n → ElementValue) :
    List AnnotationValuePair :=
  (List.finRange n).map fun i => ⟨names i, values i⟩

/-- The structure an element value stands for. -/
def ElementValueImage.toElementValue : ElementValueImage → ElementValue
  | .constant tag constValueIndex => ⟨tag.toByte, { constValueIndex := constValueIndex }⟩
  | .enumConst typeNameIndex constNameIndex =>
      ⟨0x65, { enumConstValue := ⟨typeNameIndex, constNameIndex⟩ }⟩
  | .classInfo classInfoIndex => ⟨0x63, { classInfoIndex := classInfoIndex }⟩
  | .nested typeIndex count names values =>
      let childAnnotation := ⟨typeIndex, count, pairs names fun i => (values i).toElementValue⟩
      ⟨0x40, { annotationValue := some childAnnotation }⟩
  | .array count values =>
      let children := (List.finRange count.toNat).map fun i => (values i).toElementValue
      ⟨0x5B, { arrayValues := ⟨count, children⟩ }⟩

def AnnotationImage.decoded (a : AnnotationImage) : Annotation :=
  ⟨a.typeIndex, a.count, pairs a.names fun i => (a.values i).toElementValue⟩

def ParameterImage.decoded (p : ParameterImage) : ParameterAnnotation :=
  ⟨p.count, (List.finRange p.count.toNat).map fun i => (p.items i).decoded⟩

def TargetImage.toTargetInfo : TargetImage → TargetInfo × Option LocalVarTarget
  | .typeParameter _ typeParameterIndex => (.typeParameterTarget typeParameterIndex, none)
  | .supertype supertypeIndex => (.supertypeTarget supertypeIndex, none)
  | .typeParameterBound _ typeParameterIndex boundIndex =>
      (.typeParameterBoundTarget typeParameterIndex boundIndex, none)
  | .empty _ => (.unset, none)
  | .formalParameter formalParameterIndex => (.formalParameterTarget formalParameterIndex, none)
  | .throws throwsTypeIndex => (.throwsTarget throwsTypeIndex, none)
  | .localVar _ tableLength table =>
      (.unset, some ⟨tableLength, (List.finRange tableLength.toNat).map table⟩)
  | .exceptionTable exceptionTableIndex => (.catchTarget exceptionTableIndex, none)
  | .offset _ codeOffset => (.offsetTarget codeOffset, none)
  | .typeArgument _ codeOffset typeArgumentIndex =>
      (.typeArgumentTarget codeOffset typeArgumentIndex.toUInt16, none)

def TypeAnnotationImage.decoded (t : TypeAnnotationImage) : TypeAnnotation where
  targetType := t.target.targetType
  targetInfo := t.target.toTargetInfo.1
  localVarTarget := t.target.toTargetInfo.2
  targetPath := ⟨t.pathLength, (List.finRange t.pathLength.toNat).map t.path⟩
  typeIndex := t.contents.typeIndex
  count := t.contents.count
  values := t.contents.decoded.values

end Structures

end Tarracsh.AnnotationFormat
