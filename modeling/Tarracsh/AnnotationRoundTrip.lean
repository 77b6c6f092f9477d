import Tarracsh.AnnotationFormat
import Mathlib.Tactic.FinCases

/-!
# Reading annotation attributes back

Read functions that return an image use up exactly its encoding, so they compose
along the format. The parser takes the index of a type argument to be two bytes wide.
It therefore returns what was encoded exactly when no annotation targets a type
argument: what a read function returns determines the bytes it has used, and the
bytes it would have to use for such an annotation are more than were encoded.
-/
namespace Tarracsh.AnnotationRoundTrip
open ByteStrings QueryTrees StreamReads ClassFileReader ClassFileFormat AnnotationsParser
  AnnotationFormat VectorReader

section Consumption
variable (asserts isBigEndian : Bool)

theorem consumes_readU1 (v : UInt8) : Consumes id readU1 [v] v := fun _ => rfl

theorem consumes_readU2 (v : UInt16) :
    Consumes id (readU2 isBigEndian) (u2Bytes isBigEndian v) v := by
  have hanswer : Consumes id (readU2 isBigEndian) (u2Bytes isBigEndian v)
      (toU2 isBigEndian (u2Bytes isBigEndian v)) :=
    Consumes.answer (wordBytes_length isBigEndian 2 v.toNat) _
  unfold u2Bytes at hanswer
  rwa [toU2_wordBytes] at hanswer

section Nested
variable {read : VectorReads ElementValue} {n : ℕ} {names : Fin n → UInt16}
  {bytes : Fin n → Bytes} {values : Fin n → ElementValue}

theorem consumes_pairs (h : ∀ i, Consumes id read (bytes i) (values i)) :
    Consumes id (repeated n (readAnnotationValuePair isBigEndian read))
      (pairsBytes isBigEndian names bytes) (pairs names values) :=
  Consumes.repeatedFin fun i => (consumes_readU2 isBigEndian (names i)).bind ((h i).map _)

theorem consumes_readAnnotation {typeIndex count : UInt16} {names : Fin count.toNat → UInt16}
    {bytes : Fin count.toNat → Bytes} {values : Fin count.toNat → ElementValue}
    (h : ∀ i, Consumes id read (bytes i) (values i)) :
    Consumes id ( readAnnotation isBigEndian read)
      (annotationBytes isBigEndian typeIndex count names bytes)
      ⟨typeIndex, count, pairs names values⟩ :=
  (consumes_readU2 isBigEndian typeIndex).bind
    ((consumes_readU2 isBigEndian count).bind ((consumes_pairs isBigEndian h).map _))

end Nested

theorem length_le_flatMap {n : ℕ} (code : Fin n → Bytes) (i : Fin n) :
    (code i).length ≤ ((List.finRange n).flatMap code).length := by
  rw [List.flatMap_def]
  exact (List.sublist_flatten_of_mem (List.mem_map_of_mem (List.mem_finRange i))).length_le

theorem length_le_pairsBytes {n : ℕ} (names : Fin n → UInt16) (bytes : Fin n → Bytes) (i : Fin n) :
    (bytes i).length ≤ (pairsBytes isBigEndian names bytes).length := by
  have hpair := length_le_flatMap (fun i => u2Bytes isBigEndian (names i) ++ bytes i) i
  rw [List.length_append] at hpair
  exact (Nat.le_add_left _ _).trans hpair

theorem consumes_tagged {depth : ℕ} {tag : UInt8} {bytes : Bytes} {value : Value}
    (hdepth : (tag :: bytes).length ≤ depth)
    (h : Consumes id
      (readValue asserts isBigEndian (readElementValue asserts isBigEndian (depth - 1)) tag)
      bytes value) :
    Consumes id (readElementValue asserts isBigEndian depth) (tag :: bytes) ⟨tag, value⟩ := by
  cases depth with
  | zero => exact absurd hdepth (by simp)
  | succ depth => exact (consumes_readU1 tag).bind (h.map _)

/-- A depth of as many calls as there are bytes is enough. -/
theorem consumes_readElementValue (x : ElementValueImage) {depth : ℕ}
    (hdepth : (x.encode isBigEndian).length ≤ depth) :
    Consumes id (readElementValue asserts isBigEndian depth) (x.encode isBigEndian)
      x.toElementValue := by
  induction x generalizing depth with
  | constant tag constValueIndex =>
      refine consumes_tagged asserts isBigEndian hdepth ?_
      cases tag <;> exact (consumes_readU2 isBigEndian constValueIndex).map _
  | enumConst typeNameIndex constNameIndex =>
      refine consumes_tagged asserts isBigEndian hdepth ?_
      exact (consumes_readU2 isBigEndian typeNameIndex).bind
        ((consumes_readU2 isBigEndian constNameIndex).map _)
  | classInfo classInfoIndex =>
      refine consumes_tagged asserts isBigEndian hdepth ?_
      exact (consumes_readU2 isBigEndian classInfoIndex).map _
  | nested typeIndex count names values ih =>
      refine consumes_tagged asserts isBigEndian hdepth ?_
      have hvalues : ∀ i, Consumes id (readElementValue asserts isBigEndian (depth - 1))
          ((values i).encode isBigEndian) (values i).toElementValue := by
        intro i
        have hle := length_le_pairsBytes isBigEndian names
          (fun i => (values i).encode isBigEndian) i
        simp only [ElementValueImage.encode, annotationBytes, List.length_cons,
          List.length_append] at hdepth
        exact ih i (by omega)
      exact ( consumes_readAnnotation isBigEndian hvalues).map _
  | array count values ih =>
      refine consumes_tagged asserts isBigEndian hdepth ?_
      have hvalues : ∀ i, Consumes id (readElementValue asserts isBigEndian (depth - 1))
          ((values i).encode isBigEndian) (values i).toElementValue := by
        intro i
        have hle := length_le_flatMap (fun i => (values i).encode isBigEndian) i
        simp only [ElementValueImage.encode, List.length_cons, List.length_append] at hdepth
        exact ih i (by omega)
      exact (consumes_readU2 isBigEndian count).bind ((Consumes.repeatedFin hvalues).map _)

theorem AnnotationImage.consumes (a : AnnotationImage) {depth : ℕ}
    (hdepth : (a.encode isBigEndian).length ≤ depth) :
    Consumes id ( readAnnotation isBigEndian (readElementValue asserts isBigEndian depth))
      (a.encode isBigEndian) a.decoded := by
  refine consumes_readAnnotation isBigEndian fun i => ?_
  have hle := length_le_pairsBytes isBigEndian a.names
    (fun i => (a.values i).encode isBigEndian) i
  unfold AnnotationImage.encode annotationBytes at hdepth
  simp only [List.length_append] at hdepth
  exact consumes_readElementValue asserts isBigEndian (a.values i) (by omega)

theorem consumes_readAnnotations {n depth : ℕ} (items : Fin n → AnnotationImage)
    (hdepth : ((List.finRange n).flatMap fun i => (items i).encode isBigEndian).length ≤ depth) :
    Consumes id (readAnnotations asserts isBigEndian depth n)
      ((List.finRange n).flatMap fun i => (items i).encode isBigEndian)
      ((List.finRange n).map fun i => (items i).decoded) := by
  refine Consumes.repeatedFin fun i => ?_
  have hle := length_le_flatMap (fun i => (items i).encode isBigEndian) i
  exact AnnotationImage.consumes asserts isBigEndian (items i) (hle.trans hdepth)

theorem consumes_readParameterAnnotation {depth : ℕ} (p : ParameterImage)
    (hdepth : (p.encode isBigEndian).length ≤ depth) :
    Consumes id ( readParameterAnnotation asserts isBigEndian depth) (p.encode isBigEndian)
      p.decoded := by
  refine (consumes_readU2 isBigEndian p.count).bind (Consumes.map ?_ _)
  unfold ParameterImage.encode at hdepth
  rw [List.length_append] at hdepth
  exact consumes_readAnnotations asserts isBigEndian p.items (by omega)

/-- The index of a type argument as the parser reads it. -/
def wideIndex (index : UInt8) : Bytes := u2Bytes isBigEndian index.toUInt16

theorem consumes_readTargetInfo (target : TargetImage) :
    Consumes id (readTargetInfo asserts isBigEndian target.targetType)
      (target.encodeWith isBigEndian (wideIndex isBigEndian)) target.toTargetInfo := by
  cases target with
  | typeParameter kind typeParameterIndex =>
      fin_cases kind <;> exact (consumes_readU1 typeParameterIndex).map _
  | supertype supertypeIndex => exact (consumes_readU2 isBigEndian supertypeIndex).map _
  | typeParameterBound kind typeParameterIndex boundIndex =>
      have hread := fun f : UInt8 → TargetInfo × Option LocalVarTarget =>
        (consumes_readU1 boundIndex).map f
      fin_cases kind <;> exact (consumes_readU1 typeParameterIndex).bind (hread _)
  | empty kind => fin_cases kind <;> exact Consumes.pure _
  | formalParameter formalParameterIndex => exact (consumes_readU1 formalParameterIndex).map _
  | throws throwsTypeIndex => exact (consumes_readU2 isBigEndian throwsTypeIndex).map _
  | localVar kind tableLength table =>
      have hentry : ∀ i, Consumes id (readLocalVarTargetEntry isBigEndian)
          (entryBytes isBigEndian (table i)) (table i) := fun i =>
        (consumes_readU2 isBigEndian _).bind
          ((consumes_readU2 isBigEndian _).bind ((consumes_readU2 isBigEndian _).map _))
      have hitems := Consumes.repeatedFin hentry
      fin_cases kind <;> exact (consumes_readU2 isBigEndian tableLength).bind (hitems.map _)
  | exceptionTable exceptionTableIndex =>
      exact (consumes_readU2 isBigEndian exceptionTableIndex).map _
  | offset kind codeOffset =>
      fin_cases kind <;> exact (consumes_readU2 isBigEndian codeOffset).map _
  | typeArgument kind codeOffset typeArgumentIndex =>
      fin_cases kind <;> exact (consumes_readU2 isBigEndian codeOffset).bind
        ((consumes_readU2 isBigEndian typeArgumentIndex.toUInt16).map _)

theorem consumes_readTypeAnnotation {depth : ℕ} (t : TypeAnnotationImage)
    (hdepth : (t.contents.encode isBigEndian).length ≤ depth) :
    Consumes id ( readTypeAnnotation asserts isBigEndian depth)
      (t.encodeWith isBigEndian (wideIndex isBigEndian)) t.decoded := by
  have hitem : ∀ i, Consumes id readTargetPathItem
      [(t.path i).typePathKind, (t.path i).typeArgumentIndex] (t.path i) := fun i =>
    (consumes_readU1 (t.path i).typePathKind).bind ((consumes_readU1 _).map _)
  have hpath : Consumes id readTargetPath ([t.pathLength] ++ pathBytes t.path)
      ⟨t.pathLength, (List.finRange t.pathLength.toNat).map t.path⟩ :=
    (consumes_readU1 t.pathLength).bind ((Consumes.repeatedFin hitem).map _)
  have hvalues : ∀ i, Consumes id (readElementValue asserts isBigEndian depth)
      ((t.contents.values i).encode isBigEndian) (t.contents.values i).toElementValue := by
    intro i
    have hle := length_le_pairsBytes isBigEndian t.contents.names
      (fun i => (t.contents.values i).encode isBigEndian) i
    unfold AnnotationImage.encode annotationBytes at hdepth
    simp only [List.length_append] at hdepth
    exact consumes_readElementValue asserts isBigEndian _ (by omega)
  exact (consumes_readU1 t.target.targetType).bind
    ((consumes_readTargetInfo asserts isBigEndian t.target).bind (hpath.bind
      ((consumes_readU2 isBigEndian _).bind ((consumes_readU2 isBigEndian _).bind
        ((consumes_pairs isBigEndian hvalues).map _)))))

theorem consumes_readRuntimeTypeAnnotations {depth : ℕ} {count : UInt16}
    (items : Fin count.toNat → TypeAnnotationImage)
    (hdepth : ∀ i, ((items i).contents.encode isBigEndian).length ≤ depth) :
    Consumes id (readRuntimeTypeAnnotations asserts isBigEndian depth)
      (typeAnnotationsBytes isBigEndian (wideIndex isBigEndian) count items)
      ⟨count, (List.finRange count.toNat).map fun i => (items i).decoded⟩ :=
  (consumes_readU2 isBigEndian count).bind ((Consumes.repeatedFin fun i =>
    consumes_readTypeAnnotation asserts isBigEndian (items i) (hdepth i)).map _)

end Consumption

section Determination
variable (asserts isBigEndian : Bool)

theorem determines_readU1 : Determines id readU1 := by
  refine Determines.answer fun a b ha hb h => ?_
  obtain ⟨x, rfl⟩ := List.length_eq_one_iff.mp ha
  obtain ⟨y, rfl⟩ := List.length_eq_one_iff.mp hb
  exact congrArg (fun z => [z]) h

theorem determines_readU2 : Determines id (readU2 isBigEndian) := by
  refine Determines.answer fun a b ha hb h => ?_
  rw [← wordBytes_toU2 isBigEndian ha, h, wordBytes_toU2 isBigEndian hb]

theorem determines_assertFalse {R : Type} (r : R) :
    Determines id (assertFalse asserts >>= fun _ => pure r : VectorReads R) := by
  cases asserts
  · exact .pure r
  · exact .stuck

section Nested
variable {read : VectorReads ElementValue} (h : Determines id read)
include h

theorem determines_readAnnotationValues (count : UInt16) :
    Determines id (readAnnotationValues isBigEndian read count) := by
  have hpair : Determines id (readAnnotationValuePair isBigEndian read) :=
    (determines_readU2 isBigEndian).bind AnnotationValuePair.nameIndex
      (fun _ => h.map _ AnnotationValuePair.value fun _ => rfl) fun _ => .after fun _ => rfl
  exact hpair.repeated count.toNat

theorem determines_readAnnotation : Determines id ( readAnnotation isBigEndian read) :=
  (determines_readU2 isBigEndian).bind Annotation.typeIndex
    (fun _ => (determines_readU2 isBigEndian).bind Annotation.count
      (fun count => (determines_readAnnotationValues isBigEndian h count).map _ Annotation.values
        fun _ => rfl)
      fun _ => .after fun _ => rfl)
    fun _ => .after fun _ => .after fun _ => rfl

theorem determines_readValue (tag : UInt8) :
    Determines id (readValue asserts isBigEndian read tag) := by
  have hu2 := determines_readU2 isBigEndian
  have hconstant : Determines id (readU2 isBigEndian >>= fun constValueIndex =>
      (pure { constValueIndex := constValueIndex } : VectorReads Value)) :=
    hu2.map _ Value.constValueIndex fun _ => rfl
  unfold readValue
  split
  case h_1 =>
      exact hu2.bind (fun value : Value => value.arrayValues.count)
        (fun count => (h.repeated count.toNat).map _
          (fun value : Value => value.arrayValues.values) fun _ => rfl)
        fun _ => .after fun _ => rfl
  case h_11 => exact hu2.map _ Value.classInfoIndex fun _ => rfl
  case h_12 =>
      refine ( determines_readAnnotation isBigEndian h).map _
        (fun value : Value => value.annotationValue.getD ⟨0, 0, []⟩) fun _ => rfl
  case h_13 =>
      exact hu2.bind (fun value : Value => value.enumConstValue.typeNameIndex)
        (fun _ => hu2.map _ (fun value : Value => value.enumConstValue.constNameIndex)
          fun _ => rfl)
        fun _ => .after fun _ => rfl
  all_goals first
    | exact hconstant
    | exact determines_assertFalse asserts _
    | exact .pure _

end Nested

theorem determines_readElementValue (depth : ℕ) :
    Determines id (readElementValue asserts isBigEndian depth) := by
  induction depth with
  | zero => exact .stuck
  | succ depth ih =>
      exact determines_readU1.bind ElementValue.tag
        (fun tag => (determines_readValue asserts isBigEndian ih tag).map _ ElementValue.value
          fun _ => rfl)
        fun _ => .after fun _ => rfl

theorem determines_readLocalVarTarget : Determines id (do
    let count ← readU2 isBigEndian
    let items ← repeated count.toNat (readLocalVarTargetEntry isBigEndian)
    pure (TargetInfo.unset, some (LocalVarTarget.mk count items))) := by
  have hu2 := determines_readU2 isBigEndian
  have hentry : Determines id (readLocalVarTargetEntry isBigEndian) :=
    hu2.bind LocalVarTargetEntry.startPC
      (fun _ => hu2.bind LocalVarTargetEntry.length
        (fun _ => hu2.map _ LocalVarTargetEntry.index fun _ => rfl) fun _ => .after fun _ => rfl)
      fun _ => .after fun _ => .after fun _ => rfl
  exact hu2.bind (fun target : TargetInfo × Option LocalVarTarget =>
      (target.2.map LocalVarTarget.tableLength).getD 0)
    (fun count => (hentry.repeated count.toNat).map _
      (fun target : TargetInfo × Option LocalVarTarget =>
        (target.2.map LocalVarTarget.items).getD []) fun _ => rfl)
    fun _ => .after fun _ => rfl

/-- The first of the two members of a bound. -/
def firstByte : TargetInfo → UInt8
  | .typeParameterBoundTarget typeParameterIndex _ => typeParameterIndex
  | _ => 0

/-- The first of the two members of a type argument. -/
def firstShort : TargetInfo → UInt16
  | .typeArgumentTarget offset _ => offset
  | _ => 0

theorem determines_readTargetInfo (targetType : UInt8) :
    Determines id (readTargetInfo asserts isBigEndian targetType) := by
  have hu1 := determines_readU1
  have hu2 := determines_readU2 isBigEndian
  have hinjective : ∀ {V : Type} {f : V → TargetInfo}, Function.Injective f →
      Function.Injective fun v => (f v, (none : Option LocalVarTarget)) :=
    fun hf _ _ h => hf (Prod.mk.inj h).1
  have hparameter : Determines id (readU1 >>= fun v =>
      (pure (.typeParameterTarget v, none) : VectorReads (TargetInfo × Option LocalVarTarget))) :=
    hu1.map_injective (hinjective fun _ _ => TargetInfo.typeParameterTarget.inj)
  have hbound : Determines id (readU1 >>= fun v => readU1 >>= fun w =>
      (pure (.typeParameterBoundTarget v w, none) :
        VectorReads (TargetInfo × Option LocalVarTarget))) :=
    hu1.bind (fun target : TargetInfo × Option LocalVarTarget => firstByte target.1)
      (fun _ => hu1.map_injective (hinjective fun _ _ h =>
        (TargetInfo.typeParameterBoundTarget.inj h).2))
      fun _ => .after fun _ => rfl
  have hoffset : Determines id (readU2 isBigEndian >>= fun v =>
      (pure (.offsetTarget v, none) : VectorReads (TargetInfo × Option LocalVarTarget))) :=
    hu2.map_injective (hinjective fun _ _ => TargetInfo.offsetTarget.inj)
  have hargument : Determines id (readU2 isBigEndian >>= fun v => readU2 isBigEndian >>= fun w =>
      (pure (.typeArgumentTarget v w, none) :
        VectorReads (TargetInfo × Option LocalVarTarget))) :=
    hu2.bind (fun target : TargetInfo × Option LocalVarTarget => firstShort target.1)
      (fun _ => hu2.map_injective (hinjective fun _ _ h => (TargetInfo.typeArgumentTarget.inj h).2))
      fun _ => .after fun _ => rfl
  unfold readTargetInfo
  split
  case h_3 => exact hu2.map_injective (hinjective fun _ _ => TargetInfo.supertypeTarget.inj)
  case h_9 => exact hu1.map_injective (hinjective fun _ _ => TargetInfo.formalParameterTarget.inj)
  case h_10 => exact hu2.map_injective (hinjective fun _ _ => TargetInfo.throwsTarget.inj)
  case h_13 => exact hu2.map_injective (hinjective fun _ _ => TargetInfo.catchTarget.inj)
  all_goals first
    | exact hparameter
    | exact hbound
    | exact determines_readLocalVarTarget isBigEndian
    | exact hoffset
    | exact hargument
    | exact determines_assertFalse asserts _
    | exact .pure _

theorem determines_readTypeAnnotation (depth : ℕ) :
    Determines id ( readTypeAnnotation asserts isBigEndian depth) := by
  have hu1 := determines_readU1
  have hu2 := determines_readU2 isBigEndian
  have hitem : Determines id readTargetPathItem :=
    hu1.bind TargetPathItem.typePathKind
      (fun _ => hu1.map _ TargetPathItem.typeArgumentIndex fun _ => rfl)
      fun _ => .after fun _ => rfl
  have hpath : Determines id readTargetPath :=
    hu1.bind TargetPath.length
      (fun length => (hitem.repeated length.toNat).map _ TargetPath.items fun _ => rfl)
      fun _ => .after fun _ => rfl
  have hvalues := fun count => determines_readAnnotationValues isBigEndian
    (determines_readElementValue asserts isBigEndian depth) count
  refine hu1.bind TypeAnnotation.targetType (fun targetType => ?_)
    fun _ => .after fun _ => .after fun _ => .after fun _ => .after fun _ => .after fun _ => rfl
  refine (determines_readTargetInfo asserts isBigEndian targetType).bind
    (fun t : TypeAnnotation => (t.targetInfo, t.localVarTarget)) (fun target => ?_)
    fun _ => .after fun _ => .after fun _ => .after fun _ => .after fun _ => rfl
  refine hpath.bind TypeAnnotation.targetPath (fun targetPath => ?_)
    fun _ => .after fun _ => .after fun _ => .after fun _ => rfl
  refine hu2.bind TypeAnnotation.typeIndex (fun typeIndex => ?_)
    fun _ => .after fun _ => .after fun _ => rfl
  exact hu2.bind TypeAnnotation.count
    (fun count => (hvalues count).map _ TypeAnnotation.values fun _ => rfl)
    fun _ => .after fun _ => rfl

theorem determines_readRuntimeTypeAnnotations (depth : ℕ) :
    Determines id (readRuntimeTypeAnnotations asserts isBigEndian depth) :=
  (determines_readU2 isBigEndian).bind RuntimeTypeAnnotations.count
    (fun count =>
      (( determines_readTypeAnnotation asserts isBigEndian depth).repeated count.toNat).map
        _ RuntimeTypeAnnotations.items fun _ => rfl)
    fun _ => .after fun _ => rfl

end Determination

section Depth
variable (asserts isBigEndian : Bool) {n : ℕ} {read read' : VectorReads ElementValue}

theorem sameUpTo_readAnnotationValues (h : SameUpTo id n read read') (count : UInt16) :
    SameUpTo id n (readAnnotationValues isBigEndian read count)
      (readAnnotationValues isBigEndian read' count) := by
  have hpair : SameUpTo id n (readAnnotationValuePair isBigEndian read)
      (readAnnotationValuePair isBigEndian read') :=
    (SameUpTo.refl n _).bind fun _ => h.bind fun _ => .refl n _
  exact hpair.repeated count.toNat

theorem sameUpTo_readAnnotation (h : SameUpTo id n read read') :
    SameUpTo id n ( readAnnotation isBigEndian read) ( readAnnotation isBigEndian read') :=
  (SameUpTo.refl n _).bind fun _ => (SameUpTo.refl n _).bind fun count =>
    (sameUpTo_readAnnotationValues isBigEndian h count).bind fun _ => .refl n _

theorem sameUpTo_readValue (h : SameUpTo id n read read') (tag : UInt8) :
    SameUpTo id n (readValue asserts isBigEndian read tag)
      (readValue asserts isBigEndian read' tag) := by
  unfold readValue
  split
  case h_1 =>
      exact (SameUpTo.refl n _).bind fun count => (h.repeated count.toNat).bind fun _ => .refl n _
  case h_12 => exact ( sameUpTo_readAnnotation isBigEndian h).bind fun _ => .refl n _
  all_goals exact .refl n _

/-- More calls than there are bytes are never made. -/
theorem sameUpTo_readElementValue {depth : ℕ} (hdepth : n ≤ depth) :
    SameUpTo id n (readElementValue asserts isBigEndian n)
      (readElementValue asserts isBigEndian depth) := by
  induction n generalizing depth with
  | zero =>
      cases depth with
      | zero => exact .refl 0 _
      | succ depth =>
          intro cells hcells
          rw [List.length_eq_zero_iff.mp (Nat.le_zero.mp hcells)]
          rfl
  | succ n ih =>
      cases depth with
      | zero => exact absurd hdepth (by simp)
      | succ depth =>
          intro cells hcells
          cases cells with
          | nil => rfl
          | cons tag cells =>
              have hread := ih (Nat.le_of_succ_le_succ hdepth)
              have hvalue := sameUpTo_readValue asserts isBigEndian hread tag
              exact hvalue.bind (fun value => .refl n (pure (ElementValue.mk tag value))) cells
                (Nat.le_of_succ_le_succ hcells)

end Depth

section RoundTrip
variable (asserts isBigEndian : Bool)

/-- The read functions return the structure that was encoded and leave the reader at
the end of the attribute. -/
def Inverts (x : AttributeBody) : Prop :=
  let bytes := x.encode isBigEndian
  let depth := bytes.length
  match x with
  | .annotations count items =>
      Returns (readRuntimeAnnotations asserts isBigEndian depth) bytes
        ⟨count, (List.finRange count.toNat).map fun i => (items i).decoded⟩
  | .parameterAnnotations parameterCount items =>
      Returns (readRuntimeParameterAnnotations asserts isBigEndian depth) bytes
        ⟨parameterCount,
          (List.finRange parameterCount.toNat).map fun i => (items i).decoded⟩
  | .typeAnnotations count items =>
      Returns (readRuntimeTypeAnnotations asserts isBigEndian depth) bytes
        ⟨count, (List.finRange count.toNat).map fun i => (items i).decoded⟩
  | .annotationDefault value =>
      Returns (readAnnotationDefault asserts isBigEndian depth) bytes value.toElementValue

theorem returns_of_consumes {R : Type} {t : VectorReads R} {bytes : Bytes} {r : R}
    (h : Consumes id t bytes r) : Returns t bytes r ↔ bytes.length < 2 ^ 31 := by
  have hrun := h []
  rw [List.append_nil] at hrun
  rw [returns_iff, and_iff_left hrun]

theorem targetBytes_length (target : TargetImage) :
    (target.encodeWith isBigEndian fun index => [index]).length ≤
        (target.encodeWith isBigEndian (wideIndex isBigEndian)).length ∧
      ((target.encodeWith isBigEndian (wideIndex isBigEndian)).length ≤
        (target.encodeWith isBigEndian fun index => [index]).length ↔ ¬target.IsTypeArgument) := by
  cases target with
  | typeArgument kind codeOffset typeArgumentIndex =>
      simp [TargetImage.encodeWith, TargetImage.IsTypeArgument, wideIndex, u2Bytes]
  | _ => exact ⟨le_rfl, iff_of_true le_rfl id⟩

theorem typeAnnotation_length (t : TypeAnnotationImage) :
    (t.encodeWith isBigEndian fun index => [index]).length ≤
        (t.encodeWith isBigEndian (wideIndex isBigEndian)).length ∧
      ((t.encodeWith isBigEndian (wideIndex isBigEndian)).length ≤
        (t.encodeWith isBigEndian fun index => [index]).length ↔ ¬t.target.IsTypeArgument) := by
  have htarget := targetBytes_length isBigEndian t.target
  simp only [TypeAnnotationImage.encodeWith, List.length_append, Nat.add_le_add_iff_left,
    Nat.add_le_add_iff_right]
  exact htarget

theorem typeAnnotation_encodeWith {t : TypeAnnotationImage} (h : ¬t.target.IsTypeArgument) :
    t.encodeWith isBigEndian (fun index => [index]) =
      t.encodeWith isBigEndian (wideIndex isBigEndian) := by
  have htarget : t.target.encodeWith isBigEndian (fun index => [index]) =
      t.target.encodeWith isBigEndian (wideIndex isBigEndian) := by
    cases hcase : t.target with
    | typeArgument kind codeOffset typeArgumentIndex =>
        rw [hcase] at h
        exact absurd trivial h
    | _ => rfl
  unfold TypeAnnotationImage.encodeWith
  rw [htarget]

theorem flatMap_length {E : Type} {f g : E → Bytes} (h : ∀ x, (f x).length ≤ (g x).length)
    (xs : List E) :
    (xs.flatMap f).length ≤ (xs.flatMap g).length ∧
      ((xs.flatMap g).length ≤ (xs.flatMap f).length ↔ ∀ x ∈ xs, (g x).length ≤ (f x).length) := by
  induction xs with
  | nil => simp
  | cons x xs ih =>
      have hx := h x
      simp only [List.flatMap_cons, List.length_append, List.forall_mem_cons]
      rw [← ih.2]
      omega

/-- The two encodings are the same exactly if no type argument is encoded. -/
theorem typeAnnotationsBytes_eq_iff {count : UInt16}
    {items : Fin count.toNat → TypeAnnotationImage} :
    typeAnnotationsBytes isBigEndian (fun index => [index]) count items =
        typeAnnotationsBytes isBigEndian (wideIndex isBigEndian) count items ↔
      ∀ i, ¬(items i).target.IsTypeArgument := by
  unfold typeAnnotationsBytes
  constructor
  · intro h i
    have hsame := List.append_cancel_left h
    have hlengths := flatMap_length
      (fun i => (typeAnnotation_length isBigEndian (items i)).1) (List.finRange count.toNat)
    have hi := hlengths.2.mp (congrArg List.length hsame).ge i (List.mem_finRange i)
    exact (typeAnnotation_length isBigEndian (items i)).2.mp hi
  · intro h
    refine congrArg (u2Bytes isBigEndian count ++ ·) (congrArg (List.flatMap · _) ?_)
    exact funext fun i => typeAnnotation_encodeWith isBigEndian (h i)

theorem annotation_length_le {count : UInt16} (items : Fin count.toNat → TypeAnnotationImage)
    (i : Fin count.toNat) : ((items i).contents.encode isBigEndian).length ≤
      (typeAnnotationsBytes isBigEndian (fun index => [index]) count items).length := by
  have hitem := length_le_flatMap
    (fun i => (items i).encodeWith isBigEndian fun index => [index]) i
  unfold typeAnnotationsBytes
  simp only [TypeAnnotationImage.encodeWith, List.length_append] at hitem ⊢
  omega

/-- What the parser returns determines the bytes it has used, and for a type argument
these are more than were encoded. -/
theorem returns_typeAnnotations_iff {count : UInt16}
    {items : Fin count.toNat → TypeAnnotationImage} :
    let bytes := typeAnnotationsBytes isBigEndian (fun index => [index]) count items
    Returns (readRuntimeTypeAnnotations asserts isBigEndian bytes.length) bytes
        ⟨count, (List.finRange count.toNat).map fun i => (items i).decoded⟩ ↔
      bytes.length < 2 ^ 31 ∧ ∀ i, ¬(items i).target.IsTypeArgument := by
  intro bytes
  have hwide := consumes_readRuntimeTypeAnnotations asserts isBigEndian items
    (annotation_length_le isBigEndian items) []
  rw [List.append_nil] at hwide
  rw [returns_iff, ← typeAnnotationsBytes_eq_iff]
  refine and_congr_right fun _ => ⟨fun h => ?_, fun h => ?_⟩
  · obtain ⟨used, hused, hused'⟩ :=
      determines_readRuntimeTypeAnnotations asserts isBigEndian bytes.length h hwide
    rw [List.append_nil] at hused hused'
    exact hused.trans hused'.symm
  · exact (congrArg (run (fromList id) _) h).trans hwide

/-- Reading inverts encoding exactly for the attributes below 2 GiB without an
annotation that targets a type argument. -/
theorem inverts_iff (x : AttributeBody) : Inverts asserts isBigEndian x ↔
    (x.encode isBigEndian).length < 2 ^ 31 ∧ x.NoTypeArgument := by
  cases x with
  | annotations count items =>
      refine (returns_of_consumes ?_).trans (and_iff_left trivial).symm
      refine (consumes_readU2 isBigEndian count).bind (Consumes.map ?_ _)
      exact consumes_readAnnotations asserts isBigEndian items (by simp [AttributeBody.encode])
  | parameterAnnotations parameterCount items =>
      refine (returns_of_consumes ?_).trans (and_iff_left trivial).symm
      refine (consumes_readU1 parameterCount).bind ?_
      refine Consumes.map (Consumes.repeatedFin fun i => ?_) _
      have hitem := length_le_flatMap (fun i => (items i).encode isBigEndian) i
      refine consumes_readParameterAnnotation asserts isBigEndian (items i) ?_
      exact hitem.trans (by simp [AttributeBody.encode])
  | typeAnnotations count items => exact returns_typeAnnotations_iff asserts isBigEndian
  | annotationDefault value =>
      refine (returns_of_consumes ?_).trans (and_iff_left trivial).symm
      exact consumes_readElementValue asserts isBigEndian value le_rfl

/-- A cast to a type with one type argument, at offset 16. -/
def castArgument : AttributeBody :=
  .typeAnnotations 1 fun _ =>
    { target := .typeArgument 0 16 1
      pathLength := 0
      path := Fin.elim0
      contents := ⟨5, 0, Fin.elim0, Fin.elim0⟩ }

/-- The path length is taken for a part of the index, and the last count is missing. -/
theorem castArgument_not_read :
    castArgument.encode false = [0, 1, 0x47, 0, 16, 1, 0, 0, 5, 0, 0] ∧
      (∀ asserts, run readRaw (readRuntimeTypeAnnotations asserts false 11)
        ⟨castArgument.encode false, 0⟩ = none) ∧
      ∀ asserts, ¬Inverts asserts false castArgument := by
  have hnone : ∀ asserts, run readRaw (readRuntimeTypeAnnotations asserts false 11)
      ⟨castArgument.encode false, 0⟩ = none := by decide
  refine ⟨by decide, hnone, fun asserts h => ?_⟩
  have hrun : run readRaw (readRuntimeTypeAnnotations asserts false 11)
      ⟨castArgument.encode false, 0⟩ = some _ := h
  rw [hnone] at hrun
  cases hrun

end RoundTrip

end Tarracsh.AnnotationRoundTrip
