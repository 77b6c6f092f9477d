import Tarracsh.DescriptorParsers

/-!
# Descriptors read back

The scanner stands between what was read and what is left. At the end of the text it
stands at the last character, and the next character is NUL. A parser that starts in
front of the text of a type returns that type and hands the scanner over behind it.
-/
namespace Tarracsh.DescriptorRoundTrip
open ByteStrings CountedLoops MachineIntegers DescriptorParsers

section Scanner

/-- The scanner in front of `rest`. -/
def standing (before rest : Bytes) : SignatureScanner :=
  ⟨before ++ rest, if rest = [] then before.length - 1 else before.length⟩

variable {before rest cs : Bytes} {c : UInt8}

theorem size_standing (h : (before ++ rest).length < 2 ^ 31) :
    (standing before rest).size = (before ++ rest).length := toInt_of_lt h

theorem getNextChar_standing (h : (before ++ c :: cs).length < 2 ^ 31) :
    (standing before (c :: cs)).getNextChar = (cs.headD 0, standing (before ++ [c]) cs) := by
  have hsize := size_standing h
  have hposition : (standing before (c :: cs)).position = before.length := rfl
  unfold SignatureScanner.getNextChar
  rw [hsize, hposition]
  cases cs with
  | nil =>
      rw [if_pos (by simp)]
      simp [standing]
  | cons d cs =>
      rw [if_neg (by simp)]
      have hnat : ((before.length : ℤ) + 1).toNat = before.length + 1 := by omega
      simp [standing, SignatureScanner.charAt, hnat]

theorem getNextChar_end (h : before.length < 2 ^ 31) :
    (standing before []).getNextChar = (0, standing before []) := by
  have hsize : (standing before []).size = before.length := by
    rw [size_standing (by simpa using h), List.append_nil]
  have hposition : (standing before []).position = before.length - 1 := rfl
  unfold SignatureScanner.getNextChar
  rw [hsize, hposition, if_pos (by omega)]

theorem step_eq (s : SignatureScanner) : s.step = s.getNextChar.2 := by
  unfold SignatureScanner.step SignatureScanner.getNextChar
  split_ifs <;> rfl

theorem currentChar_standing (h : (before ++ c :: cs).length < 2 ^ 31) :
    (standing before (c :: cs)).currentChar = .returned c := by
  have hsize := size_standing h
  have hposition : (standing before (c :: cs)).position = before.length := rfl
  have hlength : (before ++ c :: cs).length = before.length + (cs.length + 1) := by simp
  unfold SignatureScanner.currentChar
  rw [hsize, hposition, hlength, if_neg (by omega), if_neg (by omega)]
  simp [standing, SignatureScanner.charAt]

theorem getNextChar_scanner {text : Bytes} (h : text.length < 2 ^ 31) :
    (scanner text).getNextChar = (text.headD 0, standing [] text) := by
  have hsize : (scanner text).size = text.length := toInt_of_lt h
  have hposition : (scanner text).position = -1 := rfl
  unfold SignatureScanner.getNextChar
  rw [hsize, hposition]
  cases text with
  | nil => rfl
  | cons c cs =>
      rw [if_neg (by simp)]
      rfl

end Scanner

section Images

inductive BaseType where
  | byte | char | double | float | int | long | short | boolean
  deriving DecidableEq, Repr

def BaseType.letter : BaseType → UInt8
  | .byte => 0x42
  | .char => 0x43
  | .double => 0x44
  | .float => 0x46
  | .int => 0x49
  | .long => 0x4A
  | .short => 0x53
  | .boolean => 0x5A

def BaseType.name : BaseType → Bytes
  | .byte => ascii "byte"
  | .char => ascii "char"
  | .double => ascii "double"
  | .float => ascii "float"
  | .int => ascii "int"
  | .long => ascii "long"
  | .short => ascii "short"
  | .boolean => ascii "boolean"

/-- A class name as it stands in a descriptor. -/
structure ClassName where
  name : Bytes
  ne_nil : name ≠ []
  notMem : 0x3B ∉ name

inductive Element where
  | base (b : BaseType)
  | classType (c : ClassName)

structure TypeImage where
  dimensions : ℕ
  element : Element
  dimensions_le : dimensions ≤ 255

inductive ReturnImage where
  | void
  | type (t : TypeImage)

/-- The name with `.` in the place of `/`. -/
def dotted (name : Bytes) : Bytes := name.map fun c => if c = 0x2F then 0x2E else c

def Element.encode : Element → Bytes
  | .base b => [b.letter]
  | .classType c => 0x4C :: c.name ++ [0x3B]

def Element.name : Element → Bytes
  | .base b => b.name
  | .classType c => dotted c.name

def Element.isClass : Element → Bool
  | .base _ => false
  | .classType _ => true

def TypeImage.encode (t : TypeImage) : Bytes :=
  List.replicate t.dimensions 0x5B ++ t.element.encode

def TypeImage.descriptor (t : TypeImage) : Descriptor where
  isArray := t.dimensions ≠ 0
  isClass := t.element.isClass
  dimensions := t.dimensions
  type := t.element.name

def ReturnImage.encode : ReturnImage → Bytes
  | .void => [0x56]
  | .type t => t.encode

def ReturnImage.descriptor : ReturnImage → Descriptor
  | .void => { type := ascii "void" }
  | .type t => t.descriptor

def methodText (arguments : List TypeImage) (returnType : ReturnImage) : Bytes :=
  [0x28] ++ arguments.flatMap TypeImage.encode ++ [0x29] ++ returnType.encode

end Images

section Types
variable {before more : Bytes} {turns : ℕ} {d : Descriptor}

theorem getFQClassname_standing {c : UInt8} {cs : Bytes}
    (hlength : (before ++ c :: cs).length < 2 ^ 31) :
    getFQClassname (turns + 1) (standing before (c :: cs)) d =
      if cs.headD 0 = 0x3B then .returned (standing (before ++ [c]) cs, d)
      else getFQClassname turns (standing (before ++ [c]) cs)
        { d with type := d.type ++ dotted [cs.headD 0] } := by
  rw [getFQClassname, getNextChar_standing hlength]
  rfl

theorem getFQClassname_name {name : Bytes} (c : UInt8) (hname : 0x3B ∉ name)
    (hlength : (before ++ c :: (name ++ 0x3B :: more)).length < 2 ^ 31)
    (hturns : name.length < turns) :
    getFQClassname turns (standing before (c :: (name ++ 0x3B :: more))) d =
      .returned (standing (before ++ c :: name) (0x3B :: more),
        { d with type := d.type ++ dotted name }) := by
  obtain ⟨turns, rfl⟩ : ∃ n, turns = n + 1 := Nat.exists_eq_add_one_of_ne_zero (by omega)
  rw [getFQClassname_standing hlength]
  induction name generalizing before c turns d with
  | nil => simp [dotted]
  | cons e name ih =>
      have he : e ≠ 0x3B := fun h => hname (h ▸ List.mem_cons_self)
      have hlength' : (before ++ [c] ++ e :: (name ++ 0x3B :: more)).length < 2 ^ 31 := by
        simpa using hlength
      obtain ⟨turns, rfl⟩ : ∃ n, turns = n + 1 :=
        Nat.exists_eq_add_one_of_ne_zero (by simp at hturns; omega)
      have hrest := ih (d := { d with type := d.type ++ dotted [e] }) e
        (fun h => hname (List.mem_cons_of_mem _ h)) hlength' turns (by simpa using hturns)
      rw [List.cons_append, List.headD_cons, if_neg he, getFQClassname_standing hlength', hrest]
      simp [dotted]

theorem parseFrom_full {character : UInt8} {s : SignatureScanner} (h : d.type ≠ []) :
    parseFrom (turns + 1) character s d = .returned (s, d) := by
  rw [parseFrom, if_neg (fun hc => h hc.2.1)]

/-- One turn of the loop at a character that is not its end. -/
theorem parseFrom_standing {c : UInt8} {cs : Bytes} (hd : d.type = []) (hc : c ≠ 0)
    (hend : c ≠ 0x29) :
    parseFrom (turns + 1) c (standing before (c :: cs)) d =
      parseChar turns c (standing before (c :: cs)) d >>= fun result =>
        parseFrom turns result.1.getNextChar.1 result.1.getNextChar.2 result.2 := by
  rw [parseFrom, if_pos ⟨hc, hd, hend⟩]

theorem BaseType.letter_spec (b : BaseType) :
    b.letter ≠ 0 ∧ b.letter ≠ 0x29 ∧ b.letter ≠ 0x5B ∧ b.letter ≠ 0x4C ∧
      isSkipped b.letter = false ∧ baseType b.letter = some b.name ∧ b.name ≠ [] := by
  cases b <;> decide

theorem ClassName.dotted_ne_nil (c : ClassName) : dotted c.name ≠ [] := by
  unfold dotted
  simpa using c.ne_nil

theorem parseFrom_base (b : BaseType) (hd : d.type = [])
    (hlength : (before ++ b.letter :: more).length < 2 ^ 31) (hturns : 1 < turns) :
    parseFrom turns b.letter (standing before (b.letter :: more)) d =
      .returned (standing (before ++ [b.letter]) more, { d with type := b.name }) := by
  obtain ⟨hc, hend, harray, hclass, hskipped, hname, hne⟩ := b.letter_spec
  obtain ⟨turns, rfl⟩ : ∃ n, turns = n + 2 := ⟨turns - 2, by omega⟩
  have hchar : parseChar (turns + 1) b.letter (standing before (b.letter :: more)) d =
      .returned (standing before (b.letter :: more), { d with type := b.name }) := by
    rw [parseChar, if_neg harray, if_neg hclass, hskipped, hname]
    rfl
  rw [parseFrom_standing hd hc hend, hchar, Progress.returned_bind,
    getNextChar_standing hlength, parseFrom_full hne]

theorem parseFrom_class (c : ClassName) (hd : d.type = [])
    (hlength : (before ++ 0x4C :: (c.name ++ 0x3B :: more)).length < 2 ^ 31)
    (hturns : c.name.length + 1 < turns) :
    parseFrom turns 0x4C (standing before (0x4C :: (c.name ++ 0x3B :: more))) d =
      .returned (standing (before ++ 0x4C :: c.name ++ [0x3B]) more,
        { d with isClass := true, type := dotted c.name }) := by
  obtain ⟨turns, rfl⟩ : ∃ n, turns = n + 2 := ⟨turns - 2, by omega⟩
  have hnext : (before ++ 0x4C :: c.name ++ 0x3B :: more).length < 2 ^ 31 := by
    simpa using hlength
  have hchar : parseChar (turns + 1) 0x4C (standing before (0x4C :: (c.name ++ 0x3B :: more))) d =
      .returned (standing (before ++ 0x4C :: c.name) (0x3B :: more),
        { d with isClass := true, type := dotted c.name }) := by
    rw [parseChar, if_neg (by decide), if_pos rfl,
      getFQClassname_name 0x4C c.notMem hlength (by omega)]
    simp [hd]
  rw [parseFrom_standing hd (by decide) (by decide), hchar, Progress.returned_bind,
    getNextChar_standing hnext, parseFrom_full c.dotted_ne_nil]

/-- The loop in front of an element type that no array bracket precedes. -/
theorem parseFrom_element (e : Element) (hd : d.type = [])
    (hlength : (before ++ (e.encode ++ more)).length < 2 ^ 31)
    (hturns : e.encode.length < turns) :
    parseFrom turns ((e.encode ++ more).headD 0) (standing before (e.encode ++ more)) d =
      .returned (standing (before ++ e.encode) more,
        { d with isClass := d.isClass || e.isClass, type := e.name }) := by
  cases e with
  | base b =>
      have h := parseFrom_base b hd hlength (by simpa [Element.encode] using hturns)
      simpa [Element.encode, Element.isClass, Element.name] using h
  | classType c =>
      have hlength' : (before ++ 0x4C :: (c.name ++ 0x3B :: more)).length < 2 ^ 31 := by
        simpa [Element.encode] using hlength
      have hturns' : c.name.length + 1 < turns := by
        simp [Element.encode] at hturns
        omega
      have h := parseFrom_class c hd hlength' hturns'
      simpa [Element.encode, Element.isClass, Element.name] using h

/-- The loop in front of a type. Each bracket adds a dimension and the rest is read as
before. -/
theorem parseFrom_type (n : ℕ) (e : Element) (hd : d.type = [])
    (hlength : (before ++ (List.replicate n 0x5B ++ e.encode ++ more)).length < 2 ^ 31)
    (hturns : n + e.encode.length < turns) :
    parseFrom turns ((List.replicate n 0x5B ++ e.encode ++ more).headD 0)
        (standing before (List.replicate n 0x5B ++ e.encode ++ more)) d =
      .returned (standing (before ++ (List.replicate n 0x5B ++ e.encode)) more,
        { d with
          isArray := d.isArray || decide (n ≠ 0)
          isClass := d.isClass || e.isClass
          dimensions := d.dimensions + n
          type := e.name }) := by
  induction n generalizing before d turns with
  | zero =>
      have hlength' : (before ++ (e.encode ++ more)).length < 2 ^ 31 := by simpa using hlength
      simpa using parseFrom_element e hd hlength' (by simpa using hturns)
  | succ n ih =>
      obtain ⟨turns, rfl⟩ : ∃ k, turns = k + 1 := ⟨turns - 1, by omega⟩
      have hlength' : (before ++ 0x5B :: (List.replicate n 0x5B ++ e.encode ++ more)).length <
          2 ^ 31 := by
        simpa [List.replicate_succ] using hlength
      have hnext : (before ++ [0x5B] ++ (List.replicate n 0x5B ++ e.encode ++ more)).length <
          2 ^ 31 := by
        simpa using hlength'
      have hleft : n + e.encode.length < turns := by omega
      have hrest := ih (d := { d with isArray := true, dimensions := d.dimensions + 1 }) hd
        hnext hleft
      have hchar : parseChar turns 0x5B
          (standing before (0x5B :: (List.replicate n 0x5B ++ e.encode ++ more))) d =
          .returned (standing before (0x5B :: (List.replicate n 0x5B ++ e.encode ++ more)),
            { d with isArray := true, dimensions := d.dimensions + 1 }) := rfl
      rw [List.replicate_succ, List.cons_append, List.cons_append, List.headD_cons,
        parseFrom_standing hd (by decide) (by decide), hchar, Progress.returned_bind,
        getNextChar_standing hlength', hrest]
      simp [Nat.add_comm, Nat.add_left_comm]

theorem TypeImage.encode_ne_nil (t : TypeImage) : t.encode ≠ [] := by
  intro h
  have helement : t.element.encode = [] := (List.append_eq_nil_iff.1 h).2
  revert helement
  cases t.element <;> simp [Element.encode]

theorem ReturnImage.encode_ne_nil (t : ReturnImage) : t.encode ≠ [] := by
  cases t with
  | void => simp [ReturnImage.encode]
  | type t => exact t.encode_ne_nil

theorem currentChar_of_ne_nil {text : Bytes} (h : text ≠ [])
    (hlength : (before ++ text).length < 2 ^ 31) :
    (standing before text).currentChar = .returned (text.headD 0) := by
  cases text with
  | nil => exact absurd rfl h
  | cons c cs => exact currentChar_standing hlength

theorem parseDescriptor_type (t : TypeImage)
    (hlength : (before ++ (t.encode ++ more)).length < 2 ^ 31) (hturns : t.encode.length < turns) :
    parseDescriptor turns (standing before (t.encode ++ more)) =
      .returned (standing (before ++ t.encode) more, t.descriptor) := by
  have hne : t.encode ++ more ≠ [] := fun h => t.encode_ne_nil (List.append_eq_nil_iff.1 h).1
  have hturns' : t.dimensions + t.element.encode.length < turns := by
    simpa [TypeImage.encode] using hturns
  have h := parseFrom_type (d := {}) t.dimensions t.element rfl hlength hturns'
  rw [parseDescriptor, currentChar_of_ne_nil hne hlength, Progress.returned_bind]
  simpa [TypeImage.descriptor, TypeImage.encode] using h

theorem parseFrom_void (hd : d.type = []) (hlength : (before ++ 0x56 :: more).length < 2 ^ 31)
    (hturns : 1 < turns) :
    parseFrom turns 0x56 (standing before (0x56 :: more)) d =
      .returned (standing (before ++ [0x56]) more, { d with type := ascii "void" }) := by
  obtain ⟨turns, rfl⟩ : ∃ n, turns = n + 2 := ⟨turns - 2, by omega⟩
  have hchar : parseChar (turns + 1) 0x56 (standing before (0x56 :: more)) d =
      .returned (standing before (0x56 :: more), { d with type := ascii "void" }) := rfl
  rw [parseFrom_standing hd (by decide) (by decide), hchar, Progress.returned_bind,
    getNextChar_standing hlength, parseFrom_full (by simp; decide)]

theorem parseDescriptor_return (t : ReturnImage)
    (hlength : (before ++ (t.encode ++ more)).length < 2 ^ 31) (hturns : t.encode.length < turns) :
    parseDescriptor turns (standing before (t.encode ++ more)) =
      .returned (standing (before ++ t.encode) more, t.descriptor) := by
  cases t with
  | void =>
      rw [parseDescriptor, currentChar_of_ne_nil (by simp [ReturnImage.encode]) hlength,
        Progress.returned_bind]
      exact parseFrom_void rfl hlength hturns
  | type t => exact parseDescriptor_type t hlength hturns

end Types

section Methods
variable {before more : Bytes} {turns : ℕ}

theorem Element.encode_head (e : Element) : ∃ c cs, e.encode = c :: cs ∧ c ≠ 0x29 := by
  cases e with
  | base b => exact ⟨b.letter, [], rfl, b.letter_spec.2.1⟩
  | classType c => exact ⟨0x4C, c.name ++ [0x3B], rfl, by decide⟩

theorem TypeImage.encode_head (t : TypeImage) : ∃ c cs, t.encode = c :: cs ∧ c ≠ 0x29 := by
  rcases t with ⟨n, e, _⟩
  cases n with
  | zero => exact e.encode_head
  | succ n => exact ⟨0x5B, _, rfl, by decide⟩

/-- The loop over the arguments. The scanner is handed over in front of the next one, and
in the end in front of the closing parenthesis. -/
theorem parseParametersFrom_types (types : List TypeImage) (found : List Descriptor)
    (hlength : (before ++ (types.flatMap TypeImage.encode ++ 0x29 :: more)).length < 2 ^ 31)
    (hturns : (types.flatMap TypeImage.encode).length + 1 < turns) :
    parseParametersFrom turns (standing before (types.flatMap TypeImage.encode ++ 0x29 :: more))
        found =
      .returned (standing (before ++ types.flatMap TypeImage.encode) (0x29 :: more),
        found ++ types.map TypeImage.descriptor) := by
  induction types generalizing before found turns with
  | nil =>
      obtain ⟨turns, rfl⟩ : ∃ n, turns = n + 1 := ⟨turns - 1, by omega⟩
      rw [parseParametersFrom]
      simp only [List.flatMap_nil, List.nil_append] at hlength ⊢
      rw [currentChar_standing hlength]
      simp
  | cons t types ih =>
      obtain ⟨turns, rfl⟩ : ∃ n, turns = n + 1 := ⟨turns - 1, by omega⟩
      obtain ⟨c, cs, hcs, hc⟩ := t.encode_head
      have hpos : 0 < t.encode.length := List.length_pos_of_ne_nil t.encode_ne_nil
      simp only [List.flatMap_cons, List.append_assoc, List.length_append] at hturns ⊢
      have hall : (before ++ (t.encode ++ (types.flatMap TypeImage.encode ++ 0x29 :: more))).length
          < 2 ^ 31 := by
        simpa using hlength
      have hnext : (before ++ t.encode ++ (types.flatMap TypeImage.encode ++ 0x29 :: more)).length
          < 2 ^ 31 := by
        simpa using hlength
      have hturns' : t.encode.length < turns := by omega
      have hleft : (types.flatMap TypeImage.encode).length + 1 < turns := by omega
      have hhead : (t.encode ++ (types.flatMap TypeImage.encode ++ 0x29 :: more)).headD 0 = c := by
        rw [hcs]
        rfl
      rw [parseParametersFrom, currentChar_of_ne_nil (by simp) hall, hhead, Progress.returned_bind,
        if_pos hc, parseDescriptor_type t hall hturns', Progress.returned_bind]
      simpa using ih (found ++ [t.descriptor]) hnext hleft

theorem parseParameters_types (types : List TypeImage) (c : UInt8)
    (hlength : (before ++ c :: (types.flatMap TypeImage.encode ++ 0x29 :: more)).length < 2 ^ 31)
    (hturns : (types.flatMap TypeImage.encode).length + 1 < turns) :
    parseParameters turns
        (standing before (c :: (types.flatMap TypeImage.encode ++ 0x29 :: more))) {} =
      .returned (standing (before ++ [c] ++ types.flatMap TypeImage.encode) (0x29 :: more),
        { arguments := types.map TypeImage.descriptor }) := by
  have hnext : (before ++ [c] ++ (types.flatMap TypeImage.encode ++ 0x29 :: more)).length <
      2 ^ 31 := by
    simpa using hlength
  rw [parseParameters, step_eq, getNextChar_standing hlength,
    parseParametersFrom_types types [] hnext hturns]
  rfl

theorem parseReturnType_return (t : ReturnImage) (c : UInt8) (m : MethodDescriptor)
    (hlength : (before ++ c :: (t.encode ++ more)).length < 2 ^ 31)
    (hturns : t.encode.length < turns) :
    parseReturnType turns (standing before (c :: (t.encode ++ more))) m =
      .returned (standing (before ++ [c] ++ t.encode) more,
        { m with returnType := t.descriptor }) := by
  have hnext : (before ++ [c] ++ (t.encode ++ more)).length < 2 ^ 31 := by
    simpa using hlength
  rw [parseReturnType, step_eq, getNextChar_standing hlength,
    parseDescriptor_return t hnext hturns]
  rfl

/-- A method descriptor is read back as its arguments and its return type. -/
theorem methodDescriptorParser_methodText (arguments : List TypeImage) (returnType : ReturnImage)
    (hlength : (methodText arguments returnType).length < 2 ^ 31)
    (hturns : (methodText arguments returnType).length < turns) :
    methodDescriptorParser turns (methodText arguments returnType) =
      .returned ⟨arguments.map TypeImage.descriptor, returnType.descriptor⟩ := by
  have htext : methodText arguments returnType =
      0x28 :: (arguments.flatMap TypeImage.encode ++ 0x29 :: (returnType.encode ++ [])) := by
    simp [methodText]
  have hsize : (arguments.flatMap TypeImage.encode).length + returnType.encode.length + 2 =
      (methodText arguments returnType).length := by
    simp [methodText]
    omega
  obtain ⟨turns, rfl⟩ : ∃ n, turns = n + 2 := ⟨turns - 2, by omega⟩
  have hreturn : ([] ++ [0x28] ++ arguments.flatMap TypeImage.encode ++
      0x29 :: (returnType.encode ++ [])).length < 2 ^ 31 := by
    simpa [methodText] using hlength
  have hend : ([] ++ [0x28] ++ arguments.flatMap TypeImage.encode ++ [0x29] ++
      returnType.encode).length < 2 ^ 31 := by
    simpa [methodText] using hlength
  have hparameters : (arguments.flatMap TypeImage.encode).length + 1 < turns + 1 := by
    have := List.length_pos_of_ne_nil returnType.encode_ne_nil
    omega
  rw [htext] at hlength ⊢
  rw [methodDescriptorParser, getNextChar_scanner hlength]
  simp only [List.headD_cons]
  rw [parseMethodFrom, if_neg (by decide), if_pos rfl,
    parseParameters_types arguments 0x28 hlength hparameters, Progress.returned_bind]
  simp only
  rw [parseReturnType_return returnType 0x29 _ hreturn (by omega), Progress.returned_bind]
  simp only
  rw [getNextChar_end hend, parseMethodFrom, if_pos rfl]

/-- A field descriptor is read back as its type. -/
theorem descriptorParser_encode (t : TypeImage) (hlength : t.encode.length < 2 ^ 31)
    (hturns : t.encode.length < turns) :
    descriptorParser turns t.encode = .returned t.descriptor := by
  have hstart : (scanner t.encode).step = standing [] (t.encode ++ []) := by
    rw [step_eq, getNextChar_scanner hlength, List.append_nil]
  have hlength' : ([] ++ (t.encode ++ [])).length < 2 ^ 31 := by simpa using hlength
  rw [descriptorParser, hstart, parseDescriptor_type t hlength' hturns]
  rfl

/-- Descriptors read back, whatever the types are and however many turns the loops are
given beyond the length of the text. -/
theorem descriptors_read_back (arguments : List TypeImage) (returnType : ReturnImage)
    (field : TypeImage) (hmethod : (methodText arguments returnType).length < 2 ^ 31)
    (hfield : field.encode.length < 2 ^ 31) :
    (∀ turns > (methodText arguments returnType).length,
      methodDescriptorParser turns (methodText arguments returnType) =
        .returned ⟨arguments.map TypeImage.descriptor, returnType.descriptor⟩) ∧
    ∀ turns > field.encode.length,
      descriptorParser turns field.encode = .returned field.descriptor :=
  ⟨fun _ hturns => methodDescriptorParser_methodText arguments returnType hmethod hturns,
    fun _ hturns => descriptorParser_encode field hfield hturns⟩

def intType : TypeImage := ⟨0, .base .int, by decide⟩

def stringArrays : TypeImage :=
  ⟨2, .classType ⟨ascii "java/lang/String", by decide, by decide⟩, by decide⟩

/-- `(I[[Ljava/lang/String;)V` and the field descriptor `[[Ljava/lang/String;`. -/
theorem stringArrays_read_back :
    methodText [intType, stringArrays] .void = ascii "(I[[Ljava/lang/String;)V" ∧
    (∀ turns > (methodText [intType, stringArrays] .void).length,
      methodDescriptorParser turns (methodText [intType, stringArrays] .void) =
        .returned ⟨[{ type := ascii "int" },
          ⟨true, true, 2, ascii "java.lang.String"⟩], { type := ascii "void" }⟩) ∧
    ∀ turns > stringArrays.encode.length,
      descriptorParser turns stringArrays.encode =
        .returned ⟨true, true, 2, ascii "java.lang.String"⟩ :=
  ⟨by decide +kernel,
    descriptors_read_back [intType, stringArrays] .void stringArrays (by decide) (by decide)⟩

end Methods

end Tarracsh.DescriptorRoundTrip
