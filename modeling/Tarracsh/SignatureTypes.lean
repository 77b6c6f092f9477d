import Tarracsh.SignatureTrees

/-!
# Printed types are read back

Each function for types reads the text of its tree and leaves what stands behind
it. The induction is on the length of the text: the functions are shown to read
their trees when the nested `parseFieldTypeSignature` reads shorter ones.
-/
namespace Tarracsh.SignatureTypes
open ByteStrings DescentRuns SignatureParser SignatureTrees

section Identifiers
variable {input : Bytes}

/-- No character of an identifier ends it. -/
def Undelimited (identifier : Bytes) : Prop := ∀ c ∈ identifier, isDelimiter c = false

instance : DecidablePred Undelimited := fun identifier =>
  List.decidableBAll (fun c => isDelimiter c = false) identifier

theorem parseIdentifierFrom_standing {identifier left : Bytes} {c : UInt8}
    (hid : Undelimited identifier) (hc : isDelimiter c = true)
    (h : identifier ++ c :: left <:+ input) (errors : List String)
    (more : ℕ) (result : Bytes) :
    parseIdentifierFrom input (identifier.length + (more + 1)) result
      (standing input (identifier ++ c :: left) errors) =
      .returned (result ++ identifier) (standing input (c :: left) errors) := by
  induction identifier generalizing result with
  | nil =>
      rw [List.length_nil, Nat.zero_add, parseIdentifierFrom]
      rw [List.nil_append] at h ⊢
      rw [current_bind_cons h, if_pos hc, List.append_nil]
      rfl
  | cons d identifier ih =>
      have hd : isDelimiter d = false := hid d (by simp)
      rw [List.length_cons, show identifier.length + 1 + (more + 1) =
        (identifier.length + (more + 1)) + 1 by omega, parseIdentifierFrom]
      rw [List.cons_append] at h ⊢
      rw [current_bind_cons h, if_neg (by simp [hd]), advance_bind_cons h,
        ih (fun c hc => hid c (by simp [hc])) ((List.suffix_cons _ _).trans h)]
      simp

/-- An identifier is read up to the character that ends it. -/
theorem parseIdentifier_standing {identifier left : Bytes} {c : UInt8}
    (hid : Undelimited identifier) (hc : isDelimiter c = true)
    (h : identifier ++ c :: left <:+ input) (errors : List String) :
    parseIdentifier input (standing input (identifier ++ c :: left) errors) =
      .returned identifier (standing input (c :: left) errors) := by
  have hle := h.length_le
  have hturns : input.length + 1 - (standing input (identifier ++ c :: left) errors).position =
      identifier.length + ((left.length + 1) + 1) := by
    rw [List.length_append, List.length_cons] at hle
    simp only [standing, List.length_append, List.length_cons]
    omega
  rw [parseIdentifier, Run.getPosition_bind, hturns,
    parseIdentifierFrom_standing hid hc h errors (left.length + 1) [], List.nil_append]

end Identifiers

/-- What the parser takes for a signature: identifiers may be empty, and a dollar
separates like a dot. -/
def parserRules : Rules where
  package := Undelimited
  name := Undelimited
  parameter := Undelimited
  separator c := c = code '.' ∨ c = code '$'

/-- The first character of a type that is not primitive. -/
theorem exists_print_reference (r : Reference) :
    ∃ c rest, r.print = c :: rest ∧ (c = code 'L' ∨ c = code 'T' ∨ c = code '[') := by
  cases r with
  | typeVariable identifier => exact ⟨_, _, by rw [Reference.print]; rfl, .inr (.inl rfl)⟩
  | baseArray component => exact ⟨_, _, by rw [Reference.print], .inr (.inr rfl)⟩
  | array component => exact ⟨_, _, by rw [Reference.print], .inr (.inr rfl)⟩
  | classType type =>
      cases type
      exact ⟨_, _, by rw [Reference.print, ClassType.print], .inl rfl⟩

theorem ofLetter_letter (b : BaseType) : BaseType.ofLetter b.letter = some b := by
  cases b <;> rfl

theorem ofLetter_of_reference {c : UInt8} (hc : c = code 'L' ∨ c = code 'T' ∨ c = code '[') :
    BaseType.ofLetter c = none := by
  rcases hc with rfl | rfl | rfl <;> rfl

section Types
variable {input : Bytes} {field : ℕ → Run TypeTree} {bound : ℕ}

/-- The nested parser reads types that are shorter than the bound. -/
def ReadsShorter (input : Bytes) (field : ℕ → Run TypeTree) (bound : ℕ) : Prop :=
  ∀ r : Reference, r.Obeys parserRules → r.print.length < bound → ∀ left,
    r.print ++ left <:+ input → Reads input field r.print r.node left

theorem reads_typeVariable {identifier left : Bytes} (hid : Undelimited identifier)
    (h : (Reference.typeVariable identifier).print ++ left <:+ input) :
    Reads input (fun _ => parseTypeVariableSignature input)
      (Reference.typeVariable identifier).print (Reference.typeVariable identifier).node left := by
  intro errors
  rw [Reference.print, Reference.node] at *
  simp only [List.cons_append, List.append_assoc, List.nil_append] at h ⊢
  have hid' := (List.suffix_cons _ _).trans h
  have hend := (List.suffix_append identifier _).trans hid'
  refine Yields.const fun _ => ?_
  rw [parseTypeVariableSignature, current_bind_cons h, if_neg (by simp), advance_bind_cons h,
    Run.bind_returned (parseIdentifier_standing hid (by decide) hid' errors),
    current_bind_cons hend, if_neg (by simp), advance_bind_cons hend, Run.pure_apply]

theorem reads_type (hfield : ReadsShorter input field bound) {t : JavaType}
    (ht : t.Obeys parserRules) (hbound : t.print.length < bound) {left : Bytes}
    (h : t.print ++ left <:+ input) :
    Reads input (fun m => parseTypeSignature input (field m)) t.print t.node left := by
  intro errors
  cases ht with
  | base b =>
      refine Yields.const fun m => ?_
      change parseTypeSignature input (field m) (standing input (b.letter :: left) errors) = _
      have h : b.letter :: left <:+ input := h
      rw [parseTypeSignature, current_bind_cons h, ofLetter_letter, if_pos Option.isSome_some,
        parseBaseType,
        current_bind_cons h]
      simp only [ofLetter_letter]
      rw [advance_bind_cons h]
      rfl
  | @reference r hr =>
      refine (hfield r hr hbound left h errors).congr fun m => ?_
      obtain ⟨c, rest, hprint, hc⟩ := exists_print_reference r
      change parseTypeSignature input (field m) (standing input (r.print ++ left) errors) = _
      have h : r.print ++ left <:+ input := h
      rw [hprint, List.cons_append] at h ⊢
      rw [parseTypeSignature, current_bind_cons h, ofLetter_of_reference hc]
      rfl

theorem reads_array (hfield : ReadsShorter input field bound) {t : JavaType}
    (ht : t.Obeys parserRules) (hbound : t.print.length < bound) {left : Bytes}
    (h : code '[' :: (t.print ++ left) <:+ input) :
    Reads input (fun m => parseArrayTypeSignature input (field m)) (code '[' :: t.print)
      (.arrayTypeSignature t.node) left := by
  intro errors
  have hread := reads_type hfield ht hbound ((List.suffix_cons _ _).trans h) errors
  refine Yields.congr ?_ fun m => by
    beta_reduce
    rw [List.cons_append, parseArrayTypeSignature, current_bind_cons h, if_neg (by simp),
      advance_bind_cons h]
  exact hread.map _

/-- The first character of a type argument. -/
theorem exists_print_argument (a : Argument) :
    ∃ c rest, a.print = c :: rest ∧ c ≠ code '>' := by
  cases a with
  | any => exact ⟨_, _, by rw [Argument.print], by decide⟩
  | exactly type =>
      obtain ⟨c, rest, hprint, hc⟩ := exists_print_reference type
      refine ⟨c, rest, by rw [Argument.print, hprint], ?_⟩
      rcases hc with rfl | rfl | rfl <;> decide
  | extending b => exact ⟨_, _, by rw [Argument.print], by decide⟩
  | super b => exact ⟨_, _, by rw [Argument.print], by decide⟩

theorem reads_argument (hfield : ReadsShorter input field bound) {a : Argument}
    (ha : a.Obeys parserRules) (hbound : a.print.length < bound) {left : Bytes}
    (h : a.print ++ left <:+ input) :
    Reads input (fun m => parseTypeArgument input (field m)) a.print a.node left := by
  intro errors
  cases ha with
  | any =>
      rw [Argument.print, Argument.node] at *
      have h : code '*' :: left <:+ input := h
      refine Yields.const fun m => ?_
      beta_reduce
      rw [List.singleton_append, parseTypeArgument, current_bind_cons h, if_neg (by decide),
        if_pos rfl, advance_bind_cons h, Run.pure_apply]
  | @exactly r hr =>
      rw [Argument.print, Argument.node] at *
      refine (hfield r hr hbound left h errors).congr fun m => ?_
      obtain ⟨c, rest, hprint, hc⟩ := exists_print_reference r
      have hne : c ≠ code '+' ∧ c ≠ code '*' ∧ c ≠ code '-' := by
        rcases hc with rfl | rfl | rfl <;> decide
      beta_reduce
      rw [hprint, List.cons_append] at h ⊢
      rw [parseTypeArgument, current_bind_cons h, if_neg hne.1, if_neg hne.2.1, if_neg hne.2.2]
  | @extending r hr =>
      rw [Argument.print, Argument.node] at *
      rw [List.cons_append] at h ⊢
      rw [List.length_cons] at hbound
      have hread := hfield r hr (by omega) left ((List.suffix_cons _ _).trans h) errors
      refine Yields.congr ?_ fun m => by
        beta_reduce
        rw [parseTypeArgument, current_bind_cons h, if_pos rfl, advance_bind_cons h]
      exact hread.map _
  | @super r hr =>
      rw [Argument.print, Argument.node] at *
      rw [List.cons_append] at h ⊢
      rw [List.length_cons] at hbound
      have hread := hfield r hr (by omega) left ((List.suffix_cons _ _).trans h) errors
      refine Yields.congr ?_ fun m => by
        beta_reduce
        rw [parseTypeArgument, current_bind_cons h, if_neg (by decide), if_neg (by decide),
          if_pos rfl, advance_bind_cons h]
      exact hread.map _

/-- A printed item is no longer than all of them. -/
theorem length_le_flatMap {τ : Type} {text : τ → Bytes} {ts : List τ} {t : τ} (ht : t ∈ ts) :
    (text t).length ≤ (ts.flatMap text).length := by
  rw [List.flatMap_def]
  exact (List.sublist_flatten_of_mem (List.mem_map_of_mem ht)).length_le

theorem items_arguments (hfield : ReadsShorter input field bound) {as : List Argument}
    (has : ∀ a ∈ as, a.Obeys parserRules) (hbound : (printArguments as).length < bound) :
    Items input (fun c => c ≠ code '>') (fun m => parseTypeArgument input (field m))
      Argument.print Argument.node (fun _ => True) as where
  reads a ha left _ h := by
    rw [printArguments_eq] at hbound
    exact reads_argument hfield (has a ha) ((length_le_flatMap ha).trans_lt hbound) h
  more a _ := by
    obtain ⟨c, rest, hprint, hc⟩ := exists_print_argument a
    exact ⟨c, rest, hprint, by simpa using hc⟩
  follow _ _ _ := trivial

/-- What is printed of type arguments that are there. -/
theorem printBracketed_of_ne_nil {α : Type} {items : List α} (h : items ≠ []) (printed : Bytes) :
    printBracketed items printed = code '<' :: printed ++ [code '>'] := by
  rw [printBracketed, if_neg (by simpa using h)]

theorem printBracketed_append {α : Type} {items : List α} (h : items ≠ []) (printed left : Bytes) :
    printBracketed items printed ++ left = code '<' :: (printed ++ code '>' :: left) := by
  rw [printBracketed_of_ne_nil h]
  simp

theorem reads_arguments (hfield : ReadsShorter input field bound) {as : List Argument}
    (hne : as ≠ []) (has : ∀ a ∈ as, a.Obeys parserRules)
    (hbound : (printArguments as).length < bound) {left : Bytes}
    (h : code '<' :: (printArguments as ++ code '>' :: left) <:+ input) (errors : List String) :
    Yields (fun m => parseTypeArguments input m (field m)
        (standing input (code '<' :: (printArguments as ++ code '>' :: left)) errors))
      (.returned (nodeArguments as) (standing input left errors)) := by
  obtain ⟨a, as, rfl⟩ := List.exists_cons_of_ne_nil hne
  have hitems := items_arguments hfield has hbound
  rw [printArguments, printArguments_eq, List.append_assoc] at h ⊢
  rw [nodeArguments, nodeArguments_eq]
  have harguments := (List.suffix_cons _ _).trans h
  have hrest := (List.suffix_append a.print _).trans harguments
  have hend := (List.suffix_append (as.flatMap Argument.print) _).trans hrest
  have hfirst := hitems.reads a (by simp) _ trivial harguments errors
  have hloop := Reads.repeatWhile hitems.tail trivial hrest (by simp) [a.node] errors
  have hlast : Yields (fun _ => (Run.advance >>= fun _ => pure ([a.node] ++ as.map Argument.node))
      (standing input (code '>' :: left) errors))
      (.returned (a.node :: as.map Argument.node) (standing input left errors)) :=
    Yields.const fun _ => by rw [advance_bind_cons hend]; rfl
  refine Yields.congr ?_ fun m => by
    rw [parseTypeArguments, current_bind_cons h, if_neg (by simp), advance_bind_cons h]
  exact hfirst.bind (hloop.bind hlast)

/-- A qualified name as its first identifier and the parts behind the slashes. -/
theorem exists_parts (packages : List Bytes) (name : Bytes) (hname : Undelimited name)
    (hpackages : ∀ p ∈ packages, Undelimited p) :
    ∃ (first : Bytes) (parts : List Bytes), Undelimited first ∧ (∀ p ∈ parts, Undelimited p) ∧
      printPackages packages ++ name = first ++ parts.flatMap (code '/' :: ·) ∧
      dotted packages name = first ++ (parts.map (code '.' :: ·)).flatten := by
  induction packages with
  | nil => exact ⟨name, [], hname, by simp, by simp [printPackages], by simp [dotted]⟩
  | cons p packages ih =>
      obtain ⟨first, parts, hfirst, hparts, hprint, hdotted⟩ :=
        ih fun p hp => hpackages p (by simp [hp])
      refine ⟨p, first :: parts, hpackages p (by simp), ?_, ?_, ?_⟩
      · intro q hq
        rcases List.mem_cons.mp hq with rfl | hq
        · exact hfirst
        · exact hparts q hq
      · rw [printPackages, List.flatMap_cons, ← printPackages, List.append_assoc,
          List.append_assoc, hprint]
        simp
      · rw [dotted, hdotted]
        simp

/-- The next character ends an identifier. -/
def Delimited (left : Bytes) : Prop := ∃ c rest, left = c :: rest ∧ isDelimiter c = true

theorem items_parts {parts : List Bytes} (hparts : ∀ p ∈ parts, Undelimited p) :
    Items input (fun c => c = code '/') (fun _ => parsePackagePart input) (code '/' :: ·)
      (code '.' :: ·) Delimited parts where
  reads p hp left hleft h errors := by
    obtain ⟨c, rest, rfl, hc⟩ := hleft
    rw [List.cons_append] at h ⊢
    refine Yields.const fun _ => ?_
    beta_reduce
    rw [parsePackagePart, advance_bind_cons h, Run.bind_returned
      (parseIdentifier_standing (hparts p hp) hc ((List.suffix_cons _ _).trans h) errors)]
    rfl
  more p _ := ⟨_, p, rfl, by decide⟩
  follow p _ left := ⟨code '/', p ++ left, rfl, by decide⟩

/-- Behind a class without type arguments. -/
def EndsClass (left : Bytes) : Prop :=
  ∃ c rest, left = c :: rest ∧ (c = code ';' ∨ c = code '.' ∨ c = code '$')

theorem EndsClass.delimited {left : Bytes} (h : EndsClass left) : Delimited left := by
  obtain ⟨c, rest, rfl, hc⟩ := h
  refine ⟨c, rest, rfl, ?_⟩
  rcases hc with rfl | rfl | rfl <;> decide

/-- Type arguments, or what may follow instead of them. -/
theorem delimited_arguments {as : List Argument} {left : Bytes}
    (hleft : as = [] → EndsClass left) :
    Delimited (printBracketed as (printArguments as) ++ left) := by
  by_cases hne : as = []
  · subst hne
    exact (hleft rfl).delimited
  · rw [printBracketed_of_ne_nil hne]
    exact ⟨code '<', _, rfl, by decide⟩

/-- The qualified name of an outer class. -/
theorem reads_name {packages : List Bytes} {name : Bytes} (hname : Undelimited name)
    (hpackages : ∀ p ∈ packages, Undelimited p) {left : Bytes} (hleft : Delimited left)
    (hslash : left.headD 0 ≠ code '/') (h : printPackages packages ++ name ++ left <:+ input) :
    Reads input (fun m => parsePackageAndName input m) (printPackages packages ++ name)
      (dotted packages name) left := by
  intro errors
  obtain ⟨first, parts, hfirst, hparts, hprint, hdotted⟩ :=
    exists_parts packages name hname hpackages
  have hitems : Items input (fun c => c = code '/') (fun _ => parsePackagePart input)
    (code '/' :: ·) (code '.' :: ·) Delimited parts := items_parts hparts
  rw [hprint, List.append_assoc] at h ⊢
  rw [hdotted]
  have hrest := (List.suffix_append first _).trans h
  obtain ⟨c, rest, hc, hdelimiter⟩ := hitems.follow_flatMap hleft
  have hid := hc ▸ parseIdentifier_standing hfirst hdelimiter (hc ▸ h) errors
  have hloop := Reads.repeatWhile hitems hleft hrest (by simpa using hslash) [] errors
  exact (Yields.const fun _ => hid).bind (hloop.map _)

/-- The outer class with its type arguments. -/
theorem reads_outer (hfield : ReadsShorter input field bound) {packages : List Bytes}
    {name : Bytes} {as : List Argument} (hname : Undelimited name)
    (hpackages : ∀ p ∈ packages, Undelimited p) (has : ∀ a ∈ as, a.Obeys parserRules)
    (hbound : (printArguments as).length < bound) {left : Bytes}
    (hleft : as = [] → EndsClass left)
    (h : printPackages packages ++ name ++ (printBracketed as (printArguments as) ++ left) <:+
      input) (errors : List String) :
    Yields (fun m => parsePackageNameAndSimpleClassTypeSignature input m (field m)
        (standing input (printPackages packages ++ name ++
          (printBracketed as (printArguments as) ++ left)) errors))
      (.returned (.simpleClassTypeSignature (dotted packages name) false (nodeArguments as))
        (standing input left errors)) := by
  have hrest := (List.suffix_append (printPackages packages ++ name) _).trans h
  by_cases hne : as = []
  · subst hne
    have hdelimited := (hleft rfl).delimited
    obtain ⟨c, rest, rfl, hc⟩ := hleft rfl
    have hrest : c :: rest <:+ input := hrest
    have hslash : (c :: rest).headD 0 ≠ code '/' := by
      rcases hc with rfl | rfl | rfl <;> simp [code]
    refine (reads_name hname hpackages hdelimited hslash h errors).bind
      (Yields.const fun _ => ?_)
    rw [current_bind_cons hrest]
    rcases hc with rfl | rfl | rfl
    · rfl
    · rfl
    · rfl
  · have hdelimited : Delimited (printBracketed as (printArguments as) ++ left) :=
      delimited_arguments hleft
    rw [printBracketed_append hne] at h hrest hdelimited ⊢
    have harguments := reads_arguments hfield hne has hbound hrest errors
    refine (reads_name hname hpackages hdelimited (by simp [code]) h errors).bind ?_
    refine Yields.congr ?_ fun m => by
      rw [current_bind_cons hrest, if_neg (by decide), if_pos rfl]
    exact harguments.map _

theorem reads_simple (hfield : ReadsShorter input field bound) {name : Bytes}
    {as : List Argument} (hname : Undelimited name) (has : ∀ a ∈ as, a.Obeys parserRules)
    (hbound : (printArguments as).length < bound) {left : Bytes}
    (hleft : as = [] → EndsClass left)
    (h : name ++ (printBracketed as (printArguments as) ++ left) <:+ input) (dollar : Bool)
    (errors : List String) :
    Yields (fun m => parseSimpleClassTypeSignature input m (field m) dollar
        (standing input (name ++ (printBracketed as (printArguments as) ++ left)) errors))
      (.returned (.simpleClassTypeSignature name dollar (nodeArguments as))
        (standing input left errors)) := by
  have hrest := (List.suffix_append name _).trans h
  have hdelimited : Delimited (printBracketed as (printArguments as) ++ left) :=
    delimited_arguments hleft
  obtain ⟨c, rest, hc, hdelimiter⟩ := hdelimited
  have hread := hc ▸ parseIdentifier_standing hname hdelimiter (hc ▸ h) errors
  refine Yields.congr ?_ fun m => by
    rw [parseSimpleClassTypeSignature, Run.bind_returned hread]
  by_cases hne : as = []
  · subst hne
    obtain ⟨d, rest', rfl, hd⟩ := hleft rfl
    have hrest : d :: rest' <:+ input := hrest
    refine Yields.const fun _ => ?_
    change (Run.current input >>= _) (standing input (d :: rest') errors) = _
    rw [current_bind_cons hrest, if_pos hd]
    rfl
  · rw [printBracketed_append hne] at hrest ⊢
    have harguments := reads_arguments hfield hne has hbound hrest errors
    refine Yields.congr ?_ fun m => by
      rw [current_bind_cons hrest, if_neg (by decide), if_pos rfl]
    exact harguments.map _

/-- A printed list is no longer than what stands in the brackets. -/
theorem length_printArguments_le (as : List Argument) :
    (printArguments as).length ≤ (printBracketed as (printArguments as)).length := by
  by_cases hne : as = []
  · subst hne
    rw [printArguments, List.length_nil]
    exact Nat.zero_le _
  · rw [printBracketed_of_ne_nil hne, List.length_append, List.length_cons]
    omega

theorem reads_nested (hfield : ReadsShorter input field bound) {separator : UInt8} {name : Bytes}
    {as : List Argument} (hname : Undelimited name) (has : ∀ a ∈ as, a.Obeys parserRules)
    (hbound : (Nested.mk separator name as).print.length < bound) {left : Bytes}
    (hleft : as = [] → EndsClass left) (h : (Nested.mk separator name as).print ++ left <:+ input) :
    Reads input (fun m => parseNestedClass input m (field m)) (Nested.mk separator name as).print
      (Nested.mk separator name as).node left := by
  intro errors
  have hle := length_printArguments_le as
  rw [Nested.print, List.length_append, List.length_cons] at hbound
  rw [Nested.print, List.append_assoc, List.cons_append] at h ⊢
  rw [Nested.node]
  have hsimple := reads_simple hfield hname has (by omega) hleft ((List.suffix_cons _ _).trans h)
    true errors
  refine hsimple.congr fun m => ?_
  beta_reduce
  rw [parseNestedClass, advance_bind_cons h]

theorem items_nested (hfield : ReadsShorter input field bound) {ns : List Nested}
    (hns : ∀ n ∈ ns, n.Obeys parserRules) (hbound : (printNested ns).length < bound) :
    Items input (fun c => c = code '.' ∨ c = code '$')
      (fun m => parseNestedClass input m (field m)) Nested.print Nested.node EndsClass ns where
  reads n hn left hleft h := by
    rw [printNested_eq] at hbound
    have hlength := (length_le_flatMap hn).trans_lt hbound
    obtain ⟨-, hname, has⟩ := hns n hn
    exact reads_nested hfield hname has hlength (fun _ => hleft) h
  more n hn := by
    obtain ⟨hseparator, -, -⟩ := hns n hn
    exact ⟨_, _, by rw [Nested.print]; rfl, decide_eq_true hseparator⟩
  follow n hn left := by
    obtain ⟨hseparator, -, -⟩ := hns n hn
    exact ⟨_, _, by rw [Nested.print]; rfl, .inr hseparator⟩

theorem reads_classType (hfield : ReadsShorter input field bound) {t : ClassType}
    (ht : t.Obeys parserRules) (hbound : t.print.length ≤ bound) {left : Bytes}
    (h : t.print ++ left <:+ input) :
    Reads input (fun m => parseClassTypeSignature input m (field m)) t.print t.node left := by
  intro errors
  obtain ⟨hpackages, hname, has, hns⟩ := ht
  rename_i packages name as ns
  rw [ClassType.print] at *
  rw [ClassType.node]
  have hlength : (printArguments as).length < bound ∧ (printNested ns).length < bound := by
    have hle := length_printArguments_le as
    simp only [List.length_append, List.length_cons, List.length_nil] at hbound
    exact ⟨by omega, by omega⟩
  simp only [List.cons_append, List.append_assoc, List.nil_append] at h ⊢
  have hitems := items_nested hfield hns hlength.2
  have hends : EndsClass (code ';' :: left) := ⟨_, _, rfl, .inl rfl⟩
  have hnested : EndsClass (printNested ns ++ code ';' :: left) := by
    rw [printNested_eq]
    exact hitems.follow_flatMap hends
  have houter' : printPackages packages ++ name ++ (printBracketed as (printArguments as) ++
      (printNested ns ++ code ';' :: left)) <:+ input := by
    simpa using (List.suffix_cons _ _).trans h
  have houter := reads_outer hfield hname hpackages has hlength.1 (fun _ => hnested) houter'
    errors
  have hsuffix := (List.suffix_append _ _).trans ((List.suffix_append _ _).trans houter')
  have hend := (List.suffix_append _ _).trans hsuffix
  rw [printNested_eq] at h hsuffix houter ⊢
  have hloop := Reads.repeatWhile hitems hends hsuffix (by simp [code])
    [.simpleClassTypeSignature (dotted packages name) false (nodeArguments as)] errors
  refine Yields.congr ?_ fun m => by
    rw [parseClassTypeSignature, current_bind_cons h, if_neg (by simp), advance_bind_cons h]
  rw [← List.append_assoc]
  refine houter.bind (hloop.bind (Yields.const fun _ => ?_))
  rw [current_bind_cons hend, if_neg (by simp), advance_bind_cons hend, nodeNested_eq]
  rfl

section Switch
variable {left : Bytes} {errors : List String} {turns : ℕ} {nested : Run TypeTree}
  {allowArrays : Bool}

theorem parseFieldTypeSignatureWith_class (h : code 'L' :: left <:+ input) :
    parseFieldTypeSignatureWith input turns nested allowArrays
        (standing input (code 'L' :: left) errors) =
      parseClassTypeSignature input turns nested (standing input (code 'L' :: left) errors) := by
  rw [parseFieldTypeSignatureWith, current_bind_cons h, if_pos rfl]

theorem parseFieldTypeSignatureWith_typeVariable (h : code 'T' :: left <:+ input) :
    parseFieldTypeSignatureWith input turns nested allowArrays
        (standing input (code 'T' :: left) errors) =
      parseTypeVariableSignature input (standing input (code 'T' :: left) errors) := by
  rw [parseFieldTypeSignatureWith, current_bind_cons h, if_neg (by decide), if_pos rfl]

theorem parseFieldTypeSignatureWith_array (h : code '[' :: left <:+ input) :
    parseFieldTypeSignatureWith input turns nested true
        (standing input (code '[' :: left) errors) =
      parseArrayTypeSignature input nested (standing input (code '[' :: left) errors) := by
  rw [parseFieldTypeSignatureWith, current_bind_cons h, if_neg (by decide), if_neg (by decide),
    if_pos rfl, if_pos rfl]

end Switch

/-- A type that is not primitive. Where arrays are not allowed, it must not be
one. -/
theorem reads_fieldWith (hfield : ReadsShorter input field bound) {r : Reference}
    (hr : r.Obeys parserRules) (hbound : r.print.length ≤ bound) {allowArrays : Bool}
    (harrays : allowArrays = true ∨ r.print.headD 0 ≠ code '[') {left : Bytes}
    (h : r.print ++ left <:+ input) :
    Reads input (fun m => parseFieldTypeSignatureWith input m (field m) allowArrays) r.print
      r.node left := by
  intro errors
  cases hr with
  | @typeVariable identifier hid =>
      have hread := reads_typeVariable hid h errors
      rw [Reference.print] at h hread ⊢
      exact hread.congr fun m => parseFieldTypeSignatureWith_typeVariable h
  | baseArray component =>
      have hlength : (JavaType.base component).print.length < bound := by
        rw [Reference.print] at hbound
        exact hbound
      rw [Reference.print] at h harrays ⊢
      obtain rfl : allowArrays = true := by simpa using harrays
      have hread := reads_array hfield (.base component) hlength h errors
      rw [Reference.node]
      exact hread.congr fun m => parseFieldTypeSignatureWith_array h
  | @array component hcomponent =>
      rw [Reference.print] at h harrays hbound ⊢
      obtain rfl : allowArrays = true := by simpa using harrays
      have hread := reads_array hfield (.reference hcomponent) hbound h errors
      rw [Reference.node]
      exact hread.congr fun m => parseFieldTypeSignatureWith_array h
  | @classType type htype =>
      rw [Reference.print] at h hbound ⊢
      have hread := reads_classType hfield htype hbound h errors
      obtain ⟨packages, name, as, ns⟩ := type
      rw [ClassType.print] at h hread ⊢
      rw [Reference.node]
      exact hread.congr fun m => parseFieldTypeSignatureWith_class h

end Types

section Fields
variable {input : Bytes}

variable (input) in
/-- By induction on the bound: types of every length are read. -/
theorem readsShorter (bound : ℕ) :
    ReadsShorter input (fun m => parseFieldTypeSignature input m true) bound := by
  induction bound with
  | zero => exact fun r _ hbound => absurd hbound (Nat.not_lt_zero _)
  | succ bound ih =>
      intro r hr hbound left h errors
      exact Yields.succ (reads_fieldWith ih hr (by omega) (.inl rfl) h errors)

theorem reads_field {r : Reference} (hr : r.Obeys parserRules) {allowArrays : Bool}
    (harrays : allowArrays = true ∨ r.print.headD 0 ≠ code '[') {left : Bytes}
    (h : r.print ++ left <:+ input) :
    Reads input (fun m => parseFieldTypeSignature input m allowArrays) r.print r.node left :=
  fun errors => Yields.succ (reads_fieldWith (readsShorter _ _) hr le_rfl harrays h errors)

theorem reads_parseClassType {t : ClassType} (ht : t.Obeys parserRules) {left : Bytes}
    (h : t.print ++ left <:+ input) :
    Reads input (fun m => parseClassType input m) t.print t.node left :=
  reads_classType (readsShorter _ _) ht le_rfl h

theorem reads_parseType {t : JavaType} (ht : t.Obeys parserRules) {left : Bytes}
    (h : t.print ++ left <:+ input) :
    Reads input (fun m => parseType input m) t.print t.node left :=
  reads_type (readsShorter _ _) ht (Nat.lt_succ_self _) h

end Fields

end Tarracsh.SignatureTypes
