import Tarracsh.SignaturePrefixes

/-!
# What the parser makes of a text that may be a type

Every text in front of which a type is asked for starts with a type, breaks off
inside an identifier, or is refused. The induction is on the length of the text.
-/
namespace Tarracsh.SignatureDecisions
open ByteStrings DescentRuns SignatureParser SignatureTrees SignatureTypes SignatureRoundTrip
  SignaturePrefixes

section Texts

/-- A text is an identifier and what ends it, or nothing ends it. -/
theorem exists_identifier (u : Bytes) :
    (∃ name c left, Undelimited name ∧ isDelimiter c = true ∧ u = name ++ c :: left) ∨
      Undelimited u := by
  induction u with
  | nil => exact .inr (by simp [Undelimited])
  | cons c u ih =>
      cases hc : isDelimiter c with
      | true => exact .inl ⟨[], c, u, by simp [Undelimited], hc, rfl⟩
      | false =>
          have hcons : ∀ name, Undelimited name → Undelimited (c :: name) := by
            intro name hname d hd
            rcases List.mem_cons.mp hd with rfl | hd
            · exact hc
            · exact hname d hd
          rcases ih with ⟨name, d, left, hname, hd, rfl⟩ | hu
          · exact .inl ⟨c :: name, d, left, hcons name hname, hd, rfl⟩
          · exact .inr (hcons u hu)

/-- A text is a package, a name and what ends it, or nothing ends the name. -/
theorem exists_packages (u : Bytes) :
    ∃ packages, (∀ p ∈ packages, Undelimited p) ∧
      ((∃ name c left, Undelimited name ∧ isDelimiter c = true ∧ c ≠ code '/' ∧
        u = printPackages packages ++ name ++ c :: left) ∨
      ∃ v, Undelimited v ∧ u = printPackages packages ++ v) := by
  induction hn : u.length using Nat.strong_induction_on generalizing u with
  | _ n ih =>
      rcases exists_identifier u with ⟨name, c, left, hname, hc, rfl⟩ | hu
      · by_cases hslash : c = code '/'
        · subst hslash
          rw [List.length_append, List.length_cons] at hn
          obtain ⟨packages, hpackages, h⟩ := ih left.length (by omega) left rfl
          have hall : ∀ p ∈ name :: packages, Undelimited p := by
            simpa [hname] using hpackages
          refine ⟨name :: packages, hall, ?_⟩
          rcases h with ⟨name', d, left', hname', hd, hne, rfl⟩ | ⟨v, hv, rfl⟩
          · exact .inl ⟨name', d, left', hname', hd, hne, by simp [printPackages]⟩
          · exact .inr ⟨v, hv, by simp [printPackages]⟩
        · exact ⟨[], by simp, .inl ⟨name, c, left, hname, hc, hslash, rfl⟩⟩
      · exact ⟨[], by simp, .inr ⟨u, hu, rfl⟩⟩

theorem exists_cons_of_headD {u : Bytes} {c : UInt8} (h : u.headD 0 = c) (hc : c ≠ 0) :
    ∃ left, u = c :: left := by
  cases u with
  | nil => exact absurd h.symm hc
  | cons d left => exact ⟨left, congrArg (· :: left) h⟩

theorem letter_of_ofLetter {c : UInt8} {b : BaseType} (h : BaseType.ofLetter c = some b) :
    c = b.letter := by
  unfold BaseType.ofLetter at h
  split at h
  all_goals first
    | cases h; rfl
    | cases h

end Texts

/-- The text ends inside an identifier. -/
def cut : Fault where
  reference u := ∃ v, Undelimited v ∧ (u = code 'T' :: v ∨
    ∃ packages, (∀ p ∈ packages, Undelimited p) ∧ u = code 'L' :: (printPackages packages ++ v))
  nested := Undelimited
  formal := Undelimited
  starts u := by
    rintro ⟨v, -, rfl | ⟨packages, -, rfl⟩⟩
    · exact .inr rfl
    · exact .inl rfl

section Cut
variable {input : Bytes}

theorem parseIdentifierFrom_past {u : Bytes} (hu : Undelimited u) (h : u <:+ input)
    (errors : List String) (result : Bytes) :
    parseIdentifierFrom input (u.length + 1) result (standing input u errors) =
      .returned (result ++ u ++ [0]) (past input errors) := by
  induction u generalizing result with
  | nil =>
      rw [List.length_nil, Nat.zero_add, parseIdentifierFrom, current_bind h,
        if_neg (by decide), Run.advance_bind, standing_nil_succ, parseIdentifierFrom]
      simp
  | cons c u ih =>
      have hc : isDelimiter c = false := hu c (by simp)
      rw [List.length_cons, parseIdentifierFrom, current_bind_cons h, if_neg (by simp [hc]),
        advance_bind_cons h, ih (fun d hd => hu d (by simp [hd])) ((List.suffix_cons _ _).trans h)]
      simp

/-- An identifier that nothing ends is read with the NUL, and the cursor is behind
that. -/
theorem parseIdentifier_past {u : Bytes} (hu : Undelimited u) (h : u <:+ input)
    (errors : List String) :
    parseIdentifier input (standing input u errors) = .returned (u ++ [0]) (past input errors) := by
  have hle := h.length_le
  have hturns : input.length + 1 - (standing input u errors).position = u.length + 1 := by
    simp only [standing]
    omega
  rw [parseIdentifier, Run.getPosition_bind, hturns, parseIdentifierFrom_past hu h, List.nil_append]

theorem outside_name {packages : List Bytes} {v : Bytes}
    (hpackages : ∀ p ∈ packages, Undelimited p) (hv : Undelimited v)
    (h : printPackages packages ++ v <:+ input) :
    Fails input (fun m => parsePackageAndName input m) (printPackages packages ++ v) .outside := by
  intro errors
  obtain ⟨first, parts, hfirst, hparts, hprint, -⟩ := exists_parts packages v hv hpackages
  rw [hprint] at h ⊢
  rcases List.eq_nil_or_concat parts with rfl | ⟨init, last, rfl⟩
  · rw [List.flatMap_nil, List.append_nil] at h ⊢
    exact (Yields.const fun _ => parseIdentifier_past hfirst h errors).bind
      (Yields.bind_failure (x := .outside) Loops.past.yields)
  · have hitems : Items input (fun c => c = code '/') (fun _ => parsePackagePart input)
      (code '/' :: ·) (code '.' :: ·) Delimited init :=
      items_parts fun p hp => hparts p (by simp [hp])
    have hlast : Undelimited last := hparts last (by simp)
    have hslash : Delimited (code '/' :: last) := ⟨_, _, rfl, by decide⟩
    rw [List.concat_eq_append, List.flatMap_append, List.flatMap_singleton] at h ⊢
    have hloop := (List.suffix_append _ _).trans h
    have hend := (List.suffix_append _ _).trans hloop
    obtain ⟨c, rest, hc, hdelimiter⟩ := hitems.follow_flatMap hslash
    have hread := hc ▸ parseIdentifier_standing hfirst hdelimiter (hc ▸ h) errors
    have hpart : ∀ _ : ℕ, parsePackagePart input (standing input (code '/' :: last) errors) =
        .returned (code '.' :: (last ++ [0])) (past input errors) := by
      intro _
      rw [parsePackagePart, advance_bind_cons hend, Run.bind_returned
        (parseIdentifier_past hlast ((List.suffix_cons _ _).trans hend) errors), Run.pure_apply]
    refine (Yields.const fun _ => hread).bind (Yields.bind_failure (x := .outside) ?_)
    exact (Loops.items_append hitems hslash hloop
      (Loops.step hend (by simp) (Yields.const hpart) Loops.past)).yields

/-- The parser looks behind the end of a text that ends inside an identifier. -/
theorem cut_breaks : cut.Breaks input (· = .outside) where
  reference := by
    rintro u hu ⟨v, hv, rfl | ⟨packages, hpackages, rfl⟩⟩
    · refine ⟨.outside, rfl, fun errors => Yields.succ (Yields.const fun m => ?_)⟩
      have hread := parseIdentifier_past hv ((List.suffix_cons _ _).trans hu) errors
      rw [Place.run, parseFieldTypeSignature, parseFieldTypeSignatureWith_typeVariable hu,
        parseTypeVariableSignature, current_bind_cons hu, if_neg (by simp), advance_bind_cons hu,
        Run.bind_returned hread, current_bind_past]
      rfl
    · refine ⟨.outside, rfl, fails_outer hu fun errors => ?_⟩
      exact Yields.bind_failure (outside_name hpackages hv ((List.suffix_cons _ _).trans hu) errors)
  nested u hu hv := by
    refine ⟨.outside, rfl, fun errors => Yields.const fun m => ?_⟩
    rw [Place.run, parseSimpleClassTypeSignature,
      Run.bind_returned (parseIdentifier_past hv hu errors), current_bind_past]
    rfl
  formal u hu hv := by
    refine ⟨.outside, rfl, fun errors => Yields.const fun m => ?_⟩
    have hbounds : parseBounds input m (past input errors) = .outside := by
      rw [parseBounds, current_bind_past]
    beta_reduce
    rw [parseFormalTypeParameter, Run.bind_returned (parseIdentifier_past hv hu errors),
      Run.bind_outside hbounds]
    rfl

end Cut

section Types
variable {input u : Bytes} {n : ℕ}

/-- The run throws. -/
abbrev Throws (input : Bytes) {α : Type} (run : ℕ → Run α) (u : Bytes) : Prop :=
  Breaks input (fun x => ∃ message, x = .threw message) run u

theorem throws_of_run {α : Type} {run : ℕ → Run α} (message : Bytes)
    (h : ∀ errors, Yields (fun m => run m (standing input u errors)) (.threw message)) :
    Throws input run u :=
  ⟨.threw message, ⟨message, rfl⟩, h⟩

section Characters
variable {name left : Bytes} {c : UInt8}

theorem throws_typeVariable (hname : Undelimited name) (hc : isDelimiter c = true)
    (hsemicolon : c ≠ code ';') (hu : code 'T' :: (name ++ c :: left) <:+ input) :
    Throws input (Place.reference.run input) (code 'T' :: (name ++ c :: left)) := by
  have hid := (List.suffix_cons _ _).trans hu
  refine throws_of_run (ascii "; expected in signature of type variable named " ++ name)
    fun errors => Yields.succ (Yields.const fun m => ?_)
  rw [Place.run, parseFieldTypeSignature, parseFieldTypeSignatureWith_typeVariable hu,
    parseTypeVariableSignature, current_bind_cons hu, if_neg (by simp), advance_bind_cons hu,
    Run.bind_returned (parseIdentifier_standing hname hc hid errors),
    current_bind_cons ((List.suffix_append _ _).trans hid), if_pos hsemicolon, Run.fail_apply]

theorem throws_nested (hname : Undelimited name) (hc : isDelimiter c = true)
    (hends : ¬(c = code ';' ∨ c = code '.' ∨ c = code '$')) (hlt : c ≠ code '<')
    (hu : name ++ c :: left <:+ input) :
    Throws input (Place.nested.run input) (name ++ c :: left) := by
  refine throws_of_run (ascii "expected '<' or ';' or '.', got '" ++ [c] ++ ascii "'.")
    fun errors => Yields.const fun m => ?_
  rw [Place.run, parseSimpleClassTypeSignature,
    Run.bind_returned (parseIdentifier_standing hname hc hu errors),
    current_bind_cons ((List.suffix_append _ _).trans hu), if_neg hends, if_neg hlt,
    Run.fail_apply]

theorem throws_outer {packages : List Bytes} (hname : Undelimited name)
    (hpackages : ∀ p ∈ packages, Undelimited p) (hc : isDelimiter c = true)
    (hslash : c ≠ code '/') (hends : ¬(c = code ';' ∨ c = code '.' ∨ c = code '$'))
    (hlt : c ≠ code '<')
    (hu : code 'L' :: (printPackages packages ++ name ++ c :: left) <:+ input) :
    Throws input (Place.reference.run input)
      (code 'L' :: (printPackages packages ++ name ++ c :: left)) := by
  have hrest := (List.suffix_cons _ _).trans hu
  have hread := reads_name hname hpackages ⟨c, left, rfl, hc⟩ hslash hrest
  rw [not_or] at hends
  refine ⟨.threw (ascii "expected '<', ';', '.' or '$' but got " ++ [c]), ⟨_, rfl⟩,
    fails_outer hu fun errors => (hread errors).bind (Yields.const fun m => ?_)⟩
  rw [current_bind_cons ((List.suffix_append _ _).trans hrest), if_neg hends.1, if_neg hlt,
    if_neg hends.2]
  rfl

end Characters

/-- What the parser makes of texts up to a length. -/
def Decides (input : Bytes) (n : ℕ) : Prop := ∀ u, u <:+ input → u.length ≤ n →
  (∃ (r : Reference) (left : Bytes), r.Obeys parserRules ∧ u = r.print ++ left) ∨
    Leads cut .reference u ∨ Throws input (Place.reference.run input) u

theorem decides_typeVariable (hu : code 'T' :: u <:+ input) :
    (∃ (r : Reference) (left : Bytes), r.Obeys parserRules ∧ code 'T' :: u = r.print ++ left) ∨
      Leads cut .reference (code 'T' :: u) ∨
      Throws input (Place.reference.run input) (code 'T' :: u) := by
  rcases exists_identifier u with ⟨name, c, left, hname, hc, rfl⟩ | hcut
  · by_cases hsemicolon : c = code ';'
    · subst hsemicolon
      exact .inl ⟨.typeVariable name, left, .typeVariable hname, by simp [Reference.print]⟩
    · exact .inr (.inr (throws_typeVariable hname hc hsemicolon hu))
  · exact .inr (.inl (.reference ⟨u, hcut, .inl rfl⟩))

theorem decides_array (hshorter : Decides input n) (hu : code '[' :: u <:+ input)
    (hlength : u.length ≤ n) :
    (∃ (r : Reference) (left : Bytes), r.Obeys parserRules ∧ code '[' :: u = r.print ++ left) ∨
      Leads cut .reference (code '[' :: u) ∨
      Throws input (Place.reference.run input) (code '[' :: u) := by
  cases hbase : BaseType.ofLetter (u.headD 0) with
  | some b =>
      obtain ⟨left, rfl⟩ := exists_cons_of_headD (letter_of_ofLetter hbase) (by cases b <;> decide)
      exact .inl ⟨.baseArray b, left, .baseArray b, by simp [Reference.print]⟩
  | none =>
      rcases hshorter u ((List.suffix_cons _ _).trans hu) hlength with
        ⟨r, left, hr, rfl⟩ | hleads | ⟨x, hx, hfails⟩
      · exact .inl ⟨.array r, left, .array hr, by simp [Reference.print]⟩
      · exact .inr (.inl (.array hleads))
      · exact .inr (.inr ⟨x, hx, fails_array hu hbase hfails⟩)

theorem decides_argument (hshorter : Decides input n) (hu : u <:+ input)
    (hlength : u.length ≤ n) :
    (∃ (a : Argument) (left : Bytes), a.Obeys parserRules ∧ u = a.print ++ left) ∨
      Leads cut .argument u ∨ Throws input (Place.argument.run input) u := by
  by_cases hne : u.headD 0 ≠ code '+' ∧ u.headD 0 ≠ code '*' ∧ u.headD 0 ≠ code '-'
  · rcases hshorter u hu hlength with ⟨r, left, hr, rfl⟩ | hleads | ⟨x, hx, hfails⟩
    · exact .inl ⟨.exactly r, left, .exactly hr, by rw [Argument.print]⟩
    · exact .inr (.inl (.exactly hleads))
    · exact .inr (.inr ⟨x, hx, fails_exactly hu hne hfails⟩)
  · obtain ⟨c, left, rfl⟩ : ∃ c left, u = c :: left := by
      cases u with
      | nil => exact absurd (by simp [code]) hne
      | cons c left => exact ⟨c, left, rfl⟩
    rw [List.headD_cons] at hne
    by_cases hany : c = code '*'
    · subst hany
      exact .inl ⟨.any, left, .any, by simp [Argument.print]⟩
    · have hc : c = code '+' ∨ c = code '-' := by
        by_contra h
        rw [not_or] at h
        exact hne ⟨h.1, hany, h.2⟩
      rw [List.length_cons] at hlength
      rcases hshorter left ((List.suffix_cons _ _).trans hu) (by omega) with
        ⟨r, left, hr, rfl⟩ | hleads | ⟨x, hx, hfails⟩
      · rcases hc with rfl | rfl
        · exact .inl ⟨.extending r, left, .extending hr, by rw [Argument.print]; rfl⟩
        · exact .inl ⟨.super r, left, .super hr, by rw [Argument.print]; rfl⟩
      · exact .inr (.inl (.wildcard hc hleads))
      · exact .inr (.inr ⟨x, hx, fails_wildcard hc hu hfails⟩)

/-- What is printed of an argument is not empty. -/
theorem argument_print_ne_nil (a : Argument) : a.print ≠ [] := by
  obtain ⟨c, rest, hprint, -⟩ := exists_print_argument a
  rw [hprint]
  exact List.cons_ne_nil c rest

theorem decides_arguments (hshorter : Decides input n) (hu : code '<' :: u <:+ input)
    (hlength : u.length ≤ n) :
    (∃ (as : List Argument) (left : Bytes), as ≠ [] ∧ (∀ a ∈ as, a.Obeys parserRules) ∧
        u = printArguments as ++ code '>' :: left) ∨
      (∃ (as : List Argument) (v : Bytes), (∀ a ∈ as, a.Obeys parserRules) ∧
        u = printArguments as ++ v ∧ Leads cut .argument v) ∨
      Throws input (fun m => parseTypeArguments input m (parseFieldTypeSignature input m true))
        (code '<' :: u) := by
  have hrest := (List.suffix_cons _ _).trans hu
  rcases decides_argument hshorter hrest hlength with ⟨a, v, ha, rfl⟩ | hleads | ⟨x, hx, hfails⟩
  · have hv := (List.suffix_append _ _).trans hrest
    rw [List.length_append] at hlength
    have hitem : ∀ w, w <:+ input → w.length ≤ n → decide (w.headD 0 ≠ code '>') = true →
        (∃ (b : Argument) (left : Bytes), b.Obeys parserRules ∧ w = b.print ++ left ∧ True) ∨
          (Leads cut .argument w ∨ Throws input (Place.argument.run input) w) := by
      intro w hw hle _
      rcases decides_argument hshorter hw hle with ⟨b, left, hb, rfl⟩ | h
      · exact .inl ⟨b, left, hb, rfl, trivial⟩
      · exact .inr h
    obtain ⟨as, left, has, rfl, -, hend⟩ := exists_items (fun c => c ≠ code '>') (fun _ => True)
      hitem (fun b _ => argument_print_ne_nil b) trivial hv (by omega)
    have hall : ∀ b ∈ a :: as, b.Obeys parserRules := by simpa [ha] using has
    have hprint : a.print ++ (as.flatMap Argument.print ++ left) =
        printArguments (a :: as) ++ left := by
      rw [printArguments, printArguments_eq, List.append_assoc]
    rw [hprint] at hu ⊢
    rcases hend with hstop | ⟨hgoes, hleads | ⟨x, hx, hfails⟩⟩
    · have hhead : left.headD 0 = code '>' := by simpa using hstop
      obtain ⟨left, rfl⟩ := exists_cons_of_headD hhead (by decide)
      exact .inl ⟨a :: as, left, List.cons_ne_nil a as, hall, rfl⟩
    · exact .inr (.inl ⟨a :: as, left, hall, rfl, hleads⟩)
    · exact .inr (.inr ⟨x, hx, fails_arguments hall (fun _ => by simpa using hgoes) hfails hu⟩)
  · exact .inr (.inl ⟨[], u, by simp, by rw [printArguments, List.nil_append], hleads⟩)
  · have hnil : printArguments [] ++ u = u := by rw [printArguments, List.nil_append]
    rw [← hnil] at hu ⊢
    exact .inr (.inr ⟨x, hx, fails_arguments (by simp) (fun h => absurd rfl h) hfails hu⟩)

/-- What stands behind the name of a class. -/
theorem decides_tail (hshorter : Decides input n) {c : UInt8} (hu : c :: u <:+ input)
    (hlength : u.length ≤ n) :
    (∃ (as : List Argument) (left : Bytes), (∀ a ∈ as, a.Obeys parserRules) ∧
        (as = [] → EndsClass left) ∧ c :: u = printBracketed as (printArguments as) ++ left) ∨
      (∃ (as : List Argument) (v : Bytes), (∀ a ∈ as, a.Obeys parserRules) ∧
        c :: u = code '<' :: (printArguments as ++ v) ∧ Leads cut .argument v) ∨
      (c = code '<' ∧ Throws input
        (fun m => parseTypeArguments input m (parseFieldTypeSignature input m true)) (c :: u)) ∨
      (c ≠ code ';' ∧ c ≠ code '.' ∧ c ≠ code '$' ∧ c ≠ code '<') := by
  by_cases hlt : c = code '<'
  · subst hlt
    rcases decides_arguments hshorter hu hlength with
      ⟨as, left, hne, has, rfl⟩ | ⟨as, v, has, rfl, hleads⟩ | hthrows
    · exact .inl ⟨as, left, has, fun h => absurd h hne, (printBracketed_append hne _ _).symm⟩
    · exact .inr (.inl ⟨as, v, has, rfl, hleads⟩)
    · exact .inr (.inr (.inl ⟨rfl, hthrows⟩))
  · by_cases hends : c = code ';' ∨ c = code '.' ∨ c = code '$'
    · exact .inl ⟨[], c :: u, by simp, fun _ => ⟨c, u, rfl, hends⟩, rfl⟩
    · rw [not_or, not_or] at hends
      exact .inr (.inr (.inr ⟨hends.1, hends.2.1, hends.2.2, hlt⟩))

theorem decides_nested (hshorter : Decides input n) (hu : u <:+ input) (hlength : u.length ≤ n) :
    (∃ (name : Bytes) (as : List Argument) (left : Bytes), Undelimited name ∧
        (∀ a ∈ as, a.Obeys parserRules) ∧ (as = [] → EndsClass left) ∧
        u = name ++ (printBracketed as (printArguments as) ++ left)) ∨
      Leads cut .nested u ∨ Throws input (Place.nested.run input) u := by
  rcases exists_identifier u with ⟨name, c, v, hname, hc, rfl⟩ | hcut
  · have htail := (List.suffix_append _ _).trans hu
    have hid := fun errors => parseIdentifier_standing hname hc hu errors
    rw [List.length_append, List.length_cons] at hlength
    rcases decides_tail hshorter htail (by omega) with ⟨as, left, has, hends, heq⟩ |
      ⟨as, w, has, heq, hleads⟩ | ⟨rfl, x, hx, hfails⟩ | ⟨hsemicolon, hdot, hdollar, hlt⟩
    · exact .inl ⟨name, as, left, hname, has, hends, by rw [heq]⟩
    · rw [heq]
      exact .inr (.inl (.nestedArgument hname has hleads))
    · refine .inr (.inr ⟨x, hx, fun errors => ?_⟩)
      refine Yields.congr ?_ fun m => by
        rw [Place.run, parseSimpleClassTypeSignature, Run.bind_returned (hid errors),
          current_bind_cons htail, if_neg (by decide), if_pos rfl]
      exact Yields.bind_failure (hfails errors)
    · exact .inr (.inr (throws_nested hname hc (by simp [hsemicolon, hdot, hdollar]) hlt hu))
  · exact .inr (.inl (.nested hcut))

theorem decides_outer (hshorter : Decides input n) (hu : code 'L' :: u <:+ input)
    (hlength : u.length ≤ n) :
    (∃ (packages : List Bytes) (name : Bytes) (as : List Argument) (left : Bytes),
        (∀ p ∈ packages, Undelimited p) ∧ Undelimited name ∧ (∀ a ∈ as, a.Obeys parserRules) ∧
        (as = [] → EndsClass left) ∧ u = printPackages packages ++ name ++
          (printBracketed as (printArguments as) ++ left)) ∨
      Leads cut .reference (code 'L' :: u) ∨
      Throws input (Place.reference.run input) (code 'L' :: u) := by
  have hrest := (List.suffix_cons _ _).trans hu
  obtain ⟨packages, hpackages, ⟨name, c, v, hname, hc, hslash, rfl⟩ | ⟨v, hv, rfl⟩⟩ :=
    exists_packages u
  · have htail := (List.suffix_append _ _).trans hrest
    have hread := reads_name hname hpackages ⟨c, v, rfl, hc⟩ hslash hrest
    rw [List.length_append, List.length_cons] at hlength
    rcases decides_tail hshorter htail (by omega) with ⟨as, left, has, hends, heq⟩ |
      ⟨as, w, has, heq, hleads⟩ | ⟨rfl, x, hx, hfails⟩ | ⟨hsemicolon, hdot, hdollar, hlt⟩
    · exact .inl ⟨packages, name, as, left, hpackages, hname, has, hends, by rw [heq]⟩
    · rw [heq]
      exact .inr (.inl (.outerArgument hpackages hname has hleads))
    · refine .inr (.inr ⟨x, hx, fails_outer hu fun errors => (hread errors).bind ?_⟩)
      refine Yields.congr ?_ fun m => by
        rw [current_bind_cons htail, if_neg (by decide), if_pos rfl]
      exact Yields.bind_failure (hfails errors)
    · exact .inr (.inr (throws_outer hname hpackages hc hslash
        (by simp [hsemicolon, hdot, hdollar]) hlt hu))
  · exact .inr (.inl (.reference ⟨v, hv, .inr ⟨packages, hpackages, rfl⟩⟩))

/-- A path of classes that no semicolon ends. -/
theorem throws_path {packages : List Bytes} {name v left : Bytes} {as : List Argument}
    (hpackages : ∀ p ∈ packages, Undelimited p) (hname : Undelimited name)
    (has : ∀ a ∈ as, a.Obeys parserRules) (hends : as = [] → EndsClass v)
    (hu : code 'L' :: (printPackages packages ++ name ++
      (printBracketed as (printArguments as) ++ v)) <:+ input)
    (hleft : left <:+ input) (hhead : left.headD 0 ≠ code ';')
    (hloop : ∀ errors items, ∃ path, Loops input (fun c => c = code '.' ∨ c = code '$')
      (fun m => parseNestedClass input m (parseFieldTypeSignature input m true)) items
      (standing input v errors) (.returned path (standing input left errors))) :
    Throws input (Place.reference.run input) (code 'L' :: (printPackages packages ++ name ++
      (printBracketed as (printArguments as) ++ v))) := by
  refine throws_of_run (ascii "expected ';' got '" ++ [left.headD 0] ++ ascii "'") fun errors => ?_
  have hread := reads_outer (readsShorter input _) hname hpackages has (Nat.lt_succ_self _) hends
    ((List.suffix_cons _ _).trans hu) errors
  obtain ⟨path, hpath⟩ := hloop errors
    [.simpleClassTypeSignature (dotted packages name) false (nodeArguments as)]
  refine Yields.succ (Yields.congr ?_ fun m => run_class hu m)
  refine hread.bind (hpath.yields.bind (Yields.const fun m => ?_))
  rw [current_bind hleft, if_pos hhead, Run.fail_apply]

theorem headD_of_not_endsClass {left : Bytes} (h : ¬ EndsClass left) :
    left.headD 0 ≠ code ';' ∧ left.headD 0 ≠ code '.' ∧ left.headD 0 ≠ code '$' := by
  cases left with
  | nil => decide
  | cons c left =>
      refine ⟨fun hc => h ⟨c, left, rfl, .inl hc⟩, fun hc => h ⟨c, left, rfl, .inr (.inl hc)⟩,
        fun hc => h ⟨c, left, rfl, .inr (.inr hc)⟩⟩

/-- What may stand in a path instead of one more nested class with the right thing
behind it. -/
inductive EndsPath (input : Bytes) : Bytes → Prop where
  | leads {separator : UInt8} {u : Bytes} : Leads cut .nested u → EndsPath input (separator :: u)
  | throws {separator : UInt8} {u : Bytes} : Throws input (Place.nested.run input) u →
      EndsPath input (separator :: u)
  | unterminated {separator : UInt8} {name : Bytes} {as : List Argument} {left : Bytes} :
      Undelimited name → (∀ a ∈ as, a.Obeys parserRules) → as ≠ [] → ¬ EndsClass left →
      EndsPath input ((Nested.mk separator name as).print ++ left)

theorem separator_of_more {c : UInt8} (h : decide (c = code '.' ∨ c = code '$') = true) :
    c = code '.' ∨ c = code '$' := of_decide_eq_true h

/-- One more nested class, or the end of the path. -/
theorem decides_path (hshorter : Decides input n) (hu : u <:+ input) (hlength : u.length ≤ n)
    (hmore : decide (u.headD 0 = code '.' ∨ u.headD 0 = code '$') = true) :
    (∃ (c : Nested) (left : Bytes), c.Obeys parserRules ∧ u = c.print ++ left ∧ EndsClass left) ∨
      EndsPath input u := by
  have hhead := separator_of_more hmore
  obtain ⟨separator, v, rfl⟩ : ∃ separator v, u = separator :: v := by
    cases u with
    | nil => exact absurd hhead (by decide)
    | cons c v => exact ⟨c, v, rfl⟩
  rw [List.length_cons] at hlength
  rcases decides_nested hshorter ((List.suffix_cons _ _).trans hu) (by omega) with
    ⟨name, as, left, hname, has, hends, rfl⟩ | hleads | hthrows
  · have hprint : separator :: (name ++ (printBracketed as (printArguments as) ++ left)) =
        (Nested.mk separator name as).print ++ left := by
      simp [Nested.print]
    rw [hprint]
    by_cases hleft : EndsClass left
    · exact .inl ⟨.mk separator name as, left, .mk hhead hname has, rfl, hleft⟩
    · exact .inr (.unterminated hname has (fun h => hleft (hends h)) hleft)
  · exact .inr (.leads hleads)
  · exact .inr (.throws hthrows)

theorem decides_class (hshorter : Decides input n) (hu : code 'L' :: u <:+ input)
    (hlength : u.length ≤ n) :
    (∃ (r : Reference) (left : Bytes), r.Obeys parserRules ∧ code 'L' :: u = r.print ++ left) ∨
      Leads cut .reference (code 'L' :: u) ∨
      Throws input (Place.reference.run input) (code 'L' :: u) := by
  rcases decides_outer hshorter hu hlength with
    ⟨packages, name, as, v, hpackages, hname, has, hends, rfl⟩ | h
  · have hv := (List.suffix_append _ _).trans ((List.suffix_append _ _).trans
      ((List.suffix_cons _ _).trans hu))
    simp only [List.length_append] at hlength
    by_cases hv' : EndsClass v
    · have hitem : ∀ w, w <:+ input → w.length ≤ n →
          decide (w.headD 0 = code '.' ∨ w.headD 0 = code '$') = true →
          (∃ (c : Nested) (left : Bytes), c.Obeys parserRules ∧ w = c.print ++ left ∧
            EndsClass left) ∨ EndsPath input w :=
        fun w hw hle hmore => decides_path hshorter hw hle hmore
      have hnonempty : ∀ c : Nested, c.Obeys parserRules → c.print ≠ [] := by
        rintro ⟨separator, name, as⟩ -
        rw [Nested.print]
        simp
      obtain ⟨ns, left, hns, rfl, hleft, hend⟩ := exists_items
        (fun c => c = code '.' ∨ c = code '$') EndsClass hitem hnonempty hv' hv (by omega)
      have hitems := items_nested (readsShorter input _) hns (Nat.lt_succ_self _)
      have ht : (ClassType.mk packages name as ns).Obeys parserRules := .mk hpackages hname has hns
      have hrest := (List.suffix_append _ _).trans hv
      rcases hend with hstop | ⟨hgoes, hother⟩
      · obtain ⟨c, left, rfl, hc⟩ := hleft
        have hsemicolon : c = code ';' := hc.resolve_right (of_decide_eq_false hstop)
        subst hsemicolon
        exact .inl ⟨.classType (.mk packages name as ns), left, .classType ht, by
          simp [Reference.print, ClassType.print, printNested_eq]⟩
      · have hseparator := separator_of_more hgoes
        rw [← printNested_eq] at hu hv hends ⊢
        cases hother with
        | leads hleads => exact .inr (.inl (.suffix ht hseparator hleads))
        | throws hthrows =>
            obtain ⟨x, hx, hfails⟩ := hthrows
            exact .inr (.inr ⟨x, hx, fails_suffix ht hseparator hfails hu⟩)
        | @unterminated separator name' bs left hname' hbs hne hleft' =>
            obtain ⟨hsemicolon, hdot, hdollar⟩ := headD_of_not_endsClass hleft'
            have hleft'' := (List.suffix_append _ _).trans hrest
            have hlast := reads_nested (readsShorter input _) hname' hbs (Nat.lt_succ_self _)
              (fun h => absurd h hne) hrest
            refine .inr (.inr (throws_path hpackages hname has hends hu hleft'' hsemicolon
              fun errors items =>
                ⟨items ++ ns.map Nested.node ++ [(Nested.mk separator name' bs).node], ?_⟩))
            rw [printNested_eq] at hv ⊢
            exact Loops.items_append hitems hleft hv (Loops.step hrest hgoes (hlast errors)
              (Loops.stop hleft'' (decide_eq_false (not_or.mpr ⟨hdot, hdollar⟩))))
    · obtain ⟨hsemicolon, hdot, hdollar⟩ := headD_of_not_endsClass hv'
      exact .inr (.inr (throws_path hpackages hname has hends hu hv hsemicolon
        fun errors items => ⟨items, Loops.stop hv (decide_eq_false (not_or.mpr ⟨hdot, hdollar⟩))⟩))
  · exact .inr h

/-- A type neither starts like a class, a type variable nor an array. -/
theorem throws_other (hu : u <:+ input) (hL : u.headD 0 ≠ code 'L') (hT : u.headD 0 ≠ code 'T')
    (harray : u.headD 0 ≠ code '[') : Throws input (Place.reference.run input) u := by
  refine throws_of_run (ascii "Expected Field Type Signature") fun errors =>
    Yields.succ (Yields.const fun m => ?_)
  rw [Place.run, parseFieldTypeSignature, parseFieldTypeSignatureWith, current_bind hu, if_neg hL,
    if_neg hT, if_neg harray, Run.fail_apply]

/-- By induction on the length of the text. -/
theorem decides (input : Bytes) (n : ℕ) : Decides input n := by
  induction n with
  | zero =>
      intro u hu hlength
      obtain rfl : u = [] := List.eq_nil_of_length_eq_zero (by omega)
      exact .inr (.inr (throws_other hu (by decide) (by decide) (by decide)))
  | succ n ih =>
      intro u hu hlength
      cases u with
      | nil => exact .inr (.inr (throws_other hu (by decide) (by decide) (by decide)))
      | cons c u =>
          rw [List.length_cons] at hlength
          by_cases hL : c = code 'L'
          · subst hL
            exact decides_class ih hu (by omega)
          by_cases hT : c = code 'T'
          · subst hT
            exact decides_typeVariable hu
          by_cases harray : c = code '['
          · subst harray
            exact decides_array ih hu (by omega)
          exact .inr (.inr (throws_other hu hL hT harray))

/-- What the parser makes of a text in front of which a type is asked for. -/
theorem decides_reference (hu : u <:+ input) :
    (∃ (r : Reference) (left : Bytes), r.Obeys parserRules ∧ u = r.print ++ left) ∨
      Leads cut .reference u ∨ Throws input (Place.reference.run input) u :=
  decides input u.length u hu le_rfl

theorem decides_type (hu : u <:+ input) :
    (∃ (t : JavaType) (left : Bytes), t.Obeys parserRules ∧ u = t.print ++ left) ∨
      Leads cut .reference u ∨ Throws input (fun m => parseType input m) u := by
  cases hbase : BaseType.ofLetter (u.headD 0) with
  | some b =>
      obtain ⟨left, rfl⟩ := exists_cons_of_headD (letter_of_ofLetter hbase) (by cases b <;> decide)
      exact .inl ⟨.base b, left, .base b, rfl⟩
  | none =>
      rcases decides_reference hu with ⟨r, left, hr, rfl⟩ | hleads | hthrows
      · exact .inl ⟨.reference r, left, .reference hr, rfl⟩
      · exact .inr (.inl hleads)
      · exact .inr (.inr (hthrows.type hu hbase))

theorem decides_classType (hu : u <:+ input) :
    (∃ (t : ClassType) (left : Bytes), t.Obeys parserRules ∧ u = t.print ++ left) ∨
      (u.headD 0 = code 'L' ∧ Leads cut .reference u) ∨
      Throws input (fun m => parseClassType input m) u := by
  by_cases hL : u.headD 0 = code 'L'
  · rcases decides_reference hu with ⟨r, left, hr, rfl⟩ | hleads | hthrows
    · cases hr with
      | classType ht => exact .inl ⟨_, left, ht, by rw [Reference.print]⟩
      | typeVariable _ =>
          rw [Reference.print] at hL
          exact absurd hL (by simp [code])
      | baseArray b =>
          rw [Reference.print] at hL
          exact absurd hL (by simp [code])
      | array _ =>
          rw [Reference.print] at hL
          exact absurd hL (by simp [code])
    · exact .inr (.inl ⟨hL, hleads⟩)
    · exact .inr (.inr (hthrows.classType hu hL))
  · refine .inr (.inr (throws_of_run (ascii "expected a class type but found '" ++ [u.headD 0] ++
      ascii "' at position " ++ ascii (toString (input.length - u.length)) ++
      ascii " while parsing '" ++ input ++ ascii "'") fun errors => Yields.const fun m => ?_))
    rw [parseClassType, parseClassTypeSignature, current_bind hu, if_pos hL, Run.getPosition_bind,
      Run.fail_apply]
    rfl

theorem decides_thrown (hu : u <:+ input) :
    (∃ (x : Thrown) (left : Bytes), x.reference.Obeys parserRules ∧
        u = x.reference.print ++ left) ∨
      (u.headD 0 ≠ code '[' ∧ Leads cut .reference u) ∨
      Throws input (fun m => parseFieldTypeSignature input m false) u := by
  by_cases harray : u.headD 0 = code '['
  · refine .inr (.inr (throws_of_run (ascii "Array signature not allowed here.") fun errors =>
      Yields.succ (Yields.const fun m => ?_)))
    rw [parseFieldTypeSignature, parseFieldTypeSignatureWith, current_bind hu,
      if_neg (by rw [harray]; decide), if_neg (by rw [harray]; decide), if_pos harray,
      if_neg (by simp), Run.fail_apply]
  · rcases decides_reference hu with ⟨r, left, hr, rfl⟩ | hleads | hthrows
    · cases hr with
      | classType ht => exact .inl ⟨.classType _, left, .classType ht, rfl⟩
      | typeVariable hid => exact .inl ⟨.typeVariable _, left, .typeVariable hid, rfl⟩
      | baseArray b =>
          rw [Reference.print] at harray
          exact absurd rfl harray
      | array _ =>
          rw [Reference.print] at harray
          exact absurd rfl harray
    · exact .inr (.inl ⟨harray, hleads⟩)
    · exact .inr (.inr (hthrows.noArray hu harray))

end Types

end Tarracsh.SignatureDecisions
