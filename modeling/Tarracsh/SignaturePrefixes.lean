import Tarracsh.SignatureRoundTrip

/-!
# Texts that start like a signature

The parser follows a text as long as it looks like a signature. `Leads` says how a
place inside a type is reached behind complete phrases, and that a run which fails
there fails as a whole. What stands at that place is a parameter.
-/
namespace Tarracsh.SignaturePrefixes
open ByteStrings DescentRuns SignatureParser SignatureTrees SignatureTypes SignatureRoundTrip

/-- What the parser fails at: in front of a type, in front of a nested class behind
its separator, or in front of a formal type parameter. -/
structure Fault where
  reference : Bytes → Prop
  nested : Bytes → Prop
  formal : Bytes → Prop
  starts : ∀ u, reference u → u.headD 0 = code 'L' ∨ u.headD 0 = code 'T'

inductive Place where
  | reference | argument | nested

section Types
variable (fault : Fault)

/-- The text leads from the place to a fault. -/
inductive Leads : Place → Bytes → Prop where
  | reference {u : Bytes} : fault.reference u → Leads .reference u
  | nested {u : Bytes} : fault.nested u → Leads .nested u
  | array {u : Bytes} : Leads .reference u → Leads .reference (code '[' :: u)
  | outerArgument {packages : List Bytes} {name : Bytes} {as : List Argument} {u : Bytes} :
      (∀ p ∈ packages, Undelimited p) → Undelimited name → (∀ a ∈ as, a.Obeys parserRules) →
      Leads .argument u →
      Leads .reference (code 'L' :: (printPackages packages ++ name ++
        code '<' :: (printArguments as ++ u)))
  | suffix {packages : List Bytes} {name : Bytes} {as : List Argument} {ns : List Nested}
      {separator : UInt8} {u : Bytes} :
      (ClassType.mk packages name as ns).Obeys parserRules →
      separator = code '.' ∨ separator = code '$' → Leads .nested u →
      Leads .reference (code 'L' :: (printPackages packages ++ name ++
        (printBracketed as (printArguments as) ++ (printNested ns ++ separator :: u))))
  | nestedArgument {name : Bytes} {as : List Argument} {u : Bytes} :
      Undelimited name → (∀ a ∈ as, a.Obeys parserRules) → Leads .argument u →
      Leads .nested (name ++ code '<' :: (printArguments as ++ u))
  | exactly {u : Bytes} : Leads .reference u → Leads .argument u
  | wildcard {c : UInt8} {u : Bytes} : c = code '+' ∨ c = code '-' → Leads .reference u →
      Leads .argument (c :: u)

variable {fault}

theorem Leads.headD_reference {u : Bytes} (h : Leads fault .reference u) :
    u.headD 0 = code 'L' ∨ u.headD 0 = code 'T' ∨ u.headD 0 = code '[' := by
  cases h with
  | reference h =>
      rcases fault.starts u h with h | h
      · exact .inl h
      · exact .inr (.inl h)
  | array _ => exact .inr (.inr rfl)
  | outerArgument _ _ _ _ => exact .inl rfl
  | suffix _ _ _ => exact .inl rfl

theorem Leads.headD_argument {u : Bytes} (h : Leads fault .argument u) :
    u.headD 0 ≠ code '>' := by
  cases h with
  | exactly h =>
      rcases h.headD_reference with h | h | h <;> rw [h] <;> decide
  | wildcard hc _ =>
      rcases hc with rfl | rfl <;> simp [code]

variable {input : Bytes}

/-- The parser at a place. -/
def Place.run (input : Bytes) : Place → ℕ → Run TypeTree
  | .reference, m => parseFieldTypeSignature input m true
  | .argument, m => parseTypeArgument input (parseFieldTypeSignature input m true)
  | .nested, m => parseSimpleClassTypeSignature input m (parseFieldTypeSignature input m true) true

section Failures
variable {x : Failure} {u : Bytes} {errors : List String}

/-- A type that is not primitive. -/
theorem parseTypeSignature_reference {nested : Run TypeTree} (hu : u <:+ input)
    (hhead : BaseType.ofLetter (u.headD 0) = none) :
    parseTypeSignature input nested (standing input u errors) =
      nested (standing input u errors) := by
  rw [parseTypeSignature, current_bind hu, hhead]
  rfl

theorem fails_array (hu : code '[' :: u <:+ input)
    (hhead : BaseType.ofLetter (u.headD 0) = none)
    (h : Fails input (Place.reference.run input) u x) :
    Fails input (Place.reference.run input) (code '[' :: u) x := by
  intro errors
  have hrest := (List.suffix_cons _ _).trans hu
  refine Yields.succ (Yields.congr ?_ fun m => by
    rw [Place.run, parseFieldTypeSignature, parseFieldTypeSignatureWith_array hu,
      parseArrayTypeSignature, current_bind_cons hu, if_neg (by simp), advance_bind_cons hu])
  refine Yields.bind_failure ?_
  exact (h errors).congr fun m => parseTypeSignature_reference hrest hhead

theorem fails_exactly (hu : u <:+ input)
    (hne : u.headD 0 ≠ code '+' ∧ u.headD 0 ≠ code '*' ∧ u.headD 0 ≠ code '-')
    (h : Fails input (Place.reference.run input) u x) :
    Fails input (Place.argument.run input) u x := by
  intro errors
  refine (h errors).congr fun m => ?_
  change parseTypeArgument input (parseFieldTypeSignature input m true) _ = _
  rw [parseTypeArgument, current_bind hu, if_neg hne.1, if_neg hne.2.1, if_neg hne.2.2]
  rfl

theorem fails_wildcard {c : UInt8} (hc : c = code '+' ∨ c = code '-') (hu : c :: u <:+ input)
    (h : Fails input (Place.reference.run input) u x) :
    Fails input (Place.argument.run input) (c :: u) x := by
  intro errors
  rcases hc with rfl | rfl
  · refine Yields.congr ?_ fun m => by
      rw [Place.run, parseTypeArgument, current_bind_cons hu, if_pos rfl, advance_bind_cons hu]
    exact Yields.bind_failure (h errors)
  · refine Yields.congr ?_ fun m => by
      rw [Place.run, parseTypeArgument, current_bind_cons hu, if_neg (by decide),
        if_neg (by decide), if_pos rfl, advance_bind_cons hu]
    exact Yields.bind_failure (h errors)

theorem fails_arguments {as : List Argument} (has : ∀ a ∈ as, a.Obeys parserRules)
    (hhead : as ≠ [] → u.headD 0 ≠ code '>') (h : Fails input (Place.argument.run input) u x)
    (hu : code '<' :: (printArguments as ++ u) <:+ input) :
    Fails input (fun m => parseTypeArguments input m (parseFieldTypeSignature input m true))
      (code '<' :: (printArguments as ++ u)) x := by
  intro errors
  have hrest := (List.suffix_cons _ _).trans hu
  refine Yields.congr ?_ fun m => by
    beta_reduce
    rw [parseTypeArguments, current_bind_cons hu, if_neg (by simp), advance_bind_cons hu]
  cases as with
  | nil =>
      rw [printArguments, List.nil_append]
      exact Yields.bind_failure (h errors)
  | cons a as =>
      rw [printArguments, List.append_assoc, printArguments_eq] at hrest ⊢
      have hitems := items_arguments (readsShorter input _) has (Nat.lt_succ_self _)
      have hfirst := hitems.reads a (by simp) _ trivial hrest errors
      have hloop := Fails.repeatWhile hitems.tail trivial ((List.suffix_append _ _).trans hrest)
        (by simpa using hhead (List.cons_ne_nil a as)) h [a.node] errors
      exact hfirst.bind (Yields.bind_failure hloop)

theorem fails_nestedArgument {name : Bytes} {as : List Argument} (hname : Undelimited name)
    (has : ∀ a ∈ as, a.Obeys parserRules) (hhead : as ≠ [] → u.headD 0 ≠ code '>')
    (h : Fails input (Place.argument.run input) u x)
    (hu : name ++ code '<' :: (printArguments as ++ u) <:+ input) :
    Fails input (Place.nested.run input) (name ++ code '<' :: (printArguments as ++ u)) x := by
  intro errors
  have hrest := (List.suffix_append _ _).trans hu
  refine Yields.congr ?_ fun m => by
    rw [Place.run, parseSimpleClassTypeSignature,
      Run.bind_returned (parseIdentifier_standing hname (by decide) hu errors),
      current_bind_cons hrest, if_neg (by decide), if_pos rfl]
  exact Yields.bind_failure (fails_arguments has hhead h hrest errors)

/-- A class type behind its first letter. -/
theorem run_class (hu : code 'L' :: u <:+ input) (m : ℕ) :
    Place.reference.run input (m + 1) (standing input (code 'L' :: u) errors) =
      (parsePackageNameAndSimpleClassTypeSignature input m (parseFieldTypeSignature input m true)
        >>= fun first =>
      parseClassTypeSignatureSuffix input m (parseFieldTypeSignature input m true) [first]
        >>= fun path =>
      Run.current input >>= fun c =>
      if c ≠ code ';' then Run.fail (ascii "expected ';' got '" ++ [c] ++ ascii "'")
      else Run.advance >>= fun _ => pure (.classTypeSignature path)) (standing input u errors) := by
  rw [Place.run, parseFieldTypeSignature, parseFieldTypeSignatureWith_class hu,
    parseClassTypeSignature, current_bind_cons hu, if_neg (by simp), advance_bind_cons hu]

theorem fails_outer (hu : code 'L' :: u <:+ input)
    (h : Fails input (fun m => parsePackageNameAndSimpleClassTypeSignature input m
      (parseFieldTypeSignature input m true)) u x) :
    Fails input (Place.reference.run input) (code 'L' :: u) x := fun errors =>
  Yields.succ (Yields.congr (Yields.bind_failure (h errors)) fun m => run_class hu m)

theorem fails_outerArgument {packages : List Bytes} {name : Bytes} {as : List Argument}
    (hpackages : ∀ p ∈ packages, Undelimited p) (hname : Undelimited name)
    (has : ∀ a ∈ as, a.Obeys parserRules) (hhead : as ≠ [] → u.headD 0 ≠ code '>')
    (h : Fails input (Place.argument.run input) u x)
    (hu : printPackages packages ++ name ++ code '<' :: (printArguments as ++ u) <:+ input) :
    Fails input (fun m => parsePackageNameAndSimpleClassTypeSignature input m
        (parseFieldTypeSignature input m true))
      (printPackages packages ++ name ++ code '<' :: (printArguments as ++ u)) x := by
  intro errors
  have hrest := (List.suffix_append _ _).trans hu
  have hread := reads_name hname hpackages ⟨_, _, rfl, by decide⟩ (by simp [code]) hu errors
  refine hread.bind ?_
  refine Yields.congr ?_ fun m => by
    rw [current_bind_cons hrest, if_neg (by decide), if_pos rfl]
  exact Yields.bind_failure (fails_arguments has hhead h hrest errors)

/-- The suffix behind some nested classes. -/
theorem fails_suffix {packages : List Bytes} {name : Bytes} {as : List Argument}
    {ns : List Nested} {separator : UInt8}
    (ht : (ClassType.mk packages name as ns).Obeys parserRules)
    (hseparator : separator = code '.' ∨ separator = code '$')
    (h : Fails input (Place.nested.run input) u x)
    (hu : code 'L' :: (printPackages packages ++ name ++ (printBracketed as (printArguments as) ++
      (printNested ns ++ separator :: u))) <:+ input) :
    Fails input (Place.reference.run input) (code 'L' :: (printPackages packages ++ name ++
      (printBracketed as (printArguments as) ++ (printNested ns ++ separator :: u)))) x := by
  intro errors
  obtain ⟨hpackages, hname, has, hns⟩ := ht
  have houter := (List.suffix_cons _ _).trans hu
  have hsuffix := (List.suffix_append _ _).trans ((List.suffix_append _ _).trans houter)
  have hnested := (List.suffix_append _ _).trans hsuffix
  have hitems := items_nested (readsShorter input _) hns (Nat.lt_succ_self _)
  have hends : EndsClass (separator :: u) := ⟨_, _, rfl, .inr hseparator⟩
  have hitem : Fails input
      (fun m => parseNestedClass input m (parseFieldTypeSignature input m true))
      (separator :: u) x := by
    intro errors
    refine (h errors).congr fun m => ?_
    beta_reduce
    rw [parseNestedClass, advance_bind_cons hnested]
    rfl
  have hends' : EndsClass (printNested ns ++ separator :: u) := by
    rw [printNested_eq]
    exact hitems.follow_flatMap hends
  have hread := reads_outer (readsShorter input _) hname hpackages has (Nat.lt_succ_self _)
    (fun _ => hends') houter errors
  rw [printNested_eq] at hu hsuffix hread ⊢
  have hloop := Fails.repeatWhile hitems hends hsuffix (by simpa using hseparator) hitem
    [.simpleClassTypeSignature (dotted packages name) false (nodeArguments as)] errors
  refine Yields.succ (Yields.congr ?_ fun m => run_class hu m)
  exact hread.bind (Yields.bind_failure hloop)

end Failures

/-- The run fails at the text, with a failure of a given kind. -/
def Breaks (input : Bytes) (kind : Failure → Prop) {α : Type} (run : ℕ → Run α) (u : Bytes) :
    Prop :=
  ∃ x, kind x ∧ Fails input run u x

/-- The parser fails at the faults themselves. -/
structure Fault.Breaks (fault : Fault) (input : Bytes) (kind : Failure → Prop) : Prop where
  reference : ∀ u, u <:+ input → fault.reference u →
    SignaturePrefixes.Breaks input kind (Place.reference.run input) u
  nested : ∀ u, u <:+ input → fault.nested u →
    SignaturePrefixes.Breaks input kind (Place.nested.run input) u
  formal : ∀ u, u <:+ input → fault.formal u →
    SignaturePrefixes.Breaks input kind (fun m => parseFormalTypeParameter input m) u

/-- What leads to a fault fails like it. -/
theorem Leads.breaks {kind : Failure → Prop} (hfault : fault.Breaks input kind) {place : Place}
    {u : Bytes} (h : Leads fault place u) (hu : u <:+ input) :
    Breaks input kind (place.run input) u := by
  induction h with
  | reference h => exact hfault.reference _ hu h
  | nested h => exact hfault.nested _ hu h
  | array h ih =>
      obtain ⟨x, hx, hfails⟩ := ih ((List.suffix_cons _ _).trans hu)
      exact ⟨x, hx, fails_array hu (ofLetter_of_reference h.headD_reference) hfails⟩
  | outerArgument hpackages hname has h ih =>
      have houter := (List.suffix_cons _ _).trans hu
      obtain ⟨x, hx, hfails⟩ := ih ((List.suffix_append _ _).trans ((List.suffix_cons _ _).trans
        ((List.suffix_append _ _).trans houter)))
      exact ⟨x, hx, fails_outer hu
        (fails_outerArgument hpackages hname has (fun _ => h.headD_argument) hfails houter)⟩
  | suffix ht hseparator _ ih =>
      have houter := (List.suffix_cons _ _).trans hu
      obtain ⟨x, hx, hfails⟩ := ih ((List.suffix_cons _ _).trans ((List.suffix_append _ _).trans
        ((List.suffix_append _ _).trans ((List.suffix_append _ _).trans houter))))
      exact ⟨x, hx, fails_suffix ht hseparator hfails hu⟩
  | nestedArgument hname has h ih =>
      obtain ⟨x, hx, hfails⟩ := ih ((List.suffix_append _ _).trans ((List.suffix_cons _ _).trans
        ((List.suffix_append _ _).trans hu)))
      exact ⟨x, hx, fails_nestedArgument hname has (fun _ => h.headD_argument) hfails hu⟩
  | exactly h ih =>
      obtain ⟨x, hx, hfails⟩ := ih hu
      refine ⟨x, hx, fails_exactly hu ?_ hfails⟩
      rcases h.headD_reference with hhead | hhead | hhead <;> rw [hhead] <;> decide
  | wildcard hc h ih =>
      obtain ⟨x, hx, hfails⟩ := ih ((List.suffix_cons _ _).trans hu)
      exact ⟨x, hx, fails_wildcard hc hu hfails⟩

/-- Where only a class type is read. -/
theorem Breaks.classType {kind : Failure → Prop} {u : Bytes} (hu : u <:+ input)
    (hhead : u.headD 0 = code 'L') (h : Breaks input kind (Place.reference.run input) u) :
    Breaks input kind (fun m => parseClassType input m) u := by
  obtain ⟨x, hx, hfails⟩ := h
  refine ⟨x, hx, fun errors => (hfails errors).pred fun m => ?_⟩
  obtain ⟨rest, rfl⟩ : ∃ rest, u = code 'L' :: rest := by
    cases u with
    | nil => exact absurd hhead (by decide)
    | cons c rest => exact ⟨rest, congrArg (· :: rest) hhead⟩
  exact parseFieldTypeSignatureWith_class hu

/-- Where arrays are not allowed. -/
theorem Breaks.noArray {kind : Failure → Prop} {u : Bytes} (hu : u <:+ input)
    (hhead : u.headD 0 ≠ code '[') (h : Breaks input kind (Place.reference.run input) u) :
    Breaks input kind (fun m => parseFieldTypeSignature input m false) u := by
  obtain ⟨x, hx, hfails⟩ := h
  refine ⟨x, hx, fun errors => Yields.succ ((hfails errors).pred fun m => ?_)⟩
  change parseFieldTypeSignatureWith input m (parseFieldTypeSignature input m true) true _ =
    parseFieldTypeSignatureWith input m (parseFieldTypeSignature input m true) false _
  rw [parseFieldTypeSignatureWith, parseFieldTypeSignatureWith, current_bind hu, current_bind hu,
    if_neg hhead, if_neg hhead]

theorem Breaks.type {kind : Failure → Prop} {u : Bytes} (hu : u <:+ input)
    (hhead : BaseType.ofLetter (u.headD 0) = none)
    (h : Breaks input kind (Place.reference.run input) u) :
    Breaks input kind (fun m => parseType input m) u := by
  obtain ⟨x, hx, hfails⟩ := h
  exact ⟨x, hx, fun errors =>
    (hfails errors).congr fun m => parseTypeSignature_reference hu hhead⟩

end Types

section Formals
variable (fault : Fault)

/-- The text leads from the start of a formal type parameter to a fault. -/
inductive FormalLeads : Bytes → Prop where
  | formal {u : Bytes} : fault.formal u → FormalLeads u
  | classBound {name u : Bytes} : Undelimited name → Leads fault .reference u →
      FormalLeads (name ++ code ':' :: u)
  | interfaceBound {f : Formal} {u : Bytes} : f.Obeys parserRules → Leads fault .reference u →
      FormalLeads (f.print ++ code ':' :: u)

/-- The text leads to a fault behind some formal type parameters. -/
inductive FormalsLead : Bytes → Prop where
  | mk {fs : List Formal} {u : Bytes} : (∀ f ∈ fs, f.Obeys parserRules) → Readable fs →
      (fs ≠ [] → u.headD 0 ≠ code ':' ∧ u.headD 0 ≠ code '>') → FormalLeads fault u →
      FormalsLead (fs.flatMap Formal.print ++ u)

variable {fault} {input u : Bytes} {x : Failure} {errors : List String}

theorem fails_classBound {name : Bytes} (hname : Undelimited name)
    (hhead : u.headD 0 ≠ code ':') (h : Fails input (Place.reference.run input) u x)
    (hu : name ++ code ':' :: u <:+ input) :
    Fails input (fun m => parseFormalTypeParameter input m) (name ++ code ':' :: u) x := by
  intro errors
  have hcolon := (List.suffix_append _ _).trans hu
  have hrest := (List.suffix_cons _ _).trans hcolon
  refine Yields.congr ?_ fun m => by
    beta_reduce
    rw [parseFormalTypeParameter,
      Run.bind_returned (parseIdentifier_standing hname (by decide) hu errors)]
  refine Yields.bind_failure (Yields.congr ?_ fun m => by
    rw [parseBounds, current_bind_cons hcolon, if_pos rfl, advance_bind_cons hcolon])
  refine Yields.bind_failure (Yields.congr ?_ fun m => by
    rw [parseClassBound, current_bind hrest, if_neg hhead])
  exact Yields.bind_failure (h errors)

theorem fails_interfaceBound {f : Formal} (hf : f.Obeys parserRules)
    (h : Fails input (Place.reference.run input) u x) (hu : f.print ++ code ':' :: u <:+ input) :
    Fails input (fun m => parseFormalTypeParameter input m) (f.print ++ code ':' :: u) x := by
  intro errors
  have hprint : f.print ++ code ':' :: u = f.name ++ code ':' ::
      ((f.classBound.map Reference.print).getD [] ++
        (Formal.printInterfaces f.interfaceBounds ++ code ':' :: u)) := by
    simp [Formal.print]
  rw [hprint] at hu ⊢
  have hcolon := (List.suffix_append _ _).trans hu
  have hbound := (List.suffix_cons _ _).trans hcolon
  have hinterfaces := (List.suffix_append _ _).trans hbound
  have hlast := (List.suffix_append _ _).trans hinterfaces
  have hhead : (Formal.printInterfaces f.interfaceBounds ++ code ':' :: u).headD 0 = code ':' := by
    cases f.interfaceBounds <;> rfl
  have hitem : Fails input (fun m => parseInterfaceBound input m) (code ':' :: u) x := by
    intro errors
    refine (h errors).congr fun m => ?_
    beta_reduce
    rw [parseInterfaceBound, advance_bind_cons hlast]
    rfl
  have hloop := Fails.repeatWhile (items_interfaceBounds hf.interfaceBounds) trivial hinterfaces
    (by simp) hitem (f.classBound.map Reference.node).toList errors
  have hread := reads_classBound hf.classBound (fun _ => hhead) hbound errors
  refine Yields.congr ?_ fun m => by
    beta_reduce
    rw [parseFormalTypeParameter,
      Run.bind_returned (parseIdentifier_standing hf.name (by decide) hu errors)]
  refine Yields.bind_failure (Yields.congr ?_ fun m => by
    rw [parseBounds, current_bind_cons hcolon, if_pos rfl, advance_bind_cons hcolon])
  exact hread.bind hloop

theorem FormalLeads.breaks {kind : Failure → Prop} (hfault : fault.Breaks input kind)
    (h : FormalLeads fault u) (hu : u <:+ input) :
    Breaks input kind (fun m => parseFormalTypeParameter input m) u := by
  cases h with
  | formal h => exact hfault.formal _ hu h
  | classBound hname h =>
      obtain ⟨x, hx, hfails⟩ := h.breaks hfault
        ((List.suffix_cons _ _).trans ((List.suffix_append _ _).trans hu))
      refine ⟨x, hx, fails_classBound hname ?_ hfails hu⟩
      rcases h.headD_reference with hhead | hhead | hhead <;> rw [hhead] <;> decide
  | interfaceBound hf h =>
      obtain ⟨x, hx, hfails⟩ := h.breaks hfault
        ((List.suffix_cons _ _).trans ((List.suffix_append _ _).trans hu))
      exact ⟨x, hx, fails_interfaceBound hf hfails hu⟩

theorem fails_nextFormal (h : Fails input (fun m => parseFormalTypeParameter input m) u x) :
    Fails input (fun m => parseNextFormalTypeParameter input m) u x := by
  intro errors
  refine Yields.congr ?_ fun m => by
    beta_reduce
    rw [parseNextFormalTypeParameter, Run.getPosition_bind]
  exact Yields.bind_failure (h errors)

/-- Formal type parameters behind the angle bracket. -/
theorem run_formals (hu : code '<' :: u <:+ input) (m : ℕ) :
    parseZeroOrMoreFormalTypeParameters input m (standing input (code '<' :: u) errors) =
      ((parseFormalTypeParameter input m >>= fun first =>
          Run.repeatWhile input (fun c => c ≠ code '>') (parseNextFormalTypeParameter input m) m
            [first]) >>= fun ftps =>
        Run.advance >>= fun _ => pure ftps) (standing input u errors) := by
  rw [parseZeroOrMoreFormalTypeParameters, current_bind_cons hu, if_pos rfl,
    parseFormalTypeParameters, current_bind_cons hu, if_neg (by simp), advance_bind_cons hu,
    Run.bind_assoc]

/-- Behind some formal type parameters the loop goes on. -/
theorem yields_formals {f : Formal} {fs : List Formal} (hobeys : ∀ g ∈ f :: fs, g.Obeys parserRules)
    (hfs : Readable (f :: fs)) (hhead : u.headD 0 ≠ code ':')
    (hu : (f :: fs).flatMap Formal.print ++ u <:+ input)
    {outcome : Outcome (List FormalTypeParameter)}
    (h : Loops input (fun c => c ≠ code '>') (fun m => parseNextFormalTypeParameter input m)
      ((f :: fs).map Formal.node) (standing input u errors) outcome) :
    Yields (fun m => (parseFormalTypeParameter input m >>= fun first =>
        Run.repeatWhile input (fun c => c ≠ code '>') (parseNextFormalTypeParameter input m) m
          [first]) (standing input ((f :: fs).flatMap Formal.print ++ u) errors)) outcome := by
  have htail : ∀ g ∈ fs, g.Obeys parserRules ∧ g.Bounded ∧ g.name ≠ [] := fun g hg =>
    ⟨hobeys g (by simp [hg]), hfs.bounded g (by simp [hg]), hfs.named g hg⟩
  have hitems : Items input (fun c => c ≠ code '>')
    (fun m => parseNextFormalTypeParameter input m) Formal.print Formal.node
    (fun left => left.headD 0 ≠ code ':') fs := items_formals htail
  rw [List.flatMap_cons, List.append_assoc] at hu ⊢
  have hread := reads_formal (hobeys f (by simp)) (hfs.bounded f (by simp))
    (hitems.follow_flatMap hhead) hu errors
  exact hread.bind (Loops.items_append hitems hhead ((List.suffix_append _ _).trans hu) h).yields

theorem FormalsLead.breaks {kind : Failure → Prop} (hfault : fault.Breaks input kind)
    (h : FormalsLead fault u) (hu : code '<' :: u <:+ input) :
    Breaks input kind (fun m => parseZeroOrMoreFormalTypeParameters input m) (code '<' :: u) := by
  obtain ⟨hobeys, hfs, hhead, h⟩ := h
  rename_i fs u
  have hrest := (List.suffix_cons _ _).trans hu
  have hformal := (List.suffix_append _ _).trans hrest
  obtain ⟨x, hx, hfails⟩ := h.breaks hfault hformal
  refine ⟨x, hx, fun errors => ?_⟩
  refine Yields.congr (Yields.bind_failure ?_) fun m => run_formals hu m
  cases fs with
  | nil => exact Yields.bind_failure (hfails errors)
  | cons f fs =>
      obtain ⟨hcolon, hgt⟩ := hhead (by simp)
      exact yields_formals hobeys hfs hcolon hrest
        (Loops.fail hformal (by simpa using hgt) (fails_nextFormal hfails errors))

/-- A name without a bound is taken for a formal type parameter, and the parser
records that. -/
theorem formal_unbounded {name left : Bytes} {c : UInt8} (hname : Undelimited name)
    (hdelimiter : isDelimiter c = true) (hc : c ≠ code ':') (h : name ++ c :: left <:+ input)
    (errors : List String) (m : ℕ) :
    parseFormalTypeParameter input m (standing input (name ++ c :: left) errors) =
      .returned ⟨name, []⟩ (standing input (c :: left) (errors ++ ["Bound expected"])) := by
  have hrest := (List.suffix_append _ _).trans h
  have hbounds : parseBounds input m (standing input (c :: left) errors) =
      .returned [] (standing input (c :: left) (errors ++ ["Bound expected"])) := by
    rw [parseBounds, current_bind_cons hrest, if_neg hc, Run.addError_bind]
    rfl
  rw [parseFormalTypeParameter,
    Run.bind_returned (parseIdentifier_standing hname hdelimiter h errors),
    Run.bind_returned hbounds, Run.pure_apply]

/-- The next formal type parameter is a name without a bound. -/
theorem nextFormal_unbounded {name left : Bytes} {c : UInt8} (hname : Undelimited name)
    (hdelimiter : isDelimiter c = true) (hc : c ≠ code ':') (h : name ++ c :: left <:+ input)
    (errors : List String) :
    ∃ errors', errors' ≠ [] ∧ ∀ m,
      parseNextFormalTypeParameter input m (standing input (name ++ c :: left) errors) =
        .returned ⟨name, []⟩ (standing input (c :: left) errors') := by
  have hread := formal_unbounded hname hdelimiter hc h errors
  by_cases hlt : (standing input (name ++ c :: left) errors).position <
      (standing input (c :: left) (errors ++ ["Bound expected"])).position
  · refine ⟨errors ++ ["Bound expected"], by simp, fun m => ?_⟩
    rw [parseNextFormalTypeParameter, Run.getPosition_bind, Run.bind_returned (hread m),
      Run.bind_returned (progress_of_lt hlt), Run.pure_apply]
  · refine ⟨errors ++ ["Bound expected"] ++ ["Failure to make progress!"], by simp, fun m => ?_⟩
    have hprogress : progress (standing input (name ++ c :: left) errors).position
        (standing input (c :: left) (errors ++ ["Bound expected"])) =
        .returned () (standing input (c :: left)
          (errors ++ ["Bound expected"] ++ ["Failure to make progress!"])) := by
      rw [progress, Run.getPosition_bind, if_pos (by omega)]
      rfl
    rw [parseNextFormalTypeParameter, Run.getPosition_bind, Run.bind_returned (hread m),
      Run.bind_returned hprogress, Run.pure_apply]

/-- The first character of a name and of what ends it. -/
theorem headD_name {name left : Bytes} {c d : UInt8} (hname : Undelimited name) (hc : c ≠ d)
    (hd : isDelimiter d = true) : (name ++ c :: left).headD 0 ≠ d := by
  cases name with
  | nil => exact hc
  | cons b name =>
      rintro rfl
      have hb := hname b (by simp)
      simp only [List.cons_append, List.headD_cons] at hd
      exact absurd hd (by simp [hb])

/-- The characters in front of which the loop over formal type parameters makes no
progress. -/
def isStuck (c : UInt8) : Bool := isDelimiter c && c != code ':' && c != code '>'

/-- Behind some formal type parameters and a name, one of these characters. -/
inductive StuckFormals : Bytes → Prop where
  | mk {fs : List Formal} {name : Bytes} {c : UInt8} {left : Bytes} :
      (∀ f ∈ fs, f.Obeys parserRules) → Readable fs → Undelimited name → isStuck c = true →
      StuckFormals (fs.flatMap Formal.print ++ name ++ c :: left)

theorem loops_stuck {left : Bytes} {c : UInt8} (hc : isStuck c = true) (h : c :: left <:+ input)
    (items : List FormalTypeParameter) :
    Loops input (fun c => c ≠ code '>') (fun m => parseNextFormalTypeParameter input m) items
      (standing input (c :: left) errors) .running := by
  simp only [isStuck, Bool.and_eq_true, bne_iff_ne] at hc
  obtain ⟨⟨hdelimiter, hcolon⟩, hgt⟩ := hc
  have hempty : Undelimited [] := by simp [Undelimited]
  have hcurrent : ∀ cursor, (∃ errors, cursor = standing input (c :: left) errors) →
      ∃ b, Run.current input cursor = .returned b cursor ∧ decide (b ≠ code '>') = true := by
    rintro cursor ⟨errors, rfl⟩
    exact ⟨c, current_standing h errors, by simpa using hgt⟩
  have hitem : ∀ (m : ℕ) (cursor : Cursor),
      (∃ errors, cursor = standing input (c :: left) errors) →
      ∃ a cursor', parseNextFormalTypeParameter input m cursor = .returned a cursor' ∧
        ∃ errors, cursor' = standing input (c :: left) errors := by
    rintro m cursor ⟨errors, rfl⟩
    obtain ⟨errors', -, hread⟩ := nextFormal_unbounded hempty hdelimiter hcolon h errors
    exact ⟨_, _, hread m, errors', rfl⟩
  exact Loops.endless hcurrent hitem ⟨errors, rfl⟩

theorem StuckFormals.fails (h : StuckFormals u) (hu : code '<' :: u <:+ input) :
    Fails input (fun m => parseZeroOrMoreFormalTypeParameters input m) (code '<' :: u)
      .endless := by
  intro errors
  obtain ⟨hobeys, hfs, hname, hc⟩ := h
  rename_i fs name c left
  have hrest := (List.suffix_cons _ _).trans hu
  rw [List.append_assoc] at hu hrest ⊢
  have hlast := (List.suffix_append _ _).trans hrest
  have hstuck := (List.suffix_append _ _).trans hlast
  have hc' := hc
  simp only [isStuck, Bool.and_eq_true, bne_iff_ne] at hc'
  obtain ⟨⟨hdelimiter, hcolon⟩, hgt⟩ := hc'
  refine Yields.congr (Yields.bind_failure ?_) fun m => run_formals hu m
  cases fs with
  | nil =>
      exact (Yields.const fun m => formal_unbounded hname hdelimiter hcolon hrest errors m).bind
        (loops_stuck hc hstuck [⟨name, []⟩]).yields
  | cons f fs =>
      have hgoes : decide ((name ++ c :: left).headD 0 ≠ code '>') = true :=
        decide_eq_true (headD_name hname hgt (by decide))
      obtain ⟨errors', -, hread⟩ := nextFormal_unbounded hname hdelimiter hcolon hlast errors
      exact yields_formals hobeys hfs (headD_name hname hcolon (by decide)) hrest
        (Loops.step hlast hgoes (Yields.const hread) (loops_stuck hc hstuck _))

/-- Formal type parameters the last of which has no bound. -/
inductive Dangling : Bytes → Prop where
  | mk {fs : List Formal} {name : Bytes} : (∀ f ∈ fs, f.Obeys parserRules) → Readable fs →
      Undelimited name → (fs ≠ [] → name ≠ []) →
      Dangling (code '<' :: (fs.flatMap Formal.print ++ name ++ [code '>']))

/-- They are read, with errors. -/
theorem Dangling.yields {head left : Bytes} (h : Dangling head) (hu : head ++ left <:+ input)
    (errors : List String) :
    ∃ ftps errors', errors' ≠ [] ∧
      Yields (fun m => parseZeroOrMoreFormalTypeParameters input m
        (standing input (head ++ left) errors)) (.returned ftps (standing input left errors')) := by
  obtain ⟨hobeys, hfs, hname, hnamed⟩ := h
  rename_i fs name
  simp only [List.cons_append, List.append_assoc, List.nil_append] at hu ⊢
  have hrest := (List.suffix_cons _ _).trans hu
  have hlast := (List.suffix_append _ _).trans hrest
  have hend := (List.suffix_append _ _).trans hlast
  have hstop : decide ((code '>' :: left).headD 0 ≠ code '>') = false := by simp
  cases fs with
  | nil =>
      have hread := fun m => formal_unbounded hname (by decide) (by decide) hrest errors m
      refine ⟨[⟨name, []⟩], errors ++ ["Bound expected"], by simp, ?_⟩
      refine Yields.congr (Yields.bind ((Yields.const hread).bind (Loops.stop hend hstop).yields)
        (Yields.const fun m => ?_)) fun m => run_formals hu m
      rw [advance_bind_cons hend, Run.pure_apply]
  | cons f fs =>
      obtain ⟨errors', hne, hread⟩ :=
        nextFormal_unbounded hname (by decide) (by decide) hlast errors
      have hgoes : decide ((name ++ code '>' :: left).headD 0 ≠ code '>') = true := by
        obtain ⟨c, name, rfl⟩ := List.exists_cons_of_ne_nil (hnamed (by simp))
        refine decide_eq_true fun hgt => ?_
        have hc := hname c (by simp)
        rw [show c = code '>' from hgt] at hc
        exact absurd hc (by decide)
      have hloop := yields_formals hobeys hfs (headD_name hname (by decide) (by decide)) hrest
        (Loops.step hlast hgoes (Yields.const hread) (Loops.stop hend hstop))
      refine ⟨(f :: fs).map Formal.node ++ [⟨name, []⟩], errors', hne, ?_⟩
      refine Yields.congr (hloop.bind (Yields.const fun m => ?_)) fun m => run_formals hu m
      rw [advance_bind_cons hend, Run.pure_apply]

end Formals

/-- The three entry points. -/
inductive Entry where
  | classSig | methodSig | typeSig

namespace Entry

def Result : Entry → Type
  | .classSig => ClassSignature
  | .methodSig => MethodTypeSignature
  | .typeSig => TypeTree

def parse : (entry : Entry) → ℕ → Bytes → Outcome entry.Result
  | .classSig => parseClassSig
  | .methodSig => parseMethodSig
  | .typeSig => parseTypeSig

/-- The function that an entry point calls. -/
def run (input : Bytes) : (entry : Entry) → ℕ → Run entry.Result
  | .classSig, m => parseClassSignature input m
  | .methodSig, m => parseMethodTypeSignature input m
  | .typeSig, m => parseType input m

theorem parse_eq (entry : Entry) (fuel : ℕ) (signature : Bytes) :
    entry.parse fuel signature = entry.run signature fuel (standing signature signature []) := by
  rw [standing_self]
  cases entry <;> rfl

end Entry

section Signatures
variable (fault : Fault)

/-- What the parser reads in front of the types of a class or a method. -/
inductive Heading : Bytes → Prop where
  | formals {fs : List Formal} : (∀ f ∈ fs, f.Obeys parserRules) → Readable fs →
      Heading (printFormals fs)
  | dangling {head : Bytes} : Dangling head → Heading head

/-- The text leads from the start of a signature to a fault. -/
inductive SignatureLeads : Entry → Bytes → Prop where
  | formals {entry : Entry} {u : Bytes} : entry ≠ .typeSig → FormalsLead fault u →
      SignatureLeads entry (code '<' :: u)
  | classType {head : Bytes} {cs : List ClassType} {u : Bytes} : Heading head →
      (∀ c ∈ cs, c.Obeys parserRules) → u.headD 0 = code 'L' → Leads fault .reference u →
      SignatureLeads .classSig (head ++ (cs.flatMap ClassType.print ++ u))
  | parameter {head : Bytes} {ts : List JavaType} {u : Bytes} : Heading head →
      (∀ t ∈ ts, t.Obeys parserRules) → Leads fault .reference u →
      SignatureLeads .methodSig (head ++ code '(' :: (ts.flatMap JavaType.print ++ u))
  | result {head : Bytes} {ts : List JavaType} {u : Bytes} : Heading head →
      (∀ t ∈ ts, t.Obeys parserRules) → Leads fault .reference u →
      SignatureLeads .methodSig (head ++ code '(' :: (ts.flatMap JavaType.print ++ code ')' :: u))
  | thrown {head : Bytes} {ts : List JavaType} {result : Option JavaType} {xs : List Thrown}
      {u : Bytes} : Heading head → (∀ t ∈ ts, t.Obeys parserRules) →
      (∀ r ∈ result, r.Obeys parserRules) → (∀ x ∈ xs, x.reference.Obeys parserRules) →
      u.headD 0 ≠ code '[' → Leads fault .reference u →
      SignatureLeads .methodSig (head ++ code '(' :: (ts.flatMap JavaType.print ++ code ')' ::
        (MethodTree.printResult result ++ (xs.flatMap Thrown.print ++ code '^' :: u))))
  | type {u : Bytes} : Leads fault .reference u → SignatureLeads .typeSig u

variable {fault} {input u : Bytes} {x : Failure} {errors : List String} {kind : Failure → Prop}

theorem Heading.yields {head left : Bytes} (h : Heading head) (hleft : left.headD 0 ≠ code '<')
    (hu : head ++ left <:+ input) (errors : List String) :
    ∃ ftps errors', Yields (fun m => parseZeroOrMoreFormalTypeParameters input m
      (standing input (head ++ left) errors)) (.returned ftps (standing input left errors')) := by
  cases h with
  | formals hobeys hfs => exact ⟨_, errors, reads_formals hobeys hfs (fun _ => hleft) hu errors⟩
  | dangling h =>
      obtain ⟨ftps, errors', -, hread⟩ := h.yields hu errors
      exact ⟨ftps, errors', hread⟩

/-- `parseClassSignature` behind the formal type parameters. -/
def restOfClass (input : Bytes) (ftps : List FormalTypeParameter) (m : ℕ) : Run ClassSignature := do
  let superClass ← parseClassType input m
  let superInterfaces ← parseSuperInterfaces input m
  pure ⟨ftps, superClass, superInterfaces⟩

/-- `parseMethodTypeSignature` behind the formal type parameters. -/
def restOfMethod (input : Bytes) (ftps : List FormalTypeParameter) (m : ℕ) :
    Run MethodTypeSignature := do
  let formalParameters ← parseFormalParameters input m
  let returnType ← parseReturnType input m
  let fieldTypeSignatures ← parseZeroOrMoreThrowsSignatures input m
  pure ⟨ftps, formalParameters, returnType, fieldTypeSignatures⟩

theorem fails_classTypes {cs : List ClassType} (hcs : ∀ c ∈ cs, c.Obeys parserRules)
    (hhead : u.headD 0 = code 'L') (h : Fails input (fun m => parseClassType input m) u x)
    (hu : cs.flatMap ClassType.print ++ u <:+ input) (ftps : List FormalTypeParameter) :
    Fails input (restOfClass input ftps) (cs.flatMap ClassType.print ++ u) x := by
  intro errors
  cases cs with
  | nil => exact Yields.bind_failure (h errors)
  | cons c cs =>
      rw [List.flatMap_cons, List.append_assoc] at hu ⊢
      have hread := reads_parseClassType (hcs c (by simp)) hu errors
      have hitems : Items input (fun c => c = code 'L') (fun m => parseClassType input m)
        ClassType.print ClassType.node (fun _ => True) cs :=
        items_classTypes fun d hd => hcs d (List.mem_cons_of_mem c hd)
      have hloop := Fails.repeatWhile hitems trivial ((List.suffix_append _ _).trans hu)
        (by simpa using hhead) h [] errors
      exact hread.bind (Yields.bind_failure hloop)

theorem fails_parameter {ts : List JavaType} (hts : ∀ t ∈ ts, t.Obeys parserRules)
    (hhead : startsType (u.headD 0) = true) (h : Fails input (fun m => parseType input m) u x)
    (hu : code '(' :: (ts.flatMap JavaType.print ++ u) <:+ input) :
    Fails input (fun m => parseFormalParameters input m)
      (code '(' :: (ts.flatMap JavaType.print ++ u)) x := by
  intro errors
  have htypes := (List.suffix_cons _ _).trans hu
  have hloop := Fails.repeatWhile (items_types hts) trivial htypes hhead h [] errors
  refine Yields.congr ?_ fun m => by
    beta_reduce
    rw [parseFormalParameters, current_bind_cons hu, if_neg (by simp), advance_bind_cons hu]
  exact Yields.bind_failure hloop

theorem fails_result (hhead : u.headD 0 ≠ code 'V') (hu : u <:+ input)
    (h : Fails input (fun m => parseType input m) u x) :
    Fails input (fun m => parseReturnType input m) u x := by
  intro errors
  refine (h errors).congr fun m => ?_
  beta_reduce
  rw [parseReturnType, current_bind hu, if_neg hhead]

theorem fails_thrown {xs : List Thrown} (hxs : ∀ x ∈ xs, x.reference.Obeys parserRules)
    (h : Fails input (fun m => parseFieldTypeSignature input m false) u x)
    (hu : xs.flatMap Thrown.print ++ code '^' :: u <:+ input) :
    Fails input (fun m => parseZeroOrMoreThrowsSignatures input m)
      (xs.flatMap Thrown.print ++ code '^' :: u) x := by
  have hlast := (List.suffix_append _ _).trans hu
  have hitem : Fails input (fun m => parseThrowsSignature input m) (code '^' :: u) x := by
    intro errors
    refine (h errors).congr fun m => ?_
    beta_reduce
    rw [parseThrowsSignature, current_bind_cons hlast, if_neg (by simp), advance_bind_cons hlast]
  exact Fails.repeatWhile (items_throws hxs) trivial hu (by simp) hitem []

/-- The first character of what leads to a fault starts a type. -/
theorem startsType_reference {c : UInt8} (hc : c = code 'L' ∨ c = code 'T' ∨ c = code '[') :
    startsType c = true ∧ c ≠ code 'V' := by
  rcases hc with rfl | rfl | rfl <;> decide

/-- What leads to a fault fails like it, whatever the entry point. -/
theorem SignatureLeads.breaks (hfault : fault.Breaks input kind) {entry : Entry}
    (h : SignatureLeads fault entry u) (hu : u <:+ input) :
    Breaks input kind (entry.run input) u := by
  cases h with
  | @formals entry u hentry h =>
      obtain ⟨x, hx, hfails⟩ := h.breaks hfault hu
      refine ⟨x, hx, fun errors => ?_⟩
      cases entry with
      | classSig => exact Yields.bind_failure (hfails errors)
      | methodSig => exact Yields.bind_failure (hfails errors)
      | typeSig => exact absurd rfl hentry
  | @classType head cs u hheading hcs hhead h =>
      have hclasses := (List.suffix_append _ _).trans hu
      have hlast := (List.suffix_append _ _).trans hclasses
      obtain ⟨x, hx, hfails⟩ := (h.breaks hfault hlast).classType hlast hhead
      have hleft : (cs.flatMap ClassType.print ++ u).headD 0 ≠ code '<' := by
        cases cs with
        | nil =>
            rw [List.flatMap_nil, List.nil_append, hhead]
            decide
        | cons c cs =>
            obtain ⟨rest, hprint⟩ := exists_print_classType c
            rw [List.flatMap_cons, hprint]
            simp [code]
      refine ⟨x, hx, fun errors => ?_⟩
      obtain ⟨ftps, errors', hread⟩ := hheading.yields hleft hu errors
      exact hread.bind (fails_classTypes hcs hhead hfails hclasses ftps errors')
  | @parameter head ts u hheading hts h =>
      have hparameters := (List.suffix_append _ _).trans hu
      have hlast := (List.suffix_append _ _).trans ((List.suffix_cons _ _).trans hparameters)
      obtain ⟨x, hx, hfails⟩ := (h.breaks hfault hlast).type hlast
        (ofLetter_of_reference h.headD_reference)
      have hfails := fails_parameter hts (startsType_reference h.headD_reference).1 hfails
        hparameters
      refine ⟨x, hx, fun errors => ?_⟩
      obtain ⟨ftps, errors', hread⟩ := hheading.yields (by simp [code]) hu errors
      exact hread.bind (Yields.bind_failure (hfails errors'))
  | @result head ts u hheading hts h =>
      have hparameters := (List.suffix_append _ _).trans hu
      have hlast := (List.suffix_cons _ _).trans ((List.suffix_append _ _).trans
        ((List.suffix_cons _ _).trans hparameters))
      obtain ⟨x, hx, hfails⟩ := (h.breaks hfault hlast).type hlast
        (ofLetter_of_reference h.headD_reference)
      have hfails := fails_result (startsType_reference h.headD_reference).2 hlast hfails
      refine ⟨x, hx, fun errors => ?_⟩
      obtain ⟨ftps, errors', hread⟩ := hheading.yields (by simp [code]) hu errors
      exact hread.bind ((reads_parameters hts hparameters errors').bind
        (Yields.bind_failure (hfails errors')))
  | @thrown head ts result xs u hheading hts hresult hxs hhead h =>
      have hparameters := (List.suffix_append _ _).trans hu
      have hresults := (List.suffix_cons _ _).trans ((List.suffix_append _ _).trans
        ((List.suffix_cons _ _).trans hparameters))
      have hthrows := (List.suffix_append _ _).trans hresults
      have hlast := (List.suffix_cons _ _).trans ((List.suffix_append _ _).trans hthrows)
      obtain ⟨x, hx, hfails⟩ := (h.breaks hfault hlast).noArray hlast hhead
      have hfails := fails_thrown hxs hfails hthrows
      refine ⟨x, hx, fun errors => ?_⟩
      obtain ⟨ftps, errors', hread⟩ := hheading.yields (by simp [code]) hu errors
      exact hread.bind ((reads_parameters hts hparameters errors').bind
        ((reads_result hresult hresults errors').bind (Yields.bind_failure (hfails errors'))))
  | type h => exact (h.breaks hfault hu).type hu (ofLetter_of_reference h.headD_reference)

/-- The parser runs forever behind the formal type parameters. -/
theorem StuckFormals.endless {entry : Entry} (hentry : entry ≠ .typeSig) (h : StuckFormals u)
    (hu : code '<' :: u <:+ input) : Fails input (entry.run input) (code '<' :: u) .endless := by
  intro errors
  cases entry with
  | classSig => exact Yields.bind_failure (h.fails hu errors)
  | methodSig => exact Yields.bind_failure (h.fails hu errors)
  | typeSig => exact absurd rfl hentry

end Signatures

end Tarracsh.SignaturePrefixes
