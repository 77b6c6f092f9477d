import Tarracsh.SignatureTypes

/-!
# Printed signatures are read back

The productions around types: formal type parameters, super classes, parameters,
results and throws clauses. No character marks the end of a signature, so what
follows it only must not look like one more interface or exception.
-/
namespace Tarracsh.SignatureRoundTrip
open ByteStrings DescentRuns SignatureParser SignatureTrees SignatureTypes

section Formals
variable {input : Bytes}

theorem items_interfaceBounds {rs : List Reference} (hrs : ∀ r ∈ rs, r.Obeys parserRules) :
    Items input (fun c => c = code ':') (fun m => parseInterfaceBound input m)
      (fun r => code ':' :: r.print) Reference.node (fun _ => True) rs where
  reads r hr left _ h errors := by
    have h : code ':' :: (r.print ++ left) <:+ input := h
    have hread := reads_field (hrs r hr) (.inl rfl) ((List.suffix_cons _ _).trans h) errors
    refine hread.congr fun m => ?_
    beta_reduce
    rw [List.cons_append, parseInterfaceBound, advance_bind_cons h]
  more r _ := ⟨_, r.print, rfl, by decide⟩
  follow _ _ _ := trivial

/-- The class bound, or the colon behind which it is missing. -/
theorem reads_classBound {bound : Option Reference} (hbound : ∀ r ∈ bound, r.Obeys parserRules)
    {left : Bytes} (hleft : bound = none → left.headD 0 = code ':')
    (h : (bound.map Reference.print).getD [] ++ left <:+ input) :
    Reads input (fun m => parseClassBound input m) ((bound.map Reference.print).getD [])
      (bound.map Reference.node).toList left := by
  intro errors
  cases bound with
  | none =>
      have h : left <:+ input := h
      refine Yields.const fun m => ?_
      change parseClassBound input m (standing input left errors) = _
      rw [parseClassBound, current_bind h, if_pos (hleft rfl)]
      rfl
  | some r =>
      have h : r.print ++ left <:+ input := h
      have hread := reads_field (hbound r rfl) (.inl rfl) h errors
      obtain ⟨c, rest, hprint, hc⟩ := exists_print_reference r
      have hne : c ≠ code ':' := by
        rcases hc with rfl | rfl | rfl <;> decide
      refine (hread.map fun bound => [bound]).congr fun m => ?_
      change parseClassBound input m (standing input (r.print ++ left) errors) = _
      rw [hprint, List.cons_append] at h ⊢
      rw [parseClassBound, current_bind_cons h, if_neg hne]

/-- Where there is a bound, a missing class bound is followed by a colon. -/
theorem headD_interfaces {f : Formal} (hbounded : f.Bounded) (left : Bytes)
    (hnone : f.classBound = none) :
    (Formal.printInterfaces f.interfaceBounds ++ left).headD 0 = code ':' := by
  obtain ⟨r, rs, hrs⟩ := List.exists_cons_of_ne_nil (hbounded.resolve_left (by simp [hnone]))
  rw [hrs]
  rfl

theorem reads_formal {f : Formal} (hf : f.Obeys parserRules) (hbounded : f.Bounded)
    {left : Bytes} (hleft : left.headD 0 ≠ code ':') (h : f.print ++ left <:+ input) :
    Reads input (fun m => parseFormalTypeParameter input m) f.print f.node left := by
  intro errors
  have hprint : f.print ++ left = f.name ++ code ':' ::
      ((f.classBound.map Reference.print).getD [] ++
        (Formal.printInterfaces f.interfaceBounds ++ left)) := by
    simp [Formal.print]
  rw [hprint] at h ⊢
  have hcolon := (List.suffix_append _ _).trans h
  have hbound := (List.suffix_cons _ _).trans hcolon
  have hloop := Reads.repeatWhile (items_interfaceBounds hf.interfaceBounds) trivial
    ((List.suffix_append _ _).trans hbound) (by simpa using hleft)
    (f.classBound.map Reference.node).toList errors
  refine Yields.congr ?_ fun m => by
    beta_reduce
    rw [parseFormalTypeParameter,
      Run.bind_returned (parseIdentifier_standing hf.name (by decide) h errors)]
  have hbounds := (reads_classBound hf.classBound (headD_interfaces hbounded left) hbound
    errors).bind hloop
  refine Yields.map (f := fun m => parseBounds input m) (hbounds.congr fun m => ?_) _
  rw [parseBounds, current_bind_cons hcolon, if_pos rfl, advance_bind_cons hcolon]

theorem progress_of_lt {position : ℕ} {c : Cursor} (h : position < c.position) :
    progress position c = .returned () c := by
  rw [progress, Run.getPosition_bind, if_neg (by omega), Run.pure_apply]

/-- A formal type parameter behind the first one. It takes the cursor on. -/
theorem reads_nextFormal {f : Formal} (hf : f.Obeys parserRules) (hbounded : f.Bounded)
    {left : Bytes} (hleft : left.headD 0 ≠ code ':') (h : f.print ++ left <:+ input) :
    Reads input (fun m => parseNextFormalTypeParameter input m) f.print f.node left := by
  intro errors
  have hread := reads_formal hf hbounded hleft h errors
  refine Yields.congr ?_ fun m => by
    beta_reduce
    rw [parseNextFormalTypeParameter, Run.getPosition_bind]
  refine hread.bind (Yields.const fun _ => ?_)
  have hlt : (standing input (f.print ++ left) errors).position <
      (standing input left errors).position := by
    have hle := h.length_le
    simp only [standing, Formal.print, List.length_append, List.length_cons] at hle ⊢
    omega
  rw [Run.bind_returned (progress_of_lt hlt), Run.pure_apply]

theorem items_formals {fs : List Formal}
    (hfs : ∀ f ∈ fs, f.Obeys parserRules ∧ f.Bounded ∧ f.name ≠ []) :
    Items input (fun c => c ≠ code '>') (fun m => parseNextFormalTypeParameter input m)
      Formal.print Formal.node (fun left => left.headD 0 ≠ code ':') fs where
  reads f hf left hleft h := reads_nextFormal (hfs f hf).1 (hfs f hf).2.1 hleft h
  more f hf := by
    obtain ⟨c, name, hname⟩ := List.exists_cons_of_ne_nil (hfs f hf).2.2
    have hc : isDelimiter c = false := (hfs f hf).1.name c (by simp [hname])
    refine ⟨c, _, by rw [Formal.print, hname, List.cons_append], ?_⟩
    refine decide_eq_true fun hgt => ?_
    rw [hgt] at hc
    exact absurd hc (by decide)
  follow f hf left := by
    obtain ⟨c, name, hname⟩ := List.exists_cons_of_ne_nil (hfs f hf).2.2
    have hc : isDelimiter c = false := (hfs f hf).1.name c (by simp [hname])
    rw [Formal.print, hname]
    rintro rfl
    exact absurd hc (by decide)

/-- Formal type parameters for which the parser records no error. -/
structure Readable (fs : List Formal) : Prop where
  bounded : ∀ f ∈ fs, f.Bounded
  named : ∀ f ∈ fs.tail, f.name ≠ []

theorem reads_formals {fs : List Formal} (hobeys : ∀ f ∈ fs, f.Obeys parserRules)
    (hfs : Readable fs) {left : Bytes} (hleft : fs = [] → left.headD 0 ≠ code '<')
    (h : printFormals fs ++ left <:+ input) :
    Reads input (fun m => parseZeroOrMoreFormalTypeParameters input m) (printFormals fs)
      (fs.map Formal.node) left := by
  intro errors
  cases fs with
  | nil =>
      have h : left <:+ input := h
      refine Yields.const fun m => ?_
      change parseZeroOrMoreFormalTypeParameters input m (standing input left errors) = _
      rw [parseZeroOrMoreFormalTypeParameters, current_bind h, if_neg (hleft rfl)]
      rfl
  | cons f fs =>
      have htail : ∀ g ∈ fs, g.Obeys parserRules ∧ g.Bounded ∧ g.name ≠ [] := fun g hg =>
        ⟨hobeys g (by simp [hg]), hfs.bounded g (by simp [hg]), hfs.named g hg⟩
      rw [printFormals, printBracketed_append (List.cons_ne_nil f fs), List.flatMap_cons,
        List.append_assoc] at h ⊢
      have hfirst := (List.suffix_cons _ _).trans h
      have hrest := (List.suffix_append _ _).trans hfirst
      have hend := (List.suffix_append _ _).trans hrest
      have hitems : Items input (fun c => c ≠ code '>')
        (fun m => parseNextFormalTypeParameter input m) Formal.print Formal.node
        (fun left => left.headD 0 ≠ code ':') fs := items_formals htail
      have hstop : (code '>' :: left).headD 0 ≠ code ':' := by simp [code]
      have hread := reads_formal (hobeys f (by simp)) (hfs.bounded f (by simp))
        (hitems.follow_flatMap hstop) hfirst errors
      have hloop := Reads.repeatWhile hitems hstop hrest (by simp) [f.node] errors
      refine Yields.congr ?_ fun m => by
        beta_reduce
        rw [parseZeroOrMoreFormalTypeParameters, current_bind_cons h, if_pos rfl,
          parseFormalTypeParameters, current_bind_cons h, if_neg (by simp), advance_bind_cons h]
      refine hread.bind (hloop.bind (Yields.const fun _ => ?_))
      rw [advance_bind_cons hend]
      rfl

end Formals

section Classes
variable {input : Bytes}

/-- What a class type is printed as. -/
theorem exists_print_classType (t : ClassType) : ∃ rest, t.print = code 'L' :: rest := by
  cases t
  exact ⟨_, by rw [ClassType.print]⟩

theorem items_classTypes {ts : List ClassType} (hts : ∀ t ∈ ts, t.Obeys parserRules) :
    Items input (fun c => c = code 'L') (fun m => parseClassType input m) ClassType.print
      ClassType.node (fun _ => True) ts where
  reads t ht left _ h := reads_parseClassType (hts t ht) h
  more t _ := by
    obtain ⟨rest, hprint⟩ := exists_print_classType t
    exact ⟨_, rest, hprint, by decide⟩
  follow _ _ _ := trivial

theorem reads_classSignature {t : ClassTree} (ht : t.Obeys parserRules)
    (hformals : Readable t.formals) {left : Bytes} (hleft : left.headD 0 ≠ code 'L')
    (h : t.print ++ left <:+ input) :
    Reads input (fun m => parseClassSignature input m) t.print t.node left := by
  intro errors
  rw [ClassTree.print, List.append_assoc, List.append_assoc] at h ⊢
  have hsuper := (List.suffix_append _ _).trans h
  have hinterfaces := (List.suffix_append _ _).trans hsuper
  have hhead : (t.superclass.print ++ (t.interfaces.flatMap ClassType.print ++ left)).headD 0 ≠
      code '<' := by
    obtain ⟨rest, hprint⟩ := exists_print_classType t.superclass
    rw [hprint]
    simp [code]
  have hread := reads_formals ht.formals hformals (fun _ => hhead) h errors
  have hclass := reads_parseClassType ht.superclass hsuper errors
  have hloop := Reads.repeatWhile (items_classTypes ht.interfaces) trivial hinterfaces
    (by simpa using hleft) [] errors
  exact hread.bind (hclass.bind (Yields.map hloop fun interfaces =>
    (⟨t.formals.map Formal.node, t.superclass.node, interfaces⟩ : ClassSignature)))

end Classes

section Methods
variable {input : Bytes}

/-- The first character of a type. -/
theorem exists_print_type (t : JavaType) :
    ∃ c rest, t.print = c :: rest ∧ startsType c = true ∧ c ≠ code 'V' := by
  cases t with
  | base b => exact ⟨b.letter, [], rfl, by cases b <;> decide⟩
  | reference r =>
      obtain ⟨c, rest, hprint, hc⟩ := exists_print_reference r
      refine ⟨c, rest, hprint, ?_⟩
      rcases hc with rfl | rfl | rfl <;> decide

theorem items_types {ts : List JavaType} (hts : ∀ t ∈ ts, t.Obeys parserRules) :
    Items input startsType (fun m => parseType input m) JavaType.print JavaType.node
      (fun _ => True) ts where
  reads t ht left _ h := reads_parseType (hts t ht) h
  more t _ := by
    obtain ⟨c, rest, hprint, hc, -⟩ := exists_print_type t
    exact ⟨c, rest, hprint, hc⟩
  follow _ _ _ := trivial

theorem reads_parameters {ts : List JavaType} (hts : ∀ t ∈ ts, t.Obeys parserRules)
    {left : Bytes} (h : code '(' :: (ts.flatMap JavaType.print ++ code ')' :: left) <:+ input)
    (errors : List String) :
    Yields (fun m => parseFormalParameters input m (standing input
        (code '(' :: (ts.flatMap JavaType.print ++ code ')' :: left)) errors))
      (.returned (ts.map JavaType.node) (standing input left errors)) := by
  have htypes := (List.suffix_cons _ _).trans h
  have hend := (List.suffix_append _ _).trans htypes
  have hloop := Reads.repeatWhile (items_types hts) trivial htypes
    (show startsType (code ')') = false by decide) [] errors
  refine Yields.congr ?_ fun m => by
    rw [parseFormalParameters, current_bind_cons h, if_neg (by simp), advance_bind_cons h]
  refine hloop.bind (Yields.const fun _ => ?_)
  rw [current_bind_cons hend, if_neg (by simp), advance_bind_cons hend]
  rfl

theorem reads_result {result : Option JavaType} (hresult : ∀ r ∈ result, r.Obeys parserRules)
    {left : Bytes} (h : MethodTree.printResult result ++ left <:+ input) :
    Reads input (fun m => parseReturnType input m) (MethodTree.printResult result)
      (MethodTree.nodeResult result) left := by
  intro errors
  cases result with
  | none =>
      have h : code 'V' :: left <:+ input := h
      refine Yields.const fun m => ?_
      change parseReturnType input m (standing input (code 'V' :: left) errors) = _
      rw [parseReturnType, current_bind_cons h, if_pos rfl, advance_bind_cons h]
      rfl
  | some t =>
      have h : t.print ++ left <:+ input := h
      refine (reads_parseType (hresult t rfl) h errors).congr fun m => ?_
      obtain ⟨c, rest, hprint, -, hc⟩ := exists_print_type t
      change parseReturnType input m (standing input (t.print ++ left) errors) = _
      rw [hprint, List.cons_append] at h ⊢
      rw [parseReturnType, current_bind_cons h, if_neg hc]

/-- What is thrown is not an array. -/
theorem exists_print_thrown (x : Thrown) :
    ∃ c rest, x.reference.print = c :: rest ∧ c ≠ code '[' := by
  cases x with
  | classType type =>
      obtain ⟨rest, hprint⟩ := exists_print_classType type
      exact ⟨code 'L', rest, by rw [Thrown.reference, Reference.print, hprint], by decide⟩
  | typeVariable identifier =>
      exact ⟨code 'T', identifier ++ [code ';'], by rw [Thrown.reference, Reference.print]; rfl,
        by decide⟩

theorem items_throws {xs : List Thrown} (hxs : ∀ x ∈ xs, x.reference.Obeys parserRules) :
    Items input (fun c => c = code '^') (fun m => parseThrowsSignature input m) Thrown.print
      (fun x => x.reference.node) (fun _ => True) xs where
  reads x hx left _ h errors := by
    rw [Thrown.print, List.cons_append] at h ⊢
    have hallowed : false = true ∨ x.reference.print.headD 0 ≠ code '[' := by
      obtain ⟨c, rest, hprint, hc⟩ := exists_print_thrown x
      rw [hprint]
      exact .inr hc
    have hread := reads_field (hxs x hx) hallowed ((List.suffix_cons _ _).trans h) errors
    refine hread.congr fun m => ?_
    beta_reduce
    rw [parseThrowsSignature, current_bind_cons h, if_neg (by simp), advance_bind_cons h]
  more x _ := ⟨_, x.reference.print, rfl, by decide⟩
  follow _ _ _ := trivial

theorem reads_methodSignature {t : MethodTree} (ht : t.Obeys parserRules)
    (hformals : Readable t.formals) {left : Bytes} (hleft : left.headD 0 ≠ code '^')
    (h : t.print ++ left <:+ input) :
    Reads input (fun m => parseMethodTypeSignature input m) t.print t.node left := by
  intro errors
  have hprint : t.print ++ left = printFormals t.formals ++ code '(' ::
      (t.parameters.flatMap JavaType.print ++ code ')' ::
        (MethodTree.printResult t.result ++ (t.throws.flatMap Thrown.print ++ left))) := by
    simp [MethodTree.print]
  rw [hprint] at h ⊢
  have hparameters := (List.suffix_append _ _).trans h
  have hresult := (List.suffix_cons _ _).trans
    ((List.suffix_append _ _).trans ((List.suffix_cons _ _).trans hparameters))
  have hthrows := (List.suffix_append _ _).trans hresult
  have hloop := Reads.repeatWhile (items_throws ht.throws) trivial hthrows
    (by simpa using hleft) [] errors
  have hthrown := Yields.map hloop fun throws => (⟨t.formals.map Formal.node,
    t.parameters.map JavaType.node, MethodTree.nodeResult t.result, throws⟩ : MethodTypeSignature)
  exact (reads_formals ht.formals hformals (fun _ => by simp [code]) h errors).bind
    ((reads_parameters ht.parameters hparameters errors).bind
      ((reads_result ht.result hresult errors).bind hthrown))

end Methods

/-- An identifier without the characters that end one. -/
def Identifier (identifier : Bytes) : Prop := identifier ≠ [] ∧ ∀ c ∈ identifier,
  c ∉ [code '.', code ';', code '[', code '/', code '<', code '>', code ':', code '$', 0]

instance : DecidablePred Identifier := fun identifier =>
  @instDecidableAnd _ _ _ (List.decidableBAll _ identifier)

theorem Identifier.undelimited {identifier : Bytes} (h : Identifier identifier) :
    Undelimited identifier := by
  intro c hc
  have hnot := h.2 c hc
  simp only [List.mem_cons, List.not_mem_nil, or_false, not_or] at hnot
  simp [isDelimiter, hnot]

/-- Identifiers with a dot or a dollar between nested classes. -/
def printedRules : Rules where
  package := Identifier
  name := Identifier
  parameter := Identifier
  separator c := c = code '.' ∨ c = code '$'

theorem printedRules_weaker : printedRules.Weaker parserRules :=
  ⟨fun _ hp => hp.undelimited, fun _ hn => hn.undelimited, fun _ hp => hp.undelimited,
    fun _ hc => hc⟩

theorem readable_of_printed {fs : List Formal} (hobeys : ∀ f ∈ fs, f.Obeys printedRules)
    (hbounded : ∀ f ∈ fs, f.Bounded) : Readable fs :=
  ⟨hbounded, fun f hf => (hobeys f (List.mem_of_mem_tail hf)).name.1⟩

/-- A run that reads the whole text stops at its end. -/
theorem Reads.start {α : Type} {run : Bytes → ℕ → Run α} {phrase : Bytes} {value : α}
    (h : Reads phrase (run phrase) phrase value []) :
    Yields (fun m => run phrase m start) (.returned value ⟨phrase.length, []⟩) := by
  have hstart := h []
  rw [List.append_nil, standing_self] at hstart
  exact hstart

/-- Printed signatures are read back as a whole and without errors. -/
theorem signatures_round_trip :
    (∀ t : ClassTree, t.Obeys printedRules → (∀ f ∈ t.formals, f.Bounded) →
      Yields (fun fuel => parseClassSig fuel t.print) (.returned t.node ⟨t.print.length, []⟩)) ∧
    (∀ t : MethodTree, t.Obeys printedRules → (∀ f ∈ t.formals, f.Bounded) →
      Yields (fun fuel => parseMethodSig fuel t.print) (.returned t.node ⟨t.print.length, []⟩)) ∧
    ∀ t : JavaType, t.Obeys printedRules →
      Yields (fun fuel => parseTypeSig fuel t.print) (.returned t.node ⟨t.print.length, []⟩) := by
  refine ⟨fun t ht hbounded => ?_, fun t ht hbounded => ?_, fun t ht => ?_⟩
  · have hformals := readable_of_printed ht.formals hbounded
    exact Reads.start (reads_classSignature (ht.weaken printedRules_weaker) hformals
      (by simp [code]) (by simp))
  · have hformals := readable_of_printed ht.formals hbounded
    exact Reads.start (reads_methodSignature (ht.weaken printedRules_weaker) hformals
      (by simp [code]) (by simp))
  · exact Reads.start (reads_parseType (ht.weaken printedRules_weaker) (by simp))

/-- `La/B<+[TT;*>$C<-[I>;`. -/
def sampleType : Reference :=
  .classType (.mk [ascii "a"] (ascii "B") [.extending (.array (.typeVariable (ascii "T"))), .any]
    [.mk (code '$') (ascii "C") [.super (.baseArray .int)]])

theorem sampleType_obeys : sampleType.Obeys printedRules := by
  refine .classType (.mk ?_ (by decide : Identifier (ascii "B")) ?_ ?_)
  · simp only [List.mem_singleton, forall_eq]
    exact (by decide : Identifier (ascii "a"))
  · simp only [List.mem_cons, List.not_mem_nil, or_false, forall_eq_or_imp, forall_eq]
    exact ⟨.extending (.array (.typeVariable (by decide : Identifier (ascii "T")))), .any⟩
  · simp only [List.mem_singleton, forall_eq]
    exact .mk (.inr rfl) (by decide : Identifier (ascii "C"))
      (by simpa using .super (.baseArray .int))

def sampleFormals : List Formal :=
  [⟨ascii "T", some sampleType, []⟩, ⟨ascii "U", none, [sampleType]⟩]

theorem sampleFormals_obey : ∀ f ∈ sampleFormals, f.Obeys printedRules := by
  simp only [sampleFormals, List.mem_cons, List.not_mem_nil, or_false, forall_eq_or_imp, forall_eq]
  exact ⟨⟨(by decide : Identifier (ascii "T")), by simpa using sampleType_obeys, by simp⟩,
    ⟨(by decide : Identifier (ascii "U")), by simp, by simpa using sampleType_obeys⟩⟩

theorem sampleFormals_bounded : ∀ f ∈ sampleFormals, f.Bounded := by
  simp [sampleFormals, Formal.Bounded]

def sampleClass : ClassTree :=
  ⟨sampleFormals, .mk [] (ascii "S") [] [], [.mk [] (ascii "I") [.exactly sampleType] []]⟩

theorem sampleClass_obeys : sampleClass.Obeys printedRules := by
  refine ⟨sampleFormals_obey,
    .mk (by simp) (by decide : Identifier (ascii "S")) (by simp) (by simp), ?_⟩
  simp only [sampleClass, List.mem_singleton, forall_eq]
  exact .mk (by simp) (by decide : Identifier (ascii "I"))
    (by simpa using .exactly sampleType_obeys) (by simp)

def sampleMethod : MethodTree :=
  ⟨sampleFormals, [.base .long, .reference sampleType], none, [.typeVariable (ascii "T")]⟩

theorem sampleMethod_obeys : sampleMethod.Obeys printedRules := by
  refine ⟨sampleFormals_obey, ?_, by simp [sampleMethod], ?_⟩
  · simp only [sampleMethod, List.mem_cons, List.not_mem_nil, or_false, forall_eq_or_imp, forall_eq]
    exact ⟨.base .long, .reference sampleType_obeys⟩
  · simp only [sampleMethod, List.mem_singleton, forall_eq]
    exact .typeVariable (by decide : Identifier (ascii "T"))

theorem samples_round_trip :
    sampleType.print = ascii "La/B<+[TT;*>$C<-[I>;" ∧
    Yields (fun fuel => parseClassSig fuel sampleClass.print)
      (.returned sampleClass.node ⟨sampleClass.print.length, []⟩) ∧
    Yields (fun fuel => parseMethodSig fuel sampleMethod.print)
      (.returned sampleMethod.node ⟨sampleMethod.print.length, []⟩) ∧
    Yields (fun fuel => parseTypeSig fuel sampleType.print)
      (.returned sampleType.node ⟨sampleType.print.length, []⟩) :=
  ⟨by decide +kernel,
    signatures_round_trip.1 sampleClass sampleClass_obeys sampleFormals_bounded,
    signatures_round_trip.2.1 sampleMethod sampleMethod_obeys sampleFormals_bounded,
    signatures_round_trip.2.2 (.reference sampleType) (.reference sampleType_obeys)⟩

end Tarracsh.SignatureRoundTrip
