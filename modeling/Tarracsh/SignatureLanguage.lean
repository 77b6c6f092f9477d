import Tarracsh.SignatureTermination

/-!
# The language of signatures and what the parser accepts

In the grammar an identifier is any text without the characters that end one, and a
dollar is not among those. The parser stops an identifier at a dollar. Where nested
classes may follow, it reads what is behind the dollar as one of them, and the text
is accepted all the same; elsewhere it is not.
-/
namespace Tarracsh.SignatureLanguage
open ByteStrings DescentRuns SignatureParser SignatureTrees SignatureTypes SignatureRoundTrip
  SignaturePrefixes SignatureDecisions SignatureTermination

/-- An identifier of the grammar. -/
def JvmIdentifier (identifier : Bytes) : Prop := identifier ≠ [] ∧ ∀ c ∈ identifier,
  c ∉ [code '.', code ';', code '[', code '/', code '<', code '>', code ':']

instance : DecidablePred JvmIdentifier := fun identifier =>
  @instDecidableAnd _ _ _ (List.decidableBAll _ identifier)

/-- `Identifier`s everywhere, and only a dot in front of a nested class. -/
def jvmRules : Rules where
  package := JvmIdentifier
  name := JvmIdentifier
  parameter := JvmIdentifier
  separator c := c = code '.'

/-- Only the names of classes may have a dollar. -/
def plainRules : Rules where
  package identifier := JvmIdentifier identifier ∧ code '$' ∉ identifier
  name := JvmIdentifier
  parameter identifier := JvmIdentifier identifier ∧ code '$' ∉ identifier
  separator c := c = code '.'

/-- A text is printed from a tree that obeys the rules. -/
inductive Written (L : Rules) (formal : Formal → Prop) : Entry → Bytes → Prop where
  | classSig {t : ClassTree} : t.Obeys L → (∀ f ∈ t.formals, formal f) →
      Written L formal .classSig t.print
  | methodSig {t : MethodTree} : t.Obeys L → (∀ f ∈ t.formals, formal f) →
      Written L formal .methodSig t.print
  | typeSig {t : JavaType} : t.Obeys L → Written L formal .typeSig t.print

/-- The signatures of the grammar. -/
def InLanguage : Entry → Bytes → Prop := Written jvmRules fun _ => True

/-- The signatures in which only names of classes have a dollar, and every formal type
parameter has a bound. -/
def Plain : Entry → Bytes → Prop := Written plainRules Formal.Bounded

/-- The parser returns and has recorded no error. -/
def Accepts (entry : Entry) (s : Bytes) : Prop := ∃ value cursor, cursor.errors = [] ∧
  Yields (fun fuel => entry.parse fuel s) (.returned value cursor)

theorem accepts_iff_lenient (entry : Entry) (s : Bytes) : Accepts entry s ↔ Lenient entry s := by
  constructor
  · rintro ⟨value, cursor, herrors, haccepts⟩
    cases fate entry s with
    | reads h => exact h
    | records herrors' hyields =>
        cases haccepts.unique hyields
        exact absurd herrors herrors'
    | leads h => cases haccepts.unique (outside_of_leads h)
    | stuck h => cases haccepts.unique (running_of_stuck h)
    | throws hyields => cases haccepts.unique hyields
  · exact fun h => h.yields

section Pieces

theorem isDelimiter_of_jvm {c : UInt8}
    (hc : c ∉ [code '.', code ';', code '[', code '/', code '<', code '>', code ':'])
    (hdollar : c ≠ code '$') : isDelimiter c = false := by
  simp only [List.mem_cons, List.not_mem_nil, or_false, not_or] at hc
  simp [isDelimiter, hc, hdollar]

theorem JvmIdentifier.undelimited {identifier : Bytes} (h : JvmIdentifier identifier)
    (hdollar : code '$' ∉ identifier) : Undelimited identifier := fun c hc =>
  isDelimiter_of_jvm (h.2 c hc) fun heq => hdollar (heq ▸ hc)

/-- An identifier as the parts between its dollars. -/
theorem exists_pieces {identifier : Bytes} (h : ∀ c ∈ identifier,
      c ∉ [code '.', code ';', code '[', code '/', code '<', code '>', code ':']) :
    ∃ (first : Bytes) (pieces : List Bytes), Undelimited first ∧ (∀ p ∈ pieces, Undelimited p) ∧
      identifier = first ++ pieces.flatMap (code '$' :: ·) := by
  induction identifier with
  | nil => exact ⟨[], [], by simp [Undelimited], by simp, rfl⟩
  | cons c identifier ih =>
      obtain ⟨first, pieces, hfirst, hpieces, rfl⟩ := ih fun d hd => h d (by simp [hd])
      by_cases hc : c = code '$'
      · subst hc
        refine ⟨[], first :: pieces, by simp [Undelimited], ?_, rfl⟩
        simpa [hfirst] using hpieces
      · refine ⟨c :: first, pieces, ?_, hpieces, rfl⟩
        intro d hd
        rcases List.mem_cons.mp hd with rfl | hd
        · exact isDelimiter_of_jvm (h _ (by simp)) hc
        · exact hfirst d hd

/-- A nested class of the grammar as nested classes that the parser reads. -/
theorem exists_nested {separator : UInt8} (hseparator : separator = code '.' ∨ separator = code '$')
    {first : Bytes} {pieces : List Bytes} (hfirst : Undelimited first)
    (hpieces : ∀ p ∈ pieces, Undelimited p) {as : List Argument}
    (has : ∀ a ∈ as, a.Obeys parserRules) :
    ∃ ns : List Nested, (∀ n ∈ ns, n.Obeys parserRules) ∧ printNested ns =
      separator :: (first ++ pieces.flatMap (code '$' :: ·) ++
        printBracketed as (printArguments as)) := by
  induction pieces generalizing separator first with
  | nil =>
      refine ⟨[.mk separator first as], ?_, by simp [printNested_eq, Nested.print]⟩
      simpa using .mk hseparator hfirst has
  | cons p pieces ih =>
      obtain ⟨ns, hns, hprint⟩ := ih (.inr rfl) (hpieces p (by simp))
        fun q hq => hpieces q (by simp [hq])
      refine ⟨.mk separator first [] :: ns, ?_, ?_⟩
      · have hhead : (Nested.mk separator first []).Obeys parserRules :=
          .mk hseparator hfirst (by simp)
        simpa [hhead] using hns
      · rw [printNested, hprint]
        simp [Nested.print, printBracketed]

theorem printNested_append (ns ms : List Nested) :
    printNested (ns ++ ms) = printNested ns ++ printNested ms := by
  simp [printNested_eq]

/-- Members of a list by members that are printed alike. -/
theorem exists_list {α : Type} {P : α → Prop} {text : α → Bytes} {xs : List α}
    (h : ∀ x ∈ xs, ∃ y, P y ∧ text y = text x) :
    ∃ ys : List α, (∀ y ∈ ys, P y) ∧ ys.isEmpty = xs.isEmpty ∧
      ys.flatMap text = xs.flatMap text := by
  induction xs with
  | nil => exact ⟨[], by simp, rfl, rfl⟩
  | cons x xs ih =>
      obtain ⟨y, hy, htext⟩ := h x (by simp)
      obtain ⟨ys, hys, -, htexts⟩ := ih fun z hz => h z (by simp [hz])
      refine ⟨y :: ys, ?_, rfl, by rw [List.flatMap_cons, List.flatMap_cons, htext, htexts]⟩
      simpa [hy] using hys

theorem exists_arguments {as : List Argument}
    (h : ∀ a ∈ as, ∃ a' : Argument, a'.Obeys parserRules ∧ a'.print = a.print) :
    ∃ as' : List Argument, (∀ a ∈ as', a.Obeys parserRules) ∧
      printArguments as' = printArguments as ∧
      printBracketed as' (printArguments as') = printBracketed as (printArguments as) := by
  obtain ⟨as', has', hempty, hprint⟩ := exists_list h
  rw [← printArguments_eq, ← printArguments_eq] at hprint
  exact ⟨as', has', hprint, by rw [printBracketed, printBracketed, hempty, hprint]⟩

theorem exists_nesteds {ns : List Nested}
    (h : ∀ n ∈ ns, ∃ ms : List Nested, (∀ m ∈ ms, m.Obeys parserRules) ∧
      printNested ms = n.print) :
    ∃ ms : List Nested, (∀ m ∈ ms, m.Obeys parserRules) ∧ printNested ms = printNested ns := by
  induction ns with
  | nil => exact ⟨[], by simp, rfl⟩
  | cons n ns ih =>
      obtain ⟨ms, hms, hprint⟩ := h n (by simp)
      obtain ⟨ms', hms', hprint'⟩ := ih fun m hm => h m (by simp [hm])
      refine ⟨ms ++ ms', ?_, by rw [printNested_append, hprint, hprint', printNested]⟩
      intro m hm
      rcases List.mem_append.mp hm with hm | hm
      · exact hms m hm
      · exact hms' m hm

/-- A path of classes of the grammar as one that the parser reads. -/
theorem exists_path {packages : List Bytes} {name : Bytes} {as : List Argument} {ns : List Nested}
    (hpackages : ∀ p ∈ packages, Undelimited p) (hname : JvmIdentifier name)
    (has : ∀ a ∈ as, a.Obeys parserRules) (hns : ∀ n ∈ ns, n.Obeys parserRules) :
    ∃ (first : Bytes) (as' : List Argument) (ns' : List Nested),
      (ClassType.mk packages first as' ns').Obeys parserRules ∧
      first ++ (printBracketed as' (printArguments as') ++ printNested ns') =
        name ++ (printBracketed as (printArguments as) ++ printNested ns) := by
  obtain ⟨first, pieces, hfirst, hpieces, rfl⟩ := exists_pieces hname.2
  cases pieces with
  | nil => exact ⟨first, as, ns, .mk hpackages hfirst has hns, by simp⟩
  | cons p pieces =>
      obtain ⟨ms, hms, hprint⟩ := exists_nested (.inr rfl) (hpieces p (by simp))
        (fun q (hq : q ∈ pieces) => hpieces q (by simp [hq])) has
      refine ⟨first, [], ms ++ ns, .mk hpackages hfirst (by simp) ?_, ?_⟩
      · intro m hm
        rcases List.mem_append.mp hm with hm | hm
        · exact hms m hm
        · exact hns m hm
      · rw [printNested_append, hprint]
        simp [printBracketed]

end Pieces

section Lenient

mutual

/-- A plain type is printed like one that the parser reads. -/
theorem exists_reference {r : Reference} :
    r.Obeys plainRules → ∃ r' : Reference, r'.Obeys parserRules ∧ r'.print = r.print
  | .typeVariable hid => ⟨_, .typeVariable (hid.1.undelimited hid.2), rfl⟩
  | .baseArray component => ⟨_, .baseArray component, rfl⟩
  | .array hcomponent => by
      obtain ⟨r', hr', hprint⟩ := exists_reference hcomponent
      exact ⟨.array r', .array hr', by rw [Reference.print, Reference.print, hprint]⟩
  | .classType htype => by
      obtain ⟨t', ht', hprint⟩ := exists_classType htype
      exact ⟨.classType t', .classType ht', by rw [Reference.print, Reference.print, hprint]⟩

theorem exists_classType {t : ClassType} :
    t.Obeys plainRules → ∃ t' : ClassType, t'.Obeys parserRules ∧ t'.print = t.print
  | .mk hpackages hname has hns => by
      obtain ⟨as', has', -, hprint⟩ := exists_arguments fun a ha => exists_argument (has a ha)
      obtain ⟨ms, hms, hprints⟩ := exists_nesteds fun n hn => exists_nestedClass (hns n hn)
      obtain ⟨first, bs, ns', ht', heq⟩ := exists_path
        (fun p hp => (hpackages p hp).1.undelimited (hpackages p hp).2) hname has' hms
      refine ⟨.mk _ first bs ns', ht', ?_⟩
      rw [hprint, hprints] at heq
      have hclosed := congrArg (· ++ [code ';']) heq
      simpa [ClassType.print] using hclosed

theorem exists_nestedClass {n : Nested} :
    n.Obeys plainRules → ∃ ms : List Nested, (∀ m ∈ ms, m.Obeys parserRules) ∧
      printNested ms = n.print
  | .mk hseparator hname has => by
      obtain ⟨as', has', -, hprint⟩ := exists_arguments fun a ha => exists_argument (has a ha)
      obtain ⟨first, pieces, hfirst, hpieces, rfl⟩ := exists_pieces hname.2
      obtain ⟨ms, hms, hprints⟩ := exists_nested (.inl hseparator) hfirst hpieces has'
      exact ⟨ms, hms, by rw [hprints, hprint, Nested.print]; simp⟩

theorem exists_argument {a : Argument} :
    a.Obeys plainRules → ∃ a' : Argument, a'.Obeys parserRules ∧ a'.print = a.print
  | .any => ⟨.any, .any, rfl⟩
  | .exactly htype => by
      obtain ⟨r', hr', hprint⟩ := exists_reference htype
      exact ⟨.exactly r', .exactly hr', by rw [Argument.print, Argument.print, hprint]⟩
  | .extending hbound => by
      obtain ⟨r', hr', hprint⟩ := exists_reference hbound
      exact ⟨.extending r', .extending hr', by rw [Argument.print, Argument.print, hprint]⟩
  | .super hbound => by
      obtain ⟨r', hr', hprint⟩ := exists_reference hbound
      exact ⟨.super r', .super hr', by rw [Argument.print, Argument.print, hprint]⟩

end

theorem exists_type {t : JavaType} (ht : t.Obeys plainRules) :
    ∃ t' : JavaType, t'.Obeys parserRules ∧ t'.print = t.print := by
  cases ht with
  | base b => exact ⟨.base b, .base b, rfl⟩
  | reference hr =>
      obtain ⟨r', hr', hprint⟩ := exists_reference hr
      exact ⟨.reference r', .reference hr', hprint⟩

theorem exists_thrown {x : Thrown} (hx : x.reference.Obeys plainRules) :
    ∃ x' : Thrown, x'.reference.Obeys parserRules ∧ x'.print = x.print := by
  cases x with
  | classType t =>
      have hx : (Reference.classType t).Obeys plainRules := hx
      obtain ⟨t', ht', hprint⟩ : ∃ t' : ClassType, t'.Obeys parserRules ∧ t'.print = t.print := by
        cases hx with
        | classType ht => exact exists_classType ht
      exact ⟨.classType t', .classType ht', by
        rw [Thrown.print, Thrown.print, Thrown.reference, Thrown.reference, Reference.print,
          Reference.print, hprint]⟩
  | typeVariable identifier =>
      have hx : (Reference.typeVariable identifier).Obeys plainRules := hx
      cases hx with
      | typeVariable hid =>
          exact ⟨.typeVariable identifier, .typeVariable (hid.1.undelimited hid.2), rfl⟩

/-- What the parser reads as one of the formal type parameters without an error, and
not only as the first one. -/
def ReadableFormal (f : Formal) : Prop := f.Obeys parserRules ∧ f.Bounded ∧ f.name ≠ []

theorem exists_formal {f : Formal} (hf : f.Obeys plainRules) :
    ∃ f' : Formal, f'.Obeys parserRules ∧ (f.Bounded → f'.Bounded) ∧ f'.name = f.name ∧
      f'.print = f.print := by
  obtain ⟨name, classBound, interfaceBounds⟩ := f
  obtain ⟨hname, hclass, hinterfaces⟩ := hf
  have hbound : ∃ b : Option Reference, (∀ r ∈ b, r.Obeys parserRules) ∧
      b.isSome = classBound.isSome ∧
      (b.map Reference.print).getD [] = (classBound.map Reference.print).getD [] := by
    cases classBound with
    | none => exact ⟨none, by simp, rfl, rfl⟩
    | some r =>
        obtain ⟨r', hr', hprint⟩ := exists_reference (hclass r rfl)
        exact ⟨some r', by simpa using hr', rfl, hprint⟩
  obtain ⟨b, hb, hsome, hprint⟩ := hbound
  have hitem : ∀ r ∈ interfaceBounds, ∃ r' : Reference, r'.Obeys parserRules ∧
      code ':' :: r'.print = code ':' :: r.print := by
    intro r hr
    obtain ⟨r', hr', hprint⟩ := exists_reference (hinterfaces r hr)
    exact ⟨r', hr', by rw [hprint]⟩
  obtain ⟨rs, hrs, hempty, hprints⟩ := exists_list hitem
  refine ⟨⟨name, b, rs⟩, ⟨hname.1.undelimited hname.2, hb, hrs⟩, ?_, rfl, ?_⟩
  · rintro (hsome' | hne)
    · refine .inl fun hnone => hsome' ?_
      have hnone : b = none := hnone
      simpa [hnone] using hsome
    · refine .inr fun hnil => hne ?_
      have hnil : rs = [] := hnil
      simpa [hnil] using hempty
  · rw [Formal.print, Formal.print, Formal.printInterfaces, Formal.printInterfaces, hprint, hprints]

theorem exists_readable {f : Formal} (hf : f.Obeys plainRules) (hbounded : f.Bounded) :
    ∃ f' : Formal, ReadableFormal f' ∧ f'.print = f.print := by
  obtain ⟨f', hf', hbounded', hname, hprint⟩ := exists_formal hf
  exact ⟨f', ⟨hf', hbounded' hbounded, hname ▸ hf.name.1.1⟩, hprint⟩

theorem readable_of_formals {fs : List Formal} (hfs : ∀ f ∈ fs, ReadableFormal f) :
    (∀ f ∈ fs, f.Obeys parserRules) ∧ Readable fs :=
  ⟨fun f hf => (hfs f hf).1, fun f hf => (hfs f hf).2.1,
    fun f hf => (hfs f (List.mem_of_mem_tail hf)).2.2⟩

theorem exists_readables {fs : List Formal} (hfs : ∀ f ∈ fs, f.Obeys plainRules)
    (hbounded : ∀ f ∈ fs, f.Bounded) :
    ∃ gs : List Formal, (∀ g ∈ gs, ReadableFormal g) ∧
      gs.flatMap Formal.print = fs.flatMap Formal.print ∧ printFormals gs = printFormals fs := by
  obtain ⟨gs, hgs, hempty, hprint⟩ :=
    exists_list fun f hf => exists_readable (hfs f hf) (hbounded f hf)
  exact ⟨gs, hgs, hprint, by
    rw [printFormals, printFormals, printBracketed, printBracketed, hempty, hprint]⟩

/-- A plain signature is one that the parser reads. -/
theorem lenient_of_plain {entry : Entry} {s : Bytes} (h : Plain entry s) : Lenient entry s := by
  cases h with
  | classSig ht hbounded =>
      obtain ⟨gs, hgs, -, hformals⟩ := exists_readables ht.formals hbounded
      obtain ⟨hobeys, hreadable⟩ := readable_of_formals hgs
      obtain ⟨c, hc, hsuper⟩ := exists_classType ht.superclass
      obtain ⟨cs, hcs, -, hinterfaces⟩ :=
        exists_list fun d hd => exists_classType (ht.interfaces d hd)
      have htree : Lenient .classSig ((⟨gs, c, cs⟩ : ClassTree).print ++ []) :=
        .classSig ⟨hobeys, hc, hcs⟩ hreadable (by decide)
      rw [List.append_nil, ClassTree.print, hformals, hsuper, hinterfaces] at htree
      exact htree
  | @methodSig t ht hbounded =>
      obtain ⟨gs, hgs, -, hformals⟩ := exists_readables ht.formals hbounded
      obtain ⟨hobeys, hreadable⟩ := readable_of_formals hgs
      obtain ⟨ps, hps, -, hparameters⟩ := exists_list fun p hp => exists_type (ht.parameters p hp)
      obtain ⟨xs, hxs, -, hthrows⟩ := exists_list fun x hx => exists_thrown (ht.throws x hx)
      have hresult : ∃ result : Option JavaType, (∀ r ∈ result, r.Obeys parserRules) ∧
          MethodTree.printResult result = MethodTree.printResult t.result := by
        cases hvoid : t.result with
        | none => exact ⟨none, by simp, rfl⟩
        | some r =>
            obtain ⟨r', hr', hprint⟩ := exists_type (ht.result r hvoid)
            exact ⟨some r', by simpa using hr', hprint⟩
      obtain ⟨result, hr, hprint⟩ := hresult
      have htree : Lenient .methodSig ((⟨gs, ps, result, xs⟩ : MethodTree).print ++ []) :=
        .methodSig ⟨hobeys, hps, hr, hxs⟩ hreadable (by decide)
      rw [List.append_nil, MethodTree.print, hformals, hparameters, hprint, hthrows] at htree
      exact htree
  | typeSig ht =>
      obtain ⟨t', ht', hprint⟩ := exists_type ht
      have htree : Lenient .typeSig (t'.print ++ []) := .typeSig ht'
      rw [List.append_nil, hprint] at htree
      exact htree

end Lenient

end Tarracsh.SignatureLanguage
