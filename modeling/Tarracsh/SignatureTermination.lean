import Tarracsh.SignatureDecisions

/-!
# On which texts the parser of signatures finishes

Each text starts with a signature, with one whose last formal type parameter has
no bound, breaks off inside an identifier, keeps the loop over formal type
parameters going, or is refused.
-/
namespace Tarracsh.SignatureTermination
open ByteStrings DescentRuns SignatureParser SignatureTrees SignatureTypes SignatureRoundTrip
  SignaturePrefixes SignatureDecisions

section Formals
variable {input u : Bytes}

theorem throws_classBound {name : Bytes} (hname : Undelimited name) (hhead : u.headD 0 ≠ code ':')
    (h : Throws input (Place.reference.run input) u) (hu : name ++ code ':' :: u <:+ input) :
    Throws input (fun m => parseFormalTypeParameter input m) (name ++ code ':' :: u) := by
  obtain ⟨x, hx, hfails⟩ := h
  exact ⟨x, hx, fails_classBound hname hhead hfails hu⟩

/-- What stands behind the colon of a formal type parameter. -/
theorem decides_classBound {name : Bytes} (hname : Undelimited name)
    (hu : name ++ code ':' :: u <:+ input) :
    (∃ (bound : Option Reference) (left : Bytes), (∀ r ∈ bound, r.Obeys parserRules) ∧
        (bound = none → left.headD 0 = code ':') ∧
        u = (bound.map Reference.print).getD [] ++ left) ∨
      FormalLeads cut (name ++ code ':' :: u) ∨
      Throws input (fun m => parseFormalTypeParameter input m) (name ++ code ':' :: u) := by
  have hrest := (List.suffix_cons _ _).trans ((List.suffix_append _ _).trans hu)
  by_cases hhead : u.headD 0 = code ':'
  · exact .inl ⟨none, u, by simp, fun _ => hhead, rfl⟩
  · rcases decides_reference hrest with ⟨r, left, hr, rfl⟩ | hleads | hthrows
    · exact .inl ⟨some r, left, by simpa using hr, by simp, rfl⟩
    · exact .inr (.inl (.classBound hname hleads))
    · exact .inr (.inr (throws_classBound hname hhead hthrows hu))

/-- Interface bounds, and what stands behind them instead of one more. -/
theorem exists_interfaceBounds (hu : u <:+ input) :
    ∃ (rs : List Reference) (left : Bytes), (∀ r ∈ rs, r.Obeys parserRules) ∧
      u = Formal.printInterfaces rs ++ left ∧ (left.headD 0 ≠ code ':' ∨
        ∃ v, left = code ':' :: v ∧
          (Leads cut .reference v ∨ Throws input (Place.reference.run input) v)) := by
  have hitem : ∀ w, w <:+ input → w.length ≤ u.length → decide (w.headD 0 = code ':') = true →
      (∃ (r : Reference) (left : Bytes), r.Obeys parserRules ∧
        w = code ':' :: r.print ++ left ∧ True) ∨
      ∃ v, w = code ':' :: v ∧
        (Leads cut .reference v ∨ Throws input (Place.reference.run input) v) := by
    intro w hw _ hmore
    obtain ⟨v, rfl⟩ := exists_cons_of_headD (of_decide_eq_true hmore) (by decide)
    rcases decides_reference ((List.suffix_cons _ _).trans hw) with ⟨r, left, hr, rfl⟩ | h
    · exact .inl ⟨r, left, hr, rfl, trivial⟩
    · exact .inr ⟨v, rfl, h⟩
  obtain ⟨rs, left, hrs, heq, -, hend⟩ := exists_items (fun c => c = code ':') (fun _ => True)
    hitem (fun r _ => List.cons_ne_nil _ _) trivial hu le_rfl
  refine ⟨rs, left, hrs, heq, ?_⟩
  rcases hend with hstop | ⟨-, hother⟩
  · exact .inl (of_decide_eq_false hstop)
  · exact .inr hother

theorem decides_formal (hu : u <:+ input) :
    (∃ (f : Formal) (left : Bytes), f.Obeys parserRules ∧ f.Bounded ∧ u = f.print ++ left ∧
        left.headD 0 ≠ code ':') ∨
      (∃ name c left, Undelimited name ∧ isDelimiter c = true ∧ c ≠ code ':' ∧
        u = name ++ c :: left) ∨
      FormalLeads cut u ∨ Throws input (fun m => parseFormalTypeParameter input m) u := by
  rcases exists_identifier u with ⟨name, c, v, hname, hc, rfl⟩ | hcut
  · by_cases hcolon : c = code ':'
    · subst hcolon
      rcases decides_classBound hname hu with ⟨bound, w, hbound, hnone, rfl⟩ | h
      · have hw := (List.suffix_append _ _).trans ((List.suffix_cons _ _).trans
          ((List.suffix_append _ _).trans hu))
        obtain ⟨rs, left, hrs, rfl, hend⟩ := exists_interfaceBounds hw
        have hf : (⟨name, bound, rs⟩ : Formal).Obeys parserRules := ⟨hname, hbound, hrs⟩
        have hprint : name ++ code ':' :: ((bound.map Reference.print).getD [] ++
            (Formal.printInterfaces rs ++ left)) =
            (⟨name, bound, rs⟩ : Formal).print ++ left := by
          simp [Formal.print]
        rw [hprint] at hu ⊢
        rcases hend with hstop | ⟨v, rfl, hleads | ⟨x, hx, hfails⟩⟩
        · refine .inl ⟨⟨name, bound, rs⟩, left, hf, ?_, rfl, hstop⟩
          by_cases hne : rs = []
          · subst hne
            exact .inl fun h => hstop (hnone h)
          · exact .inr hne
        · exact .inr (.inr (.inl (.interfaceBound hf hleads)))
        · exact .inr (.inr (.inr ⟨x, hx, fails_interfaceBound hf hfails hu⟩))
      · exact .inr (.inr h)
    · exact .inr (.inl ⟨name, c, v, hname, hc, hcolon, rfl⟩)
  · exact .inr (.inr (.inl (.formal hcut)))

/-- What may stand behind formal type parameters instead of one more that is read
without an error. -/
inductive EndsFormals (input : Bytes) : Bytes → Prop where
  | colon {u : Bytes} : u.headD 0 = code ':' → EndsFormals input u
  | unbounded {name : Bytes} {c : UInt8} {left : Bytes} : Undelimited name →
      isDelimiter c = true → c ≠ code ':' → EndsFormals input (name ++ c :: left)
  | leads {u : Bytes} : FormalLeads cut u → EndsFormals input u
  | throws {u : Bytes} : Throws input (fun m => parseFormalTypeParameter input m) u →
      EndsFormals input u

theorem formal_print_ne_nil (f : Formal) : f.print ≠ [] := by
  rw [Formal.print]
  simp

theorem exists_formals (hu : u <:+ input) (hhead : u.headD 0 ≠ code ':') :
    ∃ (fs : List Formal) (left : Bytes),
      (∀ f ∈ fs, f.Obeys parserRules ∧ f.Bounded ∧ f.name ≠ []) ∧
      u = fs.flatMap Formal.print ++ left ∧ left.headD 0 ≠ code ':' ∧
      (left.headD 0 = code '>' ∨ (left.headD 0 ≠ code '>' ∧ EndsFormals input left)) := by
  have hitem : ∀ w, w <:+ input → w.length ≤ u.length → decide (w.headD 0 ≠ code '>') = true →
      (∃ (f : Formal) (left : Bytes), (f.Obeys parserRules ∧ f.Bounded ∧ f.name ≠ []) ∧
        w = f.print ++ left ∧ left.headD 0 ≠ code ':') ∨ EndsFormals input w := by
    intro w hw _ _
    rcases decides_formal hw with ⟨f, left, hf, hbounded, rfl, hleft⟩ |
      ⟨name, c, left, hname, hc, hcolon, rfl⟩ | hleads | hthrows
    · by_cases hnamed : f.name = []
      · exact .inr (.colon (by rw [Formal.print, hnamed]; rfl))
      · exact .inl ⟨f, left, ⟨hf, hbounded, hnamed⟩, rfl, hleft⟩
    · exact .inr (.unbounded hname hc hcolon)
    · exact .inr (.leads hleads)
    · exact .inr (.throws hthrows)
  obtain ⟨fs, left, hfs, heq, hleft, hend⟩ := exists_items (fun c => c ≠ code '>')
    (fun left => left.headD 0 ≠ code ':') hitem (fun f _ => formal_print_ne_nil f) hhead hu le_rfl
  refine ⟨fs, left, hfs, heq, hleft, ?_⟩
  rcases hend with hstop | ⟨hgoes, hother⟩
  · exact .inl (by simpa using hstop)
  · exact .inr ⟨of_decide_eq_true hgoes, hother⟩

theorem decides_formals (hu : code '<' :: u <:+ input) :
    (∃ (fs : List Formal) (left : Bytes), fs ≠ [] ∧ (∀ f ∈ fs, f.Obeys parserRules) ∧
        Readable fs ∧ code '<' :: u = printFormals fs ++ left) ∨
      (∃ head left, Dangling head ∧ code '<' :: u = head ++ left) ∨
      StuckFormals u ∨ FormalsLead cut u ∨
      Throws input (fun m => parseZeroOrMoreFormalTypeParameters input m) (code '<' :: u) := by
  have hrest := (List.suffix_cons _ _).trans hu
  rcases decides_formal hrest with ⟨f, v, hf, hbounded, rfl, hv⟩ |
    ⟨name, c, left, hname, hc, hcolon, rfl⟩ | hleads | ⟨x, hx, hfails⟩
  · obtain ⟨fs, left, hfs, rfl, hcolon, hend⟩ :=
      exists_formals ((List.suffix_append _ _).trans hrest) hv
    have hobeys : ∀ g ∈ f :: fs, g.Obeys parserRules := by
      simpa [hf] using fun g hg => (hfs g hg).1
    have hreadable : Readable (f :: fs) :=
      ⟨by simpa [hbounded] using fun g hg => (hfs g hg).2.1, fun g hg => (hfs g hg).2.2⟩
    have hprint : f.print ++ (fs.flatMap Formal.print ++ left) =
        (f :: fs).flatMap Formal.print ++ left := by
      simp
    rw [hprint] at hu hrest ⊢
    rcases hend with hstop | ⟨hgt, hother⟩
    · obtain ⟨left, rfl⟩ := exists_cons_of_headD hstop (by decide)
      refine .inl ⟨f :: fs, left, List.cons_ne_nil f fs, hobeys, hreadable, ?_⟩
      rw [printFormals, printBracketed_append (List.cons_ne_nil f fs)]
    · cases hother with
      | colon h => exact absurd h hcolon
      | @unbounded name c left hname hc hne =>
          by_cases hclose : c = code '>'
          · subst hclose
            have hnamed : name ≠ [] := by
              rintro rfl
              exact hgt rfl
            exact .inr (.inl ⟨_, left, .mk hobeys hreadable hname fun _ => hnamed, by simp⟩)
          · have hstuck : isStuck c = true := by simp [isStuck, hc, hne, hclose]
            rw [← List.append_assoc]
            exact .inr (.inr (.inl (.mk hobeys hreadable hname hstuck)))
      | leads hleads =>
          exact .inr (.inr (.inr (.inl (.mk hobeys hreadable (fun _ => ⟨hcolon, hgt⟩) hleads))))
      | throws hthrows =>
          obtain ⟨x, hx, hfails⟩ := hthrows
          refine .inr (.inr (.inr (.inr ⟨x, hx, fun errors => ?_⟩)))
          refine Yields.congr (Yields.bind_failure ?_) fun m => run_formals hu m
          exact yields_formals hobeys hreadable hcolon hrest
            (Loops.fail ((List.suffix_append _ _).trans hrest) (by simpa using hgt)
              (fails_nextFormal hfails errors))
  · have hnone : ∀ f ∈ ([] : List Formal), f.Obeys parserRules := by simp
    have hreadable : Readable [] := ⟨by simp, by simp⟩
    by_cases hclose : c = code '>'
    · subst hclose
      exact .inr (.inl ⟨_, left, .mk hnone hreadable hname fun h => absurd rfl h, by simp⟩)
    · have hstuck : isStuck c = true := by simp [isStuck, hc, hcolon, hclose]
      exact .inr (.inr (.inl (.mk hnone hreadable hname hstuck)))
  · have hlead : FormalsLead cut ([].flatMap Formal.print ++ u) :=
      .mk (by simp) ⟨by simp, by simp⟩ (fun h => absurd rfl h) hleads
    exact .inr (.inr (.inr (.inl hlead)))
  · refine .inr (.inr (.inr (.inr ⟨x, hx, fun errors => ?_⟩)))
    refine Yields.congr (Yields.bind_failure ?_) fun m => run_formals hu m
    exact Yields.bind_failure (hfails errors)

end Formals

section Rests
variable {input u : Bytes}

theorem decides_classTypes (hu : u <:+ input) :
    (∃ (t : ClassType) (ts : List ClassType) (left : Bytes), t.Obeys parserRules ∧
        (∀ c ∈ ts, c.Obeys parserRules) ∧ left.headD 0 ≠ code 'L' ∧
        u = t.print ++ (ts.flatMap ClassType.print ++ left)) ∨
      (∀ head, Heading head → SignatureLeads cut .classSig (head ++ u)) ∨
      ∃ x, (∃ message, x = .threw message) ∧ ∀ ftps, Fails input (restOfClass input ftps) u x := by
  rcases decides_classType hu with ⟨t, v, ht, rfl⟩ | ⟨hhead, hleads⟩ | ⟨x, hx, hfails⟩
  · have hv := (List.suffix_append _ _).trans hu
    have hitem : ∀ w, w <:+ input → w.length ≤ v.length → decide (w.headD 0 = code 'L') = true →
        (∃ (c : ClassType) (left : Bytes), c.Obeys parserRules ∧ w = c.print ++ left ∧ True) ∨
          (Leads cut .reference w ∨ Throws input (fun m => parseClassType input m) w) := by
      intro w hw _ _
      rcases decides_classType hw with ⟨c, left, hc, rfl⟩ | ⟨-, hleads⟩ | hthrows
      · exact .inl ⟨c, left, hc, rfl, trivial⟩
      · exact .inr (.inl hleads)
      · exact .inr (.inr hthrows)
    have hnonempty : ∀ c : ClassType, c.Obeys parserRules → c.print ≠ [] := by
      intro c _
      obtain ⟨rest, hprint⟩ := exists_print_classType c
      rw [hprint]
      exact List.cons_ne_nil _ rest
    obtain ⟨ts, left, hts, rfl, -, hend⟩ := exists_items (fun c => c = code 'L') (fun _ => True)
      hitem hnonempty trivial hv le_rfl
    have hall : ∀ c ∈ t :: ts, c.Obeys parserRules := by simpa [ht] using hts
    have hprint : t.print ++ (ts.flatMap ClassType.print ++ left) =
        (t :: ts).flatMap ClassType.print ++ left := by
      simp
    rcases hend with hstop | ⟨hgoes, hleads | ⟨x, hx, hfails⟩⟩
    · exact .inl ⟨t, ts, left, ht, hts, of_decide_eq_false hstop, rfl⟩
    · rw [hprint]
      exact .inr (.inl fun head hhead => .classType hhead hall (of_decide_eq_true hgoes) hleads)
    · rw [hprint] at hu ⊢
      exact .inr (.inr ⟨x, hx, fails_classTypes hall (of_decide_eq_true hgoes) hfails hu⟩)
  · have hnone : ∀ c ∈ ([] : List ClassType), c.Obeys parserRules := by simp
    exact .inr (.inl fun head hheading => .classType hheading hnone hhead hleads)
  · exact .inr (.inr ⟨x, hx, fun ftps errors => Yields.bind_failure (hfails errors)⟩)

theorem decides_parameters (hu : u <:+ input) :
    (∃ (ts : List JavaType) (left : Bytes), (∀ t ∈ ts, t.Obeys parserRules) ∧
        u = code '(' :: (ts.flatMap JavaType.print ++ code ')' :: left)) ∨
      (∃ (ts : List JavaType) (v : Bytes), (∀ t ∈ ts, t.Obeys parserRules) ∧
        u = code '(' :: (ts.flatMap JavaType.print ++ v) ∧ Leads cut .reference v) ∨
      Throws input (fun m => parseFormalParameters input m) u := by
  by_cases hopen : u.headD 0 = code '('
  · obtain ⟨v, rfl⟩ := exists_cons_of_headD hopen (by decide)
    have hv := (List.suffix_cons _ _).trans hu
    have hitem : ∀ w, w <:+ input → w.length ≤ v.length → startsType (w.headD 0) = true →
        (∃ (t : JavaType) (left : Bytes), t.Obeys parserRules ∧ w = t.print ++ left ∧ True) ∨
          (Leads cut .reference w ∨ Throws input (fun m => parseType input m) w) := by
      intro w hw _ _
      rcases decides_type hw with ⟨t, left, ht, rfl⟩ | h
      · exact .inl ⟨t, left, ht, rfl, trivial⟩
      · exact .inr h
    have hnonempty : ∀ t : JavaType, t.Obeys parserRules → t.print ≠ [] := by
      intro t _
      obtain ⟨c, rest, hprint, -⟩ := exists_print_type t
      rw [hprint]
      exact List.cons_ne_nil c rest
    obtain ⟨ts, left, hts, rfl, -, hend⟩ := exists_items startsType (fun _ => True)
      hitem hnonempty trivial hv le_rfl
    have hleft := (List.suffix_append _ _).trans hv
    rcases hend with hstop | ⟨hgoes, hleads | ⟨x, hx, hfails⟩⟩
    · by_cases hclose : left.headD 0 = code ')'
      · obtain ⟨left, rfl⟩ := exists_cons_of_headD hclose (by decide)
        exact .inl ⟨ts, left, hts, rfl⟩
      · refine .inr (.inr (throws_of_run (ascii "expected ')'") fun errors => ?_))
        have hloop := Reads.repeatWhile (items_types hts) trivial hv hstop [] errors
        refine Yields.congr ?_ fun m => by
          rw [parseFormalParameters, current_bind_cons hu, if_neg (by simp), advance_bind_cons hu]
        refine hloop.bind (Yields.const fun m => ?_)
        rw [current_bind hleft, if_pos hclose, Run.fail_apply]
    · exact .inr (.inl ⟨ts, left, hts, rfl, hleads⟩)
    · exact .inr (.inr ⟨x, hx, fails_parameter hts hgoes hfails hu⟩)
  · refine .inr (.inr (throws_of_run (ascii "expected '('") fun errors => Yields.const fun m => ?_))
    rw [parseFormalParameters, current_bind hu, if_pos hopen, Run.fail_apply]

theorem decides_result (hu : u <:+ input) :
    (∃ (result : Option JavaType) (left : Bytes), (∀ r ∈ result, r.Obeys parserRules) ∧
        u = MethodTree.printResult result ++ left) ∨
      Leads cut .reference u ∨ Throws input (fun m => parseReturnType input m) u := by
  by_cases hvoid : u.headD 0 = code 'V'
  · obtain ⟨left, rfl⟩ := exists_cons_of_headD hvoid (by decide)
    exact .inl ⟨none, left, by simp, rfl⟩
  · rcases decides_type hu with ⟨t, left, ht, rfl⟩ | hleads | ⟨x, hx, hfails⟩
    · exact .inl ⟨some t, left, by simpa using ht, rfl⟩
    · exact .inr (.inl hleads)
    · exact .inr (.inr ⟨x, hx, fails_result hvoid hu hfails⟩)

theorem decides_throws (hu : u <:+ input) :
    (∃ (xs : List Thrown) (left : Bytes), (∀ x ∈ xs, x.reference.Obeys parserRules) ∧
        left.headD 0 ≠ code '^' ∧ u = xs.flatMap Thrown.print ++ left) ∨
      (∃ (xs : List Thrown) (v : Bytes), (∀ x ∈ xs, x.reference.Obeys parserRules) ∧
        v.headD 0 ≠ code '[' ∧ Leads cut .reference v ∧
        u = xs.flatMap Thrown.print ++ code '^' :: v) ∨
      Throws input (fun m => parseZeroOrMoreThrowsSignatures input m) u := by
  have hitem : ∀ w, w <:+ input → w.length ≤ u.length → decide (w.headD 0 = code '^') = true →
      (∃ (x : Thrown) (left : Bytes), x.reference.Obeys parserRules ∧
        w = x.print ++ left ∧ True) ∨
      ∃ v, w = code '^' :: v ∧ ((v.headD 0 ≠ code '[' ∧ Leads cut .reference v) ∨
        Throws input (fun m => parseFieldTypeSignature input m false) v) := by
    intro w hw _ hmore
    obtain ⟨v, rfl⟩ := exists_cons_of_headD (of_decide_eq_true hmore) (by decide)
    rcases decides_thrown ((List.suffix_cons _ _).trans hw) with ⟨x, left, hx, rfl⟩ | h
    · exact .inl ⟨x, left, hx, rfl, trivial⟩
    · exact .inr ⟨v, rfl, h⟩
  obtain ⟨xs, left, hxs, rfl, -, hend⟩ := exists_items (fun c => c = code '^') (fun _ => True)
    hitem (fun x _ => List.cons_ne_nil _ _) trivial hu le_rfl
  rcases hend with hstop | ⟨-, v, rfl, ⟨harray, hleads⟩ | ⟨x, hx, hfails⟩⟩
  · exact .inl ⟨xs, left, hxs, of_decide_eq_false hstop, rfl⟩
  · exact .inr (.inl ⟨xs, v, hxs, harray, hleads, rfl⟩)
  · exact .inr (.inr ⟨x, hx, fails_thrown hxs hfails hu⟩)

/-- What the parser reads without recording an error. Text may follow it that does not
look like one more interface or exception. -/
inductive Lenient : Entry → Bytes → Prop where
  | classSig {t : ClassTree} {left : Bytes} : t.Obeys parserRules → Readable t.formals →
      left.headD 0 ≠ code 'L' → Lenient .classSig (t.print ++ left)
  | methodSig {t : MethodTree} {left : Bytes} : t.Obeys parserRules → Readable t.formals →
      left.headD 0 ≠ code '^' → Lenient .methodSig (t.print ++ left)
  | typeSig {t : JavaType} {left : Bytes} : t.Obeys parserRules → Lenient .typeSig (t.print ++ left)

/-- The loop over formal type parameters goes on forever. -/
def Stuck (entry : Entry) (s : Bytes) : Prop :=
  entry ≠ .typeSig ∧ ∃ u, s = code '<' :: u ∧ StuckFormals u

theorem reads_restOfClass {t : ClassType} {ts : List ClassType} (ht : t.Obeys parserRules)
    (hts : ∀ c ∈ ts, c.Obeys parserRules) {left : Bytes} (hleft : left.headD 0 ≠ code 'L')
    (hu : t.print ++ (ts.flatMap ClassType.print ++ left) <:+ input)
    (ftps : List FormalTypeParameter) (errors : List String) :
    Yields (fun m => restOfClass input ftps m
        (standing input (t.print ++ (ts.flatMap ClassType.print ++ left)) errors))
      (.returned ⟨ftps, t.node, ts.map ClassType.node⟩ (standing input left errors)) := by
  have hread := reads_parseClassType ht hu errors
  have hloop := Reads.repeatWhile (items_classTypes hts) trivial ((List.suffix_append _ _).trans hu)
    (decide_eq_false hleft) [] errors
  exact hread.bind (Yields.map hloop fun interfaces =>
    (⟨ftps, t.node, interfaces⟩ : ClassSignature))

/-- What stands in front of the types of a class or a method. -/
theorem decides_heading (hu : u <:+ input) :
    (∃ (fs : List Formal) (left : Bytes), (∀ f ∈ fs, f.Obeys parserRules) ∧ Readable fs ∧
        (fs = [] → left.headD 0 ≠ code '<') ∧ u = printFormals fs ++ left) ∨
      (∃ head left, Dangling head ∧ u = head ++ left) ∨
      (∃ v, u = code '<' :: v ∧ StuckFormals v) ∨
      (∃ v, u = code '<' :: v ∧ FormalsLead cut v) ∨
      Throws input (fun m => parseZeroOrMoreFormalTypeParameters input m) u := by
  by_cases hopen : u.headD 0 = code '<'
  · obtain ⟨v, rfl⟩ := exists_cons_of_headD hopen (by decide)
    rcases decides_formals hu with ⟨fs, left, hne, hobeys, hfs, heq⟩ | h | h | h | h
    · exact .inl ⟨fs, left, hobeys, hfs, fun h => absurd h hne, heq⟩
    · exact .inr (.inl h)
    · exact .inr (.inr (.inl ⟨v, rfl, h⟩))
    · exact .inr (.inr (.inr (.inl ⟨v, rfl, h⟩)))
    · exact .inr (.inr (.inr (.inr h)))
  · exact .inl ⟨[], u, by simp, ⟨by simp, by simp⟩, fun _ => hopen, rfl⟩

end Rests

section Entries
variable {s : Bytes}

/-- What becomes of a signature. -/
inductive Fate (entry : Entry) (s : Bytes) : Prop where
  | reads : Lenient entry s → Fate entry s
  | records {value : entry.Result} {cursor : Cursor} : cursor.errors ≠ [] →
      Yields (fun fuel => entry.parse fuel s) (.returned value cursor) → Fate entry s
  | leads : SignatureLeads cut entry s → Fate entry s
  | stuck : Stuck entry s → Fate entry s
  | throws {message : Bytes} :
      Yields (fun fuel => entry.parse fuel s) (.threw message) → Fate entry s

theorem fate_throws {entry : Entry} (h : Throws s (entry.run s) s) : Fate entry s := by
  obtain ⟨x, ⟨message, rfl⟩, hfails⟩ := h
  exact .throws ((hfails []).congr fun fuel => entry.parse_eq fuel s)

theorem class_fate (s : Bytes) : Fate .classSig s := by
  have hs : s <:+ s := List.suffix_refl s
  rcases decides_heading hs with ⟨fs, u, hobeys, hfs, hopen, heq⟩ | ⟨head, u, hhead, heq⟩ |
    ⟨v, heq, hstuck⟩ | ⟨v, heq, hleads⟩ | ⟨x, hx, hfails⟩
  · rw [heq] at hs
    have hu := (List.suffix_append _ _).trans hs
    rcases decides_classTypes hu with ⟨t, ts, left, ht, hts, hleft, rfl⟩ | hleads | ⟨x, hx, hfails⟩
    · have htree : Lenient .classSig ((⟨fs, t, ts⟩ : ClassTree).print ++ left) :=
        .classSig ⟨hobeys, ht, hts⟩ hfs hleft
      rw [heq]
      exact .reads (by simpa [ClassTree.print] using htree)
    · rw [heq]
      exact .leads (hleads _ (.formals hobeys hfs))
    · refine fate_throws ⟨x, hx, fun errors => ?_⟩
      rw [heq]
      exact (reads_formals hobeys hfs hopen hs errors).bind (hfails _ errors)
  · rw [heq] at hs
    have hu := (List.suffix_append _ _).trans hs
    obtain ⟨ftps, errors', hne, hread⟩ := hhead.yields hs []
    rcases decides_classTypes hu with ⟨t, ts, left, ht, hts, hleft, rfl⟩ | hleads | ⟨x, hx, hfails⟩
    · have hrest := reads_restOfClass ht hts hleft hu ftps errors'
      rw [heq]
      exact .records hne ((hread.bind hrest).congr fun fuel => Entry.parse_eq .classSig fuel _)
    · rw [heq]
      exact .leads (hleads _ (.dangling hhead))
    · refine fate_throws ⟨x, hx, fun errors => ?_⟩
      obtain ⟨ftps, errors', -, hread⟩ := hhead.yields hs errors
      rw [heq]
      exact hread.bind (hfails ftps errors')
  · exact .stuck ⟨by simp, v, heq, hstuck⟩
  · rw [heq]
    exact .leads (.formals (by simp) hleads)
  · exact fate_throws ⟨x, hx, fun errors => Yields.bind_failure (hfails errors)⟩

/-- What stands behind the formal type parameters of a method. -/
theorem decides_restOfMethod {input u : Bytes} (hu : u <:+ input) :
    (∃ (ts : List JavaType) (result : Option JavaType) (xs : List Thrown) (left : Bytes),
        (∀ t ∈ ts, t.Obeys parserRules) ∧ (∀ r ∈ result, r.Obeys parserRules) ∧
        (∀ x ∈ xs, x.reference.Obeys parserRules) ∧ left.headD 0 ≠ code '^' ∧
        u = code '(' :: (ts.flatMap JavaType.print ++ code ')' ::
          (MethodTree.printResult result ++ (xs.flatMap Thrown.print ++ left)))) ∨
      (∀ head, Heading head → SignatureLeads cut .methodSig (head ++ u)) ∨
      ∃ x, (∃ message, x = .threw message) ∧ ∀ ftps, Fails input (restOfMethod input ftps) u x := by
  rcases decides_parameters hu with ⟨ts, v, hts, rfl⟩ | ⟨ts, v, hts, rfl, hleads⟩ | ⟨x, hx, hfails⟩
  · have hv := (List.suffix_cons _ _).trans ((List.suffix_append _ _).trans
      ((List.suffix_cons _ _).trans hu))
    rcases decides_result hv with ⟨result, w, hresult, rfl⟩ | hleads | ⟨x, hx, hfails⟩
    · have hw := (List.suffix_append _ _).trans hv
      rcases decides_throws hw with ⟨xs, left, hxs, hleft, rfl⟩ |
        ⟨xs, z, hxs, harray, hleads, rfl⟩ | ⟨x, hx, hfails⟩
      · exact .inl ⟨ts, result, xs, left, hts, hresult, hxs, hleft, rfl⟩
      · exact .inr (.inl fun head hhead => .thrown hhead hts hresult hxs harray hleads)
      · refine .inr (.inr ⟨x, hx, fun ftps errors => ?_⟩)
        exact (reads_parameters hts hu errors).bind ((reads_result hresult hv errors).bind
          (Yields.bind_failure (hfails errors)))
    · exact .inr (.inl fun head hhead => .result hhead hts hleads)
    · refine .inr (.inr ⟨x, hx, fun ftps errors => ?_⟩)
      exact (reads_parameters hts hu errors).bind (Yields.bind_failure (hfails errors))
  · exact .inr (.inl fun head hhead => .parameter hhead hts hleads)
  · exact .inr (.inr ⟨x, hx, fun ftps errors => Yields.bind_failure (hfails errors)⟩)

theorem reads_restOfMethod {input : Bytes} {ts : List JavaType} {result : Option JavaType}
    {xs : List Thrown} (hts : ∀ t ∈ ts, t.Obeys parserRules)
    (hresult : ∀ r ∈ result, r.Obeys parserRules) (hxs : ∀ x ∈ xs, x.reference.Obeys parserRules)
    {left : Bytes} (hleft : left.headD 0 ≠ code '^')
    (hu : code '(' :: (ts.flatMap JavaType.print ++ code ')' ::
      (MethodTree.printResult result ++ (xs.flatMap Thrown.print ++ left))) <:+ input)
    (ftps : List FormalTypeParameter) (errors : List String) :
    ∃ value, Yields (fun m => restOfMethod input ftps m (standing input
        (code '(' :: (ts.flatMap JavaType.print ++ code ')' ::
          (MethodTree.printResult result ++ (xs.flatMap Thrown.print ++ left)))) errors))
      (.returned value (standing input left errors)) := by
  have hv := (List.suffix_cons _ _).trans ((List.suffix_append _ _).trans
    ((List.suffix_cons _ _).trans hu))
  have hw := (List.suffix_append _ _).trans hv
  have hloop := Reads.repeatWhile (items_throws hxs) trivial hw (decide_eq_false hleft) [] errors
  have hthrown := Yields.map hloop fun throws => (⟨ftps, ts.map JavaType.node,
    MethodTree.nodeResult result, throws⟩ : MethodTypeSignature)
  exact ⟨_, (reads_parameters hts hu errors).bind ((reads_result hresult hv errors).bind hthrown)⟩

theorem method_fate (s : Bytes) : Fate .methodSig s := by
  have hs : s <:+ s := List.suffix_refl s
  rcases decides_heading hs with ⟨fs, u, hobeys, hfs, hopen, heq⟩ | ⟨head, u, hhead, heq⟩ |
    ⟨v, heq, hstuck⟩ | ⟨v, heq, hleads⟩ | ⟨x, hx, hfails⟩
  · rw [heq] at hs
    have hu := (List.suffix_append _ _).trans hs
    rcases decides_restOfMethod hu with
      ⟨ts, result, xs, left, hts, hresult, hxs, hleft, rfl⟩ | hleads | ⟨x, hx, hfails⟩
    · have htree : Lenient .methodSig ((⟨fs, ts, result, xs⟩ : MethodTree).print ++ left) :=
        .methodSig ⟨hobeys, hts, hresult, hxs⟩ hfs hleft
      rw [heq]
      exact .reads (by simpa [MethodTree.print] using htree)
    · rw [heq]
      exact .leads (hleads _ (.formals hobeys hfs))
    · refine fate_throws ⟨x, hx, fun errors => ?_⟩
      rw [heq]
      exact (reads_formals hobeys hfs hopen hs errors).bind (hfails _ errors)
  · rw [heq] at hs
    have hu := (List.suffix_append _ _).trans hs
    obtain ⟨ftps, errors', hne, hread⟩ := hhead.yields hs []
    rcases decides_restOfMethod hu with
      ⟨ts, result, xs, left, hts, hresult, hxs, hleft, rfl⟩ | hleads | ⟨x, hx, hfails⟩
    · obtain ⟨value, hrest⟩ := reads_restOfMethod hts hresult hxs hleft hu ftps errors'
      rw [heq]
      exact .records hne ((hread.bind hrest).congr fun fuel => Entry.parse_eq .methodSig fuel _)
    · rw [heq]
      exact .leads (hleads _ (.dangling hhead))
    · refine fate_throws ⟨x, hx, fun errors => ?_⟩
      obtain ⟨ftps, errors', -, hread⟩ := hhead.yields hs errors
      rw [heq]
      exact hread.bind (hfails ftps errors')
  · exact .stuck ⟨by simp, v, heq, hstuck⟩
  · rw [heq]
    exact .leads (.formals (by simp) hleads)
  · exact fate_throws ⟨x, hx, fun errors => Yields.bind_failure (hfails errors)⟩

theorem fate (entry : Entry) (s : Bytes) : Fate entry s := by
  cases entry with
  | classSig => exact class_fate s
  | methodSig => exact method_fate s
  | typeSig =>
      rcases decides_type (List.suffix_refl s) with ⟨t, left, ht, heq⟩ | hleads | hthrows
      · rw [heq]
        exact .reads (.typeSig ht)
      · exact .leads (.type hleads)
      · exact fate_throws hthrows

/-- A lenient signature is read, and no error is recorded. -/
theorem Lenient.yields {entry : Entry} (h : Lenient entry s) :
    ∃ value cursor, cursor.errors = [] ∧
      Yields (fun fuel => entry.parse fuel s) (.returned value cursor) := by
  cases h with
  | classSig ht hfs hleft =>
      have hread := reads_classSignature ht hfs hleft (List.suffix_refl _) []
      exact ⟨_, standing _ _ [], rfl, hread.congr fun fuel => Entry.parse_eq .classSig fuel _⟩
  | methodSig ht hfs hleft =>
      have hread := reads_methodSignature ht hfs hleft (List.suffix_refl _) []
      exact ⟨_, standing _ _ [], rfl, hread.congr fun fuel => Entry.parse_eq .methodSig fuel _⟩
  | @typeSig t left ht =>
      have hread := reads_parseType ht (List.suffix_refl (t.print ++ left)) []
      exact ⟨_, standing _ _ [], rfl, hread.congr fun fuel => Entry.parse_eq .typeSig fuel _⟩

theorem outside_of_leads {entry : Entry} (h : SignatureLeads cut entry s) :
    Yields (fun fuel => entry.parse fuel s) .outside := by
  obtain ⟨x, rfl, hfails⟩ := h.breaks cut_breaks (List.suffix_refl s)
  exact (hfails []).congr fun fuel => entry.parse_eq fuel s

theorem running_of_stuck {entry : Entry} (h : Stuck entry s) :
    Yields (fun fuel => entry.parse fuel s) .running := by
  obtain ⟨hentry, u, rfl, hstuck⟩ := h
  exact (hstuck.endless hentry (List.suffix_refl _) []).congr fun fuel => entry.parse_eq fuel _

/-- The run returns or throws after finitely many steps, without an access behind the
end of the text. -/
def Finishes (entry : Entry) (s : Bytes) : Prop :=
  (∃ value cursor, Yields (fun fuel => entry.parse fuel s) (.returned value cursor)) ∨
    ∃ message, Yields (fun fuel => entry.parse fuel s) (.threw message)

theorem Finishes.not_outside {entry : Entry} (h : Finishes entry s) :
    ¬ Yields (fun fuel => entry.parse fuel s) .outside := by
  intro houtside
  rcases h with ⟨value, cursor, h⟩ | ⟨message, h⟩
  · cases h.unique houtside
  · cases h.unique houtside

theorem Finishes.not_running {entry : Entry} (h : Finishes entry s) :
    ¬ Yields (fun fuel => entry.parse fuel s) .running := by
  intro hrunning
  rcases h with ⟨value, cursor, h⟩ | ⟨message, h⟩
  · cases h.unique hrunning
  · cases h.unique hrunning

/-- The parser finishes on a text unless the text breaks off inside an identifier that
is reached, or stops the progress of the loop over formal type parameters. -/
theorem finishes_iff (entry : Entry) (s : Bytes) :
    Finishes entry s ↔ ¬ SignatureLeads cut entry s ∧ ¬ Stuck entry s := by
  constructor
  · intro h
    exact ⟨fun hleads => h.not_outside (outside_of_leads hleads),
      fun hstuck => h.not_running (running_of_stuck hstuck)⟩
  · rintro ⟨hcut, hstuck⟩
    cases fate entry s with
    | reads h =>
        obtain ⟨value, cursor, -, hyields⟩ := h.yields
        exact .inl ⟨value, cursor, hyields⟩
    | records _ hyields => exact .inl ⟨_, _, hyields⟩
    | leads h => exact absurd h hcut
    | stuck h => exact absurd h hstuck
    | throws hyields => exact .inr ⟨_, hyields⟩

/-- `La` as a type and `<A$B:Lx;>Ly;` as a class. -/
theorem samples_do_not_finish :
    ¬ Finishes .typeSig (ascii "La") ∧ ¬ Finishes .classSig (ascii "<A$B:Lx;>Ly;") := by
  constructor
  · refine fun h => h.not_outside (outside_of_leads (.type (.reference ⟨ascii "a", by decide, ?_⟩)))
    exact .inr ⟨[], by simp, by decide⟩
  · have hstuck : StuckFormals ([].flatMap Formal.print ++ ascii "A" ++
        code '$' :: ascii "B:Lx;>Ly;") :=
      .mk (by simp) ⟨by simp, by simp⟩ (by decide) (by decide)
    exact fun h => h.not_running (running_of_stuck ⟨by simp, _, by decide, hstuck⟩)

end Entries

end Tarracsh.SignatureTermination
