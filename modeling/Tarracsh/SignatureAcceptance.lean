import Tarracsh.SignatureLanguage

/-!
# Which signatures of the grammar are refused

A dollar in a part of a package, in a type variable or in the name of a formal type
parameter ends the identifier where no nested class may follow. A formal type
parameter without a bound is followed by something that is not a type. In both cases
the parser throws or does not come back.
-/
namespace Tarracsh.SignatureAcceptance
open ByteStrings DescentRuns SignatureParser SignatureTrees SignatureTypes SignatureRoundTrip
  SignaturePrefixes SignatureDecisions SignatureTermination SignatureLanguage

/-- What the parser throws at behind an identifier that a dollar has ended, or behind
the colon of a formal type parameter without a bound. -/
def junk : Fault where
  reference u := (∃ a d v, Undelimited a ∧ isDelimiter d = true ∧ d ≠ code ';' ∧
      u = code 'T' :: (a ++ d :: v)) ∨
    ∃ a v, Undelimited a ∧ u = code 'L' :: (a ++ code ':' :: v)
  nested u := ∃ a d v, Undelimited a ∧ (d = code '/' ∨ d = code ':') ∧ u = a ++ d :: v
  formal u := ∃ a v, Undelimited a ∧ v.headD 0 ≠ code ':' ∧ v.headD 0 ≠ code 'L' ∧
    v.headD 0 ≠ code 'T' ∧ v.headD 0 ≠ code '[' ∧ u = a ++ code ':' :: v
  starts u := by
    rintro (⟨a, d, v, -, -, -, rfl⟩ | ⟨a, v, -, rfl⟩)
    · exact .inr rfl
    · exact .inl rfl

theorem junk_breaks (input : Bytes) : junk.Breaks input fun x => ∃ message, x = .threw message where
  reference := by
    rintro u hu (⟨a, d, v, ha, hd, hsemicolon, rfl⟩ | ⟨a, v, ha, rfl⟩)
    · exact throws_typeVariable ha hd hsemicolon hu
    · have hnone : ∀ p ∈ ([] : List Bytes), Undelimited p := by simp
      exact throws_outer ha hnone (by decide) (by decide) (by decide) (by decide) hu
  nested := by
    rintro u hu ⟨a, d, v, ha, hd, rfl⟩
    have hdelimiter : isDelimiter d = true ∧ ¬ (d = code ';' ∨ d = code '.' ∨ d = code '$') ∧
        d ≠ code '<' := by
      rcases hd with rfl | rfl <;> decide
    exact throws_nested ha hdelimiter.1 hdelimiter.2.1 hdelimiter.2.2 hu
  formal := by
    rintro u hu ⟨a, v, ha, hcolon, hL, hT, harray, rfl⟩
    have hv := (List.suffix_cons _ _).trans ((List.suffix_append _ _).trans hu)
    exact throws_classBound ha hcolon (throws_other hv hL hT harray) hu

section Paths
variable {fault : Fault}

/-- A nested class of the grammar leads to a fault if its last part does. -/
theorem leads_segment {packages : List Bytes} {name : Bytes} {as : List Argument}
    {ns : List Nested} (ht : (ClassType.mk packages name as ns).Obeys parserRules)
    {separator : UInt8} (hseparator : separator = code '.' ∨ separator = code '$')
    {first : Bytes} {pieces : List Bytes} (hfirst : Undelimited first)
    (hpieces : ∀ p ∈ pieces, Undelimited p) {tail : Bytes}
    (h : ∀ last, Undelimited last → Leads fault .nested (last ++ tail)) :
    Leads fault .reference (code 'L' :: (printPackages packages ++ name ++
      (printBracketed as (printArguments as) ++ (printNested ns ++
        separator :: (first ++ (pieces.flatMap (code '$' :: ·) ++ tail)))))) := by
  induction pieces generalizing ns separator first with
  | nil =>
      rw [List.flatMap_nil, List.nil_append]
      exact .suffix ht hseparator (h first hfirst)
  | cons p pieces ih =>
      obtain ⟨hpackages, hname, has, hns⟩ := ht
      have hns' : ∀ n ∈ ns ++ [.mk separator first []], n.Obeys parserRules := by
        intro n hn
        rcases List.mem_append.mp hn with hn | hn
        · exact hns n hn
        · obtain rfl := List.mem_singleton.mp hn
          exact .mk hseparator hfirst (by simp)
      have hleads := ih (.mk hpackages hname has hns') (.inr rfl) (hpieces p (by simp))
        fun q hq => hpieces q (by simp [hq])
      rw [printNested_append] at hleads
      simpa [printNested_eq, Nested.print, printBracketed] using hleads

/-- The outer class, with the name between its dollars. -/
theorem leads_outer {packages : List Bytes} (hpackages : ∀ p ∈ packages, Undelimited p)
    {identifier : Bytes} (hidentifier : ∀ c ∈ identifier,
      c ∉ [code '.', code ';', code '[', code '/', code '<', code '>', code ':']) {tail : Bytes}
    (houter : ∀ last, Undelimited last →
      Leads fault .reference (code 'L' :: (printPackages packages ++ last ++ tail)))
    (h : ∀ last, Undelimited last → Leads fault .nested (last ++ tail)) :
    Leads fault .reference (code 'L' :: (printPackages packages ++ identifier ++ tail)) := by
  obtain ⟨first, pieces, hfirst, hpieces, rfl⟩ := exists_pieces hidentifier
  cases pieces with
  | nil => simpa using houter first hfirst
  | cons p pieces =>
      have ht : (ClassType.mk packages first [] []).Obeys parserRules :=
        .mk hpackages hfirst (by simp) (by simp)
      have hleads := leads_segment ht (.inr rfl) (hpieces p (by simp))
        (fun q (hq : q ∈ pieces) => hpieces q (by simp [hq])) h
      simpa [printBracketed, printNested] using hleads

/-- An identifier with a dollar as what is in front of the first one and the parts
behind. -/
theorem exists_dollar {identifier : Bytes} (h : JvmIdentifier identifier)
    (hdollar : code '$' ∈ identifier) :
    ∃ (first p : Bytes) (pieces : List Bytes), Undelimited first ∧ Undelimited p ∧
      (∀ q ∈ pieces, Undelimited q) ∧
      identifier = first ++ code '$' :: (p ++ pieces.flatMap (code '$' :: ·)) := by
  obtain ⟨first, pieces, hfirst, hpieces, rfl⟩ := exists_pieces h.2
  cases pieces with
  | nil =>
      have hmem : code '$' ∈ first := by simpa using hdollar
      exact absurd (hfirst _ hmem) (by decide)
  | cons p pieces =>
      exact ⟨first, p, pieces, hfirst, hpieces p (by simp), fun q hq => hpieces q (by simp [hq]),
        by simp⟩

/-- All members of a list are of one kind, or there is a first one of the other. -/
theorem forall_or_split {α : Type} {P Q : α → Prop} {xs : List α} (h : ∀ x ∈ xs, P x ∨ Q x) :
    (∀ x ∈ xs, P x) ∨ ∃ (front : List α) (x : α) (back : List α), xs = front ++ x :: back ∧
      (∀ y ∈ front, P y) ∧ Q x := by
  induction xs with
  | nil => exact .inl (by simp)
  | cons x xs ih =>
      rcases h x (by simp) with hx | hx
      · rcases ih fun y hy => h y (by simp [hy]) with hxs | ⟨front, y, back, rfl, hfront, hy⟩
        · exact .inl (by simpa [hx] using hxs)
        · exact .inr ⟨x :: front, y, back, rfl, by simpa [hx] using hfront, hy⟩
      · exact .inr ⟨[], x, xs, rfl, by simp, hx⟩

end Paths

section Types

theorem plain_or_dollar {identifier : Bytes} (h : JvmIdentifier identifier) :
    (JvmIdentifier identifier ∧ code '$' ∉ identifier) ∨ code '$' ∈ identifier := by
  by_cases hdollar : code '$' ∈ identifier
  · exact .inr hdollar
  · exact .inl ⟨h, hdollar⟩

/-- The first type argument that is refused. -/
theorem plain_or_leads_arguments {as : List Argument}
    (h : ∀ a ∈ as, a.Obeys plainRules ∨ ∀ left, Leads junk .argument (a.print ++ left)) :
    (∀ a ∈ as, a.Obeys plainRules) ∨ ∀ left, ∃ (bs : List Argument) (v : Bytes),
      (∀ b ∈ bs, b.Obeys parserRules) ∧ Leads junk .argument v ∧
      printBracketed as (printArguments as) ++ left = code '<' :: (printArguments bs ++ v) := by
  rcases forall_or_split h with hplain | ⟨front, a, back, rfl, hfront, ha⟩
  · exact .inl hplain
  · refine .inr fun left => ?_
    obtain ⟨bs, hbs, hprint, -⟩ := exists_arguments fun b hb => exists_argument (hfront b hb)
    refine ⟨bs, _, hbs, ha (printArguments back ++ code '>' :: left), ?_⟩
    rw [printBracketed_append (by simp), hprint]
    simp [printArguments_eq]

/-- A refused argument behind the name of a nested class. -/
theorem leads_nestedArguments {bs : List Argument} {v : Bytes}
    (hbs : ∀ b ∈ bs, b.Obeys parserRules) (hv : Leads junk .argument v) (last : Bytes)
    (hlast : Undelimited last) :
    Leads junk .nested (last ++ code '<' :: (printArguments bs ++ v)) :=
  .nestedArgument hlast hbs hv

mutual

/-- A type of the grammar is plain, or it is refused. -/
theorem plain_or_leads {r : Reference} :
    r.Obeys jvmRules → r.Obeys plainRules ∨ ∀ left, Leads junk .reference (r.print ++ left)
  | .typeVariable hid => by
      rename_i identifier
      by_cases hdollar : code '$' ∈ identifier
      · obtain ⟨first, p, pieces, hfirst, -, -, rfl⟩ := exists_dollar hid hdollar
        exact .inr fun left => .reference (.inl ⟨first, code '$',
          p ++ pieces.flatMap (code '$' :: ·) ++ code ';' :: left, hfirst, by decide, by decide,
          by simp [Reference.print]⟩)
      · exact .inl (.typeVariable ⟨hid, hdollar⟩)
  | .baseArray component => .inl (.baseArray component)
  | .array hcomponent => by
      rcases plain_or_leads hcomponent with hplain | hleads
      · exact .inl (.array hplain)
      · exact .inr fun left => by
          rw [Reference.print]
          exact .array (hleads left)
  | .classType htype => by
      rcases plain_or_leads_classType htype with hplain | hleads
      · exact .inl (.classType hplain)
      · exact .inr fun left => by
          rw [Reference.print]
          exact hleads left

theorem plain_or_leads_classType {t : ClassType} :
    t.Obeys jvmRules → t.Obeys plainRules ∨ ∀ left, Leads junk .reference (t.print ++ left)
  | .mk hpackages hname has hns => by
      rename_i packages name as ns
      rcases forall_or_split fun p hp => plain_or_dollar (hpackages p hp) with
        hplain | ⟨front, p, back, rfl, hfront, hp⟩
      · have hundelimited : ∀ p ∈ packages, Undelimited p := fun p hp =>
          (hplain p hp).1.undelimited (hplain p hp).2
        rcases plain_or_leads_arguments fun a ha => plain_or_leads_argument (has a ha) with
          hplainArgs | hleads
        · rcases forall_or_split fun n hn => plain_or_leads_nested (hns n hn) with
            hplainNested | ⟨front, n, back, rfl, hfront, hn⟩
          · exact .inl (.mk hplain hname hplainArgs hplainNested)
          · refine .inr fun left => ?_
            obtain ⟨as', has', -, hprint⟩ :=
              exists_arguments fun a ha => exists_argument (hplainArgs a ha)
            obtain ⟨ms, hms, hprints⟩ :=
              exists_nesteds fun m hm => exists_nestedClass (hfront m hm)
            obtain ⟨first, bs, ns', ht', heq⟩ := exists_path hundelimited hname has' hms
            have hleads := hn packages first bs ns' (printNested back ++ code ';' :: left) ht'
            have htext : printPackages packages ++ first ++
                (printBracketed bs (printArguments bs) ++ (printNested ns' ++
                  (n.print ++ (printNested back ++ code ';' :: left)))) =
                printPackages packages ++ (first ++ (printBracketed bs (printArguments bs) ++
                  printNested ns')) ++ (n.print ++ (printNested back ++ code ';' :: left)) := by
              simp
            rw [htext, heq, hprint, hprints] at hleads
            simpa [ClassType.print, printNested_eq] using hleads
        · refine .inr fun left => ?_
          obtain ⟨bs, v, hbs, hv, hprint⟩ := hleads (printNested ns ++ code ';' :: left)
          have houter := leads_outer hundelimited hname.2
            (fun last hlast => Leads.outerArgument hundelimited hlast hbs hv)
            (leads_nestedArguments hbs hv)
          rw [← hprint] at houter
          simpa [ClassType.print] using houter
      · refine .inr fun left => ?_
        have hundelimited : ∀ q ∈ front, Undelimited q := fun q hq =>
          (hfront q hq).1.undelimited (hfront q hq).2
        obtain ⟨first, q, pieces, hfirst, hq, hpieces, rfl⟩ :=
          exists_dollar (hpackages p (by simp)) hp
        have ht : (ClassType.mk front first [] []).Obeys parserRules :=
          .mk hundelimited hfirst (by simp) (by simp)
        have hleads := leads_segment ht (.inr rfl) hq hpieces fun last hlast =>
          (.nested ⟨last, code '/', printPackages back ++ (name ++
            (printBracketed as (printArguments as) ++ (printNested ns ++ code ';' :: left))),
            hlast, .inl rfl, rfl⟩ : Leads junk .nested _)
        simpa [ClassType.print, printBracketed, printNested, printPackages] using hleads

theorem plain_or_leads_nested {n : Nested} :
    n.Obeys jvmRules → n.Obeys plainRules ∨ ∀ (packages : List Bytes) (name : Bytes)
      (as : List Argument) (ns : List Nested) (left : Bytes),
      (ClassType.mk packages name as ns).Obeys parserRules →
      Leads junk .reference (code 'L' :: (printPackages packages ++ name ++
        (printBracketed as (printArguments as) ++ (printNested ns ++ (n.print ++ left)))))
  | .mk hseparator hname has => by
      rcases plain_or_leads_arguments fun a ha => plain_or_leads_argument (has a ha) with
        hplain | hleads
      · exact .inl (.mk hseparator hname hplain)
      · refine .inr fun packages name as ns left ht => ?_
        obtain ⟨bs, v, hbs, hv, hprint⟩ := hleads left
        obtain ⟨first, pieces, hfirst, hpieces, rfl⟩ := exists_pieces hname.2
        have hpath := leads_segment ht (.inl hseparator) hfirst hpieces
          (leads_nestedArguments hbs hv)
        rw [Nested.print]
        simpa [hprint] using hpath

theorem plain_or_leads_argument {a : Argument} :
    a.Obeys jvmRules → a.Obeys plainRules ∨ ∀ left, Leads junk .argument (a.print ++ left)
  | .any => .inl .any
  | .exactly htype => by
      rcases plain_or_leads htype with hplain | hleads
      · exact .inl (.exactly hplain)
      · exact .inr fun left => by
          rw [Argument.print]
          exact .exactly (hleads left)
  | .extending hbound => by
      rcases plain_or_leads hbound with hplain | hleads
      · exact .inl (.extending hplain)
      · exact .inr fun left => by
          rw [Argument.print]
          exact .wildcard (.inl rfl) (hleads left)
  | .super hbound => by
      rcases plain_or_leads hbound with hplain | hleads
      · exact .inl (.super hplain)
      · exact .inr fun left => by
          rw [Argument.print]
          exact .wildcard (.inr rfl) (hleads left)

end

theorem plain_or_leads_type {t : JavaType} (ht : t.Obeys jvmRules) :
    t.Obeys plainRules ∨ ∀ left, Leads junk .reference (t.print ++ left) := by
  cases ht with
  | base b => exact .inl (.base b)
  | reference hr =>
      rcases plain_or_leads hr with hplain | hleads
      · exact .inl (.reference hplain)
      · exact .inr hleads

end Types

section Formals

/-- A colon behind which there is no bound, but the end or the next name. -/
theorem leads_unbounded {name v : Bytes} (hname : Undelimited name)
    (hv : (∃ w, v = code '>' :: w) ∨ ∃ next w, JvmIdentifier next ∧ v = next ++ code ':' :: w) :
    FormalLeads junk (name ++ code ':' :: v) := by
  rcases hv with ⟨w, rfl⟩ | ⟨next, w, ⟨hne, hnext⟩, rfl⟩
  · exact .formal ⟨name, _, hname, by simp [code], by simp [code], by simp [code], by simp [code],
      rfl⟩
  · obtain ⟨c, next, rfl⟩ := List.exists_cons_of_ne_nil hne
    have hc := hnext c (by simp)
    have hrest := fun d (hd : d ∈ next) => hnext d (by simp [hd])
    simp only [List.mem_cons, List.not_mem_nil, or_false, not_or] at hc
    by_cases hL : c = code 'L'
    · subst hL
      have hnone : ∀ p ∈ ([] : List Bytes), Undelimited p := by simp
      exact .classBound hname (leads_outer hnone hrest
        (fun last hlast => .reference (.inr ⟨last, w, hlast, rfl⟩))
        fun last hlast => .nested ⟨last, code ':', w, hlast, .inr rfl, rfl⟩)
    by_cases hT : c = code 'T'
    · subst hT
      obtain ⟨first, pieces, hfirst, -, rfl⟩ := exists_pieces hrest
      refine .classBound hname (.reference (.inl ?_))
      cases pieces with
      | nil => exact ⟨first, code ':', w, hfirst, by decide, by decide, by simp⟩
      | cons p pieces =>
          exact ⟨first, code '$', p ++ pieces.flatMap (code '$' :: ·) ++ code ':' :: w, hfirst,
            by decide, by decide, by simp⟩
    exact .formal ⟨name, c :: next ++ code ':' :: w, hname, hc.2.2.2.2.2.2, hL, hT, hc.2.2.1, rfl⟩

/-- A formal type parameter of the grammar that has a bound is plain, its name has a
dollar, or one of its bounds is refused. -/
theorem plain_or_leads_bounded {f : Formal} (hf : f.Obeys jvmRules)
    (hdollar : code '$' ∉ f.name) :
    f.Obeys plainRules ∨ ∀ left, FormalLeads junk (f.print ++ left) := by
  obtain ⟨name, classBound, interfaceBounds⟩ := f
  obtain ⟨hname, hclass, hinterfaces⟩ := hf
  have hname : JvmIdentifier name := hname
  have hundelimited := hname.undelimited hdollar
  have hbound : (∀ r ∈ classBound, r.Obeys plainRules) ∨
      ∃ r, classBound = some r ∧ ∀ left, Leads junk .reference (r.print ++ left) := by
    cases classBound with
    | none => exact .inl (by simp)
    | some r =>
        rcases plain_or_leads (hclass r rfl) with hplain | hleads
        · exact .inl (by simpa using hplain)
        · exact .inr ⟨r, rfl, hleads⟩
  rcases hbound with hplain | ⟨r, rfl, hleads⟩
  · rcases forall_or_split fun r hr => plain_or_leads (hinterfaces r hr) with
      hplains | ⟨front, r, back, rfl, hfront, hleads⟩
    · exact .inl ⟨⟨hname, hdollar⟩, hplain, hplains⟩
    · refine .inr fun left => ?_
      have hfront : (⟨name, classBound, front⟩ : Formal).Obeys plainRules :=
        ⟨⟨hname, hdollar⟩, hplain, hfront⟩
      obtain ⟨f, hf, -, -, hprint⟩ := exists_formal hfront
      have hformal := FormalLeads.interfaceBound hf
        (hleads (Formal.printInterfaces back ++ left))
      rw [hprint] at hformal
      simpa [Formal.print, Formal.printInterfaces] using hformal
  · refine .inr fun left => ?_
    have hformal : FormalLeads junk (name ++ code ':' :: (r.print ++
        (Formal.printInterfaces interfaceBounds ++ left))) :=
      .classBound hundelimited (hleads _)
    simpa [Formal.print] using hformal

/-- A formal type parameter of the grammar that is not plain, or has no bound. -/
theorem refused_formal {f : Formal} (hf : f.Obeys jvmRules)
    (hrefused : ¬ (f.Obeys plainRules ∧ f.Bounded)) {v : Bytes}
    (hv : (∃ w, v = code '>' :: w) ∨ ∃ next w, JvmIdentifier next ∧ v = next ++ code ':' :: w) :
    (∃ first w, Undelimited first ∧ f.print ++ v = first ++ code '$' :: w) ∨
      FormalLeads junk (f.print ++ v) := by
  have hname : JvmIdentifier f.name := hf.name
  by_cases hdollar : code '$' ∈ f.name
  · obtain ⟨first, p, pieces, hfirst, -, -, heq⟩ := exists_dollar hname hdollar
    rw [Formal.print, heq]
    exact .inl ⟨first, p ++ pieces.flatMap (code '$' :: ·) ++ code ':' ::
      ((f.classBound.map Reference.print).getD [] ++ Formal.printInterfaces f.interfaceBounds) ++ v,
      hfirst, by simp⟩
  by_cases hbounded : f.Bounded
  · rcases plain_or_leads_bounded hf hdollar with hplain | hleads
    · exact absurd ⟨hplain, hbounded⟩ hrefused
    · exact .inr (hleads v)
  · have hprint : f.print ++ v = f.name ++ code ':' :: v := by
      have hnone := not_or.mp hbounded
      rw [Formal.print, not_not.mp hnone.1, not_not.mp hnone.2]
      simp [Formal.printInterfaces]
    rw [hprint]
    exact .inr (leads_unbounded (hname.undelimited hdollar) hv)

/-- The formal type parameters of the grammar are plain and have bounds, or they are
refused. -/
theorem plain_or_refused_formals {fs : List Formal} (hfs : ∀ f ∈ fs, f.Obeys jvmRules) :
    (∀ f ∈ fs, f.Obeys plainRules ∧ f.Bounded) ∨ (fs ≠ [] ∧ ∀ left,
      StuckFormals (fs.flatMap Formal.print ++ code '>' :: left) ∨
        FormalsLead junk (fs.flatMap Formal.print ++ code '>' :: left)) := by
  rcases forall_or_split fun f (_ : f ∈ fs) => em (f.Obeys plainRules ∧ f.Bounded) with
    hplain | ⟨front, f, back, rfl, hfront, hrefused⟩
  · exact .inl hplain
  · refine .inr ⟨by simp, fun left => ?_⟩
    obtain ⟨gs, hgs, hprint, -⟩ := exists_readables (fun g hg => (hfront g hg).1)
      fun g hg => (hfront g hg).2
    obtain ⟨hobeys, hreadable⟩ := readable_of_formals hgs
    have hf := hfs f (by simp)
    have htext : (front ++ f :: back).flatMap Formal.print ++ code '>' :: left =
        gs.flatMap Formal.print ++
          (f.print ++ (back.flatMap Formal.print ++ code '>' :: left)) := by
      rw [hprint]
      simp
    have hnext : (∃ w, back.flatMap Formal.print ++ code '>' :: left = code '>' :: w) ∨
        ∃ next w, JvmIdentifier next ∧
          back.flatMap Formal.print ++ code '>' :: left = next ++ code ':' :: w := by
      cases back with
      | nil => exact .inl ⟨left, rfl⟩
      | cons g back =>
          exact .inr ⟨g.name, (g.classBound.map Reference.print).getD [] ++
            Formal.printInterfaces g.interfaceBounds ++
              (back.flatMap Formal.print ++ code '>' :: left), (hfs g (by simp)).name,
            by simp [Formal.print]⟩
    rw [htext]
    rcases refused_formal hf hrefused hnext with ⟨first, w, hfirst, heq⟩ | hleads
    · rw [heq, ← List.append_assoc]
      exact .inl (.mk hobeys hreadable hfirst (by decide))
    · refine .inr (.mk hobeys hreadable (fun _ => ?_) hleads)
      obtain ⟨hne, hchars⟩ : JvmIdentifier f.name := hf.name
      obtain ⟨c, name, hname⟩ := List.exists_cons_of_ne_nil hne
      have hc := hchars c (by simp [hname])
      simp only [List.mem_cons, List.not_mem_nil, or_false, not_or] at hc
      rw [Formal.print, hname]
      exact ⟨hc.2.2.2.2.2.2, hc.2.2.2.2.2.1⟩

end Formals

section Entries
variable {entry : Entry} {s : Bytes}

theorem not_accepts_of_leads (h : SignatureLeads junk entry s) : ¬ Accepts entry s := by
  rintro ⟨value, cursor, -, haccepts⟩
  obtain ⟨x, ⟨message, rfl⟩, hfails⟩ := h.breaks (junk_breaks s) (List.suffix_refl s)
  have hthrows : Yields (fun fuel => entry.parse fuel s) (.threw message) :=
    (hfails []).congr fun fuel => entry.parse_eq fuel s
  cases haccepts.unique hthrows

theorem not_accepts_of_stuck (h : Stuck entry s) : ¬ Accepts entry s := by
  rintro ⟨value, cursor, -, haccepts⟩
  cases haccepts.unique (running_of_stuck h)

/-- Formal type parameters of the grammar are a heading that is read, or nothing behind
them is reached. -/
theorem heading_or_not_accepts (hentry : entry ≠ .typeSig) {fs : List Formal}
    (hfs : ∀ f ∈ fs, f.Obeys jvmRules) :
    ((∀ f ∈ fs, f.Obeys plainRules ∧ f.Bounded) ∧ Heading (printFormals fs)) ∨
      ∀ left, ¬ Accepts entry (printFormals fs ++ left) := by
  rcases plain_or_refused_formals hfs with hplain | ⟨hne, hrefused⟩
  · obtain ⟨gs, hgs, -, hprint⟩ := exists_readables (fun f hf => (hplain f hf).1)
      fun f hf => (hplain f hf).2
    obtain ⟨hobeys, hreadable⟩ := readable_of_formals hgs
    rw [← hprint]
    exact .inl ⟨hplain, .formals hobeys hreadable⟩
  · refine .inr fun left => ?_
    rw [printFormals, printBracketed_append hne]
    rcases hrefused left with hstuck | hleads
    · exact not_accepts_of_stuck ⟨hentry, _, rfl, hstuck⟩
    · exact not_accepts_of_leads (.formals hentry hleads)

theorem class_plain_or_not_accepts {t : ClassTree} (ht : t.Obeys jvmRules) :
    Plain .classSig t.print ∨ ¬ Accepts .classSig t.print := by
  rcases heading_or_not_accepts (show Entry.classSig ≠ .typeSig by simp) ht.formals with
    ⟨hplain, hheading⟩ | hrefused
  · have hclasses : ∀ c ∈ t.superclass :: t.interfaces, c.Obeys plainRules ∨
        ∀ left, Leads junk .reference (c.print ++ left) := by
      intro c hc
      rcases List.mem_cons.mp hc with rfl | hc
      · exact plain_or_leads_classType ht.superclass
      · exact plain_or_leads_classType (ht.interfaces c hc)
    have htext : t.print = printFormals t.formals ++
        (t.superclass :: t.interfaces).flatMap ClassType.print := by
      simp [ClassTree.print]
    rcases forall_or_split hclasses with hall | ⟨front, c, back, heq, hfront, hleads⟩
    · have ht' : t.Obeys plainRules :=
        ⟨fun f hf => (hplain f hf).1, hall _ (by simp), fun c hc => hall c (by simp [hc])⟩
      exact .inl (.classSig ht' fun f hf => (hplain f hf).2)
    · obtain ⟨cs, hcs, -, hprint⟩ := exists_list fun d hd => exists_classType (hfront d hd)
      have hhead : (c.print ++ back.flatMap ClassType.print).headD 0 = code 'L' := by
        obtain ⟨rest, hrest⟩ := exists_print_classType c
        rw [hrest]
        rfl
      have hlead := SignatureLeads.classType hheading hcs hhead (hleads _)
      rw [hprint] at hlead
      rw [htext, heq]
      exact .inr (not_accepts_of_leads (by simpa using hlead))
  · rw [ClassTree.print, List.append_assoc]
    exact .inr (hrefused _)

/-- The result of a method is plain, or it is refused. -/
theorem plain_or_leads_result {result : Option JavaType} (h : ∀ r ∈ result, r.Obeys jvmRules) :
    ((∀ r ∈ result, r.Obeys plainRules) ∧ ∃ result' : Option JavaType,
      (∀ r ∈ result', r.Obeys parserRules) ∧
      MethodTree.printResult result' = MethodTree.printResult result) ∨
    ∀ left, Leads junk .reference (MethodTree.printResult result ++ left) := by
  cases result with
  | none => exact .inl ⟨by simp, none, by simp, rfl⟩
  | some r =>
      rcases plain_or_leads_type (h r rfl) with hplain | hleads
      · obtain ⟨r', hr', hprint⟩ := exists_type hplain
        exact .inl ⟨by simpa using hplain, some r', by simpa using hr', hprint⟩
      · exact .inr hleads

theorem method_plain_or_not_accepts {t : MethodTree} (ht : t.Obeys jvmRules) :
    Plain .methodSig t.print ∨ ¬ Accepts .methodSig t.print := by
  rcases heading_or_not_accepts (show Entry.methodSig ≠ .typeSig by simp) ht.formals with
    ⟨hplain, hheading⟩ | hrefused
  · rcases forall_or_split fun p hp => plain_or_leads_type (ht.parameters p hp) with
      hparameters | ⟨front, p, back, heq, hfront, hleads⟩
    · obtain ⟨ts, hts, -, hprint⟩ := exists_list fun p hp => exists_type (hparameters p hp)
      rcases plain_or_leads_result ht.result with ⟨hresult, result, hr, hprint'⟩ | hleads
      · rcases forall_or_split fun x hx => plain_or_leads (ht.throws x hx) with
          hthrows | ⟨front, x, back, heq, hfront, hleads⟩
        · have ht' : t.Obeys plainRules :=
            ⟨fun f hf => (hplain f hf).1, hparameters, hresult, hthrows⟩
          exact .inl (.methodSig ht' fun f hf => (hplain f hf).2)
        · obtain ⟨xs, hxs, -, hprint''⟩ := exists_list fun y hy => exists_thrown (hfront y hy)
          have hhead : (x.reference.print ++ back.flatMap Thrown.print).headD 0 ≠ code '[' := by
            obtain ⟨c, rest, hrest, hc⟩ := exists_print_thrown x
            rw [hrest]
            exact hc
          have hlead := SignatureLeads.thrown hheading hts hr hxs hhead (hleads _)
          rw [hprint, hprint', hprint''] at hlead
          rw [MethodTree.print, heq]
          exact .inr (not_accepts_of_leads (by simpa [Thrown.print] using hlead))
      · have hlead := SignatureLeads.result hheading hts (hleads (t.throws.flatMap Thrown.print))
        rw [hprint] at hlead
        exact .inr (not_accepts_of_leads hlead)
    · obtain ⟨ts, hts, -, hprint⟩ := exists_list fun q hq => exists_type (hfront q hq)
      have hlead := SignatureLeads.parameter hheading hts (hleads (back.flatMap JavaType.print ++
        code ')' :: (MethodTree.printResult t.result ++ t.throws.flatMap Thrown.print)))
      rw [hprint] at hlead
      rw [MethodTree.print, heq]
      exact .inr (not_accepts_of_leads (by simpa using hlead))
  · exact .inr (hrefused _)

/-- A signature of the grammar is plain, or it is not accepted. -/
theorem plain_or_not_accepts (h : InLanguage entry s) : Plain entry s ∨ ¬ Accepts entry s := by
  cases h with
  | classSig ht _ => exact class_plain_or_not_accepts ht
  | methodSig ht _ => exact method_plain_or_not_accepts ht
  | typeSig ht =>
      rename_i t
      rcases plain_or_leads_type ht with hplain | hleads
      · exact .inl (.typeSig hplain)
      · have hlead : SignatureLeads junk .typeSig (t.print ++ []) := .type (hleads [])
        rw [List.append_nil] at hlead
        exact .inr (not_accepts_of_leads hlead)

/-- The parser accepts a text exactly when it is a signature, unless the text only
starts like one for the parser, or is a signature with a dollar or a missing bound
where the parser does not read them. -/
theorem accepts_iff_inLanguage (entry : Entry) (s : Bytes) :
    (Accepts entry s ↔ InLanguage entry s) ↔
      ¬ (Lenient entry s ∧ ¬ InLanguage entry s) ∧ ¬ (InLanguage entry s ∧ ¬ Plain entry s) := by
  rw [accepts_iff_lenient]
  constructor
  · intro h
    refine ⟨fun hbad => hbad.2 (h.mp hbad.1), fun hbad => hbad.2 ?_⟩
    rcases plain_or_not_accepts hbad.1 with hplain | hrefused
    · exact hplain
    · exact absurd ((accepts_iff_lenient entry s).mpr (h.mpr hbad.1)) hrefused
  · rintro ⟨htaken, hrefused⟩
    constructor
    · intro hlenient
      exact by_contra fun hnot => htaken ⟨hlenient, hnot⟩
    · intro hlanguage
      exact lenient_of_plain (by_contra fun hnot => hrefused ⟨hlanguage, hnot⟩)

/-- `IX` is accepted as a type and is none; `TA$B;` is a type and is not accepted. -/
theorem samples_differ :
    ¬ (Accepts .typeSig (ascii "IX") ↔ InLanguage .typeSig (ascii "IX")) ∧
    ¬ (Accepts .typeSig (ascii "TA$B;") ↔ InLanguage .typeSig (ascii "TA$B;")) := by
  constructor
  · intro h
    have hlenient : Lenient .typeSig ((JavaType.base .int).print ++ ascii "X") :=
      .typeSig (.base .int)
    have hlanguage := h.mp ((accepts_iff_lenient _ _).mpr hlenient)
    generalize htext : ascii "IX" = text at hlanguage
    cases hlanguage with
    | typeSig ht =>
        cases ht with
        | base b =>
            have hlength := congrArg List.length htext
            rw [JavaType.print, List.length_singleton] at hlength
            exact absurd hlength (by decide)
        | reference hr =>
            rename_i r
            obtain ⟨c, rest, hprint, hc⟩ := exists_print_reference r
            rw [JavaType.print, hprint] at htext
            have hhead : code 'I' = c := (List.cons.inj htext).1
            rcases hc with rfl | rfl | rfl <;> exact absurd hhead (by decide)
  · intro h
    have hwritten : InLanguage .typeSig
        (JavaType.reference (.typeVariable (ascii "A$B"))).print :=
      .typeSig (.reference (.typeVariable (by decide : JvmIdentifier (ascii "A$B"))))
    rw [show (JavaType.reference (.typeVariable (ascii "A$B"))).print = ascii "TA$B;" by decide]
      at hwritten
    have hleads : SignatureLeads junk .typeSig (ascii "TA$B;") :=
      .type (.reference (.inl ⟨ascii "A", code '$', ascii "B;", by decide, by decide, by decide,
        by decide⟩))
    exact not_accepts_of_leads hleads (h.mpr hwritten)

end Entries

end Tarracsh.SignatureAcceptance
