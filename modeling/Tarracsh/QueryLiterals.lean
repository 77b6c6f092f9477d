import Tarracsh.QuerySemantics
import Tarracsh.QuotedTexts

/-!
# The literals of a query

A literal can be written in straight single or double quotes, where the quote
that is used is doubled inside, or in smart quotes. `getSanitizedString` trims
apostrophes and nothing else, so a filter compares with the text that was meant
only if it is in single quotes and has none of its own.
-/
namespace Tarracsh.QueryLiterals
open ByteStrings TableModel QueryListener QuerySemantics QuotedTexts

section Trim
variable {chars m v : Bytes} {b q : UInt8}

/-- `trim` leaves a text that does not start or end with one of the characters. -/
theorem trim_eq_self (hhead : ∀ b, m.head? = some b → b ∉ chars)
    (hlast : ∀ b, m.getLast? = some b → b ∉ chars) : trim m chars = m := by
  have hdrop : m.dropWhile (· ∈ chars) = m := by
    cases m with
    | nil => rfl
    | cons b m => simp [hhead b rfl]
  rw [trim, hdrop, List.rdropWhile_eq_self_iff]
  intro hne
  simpa using hlast _ (List.getLast?_eq_getLast_of_ne_nil hne)

/-- The outermost quotes go, and what is inside stays. -/
theorem trim_surrounded (hq : q ∈ chars) (hhead : ∀ b, m.head? = some b → b ∉ chars)
    (hlast : ∀ b, m.getLast? = some b → b ∉ chars) : trim (q :: m ++ [q]) chars = m := by
  cases m with
  | nil => simp [trim, hq]
  | cons b m =>
      have hdrop : (q :: b :: m ++ [q]).dropWhile (· ∈ chars) = b :: m ++ [q] := by
        simp [hq, hhead b rfl]
      have hself := trim_eq_self hhead hlast
      rw [trim, List.dropWhile_cons, decide_eq_false (hhead b rfl)] at hself
      rw [trim, hdrop, List.rdropWhile_concat_pos _ _ _ (by simpa using hq)]
      exact hself

theorem not_mem_of_head?_trim (h : (trim v chars).head? = some b) : b ∉ chars := by
  have hfirst : (v.dropWhile (· ∈ chars)).head? = some b := by
    obtain ⟨t, ht⟩ := List.rdropWhile_prefix (fun b => decide (b ∈ chars))
      (v.dropWhile (· ∈ chars))
    rw [← ht, List.head?_append]
    rw [trim] at h
    rw [h]
    rfl
  have hnot := List.head?_dropWhile_not (fun b => decide (b ∈ chars)) v
  rw [hfirst] at hnot
  simpa using hnot

theorem not_mem_of_getLast?_trim (h : (trim v chars).getLast? = some b) : b ∉ chars := by
  have hne : trim v chars ≠ [] := by
    intro hnil
    simp [hnil] at h
  have hlast := List.getLast?_eq_getLast_of_ne_nil hne
  rw [h, Option.some.injEq] at hlast
  have hnot := List.rdropWhile_last_not (fun b => decide (b ∈ chars)) _ hne
  rw [hlast]
  exact fun hmem => hnot (decide_eq_true hmem)

theorem mem_of_mem_trim (h : b ∈ trim v chars) : b ∈ v :=
  (List.dropWhile_sublist _).subset ((List.rdropWhile_prefix _ _).subset h)

end Trim

/-- Without a backslash there is nothing to replace. -/
theorem replaceFrom_of_not_mem {bs : Bytes} (h : backslash ∉ bs) :
    replaceFrom (ascii "\\\\") (ascii "\\") 0 bs = bs := by
  induction bs with
  | nil => rfl
  | cons b bs ih =>
      rw [List.mem_cons, not_or] at h
      have hprefix : (ascii "\\\\").isPrefixOf (b :: bs) = false := by
        have hfirst : ascii "\\\\" = [backslash, backslash] := by decide
        simp [hfirst, List.isPrefixOf, h.1]
      rw [replaceFrom, hprefix, if_neg Bool.false_ne_true, ih h.2]

theorem sanitized_of_not_mem {v : Bytes} (h : backslash ∉ v) :
    sanitized v = trim v (ascii "'") :=
  replaceFrom_of_not_mem fun hmem => h (mem_of_mem_trim hmem)

section Doubled
variable {q b : UInt8} {s : Bytes}

/-- The text with each occurrence of one byte written twice. -/
def doubled (q : UInt8) (s : Bytes) : Bytes := s.flatMap fun b => if b = q then [q, q] else [b]

theorem doubled_cons : doubled q (b :: s) = (if b = q then [q, q] else [b]) ++ doubled q s :=
  List.flatMap_cons

theorem doubled_length (q : UInt8) (s : Bytes) : (doubled q s).length = s.length + s.count q := by
  induction s with
  | nil => rfl
  | cons b s ih =>
      rw [doubled_cons, List.length_append, ih, List.length_cons, List.count_cons]
      by_cases hb : b = q
      · simp [hb]
        omega
      · simp [hb]
        omega

theorem doubled_eq_self_iff : doubled q s = s ↔ q ∉ s := by
  constructor
  · intro h
    have hlength := congrArg List.length h
    rw [doubled_length] at hlength
    exact List.count_eq_zero.mp (by omega)
  · intro h
    induction s with
    | nil => rfl
    | cons b s ih =>
        rw [List.mem_cons, not_or] at h
        rw [doubled_cons, if_neg (Ne.symm h.1), ih h.2, List.singleton_append]

theorem mem_doubled : b ∈ doubled q s ↔ b ∈ s := by
  induction s with
  | nil => rfl
  | cons c s ih =>
      rw [doubled_cons, List.mem_append, ih, List.mem_cons]
      by_cases hc : c = q
      · simp [hc]
      · simp [hc]

theorem head?_doubled : (doubled q s).head? = s.head? := by
  cases s with
  | nil => rfl
  | cons b s =>
      rw [doubled_cons]
      by_cases hb : b = q
      · simp [hb]
      · simp [hb]

theorem getLast?_doubled : (doubled q s).getLast? = s.getLast? := by
  induction s with
  | nil => rfl
  | cons b s ih =>
      rw [doubled_cons, List.getLast?_append, ih, List.getLast?_cons]
      by_cases hb : b = q
      · simp [hb]
      · simp [hb]

end Doubled

/-- The two ways to close smart quotes. -/
inductive Closing where
  | quotation
  | doublePrime
  deriving DecidableEq, Repr

def Closing.mark : Closing → Bytes
  | .quotation => [0xE2, 0x80, 0x9D]
  | .doublePrime => [0xE2, 0x80, 0xB3]

/-- The documented forms of a literal. -/
inductive Form where
  | single
  | double
  | smart (closing : Closing)
  deriving DecidableEq, Repr

def apostrophe : UInt8 := 39

/-- The text of the token for `s`. -/
def Form.token : Form → Bytes → Bytes
  | .single, s => apostrophe :: doubled apostrophe s ++ [apostrophe]
  | .double, s => quote :: doubled quote s ++ [quote]
  | .smart closing, s => [0xE2, 0x80, 0x9C] ++ s ++ closing.mark

section Forms
variable {s : Bytes}

theorem sanitized_double (h : backslash ∉ s) : sanitized (Form.double.token s) =
    Form.double.token s := by
  have hmem : backslash ∉ Form.double.token s := by
    simp [Form.token, mem_doubled, h, show ¬backslash = quote by decide]
  rw [sanitized_of_not_mem hmem]
  apply trim_eq_self
  · intro b hb
    obtain rfl : quote = b := by simpa [Form.token] using hb
    decide
  · intro b hb
    rw [Form.token, List.getLast?_concat, Option.some.injEq] at hb
    subst hb
    decide

theorem sanitized_smart (h : backslash ∉ s) (closing : Closing) :
    sanitized ((Form.smart closing).token s) = (Form.smart closing).token s := by
  have hmem : backslash ∉ (Form.smart closing).token s := by
    have hopening : backslash ∉ ([0xE2, 0x80, 0x9C] : Bytes) := by decide
    have hclosing : backslash ∉ closing.mark := by cases closing <;> decide
    rw [Form.token, List.mem_append, List.mem_append]
    rintro ((hmem | hmem) | hmem)
    · exact hopening hmem
    · exact h hmem
    · exact hclosing hmem
  rw [sanitized_of_not_mem hmem]
  apply trim_eq_self
  · intro b hb
    obtain rfl : 0xE2 = b := by simpa [Form.token] using hb
    decide
  · intro b hb
    rw [Form.token, List.getLast?_append] at hb
    cases closing with
    | quotation =>
        obtain rfl : 0x9D = b := by simpa [Closing.mark] using hb
        decide
    | doublePrime =>
        obtain rfl : 0xB3 = b := by simpa [Closing.mark] using hb
        decide

theorem sanitized_single (h : backslash ∉ s) :
    sanitized (Form.single.token s) = s ↔ apostrophe ∉ s := by
  have hmem : backslash ∉ Form.single.token s := by
    simp [Form.token, mem_doubled, h, show ¬backslash = apostrophe by decide]
  have hchars : ∀ b, b ∉ ascii "'" ↔ b ≠ apostrophe := by
    have hascii : ascii "'" = [apostrophe] := by decide
    simp [hascii]
  have hinner : (∀ b, s.head? = some b → b ∉ ascii "'") →
      (∀ b, s.getLast? = some b → b ∉ ascii "'") →
      sanitized (Form.single.token s) = doubled apostrophe s := by
    intro hhead hlast
    rw [sanitized_of_not_mem hmem]
    apply trim_surrounded (by decide)
    · rwa [head?_doubled]
    · rwa [getLast?_doubled]
  constructor
  · intro heq
    rw [sanitized_of_not_mem hmem] at heq
    -- what is trimmed has no apostrophe at either end, so only the outer two were taken
    have hdoubled := hinner (fun b hb => not_mem_of_head?_trim (by rwa [heq]))
      (fun b hb => not_mem_of_getLast?_trim (by rwa [heq]))
    rw [sanitized_of_not_mem hmem, heq] at hdoubled
    exact doubled_eq_self_iff.mp hdoubled.symm
  · intro hnot
    rw [hinner, doubled_eq_self_iff.mpr hnot]
    · intro b hb
      exact (hchars b).mpr fun heq => hnot (heq ▸ List.mem_of_head? hb)
    · intro b hb
      exact (hchars b).mpr fun heq => hnot (heq ▸ List.mem_of_getLast? hb)

theorem sanitized_token_iff (h : backslash ∉ s) (form : Form) :
    sanitized (form.token s) = s ↔ form = .single ∧ apostrophe ∉ s := by
  cases form with
  | single => simpa using sanitized_single h
  | double =>
      have hlonger : Form.double.token s ≠ s := by
        intro heq
        have hlength := congrArg List.length heq
        simp only [Form.token, List.length_append, List.length_cons, doubled_length] at hlength
        omega
      simp [sanitized_double h, hlonger]
  | smart closing =>
      have hlonger : (Form.smart closing).token s ≠ s := by
        intro heq
        have hlength := congrArg List.length heq
        simp only [Form.token, List.length_append, List.length_cons] at hlength
        omega
      simp [sanitized_smart h, hlonger]

end Forms

section Filters
variable {α : Type} (search : Bytes → Bool → Bytes → Bool) (l : Listener α) (ctx : NodeId)
  (column : Bytes)

/-- The predicate that the filter of a column with this token stores answers at a
row as one that has `s` on its right side. -/
structure Denotes (token s : Bytes) (row : Row α) : Prop where
  compares : ∀ oper, oper ≠ .REGEX → ∃ predicate,
    (l.exitFilter search ctx ⟨column, oper, token⟩).rulePredicates ctx = some predicate ∧
      ∀ this, predicate this row = Listener.columnPredicate search column oper none s this row
  found : ∃ predicate,
    (l.exitFilter search ctx ⟨column, .EQUAL, token⟩).rulePredicates ctx = some predicate ∧
      ∀ this, this.getColumnValue row column = some s → predicate this row = some true

variable {search l ctx column}

theorem exitFilter_comparing (h : Sanitizes l) {oper : OperContext} (hoper : oper ≠ .REGEX)
    (token : Bytes) :
    (l.exitFilter search ctx ⟨column, oper, token⟩).rulePredicates ctx =
      some (Listener.columnPredicate search column oper none (sanitized token)) := by
  obtain ⟨cache, hexit, -⟩ := exitFilter_spec search h ctx ⟨column, oper, token⟩
  simp [hexit, cached, rightOf, hoper, FilterContext.literal]

theorem sanitizes_empty : Sanitizes ({} : Listener α) := by
  intro value result hcached
  simp at hcached

/-- A filter compares with the text that was written exactly when it is in single
quotes and has no apostrophe of its own. -/
theorem denotes_iff {s : Bytes} (hs : backslash ∉ s) (h : Sanitizes l) (form : Form)
    (row : Row α) :
    Denotes search l ctx column (form.token s) s row ↔ form = .single ∧ apostrophe ∉ s := by
  rw [← sanitized_token_iff hs]
  have hequal : (OperContext.EQUAL) ≠ .REGEX := by decide
  constructor
  · rintro ⟨-, predicate, hpredicate, hfound⟩
    rw [exitFilter_comparing h hequal, Option.some.injEq] at hpredicate
    have htrue := hfound ⟨fun _ _ => none, fun _ _ => some s⟩ rfl
    rw [← hpredicate] at htrue
    have hsame : (s == sanitized (form.token s)) = true := by
      simpa [Listener.columnPredicate, Listener.compares, OperContext.NOT] using htrue
    exact (beq_iff_eq.mp hsame).symm
  · intro hsame
    constructor
    · intro oper hoper
      exact ⟨_, exitFilter_comparing h hoper _, fun this => by rw [hsame]⟩
    · refine ⟨_, exitFilter_comparing h hequal _, fun this hvalue => ?_⟩
      simp [Listener.columnPredicate, Listener.compares, OperContext.NOT, hvalue, hsame]

theorem denotes_sample :
    Denotes literalSearch {} [] (ascii "filename") (Form.single.token (ascii "A.jar"))
      (ascii "A.jar") sampleRow :=
  (denotes_iff (by decide) sanitizes_empty .single sampleRow).mpr ⟨rfl, by decide⟩

/-- `list files where filename = "A.jar"` -/
def sampleQuery : ListContext :=
  ⟨ascii "files", some (.filter ⟨ascii "filename", .EQUAL, Form.double.token (ascii "A.jar")⟩)⟩

/-- The quotes stay in the literal, and the file is not found. -/
theorem double_quotes_not_denoted :
    ¬Denotes literalSearch {} [] (ascii "filename") (Form.double.token (ascii "A.jar"))
        (ascii "A.jar") sampleRow ∧
      Listener.walk literalSearch sampleTables 8 3 (.list sampleQuery) = some (.rows []) := by
  constructor
  · rintro ⟨-, predicate, hpredicate, hfound⟩
    rw [exitFilter_comparing sanitizes_empty (by decide), Option.some.injEq] at hpredicate
    have htrue := hfound ⟨fun _ _ => none, fun _ _ => some (ascii "A.jar")⟩ rfl
    rw [← hpredicate] at htrue
    exact absurd htrue (by decide)
  · rw [walk_computes literalSearch core_sampleTable 8 rfl (by decide) (by decide)]
    exact congrArg (fun rows => some (Shown.rows rows)) (by decide)

end Filters

end Tarracsh.QueryLiterals
