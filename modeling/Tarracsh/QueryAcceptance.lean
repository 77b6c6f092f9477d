import Tarracsh.QueryEngine
import Mathlib.Data.List.ReduceOption

/-!
# Which queries are accepted

A text is a sentence if it splits into lexemes and white space, each the longest
one, and its tokens derive from `query`. The engine accepts every text whose tokens
only begin with a statement, and it does not see the characters that the lexer
drops.
-/
namespace Tarracsh.QueryAcceptance
open ByteStrings QueryListener QueryEngine

section Lexemes
variable {text lexeme rest : List Char} {type : TokenType} {ts : List Token}
  {recover : List Char → ℕ}

/-- The longest lexeme at the start of a text, with the first rule that it is of. -/
structure FirstLexeme (text lexeme : List Char) (type : TokenType) : Prop where
  nonempty : lexeme ≠ []
  isPrefix : lexeme <+: text
  rule : ruleOf lexeme = some type
  longest : ∀ other, other <+: text → (ruleOf other).isSome → other.length ≤ lexeme.length

/-- A text and its tokens. -/
inductive Lexes : List Char → List Token → Prop
  | nil : Lexes [] []
  | space {lexeme rest : List Char} {ts : List Token} :
      FirstLexeme (lexeme ++ rest) lexeme .WS → Lexes rest ts → Lexes (lexeme ++ rest) ts
  | token {lexeme rest : List Char} {type : TokenType} {ts : List Token} : type ≠ .WS →
      FirstLexeme (lexeme ++ rest) lexeme type → Lexes rest ts →
      Lexes (lexeme ++ rest) (⟨type, lexeme⟩ :: ts)

theorem longestLexeme_some {n m : ℕ} (h : longestLexeme text n = some (type, m)) :
    0 < m ∧ m ≤ n ∧ ruleOf (text.take m) = some type ∧
      ∀ k, m < k → k ≤ n → ruleOf (text.take k) = none := by
  induction n with
  | zero => cases h
  | succ n ih =>
      rw [longestLexeme] at h
      split at h
      · rename_i found hfound
        obtain ⟨rfl, rfl⟩ := Prod.mk.inj (Option.some.inj h)
        exact ⟨Nat.succ_pos n, le_rfl, hfound, fun k hlt hle => by omega⟩
      · rename_i hnone
        obtain ⟨hpos, hle, hrule, hlonger⟩ := ih h
        refine ⟨hpos, Nat.le_succ_of_le hle, hrule, fun k hlt hk => ?_⟩
        rcases Nat.lt_or_eq_of_le hk with hk | rfl
        · exact hlonger k hlt (Nat.lt_succ_iff.mp hk)
        · exact hnone

theorem longestLexeme_none {n : ℕ} (h : longestLexeme text n = none) :
    ∀ k, 0 < k → k ≤ n → ruleOf (text.take k) = none := by
  induction n with
  | zero => exact fun k hpos hle => absurd hpos (by omega)
  | succ n ih =>
      rw [longestLexeme] at h
      split at h
      · cases h
      · rename_i hnone
        intro k hpos hk
        rcases Nat.lt_or_eq_of_le hk with hk | rfl
        · exact ih h k hpos (Nat.lt_succ_iff.mp hk)
        · exact hnone

/-- The lexer finds the longest lexeme. -/
theorem firstLexeme_iff {m : ℕ} :
    longestLexeme text text.length = some (type, m) ↔
      m ≤ text.length ∧ FirstLexeme text (text.take m) type := by
  constructor
  · intro h
    obtain ⟨hpos, hle, hrule, hlonger⟩ := longestLexeme_some h
    refine ⟨hle, fun hnil => ?_, List.take_prefix m text, hrule, fun other hother hsome => ?_⟩
    · have hlength := congrArg List.length hnil
      simp only [List.length_take, List.length_nil] at hlength
      omega
    · by_contra hlt
      rw [List.length_take_of_le hle, not_le] at hlt
      rw [List.prefix_iff_eq_take.mp hother, hlonger _ hlt hother.length_le] at hsome
      cases hsome
  · rintro ⟨hle, hfirst⟩
    have hpos : 0 < m := by
      rcases Nat.eq_zero_or_pos m with rfl | hpos
      · exact absurd List.take_zero hfirst.nonempty
      · exact hpos
    cases hfound : longestLexeme text text.length with
    | none =>
        have hnone := longestLexeme_none hfound m hpos hle
        rw [hfirst.rule] at hnone
        cases hnone
    | some found =>
        obtain ⟨type', k⟩ := found
        obtain ⟨-, hk, hrule, hlonger⟩ := longestLexeme_some hfound
        have hkm : k ≤ m := by
          have hlength := hfirst.longest _ (List.take_prefix k text) (by rw [hrule]; rfl)
          rwa [List.length_take_of_le hk, List.length_take_of_le hle] at hlength
        have hmk : m = k := by
          by_contra hne
          have hnone := hlonger m (by omega) hle
          rw [hfirst.rule] at hnone
          cases hnone
        subst hmk
        rw [hfirst.rule] at hrule
        rw [Option.some.inj hrule]

theorem scanFrom_skip (recover : List Char → ℕ) (skip : ℕ) (cs : List Char) :
    scanFrom recover skip cs = scanFrom recover 0 (cs.drop skip) := by
  induction cs generalizing skip with
  | nil => cases skip <;> simp [scanFrom]
  | cons c cs ih =>
      cases skip with
      | zero => rfl
      | succ skip => rw [scanFrom, List.drop_succ_cons, ih]

/-- One turn of the lexer. -/
theorem scanFrom_lexeme (recover : List Char → ℕ) (h : FirstLexeme (lexeme ++ rest) lexeme type) :
    scanFrom recover 0 (lexeme ++ rest) =
      if type = .WS then scanFrom recover 0 rest
      else some ⟨type, lexeme⟩ :: scanFrom recover 0 rest := by
  have hfound : longestLexeme (lexeme ++ rest) (lexeme ++ rest).length =
      some (type, lexeme.length) := by
    rw [firstLexeme_iff, List.take_left]
    exact ⟨by simp, h⟩
  obtain ⟨c, cs, rfl⟩ := List.exists_cons_of_ne_nil h.nonempty
  have hrest : scanFrom recover ((c :: cs).length - 1) (cs ++ rest) = scanFrom recover 0 rest := by
    rw [scanFrom_skip]
    simp
  have htake : (c :: (cs ++ rest)).take (c :: cs).length = c :: cs := List.take_left
  rw [List.cons_append] at hfound ⊢
  rw [scanFrom, ← List.length_cons, hfound]
  simp only [hrest, htake]

/-- A text without a lexeme at its start. -/
theorem scanFrom_error (recover : List Char → ℕ) (hne : text ≠ [])
    (h : longestLexeme text text.length = none) : none ∈ scanFrom recover 0 text := by
  obtain ⟨c, cs, rfl⟩ := List.exists_cons_of_ne_nil hne
  rw [scanFrom, ← List.length_cons, h]
  exact List.mem_cons_self

theorem split_text {m : ℕ} (h : longestLexeme text text.length = some (type, m)) :
    ∃ lexeme rest, text = lexeme ++ rest ∧ FirstLexeme (lexeme ++ rest) lexeme type ∧
      rest.length < text.length := by
  obtain ⟨hle, hfirst⟩ := firstLexeme_iff.mp h
  have hpos := (longestLexeme_some h).1
  refine ⟨text.take m, text.drop m, (List.take_append_drop m text).symm, ?_, ?_⟩
  · rw [List.take_append_drop]
    exact hfirst
  · rw [List.length_drop]
    omega

/-- The lexer has no error exactly on the texts that split into lexemes. -/
theorem lexes_iff (recover : List Char → ℕ) :
    Lexes text ts ↔ scanFrom recover 0 text = ts.map some := by
  constructor
  · intro h
    induction h with
    | nil => rfl
    | space hfirst hrest ih => rw [scanFrom_lexeme recover hfirst, if_pos rfl, ih]
    | token htype hfirst hrest ih =>
        rw [scanFrom_lexeme recover hfirst, if_neg htype, ih, List.map_cons]
  · intro h
    induction hn : text.length using Nat.strong_induction_on generalizing text ts with
    | _ n ih =>
        cases hfound : longestLexeme text text.length with
        | none =>
            rcases eq_or_ne text [] with rfl | hne
            · obtain rfl := List.map_eq_nil_iff.mp h.symm
              exact .nil
            · have herror := scanFrom_error recover hne hfound
              rw [h] at herror
              simp at herror
        | some found =>
            obtain ⟨type, m⟩ := found
            obtain ⟨lexeme, rest, rfl, hfirst, hlt⟩ := split_text hfound
            rw [scanFrom_lexeme recover hfirst] at h
            by_cases htype : type = .WS
            · subst htype
              exact .space hfirst (ih rest.length (hn ▸ hlt) h rfl)
            · rw [if_neg htype] at h
              obtain ⟨token, ts, rfl⟩ := List.exists_cons_of_ne_nil fun hnil : ts = [] => by
                rw [hnil] at h
                cases h
              rw [List.map_cons, List.cons.injEq] at h
              rw [← Option.some.inj h.1]
              exact .token htype hfirst (ih rest.length (hn ▸ hlt) h.2 rfl)

end Lexemes

section Grammar

/-- `logical_oper`. -/
inductive LogicalTokens : List Token → LogicalOper → Prop
  | and {text : List Char} : LogicalTokens [⟨.AND, text⟩] .AND
  | or {text : List Char} : LogicalTokens [⟨.OR, text⟩] .OR

/-- `oper`. -/
inductive OperTokens : List Token → OperContext → Prop
  | regex {text : List Char} : OperTokens [⟨.REGEX, text⟩] .REGEX
  | equal {text : List Char} : OperTokens [⟨.EQUAL, text⟩] .EQUAL
  | notEqual {text : List Char} : OperTokens [⟨.NOT_EQUAL, text⟩] .NOT_EQUAL
  | startsWith {text : List Char} : OperTokens [⟨.STARTS_WITH, text⟩] (.STARTS_WITH false)
  | notStartsWith {text text' : List Char} :
      OperTokens [⟨.NOT, text⟩, ⟨.STARTS_WITH, text'⟩] (.STARTS_WITH true)
  | endsWith {text : List Char} : OperTokens [⟨.ENDS_WITH, text⟩] (.ENDS_WITH false)
  | notEndsWith {text text' : List Char} :
      OperTokens [⟨.NOT, text⟩, ⟨.ENDS_WITH, text'⟩] (.ENDS_WITH true)

/-- `expr`, with the tree of its tokens. -/
inductive ExprTokens : List Token → ExprContext → Prop
  | filter {column escapedString : List Char} {ops : List Token} {oper : OperContext} :
      OperTokens ops oper →
      ExprTokens (⟨.Identifier, column⟩ :: (ops ++ [⟨.EscapedString, escapedString⟩]))
        (.filter ⟨Token.getText ⟨.Identifier, column⟩, oper,
          Token.getText ⟨.EscapedString, escapedString⟩⟩)
  | logical {open_ close : List Char} {ls ops rs : List Token} {left right : ExprContext}
      {oper : LogicalOper} : ExprTokens ls left → LogicalTokens ops oper → ExprTokens rs right →
      ExprTokens (⟨.LPAREN, open_⟩ :: (ls ++ (ops ++ (rs ++ [⟨.RPAREN, close⟩]))))
        (.logical left oper right)

/-- The word that a `list` begins with. -/
def IsListWord (token : Token) : Prop := token.type = .LIST ∨ token.type = .SELECT

/-- `list` after its first word. -/
inductive ListTokens : List Token → ListContext → Prop
  | table {tablename : List Char} :
      ListTokens [⟨.Identifier, tablename⟩] ⟨Token.getText ⟨.Identifier, tablename⟩, none⟩
  | rows {tablename text : List Char} {es : List Token} {e : ExprContext} : ExprTokens es e →
      ListTokens (⟨.Identifier, tablename⟩ :: ⟨.WHERE, text⟩ :: es)
        ⟨Token.getText ⟨.Identifier, tablename⟩, some e⟩

/-- `statement`. -/
inductive StatementTokens : List Token → StatementContext → Prop
  | schema {text : List Char} : StatementTokens [⟨.SCHEMA, text⟩] .schema
  | list {word : Token} {ss : List Token} {context : ListContext} : IsListWord word →
      ListTokens ss context → StatementTokens (word :: ss) (.list context)

theorem oper_iff {input rest : List Token} {o : OperContext} :
    oper input = some (o, rest) ↔ ∃ ops, OperTokens ops o ∧ input = ops ++ rest := by
  constructor
  · intro h
    unfold oper at h
    split at h <;> cases h
    exacts [⟨_, .regex, rfl⟩, ⟨_, .equal, rfl⟩, ⟨_, .notEqual, rfl⟩, ⟨_, .startsWith, rfl⟩,
      ⟨_, .notStartsWith, rfl⟩, ⟨_, .endsWith, rfl⟩, ⟨_, .notEndsWith, rfl⟩]
  · rintro ⟨ops, hops, rfl⟩
    cases hops <;> rfl

theorem logicalOper_iff {input rest : List Token} {o : LogicalOper} :
    logicalOper input = some (o, rest) ↔ ∃ ops, LogicalTokens ops o ∧ input = ops ++ rest := by
  constructor
  · intro h
    unfold logicalOper at h
    split at h <;> cases h
    exacts [⟨_, .and, rfl⟩, ⟨_, .or, rfl⟩]
  · rintro ⟨ops, hops, rfl⟩
    cases hops <;> rfl

theorem matchToken_iff {type : TokenType} {input rest : List Token} {token : Token} :
    matchToken type input = some (token, rest) ↔ token.type = type ∧ input = token :: rest := by
  cases input with
  | nil => simp [matchToken]
  | cons head input =>
      simp only [matchToken, List.cons.injEq]
      constructor
      · intro h
        split_ifs at h with htype
        obtain ⟨rfl, rfl⟩ := Prod.mk.inj (Option.some.inj h)
        exact ⟨htype, rfl, rfl⟩
      · rintro ⟨htype, rfl, rfl⟩
        rw [if_pos htype]

theorem filter_iff {input rest : List Token} {f : FilterContext} :
    filter input = some (f, rest) ↔
      ∃ es, ExprTokens es (.filter f) ∧ input = es ++ rest := by
  simp only [filter, Option.bind_eq_bind, Option.bind_eq_some_iff, Prod.exists, matchToken_iff,
    oper_iff, Option.some.injEq, Prod.mk.injEq]
  constructor
  · rintro ⟨⟨_, column⟩, input₁, ⟨rfl, rfl⟩, o, input₂, ⟨ops, hops, rfl⟩, ⟨_, escapedString⟩,
      input₃, ⟨rfl, rfl⟩, rfl, rfl⟩
    exact ⟨_, .filter hops, by simp⟩
  · rintro ⟨es, hes, rfl⟩
    cases hes with
    | filter hops =>
        exact ⟨_, _, ⟨rfl, rfl⟩, _, _, ⟨_, hops, List.append_assoc _ _ _⟩, _, _, ⟨rfl, rfl⟩, rfl,
          rfl⟩

/-- Whatever the parser takes for an expression is one. -/
theorem expr_sound {fuel : ℕ} {input rest : List Token} {e : ExprContext}
    (h : expr fuel input = some (e, rest)) : ∃ es, ExprTokens es e ∧ input = es ++ rest := by
  induction fuel generalizing input rest e with
  | zero => cases input <;> cases h
  | succ fuel ih =>
      unfold expr at h
      split at h
      · simp only [Option.bind_eq_bind, Option.bind_eq_some_iff, Prod.exists, Option.some.injEq,
          Prod.mk.injEq] at h
        obtain ⟨f, input, hfilter, rfl, rfl⟩ := h
        exact filter_iff.mp hfilter
      · rename_i fuel' text input hsucc
        obtain rfl : fuel = fuel' := Nat.succ.inj hsucc
        simp only [Option.bind_eq_bind, Option.bind_eq_some_iff, Prod.exists, Option.some.injEq,
          Prod.mk.injEq] at h
        obtain ⟨left, input₁, hleft, o, input₂, hoper, right, input₃, hright, ⟨_, close⟩, input₄,
          hclose, rfl, rfl⟩ := h
        obtain ⟨ls, hls, rfl⟩ := ih hleft
        obtain ⟨ops, hops, rfl⟩ := logicalOper_iff.mp hoper
        obtain ⟨rs, hrs, rfl⟩ := ih hright
        obtain ⟨rfl, rfl⟩ := matchToken_iff.mp hclose
        refine ⟨⟨.LPAREN, text⟩ :: (ls ++ (ops ++ (rs ++ [⟨.RPAREN, close⟩]))),
          .logical hls hops hrs, ?_⟩
        simp
      · cases h

/-- An expression is taken for what it is, whatever follows it. -/
theorem expr_complete {es : List Token} {e : ExprContext} (h : ExprTokens es e) (rest : List Token)
    {fuel : ℕ} (hfuel : es.length ≤ fuel) : expr fuel (es ++ rest) = some (e, rest) := by
  induction h generalizing fuel rest with
  | @filter column escapedString ops o hops =>
      obtain ⟨fuel, rfl⟩ := Nat.exists_eq_add_of_le' (Nat.le_trans (Nat.succ_pos _) hfuel)
      have htokens : ExprTokens
          (⟨.Identifier, column⟩ :: (ops ++ [⟨.EscapedString, escapedString⟩])) _ := .filter hops
      have hfilter : filter ((⟨.Identifier, column⟩ ::
          (ops ++ [⟨.EscapedString, escapedString⟩])) ++ rest) = some (_, rest) :=
        filter_iff.mpr ⟨_, htokens, rfl⟩
      rw [List.cons_append] at hfilter ⊢
      rw [expr, hfilter]
      rfl
  | @logical open_ close ls ops rs left right o hleft hops hright ihleft ihright =>
      simp only [List.length_cons, List.length_append, List.length_nil] at hfuel
      obtain ⟨fuel, rfl⟩ := Nat.exists_eq_add_of_le' (show 1 ≤ fuel by omega)
      have hclose : matchToken .RPAREN (⟨.RPAREN, close⟩ :: rest) = some (⟨.RPAREN, close⟩, rest) :=
        rfl
      have hoper : logicalOper (ops ++ (rs ++ ⟨.RPAREN, close⟩ :: rest)) =
          some (o, rs ++ ⟨.RPAREN, close⟩ :: rest) := logicalOper_iff.mpr ⟨ops, hops, rfl⟩
      simp only [List.cons_append, List.append_assoc, List.nil_append, expr]
      rw [ihleft _ (by omega)]
      simp only [Option.bind_eq_bind, Option.bind_some, hoper]
      rw [ihright _ (by omega)]
      simp only [Option.bind_some, hclose]

theorem list_iff {fuel : ℕ} {input rest : List Token} {context : ListContext}
    (hfuel : input.length ≤ fuel) :
    QueryEngine.list fuel input = some (context, rest) ↔
      ∃ ss, ListTokens ss context ∧ input = ss ++ rest ∧
        (context.whereExpr = none → rest = []) := by
  constructor
  · intro h
    simp only [QueryEngine.list, Option.bind_eq_bind, Option.bind_eq_some_iff, Prod.exists,
      matchToken_iff] at h
    obtain ⟨⟨_, tablename⟩, input, ⟨rfl, rfl⟩, h⟩ := h
    split at h
    · simp only [Option.bind_eq_some_iff, Prod.exists, Option.some.injEq, Prod.mk.injEq] at h
      obtain ⟨e, input, hexpr, rfl, rfl⟩ := h
      obtain ⟨es, hes, rfl⟩ := expr_sound hexpr
      exact ⟨_, .rows hes, rfl, nofun⟩
    · obtain ⟨rfl, rfl⟩ := Prod.mk.inj (Option.some.inj h)
      exact ⟨_, .table, rfl, fun _ => rfl⟩
    · cases h
  · rintro ⟨ss, hss, rfl, hend⟩
    cases hss with
    | table =>
        rw [hend rfl]
        rfl
    | rows hes =>
        simp only [List.cons_append, List.length_cons, List.length_append] at hfuel
        have hexpr := expr_complete hes rest (show _ ≤ fuel by omega)
        simp only [QueryEngine.list, List.cons_append, matchToken, if_true, Option.bind_eq_bind,
          Option.bind_some, hexpr]

/-- A statement at the start of the input that the parser is content with, and what
follows it: only behind a `list` without a `where` clause must be the end. -/
inductive Begins (input : List Token) : StatementContext → List Token → Prop
  | schema {text : List Char} {rest : List Token} : input = ⟨.SCHEMA, text⟩ :: rest →
      Begins input .schema rest
  | list {word : Token} {ss rest : List Token} {context : ListContext} : IsListWord word →
      ListTokens ss context → input = word :: (ss ++ rest) →
      (context.whereExpr = none → rest = []) → Begins input (.list context) rest

/-- The parser counts no error exactly when the input begins with a statement. -/
theorem statement_iff {input rest : List Token} {tree : StatementContext} :
    statement input.length input = some (tree, rest) ↔ Begins input tree rest := by
  constructor
  · intro h
    unfold statement at h
    split at h
    · obtain ⟨⟨context, rest'⟩, hlist, heq⟩ := Option.map_eq_some_iff.mp h
      obtain ⟨rfl, rfl⟩ := Prod.mk.inj heq
      obtain ⟨ss, hss, rfl, hend⟩ := (list_iff (Nat.le_succ _)).mp hlist
      exact .list (.inl rfl) hss rfl hend
    · obtain ⟨⟨context, rest'⟩, hlist, heq⟩ := Option.map_eq_some_iff.mp h
      obtain ⟨rfl, rfl⟩ := Prod.mk.inj heq
      obtain ⟨ss, hss, rfl, hend⟩ := (list_iff (Nat.le_succ _)).mp hlist
      exact .list (.inr rfl) hss rfl hend
    · obtain ⟨rfl, rfl⟩ := Prod.mk.inj (Option.some.inj h)
      exact .schema rfl
    · cases h
  · intro h
    cases h with
    | schema hinput =>
        rw [hinput]
        rfl
    | @list word ss rest context hword hss hinput hend =>
        obtain ⟨type, text⟩ := word
        subst hinput
        have hlist : QueryEngine.list (⟨type, text⟩ :: (ss ++ rest)).length (ss ++ rest) =
            some (context, rest) := (list_iff (Nat.le_succ _)).mpr ⟨ss, hss, rfl, hend⟩
        rcases hword with hword | hword
        · obtain rfl : type = .LIST := hword
          rw [statement, hlist]
          rfl
        · obtain rfl : type = .SELECT := hword
          rw [statement, hlist]
          rfl

/-- A statement is a beginning with nothing behind it. -/
theorem StatementTokens.begins {input : List Token} {tree : StatementContext}
    (h : StatementTokens input tree) : Begins input tree [] := by
  cases h with
  | schema => exact .schema rfl
  | list hword hss => exact .list hword hss (by rw [List.append_nil]) fun _ => rfl

end Grammar

section Acceptance
variable {β : Type} (recover : List Char → ℕ) (isRegex : Bytes → Bool → Bool)
  (walk : StatementContext → β) (text : List Char)

/-- The whole text is a sentence of the grammar. -/
def Sentence : Prop := ∃ ts tree, Lexes text ts ∧ StatementTokens ts tree

/-- The engine accepts exactly the sentences, and runs nothing for other texts. -/
structure AcceptsWhole : Prop where
  result : (∃ shown, execute recover isRegex walk text = some (true, shown)) ↔ Sentence text
  runs : ¬Sentence text → execute recover isRegex walk text = some (false, none)

/-- The tokens begin with a statement. -/
def BeginsWith (tree : StatementContext) : Prop :=
  ∃ rest, Begins (tokens recover (inputStream text)) tree rest

/-- Every character is of a lexeme, and the tokens are one statement. -/
def NothingLeft : Prop :=
  none ∉ scanFrom recover 0 text ∧ ∃ tree, StatementTokens (tokens recover text) tree

/-- Every pattern is one for `std::regex`, with the flag of the first filter that has it. -/
def PatternsAccepted (fs : List FilterContext) : Prop :=
  ∀ before f after, fs = before ++ f :: after → f.oper = .REGEX →
    (∀ g ∈ before, g.oper = .REGEX → g.pattern ≠ f.pattern) →
      isRegex f.pattern f.isCaseInsensitive = true

variable {recover isRegex walk text}

/-- Nothing is thrown exactly if the patterns that are not cached are accepted. -/
theorem buildRegexes_iff {fs : List FilterContext} {cache : List Bytes} :
    buildRegexes isRegex fs cache = true ↔
      ∀ before f after, fs = before ++ f :: after → f.oper = .REGEX → f.pattern ∉ cache →
        (∀ g ∈ before, g.oper = .REGEX → g.pattern ≠ f.pattern) →
          isRegex f.pattern f.isCaseInsensitive = true := by
  induction fs generalizing cache with
  | nil => exact iff_of_true rfl fun before f after h => absurd h (by simp)
  | cons f fs ih =>
      unfold buildRegexes
      by_cases hnew : f.oper = .REGEX ∧ f.pattern ∉ cache
      · rw [if_pos hnew, Bool.and_eq_true, ih]
        constructor
        · rintro ⟨hf, hrest⟩ before g after hfs hg hcache hbefore
          cases before with
          | nil =>
              obtain ⟨rfl, -⟩ := List.cons.inj hfs
              exact hf
          | cons f' before =>
              obtain ⟨rfl, htail⟩ := List.cons.inj hfs
              have hne : f.pattern ≠ g.pattern := hbefore f List.mem_cons_self hnew.1
              exact hrest before g after htail hg (by simp [hcache, Ne.symm hne])
                fun g' hg' => hbefore g' (List.mem_cons_of_mem _ hg')
        · intro hall
          refine ⟨hall [] f fs rfl hnew.1 hnew.2 (by simp), ?_⟩
          intro before g after hfs hg hcache hbefore
          rw [List.mem_cons, not_or] at hcache
          refine hall (f :: before) g after (by rw [hfs]; rfl) hg hcache.2 ?_
          intro g' hg' hregex
          rcases List.mem_cons.mp hg' with rfl | hg'
          · exact Ne.symm hcache.1
          · exact hbefore g' hg' hregex
      · rw [if_neg hnew, ih]
        constructor
        · intro hrest before g after hfs hg hcache hbefore
          cases before with
          | nil =>
              obtain ⟨rfl, -⟩ := List.cons.inj hfs
              exact absurd ⟨hg, hcache⟩ hnew
          | cons f' before =>
              obtain ⟨rfl, htail⟩ := List.cons.inj hfs
              exact hrest before g after htail hg hcache
                fun g' hg' => hbefore g' (List.mem_cons_of_mem _ hg')
        · intro hall before g after hfs hg hcache hbefore
          refine hall (f :: before) g after (by rw [hfs]; rfl) hg hcache ?_
          intro g' hg' hregex heq
          rcases List.mem_cons.mp hg' with rfl | hg'
          · exact hnew ⟨hregex, heq ▸ hcache⟩
          · exact hbefore g' hg' hregex heq

theorem buildRegexes_iff_patternsAccepted {fs : List FilterContext} :
    buildRegexes isRegex fs [] = true ↔ PatternsAccepted isRegex fs := by
  rw [buildRegexes_iff]
  simp only [List.not_mem_nil, not_false_eq_true, true_imp_iff]
  rfl

/-- A text that begins with no statement is rejected, and of the others those are
accepted whose patterns are. -/
theorem execute_spec (recover : List Char → ℕ) (isRegex : Bytes → Bool → Bool)
    (walk : StatementContext → β) (text : List Char) :
    (¬(∃ tree, BeginsWith recover text tree) ∧
        execute recover isRegex walk text = some (false, none)) ∨
      ∃ tree, BeginsWith recover text tree ∧
        execute recover isRegex walk text =
          if buildRegexes isRegex (filters tree) [] then some (true, some (walk tree))
          else none := by
  unfold execute query BeginsWith
  generalize tokens recover (inputStream text) = input
  cases hstatement : statement input.length input with
  | some found => exact .inr ⟨found.1, ⟨found.2, statement_iff.mp hstatement⟩, rfl⟩
  | none =>
      refine .inl ⟨?_, rfl⟩
      rintro ⟨tree, rest, hbegins⟩
      rw [statement_iff.mpr hbegins] at hstatement
      cases hstatement

theorem BeginsWith.unique {tree tree' : StatementContext} (h : BeginsWith recover text tree)
    (h' : BeginsWith recover text tree') : tree = tree' := by
  obtain ⟨rest, hbegins⟩ := h
  obtain ⟨rest', hbegins'⟩ := h'
  have hsame := (statement_iff.mpr hbegins).symm.trans (statement_iff.mpr hbegins')
  exact congrArg Prod.fst (Option.some.inj hsame)

theorem reduceOption_map_some (ts : List Token) : (ts.map some).reduceOption = ts := by
  induction ts with
  | nil => rfl
  | cons t ts ih => rw [List.map_cons, List.reduceOption_cons_of_some, ih]

theorem map_some_reduceOption {l : List (Option Token)} (h : none ∉ l) :
    l.reduceOption.map some = l := by
  induction l with
  | nil => rfl
  | cons o l ih =>
      cases o with
      | none => exact absurd List.mem_cons_self h
      | some t =>
          rw [List.reduceOption_cons_of_some, List.map_cons,
            ih fun hnone => h (List.mem_cons_of_mem _ hnone)]

theorem sentence_iff (recover : List Char → ℕ) : Sentence text ↔ NothingLeft recover text := by
  unfold Sentence NothingLeft tokens
  constructor
  · rintro ⟨ts, tree, hlexes, hstatement⟩
    rw [(lexes_iff recover).mp hlexes, reduceOption_map_some]
    exact ⟨by simp, tree, hstatement⟩
  · rintro ⟨herror, tree, hstatement⟩
    refine ⟨_, tree, (lexes_iff recover).mpr ?_, hstatement⟩
    rw [map_some_reduceOption herror]

theorem begins_of_sentence (hnul : '\x00' ∉ text) (h : Sentence text) :
    ∃ tree, BeginsWith recover text tree := by
  have hinput : inputStream text = text := by
    rw [inputStream, List.takeWhile_eq_self_iff]
    intro c hc
    simpa using fun heq : c = '\x00' => hnul (heq ▸ hc)
  obtain ⟨-, tree, hstatement⟩ := (sentence_iff recover).mp h
  refine ⟨tree, [], ?_⟩
  rw [hinput]
  exact hstatement.begins

/-- For every text and every way of the lexer to go on after an error: the engine
accepts sentences only as a whole exactly when the tokens do not begin with a
statement, or the statement is all of them, no character was dropped or cut off and
its patterns are regular expressions. A text with a null character is cut there, so one
that has it inside a literal must begin with a statement before it as well. -/
theorem acceptsWhole_iff (recover : List Char → ℕ) (isRegex : Bytes → Bool → Bool)
    (walk : StatementContext → β) (text : List Char) :
    AcceptsWhole recover isRegex walk text ↔
      (∀ tree, BeginsWith recover text tree →
          NothingLeft recover text ∧ PatternsAccepted isRegex (filters tree)) ∧
        ('\x00' ∈ text → NothingLeft recover text → ∃ tree, BeginsWith recover text tree) := by
  rw [← sentence_iff]
  rcases execute_spec recover isRegex walk text with
    ⟨hnone, hrun⟩ | ⟨tree, hbegins, hrun⟩
  · have hrejects : AcceptsWhole recover isRegex walk text ↔ ¬Sentence text := by
      refine ⟨fun h hsentence => ?_, fun h => ⟨iff_of_false ?_ h, fun _ => hrun⟩⟩
      · obtain ⟨shown, htrue⟩ := h.result.mpr hsentence
        rw [hrun] at htrue
        simp at htrue
      · rintro ⟨shown, htrue⟩
        rw [hrun] at htrue
        simp at htrue
    rw [hrejects]
    constructor
    · intro h
      exact ⟨fun tree hbegins => absurd ⟨tree, hbegins⟩ hnone,
        fun _ hsentence => absurd hsentence h⟩
    · rintro ⟨-, hcut⟩ hsentence
      by_cases hnul : '\x00' ∈ text
      · exact hnone (hcut hnul hsentence)
      · exact hnone (begins_of_sentence hnul hsentence)
  · have hevery : (∀ tree, BeginsWith recover text tree →
        Sentence text ∧ PatternsAccepted isRegex (filters tree)) ↔
        Sentence text ∧ PatternsAccepted isRegex (filters tree) := by
      refine ⟨fun h => h tree hbegins, fun h tree' hbegins' => ?_⟩
      rw [← hbegins.unique hbegins']
      exact h
    rw [hevery, ← buildRegexes_iff_patternsAccepted]
    by_cases hbuilt : buildRegexes isRegex (filters tree) [] = true
    · rw [if_pos hbuilt] at hrun
      constructor
      · intro h
        exact ⟨⟨h.result.mp ⟨_, hrun⟩, hbuilt⟩, fun _ _ => ⟨tree, hbegins⟩⟩
      · rintro ⟨⟨hsentence, -⟩, -⟩
        exact ⟨iff_of_true ⟨_, hrun⟩ hsentence, fun hnot => absurd hsentence hnot⟩
    · rw [if_neg hbuilt] at hrun
      refine iff_of_false (fun h => ?_) fun h => hbuilt h.1.2
      have hnot : ¬Sentence text := by
        intro hsentence
        obtain ⟨shown, htrue⟩ := h.result.mpr hsentence
        rw [hrun] at htrue
        simp at htrue
      have hreturns := h.runs hnot
      rw [hrun] at hreturns
      simp at hreturns

/-- The second filter is left over. -/
def unparenthesised : List Char := "list t where a='b' or c='d'".toList

theorem unparenthesised_accepted :
    ¬AcceptsWhole (fun _ => 0) (fun _ _ => true) id unparenthesised := by
  intro h
  have haccepted : (execute (fun _ => 0) (fun _ _ => true) id unparenthesised).map Prod.fst =
      some true := by decide
  obtain ⟨⟨accepted, shown⟩, hrun, rfl⟩ := Option.map_eq_some_iff.mp haccepted
  obtain ⟨-, tree, hstatement⟩ := (sentence_iff fun _ => 0).mp (h.result.mp ⟨shown, hrun⟩)
  have hrest : Option.map Prod.snd (statement (tokens (fun _ => 0) unparenthesised).length
      (tokens (fun _ => 0) unparenthesised)) = some [] := by
    rw [statement_iff.mpr hstatement.begins]
    rfl
  exact absurd hrest (by decide)

end Acceptance

end Tarracsh.QueryAcceptance
