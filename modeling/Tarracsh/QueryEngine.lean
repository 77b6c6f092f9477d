import Tarracsh.QuerySemantics

/-!
# The query engine

`Engine::execute` runs the generated lexer and parser over a text and walks the
parse tree if the parser counted no syntax error. The lexer takes the longest
lexeme of any rule, and of two rules with that lexeme the first one. Where no rule
has a lexeme it reports to the console, drops the character it stopped at and
whatever it had read before it, and goes on; `recover` is how much it had read. A
syntax error makes the result false whatever the parser does afterwards, so the
parser here stops at the first one. The listener makes a `std::regex` of each new
pattern, and nothing catches the exception for a pattern that is not one.
-/
namespace Tarracsh.QueryEngine
open ByteStrings QueryListener

/-- `T__0` to `T__5` are the words and parentheses without a name of their own. -/
inductive TokenType where
  | SCHEMA | LIST | SELECT | WHERE | LPAREN | RPAREN
  | NOT | NOT_EQUAL | EQUAL | REGEX | STARTS_WITH | ENDS_WITH | AND | OR
  | Identifier | WS | EscapedString
  deriving DecidableEq, Repr

structure Token where
  type : TokenType
  text : List Char
  deriving DecidableEq, Repr

/-- `getText`. -/
def Token.getText (token : Token) : Bytes := token.text.flatMap String.utf8EncodeChar

section Lexer

/-- The rules with one lexeme. -/
def literals : List (List Char × TokenType) :=
  [ ("schema".toList, .SCHEMA), ("list".toList, .LIST), ("select".toList, .SELECT),
    ("where".toList, .WHERE), ("(".toList, .LPAREN), (")".toList, .RPAREN), ("not".toList, .NOT),
    ("!=".toList, .NOT_EQUAL), ("=".toList, .EQUAL), ("*^*".toList, .REGEX),
    ("^*".toList, .STARTS_WITH), ("*^".toList, .ENDS_WITH), ("and".toList, .AND),
    ("or".toList, .OR) ]

def isIdentifier : List Char → Bool
  | [] => false
  | c :: cs => (c.isAlpha || c == '_') && cs.all fun c => c.isAlphanum || c == '_'

def isWS (lexeme : List Char) : Bool :=
  !lexeme.isEmpty && lexeme.all fun c => c == ' ' || c == '\t' || c == '\r' || c == '\n'

/-- A backtick and a quote. -/
def isEscape (c d : Char) : Bool := c == '\x60' && (d == '\x27' || d == '\x22')

/-- What follows the opening quote: escapes, doubled quotes and other characters, and
then the closing quote. -/
def isQuoted (quote : Char) : List Char → Bool
  | [] => false
  | [c] => c == quote
  | c :: d :: cs =>
      (c != quote && isQuoted quote (d :: cs)) ||
        ((isEscape c d || (c == quote && d == quote)) && isQuoted quote cs)

/-- A closing smart quote. -/
def isClosing (c : Char) : Bool := c == '\u201D' || c == '\u2033'

/-- The loop between smart quotes is not greedy: the first closing quote ends it. -/
def isSmartQuoted : List Char → Bool
  | [] => false
  | [c] => isClosing c
  | c :: cs => !isClosing c && isSmartQuoted cs

def isEscapedString : List Char → Bool
  | [] => false
  | c :: cs =>
      (c == '\x22' && isQuoted '\x22' cs) || (c == '\x27' && isQuoted '\x27' cs) ||
        (c == '\u201C' && isSmartQuoted cs)

/-- The first rule that the lexeme is one of. -/
def ruleOf (lexeme : List Char) : Option TokenType :=
  match literals.lookup lexeme with
  | some type => some type
  | none =>
      if isIdentifier lexeme then some .Identifier
      else if isWS lexeme then some .WS
      else if isEscapedString lexeme then some .EscapedString
      else none

/-- The longest lexeme at the start of the text, of at most `n` characters. -/
def longestLexeme (text : List Char) : ℕ → Option (TokenType × ℕ)
  | 0 => none
  | n + 1 =>
      match ruleOf (text.take (n + 1)) with
      | some type => some (type, n + 1)
      | none => longestLexeme text n

/-- The tokens, and `none` for each error; `skip` characters are read already. -/
def scanFrom (recover : List Char → ℕ) : ℕ → List Char → List (Option Token)
  | _, [] => []
  | skip + 1, _ :: cs => scanFrom recover skip cs
  | 0, c :: cs =>
      match longestLexeme (c :: cs) (cs.length + 1) with
      | some (type, n) =>
          if type = .WS then scanFrom recover (n - 1) cs
          else some ⟨type, (c :: cs).take n⟩ :: scanFrom recover (n - 1) cs
      | none => none :: scanFrom recover (recover (c :: cs)) cs

/-- The token stream. -/
def tokens (recover : List Char → ℕ) (text : List Char) : List Token :=
  (scanFrom recover 0 text).reduceOption

end Lexer

section Parser

def matchToken (type : TokenType) : List Token → Option (Token × List Token)
  | [] => none
  | token :: input => if token.type = type then some (token, input) else none

def logicalOper : List Token → Option (LogicalOper × List Token)
  | ⟨.AND, _⟩ :: input => some (.AND, input)
  | ⟨.OR, _⟩ :: input => some (.OR, input)
  | _ => none

/-- The alternative is chosen by up to two tokens. -/
def oper : List Token → Option (OperContext × List Token)
  | ⟨.REGEX, _⟩ :: input => some (.REGEX, input)
  | ⟨.EQUAL, _⟩ :: input => some (.EQUAL, input)
  | ⟨.NOT_EQUAL, _⟩ :: input => some (.NOT_EQUAL, input)
  | ⟨.STARTS_WITH, _⟩ :: input => some (.STARTS_WITH false, input)
  | ⟨.NOT, _⟩ :: ⟨.STARTS_WITH, _⟩ :: input => some (.STARTS_WITH true, input)
  | ⟨.ENDS_WITH, _⟩ :: input => some (.ENDS_WITH false, input)
  | ⟨.NOT, _⟩ :: ⟨.ENDS_WITH, _⟩ :: input => some (.ENDS_WITH true, input)
  | _ => none

def filter (input : List Token) : Option (FilterContext × List Token) := do
  let (column, input) ← matchToken .Identifier input
  let (oper, input) ← oper input
  let (escapedString, input) ← matchToken .EscapedString input
  some (⟨column.getText, oper, escapedString.getText⟩, input)

/-- The calls nest at most as deep as there are tokens. -/
def expr : ℕ → List Token → Option (ExprContext × List Token)
  | _ + 1, ⟨.Identifier, text⟩ :: input => do
      let (filterContext, input) ← filter (⟨.Identifier, text⟩ :: input)
      some (.filter filterContext, input)
  | fuel + 1, ⟨.LPAREN, _⟩ :: input => do
      let (left, input) ← expr fuel input
      let (oper, input) ← logicalOper input
      let (right, input) ← expr fuel input
      let (_, input) ← matchToken .RPAREN input
      some (.logical left oper right, input)
  | _, _ => none

/-- After the table there must be a `where` clause or the end of the input. -/
def list (fuel : ℕ) (input : List Token) : Option (ListContext × List Token) := do
  let (tablename, input) ← matchToken .Identifier input
  match input with
  | ⟨.WHERE, _⟩ :: input => do
      let (whereExpr, input) ← expr fuel input
      some (⟨tablename.getText, some whereExpr⟩, input)
  | [] => some (⟨tablename.getText, none⟩, [])
  | _ => none

def statement (fuel : ℕ) : List Token → Option (StatementContext × List Token)
  | ⟨.LIST, _⟩ :: input => (list fuel input).map fun (context, input) => (.list context, input)
  | ⟨.SELECT, _⟩ :: input => (list fuel input).map fun (context, input) => (.list context, input)
  | ⟨.SCHEMA, _⟩ :: input => some (.schema, input)
  | _ => none

/-- The start rule does not ask for the end of the input. -/
def query (input : List Token) : Option StatementContext :=
  (statement input.length input).map Prod.fst

end Parser

/-- `query.c_str()` ends at the first null character. -/
def inputStream (text : List Char) : List Char := text.takeWhile (· ≠ '\x00')

/-- The filters in the order in which the listener leaves them. -/
def filters : StatementContext → List FilterContext
  | .list context => context.whereExpr.elim [] ExprContext.filters
  | .schema => []

/-- `getRegex` for one filter after the other; `cache` has the patterns that are built
already. The constructor of `std::regex` throws if `isRegex` is false. -/
def buildRegexes (isRegex : Bytes → Bool → Bool) : List FilterContext → List Bytes → Bool
  | [], _ => true
  | f :: fs, cache =>
      if f.oper = .REGEX ∧ f.pattern ∉ cache then
        isRegex f.pattern f.isCaseInsensitive && buildRegexes isRegex fs (f.pattern :: cache)
      else buildRegexes isRegex fs cache

/-- The result, and what the listener did if it ran. There is none if an exception
leaves the walk. -/
def execute {β : Type} (recover : List Char → ℕ) (isRegex : Bytes → Bool → Bool)
    (walk : StatementContext → β) (text : List Char) : Option (Bool × Option β) :=
  match query (tokens recover (inputStream text)) with
  | some tree =>
      if buildRegexes isRegex (filters tree) [] then some (true, some (walk tree)) else none
  | none => some (false, none)

end Tarracsh.QueryEngine
