import Tarracsh.TableModel
import Mathlib.Data.List.DropRight

/-!
# Queries over a table

`ListenerImpl` is called back on the way through the parse tree of a query. It
stores a predicate for each node and shares two caches between all filters, and
at the end `Table::list` applies the predicate of the `where` clause. A node is
known by its path from the root, innermost step first. The caller gives the
tables of the database after `read`; `search` is `regex_search` with the pattern
and the flag that the regex was made of.
-/
namespace Tarracsh.QueryListener
open ByteStrings TableModel

/-- The flag says whether there is a `NOT`. -/
inductive OperContext where
  | REGEX
  | EQUAL
  | NOT_EQUAL
  | STARTS_WITH (negated : Bool)
  | ENDS_WITH (negated : Bool)
  deriving DecidableEq, Repr

def OperContext.NOT : OperContext → Bool
  | .STARTS_WITH negated => negated
  | .ENDS_WITH negated => negated
  | _ => false

/-- The texts of the column and of the `EscapedString`, and the operator. -/
structure FilterContext where
  column : Bytes
  oper : OperContext
  escapedString : Bytes
  deriving DecidableEq, Repr

inductive LogicalOper where
  | AND
  | OR
  deriving DecidableEq, Repr

inductive ExprContext where
  | filter (filterContext : FilterContext)
  | logical (left : ExprContext) (oper : LogicalOper) (right : ExprContext)
  deriving DecidableEq, Repr

structure ListContext where
  tablename : Bytes
  whereExpr : Option ExprContext
  deriving DecidableEq, Repr

inductive StatementContext where
  | list (listContext : ListContext)
  | schema
  deriving DecidableEq, Repr

abbrev NodeId := List ℕ

/-- The loop of `replaceAll` for a nonempty `oldSubstring`; `skip` bytes are still
of the occurrence that was replaced last. -/
def replaceFrom (oldSubstring newSubstring : Bytes) : ℕ → Bytes → Bytes
  | _, [] => []
  | skip + 1, _ :: bs => replaceFrom oldSubstring newSubstring skip bs
  | 0, b :: bs =>
      if oldSubstring.isPrefixOf (b :: bs) then
        newSubstring ++ replaceFrom oldSubstring newSubstring (oldSubstring.length - 1) bs
      else b :: replaceFrom oldSubstring newSubstring 0 bs

def replaceAll (value oldSubstring newSubstring : Bytes) : Bytes :=
  replaceFrom oldSubstring newSubstring 0 value

def trim (value chars : Bytes) : Bytes :=
  (value.dropWhile (· ∈ chars)).rdropWhile (· ∈ chars)

/-- What `getSanitizedString` computes for a text that is not cached. -/
def sanitized (value : Bytes) : Bytes :=
  replaceAll (trim value (ascii "'")) (ascii "\\\\") (ascii "\\")

structure Regex where
  pattern : Bytes
  icase : Bool
  deriving DecidableEq, Repr

/-- A table that a query names, with `valueToString` for each of its columns. -/
structure MainTable (α : Type) where
  table : Table α
  columnByName : Bytes → Option (Row α → Bytes)

/-- The methods that a stored predicate calls through `this`. -/
structure This (α : Type) where
  invokePredicate : NodeId → Row α → Option Bool
  getColumnValue : Row α → Bytes → Option Bytes

/-- A failed assertion has no result. -/
abbrev RowPredicate (α : Type) := This α → Row α → Option Bool

structure Listener (α : Type) where
  semanticErrors : List Bytes := []
  regexCache : Bytes → Option Regex := fun _ => none
  sanitizedStringCache : Bytes → Option Bytes := fun _ => none
  wherePredicate : RowPredicate α := fun _ _ => some true
  mainTable : Option (MainTable α) := none
  rulePredicates : NodeId → Option (RowPredicate α) := fun _ => none

/-- What a query prints. -/
inductive Shown (α : Type) where
  | rows (rows : List (Row α))
  | errors (semanticErrors : List Bytes)
  | schema

section Table
variable {α : Type}

/-- The loop of one task of `list`, for `count` rows from `index` on. -/
def scan (t : Table α) (filter : Row α → Option Bool) : (index count : ℕ) → Option (List (Row α))
  | _, 0 => some []
  | index, count + 1 => do
      let row ← t.getRow index
      let found ← if row.isDeleted then some false else filter row
      let rest ← scan t filter (index + 1) count
      some (if found then row :: rest else rest)

/-- The number of tasks that `list` splits the rows into. -/
def activeThreads (hardwareThreads rowsScanned : ℕ) : ℕ :=
  let scaledThreads :=
    if hardwareThreads = 0 then 1 else max 1 (hardwareThreads * 4 % 2 ^ 32 / 5)
  let threadCount := max 1 scaledThreads
  if rowsScanned = 0 then 1 else min threadCount (rowsScanned % 2 ^ 32)

/-- The rows that `list` prints. -/
def list (t : Table α) (hardwareThreads : ℕ) (filter : Row α → Option Bool) :
    Option (List (Row α)) := do
  let rowsScanned := t.autoIncrementIndex.length
  let activeThreads := activeThreads hardwareThreads rowsScanned
  let chunkSize :=
    if activeThreads = 0 then 0 else (rowsScanned + activeThreads - 1) / activeThreads
  let outputByChunk ← (List.range activeThreads).mapM fun chunkIndex =>
    let index := chunkIndex * chunkSize
    let stop := min (index + chunkSize) rowsScanned
    if chunkSize = 0 ∨ stop ≤ index then some [] else scan t filter index (stop - index)
  some outputByChunk.flatten

end Table

namespace Listener
variable {α : Type} (search : Bytes → Bool → Bytes → Bool) (l : Listener α)

def hasSemanticErrors : Bool := !l.semanticErrors.isEmpty

def getColumnValue (row : Row α) (columnName : Bytes) : Option Bytes := do
  let mainTable ← l.mainTable
  let stored ← mainTable.table.getRow row.id
  let valueToString ← mainTable.columnByName columnName
  some (valueToString stored)

/-- A call that nests deeper than `fuel` has no result. -/
def invokePredicate : ℕ → NodeId → Row α → Option Bool
  | 0, _, _ => none
  | fuel + 1, ctx, row =>
      match l.rulePredicates ctx with
      | none => some false
      | some predicate =>
          predicate ⟨fun ctx row => invokePredicate fuel ctx row, l.getColumnValue⟩ row

def enterList (getTable : Bytes → Option (MainTable α)) (tablename : Bytes) : Listener α :=
  match getTable tablename with
  | some mainTable => { l with mainTable := some mainTable }
  | none => { l with
      mainTable := none
      semanticErrors := l.semanticErrors ++ [ascii "Invalid table name: " ++ tablename] }

def exitList (hardwareThreads fuel : ℕ) : Option (Shown α) :=
  if l.hasSemanticErrors then some (.errors l.semanticErrors)
  else do
    let mainTable ← l.mainTable
    let rows ← list mainTable.table hardwareThreads fun row =>
      l.wherePredicate ⟨l.invokePredicate fuel, l.getColumnValue⟩ row
    some (.rows rows)

def enterWhere (expr : NodeId) : Listener α :=
  { l with wherePredicate := fun this row => this.invokePredicate expr row }

/-- The predicate of an expression that is a filter. -/
def filterPredicate (filterContext : NodeId) : RowPredicate α :=
  fun this row => this.invokePredicate filterContext row

/-- The predicate of an expression in parentheses. -/
def logicalPredicate (left : NodeId) (oper : LogicalOper) (right : NodeId) : RowPredicate α :=
  fun this row => do
    let left ← this.invokePredicate left row
    match oper with
    | .AND => if !left then some false else this.invokePredicate right row
    | .OR => if left then some true else this.invokePredicate right row

def enterExpr (ctx : NodeId) : ExprContext → Listener α
  | .filter _ => { l with
      rulePredicates := Function.update l.rulePredicates ctx (some (filterPredicate (0 :: ctx))) }
  | .logical _ oper _ => { l with
      rulePredicates := Function.update l.rulePredicates ctx
        (some (logicalPredicate (1 :: ctx) oper (3 :: ctx))) }

def getRegex (right : Bytes) (isCaseInsensitive : Bool) : Regex × Listener α :=
  match l.regexCache right with
  | some regex => (regex, l)
  | none =>
      let regex := ⟨right, isCaseInsensitive⟩
      (regex, { l with regexCache := Function.update l.regexCache right (some regex) })

def getSanitizedString (value : Bytes) : Bytes × Listener α :=
  match l.sanitizedStringCache value with
  | some result => (result, l)
  | none =>
      let result := sanitized value
      (result, { l with
        sanitizedStringCache := Function.update l.sanitizedStringCache value (some result) })

/-- The comparison in the predicate of a filter. -/
def compares (filterRegex : Option Regex) (oper : OperContext) (left sanitizedRight : Bytes) :
    Bool :=
  match filterRegex, oper with
  | some regex, _ => search regex.pattern regex.icase left
  | none, .NOT_EQUAL => left != sanitizedRight
  | none, .STARTS_WITH _ => sanitizedRight.isPrefixOf left
  | none, .ENDS_WITH _ => sanitizedRight.isSuffixOf left
  | none, _ => left == sanitizedRight

def columnPredicate (columnName : Bytes) (oper : OperContext) (filterRegex : Option Regex)
    (sanitizedRight : Bytes) : RowPredicate α :=
  fun this row => do
    let left ← this.getColumnValue row columnName
    let result := compares search filterRegex oper left sanitizedRight
    some (if oper.NOT then !result else result)

def exitFilter (ctx : NodeId) (filterContext : FilterContext) : Listener α :=
  let (sanitizedRight, l) := l.getSanitizedString filterContext.escapedString
  match filterContext.oper with
  | .REGEX =>
      let isCaseInsensitive := (ascii "/i").isSuffixOf sanitizedRight
      let sanitizedRight :=
        if isCaseInsensitive then sanitizedRight.take (sanitizedRight.length - 2)
        else sanitizedRight
      let (filterRegex, l) := l.getRegex sanitizedRight isCaseInsensitive
      { l with
        rulePredicates := Function.update l.rulePredicates ctx (some (columnPredicate search
          filterContext.column .REGEX (some filterRegex) sanitizedRight)) }
  | oper => { l with
      rulePredicates := Function.update l.rulePredicates ctx (some (columnPredicate search
        filterContext.column oper none sanitizedRight)) }

def enterColumn (columnName : Bytes) : Listener α :=
  match l.mainTable with
  | some mainTable =>
      if (mainTable.columnByName columnName).isSome then l
      else { l with
        semanticErrors := l.semanticErrors ++ [ascii "Invalid column name: " ++ columnName] }
  | none => l

/-- `ParseTreeWalker::walk` of an expression. A column is entered before the
filter that it belongs to is left. -/
def walkExpr : NodeId → ExprContext → Listener α → Listener α
  | ctx, .filter filterContext, l =>
      ((l.enterExpr ctx (.filter filterContext)).enterColumn filterContext.column).exitFilter
        search (0 :: ctx) filterContext
  | ctx, .logical left oper right, l =>
      walkExpr (3 :: ctx) right
        (walkExpr (1 :: ctx) left (l.enterExpr ctx (.logical left oper right)))

/-- The path of the expression of the `where` clause. -/
def whereNode : NodeId := [1, 2, 0, 0]

/-- The walk of a `list` statement up to the exit. -/
def walkList (getTable : Bytes → Option (MainTable α)) (listContext : ListContext) : Listener α :=
  let l := enterList {} getTable listContext.tablename
  match listContext.whereExpr with
  | none => l
  | some expr => (l.enterWhere whereNode).walkExpr search whereNode expr

/-- The walk of the tree of a query. -/
def walk (getTable : Bytes → Option (MainTable α)) (hardwareThreads fuel : ℕ) :
    StatementContext → Option (Shown α)
  | .list listContext => (walkList search getTable listContext).exitList hardwareThreads fuel
  | .schema => some .schema

end Listener

end Tarracsh.QueryListener
