import NosqlBuddy.Lib.Binary64

/-!
# The syntax tree of a SQL statement

The part of `sqlparser::ast` that `mongo/sql_to_mongo.rs` matches on. A node the translator has no arm for is an
`other` with the text it is displayed as; a clause it never looks at is a name in a list (`unread`), or a field of
its own where the statement means something by it.

| here | there |
| --- | --- |
| `SqlExpr.function` | `Expr::Function`: the expression arguments, and in `CallForm` the rest of the call |
-/

namespace Sql

structure Ident where
  value : String
  quoteStyle : Option Char := none
  deriving DecidableEq, Repr

/-- The closing quote of an opening one. -/
def closingQuote (q : Char) : Char := if q = '[' then ']' else q

/-- A quote inside a quoted identifier is doubled. -/
def escapeQuotedString (q : Char) (s : String) : String :=
  String.ofList (s.toList.flatMap fun c => if c = q then [q, q] else [c])

/-- `impl Display for Ident`. -/
def Ident.display (i : Ident) : String :=
  match i.quoteStyle with
  | none => i.value
  | some q =>
    String.singleton q ++ (if q = '[' then i.value else escapeQuotedString q i.value) ++
      String.singleton (closingQuote q)

abbrev ObjectName := List Ident

/-- `impl Display for ObjectName`: the parts with dots between them. -/
def ObjectName.display (n : ObjectName) : String := String.intercalate "." (n.map Ident.display)

/-- A number token. -/
structure Numeral where
  digits : ℕ
  exponent : ℤ := 0
  deriving DecidableEq, Repr

inductive SqlValue where
  | number (n : Numeral)
  | singleQuotedString (s : String)
  | doubleQuotedString (s : String)
  | escapedStringLiteral (s : String)
  | nationalStringLiteral (s : String)
  | boolean (b : Bool)
  | null
  | other (display : String)

inductive UnaryOperator where
  | minus
  | plus
  | not

inductive BinaryOperator where
  | eq
  | spaceship
  | notEq
  | lt
  | ltEq
  | gt
  | gtEq
  | and
  | or
  | plus
  | minus
  | multiply
  | divide
  | modulo
  | other (display : String)

/-- What a call has besides its expression arguments. -/
structure CallForm where
  subquery : Bool := false
  wildcard : Bool := false
  distinct : Bool := false
  unread : List String := []

inductive SqlExpr where
  | identifier (ident : Ident)
  | compoundIdentifier (idents : List Ident)
  | nested (inner : SqlExpr)
  | value (v : SqlValue)
  | unaryOp (op : UnaryOperator) (expr : SqlExpr)
  | binaryOp (left : SqlExpr) (op : BinaryOperator) (right : SqlExpr)
  | inList (expr : SqlExpr) (list : List SqlExpr) (negated : Bool)
  | isNull (expr : SqlExpr)
  | isNotNull (expr : SqlExpr)
  | between (expr : SqlExpr) (negated : Bool) (low high : SqlExpr)
  | like (caseInsensitive negated : Bool) (expr pattern : SqlExpr) (unread : List String)
  | function (name : ObjectName) (args : List SqlExpr) (form : CallForm)
  | other (display : String)

/-! ## Queries -/

inductive SelectItem where
  | unnamedExpr (expr : SqlExpr)
  | exprWithAlias (expr : SqlExpr) (alias_ : Ident)
  | exprWithAliases
  | wildcard (unread : List String)
  | qualifiedWildcard

inductive Distinct where
  | all
  | distinct
  | on

inductive TableFactor where
  | table (name : ObjectName) (alias_ : Option Ident) (unread : List String)
  | other

inductive JoinConstraint where
  | on (expr : SqlExpr)
  | other

inductive JoinOperator where
  | join (c : JoinConstraint)
  | inner (c : JoinConstraint)
  | left (c : JoinConstraint)
  | leftOuter (c : JoinConstraint)
  | other (debug : String)

structure Join where
  relation : TableFactor
  joinOperator : JoinOperator

structure TableWithJoins where
  relation : TableFactor
  joins : List Join := []

inductive GroupByExpr where
  | expressions (exprs : List SqlExpr) (modifiers : List String)
  | all

structure Select where
  distinct : Option Distinct := none
  projection : List SelectItem
  from_ : List TableWithJoins
  selection : Option SqlExpr := none
  groupBy : GroupByExpr := .expressions [] []
  having : Option SqlExpr := none
  unread : List String := []

structure OrderByExpr where
  expr : SqlExpr
  asc : Option Bool := none
  unread : List String := []

inductive OrderByKind where
  | expressions (exprs : List OrderByExpr)
  | all

inductive LimitClause where
  | limitOffset (limit offset : Option SqlExpr) (limitBy : List SqlExpr)
  | offsetCommaLimit (offset limit : SqlExpr)

/-- The body of a query; in parentheses, a query with clauses of its own. -/
inductive SetExpr where
  | select (s : Select)
  | query (withClause : Bool) (body : SetExpr) (orderBy : Option OrderByKind) (limitClause : Option LimitClause)
    (unread : List String)
  | values (rows : List (List SqlExpr))
  | other

structure Query where
  withClause : Bool := false
  body : SetExpr
  orderBy : Option OrderByKind := none
  limitClause : Option LimitClause := none
  unread : List String := []

/-! ## Write statements -/

inductive AssignmentTarget where
  | columnName (name : ObjectName)
  | tuple

structure Assignment where
  target : AssignmentTarget
  value : SqlExpr

structure Update where
  table : TableWithJoins
  assignments : List Assignment
  selection : Option SqlExpr := none
  fromTables : List TableWithJoins := []
  orderBy : List OrderByExpr := []
  limit : Option SqlExpr := none
  unread : List String := []

inductive TableObject where
  | tableName (name : ObjectName)
  | tableFunction
  | tableQuery

structure Insert where
  table : TableObject
  columns : List ObjectName
  source : Option SetExpr
  unread : List String := []

structure Delete where
  tables : List TableWithJoins
  selection : Option SqlExpr := none
  usingTables : List TableWithJoins := []
  orderBy : List OrderByExpr := []
  limit : Option SqlExpr := none
  unread : List String := []

inductive Statement where
  | query (q : Query)
  | update (u : Update)
  | insert (i : Insert)
  | delete (d : Delete)
  | other (display : String)

end Sql
