import NosqlBuddy.Mongo.Expr
import NosqlBuddy.Sql.Expr

/-!
# What a SQL expression means on a row

A row is a document, its columns the fields at dotted paths. `NULL` is the null value, a truth value a boolean or
`NULL`; an expression that SQL gives no value on the row (a column that is not there, operands of two types, a
construct without a meaning here) evaluates to `none`.

| here | there |
| --- | --- |
| `sqlLiteral` | a literal: an integer is itself, a number with a fraction the double nearest to it |
| `sqlCompare`, `sqlAnd`, `sqlOr`, `sqlNot`, `sqlIn` | three-valued logic |
| `sqlEval` | the value of an expression |
-/

namespace Sql

open Mongo (Value Doc)
open Mongo.Value

/-- The column of a row. -/
def column (d : Doc) (name : String) : Option Value := Mongo.getPath (Mongo.splitPath name) d

/-! ## Literals and names -/

def Numeral.sqlValue (n : Numeral) : Option Value :=
  if 0 ≤ n.exponent then some (.num n.toRat) else (nearestDouble n.toRat).map Value.num

def sqlLiteral : SqlValue → Option Value
  | .number n => n.sqlValue
  | .singleQuotedString s => some (.str s)
  | .doubleQuotedString s => some (.str s)
  | .escapedStringLiteral s => some (.str s)
  | .nationalStringLiteral s => some (.str s)
  | .boolean b => some (.bool b)
  | .null => some .null
  | .other _ => none

/-- A double-quoted name is a string literal; a date tag has no value here. -/
def sqlIdent (d : Doc) (i : Ident) : Option Value :=
  if i.quoteStyle = some '"' then some (.str i.value)
  else if i.value.toList.head? = some '#' then none
  else column d i.value

/-! ## Three-valued logic -/

/-- `NULL` when an operand is, no value on operands of two types. -/
def sqlCompare (test : Ordering → Bool) (v w : Value) : Option Value :=
  if v = .null ∨ w = .null then some .null
  else if v.rank = w.rank then some (.bool (test (v.cmp w)))
  else none

def sqlNot : Value → Option Value
  | .bool b => some (.bool !b)
  | .null => some .null
  | _ => none

def sqlAnd : Value → Value → Option Value
  | .bool a, .bool b => some (.bool (a && b))
  | .bool a, .null => some (if a then .null else .bool false)
  | .null, .bool b => some (if b then .null else .bool false)
  | .null, .null => some .null
  | _, _ => none

def sqlOr : Value → Value → Option Value
  | .bool a, .bool b => some (.bool (a || b))
  | .bool a, .null => some (if a then .bool true else .null)
  | .null, .bool b => some (if b then .bool true else .null)
  | .null, .null => some .null
  | _, _ => none

/-- The disjunction of the equalities. -/
def sqlIn (v : Value) : List Value → Option Value
  | [] => some (.bool false)
  | w :: ws => (sqlCompare (· == .eq) v w).bind fun b => (sqlIn v ws).bind fun c => sqlOr b c

def negateTruth (negated : Bool) (v : Value) : Option Value := if negated then sqlNot v else some v

/-- An operator on numbers. -/
def sqlArith (f : ℚ → ℚ → Option ℚ) : Value → Value → Option Value
  | .num a, .num b => (f a b).map Value.num
  | .null, .num _ => some .null
  | .num _, .null => some .null
  | .null, .null => some .null
  | _, _ => none

def sqlNegate : Value → Option Value
  | .num q => some (.num (-q))
  | .null => some .null
  | _ => none

def sqlBinary : BinaryOperator → Value → Value → Option Value
  | .eq => sqlCompare (· == .eq)
  | .notEq => sqlCompare (· != .eq)
  | .lt => sqlCompare (·.isLT)
  | .ltEq => sqlCompare (·.isLE)
  | .gt => sqlCompare (·.isGT)
  | .gtEq => sqlCompare (·.isGE)
  | .and => sqlAnd
  | .or => sqlOr
  | .plus => sqlArith fun a b => some (a + b)
  | .minus => sqlArith fun a b => some (a - b)
  | .multiply => sqlArith fun a b => some (a * b)
  | .divide => sqlArith fun a b => if b = 0 then none else some (a / b)
  | .modulo => sqlArith fun a b => if b = 0 then none else some (Mongo.ratMod a b)
  | .spaceship => fun _ _ => none
  | .other _ => fun _ _ => none

def isNullValue (v : Value) : Bool := v = .null

mutual

def sqlEval (d : Doc) : SqlExpr → Option Value
  | .identifier i => sqlIdent d i
  | .compoundIdentifier is => column d (identChain is)
  | .nested inner => sqlEval d inner
  | .value v => sqlLiteral v
  | .unaryOp .minus e => (sqlEval d e).bind sqlNegate
  | .unaryOp .plus e => (sqlEval d e).bind fun v => (sqlNegate v).map fun _ => v
  | .unaryOp .not e => (sqlEval d e).bind sqlNot
  | .binaryOp l op r => (sqlEval d l).bind fun v => (sqlEval d r).bind fun w => sqlBinary op v w
  | .inList e list negated =>
    (sqlEval d e).bind fun v => (sqlEvalList d list).bind fun ws => (sqlIn v ws).bind (negateTruth negated)
  | .isNull e => (sqlEval d e).map fun v => .bool (isNullValue v)
  | .isNotNull e => (sqlEval d e).map fun v => .bool (!isNullValue v)
  | .between e negated low high =>
    (sqlEval d e).bind fun v => (sqlEval d low).bind fun l => (sqlEval d high).bind fun h =>
      (sqlCompare (·.isGE) v l).bind fun a => (sqlCompare (·.isLE) v h).bind fun b =>
        (sqlAnd a b).bind (negateTruth negated)
  | _ => none

def sqlEvalList (d : Doc) : List SqlExpr → Option (List Value)
  | [] => some []
  | e :: es => (sqlEval d e).bind fun v => (sqlEvalList d es).map (v :: ·)

end

/-- The rows a condition selects are those it is true on. -/
def Holds (d : Doc) (e : SqlExpr) : Prop := sqlEval d e = some (.bool true)

instance (d : Doc) (e : SqlExpr) : Decidable (Holds d e) := inferInstanceAs (Decidable (_ = _))

/-! ## Rows without `NULL` -/

/-- A value that is neither `NULL` nor an array. -/
def Known (v : Value) : Prop := v ≠ .null ∧ ∀ vs, v ≠ .arr vs

/-- The operand has a value that is neither `NULL` nor an array. -/
def Valued (d : Doc) (e : SqlExpr) : Prop := ∃ v, sqlEval d e = some v ∧ Known v

mutual

/-- Every operand inside the expression is `Valued`; the operand of `IS NULL` may be `NULL`. -/
def Strict (d : Doc) : SqlExpr → Prop
  | .nested inner => Strict d inner
  | .unaryOp _ e => Strict d e ∧ Valued d e
  | .binaryOp l _ r => Strict d l ∧ Valued d l ∧ Strict d r ∧ Valued d r
  | .inList e list _ => Strict d e ∧ Valued d e ∧ StrictList d list
  | .isNull e => Strict d e ∧ ∃ v, sqlEval d e = some v ∧ ∀ vs, v ≠ .arr vs
  | .isNotNull e => Strict d e ∧ ∃ v, sqlEval d e = some v ∧ ∀ vs, v ≠ .arr vs
  | .between e _ low high => Strict d e ∧ Valued d e ∧ Strict d low ∧ Valued d low ∧ Strict d high ∧ Valued d high
  | _ => True

def StrictList (d : Doc) : List SqlExpr → Prop
  | [] => True
  | e :: es => Strict d e ∧ Valued d e ∧ StrictList d es

end

end Sql
