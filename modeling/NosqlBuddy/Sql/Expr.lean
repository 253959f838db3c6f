import NosqlBuddy.Lib.Warned
import NosqlBuddy.Mongo.Value
import NosqlBuddy.Sql.Ast

/-!
# Expressions as aggregation expressions and as filters

`mongo/sql_to_mongo.rs:1066-1638`. JSON is a `Mongo.Value`, an object of an insertion-ordered map.

`today` is the day a date tag counts from, in days since the epoch.
-/

namespace Sql

open Mongo (Value)
open Mongo.Value

/-! ## Names -/

inductive IdentKind where
  | field (f : String)
  | dateTag (tag : String)
  | stringLiteral (s : String)
  deriving DecidableEq

/-- `classify_ident` (:1075): the `#` is looked at before the quotes. -/
def classifyIdent (i : Ident) : IdentKind :=
  match i.value.toList with
  | '#' :: tag => .dateTag (String.ofList tag)
  | _ => if i.quoteStyle = some '"' then .stringLiteral i.value else .field i.value

/-- `ident_chain` (:1085). -/
def identChain (is : List Ident) : String := String.intercalate "." (is.map Ident.value)

/-- `field_name` (:1095). -/
def fieldName : SqlExpr → Option String
  | .identifier i => match classifyIdent i with
    | .field f => some f
    | _ => none
  | .compoundIdentifier is => some (identChain is)
  | .nested inner => fieldName inner
  | _ => none

theorem classifyIdent_eq_field {i : Ident} {f : String} (h : classifyIdent i = .field f) :
    i.quoteStyle ≠ some '"' ∧ i.value.toList.head? ≠ some '#' ∧ i.value = f := by
  unfold classifyIdent at h
  split at h
  · exact absurd h (by simp)
  · next hd =>
    by_cases hq : i.quoteStyle = some '"'
    · rw [if_pos hq] at h
      exact absurd h (by simp)
    · rw [if_neg hq] at h
      refine ⟨hq, fun hh => ?_, IdentKind.field.inj h⟩
      obtain ⟨tl, ht⟩ := List.head?_eq_some_iff.1 hh
      exact hd _ ht

theorem fieldName_forms {f : String} {motive : SqlExpr → Prop} (ident : ∀ i, classifyIdent i = .field f → motive (.identifier i))
    (path : ∀ is, identChain is = f → motive (.compoundIdentifier is)) (nested : ∀ e, motive e → motive (.nested e)) :
    ∀ {e : SqlExpr}, fieldName e = some f → motive e
  | .identifier i, h => by
    rw [fieldName] at h
    cases hc : classifyIdent i with
    | field g =>
      rw [hc] at h
      exact ident i (hc.trans (congrArg IdentKind.field (Option.some.inj h)))
    | dateTag tag =>
      rw [hc] at h
      cases h
    | stringLiteral s =>
      rw [hc] at h
      cases h
  | .compoundIdentifier is, h => path is (Option.some.inj h)
  | .nested e, h => nested e (fieldName_forms ident path nested (e := e) h)

/-- `is_literal` (:1109). -/
def isLiteral : SqlExpr → Bool
  | .value _ => true
  | .identifier i => match classifyIdent i with
    | .field _ => false
    | _ => true
  | .unaryOp .minus e => isLiteral e
  | .unaryOp .plus e => isLiteral e
  | .nested inner => isLiteral inner
  | _ => false

/-! ## Literals -/

/-- The number a token spells. -/
def Numeral.toRat (n : Numeral) : ℚ := n.digits * 10 ^ n.exponent

/-- `json!(s.parse::<f64>())`: an infinity has no JSON number. -/
def Numeral.toJson (n : Numeral) : Value :=
  match nearestDouble n.toRat with
  | some q => .num q
  | none => .null

/-- `value_to_json` (:1124). -/
def valueToJson : SqlValue → Warned Value
  | .number n => pure n.toJson
  | .singleQuotedString s => pure (.str s)
  | .doubleQuotedString s => pure (.str s)
  | .escapedStringLiteral s => pure (.str s)
  | .nationalStringLiteral s => pure (.str s)
  | .boolean b => pure (.bool b)
  | .null => pure .null
  | .other display => .warn ("unsupported literal value, treated as null: " ++ display) .null

/-- `to_lowercase` on what can become a letter of a tag. -/
def lowerTag (tag : String) : List Char :=
  tag.toList.map fun c => if c = '\u212A' then 'k' else c.toLower

/-- `resolve_date_tag` (bson_json.rs:38): midnight of the day, in milliseconds. -/
def resolveDateTag (today : ℤ) (tag : String) : Option ℤ :=
  let day := 86400000
  let tag := lowerTag tag
  if tag = "today".toList then some (today * day)
  else if tag = "yesterday".toList then some ((today - 1) * day)
  else if tag = "lastweek".toList ∨ tag = "last_week".toList then some ((today - 7) * day)
  else if tag = "lastmonth".toList ∨ tag = "last_month".toList then some ((today - 30) * day)
  else none

/-- `date_to_extjson` (bson_json.rs:55). -/
def dateToExtjson (ms : ℤ) : Value := .doc [("$date", .doc [("$numberLong", .str (toString ms))])]

/-! ## `LIKE` -/

/-- `regex_syntax::is_meta_character`. -/
def isMetaCharacter (c : Char) : Bool := "\\.+*?()|[]\x7b\x7d^$#&-~".toList.contains c

/-- `regex::escape` of one character. -/
def regexEscape (c : Char) : List Char := if isMetaCharacter c then ['\\', c] else [c]

def likePatternChars : List Char → List Char
  | [] => []
  | '%' :: cs => '.' :: '*' :: likePatternChars cs
  | '_' :: cs => '.' :: likePatternChars cs
  | ['\\'] => ['\\', '\\']
  | '\\' :: c :: cs => regexEscape c ++ likePatternChars cs
  | c :: cs => regexEscape c ++ likePatternChars cs

/-- `like_pattern_to_regex` (:1147). -/
def likePatternToRegex (pattern : String) : String :=
  String.ofList ('^' :: likePatternChars pattern.toList ++ ['$'])

/-- `like_pattern_string` (:1170). -/
def likePatternString : SqlExpr → Warned String
  | .value (.singleQuotedString s) => pure s
  | .value (.doubleQuotedString s) => pure s
  | .identifier i =>
    if i.quoteStyle = some '"' then pure i.value
    else .warn "LIKE pattern must be a string literal; treated as empty" ""
  | _ => .warn "LIKE pattern must be a string literal; treated as empty" ""

/-! ## Aggregation expressions -/

/-- An operator applied to its arguments. -/
def call (op : String) (args : List Value) : Value := .doc [(op, .arr args)]

/-- The expression, or its negation. -/
def negateIf (negated : Bool) (v : Value) : Value := if negated then call "$not" [v] else v

/-- `like_to_agg_expr` (:1187). -/
def likeToAggExpr (input : Warned Value) (pattern : SqlExpr) (caseInsensitive negated : Bool) : Warned Value := do
  let input ← input
  let pattern ← likePatternString pattern
  let obj := [("input", input), ("regex", .str (likePatternToRegex pattern))] ++
    if caseInsensitive then [("options", .str "i")] else []
  pure (negateIf negated (.doc [("$regexMatch", .doc obj)]))

/-- The mongo operator of a binary operator, and the warning where there is none (:1303-1325). -/
def BinaryOperator.mongoOp : BinaryOperator → Warned String
  | .eq => pure "$eq"
  | .spaceship => pure "$eq"
  | .notEq => pure "$ne"
  | .lt => pure "$lt"
  | .ltEq => pure "$lte"
  | .gt => pure "$gt"
  | .gtEq => pure "$gte"
  | .and => pure "$and"
  | .or => pure "$or"
  | .plus => pure "$add"
  | .minus => pure "$subtract"
  | .multiply => pure "$multiply"
  | .divide => pure "$divide"
  | .modulo => pure "$mod"
  | .other display => .warn ("unsupported operator `" ++ display ++ "`, treated as `=`") "$eq"

/-- `binary_op_to_agg_expr` (:1296). -/
def binaryOpToAggExpr (left : Warned Value) (op : BinaryOperator) (right : Warned Value) : Warned Value := do
  let mongoOp ← op.mongoOp
  let left ← left
  let right ← right
  pure (call mongoOp [left, right])

/-- `to_uppercase` on what can become a letter of a function name. -/
def upperChar (c : Char) : List Char :=
  if c = '\u0131' then ['I']
  else if c = '\u017F' then ['S']
  else if c = '\u00DF' then ['S', 'S']
  else if c = '\uFB00' then ['F', 'F']
  else if c = '\uFB01' then ['F', 'I']
  else if c = '\uFB02' then ['F', 'L']
  else if c = '\uFB03' then ['F', 'F', 'I']
  else if c = '\uFB04' then ['F', 'F', 'L']
  else if c = '\uFB05' ∨ c = '\uFB06' then ['S', 'T']
  else [c.toUpper]

def upperName (s : String) : String := String.ofList (s.toList.flatMap upperChar)

/-- The first argument of a function that needs one. -/
def firstArg (upper : String) : List (Warned Value) → Warned Value
  | [] => .fail (upper ++ "() needs an argument")
  | a :: _ => a

/-- Run the translations of the arguments in order. -/
def runArgs : List (Warned Value) → Warned (List Value)
  | [] => pure []
  | a :: as => do
    let v ← a
    let vs ← runArgs as
    pure (v :: vs)

/-- `function_to_agg_expr` (:1236). -/
def functionToAggExpr (name : ObjectName) (args : List (Warned Value)) (form : CallForm) : Warned Value :=
  let upper := upperName name.display
  if form.subquery then .fail "subqueries as function arguments are not supported"
  else match upper with
  | "COUNT" => pure (.doc [("$sum", .num 1)])
  | "SUM" => do pure (.doc [("$sum", ← firstArg upper args)])
  | "AVG" => do pure (.doc [("$avg", ← firstArg upper args)])
  | "MIN" => do pure (.doc [("$min", ← firstArg upper args)])
  | "MAX" => do pure (.doc [("$max", ← firstArg upper args)])
  | "REGEX" => regex args
  | "REGEXMATCH" => regex args
  | "COALESCE" => do pure (call "$ifNull" (← runArgs args))
  | "LOWER" => do pure (.doc [("$toLower", ← firstArg upper args)])
  | "UPPER" => do pure (.doc [("$toUpper", ← firstArg upper args)])
  | "ABS" => do pure (.doc [("$abs", ← firstArg upper args)])
  | "CEIL" => do pure (.doc [("$ceil", ← firstArg upper args)])
  | "FLOOR" => do pure (.doc [("$floor", ← firstArg upper args)])
  | "SQRT" => do pure (.doc [("$sqrt", ← firstArg upper args)])
  | "TRIM" => do pure (.doc [("$trim", .doc [("input", ← firstArg upper args)])])
  | _ => .warn ("unhandled function " ++ upper) .null
where
  /-- `REGEX(input, pattern[, options])`. -/
  regex : List (Warned Value) → Warned Value
    | input :: pattern :: rest => do
      let input ← input
      let pattern ← pattern
      let options ← runArgs (rest.take 1)
      pure (.doc [("$regexMatch", .doc ([("input", input), ("regex", pattern)] ++ options.map fun o => ("options", o)))])
    | _ => .fail "REGEX requires at least 2 arguments: input, pattern"

/-- `-n` for a number, `{$multiply: [v, -1]}` for the rest. -/
def negateJson : Value → Value
  | .num q => .num (-q)
  | v => call "$multiply" [v, .num (-1)]

mutual

/-- `expr_to_agg_expr` (:1338). -/
def exprToAggExpr (today : ℤ) : SqlExpr → Warned Value
  | .identifier i => match classifyIdent i with
    | .field f => pure (.str ("$" ++ f))
    | .stringLiteral s => pure (.str s)
    | .dateTag tag => match resolveDateTag today tag with
      | some ms => pure (dateToExtjson ms)
      | none => .warn ("unknown date tag #" ++ tag) (.str ("#" ++ tag))
  | .compoundIdentifier is => pure (.str ("$" ++ identChain is))
  | .nested inner => exprToAggExpr today inner
  | .value v => valueToJson v
  | .unaryOp .minus e => do pure (negateJson (← exprToAggExpr today e))
  | .unaryOp .plus e => exprToAggExpr today e
  | .unaryOp .not e => do pure (call "$not" [← exprToAggExpr today e])
  | .binaryOp l op r => binaryOpToAggExpr (exprToAggExpr today l) op (exprToAggExpr today r)
  | .inList e list negated => do
    let arr ← runArgs (exprsToAggExpr today list)
    let e ← exprToAggExpr today e
    pure (negateIf negated (call "$in" [e, .arr arr]))
  | .isNull e => do pure (call "$eq" [← exprToAggExpr today e, .null])
  | .isNotNull e => do pure (call "$ne" [← exprToAggExpr today e, .null])
  | .between e negated low high => do
    let e ← exprToAggExpr today e
    let l ← exprToAggExpr today low
    let h ← exprToAggExpr today high
    pure (negateIf negated (call "$and" [call "$gte" [e, l], call "$lte" [e, h]]))
  | .like caseInsensitive negated e pattern _ => likeToAggExpr (exprToAggExpr today e) pattern caseInsensitive negated
  | .function name args form => functionToAggExpr name (exprsToAggExpr today args) form
  | .other display => .warn ("unsupported expression, treated as null: " ++ display) .null

/-- The translations of a list of expressions, not yet run. -/
def exprsToAggExpr (today : ℤ) : List SqlExpr → List (Warned Value)
  | [] => []
  | e :: es => exprToAggExpr today e :: exprsToAggExpr today es

end

/-! ## Filters -/

/-- `simple_field_filter` (:1611). -/
def simpleFieldFilter (op field : String) (v : Value) : Value :=
  if op = "$eq" then .doc [(field, v)] else .doc [(field, .doc [(op, v)])]

/-- The operator for swapped operands (:1592-1598). -/
def swappedOp (op : String) : String :=
  match op with
  | "$lt" => "$gt"
  | "$gt" => "$lt"
  | "$lte" => "$gte"
  | "$gte" => "$lte"
  | other => other

/-- `comparison_to_filter` (:1576). -/
def comparisonToFilter (today : ℤ) (op : String) (l r : SqlExpr) : Warned Value :=
  match fieldName l, isLiteral r with
  | some field, true => do pure (simpleFieldFilter op field (← exprToAggExpr today r))
  | _, _ => match isLiteral l, fieldName r with
    | true, some field => do pure (simpleFieldFilter (swappedOp op) field (← exprToAggExpr today l))
    | _, _ => do
      let left ← exprToAggExpr today l
      let right ← exprToAggExpr today r
      pure (.doc [("$expr", call op [left, right])])

/-- No key of the object is an operator. -/
def simple (fs : List (String × Value)) : Bool := fs.all fun f => !Mongo.isOperator f.1

/-- `merge_and` (:1624). -/
def mergeAnd (left right : Value) : Value :=
  match left, right with
  | .doc l, .doc r =>
    if simple l && simple r && !(l.any fun f => (r.lookup f.1).isSome) then .doc (Mongo.insertAll r l)
    else call "$and" [left, right]
  | _, _ => call "$and" [left, right]

/-- The operators of the comparisons that `expr_to_filter` takes apart (:1482-1500). -/
def BinaryOperator.comparison : BinaryOperator → Option String
  | .eq => some "$eq"
  | .notEq => some "$ne"
  | .lt => some "$lt"
  | .ltEq => some "$lte"
  | .gt => some "$gt"
  | .gtEq => some "$gte"
  | _ => none

/-- `{$expr: …}` around the aggregation expression. -/
def exprFilter (today : ℤ) (e : SqlExpr) : Warned Value := do pure (.doc [("$expr", ← exprToAggExpr today e)])

/-- `expr_to_filter` (:1460). -/
def exprToFilter (today : ℤ) : SqlExpr → Warned Value
  | .nested inner => exprToFilter today inner
  | .binaryOp left .and right => do
    let l ← exprToFilter today left
    let r ← exprToFilter today right
    pure (mergeAnd l r)
  | .binaryOp left .or right => do
    let l ← exprToFilter today left
    let r ← exprToFilter today right
    pure (call "$or" [l, r])
  | .binaryOp left op right => match op.comparison with
    | some mongoOp => comparisonToFilter today mongoOp left right
    | none => exprFilter today (.binaryOp left op right)
  | .inList inner list negated => do
    let arr ← runArgs (exprsToAggExpr today list)
    match fieldName inner with
    | some field => pure (simpleFieldFilter (if negated then "$nin" else "$in") field (.arr arr))
    | none => do
      let left ← exprToAggExpr today inner
      pure (.doc [("$expr", negateIf negated (call "$in" [left, .arr arr]))])
  | .isNull inner => match fieldName inner with
    | some field => pure (.doc [(field, .null)])
    | none => do pure (.doc [("$expr", call "$eq" [← exprToAggExpr today inner, .null])])
  | .isNotNull inner => match fieldName inner with
    | some field => pure (.doc [(field, .doc [("$ne", .null)])])
    | none => do pure (.doc [("$expr", call "$ne" [← exprToAggExpr today inner, .null])])
  | .between inner negated low high => match fieldName inner with
    | some field => do
      let l ← exprToAggExpr today low
      let h ← exprToAggExpr today high
      if negated then pure (call "$or" [.doc [(field, .doc [("$lt", l)])], .doc [(field, .doc [("$gt", h)])]])
      else pure (.doc [(field, .doc [("$gte", l), ("$lte", h)])])
    | none => exprFilter today (.between inner negated low high)
  | e => exprFilter today e

/-! ## What the operands decide -/

section
variable {today : ℤ} {op : String} {l r e low high : SqlExpr} {list : List SqlExpr} {negated : Bool} {f : String}

theorem comparisonToFilter_field (hf : fieldName l = some f) (hlit : isLiteral r = true) :
    comparisonToFilter today op l r = (do pure (simpleFieldFilter op f (← exprToAggExpr today r))) := by
  rw [comparisonToFilter, hf, hlit]

theorem comparisonToFilter_swapped (hno : ¬ ∃ f, fieldName l = some f ∧ isLiteral r = true) (hlit : isLiteral l = true)
    (hf : fieldName r = some f) :
    comparisonToFilter today op l r = (do pure (simpleFieldFilter (swappedOp op) f (← exprToAggExpr today l))) := by
  unfold comparisonToFilter
  split
  · next g hg hr => exact absurd ⟨g, hg, hr⟩ hno
  · rw [hlit, hf]

theorem comparisonToFilter_expr (hno : ¬ ∃ f, fieldName l = some f ∧ isLiteral r = true)
    (hno' : ¬ ∃ f, isLiteral l = true ∧ fieldName r = some f) :
    comparisonToFilter today op l r = (do
      let left ← exprToAggExpr today l
      let right ← exprToAggExpr today r
      pure (.doc [("$expr", call op [left, right])])) := by
  unfold comparisonToFilter
  split
  · next g hg hr => exact absurd ⟨g, hg, hr⟩ hno
  · split
    · next g hl hg => exact absurd ⟨g, hl, hg⟩ hno'
    · rfl

/-- Parentheses mean nothing. -/
example : exprToFilter today (.nested e) = exprToFilter today e := by rw [exprToFilter]

theorem exprToFilter_inList (hf : fieldName e = some f) :
    exprToFilter today (.inList e list negated) = (do
      let arr ← runArgs (exprsToAggExpr today list)
      pure (simpleFieldFilter (if negated then "$nin" else "$in") f (.arr arr))) := by
  rw [exprToFilter, hf]

theorem exprToFilter_inList_expr (hf : fieldName e = none) :
    exprToFilter today (.inList e list negated) = (do
      let arr ← runArgs (exprsToAggExpr today list)
      let left ← exprToAggExpr today e
      pure (.doc [("$expr", negateIf negated (call "$in" [left, .arr arr]))])) := by
  rw [exprToFilter, hf]

theorem exprToFilter_isNull (hf : fieldName e = some f) : exprToFilter today (.isNull e) = pure (.doc [(f, .null)]) := by
  rw [exprToFilter, hf]

theorem exprToFilter_isNull_expr (hf : fieldName e = none) :
    exprToFilter today (.isNull e) = (do pure (.doc [("$expr", call "$eq" [← exprToAggExpr today e, .null])])) := by
  rw [exprToFilter, hf]

theorem exprToFilter_isNotNull (hf : fieldName e = some f) :
    exprToFilter today (.isNotNull e) = pure (.doc [(f, .doc [("$ne", .null)])]) := by
  rw [exprToFilter, hf]

theorem exprToFilter_isNotNull_expr (hf : fieldName e = none) :
    exprToFilter today (.isNotNull e) = (do pure (.doc [("$expr", call "$ne" [← exprToAggExpr today e, .null])])) := by
  rw [exprToFilter, hf]

theorem exprToFilter_between (hf : fieldName e = some f) :
    exprToFilter today (.between e negated low high) = (do
      let l ← exprToAggExpr today low
      let h ← exprToAggExpr today high
      if negated then pure (call "$or" [.doc [(f, .doc [("$lt", l)])], .doc [(f, .doc [("$gt", h)])]])
      else pure (.doc [(f, .doc [("$gte", l), ("$lte", h)])])) := by
  rw [exprToFilter, hf]

theorem exprToFilter_between_expr (hf : fieldName e = none) :
    exprToFilter today (.between e negated low high) = exprFilter today (.between e negated low high) := by
  rw [exprToFilter, hf]

end

end Sql
