import NosqlBuddy.Vqb.Scalar

/-!
# The visual query builder

| here | there |
| --- | --- |
| `VqbNode` | the tree of groups and conditions (mongo/vqb.rs:33) |
| `JsonReader` | `serde_json::from_str` and the `Display` of a `Value` |

An error of a child is found again by its mark and returned by its text (`firstError`).
-/

namespace Vqb

open Mongo (Value)
open Mongo.Value

inductive VqbCombinator where
  | and
  | or
  | nor
  deriving DecidableEq

def VqbCombinator.asMongoOp : VqbCombinator → String
  | .and => "$and"
  | .or => "$or"
  | .nor => "$nor"

inductive VqbNode where
  | group (combinator : VqbCombinator) (children : List VqbNode)
  | condition (field operator : String) (value : Option Value) (enabled : Bool)

def VqbNode.defaultRoot : VqbNode := .group .and [.condition "" "eq" none true]

/-- `AppError::SqlParse` and `AppError::Internal`. -/
inductive VqbError where
  | sqlParse (message : String)
  | internal (message : String)
  deriving DecidableEq

def VqbError.display : VqbError → String
  | .sqlParse message => "sql parse error: " ++ message
  | .internal message => "internal error: " ++ message

structure JsonReader where
  fromStr : String → Except String Value
  display : Value → String

/-! ## Operators -/

def mongoOperator (operator : String) : Except VqbError String :=
  match operator with
  | "eq" => .ok "$eq"
  | "ne" => .ok "$ne"
  | "gt" => .ok "$gt"
  | "gte" => .ok "$gte"
  | "lt" => .ok "$lt"
  | "lte" => .ok "$lte"
  | "in" => .ok "$in"
  | "nin" => .ok "$nin"
  | "exists" => .ok "$exists"
  | "regex" => .ok "$regex"
  | "text" => .ok "$text"
  | "type" => .ok "$type"
  | "size" => .ok "$size"
  | "elem_match" => .ok "$elemMatch"
  | "expr" => .ok "$expr"
  | "mod" => .ok "$mod"
  | "json_schema" => .ok "$jsonSchema"
  | "is_null" => .ok "$is_null"
  | "is_not_null" => .ok "$is_not_null"
  | operator => .error (.sqlParse ("unknown VQB operator: " ++ operator))

def mongoToVqbOp (op : String) : Option String :=
  match op with
  | "$eq" => some "eq"
  | "$ne" => some "ne"
  | "$gt" => some "gt"
  | "$gte" => some "gte"
  | "$lt" => some "lt"
  | "$lte" => some "lte"
  | "$in" => some "in"
  | "$nin" => some "nin"
  | "$exists" => some "exists"
  | "$regex" => some "regex"
  | "$type" => some "type"
  | "$size" => some "size"
  | "$elemMatch" => some "elem_match"
  | "$mod" => some "mod"
  | _ => none

/-! ## The value of a condition -/

section
variable (today : ℤ) (reader : JsonReader)

/-- The parts between commas, trimmed. -/
def commaParts (cs : List Char) : List (List Char) := (cs.splitOn ',').map Text.trim

def parseArrayValue (raw : Value) : Except VqbError Value := do
  let items ← match raw with
    | .arr vs => .ok (vs.map (parseScalarValue today))
    | .str s =>
      let trimmed := Text.trim s.toList
      if trimmed.head? = some '[' then
        match reader.fromStr (String.ofList trimmed) with
        | .ok (.arr vs) => .ok (vs.map (parseScalarValue today))
        | _ => .error (VqbError.sqlParse ("invalid JSON array for $in/$nin: " ++ s))
      else .ok (((commaParts trimmed).filter (· ≠ [])).map fun part => parseScalarString (String.ofList part))
    | other =>
      .error (.sqlParse ("$in/$nin value must be an array or comma-separated list, got " ++ reader.display other))
  return .arr (items.map (expandDateTags today))

def jsonType : Value → String
  | .arr _ => "array"
  | .str _ => "string"
  | .num _ => "number"
  | .bool _ => "boolean"
  | .null => "null"
  | .doc _ => "unknown"

def parseJsonObjectValue (raw : Value) (operator : String) : Except VqbError Value :=
  match raw with
  | .doc fs => .ok (.doc fs)
  | .str s =>
    let trimmed := Text.trim s.toList
    if trimmed = [] then .error (.sqlParse (operator ++ " requires a JSON object value"))
    else match reader.fromStr (String.ofList trimmed) with
      | .error e => .error (.sqlParse ("invalid JSON for " ++ operator ++ ": " ++ e))
      | .ok (.doc fs) => .ok (.doc fs)
      | .ok parsed => .error (.sqlParse (operator ++ " value must be a JSON object, got " ++ jsonType parsed))
  | other => .error (.sqlParse (operator ++ " requires a JSON object value, got " ++ reader.display other))

/-- The inside of brackets that open and close a text. -/
def unbracket (cs : List Char) : List Char :=
  if cs.head? = some '[' ∧ cs.getLast? = some ']' then cs.tail.dropLast else cs

def parseModValue (raw : Value) : Except VqbError Value :=
  match raw with
  | .arr [divisor, remainder] => .ok (.arr [coerceToNumber divisor, coerceToNumber remainder])
  | .str s =>
    match commaParts (unbracket (Text.trim s.toList)) with
    | [divisor, remainder] =>
      .ok (.arr [coerceToNumber (.str (String.ofList divisor)), coerceToNumber (.str (String.ofList remainder))])
    | _ => .error (.sqlParse ("$mod requires exactly two numbers [divisor, remainder], got: " ++ s))
  | other => .error (.sqlParse ("$mod value must be [divisor, remainder], got " ++ reader.display other))

def parseConditionValue (value : Option Value) (operator : String) : Except VqbError Value :=
  match value with
  | none => .ok .null
  | some raw =>
    match operator with
    | "exists" => .ok (match raw with
      | .bool b => .bool b
      | _ => .bool true)
    | "type" => .ok (coerceToStringOrNumber raw)
    | "size" => .ok (coerceToNumber raw)
    | "in" | "nin" => parseArrayValue today reader raw
    | "expr" | "json_schema" | "elem_match" => parseJsonObjectValue reader raw operator
    | "mod" => parseModValue reader raw
    | _ => .ok (parseScalarValue today raw)

/-! ## From the tree to the filter -/

/-- `field.trim().is_empty()` -/
def isBlank (field : String) : Bool := Text.trim field.toList = []

def emptyFilter : Value := .doc []

def single (key : String) (v : Value) : Value := .doc [(key, v)]

/-- The filter of an enabled condition with a field. -/
def buildCondition (field operator : String) (value : Option Value) : Except VqbError Value := do
  let mongoOp ← mongoOperator operator
  let value ← parseConditionValue today reader value operator
  if mongoOp = "$text" then return single "$text" (single "$search" value)
  else if mongoOp = "$expr" ∨ mongoOp = "$jsonSchema" then return single mongoOp value
  else if operator = "is_null" then return single field .null
  else if operator = "is_not_null" then return single field (single "$ne" .null)
  else return single field (single mongoOp value)

/-- The first error of the children, by its text. -/
def firstError : List (Except VqbError Value) → Option VqbError
  | [] => none
  | .error e :: _ => some (.internal e.display)
  | .ok _ :: rest => firstError rest

/-- A child that gives no condition is left out. -/
def keepPart : Except VqbError Value → Bool
  | .ok (.doc []) => false
  | _ => true

def partsFilter (combinator : VqbCombinator) : List Value → Value
  | [] => emptyFilter
  | parts => single combinator.asMongoOp (.arr parts)

/-- The filter of a group from those of its children. -/
def groupFilter (combinator : VqbCombinator) (children : List (Except VqbError Value)) : Except VqbError Value :=
  match firstError children with
  | some e => .error e
  | none => .ok (partsFilter combinator ((children.filter keepPart).filterMap Except.toOption))

mutual

def buildFilter : VqbNode → Except VqbError Value
  | .group combinator children => groupFilter combinator (buildAll children)
  | .condition field operator value enabled =>
    if !enabled || isBlank field then .ok emptyFilter else buildCondition today reader field operator value

def buildAll : List VqbNode → List (Except VqbError Value)
  | [] => []
  | node :: nodes => buildFilter node :: buildAll nodes

end

end

/-! ## From the filter to the tree -/

/-- A condition that is read from a filter. -/
def readCondition (field operator : String) (value : Value) : VqbNode := .condition field operator (some value) true

def operatorConditions (field : String) (ops : List (String × Value)) : List VqbNode :=
  ops.filterMap fun o => (mongoToVqbOp o.1).map fun operator => readCondition field operator o.2

def conditionFromFieldValue (field : String) (value : Value) : Option VqbNode :=
  match value with
  | .doc [] => none
  | .doc [(op, v)] => (mongoToVqbOp op).map fun operator => readCondition field operator v
  | .doc ops =>
    match operatorConditions field ops with
    | [] => none
    | children => some (.group .and children)
  | .null => some (readCondition field "is_null" .null)
  | v => some (readCondition field "eq" v)

/-- The condition of one entry that is no group. -/
def entryCondition (field : String) (value : Value) : Option VqbNode :=
  if field = "$text" then
    match value with
    | .doc fs => (fs.lookup "$search").map fun search => readCondition "$text" "text" search
    | _ => none
  else if field = "$expr" then some (readCondition "$expr" "expr" value)
  else if field = "$jsonSchema" then some (readCondition "$jsonSchema" "json_schema" value)
  else conditionFromFieldValue field value

/-- A single condition stands for itself. -/
def conditionsNode : List VqbNode → Option VqbNode
  | [] => none
  | [node] => some node
  | nodes => some (.group .and nodes)

def groupNode (combinator : VqbCombinator) : List VqbNode → Option VqbNode
  | [] => none
  | nodes => some (.group combinator nodes)

/-- The first of the three groups that is there, with the nodes of its filters. -/
def firstGroup (arrays : List (String × List VqbNode)) : Option (VqbCombinator × List VqbNode) :=
  [VqbCombinator.and, .or, .nor].findSome? fun c => (arrays.lookup c.asMongoOp).map fun nodes => (c, nodes)

mutual

def fromFilterValue : Value → Option VqbNode
  | .doc fs =>
    match firstGroup (arrayNodes fs) with
    | some group => groupNode group.1 group.2
    | none => conditionsNode (fs.filterMap fun f => entryCondition f.1 f.2)
  | _ => none

/-- The arrays among the entries, with the nodes of the filters in them. -/
def arrayNodes : List (String × Value) → List (String × List VqbNode)
  | [] => []
  | (k, .arr vs) :: fs => (k, nodesOf vs) :: arrayNodes fs
  | _ :: fs => arrayNodes fs

def nodesOf : List Value → List VqbNode
  | [] => []
  | v :: vs => (fromFilterValue v).toList ++ nodesOf vs

end

def fromFilter (value : Value) : VqbNode := (fromFilterValue value).getD .defaultRoot

end Vqb
