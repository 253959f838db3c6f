import NosqlBuddy.Lib.JsonText

/-!
# JSON values

A JSON value with its members in order and its numbers as they are written, and the two texts that serde_json
prints of it.
-/

inductive Json where
  | null
  | bool (b : Bool)
  | number (text : List Char)
  | string (s : String)
  | array (items : List Json)
  | object (members : List (String × Json))

namespace Json

def isObject : Json → Bool
  | .object _ => true
  | _ => false

/-- A line break and two blanks for each level. -/
def newline (indent : Nat) : List Char := '\n' :: List.replicate (2 * indent) ' '

def printBool : Bool → List Char
  | true => ['t', 'r', 'u', 'e']
  | false => ['f', 'a', 'l', 's', 'e']

def printNull : List Char := ['n', 'u', 'l', 'l']

mutual

/-- `serde_json::to_string_pretty`. -/
def pretty (indent : Nat) : Json → List Char
  | .null => printNull
  | .bool b => printBool b
  | .number text => text
  | .string s => JsonText.printString s.toList
  | .array [] => ['[', ']']
  | .array (v :: vs) =>
    '[' :: newline (indent + 1) ++ pretty (indent + 1) v ++ prettyItems (indent + 1) vs ++ newline indent ++ [']']
  | .object [] => ['{', '}']
  | .object ((k, v) :: fs) =>
    '{' :: newline (indent + 1) ++ JsonText.printString k.toList ++ [':', ' '] ++ pretty (indent + 1) v ++
      prettyMembers (indent + 1) fs ++ newline indent ++ ['}']

def prettyItems (indent : Nat) : List Json → List Char
  | [] => []
  | v :: vs => ',' :: newline indent ++ pretty indent v ++ prettyItems indent vs

def prettyMembers (indent : Nat) : List (String × Json) → List Char
  | [] => []
  | (k, v) :: fs =>
    ',' :: newline indent ++ JsonText.printString k.toList ++ [':', ' '] ++ pretty indent v ++ prettyMembers indent fs

end

mutual

/-- `Value::to_string`. -/
def compact : Json → List Char
  | .null => printNull
  | .bool b => printBool b
  | .number text => text
  | .string s => JsonText.printString s.toList
  | .array [] => ['[', ']']
  | .array (v :: vs) => '[' :: compact v ++ compactItems vs ++ [']']
  | .object [] => ['{', '}']
  | .object ((k, v) :: fs) => '{' :: JsonText.printString k.toList ++ ':' :: compact v ++ compactMembers fs ++ ['}']

def compactItems : List Json → List Char
  | [] => []
  | v :: vs => ',' :: compact v ++ compactItems vs

def compactMembers : List (String × Json) → List Char
  | [] => []
  | (k, v) :: fs => ',' :: JsonText.printString k.toList ++ ':' :: compact v ++ compactMembers fs

end

theorem pretty_object (k : String) (v : Json) (fs : List (String × Json)) :
    ∃ rest, pretty 0 (.object ((k, v) :: fs)) =
      '{' :: '\n' :: ' ' :: ' ' :: JsonText.printString k.toList ++ ':' :: ' ' :: rest :=
  ⟨_, by simp [pretty, newline]; rfl⟩

end Json
