import NosqlBuddy.Lib.Text

/-!
# What the shell does to a script before it runs

| here | there |
| --- | --- |
| `scan`, `transformSource` | `transform_source` (shell.rs:767) |

The letters and digits of Unicode (`char::is_alphanumeric`) are a parameter.
-/

namespace Shell

section
variable (isAlphanumeric : Char → Bool)

/-! ## `use <db>` -/

def stripPrefix (p : List Char) (l : List Char) : Option (List Char) :=
  if p <+: l then some (l.drop p.length) else none

/-- Without a quote at both ends. -/
def unquote (quote : Char) (l : List Char) : Option (List Char) :=
  match l with
  | c :: cs => if c = quote ∧ cs.getLast? = some quote then some cs.dropLast else none
  | [] => none

def isDbChar (c : Char) : Bool := isAlphanumeric c || c == '_' || c == '-'

def preprocessUse (script : List Char) : Option (List Char) × List Char :=
  let trimmed := script.dropWhile Text.isWhitespace
  if ['u', 's', 'e', ' '] <+: trimmed then
    let first := trimmed.takeWhile (· ≠ '\n')
    let rest := (trimmed.dropWhile (· ≠ '\n')).drop 1
    let token := Text.trim ((Text.trim first).rdropWhile (· = ';'))
    match stripPrefix ['u', 's', 'e', ' '] token with
    | some db =>
      let db := Text.trim db
      let db := ((unquote '"' db).or (unquote '\'' db)).getD db
      if db ≠ [] ∧ db.all (isDbChar isAlphanumeric) then (some db, rest) else (none, script)
    | none => (none, script)
  else (none, script)

/-! ## Call sites -/

def isIdentStart (c : Char) : Bool :=
  ('A' ≤ c && c ≤ 'Z') || ('a' ≤ c && c ≤ 'z') || c == '_'

def isIdentPart (c : Char) : Bool := isIdentStart c || ('0' ≤ c && c ≤ '9')

/-- `[A-Za-z_][A-Za-z0-9_]*` -/
def matchIdent : List Char → Option (List Char × List Char)
  | c :: cs => if isIdentStart c then some (c :: cs.takeWhile isIdentPart, cs.dropWhile isIdentPart) else none
  | [] => none

/-- `\s*\(` -/
def matchParen (l : List Char) : Option (List Char) := stripPrefix ['('] (l.dropWhile Text.isWhitespace)

/-- `db\.runCommand\s*\(`, or else `db\.ident\.ident\s*\(`: the replacement and the rest of the text. -/
def matchDbPattern (rest : List Char) : Option (List Char × List Char) :=
  match (stripPrefix "db.runCommand".toList rest).bind matchParen with
  | some after => some ("__run_command(".toList, after)
  | none => do
    let afterDb ← stripPrefix ['d', 'b', '.'] rest
    let (coll, afterColl) ← matchIdent afterDb
    let afterDot ← stripPrefix ['.'] afterColl
    let (method, afterMethod) ← matchIdent afterDot
    let after ← matchParen afterMethod
    return ("__call_db(\"".toList ++ coll ++ "\", \"".toList ++ method ++ "\", ".toList, after)

/-- Not the tail of a longer name: looks at the character before. -/
def isWordBoundaryBefore : Option Char → Bool
  | none => true
  | some p => !isAlphanumeric p && p != '_' && p != '$'

/-- Where the scanner is. After a replaced call it passes over the text it replaced. -/
inductive Mode where
  | code
  | lineComment
  | blockComment
  | inString (quote : Char)
  | replaced (left : Nat)

def isQuote (c : Char) : Bool := c == '"' || c == '\'' || c == '\x60'

def scan : Mode → Option Char → List Char → List Char
  | _, _, [] => []
  | .replaced (n + 1), _, c :: cs => scan (if n = 0 then .code else .replaced n) (some c) cs
  | .lineComment, _, c :: cs => c :: scan (if c = '\n' then .code else .lineComment) (some c) cs
  | .blockComment, _, '*' :: '/' :: cs => '*' :: '/' :: scan .code (some '/') cs
  | .blockComment, _, c :: cs => c :: scan .blockComment (some c) cs
  | .inString quote, _, '\\' :: c :: cs => '\\' :: c :: scan (.inString quote) (some c) cs
  | .inString quote, _, c :: cs => c :: scan (if c = quote then .code else .inString quote) (some c) cs
  | _, _, '/' :: '/' :: cs => '/' :: '/' :: scan .lineComment (some '/') cs
  | _, _, '/' :: '*' :: cs => '/' :: '*' :: scan .blockComment (some '*') cs
  | _, prev, c :: cs =>
    if isQuote c then c :: scan (.inString c) (some c) cs
    else if c = 'd' ∧ cs.head? = some 'b' ∧ isWordBoundaryBefore isAlphanumeric prev then
      match matchDbPattern (c :: cs) with
      | some (replacement, after) => replacement ++ scan (.replaced (cs.length - after.length)) (some c) cs
      | none => c :: scan .code (some c) cs
    else c :: scan .code (some c) cs

def transformSource (src : List Char) : List Char := scan isAlphanumeric .code none src

def wrapOpen : List Char := "(function() \x7b\ntry \x7b".toList

def wrapClose : List Char := "\n\x7d catch (e) \x7b\nthrow e;\n\x7d\n\x7d)()".toList

/-- The body as a function that is called. -/
def wrap (body : List Char) : List Char := wrapOpen ++ '\n' :: body ++ wrapClose

end

end Shell
