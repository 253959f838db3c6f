import NosqlBuddy.Lib.StringLiterals
import NosqlBuddy.QueryCode.Generate

/-!
# Literals of the languages

What a reader needs of each language: its string literals, what begins a comment line and ends a line, whether brackets make a list,
and the words for `null` and the truth values. Escapes of other lengths (`\x` of C#, braces behind `\u`) and by name are left out, and
the mongo shell is JavaScript.
-/

namespace QueryCode
open Literals

structure Grammar where
  strings : List Form
  comment : List Char
  newline : Char → Bool
  lists : Bool
  words : List (List Char × Json)

def bell : Char := Char.ofNat 7
def backspace : Char := Char.ofNat 8
def verticalTab : Char := Char.ofNat 11
def formFeed : Char := Char.ofNat 12
def escapeCode : Char := Char.ofNat 27
def nul : Char := Char.ofNat 0

def isLineFeed (c : Char) : Bool := c == '\n' || c == '\r'

/-- The separators of lines and paragraphs. -/
def isSeparator (c : Char) : Bool := c.toNat == 0x2028 || c.toNat == 0x2029

def noOpening (_ : List Char) : Bool := false

/-! ## Escapes -/

def javascriptEscapes : Escapes where
  simple := [('b', [backspace]), ('t', ['\t']), ('n', ['\n']), ('v', [verticalTab]), ('f', [formFeed]), ('r', ['\r']), ('0', [nul]),
    ('\n', [])]
  hex := [('x', 2), ('u', 4)]
  octal := false
  other c := if c.isDigit then none else some [c]
  simple_le := by decide
  other_le := by
    intro c out h
    split at h
    · cases h
    · rw [← Option.some.inj h]
      exact Nat.le_succ 1

def pythonEscapes : Escapes where
  simple := [('\\', ['\\']), ('\'', ['\'']), ('"', ['"']), ('a', [bell]), ('b', [backspace]), ('f', [formFeed]), ('n', ['\n']),
    ('r', ['\r']), ('t', ['\t']), ('v', [verticalTab]), ('\n', [])]
  hex := [('x', 2), ('u', 4), ('U', 8)]
  octal := true
  -- a name in braces follows the N
  other c := if c = 'N' ∨ c = '\r' ∨ c = nul then none else some ['\\', c]
  simple_le := by decide
  other_le := by
    intro c out h
    split at h
    · cases h
    · rw [← Option.some.inj h]
      exact Nat.le_refl 2

def javaEscapes : Escapes where
  simple := [('b', [backspace]), ('s', [' ']), ('t', ['\t']), ('n', ['\n']), ('f', [formFeed]), ('r', ['\r']), ('"', ['"']), ('\'', ['\'']),
    ('\\', ['\\'])]
  hex := []
  octal := true
  other _ := none
  simple_le := by decide
  other_le := nofun

def csharpEscapes : Escapes where
  simple := [('\'', ['\'']), ('"', ['"']), ('\\', ['\\']), ('0', [nul]), ('a', [bell]), ('b', [backspace]), ('e', [escapeCode]),
    ('f', [formFeed]), ('n', ['\n']), ('r', ['\r']), ('t', ['\t']), ('v', [verticalTab])]
  hex := [('u', 4), ('U', 8)]
  octal := false
  other _ := none
  simple_le := by decide
  other_le := nofun

def rubyEscapes : Escapes where
  simple := [('a', [bell]), ('b', [backspace]), ('t', ['\t']), ('n', ['\n']), ('v', [verticalTab]), ('f', [formFeed]), ('r', ['\r']),
    ('s', [' ']), ('e', [escapeCode]), ('\n', [])]
  hex := [('x', 2), ('u', 4)]
  octal := true
  -- control and meta characters
  other c := if c = 'c' ∨ c = 'C' ∨ c = 'M' then none else some [c]
  simple_le := by decide
  other_le := by
    intro c out h
    split at h
    · cases h
    · rw [← Option.some.inj h]
      exact Nat.le_succ 1

/-- Between single quotation marks. -/
def rubySingleEscapes : Escapes where
  simple := [('\\', ['\\']), ('\'', ['\''])]
  hex := []
  octal := false
  other c := some ['\\', c]
  simple_le := by decide
  other_le := by
    intro c out h
    rw [← Option.some.inj h]
    exact Nat.le_refl 2

/-! ## Grammars -/

/-- An interpolation of Ruby. -/
def rubyOpens : List Char → Bool
  | '#' :: c :: _ => c == '\x7b' || c == '$' || c == '@'
  | _ => false

def javascript : Grammar where
  strings := [javascriptEscapes.form '"' isLineFeed noOpening, javascriptEscapes.form '\'' isLineFeed noOpening]
  comment := "//".toList
  newline c := isLineFeed c || isSeparator c
  lists := true
  words := [("true".toList, .bool true), ("false".toList, .bool false), ("null".toList, .null)]

/-- A null character may not stand in a source. -/
def pythonBarred (c : Char) : Bool := isLineFeed c || c == nul

def python : Grammar where
  strings := [pythonEscapes.form '"' pythonBarred noOpening, pythonEscapes.form '\'' pythonBarred noOpening]
  comment := "#".toList
  newline := pythonBarred
  lists := true
  words := [("True".toList, .bool true), ("False".toList, .bool false), ("None".toList, .null)]

/-- Brackets come after the name of an array only. -/
def java : Grammar where
  strings := [javaEscapes.form '"' isLineFeed noOpening]
  comment := "//".toList
  newline := isLineFeed
  lists := false
  words := [("true".toList, .bool true), ("false".toList, .bool false), ("null".toList, .null)]

def csharpNewline (c : Char) : Bool := isLineFeed c || c.toNat == 0x85 || isSeparator c

def csharp : Grammar where
  strings := [csharpEscapes.form '"' csharpNewline noOpening]
  comment := "//".toList
  newline := csharpNewline
  lists := true
  words := [("true".toList, .bool true), ("false".toList, .bool false), ("null".toList, .null)]

def ruby : Grammar where
  strings := [rubyEscapes.form '"' (fun _ => false) rubyOpens, rubySingleEscapes.form '\'' (fun _ => false) noOpening]
  comment := "#".toList
  newline c := c == '\n'
  lists := true
  words := [("true".toList, .bool true), ("false".toList, .bool false), ("nil".toList, .null)]

def Language.grammar : Language → Grammar
  | .nodeJs => javascript
  | .python => QueryCode.python
  | .java => QueryCode.java
  | .cSharp => csharp
  | .ruby => QueryCode.ruby
  | .shell => javascript

/-- A string literal, and what comes after it. -/
def Grammar.readString (g : Grammar) (s : List Char) : Option (List Char × List Char) := g.strings.findSome? fun f => read f s

theorem readString_ne_self (g : Grammar) (s rest : List Char) : g.readString (s ++ rest) ≠ some (s, rest) := by
  intro h
  obtain ⟨f, -, hf⟩ := List.exists_of_findSome?_eq_some h
  exact read_ne_self hf

end QueryCode
