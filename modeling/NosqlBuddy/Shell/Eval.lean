import NosqlBuddy.Lib.Json
import NosqlBuddy.Shell.Source

/-!
# Evaluating a script

| here | there |
| --- | --- |
| `Engine.eval` | `context.eval`: what is no program is not run |
| `resultOutputs` | the output for the value or the error (shell.rs:388-447) |

What a program sends is a list of operations on collections; `ι` is the type of the operations. The value of
a program is the JSON that `js_to_json` gives for it, none for `undefined`, `null` or a value without JSON.
-/

namespace Shell

structure ShellTable where
  columns : List String
  rows : List (List Json)
  executionMs : Nat

inductive ShellOutput where
  | text (value : List Char)
  | json (value : Json)
  | error (value : List Char)
  | table (value : ShellTable)

def ShellOutput.isError : ShellOutput → Bool
  | .error _ => true
  | _ => false

/-- An operation sent to the server. -/
structure Issued (ι : Type) where
  connection : String
  database : List Char
  collection : String
  operation : ι

structure Execution (σ ι : Type) where
  state : σ
  issued : List (Issued ι)
  printed : List ShellOutput
  result : Except (List Char) (Option Json)

/-- A JavaScript engine with the host functions of the shell; `σ` is what lasts between two scripts. -/
structure Engine (σ ι : Type) where
  Program : Type
  parse : List Char → Except (List Char) Program
  /-- On a connection and a database. -/
  exec : Program → String → List Char → σ → Execution σ ι

section
variable {σ ι : Type}

def Engine.eval (engine : Engine σ ι) (src : List Char) (connection : String) (db : List Char) (state : σ) :
    Execution σ ι :=
  match engine.parse src with
  | .error e => ⟨state, [], [], .error e⟩
  | .ok program => engine.exec program connection db state

def columnsOf : List Json → List String
  | .object members :: _ => members.map Prod.fst
  | _ => []

def rowOf (columns : List String) : Json → List Json
  | .object members => columns.map fun c => (members.lookup c).getD .null
  | _ => [.null]

def resultOutputs (executionMs : Nat) : Except (List Char) (Option Json) → List ShellOutput
  | .error e => [.error e]
  | .ok none => []
  | .ok (some (.array items)) =>
    if items.all Json.isObject then [.table ⟨columnsOf items, items.map (rowOf (columnsOf items)), executionMs⟩]
    else [.json (.array items)]
  | .ok (some value) => [.json value]

variable (engine : Engine σ ι) (isAlphanumeric : Char → Bool) (executionMs : Nat)

/-- The source that the engine gets. -/
def sourceOf (script : List Char) : List Char :=
  wrap (transformSource isAlphanumeric (preprocessUse isAlphanumeric script).2)

/-- The execution of a script, and everything it puts out. -/
def evalScript (connection : String) (script activeDb : List Char) (state : σ) : Execution σ ι × List ShellOutput :=
  let effectiveDb := (preprocessUse isAlphanumeric script).1.getD activeDb
  let run := engine.eval (sourceOf isAlphanumeric script) connection effectiveDb state
  (run, run.printed ++ resultOutputs executionMs run.result)

/-! ## Texts that are no program -/

/-- In the body of the function a block opens, a string literal stands first in it and a colon follows: a
string is no label, so no statement of the grammar goes on like that. -/
def StringThenColon (src : List Char) : Prop :=
  ∃ ws₁ ws₂ key rest : List Char, (∀ c ∈ ws₁ ++ ws₂, c = ' ' ∨ c = '\n') ∧
    (∀ c ∈ key, c ≠ '"' ∧ c ≠ '\\' ∧ c ≠ '\n' ∧ c ≠ '\r') ∧
    src = wrapOpen ++ ws₁ ++ '\x7b' :: ws₂ ++ '"' :: key ++ '"' :: ':' :: rest

/-- The engine follows the grammar there. -/
def Engine.RejectsStringThenColon (engine : Engine σ ι) : Prop :=
  ∀ src, StringThenColon src → ∃ e, engine.parse src = .error e

variable {engine isAlphanumeric executionMs}

theorem evalScript_rejected (h : engine.parse (sourceOf isAlphanumeric script) = .error e) :
    evalScript engine isAlphanumeric executionMs connection script activeDb state =
      (⟨state, [], [], .error e⟩, [.error e]) := by
  simp only [evalScript, Engine.eval, h]
  rfl

theorem scan_string : ∀ {key : List Char} {prev : Option Char}, (∀ c ∈ key, c ≠ '"' ∧ c ≠ '\\') →
    scan isAlphanumeric (.inString '"') prev (key ++ '"' :: rest) =
      key ++ '"' :: scan isAlphanumeric .code (some '"') rest
  | [], _, _ => rfl
  | c :: cs, prev, h => by
    obtain ⟨hc, hslash⟩ := h c List.mem_cons_self
    rw [List.cons_append, scan, if_neg hc, scan_string fun d hd => h d (List.mem_cons_of_mem c hd)]
    · rfl
    · exact fun _ _ hd _ => absurd hd hslash

theorem scan_plain (hslash : c ≠ '/') (hd : c ≠ 'd')
    (hq : isQuote c = false) : scan isAlphanumeric .code prev (c :: cs) = c :: scan isAlphanumeric .code (some c) cs := by
  rw [scan, if_neg (by simp [hq]), if_neg (by simp [hd])]
  all_goals simp [hslash]

theorem scan_quote :
    scan isAlphanumeric .code prev ('"' :: cs) = '"' :: scan isAlphanumeric (.inString '"') (some '"') cs := by
  rw [scan, if_pos (by decide)]
  all_goals simp

theorem scan_key {key rest : List Char} (hkey : ∀ c ∈ key, c ≠ '"' ∧ c ≠ '\\') :
    ∃ rest', scan isAlphanumeric .code none ('\x7b' :: '\n' :: ' ' :: ' ' :: '"' :: (key ++ '"' :: ':' :: rest)) =
      '\x7b' :: '\n' :: ' ' :: ' ' :: '"' :: (key ++ '"' :: ':' :: rest') := by
  refine ⟨scan isAlphanumeric .code (some ':') rest, ?_⟩
  rw [scan_plain, scan_plain, scan_plain, scan_plain, scan_quote, scan_string hkey, scan_plain]
  all_goals decide

theorem object_no_program (hkey : ∀ c ∈ key, c ≠ '"' ∧ c ≠ '\\' ∧ c ≠ '\n' ∧ c ≠ '\r') :
    StringThenColon (sourceOf isAlphanumeric ('\x7b' :: '\n' :: ' ' :: ' ' :: '"' :: (key ++ '"' :: ':' :: rest))) := by
  have huse : ∀ l : List Char, (preprocessUse isAlphanumeric ('\x7b' :: l)).2 = '\x7b' :: l := by
    intro l
    have hspace : Text.isWhitespace '\x7b' = false := by decide
    simp [preprocessUse, hspace]
  obtain ⟨rest', hscan⟩ := @scan_key isAlphanumeric key rest fun c hc => ⟨(hkey c hc).1, (hkey c hc).2.1⟩
  have hsrc : sourceOf isAlphanumeric ('\x7b' :: '\n' :: ' ' :: ' ' :: '"' :: (key ++ '"' :: ':' :: rest)) =
      wrapOpen ++ ['\n'] ++ '\x7b' :: ['\n', ' ', ' '] ++ '"' :: key ++ '"' :: ':' :: (rest' ++ wrapClose) := by
    rw [sourceOf, huse, transformSource, hscan, wrap]
    simp only [List.append_assoc, List.cons_append, List.nil_append]
  exact ⟨['\n'], ['\n', ' ', ' '], key, _, by simp, hkey, hsrc⟩

end

end Shell
