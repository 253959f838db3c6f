import NosqlBuddy.Lib.Json

/-!
# Reading compact JSON back

A reader for the texts that `Json.compact` prints, one value at a time, each with the rest of the text. A value is read back when
its numbers are (`read_compact`); what a number is followed by must not go on with it, which no `,`, `]` or `}` does.
-/

namespace Json
open JsonText

def isNumberChar (c : Char) : Bool := c.isDigit || c == '-' || c == '+' || c == '.' || c == 'e' || c == 'E'

def startsNumber (c : Char) : Bool := c.isDigit || c == '-'

/-- Nothing that a number could go on with. -/
def Ends (rest : List Char) : Prop := ∀ c ∈ rest.head?, isNumberChar c = false

/-- The text of a number: it starts with a digit or a sign, and goes on with the characters of numbers. -/
def NumberText : List Char → Prop
  | [] => False
  | c :: cs => startsNumber c = true ∧ ∀ d ∈ cs, isNumberChar d = true

mutual

/-- Each number of the value is the text of one. -/
def Numbered : Json → Prop
  | .number text => NumberText text
  | .array vs => NumberedItems vs
  | .object fs => NumberedMembers fs
  | _ => True

def NumberedItems : List Json → Prop
  | [] => True
  | v :: vs => Numbered v ∧ NumberedItems vs

def NumberedMembers : List (String × Json) → Prop
  | [] => True
  | (_, v) :: fs => Numbered v ∧ NumberedMembers fs

end

/-! ## The reader -/

def readKey : List Char → Option (String × List Char)
  | '"' :: cs => do
    let (k, cs) ← readChars cs
    let cs ← readWord [':'] cs
    return (String.ofList k, cs)
  | _ => none

mutual

def readValue : Nat → List Char → Option (Json × List Char)
  | 0, _ => none
  | _ + 1, [] => none
  | n + 1, c :: cs =>
    if c = '"' then (readChars cs).map fun p => (.string (String.ofList p.1), p.2)
    else if c = 't' then (readWord ['r', 'u', 'e'] cs).map fun rest => (.bool true, rest)
    else if c = 'f' then (readWord ['a', 'l', 's', 'e'] cs).map fun rest => (.bool false, rest)
    else if c = 'n' then (readWord ['u', 'l', 'l'] cs).map fun rest => (.null, rest)
    else if c = '[' then
      if cs.head? = some ']' then some (.array [], cs.tail)
      else do
        let (v, cs) ← readValue n cs
        let (vs, cs) ← readItems n cs
        return (.array (v :: vs), cs)
    else if c = '\x7b' then
      if cs.head? = some '\x7d' then some (.object [], cs.tail)
      else do
        let (k, cs) ← readKey cs
        let (v, cs) ← readValue n cs
        let (fs, cs) ← readMembers n cs
        return (.object ((k, v) :: fs), cs)
    else if startsNumber c then some (.number (c :: cs.takeWhile isNumberChar), cs.dropWhile isNumberChar)
    else none

/-- The items behind the first, and the closing bracket. -/
def readItems : Nat → List Char → Option (List Json × List Char)
  | 0, _ => none
  | _ + 1, [] => none
  | n + 1, c :: cs =>
    if c = ']' then some ([], cs)
    else if c = ',' then do
      let (v, cs) ← readValue n cs
      let (vs, cs) ← readItems n cs
      return (v :: vs, cs)
    else none

/-- The members behind the first, and the closing brace. -/
def readMembers : Nat → List Char → Option (List (String × Json) × List Char)
  | 0, _ => none
  | _ + 1, [] => none
  | n + 1, c :: cs =>
    if c = '\x7d' then some ([], cs)
    else if c = ',' then do
      let (k, cs) ← readKey cs
      let (v, cs) ← readValue n cs
      let (fs, cs) ← readMembers n cs
      return ((k, v) :: fs, cs)
    else none

end

/-- A whole text: nothing may stand behind the value. -/
def read (text : List Char) : Option Json :=
  match readValue text.length text with
  | some (v, []) => some v
  | _ => none

/-! ## Round trip -/

theorem ends_cons (h : isNumberChar c = false) (cs : List Char) : Ends (c :: cs) := by
  intro d hd
  obtain rfl := Option.some.inj hd
  exact h

theorem takeWhile_of_ends (hds : ∀ d ∈ ds, isNumberChar d = true) (h : Ends rest) :
    (ds ++ rest).takeWhile isNumberChar = ds ∧ (ds ++ rest).dropWhile isNumberChar = rest := by
  rw [List.takeWhile_append_of_pos hds, List.dropWhile_append_of_pos hds]
  cases rest with
  | nil => simp
  | cons c cs =>
    have hc : isNumberChar c = false := h c rfl
    simp [hc, List.takeWhile, List.dropWhile]

theorem readKey_print (k : String) (rest : List Char) :
    readKey (printString k.toList ++ ':' :: rest) = some (k, rest) := by
  have htext : printString k.toList ++ ':' :: rest = '"' :: (k.toList.flatMap escapeChar ++ '"' :: ':' :: rest) := by
    simp [printString]
  rw [htext, readKey, readChars_string]
  simp [readWord]

theorem head_compact (h : Numbered v) : ∃ c cs, compact v = c :: cs ∧ c ≠ ']' ∧ c ≠ '\x7d' := by
  cases v with
  | null => exact ⟨'n', _, by rw [compact, printNull], by decide, by decide⟩
  | bool b =>
    cases b with
    | true => exact ⟨'t', _, by rw [compact, printBool], by decide, by decide⟩
    | false => exact ⟨'f', _, by rw [compact, printBool], by decide, by decide⟩
  | number text =>
    cases text with
    | nil => exact False.elim h
    | cons c cs =>
      have hc := h.1
      refine ⟨c, cs, by rw [compact], ?_, ?_⟩ <;>
      · rintro rfl
        exact absurd hc (by decide)
  | string s => exact ⟨'"', _, by rw [compact, printString], by decide, by decide⟩
  | array vs =>
    cases vs with
    | nil => exact ⟨'[', _, by rw [compact], by decide, by decide⟩
    | cons v vs => exact ⟨'[', _, by rw [compact]; rfl, by decide, by decide⟩
  | object fs =>
    cases fs with
    | nil => exact ⟨'\x7b', _, by rw [compact], by decide, by decide⟩
    | cons f fs => exact ⟨'\x7b', _, by rw [compact]; rfl, by decide, by decide⟩

theorem readValue_array (n : Nat) (h : cs.head? ≠ some ']') : readValue (n + 1) ('[' :: cs) =
    (readValue n cs).bind fun p => (readItems n p.2).map fun q => (.array (p.1 :: q.1), q.2) := by
  rw [readValue, if_neg (by decide), if_neg (by decide), if_neg (by decide), if_neg (by decide), if_pos rfl, if_neg h]
  cases readValue n cs with
  | none => rfl
  | some p => cases hitems : readItems n p.2 <;> simp [hitems]

theorem readValue_object (n : Nat) (h : cs.head? ≠ some '\x7d') : readValue (n + 1) ('\x7b' :: cs) =
    (readKey cs).bind fun k => (readValue n k.2).bind fun p => (readMembers n p.2).map fun q =>
      (.object ((k.1, p.1) :: q.1), q.2) := by
  rw [readValue, if_neg (by decide), if_neg (by decide), if_neg (by decide), if_neg (by decide), if_neg (by decide), if_pos rfl,
    if_neg h]
  cases readKey cs with
  | none => rfl
  | some k =>
    cases hvalue : readValue n k.2 with
    | none => simp [hvalue]
    | some p => cases hmembers : readMembers n p.2 <;> simp [hvalue, hmembers]

theorem ends_items (vs : List Json) (rest : List Char) : Ends (compactItems vs ++ ']' :: rest) := by
  cases vs with
  | nil => exact ends_cons (by decide) rest
  | cons v vs =>
    rw [compactItems, List.cons_append, List.cons_append]
    exact ends_cons (by decide) _

theorem ends_members (fs : List (String × Json)) (rest : List Char) : Ends (compactMembers fs ++ '\x7d' :: rest) := by
  cases fs with
  | nil => exact ends_cons (by decide) rest
  | cons f fs =>
    rw [compactMembers]
    exact ends_cons (by decide) _

theorem readValue_number (h : NumberText (c :: cs)) (hrest : Ends rest) (n : Nat) :
    readValue (n + 1) (c :: cs ++ rest) = some (.number (c :: cs), rest) := by
  obtain ⟨hc, hcs⟩ := h
  have hne : c ≠ '"' ∧ c ≠ 't' ∧ c ≠ 'f' ∧ c ≠ 'n' ∧ c ≠ '[' ∧ c ≠ '\x7b' := by
    refine ⟨?_, ?_, ?_, ?_, ?_, ?_⟩ <;>
    · rintro rfl
      exact absurd hc (by decide)
  obtain ⟨htake, hdrop⟩ := takeWhile_of_ends hcs hrest
  rw [List.cons_append, readValue, if_neg hne.1, if_neg hne.2.1, if_neg hne.2.2.1, if_neg hne.2.2.2.1, if_neg hne.2.2.2.2.1,
    if_neg hne.2.2.2.2.2, if_pos hc, htake, hdrop]

mutual

theorem readValue_compact : ∀ (v : Json), Numbered v → ∀ (n : Nat) (rest : List Char), (compact v).length ≤ n → Ends rest →
    readValue n (compact v ++ rest) = some (v, rest)
  | v, h, 0, rest, hn, _ => by
    obtain ⟨c, cs, hv, -, -⟩ := head_compact h
    rw [hv] at hn
    cases hn
  | .null, _, n + 1, rest, _, _ => by simp [compact, printNull, readValue, readWord]
  | .bool true, _, n + 1, rest, _, _ => by simp [compact, printBool, readValue, readWord]
  | .bool false, _, n + 1, rest, _, _ => by simp [compact, printBool, readValue, readWord]
  | .number [], h, _, _, _, _ => False.elim h
  | .number (c :: cs), h, n + 1, rest, _, hrest => readValue_number h hrest n
  | .string s, _, n + 1, rest, _, _ => by
    have htext : compact (.string s) ++ rest = '"' :: (s.toList.flatMap escapeChar ++ '"' :: rest) := by
      simp [compact, printString]
    rw [htext, readValue, if_pos rfl, readChars_string]
    simp
  | .array [], _, n + 1, rest, _, _ => by simp [compact, readValue]
  | .array (v :: vs), h, n + 1, rest, hn, hrest => by
    obtain ⟨c, cs, hv, hc, -⟩ := head_compact h.1
    have hlen : (compact v).length ≤ n ∧ (compactItems vs).length + 1 ≤ n := by
      simp only [compact, List.cons_append, List.length_cons, List.length_append, List.length_nil] at hn
      omega
    have htext : compact (.array (v :: vs)) ++ rest = '[' :: (compact v ++ (compactItems vs ++ ']' :: rest)) := by
      simp [compact]
    have hhead : (compact v ++ (compactItems vs ++ ']' :: rest)).head? ≠ some ']' := by
      rw [hv]
      simpa using hc
    rw [htext, readValue_array n hhead, readValue_compact v h.1 n _ hlen.1 (ends_items vs rest), Option.bind_some,
      readItems_compact vs h.2 n rest hlen.2]
    rfl
  | .object [], _, n + 1, rest, _, _ => by simp [compact, readValue]
  | .object ((k, v) :: fs), h, n + 1, rest, hn, hrest => by
    have hlen : (compact v).length ≤ n ∧ (compactMembers fs).length + 1 ≤ n := by
      simp only [compact, List.cons_append, List.length_cons, List.length_append, List.length_nil] at hn
      omega
    have htext : compact (.object ((k, v) :: fs)) ++ rest =
        '\x7b' :: (printString k.toList ++ ':' :: (compact v ++ (compactMembers fs ++ '\x7d' :: rest))) := by
      simp [compact]
    have hhead : (printString k.toList ++ ':' :: (compact v ++ (compactMembers fs ++ '\x7d' :: rest))).head? ≠ some '\x7d' := by
      simp [printString]
    rw [htext, readValue_object n hhead, readKey_print, Option.bind_some,
      readValue_compact v h.1 n _ hlen.1 (ends_members fs rest), Option.bind_some, readMembers_compact fs h.2 n rest hlen.2]
    rfl

theorem readItems_compact : ∀ (vs : List Json), NumberedItems vs → ∀ (n : Nat) (rest : List Char),
    (compactItems vs).length + 1 ≤ n → readItems n (compactItems vs ++ ']' :: rest) = some (vs, rest)
  | [], _, n + 1, rest, _ => by simp [compactItems, readItems]
  | v :: vs, h, n + 1, rest, hn => by
    have hlen : (compact v).length ≤ n ∧ (compactItems vs).length + 1 ≤ n := by
      simp only [compactItems, List.cons_append, List.length_cons, List.length_append] at hn
      omega
    have htext : compactItems (v :: vs) ++ ']' :: rest = ',' :: (compact v ++ (compactItems vs ++ ']' :: rest)) := by
      simp [compactItems]
    rw [htext, readItems, if_neg (by decide), if_pos rfl, readValue_compact v h.1 n _ hlen.1 (ends_items vs rest)]
    simp [readItems_compact vs h.2 n rest hlen.2]

theorem readMembers_compact : ∀ (fs : List (String × Json)), NumberedMembers fs → ∀ (n : Nat) (rest : List Char),
    (compactMembers fs).length + 1 ≤ n → readMembers n (compactMembers fs ++ '\x7d' :: rest) = some (fs, rest)
  | [], _, n + 1, rest, _ => by simp [compactMembers, readMembers]
  | (k, v) :: fs, h, n + 1, rest, hn => by
    have hlen : (compact v).length ≤ n ∧ (compactMembers fs).length + 1 ≤ n := by
      simp only [compactMembers, List.cons_append, List.length_cons, List.length_append] at hn
      omega
    have htext : compactMembers ((k, v) :: fs) ++ '\x7d' :: rest =
        ',' :: (printString k.toList ++ ':' :: (compact v ++ (compactMembers fs ++ '\x7d' :: rest))) := by
      simp [compactMembers]
    rw [htext, readMembers, if_neg (by decide), if_pos rfl, readKey_print]
    simp [readValue_compact v h.1 n _ hlen.1 (ends_members fs rest), readMembers_compact fs h.2 n rest hlen.2]

end

/-- **A value is read back from its compact text.** -/
theorem read_compact (h : Numbered v) : read (compact v) = some v := by
  have hread := readValue_compact v h (compact v).length [] (Nat.le_refl _) (fun c hc => nomatch hc)
  rw [List.append_nil] at hread
  rw [read, hread]

/-! ## One line -/

theorem newline_notMem_printString (s : List Char) : '\n' ∉ printString s := newline_notMem_printScalar (.str s)

mutual

theorem newline_notMem_compact : ∀ {v : Json}, Numbered v → '\n' ∉ compact v
  | .null, _ => by rw [compact, printNull]; decide
  | .bool true, _ => by rw [compact, printBool]; decide
  | .bool false, _ => by rw [compact, printBool]; decide
  | .number [], h => False.elim h
  | .number (c :: cs), h => by
    rw [compact]
    intro hmem
    rcases List.mem_cons.1 hmem with rfl | hmem
    · exact absurd h.1 (by decide)
    · exact absurd (h.2 _ hmem) (by decide)
  | .string s, _ => by rw [compact]; exact newline_notMem_printString s.toList
  | .array [], _ => by rw [compact]; decide
  | .array (v :: vs), h => by simp [compact, newline_notMem_compact h.1, newline_notMem_items h.2]
  | .object [], _ => by rw [compact]; decide
  | .object ((k, v) :: fs), h => by
    simp [compact, newline_notMem_compact h.1, newline_notMem_members h.2, newline_notMem_printString]

theorem newline_notMem_items : ∀ {vs : List Json}, NumberedItems vs → '\n' ∉ compactItems vs
  | [], _ => by rw [compactItems]; decide
  | v :: vs, h => by simp [compactItems, newline_notMem_compact h.1, newline_notMem_items h.2]

theorem newline_notMem_members : ∀ {fs : List (String × Json)}, NumberedMembers fs → '\n' ∉ compactMembers fs
  | [], _ => by rw [compactMembers]; decide
  | (k, v) :: fs, h => by
    simp [compactMembers, newline_notMem_compact h.1, newline_notMem_members h.2, newline_notMem_printString]

end

end Json
