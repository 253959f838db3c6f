import NosqlBuddy.Lib.JsonRead
import NosqlBuddy.QueryCode.Languages

/-!
# Values in the languages

A JSON text as an expression of another language. Python has other words for `null` and the truth values, so that a JSON text is one
exactly when none of them is in it (`read_python`); strings and numbers are written the same way.
-/

namespace QueryCode
open Literals Json JsonText

/-! ## Reading -/

def isBlank (c : Char) : Bool := c == ' ' || c == '\n' || c == '\r' || c == '\t'

def skip (s : List Char) : List Char := s.dropWhile isBlank

/-- A key and the colon. -/
def readKey (g : Grammar) (s : List Char) : Option (String × List Char) :=
  match g.readString s with
  | some (k, r) =>
    match skip r with
    | ':' :: r => some (String.ofList k, r)
    | _ => none
  | none => none

mutual

/-- An expression and what comes after it. -/
def readValue (g : Grammar) : Nat → List Char → Option (Json × List Char)
  | 0, _ => none
  | n + 1, s =>
    match skip s with
    | [] => none
    | c :: cs =>
      if c = '[' then if g.lists then (readItems g n true cs).map fun x => (.array x.1, x.2) else none
      else if c = '\x7b' then (readMembers g n true cs).map fun x => (.object x.1, x.2)
      else if startsNumber c then some (.number (c :: cs.takeWhile isNumberChar), cs.dropWhile isNumberChar)
      else if c.isAlpha then
        (g.words.lookup ((c :: cs).takeWhile Char.isAlpha)).map fun v => (v, (c :: cs).dropWhile Char.isAlpha)
      else (g.readString (c :: cs)).map fun x => (.string (String.ofList x.1), x.2)

/-- Items up to the closing bracket: a comma comes before each but the first. -/
def readItems (g : Grammar) : Nat → Bool → List Char → Option (List Json × List Char)
  | 0, _, _ => none
  | n + 1, first, s =>
    match skip s with
    | [] => none
    | c :: cs =>
      if c = ']' then some ([], cs)
      else if first || c = ',' then
        (readValue g n (if first then c :: cs else cs)).bind fun p => (readItems g n false p.2).map fun q => (p.1 :: q.1, q.2)
      else none

def readMembers (g : Grammar) : Nat → Bool → List Char → Option (List (String × Json) × List Char)
  | 0, _, _ => none
  | n + 1, first, s =>
    match skip s with
    | [] => none
    | c :: cs =>
      if c = '\x7d' then some ([], cs)
      else if first || c = ',' then
        (readKey g (skip (if first then c :: cs else cs))).bind fun k => (readValue g n k.2).bind fun p =>
          (readMembers g n false p.2).map fun q => ((k.1, p.1) :: q.1, q.2)
      else none

end

/-! ## Layouts -/

/-- The blanks between the parts of a value, by its depth. -/
structure Layout where
  first : Nat → List Char
  next : Nat → List Char
  last : Nat → List Char
  colon : List Char
  blank : ∀ d, ∀ c ∈ first d ++ next d ++ last d ++ colon, isBlank c = true

mutual

def lay (l : Layout) (d : Nat) : Json → List Char
  | .null => printNull
  | .bool b => printBool b
  | .number t => t
  | .string s => printString s.toList
  | .array [] => ['[', ']']
  | .array (v :: vs) => '[' :: (l.first d ++ (lay l (d + 1) v ++ (layItems l d vs ++ (l.last d ++ [']']))))
  | .object [] => ['\x7b', '\x7d']
  | .object ((k, v) :: fs) =>
    '\x7b' :: (l.first d ++ (printString k.toList ++ (':' :: (l.colon ++ (lay l (d + 1) v ++ (layMembers l d fs ++ (l.last d ++ ['\x7d'])))))))

def layItems (l : Layout) (d : Nat) : List Json → List Char
  | [] => []
  | v :: vs => ',' :: (l.next d ++ (lay l (d + 1) v ++ layItems l d vs))

def layMembers (l : Layout) (d : Nat) : List (String × Json) → List Char
  | [] => []
  | (k, v) :: fs => ',' :: (l.next d ++ (printString k.toList ++ (':' :: (l.colon ++ (lay l (d + 1) v ++ layMembers l d fs)))))

end

def prettyLayout : Layout where
  first d := newline (d + 1)
  next d := newline (d + 1)
  last d := newline d
  colon := [' ']
  blank d c hc := by
    have hnewline : ∀ i, ∀ c ∈ newline i, isBlank c = true := by
      intro i c hc
      rcases List.mem_cons.1 hc with rfl | hc
      · rfl
      · rw [List.eq_of_mem_replicate hc]
        rfl
    simp only [List.mem_append, List.mem_singleton] at hc
    rcases hc with ((hc | hc) | hc) | rfl
    · exact hnewline _ c hc
    · exact hnewline _ c hc
    · exact hnewline _ c hc
    · rfl

/-- A blank after the commas of the outermost list. -/
def pipelineLayout : Layout where
  first _ := []
  next d := if d = 0 then [' '] else []
  last _ := []
  colon := []
  blank d c hc := by
    simp only [List.nil_append, List.append_nil] at hc
    split at hc
    · rw [List.mem_singleton.1 hc]
      rfl
    · cases hc

mutual

theorem compact_eq : ∀ (d : Nat) (v : Json), Json.compact v = lay pipelineLayout (d + 1) v
  | _, .null => by rw [compact, lay]
  | _, .bool b => by rw [compact, lay]
  | _, .number t => by rw [compact, lay]
  | _, .string s => by rw [compact, lay]
  | _, .array [] => by rw [compact, lay]
  | d, .array (v :: vs) => by
    rw [compact, lay, compact_eq (d + 1) v, compactItems_eq d vs]
    simp [pipelineLayout]
  | _, .object [] => by rw [compact, lay]
  | d, .object ((k, v) :: fs) => by
    rw [compact, lay, compact_eq (d + 1) v, compactMembers_eq d fs]
    simp [pipelineLayout]

theorem compactItems_eq : ∀ (d : Nat) (vs : List Json), Json.compactItems vs = layItems pipelineLayout (d + 1) vs
  | _, [] => by rw [compactItems, layItems]
  | d, v :: vs => by
    rw [compactItems, layItems, compact_eq (d + 1) v, compactItems_eq d vs]
    simp [pipelineLayout]

theorem compactMembers_eq : ∀ (d : Nat) (fs : List (String × Json)), Json.compactMembers fs = layMembers pipelineLayout (d + 1) fs
  | _, [] => by rw [compactMembers, layMembers]
  | d, (k, v) :: fs => by
    rw [compactMembers, layMembers, compact_eq (d + 1) v, compactMembers_eq d fs]
    simp [pipelineLayout]

end

mutual

theorem pretty_eq : ∀ (d : Nat) (v : Json), Json.pretty d v = lay prettyLayout d v
  | _, .null => by rw [pretty, lay]
  | _, .bool b => by rw [pretty, lay]
  | _, .number t => by rw [pretty, lay]
  | _, .string s => by rw [pretty, lay]
  | _, .array [] => by rw [pretty, lay]
  | d, .array (v :: vs) => by
    rw [pretty, lay, pretty_eq (d + 1) v, prettyItems_eq d vs]
    simp [prettyLayout]
  | _, .object [] => by rw [pretty, lay]
  | d, .object ((k, v) :: fs) => by
    rw [pretty, lay, pretty_eq (d + 1) v, prettyMembers_eq d fs]
    simp [prettyLayout]

theorem prettyItems_eq : ∀ (d : Nat) (vs : List Json), Json.prettyItems (d + 1) vs = layItems prettyLayout d vs
  | _, [] => by rw [prettyItems, layItems]
  | d, v :: vs => by
    rw [prettyItems, layItems, pretty_eq (d + 1) v, prettyItems_eq d vs]
    simp [prettyLayout]

theorem prettyMembers_eq : ∀ (d : Nat) (fs : List (String × Json)), Json.prettyMembers (d + 1) fs = layMembers prettyLayout d fs
  | _, [] => by rw [prettyMembers, layMembers]
  | d, (k, v) :: fs => by
    rw [prettyMembers, layMembers, pretty_eq (d + 1) v, prettyMembers_eq d fs]
    simp [prettyLayout]

end

theorem pipelineLit_eq (pipeline : List Json) :
    '[' :: ", ".toList.intercalate (pipeline.map Json.compact) ++ [']'] = lay pipelineLayout 0 (.array pipeline) := by
  have hitems : ∀ vs : List Json, (vs.map Json.compact).flatMap (", ".toList ++ ·) = layItems pipelineLayout 0 vs := by
    intro vs
    induction vs with
    | nil => rw [layItems]; rfl
    | cons v vs ih =>
      rw [List.map_cons, List.flatMap_cons, ih, layItems, ← compact_eq 0 v]
      simp [pipelineLayout]
  cases pipeline with
  | nil => rw [lay]; rfl
  | cons v vs =>
    have hflat : ∀ (t : List Char) (ts : List (List Char)), ", ".toList.intercalate (t :: ts) = t ++ ts.flatMap (", ".toList ++ ·) := by
      intro t ts
      induction ts generalizing t with
      | nil => simp
      | cons u ts ih => rw [List.intercalate_cons_cons, ih, List.flatMap_cons, List.append_assoc, List.append_assoc]
    rw [List.map_cons, hflat, hitems, lay, ← compact_eq 0 v]
    simp [pipelineLayout]

/-! ## Strings of Python -/

variable {c : Char} {cs : List Char}

section
variable {f : Form}

theorem readBody_char (hquote : c ≠ f.quote) (hbarred : f.barred c = false) (hopens : f.opens (c :: cs) = false)
    (hslash : c ≠ '\\') : readBody f (c :: cs).length (c :: cs) = (readBody f cs.length cs).map fun x => (c :: x.1, x.2) := by
  rw [List.length_cons, readBody, if_neg hquote, hbarred, hopens, if_neg (by decide), if_neg hslash]

theorem readBody_escape (hescape : f.escape cs = some ([c], r)) (hquote : '\\' ≠ f.quote)
    (hbarred : f.barred '\\' = false) (hopens : f.opens ('\\' :: cs) = false) :
    readBody f ('\\' :: cs).length ('\\' :: cs) = (readBody f r.length r).map fun x => (c :: x.1, x.2) := by
  have hlt := (f.shorter hescape).1
  rw [List.length_cons, readBody, if_neg hquote, hbarred, hopens, if_neg (by decide), if_pos rfl, hescape]
  simp only [readBody_fuel (n := cs.length) (m := r.length) (l := r) (Nat.le_of_lt hlt) (Nat.le_refl _), List.singleton_append]

end

def pythonForm : Form := pythonEscapes.form '"' pythonBarred noOpening

theorem pythonBody_escapeChar (c : Char) (cs : List Char) :
    readBody pythonForm (escapeChar c ++ cs).length (escapeChar c ++ cs) =
      (readBody pythonForm cs.length cs).map fun x => (c :: x.1, x.2) := by
  have hsimple : ∀ {d : Char}, pythonEscapes.simple.lookup d = some [c] → readBody pythonForm ('\\' :: d :: cs).length ('\\' :: d :: cs) =
      (readBody pythonForm cs.length cs).map fun x => (c :: x.1, x.2) := by
    intro d hd
    refine readBody_escape ?_ (by decide) rfl rfl
    change pythonEscapes.read (d :: cs) = _
    rw [Escapes.read, hd]
  unfold escapeChar
  split
  · next h => subst h; exact hsimple rfl
  split
  · next h => subst h; exact hsimple rfl
  split
  · next h => subst h; exact hsimple rfl
  split
  · next h => subst h; exact hsimple rfl
  split
  · next h => subst h; exact hsimple rfl
  split
  · next h =>
    have hc : c = Char.ofNat 8 := by rw [← h, Char.ofNat_toNat]
    subst hc
    exact hsimple rfl
  split
  · next h =>
    have hc : c = Char.ofNat 12 := by rw [← h, Char.ofNat_toNat]
    subst hc
    exact hsimple rfl
  split
  · next h =>
    have hc : Char.ofNat (16 * (c.toNat / 16) + c.toNat % 16) = c := by rw [Nat.div_add_mod, Char.ofNat_toNat]
    refine readBody_escape (r := cs) ?_ (by decide) rfl rfl
    have hhex : hexNumber ['0', '0', Nat.digitChar (c.toNat / 16), Nat.digitChar (c.toNat % 16)] =
        some (16 * (c.toNat / 16) + c.toNat % 16) := by
      have hi := Bytes.hexVal_digitChar (c.toNat / 16) (by omega)
      have lo := Bytes.hexVal_digitChar (c.toNat % 16) (by omega)
      have hzero : Bytes.hexVal '0' = some 0 := by decide
      simp [hexNumber, hi, lo, hzero]
    change pythonEscapes.read ('u' :: '0' :: '0' :: Nat.digitChar (c.toNat / 16) :: Nat.digitChar (c.toNat % 16) :: cs) = _
    rw [Escapes.read, show pythonEscapes.simple.lookup 'u' = none from rfl, show pythonEscapes.hex.lookup 'u' = some 4 from rfl]
    simp [hhex, hc]
  · next h1 h2 h3 h4 _ _ _ h8 =>
    refine readBody_char h1 ?_ rfl h2
    have hnul : c ≠ nul := by
      rintro rfl
      exact h8 (by decide)
    change pythonBarred c = false
    simp [pythonBarred, isLineFeed, h3, h4, hnul]

theorem pythonBody_string : ∀ (s rest : List Char), readBody pythonForm (s.flatMap escapeChar ++ '"' :: rest).length
    (s.flatMap escapeChar ++ '"' :: rest) = some (s, rest)
  | [], rest => readBody_quote (Nat.le_refl _)
  | c :: s, rest => by
    rw [List.flatMap_cons, List.append_assoc, pythonBody_escapeChar, pythonBody_string s rest]
    rfl

theorem readString_python (s rest : List Char) : python.readString (printString s ++ rest) = some (s, rest) := by
  have htext : printString s ++ rest = '"' :: (s.flatMap escapeChar ++ '"' :: rest) := by simp [printString]
  have hread : Literals.read pythonForm (printString s ++ rest) = some (s, rest) := by
    have hquote : '"' = pythonForm.quote := rfl
    rw [htext, Literals.read, if_pos hquote]
    exact pythonBody_string s rest
  change (([pythonForm, _] : List Form).findSome? fun f => Literals.read f (printString s ++ rest)) = _
  rw [List.findSome?_cons, hread]

/-! ## Values of Python -/

mutual

/-- Neither `null` nor a truth value. -/
def bare : Json → Bool
  | .null => false
  | .bool _ => false
  | .number _ => true
  | .string _ => true
  | .array vs => bareItems vs
  | .object fs => bareMembers fs

def bareItems : List Json → Bool
  | [] => true
  | v :: vs => bare v && bareItems vs

def bareMembers : List (String × Json) → Bool
  | [] => true
  | (_, v) :: fs => bare v && bareMembers fs

end

variable {w : List Char}

section
variable {g : Grammar}

theorem skip_blank (h : ∀ c ∈ w, isBlank c = true) (s : List Char) : skip (w ++ s) = skip s :=
  List.dropWhile_append_of_pos h

theorem skip_cons (h : isBlank c = false) (s : List Char) : skip (c :: s) = c :: s := by
  rw [skip, List.dropWhile_cons_of_neg (by simp [h])]

theorem readValue_blank (h : ∀ c ∈ w, isBlank c = true) (n : Nat) (s : List Char) :
    readValue g n (w ++ s) = readValue g n s := by
  cases n with
  | zero => rfl
  | succ n => rw [readValue, readValue, skip_blank h]

theorem readItems_blank (h : ∀ c ∈ w, isBlank c = true) (n : Nat) (first : Bool) (s : List Char) :
    readItems g n first (w ++ s) = readItems g n first s := by
  cases n with
  | zero => rfl
  | succ n => rw [readItems, readItems, skip_blank h]

theorem readMembers_blank (h : ∀ c ∈ w, isBlank c = true) (n : Nat) (first : Bool) (s : List Char) :
    readMembers g n first (w ++ s) = readMembers g n first s := by
  cases n with
  | zero => rfl
  | succ n => rw [readMembers, readMembers, skip_blank h]

theorem readItems_first (hc : isBlank c = false) (hclose : c ≠ ']') (n : Nat) (cs : List Char) :
    readItems g (n + 1) true (c :: cs) =
      (readValue g n (c :: cs)).bind fun p => (readItems g n false p.2).map fun q => (p.1 :: q.1, q.2) := by
  rw [readItems, skip_cons hc]
  simp only [if_neg hclose, Bool.true_or, if_true]

theorem readItems_next (n : Nat) (cs : List Char) : readItems g (n + 1) false (',' :: cs) =
    (readValue g n cs).bind fun p => (readItems g n false p.2).map fun q => (p.1 :: q.1, q.2) := by
  rw [readItems, skip_cons (by decide)]
  simp

theorem readItems_close (n : Nat) (first : Bool) (cs : List Char) : readItems g (n + 1) first (']' :: cs) = some ([], cs) := by
  rw [readItems, skip_cons (by decide)]
  simp

theorem readMembers_close (n : Nat) (first : Bool) (cs : List Char) : readMembers g (n + 1) first ('\x7d' :: cs) = some ([], cs) := by
  rw [readMembers, skip_cons (by decide)]
  simp

end

theorem readKey_python (k : String) (s : List Char) :
    readKey python (printString k.toList ++ (':' :: (w ++ s))) = some (k, w ++ s) := by
  rw [readKey, readString_python]
  have hskip : skip (':' :: (w ++ s)) = ':' :: (w ++ s) := skip_cons (by decide) _
  simp only [hskip, String.ofList_toList]

variable {n : Nat}

theorem readMembers_first (k : String) (s : List Char) :
    readMembers python (n + 1) true (printString k.toList ++ (':' :: (w ++ s))) =
      (readValue python n (w ++ s)).bind fun p => (readMembers python n false p.2).map fun q => ((k, p.1) :: q.1, q.2) := by
  have hquote : ∃ t, printString k.toList ++ (':' :: (w ++ s)) = '"' :: t := ⟨_, rfl⟩
  obtain ⟨t, ht⟩ := hquote
  have hkey := readKey_python k (w := w) s
  rw [ht] at hkey ⊢
  rw [readMembers, skip_cons (by decide)]
  simp only [show ('"' : Char) ≠ '\x7d' by decide, if_false, Bool.true_or, if_true, skip_cons (show isBlank '"' = false by decide), hkey,
    Option.bind_some]

theorem readMembers_next (hu : ∀ c ∈ u, isBlank c = true) (k : String) (s : List Char) :
    readMembers python (n + 1) false (',' :: (u ++ (printString k.toList ++ (':' :: (w ++ s))))) =
      (readValue python n (w ++ s)).bind fun p => (readMembers python n false p.2).map fun q => ((k, p.1) :: q.1, q.2) := by
  have hquote : ∃ t, printString k.toList ++ (':' :: (w ++ s)) = '"' :: t := ⟨_, rfl⟩
  obtain ⟨t, ht⟩ := hquote
  have hkey := readKey_python k (w := w) s
  rw [ht] at hkey ⊢
  rw [readMembers, skip_cons (by decide)]
  simp [skip_blank hu, skip_cons (show isBlank '"' = false by decide), hkey]

theorem head_lay (h : Numbered v) : ∃ c cs, lay l d v = c :: cs ∧ isBlank c = false ∧ c ≠ ']' := by
  cases v with
  | null => exact ⟨'n', _, by rw [lay, printNull], by decide, by decide⟩
  | bool b =>
    cases b with
    | true => exact ⟨'t', _, by rw [lay, printBool], by decide, by decide⟩
    | false => exact ⟨'f', _, by rw [lay, printBool], by decide, by decide⟩
  | number text =>
    cases text with
    | nil => exact False.elim h
    | cons c cs =>
      have hc := h.1
      refine ⟨c, cs, by rw [lay], eq_false_of_ne_true fun hblank => ?_, ?_⟩
      · simp only [isBlank, Bool.or_eq_true, beq_iff_eq, or_assoc] at hblank
        rcases hblank with rfl | rfl | rfl | rfl <;> exact absurd hc (by decide)
      · rintro rfl
        exact absurd hc (by decide)
  | string s => exact ⟨'"', _, by rw [lay, printString], by decide, by decide⟩
  | array vs =>
    cases vs with
    | nil => exact ⟨'[', _, by rw [lay], by decide, by decide⟩
    | cons v vs => exact ⟨'[', _, by rw [lay], by decide, by decide⟩
  | object fs =>
    cases fs with
    | nil => exact ⟨'\x7b', _, by rw [lay], by decide, by decide⟩
    | cons f fs => exact ⟨'\x7b', _, by rw [lay], by decide, by decide⟩

theorem readValue_word (h : c = 'n' ∨ c = 't' ∨ c = 'f') (n : Nat) (cs : List Char) : readValue python (n + 1) (c :: cs) = none := by
  have hc : isBlank c = false ∧ c ≠ '[' ∧ c ≠ '\x7b' ∧ startsNumber c = false ∧ c.isAlpha = true ∧ c ≠ 'T' ∧ c ≠ 'F' ∧ c ≠ 'N' := by
    rcases h with rfl | rfl | rfl <;> decide
  have hlookup : python.words.lookup ((c :: cs).takeWhile Char.isAlpha) = none := by
    rw [List.takeWhile_cons_of_pos hc.2.2.2.2.1]
    have hne : ∀ (w : List Char) (d : Char), c ≠ d → ((c :: cs.takeWhile Char.isAlpha) == d :: w) = false := by
      intro w d hd
      rw [beq_eq_false_iff_ne]
      exact fun heq => hd (List.cons.inj heq).1
    change List.lookup _ [('T' :: "rue".toList, _), ('F' :: "alse".toList, _), ('N' :: "one".toList, _)] = none
    simp only [List.lookup_cons, hne _ _ hc.2.2.2.2.2.1, hne _ _ hc.2.2.2.2.2.2.1, hne _ _ hc.2.2.2.2.2.2.2]
    rfl
  rw [readValue, skip_cons hc.1]
  dsimp only
  rw [if_neg hc.2.1, if_neg hc.2.2.1, hc.2.2.2.1, hc.2.2.2.2.1, hlookup]
  rfl

theorem readValue_number (h : NumberText (c :: cs)) (hrest : Ends rest) (n : Nat) :
    readValue python (n + 1) (c :: cs ++ rest) = some (.number (c :: cs), rest) := by
  obtain ⟨hc, hcs⟩ := h
  have hne : isBlank c = false ∧ c ≠ '[' ∧ c ≠ '\x7b' := by
    refine ⟨eq_false_of_ne_true fun hblank => ?_, ?_, ?_⟩
    · simp only [isBlank, Bool.or_eq_true, beq_iff_eq, or_assoc] at hblank
      rcases hblank with rfl | rfl | rfl | rfl <;> exact absurd hc (by decide)
    · rintro rfl
      exact absurd hc (by decide)
    · rintro rfl
      exact absurd hc (by decide)
  obtain ⟨htake, hdrop⟩ := takeWhile_of_ends hcs hrest
  rw [List.cons_append, readValue, skip_cons hne.1]
  dsimp only
  rw [if_neg hne.2.1, if_neg hne.2.2, if_pos hc, htake, hdrop]

theorem readValue_string (s : String) (rest : List Char) (n : Nat) :
    readValue python (n + 1) (printString s.toList ++ rest) = some (.string s, rest) := by
  have hread := readString_python s.toList rest
  have htext : printString s.toList ++ rest = '"' :: (s.toList.flatMap escapeChar ++ '"' :: rest) := by simp [printString]
  rw [htext] at hread ⊢
  rw [readValue, skip_cons (by decide)]
  simp [hread, show startsNumber '"' = false by decide, show Char.isAlpha '"' = false by decide]

theorem ends_blank (hw : ∀ c ∈ w, isBlank c = true) (hc : isNumberChar c = false) (s : List Char) :
    Ends (w ++ c :: s) := by
  cases w with
  | nil => exact ends_cons hc s
  | cons d w =>
    refine ends_cons ?_ _
    have hd := hw d List.mem_cons_self
    simp only [isBlank, Bool.or_eq_true, beq_iff_eq, or_assoc] at hd
    rcases hd with rfl | rfl | rfl | rfl <;> decide

section
variable {l : Layout}

theorem Layout.first_blank (l : Layout) (d : Nat) : ∀ c ∈ l.first d, isBlank c = true := fun c hc => l.blank d c (by simp [hc])

theorem Layout.next_blank (l : Layout) (d : Nat) : ∀ c ∈ l.next d, isBlank c = true := fun c hc => l.blank d c (by simp [hc])

theorem Layout.last_blank (l : Layout) (d : Nat) : ∀ c ∈ l.last d, isBlank c = true := fun c hc => l.blank d c (by simp [hc])

theorem Layout.colon_blank (l : Layout) : ∀ c ∈ l.colon, isBlank c = true := fun c hc => l.blank 0 c (by simp [hc])

theorem ends_items (d : Nat) (vs : List Json) (rest : List Char) : Ends (layItems l d vs ++ (l.last d ++ ']' :: rest)) := by
  cases vs with
  | nil =>
    rw [layItems]
    exact ends_blank (l.last_blank d) (by decide) rest
  | cons v vs =>
    rw [layItems]
    exact ends_cons (by decide) _

theorem ends_members (d : Nat) (fs : List (String × Json)) (rest : List Char) : Ends (layMembers l d fs ++ (l.last d ++ '\x7d' :: rest)) := by
  cases fs with
  | nil =>
    rw [layMembers]
    exact ends_blank (l.last_blank d) (by decide) rest
  | cons f fs =>
    rw [layMembers]
    exact ends_cons (by decide) _

theorem python_lists : python.lists = true := rfl

mutual

theorem readValue_lay : ∀ (v : Json), Numbered v → ∀ (d n : Nat) (rest : List Char), (lay l d v).length ≤ n → Ends rest →
    readValue python n (lay l d v ++ rest) = if bare v then some (v, rest) else none
  | v, h, d, 0, rest, hn, _ => by
    obtain ⟨c, cs, hv, -, -⟩ := head_lay (l := l) (d := d) h
    rw [hv] at hn
    cases hn
  | .null, _, _, n + 1, rest, _, _ => by
    rw [lay, printNull]
    exact readValue_word (.inl rfl) n _
  | .bool true, _, _, n + 1, rest, _, _ => by
    rw [lay, printBool]
    exact readValue_word (.inr (.inl rfl)) n _
  | .bool false, _, _, n + 1, rest, _, _ => by
    rw [lay, printBool]
    exact readValue_word (.inr (.inr rfl)) n _
  | .number [], h, _, _, _, _, _ => False.elim h
  | .number (c :: cs), h, _, n + 1, rest, _, hrest => by
    rw [lay]
    exact readValue_number h hrest n
  | .string s, _, _, n + 1, rest, _, _ => by
    rw [lay]
    exact readValue_string s rest n
  | .array [], _, d, n + 1, rest, hn, _ => by
    rw [lay] at hn ⊢
    cases n with
    | zero => cases hn with | step hn => cases hn
    | succ n =>
      have hclose : readItems python (n + 1) true (']' :: rest) = some ([], rest) := readItems_close n true rest
      rw [List.cons_append, List.cons_append, List.nil_append, readValue, skip_cons (by decide)]
      dsimp only
      rw [if_pos rfl, if_pos python_lists, hclose]
      rfl
  | .array (v :: vs), h, d, n + 1, rest, hn, _ => by
    rw [lay] at hn ⊢
    obtain ⟨c, cs, hv, hblank, hc⟩ := head_lay (l := l) (d := d + 1) h.1
    have hpos : 0 < (lay l (d + 1) v).length := by rw [hv]; exact Nat.succ_pos _
    cases n with
    | zero =>
      simp only [List.length_cons, List.length_append] at hn
      omega
    | succ n =>
      have hlen : (lay l (d + 1) v).length ≤ n ∧ (layItems l d vs).length + 1 ≤ n := by
        simp only [List.length_cons, List.length_append, List.length_nil] at hn
        omega
      have htext : '[' :: (l.first d ++ (lay l (d + 1) v ++ (layItems l d vs ++ (l.last d ++ [']'])))) ++ rest =
          '[' :: (l.first d ++ (lay l (d + 1) v ++ (layItems l d vs ++ (l.last d ++ ']' :: rest)))) := by simp
      have hitems := readItems_first (g := python) hblank hc n (cs ++ (layItems l d vs ++ (l.last d ++ ']' :: rest)))
      rw [← List.cons_append, ← hv, readValue_lay v h.1 (d + 1) n _ hlen.1 (ends_items d vs rest)] at hitems
      rw [htext, readValue, skip_cons (by decide)]
      dsimp only
      rw [if_pos rfl, if_pos python_lists, readItems_blank (l.first_blank d), hitems, bare, bareItems]
      cases bare v with
      | false => rfl
      | true =>
        rw [if_pos rfl, Option.bind_some, readItems_lay vs h.2 d n rest hlen.2]
        cases bareItems vs <;> rfl
  | .object [], _, d, n + 1, rest, hn, _ => by
    rw [lay] at hn ⊢
    cases n with
    | zero => cases hn with | step hn => cases hn
    | succ n =>
      have hclose : readMembers python (n + 1) true ('\x7d' :: rest) = some ([], rest) := readMembers_close n true rest
      rw [List.cons_append, List.cons_append, List.nil_append, readValue, skip_cons (by decide)]
      dsimp only
      rw [if_neg (by decide), if_pos rfl, hclose]
      rfl
  | .object ((k, v) :: fs), h, d, n + 1, rest, hn, _ => by
    rw [lay] at hn ⊢
    cases n with
    | zero =>
      simp only [List.length_cons, List.length_append] at hn
      omega
    | succ n =>
      have hlen : (lay l (d + 1) v).length ≤ n ∧ (layMembers l d fs).length + 1 ≤ n := by
        simp only [List.length_cons, List.length_append, List.length_nil] at hn
        omega
      have htext : '\x7b' :: (l.first d ++ (printString k.toList ++ (':' :: (l.colon ++ (lay l (d + 1) v ++ (layMembers l d fs ++
          (l.last d ++ ['\x7d']))))))) ++ rest = '\x7b' :: (l.first d ++ (printString k.toList ++ (':' :: (l.colon ++ (lay l (d + 1) v ++
            (layMembers l d fs ++ (l.last d ++ '\x7d' :: rest))))))) := by simp
      have hmembers := readMembers_first (n := n) (w := l.colon) k (lay l (d + 1) v ++ (layMembers l d fs ++ (l.last d ++ '\x7d' :: rest)))
      rw [readValue_blank l.colon_blank, readValue_lay v h.1 (d + 1) n _ hlen.1 (ends_members d fs rest)] at hmembers
      rw [htext, readValue, skip_cons (by decide)]
      dsimp only
      rw [if_neg (by decide), if_pos rfl, readMembers_blank (l.first_blank d), hmembers, bare, bareMembers]
      cases bare v with
      | false => rfl
      | true =>
        rw [if_pos rfl, Option.bind_some, readMembers_lay fs h.2 d n rest hlen.2]
        cases bareMembers fs <;> rfl

theorem readItems_lay : ∀ (vs : List Json), NumberedItems vs → ∀ (d n : Nat) (rest : List Char), (layItems l d vs).length + 1 ≤ n →
    readItems python n false (layItems l d vs ++ (l.last d ++ ']' :: rest)) = if bareItems vs then some (vs, rest) else none
  | [], _, d, n + 1, rest, _ => by
    rw [layItems, List.nil_append, readItems_blank (l.last_blank d), readItems_close]
    rfl
  | v :: vs, h, d, n + 1, rest, hn => by
    rw [layItems] at hn ⊢
    have hlen : (lay l (d + 1) v).length ≤ n ∧ (layItems l d vs).length + 1 ≤ n := by
      simp only [List.length_cons, List.length_append] at hn
      omega
    have htext : ',' :: (l.next d ++ (lay l (d + 1) v ++ layItems l d vs)) ++ (l.last d ++ ']' :: rest) =
        ',' :: (l.next d ++ (lay l (d + 1) v ++ (layItems l d vs ++ (l.last d ++ ']' :: rest)))) := by simp
    rw [htext, readItems_next, readValue_blank (l.next_blank d), readValue_lay v h.1 (d + 1) n _ hlen.1 (ends_items d vs rest), bareItems]
    cases bare v with
    | false => rfl
    | true =>
      rw [if_pos rfl, Option.bind_some, readItems_lay vs h.2 d n rest hlen.2]
      cases bareItems vs <;> rfl

theorem readMembers_lay : ∀ (fs : List (String × Json)), NumberedMembers fs → ∀ (d n : Nat) (rest : List Char),
    (layMembers l d fs).length + 1 ≤ n →
      readMembers python n false (layMembers l d fs ++ (l.last d ++ '\x7d' :: rest)) = if bareMembers fs then some (fs, rest) else none
  | [], _, d, n + 1, rest, _ => by
    rw [layMembers, List.nil_append, readMembers_blank (l.last_blank d), readMembers_close]
    rfl
  | (k, v) :: fs, h, d, n + 1, rest, hn => by
    rw [layMembers] at hn ⊢
    have hlen : (lay l (d + 1) v).length ≤ n ∧ (layMembers l d fs).length + 1 ≤ n := by
      simp only [List.length_cons, List.length_append] at hn
      omega
    have htext : ',' :: (l.next d ++ (printString k.toList ++ (':' :: (l.colon ++ (lay l (d + 1) v ++ layMembers l d fs))))) ++
        (l.last d ++ '\x7d' :: rest) = ',' :: (l.next d ++ (printString k.toList ++ (':' :: (l.colon ++ (lay l (d + 1) v ++
          (layMembers l d fs ++ (l.last d ++ '\x7d' :: rest))))))) := by simp
    rw [htext, readMembers_next (l.next_blank d), readValue_blank l.colon_blank,
      readValue_lay v h.1 (d + 1) n _ hlen.1 (ends_members d fs rest), bareMembers]
    cases bare v with
    | false => rfl
    | true =>
      rw [if_pos rfl, Option.bind_some, readMembers_lay fs h.2 d n rest hlen.2]
      cases bareMembers fs <;> rfl

end

/-- **A JSON text is an expression of Python for its value exactly when neither `null` nor a truth value is in it.** -/
theorem read_python (h : Numbered v) (hrest : Ends rest) (hn : (lay l 0 v).length ≤ n) :
    readValue python n (lay l 0 v ++ rest) = some (v, rest) ↔ bare v = true := by
  rw [readValue_lay v h 0 n rest hn hrest]
  cases bare v <;> simp

end

end QueryCode
