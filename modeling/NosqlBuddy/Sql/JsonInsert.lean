import Mathlib
import NosqlBuddy.Lib.JsonGrammar
import NosqlBuddy.Lib.Text
import NosqlBuddy.Mongo.Value

/-!
# The insert of raw documents

| here | there |
| --- | --- |
| `skipWs`, `consumeKeyword`, `parseIdentifier` | the methods of `JsonScan` (mongo/sql_to_mongo.rs:218-270) |
| `scanValue`, `parseJsonValue` | `parse_json_value` (sql_to_mongo.rs:274) |
| `documents`, `detectJsonInsert` | `detect_json_insert` (sql_to_mongo.rs:323) |

The scanner is what is left of the text; positions are lengths in bytes. `serde_json::from_str` is a parameter that reads a text as
a value or says why not.
-/

namespace Sql

open JsonGrammar

def skipWs (cs : List Char) : List Char := cs.dropWhile Text.isWhitespace

/-- `is_ascii_alphanumeric` or an underscore -/
def isWordChar (c : Char) : Bool := c.isAlphanum || c == '_'

def startsWithWord (cs : List Char) : Bool := cs.head?.any isWordChar

/-- `peek_keyword` and `consume_keyword`: case does not matter, and no word goes on after it. -/
def consumeKeyword (kw : List Char) (cs : List Char) : Option (List Char) :=
  if (cs.take kw.length).map Char.toLower = kw ∧ startsWithWord (cs.drop kw.length) = false then some (cs.drop kw.length) else none

def parseIdentifier (cs : List Char) : Option (List Char × List Char) :=
  if cs.takeWhile isWordChar = [] then none else some (cs.takeWhile isWordChar, cs.dropWhile isWordChar)

/-- Outside of strings, in one, or after a backslash in one. -/
inductive JsonMode where
  | code
  | inString
  | escaped

def took (c : Char) (r : Option (List Char × List Char)) : Option (List Char × List Char) := r.map fun s => (c :: s.1, s.2)

/-- The loop that counts the brackets: the text up to the one that closes the first, and what follows. -/
def scanValue (op cl : Char) : JsonMode → ℕ → List Char → Option (List Char × List Char)
  | _, depth, [] => if depth = 0 then some ([], []) else none
  | .escaped, depth, c :: cs => took c (scanValue op cl .inString depth cs)
  | .inString, depth, c :: cs =>
    if c = '\\' then took c (scanValue op cl .escaped depth cs)
    else if c = '"' then took c (scanValue op cl .code depth cs)
    else took c (scanValue op cl .inString depth cs)
  | .code, depth, c :: cs =>
    if c = '"' then took c (scanValue op cl .inString depth cs)
    else if c = op then took c (scanValue op cl .code (depth + 1) cs)
    else if c = cl then
      if depth - 1 = 0 then some ([c], cs) else took c (scanValue op cl .code (depth - 1) cs)
    else took c (scanValue op cl .code depth cs)

def closer (op : Char) : Char := if op = '\x7b' then '\x7d' else ']'

section
variable {α : Type} (fromStr : List Char → Except String α)

/-- The brackets that start here, read as JSON. -/
def readValue (op : Char) (cs : List Char) : Except String (α × List Char) :=
  match scanValue op (closer op) .code 0 cs with
  | none => .error "unterminated JSON value"
  | some (json, rest) =>
    match fromStr json with
    | .error e => .error ("invalid JSON value: " ++ e)
    | .ok v => .ok (v, rest)

def parseJsonValue (cs : List Char) : Except String (α × List Char) :=
  match (skipWs cs).head? with
  | some '\x7b' => readValue fromStr '\x7b' (skipWs cs)
  | some '[' => readValue fromStr '[' (skipWs cs)
  | _ => .error "expected `\x7b` or `[` to start a JSON value"

end

/-! ## What the scanner takes -/

section
variable (op cl : Char) (depth : ℕ) (c : Char) (cs : List Char)

theorem scanValue_nil (m : JsonMode) : scanValue op cl m depth [] = if depth = 0 then some ([], []) else none := by
  cases m <;> rfl

theorem scanValue_escaped : scanValue op cl .escaped depth (c :: cs) = took c (scanValue op cl .inString depth cs) := rfl

theorem scanValue_inString : scanValue op cl .inString depth (c :: cs) =
    if c = '\\' then took c (scanValue op cl .escaped depth cs)
    else if c = '"' then took c (scanValue op cl .code depth cs)
    else took c (scanValue op cl .inString depth cs) := rfl

theorem scanValue_code : scanValue op cl .code depth (c :: cs) =
    if c = '"' then took c (scanValue op cl .inString depth cs)
    else if c = op then took c (scanValue op cl .code (depth + 1) cs)
    else if c = cl then
      if depth - 1 = 0 then some ([c], cs) else took c (scanValue op cl .code (depth - 1) cs)
    else took c (scanValue op cl .code depth cs) := rfl

end

theorem took_some (h : took c r = some (t, rest)) :
    ∃ u, r = some (u, rest) ∧ t = c :: u := by
  obtain ⟨⟨u, rest'⟩, hr, he⟩ := Option.map_eq_some_iff.1 h
  cases he
  exact ⟨u, hr, rfl⟩

theorem scanValue_some : ∀ {m : JsonMode} {depth : ℕ} {t rest : List Char}, depth ≠ 0 →
    scanValue op cl m depth cs = some (t, rest) → cs = t ++ rest ∧ ∃ u, t = u ++ [cl] := by
  induction cs with
  | nil =>
    intro m depth t rest hdepth h
    rw [scanValue_nil, if_neg hdepth] at h
    cases h
  | cons c cs ih =>
    intro m depth t rest hdepth h
    have htook : ∀ {m' depth'}, depth' ≠ 0 → took c (scanValue op cl m' depth' cs) = some (t, rest) →
        c :: cs = t ++ rest ∧ ∃ u, t = u ++ [cl] := by
      intro m' depth' hdepth' h
      obtain ⟨u, hu, rfl⟩ := took_some h
      obtain ⟨rfl, w, rfl⟩ := ih hdepth' hu
      exact ⟨rfl, c :: w, rfl⟩
    cases m with
    | escaped => exact htook hdepth h
    | inString =>
      rw [scanValue_inString] at h
      split_ifs at h
      all_goals exact htook hdepth h
    | code =>
      rw [scanValue_code] at h
      split_ifs at h with hquote hop hcl hlast
      · exact htook hdepth h
      · exact htook (Nat.succ_ne_zero depth) h
      · cases h
        exact ⟨rfl, [], by rw [hcl]; rfl⟩
      · exact htook hlast h
      · exact htook hdepth h

def prepend (t : List Char) (r : Option (List Char × List Char)) : Option (List Char × List Char) :=
  r.map fun s => (t ++ s.1, s.2)

theorem took_prepend (c : Char) (t : List Char) (r : Option (List Char × List Char)) : took c (prepend t r) = prepend (c :: t) r := by
  cases r <;> rfl

theorem prepend_prepend (s t : List Char) (r : Option (List Char × List Char)) : prepend s (prepend t r) = prepend (s ++ t) r := by
  cases r with
  | none => rfl
  | some r => exact congrArg (fun u => some (u, r.2)) (List.append_assoc s t r.1).symm

theorem brackets_closer {op : Char} (h : op = '\x7b' ∨ op = '[') : Brackets op (closer op) := by
  rcases h with rfl | rfl
  · exact .inl ⟨rfl, rfl⟩
  · exact .inr ⟨rfl, rfl⟩

/-- The depth after a text is the one before it. -/
def Level (op cl : Char) (t : List Char) : Prop :=
  ∀ depth, depth ≠ 0 → ∀ rest, scanValue op cl .code depth (t ++ rest) = prepend t (scanValue op cl .code depth rest)

theorem scan_hex (hh : ∀ c ∈ h, isHexDigit c = true) (depth : ℕ) (rest : List Char) :
    scanValue op cl .inString depth (h ++ rest) = prepend h (scanValue op cl .inString depth rest) := by
  induction h with
  | nil =>
    rw [List.nil_append]
    cases scanValue op cl .inString depth rest <;> rfl
  | cons c h ih =>
    have hc := hh c List.mem_cons_self
    have hslash : c ≠ '\\' := by
      rintro rfl
      exact absurd hc (by decide)
    have hquote : c ≠ '"' := by
      rintro rfl
      exact absurd hc (by decide)
    rw [List.cons_append, scanValue_inString, if_neg hslash, if_neg hquote, ih fun d hd => hh d (List.mem_cons_of_mem c hd), took_prepend]

theorem scan_body (h : Body t) (depth : ℕ) (rest : List Char) :
    scanValue op cl .inString depth (t ++ '"' :: rest) = prepend (t ++ ['"']) (scanValue op cl .code depth rest) := by
  induction h with
  | nil =>
    rw [List.nil_append, scanValue_inString, if_neg (by decide), if_pos rfl]
    rfl
  | @char c t hquote hslash _ _ ih => rw [List.cons_append, scanValue_inString, if_neg hslash, if_neg hquote, ih, took_prepend, List.cons_append]
  | @escape c t _ _ ih =>
    rw [List.cons_append, List.cons_append, scanValue_inString, if_pos rfl, scanValue_escaped, ih, took_prepend, took_prepend]
    rfl
  | @unicode hex t _ hh _ ih =>
    have hcons : '\\' :: 'u' :: (hex ++ t) ++ '"' :: rest = '\\' :: 'u' :: (hex ++ (t ++ '"' :: rest)) := by
      rw [List.cons_append, List.cons_append, List.append_assoc]
    rw [hcons, scanValue_inString, if_pos rfl, scanValue_escaped, scan_hex hh, ih, prepend_prepend, took_prepend, took_prepend, ← List.append_assoc]
    rfl

theorem level_append (hs : Level op cl s) (ht : Level op cl t) : Level op cl (s ++ t) := by
  intro depth hdepth rest
  rw [List.append_assoc, hs depth hdepth, ht depth hdepth, prepend_prepend]

theorem level_char (hquote : c ≠ '"') (hop : c ≠ op) (hcl : c ≠ cl) : Level op cl [c] := by
  intro depth _ rest
  rw [List.singleton_append, scanValue_code, if_neg hquote, if_neg hop, if_neg hcl]
  rfl

theorem scan_enclosed (h : Brackets op cl) (ht : Level op cl t) (depth : ℕ) (rest : List Char) :
    scanValue op cl .code depth (op :: t ++ [cl] ++ rest) =
      if depth = 0 then some (op :: t ++ [cl], rest) else prepend (op :: t ++ [cl]) (scanValue op cl .code depth rest) := by
  have hne : op ≠ '"' ∧ cl ≠ '"' ∧ cl ≠ op := by
    rcases h with ⟨rfl, rfl⟩ | ⟨rfl, rfl⟩ <;> decide
  have hclose : scanValue op cl .code (depth + 1) (cl :: rest) =
      if depth = 0 then some ([cl], rest) else took cl (scanValue op cl .code depth rest) := by
    rw [scanValue_code, if_neg hne.2.1, if_neg hne.2.2, if_pos rfl, Nat.add_sub_cancel]
  rw [List.cons_append, List.cons_append, List.append_assoc, List.singleton_append, scanValue_code, if_neg hne.1, if_pos rfl,
    ht _ (Nat.succ_ne_zero depth), hclose]
  split_ifs with hdepth
  · rfl
  · have htook : took cl (scanValue op cl .code depth rest) = prepend [cl] (scanValue op cl .code depth rest) := rfl
    rw [htook, prepend_prepend, took_prepend]

theorem level_enclosed (h : Brackets op cl) (ht : Level op cl t) : Level op cl (op :: t ++ [cl]) := by
  intro depth hdepth rest
  rw [scan_enclosed h ht, if_neg hdepth]

/-- **Whatever a value has in its strings and however it is nested, the scanner comes out of it at the depth it went in.** -/
theorem level_scanned (h : Brackets op cl) : Scanned (Level op cl) where
  nil depth _ rest := by
    rw [List.nil_append]
    cases scanValue op cl .code depth rest <;> rfl
  append := level_append
  plain {c} hc := by
    simp only [Plain, List.mem_cons, List.not_mem_nil, or_false, not_or] at hc
    rcases h with ⟨rfl, rfl⟩ | ⟨rfl, rfl⟩
    · exact level_char hc.1 hc.2.2.2.2.1 hc.2.2.2.2.2
    · exact level_char hc.1 hc.2.2.1 hc.2.2.2.1
  string {t} ht depth hdepth rest := by
    rw [List.append_assoc, List.cons_append, List.singleton_append, scanValue_code, if_pos rfl, scan_body ht, took_prepend]
    rfl
  brackets {t} ht := by
    rcases h with ⟨rfl, rfl⟩ | ⟨rfl, rfl⟩
    · exact level_append (level_append (level_char (by decide) (by decide) (by decide)) ht)
        (level_char (by decide) (by decide) (by decide))
    · exact level_enclosed (.inr ⟨rfl, rfl⟩) ht
  braces {t} ht := by
    rcases h with ⟨rfl, rfl⟩ | ⟨rfl, rfl⟩
    · exact level_enclosed (.inl ⟨rfl, rfl⟩) ht
    · exact level_append (level_append (level_char (by decide) (by decide) (by decide)) ht)
        (level_char (by decide) (by decide) (by decide))

theorem scanValue_enclosed {op : Char} {t : List Char} (hop : op = '\x7b' ∨ op = '[') (h : Enclosed op (closer op) t)
    (rest : List Char) : scanValue op (closer op) .code 0 (t ++ rest) = some (t, rest) := by
  have hb := brackets_closer hop
  obtain ⟨-, u, rfl⟩ := id h
  rw [scan_enclosed hb (h.inside (level_scanned hb) hb), if_pos rfl]

def Space (a : List Char) : Prop := ∀ c ∈ a, Text.isWhitespace c = true

theorem skipWs_split (cs : List Char) : ∃ a, Space a ∧ cs = a ++ skipWs cs :=
  ⟨cs.takeWhile Text.isWhitespace, fun _ hc => List.mem_takeWhile_imp hc, (List.takeWhile_append_dropWhile).symm⟩

theorem skipWs_append (h : Space a) : skipWs (a ++ cs) = skipWs cs := List.dropWhile_append_of_pos h

theorem skipWs_skipWs (cs : List Char) : skipWs (skipWs cs) = skipWs cs := List.dropWhile_idempotent _ cs

theorem skipWs_cons (h : Text.isWhitespace c = false) : skipWs (c :: cs) = c :: cs :=
  Text.dropWhile_of_head h

/-- An object or an array. -/
def ItemText (t : List Char) : Prop := ∃ op, (op = '\x7b' ∨ op = '[') ∧ Enclosed op (closer op) t

theorem ItemText.head (h : ItemText t) (rest : List Char) : ∃ op, (op = '\x7b' ∨ op = '[') ∧
    Enclosed op (closer op) t ∧ skipWs (t ++ rest) = t ++ rest ∧ (t ++ rest).head? = some op := by
  obtain ⟨op, hop, ht⟩ := h
  obtain ⟨-, u, rfl⟩ := id ht
  refine ⟨op, hop, ht, ?_, rfl⟩
  exact skipWs_cons (by rcases hop with rfl | rfl <;> decide)

section
variable {α : Type} {fromStr : List Char → Except String α}

theorem parseJsonValue_ok (h : parseJsonValue fromStr cs = .ok (v, rest)) :
    ∃ a t op, Space a ∧ cs = a ++ t ++ rest ∧ (op = '\x7b' ∨ op = '[') ∧ (∃ u, t = op :: u ++ [closer op]) ∧ fromStr t = .ok v := by
  obtain ⟨a, ha, hsplit⟩ := skipWs_split cs
  have hread : ∀ {op}, (op = '\x7b' ∨ op = '[') → (skipWs cs).head? = some op → readValue fromStr op (skipWs cs) = .ok (v, rest) →
      ∃ t, skipWs cs = t ++ rest ∧ (∃ u, t = op :: u ++ [closer op]) ∧ fromStr t = .ok v := by
    intro op hop hhead hread
    obtain ⟨more, hmore⟩ := List.head?_eq_some_iff.1 hhead
    have hne : op ≠ '"' := by rcases hop with rfl | rfl <;> decide
    rw [readValue, hmore] at hread
    cases hs : scanValue op (closer op) .code 0 (op :: more) with
    | none =>
      rw [hs] at hread
      cases hread
    | some s =>
      obtain ⟨t, rest'⟩ := s
      rw [hs] at hread
      dsimp only at hread
      cases hj : fromStr t with
      | error e =>
        rw [hj] at hread
        cases hread
      | ok w =>
        rw [hj] at hread
        cases hread
        rw [scanValue_code, if_neg hne, if_pos rfl] at hs
        obtain ⟨u, hu, rfl⟩ := took_some hs
        obtain ⟨rfl, w, rfl⟩ := scanValue_some (Nat.succ_ne_zero 0) hu
        exact ⟨_, hmore, ⟨w, rfl⟩, hj⟩
  unfold parseJsonValue at h
  split at h
  · next hhead =>
    obtain ⟨t, ht, hu, hj⟩ := hread (.inl rfl) hhead h
    exact ⟨a, t, _, ha, by rw [List.append_assoc, ← ht, ← hsplit], .inl rfl, hu, hj⟩
  · next hhead =>
    obtain ⟨t, ht, hu, hj⟩ := hread (.inr rfl) hhead h
    exact ⟨a, t, _, ha, by rw [List.append_assoc, ← ht, ← hsplit], .inr rfl, hu, hj⟩
  · cases h

theorem parseJsonValue_lt (h : parseJsonValue fromStr cs = .ok (v, rest)) :
    rest.length < cs.length := by
  obtain ⟨a, t, op, -, rfl, -, ⟨u, rfl⟩, -⟩ := parseJsonValue_ok h
  simp only [List.length_append, List.length_cons]
  omega

theorem parseJsonValue_item (ha : Space a) (ht : ItemText t) (hv : fromStr t = .ok v) :
    parseJsonValue fromStr (a ++ t ++ rest) = .ok (v, rest) := by
  obtain ⟨op, hop, henclosed, hskip, hhead⟩ := ht.head rest
  have hread : readValue fromStr op (t ++ rest) = .ok (v, rest) := by
    rw [readValue, scanValue_enclosed hop henclosed]
    dsimp only
    rw [hv]
  unfold parseJsonValue
  rw [List.append_assoc, skipWs_append ha, hskip, hhead]
  rcases hop with rfl | rfl
  · exact hread
  · exact hread

end

section
variable {α : Type} (fromStr : List Char → Except String α)

theorem length_skipWs_le (cs : List Char) : (skipWs cs).length ≤ cs.length := (List.dropWhile_sublist _).length_le

/-- The loop over the documents, up to the first that no comma follows. -/
def documents (cs : List Char) : Except String (List α × List Char) :=
  match _h : parseJsonValue fromStr cs with
  | .error e => .error e
  | .ok (v, rest) =>
    if (skipWs rest).head? = some ',' then
      match documents (skipWs (skipWs rest).tail) with
      | .error e => .error e
      | .ok (vs, rest) => .ok (v :: vs, rest)
    else .ok ([v], rest)
termination_by cs.length
decreasing_by
  have hvalue := parseJsonValue_lt _h
  have htail := (skipWs rest).tail_sublist.length_le
  have hskip := length_skipWs_le rest
  have houter := length_skipWs_le (skipWs rest).tail
  omega

def utf8Length (cs : List Char) : ℕ := (cs.map Char.utf8Size).sum

/-- After the verb, `INTO`, the name and an optional `VALUES`: none when the text has another shape. -/
def readHead (sql : List Char) : Option (List Char × List Char) := do
  let start := skipWs sql
  let afterVerb ← (consumeKeyword ['i', 'n', 's', 'e', 'r', 't'] start).or (consumeKeyword ['u', 'p', 's', 'e', 'r', 't'] start)
  let afterInto ← consumeKeyword ['i', 'n', 't', 'o'] (skipWs afterVerb)
  let (collection, afterName) ← parseIdentifier (skipWs afterInto)
  let body := skipWs afterName
  let body := ((consumeKeyword ['v', 'a', 'l', 'u', 'e', 's'] body).map skipWs).getD body
  if body.head? = some '\x7b' then some (collection, body) else none

def detectJsonInsert (sql : List Char) : Except String (Option (List Char × List α)) :=
  match readHead sql with
  | none => .ok none
  | some (collection, body) =>
    match documents fromStr body with
    | .error e => .error e
    | .ok (docs, rest) =>
      if skipWs rest = [] then .ok (some (collection, docs))
      else .error ("unexpected trailing input at position " ++ toString (utf8Length sql - utf8Length (skipWs rest)))

end

/-! ## Lists of documents -/

/-- Items with commas between them and white space around them. -/
inductive Listing (Item : List Char → Prop) : List Char → List (List Char) → Prop
  | one {a t b} : Space a → Item t → Space b → Listing Item (a ++ t ++ b) [t]
  | more {a t b rest ts} : Space a → Item t → Space b → Listing Item rest ts → Listing Item (a ++ t ++ (b ++ ',' :: rest)) (t :: ts)

/-- The texts are read as the values. -/
def ReadAs {α : Type} (fromStr : List Char → Except String α) (ts : List (List Char)) (vs : List α) : Prop :=
  List.Forall₂ (fun t v => fromStr t = .ok v) ts vs

section
variable {α : Type} {fromStr : List Char → Except String α}

theorem parseJsonValue_skipWs (cs : List Char) : parseJsonValue fromStr (skipWs cs) = parseJsonValue fromStr cs := by
  unfold parseJsonValue
  rw [skipWs_skipWs]

theorem documents_value (h : parseJsonValue fromStr cs = .ok (v, rest)) : documents fromStr cs =
    if (skipWs rest).head? = some ',' then
      (documents fromStr (skipWs (skipWs rest).tail)).map fun r => (v :: r.1, r.2)
    else .ok ([v], rest) := by
  rw [documents]
  split
  · next he =>
    rw [h] at he
    cases he
  · next v' rest' he =>
    rw [h] at he
    cases he
    cases documents fromStr (skipWs (skipWs rest).tail) <;> rfl

theorem documents_error (h : parseJsonValue fromStr cs = .error e) : documents fromStr cs = .error e := by
  rw [documents]
  split
  · next he =>
    rw [h] at he
    cases he
    rfl
  · next he =>
    rw [h] at he
    cases he

theorem documents_skipWs (cs : List Char) : documents fromStr (skipWs cs) = documents fromStr cs := by
  cases hp : parseJsonValue fromStr cs with
  | error e => rw [documents_error hp, documents_error ((parseJsonValue_skipWs cs).trans hp)]
  | ok r => rw [documents_value hp, documents_value ((parseJsonValue_skipWs cs).trans hp)]

theorem documents_listing (h : Listing ItemText body ts)
    (hvs : ReadAs fromStr ts vs) : ∃ rest, documents fromStr body = .ok (vs, rest) ∧ skipWs rest = [] := by
  induction h generalizing vs with
  | @one a t b ha ht hb =>
    obtain ⟨v, ws, hv, hws, rfl⟩ := List.forall₂_cons_left_iff.1 hvs
    cases hws
    have hend : skipWs b = [] := by
      rw [← List.append_nil b, skipWs_append hb]
      rfl
    refine ⟨b, ?_, hend⟩
    rw [documents_value (parseJsonValue_item ha ht hv), hend]
    rfl
  | @more a t b rest ts ha ht hb hlist ih =>
    obtain ⟨v, ws, hv, hws, rfl⟩ := List.forall₂_cons_left_iff.1 hvs
    obtain ⟨end_, hdocs, hend⟩ := ih hws
    have hcomma : skipWs (b ++ ',' :: rest) = ',' :: rest := by rw [skipWs_append hb, skipWs_cons (by decide)]
    refine ⟨end_, ?_, hend⟩
    rw [documents_value (parseJsonValue_item ha ht hv), hcomma, List.head?_cons, if_pos rfl, List.tail_cons, documents_skipWs, hdocs]
    rfl

theorem listing_of_documents (hsound : ∀ t v, fromStr t = .ok v → Text t) : ∀ (n : ℕ) {body rest : List Char} {vs : List α},
    body.length ≤ n → documents fromStr body = .ok (vs, rest) → skipWs rest = [] →
    ∃ ts, Listing ItemText body ts ∧ ReadAs fromStr ts vs := by
  intro n
  induction n with
  | zero =>
    intro body rest vs hn h _
    rw [List.length_eq_zero_iff.1 (Nat.le_zero.1 hn)] at h
    have herror : parseJsonValue fromStr [] = .error "expected `\x7b` or `[` to start a JSON value" := rfl
    rw [documents_error herror] at h
    cases h
  | succ n ih =>
    intro body rest vs hn h hend
    cases hp : parseJsonValue fromStr body with
    | error e =>
      rw [documents_error hp] at h
      cases h
    | ok r =>
      obtain ⟨v, after⟩ := r
      have hlt := parseJsonValue_lt hp
      obtain ⟨a, t, op, ha, rfl, hop, ⟨u, rfl⟩, hv⟩ := parseJsonValue_ok hp
      have hitem : ItemText (op :: u ++ [closer op]) := ⟨op, hop, (hsound _ _ hv).enclosed (brackets_closer hop)⟩
      obtain ⟨b, hb, hafter⟩ := skipWs_split after
      rw [documents_value hp] at h
      split_ifs at h with hcomma
      · obtain ⟨tail, htail⟩ := List.head?_eq_some_iff.1 hcomma
        rw [htail, List.tail_cons, documents_skipWs] at h
        cases hd : documents fromStr tail with
        | error e =>
          rw [hd] at h
          cases h
        | ok r =>
          rw [hd] at h
          cases h
          rw [htail] at hafter
          have hlength : tail.length ≤ n := by
            rw [hafter] at hlt hn
            simp only [List.length_append, List.length_cons] at hlt hn
            omega
          obtain ⟨ts, hlist, hts⟩ := ih hlength hd hend
          rw [hafter]
          exact ⟨_, .more ha hitem hb hlist, .cons hv hts⟩
      · cases h
        rw [hend, List.append_nil] at hafter
        rw [hafter]
        exact ⟨_, .one ha hitem hb, .cons hv .nil⟩

theorem listing_unique (ht : Listing ItemText body ts) (hu : Listing ItemText body us) :
    ts = us := by
  have hself : ∀ ts : List (List Char), ReadAs Except.ok ts ts := fun ts => List.forall₂_same.2 fun t _ => rfl
  obtain ⟨rest, hts, -⟩ := documents_listing ht (hself ts)
  obtain ⟨rest', hus, -⟩ := documents_listing hu (hself us)
  rw [hts] at hus
  exact (Prod.mk.inj (Except.ok.inj hus)).1

end

/-! ## The words before the documents -/

theorem visible_of_isWordChar (h : isWordChar c = true) : Text.isWhitespace c = false := by
  simp only [isWordChar, Char.isAlphanum, Char.isAlpha, Char.isUpper, Char.isLower, Char.isDigit, Bool.or_eq_true, Bool.and_eq_true,
    decide_eq_true_eq, beq_iff_eq, ge_iff_le, UInt32.le_iff_toNat_le] at h
  rcases h with ((⟨h1, h2⟩ | ⟨h1, h2⟩) | ⟨h1, h2⟩) | rfl
  · have h1' : 65 ≤ c.toNat := h1
    have h2' : c.toNat ≤ 90 := h2
    simp [Text.isWhitespace]
    omega
  · have h1' : 97 ≤ c.toNat := h1
    have h2' : c.toNat ≤ 122 := h2
    simp [Text.isWhitespace]
    omega
  · have h1' : 48 ≤ c.toNat := h1
    have h2' : c.toNat ≤ 57 := h2
    simp [Text.isWhitespace]
    omega
  · decide

theorem isWordChar_of_toLower (h : isWordChar c.toLower = true) : isWordChar c = true := by
  unfold Char.toLower at h
  split at h
  · next hupper =>
    have hchar : c.isUpper = true := by
      simp only [Char.isUpper, decide_eq_true_eq]
      exact hupper
    simp [isWordChar, Char.isAlphanum, Char.isAlpha, hchar]
  · exact h

theorem startsWithWord_space {a rest : List Char} (h : Space a) (hne : a ≠ []) : startsWithWord (a ++ rest) = false := by
  cases a with
  | nil => exact absurd rfl hne
  | cons c a =>
    have hc := h c List.mem_cons_self
    cases hw : isWordChar c with
    | false => exact hw
    | true =>
      rw [visible_of_isWordChar hw] at hc
      cases hc

theorem consumeKeyword_word (h : word.map Char.toLower = kw) (hrest : startsWithWord rest = false) :
    consumeKeyword kw (word ++ rest) = some rest := by
  have hlength : kw.length = word.length := by rw [← h, List.length_map]
  rw [consumeKeyword, hlength, List.take_left, List.drop_left, if_pos ⟨h, hrest⟩]

theorem consumeKeyword_none (h : (word.take kw.length).map Char.toLower ≠ kw)
    (hlength : kw.length ≤ word.length) : consumeKeyword kw (word ++ rest) = none := by
  rw [consumeKeyword, List.take_append_of_le_length hlength, if_neg fun hk => h hk.1]

/-- The insert without its documents: any case, any white space, and a name of letters, digits and underscores. -/
structure Intro (c pre : List Char) : Prop where
  name : c ≠ [] ∧ ∀ x ∈ c, isWordChar x = true
  words : ∃ a verb b into d e values, Space a ∧
    (verb.map Char.toLower = ['i', 'n', 's', 'e', 'r', 't'] ∨ verb.map Char.toLower = ['u', 'p', 's', 'e', 'r', 't']) ∧
    (Space b ∧ b ≠ []) ∧ into.map Char.toLower = ['i', 'n', 't', 'o'] ∧ (Space d ∧ d ≠ []) ∧ Space e ∧
    (values = [] ∨ e ≠ [] ∧ ∃ word f, word.map Char.toLower = ['v', 'a', 'l', 'u', 'e', 's'] ∧ Space f ∧ values = word ++ f) ∧
    pre = a ++ (verb ++ (b ++ (into ++ (d ++ (c ++ (e ++ values))))))

theorem skipWs_word (h : word.map Char.toLower = kw) (hkw : ∃ k ks, kw = k :: ks ∧ isWordChar k = true) :
    skipWs (word ++ rest) = word ++ rest := by
  obtain ⟨k, ks, rfl, hk⟩ := hkw
  cases word with
  | nil => cases h
  | cons c word =>
    refine skipWs_cons (visible_of_isWordChar (isWordChar_of_toLower ?_))
    rw [(List.cons.inj h).1]
    exact hk

theorem parseIdentifier_word (hne : c ≠ []) (hc : ∀ x ∈ c, isWordChar x = true)
    (hrest : startsWithWord rest = false) : parseIdentifier (c ++ rest) = some (c, rest) := by
  have htake : (c ++ rest).takeWhile isWordChar = c := by
    rw [List.takeWhile_append_of_pos hc]
    cases rest with
    | nil => exact List.append_nil c
    | cons x rest =>
      have hx : isWordChar x = false := hrest
      rw [List.takeWhile_cons_of_neg (by rw [hx]; decide), List.append_nil]
  have hdrop : (c ++ rest).dropWhile isWordChar = rest := by
    rw [List.dropWhile_append_of_pos hc]
    cases rest with
    | nil => rfl
    | cons x rest =>
      have hx : isWordChar x = false := hrest
      rw [List.dropWhile_cons_of_neg (by rw [hx]; decide)]
  rw [parseIdentifier, htake, hdrop, if_neg hne]

theorem startsWithWord_brace (more : List Char) : startsWithWord ('\x7b' :: more) = false := rfl

theorem startsWithWord_end (h : Space a) (hrest : startsWithWord rest = false) :
    startsWithWord (a ++ rest) = false := by
  by_cases hne : a = []
  · rw [hne]
    exact hrest
  · exact startsWithWord_space h hne

theorem values_skipped (he : Space e)
    (hvalues : values = [] ∨ e ≠ [] ∧ ∃ word f, word.map Char.toLower = ['v', 'a', 'l', 'u', 'e', 's'] ∧ Space f ∧ values = word ++ f) :
    ((consumeKeyword ['v', 'a', 'l', 'u', 'e', 's'] (skipWs (e ++ values ++ '\x7b' :: more))).map skipWs).getD
      (skipWs (e ++ values ++ '\x7b' :: more)) = '\x7b' :: more := by
  have hbrace : skipWs ('\x7b' :: more) = '\x7b' :: more := skipWs_cons (by decide)
  rcases hvalues with rfl | ⟨-, word, f, hword, hf, rfl⟩
  · rw [List.append_nil, skipWs_append he, hbrace]
    have hnone : consumeKeyword ['v', 'a', 'l', 'u', 'e', 's'] ('\x7b' :: more) = none := by
      rw [consumeKeyword, if_neg]
      rintro ⟨hk, -⟩
      exact absurd (List.cons.inj hk).1 (by decide)
    rw [hnone]
    rfl
  · rw [List.append_assoc, skipWs_append he, List.append_assoc, skipWs_word hword ⟨_, _, rfl, by decide⟩,
      consumeKeyword_word hword (startsWithWord_end hf (startsWithWord_brace more))]
    exact (skipWs_append hf).trans hbrace

theorem verb_consumed (h : verb.map Char.toLower = ['i', 'n', 's', 'e', 'r', 't'] ∨ verb.map Char.toLower = ['u', 'p', 's', 'e', 'r', 't'])
    (hrest : startsWithWord rest = false) :
    skipWs (verb ++ rest) = verb ++ rest ∧
    (consumeKeyword ['i', 'n', 's', 'e', 'r', 't'] (verb ++ rest)).or (consumeKeyword ['u', 'p', 's', 'e', 'r', 't'] (verb ++ rest)) =
      some rest := by
  rcases h with h | h
  · refine ⟨skipWs_word h ⟨_, _, rfl, by decide⟩, ?_⟩
    rw [consumeKeyword_word h hrest]
    rfl
  · refine ⟨skipWs_word h ⟨_, _, rfl, by decide⟩, ?_⟩
    have hlength : verb.length = 6 := by
      rw [← @List.length_map _ _ verb Char.toLower, h]
      rfl
    have hother : consumeKeyword ['i', 'n', 's', 'e', 'r', 't'] (verb ++ rest) = none := by
      refine consumeKeyword_none ?_ (by rw [hlength]; decide)
      rw [List.take_of_length_le (by rw [hlength]; decide), h]
      decide
    rw [hother, consumeKeyword_word h hrest]
    rfl

theorem readHead_intro (h : Intro c pre) (hbody : body.head? = some '\x7b') :
    readHead (pre ++ body) = some (c, body) := by
  obtain ⟨⟨hne, hc⟩, a, verb, b, into, d, e, values, ha, hverb, ⟨hb, hbne⟩, hinto, ⟨hd, hdne⟩, he, hvalues, rfl⟩ := h
  obtain ⟨more, rfl⟩ := List.head?_eq_some_iff.1 hbody
  have hassoc : a ++ (verb ++ (b ++ (into ++ (d ++ (c ++ (e ++ values)))))) ++ '\x7b' :: more =
      a ++ (verb ++ (b ++ (into ++ (d ++ (c ++ (e ++ values ++ '\x7b' :: more)))))) := by
    simp only [List.append_assoc]
  have hend : startsWithWord (e ++ values ++ '\x7b' :: more) = false := by
    rw [List.append_assoc]
    rcases hvalues with rfl | ⟨hene, -⟩
    · exact startsWithWord_end he (startsWithWord_brace more)
    · exact startsWithWord_space he hene
  have hname : parseIdentifier (skipWs (d ++ (c ++ (e ++ values ++ '\x7b' :: more)))) = some (c, e ++ values ++ '\x7b' :: more) := by
    have hskip : skipWs (c ++ (e ++ values ++ '\x7b' :: more)) = c ++ (e ++ values ++ '\x7b' :: more) := by
      cases c with
      | nil => exact absurd rfl hne
      | cons x c => exact skipWs_cons (visible_of_isWordChar (hc x List.mem_cons_self))
    rw [skipWs_append hd, hskip, parseIdentifier_word hne hc hend]
  have hword : consumeKeyword ['i', 'n', 't', 'o'] (skipWs (b ++ (into ++ (d ++ (c ++ (e ++ values ++ '\x7b' :: more)))))) =
      some (d ++ (c ++ (e ++ values ++ '\x7b' :: more))) := by
    rw [skipWs_append hb, skipWs_word hinto ⟨_, _, rfl, by decide⟩, consumeKeyword_word hinto (startsWithWord_space hd hdne)]
  obtain ⟨hskip, hconsumed⟩ := verb_consumed hverb
    (@startsWithWord_space b (into ++ (d ++ (c ++ (e ++ values ++ '\x7b' :: more)))) hb hbne)
  unfold readHead
  simp only [hassoc, skipWs_append ha, hskip, hconsumed, Option.bind_eq_bind, Option.bind_some, hword, hname,
    values_skipped he hvalues]
  rfl

/-! ## The whole insert -/

section
variable {α : Type} (fromStr : List Char → Except String α)

/-- Lists of objects give these objects, and anything else that starts like one is an error. -/
def Exact (c pre body : List Char) : Prop :=
  (∀ ts, Listing ObjectText body ts → ∃ vs, ReadAs fromStr ts vs ∧ detectJsonInsert fromStr (pre ++ body) = .ok (some (c, vs))) ∧
  ((∀ ts, ¬ Listing ObjectText body ts) → ∃ e, detectJsonInsert fromStr (pre ++ body) = .error e)

/-- The reader takes every object, and no list of values that it takes has an array in it. -/
def Regular (body : List Char) : Prop :=
  (∀ ts, Listing ObjectText body ts → ∃ vs, ReadAs fromStr ts vs) ∧
  (∀ ts vs, Listing ItemText body ts → ReadAs fromStr ts vs → ∀ t ∈ ts, ObjectText t)

end

section
variable {α : Type} {fromStr : List Char → Except String α}

theorem Listing.mono {P Q : List Char → Prop} {body : List Char} {ts : List (List Char)} (h : Listing P body ts)
    (hpq : ∀ t ∈ ts, P t → Q t) : Listing Q body ts := by
  induction h with
  | one ha ht hb => exact .one ha (hpq _ List.mem_cons_self ht) hb
  | more ha ht hb _ ih => exact .more ha (hpq _ List.mem_cons_self ht) hb (ih fun t hm => hpq t (List.mem_cons_of_mem _ hm))

theorem Listing.item {P : List Char → Prop} {body : List Char} {ts : List (List Char)} (h : Listing P body ts) : ∀ t ∈ ts, P t := by
  induction h with
  | one _ ht _ => exact fun t hm => List.mem_singleton.1 hm ▸ ht
  | more _ ht _ _ ih => exact fun t hm => (List.mem_cons.1 hm).elim (fun he => he ▸ ht) (ih t)

theorem itemText_of_object (h : ObjectText t) : ItemText t := ⟨'\x7b', .inl rfl, h⟩

theorem detect_ok (hsound : ∀ t v, fromStr t = .ok v → Text t) (hpre : Intro c pre)
    (hbody : body.head? = some '\x7b') :
    detectJsonInsert fromStr (pre ++ body) = .ok r ↔
      ∃ ts vs, r = some (c, vs) ∧ Listing ItemText body ts ∧ ReadAs fromStr ts vs := by
  rw [detectJsonInsert, readHead_intro hpre hbody]
  dsimp only
  constructor
  · intro h
    cases hd : documents fromStr body with
    | error e =>
      rw [hd] at h
      cases h
    | ok d =>
      obtain ⟨vs, rest⟩ := d
      rw [hd] at h
      dsimp only at h
      split_ifs at h with hend
      · cases h
        obtain ⟨ts, hlist, hts⟩ := listing_of_documents hsound _ le_rfl hd hend
        exact ⟨ts, vs, rfl, hlist, hts⟩
  · rintro ⟨ts, vs, rfl, hlist, hts⟩
    obtain ⟨rest, hd, hend⟩ := documents_listing hlist hts
    rw [hd]
    dsimp only
    rw [if_pos hend]

/-- **Objects in any JSON spelling are found exactly, and everything else is refused, but for lists with an array after the first
object, and for objects that the JSON reader does not take.** -/
theorem json_insert_exact_iff (hsound : ∀ t v, fromStr t = .ok v → Text t) {c pre body : List Char} (hpre : Intro c pre)
    (hbody : body.head? = some '\x7b') : Exact fromStr c pre body ↔ Regular fromStr body := by
  constructor
  · rintro ⟨hobjects, hother⟩
    refine ⟨fun ts hlist => ?_, fun ts vs hlist hvs => ?_⟩
    · obtain ⟨vs, hvs, -⟩ := hobjects ts hlist
      exact ⟨vs, hvs⟩
    · by_contra harray
      have hnone : ∀ us, ¬ Listing ObjectText body us := by
        intro us hus
        have hsame : ts = us := listing_unique hlist (hus.mono fun t _ => itemText_of_object)
        exact harray fun t ht => hus.item t (hsame ▸ ht)
      obtain ⟨e, he⟩ := hother hnone
      rw [(detect_ok hsound hpre hbody).2 ⟨ts, vs, rfl, hlist, hvs⟩] at he
      cases he
  · rintro ⟨hread, hobject⟩
    refine ⟨fun ts hlist => ?_, fun hnone => ?_⟩
    · obtain ⟨vs, hvs⟩ := hread ts hlist
      exact ⟨vs, hvs, (detect_ok hsound hpre hbody).2 ⟨ts, vs, rfl, hlist.mono fun t _ => itemText_of_object, hvs⟩⟩
    · cases hd : detectJsonInsert fromStr (pre ++ body) with
      | error e => exact ⟨e, rfl⟩
      | ok r =>
        obtain ⟨ts, vs, -, hlist, hvs⟩ := (detect_ok hsound hpre hbody).1 hd
        have hall := hobject ts vs hlist hvs
        exact absurd (hlist.mono fun t ht _ => hall t ht) (hnone ts)

end

/-! ## Two inserts -/

/-- A reader of two texts. -/
def readTwo (t : List Char) : Except String Mongo.Value :=
  if t = ['\x7b', '\x7d'] then .ok (.doc [])
  else if t = ['[', '1', ']'] then .ok (.arr [.num 1])
  else .error "expected value at line 1 column 1"

theorem text_object : Text ['\x7b', '\x7d'] :=
  ⟨[], _, [], fun _ h => absurd h List.not_mem_nil, .emptyObject fun _ h => absurd h List.not_mem_nil,
    fun _ h => absurd h List.not_mem_nil, rfl⟩

theorem text_array : Text ['[', '1', ']'] := by
  have hone : Number ['1'] := by
    refine ⟨[], ['1'], [], [], by decide, .inr ⟨⟨by decide, ?_⟩, by decide⟩, .inl rfl, .inl rfl, rfl⟩
    intro c hc
    rw [List.mem_singleton.1 hc]
    rfl
  have hnil : Blank [] := fun _ h => absurd h List.not_mem_nil
  exact ⟨[], _, [], hnil, .array (.one hnil (.number hone) hnil), hnil, rfl⟩

theorem readTwo_sound (t : List Char) (v : Mongo.Value) (h : readTwo t = .ok v) : Text t := by
  unfold readTwo at h
  split_ifs at h with hobject harray
  · rw [hobject]
    exact text_object
  · rw [harray]
    exact text_array

theorem item_object : ItemText ['\x7b', '\x7d'] := ⟨'\x7b', .inl rfl, @Text.enclosed _ _ (.inl ⟨rfl, rfl⟩) [] text_object⟩

theorem item_array : ItemText ['[', '1', ']'] := ⟨'[', .inr rfl, @Text.enclosed _ _ (.inr ⟨rfl, rfl⟩) ['1'] text_array⟩

theorem space_nil : Space [] := fun _ h => absurd h List.not_mem_nil

theorem space_blank : Space [' '] := by
  intro c hc
  rw [List.mem_singleton.1 hc]
  rfl

def insertIntoC : List Char := ['I', 'N', 'S', 'E', 'R', 'T', ' ', 'I', 'N', 'T', 'O', ' ', 'c', ' ']

theorem intro_insertIntoC : Intro ['c'] insertIntoC where
  name := ⟨by decide, fun x hx => by rw [List.mem_singleton.1 hx]; rfl⟩
  words := ⟨[], ['I', 'N', 'S', 'E', 'R', 'T'], [' '], ['I', 'N', 'T', 'O'], [' '], [' '], [], space_nil, .inl rfl,
    ⟨space_blank, by decide⟩, rfl, ⟨space_blank, by decide⟩, space_blank, .inl rfl, rfl⟩

/-- Two empty objects. -/
theorem objects_exact : Exact readTwo ['c'] insertIntoC ['\x7b', '\x7d', ',', ' ', '\x7b', '\x7d'] := by
  have hlist : Listing ItemText ['\x7b', '\x7d', ',', ' ', '\x7b', '\x7d'] [['\x7b', '\x7d'], ['\x7b', '\x7d']] :=
    .more space_nil item_object space_nil (.one space_blank item_object space_nil)
  refine (json_insert_exact_iff readTwo_sound intro_insertIntoC rfl).2 ⟨fun ts hts => ?_, fun ts vs hts _ t ht => ?_⟩
  · rw [← listing_unique hlist (hts.mono fun t _ => itemText_of_object)]
    exact ⟨[.doc [], .doc []], .cons rfl (.cons rfl .nil)⟩
  · rw [← listing_unique hlist hts] at ht
    have hobject : t = ['\x7b', '\x7d'] := by simpa using ht
    rw [hobject]
    exact @Text.enclosed _ _ (.inl ⟨rfl, rfl⟩) [] text_object

/-- An array after an object: only the first document has to be an object. -/
theorem array_inserted :
    detectJsonInsert readTwo (insertIntoC ++ ['\x7b', '\x7d', ',', '[', '1', ']']) = .ok (some (['c'], [.doc [], .arr [.num 1]])) ∧
    ¬ Exact readTwo ['c'] insertIntoC ['\x7b', '\x7d', ',', '[', '1', ']'] := by
  have hlist : Listing ItemText ['\x7b', '\x7d', ',', '[', '1', ']'] [['\x7b', '\x7d'], ['[', '1', ']']] :=
    .more space_nil item_object space_nil (.one space_nil item_array space_nil)
  have haccepted : detectJsonInsert readTwo (insertIntoC ++ ['\x7b', '\x7d', ',', '[', '1', ']']) =
      .ok (some (['c'], [.doc [], .arr [.num 1]])) :=
    (detect_ok readTwo_sound intro_insertIntoC rfl).2 ⟨_, _, rfl, hlist, .cons rfl (.cons rfl .nil)⟩
  refine ⟨haccepted, fun h => ?_⟩
  have hnone : ∀ ts, ¬ Listing ObjectText ['\x7b', '\x7d', ',', '[', '1', ']'] ts := by
    intro ts hts
    have harray := hts.item ['[', '1', ']']
    rw [← listing_unique hlist (hts.mono fun t _ => itemText_of_object)] at harray
    obtain ⟨-, u, hu⟩ := harray (by decide)
    exact absurd (List.cons.inj hu).1 (by decide)
  obtain ⟨e, he⟩ := h.2 hnone
  rw [haccepted] at he
  cases he

end Sql
