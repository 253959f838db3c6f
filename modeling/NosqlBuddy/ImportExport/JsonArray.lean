import NosqlBuddy.ImportExport.BsonArchive

/-!
# Splitting a JSON array

| here | there |
| --- | --- |
| `JsonArrayReader.rest` | the peeked byte and what the reader still delivers |

`ArrayText false` is an array of elements that are balanced, whatever they are inside. The reader accepts more: elements
without a comma between them, a comma behind the last one, and any text behind the closing bracket (`accepts_iff`).
-/

namespace ImportExport

/-! ## The bytes that matter -/

abbrev quote : UInt8 := 0x22
abbrev comma : UInt8 := 0x2C
abbrev openBracket : UInt8 := 0x5B
abbrev backslash : UInt8 := 0x5C
abbrev closeBracket : UInt8 := 0x5D
abbrev openBrace : UInt8 := 0x7B
abbrev closeBrace : UInt8 := 0x7D

/-- `u8::is_ascii_whitespace`: with the form feed, which JSON does not allow. -/
def isAsciiWhitespace (b : UInt8) : Bool := b == 0x20 || b == 0x09 || b == 0x0A || b == 0x0C || b == 0x0D

def isJsonWhitespace (b : UInt8) : Bool := b == 0x20 || b == 0x09 || b == 0x0A || b == 0x0D

def Opens (b : UInt8) : Prop := b = openBrace ∨ b = openBracket

def Shuts (b : UInt8) : Prop := b = closeBrace ∨ b = closeBracket

/-- What ends an element outside of brackets. -/
def Parts (b : UInt8) : Prop := b = comma ∨ isJsonWhitespace b = true

instance : DecidablePred Opens := fun b => inferInstanceAs (Decidable (b = openBrace ∨ b = openBracket))

instance : DecidablePred Shuts := fun b => inferInstanceAs (Decidable (b = closeBrace ∨ b = closeBracket))

instance : DecidablePred Parts := fun b => inferInstanceAs (Decidable (b = comma ∨ isJsonWhitespace b = true))

/-! ## The reader -/

/-- `scan_value` (json_source.rs:230); the depth is no `i32` here, which would take two billion open brackets. -/
def scanValue (buf : List UInt8) (depth : Nat) (inString escaped : Bool) :
    List UInt8 → Except AppError (List UInt8 × List UInt8)
  | [] =>
    if depth = 0 ∧ inString = false ∧ buf ≠ [] then .ok (buf, [])
    else .error (.validation "unterminated JSON value in array")
  | b :: rest =>
    if inString = true then
      if escaped = true then scanValue (buf ++ [b]) depth true false rest
      else if b = backslash then scanValue (buf ++ [b]) depth true true rest
      else if b = quote then
        if depth = 0 then .ok (buf ++ [b], rest) else scanValue (buf ++ [b]) depth false false rest
      else scanValue (buf ++ [b]) depth true false rest
    else if b = quote then scanValue (buf ++ [b]) depth true escaped rest
    else if Opens b then scanValue (buf ++ [b]) (depth + 1) false escaped rest
    else if Shuts b then
      if depth = 0 then .ok (buf, b :: rest)
      else if depth - 1 = 0 then .ok (buf ++ [b], rest)
      else scanValue (buf ++ [b]) (depth - 1) false escaped rest
    else if Parts b then
      if depth = 0 then .ok (buf, b :: rest) else scanValue (buf ++ [b]) depth false escaped rest
    else scanValue (buf ++ [b]) depth false escaped rest

structure JsonArrayReader where
  rest : List UInt8
  opened : Bool
  finished : Bool
deriving DecidableEq, Repr

def JsonArrayReader.new (input : List UInt8) : JsonArrayReader := ⟨input, false, false⟩

def skipWs (bytes : List UInt8) : List UInt8 := bytes.dropWhile isAsciiWhitespace

/-- The end of `next_raw`: the closing bracket, or a value. -/
def JsonArrayReader.element (r : JsonArrayReader) : Except AppError (Option (List UInt8)) × JsonArrayReader :=
  if (skipWs r.rest).head? = some closeBracket then (.ok none, { r with rest := (skipWs r.rest).tail, finished := true })
  else
    match scanValue [] 0 false false (skipWs r.rest) with
    | .ok (raw, rest) => (.ok (some raw), { r with rest := rest })
    | .error e => (.error e, { r with rest := [] })

/-- `next_raw` (json_source.rs:181). -/
def JsonArrayReader.nextRaw (r : JsonArrayReader) : Except AppError (Option (List UInt8)) × JsonArrayReader :=
  if r.finished then (.ok none, r)
  else if r.opened = false then
    match skipWs r.rest with
    | [] => (.error (.validation "expected JSON array, found empty input"), { r with rest := [] })
    | b :: rest =>
      if b = openBracket then JsonArrayReader.element { r with rest := rest, opened := true }
      else (.error (.validation ("expected JSON array, found '" ++ String.singleton (Char.ofNat b.toNat) ++ "'")), { r with rest := rest })
  else
    match skipWs r.rest with
    | [] => (.error (.validation "unterminated JSON array"), { r with rest := [] })
    | b :: rest =>
      if b = comma then JsonArrayReader.element { r with rest := rest }
      else if b = closeBracket then (.ok none, { r with rest := rest, finished := true })
      else JsonArrayReader.element { r with rest := b :: rest }

/-- The reader, called until it says that the array is over, returned these elements. -/
inductive Drives : JsonArrayReader → List (List UInt8) → Prop where
  | ended {r r' : JsonArrayReader} : r.nextRaw = (.ok none, r') → Drives r []
  | more {r r' : JsonArrayReader} {raw : List UInt8} {raws : List (List UInt8)} :
      r.nextRaw = (.ok (some raw), r') → Drives r' raws → Drives r (raw :: raws)

/-- The elements that an input is split into. An empty one is no JSON, so it is a row error. -/
def Accepts (input : List UInt8) (es : List (List UInt8)) : Prop := Drives (.new input) es ∧ [] ∉ es

/-! ## The grammar -/

def Blank (w : List UInt8) : Prop := ∀ b ∈ w, isAsciiWhitespace b = true

/-- A string behind its opening quote. -/
inductive Quoted : List UInt8 → Prop where
  | close : Quoted [quote]
  | byte {b : UInt8} {q : List UInt8} : b ≠ quote → b ≠ backslash → Quoted q → Quoted (b :: q)
  | escape {b : UInt8} {q : List UInt8} : Quoted q → Quoted (backslash :: b :: q)

/-- Text that ends where it closes the last of that many brackets. -/
inductive Closes : Nat → List UInt8 → Prop where
  | done : Closes 0 []
  | byte {d : Nat} {b : UInt8} {g : List UInt8} : b ≠ quote → ¬ Opens b → ¬ Shuts b → Closes (d + 1) g → Closes (d + 1) (b :: g)
  | string {d : Nat} {q g : List UInt8} : Quoted q → Closes (d + 1) g → Closes (d + 1) (quote :: (q ++ g))
  | opening {d : Nat} {b : UInt8} {g : List UInt8} : Opens b → Closes (d + 2) g → Closes (d + 1) (b :: g)
  | closing {d : Nat} {b : UInt8} {g : List UInt8} : Shuts b → Closes d g → Closes (d + 1) (b :: g)

/-- A byte of a number or a word. -/
def PlainByte (b : UInt8) : Prop := b ≠ quote ∧ ¬ Opens b ∧ ¬ Shuts b ∧ ¬ Parts b

/-- A balanced element, and what follows it: a word goes on as long as it can, a string and a group end themselves. -/
inductive Raw : List UInt8 → List UInt8 → Prop where
  | word {p rest : List UInt8} : p ≠ [] → (∀ b ∈ p, PlainByte b) → (∀ b ∈ rest.head?, Shuts b ∨ Parts b) → Raw p rest
  | string {p q rest : List UInt8} : (∀ b ∈ p, PlainByte b) → Quoted q → Raw (p ++ quote :: q) rest
  | group {p g rest : List UInt8} {b : UInt8} : (∀ b ∈ p, PlainByte b) → Opens b → Closes 1 g → Raw (p ++ b :: g) rest

def Element (e rest : List UInt8) : Prop := Raw e rest ∧ ∀ b ∈ e.head?, isAsciiWhitespace b = false

/-- What follows an element. The lenient rules are no JSON. -/
inductive Rest (lenient : Bool) : List (List UInt8) → List UInt8 → Prop where
  | close {w after : List UInt8} : Blank w → (lenient = true ∨ Blank after) → Rest lenient [] (w ++ closeBracket :: after)
  | next {w w' e s : List UInt8} {es : List (List UInt8)} : Blank w → Blank w' → Element e s → Rest lenient es s →
      Rest lenient (e :: es) (w ++ comma :: (w' ++ (e ++ s)))
  | trailingComma {w w' after : List UInt8} : lenient = true → Blank w → Blank w' →
      Rest lenient [] (w ++ comma :: (w' ++ closeBracket :: after))
  | missingComma {w e s : List UInt8} {es : List (List UInt8)} : lenient = true → Blank w → Element e s → Rest lenient es s →
      Rest lenient (e :: es) (w ++ (e ++ s))

/-- An array of these elements, with white space around it. -/
inductive ArrayText (lenient : Bool) : List (List UInt8) → List UInt8 → Prop where
  | empty {w w' after : List UInt8} : Blank w → Blank w' → (lenient = true ∨ Blank after) →
      ArrayText lenient [] (w ++ openBracket :: (w' ++ closeBracket :: after))
  | filled {w w' e s : List UInt8} {es : List (List UInt8)} : Blank w → Blank w' → Element e s → Rest lenient es s →
      ArrayText lenient (e :: es) (w ++ openBracket :: (w' ++ (e ++ s)))

/-! ## One byte of a value -/

theorem parts_apart (h : Parts b) : b ≠ quote ∧ ¬ Opens b ∧ ¬ Shuts b := by
  rcases h with rfl | h
  · decide
  · simp only [isJsonWhitespace, Bool.or_eq_true, beq_iff_eq] at h
    rcases h with ((rfl | rfl) | rfl) | rfl <;> decide

section
variable {buf : List UInt8} {depth : Nat} {inString escaped : Bool} {b : UInt8} {rest : List UInt8}

theorem scanValue_nil : scanValue buf depth inString escaped [] =
    if depth = 0 ∧ inString = false ∧ buf ≠ [] then .ok (buf, [])
    else .error (.validation "unterminated JSON value in array") := rfl

theorem scanValue_escaped : scanValue buf depth true true (b :: rest) = scanValue (buf ++ [b]) depth true false rest := rfl

theorem scanValue_backslash :
    scanValue buf depth true false (backslash :: rest) = scanValue (buf ++ [backslash]) depth true true rest := rfl

theorem scanValue_endQuote : scanValue buf depth true false (quote :: rest) =
    if depth = 0 then .ok (buf ++ [quote], rest) else scanValue (buf ++ [quote]) depth false false rest := rfl

theorem scanValue_inString (hq : b ≠ quote) (hb : b ≠ backslash) :
    scanValue buf depth true false (b :: rest) = scanValue (buf ++ [b]) depth true false rest :=
  (if_neg hb).trans (if_neg hq)

theorem scanValue_quote :
    scanValue buf depth false false (quote :: rest) = scanValue (buf ++ [quote]) depth true false rest := rfl

theorem scanValue_opens (h : Opens b) :
    scanValue buf depth false false (b :: rest) = scanValue (buf ++ [b]) (depth + 1) false false rest := by
  rcases h with rfl | rfl <;> rfl

theorem scanValue_shuts (h : Shuts b) : scanValue buf depth false false (b :: rest) =
    if depth = 0 then .ok (buf, b :: rest)
    else if depth - 1 = 0 then .ok (buf ++ [b], rest)
    else scanValue (buf ++ [b]) (depth - 1) false false rest := by
  rcases h with rfl | rfl <;> rfl

theorem scanValue_parts (h : Parts b) : scanValue buf depth false false (b :: rest) =
    if depth = 0 then .ok (buf, b :: rest) else scanValue (buf ++ [b]) depth false false rest := by
  obtain ⟨hq, ho, hs⟩ := parts_apart h
  exact (if_neg hq).trans ((if_neg ho).trans ((if_neg hs).trans (if_pos h)))

theorem scanValue_plain (h : PlainByte b) :
    scanValue buf depth false false (b :: rest) = scanValue (buf ++ [b]) depth false false rest :=
  (if_neg h.1).trans ((if_neg h.2.1).trans ((if_neg h.2.2.1).trans (if_neg h.2.2.2)))

end

/-! ## The scanner reads the grammar -/

theorem scanValue_quoted (h : Quoted q) (depth : Nat) (s : List UInt8) : ∀ buf : List UInt8,
    scanValue buf depth true false (q ++ s) =
      if depth = 0 then .ok (buf ++ q, s) else scanValue (buf ++ q) depth false false s := by
  induction h with
  | close => exact fun _ => scanValue_endQuote
  | byte hq hb _ ih =>
    intro buf
    rw [List.cons_append, scanValue_inString hq hb, ih, List.append_assoc, List.singleton_append]
  | escape _ ih =>
    intro buf
    rw [List.cons_append, List.cons_append, scanValue_backslash, scanValue_escaped, ih]
    simp only [List.append_assoc, List.cons_append, List.nil_append]

theorem scanValue_closes (h : Closes d g) (s : List UInt8) : ∀ buf : List UInt8, 0 < d →
    scanValue buf d false false (g ++ s) = .ok (buf ++ g, s) := by
  induction h with
  | done => exact fun _ h => absurd h (Nat.lt_irrefl 0)
  | @byte d b g hq ho hs _ ih =>
    intro buf _
    have hstep : scanValue buf (d + 1) false false (b :: (g ++ s)) = scanValue (buf ++ [b]) (d + 1) false false (g ++ s) := by
      by_cases hp : Parts b
      · rw [scanValue_parts hp, if_neg (Nat.succ_ne_zero d)]
      · exact scanValue_plain ⟨hq, ho, hs, hp⟩
    rw [List.cons_append, hstep, ih _ (Nat.succ_pos d), List.append_assoc, List.singleton_append]
  | @string d q g hq _ ih =>
    intro buf _
    rw [List.cons_append, scanValue_quote, List.append_assoc, scanValue_quoted hq, if_neg (Nat.succ_ne_zero d),
      ih _ (Nat.succ_pos d)]
    simp only [List.append_assoc, List.cons_append, List.nil_append]
  | @opening d b g ho _ ih =>
    intro buf _
    rw [List.cons_append, scanValue_opens ho, ih _ (Nat.succ_pos _), List.append_assoc, List.singleton_append]
  | @closing d b g hs hg ih =>
    intro buf _
    rw [List.cons_append, scanValue_shuts hs, if_neg (Nat.succ_ne_zero d), Nat.add_sub_cancel]
    cases d with
    | zero =>
      cases hg
      rfl
    | succ d => rw [if_neg (Nat.succ_ne_zero d), ih _ (Nat.succ_pos d), List.append_assoc, List.singleton_append]

theorem scanValue_word (s : List UInt8) : ∀ buf : List UInt8, (∀ b ∈ p, PlainByte b) →
    scanValue buf 0 false false (p ++ s) = scanValue (buf ++ p) 0 false false s := by
  induction p with
  | nil =>
    intro buf _
    rw [List.nil_append, List.append_nil]
  | cons b p ih =>
    intro buf h
    rw [List.cons_append, scanValue_plain (h b List.mem_cons_self), ih _ fun c hc => h c (List.mem_cons_of_mem _ hc),
      List.append_assoc, List.singleton_append]

theorem scanValue_stop (h : ∀ b ∈ s.head?, Shuts b ∨ Parts b) (hne : s = [] → buf ≠ []) :
    scanValue buf 0 false false s = .ok (buf, s) := by
  cases s with
  | nil => rw [scanValue_nil, if_pos ⟨rfl, rfl, hne rfl⟩]
  | cons b s =>
    rcases h b rfl with hs | hp
    · rw [scanValue_shuts hs, if_pos rfl]
    · rw [scanValue_parts hp, if_pos rfl]

theorem scanValue_raw (h : Raw e s) : scanValue [] 0 false false (e ++ s) = .ok (e, s) := by
  cases h with
  | word hne hp hrest =>
    rw [scanValue_word _ _ hp, List.nil_append]
    exact scanValue_stop hrest fun _ => hne
  | string hp hq =>
    rw [List.append_assoc, List.cons_append, scanValue_word _ _ hp, scanValue_quote, scanValue_quoted hq, if_pos rfl]
    simp only [List.nil_append, List.append_assoc, List.singleton_append]
  | group hp ho hg =>
    rw [List.append_assoc, List.cons_append, scanValue_word _ _ hp, scanValue_opens ho, scanValue_closes hg _ _ (Nat.succ_pos _)]
    simp only [List.nil_append, List.append_assoc, List.singleton_append]

/-! ## What is read is in the grammar -/

theorem Raw.cons {b : UInt8} {e rest : List UInt8} (hb : PlainByte b) (h : Raw e rest) : Raw (b :: e) rest := by
  have hall : ∀ {p : List UInt8}, (∀ c ∈ p, PlainByte c) → ∀ c ∈ b :: p, PlainByte c := by
    intro p hp c hc
    rcases List.mem_cons.1 hc with rfl | hc
    · exact hb
    · exact hp c hc
  cases h with
  | word hne hp hrest => exact .word (List.cons_ne_nil _ _) (hall hp) hrest
  | @string p q _ hp hq => exact @Raw.string (b :: p) q rest (hall hp) hq
  | @group p g _ c hp ho hg => exact @Raw.group (b :: p) g rest c (hall hp) ho hg

/-- What is still to come of a value, by where the scanner stands in it. -/
def Remaining (depth : Nat) (inString escaped : Bool) (c rest : List UInt8) : Prop :=
  if inString = true then
    ∃ q g, Quoted (if escaped = true then q.tail else q) ∧ (escaped = true → q ≠ []) ∧ c = q ++ g ∧
      if depth = 0 then g = [] else Closes depth g
  else if depth = 0 then Raw c rest ∨ c = [] ∧ ∀ b ∈ rest.head?, Shuts b ∨ Parts b
  else Closes depth c

theorem scanValue_remaining : ∀ (t : List UInt8) {buf : List UInt8} {depth : Nat} {inString escaped : Bool} {raw rest : List UInt8},
    scanValue buf depth inString escaped t = .ok (raw, rest) → (inString = false → escaped = false) →
    ∃ c, raw = buf ++ c ∧ t = c ++ rest ∧ Remaining depth inString escaped c rest
  | [], buf, depth, inString, escaped, raw, rest, h, _ => by
    rw [scanValue_nil] at h
    split_ifs at h with hend
    obtain ⟨rfl, rfl, -⟩ := hend
    cases h
    exact ⟨[], (List.append_nil _).symm, rfl, .inr ⟨rfl, fun b hb => by cases hb⟩⟩
  | b :: t, buf, depth, inString, escaped, raw, rest, h, hesc => by
    -- the value goes on behind the byte
    have hmore : ∀ {depth' : Nat} {inString' escaped' : Bool}, scanValue (buf ++ [b]) depth' inString' escaped' t = .ok (raw, rest) →
        (inString' = false → escaped' = false) →
        (∀ c, Remaining depth' inString' escaped' c rest → Remaining depth inString escaped (b :: c) rest) →
        ∃ c, raw = buf ++ c ∧ b :: t = c ++ rest ∧ Remaining depth inString escaped c rest := by
      intro depth' inString' escaped' h' hesc' hstep
      obtain ⟨c, rfl, rfl, hc⟩ := scanValue_remaining t h' hesc'
      exact ⟨b :: c, by rw [List.append_assoc, List.singleton_append], rfl, hstep c hc⟩
    -- the value is over at the byte or behind it
    have hstop : (raw, rest) = (buf, b :: t) → Remaining depth inString escaped [] (b :: t) →
        ∃ c, raw = buf ++ c ∧ b :: t = c ++ rest ∧ Remaining depth inString escaped c rest := by
      rintro he hr
      obtain ⟨rfl, rfl⟩ := Prod.mk.inj he
      exact ⟨[], (List.append_nil _).symm, rfl, hr⟩
    have hlast : (raw, rest) = (buf ++ [b], t) → Remaining depth inString escaped [b] t →
        ∃ c, raw = buf ++ c ∧ b :: t = c ++ rest ∧ Remaining depth inString escaped c rest := by
      rintro he hr
      obtain ⟨rfl, rfl⟩ := Prod.mk.inj he
      exact ⟨[b], rfl, rfl, hr⟩
    cases inString with
    | true =>
      cases escaped with
      | true =>
        refine hmore (scanValue_escaped ▸ h) (fun he => by cases he) fun c hc => ?_
        obtain ⟨q, g, hq, -, rfl, hg⟩ := hc
        exact ⟨b :: q, g, hq, fun _ => List.cons_ne_nil _ _, rfl, hg⟩
      | false =>
        by_cases hb : b = backslash
        · subst hb
          refine hmore (scanValue_backslash ▸ h) (fun he => by cases he) fun c hc => ?_
          obtain ⟨q, g, hq, hne, rfl, hg⟩ := hc
          cases q with
          | nil => exact absurd rfl (hne rfl)
          | cons d q => exact ⟨backslash :: d :: q, g, .escape hq, fun _ => List.cons_ne_nil _ _, rfl, hg⟩
        by_cases hq : b = quote
        · subst hq
          rw [scanValue_endQuote] at h
          split_ifs at h with hd
          · subst hd
            exact hlast (Except.ok.inj h).symm ⟨[quote], [], .close, fun _ => List.cons_ne_nil _ _, rfl, rfl⟩
          · refine hmore h (fun _ => rfl) fun c hc => ⟨[quote], c, .close, fun _ => List.cons_ne_nil _ _, rfl, ?_⟩
            rw [if_neg hd]
            exact (if_neg hd).mp hc
        · refine hmore (scanValue_inString hq hb ▸ h) (fun he => by cases he) fun c hc => ?_
          obtain ⟨q, g, hquoted, -, rfl, hg⟩ := hc
          exact ⟨b :: q, g, .byte hq hb hquoted, fun _ => List.cons_ne_nil _ _, rfl, hg⟩
    | false =>
      obtain rfl := hesc rfl
      have hplain : ∀ {c : List UInt8}, PlainByte b → Remaining depth false false c rest → Remaining depth false false (b :: c) rest := by
        intro c hb hc
        cases depth with
        | zero =>
          rcases hc with hraw | ⟨rfl, hhead⟩
          · exact .inl (hraw.cons hb)
          · exact .inl (.word (List.cons_ne_nil _ _) (fun d hd => List.mem_singleton.1 hd ▸ hb) hhead)
        | succ d => exact .byte hb.1 hb.2.1 hb.2.2.1 hc
      by_cases hq : b = quote
      · subst hq
        refine hmore (scanValue_quote ▸ h) (fun he => by cases he) fun c hc => ?_
        obtain ⟨q, g, hquoted, -, rfl, hg⟩ := hc
        cases depth with
        | zero =>
          obtain rfl : g = [] := hg
          rw [List.append_nil]
          exact .inl (@Raw.string [] q rest (fun _ hd => absurd hd List.not_mem_nil) hquoted)
        | succ d => exact .string hquoted hg
      by_cases ho : Opens b
      · refine hmore (scanValue_opens ho ▸ h) (fun _ => rfl) fun c hc => ?_
        cases depth with
        | zero => exact .inl (@Raw.group [] c rest b (fun _ hd => absurd hd List.not_mem_nil) ho hc)
        | succ d => exact .opening ho hc
      by_cases hs : Shuts b
      · rw [scanValue_shuts hs] at h
        split_ifs at h with hzero hone
        · subst hzero
          exact hstop (Except.ok.inj h).symm (.inr ⟨rfl, fun d hd => Option.some.inj hd ▸ .inl hs⟩)
        · obtain rfl : depth = 0 + 1 := by omega
          exact hlast (Except.ok.inj h).symm (.closing hs .done)
        · obtain ⟨d, rfl⟩ : ∃ d, depth = d + 1 + 1 := ⟨depth - 2, by omega⟩
          exact hmore h (fun _ => rfl) fun c hc => .closing hs hc
      by_cases hp : Parts b
      · rw [scanValue_parts hp] at h
        split_ifs at h with hzero
        · subst hzero
          exact hstop (Except.ok.inj h).symm (.inr ⟨rfl, fun d hd => Option.some.inj hd ▸ .inr hp⟩)
        · obtain ⟨d, rfl⟩ : ∃ d, depth = d + 1 := ⟨depth - 1, by omega⟩
          exact hmore h (fun _ => rfl) fun c hc => .byte hq ho hs hc
      · exact hmore (scanValue_plain ⟨hq, ho, hs, hp⟩ ▸ h) (fun _ => rfl) fun c => hplain ⟨hq, ho, hs, hp⟩

/-- What `scan_value` returns: a balanced element, or nothing in front of a byte that can begin none. -/
theorem scanValue_ok (h : scanValue [] 0 false false t = .ok (raw, rest)) :
    t = raw ++ rest ∧ (Raw raw rest ∨ raw = [] ∧ ∀ b ∈ rest.head?, Shuts b ∨ Parts b) := by
  obtain ⟨c, rfl, rfl, hc⟩ := scanValue_remaining t h fun _ => rfl
  exact ⟨rfl, hc⟩

/-! ## One call -/

theorem skipWs_blank (hw : Blank w) (ht : ∀ b ∈ t.head?, isAsciiWhitespace b = false) : skipWs (w ++ t) = t := by
  rw [skipWs, List.dropWhile_append_of_pos hw]
  cases t with
  | nil => rfl
  | cons b t => exact List.dropWhile_cons_of_neg (by simp [ht b rfl])

theorem exists_blank (t : List UInt8) :
    ∃ w u, Blank w ∧ t = w ++ u ∧ skipWs t = u ∧ ∀ b ∈ u.head?, isAsciiWhitespace b = false := by
  refine ⟨t.takeWhile isAsciiWhitespace, skipWs t, fun b hb => List.all_eq_true.1 List.all_takeWhile b hb,
    List.takeWhile_append_dropWhile.symm, rfl, fun b hb => ?_⟩
  have hne : skipWs t ≠ [] := fun he => by rw [he] at hb; cases hb
  have hhead := List.head_dropWhile_not isAsciiWhitespace hne
  rw [List.head?_eq_some_head hne] at hb
  exact Option.some.inj hb ▸ hhead

theorem Raw.head (h : Raw e rest) : ∃ b e', e = b :: e' ∧ b ≠ comma ∧ b ≠ closeBracket := by
  have hplain : ∀ {p : List UInt8} {b : UInt8} {tail : List UInt8}, (∀ c ∈ p, PlainByte c) → b ≠ comma ∧ b ≠ closeBracket →
      ∃ c e', p ++ b :: tail = c :: e' ∧ c ≠ comma ∧ c ≠ closeBracket := by
    intro p b tail hp hb
    cases p with
    | nil => exact ⟨b, tail, rfl, hb⟩
    | cons c p =>
      obtain ⟨-, -, hs, hparts⟩ := hp c List.mem_cons_self
      exact ⟨c, p ++ b :: tail, rfl, fun he => hparts (.inl he), fun he => hs (.inr he)⟩
  cases h with
  | word hne hp =>
    cases e with
    | nil => exact absurd rfl hne
    | cons c p =>
      obtain ⟨-, -, hs, hparts⟩ := hp c List.mem_cons_self
      exact ⟨c, p, rfl, fun he => hparts (.inl he), fun he => hs (.inr he)⟩
  | string hp _ => exact hplain hp (by decide)
  | group hp ho _ =>
    refine hplain hp ?_
    rcases ho with rfl | rfl <;> decide

section
variable {w u : List UInt8} {b : UInt8} {opened finished : Bool}

theorem element_close (hw : Blank w) (after : List UInt8) :
    JsonArrayReader.element ⟨w ++ closeBracket :: after, opened, finished⟩ = (.ok none, ⟨after, opened, true⟩) := by
  have hskip : skipWs (w ++ closeBracket :: after) = closeBracket :: after :=
    skipWs_blank hw fun b hb => Option.some.inj hb ▸ rfl
  unfold JsonArrayReader.element
  dsimp only
  rw [hskip]
  exact if_pos rfl

theorem element_raw {e s : List UInt8} (hw : Blank w) (he : Element e s) :
    JsonArrayReader.element ⟨w ++ (e ++ s), opened, finished⟩ = (.ok (some e), ⟨s, opened, finished⟩) := by
  obtain ⟨c, e', rfl, -, hclose⟩ := he.1.head
  have hskip : skipWs (w ++ (c :: e' ++ s)) = c :: e' ++ s := skipWs_blank hw fun b hb => he.2 b hb
  have hopen : (c :: e' ++ s).head? ≠ some closeBracket := fun hh => hclose (Option.some.inj hh)
  unfold JsonArrayReader.element
  dsimp only
  rw [hskip, if_neg hopen, scanValue_raw he.1]

theorem element_none {r r' : JsonArrayReader} (h : r.element = (.ok none, r')) :
    ∃ w after, Blank w ∧ r.rest = w ++ closeBracket :: after := by
  obtain ⟨w, u, hw, hrest, hskip, -⟩ := exists_blank r.rest
  unfold JsonArrayReader.element at h
  rw [hskip] at h
  split_ifs at h with hhead
  · obtain ⟨after, rfl⟩ := List.head?_eq_some_iff.1 hhead
    exact ⟨w, after, hw, hrest⟩
  · split at h <;> cases h

theorem element_some {r r' : JsonArrayReader} {raw : List UInt8} (h : r.element = (.ok (some raw), r')) :
    ∃ w, Blank w ∧ r.rest = w ++ (raw ++ r'.rest) ∧ r' = { r with rest := r'.rest } ∧
      (Element raw r'.rest ∨ raw = [] ∧ ∀ b ∈ r'.rest.head?, b = closeBrace ∨ b = comma) := by
  obtain ⟨w, u, hw, hrest, hskip, hhead⟩ := exists_blank r.rest
  unfold JsonArrayReader.element at h
  rw [hskip] at h
  by_cases hclose : u.head? = some closeBracket
  · rw [if_pos hclose] at h
    cases h
  rw [if_neg hclose] at h
  split at h
  · next raw' rest' hscan =>
    obtain ⟨hraw, rfl⟩ := Prod.mk.inj h
    obtain rfl := Option.some.inj (Except.ok.inj hraw)
    obtain ⟨rfl, hcases⟩ := scanValue_ok hscan
    refine ⟨w, hw, hrest, rfl, ?_⟩
    rcases hcases with hraw | ⟨rfl, hstop⟩
    · obtain ⟨c, e', rfl, -, -⟩ := hraw.head
      exact .inl ⟨hraw, hhead⟩
    · refine .inr ⟨rfl, fun b hb => ?_⟩
      -- the byte is no white space, and the closing bracket was not there
      rcases hstop b hb with (rfl | rfl) | rfl | hws
      · exact .inl rfl
      · exact absurd hb hclose
      · exact .inr rfl
      · have hascii : isAsciiWhitespace b = true := by
          simp only [isJsonWhitespace, Bool.or_eq_true] at hws
          simp only [isAsciiWhitespace, Bool.or_eq_true]
          tauto
        exact absurd (hhead b hb) (by simp [hascii])
  · cases h

theorem nextRaw_comma (hw : Blank w) (t : List UInt8) :
    JsonArrayReader.nextRaw ⟨w ++ comma :: t, true, false⟩ = JsonArrayReader.element ⟨t, true, false⟩ := by
  have hskip : skipWs (w ++ comma :: t) = comma :: t := skipWs_blank hw fun b hb => Option.some.inj hb ▸ rfl
  unfold JsonArrayReader.nextRaw
  dsimp only
  rw [hskip]
  rfl

theorem nextRaw_close (hw : Blank w) (after : List UInt8) :
    JsonArrayReader.nextRaw ⟨w ++ closeBracket :: after, true, false⟩ = (.ok none, ⟨after, true, true⟩) := by
  have hskip : skipWs (w ++ closeBracket :: after) = closeBracket :: after :=
    skipWs_blank hw fun b hb => Option.some.inj hb ▸ rfl
  unfold JsonArrayReader.nextRaw
  dsimp only
  rw [hskip]
  rfl

theorem nextRaw_other (hw : Blank w) (hb : isAsciiWhitespace b = false) (hcomma : b ≠ comma) (hclose : b ≠ closeBracket)
    (t : List UInt8) :
    JsonArrayReader.nextRaw ⟨w ++ b :: t, true, false⟩ = JsonArrayReader.element ⟨b :: t, true, false⟩ := by
  have hskip : skipWs (w ++ b :: t) = b :: t := skipWs_blank hw fun c hc => Option.some.inj hc ▸ hb
  unfold JsonArrayReader.nextRaw
  dsimp only
  rw [hskip]
  exact (if_neg hcomma).trans (if_neg hclose)

theorem nextRaw_open (hw : Blank w) (t : List UInt8) :
    JsonArrayReader.nextRaw ⟨w ++ openBracket :: t, false, false⟩ = JsonArrayReader.element ⟨t, true, false⟩ := by
  have hskip : skipWs (w ++ openBracket :: t) = openBracket :: t := skipWs_blank hw fun b hb => Option.some.inj hb ▸ rfl
  unfold JsonArrayReader.nextRaw
  dsimp only
  rw [hskip]
  rfl

theorem nextRaw_first (h : JsonArrayReader.nextRaw ⟨t, false, false⟩ = (.ok o, r')) :
    ∃ w u, Blank w ∧ t = w ++ openBracket :: u ∧ JsonArrayReader.element ⟨u, true, false⟩ = (.ok o, r') := by
  obtain ⟨w, u, hw, rfl, hskip, -⟩ := exists_blank t
  unfold JsonArrayReader.nextRaw at h
  dsimp only at h
  rw [hskip] at h
  cases u with
  | nil => cases h
  | cons b u =>
    by_cases hb : b = openBracket
    · subst hb
      exact ⟨w, u, hw, rfl, h⟩
    · rw [if_pos rfl] at h
      dsimp only at h
      rw [if_neg hb] at h
      cases h

theorem nextRaw_later (h : JsonArrayReader.nextRaw ⟨t, true, false⟩ = (.ok o, r')) :
    ∃ w b u, Blank w ∧ isAsciiWhitespace b = false ∧ t = w ++ b :: u ∧
      (b = comma ∧ JsonArrayReader.element ⟨u, true, false⟩ = (.ok o, r') ∨
       b = closeBracket ∧ o = none ∨
       b ≠ comma ∧ b ≠ closeBracket ∧ JsonArrayReader.element ⟨b :: u, true, false⟩ = (.ok o, r')) := by
  obtain ⟨w, u, hw, rfl, hskip, hhead⟩ := exists_blank t
  cases u with
  | nil =>
    unfold JsonArrayReader.nextRaw at h
    dsimp only at h
    rw [hskip] at h
    cases h
  | cons b u =>
    refine ⟨w, b, u, hw, hhead b rfl, rfl, ?_⟩
    by_cases hcomma : b = comma
    · subst hcomma
      rw [nextRaw_comma hw] at h
      exact .inl ⟨rfl, h⟩
    by_cases hclose : b = closeBracket
    · subst hclose
      rw [nextRaw_close hw] at h
      exact .inr (.inl ⟨rfl, (Except.ok.inj (Prod.mk.inj h).1).symm⟩)
    · rw [nextRaw_other hw (hhead b rfl) hcomma hclose] at h
      exact .inr (.inr ⟨hcomma, hclose, h⟩)

end

/-! ## Every run -/

theorem element_ne_nil (h : Element e s) : e ≠ [] := by
  obtain ⟨b, e', rfl, -⟩ := h.1.head
  exact List.cons_ne_nil _ _

theorem rest_of_drives {r : JsonArrayReader} {es : List (List UInt8)} (h : Drives r es) :
    ∀ {t : List UInt8}, r = ⟨t, true, false⟩ → [] ∉ es → Rest true es t := by
  induction h with
  | ended hnext =>
    rintro t rfl -
    obtain ⟨w, b, u, hw, hb, rfl, ⟨rfl, hel⟩ | ⟨rfl, -⟩ | ⟨-, hclose, hel⟩⟩ := nextRaw_later hnext
    · obtain ⟨w', after, hw', he⟩ := element_none hel
      obtain rfl : u = w' ++ closeBracket :: after := he
      exact .trailingComma rfl hw hw'
    · exact .close hw (.inl rfl)
    · obtain ⟨w', after, hw', he⟩ := element_none hel
      cases w' with
      | nil => exact absurd (List.cons.inj he).1 hclose
      | cons c w' =>
        rw [(List.cons.inj he).1, hw' c List.mem_cons_self] at hb
        cases hb
  | @more r r' raw raws hnext hdrives ih =>
    rintro t rfl hne
    have hraw : raw ≠ [] := fun he => hne (he ▸ List.mem_cons_self)
    have hraws : [] ∉ raws := fun hm => hne (List.mem_cons_of_mem _ hm)
    obtain ⟨w, b, u, hw, hb, rfl, ⟨rfl, hel⟩ | ⟨-, hnone⟩ | ⟨-, -, hel⟩⟩ := nextRaw_later hnext
    · obtain ⟨w', hw', he, hr', hcases⟩ := element_some hel
      obtain rfl : u = w' ++ (raw ++ r'.rest) := he
      have helement := hcases.resolve_right fun h => hraw h.1
      exact .next hw hw' helement (ih hr' hraws)
    · cases hnone
    · obtain ⟨w', hw', he, hr', hcases⟩ := element_some hel
      have helement := hcases.resolve_right fun h => hraw h.1
      cases w' with
      | nil =>
        have heq : b :: u = raw ++ r'.rest := he
        rw [heq]
        exact .missingComma rfl hw helement (ih hr' hraws)
      | cons c w' =>
        rw [(List.cons.inj he).1, hw' c List.mem_cons_self] at hb
        cases hb

theorem drives_of_rest (h : Rest true es t) :
    Drives ⟨t, true, false⟩ es ∧ [] ∉ es := by
  have hcons : ∀ {e s : List UInt8} {es : List (List UInt8)}, Element e s → [] ∉ es → [] ∉ e :: es := by
    intro e s es he hes hm
    rcases List.mem_cons.1 hm with heq | hm
    · exact element_ne_nil he heq.symm
    · exact hes hm
  induction h with
  | close hw _ => exact ⟨.ended (nextRaw_close hw _), List.not_mem_nil⟩
  | next hw hw' he _ ih => exact ⟨.more ((nextRaw_comma hw _).trans (element_raw hw' he)) ih.1, hcons he ih.2⟩
  | trailingComma _ hw hw' => exact ⟨.ended ((nextRaw_comma hw _).trans (element_close hw' _)), List.not_mem_nil⟩
  | @missingComma w e s es _ hw he _ ih =>
    refine ⟨.more ?_ ih.1, hcons he ih.2⟩
    obtain ⟨b, e', rfl, hcomma, hclose⟩ := he.1.head
    rw [List.cons_append, nextRaw_other hw (he.2 b rfl) hcomma hclose]
    exact @element_raw [] true false (b :: e') s (fun c hc => absurd hc List.not_mem_nil) he

theorem accepts_iff {input : List UInt8} {es : List (List UInt8)} : Accepts input es ↔ ArrayText true es input := by
  constructor
  · rintro ⟨hdrives, hne⟩
    cases hdrives with
    | ended hnext =>
      obtain ⟨w, u, hw, rfl, hel⟩ := nextRaw_first hnext
      obtain ⟨w', after, hw', he⟩ := element_none hel
      obtain rfl : u = w' ++ closeBracket :: after := he
      exact .empty hw hw' (.inl rfl)
    | @more _ r' raw raws hnext hrest =>
      obtain ⟨w, u, hw, rfl, hel⟩ := nextRaw_first hnext
      obtain ⟨w', hw', he, hr', hcases⟩ := element_some hel
      obtain rfl : u = w' ++ (raw ++ r'.rest) := he
      have helement := hcases.resolve_right fun h => hne (h.1 ▸ List.mem_cons_self)
      exact .filled hw hw' helement (rest_of_drives hrest hr' fun hm => hne (List.mem_cons_of_mem _ hm))
  · intro h
    cases h with
    | empty hw hw' _ => exact ⟨.ended ((nextRaw_open hw _).trans (element_close hw' _)), List.not_mem_nil⟩
    | filled hw hw' he hrest =>
      obtain ⟨hdrives, hne⟩ := drives_of_rest hrest
      refine ⟨.more ((nextRaw_open hw _).trans (element_raw hw' he)) hdrives, fun hm => ?_⟩
      rcases List.mem_cons.1 hm with heq | hm
      · exact element_ne_nil he heq.symm
      · exact hne hm

theorem Rest.lenient (h : Rest false es t) : Rest true es t := by
  induction h with
  | close hw _ => exact .close hw (.inl rfl)
  | next hw hw' he _ ih => exact .next hw hw' he ih
  | trailingComma h => cases h
  | missingComma h => cases h

theorem ArrayText.lenient (h : ArrayText false es t) : ArrayText true es t := by
  cases h with
  | empty hw hw' _ => exact .empty hw hw' (.inl rfl)
  | filled hw hw' he hrest => exact .filled hw hw' he hrest.lenient

/-- Some comma is missing or comes last, or there is text behind the closing bracket. -/
def Sloppy (input : List UInt8) : Prop := ∃ es, ArrayText true es input ∧ ¬ ArrayText false es input

/-- **An input is split** into elements exactly when it is an array of them, unless a comma is missing or comes last in it or
text follows its closing bracket: then it is split nevertheless. -/
theorem split_exact_iff (input : List UInt8) :
    (∀ es, Accepts input es ↔ ArrayText false es input) ↔ ¬ Sloppy input := by
  constructor
  · rintro h ⟨es, hlenient, hstrict⟩
    exact hstrict ((h es).1 (accepts_iff.2 hlenient))
  · intro h es
    refine ⟨fun hacc => ?_, fun hstrict => accepts_iff.2 hstrict.lenient⟩
    by_contra hstrict
    exact h ⟨es, accepts_iff.1 hacc, hstrict⟩

/-! ### Two texts that are no arrays -/

theorem blank_append_inj (hw : Blank w) (hb : isAsciiWhitespace b = false)
    (h : b :: t = w ++ u) : w = [] ∧ u = b :: t := by
  cases w with
  | nil => exact ⟨rfl, h.symm⟩
  | cons c w =>
    obtain ⟨rfl, -⟩ := List.cons.inj h
    rw [hw b List.mem_cons_self] at hb
    cases hb

theorem arrayText_nil (h : ArrayText false [] t) :
    ∃ w w' after, Blank w ∧ Blank w' ∧ Blank after ∧ t = w ++ openBracket :: (w' ++ closeBracket :: after) := by
  cases h with
  | empty hw hw' hafter => exact ⟨_, _, _, hw, hw', hafter.resolve_left (by decide), rfl⟩

theorem arrayText_singleton (h : ArrayText false [e] t) : ∃ w w' v after, Blank w ∧ Blank w' ∧ Blank v ∧
    Element e (v ++ closeBracket :: after) ∧ t = w ++ openBracket :: (w' ++ (e ++ (v ++ closeBracket :: after))) := by
  cases h with
  | filled hw hw' he hrest =>
    cases hrest with
    | close hv _ => exact ⟨_, _, _, _, hw, hw', hv, he, rfl⟩
    | trailingComma h => cases h

/-- `[]x` is taken for an empty array, and `[{},]` for an array of one element. -/
theorem sloppy_accepted :
    ¬ (∀ es, Accepts [openBracket, closeBracket, 0x78] es ↔ ArrayText false es [openBracket, closeBracket, 0x78]) ∧
    ¬ (∀ es, Accepts [openBracket, openBrace, closeBrace, comma, closeBracket] es ↔
      ArrayText false es [openBracket, openBrace, closeBrace, comma, closeBracket]) := by
  constructor
  · intro h
    have hacc : Accepts [openBracket, closeBracket, 0x78] [] := ⟨.ended rfl, List.not_mem_nil⟩
    obtain ⟨w, w', after, hw, hw', hafter, heq⟩ := arrayText_nil ((h []).1 hacc)
    obtain ⟨-, hinner⟩ := blank_append_inj hw rfl heq
    obtain ⟨-, hclose⟩ := blank_append_inj hw' rfl (List.cons.inj hinner).2.symm
    rw [(List.cons.inj hclose).2] at hafter
    exact absurd (hafter 0x78 List.mem_cons_self) (by decide)
  · intro h
    have hacc : Accepts [openBracket, openBrace, closeBrace, comma, closeBracket] [[openBrace, closeBrace]] :=
      ⟨.more rfl (.ended rfl), by decide⟩
    obtain ⟨w, w', v, after, hw, hw', hv, he, heq⟩ := arrayText_singleton ((h _).1 hacc)
    obtain ⟨-, hinner⟩ := blank_append_inj hw rfl heq
    obtain ⟨-, helement⟩ := blank_append_inj hw' rfl (List.cons.inj hinner).2.symm
    -- the comma is neither white space nor the closing bracket
    obtain ⟨-, hcomma⟩ := blank_append_inj hv rfl (List.cons.inj (List.cons.inj helement).2).2.symm
    exact absurd (List.cons.inj hcomma).1 (by decide)

end ImportExport
