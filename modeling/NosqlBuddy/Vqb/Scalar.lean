import Mathlib
import NosqlBuddy.Lib.Text
import NosqlBuddy.Sql.Expr

/-!
# Values of the query builder

| here | there |
| --- | --- |
| `parseF64` | `str::parse::<f64>` |
| `parseI64` | `str::parse::<i64>` |

A text of an integer becomes the integer when 53 bits hold it (`parseScalarString_integer`).
-/

namespace Vqb

open Mongo (Value)
open Mongo.Value

/-! ## Numbers in a text -/

/-- What a text is as a double. -/
inductive F64 where
  | nan
  | infinite
  | finite (q : ℚ)

/-- `eq_ignore_ascii_case` -/
def caseless (cs : List Char) (word : String) : Bool := cs.map Char.toLower = word.toList

/-- A sign in front, and what follows it. -/
def splitSign : List Char → Bool × List Char
  | '-' :: cs => (true, cs)
  | '+' :: cs => (false, cs)
  | cs => (false, cs)

/-- The integer that the digits write, if there are any and nothing else. -/
def readDigits (cs : List Char) : Option ℕ :=
  if cs ≠ [] ∧ cs.all Char.isDigit then some (Nat.ofDigitChars 10 cs 0) else none

def signed (negative : Bool) (q : ℚ) : ℚ := if negative then -q else q

/-- `e` and an integer, or nothing. -/
def readExponent : List Char → Option ℤ
  | [] => some 0
  | c :: cs =>
    if c = 'e' ∨ c = 'E' then
      let (negative, digits) := splitSign cs
      (readDigits digits).map fun n => if negative then -(n : ℤ) else n
    else none

/-- Digits with a point and an exponent. -/
def readDecimal (cs : List Char) : Option ℚ :=
  let (whole, rest) := cs.span Char.isDigit
  let (fraction, rest) := match rest with
    | '.' :: rest => rest.span Char.isDigit
    | _ => ([], rest)
  if whole = [] ∧ fraction = [] then none
  else (readExponent rest).map fun (e : ℤ) =>
    (Nat.ofDigitChars 10 (whole ++ fraction) 0 : ℚ) * 10 ^ (e - fraction.length)

def parseF64 (cs : List Char) : Option F64 :=
  let (negative, body) := splitSign cs
  if caseless body "inf" || caseless body "infinity" then some .infinite
  else if caseless body "nan" then some .nan
  else (readDecimal body).map fun q =>
    match nearestDouble q with
    | some r => .finite (signed negative r)
    | none => .infinite

def parseI64 (cs : List Char) : Option ℤ :=
  let (negative, digits) := splitSign cs
  match readDigits digits with
  | some n =>
    let i : ℤ := if negative then -(n : ℤ) else n
    if -2 ^ 63 ≤ i ∧ i < 2 ^ 63 then some i else none
  | none => none

/-! ## Coercions -/

/-- `json!(n as i64)` for a whole number in the range of the casts, else `json!(n)` (vqb.rs:235-238). -/
def numberToJson (q : ℚ) : Value :=
  if q.den = 1 ∧ -2 ^ 63 ≤ q ∧ q ≤ 2 ^ 63 then .num (min q (2 ^ 63 - 1)) else .num q

def parseScalarString (s : String) : Value :=
  let trimmed := Text.trim s.toList
  if trimmed = [] then .str s
  else if caseless trimmed "true" then .bool true
  else if caseless trimmed "false" then .bool false
  else if caseless trimmed "null" then .null
  else match parseF64 trimmed with
    | some (.finite q) => numberToJson q
    | _ => .str s

section
variable (today : ℤ)

mutual

def expandDateTags : Value → Value
  | .str s =>
    match s.toList with
    | '#' :: tag =>
      match Sql.resolveDateTag today (String.ofList tag) with
      | some ms => Sql.dateToExtjson ms
      | none => .str s
    | _ => .str s
  | .doc fs => .doc (expandFields fs)
  | .arr vs => .arr (expandList vs)
  | v => v

def expandList : List Value → List Value
  | [] => []
  | v :: vs => expandDateTags v :: expandList vs

def expandFields : List (String × Value) → List (String × Value)
  | [] => []
  | (k, v) :: fs => (k, expandDateTags v) :: expandFields fs

end

def parseScalarValue (raw : Value) : Value :=
  expandDateTags today (match raw with
    | .str s => parseScalarString s
    | other => other)

end

def coerceToStringOrNumber : Value → Value
  | .str s =>
    match parseI64 s.toList with
    | some n => .num n
    | none => .str s
  | other => other

def coerceToNumber : Value → Value
  | .str s =>
    match parseI64 s.toList with
    | some n => .num n
    | none =>
      match parseF64 s.toList with
      | some (.finite q) => .num q
      | some _ => .null
      | none => .str s
  | .num q => .num q
  | _ => .num 0

/-! ## Integers -/

/-- The text writes the integer: a sign or none and digits, with blanks around. -/
def IntegerText (s : String) (n : ℤ) : Prop :=
  ∃ digits, readDigits (splitSign (Text.trim s.toList)).2 = some digits ∧
    n = if (splitSign (Text.trim s.toList)).1 then -(digits : ℤ) else digits

variable {c : Char}

theorem toLower_of_isDigit (h : c.isDigit = true) : c.toLower = c := by
  refine dif_neg fun hc => ?_
  have hdigit : c.val ≤ '9'.val := (by simpa [Char.isDigit] using h : _ ∧ _).2
  have hupper : 'A'.val ≤ c.val := hc.1
  exact absurd (UInt32.le_trans hupper hdigit) (by decide)

variable {cs : List Char}

theorem caseless_of_head (hw : word.toList = d :: ds) (h : c.toLower ≠ d) :
    caseless (c :: cs) word = false := by
  rw [caseless, hw, List.map_cons]
  exact decide_eq_false fun he => h (List.cons.inj he).1

theorem not_word (hc : c.isDigit = true ∨ c = '-' ∨ c = '+') (hw : word.toList = d :: ds) (hd : d.isAlpha = true) : caseless (c :: cs) word = false := by
  refine caseless_of_head hw fun he => ?_
  rcases hc with hc | rfl | rfl
  · rw [toLower_of_isDigit hc] at he
    subst he
    rw [Char.isAlpha, Bool.or_eq_true] at hd
    simp only [Char.isDigit, Char.isUpper, Char.isLower, Bool.and_eq_true, decide_eq_true_eq] at hc hd
    rcases hd with hd | hd
    · exact absurd (UInt32.le_trans hd.1 hc.2) (by decide)
    · exact absurd (UInt32.le_trans hd.1 hc.2) (by decide)
  · subst he
    exact absurd hd (by decide)
  · subst he
    exact absurd hd (by decide)

variable {n : ℕ}

theorem readDigits_some (h : readDigits cs = some n) :
    (∃ c ds, cs = c :: ds) ∧ (∀ c ∈ cs, c.isDigit = true) ∧ Nat.ofDigitChars 10 cs 0 = n := by
  rw [readDigits] at h
  split_ifs at h with hc
  exact ⟨List.exists_cons_of_ne_nil hc.1, List.all_eq_true.1 hc.2, Option.some.inj h⟩

theorem readDecimal_digits (h : readDigits cs = some n) : readDecimal cs = some (n : ℚ) := by
  obtain ⟨⟨c, ds, hcs⟩, hdigits, hn⟩ := readDigits_some h
  have hspan : cs.span Char.isDigit = (cs, []) := by
    rw [List.span_eq_takeWhile_dropWhile, List.takeWhile_eq_self_iff.2 hdigits, List.dropWhile_eq_nil_iff.2 hdigits]
  have hne : cs ≠ [] := by
    rw [hcs]
    exact List.cons_ne_nil c ds
  rw [readDecimal, hspan]
  simp only [hne, false_and, if_false, readExponent, Option.map_some, List.append_nil, List.length_nil, hn]
  norm_num

theorem splitSign_of_ne (hminus : c ≠ '-') (hplus : c ≠ '+') :
    splitSign (c :: cs) = (false, c :: cs) := by
  unfold splitSign
  split
  · next h => exact absurd (List.cons.inj h).1 hminus
  · next h => exact absurd (List.cons.inj h).1 hplus
  · rfl

theorem head_of_splitSign (h : readDigits (splitSign cs).2 = some n) :
    ∃ c ds, cs = c :: ds ∧ (c.isDigit = true ∨ c = '-' ∨ c = '+') := by
  cases cs with
  | nil => cases h
  | cons c ds =>
    by_cases hminus : c = '-'
    · exact ⟨c, ds, rfl, .inr (.inl hminus)⟩
    by_cases hplus : c = '+'
    · exact ⟨c, ds, rfl, .inr (.inr hplus)⟩
    rw [splitSign_of_ne hminus hplus] at h
    exact ⟨c, ds, rfl, .inl ((readDigits_some h).2.1 c List.mem_cons_self)⟩

/-- **The text of an integer becomes the integer that the nearest double is, at most 2^63 - 1.** -/
theorem parseScalarString_integer {s : String} {n : ℤ} (h : IntegerText s n) (hn : n.natAbs ≤ 2 ^ 63) :
    parseScalarString s = .num (min (Binary64.roundedInt n : ℚ) (2 ^ 63 - 1)) := by
  obtain ⟨digits, hread, hvalue⟩ := h
  obtain ⟨c, ds, hcs, hc⟩ := head_of_splitSign hread
  obtain ⟨⟨c', ds', hbody⟩, hdigits, -⟩ := readDigits_some hread
  have hc' : c'.isDigit = true := hdigits c' (hbody ▸ List.mem_cons_self)
  have hround : signed (splitSign (Text.trim s.toList)).1 (Binary64.rounded digits : ℚ) = (Binary64.roundedInt n : ℚ) := by
    rw [hvalue, signed]
    split_ifs
    · rw [Binary64.roundedInt_neg]
      push_cast
      rfl
    · rw [Binary64.roundedInt_natCast]
      push_cast
      rfl
  have hlog : digits.log2 < 1023 := by
    have hle : digits ≤ 2 ^ 63 := by
      split_ifs at hvalue <;> omega
    rcases Nat.eq_zero_or_pos digits with rfl | hpos
    · decide
    · have hlog : digits.log2 < 64 := (Nat.log2_lt (Nat.pos_iff_ne_zero.1 hpos)).2 (by omega)
      omega
  have hparse : parseF64 (Text.trim s.toList) = some (.finite (Binary64.roundedInt n : ℚ)) := by
    have hdecimal := readDecimal_digits hread
    rw [hbody] at hdecimal
    rw [parseF64]
    simp only [hbody, hdecimal, nearestDouble_rounded hlog, hround, Option.map_some]
    rw [not_word (.inl hc') (show "inf".toList = 'i' :: ['n', 'f'] from rfl) rfl,
      not_word (.inl hc') (show "infinity".toList = 'i' :: ['n', 'f', 'i', 'n', 'i', 't', 'y'] from rfl) rfl,
      not_word (.inl hc') (show "nan".toList = 'n' :: ['a', 'n'] from rfl) rfl]
    rfl
  have hle := Binary64.natAbs_roundedInt_le hn
  have hnum : numberToJson (Binary64.roundedInt n : ℚ) = .num (min (Binary64.roundedInt n : ℚ) (2 ^ 63 - 1)) := by
    refine if_pos ⟨rfl, ?_, ?_⟩
    · have hlow : (-2 ^ 63 : ℤ) ≤ Binary64.roundedInt n := by omega
      exact_mod_cast hlow
    · have hhigh : Binary64.roundedInt n ≤ (2 ^ 63 : ℤ) := by omega
      exact_mod_cast hhigh
  unfold parseScalarString
  simp only [hparse, hnum]
  rw [hcs, if_neg (List.cons_ne_nil c ds), not_word hc (show "true".toList = 't' :: ['r', 'u', 'e'] from rfl) rfl,
    not_word hc (show "false".toList = 'f' :: ['a', 'l', 's', 'e'] from rfl) rfl,
    not_word hc (show "null".toList = 'n' :: ['u', 'l', 'l'] from rfl) rfl]
  rfl

end Vqb
