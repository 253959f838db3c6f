import Mathlib.Data.List.Basic

/-!
# The grammar of JSON

Texts as lists of characters: white space, numbers, strings with their escapes, arrays and objects. `Value.induct` is the rule
for what looks at a text one character, one string and one pair of brackets at a time, as a scanner does that only counts
brackets: what holds of plain characters, of strings and of whatever it holds of between brackets holds of every value.
-/

namespace JsonGrammar

def isBlank (c : Char) : Bool := c == ' ' || c == '\t' || c == '\n' || c == '\r'

def Blank (t : List Char) : Prop := ∀ c ∈ t, isBlank c = true

def isHexDigit (c : Char) : Bool := c.isDigit || ('a' ≤ c && c ≤ 'f') || ('A' ≤ c && c ≤ 'F')

/-- What stands between the quotes of a string. -/
inductive Body : List Char → Prop
  | nil : Body []
  | char {c t} : c ≠ '"' → c ≠ '\\' → 0x20 ≤ c.toNat → Body t → Body (c :: t)
  | escape {c t} : c ∈ ['"', '\\', '/', 'b', 'f', 'n', 'r', 't'] → Body t → Body ('\\' :: c :: t)
  | unicode {h t} : h.length = 4 → (∀ c ∈ h, isHexDigit c = true) → Body t → Body ('\\' :: 'u' :: (h ++ t))

def Digits (t : List Char) : Prop := t ≠ [] ∧ ∀ c ∈ t, c.isDigit = true

def Integer (t : List Char) : Prop := t = ['0'] ∨ Digits t ∧ t.head? ≠ some '0'

def Fraction (t : List Char) : Prop := t = [] ∨ ∃ ds, Digits ds ∧ t = '.' :: ds

def Exponent (t : List Char) : Prop :=
  t = [] ∨ ∃ e sign ds, (e = 'e' ∨ e = 'E') ∧ sign ∈ [[], ['+'], ['-']] ∧ Digits ds ∧ t = e :: (sign ++ ds)

def Number (t : List Char) : Prop :=
  ∃ sign int frac exp, sign ∈ [[], ['-']] ∧ Integer int ∧ Fraction frac ∧ Exponent exp ∧ t = sign ++ int ++ frac ++ exp

def Literal (t : List Char) : Prop := t ∈ [['t', 'r', 'u', 'e'], ['f', 'a', 'l', 's', 'e'], ['n', 'u', 'l', 'l']]

mutual

inductive Value : List Char → Prop
  | literal {t} : Literal t → Value t
  | number {t} : Number t → Value t
  | string {t} : Body t → Value ('"' :: t ++ ['"'])
  | emptyArray {t} : Blank t → Value ('[' :: t ++ [']'])
  | array {t} : Elements t → Value ('[' :: t ++ [']'])
  | emptyObject {t} : Blank t → Value ('\x7b' :: t ++ ['\x7d'])
  | object {t} : Members t → Value ('\x7b' :: t ++ ['\x7d'])

inductive Elements : List Char → Prop
  | one {a t b} : Blank a → Value t → Blank b → Elements (a ++ t ++ b)
  | more {a t b ts} : Blank a → Value t → Blank b → Elements ts → Elements (a ++ t ++ b ++ ',' :: ts)

inductive Members : List Char → Prop
  | one {a k b c t d} : Blank a → Body k → Blank b → Blank c → Value t → Blank d →
      Members (a ++ ('"' :: k ++ ['"']) ++ b ++ ':' :: (c ++ t ++ d))
  | more {a k b c t d ts} : Blank a → Body k → Blank b → Blank c → Value t → Blank d → Members ts →
      Members (a ++ ('"' :: k ++ ['"']) ++ b ++ ':' :: (c ++ t ++ d) ++ ',' :: ts)

end

/-- A JSON text: a value with white space around it. -/
def Text (t : List Char) : Prop := ∃ a u b, Blank a ∧ Value u ∧ Blank b ∧ t = a ++ u ++ b

/-- The two kinds of brackets. -/
def Brackets (op cl : Char) : Prop := op = '\x7b' ∧ cl = '\x7d' ∨ op = '[' ∧ cl = ']'

/-- A value whose text starts and ends with these brackets. -/
def Enclosed (op cl : Char) (t : List Char) : Prop := Value t ∧ ∃ u, t = op :: u ++ [cl]

def ObjectText (t : List Char) : Prop := Enclosed '\x7b' '\x7d' t

def ArrayText (t : List Char) : Prop := Enclosed '[' ']' t

/-! ## What a scanner sees -/

/-- A character that is no quote, no escape and no bracket. -/
def Plain (c : Char) : Prop := c ∉ ['"', '\\', '[', ']', '\x7b', '\x7d']

theorem Blank.plain (h : Blank t) : ∀ c ∈ t, Plain c := by
  intro c hc hmem
  have hblank := h c hc
  simp only [List.mem_cons, List.not_mem_nil, or_false] at hmem
  rcases hmem with rfl | rfl | rfl | rfl | rfl | rfl <;> exact absurd hblank (by decide)

theorem Digits.plain (h : Digits t) : ∀ c ∈ t, Plain c := by
  intro c hc hmem
  have hdigit := h.2 c hc
  simp only [List.mem_cons, List.not_mem_nil, or_false] at hmem
  rcases hmem with rfl | rfl | rfl | rfl | rfl | rfl <;> exact absurd hdigit (by decide)

theorem Number.plain (h : Number t) : ∀ c ∈ t, Plain c := by
  obtain ⟨sign, int, frac, exp, hsign, hint, hfrac, hexp, rfl⟩ := h
  intro c hc
  simp only [List.mem_append] at hc
  rcases hc with ((hc | hc) | hc) | hc
  · simp only [List.mem_cons, List.not_mem_nil, or_false] at hsign
    rcases hsign with rfl | rfl
    · exact absurd hc List.not_mem_nil
    · rw [List.mem_singleton.1 hc]
      unfold Plain
      decide
  · rcases hint with rfl | ⟨hdigits, -⟩
    · rw [List.mem_singleton.1 hc]
      unfold Plain
      decide
    · exact hdigits.plain c hc
  · rcases hfrac with rfl | ⟨ds, hdigits, rfl⟩
    · exact absurd hc List.not_mem_nil
    · rcases List.mem_cons.1 hc with rfl | hc
      · unfold Plain
        decide
      · exact hdigits.plain c hc
  · rcases hexp with rfl | ⟨e, sgn, ds, he, hsgn, hdigits, rfl⟩
    · exact absurd hc List.not_mem_nil
    · simp only [List.mem_cons, List.mem_append, List.not_mem_nil, or_false] at hc hsgn
      rcases hc with rfl | hc | hc
      · rcases he with rfl | rfl <;>
        · unfold Plain
          decide
      · rcases hsgn with rfl | rfl | rfl
        · exact absurd hc List.not_mem_nil
        all_goals
          rw [List.mem_singleton.1 hc]
          unfold Plain
          decide
      · exact hdigits.plain c hc

theorem Literal.plain (h : Literal t) : ∀ c ∈ t, Plain c := by
  intro c hc hmem
  simp only [Literal, List.mem_cons, List.not_mem_nil, or_false] at h
  have hletter : c.isAlpha = true := by
    rcases h with rfl | rfl | rfl
    all_goals
      simp only [List.mem_cons, List.not_mem_nil, or_false] at hc
      rcases hc with rfl | rfl | rfl | rfl | rfl <;> rfl
  simp only [List.mem_cons, List.not_mem_nil, or_false] at hmem
  rcases hmem with rfl | rfl | rfl | rfl | rfl | rfl <;> exact absurd hletter (by decide)

section
variable {P : List Char → Prop}

/-- What a property of scanned texts has to satisfy. -/
structure Scanned (P : List Char → Prop) : Prop where
  nil : P []
  append {s t} : P s → P t → P (s ++ t)
  plain {c} : Plain c → P [c]
  string {t} : Body t → P ('"' :: t ++ ['"'])
  brackets {t} : P t → P ('[' :: t ++ [']'])
  braces {t} : P t → P ('\x7b' :: t ++ ['\x7d'])

theorem Scanned.of_plain (h : Scanned P) (ht : ∀ c ∈ t, Plain c) : P t := by
  induction t with
  | nil => exact h.nil
  | cons c t ih => exact h.append (s := [c]) (h.plain (ht c List.mem_cons_self)) (ih fun d hd => ht d (List.mem_cons_of_mem c hd))

theorem Scanned.cons (h : Scanned P) {c : Char} {t : List Char} (hc : Plain c) (ht : P t) : P (c :: t) :=
  h.append (s := [c]) (h.plain hc) ht

theorem plain_comma : Plain ',' := by
  unfold Plain
  decide

theorem plain_colon : Plain ':' := by
  unfold Plain
  decide

mutual

/-- **The scanner's induction on values.** -/
theorem Value.induct (h : Scanned P) : ∀ {t : List Char}, Value t → P t
  | _, .literal ht => h.of_plain ht.plain
  | _, .number ht => h.of_plain ht.plain
  | _, .string ht => h.string ht
  | _, .emptyArray ht => h.brackets (h.of_plain ht.plain)
  | _, .array ht => h.brackets (ht.induct h)
  | _, .emptyObject ht => h.braces (h.of_plain ht.plain)
  | _, .object ht => h.braces (ht.induct h)

theorem Elements.induct (h : Scanned P) : ∀ {t : List Char}, Elements t → P t
  | _, .one ha ht hb => h.append (h.append (h.of_plain ha.plain) (ht.induct h)) (h.of_plain hb.plain)
  | _, .more ha ht hb hts =>
    h.append (h.append (h.append (h.of_plain ha.plain) (ht.induct h)) (h.of_plain hb.plain)) (h.cons plain_comma (hts.induct h))

theorem Members.induct (h : Scanned P) : ∀ {t : List Char}, Members t → P t
  | _, .one ha hk hb hc ht hd =>
    h.append (h.append (h.append (h.of_plain ha.plain) (h.string hk)) (h.of_plain hb.plain))
      (h.cons plain_colon (h.append (h.append (h.of_plain hc.plain) (ht.induct h)) (h.of_plain hd.plain)))
  | _, .more ha hk hb hc ht hd hts =>
    h.append
      (h.append (h.append (h.append (h.of_plain ha.plain) (h.string hk)) (h.of_plain hb.plain))
        (h.cons plain_colon (h.append (h.append (h.of_plain hc.plain) (ht.induct h)) (h.of_plain hd.plain))))
      (h.cons plain_comma (hts.induct h))

end

theorem Brackets.not_plain (h : Brackets op cl) : ¬ Plain op := by
  unfold Plain
  rcases h with ⟨rfl, -⟩ | ⟨rfl, -⟩ <;> decide

theorem enclosed_inj (h : op :: t ++ [cl] = op :: u ++ [cl]) : t = u :=
  List.append_cancel_right (List.cons.inj h).2

theorem Enclosed.inside (h : Scanned P) (hop : Brackets op cl) (hu : Enclosed op cl (op :: u ++ [cl])) :
    P u := by
  obtain ⟨hvalue, -⟩ := hu
  generalize ht : op :: u ++ [cl] = t at hvalue
  have hmem : op ∈ t := ht ▸ List.mem_cons_self
  cases hvalue with
  | literal hl => exact absurd (hl.plain op hmem) hop.not_plain
  | number hn => exact absurd (hn.plain op hmem) hop.not_plain
  | string hb =>
    have hquote : op = '"' := (List.cons.inj ht).1
    rcases hop with ⟨rfl, -⟩ | ⟨rfl, -⟩ <;> exact absurd hquote (by decide)
  | emptyArray hb =>
    rcases hop with ⟨rfl, -⟩ | ⟨rfl, rfl⟩
    · exact absurd (List.cons.inj ht).1 (by decide)
    · rw [enclosed_inj ht]
      exact h.of_plain hb.plain
  | array he =>
    rcases hop with ⟨rfl, -⟩ | ⟨rfl, rfl⟩
    · exact absurd (List.cons.inj ht).1 (by decide)
    · rw [enclosed_inj ht]
      exact he.induct h
  | emptyObject hb =>
    rcases hop with ⟨rfl, rfl⟩ | ⟨rfl, -⟩
    · rw [enclosed_inj ht]
      exact h.of_plain hb.plain
    · exact absurd (List.cons.inj ht).1 (by decide)
  | object hm =>
    rcases hop with ⟨rfl, rfl⟩ | ⟨rfl, -⟩
    · rw [enclosed_inj ht]
      exact hm.induct h
    · exact absurd (List.cons.inj ht).1 (by decide)

end

theorem Text.enclosed {op cl : Char} (hop : Brackets op cl) {u : List Char} (h : Text (op :: u ++ [cl])) :
    Enclosed op cl (op :: u ++ [cl]) := by
  have hblank : isBlank op = false ∧ isBlank cl = false := by
    rcases hop with ⟨rfl, rfl⟩ | ⟨rfl, rfl⟩ <;> decide
  obtain ⟨a, v, b, ha, hv, hb, ht⟩ := h
  cases a with
  | cons c a =>
    rw [List.cons_append, List.cons_append, List.cons_append] at ht
    have hc := ha c List.mem_cons_self
    rw [← (List.cons.inj ht).1, hblank.1] at hc
    cases hc
  | nil =>
    rcases List.eq_nil_or_concat b with rfl | ⟨b, c, rfl⟩
    · rw [List.nil_append, List.append_nil] at ht
      rw [ht]
      exact ⟨hv, u, ht.symm⟩
    · rw [List.concat_eq_append] at hb ht
      rw [List.nil_append, ← List.append_assoc] at ht
      have hlast := (List.append_inj' ht rfl).2
      have hc := hb c (List.mem_append_right b List.mem_cons_self)
      rw [← (List.cons.inj hlast).1, hblank.2] at hc
      cases hc

end JsonGrammar
