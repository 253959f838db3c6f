import Mathlib.Data.List.TakeWhile
import NosqlBuddy.Lib.Bytes

/-!
# JSON text of a flat object

The compact text of a JSON object whose values are strings, natural numbers and booleans, in the
escaping that serde_json writes, and a reader for it. `parse_print` is the round trip;
`parse_truncated` says that a text that lost its end is not read at all, which is what lets an
append-only log recognise a torn last line.

A reader returns what it read and the rest of the text. Both results come from one fact
(`readFields_extend`): a reader that succeeded does not change its mind when text is appended.
-/

namespace JsonText
open Bytes

inductive Scalar where
  | str (s : List Char)
  | nat (n : Nat)
  | bool (b : Bool)
deriving DecidableEq, Repr

abbrev Field := List Char × Scalar

/-! ## Writing -/

def escapeChar (c : Char) : List Char :=
  if c = '"' then ['\\', '"']
  else if c = '\\' then ['\\', '\\']
  else if c = '\n' then ['\\', 'n']
  else if c = '\r' then ['\\', 'r']
  else if c = '\t' then ['\\', 't']
  else if c.toNat = 8 then ['\\', 'b']
  else if c.toNat = 12 then ['\\', 'f']
  else if c.toNat < 32 then ['\\', 'u', '0', '0', Nat.digitChar (c.toNat / 16), Nat.digitChar (c.toNat % 16)]
  else [c]

def printString (s : List Char) : List Char := '"' :: (s.flatMap escapeChar ++ ['"'])

def printScalar : Scalar → List Char
  | .str s => printString s
  | .nat n => Nat.toDigits 10 n
  | .bool true => ['t', 'r', 'u', 'e']
  | .bool false => ['f', 'a', 'l', 's', 'e']

def printField (f : Field) : List Char := printString f.1 ++ ':' :: printScalar f.2

/-- The fields and the closing brace. -/
def printFields : List Field → List Char
  | [] => ['}']
  | [f] => printField f ++ ['}']
  | f :: g :: fs => printField f ++ ',' :: printFields (g :: fs)

def print (fs : List Field) : List Char := '{' :: printFields fs

/-! ## Reading -/

def simpleEscape (c : Char) : Option Char :=
  if c = '"' then some '"'
  else if c = '\\' then some '\\'
  else if c = 'n' then some '\n'
  else if c = 'r' then some '\r'
  else if c = 't' then some '\t'
  else if c = 'b' then some (Char.ofNat 8)
  else if c = 'f' then some (Char.ofNat 12)
  else none

/-- The characters of a string up to its closing quote. -/
def readChars : List Char → Option (List Char × List Char)
  | [] => none
  | '"' :: cs => some ([], cs)
  | '\\' :: 'u' :: '0' :: '0' :: a :: b :: cs => do
    let hi ← hexVal a
    let lo ← hexVal b
    let (s, rest) ← readChars cs
    return (Char.ofNat (16 * hi + lo) :: s, rest)
  | '\\' :: c :: cs => do
    let e ← simpleEscape c
    let (s, rest) ← readChars cs
    return (e :: s, rest)
  | ['\\'] => none
  | c :: cs => do
    let (s, rest) ← readChars cs
    return (c :: s, rest)

/-- A fixed word. -/
def readWord : List Char → List Char → Option (List Char)
  | [], cs => some cs
  | _ :: _, [] => none
  | w :: ws, c :: cs => if w = c then readWord ws cs else none

def readNat (cs : List Char) : Option (Nat × List Char) :=
  if cs.takeWhile Char.isDigit = [] then none
  else some (Nat.ofDigitChars 10 (cs.takeWhile Char.isDigit) 0, cs.dropWhile Char.isDigit)

def readScalar : List Char → Option (Scalar × List Char)
  | '"' :: cs => (readChars cs).map fun p => (.str p.1, p.2)
  | 't' :: cs => (readWord ['r', 'u', 'e'] cs).map fun rest => (.bool true, rest)
  | 'f' :: cs => (readWord ['a', 'l', 's', 'e'] cs).map fun rest => (.bool false, rest)
  | cs => (readNat cs).map fun p => (.nat p.1, p.2)

def readField : List Char → Option (Field × List Char)
  | '"' :: cs => do
    let (k, cs) ← readChars cs
    let cs ← readWord [':'] cs
    let (v, cs) ← readScalar cs
    return ((k, v), cs)
  | _ => none

/-- At most `n` fields and the closing brace. -/
def readFields : Nat → List Char → Option (List Field × List Char)
  | 0, _ => none
  | n + 1, cs =>
    match readField cs with
    | some (f, ',' :: rest) => (readFields n rest).map fun p => (f :: p.1, p.2)
    | some (f, '}' :: rest) => some ([f], rest)
    | _ => none

/-- A whole text: nothing may stand after the object. -/
def parse : List Char → Option (List Field)
  | '{' :: cs =>
    match readFields cs.length cs with
    | some (fs, []) => some fs
    | _ => none
  | _ => none

/-! ## Round trip -/

attribute [local simp] readChars readWord readFields

variable {c : Char}

theorem readChars_plain (h1 : c ≠ '"') (h2 : c ≠ '\\') (cs : List Char) :
    readChars (c :: cs) = (readChars cs).map fun p => (c :: p.1, p.2) := by
  rw [readChars.eq_6 _ _ (by simpa using h1) (by simp [h2]) (by simp [h2]) (by simp [h2])]
  cases readChars cs <;> rfl

theorem readChars_escape (hu : c ≠ 'u') (he : simpleEscape c = some e) (cs : List Char) :
    readChars ('\\' :: c :: cs) = (readChars cs).map fun p => (e :: p.1, p.2) := by
  rw [readChars.eq_4 _ _ (by intro a b cs' hc; exact absurd hc hu), he]
  cases readChars cs <;> rfl

theorem readChars_hex (h1 : hi < 16) (h2 : lo < 16) (cs : List Char) :
    readChars ('\\' :: 'u' :: '0' :: '0' :: Nat.digitChar hi :: Nat.digitChar lo :: cs) =
      (readChars cs).map fun p => (Char.ofNat (16 * hi + lo) :: p.1, p.2) := by
  rw [readChars, hexVal_digitChar hi h1, hexVal_digitChar lo h2]
  cases readChars cs <;> rfl

theorem readChars_escapeChar (c : Char) (cs : List Char) :
    readChars (escapeChar c ++ cs) = (readChars cs).map fun p => (c :: p.1, p.2) := by
  unfold escapeChar
  split
  · next h => subst h; exact readChars_escape (by decide) (by decide) cs
  split
  · next h => subst h; exact readChars_escape (by decide) (by decide) cs
  split
  · next h => subst h; exact readChars_escape (by decide) (by decide) cs
  split
  · next h => subst h; exact readChars_escape (by decide) (by decide) cs
  split
  · next h => subst h; exact readChars_escape (by decide) (by decide) cs
  split
  · next h =>
    have hc : c = Char.ofNat 8 := by rw [← h, Char.ofNat_toNat]
    subst hc
    exact readChars_escape (by decide) (by decide) cs
  split
  · next h =>
    have hc : c = Char.ofNat 12 := by rw [← h, Char.ofNat_toNat]
    subst hc
    exact readChars_escape (by decide) (by decide) cs
  split
  · next h =>
    have hc : Char.ofNat (16 * (c.toNat / 16) + c.toNat % 16) = c := by
      rw [Nat.div_add_mod, Char.ofNat_toNat]
    have := readChars_hex (show c.toNat / 16 < 16 by omega) (show c.toNat % 16 < 16 by omega) cs
    rwa [hc] at this
  · next h1 h2 _ _ _ _ _ _ => exact readChars_plain h1 h2 cs

theorem readChars_string : ∀ (s rest : List Char),
    readChars (s.flatMap escapeChar ++ '"' :: rest) = some (s, rest)
  | [], rest => by simp [readChars]
  | c :: s, rest => by
    rw [List.flatMap_cons, List.append_assoc, readChars_escapeChar, readChars_string s rest]
    rfl

theorem readNat_print (n : Nat) (hc : c.isDigit = false) (cs : List Char) :
    readNat (Nat.toDigits 10 n ++ c :: cs) = some (n, c :: cs) := by
  have hd : ∀ d ∈ Nat.toDigits 10 n, Char.isDigit d = true :=
    fun d hd => Nat.isDigit_of_mem_toDigits (by omega) (by omega) hd
  have htake : (Nat.toDigits 10 n ++ c :: cs).takeWhile Char.isDigit = Nat.toDigits 10 n := by
    rw [List.takeWhile_append_of_pos hd]
    simp [hc]
  have hdrop : (Nat.toDigits 10 n ++ c :: cs).dropWhile Char.isDigit = c :: cs := by
    rw [List.dropWhile_append_of_pos hd]
    simp [List.dropWhile, hc]
  rw [readNat, htake, hdrop, if_neg Nat.toDigits_ne_nil, Nat.ofDigitChars_ten_toDigits]

theorem readScalar_nat (n : Nat) (hc : c.isDigit = false) (cs : List Char) :
    readScalar (Nat.toDigits 10 n ++ c :: cs) = some (.nat n, c :: cs) := by
  obtain ⟨d, ds, hds⟩ : ∃ d ds, Nat.toDigits 10 n = d :: ds := List.exists_cons_of_ne_nil Nat.toDigits_ne_nil
  have hd : d.isDigit = true := Nat.isDigit_of_mem_toDigits (b := 10) (n := n) (by omega) (by omega) (by simp [hds])
  have hread := readNat_print n hc cs
  rw [hds, List.cons_append] at hread ⊢
  have h1 : d ≠ '"' := by rintro rfl; exact absurd hd (by decide)
  have h2 : d ≠ 't' := by rintro rfl; exact absurd hd (by decide)
  have h3 : d ≠ 'f' := by rintro rfl; exact absurd hd (by decide)
  rw [readScalar.eq_4 _ (by simp [h1]) (by simp [h2]) (by simp [h3]), hread]
  rfl

theorem readScalar_print (v : Scalar) (hc : c.isDigit = false) (cs : List Char) :
    readScalar (printScalar v ++ c :: cs) = some (v, c :: cs) := by
  cases v with
  | str s =>
    have : printScalar (.str s) ++ c :: cs = '"' :: (s.flatMap escapeChar ++ '"' :: c :: cs) := by
      simp [printScalar, printString]
    rw [this, readScalar, readChars_string]
    rfl
  | nat n => exact readScalar_nat n hc cs
  | bool b => cases b <;> simp [printScalar, readScalar, readWord]

theorem readField_print (f : Field) (hc : c.isDigit = false) (cs : List Char) :
    readField (printField f ++ c :: cs) = some (f, c :: cs) := by
  have : printField f ++ c :: cs = '"' :: (f.1.flatMap escapeChar ++ '"' :: ':' :: (printScalar f.2 ++ c :: cs)) := by
    simp [printField, printString]
  rw [this, readField, readChars_string]
  simp [readWord, readScalar_print f.2 hc]

theorem readFields_print (rest : List Char) : ∀ (fs : List Field) (n : Nat), fs ≠ [] → fs.length ≤ n →
    readFields n (printFields fs ++ rest) = some (fs, rest)
  | [], _, h, _ => absurd rfl h
  | [f], n + 1, _, _ => by
    rw [printFields, List.append_assoc, List.singleton_append, readFields, readField_print f (by decide)]
    rfl
  | f :: g :: fs, n + 1, _, hn => by
    rw [printFields, List.append_assoc, List.cons_append, readFields, readField_print f (by decide)]
    simp only [readFields_print rest (g :: fs) n (by simp) (by simpa using hn)]
    rfl

theorem length_le_printFields : ∀ fs : List Field, fs.length ≤ (printFields fs).length
  | [] => by simp [printFields]
  | [f] => by simp [printFields]
  | f :: g :: fs => by
    have := length_le_printFields (g :: fs)
    simp only [printFields, List.length_append, List.length_cons] at this ⊢
    omega

theorem parse_print (h : fs ≠ []) : parse (print fs) = some fs := by
  have := readFields_print [] fs (printFields fs).length h (length_le_printFields fs)
  rw [List.append_nil] at this
  simp [parse, print, this]

/-! ## Truncated texts -/

theorem readChars_extend (t : List Char) : ∀ {l s r : List Char}, readChars l = some (s, r) →
    readChars (l ++ t) = some (s, r ++ t) := by
  intro l
  fun_induction readChars l with
  | case1 => intro s r h; cases h
  | case2 cs => intro s r h; simp_all [readChars]
  | case3 a b cs ih =>
    intro s r h
    simp only [Option.bind_eq_bind, Option.bind_eq_some_iff, Prod.exists] at h
    obtain ⟨hi, hhi, lo, hlo, s', r', hr, he⟩ := h
    simp only [Option.pure_def, Option.some.injEq, Prod.mk.injEq] at he
    obtain ⟨rfl, rfl⟩ := he
    simp [readChars, hhi, hlo, ih hr]
  | case4 c cs hne ih =>
    intro s r h
    simp only [Option.bind_eq_bind, Option.bind_eq_some_iff, Prod.exists] at h
    obtain ⟨e, he, s', r', hr, hp⟩ := h
    simp only [Option.pure_def, Option.some.injEq, Prod.mk.injEq] at hp
    obtain ⟨rfl, rfl⟩ := hp
    have hu : c ≠ 'u' := by rintro rfl; simp [simpleEscape] at he
    rw [List.cons_append, List.cons_append, readChars_escape hu he, ih hr]
    rfl
  | case5 => intro s r h; cases h
  | case6 c cs h1 h2 h3 h4 ih =>
    intro s r h
    simp only [Option.bind_eq_bind, Option.bind_eq_some_iff, Prod.exists] at h
    obtain ⟨s', r', hr, hp⟩ := h
    simp only [Option.pure_def, Option.some.injEq, Prod.mk.injEq] at hp
    obtain ⟨rfl, rfl⟩ := hp
    have hb : c ≠ '\\' := by
      rintro rfl
      cases cs with
      | nil => exact h4 rfl rfl
      | cons d ds => exact h3 d ds rfl rfl
    rw [List.cons_append, readChars_plain (fun hq => h1 hq) hb, ih hr]
    rfl

theorem readWord_extend (t : List Char) : ∀ {w l r : List Char}, readWord w l = some r →
    readWord w (l ++ t) = some (r ++ t)
  | [], l, r, h => by simpa [readWord] using h
  | _ :: _, [], _, h => by cases h
  | w :: ws, c :: cs, r, h => by
    simp only [readWord, List.cons_append] at h ⊢
    split at h
    · next hw => rw [if_pos hw]; exact readWord_extend t h
    · cases h

variable {l r : List Char}

theorem readNat_extend (t : List Char) (hr : r ≠ []) (h : readNat l = some (n, r)) :
    readNat (l ++ t) = some (n, r ++ t) := by
  unfold readNat at h ⊢
  split at h
  · cases h
  · next hne =>
    simp only [Option.some.injEq, Prod.mk.injEq] at h
    obtain ⟨rfl, rfl⟩ := h
    have hd : (l ++ t).dropWhile Char.isDigit = l.dropWhile Char.isDigit ++ t := by
      rw [List.dropWhile_append, if_neg (by simpa using hr)]
    have ht : (l ++ t).takeWhile Char.isDigit = l.takeWhile Char.isDigit := by
      have h1 := List.takeWhile_append_dropWhile (p := Char.isDigit) (l := l ++ t)
      rw [hd, ← List.append_assoc] at h1
      exact List.append_cancel_right ((List.append_cancel_right h1).trans
        List.takeWhile_append_dropWhile.symm)
    rw [ht, hd, if_neg hne]

theorem readScalar_extend (t : List Char) (hr : r ≠ [])
    (h : readScalar l = some (v, r)) : readScalar (l ++ t) = some (v, r ++ t) := by
  unfold readScalar at h
  split at h
  · next cs =>
    obtain ⟨⟨s, r'⟩, hs, he⟩ := Option.map_eq_some_iff.1 h
    cases he
    simp [readScalar, readChars_extend t hs]
  · next cs =>
    obtain ⟨r', hs, he⟩ := Option.map_eq_some_iff.1 h
    cases he
    simp [readScalar, readWord_extend t hs]
  · next cs =>
    obtain ⟨r', hs, he⟩ := Option.map_eq_some_iff.1 h
    cases he
    simp [readScalar, readWord_extend t hs]
  · next h1 h2 h3 =>
    obtain ⟨⟨n, r'⟩, hs, he⟩ := Option.map_eq_some_iff.1 h
    cases he
    have hext := readNat_extend t hr hs
    cases l with
    | nil => simp [readNat] at hs
    | cons c cs =>
      rw [List.cons_append] at hext ⊢
      rw [readScalar.eq_4 _ (fun _ he => h1 _ (by cases he; rfl)) (fun _ he => h2 _ (by cases he; rfl))
        (fun _ he => h3 _ (by cases he; rfl)), hext]
      rfl

theorem readField_extend (t : List Char) (hr : r ≠ [])
    (h : readField l = some (f, r)) : readField (l ++ t) = some (f, r ++ t) := by
  unfold readField at h
  split at h
  · next cs =>
    simp only [Option.bind_eq_bind, Option.bind_eq_some_iff, Prod.exists] at h
    obtain ⟨k, r1, hk, r2, hw, v, r3, hv, he⟩ := h
    simp only [Option.pure_def, Option.some.injEq, Prod.mk.injEq] at he
    obtain ⟨rfl, rfl⟩ := he
    simp [readField, readChars_extend t hk, readWord_extend t hw, readScalar_extend t hr hv]
  · cases h

/-- **Readers extend**: what was read stays read when text is appended. -/
theorem readFields_extend (t : List Char) : ∀ {n m : Nat} {l r : List Char} {fs : List Field}, n ≤ m →
    readFields n l = some (fs, r) → readFields m (l ++ t) = some (fs, r ++ t)
  | 0, _, _, _, _, _, h => by cases h
  | n + 1, 0, _, _, _, hm, _ => by omega
  | n + 1, m + 1, l, r, fs, hm, h => by
    rw [readFields] at h
    split at h
    · next f rest hf =>
      obtain ⟨⟨gs, r'⟩, hg, he⟩ := Option.map_eq_some_iff.1 h
      cases he
      rw [readFields, readField_extend t (by simp) hf, List.cons_append]
      simp only [readFields_extend t (by omega : n ≤ m) hg]
      rfl
    · next f rest hf =>
      cases h
      rw [readFields, readField_extend t (by simp) hf]
      rfl
    · cases h

theorem parse_truncated (hne : fs ≠ []) (ht : t ≠ [])
    (hl : l ++ t = print fs) : parse l = none := by
  cases hp : parse l with
  | none => rfl
  | some gs =>
    exfalso
    unfold parse at hp
    split at hp
    · next cs =>
      split at hp
      · next gs' hread =>
        have hcs : cs ++ t = printFields fs := by simpa [print] using hl
        have hlong := readFields_extend t (by simp : cs.length ≤ (cs ++ t).length) hread
        have hprint := readFields_print [] fs (cs ++ t).length hne (hcs ▸ length_le_printFields fs)
        rw [List.append_nil, ← hcs, hlong] at hprint
        simp [ht] at hprint
      · cases hp
    · cases hp

/-! ## The text of an object is one line between braces -/

theorem newline_notMem_escapeChar (c : Char) : '\n' ∉ escapeChar c := by
  have hdig : ∀ d, d < 16 → Nat.digitChar d ≠ '\n' := by decide
  unfold escapeChar
  split; · simp
  split; · simp
  split; · simp
  split; · simp
  split; · simp
  split; · simp
  split; · simp
  split
  · next h =>
    have h1 := hdig (c.toNat / 16) (by omega)
    have h2 := hdig (c.toNat % 16) (by omega)
    simp [h1.symm, h2.symm]
  · next _ _ h3 _ _ _ _ _ => simp [Ne.symm h3]

theorem newline_notMem_printScalar (v : Scalar) : '\n' ∉ printScalar v := by
  cases v with
  | str s =>
    simp only [printScalar, printString, List.mem_cons, List.mem_append, List.mem_flatMap, not_or]
    refine ⟨by decide, fun ⟨c, _, hc⟩ => newline_notMem_escapeChar c hc, by decide, by simp⟩
  | nat n =>
    intro hm
    have := Nat.isDigit_of_mem_toDigits (by omega) (by omega) hm
    exact absurd this (by decide)
  | bool b => cases b <;> simp [printScalar]

theorem newline_notMem_printField (f : Field) : '\n' ∉ printField f := by
  have h1 := newline_notMem_printScalar (.str f.1)
  have h2 := newline_notMem_printScalar f.2
  simp only [printScalar] at h1
  simp only [printField, List.mem_append, List.mem_cons, not_or]
  exact ⟨h1, by decide, h2⟩

theorem newline_notMem_print (fs : List Field) : '\n' ∉ print fs := by
  have hfs : ∀ gs : List Field, '\n' ∉ printFields gs := by
    intro gs
    fun_induction printFields gs with
    | case1 => decide
    | case2 f => simp [newline_notMem_printField f]
    | case3 f g gs ih =>
      simp only [List.mem_append, List.mem_cons, not_or]
      exact ⟨newline_notMem_printField f, by decide, ih⟩
  simp only [print, List.mem_cons, not_or]
  exact ⟨by decide, hfs fs⟩

theorem print_ends (fs : List Field) : ∃ body, print fs = '{' :: (body ++ ['}']) := by
  have hfs : ∀ gs : List Field, ∃ body, printFields gs = body ++ ['}'] := by
    intro gs
    fun_induction printFields gs with
    | case1 => exact ⟨[], rfl⟩
    | case2 f => exact ⟨_, rfl⟩
    | case3 f g gs ih =>
      obtain ⟨body, hb⟩ := ih
      exact ⟨printField f ++ ',' :: body, by simp [hb]⟩
  obtain ⟨body, hb⟩ := hfs fs
  exact ⟨body, by rw [print, hb]⟩

end JsonText
