import Mathlib.Data.List.Basic
import NosqlBuddy.Lib.Bytes

/-!
# String literals

The string literals of a language as a reader: a quotation mark, characters of which some are not allowed, escapes behind a backslash,
and the same quotation mark. It gives the string and the text behind the literal.

`read_escaped`: a text with a backslash before each backslash and quotation mark is read as what it was made from, unless a character
of it is barred. `read_plain_iff`: which texts are read as they are. `Escapes` are those of the usual languages.
-/

namespace Literals

-- membership of a list decides such a claim, whichever type the members have
attribute [local instance (2000)] List.decidableBAll

structure Form where
  quote : Char
  /-- Not allowed as it is. -/
  barred : Char → Bool
  /-- Something else than a character begins here. -/
  opens : List Char → Bool
  /-- What is behind a backslash: the characters it stands for, and the rest. -/
  escape : List Char → Option (List Char × List Char)
  shorter : ∀ {l out r}, escape l = some (out, r) → r.length < l.length ∧ out.length + r.length ≤ l.length + 1

def readBody (f : Form) : Nat → List Char → Option (List Char × List Char)
  | 0, _ => none
  | _ + 1, [] => none
  | n + 1, c :: cs =>
    if c = f.quote then some ([], cs)
    else if f.barred c || f.opens (c :: cs) then none
    else if c = '\\' then
      match f.escape cs with
      | some (out, r) => (readBody f n r).map fun x => (out ++ x.1, x.2)
      | none => none
    else (readBody f n cs).map fun x => (c :: x.1, x.2)

def read (f : Form) : List Char → Option (List Char × List Char)
  | [] => none
  | c :: cs => if c = f.quote then readBody f cs.length cs else none

section
variable {f : Form}

theorem readBody_fuel : ∀ {n m : Nat} {l : List Char}, l.length ≤ n → l.length ≤ m → readBody f n l = readBody f m l
  | 0, 0, _, _, _ => rfl
  | 0, m + 1, l, hn, _ => by
    rw [List.length_eq_zero_iff.1 (Nat.le_zero.1 hn)]
    rfl
  | n + 1, 0, l, _, hm => by
    rw [List.length_eq_zero_iff.1 (Nat.le_zero.1 hm)]
    rfl
  | n + 1, m + 1, [], _, _ => rfl
  | n + 1, m + 1, c :: cs, hn, hm => by
    rw [List.length_cons] at hn hm
    rw [readBody, readBody, readBody_fuel (n := n) (m := m) (l := cs) (by omega) (by omega)]
    cases hescape : f.escape cs with
    | none => rfl
    | some x =>
      have hlt := (@f.shorter _ x.1 x.2 hescape).1
      simp only [readBody_fuel (n := n) (m := m) (l := x.2) (by omega) (by omega)]

theorem readBody_length : ∀ {n : Nat} {l s r : List Char}, readBody f n l = some (s, r) → s.length + r.length + 1 ≤ l.length
  | 0, _, _, _, h => by cases h
  | n + 1, [], _, _, h => by cases h
  | n + 1, c :: cs, s, r, h => by
    rw [readBody] at h
    split at h
    · obtain ⟨rfl, rfl⟩ := Prod.mk.inj (Option.some.inj h)
      simp
    · split at h
      · cases h
      · split at h
        · split at h
          · next out r' hescape =>
            obtain ⟨⟨s', r''⟩, hbody, hx⟩ := Option.map_eq_some_iff.1 h
            obtain ⟨rfl, rfl⟩ := Prod.mk.inj hx
            have hlength := readBody_length hbody
            have hshorter := (f.shorter hescape).2
            simp only [List.length_append, List.length_cons]
            omega
          · cases h
        · obtain ⟨⟨s', r''⟩, hbody, hx⟩ := Option.map_eq_some_iff.1 h
          obtain ⟨rfl, rfl⟩ := Prod.mk.inj hx
          have hlength := readBody_length hbody
          simp only [List.length_cons]
          omega

theorem read_length (h : read f l = some (s, r)) : s.length + r.length + 2 ≤ l.length := by
  cases l with
  | nil => cases h
  | cons c cs =>
    rw [read] at h
    split at h
    · have hlength := readBody_length h
      rw [List.length_cons]
      omega
    · cases h

theorem read_ne_self : read f (s ++ rest) ≠ some (s, rest) := by
  intro h
  have hlength := read_length h
  rw [List.length_append] at hlength
  omega

theorem readBody_quote (h : (f.quote :: cs).length ≤ n) : readBody f n (f.quote :: cs) = some ([], cs) := by
  cases n with
  | zero => cases h
  | succ n => rw [readBody, if_pos rfl]

end

/-! ## Escaped texts -/

/-- Each backslash and each double quotation mark with a backslash before it. -/
def escaped (s : List Char) : List Char :=
  s.flatMap fun c => if c = '\\' then ['\\', '\\'] else if c = '"' then ['\\', '"'] else [c]

/-- Double quotation marks, where a backslash and a quotation mark behind a backslash stand for themselves. -/
structure Form.Escaping (f : Form) : Prop where
  quote : f.quote = '"'
  opens : ∀ l, f.opens l = false
  barred : f.barred '\\' = false ∧ f.barred '"' = false
  backslash : ∀ l, f.escape ('\\' :: l) = some (['\\'], l)
  mark : ∀ l, f.escape ('"' :: l) = some (['"'], l)

section
variable {f : Form}

theorem readBody_escaped (h : f.Escaping) : ∀ (s rest : List Char) (n : Nat), (escaped s ++ '"' :: rest).length ≤ n →
    readBody f n (escaped s ++ '"' :: rest) = if ∀ c ∈ s, f.barred c = false then some (s, rest) else none
  | [], rest, n, hn => by
    have hquote := @readBody_quote f rest n (by rw [h.quote]; exact hn)
    rw [h.quote] at hquote
    simpa [escaped] using hquote
  | c :: s, rest, n, hn => by
    have ih := readBody_escaped h s rest
    -- one more character in front
    have hmap : ∀ {o : Option (List Char × List Char)} {d : Char}, f.barred c = false → d = c →
        o = (if ∀ x ∈ s, f.barred x = false then some (s, rest) else none) →
          o.map (fun x => (d :: x.1, x.2)) = if ∀ x ∈ c :: s, f.barred x = false then some (c :: s, rest) else none := by
      rintro o d hc rfl rfl
      simp only [List.forall_mem_cons, hc, true_and]
      split <;> rfl
    have hescape : ∀ d, (d = '\\' ∨ d = '"') → f.barred d = false ∧ f.escape (d :: (escaped s ++ '"' :: rest)) =
        some ([d], escaped s ++ '"' :: rest) := by
      rintro d (rfl | rfl)
      · exact ⟨h.barred.1, h.backslash _⟩
      · exact ⟨h.barred.2, h.mark _⟩
    cases n with
    | zero => simp at hn
    | succ n =>
      by_cases hspecial : c = '\\' ∨ c = '"'
      · have htext : escaped (c :: s) ++ '"' :: rest = '\\' :: c :: (escaped s ++ '"' :: rest) := by
          rcases hspecial with rfl | rfl <;> simp [escaped]
        obtain ⟨hbarred, hc⟩ := hescape c hspecial
        rw [htext] at hn ⊢
        have hlen : (escaped s ++ '"' :: rest).length ≤ n := by
          simp only [List.length_cons] at hn
          omega
        rw [readBody, h.quote, if_neg (by decide), h.barred.1, h.opens, if_neg (by decide), if_pos rfl, hc]
        exact hmap hbarred rfl (ih n hlen)
      · rw [not_or] at hspecial
        have htext : escaped (c :: s) ++ '"' :: rest = c :: (escaped s ++ '"' :: rest) := by
          simp [escaped, hspecial.1, hspecial.2]
        rw [htext] at hn ⊢
        have hlen : (escaped s ++ '"' :: rest).length ≤ n := by
          rw [List.length_cons] at hn
          omega
        rw [readBody, h.quote, if_neg hspecial.2, h.opens, Bool.or_false, if_neg hspecial.1]
        cases hbarred : f.barred c with
        | true =>
          rw [if_pos rfl, if_neg]
          intro hall
          rw [hall c List.mem_cons_self] at hbarred
          cases hbarred
        | false =>
          rw [if_neg Bool.false_ne_true]
          exact hmap hbarred rfl (ih n hlen)

/-- **An escaped text is read as what it was made from exactly when no character of it is barred.** -/
theorem read_escaped (h : f.Escaping) (s rest : List Char) :
    read f ('"' :: (escaped s ++ '"' :: rest)) = some (s, rest) ↔ ∀ c ∈ s, f.barred c = false := by
  rw [read, h.quote, if_pos rfl, readBody_escaped h s rest _ (Nat.le_refl _)]
  split
  · next hall => exact ⟨fun _ => hall, fun _ => rfl⟩
  · next hall => exact ⟨nofun, fun hall' => absurd hall' hall⟩

end

/-! ## Texts as they are -/

/-- Behind a backslash the character stays, and the backslash with it; any other that may come there gives less than is written. -/
structure Form.Keeping (f : Form) (kept : Char → Bool) : Prop where
  opens : ∀ l, f.opens l = false
  quote : f.quote ≠ '\\' ∧ kept f.quote = false
  barred : f.barred '\\' = false
  stays : ∀ c l, kept c = true → f.escape (c :: l) = some (['\\', c], l)
  less : ∀ c l out r, kept c = false → f.escape (c :: l) = some (out, r) → out.length + r.length ≤ l.length + 1

/-- No quotation mark, nothing barred, and each backslash before a character that keeps it. -/
def Plain (f : Form) (kept : Char → Bool) : List Char → Prop
  | [] => True
  | c :: s =>
    if c = '\\' then
      match s with
      | [] => False
      | d :: s => kept d = true ∧ Plain f kept s
    else c ≠ f.quote ∧ f.barred c = false ∧ Plain f kept s

section
variable {f : Form} {kept : Char → Bool}

theorem readBody_plain (h : f.Keeping kept) : ∀ (s rest : List Char) (n : Nat), (s ++ f.quote :: rest).length ≤ n →
    (readBody f n (s ++ f.quote :: rest) = some (s, rest) ↔ Plain f kept s)
  | [], rest, n, hn => by
    rw [List.nil_append] at hn ⊢
    rw [readBody_quote hn]
    simp [Plain]
  | c :: s, rest, 0, hn => by simp at hn
  | c :: s, rest, n + 1, hn => by
    have hlen : (s ++ f.quote :: rest).length ≤ n := by
      rw [List.cons_append, List.length_cons] at hn
      omega
    rw [List.cons_append, readBody, Plain.eq_def]
    dsimp only
    by_cases hc : c = '\\'
    · subst hc
      rw [if_neg (Ne.symm h.quote.1), h.barred, h.opens, if_neg (by decide), if_pos rfl, if_pos rfl]
      -- an escape that does not stay gives less than is written
      have hless : ∀ d l, kept d = false → s ++ f.quote :: rest = d :: l →
          (match f.escape (d :: l) with
            | some (out, r) => (readBody f n r).map fun x => (out ++ x.1, x.2)
            | none => none) ≠ some ('\\' :: s, rest) := by
        intro d l hd hl heq
        cases hescape : f.escape (d :: l) with
        | none => rw [hescape] at heq; cases heq
        | some x =>
          obtain ⟨out, r⟩ := x
          rw [hescape] at heq
          obtain ⟨⟨s', r'⟩, hbody, hx⟩ := Option.map_eq_some_iff.1 heq
          obtain ⟨hs, rfl⟩ := Prod.mk.inj hx
          have hbound := readBody_length hbody
          have hshort := h.less d l out r hd hescape
          have hsum := congrArg List.length hs
          have htotal := congrArg List.length hl
          simp only [List.length_append, List.length_cons] at hsum htotal
          omega
      cases s with
      | nil => exact iff_of_false (hless f.quote rest h.quote.2 rfl) id
      | cons d s =>
        by_cases hd : kept d = true
        · have hlen' : (s ++ f.quote :: rest).length ≤ n := by
            rw [List.cons_append, List.length_cons] at hlen
            omega
          have ih := readBody_plain h s rest n hlen'
          rw [List.cons_append, h.stays d _ hd]
          dsimp only
          rw [and_iff_right hd, ← ih]
          constructor
          · intro heq
            obtain ⟨⟨s', r'⟩, hbody, hx⟩ := Option.map_eq_some_iff.1 heq
            simp only [List.cons_append, List.nil_append, Prod.mk.injEq, List.cons.injEq, true_and] at hx
            rw [hbody, hx.1, hx.2]
          · intro heq
            rw [heq]
            rfl
        · exact iff_of_false (hless d _ (eq_false_of_ne_true hd) rfl) fun hplain => hd hplain.1
    · rw [if_neg hc, if_neg hc]
      by_cases hq : c = f.quote
      · rw [if_pos hq]
        exact iff_of_false (by simp) fun hplain => hplain.1 hq
      · rw [if_neg hq, h.opens, Bool.or_false]
        cases hbarred : f.barred c with
        | true => exact iff_of_false (by simp) fun hplain => Bool.false_ne_true hplain.2.1.symm
        | false =>
          rw [if_neg Bool.false_ne_true, ← readBody_plain h s rest n hlen]
          simp only [ne_eq, hq, not_false_eq_true, true_and]
          constructor
          · intro heq
            obtain ⟨⟨s', r'⟩, hbody, hx⟩ := Option.map_eq_some_iff.1 heq
            simp only [Prod.mk.injEq, List.cons.injEq, true_and] at hx
            rw [hbody, hx.1, hx.2]
          · intro heq
            rw [heq]
            rfl

/-- **A text between quotation marks is read as it is exactly when it is plain.** -/
theorem read_plain_iff (h : f.Keeping kept) (s rest : List Char) :
    read f (f.quote :: (s ++ f.quote :: rest)) = some (s, rest) ↔ Plain f kept s := by
  rw [read, if_pos rfl]
  exact readBody_plain h s rest _ (Nat.le_refl _)

end

/-! ## Escapes -/

structure Escapes where
  simple : List (Char × List Char)
  /-- How many hexadecimal digits follow. -/
  hex : List (Char × Nat)
  /-- One to three octal digits. -/
  octal : Bool
  /-- For any other character. -/
  other : Char → Option (List Char)
  simple_le : ∀ x ∈ simple, x.2.length ≤ 1
  other_le : ∀ {c out}, other c = some out → out.length ≤ 2

def isOctal (c : Char) : Bool := '0' ≤ c && c ≤ '7'

def hexNumber (ds : List Char) : Option Nat := ds.foldlM (fun n d => (Bytes.hexVal d).map (16 * n + ·)) 0

def octalNumber (ds : List Char) : Nat := ds.foldl (fun n d => 8 * n + (d.toNat - '0'.toNat)) 0

def Escapes.read (e : Escapes) : List Char → Option (List Char × List Char)
  | [] => none
  | c :: r =>
    match e.simple.lookup c with
    | some out => some (out, r)
    | none =>
      match e.hex.lookup c with
      | some n => if n ≤ r.length then (hexNumber (r.take n)).map fun v => ([Char.ofNat v], r.drop n) else none
      | none =>
        if e.octal && isOctal c then
          let more := (r.take 2).takeWhile isOctal
          some ([Char.ofNat (octalNumber (c :: more))], r.drop more.length)
        else (e.other c).map fun out => (out, r)

/-- The character stays with its backslash. -/
def Escapes.kept (e : Escapes) (c : Char) : Bool :=
  (e.simple.lookup c).isNone && (e.hex.lookup c).isNone && !(e.octal && isOctal c) && e.other c = some ['\\', c]

theorem lookup_le : ∀ {xs : List (Char × List Char)}, (∀ x ∈ xs, x.2.length ≤ n) →
    xs.lookup c = some out → out.length ≤ n
  | [], _, h => by cases h
  | x :: xs, hall, h => by
    rw [List.lookup_cons] at h
    split at h
    · obtain rfl := Option.some.inj h
      exact hall x List.mem_cons_self
    · exact lookup_le (fun y hy => hall y (List.mem_cons_of_mem x hy)) h

theorem Escapes.read_cases {e : Escapes} {c : Char} {r out rest : List Char} (h : e.read (c :: r) = some (out, rest)) :
    rest.length ≤ r.length ∧ (out.length ≤ 1 ∨ (rest = r ∧ e.other c = some out ∧ e.simple.lookup c = none ∧ e.hex.lookup c = none ∧
      (e.octal && isOctal c) = false)) := by
  rw [Escapes.read] at h
  split at h
  · next o hsimple =>
    obtain ⟨rfl, rfl⟩ := Prod.mk.inj (Option.some.inj h)
    exact ⟨Nat.le_refl _, .inl (lookup_le e.simple_le hsimple)⟩
  · next hsimple =>
    split at h
    · split at h
      · obtain ⟨v, -, hx⟩ := Option.map_eq_some_iff.1 h
        obtain ⟨rfl, rfl⟩ := Prod.mk.inj hx
        exact ⟨by simp, .inl (Nat.le_refl 1)⟩
      · cases h
    · next hhex =>
      split at h
      · obtain ⟨rfl, rfl⟩ := Prod.mk.inj (Option.some.inj h)
        exact ⟨by simp, .inl (Nat.le_refl 1)⟩
      · next hoctal =>
        obtain ⟨o, hother, hx⟩ := Option.map_eq_some_iff.1 h
        obtain ⟨rfl, rfl⟩ := Prod.mk.inj hx
        exact ⟨Nat.le_refl _, .inr ⟨rfl, hother, hsimple, hhex, eq_false_of_ne_true hoctal⟩⟩

theorem Escapes.read_shorter {e : Escapes} {l out r : List Char} (h : e.read l = some (out, r)) :
    r.length < l.length ∧ out.length + r.length ≤ l.length + 1 := by
  cases l with
  | nil => cases h
  | cons c l =>
    obtain ⟨hrest, hout⟩ := Escapes.read_cases h
    have hout' : out.length ≤ 2 := by
      rcases hout with hout | ⟨-, hother, -⟩
      · omega
      · exact e.other_le hother
    rw [List.length_cons]
    omega

/-- The literals with these escapes. -/
def Escapes.form (e : Escapes) (quote : Char) (barred : Char → Bool) (opens : List Char → Bool) : Form :=
  ⟨quote, barred, opens, e.read, Escapes.read_shorter⟩

theorem Escapes.keeping {e : Escapes} {quote : Char} {barred : Char → Bool} {opens : List Char → Bool}
    (hother : ∀ c out, e.other c = some out → out = ['\\', c]) (hopens : ∀ l, opens l = false) (hquote : quote ≠ '\\' ∧ e.kept quote = false)
    (hbarred : barred '\\' = false) : (e.form quote barred opens).Keeping e.kept where
  opens := hopens
  quote := hquote
  barred := hbarred
  stays c l h := by
    simp only [Escapes.kept, Bool.and_eq_true, Option.isNone_iff_eq_none, Bool.not_eq_true', decide_eq_true_eq] at h
    obtain ⟨⟨⟨hsimple, hhex⟩, hoctal⟩, hkept⟩ := h
    change e.read (c :: l) = _
    rw [Escapes.read, hsimple]
    dsimp only
    rw [hhex]
    dsimp only
    rw [hoctal, hkept]
    rfl
  less c l out r h hread := by
    obtain ⟨hrest, hout | ⟨-, hc, hsimple, hhex, hoctal⟩⟩ := Escapes.read_cases hread
    · omega
    · have hkept : e.kept c = true := by
        have hout := hother c out hc
        simp [Escapes.kept, hsimple, hhex, hoctal, hc, hout]
      rw [hkept] at h
      cases h

end Literals
