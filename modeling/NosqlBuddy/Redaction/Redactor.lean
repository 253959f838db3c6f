import NosqlBuddy.Lib.ReplaceAll
import NosqlBuddy.Lib.Text

/-!
# The redactor

`mongo/redaction.rs`. The three patterns do not need to go back: each class stops before the character that has to follow.

| here | there |
| --- | --- |
| `nameAt`, `headAt`, `valueAt`, `pairAt` | `password_kv_re` and `connection_string_kv_re`, :41, :51 |
-/

namespace Redaction
open ReplaceAll Text

/-! ## Words -/

/-- A letter of a pattern under `(?i)`: the long s folds to s. -/
def letter (p c : Char) : Bool := c == p || c == p.toUpper || (p == 's' && c == 'ſ')

/-- A word at the start of a text, as it is spelled there, and the rest. -/
def wordAt : List Char → List Char → Option (List Char × List Char)
  | [], s => some ([], s)
  | p :: w, c :: s => if letter p c then (wordAt w s).map fun x => (c :: x.1, x.2) else none
  | _ :: _, [] => none

/-- `mongodb(?:\+srv)?://` -/
def schemeAt (s : List Char) : Option (List Char × List Char) :=
  match wordAt "mongodb".toList s with
  | none => none
  | some (name, r) =>
    let srv := (wordAt "+srv".toList r).getD ([], r)
    (wordAt "://".toList srv.2).map fun x => (name ++ srv.1 ++ x.1, x.2)

/-- `[^:\s/@]` -/
def userChar (c : Char) : Bool := !(c == ':' || isWhitespace c || c == '/' || c == '@')

/-- `[^@\s/]` -/
def passwordChar (c : Char) : Bool := !(c == '@' || isWhitespace c || c == '/')

/-- What is put for the user and the password. -/
def hidden : List Char := "***:***@".toList

def masked : List Char := "***".toList

/-- `(mongodb(?:\+srv)?://)[^:\s/@]+:[^@\s/]+@` -/
def uriAt (s : List Char) : Option (List Char × List Char) :=
  match schemeAt s with
  | none => none
  | some (scheme, r) =>
    match r.dropWhile userChar with
    | ':' :: r' =>
      match r'.dropWhile passwordChar with
      | '@' :: rest =>
        if r.takeWhile userChar = [] ∨ r'.takeWhile passwordChar = [] then none else some (scheme ++ hidden, rest)
      | _ => none
    | _ => none

/-! ## Keys and values -/

inductive Key where
  | password | connection
deriving DecidableEq, Repr

/-- `password`, or `uri|connection\s*string|connectionString`. -/
def nameAt : Key → List Char → Option (List Char × List Char)
  | .password, s => wordAt "password".toList s
  | .connection, s =>
    match wordAt "uri".toList s with
    | some x => some x
    | none =>
      match wordAt "connection".toList s with
      | none => none
      | some (name, r) =>
        (wordAt "string".toList (r.dropWhile isWhitespace)).map fun x => (name ++ r.takeWhile isWhitespace ++ x.1, x.2)

def isSeparator (c : Char) : Bool := c == ':' || c == '='

/-- The name, and `\s*[:=]\s*`. -/
def headAt (key : Key) (s : List Char) : Option (List Char × List Char) :=
  match nameAt key s with
  | none => none
  | some (name, r) =>
    match r.dropWhile isWhitespace with
    | c :: r' =>
      if isSeparator c then
        some (name ++ r.takeWhile isWhitespace ++ c :: r'.takeWhile isWhitespace, r'.dropWhile isWhitespace)
      else none
    | [] => none

/-- `[^";,\s]` -/
def bareChar (c : Char) : Bool := !(c == '"' || c == ';' || c == ',' || isWhitespace c)

/-- What comes after `"[^"]*"|'[^']*'|[^";,\s]+`. -/
def valueAt (s : List Char) : Option (List Char) :=
  let bare := if s.takeWhile bareChar = [] then none else some (s.dropWhile bareChar)
  match s with
  | '"' :: r => if '"' ∈ r then some (r.dropWhile (· ≠ '"')).tail else bare
  | '\'' :: r => if '\'' ∈ r then some (r.dropWhile (· ≠ '\'')).tail else bare
  | _ => bare

def pairAt (key : Key) (s : List Char) : Option (List Char × List Char) :=
  match headAt key s with
  | none => none
  | some (head, r) => (valueAt r).map fun rest => (head ++ masked, rest)

/-! ## What a pattern takes -/

theorem wordAt_eq : ∀ {w s a r : List Char}, wordAt w s = some (a, r) → s = a ++ r ∧ a.length = w.length
  | [], s, a, r, h => by
    obtain ⟨rfl, rfl⟩ := Prod.mk.inj (Option.some.inj h)
    exact ⟨rfl, rfl⟩
  | p :: w, [], a, r, h => by cases h
  | p :: w, c :: s, a, r, h => by
    rw [wordAt] at h
    split at h
    · obtain ⟨⟨a', r'⟩, hw, hx⟩ := Option.map_eq_some_iff.1 h
      obtain ⟨rfl, rfl⟩ := Prod.mk.inj hx
      obtain ⟨rfl, hlen⟩ := wordAt_eq hw
      exact ⟨rfl, by rw [List.length_cons, List.length_cons, hlen]⟩
    · cases h

theorem wordAt_append : ∀ {w s a r : List Char} (t : List Char), wordAt w s = some (a, r) → wordAt w (s ++ t) = some (a, r ++ t)
  | [], s, a, r, t, h => by
    obtain ⟨rfl, rfl⟩ := Prod.mk.inj (Option.some.inj h)
    rfl
  | p :: w, [], a, r, t, h => by cases h
  | p :: w, c :: s, a, r, t, h => by
    rw [wordAt] at h
    rw [List.cons_append, wordAt]
    split at h
    · next hletter =>
      obtain ⟨⟨a', r'⟩, hw, hx⟩ := Option.map_eq_some_iff.1 h
      obtain ⟨rfl, rfl⟩ := Prod.mk.inj hx
      rw [if_pos hletter, wordAt_append t hw]
      rfl
    · cases h

variable {c p : Char}

theorem wordAt_none (h : letter p c = false) (w s : List Char) : wordAt (p :: w) (c :: s) = none := by
  rw [wordAt, h]
  rfl

theorem length_dropWhile_le {α : Type} (p : α → Bool) (l : List α) : (l.dropWhile p).length ≤ l.length :=
  (List.dropWhile_suffix p).length_le

variable {a r s : List Char}

theorem schemeAt_eq (h : schemeAt s = some (a, r)) : s = a ++ r ∧ a ≠ [] := by
  unfold schemeAt at h
  split at h
  · cases h
  · next name r' hname =>
    obtain ⟨⟨b, r''⟩, hslashes, hx⟩ := Option.map_eq_some_iff.1 h
    obtain ⟨rfl, rfl⟩ := Prod.mk.inj hx
    obtain ⟨rfl, hlen⟩ := wordAt_eq hname
    have hsrv : r' = ((wordAt "+srv".toList r').getD ([], r')).1 ++ ((wordAt "+srv".toList r').getD ([], r')).2 := by
      cases hw : wordAt "+srv".toList r' with
      | none => rfl
      | some x =>
        obtain ⟨x, y⟩ := x
        exact (wordAt_eq hw).1
    have hne : name ≠ [] := by
      rintro rfl
      cases hlen
    refine ⟨?_, by simp [hne]⟩
    rw [List.append_assoc, List.append_assoc, ← (wordAt_eq hslashes).1, ← hsrv]

variable {key : Key}

theorem nameAt_eq (h : nameAt key s = some (a, r)) : s = a ++ r ∧ a ≠ [] := by
  have hword : ∀ {w s a r : List Char}, w ≠ [] → wordAt w s = some (a, r) → s = a ++ r ∧ a ≠ [] := by
    intro w s a r hw h
    obtain ⟨heq, hlen⟩ := wordAt_eq h
    refine ⟨heq, ?_⟩
    rintro rfl
    exact hw (List.length_eq_zero_iff.1 hlen.symm)
  cases key with
  | password => exact hword (by decide) h
  | connection =>
    rw [nameAt] at h
    split at h
    · next x hx => exact hword (by decide) (hx.trans h)
    · split at h
      · cases h
      · next name r' hname =>
        obtain ⟨⟨b, r''⟩, hstring, hx⟩ := Option.map_eq_some_iff.1 h
        obtain ⟨rfl, rfl⟩ := Prod.mk.inj hx
        obtain ⟨rfl, hne⟩ := hword (by decide) hname
        refine ⟨?_, by simp [hne]⟩
        rw [List.append_assoc, List.append_assoc, ← (wordAt_eq hstring).1, List.takeWhile_append_dropWhile]

theorem headAt_eq (h : headAt key s = some (a, r)) : s = a ++ r ∧ a ≠ [] := by
  unfold headAt at h
  split at h
  · cases h
  · next name r' hname =>
    obtain ⟨rfl, hne⟩ := nameAt_eq hname
    split at h
    · next c r'' hdrop =>
      split at h
      · obtain ⟨rfl, rfl⟩ := Prod.mk.inj (Option.some.inj h)
        refine ⟨?_, by simp [hne]⟩
        rw [List.append_assoc, List.append_assoc, List.cons_append, List.takeWhile_append_dropWhile, ← hdrop,
          List.takeWhile_append_dropWhile]
      · cases h
    · cases h

variable {rest : List Char}

theorem uriAt_shrinks (h : uriAt s = some (out, rest)) : rest.length < s.length := by
  unfold uriAt at h
  split at h
  · cases h
  · next scheme r hscheme =>
    obtain ⟨rfl, -⟩ := schemeAt_eq hscheme
    have huser := length_dropWhile_le userChar r
    split at h
    · next r' hdrop =>
      have hpassword := length_dropWhile_le passwordChar r'
      rw [hdrop, List.length_cons] at huser
      split at h
      · next rest' hdrop' =>
        rw [hdrop', List.length_cons] at hpassword
        split at h
        · cases h
        · obtain ⟨-, rfl⟩ := Prod.mk.inj (Option.some.inj h)
          rw [List.length_append]
          omega
      · cases h
    · cases h

theorem valueAt_le (h : valueAt s = some rest) : rest.length ≤ s.length := by
  have hbare : ∀ {s rest : List Char}, (if s.takeWhile bareChar = [] then none else some (s.dropWhile bareChar)) = some rest →
      rest.length ≤ s.length := by
    intro s rest h
    split at h
    · cases h
    · rw [← Option.some.inj h]
      exact length_dropWhile_le bareChar s
  have hquoted : ∀ (q : Char) (r : List Char), (r.dropWhile (· ≠ q)).tail.length ≤ (q :: r).length := by
    intro q r
    have hdrop := length_dropWhile_le (· ≠ q) r
    rw [List.length_tail, List.length_cons]
    omega
  unfold valueAt at h
  dsimp only at h
  split at h
  · split at h
    · rw [← Option.some.inj h]
      exact hquoted _ _
    · exact hbare h
  · split at h
    · rw [← Option.some.inj h]
      exact hquoted _ _
    · exact hbare h
  · exact hbare h

theorem pairAt_shrinks (h : pairAt key s = some (out, rest)) : rest.length < s.length := by
  unfold pairAt at h
  split at h
  · cases h
  · next head r hhead =>
    obtain ⟨rfl, hne⟩ := headAt_eq hhead
    obtain ⟨rest', hvalue, hx⟩ := Option.map_eq_some_iff.1 h
    obtain ⟨-, rfl⟩ := Prod.mk.inj hx
    have hle := valueAt_le hvalue
    have hpos := List.length_pos_iff.2 hne
    rw [List.length_append]
    omega

/-! ## What comes after -/

theorem takeWhile_append {α : Type} {p : α → Bool} {a : List α} (ha : ∀ x ∈ a, p x = true) {b : List α}
    (hb : b = [] ∨ ∃ x r, b = x :: r ∧ p x = false) : (a ++ b).takeWhile p = a ∧ (a ++ b).dropWhile p = b := by
  rw [List.takeWhile_append_of_pos ha, List.dropWhile_append_of_pos ha]
  rcases hb with rfl | ⟨x, r, rfl, hx⟩
  · exact ⟨by simp, rfl⟩
  · simp [hx]

theorem letter_cases (h : letter p c = true) : c = p ∨ c = p.toUpper ∨ (p = 's' ∧ c = 'ſ') := by
  simp only [letter, Bool.or_eq_true, beq_iff_eq, Bool.and_eq_true] at h
  rwa [or_assoc] at h

theorem schemeAt_append (t : List Char) (h : schemeAt s = some (a, r)) : schemeAt (s ++ t) = some (a, r ++ t) := by
  unfold schemeAt at h
  split at h
  · cases h
  · next name r' hname =>
    rw [schemeAt, wordAt_append t hname]
    obtain ⟨⟨b, r''⟩, hslashes, hx⟩ := Option.map_eq_some_iff.1 h
    obtain ⟨rfl, rfl⟩ := Prod.mk.inj hx
    cases hsrv : wordAt "+srv".toList r' with
    | some x =>
      simp only [wordAt_append t hsrv, Option.getD_some]
      rw [hsrv, Option.getD_some] at hslashes
      rw [wordAt_append t hslashes]
      rfl
    | none =>
      rw [hsrv, Option.getD_none] at hslashes
      -- the slashes come next, so that `+srv` does not
      have hcolon : ∃ x r, r' = x :: r ∧ letter ':' x = true := by
        cases r' with
        | nil => cases hslashes
        | cons x r =>
          refine ⟨x, r, rfl, ?_⟩
          by_contra hx
          rw [show "://".toList = ':' :: "//".toList from rfl, wordAt_none (eq_false_of_ne_true hx)] at hslashes
          cases hslashes
      obtain ⟨x, r, rfl, hletter⟩ := hcolon
      have hplus : letter '+' x = false := by
        rcases letter_cases hletter with rfl | rfl | ⟨h, -⟩
        · rfl
        · rfl
        · cases h
      have hnone : wordAt "+srv".toList (x :: r ++ t) = none := wordAt_none hplus _ _
      simp only [hnone, Option.getD_none, wordAt_append t hslashes]
      rfl

theorem nameAt_append (t : List Char) (h : nameAt key s = some (a, r)) :
    nameAt key (s ++ t) = some (a, r ++ t) := by
  cases key with
  | password => exact wordAt_append t h
  | connection =>
    rw [nameAt] at h
    split at h
    · next x hx =>
      obtain rfl := Option.some.inj h
      rw [nameAt, wordAt_append t hx]
    · next hnone =>
      split at h
      · cases h
      · next name r' hname =>
        obtain ⟨⟨b, r''⟩, hstring, hx⟩ := Option.map_eq_some_iff.1 h
        obtain ⟨rfl, rfl⟩ := Prod.mk.inj hx
        -- `connection` is not `uri`
        have hc : ∃ x u, s = x :: u ∧ letter 'c' x = true := by
          cases s with
          | nil => cases hname
          | cons x u =>
            refine ⟨x, u, rfl, ?_⟩
            by_contra hx
            have hword : "connection".toList = 'c' :: "onnection".toList := rfl
            rw [hword, wordAt_none (eq_false_of_ne_true hx)] at hname
            cases hname
        obtain ⟨x, u, rfl, hletter⟩ := hc
        have hu : letter 'u' x = false := by
          rcases letter_cases hletter with rfl | rfl | ⟨h, -⟩
          · rfl
          · rfl
          · cases h
        have huri : wordAt "uri".toList (x :: u ++ t) = none := wordAt_none hu _ _
        have hne : ∃ y v, r'.dropWhile isWhitespace = y :: v := by
          cases hd : r'.dropWhile isWhitespace with
          | nil => rw [hd] at hstring; cases hstring
          | cons y v => exact ⟨y, v, rfl⟩
        obtain ⟨y, v, hd⟩ := hne
        have hy : isWhitespace y = false := by
          have hhead := List.head_dropWhile_not isWhitespace (l := r') (by rw [hd]; exact List.cons_ne_nil y v)
          simpa only [hd, List.head_cons] using hhead
        have hr' : r' = r'.takeWhile isWhitespace ++ y :: v := by rw [← hd, List.takeWhile_append_dropWhile]
        have hblank : ∀ z ∈ r'.takeWhile isWhitespace, isWhitespace z = true := fun z hz => List.all_eq_true.1 List.all_takeWhile z hz
        obtain ⟨htake, hdrop⟩ := takeWhile_append hblank (b := y :: v ++ t) (.inr ⟨y, v ++ t, rfl, hy⟩)
        rw [← List.append_assoc, ← hr'] at htake hdrop
        rw [hd] at hstring
        simp only [nameAt, huri, wordAt_append t hname, htake, hdrop, wordAt_append t hstring, Option.map_some]

variable {head : List Char}

theorem headAt_append (h : headAt key head = some (head, []))
    (hs : s = [] ∨ ∃ x r, s = x :: r ∧ isWhitespace x = false) : headAt key (head ++ s) = some (head, s) := by
  unfold headAt at h
  split at h
  · cases h
  · next name r hname =>
    split at h
    · next c r' hdrop =>
      split at h
      · next hsep =>
        obtain ⟨hhead, hrest⟩ := Prod.mk.inj (Option.some.inj h)
        have hc : isWhitespace c = false := by
          have hnot := List.head_dropWhile_not isWhitespace (l := r) (by rw [hdrop]; exact List.cons_ne_nil c r')
          simpa only [hdrop, List.head_cons] using hnot
        have hblank : ∀ z ∈ r.takeWhile isWhitespace, isWhitespace z = true := fun z hz => List.all_eq_true.1 List.all_takeWhile z hz
        have hr : r = r.takeWhile isWhitespace ++ c :: r' := by rw [← hdrop, List.takeWhile_append_dropWhile]
        obtain ⟨htake, hdrop'⟩ := takeWhile_append hblank (b := c :: r' ++ s) (.inr ⟨c, r' ++ s, rfl, hc⟩)
        rw [← List.append_assoc, ← hr] at htake hdrop'
        have hall : ∀ z ∈ r', isWhitespace z = true := List.dropWhile_eq_nil_iff.1 hrest
        obtain ⟨htake', hdrop''⟩ := takeWhile_append hall hs
        have hr' : r'.takeWhile isWhitespace = r' := List.takeWhile_eq_self_iff.2 hall
        rw [hr'] at hhead
        rw [headAt, nameAt_append s hname]
        simp only [htake, hdrop', List.cons_append, hsep, if_true, htake', hdrop'', hhead]
      · cases h
    · cases h

/-! ## Where no pattern starts -/

/-- The first letters of the matches. -/
def Key.firsts : Key → List Char
  | .password => ['p']
  | .connection => ['u', 'c']

/-- The letters of the names. -/
def Key.letters : Key → List Char
  | .password => "password".toList
  | .connection => "uriconnectionstring".toList

theorem uriAt_none (h : letter 'm' c = false) (s : List Char) : uriAt (c :: s) = none := by
  have hword : "mongodb".toList = 'm' :: "ongodb".toList := rfl
  rw [uriAt, schemeAt, hword, wordAt_none h]

theorem pairAt_none (h : ∀ p ∈ key.firsts, letter p c = false) (s : List Char) : pairAt key (c :: s) = none := by
  have hname : nameAt key (c :: s) = none := by
    cases key with
    | password =>
      have hword : "password".toList = 'p' :: "assword".toList := rfl
      rw [nameAt, hword, wordAt_none (h 'p' List.mem_cons_self)]
    | connection =>
      have huri : "uri".toList = 'u' :: "ri".toList := rfl
      have hconnection : "connection".toList = 'c' :: "onnection".toList := rfl
      rw [nameAt, huri, wordAt_none (h 'u' List.mem_cons_self), hconnection,
        wordAt_none (h 'c' (List.mem_cons_of_mem _ List.mem_cons_self))]
  rw [pairAt, headAt, hname]

theorem wordAt_letters : ∀ {w s a r : List Char}, wordAt w s = some (a, r) → ∀ c ∈ a, ∃ p ∈ w, letter p c = true
  | [], _, _, _, h => by
    obtain ⟨rfl, rfl⟩ := Prod.mk.inj (Option.some.inj h)
    simp
  | p :: w, [], _, _, h => by cases h
  | p :: w, c :: s, a, r, h => by
    rw [wordAt] at h
    split at h
    · next hletter =>
      obtain ⟨⟨a', r'⟩, hw, hx⟩ := Option.map_eq_some_iff.1 h
      obtain ⟨rfl, rfl⟩ := Prod.mk.inj hx
      intro x hx
      rcases List.mem_cons.1 hx with rfl | hx
      · exact ⟨p, List.mem_cons_self, hletter⟩
      · obtain ⟨q, hq, hletter'⟩ := wordAt_letters hw x hx
        exact ⟨q, List.mem_cons_of_mem p hq, hletter'⟩
    · cases h

theorem schemeAt_letters (h : schemeAt s = some (a, r)) : ∀ c ∈ a, ∃ p ∈ "mongodb+srv://".toList, letter p c = true := by
  unfold schemeAt at h
  split at h
  · cases h
  · next name r' hname =>
    obtain ⟨⟨b, r''⟩, hslashes, hx⟩ := Option.map_eq_some_iff.1 h
    obtain ⟨rfl, rfl⟩ := Prod.mk.inj hx
    intro c hc
    rw [List.mem_append, List.mem_append] at hc
    rcases hc with (hc | hc) | hc
    · obtain ⟨p, hp, hletter⟩ := wordAt_letters hname c hc
      exact ⟨p, List.mem_of_mem_take (i := 7) hp, hletter⟩
    · cases hsrv : wordAt "+srv".toList r' with
      | none =>
        rw [hsrv] at hc
        cases hc
      | some x =>
        rw [hsrv] at hc
        obtain ⟨p, hp, hletter⟩ := wordAt_letters (a := x.1) (r := x.2) hsrv c hc
        exact ⟨p, List.mem_of_mem_drop (i := 7) (List.mem_of_mem_take (i := 4) hp), hletter⟩
    · obtain ⟨p, hp, hletter⟩ := wordAt_letters hslashes c hc
      exact ⟨p, List.mem_of_mem_drop (i := 11) hp, hletter⟩

theorem headAt_letters (h : headAt key s = some (a, r)) :
    ∀ c ∈ a, (∃ p ∈ key.letters, letter p c = true) ∨ isWhitespace c = true ∨ isSeparator c = true := by
  have hname : ∀ {s a r : List Char}, nameAt key s = some (a, r) → ∀ c ∈ a, (∃ p ∈ key.letters, letter p c = true) ∨ isWhitespace c = true := by
    intro s a r h c hc
    cases key with
    | password => exact .inl (wordAt_letters h c hc)
    | connection =>
      rw [nameAt] at h
      split at h
      · next x hx =>
        obtain rfl := Option.some.inj h
        obtain ⟨p, hp, hletter⟩ := wordAt_letters hx c hc
        exact .inl ⟨p, List.mem_of_mem_take (i := 3) hp, hletter⟩
      · split at h
        · cases h
        · next name r' hword =>
          obtain ⟨⟨b, r''⟩, hstring, hx⟩ := Option.map_eq_some_iff.1 h
          obtain ⟨rfl, rfl⟩ := Prod.mk.inj hx
          rw [List.mem_append, List.mem_append] at hc
          rcases hc with (hc | hc) | hc
          · obtain ⟨p, hp, hletter⟩ := wordAt_letters hword c hc
            exact .inl ⟨p, List.mem_of_mem_drop (i := 3) (List.mem_of_mem_take (i := 10) hp), hletter⟩
          · exact .inr (List.all_eq_true.1 List.all_takeWhile c hc)
          · obtain ⟨p, hp, hletter⟩ := wordAt_letters hstring c hc
            exact .inl ⟨p, List.mem_of_mem_drop (i := 13) hp, hletter⟩
  unfold headAt at h
  split at h
  · cases h
  · next name r' hn =>
    split at h
    · next c' r'' hdrop =>
      split at h
      · next hsep =>
        obtain ⟨rfl, -⟩ := Prod.mk.inj (Option.some.inj h)
        intro c hc
        rw [List.mem_append, List.mem_append, List.mem_cons] at hc
        rcases hc with (hc | hc) | rfl | hc
        · exact (hname hn c hc).imp_right .inl
        · exact .inr (.inl (List.all_eq_true.1 List.all_takeWhile c hc))
        · exact .inr (.inr hsep)
        · exact .inr (.inl (List.all_eq_true.1 List.all_takeWhile c hc))
      · cases h
    · cases h

/-- The characters that a letter of a pattern stands for. -/
def spellings (p : Char) : List Char := [p, p.toUpper] ++ if p = 's' then ['ſ'] else []

theorem mem_spellings (h : letter p c = true) : c ∈ spellings p := by
  rcases letter_cases h with rfl | rfl | ⟨rfl, rfl⟩
  · simp [spellings]
  · simp [spellings]
  · simp [spellings]

theorem scheme_no_pair (h : schemeAt scheme = some (scheme, [])) :
    ∀ c ∈ scheme, ∀ key : Key, ∀ p ∈ key.firsts, letter p c = false := by
  have hall : ∀ q ∈ "mongodb+srv://".toList, ∀ c ∈ spellings q, ∀ key : Key, ∀ p ∈ key.firsts, letter p c = false := by
    have hcheck : ("mongodb+srv://".toList.flatMap spellings).all (fun c => [Key.password, .connection].all fun key =>
      key.firsts.all fun p => !letter p c) = true := by rfl
    intro q hq c hc key p hp
    have hc' := List.all_eq_true.1 hcheck c (List.mem_flatMap.2 ⟨q, hq, hc⟩)
    have hkey := List.all_eq_true.1 hc' key (by cases key <;> simp)
    have hp' := List.all_eq_true.1 hkey p hp
    simpa using hp'
  intro c hc
  obtain ⟨q, hq, hletter⟩ := schemeAt_letters h c hc
  exact hall q hq c (mem_spellings hletter)

/-- A character that may stand in a head. -/
def inHead (key : Key) (c : Char) : Bool := (key.letters.any fun p => letter p c) || isWhitespace c || isSeparator c

theorem head_not_letter (h : ((spellings p).all fun c => !inHead key c) = true) (hhead : headAt key head = some (head, [])) : ∀ c ∈ head, letter p c = false := by
  intro c hc
  refine eq_false_of_ne_true fun hletter => ?_
  have hnot := List.all_eq_true.1 h c (mem_spellings hletter)
  have hin : inHead key c = true := by
    rw [inHead, Bool.or_eq_true, Bool.or_eq_true, List.any_eq_true, or_assoc]
    exact headAt_letters hhead c hc
  rw [hin] at hnot
  cases hnot

theorem head_no_other (h : headAt key head = some (head, [])) :
    (∀ c ∈ head, letter 'm' c = false) ∧ ∀ other, other ≠ key → ∀ c ∈ head, ∀ p ∈ other.firsts, letter p c = false := by
  refine ⟨head_not_letter (by cases key <;> rfl) h, fun other hne c hc p hp => head_not_letter ?_ h c hc⟩
  cases key with
  | password =>
    cases other with
    | password => exact absurd rfl hne
    | connection =>
      simp only [Key.firsts, List.mem_cons, List.not_mem_nil, or_false] at hp
      rcases hp with rfl | rfl
      · rfl
      · rfl
  | connection =>
    cases other with
    | connection => exact absurd rfl hne
    | password =>
      obtain rfl := List.mem_singleton.1 hp
      rfl

/-! ## Redaction -/

def uri : Pattern Char := ⟨uriAt, uriAt_shrinks⟩

def pair (key : Key) : Pattern Char := ⟨pairAt key, pairAt_shrinks⟩

/-- `redact` -/
def redact (input : List Char) : List Char :=
  replaceAll (pair .connection) (replaceAll (pair .password) (replaceAll uri input))

end Redaction
