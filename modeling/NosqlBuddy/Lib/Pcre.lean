import NosqlBuddy.Lib.Wildcards

/-!
# A fragment of PCRE without options

`regexMatch` reads a regular expression of literals, escaped literals, `.`, `*` behind one of these, `^` and `$`, and searches a
string for it: `.` is every character but a newline, `^` the start of the subject, `$` its end or the place before a newline that
ends it. A text outside the fragment has no meaning here. `regexMatch_anchored`: what `^…$` around a pattern with wildcards matches.

The limits of an engine (on the length of the text, on backtracking) are left out.
-/

namespace Pcre
open Wildcards

/-- What matches one character. -/
inductive Single where
  | any
  | lit (c : Char)
deriving DecidableEq, Repr

def Single.has : Single → Char → Bool
  | .any, c => c != '\n'
  | .lit d, c => c == d

inductive Token where
  | single (S : Single)
  | star
  | bol
  | eol
deriving DecidableEq, Repr

inductive Item where
  | one (S : Single)
  | many (S : Single)
  | bol
  | eol
deriving DecidableEq, Repr

/-! ## Reading -/

/-- A backslash before a letter or a digit is a class or an assertion. -/
def classLetter (c : Char) : Bool := c.isAlpha || c.isDigit

/-- The characters with a meaning outside the fragment. -/
def outside : List Char := ['+', '?', '(', ')', '[', '\x7b', '|']

def lex : List Char → Option (List Token)
  | [] => some []
  | [c] => if c = '\\' then none else (token c).map ([·])
  | c :: d :: cs =>
    if c = '\\' then if classLetter d then none else (lex cs).map (.single (.lit d) :: ·)
    else (token c).bind fun t => (lex (d :: cs)).map (t :: ·)
where
  token (c : Char) : Option Token :=
    if c = '.' then some (.single .any)
    else if c = '*' then some .star
    else if c = '^' then some .bol
    else if c = '$' then some .eol
    else if c ∈ outside then none
    else some (.single (.lit c))

def group : List Token → Option (List Item)
  | [] => some []
  | .single S :: .star :: ts => (group ts).map (.many S :: ·)
  | .single S :: ts => (group ts).map (.one S :: ·)
  | .bol :: ts => (group ts).map (.bol :: ·)
  | .eol :: ts => (group ts).map (.eol :: ·)
  | .star :: _ => none

/-! ## Matching -/

/-- A character any number of times, and then what the continuation matches. -/
def star (S : Single) (k : Bool → List Char → Bool) : Bool → List Char → Bool
  | start, [] => k start []
  | start, c :: s => k start (c :: s) || (S.has c && star S k false s)

/-- The items match at this place; `start` is whether it is the start of the subject. -/
def run : List Item → Bool → List Char → Bool
  | [], _, _ => true
  | .one S :: is, _, s => match s with
    | [] => false
    | c :: s => S.has c && run is false s
  | .many S :: is, start, s => star S (run is) start s
  | .bol :: is, start, s => start && run is start s
  | .eol :: is, start, s => (s == [] || s == ['\n']) && run is start s

/-- At this place, or at a later one. -/
def search (is : List Item) : Bool → List Char → Bool
  | start, [] => run is start []
  | start, c :: s => run is start (c :: s) || search is false s

def regexMatch (regex s : String) : Option Bool :=
  ((lex regex.toList).bind group).map fun is => search is true s.toList

/-! ## Anchored patterns -/

attribute [local simp] lex group star run search

theorem star_iff :
    star S k start s = true ↔ ∃ t r, s = t ++ r ∧ (∀ c ∈ t, S.has c = true) ∧ k (start && t.isEmpty) r = true := by
  induction s generalizing start with
  | nil =>
    rw [star]
    constructor
    · intro h
      exact ⟨[], [], rfl, by simp, by simpa using h⟩
    · rintro ⟨t, r, hcut, _, hk⟩
      obtain ⟨rfl, rfl⟩ := List.append_eq_nil_iff.1 hcut.symm
      simpa using hk
  | cons c s ih =>
    rw [star, Bool.or_eq_true, Bool.and_eq_true, ih]
    constructor
    · rintro (h | ⟨hc, t, r, rfl, ht, hk⟩)
      · exact ⟨[], c :: s, rfl, by simp, by simpa using h⟩
      · exact ⟨c :: t, r, rfl, List.forall_mem_cons.2 ⟨hc, ht⟩, by simpa using hk⟩
    · rintro ⟨t, r, hcut, ht, hk⟩
      cases t with
      | nil =>
        rw [List.nil_append] at hcut
        subst hcut
        exact .inl (by simpa using hk)
      | cons d t =>
        obtain ⟨rfl, rfl⟩ := List.cons.inj hcut
        obtain ⟨hc, ht⟩ := List.forall_mem_cons.1 ht
        exact .inr ⟨hc, t, r, rfl, ht, by simpa using hk⟩

/-- The items of an element. -/
def item : Elem Char → Item
  | .run => .many .any
  | .one => .one .any
  | .lit c => .one (.lit c)

theorem run_items {es : List (Elem Char)} {start : Bool} {s : List Char} :
    run (es.map item ++ [.eol]) start s = true ↔ ∃ t, Fits (· ≠ '\n') es t ∧ (s = t ∨ s = t ++ ['\n']) := by
  induction es generalizing start s with
  | nil =>
    simp only [List.map_nil, List.nil_append, run, Bool.and_true, Bool.or_eq_true, beq_iff_eq]
    constructor
    · rintro (rfl | rfl)
      · exact ⟨[], .nil, .inl rfl⟩
      · exact ⟨[], .nil, .inr rfl⟩
    · rintro ⟨t, ⟨⟩, rfl | rfl⟩
      · exact .inl rfl
      · exact .inr rfl
  | cons e es ih =>
    cases e with
    | lit c =>
      have hstep : run ((Elem.lit c :: es).map item ++ [.eol]) start s = true ↔
          ∃ r, s = c :: r ∧ run (es.map item ++ [.eol]) false r = true := by
        cases s with
        | nil => simp [run, item]
        | cons d s =>
          simp only [List.map_cons, item, List.cons_append, run, Single.has, Bool.and_eq_true, beq_iff_eq]
          constructor
          · rintro ⟨rfl, hr⟩
            exact ⟨s, rfl, hr⟩
          · rintro ⟨r, hcut, hr⟩
            obtain ⟨rfl, rfl⟩ := List.cons.inj hcut
            exact ⟨rfl, hr⟩
      rw [hstep]
      constructor
      · rintro ⟨r, rfl, hr⟩
        obtain ⟨t, ht, hs⟩ := ih.1 hr
        exact ⟨c :: t, .lit c ht, by simpa using hs⟩
      · rintro ⟨t, ht, hs⟩
        obtain ⟨r, rfl, hr⟩ := fits_lit.1 ht
        rcases hs with rfl | rfl
        · exact ⟨r, rfl, ih.2 ⟨r, hr, .inl rfl⟩⟩
        · exact ⟨r ++ ['\n'], rfl, ih.2 ⟨r, hr, .inr rfl⟩⟩
    | one =>
      have hstep : run ((Elem.one :: es).map item ++ [.eol]) start s = true ↔
          ∃ d r, s = d :: r ∧ d ≠ '\n' ∧ run (es.map item ++ [.eol]) false r = true := by
        cases s with
        | nil => simp [run, item]
        | cons d s => simp [run, item, Single.has]
      rw [hstep]
      constructor
      · rintro ⟨d, r, rfl, hd, hr⟩
        obtain ⟨t, ht, hs⟩ := ih.1 hr
        exact ⟨d :: t, .one hd ht, by simpa using hs⟩
      · rintro ⟨t, ht, hs⟩
        obtain ⟨d, r, rfl, hd, hr⟩ := fits_one.1 ht
        rcases hs with rfl | rfl
        · exact ⟨d, r, rfl, hd, ih.2 ⟨r, hr, .inl rfl⟩⟩
        · exact ⟨d, r ++ ['\n'], rfl, hd, ih.2 ⟨r, hr, .inr rfl⟩⟩
    | run =>
      have hstep : run ((Elem.run :: es).map item ++ [.eol]) start s = true ↔
          ∃ u r, s = u ++ r ∧ (∀ c ∈ u, c ≠ '\n') ∧ run (es.map item ++ [.eol]) (start && u.isEmpty) r = true := by
        simp only [List.map_cons, item, List.cons_append, run]
        rw [star_iff]
        simp [Single.has]
      rw [hstep]
      constructor
      · rintro ⟨u, r, rfl, hu, hr⟩
        obtain ⟨t, ht, hs⟩ := ih.1 hr
        refine ⟨u ++ t, .run hu ht, ?_⟩
        rcases hs with rfl | rfl
        · exact .inl rfl
        · exact .inr (List.append_assoc u t _).symm
      · rintro ⟨t, ht, hs⟩
        obtain ⟨u, r, rfl, hu, hr⟩ := fits_run.1 ht
        rcases hs with rfl | rfl
        · exact ⟨u, r, rfl, hu, ih.2 ⟨r, hr, .inl rfl⟩⟩
        · exact ⟨u, r ++ ['\n'], List.append_assoc u r _, hu, ih.2 ⟨r, hr, .inr rfl⟩⟩

theorem run_bol_false (is : List Item) (s : List Char) : search (.bol :: is) false s = false := by
  induction s with
  | nil => simp [search, run]
  | cons c s ih => simp [search, run, ih]

theorem search_bol (is : List Item) (s : List Char) : search (.bol :: is) true s = run is true s := by
  cases s with
  | nil => simp [search, run]
  | cons c s => simp [search, run, run_bol_false]

theorem lex_token (hc : c ≠ '\\') (rest : List Char) :
    lex (c :: rest) = (lex.token c).bind fun t => (lex rest).map (t :: ·) := by
  cases rest with
  | nil =>
    have hnil : lex [] = some [] := rfl
    rw [hnil, lex, if_neg hc]
    cases lex.token c <;> rfl
  | cons d cs => rw [lex, if_neg hc]

theorem lex_escaped (hd : classLetter d = false) (rest : List Char) :
    lex ('\\' :: d :: rest) = (lex rest).map (.single (.lit d) :: ·) := by
  rw [lex, if_pos rfl, hd]
  rfl

/-- The text of an element; `escape` writes a character that stands for itself. -/
def elemText (escape : Char → List Char) : Elem Char → List Char
  | .run => ['.', '*']
  | .one => ['.']
  | .lit c => escape c

/-- The anchored regular expression of a pattern. -/
def anchored (escape : Char → List Char) (es : List (Elem Char)) : List Char := '^' :: es.flatMap (elemText escape) ++ ['$']

def elemTokens : Elem Char → List Token
  | .run => [.single .any, .star]
  | .one => [.single .any]
  | .lit c => [.single (.lit c)]

section
variable {escape : Char → List Char} (hescape : ∀ c rest, lex (escape c ++ rest) = (lex rest).map (.single (.lit c) :: ·))
include hescape

theorem lex_elems (es : List (Elem Char)) :
    lex (es.flatMap (elemText escape) ++ ['$']) = some (es.flatMap elemTokens ++ [.eol]) := by
  induction es with
  | nil => rfl
  | cons e es ih =>
    rw [List.flatMap_cons, List.flatMap_cons, List.append_assoc, List.append_assoc]
    cases e with
    | run =>
      have hstar : lex ('*' :: (es.flatMap (elemText escape) ++ ['$'])) = some (.star :: (es.flatMap elemTokens ++ [.eol])) := by
        rw [lex_token (by decide), ih]
        rfl
      rw [elemText, List.cons_append, lex_token (by decide), List.cons_append, List.nil_append, hstar]
      rfl
    | one =>
      rw [elemText, List.cons_append, lex_token (by decide), List.nil_append, ih]
      rfl
    | lit c =>
      rw [elemText, hescape, ih]
      rfl

theorem lex_anchored (es : List (Elem Char)) : lex (anchored escape es) = some (.bol :: (es.flatMap elemTokens ++ [.eol])) := by
  rw [anchored, List.cons_append, lex_token (by decide), lex_elems hescape]
  rfl

end

theorem group_single (S : Single) (h : ts.head? ≠ some .star) :
    group (.single S :: ts) = (group ts).map (.one S :: ·) := by
  cases ts with
  | nil => rfl
  | cons t ts =>
    cases t with
    | star => exact absurd rfl h
    | _ => rfl

theorem head_elemTokens (es : List (Elem Char)) : (es.flatMap elemTokens ++ [Token.eol]).head? ≠ some .star := by
  cases es with
  | nil => simp
  | cons e es => cases e <;> simp [elemTokens]

theorem group_elems (es : List (Elem Char)) : group (es.flatMap elemTokens ++ [.eol]) = some (es.map item ++ [.eol]) := by
  induction es with
  | nil => rfl
  | cons e es ih =>
    rw [List.flatMap_cons, List.append_assoc]
    cases e with
    | run =>
      rw [elemTokens, List.cons_append, List.cons_append, List.nil_append, group, ih]
      rfl
    | one =>
      rw [elemTokens, List.cons_append, List.nil_append, group_single _ (head_elemTokens es), ih]
      rfl
    | lit c =>
      rw [elemTokens, List.cons_append, List.nil_append, group_single _ (head_elemTokens es), ih]
      rfl

theorem item_inj (h : item e = item e') : e = e' := by
  cases e <;> cases e' <;> simp_all [item]

theorem anchored_inj (hescape : ∀ c rest, lex (escape c ++ rest) = (lex rest).map (.single (.lit c) :: ·)) (h : anchored escape es = anchored escape es') : es = es' := by
  have hlex := (lex_anchored hescape es).symm.trans ((congrArg lex h).trans (lex_anchored hescape es'))
  have htokens := (List.cons.inj (Option.some.inj hlex)).2
  have hitems := (group_elems es).symm.trans ((congrArg group htokens).trans (group_elems es'))
  exact (List.map_inj_right fun _ _ => item_inj).1 (List.append_cancel_right (Option.some.inj hitems))

/-- **An anchored pattern matches a string, or one with a newline behind it.** -/
theorem regexMatch_anchored (hescape : ∀ c rest, lex (escape c ++ rest) = (lex rest).map (.single (.lit c) :: ·)) (es : List (Elem Char)) (s : String) :
    ∃ b, regexMatch (String.ofList (anchored escape es)) s = some b ∧
      (b = true ↔ ∃ t, Fits (· ≠ '\n') es t ∧ (s.toList = t ∨ s.toList = t ++ ['\n'])) := by
  refine ⟨_, ?_, @run_items es true s.toList⟩
  rw [regexMatch, String.toList_ofList, lex_anchored hescape, Option.bind_some, group, group_elems, Option.map_some, Option.map_some,
    search_bol]

end Pcre
