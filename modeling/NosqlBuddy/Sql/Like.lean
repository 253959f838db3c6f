import NosqlBuddy.Lib.Pcre
import NosqlBuddy.Sql.Expr

/-!
# `LIKE`

What a `LIKE` pattern means, against the regular expression it becomes (`like_pattern_to_regex`, `like_to_agg_expr`,
sql_to_mongo.rs:1143-1207, 1413-1424). `likeElements` reads a pattern with an escape character, which `Like` then matches: the
translation reads every pattern with a backslash. A `.` of the server is no newline, and its `$` stands before a last one
(`like_newlines_iff`); the `ESCAPE` of a statement is not looked at (`escape_kept_iff`).
-/

namespace Sql
open Wildcards Pcre Warned Mongo

/-! ## The meaning of a pattern -/

def wildcard (c : Char) : Elem Char := if c = '%' then .run else if c = '_' then .one else .lit c

/-- The escape character takes the next one literally; at the end it stands for itself. -/
def likeElements (esc : Char) : List Char → List (Elem Char)
  | [] => []
  | [c] => [if c = esc then .lit c else wildcard c]
  | c :: d :: cs => if c = esc then .lit d :: likeElements esc cs else wildcard c :: likeElements esc (d :: cs)

/-- `s LIKE p ESCAPE esc`. -/
def Like (esc : Char) (p s : String) : Prop := Fits (fun _ => True) (likeElements esc p.toList) s.toList

attribute [local simp] likeElements

theorem likeElements_cons (hc : c ≠ esc) (cs : List Char) :
    likeElements esc (c :: cs) = wildcard c :: likeElements esc cs := by
  cases cs with
  | nil =>
    have hnil : likeElements esc [] = [] := rfl
    rw [hnil, likeElements, if_neg hc]
  | cons d cs => rw [likeElements, if_neg hc]

theorem likeElements_escaped (esc d : Char) (cs : List Char) : likeElements esc (esc :: d :: cs) = .lit d :: likeElements esc cs := by
  rw [likeElements, if_pos rfl]

theorem likeElements_last (esc : Char) : likeElements esc [esc] = [.lit esc] := by
  rw [likeElements, if_pos rfl]

theorem likeElements_one (esc c : Char) : likeElements esc [c] = [if c = esc then .lit c else wildcard c] := by
  rw [likeElements]

theorem wildcard_lit (hrun : c ≠ '%') (hone : c ≠ '_') : wildcard c = .lit c := by
  rw [wildcard, if_neg hrun, if_neg hone]

/-! ## The regular expression -/

theorem likePatternChars_eq (cs : List Char) : likePatternChars cs = (likeElements '\\' cs).flatMap (elemText regexEscape) := by
  fun_induction likePatternChars cs with
  | case1 => rfl
  | case2 cs ih => rw [likeElements_cons (by decide), List.flatMap_cons, ih]; rfl
  | case3 cs ih => rw [likeElements_cons (by decide), List.flatMap_cons, ih]; rfl
  | case4 => rfl
  | case5 c cs ih => rw [likeElements_escaped, List.flatMap_cons, ih]; rfl
  | case6 c cs hrun hone hlast hesc ih =>
    have hc : c ≠ '\\' := by
      rintro rfl
      cases cs with
      | nil => exact hlast rfl rfl
      | cons d cs => exact hesc d cs rfl rfl
    rw [likeElements_cons hc, wildcard_lit hrun hone, List.flatMap_cons, ih]
    rfl

theorem lex_regexEscape (c : Char) (rest : List Char) : lex (regexEscape c ++ rest) = (lex rest).map (.single (.lit c) :: ·) := by
  by_cases hmeta : isMetaCharacter c = true
  · have hclass : classLetter c = false := by
      have hall : ("\\.+*?()|[]\x7b\x7d^$#&-~".toList.all fun c => !classLetter c) = true := by decide
      simpa using List.all_eq_true.1 hall c (List.contains_iff_mem.1 hmeta)
    rw [regexEscape, if_pos hmeta]
    exact lex_escaped hclass rest
  · have hspecial : ∀ d ∈ '\\' :: '.' :: '*' :: '^' :: '$' :: outside, c ≠ d := by
      have hall : ('\\' :: '.' :: '*' :: '^' :: '$' :: outside).all isMetaCharacter = true := by decide
      rintro d hd rfl
      exact hmeta (List.all_eq_true.1 hall c hd)
    have htoken : lex.token c = some (.single (.lit c)) := by
      rw [lex.token, if_neg (hspecial '.' (by simp)), if_neg (hspecial '*' (by simp)), if_neg (hspecial '^' (by simp)),
        if_neg (hspecial '$' (by simp)), if_neg fun hmem => hspecial c (by simp [hmem]) rfl]
    rw [regexEscape, if_neg hmeta, List.singleton_append, lex_token (hspecial '\\' (by simp)), htoken, Option.bind_some]

theorem likePatternToRegex_eq (p : String) :
    likePatternToRegex p = String.ofList (anchored regexEscape (likeElements '\\' p.toList)) := by
  rw [likePatternToRegex, likePatternChars_eq, anchored]

/-- On this string the server's answer is that of `LIKE`. -/
def LikeExact (p s : String) : Prop := ∃ b, regexMatch (likePatternToRegex p) s = some b ∧ (b = true ↔ Like '\\' p s)

/-- How many newlines the pattern spells. -/
def spelledNewlines (p : String) : Nat := spelled '\n' (likeElements '\\' p.toList)

def newlines (s : String) : Nat := s.toList.count '\n'

/-- The string has no more newlines than the pattern spells, or `LIKE` answers as `$` does: it matches if there is one newline more,
at the end, and what stands before it matches. -/
def NewlinesSpelled (p s : String) : Prop :=
  newlines s ≤ spelledNewlines p ∨
    (Like '\\' p s ↔ newlines s = spelledNewlines p + 1 ∧ ∃ t : String, s = t ++ "\n" ∧ Like '\\' p t)

theorem server_iff (p s : String) :
    (∃ t, Fits (· ≠ '\n') (likeElements '\\' p.toList) t ∧ (s.toList = t ∨ s.toList = t ++ ['\n'])) ↔
      (Like '\\' p s ∧ newlines s = spelledNewlines p) ∨
        (newlines s = spelledNewlines p + 1 ∧ ∃ t : String, s = t ++ "\n" ∧ Like '\\' p t) := by
  constructor
  · rintro ⟨t, ht, hs⟩
    obtain ⟨hlike, hcount⟩ := fits_ne_iff.1 ht
    rcases hs with rfl | hs
    · exact .inl ⟨hlike, hcount⟩
    · refine .inr ⟨?_, String.ofList t, ?_, ?_⟩
      · rw [newlines, hs, List.count_append, hcount, spelledNewlines]
        rfl
      · rw [← String.toList_inj, hs, String.toList_append, String.toList_ofList]
        rfl
      · rwa [Like, String.toList_ofList]
  · rintro (⟨hlike, hcount⟩ | ⟨hcount, t, rfl, hlike⟩)
    · exact ⟨s.toList, fits_ne_iff.2 ⟨hlike, hcount⟩, .inl rfl⟩
    · have hlen : newlines (t ++ "\n") = t.toList.count '\n' + 1 := by
        rw [newlines, String.toList_append, List.count_append]
        rfl
      refine ⟨t.toList, fits_ne_iff.2 ⟨hlike, ?_⟩, .inr (String.toList_append)⟩
      rw [spelledNewlines] at hcount
      omega

theorem Like.spelled_le (h : Like '\\' p s) : spelledNewlines p ≤ newlines s := Wildcards.spelled_le '\n' h

theorem like_newlines_iff (p s : String) : LikeExact p s ↔ NewlinesSpelled p s := by
  obtain ⟨b, hb, hmatch⟩ := regexMatch_anchored lex_regexEscape (likeElements '\\' p.toList) s
  rw [server_iff] at hmatch
  have hexact : LikeExact p s ↔ (b = true ↔ Like '\\' p s) := by
    rw [LikeExact, likePatternToRegex_eq, hb]
    simp
  rw [hexact, hmatch, NewlinesSpelled]
  by_cases hfew : newlines s ≤ spelledNewlines p
  · have hfinal : ¬ newlines s = spelledNewlines p + 1 := by omega
    have hcount : Like '\\' p s → newlines s = spelledNewlines p := fun h => Nat.le_antisymm hfew h.spelled_le
    constructor
    · exact fun _ => .inl hfew
    · rintro _
      constructor
      · rintro (⟨hlike, _⟩ | ⟨h, _⟩)
        · exact hlike
        · exact absurd h hfinal
      · exact fun hlike => .inl ⟨hlike, hcount hlike⟩
  · have hmany : ¬ newlines s = spelledNewlines p := by omega
    constructor
    · intro h
      refine .inr (h.symm.trans ?_)
      constructor
      · rintro (⟨_, h⟩ | h)
        · exact absurd h hmany
        · exact h
      · exact .inr
    · rintro (h | h)
      · exact absurd h hfew
      · rw [h]
        constructor
        · rintro (⟨_, h⟩ | h)
          · exact absurd h hmany
          · exact h
        · exact .inr

/-! ## The escape character -/

theorem eq_of_wildcard (h : wildcard x = .lit a) : x = a := by
  rw [wildcard] at h
  split at h
  · cases h
  · split at h
    · cases h
    · exact Elem.lit.inj h

theorem likeElements_shift (hab : a ≠ b) (ha : wildcard a = .lit a) :
    ∀ (m : Nat) (cs : List Char), likeElements a cs ≠ List.replicate (m + 1) (.lit a) ++ likeElements b cs
  | m, [] => by simp [likeElements, List.replicate_succ]
  | m, [x] => by
    intro h
    by_cases hx : x = a
    · subst hx
      have hlen := congrArg List.length h
      rw [likeElements_last, likeElements_cons hab] at hlen
      simp [likeElements] at hlen
    · rw [likeElements_cons hx, List.replicate_succ, List.cons_append] at h
      exact hx (eq_of_wildcard (List.cons.inj h).1)
  | m, x :: y :: cs => by
    intro h
    by_cases hx : x = a
    · subst hx
      rw [likeElements_escaped, List.replicate_succ, List.cons_append] at h
      obtain ⟨hy, htail⟩ := List.cons.inj h
      obtain rfl := Elem.lit.inj hy
      rw [likeElements_cons hab, likeElements_cons hab, ha] at htail
      refine likeElements_shift hab ha (m + 1) cs (htail.trans ?_)
      rw [List.replicate_succ', List.replicate_succ']
      simp
    · rw [likeElements_cons hx, List.replicate_succ, List.cons_append] at h
      exact hx (eq_of_wildcard (List.cons.inj h).1)

/-- The pattern has neither escape character but at its end, and none of them is a wildcard there. -/
def EscapeIdle (c : Char) (cs : List Char) : Prop :=
  c = '\\' ∨ (c ∉ cs.dropLast ∧ '\\' ∉ cs.dropLast ∧ (c = '%' ∨ c = '_' → c ∉ cs))

theorem likeElements_of_idle {c : Char} : ∀ {cs : List Char}, EscapeIdle c cs → likeElements c cs = likeElements '\\' cs
  | [], _ => rfl
  | [x], h => by
    rcases h with rfl | ⟨_, _, hwild⟩
    · rfl
    · rw [likeElements_one, likeElements_one]
      by_cases hx : x = c
      · subst hx
        have hlit : wildcard x = .lit x :=
          wildcard_lit (fun h => hwild (.inl h) List.mem_cons_self) fun h => hwild (.inr h) List.mem_cons_self
        rw [if_pos rfl, hlit, ite_self]
      · rw [if_neg hx]
        by_cases hb : x = '\\'
        · subst hb
          rfl
        · rw [if_neg hb]
  | x :: y :: cs, h => by
    rcases h with rfl | ⟨hc, hb, hwild⟩
    · rfl
    · rw [List.dropLast_cons_cons, List.mem_cons, not_or] at hc hb
      have htail := @likeElements_of_idle c (y :: cs) (.inr ⟨hc.2, hb.2, fun h hmem => hwild h (List.mem_cons_of_mem x hmem)⟩)
      rw [likeElements_cons (Ne.symm hc.1), likeElements_cons (Ne.symm hb.1), htail]

theorem idle_of_likeElements : ∀ {cs : List Char}, likeElements c cs = likeElements '\\' cs → EscapeIdle c cs
  | [], _ => .inr (by simp)
  | [x], h => by
    refine .inr ⟨by simp, by simp, fun hwild hmem => ?_⟩
    obtain rfl : c = x := by simpa using hmem
    rcases hwild with rfl | rfl
    · exact absurd h (by decide)
    · exact absurd h (by decide)
  | x :: y :: cs, h => by
    by_cases hc : c = '\\'
    · exact .inl hc
    by_cases hx : x = c
    · subst hx
      rw [likeElements_escaped, likeElements_cons hc] at h
      obtain ⟨hhead, htail⟩ := List.cons.inj h
      obtain rfl := eq_of_wildcard hhead.symm
      rw [likeElements_cons hc, ← hhead] at htail
      exact absurd htail (likeElements_shift hc hhead.symm 0 cs)
    by_cases hb : x = '\\'
    · subst hb
      rw [likeElements_escaped, likeElements_cons hx] at h
      obtain ⟨hhead, htail⟩ := List.cons.inj h
      obtain rfl := eq_of_wildcard hhead
      rw [likeElements_cons hx] at htail
      exact absurd htail.symm (likeElements_shift hx rfl 0 cs)
    rw [likeElements_cons hx, likeElements_cons hb] at h
    rcases idle_of_likeElements (List.cons.inj h).2 with hc' | ⟨hc', hb', hwild⟩
    · exact absurd hc' hc
    · refine .inr ⟨?_, ?_, fun h => ?_⟩
      · rw [List.dropLast_cons_cons, List.mem_cons, not_or]
        exact ⟨Ne.symm hx, hc'⟩
      · rw [List.dropLast_cons_cons, List.mem_cons, not_or]
        exact ⟨Ne.symm hb, hb'⟩
      · rw [List.mem_cons, not_or]
        exact ⟨Ne.symm hx, hwild h⟩

instance (c : Char) (cs : List Char) : Decidable (EscapeIdle c cs) := inferInstanceAs (Decidable (_ ∨ _))

theorem likeElements_eq_iff (c : Char) (cs : List Char) : likeElements c cs = likeElements '\\' cs ↔ EscapeIdle c cs :=
  ⟨idle_of_likeElements, likeElements_of_idle⟩

/-- `Expr::Like` or `Expr::ILike` with its `escape_char`. -/
structure LikeNode where
  caseInsensitive : Bool
  negated : Bool
  expr : SqlExpr
  pattern : SqlExpr
  escapeChar : Option Char

/-- The arms of `expr_to_agg_expr` for it do not name the escape character (`..`). -/
def LikeNode.toExpr (n : LikeNode) : SqlExpr :=
  .like n.caseInsensitive n.negated n.expr n.pattern (if n.escapeChar.isSome then ["escape_char"] else [])

/-- The node translated with an escape character. -/
def LikeNode.escaped (n : LikeNode) (input : Value) (esc : Char) (p : String) : Value :=
  let regex := String.ofList (anchored regexEscape (likeElements esc p.toList))
  let options := if n.caseInsensitive then [("options", Value.str "i")] else []
  negateIf n.negated (.doc [("$regexMatch", .doc ([("input", input), ("regex", .str regex)] ++ options))])

/-- The node is translated with this character, or rejected. -/
def EscapeKept (today : ℤ) (n : LikeNode) (c : Char) (p : String) : Prop :=
  ∀ v, Returns (exprToAggExpr today n.toExpr) v → ∃ input, Returns (exprToAggExpr today n.expr) input ∧ v = n.escaped input c p

theorem like_returns {today : ℤ} {n : LikeNode} {p : String} (hp : Clean (likePatternString n.pattern) p) (v : Value) :
    Returns (exprToAggExpr today n.toExpr) v ↔ ∃ input, Returns (exprToAggExpr today n.expr) input ∧ v = n.escaped input '\\' p := by
  rw [LikeNode.toExpr, exprToAggExpr, likeToAggExpr, bind_returns]
  refine exists_congr fun input => and_congr_right fun _ => ?_
  rw [bind_returns]
  constructor
  · rintro ⟨q, hq, hv⟩
    obtain rfl := hq.unique hp.returns
    rw [likePatternToRegex_eq] at hv
    exact (pure_returns.1 hv).symm
  · rintro rfl
    refine ⟨p, hp.returns, ?_⟩
    rw [likePatternToRegex_eq]
    exact pure_returns.2 rfl

theorem escaped_inj {n : LikeNode} {input input' : Value} {a b : Char} {p : String} (h : n.escaped input a p = n.escaped input' b p) :
    likeElements a p.toList = likeElements b p.toList := by
  have hdoc : ∀ {x y : Value}, negateIf n.negated x = negateIf n.negated y → x = y := by
    intro x y hxy
    cases hneg : n.negated <;> simpa [negateIf, call, hneg] using hxy
  have hpair := hdoc h
  simp only [Value.doc.injEq, List.cons.injEq, Prod.mk.injEq, true_and, and_true, List.cons_append, Value.str.injEq] at hpair
  exact anchored_inj lex_regexEscape (String.ofList_injective hpair.2)

theorem escape_kept_iff (today : ℤ) (n : LikeNode) (c : Char) (hp : Clean (likePatternString n.pattern) p) :
    EscapeKept today n c p ↔ (∀ input, ¬ Returns (exprToAggExpr today n.expr) input) ∨ EscapeIdle c p.toList := by
  constructor
  · intro h
    by_cases hreject : ∀ input, ¬ Returns (exprToAggExpr today n.expr) input
    · exact .inl hreject
    · obtain ⟨input, hinput⟩ := not_forall_not.1 hreject
      obtain ⟨input', _, hv⟩ := h _ ((like_returns hp _).2 ⟨input, hinput, rfl⟩)
      exact .inr ((likeElements_eq_iff c p.toList).1 (escaped_inj hv).symm)
  · rintro (hreject | hidle) v hv
    · obtain ⟨input, hinput, _⟩ := (like_returns hp v).1 hv
      exact absurd hinput (hreject input)
    · obtain ⟨input, hinput, rfl⟩ := (like_returns hp v).1 hv
      refine ⟨input, hinput, ?_⟩
      rw [LikeNode.escaped, LikeNode.escaped, (likeElements_eq_iff c p.toList).2 hidle]

/-- **When a pattern means on the server what it means in the statement.** -/
theorem like_iff (p s : String) (today : ℤ) (n : LikeNode) :
    (LikeExact p s ↔ NewlinesSpelled p s) ∧
    ∀ c, n.escapeChar = some c → Clean (likePatternString n.pattern) p →
      (EscapeKept today n c p ↔ (∀ input, ¬ Returns (exprToAggExpr today n.expr) input) ∨ EscapeIdle c p.toList) :=
  ⟨like_newlines_iff p s, fun c _ hp => escape_kept_iff today n c hp⟩

/-- `name LIKE '…' ESCAPE '!'`. -/
def likeName (pattern : String) : LikeNode where
  caseInsensitive := false
  negated := false
  expr := .identifier ⟨"name", none⟩
  pattern := .value (.singleQuotedString pattern)
  escapeChar := some '!'

theorem like_iff_idle : EscapeKept 0 (likeName "50%") '!' "50%" :=
  ((like_iff "50%" "" 0 (likeName "50%")).2 '!' rfl (pure_clean.2 rfl)).2 (.inr (by decide))

/-- A newline inside a run, and a percent sign that is meant literally. -/
theorem like_missed : ¬ LikeExact "a%b" "a\nb" ∧ ¬ EscapeKept 0 (likeName "50!%") '!' "50!%" := by
  constructor
  · rintro ⟨b, hb, hiff⟩
    have hserver : regexMatch (likePatternToRegex "a%b") "a\nb" = some false := by decide
    have helements : likeElements '\\' "a%b".toList = [.lit 'a', .run, .lit 'b'] := by decide
    have hchars : "a\nb".toList = 'a' :: (['\n'] ++ ['b']) := by decide
    have hlike : Like '\\' "a%b" "a\nb" := by
      rw [Like, helements, hchars]
      exact .lit 'a' (.run (by simp) (.lit 'b' .nil))
    have htrue := hiff.2 hlike
    rw [hserver, htrue] at hb
    cases hb
  · rw [escape_kept_iff 0 (likeName "50!%") '!' (pure_clean.2 rfl)]
    rintro (hreject | hidle)
    · exact hreject (.str "$name") (by decide)
    · exact absurd hidle (by decide)

end Sql
