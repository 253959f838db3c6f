import NosqlBuddy.Sql.Semantics

/-!
# Aggregation expressions mean what the SQL expression means

`PlainExpr` says which expressions `expr_to_agg_expr` keeps the meaning of: the names are field paths, no string
literal looks like one (`PlainLiteral`), every number literal is a double (`ExactLiteral`), and no operator or
function is replaced. `aggExpr_exact`: on a row without `NULL` such an expression evaluates to its SQL value.
-/

namespace Sql
open Mongo
open Mongo.Value
open Warned

variable {sv : Server} {today : ℤ} {d : Doc}

/-! ## Which expressions keep their meaning -/

/-- The literal has the value of its JSON. -/
def ExactLiteral : SqlValue → Prop
  | .number n => n.sqlValue = some n.toJson
  | .other _ => False
  | _ => True

/-- In an aggregation expression the string is not read as a path or a variable. -/
def PlainLiteral : SqlValue → Prop
  | .singleQuotedString s => isOperator s = false
  | .doubleQuotedString s => isOperator s = false
  | .escapedStringLiteral s => isOperator s = false
  | .nationalStringLiteral s => isOperator s = false
  | _ => True

/-- The name is that of a field path. -/
def PlainName (f : String) : Prop := ValidPath (splitPath f)

/-- The identifier is a plain field, or a string literal that is not read as a date tag. -/
def PlainIdent (i : Ident) : Prop :=
  if i.quoteStyle = some '"' then i.value.toList.head? ≠ some '#' else PlainName i.value

/-- The operator is translated as itself. -/
def BinaryOperator.Supported : BinaryOperator → Prop
  | .spaceship => False
  | .other _ => False
  | _ => True

mutual

/-- The expression means the same as an aggregation expression. -/
def PlainExpr : SqlExpr → Prop
  | .identifier i => PlainIdent i ∧ (i.quoteStyle = some '"' → isOperator i.value = false)
  | .compoundIdentifier is => PlainName (identChain is)
  | .nested e => PlainExpr e
  | .value v => ExactLiteral v ∧ PlainLiteral v
  | .unaryOp _ e => PlainExpr e
  | .binaryOp l op r => op.Supported ∧ PlainExpr l ∧ PlainExpr r
  | .inList e list _ => PlainExpr e ∧ PlainList list
  | .isNull e => PlainExpr e
  | .isNotNull e => PlainExpr e
  | .between e _ low high => PlainExpr e ∧ PlainExpr low ∧ PlainExpr high
  | _ => False

def PlainList : List SqlExpr → Prop
  | [] => True
  | e :: es => PlainExpr e ∧ PlainList es

end

/-! ## Aggregation expressions -/

theorem eval_call (hop : isOperator op = true)
    (h : evalList sv args d = some rs) : eval sv (call op args) d = applyOperator sv op rs := by
  rw [call, eval, if_pos hop, h]
  rfl

theorem evalList_pair (ha : eval sv a d = some r) (hb : eval sv b d = some s) :
    evalList sv [a, b] d = some [r, s] := by
  simp [evalList, ha, hb]

theorem evalList_one (ha : eval sv a d = some r) : evalList sv [a] d = some [r] := by
  simp [evalList, ha]

variable {v : Value}

theorem eval_field (hf : PlainName f) (h : column d f = some v) :
    eval sv (.str ("$" ++ f)) d = some (some v) := by
  rw [eval, evalString, reference_field (ValidPath.name hf)]
  exact (if_pos hf).trans (by rw [fieldPath_of_getPath h])

theorem eval_string (h : isOperator s = false) : eval sv (.str s) d = some (some (.str s)) := by
  rw [eval, evalString, reference_literal h]

variable {u w : Value}

theorem sqlCompare_known (hv : Known v) (hw : Known w)
    (h : sqlCompare test v w = some u) : v.rank = w.rank ∧ u = .bool (test (v.cmp w)) := by
  rw [sqlCompare, if_neg (by rintro (e | e); exacts [hv.1 e, hw.1 e])] at h
  by_cases hr : v.rank = w.rank
  · rw [if_pos hr] at h
    exact ⟨hr, (Option.some.inj h).symm⟩
  · rw [if_neg hr] at h
    exact absurd h (by simp)

theorem sqlNot_known (hv : Known v) (h : sqlNot v = some u) : ∃ b, v = .bool b ∧ u = .bool !b := by
  cases v with
  | bool b => exact ⟨b, rfl, (Option.some.inj h).symm⟩
  | null => exact absurd rfl hv.1
  | _ => exact absurd h (by simp [sqlNot])

theorem sqlAnd_known (hv : Known v) (hw : Known w) (h : sqlAnd v w = some u) :
    ∃ a b, v = .bool a ∧ w = .bool b ∧ u = .bool (a && b) := by
  cases v with
  | bool a =>
    cases w with
    | bool b => exact ⟨a, b, rfl, rfl, (Option.some.inj h).symm⟩
    | null => exact absurd rfl hw.1
    | _ => exact absurd h (by simp [sqlAnd])
  | null => exact absurd rfl hv.1
  | _ => cases w <;> exact absurd h (by simp [sqlAnd])

theorem sqlOr_known (hv : Known v) (hw : Known w) (h : sqlOr v w = some u) :
    ∃ a b, v = .bool a ∧ w = .bool b ∧ u = .bool (a || b) := by
  cases v with
  | bool a =>
    cases w with
    | bool b => exact ⟨a, b, rfl, rfl, (Option.some.inj h).symm⟩
    | null => exact absurd rfl hw.1
    | _ => exact absurd h (by simp [sqlOr])
  | null => exact absurd rfl hv.1
  | _ => cases w <;> exact absurd h (by simp [sqlOr])

theorem sqlArith_known (hv : Known v) (hw : Known w)
    (h : sqlArith f v w = some u) : ∃ a b q, v = .num a ∧ w = .num b ∧ f a b = some q ∧ u = .num q := by
  cases v with
  | num a =>
    cases w with
    | num b =>
      obtain ⟨q, hq, rfl⟩ := Option.map_eq_some_iff.1 h
      exact ⟨a, b, q, rfl, rfl, hq, rfl⟩
    | null => exact absurd rfl hw.1
    | _ => exact absurd h (by simp [sqlArith])
  | null => exact absurd rfl hv.1
  | _ => cases w <;> exact absurd h (by simp [sqlArith])

theorem arithmetic_pair (f : List ℚ → Option ℚ) (a b : ℚ) :
    arithmetic f [some (.num a), some (.num b)] = (f [a, b]).map fun q => some (.num q) := rfl

theorem applyOperator_binary {op : BinaryOperator} (hop : op.Supported) (hv : Known v) (hw : Known w)
    (h : sqlBinary op v w = some u) :
    ∃ m, Clean op.mongoOp m ∧ isOperator m = true ∧
      applyOperator sv m [some v, some w] = some (some u) := by
  cases op with
  | eq =>
    have h : sqlCompare (· == .eq) v w = some u := h
    obtain ⟨-, rfl⟩ := sqlCompare_known hv hw h
    exact ⟨"$eq", rfl, by decide, rfl⟩
  | notEq =>
    have h : sqlCompare (· != .eq) v w = some u := h
    obtain ⟨-, rfl⟩ := sqlCompare_known hv hw h
    exact ⟨"$ne", rfl, by decide, rfl⟩
  | lt =>
    obtain ⟨-, rfl⟩ := sqlCompare_known hv hw h
    exact ⟨"$lt", rfl, by decide, rfl⟩
  | ltEq =>
    obtain ⟨-, rfl⟩ := sqlCompare_known hv hw h
    exact ⟨"$lte", rfl, by decide, rfl⟩
  | gt =>
    obtain ⟨-, rfl⟩ := sqlCompare_known hv hw h
    exact ⟨"$gt", rfl, by decide, rfl⟩
  | gtEq =>
    obtain ⟨-, rfl⟩ := sqlCompare_known hv hw h
    exact ⟨"$gte", rfl, by decide, rfl⟩
  | and =>
    obtain ⟨a, b, rfl, rfl, rfl⟩ := sqlAnd_known hv hw h
    exact ⟨"$and", rfl, by decide, by simp [applyOperator]⟩
  | or =>
    obtain ⟨a, b, rfl, rfl, rfl⟩ := sqlOr_known hv hw h
    exact ⟨"$or", rfl, by decide, by simp [applyOperator]⟩
  | plus =>
    obtain ⟨a, b, q, rfl, rfl, hq, rfl⟩ := sqlArith_known hv hw h
    refine ⟨"$add", rfl, by decide, ?_⟩
    rw [show applyOperator sv "$add" [some (.num a), some (.num b)] =
      arithmetic (fun qs => some qs.sum) [some (.num a), some (.num b)] from rfl, arithmetic_pair]
    simpa using hq
  | minus =>
    obtain ⟨a, b, q, rfl, rfl, hq, rfl⟩ := sqlArith_known hv hw h
    refine ⟨"$subtract", rfl, by decide, ?_⟩
    simpa [applyOperator, arithmetic_pair] using hq
  | multiply =>
    obtain ⟨a, b, q, rfl, rfl, hq, rfl⟩ := sqlArith_known hv hw h
    refine ⟨"$multiply", rfl, by decide, ?_⟩
    simpa [applyOperator, arithmetic_pair] using hq
  | divide =>
    obtain ⟨a, b, q, rfl, rfl, hq, rfl⟩ := sqlArith_known hv hw h
    refine ⟨"$divide", rfl, by decide, ?_⟩
    simpa [applyOperator, arithmetic_pair] using hq
  | modulo =>
    obtain ⟨a, b, q, rfl, rfl, hq, rfl⟩ := sqlArith_known hv hw h
    refine ⟨"$mod", rfl, by decide, ?_⟩
    simpa [applyOperator, arithmetic_pair] using hq
  | spaceship => exact absurd hop id
  | other _ => exact absurd hop id

theorem known_bool (b : Bool) : Known (.bool b) := ⟨by simp, by simp⟩

theorem cmp_beq_eq (v w : Value) : (v.cmp w == .eq) = decide (v = w) := by
  by_cases h : v = w
  · rw [h, cmp_self]
    simp
  · rw [decide_eq_false h]
    exact beq_eq_false_iff_ne.2 fun e => h (eq_of_cmp e)

theorem sqlIn_known (hv : Known v) (hws : ∀ w ∈ ws, Known w)
    (h : sqlIn v ws = some u) : u = .bool (decide (v ∈ ws)) := by
  induction ws generalizing u with
  | nil => exact (Option.some.inj h).symm
  | cons w ws ih =>
    obtain ⟨b, hb, h⟩ := Option.bind_eq_some_iff.1 h
    obtain ⟨c, hc, h⟩ := Option.bind_eq_some_iff.1 h
    obtain ⟨-, rfl⟩ := sqlCompare_known hv (hws w List.mem_cons_self) hb
    rw [ih (fun x hx => hws x (List.mem_cons_of_mem w hx)) hc] at h
    rw [cmp_beq_eq] at h
    rw [← Option.some.inj h]
    simp

theorem any_some_eq (v : Value) (ws : List Value) : (ws.any (some · = some v)) = decide (v ∈ ws) := by
  induction ws with
  | nil => rfl
  | cons w ws ih =>
    rw [List.any_cons, ih]
    simp [eq_comm]

theorem eval_negateIf (hj : eval sv j d = some (some (.bool b)))
    (h : negateTruth negated (.bool b) = some u) : eval sv (negateIf negated j) d = some (some u) := by
  cases negated with
  | false => rw [← Option.some.inj h]; exact hj
  | true =>
    rw [← Option.some.inj h]
    exact (eval_call (by decide) (evalList_one hj)).trans rfl

theorem eval_negateJson (h : eval sv j d = some (some (.num q))) :
    eval sv (negateJson j) d = some (some (.num (-q))) := by
  have hmul : eval sv (call "$multiply" [j, .num (-1)]) d = some (some (.num (-q))) := by
    refine (eval_call (by decide) (evalList_pair h (by rfl))).trans ?_
    rw [show applyOperator sv "$multiply" [some (.num q), some (.num (-1))] =
      arithmetic (fun qs => some qs.prod) [some (.num q), some (.num (-1))] from rfl, arithmetic_pair]
    simp
  cases j with
  | num p =>
    have h : some (some (Value.num p)) = some (some (.num q)) := h
    cases h
    rfl
  | _ => exact hmul

mutual

/-- **On a row without `NULL` a plain expression evaluates to its SQL value.** -/
theorem aggExpr_exact : ∀ {e : SqlExpr} {v : Value}, PlainExpr e → Strict d e → sqlEval d e = some v →
    ∃ j, Clean (exprToAggExpr today e) j ∧ eval sv j d = some (some v)
  | .identifier i, v, hp, _, h => by
    obtain ⟨hi, hs⟩ := hp
    rw [sqlEval, sqlIdent] at h
    rw [PlainIdent] at hi
    by_cases hq : i.quoteStyle = some '"'
    · rw [if_pos hq] at h hi
      have hc : classifyIdent i = .stringLiteral i.value := by
        unfold classifyIdent
        split
        · next e => exact absurd (by rw [e]; rfl) hi
        · rw [if_pos hq]
      refine ⟨.str i.value, ?_, ?_⟩
      · rw [exprToAggExpr, hc]; rfl
      · rw [← Option.some.inj h]; exact eval_string (hs hq)
    · rw [if_neg hq] at h hi
      by_cases hd : i.value.toList.head? = some '#'
      · rw [if_pos hd] at h
        exact absurd h (by simp)
      · rw [if_neg hd] at h
        have hc : classifyIdent i = .field i.value := by
          unfold classifyIdent
          split
          · next e => exact absurd (by rw [e]; rfl) hd
          · rw [if_neg hq]
        refine ⟨.str ("$" ++ i.value), ?_, eval_field hi h⟩
        rw [exprToAggExpr, hc]; rfl
  | .compoundIdentifier is, v, hp, _, h => ⟨_, rfl, eval_field hp h⟩
  | .nested e, v, hp, hs, h => aggExpr_exact (e := e) hp hs h
  | .value l, v, hp, _, h => by
    obtain ⟨he, hl⟩ := hp
    rw [exprToAggExpr]
    rw [sqlEval] at h
    cases l with
    | number n =>
      have hn : n.sqlValue = some n.toJson := he
      refine ⟨n.toJson, rfl, ?_⟩
      rw [← Option.some.inj (hn.symm.trans h)]
      unfold Numeral.toJson
      cases nearestDouble n.toRat <;> rfl
    | singleQuotedString s => exact ⟨.str s, rfl, by rw [← Option.some.inj h]; exact eval_string hl⟩
    | doubleQuotedString s => exact ⟨.str s, rfl, by rw [← Option.some.inj h]; exact eval_string hl⟩
    | escapedStringLiteral s => exact ⟨.str s, rfl, by rw [← Option.some.inj h]; exact eval_string hl⟩
    | nationalStringLiteral s => exact ⟨.str s, rfl, by rw [← Option.some.inj h]; exact eval_string hl⟩
    | boolean b => exact ⟨.bool b, rfl, by rw [← Option.some.inj h]; rfl⟩
    | null => exact ⟨.null, rfl, by rw [← Option.some.inj h]; rfl⟩
    | other _ => exact absurd he id
  | .unaryOp op e, v, hp, hs, h => by
    obtain ⟨hs, w, hw, hk⟩ := hs
    have hp : PlainExpr e := by cases op <;> exact hp
    obtain ⟨j, hj, hev⟩ := aggExpr_exact (e := e) hp hs hw
    cases op with
    | minus =>
      rw [sqlEval, hw] at h
      have h : sqlNegate w = some v := h
      cases w with
      | num q =>
        refine ⟨negateJson j, bind_clean.2 ⟨j, hj, rfl⟩, ?_⟩
        rw [← Option.some.inj h]
        exact eval_negateJson hev
      | null => exact absurd rfl hk.1
      | _ => exact absurd h (by simp [sqlNegate])
    | plus =>
      rw [sqlEval, hw] at h
      obtain ⟨u, -, rfl⟩ := Option.map_eq_some_iff.1 h
      exact ⟨j, hj, hev⟩
    | not =>
      rw [sqlEval, hw] at h
      obtain ⟨b, rfl, rfl⟩ := sqlNot_known hk h
      exact ⟨call "$not" [j], bind_clean.2 ⟨j, hj, rfl⟩, (eval_call (by decide) (evalList_one hev)).trans rfl⟩
  | .binaryOp l op r, v, hp, hs, h => by
    obtain ⟨hop, hpl, hpr⟩ := hp
    obtain ⟨hsl, ⟨a, ha, hka⟩, hsr, ⟨b, hb, hkb⟩⟩ := hs
    obtain ⟨jl, hjl, hel⟩ := aggExpr_exact (e := l) hpl hsl ha
    obtain ⟨jr, hjr, her⟩ := aggExpr_exact (e := r) hpr hsr hb
    rw [sqlEval, ha, hb] at h
    obtain ⟨m, hm, hmo, happ⟩ := @applyOperator_binary sv _ _ _ _ hop hka hkb h
    refine ⟨call m [jl, jr], ?_, (eval_call hmo (evalList_pair hel her)).trans happ⟩
    exact bind_clean.2 ⟨m, hm, bind_clean.2 ⟨jl, hjl, bind_clean.2 ⟨jr, hjr, rfl⟩⟩⟩
  | .inList e list negated, v, hp, hs, h => by
    obtain ⟨hpe, hpl⟩ := hp
    obtain ⟨hse, ⟨a, ha, hka⟩, hsl⟩ := hs
    rw [sqlEval, ha, Option.bind_some] at h
    obtain ⟨ws, hws, h⟩ := Option.bind_eq_some_iff.1 h
    obtain ⟨b, hb, h⟩ := Option.bind_eq_some_iff.1 h
    obtain ⟨j, hj, hev⟩ := aggExpr_exact (e := e) hpe hse ha
    obtain ⟨js, hjs, hevs, hknown⟩ := aggExprs_exact hpl hsl hws
    refine ⟨negateIf negated (call "$in" [j, .arr js]), bind_clean.2 ⟨js, hjs, bind_clean.2 ⟨j, hj, rfl⟩⟩, ?_⟩
    rw [sqlIn_known hka hknown hb] at h
    refine eval_negateIf ?_ h
    have harr : eval sv (.arr js) d = some (some (.arr ws)) := by
      rw [eval, hevs]
      simp [List.map_map, Function.comp_def]
    refine (eval_call (by decide) (evalList_pair hev harr)).trans ?_
    rw [← any_some_eq]
    rfl
  | .isNull e, v, hp, hs, h => by
    obtain ⟨hs, w, hw, -⟩ := hs
    obtain ⟨j, hj, hev⟩ := aggExpr_exact (e := e) hp hs hw
    rw [sqlEval, hw] at h
    refine ⟨call "$eq" [j, .null], bind_clean.2 ⟨j, hj, rfl⟩, ?_⟩
    refine (eval_call (by decide) (evalList_pair hev (by rfl))).trans ?_
    have h : some (Value.bool (decide (w = .null))) = some v := h
    rw [← Option.some.inj h, ← cmp_beq_eq]
    rfl
  | .isNotNull e, v, hp, hs, h => by
    obtain ⟨hs, w, hw, -⟩ := hs
    obtain ⟨j, hj, hev⟩ := aggExpr_exact (e := e) hp hs hw
    rw [sqlEval, hw] at h
    refine ⟨call "$ne" [j, .null], bind_clean.2 ⟨j, hj, rfl⟩, ?_⟩
    refine (eval_call (by decide) (evalList_pair hev (by rfl))).trans ?_
    have h : some (Value.bool (!decide (w = .null))) = some v := h
    rw [← Option.some.inj h, ← cmp_beq_eq]
    rfl
  | .between e negated low high, v, hp, hs, h => by
    obtain ⟨hpe, hpl, hph⟩ := hp
    obtain ⟨hse, ⟨a, ha, hka⟩, hsl, ⟨l, hl, hkl⟩, hsh, ⟨u, hu, hku⟩⟩ := hs
    obtain ⟨j, hj, hev⟩ := aggExpr_exact (e := e) hpe hse ha
    obtain ⟨jl, hjl, hel⟩ := aggExpr_exact (e := low) hpl hsl hl
    obtain ⟨jh, hjh, heh⟩ := aggExpr_exact (e := high) hph hsh hu
    rw [sqlEval, ha, hl, hu, Option.bind_some, Option.bind_some, Option.bind_some] at h
    obtain ⟨b, hb, h⟩ := Option.bind_eq_some_iff.1 h
    obtain ⟨c, hc, h⟩ := Option.bind_eq_some_iff.1 h
    obtain ⟨t, ht, h⟩ := Option.bind_eq_some_iff.1 h
    obtain ⟨-, rfl⟩ := sqlCompare_known hka hkl hb
    obtain ⟨-, rfl⟩ := sqlCompare_known hka hku hc
    obtain ⟨x, y, hx, hy, rfl⟩ := sqlAnd_known (known_bool _) (known_bool _) ht
    injection hx with hx
    injection hy with hy
    refine ⟨negateIf negated (call "$and" [call "$gte" [j, jl], call "$lte" [j, jh]]),
      bind_clean.2 ⟨j, hj, bind_clean.2 ⟨jl, hjl, bind_clean.2 ⟨jh, hjh, rfl⟩⟩⟩, ?_⟩
    refine eval_negateIf ?_ h
    have hge : eval sv (call "$gte" [j, jl]) d = some (some (.bool x)) := by
      rw [← hx]
      exact (eval_call (by decide) (evalList_pair hev hel)).trans rfl
    have hle : eval sv (call "$lte" [j, jh]) d = some (some (.bool y)) := by
      rw [← hy]
      exact (eval_call (by decide) (evalList_pair hev heh)).trans rfl
    refine (eval_call (by decide) (evalList_pair hge hle)).trans ?_
    simp [applyOperator]
  | .like _ _ _ _ _, _, hp, _, _ => absurd hp id
  | .function _ _ _, _, hp, _, _ => absurd hp id
  | .other _, _, hp, _, _ => absurd hp id

theorem aggExprs_exact : ∀ {es : List SqlExpr} {vs : List Value}, PlainList es → StrictList d es →
    sqlEvalList d es = some vs →
    ∃ js, Clean (runArgs (exprsToAggExpr today es)) js ∧ evalList sv js d = some (vs.map some) ∧ ∀ v ∈ vs, Known v
  | [], vs, _, _, h => by
    rw [← Option.some.inj h]
    exact ⟨[], rfl, rfl, by simp⟩
  | e :: es, vs, hp, hs, h => by
    obtain ⟨hpe, hpes⟩ := hp
    obtain ⟨hse, ⟨a, ha, hka⟩, hses⟩ := hs
    rw [sqlEvalList, ha] at h
    obtain ⟨ws, hws, rfl⟩ := Option.map_eq_some_iff.1 h
    obtain ⟨j, hj, hev⟩ := aggExpr_exact (e := e) hpe hse ha
    obtain ⟨js, hjs, hevs, hk⟩ := aggExprs_exact hpes hses hws
    refine ⟨j :: js, bind_clean.2 ⟨j, hj, bind_clean.2 ⟨js, hjs, rfl⟩⟩, ?_, ?_⟩
    · rw [evalList, hev, hevs]
      rfl
    · intro v hv
      rcases List.mem_cons.1 hv with rfl | hv
      · exact hka
      · exact hk v hv

end

end Sql
