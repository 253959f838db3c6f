import NosqlBuddy.Sql.FilterExact

/-!
# The `WHERE` filter

A `Condition` is a boolean expression over field references and literals. On a row that it fits (`Fits`: every field
is there, no array, and of the type of what it is compared with) its filter matches iff it is true, and so does
`$expr` around its aggregation expression (`where_exact`), under what the translation does not check: no two `NULL`s
are compared, and the operands are read as what they are. In `x IN (y)` the column `y` is a string (`in_misread`), and
under `NOT` the string `'$y'` is a column.
-/

namespace Sql

open Mongo (Value Doc Server satisfies)
open Mongo.Value
open Warned

variable {sv : Server} {today : ℤ} {d : Doc}

/-! ## Conditions over fields and literals -/

/-- A number literal with signs. -/
def SignedNumber : SqlExpr → Prop
  | .value (.number _) => True
  | .nested e => SignedNumber e
  | .unaryOp .minus e => SignedNumber e
  | .unaryOp .plus e => SignedNumber e
  | _ => False

/-- A field reference, or a number or string literal. -/
def Operand : SqlExpr → Prop
  | .identifier i => i.quoteStyle = some '"' ∨ i.value.toList.head? ≠ some '#'
  | .compoundIdentifier _ => True
  | .nested e => Operand e
  | .value (.number _) => True
  | .value (.singleQuotedString _) => True
  | .value (.doubleQuotedString _) => True
  | .value (.escapedStringLiteral _) => True
  | .value (.nationalStringLiteral _) => True
  | .unaryOp .minus e => SignedNumber e
  | .unaryOp .plus e => SignedNumber e
  | _ => False

/-- A boolean expression over such operands. -/
def Condition : SqlExpr → Prop
  | .nested e => Condition e
  | .unaryOp .not e => Condition e
  | .binaryOp l .and r => Condition l ∧ Condition r
  | .binaryOp l .or r => Condition l ∧ Condition r
  | .binaryOp l op r => op.comparison.isSome ∧ Operand l ∧ Operand r
  | .inList e list _ => Operand e ∧ ∀ x ∈ list, Operand x
  | .isNull e => Operand e
  | .isNotNull e => Operand e
  | .between e _ low high => Operand e ∧ Operand low ∧ Operand high
  | _ => False

/-- The operand is present and no array. -/
def Present (d : Doc) (e : SqlExpr) : Prop := ∃ v, sqlEval d e = some v ∧ ∀ vs, v ≠ .arr vs

/-- Two operands of one type. -/
def SameType (d : Doc) (l r : SqlExpr) : Prop :=
  ∃ v w, sqlEval d l = some v ∧ sqlEval d r = some w ∧ v.rank = w.rank

/-- Every operand is present, no array, and of the type of what it is compared with. -/
def Fits (d : Doc) : SqlExpr → Prop
  | .nested e => Fits d e
  | .unaryOp _ e => Fits d e
  | .binaryOp l .and r => Fits d l ∧ Fits d r
  | .binaryOp l .or r => Fits d l ∧ Fits d r
  | .binaryOp l _ r => Present d l ∧ Present d r ∧ SameType d l r
  | .inList e list _ => Present d e ∧ ∀ x ∈ list, Present d x ∧ SameType d e x
  | .isNull e => Present d e
  | .isNotNull e => Present d e
  | .between e _ low high =>
    Present d e ∧ Present d low ∧ Present d high ∧ SameType d e low ∧ SameType d e high
  | _ => True

/-- No operand of a comparison is `NULL`. -/
def ComparesNoNull (d : Doc) : SqlExpr → Prop
  | .nested e => ComparesNoNull d e
  | .unaryOp _ e => ComparesNoNull d e
  | .binaryOp l .and r => ComparesNoNull d l ∧ ComparesNoNull d r
  | .binaryOp l .or r => ComparesNoNull d l ∧ ComparesNoNull d r
  | .binaryOp l _ r => sqlEval d l ≠ some .null ∧ sqlEval d r ≠ some .null
  | .inList e list _ => sqlEval d e ≠ some .null ∧ ∀ x ∈ list, sqlEval d x ≠ some .null
  | .between e _ low high => sqlEval d e ≠ some .null ∧ sqlEval d low ≠ some .null ∧ sqlEval d high ≠ some .null
  | _ => True

theorem Present.valued (h : Present d e) (hn : sqlEval d e ≠ some .null) : Valued d e := by
  obtain ⟨v, hv, harr⟩ := h
  exact ⟨v, hv, by rintro rfl; exact hn hv, harr⟩

theorem signedNumber_strict : ∀ {e : SqlExpr} {v : Value}, SignedNumber e → sqlEval d e = some v →
    Strict d e ∧ ∃ q, v = .num q
  | .value (.number n), v, _, h => by
    refine ⟨trivial, ?_⟩
    have h : n.sqlValue = some v := h
    unfold Numeral.sqlValue at h
    split at h
    · exact ⟨_, (Option.some.inj h).symm⟩
    · obtain ⟨q, -, rfl⟩ := Option.map_eq_some_iff.1 h
      exact ⟨q, rfl⟩
  | .nested e, v, hs, h => signedNumber_strict (e := e) hs h
  | .unaryOp .minus e, v, hs, h => by
    obtain ⟨w, hw, h⟩ := Option.bind_eq_some_iff.1 h
    obtain ⟨hst, q, rfl⟩ := signedNumber_strict (e := e) hs hw
    exact ⟨⟨hst, _, hw, by simp, by simp⟩, -q, (Option.some.inj h).symm⟩
  | .unaryOp .plus e, v, hs, h => by
    obtain ⟨w, hw, h⟩ := Option.bind_eq_some_iff.1 h
    obtain ⟨hst, q, rfl⟩ := signedNumber_strict (e := e) hs hw
    exact ⟨⟨hst, _, hw, by simp, by simp⟩, q, (Option.some.inj h).symm⟩
  | .unaryOp .not _, _, hs, _ => absurd hs id

theorem operand_strict : ∀ {e : SqlExpr} {v : Value}, Operand e → sqlEval d e = some v → Strict d e
  | .nested e, v, ho, h => operand_strict (e := e) ho h
  | .unaryOp op e, v, ho, h => by
    cases op with
    | minus => exact (signedNumber_strict (e := .unaryOp .minus e) ho h).1
    | plus => exact (signedNumber_strict (e := .unaryOp .plus e) ho h).1
    | not => exact absurd ho id
  | .identifier _, _, _, _ => trivial
  | .compoundIdentifier _, _, _, _ => trivial
  | .value _, _, _, _ => trivial
  | .binaryOp _ _ _, _, ho, _ => absurd ho id
  | .inList _ _ _, _, ho, _ => absurd ho id
  | .isNull _, _, ho, _ => absurd ho id
  | .isNotNull _, _, ho, _ => absurd ho id
  | .between _ _ _ _, _, ho, _ => absurd ho id
  | .like _ _ _ _ _, _, ho, _ => absurd ho id
  | .function _ _ _, _, ho, _ => absurd ho id
  | .other _, _, ho, _ => absurd ho id

theorem SameType.compare (h : SameType d l r) (hl : sqlEval d l ≠ some .null)
    (hr : sqlEval d r ≠ some .null) (test : Ordering → Bool) :
    ∃ v w b, sqlEval d l = some v ∧ sqlEval d r = some w ∧ sqlCompare test v w = some (.bool b) := by
  obtain ⟨v, w, hv, hw, hrk⟩ := h
  refine ⟨v, w, test (v.cmp w), hv, hw, ?_⟩
  rw [sqlCompare, if_neg, if_pos hrk]
  rintro (rfl | rfl)
  · exact hl hv
  · exact hr hw

theorem sqlAnd_bool (a b : Bool) : sqlAnd (.bool a) (.bool b) = some (.bool (a && b)) := rfl

theorem negateTruth_of_bool (negated b : Bool) : ∃ c, negateTruth negated (.bool b) = some (.bool c) := by
  cases negated
  · exact ⟨b, rfl⟩
  · exact ⟨!b, rfl⟩

theorem sqlIn_defined (hv : sqlEval d e = some v) (hn : sqlEval d e ≠ some .null) :
    ∀ {list : List SqlExpr}, (∀ x ∈ list, Present d x ∧ SameType d e x) → (∀ x ∈ list, sqlEval d x ≠ some .null) →
      ∃ ws b, sqlEvalList d list = some ws ∧ sqlIn v ws = some (.bool b)
  | [], _, _ => ⟨[], false, rfl, rfl⟩
  | x :: xs, hs, hns => by
    obtain ⟨v', w, b, hv', hw, hc⟩ :=
      (hs x List.mem_cons_self).2.compare hn (hns x List.mem_cons_self) (· == .eq)
    obtain rfl : v' = v := Option.some.inj (hv'.symm.trans hv)
    obtain ⟨ws, c, hws, hin⟩ := sqlIn_defined hv hn (fun y hy => hs y (List.mem_cons_of_mem x hy))
      (fun y hy => hns y (List.mem_cons_of_mem x hy))
    refine ⟨w :: ws, b || c, ?_, ?_⟩
    · rw [sqlEvalList, hw, hws]; rfl
    · rw [sqlIn, hc, hin]; rfl

theorem strictList_of_operands (ho : ∀ x ∈ list, Operand x) (hp : ∀ x ∈ list, Present d x)
    (hn : ∀ x ∈ list, sqlEval d x ≠ some .null) : StrictList d list := by
  induction list with
  | nil => trivial
  | cons x xs ih =>
    obtain ⟨v, hv, hk⟩ := (hp x List.mem_cons_self).valued (hn x List.mem_cons_self)
    exact ⟨operand_strict (ho x List.mem_cons_self) hv, ⟨v, hv, hk⟩, ih (fun y hy => ho y (List.mem_cons_of_mem x hy))
      (fun y hy => hp y (List.mem_cons_of_mem x hy)) (fun y hy => hn y (List.mem_cons_of_mem x hy))⟩

theorem condition_strict : ∀ {e : SqlExpr}, Condition e → Fits d e → ComparesNoNull d e →
    Strict d e ∧ ∃ b, sqlEval d e = some (.bool b)
  | .nested e, hc, hf, hn => condition_strict (e := e) hc hf hn
  | .unaryOp op e, hc, hf, hn => by
    cases op with
    | not =>
      obtain ⟨hs, b, hb⟩ := condition_strict (e := e) hc hf hn
      refine ⟨⟨hs, _, hb, known_bool b⟩, !b, ?_⟩
      rw [sqlEval, hb]
      rfl
    | minus => exact absurd hc id
    | plus => exact absurd hc id
  | .binaryOp l op r, hc, hf, hn => by
    have logical : Condition l → Condition r → Fits d l → Fits d r → ComparesNoNull d l → ComparesNoNull d r →
        (∀ a b, ∃ c, sqlBinary op (.bool a) (.bool b) = some (.bool c)) →
        Strict d (.binaryOp l op r) ∧ ∃ b, sqlEval d (.binaryOp l op r) = some (.bool b) := by
      intro hcl hcr hfl hfr hnl hnr hop
      obtain ⟨hsl, a, ha⟩ := condition_strict (e := l) hcl hfl hnl
      obtain ⟨hsr, b, hb⟩ := condition_strict (e := r) hcr hfr hnr
      obtain ⟨c, hab⟩ := hop a b
      refine ⟨⟨hsl, ⟨_, ha, known_bool a⟩, hsr, ⟨_, hb, known_bool b⟩⟩, c, ?_⟩
      rw [sqlEval, ha, hb]
      exact hab
    have compared : op.comparison.isSome → Operand l → Operand r → Present d l ∧ Present d r ∧ SameType d l r →
        sqlEval d l ≠ some .null ∧ sqlEval d r ≠ some .null →
        Strict d (.binaryOp l op r) ∧ ∃ b, sqlEval d (.binaryOp l op r) = some (.bool b) := by
      intro hop hol hor hfit hnull
      obtain ⟨m, hm⟩ := Option.isSome_iff_exists.1 hop
      obtain ⟨v, w, b, hv, hw, hb⟩ := hfit.2.2.compare hnull.1 hnull.2 op.test
      refine ⟨⟨operand_strict hol hv, hfit.1.valued hnull.1, operand_strict hor hw, hfit.2.1.valued hnull.2⟩, b, ?_⟩
      rw [sqlEval, hv, hw, sqlBinary_comparison hm]
      exact hb
    cases op with
    | and => exact logical hc.1 hc.2 hf.1 hf.2 hn.1 hn.2 fun a b => ⟨a && b, rfl⟩
    | or => exact logical hc.1 hc.2 hf.1 hf.2 hn.1 hn.2 fun a b => ⟨a || b, rfl⟩
    | eq => exact compared rfl hc.2.1 hc.2.2 hf hn
    | notEq => exact compared rfl hc.2.1 hc.2.2 hf hn
    | lt => exact compared rfl hc.2.1 hc.2.2 hf hn
    | ltEq => exact compared rfl hc.2.1 hc.2.2 hf hn
    | gt => exact compared rfl hc.2.1 hc.2.2 hf hn
    | gtEq => exact compared rfl hc.2.1 hc.2.2 hf hn
    | _ => exact absurd hc.1 (by simp [BinaryOperator.comparison])
  | .inList e list negated, hc, hf, hn => by
    obtain ⟨v, hv, hk⟩ := hf.1.valued hn.1
    obtain ⟨ws, b, hws, hin⟩ := sqlIn_defined hv hn.1 hf.2 hn.2
    obtain ⟨c, hneg⟩ := negateTruth_of_bool negated b
    refine ⟨⟨operand_strict hc.1 hv, ⟨v, hv, hk⟩, ?_⟩, c, ?_⟩
    · exact strictList_of_operands hc.2 (fun x hx => (hf.2 x hx).1) hn.2
    · rw [sqlEval, hv, Option.bind_some, hws, Option.bind_some, hin]
      exact hneg
  | .isNull e, hc, hf, _ => by
    obtain ⟨v, hv, harr⟩ := hf
    refine ⟨⟨operand_strict hc hv, v, hv, harr⟩, isNullValue v, ?_⟩
    rw [sqlEval, hv]
    rfl
  | .isNotNull e, hc, hf, _ => by
    obtain ⟨v, hv, harr⟩ := hf
    refine ⟨⟨operand_strict hc hv, v, hv, harr⟩, !isNullValue v, ?_⟩
    rw [sqlEval, hv]
    rfl
  | .between e negated low high, hc, hf, hn => by
    obtain ⟨hce, hcl, hch⟩ := hc
    obtain ⟨hpe, hpl, hph, htl, hth⟩ := hf
    obtain ⟨hne, hnl, hnh⟩ := hn
    obtain ⟨v, l, a, hv, hl, ha⟩ := htl.compare hne hnl (·.isGE)
    obtain ⟨v', u, b, hv', hu, hb⟩ := hth.compare hne hnh (·.isLE)
    obtain rfl : v' = v := Option.some.inj (hv'.symm.trans hv)
    obtain ⟨c, hneg⟩ := negateTruth_of_bool negated (a && b)
    refine ⟨⟨operand_strict hce hv, hpe.valued hne, operand_strict hcl hl, hpl.valued hnl, operand_strict hch hu,
      hph.valued hnh⟩, c, ?_⟩
    rw [sqlEval, hv, Option.bind_some, hl, Option.bind_some, hu, Option.bind_some, ha, Option.bind_some, hb,
      Option.bind_some, sqlAnd_bool]
    exact hneg
  | .identifier _, hc, _, _ => absurd hc id
  | .compoundIdentifier _, hc, _, _ => absurd hc id
  | .value _, hc, _, _ => absurd hc id
  | .like _ _ _ _ _, hc, _, _ => absurd hc id
  | .function _ _ _, hc, _, _ => absurd hc id
  | .other _, hc, _, _ => absurd hc id

theorem FilterIs.iff_holds (h : FilterIs sv d (exprToFilter today e) b)
    (hj : Clean (exprToFilter today e) j) (hb : sqlEval d e = some (.bool b)) :
    satisfies sv j d = some true ↔ Holds d e := by
  obtain ⟨j', hj', -, hs⟩ := h
  rw [hj.unique hj', hs, Holds, hb]
  simp

/-- **`WHERE` translation.** On a row that the condition fits and where it compares no `NULL`, the filter of a plain
condition matches iff the condition is true, and so does `$expr` around its aggregation expression; and `mergeAnd`
is the conjunction of what it merges. -/
theorem where_exact (sv : Server) (today : ℤ) :
    (∀ (e : SqlExpr) (d : Doc) (j : Value), Condition e → Fits d e → Clean (exprToFilter today e) j →
      PlainFilter e → ComparesNoNull d e → (satisfies sv j d = some true ↔ Holds d e)) ∧
    (∀ (e : SqlExpr) (d : Doc) (j : Value), Condition e → Fits d e → Clean (exprToAggExpr today e) j →
      PlainExpr e → ComparesNoNull d e → (satisfies sv (.doc [("$expr", j)]) d = some true ↔ Holds d e)) ∧
    (∀ (l r : Value) (d : Doc), DistinctKeys r →
      (satisfies sv (mergeAnd l r) d = some true ↔ satisfies sv l d = some true ∧ satisfies sv r d = some true)) := by
  refine ⟨?_, ?_, ?_⟩
  · intro e d j hc hf hj hp hn
    obtain ⟨hs, b, hb⟩ := condition_strict hc hf hn
    exact (filter_exact hp hs hb).iff_holds hj hb
  · intro e d j hc hf hj hp hn
    obtain ⟨hs, b, hb⟩ := condition_strict hc hf hn
    obtain ⟨j', hj', hev⟩ := @aggExpr_exact sv today _ _ _ hp hs hb
    rw [hj.unique hj', satisfies_expr hev, Holds, hb]
    simp
  · intro l r d hr
    rw [satisfies_mergeAnd l r hr]
    cases satisfies sv l d <;> cases satisfies sv r d <;> simp [Mongo.both]

/-! ## A shop -/

/-- A server with no further operators. -/
def bareServer : Server := ⟨fun _ _ => none, fun _ _ => none⟩

def nameOf (f : String) : SqlExpr := .identifier { value := f }

def textOf (s : String) : SqlExpr := .value (.singleQuotedString s)

def numberOf (n : ℕ) : SqlExpr := .value (.number { digits := n })

/-- `price >= 10 AND NOT name IN ('rum', 'gin')`. -/
def demoWhere : SqlExpr :=
  .binaryOp (.binaryOp (nameOf "price") .gtEq (numberOf 10)) .and
    (.unaryOp .not (.inList (nameOf "name") [textOf "rum", textOf "gin"] false))

def demoRow : Doc := [("price", .num 12), ("name", .str "ale")]

/-- `{$and: [{price: {$gte: 10}}, {$expr: {$not: [{$in: ["$name", ["rum", "gin"]]}]}}]}`. -/
def demoFilter : Value :=
  call "$and" [.doc [("price", .doc [("$gte", .num 10)])],
    .doc [("$expr", call "$not" [call "$in" [.str "$name", .arr [.str "rum", .str "gin"]]])]]

theorem plain_price : PlainName "price" := by
  unfold PlainName
  decide

theorem plain_name : PlainName "name" := by
  unfold PlainName
  decide

theorem exact_ten : ExactLiteral (.number { digits := 10 }) := by
  show Numeral.sqlValue _ = _
  decide +kernel

theorem sound_text (s : String) (h : Mongo.isOperator s = false) : PlainExpr (textOf s) := ⟨trivial, h⟩

theorem demo_plain : PlainFilter demoWhere :=
  ⟨⟨plain_price, exact_ten⟩, ⟨plain_name, by simp⟩, sound_text "rum" (by decide), sound_text "gin" (by decide), trivial⟩

theorem demo_condition : Condition demoWhere :=
  ⟨⟨rfl, .inr (by decide), trivial⟩, .inr (by decide), by simp [Operand, textOf]⟩

theorem present_of (h : sqlEval d e = some v) (hv : v.Scalar) : Present d e :=
  ⟨v, h, by rintro vs rfl; exact hv⟩

theorem demo_fits : Fits demoRow demoWhere := by
  have hprice : sqlEval demoRow (nameOf "price") = some (.num 12) := by decide
  have hname : sqlEval demoRow (nameOf "name") = some (.str "ale") := by decide
  have hten : sqlEval demoRow (numberOf 10) = some (.num 10) := by decide +kernel
  refine ⟨⟨present_of hprice trivial, present_of hten trivial, _, _, hprice, hten, rfl⟩, present_of hname trivial, ?_⟩
  intro x hx
  simp only [List.mem_cons, List.not_mem_nil, or_false] at hx
  rcases hx with rfl | rfl
  · exact ⟨present_of rfl trivial, _, _, hname, rfl, rfl⟩
  · exact ⟨present_of rfl trivial, _, _, hname, rfl, rfl⟩

theorem demo_noNull : ComparesNoNull demoRow demoWhere := by
  refine ⟨⟨by decide, by decide⟩, by decide, ?_⟩
  intro x hx
  simp only [List.mem_cons, List.not_mem_nil, or_false] at hx
  rcases hx with rfl | rfl <;> simp [textOf, sqlEval, sqlLiteral]

/-- The filter of the demo condition matches the demo row, and merging it with itself changes nothing. -/
theorem demo_where :
    (satisfies bareServer demoFilter demoRow = some true ↔ Holds demoRow demoWhere) ∧
    (satisfies bareServer (mergeAnd demoFilter demoFilter) demoRow = some true ↔
      satisfies bareServer demoFilter demoRow = some true ∧ satisfies bareServer demoFilter demoRow = some true) :=
  ⟨(where_exact bareServer 0).1 demoWhere demoRow demoFilter demo_condition demo_fits (by decide +kernel) demo_plain demo_noNull,
    (where_exact bareServer 0).2.2 demoFilter demoFilter demoRow (List.nodup_singleton _)⟩

/-- `x IN (y)` where both columns are 1: the filter is `{x: {$in: ["$y"]}}`. -/
theorem in_misread :
    ∃ (e : SqlExpr) (d : Doc) (j : Value), Condition e ∧ Fits d e ∧ ComparesNoNull d e ∧
      Clean (exprToFilter 0 e) j ∧ Holds d e ∧ satisfies bareServer j d = some false := by
  refine ⟨.inList (nameOf "x") [nameOf "y"] false, [("x", .num 1), ("y", .num 1)],
    .doc [("x", .doc [("$in", .arr [.str "$y"])])], ⟨.inr (by decide), by simp [Operand, nameOf]⟩, ?_, ?_, rfl,
    by decide +kernel, by decide +kernel⟩
  · refine ⟨⟨.num 1, by decide +kernel, by simp⟩, ?_⟩
    simp only [List.mem_singleton, forall_eq]
    exact ⟨⟨.num 1, by decide, by simp⟩, .num 1, .num 1, by decide, by decide, rfl⟩
  · refine ⟨by decide, ?_⟩
    simp only [List.mem_singleton, forall_eq]
    decide

end Sql
