import NosqlBuddy.Sql.Congruence
import NosqlBuddy.Vqb.Scalar

/-!
# Integer literals

An integer literal becomes a double on its way, in a statement (mongo/sql_to_mongo.rs:1124, :1640) and in the query builder
(mongo/vqb.rs:215). So it is kept when 53 bits hold it (`exprToAggExpr_literal`). A count is cast after that, which cuts off a
fraction, makes a negative `OFFSET` 0 and a large number the largest one (`counts_iff`).
-/

namespace Vqb

open Mongo (Value)
open Mongo.Value
open Sql (SqlExpr Numeral BinaryOperator call exprToAggExpr exprToFilter exprToI64 exprToU64 fieldName simpleFieldFilter)

/-- A number with its sign, as it is parsed. -/
def literal (negative : Bool) (n : Numeral) : SqlExpr :=
  if negative then .unaryOp .minus (.value (.number n)) else .value (.number n)

/-- The integers of 64 bits. -/
def InRange (n : ℤ) : Prop := -2 ^ 63 ≤ n ∧ n < 2 ^ 63

instance : DecidablePred InRange := fun _ => inferInstanceAs (Decidable (_ ∧ _))

def signedInt (negative : Bool) (m : ℕ) : ℤ := if negative then -(m : ℤ) else m

theorem InRange.natAbs_le (h : InRange n) : n.natAbs ≤ 2 ^ 63 := by
  unfold InRange at h
  omega

theorem log2_lt (h : n < 2 ^ 64) : n.log2 < 1023 := by
  rcases Nat.eq_zero_or_pos n with rfl | hpos
  · decide
  · have hlog : n.log2 < 64 := (Nat.log2_lt (Nat.pos_iff_ne_zero.1 hpos)).2 h
    omega

/-! ## Values -/

theorem toJson_natCast (h : m ≤ 2 ^ 63) : Numeral.toJson ⟨m, 0⟩ = .num (Binary64.rounded m : ℚ) := by
  have hrat : Numeral.toRat ⟨m, 0⟩ = (m : ℚ) := by rw [Numeral.toRat, zpow_zero, mul_one]
  rw [Numeral.toJson, hrat, nearestDouble_rounded (log2_lt (by omega))]

theorem exprToAggExpr_literal (today : ℤ) (h : InRange (signedInt negative m)) :
    exprToAggExpr today (literal negative ⟨m, 0⟩) = pure (.num (Binary64.roundedInt (signedInt negative m) : ℚ)) := by
  have hm : m ≤ 2 ^ 63 := by
    unfold InRange signedInt at h
    split_ifs at h <;> omega
  unfold literal signedInt
  cases negative with
  | false =>
    rw [if_neg Bool.false_ne_true, if_neg Bool.false_ne_true, exprToAggExpr, Sql.valueToJson, toJson_natCast hm,
      Binary64.roundedInt_natCast, Int.cast_natCast]
  | true =>
    rw [if_pos rfl, if_pos rfl, exprToAggExpr, exprToAggExpr, Sql.valueToJson, toJson_natCast hm, Binary64.roundedInt_neg,
      Int.cast_neg, Int.cast_natCast]
    rfl

theorem isLiteral_literal (negative : Bool) (n : Numeral) : Sql.isLiteral (literal negative n) = true := by
  cases negative <;> rfl

theorem exprToFilter_literal (today : ℤ) (h : InRange (signedInt negative m)) (hf : fieldName e = some f) (hop : op.comparison = some mongoOp) :
    exprToFilter today (.binaryOp e op (literal negative ⟨m, 0⟩)) =
      pure (simpleFieldFilter mongoOp f (.num (Binary64.roundedInt (signedInt negative m) : ℚ))) := by
  rw [Sql.exprToFilter_compared hop, Sql.comparisonToFilter_field hf (isLiteral_literal negative _), exprToAggExpr_literal today h]
  rfl

/-! ## Counts -/

/-- A count that is kept, or refused when it is no count. -/
def Counts (x : Warned ℤ) (bound : ℕ) (q : ℚ) : Prop :=
  (∀ k : ℕ, q = k → k ≤ bound → x = pure (k : ℤ)) ∧ ((∀ k : ℕ, q = k → bound < k) → ∃ e, x = .fail e)

/-- The counts that are kept or refused: of 53 bits or the largest, or a number that no double reaches. -/
def CountKept (bound : ℕ) (negative : Bool) (n : Numeral) : Prop :=
  (∃ k : ℕ, signed negative n.toRat = k ∧ k ≤ bound ∧ (Binary64.Fits k ∨ k = bound)) ∨ nearestDouble n.toRat = none

theorem min_rounded_iff (hk : k ≤ bound) (hbound : bound ≤ Binary64.rounded bound) :
    min bound (Binary64.rounded k) = k ↔ Binary64.Fits k ∨ k = bound := by
  rw [← Binary64.rounded_eq_iff]
  constructor
  · intro h
    omega
  · rintro (h | rfl)
    · omega
    · exact Nat.min_eq_left hbound

theorem toRat_nonneg (n : Numeral) : 0 ≤ n.toRat := by
  exact mul_nonneg (Nat.cast_nonneg _) (zpow_nonneg (by norm_num) _)

theorem toRat_of_signed {negative : Bool} {n : Numeral} {k : ℕ} (h : signed negative n.toRat = k) : n.toRat = k := by
  have hn := toRat_nonneg n
  have hk : (0 : ℚ) ≤ k := Nat.cast_nonneg k
  unfold signed at h
  split_ifs at h <;> linarith

theorem pure_inj (h : (pure a : Warned ℤ) = pure b) : a = b := (Prod.mk.inj (Except.ok.inj h)).1

theorem counts_iff (hlog : bound < 2 ^ 64)
    (hbound : bound ≤ Binary64.rounded bound) (hfail : nearestDouble n.toRat = none → ∃ e, x = .fail e)
    (hcast : ∀ r, nearestDouble n.toRat = some r → ∃ i, x = pure i)
    (hcount : ∀ k : ℕ, signed negative n.toRat = k → k ≤ bound → x = pure ((min bound (Binary64.rounded k) : ℕ) : ℤ)) :
    Counts x bound (signed negative n.toRat) ↔ CountKept bound negative n := by
  have hsome : ∀ k : ℕ, signed negative n.toRat = k → k ≤ bound → nearestDouble n.toRat ≠ none := by
    intro k hk hle
    rw [toRat_of_signed hk, nearestDouble_rounded (log2_lt (Nat.lt_of_le_of_lt hle hlog))]
    exact Option.some_ne_none _
  cases hr : nearestDouble n.toRat with
  | none =>
    exact iff_of_true ⟨fun k hk hle => absurd hr (hsome k hk hle), fun _ => hfail hr⟩ (.inr hr)
  | some r =>
    obtain ⟨i, hi⟩ := hcast r hr
    constructor
    · rintro ⟨hexact, hrefused⟩
      by_cases hsmall : ∃ k : ℕ, signed negative n.toRat = k ∧ k ≤ bound
      · obtain ⟨k, hk, hle⟩ := hsmall
        have heq := (hcount k hk hle).symm.trans (hexact k hk hle)
        refine .inl ⟨k, hk, hle, (min_rounded_iff hle hbound).1 ?_⟩
        exact_mod_cast pure_inj heq
      · obtain ⟨e, he⟩ := hrefused fun k hk => by
          by_contra hle
          exact hsmall ⟨k, hk, Nat.le_of_not_lt hle⟩
        rw [hi] at he
        cases he
    · rintro (⟨k, hk, hle, hkept⟩ | hnone)
      · refine ⟨fun k' hk' hle' => ?_, fun hbig => ?_⟩
        · have hkk : k' = k := by exact_mod_cast hk'.symm.trans hk
          rw [hcount k hk hle, (min_rounded_iff hle hbound).2 hkept, hkk]
        · exact absurd (hbig k hk) (Nat.not_lt.2 hle)
      · rw [hnone] at hr
        cases hr

/-! ## `LIMIT` and `OFFSET` -/

theorem asI64_natCast (j : ℕ) : Sql.asI64 (j : ℚ) = ((min (2 ^ 63 - 1) j : ℕ) : ℤ) := by
  rw [Sql.asI64, Rat.num_natCast, Rat.den_natCast, Nat.cast_one, Int.tdiv_one]
  omega

theorem asU64_natCast (j : ℕ) : Sql.asU64 (j : ℚ) = ((min (2 ^ 64 - 1) j : ℕ) : ℤ) := by
  rw [Sql.asU64, Rat.num_natCast, Rat.den_natCast, Nat.cast_one, Int.tdiv_one]
  omega

section
variable (today : ℤ) (negative : Bool) (n : Numeral)

theorem exprToAggExpr_number :
    exprToAggExpr today (literal negative n) = pure (match nearestDouble n.toRat with
      | some r => .num (signed negative r)
      | none => if negative then call "$multiply" [.null, .num (-1)] else .null) := by
  cases negative with
  | false =>
    rw [literal, if_neg Bool.false_ne_true, exprToAggExpr, Sql.valueToJson, Numeral.toJson]
    cases nearestDouble n.toRat <;> rfl
  | true =>
    rw [literal, if_pos rfl, exprToAggExpr, exprToAggExpr, Sql.valueToJson, Numeral.toJson]
    cases nearestDouble n.toRat <;> rfl

theorem exprToAggExpr_count {k : ℕ} (hk : signed negative n.toRat = k) (h : k < 2 ^ 64) :
    exprToAggExpr today (literal negative n) = pure (.num (Binary64.rounded k : ℚ)) := by
  have hrat := toRat_of_signed hk
  have hsign : signed negative (Binary64.rounded k : ℚ) = (Binary64.rounded k : ℚ) := by
    rw [hrat] at hk
    cases negative with
    | false => rfl
    | true =>
      have hzero : k = 0 := by
        have hle : (0 : ℚ) ≤ k := Nat.cast_nonneg k
        have hneg : -(k : ℚ) = k := hk
        exact_mod_cast (by linarith : (k : ℚ) = 0)
      rw [hzero]
      rfl
  rw [exprToAggExpr_number, hrat, nearestDouble_rounded (log2_lt h)]
  simp only [hsign]

theorem limit_iff : Counts (exprToI64 today (literal negative n)) (2 ^ 63 - 1) (signed negative n.toRat) ↔
    CountKept (2 ^ 63 - 1) negative n := by
  have hlit := exprToAggExpr_number today negative n
  refine counts_iff (by decide) (by decide) (fun hr => ?_) (fun r hr => ?_) (fun k hk hle => ?_)
  · rw [hr] at hlit
    rw [exprToI64, hlit]
    cases negative <;> exact ⟨_, rfl⟩
  · rw [hr] at hlit
    rw [exprToI64, hlit]
    exact ⟨_, rfl⟩
  · rw [exprToI64, exprToAggExpr_count today negative n hk (by omega), ← asI64_natCast]
    rfl

theorem offset_iff : Counts (exprToU64 today (literal negative n)) (2 ^ 64 - 1) (signed negative n.toRat) ↔
    CountKept (2 ^ 64 - 1) negative n := by
  have hlit := exprToAggExpr_number today negative n
  refine counts_iff (by decide) (by decide) (fun hr => ?_) (fun r hr => ?_) (fun k hk hle => ?_)
  · rw [hr] at hlit
    rw [exprToU64, hlit]
    cases negative <;> exact ⟨_, rfl⟩
  · rw [hr] at hlit
    rw [exprToU64, hlit]
    exact ⟨_, rfl⟩
  · rw [exprToU64, exprToAggExpr_count today negative n hk (by omega), ← asU64_natCast]
    rfl

end

/-! ## Every place of an integer -/

/-- Where a user writes an integer. -/
inductive IntegerUse where
  /-- A value of a statement: in a condition, a stage or a document. -/
  | value (negative : Bool) (digits : ℕ)
  | limit (negative : Bool) (n : Numeral)
  | offset (negative : Bool) (n : Numeral)
  /-- A text in the query builder. -/
  | builder (text : String)
  /-- Two integers in one condition of a statement. -/
  | identifiers (negative : Bool) (digits : ℕ) (negative' : Bool) (digits' : ℕ)
  /-- Two texts in the query builder. -/
  | texts (text text' : String)

/-- The condition of a statement that compares a field with an integer. -/
def comparison (today : ℤ) (e : SqlExpr) (op : BinaryOperator) (negative : Bool) (m : ℕ) : Warned Value :=
  exprToFilter today (.binaryOp e op (literal negative ⟨m, 0⟩))

/-- Exact or rejected, and different for different integers. -/
def Exact (today : ℤ) : IntegerUse → Prop
  | .value negative m => InRange (signedInt negative m) →
      exprToAggExpr today (literal negative ⟨m, 0⟩) = pure (.num (signedInt negative m : ℚ)) ∧
      ∀ e f op mongoOp, fieldName e = some f → BinaryOperator.comparison op = some mongoOp →
        comparison today e op negative m = pure (simpleFieldFilter mongoOp f (.num (signedInt negative m : ℚ)))
  | .limit negative n => Counts (exprToI64 today (literal negative n)) (2 ^ 63 - 1) (signed negative n.toRat)
  | .offset negative n => Counts (exprToU64 today (literal negative n)) (2 ^ 64 - 1) (signed negative n.toRat)
  | .builder text => ∀ n, IntegerText text n → InRange n → parseScalarString text = .num (n : ℚ)
  | .identifiers negative m negative' m' => InRange (signedInt negative m) → InRange (signedInt negative' m') →
      ∀ e f op mongoOp, fieldName e = some f → BinaryOperator.comparison op = some mongoOp →
        comparison today e op negative m = comparison today e op negative' m' → signedInt negative m = signedInt negative' m'
  | .texts text text' => ∀ n n', IntegerText text n → IntegerText text' n' → InRange n → InRange n' →
      parseScalarString text = parseScalarString text' → n = n'

/-- The doubles are the integers, or told apart; a cast to the largest integer is exact for that one. -/
def Kept : IntegerUse → Prop
  | .value negative m => InRange (signedInt negative m) → Binary64.Fits m
  | .limit negative n => CountKept (2 ^ 63 - 1) negative n
  | .offset negative n => CountKept (2 ^ 64 - 1) negative n
  | .builder text => ∀ n, IntegerText text n → InRange n → Binary64.Fits n.natAbs ∨ n = 2 ^ 63 - 1
  | .identifiers negative m negative' m' => InRange (signedInt negative m) → InRange (signedInt negative' m') →
      Binary64.roundedInt (signedInt negative m) = Binary64.roundedInt (signedInt negative' m') →
        signedInt negative m = signedInt negative' m'
  | .texts text text' => ∀ n n', IntegerText text n → IntegerText text' n' → InRange n → InRange n' →
      min (Binary64.roundedInt n) (2 ^ 63 - 1) = min (Binary64.roundedInt n') (2 ^ 63 - 1) → n = n'

theorem fits_signedInt (negative : Bool) (m : ℕ) :
    Binary64.roundedInt (signedInt negative m) = signedInt negative m ↔ Binary64.Fits m := by
  rw [Binary64.roundedInt_eq_iff, signedInt]
  cases negative <;> simp

theorem num_intCast_inj {a b : ℤ} : (Value.num (a : ℚ) = .num (b : ℚ)) ↔ a = b := by
  rw [Value.num.injEq, Int.cast_inj]

theorem num_min_eq {a : ℤ} : Value.num (min (a : ℚ) (2 ^ 63 - 1)) = .num ((min a (2 ^ 63 - 1) : ℤ) : ℚ) := by
  push_cast
  norm_num

theorem simpleFieldFilter_inj (h : simpleFieldFilter op f v = simpleFieldFilter op f w) : v = w := by
  unfold simpleFieldFilter at h
  split_ifs at h
  · simpa using h
  · simpa using h

theorem min_roundedInt_iff (h : InRange n) :
    min (Binary64.roundedInt n) (2 ^ 63 - 1) = n ↔ Binary64.Fits n.natAbs ∨ n = 2 ^ 63 - 1 := by
  rw [← Binary64.roundedInt_eq_iff]
  have hbound : Binary64.roundedInt (2 ^ 63 - 1) = 2 ^ 63 := by decide
  unfold InRange at h
  constructor
  · intro hmin
    omega
  · rintro (hfit | rfl)
    · omega
    · rw [hbound]
      decide

theorem value_iff (today : ℤ) (negative : Bool) (m : ℕ) :
    Exact today (.value negative m) ↔ Kept (.value negative m) := by
  refine forall_congr' fun hrange => ?_
  rw [← fits_signedInt negative m, exprToAggExpr_literal today hrange]
  constructor
  · rintro ⟨h, -⟩
    exact num_intCast_inj.1 ((Prod.mk.inj (Except.ok.inj h)).1)
  · intro h
    refine ⟨by rw [h], fun e f op mongoOp hf hop => ?_⟩
    rw [comparison, exprToFilter_literal today hrange hf hop, h]

theorem identifiers_iff (today : ℤ) (negative : Bool) (m : ℕ) (negative' : Bool) (m' : ℕ) :
    Exact today (.identifiers negative m negative' m') ↔ Kept (.identifiers negative m negative' m') := by
  refine forall_congr' fun hrange => forall_congr' fun hrange' => ?_
  constructor
  · intro h heq
    refine h (.identifier ⟨"id", none⟩) "id" .eq "$eq" rfl rfl ?_
    rw [comparison, comparison, exprToFilter_literal today hrange rfl rfl, exprToFilter_literal today hrange' rfl rfl, heq]
  · intro h e f op mongoOp hf hop heq
    rw [comparison, comparison, exprToFilter_literal today hrange hf hop, exprToFilter_literal today hrange' hf hop] at heq
    exact h (num_intCast_inj.1 (simpleFieldFilter_inj (Prod.mk.inj (Except.ok.inj heq)).1))

/-- **An integer is kept iff 53 bits hold it; a cast to 64 bits also keeps the largest one, and a count is refused only when no
double reaches it.** -/
theorem integers_exact_iff (today : ℤ) (u : IntegerUse) : Exact today u ↔ Kept u := by
  cases u with
  | value negative m => exact value_iff today negative m
  | limit negative n => exact limit_iff today negative n
  | offset negative n => exact offset_iff today negative n
  | builder text =>
    refine forall_congr' fun n => forall_congr' fun htext => forall_congr' fun hrange => ?_
    rw [parseScalarString_integer htext hrange.natAbs_le, num_min_eq, num_intCast_inj, min_roundedInt_iff hrange]
  | identifiers negative m negative' m' => exact identifiers_iff today negative m negative' m'
  | texts text text' =>
    refine forall_congr' fun n => forall_congr' fun n' => forall_congr' fun htext => forall_congr' fun htext' =>
      forall_congr' fun hrange => forall_congr' fun hrange' => ?_
    rw [parseScalarString_integer htext hrange.natAbs_le, parseScalarString_integer htext' hrange'.natAbs_le, num_min_eq,
      num_min_eq, num_intCast_inj]

theorem not_kept_negative (bound : ℕ) : ¬ CountKept bound true ⟨5, 0⟩ := by
  have hrat : Numeral.toRat ⟨5, 0⟩ = (5 : ℕ) := by rw [Numeral.toRat, zpow_zero, mul_one]
  rintro (⟨k, hk, -⟩ | hnone)
  · have hfive := toRat_of_signed hk
    rw [hfive, signed, if_pos rfl] at hk
    have hzero : (k : ℚ) = 0 := by linarith
    rw [hrat, hzero] at hfive
    norm_num at hfive
  · rw [hrat, nearestDouble_rounded (by decide)] at hnone
    cases hnone

/-- The first integer that is lost, in a condition and in the query builder, and the one it is taken for; a negative `LIMIT`
and a negative `OFFSET`. -/
theorem integers_lost : ¬ Exact 0 (.value false 9007199254740993) ∧ ¬ Exact 0 (.builder "9007199254740993") ∧
    ¬ Exact 0 (.identifiers false 9007199254740992 false 9007199254740993) ∧ ¬ Exact 0 (.limit true ⟨5, 0⟩) ∧
    ¬ Exact 0 (.offset true ⟨5, 0⟩) := by
  have hrange : InRange 9007199254740993 := by decide
  refine ⟨fun h => ?_, fun h => ?_, fun h => ?_, fun h => ?_, fun h => ?_⟩
  · exact absurd ((value_iff 0 false 9007199254740993).1 h hrange) (by decide)
  · have htext : IntegerText "9007199254740993" 9007199254740993 := ⟨9007199254740993, by decide, by decide⟩
    have hkept := h 9007199254740993 htext hrange
    rw [parseScalarString_integer htext hrange.natAbs_le, num_min_eq, num_intCast_inj, min_roundedInt_iff hrange] at hkept
    exact absurd hkept (by decide)
  · have hids := (identifiers_iff 0 false 9007199254740992 false 9007199254740993).1 h (by decide) hrange (by decide)
    exact absurd hids (by decide)
  · exact not_kept_negative _ ((limit_iff 0 true ⟨5, 0⟩).1 h)
  · exact not_kept_negative _ ((offset_iff 0 true ⟨5, 0⟩).1 h)

end Vqb
