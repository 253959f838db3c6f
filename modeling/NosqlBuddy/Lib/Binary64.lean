import Mathlib.Tactic.SplitIfs
import Mathlib.Data.Rat.Floor
import Mathlib.Tactic.FieldSimp
import Mathlib.Tactic.Linarith
import Mathlib.Tactic.Positivity
import Mathlib.Algebra.Order.Ring.Int
import Mathlib.Algebra.Order.Field.Rat
import Mathlib.Algebra.Order.Floor.Ring
import Mathlib.Data.Nat.Log

/-!
# Doubles as 64 bits

Integers, values and decimal texts as doubles, and the order of doubles.
-/

/-!
## An integer as a double

`as f64` of an integer: 53 significant bits, ties to even, as the 64 bits of the double. An integer of which more bits
matter is not kept (`rounded_eq_iff`).
-/

namespace Binary64

/-- At most 53 bits from the first to the last that is set. -/
def Fits (n : Nat) : Prop := 2 ^ (n.log2 - 52) ∣ n

instance (n : Nat) : Decidable (Fits n) := inferInstanceAs (Decidable (_ ∣ _))

/-- The quotient to the nearest integer, ties to even. -/
def divEven (n d : Nat) : Nat :=
  if 2 * (n % d) < d then n / d
  else if d < 2 * (n % d) then n / d + 1
  else if n / d % 2 = 0 then n / d else n / d + 1

/-- The 53 bits, or 2^53 where they are rounded up past it. -/
def significand (n : Nat) : Nat :=
  if n.log2 ≤ 52 then n * 2 ^ (52 - n.log2) else divEven n (2 ^ (n.log2 - 52))

/-- The integer that the double is. -/
def rounded (n : Nat) : Nat :=
  if n.log2 ≤ 52 then n else divEven n (2 ^ (n.log2 - 52)) * 2 ^ (n.log2 - 52)

/-- The bits but for the sign. A significand of 2^53 carries into the exponent. -/
def magnitude (n : Nat) : Nat := if n = 0 then 0 else (1023 + n.log2) * 2 ^ 52 + (significand n - 2 ^ 52)

/-- `n as f64` -/
def ofInt (n : Int) : UInt64 := .ofNat ((if n < 0 then 2 ^ 63 else 0) + magnitude n.natAbs)

/-- The integer that the double is, with its sign. -/
def roundedInt (n : Int) : Int := if n < 0 then -(rounded n.natAbs : Int) else (rounded n.natAbs : Int)

/-! ## Rounding -/

theorem divEven_cases (n d : Nat) : divEven n d = n / d ∨ divEven n d = n / d + 1 := by
  unfold divEven
  split_ifs
  · exact .inl rfl
  · exact .inr rfl
  · exact .inl rfl
  · exact .inr rfl

theorem divEven_of_dvd (hd : 0 < d) (h : d ∣ n) : divEven n d = n / d := by
  rw [divEven, Nat.mod_eq_zero_of_dvd h, if_pos hd]

theorem rounded_eq_iff (n : Nat) : rounded n = n ↔ Fits n := by
  unfold rounded Fits
  by_cases hk : n.log2 ≤ 52
  · rw [if_pos hk, Nat.sub_eq_zero_of_le hk]
    exact iff_of_true rfl (Nat.one_dvd n)
  · rw [if_neg hk]
    constructor
    · intro h
      exact ⟨_, by rw [Nat.mul_comm]; exact h.symm⟩
    · intro h
      rw [divEven_of_dvd (Nat.two_pow_pos _) h]
      exact Nat.div_mul_cancel h

theorem fits_of_lt (h : n < 2 ^ 53) : Fits n := by
  have hlog : n.log2 ≤ 52 := by
    rcases Nat.eq_zero_or_pos n with rfl | hpos
    · decide
    · have := (Nat.log2_lt (Nat.pos_iff_ne_zero.1 hpos)).2 h
      omega
  rw [Fits, Nat.sub_eq_zero_of_le hlog]
  exact Nat.one_dvd n

theorem significand_bounds (h : 0 < n) : 2 ^ 52 ≤ significand n ∧ significand n ≤ 2 ^ 53 := by
  have hlow := Nat.log2_self_le (Nat.pos_iff_ne_zero.1 h)
  have hhigh := @Nat.lt_log2_self n
  unfold significand
  by_cases hk : n.log2 ≤ 52
  · rw [if_pos hk]
    have hsplit : (2 : Nat) ^ 52 = 2 ^ n.log2 * 2 ^ (52 - n.log2) := by rw [← Nat.pow_add, Nat.add_sub_cancel' hk]
    have hnext : (2 : Nat) ^ 53 = 2 ^ (n.log2 + 1) * 2 ^ (52 - n.log2) := by
      rw [← Nat.pow_add]
      congr 1
      omega
    rw [hsplit, hnext]
    exact ⟨Nat.mul_le_mul_right _ hlow, Nat.mul_le_mul_right _ (Nat.le_of_lt hhigh)⟩
  · rw [if_neg hk]
    have hdpos : 0 < 2 ^ (n.log2 - 52) := Nat.two_pow_pos _
    have hle : 2 ^ 52 ≤ n / 2 ^ (n.log2 - 52) := by
      rw [Nat.le_div_iff_mul_le hdpos, ← Nat.pow_add]
      have he : 52 + (n.log2 - 52) = n.log2 := by omega
      rw [he]
      exact hlow
    have hlt : n / 2 ^ (n.log2 - 52) < 2 ^ 53 := by
      rw [Nat.div_lt_iff_lt_mul hdpos, ← Nat.pow_add]
      have he : 53 + (n.log2 - 52) = n.log2 + 1 := by omega
      rw [he]
      exact hhigh
    rcases divEven_cases n (2 ^ (n.log2 - 52)) with he | he <;> omega

theorem significand_lt (h : n.log2 ≤ 52) : significand n < 2 ^ 53 := by
  rw [significand, if_pos h]
  calc n * 2 ^ (52 - n.log2)
      < 2 ^ (n.log2 + 1) * 2 ^ (52 - n.log2) := Nat.mul_lt_mul_of_pos_right Nat.lt_log2_self (Nat.two_pow_pos _)
    _ = 2 ^ 53 := by
      rw [← Nat.pow_add]
      congr 1
      omega

theorem magnitude_of_pos (h : 0 < n) :
    magnitude n = (1023 + n.log2) * 2 ^ 52 + (significand n - 2 ^ 52) := if_neg (Nat.pos_iff_ne_zero.1 h)

theorem rounded_of_log2_le (h : n.log2 ≤ 52) : rounded n = n := if_pos h

theorem rounded_of_lt_log2 (h : 52 < n.log2) : rounded n = significand n * 2 ^ (n.log2 - 52) := by
  rw [rounded, significand, if_neg (by omega), if_neg (by omega)]

theorem rounded_le (h : 0 < n) : rounded n ≤ 2 ^ (n.log2 + 1) := by
  by_cases hk : n.log2 ≤ 52
  · rw [rounded_of_log2_le hk]
    exact Nat.le_of_lt Nat.lt_log2_self
  · rw [rounded_of_lt_log2 (Nat.lt_of_not_le hk)]
    have hsplit : n.log2 + 1 = 53 + (n.log2 - 52) := by omega
    rw [hsplit, Nat.pow_add]
    exact Nat.mul_le_mul_right _ (significand_bounds h).2

theorem roundedInt_eq_iff (n : Int) : roundedInt n = n ↔ Fits n.natAbs := by
  rw [← rounded_eq_iff, roundedInt]
  split_ifs <;> omega

theorem roundedInt_natCast (n : Nat) : roundedInt n = rounded n := if_neg (by omega)

theorem roundedInt_neg (n : Nat) : roundedInt (-n) = -(rounded n : Int) := by
  rcases Nat.eq_zero_or_pos n with rfl | hpos
  · rfl
  · rw [roundedInt, if_pos (by omega), Int.natAbs_neg, Int.natAbs_natCast]

theorem natAbs_roundedInt_le (h : n.natAbs ≤ 2 ^ 63) : (roundedInt n).natAbs ≤ 2 ^ 63 := by
  have hr : rounded n.natAbs ≤ 2 ^ 63 := by
    rcases Nat.lt_or_ge n.natAbs (2 ^ 63) with hlt | hge
    · rcases Nat.eq_zero_or_pos n.natAbs with hz | hpos
      · rw [hz]
        decide
      · have hlog : n.natAbs.log2 < 63 := (Nat.log2_lt (Nat.pos_iff_ne_zero.1 hpos)).2 hlt
        exact Nat.le_trans (rounded_le hpos) (Nat.pow_le_pow_right (by decide) (by omega))
    · rw [Nat.le_antisymm h hge]
      decide
  rw [roundedInt]
  split_ifs <;> omega

/-! ## The fields of the bits -/

theorem ofInt_toNat (h : n.natAbs ≤ 2 ^ 63) :
    (ofInt n).toNat = (if n < 0 then 1 else 0) * 2 ^ 63 + magnitude n.natAbs ∧ magnitude n.natAbs < 2 ^ 63 := by
  have hmag : magnitude n.natAbs < 2 ^ 63 := by
    unfold magnitude
    split_ifs with hz
    · decide
    · have hlog : n.natAbs.log2 < 64 := (Nat.log2_lt hz).2 (by omega)
      have hsig := significand_bounds (Nat.pos_of_ne_zero hz)
      omega
  refine ⟨?_, hmag⟩
  rw [ofInt, UInt64.toNat_ofNat']
  split_ifs <;> omega

/-- The exponent and the fraction of an integer that is not zero, and the rounded integer that they make. -/
theorem magnitude_fields (hpos : 0 < n) (h : n ≤ 2 ^ 63) : ∃ e f, magnitude n = e * 2 ^ 52 + f ∧ 0 < e ∧ e < 2047 ∧
    f < 2 ^ 52 ∧ (f + 2 ^ 52) * 2 ^ (e - 1075) = rounded n * 2 ^ (1075 - e) := by
  have hlog : n.log2 < 64 := (Nat.log2_lt (Nat.pos_iff_ne_zero.1 hpos)).2 (Nat.lt_of_le_of_lt h (by decide))
  have hemax : 1023 + n.log2 + 1 < 2047 := by omega
  obtain ⟨hlow, hhigh⟩ := significand_bounds hpos
  rcases Nat.lt_or_ge (significand n) (2 ^ 53) with hlt | hge
  · refine ⟨1023 + n.log2, significand n - 2 ^ 52, magnitude_of_pos hpos, by omega, by omega, by omega, ?_⟩
    rw [Nat.sub_add_cancel hlow]
    by_cases hk : n.log2 ≤ 52
    · have hup : 1023 + n.log2 - 1075 = 0 := by omega
      have hdown : 1075 - (1023 + n.log2) = 52 - n.log2 := by omega
      rw [hup, hdown, rounded_of_log2_le hk, significand, if_pos hk, Nat.pow_zero, Nat.mul_one]
    · have hup : 1023 + n.log2 - 1075 = n.log2 - 52 := by omega
      have hdown : 1075 - (1023 + n.log2) = 0 := by omega
      rw [hup, hdown, rounded_of_lt_log2 (Nat.lt_of_not_le hk), Nat.pow_zero, Nat.mul_one]
  · -- the bits are rounded up to the next power of two
    have heq : significand n = 2 ^ 53 := Nat.le_antisymm hhigh hge
    have hk : 52 < n.log2 := by
      by_cases hle : n.log2 ≤ 52
      · exact absurd heq (Nat.ne_of_lt (significand_lt hle))
      · exact Nat.lt_of_not_le hle
    have hup : 1023 + n.log2 + 1 - 1075 = n.log2 - 52 + 1 := by
      clear heq hge hhigh hlow
      omega
    have hdown : 1075 - (1023 + n.log2 + 1) = 0 := Nat.sub_eq_zero_of_le (by omega)
    have hone : 2 ^ 53 - 2 ^ 52 = 2 ^ 52 := by decide
    refine ⟨1023 + n.log2 + 1, 0, ?_, Nat.succ_pos _, hemax, Nat.two_pow_pos 52, ?_⟩
    · rw [magnitude_of_pos hpos, heq, hone, Nat.add_zero, Nat.succ_mul]
    · rw [hup, hdown, rounded_of_lt_log2 hk, heq, Nat.zero_add, Nat.pow_zero, Nat.mul_one, Nat.pow_succ 2 52,
        Nat.mul_assoc, ← Nat.pow_succ']

end Binary64

/-!
## The number that a double is

A double is its 64 bits: a sign, an exponent of 11 bits and a fraction of 52. Where the exponent is 2047 it is infinite or no
number; else it is a rational (`value`). `castInt` is the cast to an integer of a programming language that saturates: toward
zero, with the ends of the range for what lies outside and zero for no number (`castInt_of_value`).
-/

namespace Binary64

def exponent (bits : UInt64) : Nat := bits.toNat / 2 ^ 52 % 2048

def fraction (bits : UInt64) : Nat := bits.toNat % 2 ^ 52

def negative (bits : UInt64) : Bool := 2 ^ 63 ≤ bits.toNat

/-- The fraction with the leading bit, which the small doubles do not have. -/
def fullFraction (bits : UInt64) : Nat := if exponent bits = 0 then fraction bits else fraction bits + 2 ^ 52

/-- The size is `numer / denom`; one of the powers is 1. -/
def numer (bits : UInt64) : Nat := fullFraction bits * 2 ^ (max (exponent bits) 1 - 1075)

def denom (bits : UInt64) : Nat := 2 ^ (1075 - max (exponent bits) 1)

def signedNumer (bits : UInt64) : ℤ := if negative bits then -(numer bits : ℤ) else numer bits

/-- The number, if it is one. -/
def value (bits : UInt64) : Option ℚ := if exponent bits = 2047 then none else some ((signedNumer bits : ℚ) / denom bits)

/-- Toward zero. -/
def truncated (q : ℚ) : ℤ := if 0 ≤ q then ⌊q⌋ else ⌈q⌉

/-- The saturating cast to the integers from `low` to `high`. -/
def castInt (low high : ℤ) (bits : UInt64) : ℤ :=
  if exponent bits = 2047 then
    if fraction bits ≠ 0 then 0 else if negative bits then low else high
  else max low (min high ((signedNumer bits).tdiv (denom bits)))

theorem denom_pos (bits : UInt64) : 0 < denom bits := Nat.two_pow_pos _

theorem truncated_div (n : ℤ) (d : Nat) : truncated ((n : ℚ) / d) = n.tdiv d := by
  have hd : (0 : ℚ) ≤ d := Nat.cast_nonneg d
  unfold truncated
  rcases Int.lt_or_le n 0 with hn | hn
  · have hneg : (n : ℚ) / d ≤ 0 := div_nonpos_of_nonpos_of_nonneg (by exact_mod_cast Int.le_of_lt hn) hd
    have hceil : ⌈(n : ℚ) / d⌉ = n.tdiv d := by
      rw [Rat.ceil_intCast_div_natCast, ← Int.tdiv_eq_ediv_of_nonneg (by omega), Int.neg_tdiv, neg_neg]
    split_ifs with h
    · rw [le_antisymm hneg h] at hceil ⊢
      rwa [Int.floor_zero, ← Int.ceil_zero (R := ℚ)]
    · exact hceil
  · have hnonneg : 0 ≤ (n : ℚ) / d := div_nonneg (by exact_mod_cast hn) hd
    rw [if_pos hnonneg, Rat.floor_intCast_div_natCast, Int.tdiv_eq_ediv_of_nonneg hn]

/-- **In the range the cast is the number without its fraction.** -/
theorem castInt_of_value (h : value bits = some q)
    (hq : low ≤ truncated q ∧ truncated q ≤ high) : castInt low high bits = truncated q := by
  unfold value at h
  split_ifs at h with he
  rw [← Option.some.inj h, truncated_div] at hq ⊢
  rw [castInt, if_neg he, min_eq_right hq.2, max_eq_right hq.1]

/-! ### A double made of an integer -/

section
variable {bits : UInt64} {sign e f : Nat}

theorem exponent_of_fields (h : bits.toNat = sign * 2 ^ 63 + (e * 2 ^ 52 + f)) (he : e < 2047) (hf : f < 2 ^ 52) :
    exponent bits = e := by
  rw [exponent]
  omega

theorem fraction_of_fields (h : bits.toNat = sign * 2 ^ 63 + (e * 2 ^ 52 + f)) (hf : f < 2 ^ 52) : fraction bits = f := by
  rw [fraction]
  omega

end

/-- **An integer of 64 bits is rounded to the integer that its double is.** -/
theorem value_ofInt (h : n.natAbs ≤ 2 ^ 63) : value (ofInt n) = some (roundedInt n : ℚ) := by
  rcases Nat.eq_zero_or_pos n.natAbs with hz | hpos
  · have hzero : ofInt 0 = 0 := by decide
    have hfull : fullFraction 0 = 0 := by decide
    have hnumer : numer 0 = 0 := by rw [numer, hfull, Nat.zero_mul]
    have hsigned : signedNumer 0 = 0 := by
      rw [signedNumer, hnumer]
      rfl
    have hexp : exponent 0 ≠ 2047 := by decide
    have hround : roundedInt 0 = 0 := by decide
    rw [Int.natAbs_eq_zero.1 hz, hzero, hround, value, if_neg hexp, hsigned, Int.cast_zero, zero_div]
  obtain ⟨hbits, hmag⟩ := ofInt_toNat h
  have hneg : negative (ofInt n) = decide (n < 0) := by
    rw [negative, hbits]
    by_cases hn : n < 0
    · simp [hn]
    · have hlow : ¬2 ^ 63 ≤ magnitude n.natAbs := Nat.not_le.2 hmag
      rw [if_neg hn, Nat.zero_mul, Nat.zero_add, decide_eq_false hlow, decide_eq_false hn]
  obtain ⟨e, f, hfields, hepos, hemax, hf, hvalue⟩ := magnitude_fields hpos h
  rw [hfields] at hbits
  have hexp : exponent (ofInt n) = e := exponent_of_fields hbits hemax hf
  have hfrac : fraction (ofInt n) = f := fraction_of_fields hbits hf
  have hmax : max e 1 = e := Nat.max_eq_left hepos
  have hnumer : numer (ofInt n) = rounded n.natAbs * denom (ofInt n) := by
    rw [numer, denom, fullFraction, hexp, hfrac, if_neg (Nat.pos_iff_ne_zero.1 hepos), hmax]
    exact hvalue
  have hsigned : signedNumer (ofInt n) = roundedInt n * denom (ofInt n) := by
    rw [signedNumer, hneg, hnumer, roundedInt]
    by_cases hn : n < 0
    · simp [hn]
    · simp [hn]
  have hne : ((denom (ofInt n) : ℕ) : ℚ) ≠ 0 := Nat.cast_ne_zero.2 (Nat.pos_iff_ne_zero.1 (denom_pos _))
  rw [value, hexp, if_neg (Nat.ne_of_lt hemax), hsigned, Int.cast_mul, Int.cast_natCast, mul_div_cancel_right₀ _ hne]

end Binary64

/-!
## Doubles in order

Doubles as their 64 bits: comparisons go by sign and magnitude, and none holds of a NaN. Sums and products are those of `Float`.
-/

namespace Binary64

def isNaN (bits : UInt64) : Bool := exponent bits = 2047 && fraction bits ≠ 0

/-- The place of a number in the order; both zeros have the same. -/
def orderKey (bits : UInt64) : ℤ := if negative bits then -((bits.toNat - 2 ^ 63 : ℕ) : ℤ) else bits.toNat

/-- `a < b` -/
def fLt (a b : UInt64) : Bool := !isNaN a && !isNaN b && orderKey a < orderKey b

/-- `a <= b` -/
def fLe (a b : UInt64) : Bool := !isNaN a && !isNaN b && orderKey a ≤ orderKey b

/-- `f64::max`: a NaN gives way. -/
def fMax (a b : UInt64) : UInt64 := if isNaN a || fLt a b then b else a

/-- `f64::min` -/
def fMin (a b : UInt64) : UInt64 := if isNaN a || fLt b a then b else a

def fAdd (a b : UInt64) : UInt64 := (Float.ofBits a + Float.ofBits b).toBits

def fMul (a b : UInt64) : UInt64 := (Float.ofBits a * Float.ofBits b).toBits

/-- `{:.0}` -/
def display0 (bits : UInt64) : String :=
  if isNaN bits then "NaN"
  else (if negative bits then "-" else "") ++
    if exponent bits = 2047 then "inf" else toString (divEven (numer bits) (denom bits))

theorem fLt_iff (ha : isNaN a = false) (hb : isNaN b = false) : fLt a b = true ↔ orderKey a < orderKey b := by
  simp [fLt, ha, hb]

theorem fMin_not_lt (hv : fLt v lo = false) (hhi : fLt hi lo = false) : fLt (fMin v hi) lo = false := by
  unfold fMin
  split
  · exact hhi
  · exact hv

theorem fMax_not_lt (lo v : UInt64) : fLt (fMax v lo) lo = false := by
  unfold fMax
  split
  · simp [fLt]
  · next h =>
    rw [Bool.or_eq_true, not_or] at h
    exact eq_false_of_ne_true h.2

end Binary64

/-!
## The nearest double

`parse::<f64>`: a number is rounded to 53 significant bits, ties to even, or past the largest double to infinity
(`none`). An integer of at most 53 bits is a double (`nearestDouble_natCast`); a larger one is rounded as a cast rounds it
(`nearestDouble_rounded`).
-/

/-- The place of the leading bit of a positive number. -/
def leadingBit (q : ℚ) : ℤ :=
  let e : ℤ := (q.num.natAbs.log2 : ℤ) - q.den.log2
  if q < 2 ^ e then e - 1 else e

/-- To the nearest integer, ties to even. -/
def roundEven (q : ℚ) : ℤ :=
  let f := q.floor
  if q - f < 1 / 2 then f else if 1 / 2 < q - f then f + 1 else if f % 2 = 0 then f else f + 1

/-- The place of the last bit of the doubles around a positive number. -/
def lastBit (q : ℚ) : ℤ := max (leadingBit q - 52) (-1074)

/-- Doubles end below this power of two. -/
def maxExponent : ℕ := 1024

/-- The double nearest to a number that is not negative. -/
def nearestDouble (q : ℚ) : Option ℚ :=
  if q = 0 then some 0
  else
    let r := (roundEven (q / 2 ^ lastBit q) : ℚ) * 2 ^ lastBit q
    if 2 ^ maxExponent ≤ r then none else some r

theorem roundEven_intCast (n : ℤ) : roundEven n = n := by
  have hf : (n : ℚ).floor = n := by
    have h := Int.floor_intCast (R := ℚ) n
    exact h
  unfold roundEven
  rw [hf]
  norm_num

theorem leadingBit_natCast {n : ℕ} (h : 0 < n) : leadingBit n = n.log2 := by
  have hle : (2 : ℚ) ^ (n.log2 : ℤ) ≤ n := by
    rw [zpow_natCast]
    exact_mod_cast Nat.log2_self_le (Nat.pos_iff_ne_zero.1 h)
  have hd : ((n : ℚ).den.log2 : ℤ) = 0 := by rw [Rat.den_natCast]; rfl
  unfold leadingBit
  simp only [Rat.num_natCast, Int.natAbs_natCast, hd, sub_zero]
  rw [if_neg (not_lt.2 hle)]

/-- **Small integers are doubles.** -/
theorem nearestDouble_natCast {n : ℕ} (h : n < 2 ^ 53) : nearestDouble n = some (n : ℚ) := by
  rcases Nat.eq_zero_or_pos n with rfl | hpos
  · rfl
  have hlog : n.log2 ≤ 52 := by
    have := (Nat.log2_lt (Nat.pos_iff_ne_zero.1 hpos)).2 h
    omega
  have hbit : lastBit n = (n.log2 : ℤ) - 52 := by
    unfold lastBit
    rw [leadingBit_natCast hpos]
    omega
  obtain ⟨k, hk⟩ : ∃ k : ℕ, lastBit n = -(k : ℤ) := ⟨52 - n.log2, by rw [hbit]; omega⟩
  have hdiv : (n : ℚ) / 2 ^ lastBit n = ((n * 2 ^ k : ℕ) : ℤ) := by
    rw [hk, zpow_neg, zpow_natCast, div_inv_eq_mul]
    push_cast
    rfl
  have hr : (roundEven ((n : ℚ) / 2 ^ lastBit n) : ℚ) * 2 ^ lastBit n = n := by
    rw [hdiv, roundEven_intCast, ← hdiv]
    exact div_mul_cancel₀ _ (zpow_ne_zero _ (by norm_num))
  have hbig : ¬ (2 : ℚ) ^ maxExponent ≤ n := by
    intro hle
    have hle : 2 ^ maxExponent ≤ n := by exact_mod_cast hle
    exact absurd (lt_of_le_of_lt hle h) (not_lt.2 (Nat.pow_le_pow_right (by decide) (by decide)))
  unfold nearestDouble
  rw [if_neg (by exact_mod_cast (Nat.pos_iff_ne_zero.1 hpos))]
  simp only [hr]
  rw [if_neg hbig]

theorem roundEven_div (n : ℕ) {d : ℕ} (hd : 0 < d) : roundEven ((n : ℚ) / d) = (Binary64.divEven n d : ℕ) := by
  have hdq : (0 : ℚ) < d := by exact_mod_cast hd
  have hfloor : ((n : ℚ) / d).floor = ((n / d : ℕ) : ℤ) := by
    have h := Rat.floor_natCast_div_natCast n d
    exact h
  have hsplit : (n : ℚ) = d * (n / d : ℕ) + (n % d : ℕ) := by exact_mod_cast (Nat.div_add_mod n d).symm
  have hrest : (n : ℚ) / d - ((n / d : ℕ) : ℤ) = ((n % d : ℕ) : ℚ) / d := by
    rw [eq_div_iff hdq.ne', sub_mul, div_mul_cancel₀ _ hdq.ne', Int.cast_natCast]
    linarith
  have hlt : ((n % d : ℕ) : ℚ) / d < 1 / 2 ↔ 2 * (n % d) < d := by
    rw [div_lt_div_iff₀ hdq (by norm_num), one_mul, mul_comm]
    exact_mod_cast Iff.rfl
  have hgt : 1 / 2 < ((n % d : ℕ) : ℚ) / d ↔ d < 2 * (n % d) := by
    rw [div_lt_div_iff₀ (by norm_num) hdq, one_mul, mul_comm]
    exact_mod_cast Iff.rfl
  have heven : ((n / d : ℕ) : ℤ) % 2 = 0 ↔ n / d % 2 = 0 := by omega
  unfold roundEven Binary64.divEven
  simp only [hfloor, hrest, hlt, hgt, heven]
  split_ifs <;> push_cast <;> rfl

/-- **An integer is rounded as a cast rounds it.** -/
theorem nearestDouble_rounded {n : ℕ} (h : n.log2 < 1023) : nearestDouble n = some (Binary64.rounded n : ℚ) := by
  by_cases hk : n.log2 ≤ 52
  · have hsmall : n < 2 ^ 53 := Nat.lt_of_lt_of_le Nat.lt_log2_self (Nat.pow_le_pow_right (by decide) (Nat.succ_le_succ hk))
    rw [nearestDouble_natCast hsmall, Binary64.rounded_of_log2_le hk]
  · have hpos : 0 < n := by
      rcases Nat.eq_zero_or_pos n with rfl | hpos
      · exact absurd (by decide) hk
      · exact hpos
    have hbit : lastBit n = ((n.log2 - 52 : ℕ) : ℤ) := by
      unfold lastBit
      rw [leadingBit_natCast hpos]
      omega
    have hr : (roundEven ((n : ℚ) / 2 ^ lastBit n) : ℚ) * 2 ^ lastBit n = (Binary64.rounded n : ℚ) := by
      have hdiv := roundEven_div n (Nat.two_pow_pos (n.log2 - 52))
      push_cast at hdiv
      rw [hbit, zpow_natCast, hdiv, Binary64.rounded, if_neg hk]
      push_cast
      rfl
    have hbig : ¬ (2 : ℚ) ^ maxExponent ≤ Binary64.rounded n := by
      intro hle
      have hle : 2 ^ maxExponent ≤ Binary64.rounded n := by exact_mod_cast hle
      have hmax : Binary64.rounded n < 2 ^ maxExponent :=
        Nat.lt_of_le_of_lt (Binary64.rounded_le hpos) (Nat.pow_lt_pow_right (by decide) (by unfold maxExponent; omega))
      exact absurd hle (Nat.not_le.2 hmax)
    unfold nearestDouble
    rw [if_neg (by exact_mod_cast (Nat.pos_iff_ne_zero.1 hpos))]
    simp only [hr]
    rw [if_neg hbig]
