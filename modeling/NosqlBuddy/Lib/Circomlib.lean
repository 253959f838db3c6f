import Mathlib.Algebra.Ring.Commute
import Mathlib.Data.Nat.Cast.Basic
import Mathlib.Tactic.LinearCombination

/-!
# Circomlib's bits and comparators

The constraints of `bitify.circom` and `comparators.circom`, over any commutative ring without zero divisors. A signal
that is assigned by `<--` is under no constraint of its own, so a template is a relation between its signals; an array of
signals is a function that is read below its length.

* `num2Bits_iff` — the bits of a value exist exactly when it is a number below `2 ^ n`;
* `lessThan_iff` — on numbers that fit, the output of the comparator is the comparison, and there is one.
-/

namespace Circomlib

variable {F : Type*} [CommRing F]

/-- The weight of the `i`-th bit, by doubling. -/
def e2 : Nat → F
  | 0 => 1
  | i + 1 => e2 i + e2 i

/-- The linear combination after `i` bits. -/
def lc1 (out : Nat → F) : Nat → F
  | 0 => 0
  | i + 1 => lc1 out i + out i * e2 i

/-- `Num2Bits(n)`. -/
structure Num2Bits (n : Nat) (input : F) (out : Nat → F) : Prop where
  bits : ∀ i < n, out i * (out i - 1) = 0
  sum : lc1 out n = input

/-- `LessThan(n)`; `n2b` are the bits of the component. -/
structure LessThan (n : Nat) (in0 in1 : F) (n2b : Nat → F) (out : F) : Prop where
  decomposed : Num2Bits (n + 1) (in0 + e2 n - in1) n2b
  out_eq : out = 1 - n2b n

def LessEqThan (n : Nat) (in0 in1 : F) (n2b : Nat → F) (out : F) : Prop := LessThan n in0 (in1 + 1) n2b out

def GreaterEqThan (n : Nat) (in0 in1 : F) (n2b : Nat → F) (out : F) : Prop := LessThan n in1 (in0 + 1) n2b out

/-! ## Bits -/

theorem e2_eq (i : Nat) : (e2 i : F) = ((2 ^ i : Nat) : F) := by
  induction i with
  | zero => simp [e2]
  | succ i ih =>
    rw [e2, ih, ← Nat.cast_add, ← two_mul, pow_succ, Nat.mul_comm]

/-- Numbers below `2 ^ n` are different elements. -/
def Fits (F : Type*) [CommRing F] (n : Nat) : Prop := ∀ a b : Nat, a < 2 ^ n → b < 2 ^ n → (a : F) = (b : F) → a = b

theorem lc1_digits (v : Nat) : ∀ n : Nat, lc1 (fun i => ((v / 2 ^ i % 2 : Nat) : F)) n = ((v % 2 ^ n : Nat) : F)
  | 0 => by simp [lc1, Nat.mod_one]
  | n + 1 => by
    rw [lc1, lc1_digits v n, e2_eq, Nat.mod_pow_succ, Nat.cast_add, Nat.cast_mul, mul_comm]

theorem num2Bits_digits {n v : Nat} (hv : v < 2 ^ n) : Num2Bits n (v : F) fun i => ((v / 2 ^ i % 2 : Nat) : F) := by
  refine ⟨fun i _ => ?_, by rw [lc1_digits, Nat.mod_eq_of_lt hv]⟩
  rcases Nat.mod_two_eq_zero_or_one (v / 2 ^ i) with h0 | h1
  · simp [h0]
  · simp [h1]

section
variable [NoZeroDivisors F]

theorem bit_iff {x : F} : x * (x - 1) = 0 ↔ x = 0 ∨ x = 1 := by rw [mul_eq_zero, sub_eq_zero]

theorem exists_lc1 {out : Nat → F} {n : Nat} (hbits : ∀ i < n, out i * (out i - 1) = 0) :
    ∃ v : Nat, v < 2 ^ n ∧ lc1 out n = (v : F) := by
  induction n with
  | zero => exact ⟨0, by simp, by simp [lc1]⟩
  | succ n ih =>
    obtain ⟨v, hv, hlow⟩ := ih fun i hi => hbits i (by omega)
    rw [lc1, hlow, e2_eq, pow_succ]
    rcases bit_iff.1 (hbits n (by omega)) with h0 | h1
    · exact ⟨v, by omega, by rw [h0, zero_mul, add_zero]⟩
    · exact ⟨v + 2 ^ n, by omega, by rw [h1, one_mul, Nat.cast_add]⟩

/-- **Range check.** -/
theorem num2Bits_iff {n : Nat} {input : F} : (∃ out, Num2Bits n input out) ↔ ∃ v : Nat, v < 2 ^ n ∧ input = (v : F) := by
  constructor
  · rintro ⟨out, hbits, hsum⟩
    obtain ⟨v, hv, hlow⟩ := exists_lc1 hbits
    exact ⟨v, hv, hsum.symm.trans hlow⟩
  · rintro ⟨v, hv, rfl⟩
    exact ⟨_, num2Bits_digits hv⟩

/-! ## Comparators -/

/-- **The comparator**: on numbers that fit, the only output is the comparison. -/
theorem lessThan_iff {n a b : Nat} (hfits : Fits F (n + 1)) (ha : a < 2 ^ n) (hb : b ≤ 2 ^ n) {out : F} :
    (∃ n2b, LessThan n (a : F) (b : F) n2b out) ↔ out = if a < b then 1 else 0 := by
  have hpow : 2 ^ (n + 1) = 2 ^ n + 2 ^ n := by rw [pow_succ]; omega
  have hinput : (a : F) + e2 n - (b : F) = ((a + 2 ^ n - b : Nat) : F) := by
    rw [e2_eq, ← Nat.cast_add, Nat.cast_sub (by omega)]
  constructor
  · rintro ⟨n2b, ⟨hbits, hsum⟩, rfl⟩
    obtain ⟨v, hv, hlow⟩ := @exists_lc1 F _ _ n2b n fun i hi => hbits i (by omega)
    rw [lc1, hlow, hinput, e2_eq] at hsum
    -- the top bit says whether the sum reaches 2 ^ n
    rcases bit_iff.1 (hbits n (by omega)) with h0 | h1
    · rw [h0, zero_mul, add_zero] at hsum
      have heq := hfits v (a + 2 ^ n - b) (by omega) (by omega) hsum
      rw [h0, if_pos (by omega), sub_zero]
    · rw [h1, one_mul, ← Nat.cast_add] at hsum
      have heq := hfits (v + 2 ^ n) (a + 2 ^ n - b) (by omega) (by omega) hsum
      rw [h1, if_neg (by omega), sub_self]
  · intro hout
    refine ⟨_, by rw [hinput]; exact num2Bits_digits (by omega), ?_⟩
    by_cases hlt : a < b
    · have hdigit : (a + 2 ^ n - b) / 2 ^ n % 2 = 0 := by rw [Nat.div_eq_of_lt (by omega)]
      rw [hout, if_pos hlt, hdigit, Nat.cast_zero, sub_zero]
    · have hquot : (a + 2 ^ n - b) / 2 ^ n = 1 := by
        rw [Nat.div_eq_iff (Nat.two_pow_pos n)]
        omega
      rw [hout, if_neg hlt, hquot, Nat.cast_one, sub_self]

end

end Circomlib
