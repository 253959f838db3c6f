import Mathlib.Algebra.BigOperators.Associated
import Mathlib.NumberTheory.LucasPrimality

/-!
# Large primes by Lucas's test

`prime_of_generates`: a number `p` is prime when some `a` has order `p - 1` modulo `p`, which the prime factors of
`p - 1` let one test (`Generates`). The test is decidable, and the kernel runs it by repeated squaring.
-/

namespace Primality

/-- `a ^ e` modulo `p`, for exponents of at most `bits` bits. -/
def powMod (p : Nat) : Nat → Nat → Nat → Nat
  | 0, _, _ => 1
  | bits + 1, a, e =>
    let half := powMod p bits (a * a % p) (e / 2)
    if e % 2 = 0 then half else a * half % p

/-- `qs` are the factors of `p - 1`, and `a` passes Lucas's test for them. -/
def Generates (p a : Nat) (qs : List Nat) : Prop :=
  1 < p ∧ p < 2 ^ 256 ∧ qs.prod = p - 1 ∧ powMod p 256 a (p - 1) % p = 1 ∧
    ∀ q ∈ qs, powMod p 256 a ((p - 1) / q) % p ≠ 1

instance (p a : Nat) (qs : List Nat) : Decidable (Generates p a qs) :=
  inferInstanceAs (Decidable (_ ∧ _ ∧ _ ∧ _ ∧ _))

theorem cast_powMod (p : Nat) : ∀ (bits a e : Nat), e < 2 ^ bits → ((powMod p bits a e : Nat) : ZMod p) = (a : ZMod p) ^ e
  | 0, a, e, he => by
    obtain rfl : e = 0 := by simpa using he
    simp [powMod]
  | bits + 1, a, e, he => by
    have hhalf := cast_powMod p bits (a * a % p) (e / 2) (by rw [pow_succ] at he; omega)
    have hsquare : ((a * a % p : Nat) : ZMod p) = (a : ZMod p) ^ 2 := by rw [ZMod.natCast_mod, Nat.cast_mul, sq]
    rw [hsquare, ← pow_mul] at hhalf
    rw [powMod]
    rcases Nat.mod_two_eq_zero_or_one e with heven | hodd
    · simp only [heven, if_true, hhalf]
      rw [Nat.mul_div_cancel' (Nat.dvd_of_mod_eq_zero heven)]
    · simp only [hodd, one_ne_zero, if_false, ZMod.natCast_mod, Nat.cast_mul, hhalf]
      rw [← pow_succ']
      congr 1
      omega

theorem pow_eq_one_iff {p : Nat} (hp : 1 < p) {a e : Nat} (he : e < 2 ^ 256) :
    (a : ZMod p) ^ e = 1 ↔ powMod p 256 a e % p = 1 := by
  rw [← cast_powMod p 256 a e he, ← Nat.cast_one, ZMod.natCast_eq_natCast_iff', Nat.mod_eq_of_lt hp]

/-- **Lucas's test.** -/
theorem prime_of_generates {p : Nat} (a : Nat) (qs : List Nat) (h : Generates p a qs) (hqs : ∀ q ∈ qs, q.Prime) :
    p.Prime := by
  obtain ⟨hp, hbound, hprod, hone, hne⟩ := h
  refine lucas_primality p (a : ZMod p) ((pow_eq_one_iff hp (by omega)).2 hone) fun q hq hdvd => ?_
  rw [← hprod] at hdvd
  obtain ⟨x, hx, hqx⟩ := (Prime.dvd_prod_iff hq.prime).1 hdvd
  obtain rfl := (Nat.prime_dvd_prime_iff_eq hq (hqs x hx)).1 hqx
  have hlt : (p - 1) / q < 2 ^ 256 := (Nat.div_le_self _ _).trans_lt (by omega)
  rw [Ne, pow_eq_one_iff hp hlt]
  exact hne q hx

end Primality
