import Mathlib.Algebra.Group.Nat.Defs
import Mathlib.Data.List.Induction

/-!
# Big-endian bytes and hexadecimal

`toBe w v` is the `w`-byte big-endian encoding of `v` (of `v % 256 ^ w`, when it does not fit) and
`ofBe` reads it back. `hexEncode` writes two lower-case digits a byte; `hexDecode` accepts both
cases and an even number of digits.
-/

namespace Bytes

def toBe : Nat → Nat → List UInt8
  | 0, _ => []
  | w + 1, v => toBe w (v / 256) ++ [UInt8.ofNat (v % 256)]

def ofBe (bs : List UInt8) : Nat := bs.foldl (fun acc b => acc * 256 + b.toNat) 0

attribute [local simp] toBe

@[simp] theorem length_toBe : ∀ w v : Nat, (toBe w v).length = w
  | 0, _ => rfl
  | w + 1, v => by simp [toBe, length_toBe w]

theorem ofBe_concat (bs : List UInt8) (b : UInt8) : ofBe (bs ++ [b]) = ofBe bs * 256 + b.toNat := by
  simp [ofBe]

theorem ofBe_toBe : ∀ w v : Nat, ofBe (toBe w v) = v % 256 ^ w
  | 0, v => by simp [toBe, ofBe, Nat.mod_one]
  | w + 1, v => by
    have hb : (UInt8.ofNat (v % 256)).toNat = v % 256 := by simp
    rw [toBe, ofBe_concat, ofBe_toBe w, hb, Nat.pow_succ, Nat.mul_comm (256 ^ w) 256, Nat.mod_mul]
    omega

theorem ofBe_lt (bs : List UInt8) : ofBe bs < 256 ^ bs.length := by
  induction bs using List.reverseRecOn with
  | nil => simp [ofBe]
  | append_singleton bs b ih =>
    have hb : b.toNat < 256 := b.toNat_lt
    rw [ofBe_concat, List.length_append, List.length_singleton, Nat.pow_succ]
    omega

theorem toBe_ofBe (bs : List UInt8) : toBe bs.length (ofBe bs) = bs := by
  induction bs using List.reverseRecOn with
  | nil => rfl
  | append_singleton bs b ih =>
    have hb : b.toNat < 256 := b.toNat_lt
    rw [ofBe_concat, List.length_append, List.length_singleton, toBe,
      show (ofBe bs * 256 + b.toNat) / 256 = ofBe bs by omega,
      show (ofBe bs * 256 + b.toNat) % 256 = b.toNat by omega, ih]
    simp

theorem ofBe_injective (hl : a.length = b.length) (h : ofBe a = ofBe b) : a = b := by
  rw [← toBe_ofBe a, ← toBe_ofBe b, hl, h]

theorem ofBe_replicate_zero (n : Nat) (bs : List UInt8) : ofBe (List.replicate n 0 ++ bs) = ofBe bs := by
  induction n with
  | zero => rfl
  | succ n ih =>
    rw [List.replicate_succ, List.cons_append]
    exact ih

/-! ## Hexadecimal -/

def hexEncode : List UInt8 → List Char
  | [] => []
  | b :: bs => Nat.digitChar (b.toNat / 16) :: Nat.digitChar (b.toNat % 16) :: hexEncode bs

def hexVal (c : Char) : Option Nat :=
  if '0' ≤ c ∧ c ≤ '9' then some (c.toNat - 48)
  else if 'a' ≤ c ∧ c ≤ 'f' then some (c.toNat - 87)
  else if 'A' ≤ c ∧ c ≤ 'F' then some (c.toNat - 55)
  else none

def hexDecode : List Char → Option (List UInt8)
  | [] => some []
  | [_] => none
  | c :: d :: cs => do
    let hi ← hexVal c
    let lo ← hexVal d
    let bs ← hexDecode cs
    return UInt8.ofNat (16 * hi + lo) :: bs

@[simp] theorem length_hexEncode (bs : List UInt8) : (hexEncode bs).length = 2 * bs.length := by
  induction bs with
  | nil => rfl
  | cons b bs ih =>
    simp only [hexEncode, List.length_cons, ih]
    omega

theorem hexVal_digitChar : ∀ d < 16, hexVal (Nat.digitChar d) = some d := by decide

theorem hexDecode_hexEncode : ∀ bs : List UInt8, hexDecode (hexEncode bs) = some bs
  | [] => rfl
  | b :: bs => by
    have hb : b.toNat < 256 := b.toNat_lt
    have hbyte : UInt8.ofNat (16 * (b.toNat / 16) + b.toNat % 16) = b := by
      rw [show 16 * (b.toNat / 16) + b.toNat % 16 = b.toNat by omega]
      simp
    simp only [hexEncode, hexDecode, hexVal_digitChar _ (show b.toNat / 16 < 16 by omega),
      hexVal_digitChar _ (show b.toNat % 16 < 16 by omega), hexDecode_hexEncode bs, Option.bind_eq_bind,
      Option.bind_some, hbyte]
    rfl

theorem hexVal_toUpper (c : Char) : hexVal c.toUpper = hexVal c := by
  by_cases hc : 'a'.val ≤ c.val ∧ c.val ≤ 'z'.val
  · have hall : ∀ n < 123, hexVal (Char.ofNat n).toUpper = hexVal (Char.ofNat n) := by decide
    have hlt : c.toNat ≤ 122 := hc.2
    have hletter := hall c.toNat (by omega)
    rwa [Char.ofNat_toNat] at hletter
  · exact congrArg hexVal (dif_neg hc)

theorem hexDecode_toUpper : ∀ cs : List Char, hexDecode (cs.map Char.toUpper) = hexDecode cs
  | [] => rfl
  | [_] => rfl
  | c :: d :: cs => by
    simp only [List.map_cons, hexDecode, hexVal_toUpper, hexDecode_toUpper cs]

theorem hexEncode_injective : Function.Injective hexEncode := by
  intro a b h
  have ha := hexDecode_hexEncode a
  rw [h, hexDecode_hexEncode] at ha
  exact (Option.some.inj ha).symm

theorem hexDecode_cons (h : hexDecode (c :: d :: cs) = some bytes) :
    ∃ hi lo rest, hexVal c = some hi ∧ hexVal d = some lo ∧ hexDecode cs = some rest ∧
      bytes = UInt8.ofNat (16 * hi + lo) :: rest := by
  simp only [hexDecode, Option.bind_eq_bind, Option.bind_eq_some_iff] at h
  obtain ⟨hi, hhi, lo, hlo, rest, hrest, heq⟩ := h
  exact ⟨hi, lo, rest, hhi, hlo, hrest, (Option.some.inj heq).symm⟩

theorem hexDecode_length : ∀ {cs : List Char} {bytes : List UInt8}, hexDecode cs = some bytes → cs.length = 2 * bytes.length
  | [], bytes, h => by
    cases h
    rfl
  | [_], _, h => by cases h
  | c :: d :: cs, bytes, h => by
    obtain ⟨hi, lo, rest, -, -, hrest, rfl⟩ := hexDecode_cons h
    have := hexDecode_length hrest
    simp only [List.length_cons]
    omega

theorem hexVal_of_hexDecode : ∀ {cs : List Char} {bytes : List UInt8}, hexDecode cs = some bytes → ∀ c ∈ cs, (hexVal c).isSome
  | [], _, _, c, hc => absurd hc List.not_mem_nil
  | [_], _, h, _, _ => by cases h
  | a :: b :: cs, bytes, h, c, hc => by
    obtain ⟨hi, lo, rest, hhi, hlo, hrest, -⟩ := hexDecode_cons h
    rcases List.mem_cons.1 hc with rfl | hc
    · exact Option.isSome_of_eq_some hhi
    rcases List.mem_cons.1 hc with rfl | hc
    · exact Option.isSome_of_eq_some hlo
    · exact hexVal_of_hexDecode hrest c hc

theorem digitChar_hexVal (h : hexVal c = some d) : d < 16 ∧ Nat.digitChar d = c.toLower := by
  have hall : ∀ n < 103, ∀ d ∈ hexVal (Char.ofNat n), d < 16 ∧ Nat.digitChar d = (Char.ofNat n).toLower := by decide
  have hlt : c.toNat < 103 := by
    by_contra hge
    have hlate (b : Char) (hb : b.toNat < 103) : ¬ c ≤ b := fun hle => hge (Nat.lt_of_le_of_lt hle hb)
    rw [hexVal, if_neg fun h9 => hlate '9' (by decide) h9.2, if_neg fun hf => hlate 'f' (by decide) hf.2,
      if_neg fun hF => hlate 'F' (by decide) hF.2] at h
    cases h
  have hdigit := hall c.toNat hlt d
  rw [Char.ofNat_toNat] at hdigit
  exact hdigit h

theorem hexEncode_of_hexDecode : ∀ {cs : List Char} {bytes : List UInt8}, hexDecode cs = some bytes →
    hexEncode bytes = cs.map Char.toLower
  | [], bytes, h => by
    cases h
    rfl
  | [_], _, h => by cases h
  | c :: d :: cs, bytes, h => by
    obtain ⟨hi, lo, rest, hhi, hlo, hrest, rfl⟩ := hexDecode_cons h
    obtain ⟨hhi16, hhigh⟩ := digitChar_hexVal hhi
    obtain ⟨hlo16, hlow⟩ := digitChar_hexVal hlo
    have hbyte : (UInt8.ofNat (16 * hi + lo)).toNat = 16 * hi + lo := by
      rw [UInt8.toNat_ofNat']
      omega
    have hdiv : (16 * hi + lo) / 16 = hi := by omega
    have hmod : (16 * hi + lo) % 16 = lo := by omega
    rw [hexEncode, hbyte, hdiv, hmod, hhigh, hlow, hexEncode_of_hexDecode hrest]
    rfl

end Bytes
