import Mathlib.Data.BitVec

/-!
# Cyclic redundancy checks, bit by bit

A register of `w` bits and a polynomial `p` whose lowest bit is set. `round` is one turn of the register, `absorb` a turn that takes
in one bit of the message. `absorb_eq`: up to `w` bits may be put in at once. `window_inj`: messages that differ inside a window
of `w` bits only have different checksums.
-/

namespace Crc

variable {w : Nat}

def round (p s : BitVec w) : BitVec w := if s.msb then (s <<< 1) ^^^ p else s <<< 1

def rounds (p : BitVec w) : Nat → BitVec w → BitVec w
  | 0, s => s
  | k + 1, s => rounds p k (round p s)

/-- The bits of a message of at most `w` bits, in the highest places of a register. -/
def aligned (w : Nat) (l : List Bool) : BitVec w := (BitVec.ofBoolListBE l).setWidth w <<< (w - l.length)

def absorb (p s : BitVec w) : List Bool → BitVec w
  | [] => s
  | b :: l => absorb p (round p (s ^^^ aligned w [b])) l

theorem absorb_append (p s : BitVec w) (l r : List Bool) : absorb p s (l ++ r) = absorb p (absorb p s l) r := by
  induction l generalizing s with
  | nil => rfl
  | cons b l ih => rw [List.cons_append, absorb, absorb, ih]

/-! ## The register is linear -/

theorem getMsbD_aligned (h : l.length ≤ w) (i : Nat) : (aligned w l).getMsbD i = l.getD i false := by
  have hi : i + (w - l.length) + l.length - w = i := by omega
  rw [aligned, BitVec.getMsbD_shiftLeft, BitVec.getMsbD_setWidth, hi, BitVec.getMsbD_ofBoolListBE]
  simp

theorem round_eq (p s : BitVec w) : round p s = (s <<< 1) ^^^ (if s.msb then p else 0#w) := by
  rw [round]
  split
  · rfl
  · rw [BitVec.xor_zero]

theorem round_xor (p s t : BitVec w) : round p (s ^^^ t) = round p s ^^^ round p t := by
  have hfeed : (if s.msb ^^ t.msb then p else 0#w) = (if s.msb then p else 0#w) ^^^ (if t.msb then p else 0#w) := by
    cases s.msb <;> cases t.msb <;> simp
  rw [round_eq, round_eq, round_eq, BitVec.msb_xor, BitVec.shiftLeft_xor_distrib, hfeed]
  ac_rfl

theorem rounds_xor (p : BitVec w) (k : Nat) (s t : BitVec w) : rounds p k (s ^^^ t) = rounds p k s ^^^ rounds p k t := by
  induction k generalizing s t with
  | zero => rfl
  | succ k ih => rw [rounds, rounds, rounds, round_xor, ih]

theorem round_aligned (p s : BitVec w) (h : l.length < w) :
    round p (s ^^^ aligned w (b :: l)) = round p (s ^^^ aligned w [b]) ^^^ aligned w l := by
  have hmsb : (aligned w (b :: l)).msb = (aligned w [b]).msb := by
    rw [BitVec.msb_eq_getMsbD_zero, BitVec.msb_eq_getMsbD_zero, getMsbD_aligned h, getMsbD_aligned (by simp; omega)]
    rfl
  have hshift : aligned w (b :: l) <<< 1 = (aligned w [b] <<< 1) ^^^ aligned w l := by
    apply BitVec.eq_of_getMsbD_eq
    intro i hi
    rw [BitVec.getMsbD_xor, BitVec.getMsbD_shiftLeft, BitVec.getMsbD_shiftLeft, getMsbD_aligned h,
      getMsbD_aligned (by simp; omega), getMsbD_aligned (by omega)]
    simp
  rw [round_eq, round_eq, BitVec.msb_xor, BitVec.msb_xor, hmsb, BitVec.shiftLeft_xor_distrib, BitVec.shiftLeft_xor_distrib, hshift]
  ac_rfl

/-- **As many bits as the register has can be put in at once.** -/
theorem absorb_eq (p s : BitVec w) (h : l.length ≤ w) : absorb p s l = rounds p l.length (s ^^^ aligned w l) := by
  induction l generalizing s with
  | nil =>
    have hzero : aligned w [] = 0#w := by
      apply BitVec.eq_of_getMsbD_eq
      intro i hi
      rw [getMsbD_aligned h]
      simp
    rw [absorb, List.length_nil, rounds, hzero, BitVec.xor_zero]
  | cons b l ih =>
    rw [absorb, ih _ (by rw [List.length_cons] at h; omega), List.length_cons, rounds, round_aligned p s h]

/-! ## What the checksum tells apart -/

theorem round_eq_zero (hp : p.getLsbD 0 = true) (h : round p s = 0#w) : s = 0#w := by
  have hw : 0 < w := BitVec.lt_of_getLsbD hp
  have hlow := congrArg (BitVec.getLsbD · 0) h
  cases hmsb : s.msb with
  | true => simp [round, hmsb, hp] at hlow
  | false =>
    have hshift : s <<< 1 = 0#w := by simpa [round, hmsb] using h
    apply BitVec.eq_of_getMsbD_eq
    intro i hi
    cases i with
    | zero => rw [← BitVec.msb_eq_getMsbD_zero, hmsb, BitVec.getMsbD_zero]
    | succ i =>
      have hbit := congrArg (BitVec.getMsbD · i) hshift
      simpa using hbit

theorem round_inj {p : BitVec w} (hp : p.getLsbD 0 = true) {s t : BitVec w} (h : round p s = round p t) : s = t := by
  have hzero : round p (s ^^^ t) = 0#w := by rw [round_xor, h, BitVec.xor_self]
  exact BitVec.xor_eq_zero_iff.1 (round_eq_zero hp hzero)

theorem rounds_inj (hp : p.getLsbD 0 = true) (h : rounds p k s = rounds p k t) : s = t := by
  induction k generalizing s t with
  | zero => exact h
  | succ k ih => exact round_inj hp (ih h)

theorem absorb_inj (hp : p.getLsbD 0 = true) (h : absorb p s l = absorb p t l) : s = t := by
  induction l generalizing s t with
  | nil => exact h
  | cons b l ih => exact (BitVec.xor_left_inj _).1 (round_inj hp (ih h))

theorem aligned_inj (hlen : l.length = r.length) (hw : l.length ≤ w) (h : aligned w l = aligned w r) : l = r := by
  apply List.ext_getElem hlen
  intro i hi hi'
  have hbit := congrArg (BitVec.getMsbD · i) h
  simp only [getMsbD_aligned hw, getMsbD_aligned (hlen ▸ hw)] at hbit
  simpa [List.getD_eq_getElem?_getD, hi, hi'] using hbit

/-- **Two messages that differ inside a window as wide as the register have different checksums.** -/
theorem window_inj {p : BitVec w} (hp : p.getLsbD 0 = true) {s : BitVec w} {l r rest : List Bool} (hlen : l.length = r.length)
    (hw : l.length ≤ w) (h : absorb p s (l ++ rest) = absorb p s (r ++ rest)) : l = r := by
  rw [absorb_append, absorb_append] at h
  have hwindow := absorb_inj hp h
  rw [absorb_eq p s hw, absorb_eq p s (hlen ▸ hw), hlen] at hwindow
  have haligned := rounds_inj hp hwindow
  exact aligned_inj hlen hw ((BitVec.xor_right_inj s).1 haligned)

end Crc
