import Mathlib.Data.List.Basic
import Mathlib.Data.Nat.Bitwise

/-!
# Numbers as groups of bits

The bits of a number and of a list, the most significant first. `groups w l` cuts `l` into groups of `w` bits, `remainder w l` is
what is left over at the end. `groups_append` lets a codec that works with a register be followed symbol by symbol;
`groups_flatMap` and `flatMap_groups` are the two ways round.
-/

namespace BitGroups

def toBits : Nat → Nat → List Bool
  | 0, _ => []
  | w + 1, v => v.testBit w :: toBits w v

def ofBits : List Bool → Nat
  | [] => 0
  | b :: l => 2 ^ l.length * b.toNat + ofBits l

attribute [local simp] toBits ofBits

@[simp] theorem toBits_zero (v : Nat) : toBits 0 v = [] := rfl

@[simp] theorem length_toBits (w v : Nat) : (toBits w v).length = w := by
  induction w with
  | zero => rfl
  | succ w ih => simp [toBits, ih]

variable {v w : Nat}

theorem toBits_congr (h : ∀ i, i < w → v.testBit i = v'.testBit i) : toBits w v = toBits w v' := by
  induction w with
  | zero => rfl
  | succ w ih => rw [toBits, toBits, h w (by omega), ih fun i hi => h i (by omega)]

theorem toBits_add (a b v : Nat) : toBits (a + b) v = toBits a (v / 2 ^ b) ++ toBits b v := by
  induction a with
  | zero => simp
  | succ a ih => rw [Nat.succ_add, toBits, toBits, ih, Nat.testBit_div_two_pow, List.cons_append]

theorem ofBits_lt (l : List Bool) : ofBits l < 2 ^ l.length := by
  induction l with
  | nil => decide
  | cons b l ih =>
    have hb : b.toNat ≤ 1 := Bool.toNat_le b
    have hmul : 2 ^ l.length * b.toNat ≤ 2 ^ l.length * 1 := Nat.mul_le_mul_left _ hb
    rw [ofBits, List.length_cons, Nat.pow_succ]
    omega

theorem ofBits_toBits (w v : Nat) : ofBits (toBits w v) = v % 2 ^ w := by
  induction w with
  | zero => simp [ofBits, Nat.mod_one]
  | succ w ih =>
    rw [toBits, ofBits, ih, length_toBits, Nat.testBit_eq_decide_div_mod_eq, Nat.pow_succ, Nat.mod_mul]
    rcases Nat.mod_two_eq_zero_or_one (v / 2 ^ w) with h | h
    · simp [h]
    · simp [h, Nat.add_comm]

theorem ofBits_toBits_of_lt (h : v < 2 ^ w) : ofBits (toBits w v) = v := by
  rw [ofBits_toBits, Nat.mod_eq_of_lt h]

theorem toBits_ofBits (l : List Bool) : toBits l.length (ofBits l) = l := by
  induction l with
  | nil => rfl
  | cons b l ih =>
    have hlow : ∀ i, i < l.length → (2 ^ l.length * b.toNat + ofBits l).testBit i = (ofBits l).testBit i := by
      intro i hi
      rw [Nat.testBit_two_pow_mul_add _ (ofBits_lt l), if_pos hi]
    rw [List.length_cons, toBits, ofBits, toBits_congr hlow, ih, Nat.testBit_two_pow_mul_add _ (ofBits_lt l)]
    cases b with
    | false => simp
    | true => simp

theorem toBits_inj (h : v < 2 ^ w) (h' : v' < 2 ^ w) (heq : toBits w v = toBits w v') : v = v' := by
  rw [← ofBits_toBits_of_lt h, heq, ofBits_toBits_of_lt h']

variable {l : List Bool}

/-! ## Groups -/

def groups (w : Nat) (l : List Bool) : List Nat :=
  if 0 < w ∧ w ≤ l.length then ofBits (l.take w) :: groups w (l.drop w) else []
termination_by l.length
decreasing_by rw [List.length_drop]; omega

def remainder (w : Nat) (l : List Bool) : List Bool :=
  if 0 < w ∧ w ≤ l.length then remainder w (l.drop w) else l
termination_by l.length
decreasing_by rw [List.length_drop]; omega

theorem groups_cons (hw : 0 < w) (ha : a.length = w) (l : List Bool) :
    groups w (a ++ l) = ofBits a :: groups w l := by
  rw [groups, if_pos ⟨hw, by rw [List.length_append]; omega⟩, ← ha, List.take_left, List.drop_left]

theorem remainder_cons (hw : 0 < w) (ha : a.length = w) (l : List Bool) :
    remainder w (a ++ l) = remainder w l := by
  rw [remainder, if_pos ⟨hw, by rw [List.length_append]; omega⟩, ← ha, List.drop_left]

theorem groups_short (h : l.length < w) : groups w l = [] := by
  rw [groups, if_neg (by omega)]

theorem remainder_short (h : l.length < w) : remainder w l = l := by
  rw [remainder, if_neg (by omega)]

theorem exists_groups (w : Nat) (l : List Bool) :
    l.length < w ∨ ∃ a rest, a.length = w ∧ l = a ++ rest := by
  by_cases h : l.length < w
  · exact .inl h
  · exact .inr ⟨l.take w, l.drop w, by rw [List.length_take]; omega, (List.take_append_drop w l).symm⟩

theorem groups_induction (hw : 0 < w) {P : List Bool → Prop} (short : ∀ l, l.length < w → P l)
    (group : ∀ a l, a.length = w → P l → P (a ++ l)) (l : List Bool) : P l := by
  rcases exists_groups w l with h | ⟨a, rest, ha, rfl⟩
  · exact short l h
  · exact group a rest ha (groups_induction hw short group rest)
termination_by l.length
decreasing_by simp_all

theorem groups_append (hw : 0 < w) (l r : List Bool) : groups w (l ++ r) = groups w l ++ groups w (remainder w l ++ r) := by
  induction l using groups_induction hw with
  | short l h => rw [groups_short h, remainder_short h, List.nil_append]
  | group a l ha ih => rw [List.append_assoc, groups_cons hw ha, groups_cons hw ha, remainder_cons hw ha, ih, List.cons_append]

theorem remainder_append (hw : 0 < w) (l r : List Bool) : remainder w (l ++ r) = remainder w (remainder w l ++ r) := by
  induction l using groups_induction hw with
  | short l h => rw [remainder_short h]
  | group a l ha ih => rw [List.append_assoc, remainder_cons hw ha, remainder_cons hw ha, ih]

theorem length_groups (hw : 0 < w) (l : List Bool) : (groups w l).length = l.length / w := by
  induction l using groups_induction hw with
  | short l h => rw [groups_short h, Nat.div_eq_of_lt h, List.length_nil]
  | group a l ha ih => rw [groups_cons hw ha, List.length_cons, ih, List.length_append, ha, Nat.add_comm w, Nat.add_div_right _ hw]

theorem lt_of_mem_groups (hw : 0 < w) (l : List Bool) : ∀ n ∈ groups w l, n < 2 ^ w := by
  induction l using groups_induction hw with
  | short l h => simp [groups_short h]
  | group a l ha ih =>
    rw [groups_cons hw ha]
    intro n hn
    rcases List.mem_cons.1 hn with rfl | hn
    · exact ha ▸ ofBits_lt a
    · exact ih n hn

/-- **The bits of numbers that fit are cut into these numbers again.** -/
theorem groups_flatMap (hw : 0 < w) (h : ∀ n ∈ ns, n < 2 ^ w) (r : List Bool) :
    groups w (ns.flatMap (toBits w) ++ r) = ns ++ groups w r := by
  induction ns with
  | nil => simp
  | cons n ns ih =>
    rw [List.flatMap_cons, List.append_assoc, groups_cons hw (length_toBits w n), ih fun m hm => h m (List.mem_cons_of_mem n hm),
      ofBits_toBits_of_lt (h n List.mem_cons_self), List.cons_append]

/-- **The bits of the groups, and what is left over, are the bits that were cut.** -/
theorem flatMap_groups (hw : 0 < w) (l : List Bool) : (groups w l).flatMap (toBits w) ++ remainder w l = l := by
  induction l using groups_induction hw with
  | short l h => rw [groups_short h, remainder_short h, List.flatMap_nil, List.nil_append]
  | group a l ha ih =>
    rw [groups_cons hw ha, remainder_cons hw ha, List.flatMap_cons, List.append_assoc, ih]
    congr 1
    exact ha ▸ toBits_ofBits a

theorem length_flatMap_toBits (w : Nat) (ns : List Nat) : (ns.flatMap (toBits w)).length = w * ns.length := by
  induction ns with
  | nil => simp
  | cons n ns ih => rw [List.flatMap_cons, List.length_append, length_toBits, ih, List.length_cons, Nat.mul_succ, Nat.add_comm]

theorem remainder_length (hw : 0 < w) (l : List Bool) : (remainder w l).length = l.length % w := by
  have h := congrArg List.length (flatMap_groups hw l)
  rw [List.length_append, length_flatMap_toBits, length_groups hw] at h
  have := Nat.div_add_mod l.length w
  omega

theorem remainder_eq_nil (hw : 0 < w) (h : l.length % w = 0) : remainder w l = [] :=
  List.length_eq_zero_iff.1 (by rw [remainder_length hw, h])

theorem flatMap_groups_of_dvd (hw : 0 < w) (h : l.length % w = 0) :
    (groups w l).flatMap (toBits w) = l := by
  have hall := flatMap_groups hw l
  rwa [remainder_eq_nil hw h, List.append_nil] at hall

theorem remainder_toBits (hw : 0 < w) (n v : Nat) : remainder w (toBits n v) = toBits (n % w) v := by
  have hsplit : toBits n v = toBits (w * (n / w)) (v / 2 ^ (n % w)) ++ toBits (n % w) v := by
    rw [← toBits_add, Nat.div_add_mod]
  have hnil : remainder w (toBits (w * (n / w)) (v / 2 ^ (n % w))) = [] :=
    remainder_eq_nil hw (by rw [length_toBits, Nat.mul_mod_right])
  rw [hsplit, remainder_append hw, hnil, List.nil_append, remainder_short (by rw [length_toBits]; exact Nat.mod_lt _ hw)]

/-! ## Padding -/

/-- The bits, filled up with zeros to a whole number of groups. -/
def padded (w : Nat) (l : List Bool) : List Bool := l ++ List.replicate ((w - l.length % w) % w) false

theorem padded_of_dvd (h : l.length % w = 0) : padded w l = l := by
  rw [padded, h, Nat.sub_zero, Nat.mod_self, List.replicate_zero, List.append_nil]

theorem groups_padded_append (hw : 0 < w) (l r : List Bool) :
    groups w (padded w (l ++ r)) = groups w l ++ groups w (padded w (remainder w l ++ r)) := by
  have hlen : (remainder w l ++ r).length % w = (l ++ r).length % w := by
    rw [List.length_append, List.length_append, remainder_length hw, Nat.mod_add_mod]
  rw [padded, padded, hlen, List.append_assoc, List.append_assoc, groups_append hw]

theorem toBits_mul_pow (a b v : Nat) : toBits (a + b) (v * 2 ^ b) = toBits a v ++ List.replicate b false := by
  have hzero : ∀ n, toBits n 0 = List.replicate n false := by
    intro n
    induction n with
    | zero => rfl
    | succ n ih => rw [toBits, ih, Nat.zero_testBit, List.replicate_succ]
  have hlow : toBits b (v * 2 ^ b) = toBits b 0 := by
    apply toBits_congr
    intro i hi
    rw [Nat.testBit_mul_two_pow]
    simp [show ¬ b ≤ i by omega]
  rw [toBits_add, Nat.mul_div_cancel _ (Nat.two_pow_pos b), hlow, hzero]

end BitGroups
