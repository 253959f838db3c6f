import Mathlib

/-!
# The newest of a list

`NewestOf key n xs out` says that `out` holds `n` elements of `xs` that nothing left out comes after, latest first; elements
with one key may be chosen freely. A list that is sorted by texts is in the order of the moments they stand for exactly when
texts and moments agree on it (`newestOf_iff`), and then its first `n` elements are the newest, for each `n` (`newestOf_take`).
-/

namespace Newest

variable {α τ κ : Type} [LinearOrder τ] [LinearOrder κ]

structure NewestOf (key : α → κ) (n : Nat) (xs out : List α) : Prop where
  sorted : out.Pairwise fun a b => key b ≤ key a
  length : out.length = min n xs.length
  rest : ∃ rest, (out ++ rest).Perm xs ∧ ∀ a ∈ out, ∀ b ∈ rest, key b ≤ key a

/-- The order of the texts is that of the moments. -/
def Agree (text : α → τ) (moment : τ → κ) (xs : List α) : Prop :=
  ∀ a ∈ xs, ∀ b ∈ xs, text a ≤ text b → moment (text a) ≤ moment (text b)

/-- Texts and moments of two elements agree, whichever of the two is the later. -/
def Fits (text : α → τ) (moment : τ → κ) (a b : α) : Prop :=
  (text a ≤ text b → moment (text a) ≤ moment (text b)) ∧ (text b ≤ text a → moment (text b) ≤ moment (text a))

instance (text : α → τ) (moment : τ → κ) : Std.Symm (Fits text moment) := ⟨fun _ _ h => ⟨h.2, h.1⟩⟩

variable {key : α → κ} {text : α → τ} {moment : τ → κ} {xs sorted : List α}

theorem Agree.filter (h : Agree text moment xs) (p : α → Bool) : Agree text moment (xs.filter p) :=
  fun a ha b hb => h a (List.mem_filter.1 ha).1 b (List.mem_filter.1 hb).1

theorem NewestOf.perm (h : NewestOf key xs.length xs out) : out.Perm xs := by
  obtain ⟨rest, hperm, -⟩ := h.rest
  have hlen := hperm.length_eq
  rw [List.length_append, h.length, Nat.min_self] at hlen
  obtain rfl : rest = [] := List.eq_nil_of_length_eq_zero (by omega)
  simpa using hperm

theorem newestOf_take_of_pairwise (hp : sorted.Perm xs) (hs : sorted.Pairwise fun a b => key b ≤ key a) (n : Nat) :
    NewestOf key n xs (sorted.take n) where
  sorted := hs.sublist (List.take_sublist n sorted)
  length := by rw [List.length_take, hp.length_eq]
  rest := by
    refine ⟨sorted.drop n, by rwa [List.take_append_drop], ?_⟩
    rw [← List.take_append_drop n sorted] at hs
    exact (List.pairwise_append.1 hs).2.2

theorem newestOf_take (hp : sorted.Perm xs) (hs : sorted.Pairwise fun a b => text b ≤ text a) (h : Agree text moment xs)
    (n : Nat) : NewestOf (fun a => moment (text a)) n xs (sorted.take n) := by
  refine newestOf_take_of_pairwise hp (hs.imp_of_mem fun {a b} ha hb hle => ?_) n
  exact h b (hp.mem_iff.1 hb) a (hp.mem_iff.1 ha) hle

/-- **Sorted by texts is sorted by moments exactly when the two agree.** -/
theorem newestOf_iff (hp : sorted.Perm xs) (hs : sorted.Pairwise fun a b => text b ≤ text a) :
    NewestOf (fun a => moment (text a)) xs.length xs sorted ↔ Agree text moment xs := by
  constructor
  · intro h
    have hboth : sorted.Pairwise (Fits text moment) := by
      refine (hs.and h.sorted).imp fun {a b} hab => ⟨fun hle => ?_, fun _ => hab.2⟩
      rw [le_antisymm hle hab.1]
    intro a ha b hb hle
    by_cases hab : a = b
    · rw [hab]
    · exact (hboth.forall (hp.mem_iff.2 ha) (hp.mem_iff.2 hb) hab).1 hle
  · intro h
    have := newestOf_take hp hs h xs.length
    rwa [← hp.length_eq, List.take_length, hp.length_eq] at this

end Newest

/-!
## The last of the largest

`maxBy` is the maximum of an iterator by a comparison: of several largest items the last one (`Iterator::max_by`). It is a largest
item (`maxBy_spec`), and each largest item is the maximum of the items in some order (`maxBy_concat`).
-/

namespace LastMax

variable {α : Type*}

/-- The item that is kept so far, and the rest. -/
def keepMax (gt : α → α → Bool) (x : α) (ys : List α) : α := ys.foldl (fun x y => if gt x y then x else y) x

/-- `gt x y` says that `x` compares as greater. -/
def maxBy (gt : α → α → Bool) : List α → Option α
  | [] => none
  | x :: ys => some (keepMax gt x ys)

/-- No item is greater. -/
def Largest (gt : α → α → Bool) (xs : List α) (m : α) : Prop := m ∈ xs ∧ ∀ y ∈ xs, gt y m = false

section
variable {κ : Type*} [LinearOrder κ] {gt : α → α → Bool} {key : α → κ}

theorem keepMax_spec : ∀ {ys : List α} {x : α}, (∀ a ∈ x :: ys, ∀ b ∈ x :: ys, gt a b = true ↔ key b < key a) →
    Largest gt (x :: ys) (keepMax gt x ys)
  | [], x, h => by
    refine ⟨List.mem_singleton.2 rfl, fun y hy => ?_⟩
    rw [List.mem_singleton.1 hy]
    exact eq_false_of_ne_true fun hgt => lt_irrefl _ ((h x List.mem_cons_self x List.mem_cons_self).1 hgt)
  | y :: ys, x, h => by
    have hx : x ∈ x :: y :: ys := List.mem_cons_self
    have hy : y ∈ x :: y :: ys := List.mem_cons_of_mem x List.mem_cons_self
    have hz : ∀ z ∈ ys, z ∈ x :: y :: ys := fun z hz => List.mem_cons_of_mem x (List.mem_cons_of_mem y hz)
    -- the item that is kept is not less than the other of the first two
    obtain ⟨w, v, hw, hwmem, hcases, hle⟩ : ∃ w v, keepMax gt x (y :: ys) = keepMax gt w ys ∧ w ∈ x :: y :: ys ∧
        ((w = x ∧ v = y) ∨ (w = y ∧ v = x)) ∧ key v ≤ key w := by
      by_cases hgt : gt x y = true
      · exact ⟨x, y, by rw [keepMax, List.foldl_cons, if_pos hgt]; rfl, hx, .inl ⟨rfl, rfl⟩, le_of_lt ((h x hx y hy).1 hgt)⟩
      · exact ⟨y, x, by rw [keepMax, List.foldl_cons, if_neg hgt]; rfl, hy, .inr ⟨rfl, rfl⟩,
          not_lt.1 fun hlt => hgt ((h x hx y hy).2 hlt)⟩
    have hsub : ∀ a ∈ w :: ys, a ∈ x :: y :: ys := by
      intro a ha
      rcases List.mem_cons.1 ha with rfl | ha
      · exact hwmem
      · exact hz a ha
    obtain ⟨hmem, hmax⟩ : Largest gt (w :: ys) (keepMax gt w ys) := keepMax_spec fun a ha b hb => h a (hsub a ha) b (hsub b hb)
    rw [hw]
    refine ⟨hsub _ hmem, fun a ha => ?_⟩
    have hall : a ∈ w :: ys ∨ a = v := by
      rcases List.mem_cons.1 ha with rfl | ha
      · rcases hcases with ⟨rfl, rfl⟩ | ⟨rfl, rfl⟩
        · exact .inl List.mem_cons_self
        · exact .inr rfl
      · rcases List.mem_cons.1 ha with rfl | ha
        · rcases hcases with ⟨rfl, rfl⟩ | ⟨rfl, rfl⟩
          · exact .inr rfl
          · exact .inl List.mem_cons_self
        · exact .inl (List.mem_cons_of_mem w ha)
    rcases hall with ha' | rfl
    · exact hmax a ha'
    · refine eq_false_of_ne_true fun hgt => ?_
      have hlt := (h a ha _ (hsub _ hmem)).1 hgt
      have hwle : gt w (keepMax gt w ys) = false := hmax w List.mem_cons_self
      exact absurd ((h w hwmem _ (hsub _ hmem)).2 (lt_of_lt_of_le hlt hle)) (by rw [hwle]; exact Bool.false_ne_true)

/-- **The maximum is a largest item.** -/
theorem maxBy_spec (h : ∀ a ∈ xs, ∀ b ∈ xs, gt a b = true ↔ key b < key a) (hm : maxBy gt xs = some m) :
    Largest gt xs m := by
  cases xs with
  | nil => cases hm
  | cons x ys =>
    obtain rfl := Option.some.inj hm
    exact keepMax_spec h

end

theorem maxBy_isSome : ∀ {xs : List α}, (maxBy gt xs).isSome = true ↔ xs ≠ []
  | [] => by simp [maxBy]
  | x :: ys => by simp [maxBy]

theorem keepMax_mem : ∀ (ys : List α) (x : α), keepMax gt x ys ∈ x :: ys
  | [], x => List.mem_singleton.2 rfl
  | y :: ys, x => by
    rw [keepMax, List.foldl_cons, ← keepMax]
    split
    · exact List.mem_cons.2 ((List.mem_cons.1 (keepMax_mem ys x)).imp_right (List.mem_cons_of_mem y))
    · exact List.mem_cons_of_mem x (keepMax_mem ys y)

/-- **A largest item at the end is the maximum.** -/
theorem maxBy_concat (h : ∀ y ∈ xs, gt y m = false) : maxBy gt (xs ++ [m]) = some m := by
  cases xs with
  | nil => rfl
  | cons x ys =>
    have hlast : gt (keepMax gt x ys) m = false := h _ (keepMax_mem ys x)
    rw [List.cons_append, maxBy, keepMax, List.foldl_append, List.foldl_cons, List.foldl_nil, ← keepMax, hlast]
    rfl

end LastMax
