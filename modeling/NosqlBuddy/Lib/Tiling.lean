import Mathlib.Data.List.Count
import Mathlib.Order.Lattice

/-!
# Half-open ranges laid end to end

`Tiles a rs b`: the ranges `[s, e)` of `rs` are laid end to end from `a` to `b`. A list of ranges tiles
from the left (`Tiles`), grows at the right (`tiles_concat`), loses a range (`Tiles.remove`), covers every
point between its ends exactly once (`Tiles.count`), and cuts a list into slices that make it up again
(`Tiles.flatMap_slice`).
-/

namespace Tiling

variable {α : Type*} [LinearOrder α]

/-- A half-open range, its start and its end. -/
abbrev Range (α : Type*) := α × α

/-- The point lies in the range. -/
def Range.covers (x : α) (r : Range α) : Bool := decide (r.1 ≤ x) && decide (x < r.2)

def Tiles : α → List (Range α) → α → Prop
  | a, [], b => a = b
  | a, r :: rs, b => r.1 = a ∧ r.1 ≤ r.2 ∧ Tiles r.2 rs b

theorem tiles_append : ∀ {a b : α} {rs ss : List (Range α)},
    Tiles a (rs ++ ss) b ↔ ∃ m, Tiles a rs m ∧ Tiles m ss b
  | a, b, [], ss => by simp [Tiles]
  | a, b, r :: rs, ss => by
    simp only [List.cons_append, Tiles, @tiles_append _ _ rs]
    constructor
    · rintro ⟨h1, h2, m, h3, h4⟩
      exact ⟨m, ⟨h1, h2, h3⟩, h4⟩
    · rintro ⟨m, ⟨h1, h2, h3⟩, h4⟩
      exact ⟨h1, h2, m, h3, h4⟩

theorem Tiles.end_eq : ∀ {a b c : α} {rs : List (Range α)}, Tiles a rs b → Tiles a rs c → b = c
  | _, _, _, [], h1, h2 => h1.symm.trans h2
  | _, _, _, _ :: _, h1, h2 => Tiles.end_eq h1.2.2 h2.2.2

theorem tiles_concat (h : Tiles a rs m) (r : Range α) :
    Tiles a (rs ++ [r]) b ↔ r.1 = m ∧ r.1 ≤ r.2 ∧ r.2 = b := by
  rw [tiles_append]
  constructor
  · rintro ⟨m', h1, h2⟩
    obtain rfl := h.end_eq h1
    exact h2
  · rintro h2
    exact ⟨m, h, h2⟩

theorem Tiles.remove {a b c : α} {rs ss : List (Range α)} {r : Range α} (h : Tiles a (rs ++ r :: ss) b) :
    Tiles a (rs ++ ss) c ↔ (r.1 = r.2 ∧ c = b) ∨ (ss = [] ∧ c = r.1) := by
  obtain ⟨m, hrs, rfl, hle, hss⟩ := tiles_append.1 h
  have hrest : Tiles a (rs ++ ss) c ↔ Tiles r.1 ss c := by
    rw [tiles_append]
    constructor
    · rintro ⟨m, h1, h2⟩
      obtain rfl := hrs.end_eq h1
      exact h2
    · intro h2
      exact ⟨r.1, hrs, h2⟩
  rw [hrest]
  cases ss with
  | nil =>
    obtain rfl : r.2 = b := hss
    constructor
    · rintro (rfl : r.1 = c)
      exact .inr ⟨rfl, rfl⟩
    · rintro (⟨h1, rfl⟩ | ⟨_, rfl⟩)
      · exact h1
      · rfl
  | cons q ss =>
    obtain ⟨hq, hle', htail⟩ := hss
    constructor
    · rintro ⟨hq', _, htail'⟩
      exact .inl ⟨hq'.symm.trans hq, htail'.end_eq htail⟩
    · rintro (⟨h1, rfl⟩ | ⟨h1, _⟩)
      · exact ⟨hq.trans h1.symm, hle', htail⟩
      · exact absurd h1 (List.cons_ne_nil q ss)

theorem Tiles.le : ∀ {a b : α} {rs : List (Range α)}, Tiles a rs b → a ≤ b
  | _, _, [], h => le_of_eq h
  | _, _, _ :: _, h => h.1 ▸ le_trans h.2.1 (Tiles.le h.2.2)

/-- **A tiling covers each of its points once.** -/
theorem Tiles.count (x : α) : ∀ {a b : α} {rs : List (Range α)}, Tiles a rs b →
    rs.countP (Range.covers x) = if a ≤ x ∧ x < b then 1 else 0
  | a, b, [], h => by
    obtain rfl : a = b := h
    have hn : ¬ (a ≤ x ∧ x < a) := fun hx => absurd hx.2 (not_lt.2 hx.1)
    simp [hn]
  | a, b, r :: rs, ⟨h1, h2, h3⟩ => by
    subst h1
    have hle := h3.le
    rw [List.countP_cons, Tiles.count x h3, Range.covers]
    rcases lt_or_ge x r.1 with hx | hx
    · have h4 : ¬ r.1 ≤ x := not_le.2 hx
      have h5 : ¬ r.2 ≤ x := not_le.2 (hx.trans_le h2)
      simp [h4, h5]
    · rcases lt_or_ge x r.2 with hx' | hx'
      · have h4 : ¬ r.2 ≤ x := not_le.2 hx'
        simp [hx, hx', h4, hx'.trans_le hle]
      · have h4 : ¬ x < r.2 := not_lt.2 hx'
        simp [hx, hx', h4]

/-! ## Slices of a list -/

/-- The elements at the positions of the range. -/
def Range.slice {β : Type*} (xs : List β) (r : Range Nat) : List β := (xs.drop r.1).take (r.2 - r.1)

theorem Tiles.flatMap_slice {β : Type*} (xs : List β) :
    ∀ {a : Nat}, Tiles a rs b → rs.flatMap (Range.slice xs) = Range.slice xs (a, b) := by
  induction rs with
  | nil =>
    intro a h
    obtain rfl : a = b := h
    simp [Range.slice]
  | cons r rs ih =>
    rintro a ⟨rfl, hle, htail⟩
    have hle' := htail.le
    have hlen : b - r.1 = (r.2 - r.1) + (b - r.2) := by omega
    have hstart : r.1 + (r.2 - r.1) = r.2 := by omega
    rw [List.flatMap_cons, ih htail]
    simp only [Range.slice]
    rw [hlen, List.take_add, List.drop_drop, hstart]

end Tiling
