import Mathlib.Data.List.Forall2

/-!
# Lists in step

Two lists whose elements are related one by one.
-/

namespace Aligned

open List (Forall₂)

universe u v
variable {α : Type u} {β : Type v} {R R' : α → β → Prop} {xs : List α} {ys : List β}

theorem exists_right (h : Forall₂ R xs ys) {x : α} (hx : x ∈ xs) : ∃ y ∈ ys, R x y := by
  induction h with
  | nil => cases hx
  | cons hxy _ ih =>
    rcases List.mem_cons.1 hx with rfl | hx
    · exact ⟨_, List.mem_cons_self, hxy⟩
    · obtain ⟨y, hy, hxy⟩ := ih hx
      exact ⟨y, List.mem_cons_of_mem _ hy, hxy⟩

theorem imp_mem (h : Forall₂ R xs ys) (himp : ∀ x ∈ xs, ∀ y, R x y → R' x y) : Forall₂ R' xs ys := by
  induction h with
  | nil => exact .nil
  | @cons x y xs ys hxy _ ih =>
    exact .cons (himp x List.mem_cons_self y hxy) (ih fun z hz => himp z (List.mem_cons_of_mem x hz))

theorem forall_iff {P : α → Prop} (h : Forall₂ R xs ys) (hiff : ∀ x ∈ xs, ∀ y, R x y → (R' x y ↔ P x)) :
    Forall₂ R' xs ys ↔ ∀ x ∈ xs, P x := by
  induction h with
  | nil => simp
  | @cons x y xs ys hxy _ ih =>
    rw [List.forall₂_cons, List.forall_mem_cons, hiff x List.mem_cons_self y hxy,
      ih fun z hz => hiff z (List.mem_cons_of_mem x hz)]

end Aligned
