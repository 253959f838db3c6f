import Mathlib.Data.List.Count

/-!
# Patterns with wildcards

A pattern is a list of elements: a symbol of its own, one symbol of any kind, a run of symbols. `Fits ok` lets the wildcards stand
for the symbols with `ok` only. `fits_ne_iff`: wildcards that may not stand for one symbol match what free ones match, where that
symbol occurs no more often than the pattern spells it.
-/

namespace Wildcards

variable {α : Type*}

inductive Elem (α : Type*) where
  | run
  | one
  | lit (a : α)
deriving DecidableEq, Repr

inductive Fits (ok : α → Prop) : List (Elem α) → List α → Prop where
  | nil : Fits ok [] []
  | lit {es s} (a : α) : Fits ok es s → Fits ok (.lit a :: es) (a :: s)
  | one {es s} {a : α} : ok a → Fits ok es s → Fits ok (.one :: es) (a :: s)
  | run {es s} {t : List α} : (∀ a ∈ t, ok a) → Fits ok es s → Fits ok (.run :: es) (t ++ s)

theorem Fits.mono {ok ok' : α → Prop} (h : ∀ a, ok a → ok' a) {es : List (Elem α)} {s : List α} (hfits : Fits ok es s) :
    Fits ok' es s := by
  induction hfits with
  | nil => exact .nil
  | lit a _ ih => exact .lit a ih
  | one ha _ ih => exact .one (h _ ha) ih
  | run ht _ ih => exact .run (fun a hmem => h a (ht a hmem)) ih

theorem fits_lit :
    Fits ok (.lit a :: es) s ↔ ∃ r, s = a :: r ∧ Fits ok es r := by
  constructor
  · rintro (_ | ⟨_, h⟩)
    exact ⟨_, rfl, h⟩
  · rintro ⟨r, rfl, h⟩
    exact .lit a h

theorem fits_one : Fits ok (.one :: es) s ↔ ∃ a r, s = a :: r ∧ ok a ∧ Fits ok es r := by
  constructor
  · rintro (_ | _ | ⟨ha, h⟩)
    exact ⟨_, _, rfl, ha, h⟩
  · rintro ⟨a, r, rfl, ha, h⟩
    exact .one ha h

theorem fits_run :
    Fits ok (.run :: es) s ↔ ∃ t r, s = t ++ r ∧ (∀ a ∈ t, ok a) ∧ Fits ok es r := by
  constructor
  · rintro (_ | _ | _ | ⟨ht, h⟩)
    exact ⟨_, _, rfl, ht, h⟩
  · rintro ⟨t, r, rfl, ht, h⟩
    exact .run ht h

variable [DecidableEq α]

/-- How often the pattern spells a symbol. -/
def spelled (x : α) (es : List (Elem α)) : Nat := es.count (.lit x)

@[simp] theorem spelled_lit (x a : α) (es : List (Elem α)) : spelled x (.lit a :: es) = spelled x es + if a = x then 1 else 0 := by
  simp [spelled, List.count_cons]

@[simp] theorem spelled_one (x : α) (es : List (Elem α)) : spelled x (.one :: es) = spelled x es := by simp [spelled]

@[simp] theorem spelled_run (x : α) (es : List (Elem α)) : spelled x (.run :: es) = spelled x es := by simp [spelled]

theorem count_cons_eq (x a : α) (s : List α) : (a :: s).count x = s.count x + if a = x then 1 else 0 := by
  simp [List.count_cons]

theorem spelled_le (x : α) (h : Fits ok es s) : spelled x es ≤ s.count x := by
  induction h with
  | nil => exact Nat.le_refl 0
  | lit a _ ih =>
    rw [spelled_lit, count_cons_eq]
    exact Nat.add_le_add_right ih _
  | one _ _ ih =>
    rw [spelled_one, count_cons_eq]
    exact Nat.le_add_right_of_le ih
  | run _ _ ih =>
    rw [spelled_run, List.count_append]
    exact Nat.le_add_left_of_le ih

/-- **Wildcards that may not stand for `x`: every `x` of the string is spelled.** -/
theorem fits_ne_iff {x : α} {es : List (Elem α)} {s : List α} :
    Fits (· ≠ x) es s ↔ Fits (fun _ => True) es s ∧ s.count x = spelled x es := by
  constructor
  · intro h
    refine ⟨h.mono fun _ _ => trivial, ?_⟩
    induction h with
    | nil => rfl
    | lit a _ ih => rw [spelled_lit, count_cons_eq, ih]
    | one ha _ ih => rw [spelled_one, count_cons_eq, ih, if_neg ha, Nat.add_zero]
    | run ht _ ih =>
      have hnone := List.count_eq_zero.2 fun hmem => ht x hmem rfl
      rw [spelled_run, List.count_append, hnone, ih, Nat.zero_add]
  · rintro ⟨h, hcount⟩
    induction h with
    | nil => exact .nil
    | lit a h ih =>
      rw [spelled_lit, count_cons_eq] at hcount
      exact .lit a (ih (Nat.add_right_cancel hcount))
    | @one es s a _ h ih =>
      have hle := spelled_le x h
      rw [spelled_one, count_cons_eq] at hcount
      have hne : a ≠ x := by
        intro heq
        rw [if_pos heq] at hcount
        omega
      rw [if_neg hne] at hcount
      exact .one hne (ih hcount)
    | @run es s t _ h ih =>
      have hle := spelled_le x h
      rw [spelled_run, List.count_append] at hcount
      have hnone : t.count x = 0 := by omega
      refine .run (fun a hmem heq => ?_) (ih (by omega))
      exact List.count_eq_zero.1 hnone (heq ▸ hmem)

end Wildcards
