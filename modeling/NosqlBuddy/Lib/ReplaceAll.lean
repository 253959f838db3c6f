import Mathlib.Data.List.Basic

/-!
# Replacing matches

A pattern is tried at each place from left to right; after a match it goes on behind it (`replace_all` of a regular expression whose
matches are not empty). Text in which it matches nowhere stays as it is (`replaceAll_quiet`).
-/

namespace ReplaceAll

variable {α : Type*}

/-- At a place: what takes the place of the match, and what comes after the match. -/
structure Pattern (α : Type*) where
  run : List α → Option (List α × List α)
  shrinks : ∀ {s out rest}, run s = some (out, rest) → rest.length < s.length

def replaceFuel (p : Pattern α) : Nat → List α → List α
  | 0, s => s
  | _ + 1, [] => []
  | n + 1, c :: cs =>
    match p.run (c :: cs) with
    | some (out, rest) => out ++ replaceFuel p n rest
    | none => c :: replaceFuel p n cs

def replaceAll (p : Pattern α) (s : List α) : List α := replaceFuel p s.length s

section
variable {p : Pattern α}

theorem replaceFuel_eq : ∀ {n m : Nat} {s : List α}, s.length ≤ n → s.length ≤ m → replaceFuel p n s = replaceFuel p m s
  | 0, 0, _, _, _ => rfl
  | 0, m + 1, s, hn, _ => by
    rw [List.length_eq_zero_iff.1 (Nat.le_zero.1 hn)]
    rfl
  | n + 1, 0, s, _, hm => by
    rw [List.length_eq_zero_iff.1 (Nat.le_zero.1 hm)]
    rfl
  | n + 1, m + 1, [], _, _ => rfl
  | n + 1, m + 1, c :: cs, hn, hm => by
    rw [List.length_cons] at hn hm
    rw [replaceFuel, replaceFuel]
    split
    · next out rest h =>
      have hrest := p.shrinks h
      rw [List.length_cons] at hrest
      rw [replaceFuel_eq (n := n) (m := m) (by omega) (by omega)]
    · rw [replaceFuel_eq (n := n) (m := m) (by omega) (by omega)]

@[simp] theorem replaceAll_nil : replaceAll p [] = [] := rfl

theorem replaceAll_some (h : p.run s = some (out, rest)) : replaceAll p s = out ++ replaceAll p rest := by
  have hlt := p.shrinks h
  cases s with
  | nil => cases hlt
  | cons c cs =>
    rw [List.length_cons] at hlt
    rw [replaceAll, List.length_cons, replaceFuel, h, replaceAll]
    exact congrArg (out ++ ·) (replaceFuel_eq (by omega) (by omega))

theorem replaceAll_none (h : p.run (c :: cs) = none) : replaceAll p (c :: cs) = c :: replaceAll p cs := by
  rw [replaceAll, List.length_cons, replaceFuel, h]
  rfl

/-- **Where nothing matches nothing changes.** -/
theorem replaceAll_quiet : ∀ {a b : List α}, (∀ u, u ≠ [] → u <:+ a → p.run (u ++ b) = none) →
    replaceAll p (a ++ b) = a ++ replaceAll p b
  | [], _, _ => rfl
  | c :: cs, b, h => by
    have hcs := replaceAll_quiet (a := cs) (b := b) fun u hu hsuffix => h u hu (hsuffix.trans (List.suffix_cons c cs))
    have hhead : p.run (c :: (cs ++ b)) = none := h (c :: cs) (List.cons_ne_nil c cs) (List.suffix_refl _)
    rw [List.cons_append, replaceAll_none hhead, hcs, List.cons_append]

theorem replaceAll_plain (h : ∀ c ∈ a, ∀ s, p.run (c :: s) = none) : replaceAll p (a ++ b) = a ++ replaceAll p b := by
  refine replaceAll_quiet fun u hu hsuffix => ?_
  cases u with
  | nil => exact absurd rfl hu
  | cons c cs => exact h c (hsuffix.mem List.mem_cons_self) _

end

end ReplaceAll
