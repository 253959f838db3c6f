import Mathlib.Data.List.Basic
import Mathlib.Logic.Function.Basic

/-!
# Counter-backed logs

An append-only log kept in a key-value store: entry number `n` (from 1) under key `n`, and a counter
holding the number of the last entry. `Stores read xs` says that `read` is the store of the list
`xs`; an append writes under the key after the counter (`stores_push`) and a page is read from the
counter downwards (`filterMap_down`).
-/

namespace CounterLog

variable {α : Type*} {read : Nat → Option α} {xs : List α}

theorem getElem?_concat :
    (xs ++ [a])[i]? = some b ↔ xs[i]? = some b ∨ (i = xs.length ∧ a = b) := by
  rcases Nat.lt_trichotomy i xs.length with h | h | h
  · rw [List.getElem?_append_left h]
    simp [Nat.ne_of_lt h]
  · subst h
    simp
  · rw [List.getElem?_eq_none (by simp; omega), List.getElem?_eq_none (by omega)]
    simp [Nat.ne_of_gt h]

/-- Key 0 is unused and key `i + 1` holds entry `i`. -/
def Stores (read : Nat → Option α) (xs : List α) : Prop := read 0 = none ∧ ∀ i, read (i + 1) = xs[i]?

theorem stores_nil : Stores (fun _ => (none : Option α)) [] := ⟨rfl, fun _ => by simp⟩

theorem stores_push (h : Stores read xs) (a : α) :
    Stores (Function.update read (xs.length + 1) (some a)) (xs ++ [a]) := by
  refine ⟨by simpa [Function.update_apply] using h.1, fun i => ?_⟩
  rw [Function.update_apply]
  split
  · next hi =>
    obtain rfl : i = xs.length := by omega
    simp
  · next hi =>
    rw [h.2 i]
    rcases Nat.lt_or_ge i xs.length with hl | hl
    · rw [List.getElem?_append_left hl]
    · rw [List.getElem?_eq_none hl, List.getElem?_eq_none (by simp; omega)]

theorem stores_some (h : Stores read xs) :
    read n = some a ↔ ∃ i, n = i + 1 ∧ xs[i]? = some a := by
  cases n with
  | zero => simp [h.1]
  | succ i => simp [h.2 i]

theorem stores_isSome (h : Stores read xs) (n : Nat) : (read n).isSome ↔ 1 ≤ n ∧ n ≤ xs.length := by
  cases n with
  | zero => simp [h.1]
  | succ i =>
    have hlt : (xs[i]?).isSome ↔ i < xs.length := by simp
    rw [h.2 i, hlt]
    omega

theorem stores_mono (h : Stores read xs) (h' : Stores read' ys)
    (hp : xs <+: ys) (hn : read n = some a) : read' n = some a := by
  obtain ⟨i, rfl, hi⟩ := (stores_some h).1 hn
  obtain ⟨zs, rfl⟩ := hp
  have hlt : i < xs.length := (List.getElem?_eq_some_iff.1 hi).1
  exact (stores_some h').2 ⟨i, rfl, by rw [List.getElem?_append_left hlt]; exact hi⟩

/-! ## Pages -/

/-- `page` holds the `min limit n` entries with the highest numbers, newest first. -/
def NewestFirst (read : Nat → Option α) (n limit : Nat) (page : List α) : Prop :=
  page.length = min limit n ∧ ∀ i < min limit n, page[i]? = read (n - i)

theorem filterMap_up (h : Stores read xs) :
    ∀ (k a : Nat), a + k = xs.length → (List.range' (a + 1) k).filterMap read = xs.drop a
  | 0, a, ha => by rw [List.drop_eq_nil_of_le (by omega)]; rfl
  | k + 1, a, ha => by
    have hlt : a < xs.length := by omega
    rw [List.range'_succ, List.filterMap_cons, h.2 a, List.getElem?_eq_getElem hlt,
      List.drop_eq_getElem_cons hlt]
    simp only [filterMap_up h k (a + 1) (by omega)]

theorem filterMap_down (h : Stores read xs) (k : Nat) (hk : k ≤ xs.length) :
    (List.range' (xs.length - k + 1) k).reverse.filterMap read = xs.reverse.take k := by
  rw [List.filterMap_reverse, filterMap_up h k _ (by omega), List.take_reverse]

theorem newestFirst_take (h : Stores read xs) (limit : Nat) :
    NewestFirst read xs.length limit (xs.reverse.take limit) := by
  refine ⟨by simp, fun i hi => ?_⟩
  rw [List.getElem?_take_of_lt (by omega), List.getElem?_reverse (by omega)]
  obtain ⟨m, hm⟩ : ∃ m, xs.length - i = m + 1 := ⟨xs.length - i - 1, by omega⟩
  rw [hm, h.2 m]
  congr 1
  omega

theorem newest_descending (num : α → Nat) (hnum : ∀ (i : Nat) (a : α), xs[i]? = some a → num a = i + 1)
    (limit : Nat) : (xs.reverse.take limit).Pairwise fun a b => num b < num a := by
  refine List.Pairwise.sublist (List.take_sublist limit _) ?_
  rw [List.pairwise_reverse, List.pairwise_iff_getElem]
  intro i j hi hj hij
  have h1 := hnum i _ (List.getElem?_eq_getElem hi)
  have h2 := hnum j _ (List.getElem?_eq_getElem hj)
  omega

end CounterLog
