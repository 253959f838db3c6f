import Mathlib.Data.List.Basic
import Mathlib.Logic.Function.Basic

/-!
# Posting lists

A table is a list, and an index of it maps each key to the positions of the elements with that key. `post` enters
elements that stand in the table from a position on, one after the other; `build` is the index of a whole table. An index is
determined by its posting lists as long as none of them is empty (`Proper`).
-/

namespace Postings

variable {α κ : Type} [DecidableEq κ] (key : α → κ)

/-- An index: the positions of each key it knows. -/
abbrev Index (κ : Type) := κ → Option (List Nat)

/-- The positions that an index has for a key. -/
def Index.get (ix : Index κ) (k : κ) : List Nat := (ix k).getD []

/-- No key is known without a position. -/
def Index.Proper (ix : Index κ) : Prop := ∀ k, ix k ≠ some []

def Index.empty : Index κ := fun _ => none

/-- Enter the elements, which stand in the table from `start` on. -/
def post (ix : Index κ) (start : Nat) : List α → Index κ
  | [] => ix
  | x :: xs => post (Function.update ix (key x) (some (ix.get (key x) ++ [start]))) (start + 1) xs

/-- The index of a table. -/
def build (xs : List α) : Index κ := post key .empty 0 xs

/-- The positions of a key among elements that stand in the table from `start` on. -/
def positions (k : κ) (start : Nat) : List α → List Nat
  | [] => []
  | x :: xs => if key x = k then start :: positions k (start + 1) xs else positions k (start + 1) xs

attribute [local simp] post positions

variable {key}

theorem positions_append (k : κ) : ∀ (start : Nat) (xs ys : List α),
    positions key k start (xs ++ ys) = positions key k start xs ++ positions key k (start + xs.length) ys
  | start, [], ys => by simp [positions]
  | start, x :: xs, ys => by
    have ih := positions_append k (start + 1) xs ys
    have hlen : start + (x :: xs).length = start + 1 + xs.length := by
      rw [List.length_cons]
      omega
    rw [List.cons_append, positions, positions, ih, hlen]
    split
    · rfl
    · rfl

theorem positions_eq_nil : ∀ {start : Nat} {xs : List α}, (∀ x ∈ xs, key x ≠ k) → positions key k start xs = []
  | _, [], _ => rfl
  | start, x :: xs, h => by
    rw [positions, if_neg (h x (by simp))]
    exact positions_eq_nil fun y hy => h y (List.mem_cons_of_mem _ hy)

theorem positions_congr (k : κ) : ∀ {start : Nat} {xs ys : List α}, xs.map key = ys.map key →
    positions key k start xs = positions key k start ys
  | _, [], [], _ => rfl
  | start, x :: xs, y :: ys, h => by
    rw [List.map_cons, List.map_cons, List.cons.injEq] at h
    rw [positions, positions, h.1, positions_congr k h.2]

theorem filterMap_positions (k : κ) : ∀ (front xs : List α),
    (positions key k front.length xs).filterMap (fun i => (front ++ xs)[i]?) = xs.filter fun x => key x = k
  | _, [] => rfl
  | front, x :: xs => by
    have ih := filterMap_positions k (front ++ [x]) xs
    rw [List.length_append, List.length_singleton, List.append_assoc, List.singleton_append] at ih
    rw [positions, List.filter_cons]
    by_cases hk : key x = k
    · rw [if_pos hk, if_pos (by simp [hk]), List.filterMap_cons_some (b := x) (by simp), ih]
    · rw [if_neg hk, if_neg (by simp [hk]), ih]

/-! ## Entering elements -/

theorem get_update (ix : Index κ) (k k' : κ) (l : List Nat) :
    Index.get (Function.update ix k (some l)) k' = if k' = k then l else ix.get k' := by
  unfold Index.get Function.update
  by_cases h : k' = k
  · simp [h]
  · simp [h]

theorem get_post (k : κ) : ∀ (ix : Index κ) (start : Nat) (xs : List α),
    (post key ix start xs).get k = ix.get k ++ positions key k start xs
  | ix, start, [] => by rw [post, positions, List.append_nil]
  | ix, start, x :: xs => by
    rw [post, get_post k, get_update, positions]
    by_cases h : key x = k
    · rw [if_pos h.symm, if_pos h, h, List.append_assoc, List.singleton_append]
    · rw [if_neg (Ne.symm h), if_neg h]

theorem proper_post : ∀ {ix : Index κ} (start : Nat) (xs : List α), ix.Proper → (post key ix start xs).Proper
  | _, _, [], h => h
  | ix, start, x :: xs, h => by
    refine proper_post (start + 1) xs fun k => ?_
    by_cases hk : k = key x
    · subst hk
      rw [Function.update_self]
      simp
    · rw [Function.update_of_ne hk]
      exact h k

omit [DecidableEq κ] in
theorem Index.proper_empty : (Index.empty : Index κ).Proper := fun _ h => nomatch h

@[simp] theorem get_build (k : κ) (xs : List α) : (build key xs).get k = positions key k 0 xs := by
  rw [build, get_post]
  rfl

theorem proper_build (xs : List α) : (build key xs).Proper := proper_post 0 xs Index.proper_empty

omit [DecidableEq κ] in
theorem Index.Proper.ext {ix iy : Index κ} (hx : ix.Proper) (hy : iy.Proper) (h : ∀ k, ix.get k = iy.get k) : ix = iy := by
  funext k
  have hk := h k
  have hxk := hx k
  have hyk := hy k
  unfold Index.get at hk
  cases h1 : ix k with
  | none =>
    cases h2 : iy k with
    | none => rfl
    | some l =>
      rw [h1, h2] at hk
      exact absurd h2 (by rw [← show [] = l from hk]; exact hyk)
  | some l =>
    cases h2 : iy k with
    | none =>
      rw [h1, h2] at hk
      exact absurd h1 (by rw [show l = [] from hk]; exact hxk)
    | some l' =>
      rw [h1, h2] at hk
      exact congrArg some hk

theorem eq_build {ix : Index κ} {xs : List α} (hx : ix.Proper) (h : ∀ k, ix.get k = positions key k 0 xs) : ix = build key xs :=
  hx.ext (proper_build xs) fun k => by rw [h k, get_build]

theorem build_congr {xs ys : List α} (h : xs.map key = ys.map key) : build key xs = build key ys :=
  (proper_build xs).ext (proper_build ys) fun k => by rw [get_build, get_build, positions_congr k h]

theorem filterMap_positions_zero (k : κ) (xs : List α) :
    (positions key k 0 xs).filterMap (fun i => xs[i]?) = xs.filter fun x => key x = k := filterMap_positions k [] xs

theorem filterMap_range' : ∀ (front xs : List α), (List.range' front.length xs.length).filterMap (fun i => (front ++ xs)[i]?) = xs
  | _, [] => rfl
  | front, x :: xs => by
    have ih := filterMap_range' (front ++ [x]) xs
    rw [List.length_append, List.length_singleton, List.append_assoc, List.singleton_append] at ih
    rw [List.length_cons, List.range'_succ, List.filterMap_cons_some (b := x) (by simp), ih]

end Postings
