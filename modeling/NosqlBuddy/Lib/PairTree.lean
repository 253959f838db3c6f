import Mathlib.Data.List.Nodup
import NosqlBuddy.Lib.Merkle

/-!
# Merkle trees that pair an odd last node with itself

The levels of a tree over a list of leaves, for an arbitrary two-to-one `hash`: the nodes of a level are
hashed in pairs, an odd last one with itself (`parents`), until one is left (`root`).

Lists of different lengths can give trees of the same shape, and the root of a short list may turn up
inside the tree of a longer one. `root_inj`: lists without repetitions that have the same root are equal,
when no two hashed pairs collide and no leaf is the hash of such a pair. `At n v` says that `v` stands `n`
levels above the leaves; under these assumptions `n` is determined by `v` (`At.level_eq`), so the roots
of trees of different heights differ.
-/

namespace PairTree
open Merkle (CollisionFree)

variable {α : Type*}

/-- The pairs that are hashed for the next level. -/
def pairs : List α → List (α × α)
  | [] => []
  | [x] => [(x, x)]
  | x :: y :: rest => (x, y) :: pairs rest

variable (hash : α → α → α)

def parents (level : List α) : List α := (pairs level).map fun p => hash p.1 p.2

variable {hash}

theorem length_pairs : ∀ level : List α, (pairs level).length = (level.length + 1) / 2
  | [] => by simp [pairs]
  | [_] => by simp [pairs]
  | _ :: _ :: rest => by
    simp only [pairs, List.length_cons, length_pairs rest]
    omega

theorem length_parents (level : List α) : (parents hash level).length = (level.length + 1) / 2 := by
  rw [parents, List.length_map, length_pairs]

theorem mem_of_mem_pairs : ∀ {level : List α} {p : α × α}, p ∈ pairs level → p.1 ∈ level ∧ p.2 ∈ level
  | [], _, h => by simp [pairs] at h
  | [x], p, h => by
    obtain rfl : p = (x, x) := by simpa [pairs] using h
    simp
  | x :: y :: rest, p, h => by
    rcases List.mem_cons.1 h with rfl | h
    · simp
    · obtain ⟨h1, h2⟩ := mem_of_mem_pairs h
      exact ⟨List.mem_cons_of_mem x (List.mem_cons_of_mem y h1), List.mem_cons_of_mem x (List.mem_cons_of_mem y h2)⟩

theorem nodup_pairs : ∀ {level : List α}, level.Nodup → (pairs level).Nodup
  | [], _ => List.nodup_nil
  | [_], _ => by simp [pairs]
  | x :: y :: rest, h => by
    obtain ⟨hx, hrest⟩ := List.nodup_cons.1 h
    refine List.nodup_cons.2 ⟨fun hmem => hx ?_, nodup_pairs (List.nodup_cons.1 hrest).2⟩
    exact List.mem_cons_of_mem y (mem_of_mem_pairs hmem).1

theorem pairs_inj : ∀ {xs ys : List α}, xs.Nodup → ys.Nodup → pairs xs = pairs ys → xs = ys
  | [], [], _, _, _ => rfl
  | [], [_], _, _, h => by simp [pairs] at h
  | [], _ :: _ :: _, _, _, h => by simp [pairs] at h
  | [_], [], _, _, h => by simp [pairs] at h
  | _ :: _ :: _, [], _, _, h => by simp [pairs] at h
  | [x], [y], _, _, h => by simpa [pairs] using h
  | [x], y :: y' :: ys, _, hy, h => by
    simp only [pairs, List.cons.injEq, Prod.mk.injEq] at h
    obtain ⟨⟨rfl, rfl⟩, _⟩ := h
    simp at hy
  | x :: x' :: xs, [y], hx, _, h => by
    simp only [pairs, List.cons.injEq, Prod.mk.injEq] at h
    obtain ⟨⟨rfl, rfl⟩, _⟩ := h
    simp at hx
  | x :: x' :: xs, y :: y' :: ys, hx, hy, h => by
    simp only [pairs, List.cons.injEq, Prod.mk.injEq] at h
    obtain ⟨⟨rfl, rfl⟩, hrest⟩ := h
    have htail : xs = ys := pairs_inj (List.nodup_cons.1 (List.nodup_cons.1 hx).2).2
      (List.nodup_cons.1 (List.nodup_cons.1 hy).2).2 hrest
    rw [htail]

/-! ## The root -/

section
variable (hash)

/-- The root of a tree with at least one leaf. -/
def root : List α → Option α
  | [] => none
  | [x] => some x
  | x :: y :: rest => root (parents hash (x :: y :: rest))
termination_by level => level.length
decreasing_by
  simp only [length_parents, List.length_cons]
  omega

/-- The pairs hashed on the way to the root. -/
def hashed : List α → List (α × α)
  | [] => []
  | [_] => []
  | x :: y :: rest => pairs (x :: y :: rest) ++ hashed (parents hash (x :: y :: rest))
termination_by level => level.length
decreasing_by
  simp only [length_parents, List.length_cons]
  omega

end

theorem root_level :
    root hash (x :: y :: rest) = root hash (parents hash (x :: y :: rest)) := by rw [root]

theorem hashed_level :
    hashed hash (x :: y :: rest) = pairs (x :: y :: rest) ++ hashed hash (parents hash (x :: y :: rest)) := by rw [hashed]

theorem root_ne_none {level : List α} (h : level ≠ []) : root hash level ≠ none := by
  induction level using root.induct hash with
  | case1 => exact absurd rfl h
  | case2 x => simp [root]
  | case3 x y rest ih =>
    rw [root_level]
    refine ih fun hnil => ?_
    have hlen := @length_parents α hash (x :: y :: rest)
    rw [hnil] at hlen
    simp only [List.length_nil, List.length_cons] at hlen
    omega

/-! ## Levels -/

/-- The value is reached from the leaves by hashing `n` times along pairs of `Q`. -/
inductive At (hash : α → α → α) (Q : List (α × α)) (leaf : α → Prop) : Nat → α → Prop where
  | leaf {v : α} : leaf v → At hash Q leaf 0 v
  | node {n : Nat} {a b : α} : (a, b) ∈ Q → At hash Q leaf n a → At hash Q leaf n b → At hash Q leaf (n + 1) (hash a b)

section
variable {Q : List (α × α)} {leaf : α → Prop}

theorem At.level_eq (hQ : CollisionFree (fun p : α × α => hash p.1 p.2) Q)
    (hleaf : ∀ v, leaf v → ∀ p ∈ Q, v ≠ hash p.1 p.2) : ∀ {m n : Nat} {v : α}, At hash Q leaf m v → At hash Q leaf n v → m = n := by
  intro m n v hm
  induction hm generalizing n with
  | leaf hv =>
    intro hn
    cases hn with
    | leaf _ => rfl
    | node hab _ _ => exact absurd rfl (hleaf _ hv _ hab)
  | @node m a b hab ha _ ih _ =>
    intro hn
    generalize hv : hash a b = v at hn
    cases hn with
    | leaf h => exact absurd hv.symm (hleaf _ h _ hab)
    | @node n c d hcd hc _ =>
      have heq : (a, b) = (c, d) := hQ _ hab _ hcd hv
      obtain ⟨rfl, rfl⟩ := Prod.mk.inj heq
      rw [ih hc]

theorem At.parents (h : ∀ v ∈ level, At hash Q leaf n v) (hQ : ∀ p ∈ pairs level, p ∈ Q) :
    ∀ v ∈ parents hash level, At hash Q leaf (n + 1) v := by
  intro v hv
  obtain ⟨p, hp, rfl⟩ := List.mem_map.1 hv
  obtain ⟨h1, h2⟩ := mem_of_mem_pairs hp
  exact .node (hQ p hp) (h _ h1) (h _ h2)

theorem At.root_above : ∀ (k : Nat) {n : Nat} {level : List α} {r : α}, level.length ≤ k → 1 < level.length →
    (∀ v ∈ level, At hash Q leaf n v) → (∀ p ∈ hashed hash level, p ∈ Q) → root hash level = some r →
    ∃ m, n < m ∧ At hash Q leaf m r
  | 0, _, _, _, hk, h1, _, _, _ => by omega
  | _ + 1, _, [], _, _, h1, _, _, _ => by simp at h1
  | _ + 1, _, [_], _, _, h1, _, _, _ => by simp at h1
  | k + 1, n, x :: y :: rest, r, hk, _, hat, hQ, hr => by
    rw [hashed_level] at hQ
    rw [root_level] at hr
    have hat' := At.parents hat fun p hp => hQ p (List.mem_append_left _ hp)
    have hlen := @length_parents α hash (x :: y :: rest)
    simp only [List.length_cons] at hk hlen
    by_cases hone : 1 < (PairTree.parents hash (x :: y :: rest)).length
    · obtain ⟨m, hm, hatm⟩ := At.root_above k (by omega) hone hat' (fun p hp => hQ p (List.mem_append_right _ hp)) hr
      exact ⟨m, by omega, hatm⟩
    · obtain ⟨v, hv⟩ := List.length_eq_one_iff.1 (show (PairTree.parents hash (x :: y :: rest)).length = 1 by omega)
      rw [hv] at hr hat'
      obtain rfl : v = r := by simpa [root] using hr
      exact ⟨n + 1, Nat.lt_succ_self n, hat' v (by simp)⟩

theorem nodup_parents (hQ : CollisionFree (fun p : α × α => hash p.1 p.2) Q) (h : level.Nodup)
    (hsub : ∀ p ∈ pairs level, p ∈ Q) : (parents hash level).Nodup :=
  List.Nodup.map_on (fun p hp q hq => hQ p (hsub p hp) q (hsub q hq)) (nodup_pairs h)

theorem parents_inj (hQ : CollisionFree (fun p : α × α => hash p.1 p.2) Q) (hx : xs.Nodup) (hy : ys.Nodup)
    (hxs : ∀ p ∈ pairs xs, p ∈ Q) (hys : ∀ p ∈ pairs ys, p ∈ Q) (h : parents hash xs = parents hash ys) : xs = ys := by
  exact pairs_inj hx hy (hQ.map_inj hxs hys h)

theorem root_ne_single (hQ : CollisionFree (fun p : α × α => hash p.1 p.2) Q)
    (hleaf : ∀ v, leaf v → ∀ p ∈ Q, v ≠ hash p.1 p.2) (hlen : 1 < level.length)
    (hx : At hash Q leaf n x) (hat : ∀ v ∈ level, At hash Q leaf n v) (hsub : ∀ p ∈ hashed hash level, p ∈ Q) :
    root hash level ≠ some x := by
  intro h
  obtain ⟨m, hm, hatm⟩ := At.root_above _ (Nat.le_refl _) hlen hat hsub h
  have hmn := At.level_eq hQ hleaf hx hatm
  omega

theorem root_inj_at (hQ : CollisionFree (fun p : α × α => hash p.1 p.2) Q)
    (hleaf : ∀ v, leaf v → ∀ p ∈ Q, v ≠ hash p.1 p.2) : ∀ (k : Nat) {n : Nat} {xs ys : List α}, xs.length ≤ k →
    xs.Nodup → ys.Nodup → (∀ v ∈ xs, At hash Q leaf n v) → (∀ v ∈ ys, At hash Q leaf n v) →
    (∀ p ∈ hashed hash xs, p ∈ Q) → (∀ p ∈ hashed hash ys, p ∈ Q) → root hash xs = root hash ys → xs = ys
  | _, _, [], ys, _, _, _, _, _, _, _, h => by
    by_contra hne
    exact root_ne_none (fun hys => hne hys.symm) (h.symm.trans (by simp [root]))
  | _, _, x :: xs, [], _, _, _, _, _, _, _, h => by
    exact absurd (h.trans (by simp [root])) (root_ne_none (List.cons_ne_nil x xs))
  | _, _, [x], [y], _, _, _, _, _, _, _, h => by simpa [root] using h
  | _, _, [x], y :: y' :: ys, _, _, _, hx, hy, _, hQy, h => by
    have hne := root_ne_single hQ hleaf (by simp) (hx x (by simp)) hy hQy
    exact absurd (h.symm.trans (by simp [root])) hne
  | _, _, x :: x' :: xs, [y], _, _, _, hx, hy, hQx, _, h => by
    have hne := root_ne_single hQ hleaf (by simp) (hy y (by simp)) hx hQx
    exact absurd (h.trans (by simp [root])) hne
  | 0, _, _ :: _ :: _, _ :: _ :: _, hk, _, _, _, _, _, _, _ => by simp at hk
  | k + 1, n, x :: x' :: xs, y :: y' :: ys, hk, hx, hy, hatx, haty, hQx, hQy, h => by
    rw [hashed_level] at hQx hQy
    rw [root_level, root_level] at h
    have hpx : ∀ p ∈ pairs (x :: x' :: xs), p ∈ Q := fun p hp => hQx p (List.mem_append_left _ hp)
    have hpy : ∀ p ∈ pairs (y :: y' :: ys), p ∈ Q := fun p hp => hQy p (List.mem_append_left _ hp)
    have hlen := @length_parents α hash (x :: x' :: xs)
    simp only [List.length_cons] at hk hlen
    refine parents_inj hQ hx hy hpx hpy ?_
    exact root_inj_at hQ hleaf k (by omega) (nodup_parents hQ hx hpx) (nodup_parents hQ hy hpy) (At.parents hatx hpx)
      (At.parents haty hpy) (fun p hp => hQx p (List.mem_append_right _ hp))
      (fun p hp => hQy p (List.mem_append_right _ hp)) h

/-- **Injectivity.** Lists without repetitions with the same root are equal. -/
theorem root_inj (hx : xs.Nodup) (hy : ys.Nodup)
    (hQ : CollisionFree (fun p : α × α => hash p.1 p.2) (hashed hash xs ++ hashed hash ys))
    (hleaf : ∀ v ∈ xs ++ ys, ∀ p ∈ hashed hash xs ++ hashed hash ys, v ≠ hash p.1 p.2)
    (h : root hash xs = root hash ys) : xs = ys :=
  root_inj_at hQ hleaf _ (Nat.le_refl _) hx hy (fun _ hv => .leaf (List.mem_append_left _ hv))
    (fun _ hv => .leaf (List.mem_append_right _ hv)) (fun _ hp => List.mem_append_left _ hp)
    (fun _ hp => List.mem_append_right _ hp) h

end

end PairTree
