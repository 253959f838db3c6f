import Mathlib.Algebra.Group.Nat.Defs
import Mathlib.Data.List.Basic

/-!
# Zero-padded Merkle trees

A complete binary tree of a fixed height over the leaves `f 0, f 1, …` (`node`), for an arbitrary
two-to-one `hash`. A list of leaves is the function that is `zero` past its end. Three results:

* `node_zeros` — a subtree without leaves has the precomputed hash of its level, so an
  implementation may skip it;
* `node_congr` — leaves outside of a subtree do not matter to its hash;
* `node_inj` — when `hash` has no collision among the pairs that were hashed, equal roots mean equal
  leaves, and for lists without a `zero` leaf the same list (`eq_of_padded`), whatever their lengths.

Injectivity of a compressing hash on all pairs is false, so the pairs are explicit: `Covered Q` says
that everything hashed below a node is in the list `Q`.
-/

namespace Merkle

variable {α : Type*} (hash : α → α → α) (zero : α)

/-- The hash of a subtree whose leaves are all `zero`. -/
def zeros : Nat → α
  | 0 => zero
  | n + 1 => hash (zeros n) (zeros n)

/-- The hash of the subtree of level `n` whose first leaf has index `i`. -/
def node (f : Nat → α) : Nat → Nat → α
  | 0, i => f i
  | n + 1, i => hash (node f n i) (node f n (i + 2 ^ n))

/-- No two different elements of `Q` have the same image. -/
def CollisionFree {α β : Type*} (f : α → β) (Q : List α) : Prop := ∀ a ∈ Q, ∀ b ∈ Q, f a = f b → a = b

instance {α β : Type*} [DecidableEq α] [DecidableEq β] (f : α → β) (Q : List α) :
    Decidable (CollisionFree f Q) :=
  inferInstanceAs (Decidable (∀ a ∈ Q, ∀ b ∈ Q, f a = f b → a = b))

theorem CollisionFree.map_inj {α β : Type*} {f : α → β} {Q : List α} (hQ : CollisionFree f Q) :
    ∀ {xs ys : List α}, (∀ x ∈ xs, x ∈ Q) → (∀ y ∈ ys, y ∈ Q) → xs.map f = ys.map f → xs = ys
  | [], [], _, _, _ => rfl
  | [], _ :: _, _, _, h => by simp at h
  | _ :: _, [], _, _, h => by simp at h
  | x :: xs, y :: ys, hx, hy, h => by
    simp only [List.map_cons, List.cons.injEq] at h
    rw [hQ x (hx x (by simp)) y (hy y (by simp)) h.1,
      hQ.map_inj (fun a ha => hx a (by simp [ha])) (fun a ha => hy a (by simp [ha])) h.2]

/-- Every pair hashed below the node is in `Q`. -/
def Covered (Q : List (α × α)) (f : Nat → α) : Nat → Nat → Prop
  | 0, _ => True
  | n + 1, i => (node hash f n i, node hash f n (i + 2 ^ n)) ∈ Q ∧
      Covered Q f n i ∧ Covered Q f n (i + 2 ^ n)

variable {hash zero}

theorem node_zeros : ∀ (n i : Nat), (∀ j, i ≤ j → j < i + 2 ^ n → f j = zero) →
    node hash f n i = zeros hash zero n
  | 0, i, h => h i (Nat.le_refl i) (by simp)
  | n + 1, i, h => by
    have hpow : 2 ^ (n + 1) = 2 ^ n + 2 ^ n := by rw [Nat.pow_succ]; omega
    simp only [node, zeros]
    rw [node_zeros n i fun j h1 h2 => h j h1 (by omega),
      node_zeros n (i + 2 ^ n) fun j h1 h2 => h j (by omega) (by omega)]

theorem node_congr : ∀ (n i : Nat), (∀ j, i ≤ j → j < i + 2 ^ n → f j = g j) →
    node hash f n i = node hash g n i
  | 0, i, h => h i (Nat.le_refl i) (by simp)
  | n + 1, i, h => by
    have hpow : 2 ^ (n + 1) = 2 ^ n + 2 ^ n := by rw [Nat.pow_succ]; omega
    simp only [node]
    rw [node_congr n i fun j h1 h2 => h j h1 (by omega),
      node_congr n (i + 2 ^ n) fun j h1 h2 => h j (by omega) (by omega)]

theorem covered_zeros : ∀ (n i : Nat),
    (∀ m < n, (zeros hash zero m, zeros hash zero m) ∈ Q) →
    (∀ j, i ≤ j → j < i + 2 ^ n → f j = zero) → Covered hash Q f n i
  | 0, _, _, _ => trivial
  | n + 1, i, hQ, h => by
    have hpow : 2 ^ (n + 1) = 2 ^ n + 2 ^ n := by rw [Nat.pow_succ]; omega
    have hl : ∀ j, i ≤ j → j < i + 2 ^ n → f j = zero := fun j h1 h2 => h j h1 (by omega)
    have hr : ∀ j, i + 2 ^ n ≤ j → j < i + 2 ^ n + 2 ^ n → f j = zero :=
      fun j h1 h2 => h j (by omega) (by omega)
    refine ⟨?_, covered_zeros n i (fun m hm => hQ m (by omega)) hl,
      covered_zeros n _ (fun m hm => hQ m (by omega)) hr⟩
    rw [node_zeros n i hl, node_zeros n _ hr]
    exact hQ n (by omega)

/-- **Injectivity.** Equal nodes have equal leaves, when no two hashed pairs collide. -/
theorem node_inj (hQ : CollisionFree (fun p : α × α => hash p.1 p.2) Q) : ∀ (n i : Nat),
    Covered hash Q f n i → Covered hash Q g n i → node hash f n i = node hash g n i →
    ∀ j, i ≤ j → j < i + 2 ^ n → f j = g j
  | 0, i, _, _, he, j, h1, h2 => by
    obtain rfl : j = i := by simp at h2; omega
    exact he
  | n + 1, i, hf, hg, he, j, h1, h2 => by
    have hpow : 2 ^ (n + 1) = 2 ^ n + 2 ^ n := by rw [Nat.pow_succ]; omega
    have hpair := hQ _ hf.1 _ hg.1 he
    simp only [Prod.mk.injEq] at hpair
    rcases Nat.lt_or_ge j (i + 2 ^ n) with hj | hj
    · exact node_inj hQ n i hf.2.1 hg.2.1 hpair.1 j h1 hj
    · exact node_inj hQ n _ hf.2.2 hg.2.2 hpair.2 j hj (by omega)

theorem eq_of_padded {xs ys : List α} {n : Nat} (hx : zero ∉ xs) (hy : zero ∉ ys) (hxn : xs.length ≤ n)
    (hyn : ys.length ≤ n) (h : ∀ j < n, xs.getD j zero = ys.getD j zero) : xs = ys := by
  have hget : ∀ (zs : List α) (j : Nat), zero ∉ zs → (zs.getD j zero ≠ zero ↔ j < zs.length) := by
    intro zs j hz
    constructor
    · intro hne
      by_contra hge
      exact hne (by simp [List.getD, List.getElem?_eq_none (by omega : zs.length ≤ j)])
    · intro hlt he
      rw [List.getD, List.getElem?_eq_getElem hlt, Option.getD_some] at he
      exact hz (he ▸ List.getElem_mem hlt)
  have hlen : xs.length = ys.length := by
    rcases Nat.lt_trichotomy xs.length ys.length with hlt | heq | hlt
    · have h1 := (hget ys xs.length hy).2 hlt
      rw [← h xs.length (by omega)] at h1
      exact absurd ((hget xs xs.length hx).1 h1) (by omega)
    · exact heq
    · have h1 := (hget xs ys.length hx).2 hlt
      rw [h ys.length (by omega)] at h1
      exact absurd ((hget ys ys.length hy).1 h1) (by omega)
  refine List.ext_getElem hlen fun j h1 h2 => ?_
  have := h j (by omega)
  rwa [List.getD, List.getD, List.getElem?_eq_getElem h1, List.getElem?_eq_getElem h2] at this

end Merkle

/-!
## Paths in a Merkle tree

A path is a list of siblings, from the leaf up, each with the side of the node: `climb` hashes a leaf up along it.

* `up_node` — beside the sibling that the tree itself has, a node climbs to the node above it;
* `leaf_of_climb` — when no two hashed pairs collide, whatever climbs to the root of a tree is one of its leaves;
* `leaf_at_of_climb` — the sides of the path are the bits of the leaf's index.
-/

namespace Merkle

variable {α : Type*} (hash : α → α → α)

/-- The pair that is hashed in one step; the sibling is left of a right child. -/
def upPair (current : α) (s : α × Bool) : α × α := if s.2 then (s.1, current) else (current, s.1)

def up (current : α) (s : α × Bool) : α := hash (upPair current s).1 (upPair current s).2

def climb (leaf : α) (path : List (α × Bool)) : α := path.foldl (up hash) leaf

/-- The pairs that are hashed on the way. -/
def climbPairs : α → List (α × Bool) → List (α × α)
  | _, [] => []
  | current, s :: path => upPair current s :: climbPairs (up hash current s) path

/-- The node beside the `i`-th one of a level. -/
def beside (i : Nat) : Nat := if i % 2 = 0 then i + 1 else i - 1

variable {hash}

theorem climb_concat (leaf : α) (path : List (α × Bool)) (s : α × Bool) :
    climb hash leaf (path ++ [s]) = up hash (climb hash leaf path) s := by
  rw [climb, List.foldl_append]
  rfl

theorem climbPairs_concat (s : α × Bool) : ∀ (leaf : α) (path : List (α × Bool)),
    climbPairs hash leaf (path ++ [s]) = climbPairs hash leaf path ++ [upPair (climb hash leaf path) s]
  | _, [] => rfl
  | leaf, t :: path => by
    rw [List.cons_append, climbPairs, climbPairs_concat s (up hash leaf t) path]
    rfl

/-- **Completeness**: a node and the one beside it hash to the node above. -/
theorem up_node (f : Nat → α) (n i : Nat) :
    up hash (node hash f n (i * 2 ^ n)) (node hash f n (beside i * 2 ^ n), decide (i % 2 = 1)) =
      node hash f (n + 1) (i / 2 * 2 ^ (n + 1)) := by
  have hpow : 2 ^ (n + 1) = 2 * 2 ^ n := by rw [Nat.pow_succ, Nat.mul_comm]
  rw [up, upPair, node, hpow, ← Nat.mul_assoc]
  rcases Nat.mod_two_eq_zero_or_one i with heven | hodd
  · have hbeside : beside i * 2 ^ n = i * 2 ^ n + 2 ^ n := by rw [beside, if_pos heven, Nat.succ_mul]
    rw [Nat.div_mul_cancel (Nat.dvd_of_mod_eq_zero heven)]
    simp [heven, hbeside]
  · obtain ⟨k, rfl⟩ : ∃ k, i = k + 1 := ⟨i - 1, by omega⟩
    have hhalf : (k + 1) / 2 * 2 = k := by omega
    have hbeside : beside (k + 1) = k := by rw [beside, if_neg (by omega), Nat.add_sub_cancel]
    rw [hhalf]
    simp [hodd, hbeside, Nat.succ_mul]

/-- **Soundness**: what climbs to the node of a tree is one of the leaves below it. -/
theorem leaf_of_climb (hQ : CollisionFree (fun p : α × α => hash p.1 p.2) Q) :
    ∀ {n i : Nat} {path : List (α × Bool)}, path.length = n → Covered hash Q f n i → (∀ p ∈ climbPairs hash leaf path, p ∈ Q) →
      climb hash leaf path = node hash f n i → ∃ j, i ≤ j ∧ j < i + 2 ^ n ∧ leaf = f j
  | 0, i, path, hlen, _, _, hroot => by
    obtain rfl := List.length_eq_zero_iff.1 hlen
    exact ⟨i, Nat.le_refl i, by simp, hroot⟩
  | n + 1, i, path, hlen, hcov, hpairs, hroot => by
    have hpow : 2 ^ (n + 1) = 2 ^ n + 2 ^ n := by rw [Nat.pow_succ]; omega
    have hne : path ≠ [] := fun hnil => by simp [hnil] at hlen
    obtain ⟨lower, s, rfl⟩ := List.eq_nil_or_concat' path |>.resolve_left hne
    rw [climbPairs_concat] at hpairs
    rw [climb_concat] at hroot
    have hlower : lower.length = n := by simpa using hlen
    have hrest : ∀ p ∈ climbPairs hash leaf lower, p ∈ Q := fun p hp => hpairs p (List.mem_append_left _ hp)
    have hpair := hQ _ (hpairs _ (List.mem_append_right _ (List.mem_singleton.2 rfl))) _ hcov.1 hroot
    by_cases hside : s.2 = true
    · simp only [upPair, hside, if_true, Prod.mk.injEq] at hpair
      obtain ⟨j, h1, h2, hj⟩ := leaf_of_climb hQ hlower hcov.2.2 hrest hpair.2
      exact ⟨j, by omega, by omega, hj⟩
    · simp only [upPair, hside, if_false, Prod.mk.injEq, Bool.false_eq_true] at hpair
      obtain ⟨j, h1, h2, hj⟩ := leaf_of_climb hQ hlower hcov.2.1 hrest hpair.1
      exact ⟨j, h1, by omega, hj⟩

theorem testBit_top (hi : i < 2 ^ (n + 1)) : i.testBit n = decide (2 ^ n ≤ i) := by
  rw [Nat.pow_succ] at hi
  by_cases hhigh : 2 ^ n ≤ i
  · have hone : i / 2 ^ n = 1 := by
      apply Nat.div_eq_of_lt_le <;> omega
    rw [Nat.testBit_eq_decide_div_mod_eq, hone]
    simp [hhigh]
  · have hzero : i / 2 ^ n = 0 := Nat.div_eq_of_lt (by omega)
    rw [Nat.testBit_eq_decide_div_mod_eq, hzero]
    simp [hhigh]

/-- **Soundness at an index**: along a path whose sides are the bits of `i`, only the leaf `i` climbs to the root. -/
theorem leaf_at_of_climb (hQ : CollisionFree (fun p : α × α => hash p.1 p.2) Q) :
    ∀ {n first i : Nat} {path : List (α × Bool)}, path.map Prod.snd = (List.range n).map i.testBit → i < 2 ^ n →
      Covered hash Q f n first → (∀ p ∈ climbPairs hash leaf path, p ∈ Q) → climb hash leaf path = node hash f n first →
      leaf = f (first + i)
  | 0, first, i, path, hsides, hi, _, _, hroot => by
    obtain rfl : path = [] := by simpa using hsides
    obtain rfl : i = 0 := by simpa using hi
    exact hroot
  | n + 1, first, i, path, hsides, hi, hcov, hpairs, hroot => by
    have hne : path ≠ [] := by
      rintro rfl
      simp [List.range_succ] at hsides
    obtain ⟨lower, s, rfl⟩ := List.eq_nil_or_concat' path |>.resolve_left hne
    rw [climbPairs_concat] at hpairs
    rw [climb_concat] at hroot
    rw [List.range_succ, List.map_append, List.map_append] at hsides
    obtain ⟨hlower, hside⟩ := List.append_inj' hsides rfl
    have hs : s.2 = decide (2 ^ n ≤ i) := by
      rw [← testBit_top hi]
      simpa using hside
    have hmod : ∀ {k : Nat}, k < n → (i % 2 ^ n).testBit k = i.testBit k := by
      intro k hk
      simp [Nat.testBit_mod_two_pow, hk]
    have hlower' : lower.map Prod.snd = (List.range n).map (i % 2 ^ n).testBit := by
      rw [hlower]
      exact List.map_congr_left fun k hk => (hmod (List.mem_range.1 hk)).symm
    have hrest : ∀ p ∈ climbPairs hash leaf lower, p ∈ Q := fun p hp => hpairs p (List.mem_append_left _ hp)
    have hpair := hQ _ (hpairs _ (List.mem_append_right _ (List.mem_singleton.2 rfl))) _ hcov.1 hroot
    have hpow : 2 ^ (n + 1) = 2 ^ n + 2 ^ n := by rw [Nat.pow_succ]; omega
    by_cases hhigh : 2 ^ n ≤ i
    · have hrem : i % 2 ^ n = i - 2 ^ n := by
        rw [Nat.mod_eq_sub_mod hhigh, Nat.mod_eq_of_lt (by omega)]
      simp only [upPair, hs, hhigh, decide_true, if_true, Prod.mk.injEq] at hpair
      have hleaf := leaf_at_of_climb hQ hlower' (Nat.mod_lt _ (Nat.two_pow_pos n)) hcov.2.2 hrest hpair.2
      rw [hleaf, hrem]
      congr 1
      omega
    · simp only [upPair, hs, hhigh, decide_false, if_false, Prod.mk.injEq, Bool.false_eq_true] at hpair
      have hleaf := leaf_at_of_climb hQ hlower' (Nat.mod_lt _ (Nat.two_pow_pos n)) hcov.2.1 hrest hpair.1
      rw [hleaf, Nat.mod_eq_of_lt (by omega)]

end Merkle
