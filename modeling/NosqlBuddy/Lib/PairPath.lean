import NosqlBuddy.Lib.PairTree

/-!
# Paths in trees that pair an odd last node with itself

A path is the list of siblings from a leaf up; the bits of an index say on which side of the sibling each
node stands (`walk`). The index need not be below the number of leaves: `slot n i` is the leaf that the low
bits of `i` lead to from the root of a tree over `n` leaves, where the copy of an odd last node is that
node again.

* `root_walk_siblings` — every index has a path: the leaf of its slot walks along `siblings` to the root;
* `slot_of_walk` — when no two hashed pairs collide, whatever walks to the root along a path as long as
  the tree is high is the leaf of its slot;
* `root_ascend` — the levels above the leaves have the same root, so shorter paths are those of their nodes.
-/

namespace PairTree
open Merkle (CollisionFree)

variable {α : Type*}

/-! ## Sizes -/

/-- The number of levels above `n` leaves. -/
def height : Nat → Nat
  | 0 => 0
  | 1 => 0
  | n + 2 => height ((n + 3) / 2) + 1
termination_by n => n
decreasing_by omega

def slot : Nat → Nat → Nat
  | 0, _ => 0
  | 1, _ => 0
  | n + 2, i =>
    let j := slot ((n + 3) / 2) (i / 2)
    if i % 2 = 0 then 2 * j else min (2 * j + 1) (n + 1)
termination_by n => n
decreasing_by omega

@[simp] theorem height_zero : height 0 = 0 := by rw [height]
@[simp] theorem height_one : height 1 = 0 := by rw [height]
theorem height_level (n : Nat) : height (n + 2) = height ((n + 3) / 2) + 1 := by rw [height]

@[simp] theorem slot_one (i : Nat) : slot 1 i = 0 := by rw [slot]

theorem slot_level (n i : Nat) : slot (n + 2) i =
    if i % 2 = 0 then 2 * slot ((n + 3) / 2) (i / 2) else min (2 * slot ((n + 3) / 2) (i / 2) + 1) (n + 1) := by rw [slot]

theorem slot_lt : ∀ {n : Nat} (i : Nat), 0 < n → slot n i < n
  | 0, _, hn => by omega
  | 1, _, _ => by simp
  | n + 2, i, _ => by
    have hj : slot ((n + 3) / 2) (i / 2) < (n + 3) / 2 := slot_lt (i / 2) (by omega)
    rw [slot_level]
    split <;> omega

theorem slot_of_lt : ∀ {n i : Nat}, i < n → slot n i = i
  | 0, _, hi => by omega
  | 1, _, hi => by
    rw [slot_one]
    omega
  | n + 2, i, hi => by
    have hj : slot ((n + 3) / 2) (i / 2) = i / 2 := slot_of_lt (by omega)
    rw [slot_level, hj]
    split <;> omega

/-! ## Walks -/

/-- The pair that is hashed: the bit of the index is the side. -/
def sides (i : Nat) (x s : α) : α × α := if i % 2 = 0 then (x, s) else (s, x)

section
variable (hash : α → α → α)

def walk (x : α) : Nat → List α → α
  | _, [] => x
  | i, s :: path => walk (hash (sides i x s).1 (sides i x s).2) (i / 2) path

def walkPairs (x : α) : Nat → List α → List (α × α)
  | _, [] => []
  | i, s :: path => sides i x s :: walkPairs (hash (sides i x s).1 (sides i x s).2) (i / 2) path

/-- The path of the leaf in the slot of `i`. -/
def siblings : List α → Nat → List α
  | [], _ => []
  | [_], _ => []
  | x :: y :: rest, i =>
    let p := (pairs (x :: y :: rest)).getD (slot ((rest.length + 3) / 2) (i / 2)) (x, x)
    (if i % 2 = 0 then p.2 else p.1) :: siblings (parents hash (x :: y :: rest)) (i / 2)
termination_by level => level.length
decreasing_by
  simp only [length_parents, List.length_cons]
  omega

/-- The level `k` steps up. -/
def ascend : Nat → List α → List α
  | 0, level => level
  | k + 1, level => ascend k (parents hash level)

end

variable {hash : α → α → α}

theorem siblings_level (x y : α) (rest : List α) (i : Nat) : siblings hash (x :: y :: rest) i =
    (if i % 2 = 0 then ((pairs (x :: y :: rest)).getD (slot ((rest.length + 3) / 2) (i / 2)) (x, x)).2
      else ((pairs (x :: y :: rest)).getD (slot ((rest.length + 3) / 2) (i / 2)) (x, x)).1) ::
      siblings hash (parents hash (x :: y :: rest)) (i / 2) := by rw [siblings]

theorem walk_append : ∀ (pre : List α) (x : α) (i : Nat) (post : List α),
    walk hash x i (pre ++ post) = walk hash (walk hash x i pre) (i / 2 ^ pre.length) post
  | [], x, i, post => by simp [walk]
  | s :: pre, x, i, post => by
    have hdiv : i / 2 / 2 ^ pre.length = i / 2 ^ (pre.length + 1) := by
      rw [Nat.div_div_eq_div_mul, Nat.pow_succ, Nat.mul_comm 2]
    rw [List.cons_append, walk, walk, walk_append pre, hdiv, List.length_cons]

theorem walkPairs_append : ∀ (pre : List α) (x : α) (i : Nat) (post : List α),
    walkPairs hash x i (pre ++ post) =
      walkPairs hash x i pre ++ walkPairs hash (walk hash x i pre) (i / 2 ^ pre.length) post
  | [], x, i, post => by simp [walkPairs, walk]
  | s :: pre, x, i, post => by
    have hdiv : i / 2 / 2 ^ pre.length = i / 2 ^ (pre.length + 1) := by
      rw [Nat.div_div_eq_div_mul, Nat.pow_succ, Nat.mul_comm 2]
    rw [List.cons_append, walkPairs, walkPairs, walk, walkPairs_append pre, hdiv, List.length_cons, List.cons_append]

theorem getElem?_pairs : ∀ (level : List α) (j : Nat),
    (pairs level)[j]? = (level[2 * j]?).map fun x => (x, (level[2 * j + 1]?).getD x)
  | [], _ => by simp [pairs]
  | [_], 0 => rfl
  | [_], j + 1 => by simp [pairs, Nat.mul_succ]
  | _ :: _ :: _, 0 => rfl
  | x :: y :: rest, j + 1 => by
    have ih := getElem?_pairs rest j
    have h0 : 2 * (j + 1) = 2 * j + 1 + 1 := by omega
    simp only [pairs, List.getElem?_cons_succ, h0, ih]

theorem slot_of_pair (hp : (pairs (x :: y :: rest))[slot ((rest.length + 3) / 2) (i / 2)]? = some p) :
    (x :: y :: rest)[slot (rest.length + 2) i]? = some (if i % 2 = 0 then p.1 else p.2) := by
  generalize hj : slot ((rest.length + 3) / 2) (i / 2) = j at hp
  generalize hlevel : x :: y :: rest = level at hp ⊢
  have hlen : level.length = rest.length + 2 := by rw [← hlevel]; rfl
  rw [getElem?_pairs] at hp
  obtain ⟨a, ha, rfl⟩ := Option.map_eq_some_iff.1 hp
  have hbound := (List.getElem?_eq_some_iff.1 ha).1
  rw [slot_level, hj]
  by_cases heven : i % 2 = 0
  · simp only [heven, if_true]
    exact ha
  · simp only [heven, if_false]
    cases hb : level[2 * j + 1]? with
    | none =>
      have hend : min (2 * j + 1) (rest.length + 1) = 2 * j := by
        have hout := List.getElem?_eq_none_iff.1 hb
        omega
      rw [hend, Option.getD_none]
      exact ha
    | some b =>
      have hin := (List.getElem?_eq_some_iff.1 hb).1
      have hend : min (2 * j + 1) (rest.length + 1) = 2 * j + 1 := by omega
      rw [hend, Option.getD_some]
      exact hb

theorem pair_of_slot (x y : α) (rest : List α) (i : Nat) :
    ∃ p, (pairs (x :: y :: rest))[slot ((rest.length + 3) / 2) (i / 2)]? = some p := by
  have hlt : slot ((rest.length + 3) / 2) (i / 2) < (pairs (x :: y :: rest)).length := by
    rw [length_pairs]
    exact slot_lt _ (by omega)
  exact ⟨_, List.getElem?_eq_getElem hlt⟩

theorem length_siblings (level : List α) (i : Nat) : (siblings hash level i).length = height level.length := by
  induction level, i using siblings.induct hash with
  | case1 => simp [siblings]
  | case2 => simp [siblings]
  | case3 x y rest i ih =>
    rw [siblings_level, List.length_cons, ih, length_parents]
    exact (height_level rest.length).symm

/-- **Completeness**: the leaf in the slot of an index walks along its siblings to the root. -/
theorem root_walk_siblings {level : List α} {i : Nat} {x : α} (hx : level[slot level.length i]? = some x) :
    root hash level = some (walk hash x i (siblings hash level i)) ∧
      ∀ p ∈ walkPairs hash x i (siblings hash level i), p ∈ hashed hash level := by
  induction level, i using siblings.induct hash generalizing x with
  | case1 => simp at hx
  | case2 y i =>
    obtain rfl : y = x := by simpa using hx
    simp [siblings, walk, walkPairs, root]
  | case3 a b rest i ih =>
    obtain ⟨p, hp⟩ := pair_of_slot a b rest i
    have hnode := slot_of_pair hp
    rw [List.length_cons, List.length_cons] at hx
    rw [hnode, Option.some.injEq] at hx
    have hsides : sides i x (if i % 2 = 0 then p.2 else p.1) = p := by
      subst hx
      unfold sides
      split <;> simp_all
    have hparent : (parents hash (a :: b :: rest))[slot (parents hash (a :: b :: rest)).length (i / 2)]? = some (hash p.1 p.2) := by
      rw [length_parents, parents, List.getElem?_map]
      exact congrArg (Option.map _) hp
    obtain ⟨hroot, hpairs⟩ := ih hparent
    have hget : (pairs (a :: b :: rest)).getD (slot ((rest.length + 3) / 2) (i / 2)) (a, a) = p := by
      rw [List.getD, hp, Option.getD_some]
    rw [siblings_level, hget, walk, walkPairs, hsides, root_level, hashed_level]
    refine ⟨hroot, fun q hq => ?_⟩
    rcases List.mem_cons.1 hq with rfl | hq
    · exact List.mem_append_left _ (List.mem_of_getElem? hp)
    · exact List.mem_append_right _ (hpairs q hq)

/-- **Soundness**: what walks to the root along a path of the tree's height is the leaf in the slot of the index. -/
theorem slot_of_walk (hQ : CollisionFree (fun p : α × α => hash p.1 p.2) Q) (hne : level ≠ []) (hlevel : ∀ p ∈ hashed hash level, p ∈ Q)
    (hwalk : ∀ p ∈ walkPairs hash x i path, p ∈ Q) (hlen : path.length = height level.length)
    (hroot : root hash level = some (walk hash x i path)) : level[slot level.length i]? = some x := by
  induction level, i using siblings.induct hash generalizing x path with
  | case1 => exact absurd rfl hne
  | case2 y i =>
    obtain rfl : path = [] := by simpa using hlen
    have hyx : y = x := by simpa [root, walk] using hroot
    simp [hyx]
  | case3 a b rest i ih =>
    rw [List.length_cons, List.length_cons, height_level] at hlen
    obtain ⟨s, path, rfl⟩ := List.exists_cons_of_length_eq_add_one hlen
    rw [hashed_level] at hlevel
    rw [root_level, walk] at hroot
    rw [walkPairs] at hwalk
    have hparents : parents hash (a :: b :: rest) ≠ [] := by simp [parents, pairs]
    have hnode := ih hparents (fun p hp => hlevel p (List.mem_append_right _ hp))
      (fun p hp => hwalk p (List.mem_cons_of_mem _ hp)) (by rw [length_parents]; simpa using hlen) hroot
    rw [length_parents, parents, List.getElem?_map] at hnode
    obtain ⟨p, hp, hhash⟩ := Option.map_eq_some_iff.1 hnode
    have hpair : p = sides i x s := hQ p (hlevel p (List.mem_append_left _ (List.mem_of_getElem? hp))) _
      (hwalk _ List.mem_cons_self) hhash
    rw [List.length_cons, List.length_cons, slot_of_pair hp, hpair]
    unfold sides
    split <;> rfl

/-! ## Levels above the leaves -/

theorem two_nodes (hk : k + 1 ≤ height level.length) : ∃ x y rest, level = x :: y :: rest := by
  match level, hk with
  | x :: y :: rest, _ => exact ⟨x, y, rest, rfl⟩
  | [], hk => simp at hk
  | [_], hk => simp at hk

/-- **A level above the leaves** has the same root, is lower, and hashes nothing that the tree does not. -/
theorem root_ascend {k : Nat} {level : List α} (hk : k ≤ height level.length) (hne : level ≠ []) :
    root hash (ascend hash k level) = root hash level ∧ height (ascend hash k level).length = height level.length - k ∧
      ascend hash k level ≠ [] ∧ ∀ p ∈ hashed hash (ascend hash k level), p ∈ hashed hash level := by
  induction k generalizing level with
  | zero => exact ⟨rfl, rfl, hne, fun p hp => hp⟩
  | succ k ih =>
    obtain ⟨x, y, rest, rfl⟩ := two_nodes hk
    have hheight : height (parents hash (x :: y :: rest)).length + 1 = height (x :: y :: rest).length := by
      rw [length_parents]
      exact (height_level rest.length).symm
    obtain ⟨hroot, hlen, hnil, hsub⟩ := @ih (parents hash (x :: y :: rest)) (by omega) (by simp [parents, pairs])
    refine ⟨hroot.trans root_level.symm, ?_, hnil, fun p hp => ?_⟩
    · rw [ascend, hlen]
      omega
    · rw [hashed_level]
      exact List.mem_append_right _ (hsub p hp)

end PairTree
