import Mathlib.Data.Nat.Bitwise
import NosqlBuddy.Audit.OplogRoot
import NosqlBuddy.Lib.PairPath

/-!
# Inclusion proofs of the oplog tree

The rest of `OplogMerkleTree` (oplog.rs:128-261).

| here | there |
| --- | --- |
| `buildLevels`, `OplogMerkleTree.fromLeaves` | the loop of `from_leaves` (:159-181), `from_leaves` (:145) |
| `siblingPath`, `proveInclusion` | the loop of `prove_inclusion` (:219-230), `prove_inclusion` (:208) |
| `walkUp`, `verifyInclusion` | the loop of `verify_inclusion` (:246-258), `verify_inclusion` (:236) |

An honest proof is accepted (`proveInclusion_complete`). The verifier sees neither the number of leaves nor
the height of the tree, and nothing tells an inner node from a leaf: it accepts any value that walks to the
root, by whatever number of steps. `sound_iff` says for which indices and lengths of proofs that is a leaf
at its index; `sound_height` and `sound_inner` are the lengths up to the height.
-/

namespace Audit
open Merkle (CollisionFree)
open PairTree (slot height walk walkPairs sides ascend siblings)

/-! ## The source -/

structure OplogMerkleTree where
  leaves : List Bytes32
  /-- level by level, the leaves first -/
  nodes : List (List Bytes32)
  root : Bytes32

section
variable (P : Prims)

def buildLevels : List Bytes32 → List (List Bytes32)
  | [] => [[]]
  | [x] => [[x]]
  | x :: y :: rest => (x :: y :: rest) :: buildLevels (parents P (x :: y :: rest))
termination_by level => level.length
decreasing_by
  simp only [length_parents, List.length_cons]
  omega

/-- A digest for reads out of range, which do not happen. -/
def zeroDigest : Bytes32 := ⟨List.replicate 32 0, rfl⟩

namespace OplogMerkleTree

def fromLeaves (leaves : List Bytes32) : OplogMerkleTree :=
  if leaves = [] then ⟨leaves, [], P.sha256 emptyTreeInput⟩
  else ⟨leaves, buildLevels P leaves, ((buildLevels P leaves).getLastD []).headD zeroDigest⟩

def leafCount (t : OplogMerkleTree) : Nat := t.leaves.length

/-- One sibling a level; the one of an odd last node is itself. -/
def siblingPath : List (List Bytes32) → Nat → List Bytes32
  | [], _ => []
  | level :: levels, idx =>
    let siblingIdx := idx ^^^ 1
    (if siblingIdx < level.length then level.getD siblingIdx zeroDigest else level.getD idx zeroDigest) ::
      siblingPath levels (idx / 2)

def proveInclusion (t : OplogMerkleTree) (leafIndex : Nat) : Option (List Bytes32) :=
  if t.leaves.length ≤ leafIndex then none
  else if t.nodes = [] then some []
  else some (siblingPath t.nodes.dropLast leafIndex)

def walkUp (current : Bytes32) : Nat → List Bytes32 → Bytes32
  | _, [] => current
  | idx, sibling :: proof =>
    if idx % 2 = 0 then walkUp (P.sha256 (current.1 ++ sibling.1)) (idx / 2) proof
    else walkUp (P.sha256 (sibling.1 ++ current.1)) (idx / 2) proof

def verifyInclusion (leaf : Bytes32) (leafIndex : Nat) (proof : List Bytes32) (root : Bytes32) : Bool :=
  decide (walkUp P leaf leafIndex proof = root)

end OplogMerkleTree

end

open OplogMerkleTree

/-! ## The tree of the library -/

section
variable {P : Prims}

theorem walkUp_eq : ∀ (current : Bytes32) (idx : Nat) (proof : List Bytes32),
    walkUp P current idx proof = walk (nodeHash P) current idx proof
  | _, _, [] => rfl
  | current, idx, sibling :: proof => by
    rw [walkUp, walk]
    split
    · next heven =>
      rw [walkUp_eq]
      simp only [sides, heven, if_true]
      rfl
    · next hodd =>
      rw [walkUp_eq]
      simp only [sides, hodd, if_false]
      rfl

theorem buildLevels_ne_nil (level : List Bytes32) : buildLevels P level ≠ [] := by
  induction level using PairTree.root.induct (nodeHash P) <;> simp [buildLevels]

theorem last_buildLevels (hne : level ≠ []) : (buildLevels P level).getLastD [] = [merkleRoot P level] := by
  induction level using PairTree.root.induct (nodeHash P) with
  | case1 => exact absurd rfl hne
  | case2 x => simp [buildLevels, merkleRoot]
  | case3 x y rest ih =>
    rw [buildLevels, merkleRoot, List.getLastD_cons, parents_eq, ← ih (by simp [PairTree.parents, PairTree.pairs])]
    obtain ⟨first, levels, hlevels⟩ := List.exists_cons_of_ne_nil (@buildLevels_ne_nil P (PairTree.parents (nodeHash P) (x :: y :: rest)))
    rw [hlevels, List.getLastD_cons, List.getLastD_cons]

theorem root_fromLeaves (leaves : List Bytes32) : (fromLeaves P leaves).root = merkleRoot P leaves := by
  unfold fromLeaves
  split
  · next hnil =>
    subst hnil
    simp [merkleRoot, emptyTreeInput]
  · next hne => rw [last_buildLevels hne, List.headD_cons]

theorem sibling_of_pair (hp : (PairTree.pairs level)[idx / 2]? = some p)
    (hidx : idx < level.length) :
    (if (idx ^^^ 1) < level.length then level.getD (idx ^^^ 1) zeroDigest else level.getD idx zeroDigest) =
      if idx % 2 = 0 then p.2 else p.1 := by
  rw [PairTree.getElem?_pairs] at hp
  obtain ⟨a, ha, rfl⟩ := Option.map_eq_some_iff.1 hp
  rcases Nat.mod_two_eq_zero_or_one idx with heven | hodd
  · have hdouble : 2 * (idx / 2) = idx := by omega
    rw [hdouble] at ha
    rw [Nat.xor_one_of_even (Nat.even_iff.2 heven), hdouble, if_pos heven]
    by_cases hin : idx + 1 < level.length
    · rw [if_pos hin, List.getD_eq_getElem _ _ hin, List.getElem?_eq_getElem hin, Option.getD_some]
    · rw [if_neg hin, List.getElem?_eq_none (by omega), Option.getD_none, List.getD, ha, Option.getD_some]
  · have hdouble : 2 * (idx / 2) = idx - 1 := by omega
    rw [hdouble] at ha
    rw [Nat.xor_one_of_odd (Nat.odd_iff.2 hodd), if_pos (by omega), if_neg (by omega), List.getD, ha, Option.getD_some]

/-- **The prover** returns the path of the leaf. -/
theorem siblingPath_eq (hidx : idx < level.length) :
    siblingPath (buildLevels P level).dropLast idx = siblings (nodeHash P) level idx := by
  induction level, idx using PairTree.siblings.induct (nodeHash P) with
  | case1 => simp at hidx
  | case2 x idx => simp [buildLevels, siblingPath, siblings]
  | case3 x y rest idx ih =>
    have hhalf : idx / 2 < (rest.length + 3) / 2 := by
      simp only [List.length_cons] at hidx
      omega
    have hslot := PairTree.slot_of_lt hhalf
    obtain ⟨p, hp⟩ := PairTree.pair_of_slot x y rest idx
    have hp' := hp
    rw [hslot] at hp'
    rw [buildLevels, List.dropLast_cons_of_ne_nil (buildLevels_ne_nil _), siblingPath, PairTree.siblings_level, parents_eq,
      ih (by rw [PairTree.length_parents]; exact hhalf)]
    have hget : (PairTree.pairs (x :: y :: rest)).getD (slot ((rest.length + 3) / 2) (idx / 2)) (x, x) = p := by
      rw [List.getD, hp, Option.getD_some]
    rw [hget]
    exact congrArg (· :: _) (sibling_of_pair hp' hidx)

theorem verifyInclusion_iff {leaf : Bytes32} {i : Nat} {proof leaves : List Bytes32} (hne : leaves ≠ []) :
    verifyInclusion P leaf i proof (fromLeaves P leaves).root = true ↔
      PairTree.root (nodeHash P) leaves = some (walk (nodeHash P) leaf i proof) := by
  obtain ⟨r, hr⟩ := Option.ne_none_iff_exists'.1 (@PairTree.root_ne_none Bytes32 (nodeHash P) leaves hne)
  rw [verifyInclusion, decide_eq_true_eq, walkUp_eq, root_fromLeaves, merkleRoot_eq, hr, Option.getD_some, Option.some.injEq]
  exact eq_comm

/-- **Completeness**: there is a proof for each leaf and for no other index, and it is accepted. -/
theorem proveInclusion_complete {leaves : List Bytes32} (hne : leaves ≠ []) (i : Nat) :
    (((fromLeaves P leaves).proveInclusion i).isSome = true ↔ i < (fromLeaves P leaves).leafCount) ∧
    ∀ leaf, leaves[i]? = some leaf → ∃ proof, (fromLeaves P leaves).proveInclusion i = some proof ∧
      verifyInclusion P leaf i proof (fromLeaves P leaves).root = true := by
  have hleaves : (fromLeaves P leaves).leaves = leaves := by simp [fromLeaves, hne]
  have hnodes : (fromLeaves P leaves).nodes = buildLevels P leaves := by simp [fromLeaves, hne]
  constructor
  · rw [proveInclusion, leafCount, hleaves, hnodes, if_neg (buildLevels_ne_nil leaves)]
    split
    · simp only [Option.isSome_none, Bool.false_eq_true, false_iff]
      omega
    · simp only [Option.isSome_some, true_iff]
      omega
  · intro leaf hleaf
    have hi := (List.getElem?_eq_some_iff.1 hleaf).1
    refine ⟨siblings (nodeHash P) leaves i, ?_, ?_⟩
    · rw [proveInclusion, hleaves, hnodes, if_neg (by omega), if_neg (buildLevels_ne_nil leaves), siblingPath_eq hi]
    · rw [verifyInclusion_iff hne]
      exact (PairTree.root_walk_siblings (by rw [PairTree.slot_of_lt hi]; exact hleaf)).1

/-! ## What is accepted -/

variable (P)

/-- What a verification hashes. -/
def walkInputs (leaf : Bytes32) (i : Nat) (proof : List Bytes32) : List (List UInt8) :=
  (walkPairs (nodeHash P) leaf i proof).map nodeInput

/-- SHA-256 has no collision on what the tree and a verification hash. -/
def FreeFor (leaves : List Bytes32) (leaf : Bytes32) (i : Nat) (proof : List Bytes32) : Prop :=
  CollisionFree P.sha256 (nodeInputs P leaves ++ walkInputs P leaf i proof)

/-- Whatever is accepted at index `i` with a proof of `n` siblings is the `i`-th leaf. -/
def SoundAt (leaves : List Bytes32) (i n : Nat) : Prop :=
  ∀ leaf proof, proof.length = n → FreeFor P leaves leaf i proof →
    verifyInclusion P leaf i proof (fromLeaves P leaves).root = true → i < leaves.length ∧ leaves[i]? = some leaf

/-- The `n` steps end at the root: up to the height they start at a node of the tree, which has to be the
`i`-th leaf; further steps lead to a leaf, which then has to be the hash of nothing else. -/
def Checked (leaves : List Bytes32) (i n : Nat) : Prop :=
  if n ≤ height leaves.length then
    let level := ascend (nodeHash P) (height leaves.length - n) leaves
    i < leaves.length ∧ leaves[i]? = level[slot level.length i]?
  else
    let below := n - height leaves.length
    ∀ leaf lower, lower.length = below → FreeFor P leaves leaf i lower →
      leaves[slot leaves.length (i / 2 ^ below)]? = some (walk (nodeHash P) leaf i lower) →
      i < leaves.length ∧ leaves[i]? = some leaf

variable {P}

theorem FreeFor.pairs {leaves : List Bytes32} {leaf : Bytes32} {i : Nat} {proof : List Bytes32} (h : FreeFor P leaves leaf i proof) :
    CollisionFree (fun p : Bytes32 × Bytes32 => nodeHash P p.1 p.2)
      (PairTree.hashed (nodeHash P) leaves ++ walkPairs (nodeHash P) leaf i proof) := by
  unfold FreeFor nodeInputs walkInputs at h
  rw [← List.map_append] at h
  exact collisionFree_pairs h

theorem freeFor_of_subset {leaves : List Bytes32} (hfree : CollisionFree P.sha256 (nodeInputs P leaves)) {leaf : Bytes32} {i : Nat}
    {proof : List Bytes32} (hsub : ∀ p ∈ walkPairs (nodeHash P) leaf i proof, p ∈ PairTree.hashed (nodeHash P) leaves) :
    FreeFor P leaves leaf i proof := by
  have hmem : ∀ m ∈ nodeInputs P leaves ++ walkInputs P leaf i proof, m ∈ nodeInputs P leaves := by
    intro m hm
    rcases List.mem_append.1 hm with hm | hm
    · exact hm
    · obtain ⟨p, hp, rfl⟩ := List.mem_map.1 hm
      exact List.mem_map_of_mem (hsub p hp)
  intro a ha b hb hab
  exact hfree a (hmem a ha) b (hmem b hb) hab

theorem accepted_node {leaves : List Bytes32} (hne : leaves ≠ []) (hfree : CollisionFree P.sha256 (nodeInputs P leaves)) (i : Nat)
    {n : Nat} (hn : n ≤ height leaves.length) :
    ∃ leaf proof, (ascend (nodeHash P) (height leaves.length - n) leaves)[slot
        (ascend (nodeHash P) (height leaves.length - n) leaves).length i]? = some leaf ∧ proof.length = n ∧
      FreeFor P leaves leaf i proof ∧ verifyInclusion P leaf i proof (fromLeaves P leaves).root = true := by
  obtain ⟨hroot, hheight, hnil, hsub⟩ :=
    @PairTree.root_ascend Bytes32 (nodeHash P) (height leaves.length - n) leaves (by omega) hne
  generalize ascend (nodeHash P) (height leaves.length - n) leaves = level at hroot hheight hnil hsub ⊢
  have hpos : 0 < level.length := List.length_pos_of_ne_nil hnil
  have hleaf : level[slot level.length i]? = some _ := List.getElem?_eq_getElem (PairTree.slot_lt i hpos)
  obtain ⟨hwalk, hpairs⟩ := @PairTree.root_walk_siblings _ (nodeHash P) _ _ _ hleaf
  refine ⟨_, siblings (nodeHash P) level i, hleaf, ?_, freeFor_of_subset hfree fun p hp => hsub p (hpairs p hp), ?_⟩
  · rw [PairTree.length_siblings, hheight]
    omega
  · rw [verifyInclusion_iff hne, ← hroot]
    exact hwalk

theorem node_of_accepted {leaves : List Bytes32} (hne : leaves ≠ []) {leaf : Bytes32} {i : Nat} {proof : List Bytes32}
    (hn : proof.length ≤ height leaves.length) (hfree : FreeFor P leaves leaf i proof)
    (hok : verifyInclusion P leaf i proof (fromLeaves P leaves).root = true) :
    (ascend (nodeHash P) (height leaves.length - proof.length) leaves)[slot
      (ascend (nodeHash P) (height leaves.length - proof.length) leaves).length i]? = some leaf := by
  obtain ⟨hroot, hheight, hnil, hsub⟩ :=
    @PairTree.root_ascend Bytes32 (nodeHash P) (height leaves.length - proof.length) leaves (by omega) hne
  rw [verifyInclusion_iff hne, ← hroot] at hok
  exact PairTree.slot_of_walk hfree.pairs hnil (fun p hp => List.mem_append_left _ (hsub p hp))
    (fun p hp => List.mem_append_right _ hp) (by omega) hok

theorem verifyInclusion_append {leaves : List Bytes32} (hne : leaves ≠ []) {leaf : Bytes32} {i : Nat} {lower upper : List Bytes32} :
    verifyInclusion P leaf i (lower ++ upper) (fromLeaves P leaves).root = true ↔
      verifyInclusion P (walk (nodeHash P) leaf i lower) (i / 2 ^ lower.length) upper (fromLeaves P leaves).root = true := by
  rw [verifyInclusion_iff hne, verifyInclusion_iff hne, PairTree.walk_append]

theorem freeFor_append {leaves : List Bytes32} {leaf : Bytes32} {i : Nat} {lower upper : List Bytes32}
    (h : FreeFor P leaves leaf i (lower ++ upper)) :
    FreeFor P leaves leaf i lower ∧ FreeFor P leaves (walk (nodeHash P) leaf i lower) (i / 2 ^ lower.length) upper := by
  unfold FreeFor walkInputs at h ⊢
  rw [PairTree.walkPairs_append, List.map_append] at h
  constructor
  · intro a ha b hb hab
    refine h a ?_ b ?_ hab <;> simp_all only [List.mem_append] <;> tauto
  · intro a ha b hb hab
    refine h a ?_ b ?_ hab <;> simp_all only [List.mem_append] <;> tauto

theorem freeFor_concat {leaves : List Bytes32} {leaf : Bytes32} {i : Nat} {lower upper : List Bytes32}
    (h : FreeFor P leaves leaf i lower)
    (hsub : ∀ p ∈ walkPairs (nodeHash P) (walk (nodeHash P) leaf i lower) (i / 2 ^ lower.length) upper,
      p ∈ PairTree.hashed (nodeHash P) leaves) : FreeFor P leaves leaf i (lower ++ upper) := by
  have hmem : ∀ m ∈ nodeInputs P leaves ++ walkInputs P leaf i (lower ++ upper), m ∈ nodeInputs P leaves ++ walkInputs P leaf i lower := by
    intro m hm
    unfold walkInputs at hm
    rw [PairTree.walkPairs_append, List.map_append] at hm
    rcases List.mem_append.1 hm with hm | hm
    · exact List.mem_append_left _ hm
    · rcases List.mem_append.1 hm with hm | hm
      · exact List.mem_append_right _ hm
      · obtain ⟨p, hp, rfl⟩ := List.mem_map.1 hm
        exact List.mem_append_left _ (List.mem_map_of_mem (hsub p hp))
  intro a ha b hb hab
  exact h a (hmem a ha) b (hmem b hb) hab

theorem soundAt_short {leaves : List Bytes32} (hne : leaves ≠ []) (hfree : CollisionFree P.sha256 (nodeInputs P leaves)) {i n : Nat}
    (hn : n ≤ height leaves.length) : SoundAt P leaves i n ↔ Checked P leaves i n := by
  rw [Checked, if_pos hn]
  constructor
  · intro hsound
    obtain ⟨leaf, proof, hnode, hlen, hfor, hok⟩ := accepted_node hne hfree i hn
    obtain ⟨hi, hleaf⟩ := hsound leaf proof hlen hfor hok
    exact ⟨hi, hleaf.trans hnode.symm⟩
  · rintro ⟨hi, hnode⟩ leaf proof rfl hfor hok
    exact ⟨hi, hnode.trans (node_of_accepted hne hn hfor hok)⟩

theorem soundAt_long {leaves : List Bytes32} (hne : leaves ≠ []) {i n : Nat} (hn : height leaves.length < n) :
    SoundAt P leaves i n ↔ Checked P leaves i n := by
  rw [Checked, if_neg (by omega)]
  dsimp only
  constructor
  · intro hsound leaf lower hlen hfor htop
    rw [← hlen] at htop
    obtain ⟨hwalk, hpairs⟩ := @PairTree.root_walk_siblings _ (nodeHash P) _ _ _ htop
    refine hsound leaf (lower ++ siblings (nodeHash P) leaves (i / 2 ^ lower.length)) ?_ (freeFor_concat hfor hpairs) ?_
    · rw [List.length_append, hlen, PairTree.length_siblings]
      omega
    · rw [verifyInclusion_append hne, verifyInclusion_iff hne]
      exact hwalk
  · intro hchecked leaf proof hlen hfor hok
    have hcut := List.take_append_drop (n - height leaves.length) proof
    have hlower : (proof.take (n - height leaves.length)).length = n - height leaves.length := by
      rw [List.length_take]
      omega
    have hupper : (proof.drop (n - height leaves.length)).length = height leaves.length := by
      rw [List.length_drop]
      omega
    generalize proof.take (n - height leaves.length) = lower at hcut hlower
    generalize proof.drop (n - height leaves.length) = upper at hcut hupper
    subst hcut
    rw [verifyInclusion_append hne] at hok
    obtain ⟨hfor', hrest⟩ := freeFor_append hfor
    have hnode := node_of_accepted hne (by omega) hrest hok
    rw [hupper, Nat.sub_self] at hnode
    refine hchecked leaf lower hlower hfor' ?_
    rw [← hlower]
    exact hnode

/-- **With as many siblings as the tree is high**, an index below the number of leaves is all that is missing. -/
theorem checked_height {leaves : List Bytes32} {i : Nat} : Checked P leaves i (height leaves.length) ↔ i < leaves.length := by
  rw [Checked, if_pos (Nat.le_refl _), Nat.sub_self]
  constructor
  · exact And.left
  · intro hi
    refine ⟨hi, ?_⟩
    show leaves[i]? = leaves[slot leaves.length i]?
    rw [PairTree.slot_of_lt hi]

/-- **Inclusion proofs**: complete, and sound for exactly the indices and lengths that are `Checked`. -/
theorem inclusion_iff {leaves : List Bytes32} (hne : leaves ≠ []) (hfree : CollisionFree P.sha256 (nodeInputs P leaves)) (i n : Nat) :
    ((((fromLeaves P leaves).proveInclusion i).isSome = true ↔ i < (fromLeaves P leaves).leafCount) ∧
      ∀ leaf, leaves[i]? = some leaf → ∃ proof, (fromLeaves P leaves).proveInclusion i = some proof ∧
        verifyInclusion P leaf i proof (fromLeaves P leaves).root = true) ∧
    (SoundAt P leaves i n ↔ Checked P leaves i n) := by
  refine ⟨proveInclusion_complete hne i, ?_⟩
  by_cases hn : n ≤ height leaves.length
  · exact soundAt_short hne hfree hn
  · exact soundAt_long hne (by omega)

end

theorem height_demoLeaves : height ([demoLeaf 1, demoLeaf 2, demoLeaf 3] : List Bytes32).length = 2 := by
  simp [PairTree.height_level]

theorem demoLeaves_free : CollisionFree demoPrims.sha256 (nodeInputs demoPrims [demoLeaf 1, demoLeaf 2, demoLeaf 3]) := by
  have h := demoLeaves_idealised.collisionFree
  rw [treeInputs_of_ne (by simp)] at h
  exact fun a ha b hb hab => h a (List.mem_append_left _ ha) b (List.mem_append_left _ hb) hab

/-- The first leaf of three, with a proof of two siblings. -/
theorem inclusion_of_first : SoundAt demoPrims [demoLeaf 1, demoLeaf 2, demoLeaf 3] 0 2 := by
  have hchecked : Checked demoPrims [demoLeaf 1, demoLeaf 2, demoLeaf 3] 0 2 := by
    rw [← height_demoLeaves]
    exact checked_height.2 (by simp)
  exact (inclusion_iff (by simp) demoLeaves_free 0 2).2.2 hchecked

/-- Three leaves: the proof of the first one is accepted at index 4 as well. -/
theorem inclusion_past_end : ¬ SoundAt demoPrims [demoLeaf 1, demoLeaf 2, demoLeaf 3] 4 2 := by
  intro hsound
  obtain ⟨leaf, proof, _, hlen, hfor, hok⟩ :=
    accepted_node (by simp) demoLeaves_free 4 (Nat.le_of_eq height_demoLeaves.symm)
  exact absurd (hsound leaf proof hlen hfor hok).1 (by simp)

end Audit
