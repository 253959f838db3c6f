import Mathlib.Data.List.GetD
import NosqlBuddy.Lib.Merkle
import NosqlBuddy.Audit.Types

/-!
# The Poseidon Merkle tree

`zk-audit/src/merkle.rs`. The leaves are a vector of `(index, value)` pairs whose indices are the
positions, because `insert` is the only operation the audit log uses; so they are a list here.

`root_eq_node` connects the code, which skips empty subtrees, to the complete padded tree of
`Lib/Merkle`; `hashedPairs` are the inputs Poseidon is called with for one root.
-/

namespace Audit
open Merkle

/-- `AuditMerkleTree` of the given height (merkle.rs:17). -/
structure AuditMerkleTree (height : Nat) where
  leaves : List Fr
deriving DecidableEq

section
variable (P : Prims)

/-- The two-input hash of the tree. -/
def poseidon2 (left right : Fr) : Fr := P.poseidon [left, right]

/-- `compute_zero_hashes` (merkle.rs:219): entries `0 ..= height`. -/
def computeZeroHashes : Nat → List Fr
  | 0 => [0]
  | h + 1 =>
    let zeroHashes := computeZeroHashes h
    zeroHashes ++ [poseidon2 P (zeroHashes.getD h 0) (zeroHashes.getD h 0)]

/-- `leaf_map.keys().any(|&k| k >= range_start && k < range_end)`. -/
def hasNonzero (leaves : List Fr) (rangeStart rangeEnd : Nat) : Bool :=
  (List.range leaves.length).any fun k => rangeStart ≤ k && k < rangeEnd

/-- `compute_subtree_hash` (merkle.rs:232). -/
def computeSubtreeHash (leaves zeroHashes : List Fr) : Nat → Nat → Fr
  | 0, leafIdx => leaves.getD leafIdx 0
  | level + 1, leafIdx =>
    if hasNonzero leaves leafIdx (leafIdx + 2 ^ (level + 1)) then
      poseidon2 P (computeSubtreeHash leaves zeroHashes level leafIdx)
        (computeSubtreeHash leaves zeroHashes level (leafIdx + 2 ^ level))
    else zeroHashes.getD (level + 1) 0

/-- The input pairs of the calls of `compute_subtree_hash` below a node. -/
def subtreePairs (leaves zeroHashes : List Fr) : Nat → Nat → List (Fr × Fr)
  | 0, _ => []
  | level + 1, leafIdx =>
    if hasNonzero leaves leafIdx (leafIdx + 2 ^ (level + 1)) then
      (computeSubtreeHash P leaves zeroHashes level leafIdx,
        computeSubtreeHash P leaves zeroHashes level (leafIdx + 2 ^ level)) ::
      (subtreePairs leaves zeroHashes level leafIdx ++
        subtreePairs leaves zeroHashes level (leafIdx + 2 ^ level))
    else []

namespace AuditMerkleTree
variable {height : Nat}

/-- `AuditMerkleTree::with_height` (merkle.rs:87). -/
def empty : AuditMerkleTree height := ⟨[]⟩

def leafCount (t : AuditMerkleTree height) : Nat := t.leaves.length

/-- `insert` (merkle.rs:99): the tree and the index of the new leaf. -/
def insert (t : AuditMerkleTree height) (value : Fr) : AuditMerkleTree height × Nat :=
  (⟨t.leaves ++ [value]⟩, t.leaves.length)

/-- `root` (merkle.rs:112). -/
def root (t : AuditMerkleTree height) : Fr :=
  if t.leaves.isEmpty then (computeZeroHashes P height).getD height 0
  else computeSubtreeHash P t.leaves (computeZeroHashes P height) height 0

/-- The inputs of the Poseidon calls that precompute the zero hashes and compute the root. -/
def hashedPairs (t : AuditMerkleTree height) : List (Fr × Fr) :=
  ((computeZeroHashes P height).take height).map (fun z => (z, z)) ++
    subtreePairs P t.leaves (computeZeroHashes P height) height 0

end AuditMerkleTree

end

/-! ## The code computes the padded tree -/

section
variable {P : Prims}

theorem length_computeZeroHashes : ∀ h : Nat, (computeZeroHashes P h).length = h + 1
  | 0 => rfl
  | h + 1 => by simp [computeZeroHashes, length_computeZeroHashes h]

theorem getD_computeZeroHashes : ∀ (h n : Nat), n ≤ h →
    (computeZeroHashes P h).getD n 0 = zeros (poseidon2 P) 0 n
  | 0, n, hn => by
    obtain rfl : n = 0 := by omega
    rfl
  | h + 1, n, hn => by
    have hlen := length_computeZeroHashes (P := P) h
    rcases Nat.lt_or_ge n (h + 1) with hlt | hge
    · have ih := getD_computeZeroHashes h n (by omega)
      rw [computeZeroHashes, List.getD_append _ _ _ _ (by omega)]
      exact ih
    · obtain rfl : n = h + 1 := by omega
      rw [computeZeroHashes, List.getD_append_right _ _ _ _ (by omega), hlen, Nat.sub_self,
        getD_computeZeroHashes h h (Nat.le_refl h)]
      rfl

theorem hasNonzero_iff :
    hasNonzero leaves a b = true ↔ ∃ k, k < leaves.length ∧ a ≤ k ∧ k < b := by
  simp [hasNonzero]

theorem padding_of_not_hasNonzero (h : ¬ hasNonzero leaves a b = true)
    (j : Nat) (h1 : a ≤ j) (h2 : j < b) : leaves.getD j 0 = 0 := by
  by_cases hj : j < leaves.length
  · exact absurd (hasNonzero_iff.2 ⟨j, hj, h1, h2⟩) h
  · simp [List.getD, List.getElem?_eq_none (by omega : leaves.length ≤ j)]

theorem computeSubtreeHash_eq_node (leaves : List Fr) : ∀ (level leafIdx : Nat), level ≤ height →
    computeSubtreeHash P leaves (computeZeroHashes P height) level leafIdx =
      node (poseidon2 P) (fun i => leaves.getD i 0) level leafIdx
  | 0, _, _ => rfl
  | level + 1, leafIdx, hl => by
    rw [computeSubtreeHash]
    split
    · rw [computeSubtreeHash_eq_node leaves level leafIdx (by omega),
        computeSubtreeHash_eq_node leaves level (leafIdx + 2 ^ level) (by omega)]
      rfl
    · next hn =>
      rw [getD_computeZeroHashes height _ hl]
      exact (node_zeros _ _ (padding_of_not_hasNonzero hn)).symm

theorem root_eq_node (t : AuditMerkleTree height) :
    t.root P = node (poseidon2 P) (fun i => t.leaves.getD i 0) height 0 := by
  unfold AuditMerkleTree.root
  split
  · next he =>
    rw [getD_computeZeroHashes height height (Nat.le_refl _)]
    refine (node_zeros _ _ fun j _ _ => ?_).symm
    simp [List.isEmpty_iff.1 he]
  · exact computeSubtreeHash_eq_node t.leaves height 0 (Nat.le_refl _)

theorem covered_subtreePairs {height : Nat} (leaves : List Fr) {Q : List (Fr × Fr)}
    (hz : ∀ m < height, (zeros (poseidon2 P) 0 m, zeros (poseidon2 P) 0 m) ∈ Q) : ∀ (level leafIdx : Nat),
    level ≤ height → (∀ p ∈ subtreePairs P leaves (computeZeroHashes P height) level leafIdx, p ∈ Q) →
    Covered (poseidon2 P) Q (fun i => leaves.getD i 0) level leafIdx
  | 0, _, _, _ => trivial
  | level + 1, leafIdx, hl, hQ => by
    by_cases hn : hasNonzero leaves leafIdx (leafIdx + 2 ^ (level + 1)) = true
    · rw [subtreePairs, if_pos hn] at hQ
      refine ⟨?_, covered_subtreePairs leaves hz level leafIdx (by omega) fun p hp => hQ p ?_,
        covered_subtreePairs leaves hz level _ (by omega) fun p hp => hQ p ?_⟩
      · rw [← computeSubtreeHash_eq_node leaves level leafIdx (by omega : level ≤ height),
          ← computeSubtreeHash_eq_node leaves level (leafIdx + 2 ^ level) (by omega : level ≤ height)]
        exact hQ _ (by simp)
      · simp [hp]
      · simp [hp]
    · exact covered_zeros _ _ (fun m hm => hz m (by omega)) (padding_of_not_hasNonzero hn)

theorem zeroPair_mem_hashedPairs (t : AuditMerkleTree height) (hm : m < height) :
    (zeros (poseidon2 P) 0 m, zeros (poseidon2 P) 0 m) ∈ t.hashedPairs P := by
  have hget := getD_computeZeroHashes (P := P) height m (by omega)
  have hlen := length_computeZeroHashes (P := P) height
  refine List.mem_append_left _ (List.mem_map.2 ⟨zeros (poseidon2 P) 0 m, ?_, rfl⟩)
  rw [List.mem_take_iff_getElem]
  refine ⟨m, by omega, ?_⟩
  rw [← hget, List.getD, List.getElem?_eq_getElem (by omega)]
  rfl

theorem root_congr {height : Nat} {t u : AuditMerkleTree height}
    (h : ∀ j < 2 ^ height, t.leaves.getD j 0 = u.leaves.getD j 0) : t.root P = u.root P := by
  rw [root_eq_node, root_eq_node]
  exact node_congr height 0 fun j _ hj => h j (by omega)

/-- **The root determines the padded leaves**, as far as Poseidon has no collision among the pairs hashed
for the two roots. -/
theorem getD_eq_of_root_eq {height : Nat} {t u : AuditMerkleTree height}
    (hfree : CollisionFree (fun p : Fr × Fr => poseidon2 P p.1 p.2) (t.hashedPairs P ++ u.hashedPairs P))
    (hroot : t.root P = u.root P) (j : Nat) (hj : j < 2 ^ height) : t.leaves.getD j 0 = u.leaves.getD j 0 := by
  have hz : ∀ m < height, (zeros (poseidon2 P) 0 m, zeros (poseidon2 P) 0 m) ∈ t.hashedPairs P ++ u.hashedPairs P :=
    fun m hm => List.mem_append_left _ (zeroPair_mem_hashedPairs t hm)
  have hct := covered_subtreePairs t.leaves hz height 0 (Nat.le_refl _)
    fun p hp => List.mem_append_left _ (List.mem_append_right _ hp)
  have hcu := covered_subtreePairs u.leaves hz height 0 (Nat.le_refl _)
    fun p hp => List.mem_append_right _ (List.mem_append_right _ hp)
  rw [root_eq_node, root_eq_node] at hroot
  exact node_inj hfree height 0 hct hcu hroot j (Nat.zero_le j) (by omega)

/-- **The root determines the leaves**, for trees that are not over-full and hold no zero leaf, as far
as Poseidon has no collision among the pairs hashed for the two roots. -/
theorem leaves_eq_of_root_eq {height : Nat} {t u : AuditMerkleTree height}
    (hfree : CollisionFree (fun p : Fr × Fr => poseidon2 P p.1 p.2) (t.hashedPairs P ++ u.hashedPairs P))
    (ht : (0 : Fr) ∉ t.leaves) (hu : (0 : Fr) ∉ u.leaves) (htn : t.leaves.length ≤ 2 ^ height)
    (hun : u.leaves.length ≤ 2 ^ height) (hroot : t.root P = u.root P) : t.leaves = u.leaves :=
  eq_of_padded ht hu htn hun (getD_eq_of_root_eq hfree hroot)

end

end Audit
