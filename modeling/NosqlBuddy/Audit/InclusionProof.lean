import NosqlBuddy.Audit.MerkleTree

/-!
# Inclusion proofs

The other half of `zk-audit/src/merkle.rs`.

| here | there |
| --- | --- |
| `proveInclusion` | merkle.rs:133, of a tree whose indices are the positions of its leaves |

`verify_iff`: a proof is accepted exactly when its leaf climbs to its root along its path; `proveInclusion_ok`: a tree
proves each leaf it holds, against its own root.
-/

namespace Audit
open Merkle

inductive ZkAuditError where
  | merkleTree (message : String)
deriving DecidableEq, Repr

structure InclusionProof where
  leaf : Fr
  leafIndex : Nat
  pathElements : List Fr
  pathIndices : List UInt64
  root : Fr

section
variable (P : Prims)

/-- The loop of `verify`. -/
def verifyPath (current : Fr) : List (Fr × UInt64) → Except ZkAuditError Fr
  | [] => .ok current
  | (sibling, dir) :: rest =>
    if dir = 0 then verifyPath (poseidon2 P current sibling) rest
    else if dir = 1 then verifyPath (poseidon2 P sibling current) rest
    else .error (.merkleTree s!"malformed proof: path index must be 0 or 1, got {dir}")

def InclusionProof.verify (p : InclusionProof) : Except ZkAuditError Bool :=
  if p.pathElements.length ≠ p.pathIndices.length then
    .error (.merkleTree
      s!"malformed proof: {p.pathElements.length} path elements but {p.pathIndices.length} path indices")
  else (verifyPath P p.leaf (p.pathElements.zip p.pathIndices)).map fun current => decide (current = p.root)

/-- The loop of `prove_inclusion`, at the levels from `level` on. -/
def provePath (leaves zeroHashes : List Fr) : Nat → Nat → Nat → Fr → List Fr × List UInt64 × Fr
  | 0, _, _, currentHash => ([], [], currentHash)
  | levels + 1, level, idx, currentHash =>
    let siblingIdx := if idx % 2 = 0 then idx + 1 else idx - 1
    let isLeft := decide (idx % 2 = 0)
    let siblingHash := if level = 0 then leaves.getD siblingIdx 0
      else computeSubtreeHash P leaves zeroHashes level (siblingIdx * 2 ^ level)
    let next := if isLeft then poseidon2 P currentHash siblingHash else poseidon2 P siblingHash currentHash
    let (elements, indices, root) := provePath leaves zeroHashes levels (level + 1) (idx / 2) next
    (siblingHash :: elements, (if isLeft then 0 else 1) :: indices, root)

def AuditMerkleTree.proveInclusion {height : Nat} (t : AuditMerkleTree height) (leafIndex : Nat) :
    Except ZkAuditError InclusionProof :=
  match t.leaves[leafIndex]? with
  | none => .error (.merkleTree s!"no leaf at index {leafIndex}")
  | some leaf =>
    let (elements, indices, root) := provePath P t.leaves (computeZeroHashes P height) height 0 leafIndex leaf
    .ok ⟨leaf, leafIndex, elements, indices, root⟩

end

section
variable {P : Prims}

/-- The path as the tree library has it: the sibling, and whether the node is the right child. -/
def pathOf (elements : List Fr) (indices : List UInt64) : List (Fr × Bool) :=
  (elements.zip indices).map fun s => (s.1, decide (s.2 = 1))

theorem verifyPath_ok : ∀ {path : List (Fr × UInt64)} {leaf root : Fr}, verifyPath P leaf path = .ok root ↔
    (∀ s ∈ path, s.2 = 0 ∨ s.2 = 1) ∧ root = climb (poseidon2 P) leaf (path.map fun s => (s.1, decide (s.2 = 1)))
  | [], leaf, root => by
    simp only [verifyPath, Except.ok.injEq, List.map_nil, climb, List.foldl_nil]
    constructor
    · rintro rfl
      exact ⟨by simp, rfl⟩
    · rintro ⟨_, rfl⟩
      rfl
  | (sibling, dir) :: path, leaf, root => by
    rw [verifyPath, List.forall_mem_cons, List.map_cons, climb, List.foldl_cons, ← climb]
    by_cases h0 : dir = 0
    · subst h0
      rw [if_pos rfl, verifyPath_ok]
      simp [up, upPair]
    · by_cases h1 : dir = 1
      · subst h1
        rw [if_neg h0, if_pos rfl, verifyPath_ok]
        simp [up, upPair]
      · simp [h0, h1]

/-- **`verify`** accepts exactly the proofs whose leaf climbs to their root. -/
theorem verify_iff {p : InclusionProof} : p.verify P = .ok true ↔ p.pathElements.length = p.pathIndices.length ∧
    (∀ d ∈ p.pathIndices, d = 0 ∨ d = 1) ∧
    climb (poseidon2 P) p.leaf (pathOf p.pathElements p.pathIndices) = p.root := by
  unfold InclusionProof.verify
  by_cases hlen : p.pathElements.length = p.pathIndices.length
  · have hdirs : (∀ s ∈ p.pathElements.zip p.pathIndices, s.2 = 0 ∨ s.2 = 1) ↔ ∀ d ∈ p.pathIndices, d = 0 ∨ d = 1 := by
      have hsnd : (p.pathElements.zip p.pathIndices).map Prod.snd = p.pathIndices :=
        List.map_snd_zip (by omega)
      rw [← hsnd, List.forall_mem_map, hsnd]
    rw [if_neg (by simp [hlen]), ← hdirs]
    cases hpath : verifyPath P p.leaf (p.pathElements.zip p.pathIndices) with
    | error e =>
      simp only [Except.map, reduceCtorEq, false_iff]
      rintro ⟨_, hbits, _⟩
      rw [verifyPath_ok.2 ⟨hbits, rfl⟩] at hpath
      cases hpath
    | ok root =>
      obtain ⟨hbits, rfl⟩ := verifyPath_ok.1 hpath
      simp only [Except.map, Except.ok.injEq, decide_eq_true_eq, hlen, true_and]
      exact ⟨fun hroot => ⟨hbits, hroot⟩, fun hroot => hroot.2⟩
  · simp [hlen]

/-! ## The prover -/

theorem provePath_spec {height : Nat} (leaves : List Fr) : ∀ (levels level idx : Nat) {currentHash : Fr}, level + levels ≤ height →
    currentHash = node (poseidon2 P) (fun i => leaves.getD i 0) level (idx * 2 ^ level) →
    ∃ elements indices, provePath P leaves (computeZeroHashes P height) levels level idx currentHash =
        (elements, indices, node (poseidon2 P) (fun i => leaves.getD i 0) (level + levels) (idx / 2 ^ levels * 2 ^ (level + levels))) ∧
      elements.length = levels ∧ indices.length = levels ∧ (∀ d ∈ indices, d = 0 ∨ d = 1) ∧
      climb (poseidon2 P) currentHash (pathOf elements indices) =
        node (poseidon2 P) (fun i => leaves.getD i 0) (level + levels) (idx / 2 ^ levels * 2 ^ (level + levels))
  | 0, level, idx, currentHash, _, hcurrent => by
    subst hcurrent
    exact ⟨[], [], by simp [provePath], rfl, rfl, by simp, by simp [climb, pathOf]⟩
  | levels + 1, level, idx, currentHash, hle, hcurrent => by
    obtain ⟨sibling, hsibling⟩ : ∃ sibling, sibling = node (poseidon2 P) (fun i => leaves.getD i 0) level (beside idx * 2 ^ level) :=
      ⟨_, rfl⟩
    have hhash : (if level = 0 then leaves.getD (if idx % 2 = 0 then idx + 1 else idx - 1) 0
        else computeSubtreeHash P leaves (computeZeroHashes P height) level ((if idx % 2 = 0 then idx + 1 else idx - 1) * 2 ^ level)) =
        sibling := by
      by_cases hzero : level = 0
      · subst hzero
        rw [if_pos rfl, hsibling, node, pow_zero, Nat.mul_one]
        rfl
      · rw [if_neg hzero, computeSubtreeHash_eq_node leaves level _ (by omega : level ≤ height), hsibling]
        rfl
    have hup := @up_node _ (poseidon2 P) (fun i => leaves.getD i 0) level idx
    rw [← hcurrent, ← hsibling] at hup
    have hnext : (if decide (idx % 2 = 0) then poseidon2 P currentHash sibling else poseidon2 P sibling currentHash) =
        up (poseidon2 P) currentHash (sibling, decide (idx % 2 = 1)) := by
      rcases Nat.mod_two_eq_zero_or_one idx with heven | hodd
      · simp [heven, up, upPair]
      · simp [hodd, up, upPair]
    obtain ⟨elements, indices, hpath, hlen, hlen', hbits, hclimb⟩ :=
      @provePath_spec height leaves levels (level + 1) (idx / 2) _ (by omega) hup
    have hlevels : level + 1 + levels = level + (levels + 1) := by omega
    have hdiv : idx / 2 / 2 ^ levels = idx / 2 ^ (levels + 1) := by rw [Nat.div_div_eq_div_mul, Nat.pow_succ, Nat.mul_comm 2]
    rw [hlevels, hdiv] at hpath hclimb
    refine ⟨sibling :: elements, (if decide (idx % 2 = 0) then 0 else 1) :: indices, ?_, by simp [hlen], by simp [hlen'], ?_, ?_⟩
    · rw [provePath]
      simp only [hhash]
      rw [hnext, hpath]
    · intro d hd
      rcases List.mem_cons.1 hd with rfl | hd
      · split
        · exact .inl rfl
        · exact .inr rfl
      · exact hbits d hd
    · have hside : decide ((if decide (idx % 2 = 0) then (0 : UInt64) else 1) = 1) = decide (idx % 2 = 1) := by
        rcases Nat.mod_two_eq_zero_or_one idx with heven | hodd
        · simp [heven]
        · simp [hodd]
      rw [← hclimb]
      simp only [pathOf, List.zip_cons_cons, List.map_cons, climb, List.foldl_cons, hside]

/-- **The prover** proves each leaf that the tree holds, against the root of the tree. -/
theorem proveInclusion_ok {height : Nat} {t : AuditMerkleTree height} {i : Nat} {leaf : Fr} (hleaf : t.leaves[i]? = some leaf)
    (hi : i < 2 ^ height) : ∃ p, t.proveInclusion P i = .ok p ∧ p.leaf = leaf ∧ p.leafIndex = i ∧ p.root = t.root P ∧
      p.pathElements.length = height ∧ p.pathIndices.length = height ∧ p.verify P = .ok true := by
  have hget : leaf = node (poseidon2 P) (fun i => t.leaves.getD i 0) 0 (i * 2 ^ 0) := by
    rw [node, pow_zero, Nat.mul_one, List.getD, hleaf, Option.getD_some]
  obtain ⟨elements, indices, hpath, hlen, hlen', hbits, hclimb⟩ :=
    @provePath_spec P height t.leaves height 0 i _ (by omega) hget
  rw [Nat.div_eq_of_lt hi, Nat.zero_mul, Nat.zero_add, ← root_eq_node] at hpath hclimb
  refine ⟨⟨leaf, i, elements, indices, t.root P⟩, ?_, rfl, rfl, rfl, hlen, hlen', ?_⟩
  · simp only [AuditMerkleTree.proveInclusion, hleaf, hpath]
  · exact verify_iff.2 ⟨hlen.trans hlen'.symm, hbits, hclimb⟩

end

end Audit
