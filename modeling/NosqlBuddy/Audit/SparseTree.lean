import NosqlBuddy.Audit.EventText
import NosqlBuddy.Audit.InclusionProof

/-!
# The sparse tree at machine level

`zk-audit/src/merkle.rs` once more, now with the vector of `(index, value)` pairs, the hash map that is made of
it, and positions that are `usize`.

| here | there |
| --- | --- |
| `addUsize`, `shlUsize` | `+` and `<<`; `checks` is whether the build checks for overflow |
| `leafMap` | the `HashMap` that `root` and `prove_inclusion` collect: a later pair of an index wins |
| `SparseTree`, `withHeight`, `insert`, `root`, `proveInclusion` | `AuditMerkleTree` (:17), :86, :99, :112, :133 |
| `subtreeHash`, `pathLoop` | `compute_subtree_hash` (:232), the loop of `prove_inclusion` |

The node ranges of a tree of height 64 end at `2 ^ 64`, which is no `usize`. Up to height 63 the code computes
what `MerkleTree` and `InclusionProof` say it does (`subtreeHash_eq`, `pathLoop_eq`), and so the complete tree.
-/

namespace Audit
open Merkle

/-! ## Positions -/

inductive Stop where
  | panic (message : String)
  | error (e : ZkAuditError)
deriving DecidableEq, Repr

def addUsize (checks : Bool) (a b : Nat) : Except Stop Nat :=
  if a + b < 2 ^ 64 then .ok (a + b)
  else if checks then .error (.panic "attempt to add with overflow")
  else .ok ((a + b) % 2 ^ 64)

/-- Only the amount is checked; bits that leave the word are lost. -/
def shlUsize (checks : Bool) (a k : Nat) : Except Stop Nat :=
  if k < 64 then .ok (a * 2 ^ k % 2 ^ 64)
  else if checks then .error (.panic "attempt to shift left with overflow")
  else .ok (a * 2 ^ (k % 64) % 2 ^ 64)

theorem addUsize_fits {checks : Bool} {a b : Nat} (h : a + b < 2 ^ 64) : addUsize checks a b = .ok (a + b) := if_pos h

theorem shlUsize_fits {checks : Bool} {a k : Nat} (hk : k < 64) (h : a * 2 ^ k < 2 ^ 64) :
    shlUsize checks a k = .ok (a * 2 ^ k) := by
  rw [shlUsize, if_pos hk, Nat.mod_eq_of_lt h]

/-! ## The tree -/

structure SparseTree where
  height : Nat
  leaves : List (Nat × Fr)
  zeroHashes : List Fr
deriving DecidableEq

def leafMap (leaves : List (Nat × Fr)) (index : Nat) : Option Fr := (leaves.reverse.find? fun l => l.1 = index).map Prod.snd

section
variable (P : Prims) (checks : Bool)

def subtreeHash (leaves : List (Nat × Fr)) (zeroHashes : List Fr) : Nat → Nat → Except Stop Fr
  | 0, leafIdx => .ok ((leafMap leaves leafIdx).getD 0)
  | level + 1, leafIdx => do
    let width ← shlUsize checks 1 (level + 1)
    let rangeEnd ← addUsize checks leafIdx width
    if leaves.any fun l => leafIdx ≤ l.1 && l.1 < rangeEnd then
      let left ← subtreeHash leaves zeroHashes level leafIdx
      let half ← shlUsize checks 1 level
      let middle ← addUsize checks leafIdx half
      let right ← subtreeHash leaves zeroHashes level middle
      return poseidon2 P left right
    else return zeroHashes.getD (level + 1) 0

def siblingIndex (idx : Nat) : Except Stop Nat := if idx % 2 = 0 then addUsize checks idx 1 else .ok (idx - 1)

/-- The sibling of a node of a level. -/
def siblingHash (leaves : List (Nat × Fr)) (zeroHashes : List Fr) (level siblingIdx : Nat) : Except Stop Fr :=
  if level = 0 then .ok ((leafMap leaves siblingIdx).getD 0)
  else do
    let siblingLeafIdx ← shlUsize checks siblingIdx level
    subtreeHash P checks leaves zeroHashes level siblingLeafIdx

def pathLoop (leaves : List (Nat × Fr)) (zeroHashes : List Fr) : Nat → Nat → Nat → Fr → Except Stop (List Fr × List UInt64 × Fr)
  | 0, _, _, currentHash => .ok ([], [], currentHash)
  | levels + 1, level, idx, currentHash => do
    let siblingIdx ← siblingIndex checks idx
    let isLeft := decide (idx % 2 = 0)
    let sibling ← siblingHash P checks leaves zeroHashes level siblingIdx
    let next := if isLeft then poseidon2 P currentHash sibling else poseidon2 P sibling currentHash
    let (elements, indices, root) ← pathLoop leaves zeroHashes levels (level + 1) (idx / 2) next
    return (sibling :: elements, (if isLeft then 0 else 1) :: indices, root)

namespace SparseTree

def withHeight (height : Nat) : SparseTree := ⟨height, [], computeZeroHashes P height⟩

def insert (t : SparseTree) (value : Fr) : SparseTree × Nat :=
  ({ t with leaves := t.leaves ++ [(t.leaves.length, value)] }, t.leaves.length)

/-- The tree after inserting the values one after the other. -/
def insertAll (t : SparseTree) (values : List Fr) : SparseTree := values.foldl (fun t value => (t.insert value).1) t

def root (t : SparseTree) : Except Stop Fr :=
  if t.leaves.isEmpty then .ok (t.zeroHashes.getD t.height 0)
  else subtreeHash P checks t.leaves t.zeroHashes t.height 0

def proveInclusion (t : SparseTree) (leafIndex : Nat) : Except Stop InclusionProof :=
  match leafMap t.leaves leafIndex with
  | none => .error (.error (.merkleTree s!"no leaf at index {leafIndex}"))
  | some leaf => do
    let (elements, indices, root) ← pathLoop P checks t.leaves t.zeroHashes t.height 0 leafIndex leaf
    return ⟨leaf, leafIndex, elements, indices, root⟩

end SparseTree

end

/-! ## Inserted leaves -/

/-- The pairs of values that were inserted one after the other. -/
def indexed (values : List Fr) : List (Nat × Fr) := values.zipIdx.map Prod.swap

theorem indexed_concat (values : List Fr) (value : Fr) : indexed (values ++ [value]) = indexed values ++ [(values.length, value)] := by
  simp [indexed, List.zipIdx_append]

theorem length_indexed (values : List Fr) : (indexed values).length = values.length := by simp [indexed]

section
variable {P : Prims}

theorem insertAll_leaves (height : Nat) (values : List Fr) :
    (SparseTree.withHeight P height).insertAll values = ⟨height, indexed values, computeZeroHashes P height⟩ := by
  induction values using List.reverseRecOn with
  | nil => rfl
  | append_singleton values value ih =>
    have hstep : (SparseTree.withHeight P height).insertAll (values ++ [value]) =
        (((SparseTree.withHeight P height).insertAll values).insert value).1 := by
      simp [SparseTree.insertAll, List.foldl_append]
    rw [hstep, ih, SparseTree.insert, length_indexed, indexed_concat]

theorem leafMap_concat (leaves : List (Nat × Fr)) (l : Nat × Fr) (i : Nat) :
    leafMap (leaves ++ [l]) i = if l.1 = i then some l.2 else leafMap leaves i := by
  unfold leafMap
  rw [List.reverse_append, List.reverse_singleton, List.singleton_append, List.find?_cons]
  by_cases h : l.1 = i <;> simp [h]

theorem leafMap_indexed (values : List Fr) (i : Nat) : leafMap (indexed values) i = values[i]? := by
  induction values using List.reverseRecOn with
  | nil => rfl
  | append_singleton values value ih =>
    rw [indexed_concat, leafMap_concat, ih]
    by_cases h : values.length = i
    · subst h
      simp
    · rw [if_neg h]
      rcases Nat.lt_or_gt_of_ne h with hlt | hgt
      · rw [List.getElem?_eq_none (by omega), List.getElem?_eq_none (by rw [List.length_append, List.length_singleton]; omega)]
      · rw [List.getElem?_append_left hgt]

theorem any_indexed (values : List Fr) (a b : Nat) :
    ((indexed values).any fun l => a ≤ l.1 && l.1 < b) = hasNonzero values a b := by
  have hkeys : (indexed values).map Prod.fst = List.range values.length := by
    simp [indexed, Function.comp_def, List.range_eq_range']
  rw [hasNonzero, ← hkeys, List.any_map]
  rfl

/-! ## Up to height 63 -/

theorem subtreeHash_eq (checks : Bool) (values zeroHashes : List Fr) : ∀ (level leafIdx : Nat), level ≤ 63 →
    leafIdx + 2 ^ level < 2 ^ 64 →
    subtreeHash P checks (indexed values) zeroHashes level leafIdx = .ok (computeSubtreeHash P values zeroHashes level leafIdx)
  | 0, leafIdx, _, _ => by
    rw [subtreeHash, computeSubtreeHash, leafMap_indexed, List.getD]
  | level + 1, leafIdx, hlevel, hfits => by
    have hpow : 2 ^ (level + 1) = 2 ^ level + 2 ^ level := by rw [Nat.pow_succ]; omega
    have hpos := Nat.two_pow_pos level
    have hwidth : shlUsize checks 1 (level + 1) = .ok (2 ^ (level + 1)) := by
      have h := @shlUsize_fits checks 1 (level + 1) (by omega) (by omega)
      rwa [Nat.one_mul] at h
    have hhalf : shlUsize checks 1 level = .ok (2 ^ level) := by
      have h := @shlUsize_fits checks 1 level (by omega) (by omega)
      rwa [Nat.one_mul] at h
    have hend := @addUsize_fits checks leafIdx (2 ^ (level + 1)) hfits
    have hmiddle := @addUsize_fits checks leafIdx (2 ^ level) (by omega)
    have hleft := subtreeHash_eq checks values zeroHashes level leafIdx (by omega) (by omega)
    have hright := subtreeHash_eq checks values zeroHashes level (leafIdx + 2 ^ level) (by omega) (by omega)
    simp only [subtreeHash, computeSubtreeHash, hwidth, hend, hhalf, hmiddle, hleft, hright, any_indexed, bind, Except.bind, pure,
      Except.pure]
    split <;> rfl

theorem siblingHash_eq (checks : Bool) (values zeroHashes : List Fr) {level siblingIdx : Nat} (hlevel : level ≤ 63)
    (hfits : siblingIdx * 2 ^ level + 2 ^ level < 2 ^ 64) : siblingHash P checks (indexed values) zeroHashes level siblingIdx =
      .ok (if level = 0 then values.getD siblingIdx 0 else computeSubtreeHash P values zeroHashes level (siblingIdx * 2 ^ level)) := by
  have hpos := Nat.two_pow_pos level
  unfold siblingHash
  by_cases hzero : level = 0
  · rw [if_pos hzero, if_pos hzero, leafMap_indexed, List.getD]
  · rw [if_neg hzero, if_neg hzero]
    have hshift := @shlUsize_fits checks siblingIdx level (by omega) (by omega)
    simp only [hshift, bind, Except.bind]
    exact subtreeHash_eq checks values zeroHashes level _ hlevel hfits

theorem beside_lt (hidx : idx < 2 ^ (n + 1)) : beside idx < 2 ^ (n + 1) := by
  rw [Nat.pow_succ] at hidx ⊢
  unfold beside
  split <;> omega

theorem pathLoop_eq (checks : Bool) (values zeroHashes : List Fr) : ∀ (levels level idx : Nat) (currentHash : Fr),
    level + levels ≤ 63 → idx < 2 ^ levels →
    pathLoop P checks (indexed values) zeroHashes levels level idx currentHash =
      .ok (provePath P values zeroHashes levels level idx currentHash)
  | 0, _, _, _, _, _ => rfl
  | levels + 1, level, idx, currentHash, hlevel, hidx => by
    have hbeside := beside_lt hidx
    have hword : 2 ^ (levels + 1) * 2 ^ level ≤ 2 ^ 63 := by
      rw [← Nat.pow_add]
      exact Nat.pow_le_pow_right (by decide) (by omega)
    have hplace : (beside idx + 1) * 2 ^ level ≤ 2 ^ (levels + 1) * 2 ^ level := Nat.mul_le_mul_right _ hbeside
    have hfits : beside idx * 2 ^ level + 2 ^ level < 2 ^ 64 := by
      have hnext : (beside idx + 1) * 2 ^ level = beside idx * 2 ^ level + 2 ^ level := by rw [Nat.add_mul, Nat.one_mul]
      omega
    have hsmall : 2 ^ (levels + 1) ≤ 2 ^ 63 := Nat.pow_le_pow_right (by decide) (by omega)
    have hindex : siblingIndex checks idx = .ok (beside idx) := by
      unfold siblingIndex beside
      split
      · rw [addUsize_fits (by omega)]
      · rfl
    have hhash := @siblingHash_eq P checks values zeroHashes level (beside idx) (by omega) hfits
    have hhalf : idx / 2 < 2 ^ levels := by
      rw [Nat.pow_succ] at hidx
      omega
    rw [pathLoop, hindex]
    simp only [bind, Except.bind, hhash, pure, Except.pure]
    rw [pathLoop_eq checks values zeroHashes levels (level + 1) (idx / 2) _ (by omega) hhalf]
    rfl

/-! ## The complete tree -/

variable (P)

/-- The root of the complete tree over the leaves padded with zeros. -/
def fullRoot (height : Nat) (values : List Fr) : Fr := node (poseidon2 P) (fun i => values.getD i 0) height 0

/-- The direction bits of a leaf, from the leaf up. -/
def spell (height i : Nat) : List UInt64 := (List.range height).map fun k => if i.testBit k then 1 else 0

/-- The tree over the values, and the proofs about it, are those of the complete tree, in builds with and
without overflow checks. -/
structure AgreesWithFull (height : Nat) (values : List Fr) : Prop where
  root : ∀ checks, ((SparseTree.withHeight P height).insertAll values).root P checks = .ok (fullRoot P height values)
  complete : ∀ checks i leaf, values[i]? = some leaf →
    ∃ p, ((SparseTree.withHeight P height).insertAll values).proveInclusion P checks i = .ok p ∧ p.leaf = leaf ∧
      p.pathElements.length = height ∧ p.pathIndices.length = height ∧ p.root = fullRoot P height values ∧ p.verify P = .ok true
  sound : ∀ i < values.length, ∀ p : InclusionProof, p.root = fullRoot P height values → p.pathElements.length = height →
    p.pathIndices = spell height i →
    CollisionFree (fun q : Fr × Fr => poseidon2 P q.1 q.2) ((⟨values⟩ : AuditMerkleTree height).hashedPairs P ++
      climbPairs (poseidon2 P) p.leaf (pathOf p.pathElements p.pathIndices)) →
    p.verify P = .ok true → values[i]? = some p.leaf

variable {P}

theorem sides_of_spell (hlen : elements.length = height) :
    (pathOf elements (spell height i)).map Prod.snd = (List.range height).map i.testBit := by
  have hzip : (elements.zip (spell height i)).map Prod.snd = spell height i :=
    List.map_snd_zip (by simp [spell, hlen])
  have hbits : (pathOf elements (spell height i)).map Prod.snd = (spell height i).map fun d => decide (d = 1) := by
    have hsnd : (pathOf elements (spell height i)).map Prod.snd =
        ((elements.zip (spell height i)).map Prod.snd).map fun d => decide (d = 1) := by
      rw [pathOf, List.map_map, List.map_map]
      rfl
    rw [hsnd, hzip]
  rw [hbits, spell, List.map_map]
  refine List.map_congr_left fun k _ => ?_
  show decide ((if i.testBit k then (1 : UInt64) else 0) = 1) = i.testBit k
  cases i.testBit k <;> rfl

/-- **Soundness** needs no bound on the height. -/
theorem leaf_of_verify {height i : Nat} {values : List Fr} {p : InclusionProof} (hi : i < 2 ^ height)
    (hroot : p.root = fullRoot P height values) (hlen : p.pathElements.length = height) (hspell : p.pathIndices = spell height i)
    (hfree : CollisionFree (fun q : Fr × Fr => poseidon2 P q.1 q.2) ((⟨values⟩ : AuditMerkleTree height).hashedPairs P ++
      climbPairs (poseidon2 P) p.leaf (pathOf p.pathElements p.pathIndices)))
    (hok : p.verify P = .ok true) : p.leaf = values.getD i 0 := by
  obtain ⟨_, _, hclimb⟩ := verify_iff.1 hok
  have hz : ∀ m < height, (zeros (poseidon2 P) 0 m, zeros (poseidon2 P) 0 m) ∈ (⟨values⟩ : AuditMerkleTree height).hashedPairs P ++
      climbPairs (poseidon2 P) p.leaf (pathOf p.pathElements p.pathIndices) :=
    fun m hm => List.mem_append_left _ (zeroPair_mem_hashedPairs (⟨values⟩ : AuditMerkleTree height) hm)
  have hcov := covered_subtreePairs values hz height 0 (Nat.le_refl _)
    fun q hq => List.mem_append_left _ (List.mem_append_right _ hq)
  have hsides : (pathOf p.pathElements p.pathIndices).map Prod.snd = (List.range height).map i.testBit := by
    rw [hspell]
    exact sides_of_spell hlen
  have hleaf := leaf_at_of_climb hfree hsides hi hcov (fun q hq => List.mem_append_right _ hq) (hclimb.trans hroot)
  rwa [Nat.zero_add] at hleaf

/-- **The sparse tree is the complete tree**, up to height 63 and, without leaves, at every height. -/
theorem sparse_agrees {height : Nat} {values : List Fr} (hn : values.length ≤ 2 ^ height) (hh : height ≤ 63 ∨ values = []) :
    AgreesWithFull P height values := by
  have hword : height ≤ 63 → 2 ^ height < 2 ^ 64 := fun h => Nat.pow_lt_pow_right (by decide) (by omega)
  have htree := root_eq_node (P := P) (⟨values⟩ : AuditMerkleTree height)
  refine ⟨fun checks => ?_, fun checks i leaf hleaf => ?_, fun i hi p hroot hlen hspell hfree hok => ?_⟩
  · rw [insertAll_leaves, SparseTree.root, fullRoot, ← htree, AuditMerkleTree.root]
    rcases hh with hsmall | rfl
    · have hempty : (indexed values).isEmpty = values.isEmpty := by cases values <;> rfl
      rw [hempty]
      split
      · rfl
      · exact subtreeHash_eq checks values _ height 0 hsmall (by have := hword hsmall; omega)
    · rfl
  · have hi := (List.getElem?_eq_some_iff.1 hleaf).1
    have hsmall : height ≤ 63 := by
      rcases hh with hsmall | rfl
      · exact hsmall
      · simp at hi
    have hloop := @pathLoop_eq P checks values (computeZeroHashes P height) height 0 i leaf (by omega) (by omega)
    obtain ⟨p, hp, hpleaf, _, hproot, hlen, hlen', hverify⟩ :=
      @proveInclusion_ok P height (⟨values⟩ : AuditMerkleTree height) i leaf hleaf (by omega)
    refine ⟨p, ?_, hpleaf, hlen, hlen', by rw [hproot, htree, fullRoot], hverify⟩
    rw [insertAll_leaves, SparseTree.proveInclusion, leafMap_indexed, hleaf]
    simp only [hloop, bind, Except.bind, pure, Except.pure]
    simp only [AuditMerkleTree.proveInclusion, hleaf, Except.ok.injEq] at hp
    exact congrArg Except.ok hp
  · rw [leaf_of_verify (by omega) hroot hlen hspell hfree hok, List.getD_eq_getElem _ _ hi, List.getElem?_eq_getElem hi]

end

/-- A tree of height 4 with two leaves. -/
theorem sparse_agrees_two : AgreesWithFull demoPrims 4 [1, 2] := sparse_agrees (by decide) (.inl (by decide))

/-- At height 64 the range of the root does not fit: a build with checks panics. -/
theorem sparse_overflow : ¬ AgreesWithFull demoPrims 64 [1] := by
  intro h
  have hroot := h.root true
  rw [insertAll_leaves] at hroot
  have hpanic : SparseTree.root demoPrims true ⟨64, indexed [1], computeZeroHashes demoPrims 64⟩ =
      .error (.panic "attempt to shift left with overflow") := rfl
  rw [hpanic] at hroot
  cases hroot

end Audit
