import Mathlib.Data.Nat.ModEq
import NosqlBuddy.Desktop.ProofCommands

/-!
# The capacity of the tree

The tree of a log has 20 levels (`DEFAULT_HEIGHT`, merkle.rs:14) and room for `2 ^ 20` leaves. Neither
`insert` nor `record_inner` looks at that: a later event gets an index, a line and a leaf that no root
reads. `committed_iff`: the root commits to a recorded event exactly when there was room for its leaf.
-/

namespace Audit
open Merkle Mutation
open Desktop (AuditLog.proveInclusion)

section
variable (P : Prims)

/-- The log proves the event at the index, against its own root. -/
def Proved (log : AuditLog) (index : Nat) : Prop :=
  ∃ p, AuditLog.proveInclusion P log index = .ok p ∧ p.root = log.tree.root P ∧ p.verify P = .ok true

/-- The call that led from `w` to `w'` and returned the index changed the root, and the event is proved
from then on, whatever is recorded later. -/
structure LeafCommitted (w w' : World) (index : Nat) : Prop where
  proved : ∀ steps, Proved P (Runs.run (stepCall P) w' steps).log index
  changed : w'.log.tree.root P ≠ w.log.tree.root P

end

section
variable {P : Prims}

/-! ## Leaves stay -/

theorem leaves_stepCall (w : World) (s : CallStep) : w.log.tree.leaves <+: (stepCall P w s).log.tree.leaves := by
  rcases log_run (P := P) s.call s.io w with hsame | ⟨e, _, hlog⟩
  · rw [stepCall, hsame]
  · rw [stepCall, hlog]
    exact List.prefix_append _ _

theorem leaves_run (w : World) (steps : List CallStep) : w.log.tree.leaves <+: (Runs.run (stepCall P) w steps).log.tree.leaves := by
  induction steps generalizing w with
  | nil => exact List.prefix_rfl
  | cons s steps ih => exact (leaves_stepCall w s).trans (ih _)

theorem leaf_of_ok {c : RecordCall} {io : Io} {w w' : World} {i : Nat} (hok : exec (c.run P io) w = (.ok i, w')) :
    ∃ e, c.entry P w.log.leafKey = some e ∧ w'.log.tree.leaves = w.log.tree.leaves ++ [e.leaf] := by
  have hrun := hok
  rw [exec_run] at hrun
  cases he : c.entry P w.log.leafKey with
  | none =>
    rw [he] at hrun
    cases hrun
  | some e =>
    rw [he] at hrun
    dsimp only at hrun
    have hlog := log_recordInner (P := P) io e w
    rw [hrun] at hlog
    exact ⟨e, rfl, by rw [hlog]; rfl⟩

/-! ## Proofs and roots -/

/-- **A leaf there is room for** is proved against the root. -/
theorem proved_of_leaf (hleaf : log.tree.leaves[i]? = some leaf) (hi : i < 2 ^ 20) :
    Proved P log i := by
  obtain ⟨p, hp, _, _, hroot, _, _, hverify⟩ := proveInclusion_ok (P := P) hleaf hi
  exact ⟨p, by simp only [AuditLog.proveInclusion, hp], hroot, hverify⟩

theorem root_of_full {height : Nat} {t : AuditMerkleTree height} (hfull : 2 ^ height ≤ t.leaves.length) (leaf : Fr) :
    (⟨t.leaves ++ [leaf]⟩ : AuditMerkleTree height).root P = t.root P := by
  refine root_congr fun j hj => ?_
  rw [List.getD_append _ _ _ _ (by omega)]

theorem root_of_room {height : Nat} {t : AuditMerkleTree height} {leaf : Fr}
    (hfree : CollisionFree (fun p : Fr × Fr => poseidon2 P p.1 p.2)
      (t.hashedPairs P ++ (⟨t.leaves ++ [leaf]⟩ : AuditMerkleTree height).hashedPairs P))
    (hroom : t.leaves.length < 2 ^ height) (hleaf : leaf ≠ 0) :
    (⟨t.leaves ++ [leaf]⟩ : AuditMerkleTree height).root P ≠ t.root P := by
  intro hroot
  have hget := getD_eq_of_root_eq hfree hroot.symm t.leaves.length hroom
  rw [List.getD_eq_default _ _ (Nat.le_refl _), List.getD_append_right _ _ _ _ (Nat.le_refl _), Nat.sub_self] at hget
  exact hleaf hget.symm

/-- **A recorded event is committed exactly when the tree had room for it.** -/
theorem committed_iff {c : RecordCall} {io : Io} {w w' : World} {i : Nat} (hok : exec (c.run P io) w = (.ok i, w'))
    (hfree : CollisionFree (fun p : Fr × Fr => poseidon2 P p.1 p.2) (w.log.tree.hashedPairs P ++ w'.log.tree.hashedPairs P))
    (hleaf : ∀ e, c.entry P w.log.leafKey = some e → e.leaf ≠ 0) : LeafCommitted P w w' i ↔ w.log.leafCount < 2 ^ 20 := by
  obtain ⟨e, he, hleaves⟩ := leaf_of_ok hok
  have htree : w'.log.tree = ⟨w.log.tree.leaves ++ [e.leaf]⟩ := by rw [← hleaves]
  have hcount : w.log.leafCount = w.log.tree.leaves.length := rfl
  rw [htree] at hfree
  constructor
  · intro hcommitted
    by_contra hfull
    refine hcommitted.changed ?_
    rw [htree]
    exact root_of_full (by omega) e.leaf
  · intro hroom
    refine ⟨fun steps => ?_, ?_⟩
    · have hat : w'.log.tree.leaves[i]? = some e.leaf := by
        rw [index_run hok, hleaves, hcount, List.getElem?_append_right (Nat.le_refl _), Nat.sub_self]
        rfl
      obtain ⟨later, hlater⟩ := leaves_run (P := P) w' steps
      have hkept : (Runs.run (stepCall P) w' steps).log.tree.leaves[i]? = some e.leaf := by
        rw [← hlater, List.getElem?_append_left (List.getElem?_eq_some_iff.1 hat).1, hat]
      refine proved_of_leaf hkept ?_
      rw [index_run hok]
      exact hroom
    · rw [htree]
      exact root_of_room hfree (by omega) (hleaf e he)

end

/-! ## A full tree -/

section
variable {P : Prims}

theorem diagonal_subtreePairs : ∀ (n i : Nat), n ≤ height →
    (∀ j, i ≤ j → j < i + 2 ^ n → leaves.getD j 0 = v) →
    ∀ p ∈ subtreePairs P leaves (computeZeroHashes P height) n i, p.1 = p.2
  | 0, _, _, _, p, hp => by simp [subtreePairs] at hp
  | n + 1, i, hn, hv, p, hp => by
    have hpow : 2 ^ (n + 1) = 2 ^ n + 2 ^ n := by rw [Nat.pow_succ]; omega
    have hlow : ∀ j, i ≤ j → j < i + 2 ^ n → leaves.getD j 0 = v := fun j h1 h2 => hv j h1 (by omega)
    have hhigh : ∀ j, i + 2 ^ n ≤ j → j < i + 2 ^ n + 2 ^ n → leaves.getD j 0 = v :=
      fun j h1 h2 => hv j (by omega) (by omega)
    rw [subtreePairs] at hp
    split at hp
    · rcases List.mem_cons.1 hp with rfl | hp
      · show computeSubtreeHash P leaves _ n i = computeSubtreeHash P leaves _ n (i + 2 ^ n)
        rw [computeSubtreeHash_eq_node leaves n i (by omega), computeSubtreeHash_eq_node leaves n (i + 2 ^ n) (by omega),
          node_zeros n i hlow, node_zeros n (i + 2 ^ n) hhigh]
      · rcases List.mem_append.1 hp with hp | hp
        · exact diagonal_subtreePairs n i (by omega) hlow p hp
        · exact diagonal_subtreePairs n _ (by omega) hhigh p hp
    · simp at hp

theorem diagonal_hashedPairs {height : Nat} {t : AuditMerkleTree height} {v : Fr} (hv : ∀ j < 2 ^ height, t.leaves.getD j 0 = v) :
    ∀ p ∈ t.hashedPairs P, p.1 = p.2 := by
  intro p hp
  rcases List.mem_append.1 hp with hp | hp
  · obtain ⟨z, _, rfl⟩ := List.mem_map.1 hp
    rfl
  · exact diagonal_subtreePairs height 0 (Nat.le_refl _) (fun j _ hj => hv j (by omega)) p hp

theorem recordInner_inMemory (io : Io) (e : Entry) (hp : w.log.persistence = none) (hs : w.log.sledStore = none) :
    exec (recordInner P io e) w = (.ok w.log.leafCount, ⟨(w.log.push P e).1, w.disk⟩) := by
  have hp' : (w.log.push P e).1.persistence = none := hp
  have hs' : (w.log.push P e).1.sledStore = none := hs
  unfold recordInner
  rw [exec_bind_ok (exec_get w)]
  simp only [hp']
  rw [exec_bind_ok (exec_set _ _)]
  simp only [hs']
  rfl

end

theorem demoPoseidon_diagonal (h : poseidon2 demoPrims x x = poseidon2 demoPrims y y) : x = y := by
  have hval : ∀ z : Fr, (poseidon2 demoPrims z z).val = (z.val + 1) * 0x1000194 % frModulus := by
    intro z
    have hsum : (0 * 0x1000193 + z.val + 1) * 0x1000193 + z.val + 1 = (z.val + 1) * 0x1000194 := by omega
    simp only [poseidon2, demoPrims, textPrims, demoPoseidon, List.foldl_cons, List.foldl_nil, Fin.val_ofNat, hsum]
  have hmod := congrArg Fin.val h
  rw [hval, hval] at hmod
  have hcancel : Nat.ModEq frModulus (x.val + 1) (y.val + 1) :=
    Nat.ModEq.cancel_right_of_coprime (by decide) hmod
  have hplain : Nat.ModEq frModulus x.val y.val := Nat.ModEq.add_right_cancel' 1 hcancel
  have heq : x.val % frModulus = y.val % frModulus := hplain
  rw [Nat.mod_eq_of_lt x.isLt, Nat.mod_eq_of_lt y.isLt] at heq
  exact Fin.ext heq

/-- An insert whose leaf is one. -/
def oneCall : RecordCall := .record ⟨0, 0⟩ "rs:rs0" "insert" "shop" "orders" "[]" 1

/-- A log without files, after that insert was recorded `n` times. -/
def afterOnes (n : Nat) : World := Runs.run (stepCall demoPrims) (World.start none emptyDisk) (List.replicate n ⟨oneCall, {}⟩)

theorem afterOnes_log (n : Nat) : (afterOnes n).log.tree.leaves = List.replicate n 1 ∧ (afterOnes n).log.persistence = none ∧
    (afterOnes n).log.sledStore = none := by
  induction n with
  | zero => exact ⟨rfl, rfl, rfl⟩
  | succ n ih =>
    obtain ⟨hleaves, hp, hs⟩ := ih
    have hrun : exec (oneCall.run demoPrims {}) (afterOnes n) = _ :=
      (exec_run (P := demoPrims) oneCall {} (afterOnes n)).trans (recordInner_inMemory {} _ hp hs)
    have hnext : afterOnes (n + 1) = (exec (oneCall.run demoPrims {}) (afterOnes n)).2 := by
      unfold afterOnes
      rw [List.replicate_succ', Runs.run_snoc]
      rfl
    rw [hnext, hrun]
    refine ⟨?_, hp, hs⟩
    show (afterOnes n).log.tree.leaves ++ [1] = _
    rw [hleaves, List.replicate_succ']

theorem record_first : LeafCommitted demoPrims (afterOnes 0) (afterOnes 1) 0 := by
  obtain ⟨hleaves, hp, hs⟩ := afterOnes_log 0
  have hrun : exec (oneCall.run demoPrims {}) (afterOnes 0) = (.ok 0, afterOnes 1) :=
    (exec_run (P := demoPrims) oneCall {} (afterOnes 0)).trans (recordInner_inMemory {} _ hp hs)
  have hone : (afterOnes 1).log.tree = ⟨[1]⟩ :=
    congrArg (fun leaves => (⟨leaves⟩ : AuditMerkleTree 20)) (afterOnes_log 1).1
  have hnone : (afterOnes 0).log.tree = ⟨[]⟩ := rfl
  refine (committed_iff hrun ?_ ?_).2 (by decide)
  · rw [hone, hnone]
    decide +kernel
  · intro e he
    cases he
    show (1 : Fr) ≠ 0
    decide

/-- The tree is full: the event is recorded and no root commits to it. -/
theorem record_past_capacity : ∃ i w', exec (oneCall.run demoPrims {}) (afterOnes (2 ^ 20)) = (.ok i, w') ∧
    CollisionFree (fun p : Fr × Fr => poseidon2 demoPrims p.1 p.2)
      ((afterOnes (2 ^ 20)).log.tree.hashedPairs demoPrims ++ w'.log.tree.hashedPairs demoPrims) ∧
    (∀ e, oneCall.entry demoPrims (afterOnes (2 ^ 20)).log.leafKey = some e → e.leaf ≠ 0) ∧
    ¬ LeafCommitted demoPrims (afterOnes (2 ^ 20)) w' i := by
  obtain ⟨hleaves, hp, hs⟩ := afterOnes_log (2 ^ 20)
  generalize afterOnes (2 ^ 20) = w at hleaves hp hs ⊢
  have hrun := (exec_run (P := demoPrims) oneCall {} w).trans (recordInner_inMemory {} _ hp hs)
  refine ⟨_, _, hrun, ?_, ?_, ?_⟩
  · have hdiag : ∀ p ∈ w.log.tree.hashedPairs demoPrims ++
        (⟨w.log.tree.leaves ++ [1]⟩ : AuditMerkleTree 20).hashedPairs demoPrims, p.1 = p.2 := by
      intro p hp
      rcases List.mem_append.1 hp with hp | hp
      · refine diagonal_hashedPairs (v := 1) (fun j hj => ?_) p hp
        rw [hleaves, List.getD_replicate _ hj]
      · refine diagonal_hashedPairs (v := 1) (fun j hj => ?_) p hp
        rw [hleaves, ← List.replicate_succ', List.getD_replicate _ (by omega)]
    rintro ⟨a, a'⟩ ha ⟨b, b'⟩ hb hab
    obtain rfl : a = a' := hdiag _ ha
    obtain rfl : b = b' := hdiag _ hb
    have hsame : a = b := demoPoseidon_diagonal hab
    rw [hsame]
  · intro e he
    cases he
    show (1 : Fr) ≠ 0
    decide
  · intro hcommitted
    refine hcommitted.changed ?_
    exact root_of_full (by rw [hleaves, List.length_replicate]) _

end Audit
