import Mathlib.Tactic.NormNum.Prime
import NosqlBuddy.Audit.EventText
import NosqlBuddy.Audit.InclusionProof
import NosqlBuddy.Lib.Circomlib
import NosqlBuddy.Lib.Primality

/-!
# The circuits

`zk-spike/circuits`: a circuit is the relation between its public and its private signals that its constraints say,
with Poseidon as a function.

| here | there |
| --- | --- |
| `PublicSignals`, `ActionSignals`, `AuditedAction` | audited_action.circom:44, whose last part is the text of the former |

`merkleInclusion_iff` and `auditedAction_iff`: the private signals exist exactly when the statement holds that the
headers of the files make. `leaf_of_merkleInclusion`: only a recorded leaf or the padding has a path.
-/

/-!
## The scalar field of BN254

The modulus of `Fr` is prime (`prime_frModulus`), so that a product of field elements is zero only when a factor is.
-/

namespace Audit
open Primality

/-! ### The large factors below the modulus -/

theorem generated :
    Generates 639533339 2 [2, 229, 853, 1637] ∧
    Generates 65865678001877903 5 [2, 83, 379, 1637, 639533339] ∧
    Generates 13818364434197438864469338081 3 [2, 2, 2, 2, 2, 5, 823, 1593227, 65865678001877903] ∧
    Generates 12048837557 2 [2, 2, 7, 7, 661, 93001] ∧
    Generates 5156902474397 2 [2, 2, 107, 12048837557] ∧
    Generates 1670836401704629 2 [2, 2, 3, 3, 3, 3, 5156902474397] ∧
    Generates 405928799 22 [2, 11, 3691, 4999] ∧
    Generates frModulus 5 (List.replicate 28 2 ++ [3, 3, 13, 29, 983, 11003, 237073, 405928799, 1670836401704629,
      13818364434197438864469338081]) := by
  decide +kernel

theorem prime_639533339 : Nat.Prime 639533339 := by
  refine prime_of_generates _ _ generated.1 ?_
  norm_num

theorem prime_65865678001877903 : Nat.Prime 65865678001877903 := by
  refine prime_of_generates _ _ generated.2.1 ?_
  simp only [List.forall_mem_cons, prime_639533339]
  norm_num

theorem prime_13818364434197438864469338081 : Nat.Prime 13818364434197438864469338081 := by
  refine prime_of_generates _ _ generated.2.2.1 ?_
  simp only [List.forall_mem_cons, prime_65865678001877903]
  norm_num

theorem prime_12048837557 : Nat.Prime 12048837557 := by
  refine prime_of_generates _ _ generated.2.2.2.1 ?_
  norm_num

theorem prime_5156902474397 : Nat.Prime 5156902474397 := by
  refine prime_of_generates _ _ generated.2.2.2.2.1 ?_
  simp only [List.forall_mem_cons, prime_12048837557]
  norm_num

theorem prime_1670836401704629 : Nat.Prime 1670836401704629 := by
  refine prime_of_generates _ _ generated.2.2.2.2.2.1 ?_
  simp only [List.forall_mem_cons, prime_5156902474397]
  norm_num

theorem prime_405928799 : Nat.Prime 405928799 := by
  refine prime_of_generates _ _ generated.2.2.2.2.2.2.1 ?_
  norm_num

/-! ### The modulus -/

theorem prime_frModulus : frModulus.Prime := by
  refine prime_of_generates _ _ generated.2.2.2.2.2.2.2 ?_
  simp only [List.forall_mem_append, List.forall_mem_cons, prime_405928799, prime_1670836401704629,
    prime_13818364434197438864469338081]
  norm_num

/-! ### Products -/

open Fin.CommRing

instance : NoZeroDivisors Fr where
  eq_zero_or_eq_zero_of_mul_eq_zero {a b} h := by
    have hval : a.val * b.val % frModulus = 0 := congrArg Fin.val h
    rcases (Nat.Prime.dvd_mul prime_frModulus).1 (Nat.dvd_of_mod_eq_zero hval) with hdvd | hdvd
    · exact .inl (Fin.ext (Nat.eq_zero_of_dvd_of_lt hdvd a.isLt))
    · exact .inr (Fin.ext (Nat.eq_zero_of_dvd_of_lt hdvd b.isLt))

end Audit

namespace Circuits
open Audit Merkle Circomlib
open Fin.CommRing

/-! ## Merkle paths -/

/-- The arrays of signals of a path. -/
structure PathSignals where
  pathElements : Nat → Fr
  pathIndices : Nat → Fr
  levelHash : Nat → Fr
  lhTimesIdx : Nat → Fr
  peTimesIdx : Nat → Fr
  left : Nat → Fr
  right : Nat → Fr

section
variable (P : Prims)

/-- The constraints of one pass of the loop. -/
structure Level (w : PathSignals) (i : Nat) : Prop where
  bit : w.pathIndices i * (w.pathIndices i - 1) = 0
  lhTimesIdx : w.lhTimesIdx i = w.levelHash i * w.pathIndices i
  peTimesIdx : w.peTimesIdx i = w.pathElements i * w.pathIndices i
  left : w.left i = w.levelHash i - w.lhTimesIdx i + w.peTimesIdx i
  right : w.right i = w.lhTimesIdx i + w.pathElements i - w.peTimesIdx i
  levelHash : w.levelHash (i + 1) = P.poseidon [w.left i, w.right i]

structure MerkleInclusion (height : Nat) (root leaf : Fr) (w : PathSignals) : Prop where
  start : w.levelHash 0 = leaf
  levels : ∀ i < height, Level P w i
  stop : root = w.levelHash height

/-! ## Disclosure -/

structure PublicSignals where
  root : Fr
  leaf : Fr
  opPred : Fr
  collPred : Fr
  tsMin : Fr
  tsMax : Fr
  checkOp : Fr
  checkColl : Fr
  checkTs : Fr

/-- The private inputs, the signals of the three components and `inRange`. -/
structure ActionSignals where
  key : Fr
  opH : Fr
  dbH : Fr
  collH : Fr
  ts : Fr
  docH : Fr
  salt : Fr
  tsBits : Nat → Fr
  geMinBits : Nat → Fr
  geMin : Fr
  leMaxBits : Nat → Fr
  leMax : Fr
  inRange : Fr
  path : PathSignals

structure AuditedAction (height : Nat) (pub : PublicSignals) (w : ActionSignals) : Prop where
  commit : P.poseidon [w.key, w.opH, w.dbH, w.collH, w.ts, w.docH, w.salt] = pub.leaf
  checkOp : pub.checkOp * (pub.checkOp - 1) = 0
  checkColl : pub.checkColl * (pub.checkColl - 1) = 0
  checkTs : pub.checkTs * (pub.checkTs - 1) = 0
  operation : pub.checkOp * (w.opH - pub.opPred) = 0
  collection : pub.checkColl * (w.collH - pub.collPred) = 0
  tsBits : Num2Bits 64 w.ts w.tsBits
  geMin : GreaterEqThan 64 w.ts pub.tsMin w.geMinBits w.geMin
  leMax : LessEqThan 64 w.ts pub.tsMax w.leMaxBits w.leMax
  inRange : w.inRange = w.geMin * w.leMax
  timestamp : pub.checkTs * (1 - w.inRange) = 0
  path : MerkleInclusion P height pub.root pub.leaf w.path

/-! ## The statements -/

/-- Some siblings and direction bits of `height` levels make `verify` accept. -/
def HasPath (height : Nat) (root leaf : Fr) : Prop :=
  ∃ (pathElements : List Fr) (pathIndices : List UInt64) (leafIndex : Nat), pathElements.length = height ∧
    pathIndices.length = height ∧ (⟨leaf, leafIndex, pathElements, pathIndices, root⟩ : InclusionProof).verify P = .ok true

/-- The opening is of the leaf, and the enabled checks hold of it. -/
structure Discloses (pub : PublicSignals) (o : LeafOpening) : Prop where
  leaf : P.poseidon o.toInputs = pub.leaf
  operation : pub.checkOp = 1 → o.opH = pub.opPred
  collection : pub.checkColl = 1 → o.collH = pub.collPred
  timestamp : pub.checkTs = 1 → pub.tsMin.val ≤ o.ts.toNat ∧ o.ts.toNat ≤ pub.tsMax.val

/-- The flags are bits. -/
structure FlagsFit (pub : PublicSignals) : Prop where
  checkOp : pub.checkOp = 0 ∨ pub.checkOp = 1
  checkColl : pub.checkColl = 0 ∨ pub.checkColl = 1
  checkTs : pub.checkTs = 0 ∨ pub.checkTs = 1

end

/-! ## Paths and signals -/

namespace PathSignals

/-- The path of the first `n` levels. -/
def path (w : PathSignals) (n : Nat) : List (Fr × Bool) :=
  (List.range n).map fun i => (w.pathElements i, decide (w.pathIndices i = 1))

/-- The pairs hashed in the first `n` levels. -/
def pairs (w : PathSignals) (n : Nat) : List (Fr × Fr) := (List.range n).map fun i => (w.left i, w.right i)

/-- The signals of a leaf that climbs along a path. -/
def climbing (P : Prims) (leaf : Fr) (path : List (Fr × Bool)) : PathSignals :=
  let pathElements := fun i => (path.getD i (0, false)).1
  let pathIndices := fun i => if (path.getD i (0, false)).2 then (1 : Fr) else 0
  let levelHash := fun i => climb (poseidon2 P) leaf (path.take i)
  { pathElements := pathElements
    pathIndices := pathIndices
    levelHash := levelHash
    lhTimesIdx := fun i => levelHash i * pathIndices i
    peTimesIdx := fun i => pathElements i * pathIndices i
    left := fun i => levelHash i - levelHash i * pathIndices i + pathElements i * pathIndices i
    right := fun i => levelHash i * pathIndices i + pathElements i - pathElements i * pathIndices i }

end PathSignals

section
variable {P : Prims} {w : PathSignals}

theorem Level.pair_eq (h : Level P w i) :
    (w.left i, w.right i) = upPair (w.levelHash i) (w.pathElements i, decide (w.pathIndices i = 1)) := by
  rcases bit_iff.1 h.bit with h0 | h1
  · have hne : ¬ (0 : Fr) = 1 := by decide
    rw [h.left, h.right, h.lhTimesIdx, h.peTimesIdx, h0, upPair]
    simp [hne]
  · rw [h.left, h.right, h.lhTimesIdx, h.peTimesIdx, h1, upPair]
    simp

theorem levels_climb (h : ∀ i < n, Level P w i) : w.levelHash n = climb (poseidon2 P) (w.levelHash 0) (w.path n) ∧
    climbPairs (poseidon2 P) (w.levelHash 0) (w.path n) = w.pairs n := by
  induction n with
  | zero => exact ⟨rfl, rfl⟩
  | succ n ih =>
    obtain ⟨hhash, hpairs⟩ := ih fun i hi => h i (by omega)
    have hlevel := h n (by omega)
    have hpair := hlevel.pair_eq
    rw [PathSignals.path, PathSignals.pairs, List.range_succ, List.map_append, List.map_append, List.map_singleton,
      List.map_singleton, ← PathSignals.path, ← PathSignals.pairs, climb_concat, climbPairs_concat, hpairs, ← hhash, ← hpair,
      up, ← hpair, hlevel.levelHash]
    exact ⟨rfl, rfl⟩

theorem level_climbing (leaf : Fr) (hi : i < path.length) :
    Level P (.climbing P leaf path) i := by
  have hget : path.getD i (0, false) = path[i] := List.getD_eq_getElem _ _ hi
  refine ⟨?_, rfl, rfl, rfl, rfl, ?_⟩
  · rw [bit_iff]
    simp only [PathSignals.climbing]
    split
    · exact .inr rfl
    · exact .inl rfl
  · have htake : path.take (i + 1) = path.take i ++ [path[i]] := by rw [List.take_succ_eq_append_getElem hi]
    simp only [PathSignals.climbing, htake, climb_concat, up, hget, poseidon2]
    cases hside : path[i].2 with
    | false => simp [upPair, hside]
    | true => simp [upPair, hside]

/-! ## Soundness and completeness of the path -/

/-- A signal that is a bit, as the direction of a proof. -/
def direction (x : Fr) : UInt64 := if x = 1 then 1 else 0

theorem MerkleInclusion.hasPath (h : MerkleInclusion P height root leaf w) :
    HasPath P height root leaf := by
  have hpath : pathOf ((List.range height).map w.pathElements) ((List.range height).map fun i => direction (w.pathIndices i)) =
      w.path height := by
    rw [pathOf, PathSignals.path, List.zip_map', List.map_map]
    refine List.map_congr_left fun i _ => ?_
    by_cases hone : w.pathIndices i = 1
    · simp [direction, hone]
    · simp [direction, hone]
  refine ⟨(List.range height).map w.pathElements, (List.range height).map fun i => direction (w.pathIndices i), 0,
    by simp, by simp, verify_iff.2 ⟨by simp, ?_, ?_⟩⟩
  · intro d hd
    obtain ⟨i, _, rfl⟩ := List.mem_map.1 hd
    simp only [direction]
    split
    · exact .inr rfl
    · exact .inl rfl
  · show climb (poseidon2 P) leaf (pathOf _ _) = root
    rw [hpath, h.stop, (levels_climb h.levels).1, h.start]

theorem merkleInclusion_climbing {height : Nat} {root leaf : Fr} {path : List (Fr × Bool)} (hlen : path.length = height)
    (hroot : climb (poseidon2 P) leaf path = root) : MerkleInclusion P height root leaf (.climbing P leaf path) := by
  refine ⟨rfl, fun i hi => level_climbing leaf (by omega), ?_⟩
  rw [← hroot]
  simp only [PathSignals.climbing]
  rw [List.take_of_length_le (by omega)]

theorem exists_merkleInclusion (h : HasPath P height root leaf) :
    ∃ w, MerkleInclusion P height root leaf w := by
  obtain ⟨elements, indices, leafIndex, hlen, hlen', hverify⟩ := h
  exact ⟨_, merkleInclusion_climbing (by simp [pathOf, hlen, hlen']) (verify_iff.1 hverify).2.2⟩

/-- **The path circuit** has a satisfying assignment exactly when `verify` accepts some path. -/
theorem merkleInclusion_iff :
    (∃ w, MerkleInclusion P height root leaf w) ↔ HasPath P height root leaf :=
  ⟨fun ⟨_, h⟩ => h.hasPath, exists_merkleInclusion⟩

theorem leaf_of_merkleInclusion {height : Nat} {t : AuditMerkleTree height} (hfull : t.leaves.length ≤ 2 ^ height) {leaf : Fr}
    (h : MerkleInclusion P height (t.root P) leaf w)
    (hfree : CollisionFree (fun p : Fr × Fr => poseidon2 P p.1 p.2) (t.hashedPairs P ++ w.pairs height)) :
    leaf ∈ t.leaves ∨ (t.leaves.length < 2 ^ height ∧ leaf = 0) := by
  obtain ⟨hhash, hpairs⟩ := levels_climb h.levels
  rw [h.start] at hhash hpairs
  have hcovered := @covered_subtreePairs P height t.leaves _
    (fun m hm => List.mem_append_left (w.pairs height) (zeroPair_mem_hashedPairs t hm)) height 0 (Nat.le_refl _)
    fun p hp => List.mem_append_left _ (List.mem_append_right _ hp)
  have hroot : climb (poseidon2 P) leaf (w.path height) = node (poseidon2 P) (fun i => t.leaves.getD i 0) height 0 := by
    rw [← hhash, ← h.stop, root_eq_node]
  obtain ⟨j, _, hj, hleaf⟩ := leaf_of_climb hfree (by simp [PathSignals.path]) hcovered
    (fun p hp => List.mem_append_right _ (by rw [← hpairs]; exact hp)) hroot
  by_cases hlt : j < t.leaves.length
  · rw [List.getD_eq_getElem _ _ hlt] at hleaf
    exact .inl (hleaf ▸ List.getElem_mem hlt)
  · rw [List.getD_eq_default _ _ (by omega)] at hleaf
    exact .inr ⟨by omega, hleaf⟩

/-! ## Soundness and completeness of the disclosure -/

theorem fits_fr : Fits Fr 65 := by
  intro a b ha hb hab
  have hbig : 2 ^ 65 < frModulus := by decide
  have hval := congrArg Fin.val hab
  rw [Fin.val_natCast, Fin.val_natCast, Nat.mod_eq_of_lt (by omega), Nat.mod_eq_of_lt (by omega)] at hval
  exact hval

theorem frOfU64_eq (ts : UInt64) : frOfU64 ts = (ts.toNat : Fr) := rfl

theorem natCast_val (x : Fr) : ((x.val : Nat) : Fr) = x := Fin.cast_val_eq_self x

theorem geMin_iff (hmin : tsMin.val < 2 ^ 64) :
    (∃ bits, GreaterEqThan 64 (frOfU64 ts) tsMin bits out) ↔ out = if tsMin.val ≤ ts.toNat then 1 else 0 := by
  have hlt := ts.toNat_lt
  have hiff := @lessThan_iff Fr _ _ 64 tsMin.val (ts.toNat + 1) fits_fr hmin (by omega) out
  rw [natCast_val, Nat.cast_add, Nat.cast_one] at hiff
  simp only [Nat.lt_succ_iff] at hiff
  exact hiff

theorem leMax_iff (hmax : tsMax.val < 2 ^ 64) :
    (∃ bits, LessEqThan 64 (frOfU64 ts) tsMax bits out) ↔ out = if ts.toNat ≤ tsMax.val then 1 else 0 := by
  have hlt := ts.toNat_lt
  have hiff := @lessThan_iff Fr _ _ 64 ts.toNat (tsMax.val + 1) fits_fr hlt (by omega) out
  rw [Nat.cast_add, Nat.cast_one, natCast_val] at hiff
  simp only [Nat.lt_succ_iff] at hiff
  exact hiff

theorem enabled_iff {flag x y : Fr} (hflag : flag = 0 ∨ flag = 1) : flag * (x - y) = 0 ↔ (flag = 1 → x = y) := by
  have hne : ¬ (0 : Fr) = 1 := by decide
  rcases hflag with rfl | rfl
  · simp [hne]
  · rw [one_mul, sub_eq_zero]
    simp

theorem AuditedAction.discloses {height : Nat} {pub : PublicSignals} {w : ActionSignals} (h : AuditedAction P height pub w)
    (hmin : pub.tsMin.val < 2 ^ 64) (hmax : pub.tsMax.val < 2 ^ 64) : FlagsFit pub ∧ ∃ o, Discloses P pub o := by
  have hflags : FlagsFit pub := ⟨bit_iff.1 h.checkOp, bit_iff.1 h.checkColl, bit_iff.1 h.checkTs⟩
  obtain ⟨v, hv, hts⟩ := num2Bits_iff.1 ⟨_, h.tsBits⟩
  obtain ⟨ts, hts'⟩ : ∃ ts : UInt64, w.ts = frOfU64 ts := by
    refine ⟨UInt64.ofNat v, ?_⟩
    rw [hts, frOfU64_eq, UInt64.toNat_ofNat_of_lt' hv]
  have hge := (geMin_iff hmin).1 ⟨_, hts' ▸ h.geMin⟩
  have hle := (leMax_iff hmax).1 ⟨_, hts' ▸ h.leMax⟩
  refine ⟨hflags, ⟨w.key, w.opH, w.dbH, w.collH, ts, w.docH, w.salt⟩, ?_, (enabled_iff hflags.checkOp).1 h.operation,
    (enabled_iff hflags.checkColl).1 h.collection, fun hcheck => ?_⟩
  · rw [LeafOpening.toInputs, ← hts']
    exact h.commit
  · have hrange := (enabled_iff hflags.checkTs).1 h.timestamp hcheck
    have hne : ¬ (1 : Fr) = 0 := by decide
    rw [h.inRange, hge, hle] at hrange
    by_cases h1 : pub.tsMin.val ≤ ts.toNat
    · by_cases h2 : ts.toNat ≤ pub.tsMax.val
      · exact ⟨h1, h2⟩
      · simp [h2, hne] at hrange
    · simp [h1, hne] at hrange

theorem exists_auditedAction {height : Nat} {pub : PublicSignals} (hmin : pub.tsMin.val < 2 ^ 64) (hmax : pub.tsMax.val < 2 ^ 64)
    (hflags : FlagsFit pub) (hpath : HasPath P height pub.root pub.leaf) {o : LeafOpening} (ho : Discloses P pub o) :
    ∃ w, AuditedAction P height pub w := by
  obtain ⟨path, hpath⟩ := exists_merkleInclusion hpath
  obtain ⟨tsBits, htsBits⟩ := num2Bits_iff.2 ⟨o.ts.toNat, o.ts.toNat_lt, frOfU64_eq o.ts⟩
  obtain ⟨ge, hge⟩ : ∃ ge : Fr, ge = if pub.tsMin.val ≤ o.ts.toNat then 1 else 0 := ⟨_, rfl⟩
  obtain ⟨le, hle⟩ : ∃ le : Fr, le = if o.ts.toNat ≤ pub.tsMax.val then 1 else 0 := ⟨_, rfl⟩
  obtain ⟨geBits, hgeBits⟩ := (geMin_iff hmin).2 hge
  obtain ⟨leBits, hleBits⟩ := (leMax_iff hmax).2 hle
  refine ⟨⟨o.key, o.opH, o.dbH, o.collH, frOfU64 o.ts, o.docH, o.salt, tsBits, geBits, ge, leBits, le, ge * le, path⟩,
    ho.leaf, bit_iff.2 hflags.checkOp, bit_iff.2 hflags.checkColl, bit_iff.2 hflags.checkTs,
    (enabled_iff hflags.checkOp).2 ho.operation, (enabled_iff hflags.checkColl).2 ho.collection, htsBits, hgeBits,
    hleBits, rfl, ?_, hpath⟩
  refine (enabled_iff hflags.checkTs).2 fun hcheck => ?_
  obtain ⟨h1, h2⟩ := ho.timestamp hcheck
  rw [hge, hle, if_pos h1, if_pos h2, one_mul]

/-- **The circuits prove exactly the statement**, and with a collision-free Poseidon only recorded leaves and the
padding of a tree that is not full have proofs. -/
theorem circuits_exact (P : Prims) :
    (∀ root leaf, (∃ w, MerkleInclusion P 20 root leaf w) ↔ HasPath P 20 root leaf) ∧
    (∀ pub : PublicSignals, pub.tsMin.val < 2 ^ 64 → pub.tsMax.val < 2 ^ 64 → ((∃ w, AuditedAction P 20 pub w) ↔
      FlagsFit pub ∧ HasPath P 20 pub.root pub.leaf ∧ ∃ o, Discloses P pub o)) ∧
    (∀ t : AuditMerkleTree 20, t.leaves.length ≤ 2 ^ 20 → ∀ leaf (w : PathSignals),
      (MerkleInclusion P 20 (t.root P) leaf w ∨
        ∃ pub v, AuditedAction P 20 pub v ∧ pub.root = t.root P ∧ pub.leaf = leaf ∧ v.path = w) →
      CollisionFree (fun p : Fr × Fr => poseidon2 P p.1 p.2) (t.hashedPairs P ++ w.pairs 20) →
      leaf ∈ t.leaves ∨ (t.leaves.length < 2 ^ 20 ∧ leaf = 0)) := by
  refine ⟨fun root leaf => merkleInclusion_iff, fun pub hmin hmax => ⟨?_, ?_⟩, fun t hfull leaf w h hfree => ?_⟩
  · rintro ⟨w, h⟩
    obtain ⟨hflags, ho⟩ := h.discloses hmin hmax
    exact ⟨hflags, h.path.hasPath, ho⟩
  · rintro ⟨hflags, hpath, o, ho⟩
    exact exists_auditedAction hmin hmax hflags hpath ho
  · rcases h with h | ⟨pub, v, h, hroot, rfl, rfl⟩
    · exact leaf_of_merkleInclusion hfull h hfree
    · exact leaf_of_merkleInclusion hfull (hroot ▸ h.path) hfree

end

/-! ### A tree of one leaf -/

def demoOpening : LeafOpening := ⟨1, 2, 3, 4, 100, 5, 6⟩

def demoTree : AuditMerkleTree 20 := ⟨[demoPrims.poseidon demoOpening.toInputs]⟩

/-- Operation and time are checked. -/
def demoPublic : PublicSignals := ⟨demoTree.root demoPrims, demoPrims.poseidon demoOpening.toInputs, 2, 0, 50, 200, 1, 0, 1⟩

/-- The path of the first leaf, beside empty subtrees. -/
def demoPath : List (Fr × Bool) := (List.range 20).map fun i => (zeros (poseidon2 demoPrims) 0 i, false)

/-- The leaf is disclosed, and the assignments prove that it was recorded. -/
theorem demo_leaf_disclosed : (∃ w, AuditedAction demoPrims 20 demoPublic w) ∧
    MerkleInclusion demoPrims 20 (demoTree.root demoPrims) (demoPrims.poseidon demoOpening.toInputs)
      (.climbing demoPrims (demoPrims.poseidon demoOpening.toInputs) demoPath) ∧
    (demoPrims.poseidon demoOpening.toInputs ∈ demoTree.leaves ∨
      (demoTree.leaves.length < 2 ^ 20 ∧ demoPrims.poseidon demoOpening.toInputs = 0)) := by
  have hinclusion := @merkleInclusion_climbing demoPrims 20 (demoTree.root demoPrims) (demoPrims.poseidon demoOpening.toInputs)
    demoPath (by decide) (by decide +kernel)
  have hflags : FlagsFit demoPublic := ⟨.inr rfl, .inl rfl, .inr rfl⟩
  have hdiscloses : Discloses demoPrims demoPublic demoOpening := ⟨rfl, fun _ => rfl, fun h => absurd h (by decide), fun _ => by decide⟩
  exact ⟨((circuits_exact demoPrims).2.1 demoPublic (by decide) (by decide)).2 ⟨hflags, hinclusion.hasPath, _, hdiscloses⟩,
    hinclusion, (circuits_exact demoPrims).2.2 demoTree (by decide) _ _ (.inl hinclusion) (by decide +kernel)⟩

end Circuits
