import NosqlBuddy.Desktop.CommitSpec
import NosqlBuddy.Desktop.Disclosure

/-!
# Proof bundles against the contract

`verify_inclusion` of the contract (lib.rs:724) accepts a proof against a root that is a key of `RootIndex`. The proof
commands take the path in the tree of the log as it is (mod.rs:1140), the hash of the transaction from the epoch of the
leaf, and the contract has the roots of the epochs. `bundles_verify_iff`: for a leaf of a closed epoch the three agree
exactly when the epoch is marked and the tree of today has the root that the epoch was sealed with, as it has while
nothing was recorded since.
-/

namespace Desktop
open Audit Mutation Tiling Merkle Fallible Contract

/-! ## What a bundle promises -/

/-- The root is a key of `RootIndex`. -/
def OnChain (chain : Storage) (rootHex : String) : Prop :=
  ∃ bytes, Bytes.hexDecode rootHex.toList = some bytes ∧ bytes ∈ chain.index

/-- The transaction appended an entry with the root. -/
def CommittedBy (txHash : Nat → String) (chain : Storage) (tx rootHex : String) : Prop :=
  ∃ n entry, chain.rootEntry n = some entry ∧ hexText entry.root = rootHex ∧ tx = txHash n

section
variable (P : Prims) (env : ProofEnv) (txHash : Nat → String)

/-- The settings are readable, the prover of the inclusion circuit proves the paths of full height that verify, and the
root that comes out of the disclosure circuit is the one the leaf climbs to. -/
structure ProofEnv.Faithful : Prop where
  chain : ∃ network contractId, env.chainConfig = .ok (network, contractId)
  prove : ∀ inclusion, inclusion.verify P = .ok true → inclusion.pathElements.length = 20 →
    ∃ proof, env.prove inclusion = .ok proof
  disclosure : ∀ opening inclusion statement proof, env.proveDisclosure opening inclusion statement = .ok proof →
    proof.publicRoot = climb (poseidon2 P) inclusion.leaf (pathOf inclusion.pathElements inclusion.pathIndices)

/-- Both commands give bundles for the leaf that verify on chain, and the transaction is the one of the root. -/
structure BundlesVerify (s : Desk) (i : Nat) : Prop where
  proof : ∃ r, auditGenerateProof P env s.service.world s.epochs i = .ok r ∧ OnChain s.chain r.rootHex ∧
    CommittedBy txHash s.chain r.txHash r.rootHex
  disclosure : ∀ args r, args.index = i → auditGenerateDisclosureProof P env s.service.world args = .ok r →
    OnChain s.chain r.rootHex

/-- The leaves that the path of a leaf is taken in: all of them, while there are at most `2 ^ 20`. -/
def pathLeaves (leaves : List Fr) (i : Nat) : List Fr := leaves.drop (i / 2 ^ 20 * 2 ^ 20)

end

section
variable {P : Prims} {env : ProofEnv} {txHash : Nat → String}

/-! ## The path -/

theorem node_drop (leaves : List Fr) (k : Nat) : ∀ (n i : Nat), node (poseidon2 P) (fun j => leaves.getD j 0) n (k + i) =
    node (poseidon2 P) (fun j => (leaves.drop k).getD j 0) n i
  | 0, i => by simp [node, List.getD]
  | n + 1, i => by
    rw [node, node, node_drop leaves k n i, Nat.add_assoc, node_drop leaves k n (i + 2 ^ n)]

theorem proveInclusion_root (hleaf : log.tree.leaves[i]? = some leaf) :
    ∃ p, AuditLog.proveInclusion P log i = .ok p ∧ p.verify P = .ok true ∧ p.pathElements.length = 20 ∧
      frToHex p.root = rootHex P (pathLeaves log.tree.leaves i) ∧
      climb (poseidon2 P) p.leaf (pathOf p.pathElements p.pathIndices) = p.root := by
  have hget : leaf = node (poseidon2 P) (fun i => log.tree.leaves.getD i 0) 0 (i * 2 ^ 0) := by
    rw [node, pow_zero, Nat.mul_one, List.getD, hleaf, Option.getD_some]
  obtain ⟨elements, indices, hpath, hlen, hlen', hbits, hclimb⟩ :=
    @provePath_spec P 20 log.tree.leaves 20 0 i _ (by omega) hget
  have hroot : node (poseidon2 P) (fun j => log.tree.leaves.getD j 0) 20 (i / 2 ^ 20 * 2 ^ 20) =
      (⟨pathLeaves log.tree.leaves i⟩ : AuditMerkleTree 20).root P := by
    have hdrop := node_drop (P := P) log.tree.leaves (i / 2 ^ 20 * 2 ^ 20) 20 0
    rw [Nat.add_zero] at hdrop
    rw [root_eq_node, hdrop, pathLeaves]
  rw [Nat.zero_add, hroot] at hpath hclimb
  generalize hgen : (⟨pathLeaves log.tree.leaves i⟩ : AuditMerkleTree 20).root P = root at hpath hclimb
  refine ⟨⟨leaf, i, elements, indices, root⟩, ?_, verify_iff.2 ⟨hlen.trans hlen'.symm, hbits, hclimb⟩, hlen, ?_, hclimb⟩
  · simp only [AuditLog.proveInclusion, AuditMerkleTree.proveInclusion, hleaf, hpath]
  · rw [rootHex, hgen]

/-! ## The epoch of a leaf -/

theorem tiles_le {a b : Nat} {rs : List (Range Nat)} (h : Tiles a rs b) : ∀ r ∈ rs, a ≤ r.1 := by
  induction rs generalizing a with
  | nil => simp
  | cons r rs ih =>
    obtain ⟨rfl, hle, hrest⟩ := h
    intro r' hr'
    rcases List.mem_cons.1 hr' with rfl | hr'
    · exact Nat.le_refl _
    · exact Nat.le_trans hle (ih hrest r' hr')

theorem find_holds {i : Nat} {es : List Epoch} {a b : Nat} {e : Epoch} (h : Tiles a (es.map Epoch.leafRange) b) (he : e ∈ es)
    (hi : e.holds i = true) : es.find? (Epoch.holds i) = some e := by
  induction es generalizing a with
  | nil => exact absurd he List.not_mem_nil
  | cons e0 es ih =>
    obtain ⟨_, _, hrest⟩ := h
    rcases List.mem_cons.1 he with rfl | he
    · rw [List.find?_cons, hi]
    · have hlater := tiles_le hrest _ (List.mem_map_of_mem he)
      have hcovers : e.leafRange.1 ≤ i ∧ i < e.leafRange.2 := by simpa [Epoch.holds, Range.covers] using hi
      have hnot : e0.holds i = false := by
        simp only [Epoch.holds, Range.covers, Bool.and_eq_false_iff, decide_eq_false_iff_not]
        exact .inr (by omega)
      rw [List.find?_cons, hnot]
      exact ih hrest he

theorem contains_eq_holds (i : Nat) (e : Epoch) : Epoch.contains i e = e.holds i := by
  unfold Epoch.contains Epoch.holds Epoch.leafRange Range.covers
  cases e.endIndex with
  | none => simp
  | some last => simp

theorem Laid.txHash_eq {es : EpochList} {n i : Nat} (h : Laid es n) {e : Epoch} (he : e ∈ es.earlier)
    (hi : Epoch.contains i e = true) : txHashOf es i = e.txHash.getD "" := by
  rw [contains_eq_holds] at hi
  have hfind : es.toList.find? (Epoch.contains i) = some e := by
    rw [funext (contains_eq_holds i), EpochList.toList, List.find?_append, find_holds h.adjacent he hi]
    rfl
  rw [txHashOf, hfind, Option.bind_some]

/-! ## Bundles -/

theorem mem_index_iff (hr : Represents chain l) :
    bytes ∈ chain.index ↔ ∃ (k : Nat) (entry : RootEntry), l.entries[k]? = some entry ∧ entry.root = bytes := by
  rw [← Finmap.lookup_isSome, Option.isSome_iff_exists]
  constructor
  · rintro ⟨n, hn⟩
    obtain ⟨entry, hentry, hroot⟩ := (hr.index bytes n).1 hn
    obtain ⟨k, _, hk⟩ := (CounterLog.stores_some hr.stores).1 hentry
    exact ⟨k, entry, hk, hroot⟩
  · rintro ⟨k, entry, hk, hroot⟩
    exact ⟨k + 1, (hr.index bytes (k + 1)).2 ⟨entry, (CounterLog.stores_some hr.stores).2 ⟨k, rfl, hk⟩, hroot⟩⟩

theorem onChain_iff (hr : Represents chain l) :
    OnChain chain (frToHex f) ↔ ∃ (k : Nat) (entry : RootEntry), l.entries[k]? = some entry ∧
      hexText entry.root = frToHex f := by
  have hdecode : Bytes.hexDecode (frToHex f).toList = some (toBytesBe f) := by
    rw [frToHex, String.toList_ofList, Bytes.hexDecode_hexEncode]
  constructor
  · rintro ⟨bytes, hd, hmem⟩
    obtain ⟨k, entry, hk, rfl⟩ := (mem_index_iff hr).1 hmem
    exact ⟨k, entry, hk, hexText_of_decode hd⟩
  · rintro ⟨k, entry, hk, hroot⟩
    refine ⟨toBytesBe f, hdecode, (mem_index_iff hr).2 ⟨k, entry, hk, ?_⟩⟩
    exact hex_eq_iff.1 hroot

theorem generateProof_spec (henv : env.Faithful P) {w : World} {es : EpochList} {i : Nat} {leaf : Fr}
    (hleaf : w.log.tree.leaves[i]? = some leaf) : ∃ r, auditGenerateProof P env w es i = .ok r ∧
      r.rootHex = rootHex P (pathLeaves w.log.tree.leaves i) ∧ r.txHash = txHashOf es i := by
  obtain ⟨p, hp, hverify, hlen, hroot, _⟩ := proveInclusion_root (P := P) hleaf
  obtain ⟨proof, hproof⟩ := henv.prove p hverify hlen
  obtain ⟨network, contractId, hchain⟩ := henv.chain
  refine ⟨⟨frToHex p.root, frToHex p.leaf, i, proof.proof, network, contractId, txHashOf es i⟩, ?_, hroot, rfl⟩
  simp only [auditGenerateProof, bind_ok, liftAudit_ok, pure_ok, Prod.exists]
  exact ⟨p, hp, proof, hproof, network, contractId, hchain, rfl⟩

theorem generateDisclosure_root (henv : env.Faithful P) (hok : auditGenerateDisclosureProof P env w args = .ok r) : r.rootHex = rootHex P (pathLeaves w.log.tree.leaves args.index) := by
  obtain ⟨opening, leaf, event, inclusion, proof, network, contractId, _, _, hinc, _, _, hproof, _, rfl⟩ := generate_ok.1 hok
  obtain ⟨leaf', hleaf'⟩ : ∃ leaf', w.log.tree.leaves[args.index]? = some leaf' := by
    unfold AuditLog.proveInclusion AuditMerkleTree.proveInclusion at hinc
    cases hget : w.log.tree.leaves[args.index]? with
    | none => rw [hget] at hinc; cases hinc
    | some leaf' => exact ⟨leaf', rfl⟩
  obtain ⟨p, hp, _, _, hroot, hclimb⟩ := proveInclusion_root (P := P) hleaf'
  obtain rfl : p = inclusion := Except.ok.inj (hp.symm.trans hinc)
  show frToHex proof.publicRoot = _
  rw [henv.disclosure _ _ _ _ hproof, hclimb, hroot]

/-- **Bundles in one state**: those for a leaf of a closed epoch verify exactly when the epoch is marked and the tree
has its root. -/
theorem Anchoring.bundles_iff (hs : Anchoring P txHash s l)
    (hinj : Function.Injective txHash) (hne : ∀ n, txHash n ≠ "") (henv : env.Faithful P) (he : e ∈ s.epochs.earlier) (hi : Epoch.contains i e = true) (hlast : e.endIndex = some last) :
    BundlesVerify P env txHash s i ↔ e.committed = true ∧
      rootHex P (pathLeaves s.log.tree.leaves i) = rootHex P (s.log.tree.leaves.take (last + 1)) := by
  obtain ⟨hlt, hfrozen⟩ := hs.roots e he last hlast
  have hile : i ≤ last := by
    simp only [Epoch.contains, hlast, Option.any_some, Bool.and_eq_true, decide_eq_true_eq] at hi
    exact hi.2
  obtain ⟨leaf, hget⟩ : ∃ leaf, s.service.world.log.tree.leaves[i]? = some leaf :=
    ⟨_, List.getElem?_eq_getElem (Nat.lt_of_le_of_lt hile hlt)⟩
  obtain ⟨r, hr, hroot, htx⟩ := @generateProof_spec P env henv _ s.epochs _ _ hget
  rw [hs.laid.txHash_eq he hi] at htx
  constructor
  · rintro ⟨⟨r', hr', _, n, entry', hentry', hroot', htx'⟩, _⟩
    obtain rfl : r = r' := Except.ok.inj (hr.symm.trans hr')
    cases hcommitted : e.committed with
    | false =>
      rw [hs.marked.waiting e he hcommitted, Option.getD_none] at htx
      exact absurd (htx'.symm.trans htx) (hne n)
    | true =>
      obtain ⟨k, entry, hk, heroot, hetx⟩ := hs.marked.committed e he hcommitted
      rw [hetx, Option.getD_some] at htx
      obtain rfl : n = k + 1 := hinj (htx'.symm.trans htx)
      have hsame := (CounterLog.stores_some hs.represents.stores).2 ⟨k, rfl, hk⟩
      obtain rfl : entry' = entry := Option.some.inj (hentry'.symm.trans hsame)
      refine ⟨rfl, ?_⟩
      have hshown : rootHex P (s.log.tree.leaves.take (last + 1)) = hexText entry'.root :=
        Option.some.inj (hfrozen.symm.trans heroot)
      rw [hshown, hroot']
      exact hroot.symm
  · rintro ⟨hcommitted, hsame⟩
    obtain ⟨k, entry, hk, heroot, hetx⟩ := hs.marked.committed e he hcommitted
    have hshown : hexText entry.root = rootHex P (pathLeaves s.log.tree.leaves i) := by
      rw [hsame]
      exact (Option.some.inj (hfrozen.symm.trans heroot)).symm
    have hon : OnChain s.chain (rootHex P (pathLeaves s.log.tree.leaves i)) :=
      (onChain_iff hs.represents).2 ⟨k, entry, hk, hshown⟩
    refine ⟨⟨r, hr, by rw [hroot]; exact hon, k + 1, entry, ?_, by rw [hroot]; exact hshown, ?_⟩, ?_⟩
    · exact (CounterLog.stores_some hs.represents.stores).2 ⟨k, rfl, hk⟩
    · rw [htx, hetx, Option.getD_some]
    · rintro args r' rfl hr'
      rw [generateDisclosure_root henv hr']
      exact hon

/-- **Proof bundles verify against the chain** in every state of every run exactly when the epoch of the leaf is marked
and the leaves of today have the root of the leaves up to the end of the epoch. -/
theorem bundles_verify_iff (P : Prims) (display : Oplog.Bson → String) (h : Contract.Host) (signer : Signer)
    (cfg : ChainConfig) (key : Option Bytes32) (dir : String) (config : EpochConfig) (path : Option String)
    (files : String → EpochFile) (txHash : Nat → String) (hinj : Function.Injective txHash) (hne : ∀ n, txHash n ≠ "")
    (env : ProofEnv) (henv : env.Faithful P) (chain : Contract.Storage) (l : Contract.RootLog)
    (hr : Contract.Represents chain l) (steps : List DeskStep) (i last : Nat) (e : Epoch) :
    let s := Runs.run (stepDesk P display h txHash signer cfg) (Desk.start P key dir config path files chain) steps
    e ∈ s.epochs.earlier → Epoch.contains i e = true → e.endIndex = some last →
      (BundlesVerify P env txHash s i ↔ e.committed = true ∧
        rootHex P (pathLeaves s.log.tree.leaves i) = rootHex P (s.log.tree.leaves.take (last + 1))) := by
  intro s he hi hlast
  obtain ⟨l', _, hs⟩ := @anchoring_run P display h txHash signer cfg l hne key dir config path files chain hr steps
  exact hs.bundles_iff hinj hne henv he hi hlast

end

/-! ### One committed event, and a second one -/

/-- Provers that hand back the root of the path. -/
def climbEnv : ProofEnv where
  prove := fun inclusion => .ok ⟨⟨"", "", ""⟩, inclusion.root, [inclusion.leaf]⟩
  proveDisclosure := fun _ inclusion _ => .ok ⟨⟨"", "", ""⟩,
    climb (poseidon2 demoPrims) inclusion.leaf (pathOf inclusion.pathElements inclusion.pathIndices), [inclusion.leaf]⟩
  chainConfig := .ok ("testnet", "CONTRACT")

theorem climbEnv_faithful : climbEnv.Faithful demoPrims where
  chain := ⟨_, _, rfl⟩
  prove := fun _ _ _ => ⟨_, rfl⟩
  disclosure := by
    intro opening inclusion statement proof hok
    rw [← Except.ok.inj hok]

/-- An event with leaf 5, sealed, committed and marked. -/
def firstSteps : List DeskStep := [.record (demoRecord 5) {} {}, demoCommit]

theorem run_firstSteps (s : Desk) : Runs.run stepDemo s firstSteps = commitCmd demoPrims (fun _ => "") demoHost
    demoTxHash demoSigner demoConfig none none demoReplies (some demoMark) (recordEventCmd demoPrims (demoRecord 5) {} {} s) :=
  rfl

theorem firstSteps_run : ∃ (entry : RootEntry) (l : RootLog) (e : Epoch),
    Anchoring demoPrims demoTxHash (Runs.run stepDemo demoDesk firstSteps) l ∧
    l.entries = [entry] ∧ hexText entry.root = rootHex demoPrims [5] ∧
    (Runs.run stepDemo demoDesk firstSteps).log = ((openNew demoPrims none "data").log.push demoPrims (demoEntry 5)).1 ∧
    e ∈ (Runs.run stepDemo demoDesk firstSteps).epochs.earlier ∧ Epoch.contains 0 e = true ∧ e.endIndex = some 0 ∧
    e.committed = true := by
  have hentry : (demoRecord 5).entry demoPrims none = some (demoEntry 5) := rfl
  obtain ⟨entry, l, hs, hl, hroot, hlog, hes⟩ := @first_batch demoPrims (fun _ => "") demoHost demoTxHash demoSigner
    demoConfig none "data" (fun _ => .missing) ownedChain _ _ demoTxHash_ne hentry demoReplies 100 demo_accepted
    represents_ownedChain demoMark
  rw [← run_firstSteps, ← demoDesk_eq] at hs hlog hes
  refine ⟨entry, l, Epoch.commit demoMark.now (demoTxHash 1) (firstEpoch demoPrims (demoEntry 5)), hs, hl, hroot, hlog, ?_,
    rfl, rfl, rfl⟩
  rw [hes]
  exact List.mem_singleton_self _

theorem firstSteps_leaves : (Runs.run stepDemo demoDesk firstSteps).log.tree.leaves = [5] := by
  obtain ⟨_, _, _, _, _, _, hlog, _⟩ := firstSteps_run
  rw [hlog]
  show (openNew demoPrims none "data").log.tree.leaves ++ [5] = [5]
  rw [(@filed_open demoPrims none "data").tree]
  rfl

/-- The bundles of the first event verify while it is the only one. -/
theorem first_bundles_verify :
    BundlesVerify demoPrims climbEnv demoTxHash (Runs.run stepDemo demoDesk firstSteps) 0 := by
  obtain ⟨_, _, e, _, _, _, _, he, hi, hlast, hcommitted⟩ := firstSteps_run
  have hiff := bundles_verify_iff demoPrims (fun _ => "") demoHost demoSigner demoConfig none "data" ⟨1, 0⟩ none
    (fun _ => .missing) demoTxHash demoTxHash_injective demoTxHash_ne climbEnv climbEnv_faithful ownedChain .nil
    represents_ownedChain firstSteps 0 0 e
  rw [← demoDesk_eq] at hiff
  have hleaves := firstSteps_leaves
  unfold stepDemo at he hleaves ⊢
  refine (hiff he hi hlast).2 ⟨hcommitted, ?_⟩
  rw [hleaves]
  rfl

theorem demo_roots_ne : rootHex demoPrims [5] ≠ rootHex demoPrims [5, 7] := by
  have hne : (⟨[5]⟩ : AuditMerkleTree 20).root demoPrims ≠ (⟨[5, 7]⟩ : AuditMerkleTree 20).root demoPrims := by
    decide +kernel
  exact frToHex_injective.ne hne

/-- After a second event the path of the first one leads to a root that the contract does not have. -/
theorem later_event_unverified : ∃ e, e ∈ (Runs.run stepDemo demoDesk (firstSteps ++ [.record (demoRecord 7) {} {}])).epochs.earlier ∧
    Epoch.contains 0 e = true ∧ e.committed = true ∧
    (∃ bytes, e.rootHex = some (hexText bytes) ∧
      bytes ∈ (Runs.run stepDemo demoDesk (firstSteps ++ [.record (demoRecord 7) {} {}])).chain.index) ∧
    ¬ BundlesVerify demoPrims climbEnv demoTxHash
      (Runs.run stepDemo demoDesk (firstSteps ++ [.record (demoRecord 7) {} {}])) 0 := by
  obtain ⟨entry, l, e, hs, hl, hroot, hlog, he, hi, hlast, hcommitted⟩ := firstSteps_run
  have hleaves := firstSteps_leaves
  rw [Runs.run_snoc]
  generalize Runs.run stepDemo demoDesk firstSteps = s at hs hlog he hleaves ⊢
  have hfiled := @filed_open demoPrims none "data"
  have hp : s.log.persistence = some "data" := by
    rw [hlog]
    exact hfiled.persistence
  have hentry : (demoRecord 7).entry demoPrims s.log.leafKey = some (demoEntry 7) := by
    rw [hlog]
    show (demoRecord 7).entry demoPrims (openNew demoPrims none "data").log.leafKey = _
    rw [hfiled.leafKey]
    rfl
  obtain ⟨hlog', hchain, _⟩ := recordEventCmd_ok hp hentry
  have hearlier := recordEventCmd_earlier hp hentry hs.laid.isOpen
  have hstep : stepDemo s (.record (demoRecord 7) {} {}) = recordEventCmd demoPrims (demoRecord 7) {} {} s := rfl
  rw [hstep]
  generalize recordEventCmd demoPrims (demoRecord 7) {} {} s = s' at hlog' hchain hearlier ⊢
  refine ⟨e, hearlier.subset he, hi, hcommitted, ?_, ?_⟩
  · obtain ⟨k, entry', hk, heroot, _⟩ := hs.marked.committed e he hcommitted
    exact ⟨entry'.root, heroot, hchain ▸ (mem_index_iff hs.represents).2 ⟨k, entry', hk, rfl⟩⟩
  · rintro ⟨⟨r, hr, hon, _⟩, _⟩
    have hleaves' : s'.service.world.log.tree.leaves = [5, 7] := by
      have : s'.log.tree.leaves = s.log.tree.leaves ++ [7] := by
        rw [hlog']
        rfl
      rw [hleaves] at this
      exact this
    have hget : s'.service.world.log.tree.leaves[0]? = some 5 := by rw [hleaves']; rfl
    obtain ⟨r', hr', hroot', _⟩ := @generateProof_spec demoPrims climbEnv climbEnv_faithful _ s'.epochs _ _ hget
    obtain rfl : r = r' := Except.ok.inj (hr.symm.trans hr')
    rw [hroot', hleaves', hchain] at hon
    obtain ⟨k, entry', hk, hsame⟩ := (onChain_iff hs.represents).1 hon
    rw [hl] at hk
    obtain rfl : entry' = entry := by
      cases k with
      | zero => exact (Option.some.inj hk).symm
      | succ k => cases hk
    exact demo_roots_ne (hroot.symm.trans hsame)

end Desktop
