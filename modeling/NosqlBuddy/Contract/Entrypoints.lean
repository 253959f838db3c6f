import NosqlBuddy.Contract.Storage

/-!
# The commitment contract: entrypoints

Every public function of `#[contractimpl] impl ZkAuditCommitment` (lib.rs:270-1031) and the helpers
it uses, in source order. An entrypoint takes the storage it finds and returns the storage it
leaves together with its answer; a `Failure` carries no storage, because the host discards every
write of an invocation that returns an error or traps.

The root-commit text is written out twice in the source, in `commit_root` (lib.rs:346-389) and in
`commit_root_with_oplog` (lib.rs:429-468); the two copies are the same and are `appendRoot` here.
What differs is what stands in front of it: `commit_root` loads the admin and requires its
signature, `commit_root_with_oplog` only validates the oplog arguments.
-/

namespace Contract

/-! ## Helpers -/

/-- lib.rs:1035 -/
def getAdminOrErr (s : Storage) : Except Failure Address := okOr s.admin .notInitialized

/-- lib.rs:1042 -/
def getAdminOrPanic (s : Storage) : Except Failure Address := orTrap s.admin

/-- `BytesN::<n>::try_from_val`. -/
def toBytesN (n : Nat) (b : Bytes) : Option (BytesN n) := if h : b.length = n then some ⟨b, h⟩ else none

/-- lib.rs:1048 -/
def frFromBytes32 (h : Host) (bytes : Bytes) : Except Failure h.Fr := do
  let n32 ← okOr (toBytesN 32 bytes) .invalidProofEncoding
  return h.frFromBytes n32

/-- The 32-byte big-endian form of a `u64` (lib.rs:1058-1060). -/
def u64ToBytes32 (value : UInt64) : BytesN 32 :=
  ⟨List.replicate 24 0 ++ toBeBytes value, by simp [toBeBytes]⟩

/-- lib.rs:1058 -/
def frFromU64 (h : Host) (value : UInt64) : h.Fr := h.frFromBytes (u64ToBytes32 value)

/-- lib.rs:1134; the `unwrap` traps on a wrong length -/
def g1FromBytes (h : Host) (bytes : Bytes) : Except Failure h.G1 :=
  orTrap ((toBytesN 64 bytes).map h.g1FromBytes)

/-- lib.rs:1141 -/
def g2FromBytes (h : Host) (bytes : Bytes) : Except Failure h.G2 :=
  orTrap ((toBytesN 128 bytes).map h.g2FromBytes)

/-- One round of the `vk_x` loop (lib.rs:1114-1119). -/
def vkXStep (h : Host) (vkX : h.G1) (p : Bytes × h.Fr) : Except Failure h.G1 := do
  let icPoint ← g1FromBytes h p.1
  let prod ← orTrap (h.g1Mul icPoint p.2)
  orTrap (h.g1Add vkX prod)

/-- lib.rs:1067 -/
def groth16Verify (h : Host) (vk : VerifyingKey) (proof : Proof) (pubSignals : List h.Fr) :
    Except Failure Unit := do
  if proof.a.length ≠ 64 ∨ proof.c.length ≠ 64 then throw (.err .invalidProofEncoding)
  if proof.b.length ≠ 128 then throw (.err .invalidProofEncoding)
  if vk.alpha.length ≠ 64 then throw (.err .invalidProofEncoding)
  if vk.beta.length ≠ 128 ∨ vk.gamma.length ≠ 128 ∨ vk.delta.length ≠ 128 then
    throw (.err .invalidProofEncoding)
  if ∃ icPoint ∈ vk.ic, icPoint.length ≠ 64 then throw (.err .invalidProofEncoding)
  if vk.ic.length ≠ pubSignals.length + 1 then throw (.err .malformedVerifyingKey)
  let a ← g1FromBytes h proof.a
  let b ← g2FromBytes h proof.b
  let c ← g1FromBytes h proof.c
  let alpha ← g1FromBytes h vk.alpha
  let beta ← g2FromBytes h vk.beta
  let gamma ← g2FromBytes h vk.gamma
  let delta ← g2FromBytes h vk.delta
  let ic0 ← orTrap vk.ic.head?
  let vkX0 ← g1FromBytes h ic0
  let vkX ← (vk.ic.tail.zip pubSignals).foldlM (vkXStep h) vkX0
  let ok ← orTrap (h.pairingCheck [h.g1Neg a, alpha, vkX, c] [b, beta, gamma, delta])
  if ¬ ok then throw (.err .verificationFailed)

/-! ## Administration -/

/-- `initialize` (lib.rs:280). -/
def initializeContract (ctx : Ctx) (admin : Address) (vk : VerifyingKey) (s : Storage) :
    Except Failure Storage := do
  if s.admin.isSome then throw .trap
  requireAuth ctx admin
  return { s with admin := some admin, sequence := some 0, threshold := some 1, verifyingKey := some vk }

/-- lib.rs:294 -/
def getVerifyingKey (s : Storage) : Except Failure VerifyingKey := okOr s.verifyingKey .notInitialized

/-- lib.rs:302 -/
def setAdmin (ctx : Ctx) (newAdmin : Address) (s : Storage) : Except Failure Storage := do
  let admin ← getAdminOrPanic s
  requireAuth ctx admin
  return { s with admin := some newAdmin }

/-- lib.rs:309 -/
def getAdmin (s : Storage) : Except Failure Address := getAdminOrErr s

/-- lib.rs:316 -/
def setThreshold (ctx : Ctx) (threshold : Nat) (s : Storage) : Except Failure Storage := do
  let admin ← getAdminOrErr s
  requireAuth ctx admin
  if threshold < 1 then throw (.err .invalidThreshold)
  return { s with threshold := some threshold }

/-- lib.rs:330 -/
def getThreshold (s : Storage) : Nat := s.threshold.getD 1

/-! ## Root commits -/

/-- The storage after `entry` was appended to the root log. -/
def Storage.pushRoot (s : Storage) (entry : RootEntry) : Storage :=
  { s with
    sequence := some entry.sequence
    rootEntry := Function.update s.rootEntry entry.sequence (some entry)
    rootIndex := some (s.index.insert entry.root entry.sequence)
    currentRoot := some entry.sequence }

/-- The root-commit text both commit entrypoints contain (lib.rs:346-389, 429-468). -/
def appendRoot (ctx : Ctx) (root : Bytes) (metadata : String) (s : Storage) :
    Except Failure (Storage × RootEntry) := do
  if root ∈ s.index then throw (.err .rootAlreadyCommitted)
  let sequence ← checkedSucc s.seqOr0
  let entry : RootEntry := { sequence, root, timestamp := ctx.timestamp, metadata }
  return (s.pushRoot entry, entry)

/-- lib.rs:338 -/
def commitRoot (ctx : Ctx) (root : Bytes) (metadata : String) (s : Storage) :
    Except Failure (Storage × Nat) := do
  let admin ← getAdminOrErr s
  requireAuth ctx admin
  let (s, entry) ← appendRoot ctx root metadata s
  return (s.publish (.commitRoot entry.sequence root entry.timestamp metadata), entry.sequence)

def Storage.setOplog (s : Storage) (sequence : Nat) (oplog : OplogCommitment) : Storage :=
  { s with oplogCommitment := Function.update s.oplogCommitment sequence (some oplog) }

/-- lib.rs:410; no `require_auth` -/
def commitRootWithOplog (ctx : Ctx) (root : Bytes) (oplog : OplogCommitment) (metadata : String)
    (s : Storage) : Except Failure (Storage × Nat) := do
  if oplog.oplogRoot.length ≠ 32 then throw (.err .invalidOplogRoot)
  if oplog.oplogEndTs < oplog.oplogStartTs then throw (.err .invalidTimestampRange)
  let (s, entry) ← appendRoot ctx root metadata s
  let s := s.setOplog entry.sequence oplog
  let s := s.publish (.commitRoot entry.sequence root entry.timestamp metadata)
  let s := s.publish (.commitOplog entry.sequence oplog.oplogRoot oplog.oplogEndTs oplog.oplogEntryCount)
  return (s, entry.sequence)

/-- lib.rs:499 -/
def getOplogCommitment (sequence : Nat) (s : Storage) : Except Failure OplogCommitment :=
  okOr (s.oplogCommitment sequence) .oplogCommitmentNotFound

/-! ## Attestation -/

/-- lib.rs:512 -/
def authorizeAttester (ctx : Ctx) (attester : Address) (publicKey : BytesN 32) (s : Storage) :
    Except Failure Storage := do
  let admin ← getAdminOrPanic s
  requireAuth ctx admin
  return { s with authorizedAttesters := some (s.attesters.insert attester publicKey) }

/-- lib.rs:529 -/
def revokeAttester (ctx : Ctx) (attester : Address) (s : Storage) : Except Failure Storage := do
  let admin ← getAdminOrPanic s
  requireAuth ctx admin
  return { s with authorizedAttesters := s.authorizedAttesters.map (·.erase attester) }

/-- The bytes an attester signs the hash of (lib.rs:603-605). -/
def attestationMessage (c : OplogCommitment) : Bytes := c.oplogRoot ++ toBeBytes c.oplogEndTs

def Storage.setAttestations (s : Storage) (sequence : Nat) (attestations : List OplogAttestation) : Storage :=
  { s with oplogAttestations := Function.update s.oplogAttestations sequence (some attestations) }

/-- lib.rs:555 -/
def attestOplog (h : Host) (ctx : Ctx) (attester : Address) (sequence : Nat) (signature : Bytes)
    (s : Storage) : Except Failure Storage := do
  requireAuth ctx attester
  let oplogCommitment ← okOr (s.oplogCommitment sequence) .oplogCommitmentNotFound
  let publicKey ← okOr (s.attesters.lookup attester) .attesterNotAuthorized
  if signature.length ≠ 64 then throw (.err .invalidSignature)
  let existing := s.attestations sequence
  if ∃ existingAtt ∈ existing, existingAtt.attester = attester then throw (.err .duplicateAttestation)
  let messageHash := h.sha256 (attestationMessage oplogCommitment)
  if h.ed25519Verify publicKey messageHash.1 signature = false then throw .trap
  let attestation : OplogAttestation := { attester, signature, timestamp := ctx.timestamp }
  let s := s.setAttestations sequence (existing ++ [attestation])
  return s.publish (.attestOplog sequence attester ctx.timestamp)

/-- lib.rs:637 -/
def getOplogAttestations (sequence : Nat) (s : Storage) : List OplogAttestation := s.attestations sequence

/-- lib.rs:654 -/
def verifyAttestation (sequence : Nat) (s : Storage) : Except Failure AttestationVerification := do
  let commitment ← okOr (s.oplogCommitment sequence) .oplogCommitmentNotFound
  let attestations := s.attestations sequence
  let attestationCount := attestations.length
  let authorizedCount := attestations.countP fun a => decide (a.attester ∈ s.attesters)
  let threshold := getThreshold s
  let (allMatch, verdict) :=
    if attestationCount = 0 then (false, "no_attestations")
    else if authorizedCount < attestationCount then (false, "unauthorized_attester")
    else if authorizedCount ≥ threshold then (true, "verified")
    else (false, "threshold_not_met")
  return { sequence, oplogRoot := commitment.oplogRoot, attestationCount, authorizedCount, threshold,
           allMatch, verdict }

/-! ## Proof verification and disclosure records -/

/-- lib.rs:725 -/
def verifyInclusion (h : Host) (root leaf : Bytes) (proof : Proof) (s : Storage) :
    Except Failure Bool := do
  if root ∉ s.index then throw (.err .rootNotCommitted)
  let vk ← okOr s.verifyingKey .notInitialized
  let rootFr ← frFromBytes32 h root
  let leafFr ← frFromBytes32 h leaf
  groth16Verify h vk proof [rootFr, leafFr]
  return true

/-- lib.rs:766 -/
def registerDisclosureVk (ctx : Ctx) (vk : VerifyingKey) (s : Storage) : Except Failure Storage := do
  let admin ← getAdminOrErr s
  requireAuth ctx admin
  if s.disclosureVk.isSome then throw (.err .disclosureVkAlreadySet)
  return { s with disclosureVk := some vk }

/-- lib.rs:777 -/
def getDisclosureVk (s : Storage) : Except Failure VerifyingKey := okOr s.disclosureVk .disclosureVkNotSet

/-- The public signal vector in circuit witness order (lib.rs:968-979). -/
def publicSignals (h : Host) (claim : Claim) : Except Failure (List h.Fr) := do
  let root ← frFromBytes32 h claim.root
  let leaf ← frFromBytes32 h claim.leaf
  let opPred ← frFromBytes32 h claim.opPred
  let collPred ← frFromBytes32 h claim.collPred
  return [root, leaf, opPred, collPred, frFromU64 h claim.tsMin, frFromU64 h claim.tsMax,
    frFromU64 h claim.checkOp.toUInt64, frFromU64 h claim.checkColl.toUInt64,
    frFromU64 h claim.checkTs.toUInt64]

/-- lib.rs:937 -/
def checkDisclosure (h : Host) (claim : Claim) (proof : Proof) (s : Storage) : Except Failure Unit := do
  if claim.root ∉ s.index then throw (.err .rootNotCommitted)
  let vk ← okOr s.disclosureVk .disclosureVkNotSet
  let pubSignals ← publicSignals h claim
  groth16Verify h vk proof pubSignals

/-- lib.rs:800 -/
def verifyDisclosure (h : Host) (claim : Claim) (proof : Proof) (s : Storage) : Except Failure Bool := do
  checkDisclosure h claim proof s
  return true

/-- The storage after `record` was appended to the disclosure log. -/
def Storage.pushRecord (s : Storage) (record : DisclosureRecord) : Storage :=
  { s with
    disclosureRecord := Function.update s.disclosureRecord record.recordId (some record)
    disclosureRecordCount := some record.recordId }

/-- lib.rs:836 -/
def verifyAndRecordDisclosure (h : Host) (ctx : Ctx) (verifier : Address) (claim : Claim) (proof : Proof)
    (s : Storage) : Except Failure (Storage × Nat) := do
  requireAuth ctx verifier
  checkDisclosure h claim proof s
  let recordId ← checkedSucc s.recordCount
  let record : DisclosureRecord := { recordId, verifier, claim, timestamp := ctx.timestamp }
  let s := s.pushRecord record
  return (s.publish (.disclose verifier recordId claim.root), recordId)

/-! ## Paginated reads -/

/-- The numbers `(start..=current).rev()` of a page (lib.rs:914-920, 1012-1018). -/
def pageRange (current limit : Nat) : List Nat :=
  let start := if current ≥ limit then current - limit + 1 else 1
  (List.range' start (current + 1 - start)).reverse

/-- The page loop both readers share: the entries present under the numbers of the page. -/
def page {α : Type} (read : Nat → Option α) (current limit : Nat) : Except Failure (List α) := do
  if limit = 0 ∨ limit > 100 then throw (.err .invalidPageSize)
  if current = 0 then return []
  return (pageRange current limit).filterMap read

/-- lib.rs:896 -/
def getDisclosureRecords (limit : Nat) (s : Storage) : Except Failure (List DisclosureRecord) :=
  page s.disclosureRecord s.recordCount limit

/-- lib.rs:987 -/
def getCurrentRoot (s : Storage) : Option RootEntry := s.currentRoot.bind s.rootEntry

/-- lib.rs:998 -/
def getRootHistory (limit : Nat) (s : Storage) : Except Failure (List RootEntry) :=
  page s.rootEntry (s.currentRoot.getD 0) limit

end Contract
