import NosqlBuddy.Audit.AutoAttest
import NosqlBuddy.Audit.Replica
import NosqlBuddy.Audit.Verification

/-!
# Checking an oplog commitment

Four functions compare an oplog commitment of the contract with what a member of the replica set holds.

| here | there |
| --- | --- |
| `compareEpoch` (`AutoAttest`) | `attest_epoch_internal` (auditd/mod.rs:545) |

All of them hash what the member has of the range below its majority point and compare the root, not the
end of the range nor the number of entries that were hashed. The two readers answer "stale" when the
commitment counts entries and none is left.
-/

namespace Audit
open ReaderMode (OnChainRoot)

/-! ## The attester -/

structure AttesterAlert where
  sequence : Nat
  alertType : String
  message : String
  onChainOplogRoot : String
  computedOplogRoot : String
  timestamp : String

structure AttestResult where
  sequence : Nat
  onChainOplogRoot : String
  computedOplogRoot : String
  matched : Bool
  attested : Bool
  alert : Option AttesterAlert

section
variable (P : Prims) (display : Oplog.Bson → String) (h : Contract.Host) (cfg : AttesterConfig)

def attestEpoch (replies : AttestReplies) (now : String) (sequence : Nat) (chain : Contract.Storage) :
    Except String AttestResult × Contract.Storage :=
  match required cfg.stellarKeypair
      "no attester Stellar keypair configured — use --attester-secret-key or ATTESTER_SECRET_KEY env var" with
  | .error e => (.error e, chain)
  | .ok stellarKp =>
    match labelled s!"get_oplog_commitment_native({sequence})" replies.commitment with
    | .error e => (.error e, chain)
    | .ok none => (.ok ⟨sequence, "none", "n/a", false, false, none⟩, chain)
    | .ok (some onChainOplog) =>
      let oplogRootHex := String.ofList (Bytes.hexEncode onChainOplog.oplogRoot)
      match labelled "compute_oplog_range_hash"
          (computeOplogRangeHash P display ⟨replies.majority, replies.majority, replies.entries⟩ sequence
            (.unpackU64 onChainOplog.oplogStartTs) (.unpackU64 onChainOplog.oplogEndTs)) with
      | .error e => (.error e, chain)
      | .ok computed =>
        if computed.merkleRootHex = oplogRootHex then
          match required cfg.attesterKey "attester ed25519 key not configured — use --attester-key-file" with
          | .error e => (.error e, chain)
          | .ok attesterKey =>
            match signOplogAttestation P attesterKey oplogRootHex onChainOplog.oplogEndTs with
            | .error e => (.error e, chain)
            | .ok signatureHex =>
              match attestOplogNative h stellarKp sequence signatureHex replies.submission chain with
              | (.ok (), chain') => (.ok ⟨sequence, oplogRootHex, computed.merkleRootHex, true, true, none⟩, chain')
              | (.error _, chain') => (.ok ⟨sequence, oplogRootHex, computed.merkleRootHex, true, false, none⟩, chain')
        else
          let alert : AttesterAlert := {
            sequence := sequence
            alertType := "oplog_hash_mismatch"
            message := s!"On-chain oplog root {oplogRootHex} does not match independently computed root " ++
              s!"{computed.merkleRootHex} — possible omission detected!"
            onChainOplogRoot := oplogRootHex
            computedOplogRoot := computed.merkleRootHex
            timestamp := now }
          (.ok ⟨sequence, oplogRootHex, computed.merkleRootHex, false, false, some alert⟩, chain)

end

/-! ## The readers -/

inductive OplogVerdict where
  | complete
  | mismatch
  | stale
  | incomplete
  | noCommitment
  | noOplogCommitment
  | contractOutdated
  | error
deriving DecidableEq, Repr

/-- The report of the desktop app. -/
structure OplogIntegrityReport where
  sequence : Nat
  onChainOplogRoot : String
  auditorOplogRoot : Option String
  oplogEntryCount : Option Nat
  allMatch : Bool
  onChainMatchesAuditor : Bool
  verdict : OplogVerdict
  explanation : String
  alerts : List String

/-- The report of the daemon; the operator's own root is not asked for. -/
structure DaemonOplogReport extends OplogIntegrityReport where
  operatorOplogRoot : Option String := none
  operatorMatchesAuditor : Bool := false

/-! The parts of the reports that the readers have in common. -/

/-- A report without a comparison. -/
def OplogIntegrityReport.without (sequence : Nat) (onChainOplogRoot : String) (oplogEntryCount : Option Nat)
    (verdict : OplogVerdict) (explanation : String) (alerts : List String) : OplogIntegrityReport :=
  ⟨sequence, onChainOplogRoot, none, oplogEntryCount, false, false, verdict, explanation, alerts⟩

def noCommitmentReport : OplogIntegrityReport :=
  .without 0 "none" none .noCommitment "No on-chain root has been committed yet." []

def noOplogCommitmentReport (sequence : Nat) : OplogIntegrityReport :=
  .without sequence "none" none .noOplogCommitment
    s!"Epoch {sequence} was committed without an oplog hash. Completeness cannot be verified."
    [s!"Epoch {sequence} has no oplog commitment — completeness not guaranteed"]

def rolledOverReport (sequence : Nat) (onChainOplogRoot : String) (onChainEntryCount : Nat) : OplogIntegrityReport :=
  .without sequence onChainOplogRoot (some 0) .stale
    (s!"Oplog has rolled over — the {onChainEntryCount} entries committed for this epoch are no longer in the oplog. " ++
      "Relying on the independent member's on-chain attestation (signed when fresh) as the durable guarantee.")
    [s!"Oplog rolled over for epoch {sequence} — {onChainEntryCount} entries were committed but 0 found. " ++
      "Verify via on-chain attestation instead."]

/-- `str::contains`. -/
def contains (text part : String) : Bool := part.toList <:+: text.toList

def hashFailedReport (sequence : Nat) (onChainOplogRoot : String) (e : AuditError) : OplogIntegrityReport :=
  let errMsg := e.display
  let isStale := contains errMsg "lastCommittedOpTime" || contains errMsg "not found" || contains errMsg "replica set"
  .without sequence onChainOplogRoot none (if isStale then .stale else .error)
    (if isStale then
      s!"Oplog entries for this epoch may have rolled over. Relying on the independent member's on-chain attestation " ++
        s!"(signed when fresh) as the durable guarantee. Detail: {errMsg}"
    else s!"Failed to compute oplog hash: {errMsg}")
    [s!"Oplog verification: {errMsg}"]

def comparedReport (sequence : Nat) (onChainOplogRoot auditorRoot : String) (entryCount : Nat) : OplogIntegrityReport :=
  let matched := auditorRoot == onChainOplogRoot
  { sequence := sequence
    onChainOplogRoot := onChainOplogRoot
    auditorOplogRoot := some auditorRoot
    oplogEntryCount := some entryCount
    allMatch := matched
    onChainMatchesAuditor := matched
    verdict := if matched then .complete else .mismatch
    explanation :=
      if matched then
        s!"Oplog integrity verified: on-chain root matches auditor's independent computation. {entryCount} oplog " ++
          "entries in the range."
      else
        s!"OMISSION DETECTED: on-chain oplog root {onChainOplogRoot} does not match auditor's independent computation " ++
          s!"{auditorRoot}. The operator may have omitted writes from the audit log."
    alerts :=
      if matched then []
      else [s!"CRITICAL: oplog hash mismatch — on_chain={onChainOplogRoot} auditor={auditorRoot} — possible omission"] }

section
variable (P : Prims) (display : Oplog.Bson → String)

/-- The report on a commitment, from a member of the replica set. -/
def checkCommitment (r : Replica) (sequence : Nat) (onChainOplog : Contract.OplogCommitment) : OplogIntegrityReport :=
  let onChainOplogRoot := String.ofList (Bytes.hexEncode onChainOplog.oplogRoot)
  let startTs := OplogTimestamp.unpackU64 onChainOplog.oplogStartTs
  let endTs := OplogTimestamp.unpackU64 onChainOplog.oplogEndTs
  match computeOplogRangeHash P display (r.replies startTs endTs) sequence startTs endTs with
  | .ok range =>
    if range.entryCount = 0 ∧ onChainOplog.oplogEntryCount > 0 then
      rolledOverReport sequence onChainOplogRoot onChainOplog.oplogEntryCount.toNat
    else comparedReport sequence onChainOplogRoot range.merkleRootHex range.entryCount
  | .error e => hashFailedReport sequence onChainOplogRoot e

/-- The daemon goes on without a MongoDB client. -/
def verifyOplog (currentRoot : Except AuditError (Option OnChainRoot))
    (commitment : Except AuditError (Option Contract.OplogCommitment)) (mongoClient : Option Replica) :
    Except AuditError DaemonOplogReport := do
  let onchainRoot ← currentRoot
  match onchainRoot with
  | none => return ⟨noCommitmentReport, none, false⟩
  | some root =>
    let onChainOplog ← commitment
    match onChainOplog, mongoClient with
    | none, _ => return ⟨noOplogCommitmentReport root.sequence, none, false⟩
    | some onChainOplog, some r => return ⟨checkCommitment P display r root.sequence onChainOplog, none, false⟩
    | some onChainOplog, none =>
      return ⟨.without root.sequence (String.ofList (Bytes.hexEncode onChainOplog.oplogRoot)) none .incomplete
        "No MongoDB connection — could not independently verify the oplog hash. Only the on-chain commitment is reported."
        ["No MongoDB connection available for independent verification"], none, false⟩

/-- stellar_native.rs:338 -/
def isContractFunctionNotFoundError (e : AuditError) : Bool :=
  contains e.display ("Contract function not found on-chain. The deployed contract may be outdated, redeploy the Soroban " ++
    "contract and update the contract ID in settings.") ||
    (contains e.display "MissingValue" && contains e.display "WasmVm")

def contractOutdatedReport (sequence : Nat) (contractId : String) : OplogIntegrityReport :=
  .without sequence "none" none .contractOutdated
    (s!"The deployed Soroban contract does not expose get_oplog_commitment, so oplog completeness cannot be verified for " ++
      s!"epoch {sequence}. Redeploy the current Soroban contract and update the contract ID in settings.")
    [s!"Contract {contractId} is missing get_oplog_commitment"]

/-- The errors of the desktop app that occur here (src-tauri/src/error.rs). -/
inductive AppError where
  | connectionNotFound (message : String)
  | ofAudit (e : AuditError)

/-- The desktop app needs a connection. -/
def auditVerifyOplogIntegrity (contractId : String) (client : Except AppError Replica)
    (currentRoot : Except AuditError (Option OnChainRoot)) (commitment : Except AuditError (Option Contract.OplogCommitment)) :
    Except AppError OplogIntegrityReport := do
  let r ← client
  let onchainRoot ← currentRoot.mapError .ofAudit
  match onchainRoot with
  | none => return noCommitmentReport
  | some root =>
    match commitment with
    | .error e =>
      if isContractFunctionNotFoundError e then return contractOutdatedReport root.sequence contractId else throw (.ofAudit e)
    | .ok none => return noOplogCommitmentReport root.sequence
    | .ok (some onChainOplog) => return checkCommitment P display r root.sequence onChainOplog

end

end Audit
