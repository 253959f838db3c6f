import NosqlBuddy.Audit.Operator
import NosqlBuddy.Desktop.ProofCommands

/-!
# Commits of the desktop app

`commit_latest_epoch_root` (commands.rs:1815) and what the window does around it: `audit_record_event`
(commands.rs:660) records an event and counts it in the open epoch, `audit_close_epoch` seals the epoch, and after a
commit the window calls `audit_mark_epoch_committed` for the epoch it shows as the last sealed one
(AuditSurface.tsx:302), which is the epoch that the command picks.

| here | there |
| --- | --- |
| `targetEpoch` | commands.rs:1857: of the sealed epochs that are not marked, the one with the largest number |
| `Desk`, `stepDesk` | the audit log with its epochs, and the contract |

`txHash n` is the hash of the transaction that appended entry `n` to the root log.
-/

namespace Desktop
open Audit Text Mutation
open ReaderMode (OnChainRoot)

/-! ## Data -/

structure Desk where
  service : Service
  chain : Contract.Storage

namespace Desk

def log (s : Desk) : AuditLog := s.service.world.log

def epochs (s : Desk) : EpochList := s.service.epochs

def withStore (s : Desk) (store : EpochStore) : Desk := { s with service := { s.service with store := store } }

def withWorld (s : Desk) (w : World) : Desk := { s with service := { s.service with world := w } }

end Desk

structure CommitResult where
  sequence : Nat
  txHash : String
  rootHex : String
deriving DecidableEq, Repr

/-- The keypair that signs, by its address and by the text of its account. -/
structure Signer where
  address : Contract.Address
  accountId : String

structure ChainConfig where
  network : String
  contractId : String

/-- What the outside answers to one call. -/
structure CommitReplies where
  /-- `get_admin_native` -/
  admin : Except AuditError (Option String)
  /-- `get_current_root` -/
  currentRoot : Except AuditError (Option OnChainRoot)
  /-- the connection, by what its server answers while the oplog is hashed -/
  client : Except AppError OplogReplies
  attachIo : EpochIo
  /-- of `commit_root_with_oplog`, and of `commit_root` -/
  withOplog : Submission
  rootOnly : Submission
  /-- the return value of the simulation -/
  simulated : Nat

/-! ## The command -/

/-- `str::contains`. -/
def containsText (text part : String) : Bool := decide (part.toList <:+: text.toList)

def composeCommitMetadata (metadata : Option String) (eventCount leafCount : Nat) (network domainSuperRootHex : String) :
    String :=
  let superRootField := s!"domainSuperRoot={domainSuperRootHex}"
  match (metadata.map fun m => String.ofList (trim m.toList)).filter fun m => ¬ m.isEmpty with
  | some m => if containsText m "domainSuperRoot=" then m else s!"{m} {superRootField}"
  | none => s!"events={eventCount} leaves={leafCount} network={network} {superRootField}"

/-- A sealed epoch that is not marked as committed. -/
def Epoch.waiting (e : Epoch) : Bool := !e.committed && e.endIndex.isSome && e.rootHex.isSome

/-- `max_by_key(|e| e.epoch_number)`: of equal numbers the last. -/
def maxByNumber : List Epoch → Option Epoch
  | [] => none
  | e :: es =>
    match maxByNumber es with
    | some m => if m.epochNumber < e.epochNumber then some e else some m
    | none => some e

def targetEpoch (es : EpochList) : Option Epoch := maxByNumber (es.toList.filter Epoch.waiting)

def contractFunctionNotFoundMessage : String :=
  "Contract function not found on-chain. The deployed contract may be outdated, redeploy the Soroban contract " ++
    "and update the contract ID in settings."

/-- `is_contract_function_not_found_error` (stellar_native.rs:338). -/
def isContractFunctionNotFoundError (e : AuditError) : Bool :=
  containsText e.display contractFunctionNotFoundMessage ||
    (containsText e.display "MissingValue" && containsText e.display "WasmVm")

section
variable (P : Prims) (display : Oplog.Bson → String) (h : Contract.Host) (txHash : Nat → String)
  (signer : Signer) (chain : ChainConfig)

/-- The preflight: a read failure does not block the commit. -/
def checkAdmin (replies : CommitReplies) : Except AppError Unit :=
  match replies.admin with
  | .ok (some admin) =>
    if admin ≠ signer.accountId then
      .error (.validation (s!"this Stellar key ({signer.accountId}) is not the admin of contract {chain.contractId} " ++
        s!"(admin is {admin}). Commits are owner-only, so the network would reject this " ++
        "on-chain. Deploy and initialize your own contract so this key becomes admin and " ++
        "set its contract ID, or import the admin key."))
    else .ok ()
  | .ok none => .ok ()
  | .error _ => .ok ()

/-- The frozen root of the target, or else the root of the log as it is. -/
def rootToCommit (log : AuditLog) (target : Option Epoch) : String :=
  (target.bind (·.rootHex)).getD (rootHex P log.tree.leaves)

/-- The guard against committing the same root again. -/
def checkCurrentRoot (replies : CommitReplies) (root : String) : Except AppError Unit :=
  match liftAudit replies.currentRoot with
  | .error e => .error e
  | .ok (some entry) =>
    let short := String.ofList (root.toList.take 16)
    if entry.rootHex = root then
      .error (.validation (s!"root 0x{short}.. is already committed on-chain (seq #{entry.sequence}). " ++
        "New audit events are needed to produce a different root."))
    else .ok ()
  | .ok none => .ok ()

/-- Everything before the submission: the metadata of the commit, or the error that ends the call. -/
def prepareCommit (replies : CommitReplies) (metadata : Option String) (log : AuditLog) (root : String) :
    Except AppError String := do
  checkAdmin signer chain replies
  checkCurrentRoot replies root
  let (domainSuperRootHex, _) ← liftAudit (AuditLog.domainSuperRoot P log)
  return composeCommitMetadata metadata log.eventCount log.leafCount chain.network domainSuperRootHex

/-- The target with its oplog hash, which is computed and attached where it is missing. -/
def epochWithOplog (replies : CommitReplies) (epoch : Epoch) (store : EpochStore) : Except AppError Epoch × EpochStore :=
  match replies.client with
  | .error e => (.error e, store)
  | .ok server =>
    if epoch.oplogMerkleRootHex.isSome then (.ok epoch, store)
    else
      match server.majority with
      | .error e => (.error (.ofAudit e), store)
      | .ok majorityTs =>
        match computeOplogRangeHash P display server epoch.epochNumber store.manager.oplogStart majorityTs with
        | .error e => (.error (.ofAudit e), store)
        | .ok range =>
          match exec (attachOplogHash replies.attachIo epoch.epochNumber range.toOplogRange) store with
          | (.error e, store) => (.error (.ofAudit e), store)
          | (.ok epoch, store) => (.ok epoch, store)

/-- The commit of the root alone. -/
def commitRootOnly (replies : CommitReplies) (root metadata : String) (s : Desk) : Except AppError CommitResult × Desk :=
  match commitRootNative h root metadata signer.address replies.rootOnly s.chain with
  | (.ok (), chain) => (.ok ⟨replies.simulated, txHash (s.chain.seqOr0 + 1), root⟩, { s with chain := chain })
  | (.error e, chain) => (.error (.ofAudit e), { s with chain := chain })

/-- The commit of the root with the oplog hash of the epoch; a contract without that function gets the root alone. -/
def commitWithOplog (replies : CommitReplies) (epoch : Epoch) (root metadata : String) (s : Desk) :
    Except AppError CommitResult × Desk :=
  match commitRootWithOplogNative h root (epoch.oplogMerkleRootHex.getD "")
      ((epoch.oplogStartTs.map OplogTimestamp.packU64).getD 0) ((epoch.oplogEndTs.map OplogTimestamp.packU64).getD 0)
      (UInt64.ofNat (epoch.oplogEntryCount.getD 0)) metadata signer.address replies.withOplog s.chain with
  | (.ok (), chain) => (.ok ⟨replies.simulated, txHash (s.chain.seqOr0 + 1), root⟩, { s with chain := chain })
  | (.error e, chain) =>
    if isContractFunctionNotFoundError e then commitRootOnly h txHash signer replies root metadata { s with chain := chain }
    else (.error (.ofAudit e), { s with chain := chain })

def commitLatestEpochRoot (metadata connectionId : Option String) (replies : CommitReplies) (s : Desk) :
    Except AppError CommitResult × Desk :=
  let target := targetEpoch s.epochs
  let root := rootToCommit P s.log target
  match prepareCommit P signer chain replies metadata s.log root with
  | .error e => (.error e, s)
  | .ok metadata =>
    match target, connectionId with
    | some epoch, some _ =>
      match epochWithOplog P display replies epoch s.service.store with
      | (.error e, store) => (.error e, s.withStore store)
      | (.ok epoch, store) => commitWithOplog h txHash signer replies epoch root metadata (s.withStore store)
    | _, _ => commitRootOnly h txHash signer replies root metadata s

/-! ## The window -/

/-- `mark_committed` of the epoch that the window shows, with the hash of the transaction. -/
structure MarkReply where
  now : String
  io : EpochIo

inductive DeskStep where
  | record (call : RecordCall) (io : Io) (epochIo : EpochIo)
  | setLegalHold (deploymentId database : String) (hold : Bool) (io : Io)
  | pruneDomain (now : Instant) (deploymentId database : String) (io : Io)
  | closeEpoch (io : EpochIo)
  /-- the app may be closed before the epoch is marked -/
  | commit (metadata connectionId : Option String) (replies : CommitReplies) (mark : Option MarkReply)

/-- A record call, and `record_event` for the index it returns. -/
def recordEventCmd (call : RecordCall) (io : Io) (epochIo : EpochIo) (s : Desk) : Desk :=
  match exec (call.run P io) s.service.world with
  | (.error _, w) => s.withWorld w
  | (.ok index, w) => (s.withWorld w).withStore (exec (recordEvent epochIo index w.log) s.service.store).2

/-- A commit, and the mark after it. -/
def commitCmd (metadata connectionId : Option String) (replies : CommitReplies) (mark : Option MarkReply) (s : Desk) : Desk :=
  match commitLatestEpochRoot P display h txHash signer chain metadata connectionId replies s, targetEpoch s.epochs, mark with
  | (.ok result, s), some epoch, some m =>
    s.withStore (exec (markCommitted m.io epoch.epochNumber m.now result.txHash) s.service.store).2
  | (_, s), _, _ => s

def stepDesk (s : Desk) : DeskStep → Desk
  | .record call io epochIo => recordEventCmd P call io epochIo s
  | .setLegalHold dep db hold io => s.withWorld (exec (setLegalHold P io dep db hold) s.service.world).2
  | .pruneDomain now dep db io => s.withWorld (exec (pruneDomain P io now dep db) s.service.world).2
  | .closeEpoch io => s.withStore (exec (closeCurrentEpoch io s.log) s.service.store).2
  | .commit metadata connectionId replies mark =>
    commitCmd P display h txHash signer chain metadata connectionId replies mark s

end

end Desktop
