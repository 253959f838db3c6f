import NosqlBuddy.Audit.ChangeStream
import NosqlBuddy.Audit.HonestCommitment

/-!
# The operator's daemon

The change stream, the audit log, the epoch manager and the contract, in one state: the writes of the
deployment come in, the listener records them (or the operator drops them), epochs are closed, and
`publish_and_commit` (auditd/mod.rs:629) hashes the oplog and commits both roots.

| here | there |
| --- | --- |
| `Operator.history`, `majority` | the oplog as the majority has it, and the majority point |
| `Operator.position` | the events of the change stream that have been delivered |
| `record`, `skip` | `process_event` for the next event; the operator drops it |
| `recordEvent`, `closeCurrentEpoch`, `syncOpenEpoch` | the calls of the epoch manager, with the log as it is |
| `publishAndCommit` | mod.rs:629; the batch on IPFS is left to its CID |

The event of an oplog entry is MongoDB's: a parameter `stream` with the laws of `StreamSpec`.
-/

namespace Audit
open Contract
open ReaderMode (OnChainRoot)
open Mutation

/-! ## Writes of documents -/

/-- An insert, update or delete of a document of `db.coll`; an update and a delete name the document by
its key. -/
def Crud (e : Oplog.Document) (op : OperationType) (db coll : String) (doc : Oplog.Document) : Prop :=
  '.' ∉ db.toList ∧ e.get "ns" = some (.string (db ++ "." ++ coll)) ∧
    ((op = .insert ∧ e.get "op" = some (.string "i") ∧ e.get "o" = some (.document doc)) ∨
      (op = .update ∧ e.get "op" = some (.string "u") ∧ e.get "o2" = some (.document doc)) ∨
      (op = .delete ∧ e.get "op" = some (.string "d") ∧ e.get "o" = some (.document doc)))

/-- The change stream names the namespace and the document of such an entry. -/
structure StreamSpec (stream : Oplog.Document → ChangeEvent) : Prop where
  ns : ∀ {e op db coll doc}, Crud e op db coll doc → (stream e).ns = some ⟨db, some coll⟩
  insert : ∀ {e db coll doc}, Crud e .insert db coll doc →
    (stream e).operationType = .insert ∧ (stream e).fullDocument = some doc
  update : ∀ {e db coll doc}, Crud e .update db coll doc →
    ((stream e).operationType = .update ∨ (stream e).operationType = .replace) ∧ (stream e).documentKey = some doc
  delete : ∀ {e db coll doc}, Crud e .delete db coll doc →
    (stream e).operationType = .delete ∧ (stream e).documentKey = some doc

/-! ## State -/

structure Operator where
  history : List Oplog.Document
  majority : OplogTimestamp
  position : Nat
  service : Service
  chain : Storage

namespace Operator

def log (s : Operator) : AuditLog := s.service.world.log

def epochs (s : Operator) : EpochList := s.service.epochs

/-- The next event of the change stream. -/
def pending (s : Operator) : Option Oplog.Document := s.history[s.position]?

end Operator

/-- What the outside answers to one call of `publish_and_commit`. -/
structure PublishReplies where
  /-- the member that is asked for the oplog, if there is a client -/
  mongoClient : Option Replica
  attachIo : EpochIo
  /-- reading `events.jsonl` fails -/
  readEvents : Option String
  /-- the CID on file for the epoch -/
  cid : Option String
  submission : Submission
  /-- the hash of the transaction, and the time for `mark_committed` -/
  txHash : String
  now : String
  markIo : EpochIo

inductive OperatorStep where
  | write (entry : Oplog.Document)
  | advance (majorityTs : OplogTimestamp)
  | record (now : Instant) (io : Io)
  | skip
  | recordEvent (index : Nat) (io : EpochIo)
  | closeCurrentEpoch (io : EpochIo)
  | syncOpenEpoch (io : EpochIo)
  | publish (epochNumber : Nat) (replies : PublishReplies)

/-! ## Publishing -/

/-- `pack_u64` (oplog.rs:91). -/
def OplogTimestamp.packU64 (ts : OplogTimestamp) : UInt64 := (ts.time.toUInt64 <<< 32) ||| ts.increment.toUInt64

/-- What a member answers while a range from `startTs` to its majority point is hashed. -/
def Replica.hashReplies (r : Replica) (startTs : OplogTimestamp) : OplogReplies :=
  match r.majority with
  | .ok majorityTs => r.replies startTs majorityTs
  | .error e => ⟨.error e, .error e, .error e⟩

/-- `submit_invoke_with_retry` (stellar_native.rs:719) for a call of the contract. -/
def submitInvoke (h : Host) (call : UInt64 → Invocation) (submission : Submission) (chain : Storage) :
    Except AuditError Unit × Storage :=
  match submission with
  | .failed e => (.error e, chain)
  | .answered timestamp refusal =>
    match invoke h (call timestamp) chain with
    | .ok chain' => (.ok (), chain')
    | .error _ => (.error refusal, chain)
  | .unconfirmed timestamp e => (.error e, step h chain (call timestamp))

section
variable (P : Prims) (J : Serde) (display : Oplog.Bson → String) (h : Host)

/-- `commit_root_native` (stellar_native.rs:944). -/
def commitRootNative (rootHex metadata : String) (kp : Address) (submission : Submission) (chain : Storage) :
    Except AuditError Unit × Storage :=
  match Bytes.hexDecode rootHex.toList with
  | none => (.error (.validation s!"invalid root hex: {fromHexError rootHex.toList}"), chain)
  | some root => submitInvoke h (fun timestamp => ⟨⟨[kp], timestamp⟩, .commitRoot root metadata⟩) submission chain

/-- `commit_root_with_oplog_native` (stellar_native.rs:1009). -/
def commitRootWithOplogNative (rootHex oplogRootHex : String) (oplogStart oplogEnd oplogCount : UInt64) (metadata : String)
    (kp : Address) (submission : Submission) (chain : Storage) : Except AuditError Unit × Storage :=
  match Bytes.hexDecode rootHex.toList, Bytes.hexDecode oplogRootHex.toList with
  | none, _ => (.error (.validation s!"invalid root hex: {fromHexError rootHex.toList}"), chain)
  | some _, none => (.error (.validation s!"invalid oplog root hex: {fromHexError oplogRootHex.toList}"), chain)
  | some root, some oplogRoot => submitInvoke h (fun timestamp => ⟨⟨[kp], timestamp⟩, .commitRootWithOplog root
      ⟨oplogRoot, oplogStart, oplogEnd, oplogCount⟩ metadata⟩) submission chain

/-- Step 2 of `publish_and_commit`: both roots when the epoch has an oplog hash. -/
def commitEpoch (epoch : Epoch) (rootHex metadata : String) (kp : Address) (submission : Submission)
    (chain : Storage) : Except String Unit × Storage :=
  match epoch.oplogMerkleRootHex with
  | some oplogRootHex =>
    match commitRootWithOplogNative h rootHex oplogRootHex ((epoch.oplogStartTs.map OplogTimestamp.packU64).getD 0)
        ((epoch.oplogEndTs.map OplogTimestamp.packU64).getD 0) (UInt64.ofNat (epoch.oplogEntryCount.getD 0)) metadata kp
        submission chain with
    | (.ok (), chain) => (.ok (), chain)
    | (.error e, chain) => (.error s!"commit_root_with_oplog_native: {e.display}", chain)
  | none =>
    match commitRootNative h rootHex metadata kp submission chain with
    | (.ok (), chain) => (.ok (), chain)
    | (.error e, chain) => (.error s!"commit_root_native: {e.display}", chain)

/-- The metadata of a commit names the batch. -/
def epochMetadata (epochNumber : Nat) (cid : Option String) : String :=
  match cid with
  | some c => s!"epoch={epochNumber} cid={c}"
  | none => s!"epoch={epochNumber}"

/-- Step 0 of `publish_and_commit`: a failure is logged, the epoch is committed without an oplog hash. -/
def attachStep (replies : PublishReplies) (epochNumber : Nat) (store : EpochStore) : EpochStore :=
  match replies.mongoClient with
  | some r => (computeAndAttach P display (r.hashReplies store.manager.oplogStart) replies.attachIo epochNumber
      store.manager.oplogStart store).2
  | none => store

def publishAndCommit (signingKeypair : Option Address) (replies : PublishReplies) (epoch : Epoch) (s : Operator) :
    Except String Unit × Operator :=
  match epoch.endIndex with
  | none => (.error "epoch has no end_index", s)
  | some _ =>
    let store := attachStep P display replies epoch.epochNumber s.service.store
    let s := { s with service := { s.service with store := store } }
    let epoch := (store.manager.epochs.find epoch.epochNumber).getD epoch
    match replies.readEvents with
    | some e => (.error s!"read events.jsonl: {e}", s)
    | none =>
      let root := epoch.rootHex.getD (rootHex P s.log.tree.leaves)
      match signingKeypair with
      | none => (.error "no signing keypair configured — use --secret-key or STELLAR_SECRET_KEY env var", s)
      | some kp =>
        match commitEpoch h epoch root (epochMetadata epoch.epochNumber replies.cid) kp replies.submission s.chain with
        | (.error e, chain) => (.error e, { s with chain := chain })
        | (.ok (), chain) =>
          match exec (markCommitted replies.markIo epoch.epochNumber replies.now replies.txHash) store with
          | (.error e, store) =>
            (.error s!"mark_committed: {e.display}", { s with chain := chain, service := { s.service with store := store } })
          | (.ok (), store) => (.ok (), { s with chain := chain, service := { s.service with store := store } })

/-! ## Steps -/

variable (stream : Oplog.Document → ChangeEvent) (deploymentId : String) (signingKeypair : Option Address)

/-- A write comes after all others, and not below the majority point. -/
def Operator.accepts (s : Operator) (entry : Oplog.Document) : Bool :=
  (entryTs entry).any fun ts => s.majority ≤ ts ∧ ∀ e ∈ s.history, ∀ t ∈ entryTs e, t < ts

def stepOperator (s : Operator) : OperatorStep → Operator
  | .write entry => if s.accepts entry then { s with history := s.history ++ [entry] } else s
  | .advance majorityTs => if s.majority ≤ majorityTs then { s with majority := majorityTs } else s
  | .record now io =>
    match s.pending with
    | some e => { s with
        position := s.position + 1
        service := { s.service with world := processEvent P J deploymentId io now (stream e) s.service.world } }
    | none => s
  | .skip => if s.pending.isSome then { s with position := s.position + 1 } else s
  | .recordEvent index io =>
    { s with service := { s.service with store := (exec (recordEvent io index s.log) s.service.store).2 } }
  | .closeCurrentEpoch io =>
    { s with service := { s.service with store := (exec (closeCurrentEpoch io s.log) s.service.store).2 } }
  | .syncOpenEpoch io =>
    { s with service := { s.service with store := (exec (syncOpenEpochWithAuditLog io s.log) s.service.store).2 } }
  | .publish n replies =>
    match s.epochs.find n with
    | some epoch => (publishAndCommit P display h signingKeypair replies epoch s).2
    | none => s

end

theorem OplogTimestamp.unpack_pack (ts : OplogTimestamp) : OplogTimestamp.unpackU64 ts.packU64 = ts := by
  obtain ⟨time, increment⟩ := ts
  have ht := time.toNat_lt
  have hi := increment.toNat_lt
  have hpacked : (OplogTimestamp.packU64 ⟨time, increment⟩).toNat = time.toNat * 2 ^ 32 + increment.toNat := by
    have hshift : time.toNat <<< 32 % 2 ^ 64 = time.toNat <<< 32 := by
      rw [Nat.shiftLeft_eq]
      omega
    simp only [OplogTimestamp.packU64, UInt64.toNat_or, UInt64.toNat_shiftLeft, UInt32.toNat_toUInt64]
    simp only [UInt64.reduceToNat, Nat.reduceMod, hshift]
    rw [← Nat.shiftLeft_add_eq_or_of_lt hi, Nat.shiftLeft_eq]
  simp only [OplogTimestamp.unpackU64, OplogTimestamp.mk.injEq, ← UInt32.toNat_inj, UInt64.toNat_toUInt32,
    UInt64.toNat_shiftRight, hpacked]
  simp only [UInt64.reduceToNat, Nat.reduceMod, Nat.shiftRight_eq_div_pow]
  omega
end Audit
