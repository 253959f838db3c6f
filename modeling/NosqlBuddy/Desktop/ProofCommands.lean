import NosqlBuddy.Audit.Epochs
import NosqlBuddy.Audit.InclusionProof
import NosqlBuddy.Audit.Retention

/-!
# The proof commands of the desktop app

`src-tauri/src/audit/commands.rs`, with what they call of `audit-service/src/audit/mod.rs`.

| here | there |
| --- | --- |
| `AppError`, `AppError.ofAudit` | `src-tauri/src/error.rs` (:21, :148), the variants that are built here |
| `DisclosureStatement`, `DisclosureClaim` | `zk-audit/src/disclosure.rs:35`, `stellar_native.rs:2098` |

The commands only read. A proof is what `serialize_for_soroban` makes of it, which never fails.
-/

namespace Desktop
open Audit Text

/-! ## Errors -/

inductive AppError where
  | io (message : String)
  | notFound (message : String)
  | validation (message : String)
  | internal (message : String)
  | mongo (message : String)
  | credential (message : String)
  | timeout (message : String)
  | zkAudit (message : String)
deriving DecidableEq, Repr

def AppError.ofAudit : AuditError → AppError
  | .io m => .io m
  | .notFound m => .notFound m
  | .validation m => .validation m
  | .internal m => .internal m
  | .mongo m => .mongo m
  | .credential m => .credential m
  | .timeout m => .timeout m
  | .zkAudit m => .zkAudit m

/-- `?` on a result of the audit service. -/
def liftAudit {α : Type} : Except AuditError α → Except AppError α
  | .ok a => .ok a
  | .error e => .error (.ofAudit e)

theorem liftAudit_ok {α : Type} {x : Except AuditError α} {a : α} : liftAudit x = .ok a ↔ x = .ok a := by
  cases x <;> simp [liftAudit]

/-- `ok_or_else(..)?`. -/
def okOrElse {α ε : Type} (o : Option α) (e : ε) : Except ε α :=
  match o with
  | some a => .ok a
  | none => .error e

/-! ## Data -/

/-- `SorobanProof`: the points in hexadecimal. -/
structure SorobanProof where
  a : String
  b : String
  c : String
deriving DecidableEq, Repr

/-- A Groth16 proof as it is serialized, with the public signals of the circuit: the root comes first. -/
structure Groth16Proof where
  proof : SorobanProof
  publicRoot : Fr
  publicRest : List Fr
deriving DecidableEq

structure ProofResult where
  rootHex : String
  leafHex : String
  leafIndex : Nat
  proof : SorobanProof
  network : String
  contractId : String
  txHash : String
deriving DecidableEq, Repr

structure DisclosureStatement where
  opPred : Fr
  collPred : Fr
  tsMin : UInt64
  tsMax : UInt64
  checkOp : Bool
  checkColl : Bool
  checkTs : Bool
deriving DecidableEq

structure DisclosureClaim where
  opPredHex : String
  collPredHex : String
  tsMin : UInt64
  tsMax : UInt64
  checkOp : Bool
  checkColl : Bool
  checkTs : Bool
deriving DecidableEq, Repr

structure DisclosureProofResult where
  rootHex : String
  leafHex : String
  leafIndex : Nat
  claim : DisclosureClaim
  claimText : String
  proof : SorobanProof
  network : String
  contractId : String
deriving DecidableEq, Repr

/-- The arguments of `audit_generate_disclosure_proof`. -/
structure DisclosureArgs where
  index : Nat
  checkOp : Bool
  checkColl : Bool
  checkTs : Bool
  tsMin : Option UInt64
  tsMax : Option UInt64

/-- What the commands use beside the audit log and the epochs. -/
structure ProofEnv where
  /-- the inclusion circuit: artifacts, prover and the blocking task -/
  prove : InclusionProof → Except AppError Groth16Proof
  /-- the disclosure circuit, likewise -/
  proveDisclosure : LeafOpening → InclusionProof → DisclosureStatement → Except AppError Groth16Proof
  /-- network and contract id of the active chain -/
  chainConfig : Except AppError (String × String)

section
variable (P : Prims)

/-! ## The audit service -/

/-- The text of a `ZkAuditError`. -/
def zkAuditText : ZkAuditError → String
  | .merkleTree m => s!"merkle tree error: {m}"

def AuditLog.proveInclusion (log : AuditLog) (index : Nat) : Except AuditError InclusionProof :=
  match log.tree.proveInclusion P index with
  | .ok p => .ok p
  | .error e => .error (.zkAudit (zkAuditText e))

/-- The event of an index among the lines of the file: lines that are no event are passed over. -/
def findPersisted (text : List Char) (index : Nat) : Option PersistedEvent :=
  (((lines text).filter fun l => trim l ≠ []).filterMap P.eventFromStr).find? (·.index = index)

def disclosureOpening (w : World) (index : Nat) : Except AuditError (LeafOpening × Fr) := do
  let key ← okOrElse w.log.leafKey (.validation "disclosure proofs require a leaf key")
  let dir ← okOrElse w.log.persistence (.validation "disclosure proofs require persistence to be configured")
  let content ← readText none (w.disk dir)
  let event ← okOrElse (findPersisted P content index) (.validation s!"no persisted event at index {index}")
  if event.version ≠ 3 then
    throw (.validation (s!"event at index {index} is v{event.version} — disclosure proofs require v3 leaves " ++
      "(keyed Poseidon commitment). Events recorded before the v3 upgrade cannot be disclosed this way."))
  let canonical ← decodeOr (P.base64Decode event.payload) fun e => s!"v3 payload base64 decode at {index}: {e}"
  let secs ← decodeOr (P.parseRfc3339 event.timestamp) fun e => s!"v3 timestamp parse at {index}: {e}"
  let opening := leafOpening P key event.operation event.database event.collection (clampSecs secs) canonical
  let leaf := P.poseidon opening.toInputs
  if frToHex leaf ≠ event.leafHex then
    throw (.validation (s!"recomputed v3 leaf does not match stored leaf at index {index} — " ++
      "wrong leaf key or tampered log"))
  return (opening, leaf)

/-! ## `audit_generate_proof` -/

/-- The epoch that contains a leaf. -/
def Epoch.contains (index : Nat) (e : Epoch) : Bool :=
  decide (e.startIndex ≤ index) && e.endIndex.any fun last => decide (index ≤ last)

/-- The transaction hash on file for the epoch of a leaf; empty where there is none. -/
def txHashOf (es : EpochList) (index : Nat) : String :=
  ((es.toList.find? (Epoch.contains index)).bind (·.txHash)).getD ""

def auditGenerateProof (env : ProofEnv) (w : World) (es : EpochList) (index : Nat) : Except AppError ProofResult := do
  let inclusion ← liftAudit (AuditLog.proveInclusion P w.log index)
  let groth16Proof ← env.prove inclusion
  let (network, contractId) ← env.chainConfig
  return {
    rootHex := frToHex inclusion.root
    leafHex := frToHex inclusion.leaf
    leafIndex := index
    proof := groth16Proof.proof
    network := network
    contractId := contractId
    txHash := txHashOf es index }

/-! ## `audit_generate_disclosure_proof` -/

/-- The first second of the UTC day. -/
def dayStart (ts : UInt64) : UInt64 := ts - ts % 86400

/-- The statement about an event with that operation, collection and time (commands.rs:457-467). -/
def disclosureStatement (args : DisclosureArgs) (operation collection : String) (ts : UInt64) : DisclosureStatement where
  opPred := strToField P operation
  collPred := strToField P collection
  tsMin := args.tsMin.getD (dayStart ts)
  tsMax := args.tsMax.getD (dayStart ts + 86399)
  checkOp := args.checkOp
  checkColl := args.checkColl
  checkTs := args.checkTs

def DisclosureStatement.claim (s : DisclosureStatement) : DisclosureClaim where
  opPredHex := frToHex s.opPred
  collPredHex := frToHex s.collPred
  tsMin := s.tsMin
  tsMax := s.tsMax
  checkOp := s.checkOp
  checkColl := s.checkColl
  checkTs := s.checkTs

/-- The clauses of the enabled checks. -/
def claimClauses (s : DisclosureStatement) (operation collection : String) : List String :=
  (if s.checkOp then [s!"operation = \"{operation}\""] else []) ++
  (if s.checkColl then [s!"collection = \"{collection}\""] else []) ++
  (if s.checkTs then [s!"timestamp within [{s.tsMin}, {s.tsMax}] (Unix seconds)"] else [])

def claimText (s : DisclosureStatement) (operation collection : String) : String :=
  let clauses := claimClauses s operation collection
  let joined := " AND ".intercalate clauses
  if clauses.isEmpty then "an event exists in the committed audit log (no predicate checks enabled)"
  else s!"an event with {joined} exists in the committed audit log"

def auditGenerateDisclosureProof (env : ProofEnv) (w : World) (args : DisclosureArgs) :
    Except AppError DisclosureProofResult := do
  let (opening, leaf) ← liftAudit (disclosureOpening P w args.index)
  let event ← okOrElse (w.log.events.find? (·.index = args.index))
    (AppError.validation s!"no event at index {args.index}")
  let inclusion ← liftAudit (AuditLog.proveInclusion P w.log args.index)
  if inclusion.leaf ≠ leaf then
    throw (.internal s!"tree leaf at {args.index} does not match the recomputed v3 commitment")
  let statement := disclosureStatement P args event.operation event.collection opening.ts
  -- made also where `check_ts` is off
  if statement.tsMin > opening.ts ∨ statement.tsMax < opening.ts then
    throw (.validation (s!"time range [{statement.tsMin}, {statement.tsMax}] does not contain the event timestamp — " ++
      "the proof would be unsatisfiable"))
  let groth16Proof ← env.proveDisclosure opening inclusion statement
  let (network, contractId) ← env.chainConfig
  return {
    rootHex := frToHex groth16Proof.publicRoot
    leafHex := frToHex leaf
    leafIndex := args.index
    claim := statement.claim
    claimText := claimText statement event.operation event.collection
    proof := groth16Proof.proof
    network := network
    contractId := contractId }

end

end Desktop
