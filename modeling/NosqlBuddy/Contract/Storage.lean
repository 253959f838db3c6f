import Mathlib.Data.Finmap

/-!
# The commitment contract: data, storage and host

`zk-audit/soroban-contract/src/lib.rs`.

| here | there |
| --- | --- |
| `Proof`, `VerifyingKey`, `RootEntry`, `OplogCommitment`, … | the `#[contracttype]` structs (lib.rs:64-190) |
| `Failure` | how an invocation ends badly: a returned `CommitmentError`, or a trap (panic, failed `require_auth`, host error) |
| `Event` | the tuples given to `env.events().publish` |
| `Ctx` | what the host knows of one invocation: who signed it and the ledger time |

A key family such as `RootEntry(u64)` is a function from the sequence number; `Map` is a `Finmap`.
Counters are `Nat`, with the `overflow-checks = true` of the release profile explicit
(`checkedSucc`).
-/

namespace Contract

abbrev Bytes := List UInt8

/-- `BytesN<n>`. -/
abbrev BytesN (n : Nat) := { b : Bytes // b.length = n }

/-- An account or contract address; the contract only compares addresses. -/
structure Address where
  id : Nat
deriving DecidableEq, Repr

/-! ## Contract types -/

/-- Groth16 proof: `a`, `c` are G1 points, `b` a G2 point, as raw bytes. -/
structure Proof where
  a : Bytes
  b : Bytes
  c : Bytes
deriving DecidableEq, Repr

structure VerifyingKey where
  alpha : Bytes
  beta : Bytes
  gamma : Bytes
  delta : Bytes
  ic : List Bytes
deriving DecidableEq, Repr

structure RootEntry where
  sequence : Nat
  root : Bytes
  timestamp : UInt64
  metadata : String
deriving DecidableEq, Repr

structure OplogCommitment where
  oplogRoot : Bytes
  oplogStartTs : UInt64
  oplogEndTs : UInt64
  oplogEntryCount : UInt64
deriving DecidableEq, Repr

structure OplogAttestation where
  attester : Address
  signature : Bytes
  timestamp : UInt64
deriving DecidableEq, Repr

/-- The public claim of a disclosure proof: what `check_disclosure` turns into public signals. -/
structure Claim where
  root : Bytes
  leaf : Bytes
  opPred : Bytes
  collPred : Bytes
  tsMin : UInt64
  tsMax : UInt64
  checkOp : Bool
  checkColl : Bool
  checkTs : Bool
deriving DecidableEq, Repr

/-- `DisclosureRecord`, its nine claim fields grouped as a `Claim`. -/
structure DisclosureRecord where
  recordId : Nat
  verifier : Address
  claim : Claim
  timestamp : UInt64
deriving DecidableEq, Repr

structure AttestationVerification where
  sequence : Nat
  oplogRoot : Bytes
  attestationCount : Nat
  authorizedCount : Nat
  threshold : Nat
  allMatch : Bool
  verdict : String
deriving DecidableEq, Repr

inductive CommitmentError where
  | unauthorized | rootAlreadyCommitted | noRootCommitted | invalidProofEncoding
  | malformedVerifyingKey | invalidPageSize | rootNotCommitted | verificationFailed
  | notInitialized | attesterNotAuthorized | oplogCommitmentNotFound | invalidSignature
  | duplicateAttestation | invalidOplogRoot | invalidTimestampRange | invalidThreshold
  | disclosureVkAlreadySet | disclosureVkNotSet
deriving DecidableEq, Repr

inductive Failure where
  | err (e : CommitmentError)
  | trap
deriving DecidableEq, Repr

/-! ## Storage -/

inductive Event where
  | commitRoot (sequence : Nat) (root : Bytes) (timestamp : UInt64) (metadata : String)
  | commitOplog (sequence : Nat) (oplogRoot : Bytes) (oplogEndTs oplogEntryCount : UInt64)
  | attestOplog (sequence : Nat) (attester : Address) (timestamp : UInt64)
  | disclose (verifier : Address) (recordId : Nat) (root : Bytes)
deriving DecidableEq, Repr

/-- The contract's ledger state: instance keys, persistent keys, and the events published. -/
structure Storage where
  -- `InstanceKey`
  admin : Option Address
  sequence : Option Nat
  currentRoot : Option Nat
  authorizedAttesters : Option (Finmap fun _ : Address => BytesN 32)
  threshold : Option Nat
  verifyingKey : Option VerifyingKey
  disclosureVk : Option VerifyingKey
  disclosureRecordCount : Option Nat
  -- `PersistentKey`
  rootEntry : Nat → Option RootEntry
  rootIndex : Option (Finmap fun _ : Bytes => Nat)
  oplogCommitment : Nat → Option OplogCommitment
  oplogAttestations : Nat → Option (List OplogAttestation)
  disclosureRecord : Nat → Option DisclosureRecord
  events : List Event

/-- A freshly deployed contract: no key is set. -/
def Storage.empty : Storage where
  admin := none
  sequence := none
  currentRoot := none
  authorizedAttesters := none
  threshold := none
  verifyingKey := none
  disclosureVk := none
  disclosureRecordCount := none
  rootEntry := fun _ => none
  rootIndex := none
  oplogCommitment := fun _ => none
  oplogAttestations := fun _ => none
  disclosureRecord := fun _ => none
  events := []

namespace Storage

/-! The reads with a default (`unwrap_or`, `unwrap_or_else`) the entrypoints share. -/

def seqOr0 (s : Storage) : Nat := s.sequence.getD 0
def index (s : Storage) : Finmap fun _ : Bytes => Nat := s.rootIndex.getD ∅
def attesters (s : Storage) : Finmap fun _ : Address => BytesN 32 := s.authorizedAttesters.getD ∅
def attestations (s : Storage) (sequence : Nat) : List OplogAttestation :=
  (s.oplogAttestations sequence).getD []
def recordCount (s : Storage) : Nat := s.disclosureRecordCount.getD 0

def publish (s : Storage) (e : Event) : Storage := { s with events := s.events ++ [e] }

end Storage

/-! ## Invocation context and host functions -/

structure Ctx where
  /-- the addresses whose `require_auth` succeeds -/
  auths : List Address
  /-- `env.ledger().timestamp()` -/
  timestamp : UInt64
deriving DecidableEq, Repr

/-- The Soroban host functions used by the contract. `none` is a host trap. -/
structure Host where
  sha256 : Bytes → BytesN 32
  /-- `ed25519_verify(public_key, message, signature)`; `false` is a trap -/
  ed25519Verify : BytesN 32 → Bytes → Bytes → Bool
  Fr : Type
  G1 : Type
  G2 : Type
  frFromBytes : BytesN 32 → Fr
  g1FromBytes : BytesN 64 → G1
  g2FromBytes : BytesN 128 → G2
  g1Neg : G1 → G1
  g1Mul : G1 → Fr → Option G1
  g1Add : G1 → G1 → Option G1
  pairingCheck : List G1 → List G2 → Option Bool

/-- `a.require_auth()`. -/
def requireAuth (ctx : Ctx) (a : Address) : Except Failure Unit :=
  if a ∈ ctx.auths then .ok () else .error .trap

/-- `opt.ok_or(e)?`. -/
def okOr {α : Type} (o : Option α) (e : CommitmentError) : Except Failure α :=
  match o with
  | some a => .ok a
  | none => .error (.err e)

/-- A host call: `none` traps. -/
def orTrap {α : Type} (o : Option α) : Except Failure α :=
  match o with
  | some a => .ok a
  | none => .error .trap

/-- `n + 1` on a `u64` with overflow checks. -/
def checkedSucc (n : Nat) : Except Failure Nat :=
  if n + 1 < 2 ^ 64 then .ok (n + 1) else .error .trap

/-- `x.to_be_bytes()` of a `u64`. -/
def toBeBytes (x : UInt64) : Bytes :=
  (List.range 8).map fun i => (x >>> (UInt64.ofNat (8 * (7 - i)))).toUInt8

end Contract
