import NosqlBuddy.Audit.Types
import NosqlBuddy.Lib.Fallible
import NosqlBuddy.Lib.SortedMap
import NosqlBuddy.Oplog.Canonical

/-!
# The attestation manager (attestation.rs)

Publishers register an ed25519 key and attest the roots of epochs; an epoch is "threshold-met" when enough of
its attestations are stored. Both kinds of record are kept in one sled tree, under keys made from texts.

| here | there |
| --- | --- |
| `SledKey`, `RecordTree` | sled's byte keys in their order, and what is stored under them |
| `Crates` | what ed25519-dalek and serde_json answer |
-/

namespace Audit

/-! ## Records -/

/-- `Publisher` (attestation.rs:45). -/
structure Publisher where
  publicKey : String
  name : String
  registeredAt : String
deriving DecidableEq, Repr

/-- `Attestation` (attestation.rs:57). -/
structure Attestation where
  epochNumber : UInt64
  rootHex : String
  publisherPublicKey : String
  signature : String
  submittedAt : String
deriving DecidableEq, Repr

/-- `AttestationStatus` (attestation.rs:73). -/
structure AttestationStatus where
  epochNumber : UInt64
  rootHex : String
  threshold : Nat
  totalPublishers : Nat
  validAttestations : Nat
  thresholdMet : Bool
  attestedBy : List String
  pending : List String
deriving DecidableEq, Repr

/-- A value of the tree. -/
inductive Record where
  | publisher (p : Publisher)
  | attestation (a : Attestation)
deriving DecidableEq, Repr

/-! ## The sled tree -/

/-- A key of the tree; keys are ordered byte by byte. -/
@[ext] structure SledKey where
  bytes : List UInt8
deriving DecidableEq, Repr

instance : LinearOrder SledKey := LinearOrder.lift' (fun k => k.bytes.map UInt8.toNat) fun _ _ h =>
  SledKey.ext (List.map_injective_iff.2 (fun _ _ hb => UInt8.toNat_inj.1 hb) h)

abbrev RecordTree := SortedMap SledKey Record

/-- The outside calls that fail. -/
structure SledIo where
  get : Option String := none
  insert : Option String := none
  remove : Option String := none
  flush : Option String := none
  scan : Option String := none

/-- `publisher_key` (attestation.rs:372). -/
def publisherKey (publicKey : String) : SledKey := ⟨Oplog.utf8 "publisher:" ++ Oplog.utf8 publicKey⟩

/-- `attestation_prefix` (attestation.rs:388). -/
def attestationPrefix (epochNumber : UInt64) : List UInt8 :=
  Oplog.utf8 "attestation:" ++ Bytes.toBe 8 epochNumber.toNat ++ Oplog.utf8 ":"

/-- `attestation_key` (attestation.rs:379). -/
def attestationKey (epochNumber : UInt64) (publicKey : String) : SledKey :=
  ⟨attestationPrefix epochNumber ++ Oplog.utf8 publicKey⟩

/-- `scan_prefix` of sled. -/
def RecordTree.scanPrefix (t : RecordTree) (start : List UInt8) : List Record := t.scan fun k => start.isPrefixOf k.bytes

/-! ## The crates -/

structure Crates where
  /-- the error of `VerifyingKey::from_bytes`; `none` for a key -/
  keyError : List UInt8 → Option String
  /-- the error of `verify` for a key, a message and a signature; `none` when the signature is the key's -/
  verifyError : List UInt8 → List UInt8 → List UInt8 → Option String
  /-- the error of `serde_json` for a record of the other kind -/
  serdeError : String

section
variable (C : Crates)

def orInvalid (fault : Option String) (what : String) : Except AuditError Unit :=
  match fault with
  | some e => .error (.validation s!"{what}: {e}")
  | none => .ok ()

/-- `hex::decode(text)?`. -/
def decodeHex (text what : String) : Except AuditError (List UInt8) :=
  match Bytes.hexDecode text.toList with
  | some bytes => .ok bytes
  | none => .error (.validation s!"{what}: {fromHexError text.toList}")

/-- `verify_signature` (attestation.rs:324). -/
def verifySignature (publicKeyHex rootHex signatureHex : String) : Except AuditError Unit := do
  let pkBytes ← decodeHex publicKeyHex "decode public key"
  let sigBytes ← decodeHex signatureHex "decode signature"
  let rootBytes ← decodeHex rootHex "decode root"
  if pkBytes.length ≠ 32 then
    throw (.validation s!"public key must be 32 bytes, got {pkBytes.length}")
  if sigBytes.length ≠ 64 then
    throw (.validation s!"signature must be 64 bytes, got {sigBytes.length}")
  orInvalid (C.keyError pkBytes) "invalid public key"
  orInvalid (C.verifyError pkBytes rootBytes sigBytes) "signature verification failed"

/-- `what` names the read: one record, or a scan. -/
def Record.asPublisher (what : String) : Record → Except AuditError Publisher
  | .publisher p => .ok p
  | .attestation _ => .error (.internal s!"{what}: {C.serdeError}")

def Record.asAttestation (what : String) : Record → Except AuditError Attestation
  | .attestation a => .ok a
  | .publisher _ => .error (.internal s!"{what}: {C.serdeError}")

end

/-! ## The manager -/

structure AttestationManager where
  threshold : Nat
  store : Option RecordTree

namespace AttestationManager
variable (C : Crates) (io : SledIo)

/-- The manager after setup, on a fresh store or on none. -/
def start (threshold : Nat) (persistent : Bool) : AttestationManager := ⟨threshold, if persistent then some .empty else none⟩

def setThreshold (threshold : Nat) (m : AttestationManager) : AttestationManager := { m with threshold := threshold }

/-- `insert_raw` (sled_store.rs:214), when there is a store: a write that is not flushed is there all the same. -/
def insertRaw (key : SledKey) (r : Record) (m : AttestationManager) : Except AuditError Unit × AttestationManager :=
  match m.store with
  | none => (.ok (), m)
  | some store =>
    match io.insert with
    | some e => (.error (.validation s!"sled insert raw: {e}"), m)
    | none => (orInvalid io.flush "sled flush", { m with store := some (store.insert key r) })

/-- `get_publisher` (attestation.rs:168). -/
def getPublisher (publicKey : String) (m : AttestationManager) : Except AuditError (Option Publisher) :=
  match m.store with
  | none => .ok none
  | some store => do
    orInvalid io.get "sled get raw"
    match store.get (publisherKey publicKey) with
    | none => return none
    | some r => return some (← r.asPublisher C "deserialize publisher")

/-- `get_attestation` (attestation.rs:234). -/
def getAttestation (epochNumber : UInt64) (publicKey : String) (m : AttestationManager) :
    Except AuditError (Option Attestation) :=
  match m.store with
  | none => .ok none
  | some store => do
    orInvalid io.get "sled get raw"
    match store.get (attestationKey epochNumber publicKey) with
    | none => return none
    | some r => return some (← r.asAttestation C "deserialize attestation")

/-- `list_publishers` (attestation.rs:182). -/
def listPublishers (m : AttestationManager) : Except AuditError (List Publisher) :=
  match m.store with
  | none => .ok []
  | some store => do
    orInvalid io.scan "sled scan"
    (store.scanPrefix (Oplog.utf8 "publisher:")).mapM (Record.asPublisher C "deserialize scan result")

/-- `list_attestations` (attestation.rs:252). -/
def listAttestations (epochNumber : UInt64) (m : AttestationManager) : Except AuditError (List Attestation) :=
  match m.store with
  | none => .ok []
  | some store => do
    orInvalid io.scan "sled scan"
    (store.scanPrefix (attestationPrefix epochNumber)).mapM (Record.asAttestation C "deserialize scan result")

/-- The checks of `add_publisher`, and the record it stores. -/
def newPublisher (now publicKey name : String) (m : AttestationManager) : Except AuditError Publisher := do
  let pkBytes ← decodeHex publicKey "invalid public key hex"
  if pkBytes.length ≠ 32 then
    throw (.validation s!"public key must be 32 bytes, got {pkBytes.length}")
  orInvalid (C.keyError pkBytes) "invalid ed25519 key"
  let known ← m.getPublisher C io publicKey
  if known.isSome then
    throw (.validation s!"publisher {publicKey} already registered")
  return ⟨publicKey, name, now⟩

/-- `add_publisher` (attestation.rs:125). -/
def addPublisher (now publicKey name : String) (m : AttestationManager) : Except AuditError Publisher × AttestationManager :=
  match m.newPublisher C io now publicKey name with
  | .error e => (.error e, m)
  | .ok p =>
    match m.insertRaw io (publisherKey p.publicKey) (.publisher p) with
    | (.error e, m) => (.error e, m)
    | (.ok (), m) => (.ok p, m)

/-- `remove_publisher` (attestation.rs:158). -/
def removePublisher (publicKey : String) (m : AttestationManager) : Except AuditError Unit × AttestationManager :=
  match m.store with
  | none => (.ok (), m)
  | some store =>
    match io.remove with
    | some e => (.error (.validation s!"sled remove raw: {e}"), m)
    | none => (orInvalid io.flush "sled flush", { m with store := some (store.remove (publisherKey publicKey)) })

/-- The checks of `submit_attestation`, and the record it stores. -/
def newAttestation (now : String) (epochNumber : UInt64) (rootHex publisherPublicKey signatureHex : String) (m : AttestationManager) :
    Except AuditError Attestation := do
  let known ← m.getPublisher C io publisherPublicKey
  match known with
  | none => throw (.validation s!"publisher {publisherPublicKey} not registered")
  | some publisher =>
    verifySignature C publisher.publicKey rootHex signatureHex
    let earlier ← m.getAttestation C io epochNumber publisherPublicKey
    if earlier.isSome then
      throw (.validation s!"publisher {publisherPublicKey} has already attested epoch {epochNumber}")
    return ⟨epochNumber, rootHex, publisherPublicKey, signatureHex, now⟩

/-- `submit_attestation` (attestation.rs:196). -/
def submitAttestation (now : String) (epochNumber : UInt64) (rootHex publisherPublicKey signatureHex : String)
    (m : AttestationManager) : Except AuditError Attestation × AttestationManager :=
  match m.newAttestation C io now epochNumber rootHex publisherPublicKey signatureHex with
  | .error e => (.error e, m)
  | .ok a =>
    match m.insertRaw io (attestationKey a.epochNumber a.publisherPublicKey) (.attestation a) with
    | (.error e, m) => (.error e, m)
    | (.ok (), m) => (.ok a, m)

/-- `get_status` (attestation.rs:262): every stored attestation of the epoch counts, whatever root it is for. -/
def getStatus (epochNumber : UInt64) (rootHex : String) (m : AttestationManager) : Except AuditError AttestationStatus := do
  let publishers ← m.listPublishers C io
  let attestations ← m.listAttestations C io epochNumber
  let attestedBy := attestations.map (·.publisherPublicKey)
  return {
    epochNumber := epochNumber
    rootHex := rootHex
    threshold := m.threshold
    totalPublishers := publishers.length
    validAttestations := attestations.length
    thresholdMet := m.threshold ≤ attestations.length ∧ 0 < m.threshold
    attestedBy := attestedBy
    pending := (publishers.map (·.publicKey)).filter fun pk => ¬ attestedBy.contains pk }

end AttestationManager

/-! ## Steps -/

inductive ManagerStep where
  | addPublisher (io : SledIo) (now publicKey name : String)
  | removePublisher (io : SledIo) (publicKey : String)
  | submitAttestation (io : SledIo) (now : String) (epochNumber : UInt64) (rootHex publisherPublicKey signatureHex : String)
  | setThreshold (threshold : Nat)

def stepManager (C : Crates) (m : AttestationManager) : ManagerStep → AttestationManager
  | .addPublisher io now publicKey name => (m.addPublisher C io now publicKey name).2
  | .removePublisher io publicKey => (m.removePublisher io publicKey).2
  | .submitAttestation io now epochNumber rootHex publisherPublicKey signatureHex =>
    (m.submitAttestation C io now epochNumber rootHex publisherPublicKey signatureHex).2
  | .setThreshold threshold => m.setThreshold threshold

end Audit
