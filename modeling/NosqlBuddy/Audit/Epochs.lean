import Mathlib.Data.Prod.Lex
import NosqlBuddy.Audit.Log

/-!
# Epochs

`audit-service/src/audit/epoch.rs`, `OplogTimestamp` of `audit-service/src/audit/oplog.rs`.

| here | there |
| --- | --- |
| `Epoch`, `EpochConfig`, `EpochManager` | epoch.rs:72, :52, :126; a mutex is its content |
| `EpochFile`, `EpochStore`, `EpochIo` | the state file, by what `load_from_file` reads in it; the manager with its file; the outside calls of `save` that fail |

`record_event`, `close_current_epoch` and the synchronisation end an epoch with the same lines
(`closeAt`); they differ in the index they end it at.
-/

namespace Audit
open Mutation

/-! ## Timestamps -/

/-- A BSON timestamp of the oplog. -/
structure OplogTimestamp where
  time : UInt32
  increment : UInt32
deriving DecidableEq, Repr

namespace OplogTimestamp

def zero : OplogTimestamp := ⟨0, 0⟩

/-- `#[derive(PartialOrd, Ord)]`: by `time`, then by `increment`. -/
def lexicographic (ts : OplogTimestamp) : ℕ ×ₗ ℕ := toLex (ts.time.toNat, ts.increment.toNat)

theorem lexicographic_injective : Function.Injective lexicographic := by
  rintro ⟨t, i⟩ ⟨t', i'⟩ h
  obtain ⟨h1, h2⟩ := Prod.mk.inj (toLex.injective h)
  obtain rfl : t = t' := UInt32.toNat_inj.1 h1
  obtain rfl : i = i' := UInt32.toNat_inj.1 h2
  rfl

instance : LinearOrder OplogTimestamp := LinearOrder.lift' lexicographic lexicographic_injective

theorem zero_le (ts : OplogTimestamp) : zero ≤ ts := by
  show lexicographic zero ≤ lexicographic ts
  rw [Prod.Lex.le_iff]
  simp only [lexicographic, zero, ofLex_toLex, UInt32.toNat_ofNat]
  omega

end OplogTimestamp

/-! ## Epochs -/

structure Epoch where
  epochNumber : Nat
  startIndex : Nat
  endIndex : Option Nat
  rootHex : Option String
  eventCount : Nat
  committed : Bool
  committedAt : Option String
  txHash : Option String
  oplogStartTs : Option OplogTimestamp
  oplogEndTs : Option OplogTimestamp
  oplogEntryCount : Option Nat
  oplogMerkleRootHex : Option String
  oplogMajorityCommitTs : Option OplogTimestamp
deriving DecidableEq, Repr

namespace Epoch

/-- `Epoch::new` (epoch.rs:97). -/
def new (epochNumber startIndex : Nat) : Epoch where
  epochNumber := epochNumber
  startIndex := startIndex
  endIndex := none
  rootHex := none
  eventCount := 0
  committed := false
  committedAt := none
  txHash := none
  oplogStartTs := none
  oplogEndTs := none
  oplogEntryCount := none
  oplogMerkleRootHex := none
  oplogMajorityCommitTs := none

def isOpen (e : Epoch) : Bool := e.endIndex.isNone

def setCount (e : Epoch) (n : Nat) : Epoch := { e with eventCount := n }

@[simp] theorem setCount_eventCount (e : Epoch) (n : Nat) : (e.setCount n).eventCount = n := rfl

@[simp] theorem setCount_startIndex (e : Epoch) (n : Nat) : (e.setCount n).startIndex = e.startIndex := rfl

def freeze (e : Epoch) (endIndex : Nat) (root : String) : Epoch :=
  { e with endIndex := some endIndex, rootHex := some root }

end Epoch

/-- `Vec<Epoch>`, as the epochs before the last one and the last one. -/
structure EpochList where
  earlier : List Epoch
  last : Epoch
deriving DecidableEq, Repr

namespace EpochList

def toList (es : EpochList) : List Epoch := es.earlier ++ [es.last]

def push (es : EpochList) (e : Epoch) : EpochList := ⟨es.toList, e⟩

/-- The vector with the first epoch of that number replaced. -/
def updateFirst (n : Nat) (f : Epoch → Epoch) : List Epoch → List Epoch
  | [] => []
  | e :: es => if e.epochNumber = n then f e :: es else e :: updateFirst n f es

def find (es : EpochList) (n : Nat) : Option Epoch := es.toList.find? (·.epochNumber = n)

def update (es : EpochList) (n : Nat) (f : Epoch → Epoch) : EpochList :=
  if es.earlier.any (·.epochNumber = n) then { es with earlier := updateFirst n f es.earlier }
  else if es.last.epochNumber = n then { es with last := f es.last }
  else es

end EpochList

structure EpochConfig where
  eventThreshold : Nat
  timeThresholdSecs : Nat
deriving DecidableEq, Repr

structure EpochManager where
  config : EpochConfig
  epochs : EpochList
  nextOplogStartTs : Option OplogTimestamp
  persistencePath : Option String
deriving DecidableEq, Repr

/-- `PersistedEpochState` (epoch.rs:580). -/
structure PersistedEpochState where
  epochs : EpochList
  nextOplogStartTs : Option OplogTimestamp
deriving DecidableEq, Repr

/-- What is found at the path of the state file. -/
inductive EpochFile where
  | missing
  | holds (state : PersistedEpochState)
  /-- what a failing `fs::write` leaves -/
  | unreadable
deriving DecidableEq, Repr

structure EpochStore where
  manager : EpochManager
  files : String → EpochFile

/-- The outside calls of one `save` that fail. -/
structure EpochIo where
  createDir : Option String := none
  serialize : Option String := none
  write : Option String := none

abbrev EpochM := Mut EpochStore AuditError

namespace EpochManager

/-- `EpochManager::new` (epoch.rs:140). -/
def new (config : EpochConfig) : EpochManager := ⟨config, ⟨[], Epoch.new 0 0⟩, none, none⟩

/-- The state a save writes. -/
def persisted (m : EpochManager) : PersistedEpochState := ⟨m.epochs, m.nextOplogStartTs⟩

/-- `next_oplog_start_ts` (epoch.rs:267). -/
def oplogStart (m : EpochManager) : OplogTimestamp := m.nextOplogStartTs.getD .zero

/-- The epoch has reached the threshold; 0 turns the threshold off. -/
def shouldClose (m : EpochManager) (eventCount : Nat) : Bool :=
  0 < m.config.eventThreshold ∧ m.config.eventThreshold ≤ eventCount

end EpochManager

namespace EpochStore

def setLast (s : EpochStore) (e : Epoch) : EpochStore :=
  { s with manager := { s.manager with epochs := { s.manager.epochs with last := e } } }

def pushEpoch (s : EpochStore) (e : Epoch) : EpochStore :=
  { s with manager := { s.manager with epochs := s.manager.epochs.push e } }

end EpochStore

/-! ## Operations -/

/-- An outside call of `save`. -/
def checkSave (fault : Option String) (what : String) : EpochM Unit :=
  match fault with
  | some e => throw (.internal s!"{what}: {e}")
  | none => pure ()

/-- `save` (epoch.rs:231). -/
def save (io : EpochIo) : EpochM Unit := do
  let s ← get
  match s.manager.persistencePath with
  | none => pure ()
  | some path =>
    checkSave io.createDir "create epoch state dir"
    checkSave io.serialize "serialize epoch state"
    match io.write with
    | some e =>
      modify fun s => { s with files := Function.update s.files path .unreadable }
      throw (.internal s!"write epoch state: {e}")
    | none => modify fun s => { s with files := Function.update s.files path (.holds s.manager.persisted) }

/-- The root that was captured when leaf `index` was inserted. -/
def rootFor (log : AuditLog) (index : Nat) : EpochM String :=
  match log.rootAfterAt index with
  | some root => pure root
  | none => throw (.validation
      s!"cannot close epoch: no recorded root for index {index} (audit log has fewer than {index + 1} leaves)")

/-- Freeze the last epoch at `endIndex`, start the next one, save. -/
def closeAt (io : EpochIo) (current : Epoch) (endIndex : Nat) (log : AuditLog) : EpochM Epoch := do
  let root ← rootFor log endIndex
  let closed := current.freeze endIndex root
  modify (·.setLast closed)
  modify (·.pushEpoch (Epoch.new (closed.epochNumber + 1) (endIndex + 1)))
  save io
  return closed

/-- `record_event` (epoch.rs:343): an epoch that is full ends at the index of this call. -/
def recordEvent (io : EpochIo) (index : Nat) (log : AuditLog) : EpochM (Option Epoch) := do
  let s ← get
  let current := s.manager.epochs.last
  if ¬ current.isOpen then
    throw (.validation "no open epoch to record event into")
  let current := current.setCount (current.eventCount + 1)
  modify (·.setLast current)
  if s.manager.shouldClose current.eventCount then
    let closed ← closeAt io current index log
    return some closed
  else
    return none

/-- `close_current_epoch` (epoch.rs:388): the epoch ends at the index its count gives. -/
def closeCurrentEpoch (io : EpochIo) (log : AuditLog) : EpochM Epoch := do
  let s ← get
  let current := s.manager.epochs.last
  if ¬ current.isOpen then
    throw (.validation "current epoch is already closed")
  if current.eventCount = 0 then
    throw (.validation "cannot close an empty epoch")
  closeAt io current (current.startIndex + current.eventCount - 1) log

/-- `event_count` (mod.rs:1128): the events that are visible, not the leaves. -/
def AuditLog.eventCount (log : AuditLog) : Nat := log.events.length

/-- `sync_open_epoch_with_audit_log` (epoch.rs:478). -/
def syncOpenEpochWithAuditLog (io : EpochIo) (log : AuditLog) : EpochM (Option Epoch) := do
  let s ← get
  let current := s.manager.epochs.last
  if ¬ current.isOpen then
    return none
  let auditCount := log.eventCount
  let newCount := if auditCount > current.startIndex then auditCount - current.startIndex else 0
  let current := current.setCount newCount
  modify (·.setLast current)
  if s.manager.shouldClose newCount then
    let closed ← closeAt io current (current.startIndex + newCount - 1) log
    return some closed
  else
    save io
    return none

/-- The oplog fields that `attach_oplog_hash` writes. -/
structure OplogRange where
  startTs : OplogTimestamp
  endTs : OplogTimestamp
  entryCount : Nat
  merkleRootHex : String
  majorityCommitTs : OplogTimestamp
deriving DecidableEq, Repr

def Epoch.attach (r : OplogRange) (e : Epoch) : Epoch :=
  { e with
    oplogStartTs := some r.startTs
    oplogEndTs := some r.endTs
    oplogEntryCount := some r.entryCount
    oplogMerkleRootHex := some r.merkleRootHex
    oplogMajorityCommitTs := some r.majorityCommitTs }

/-- `attach_oplog_hash` (epoch.rs:284). -/
def attachOplogHash (io : EpochIo) (epochNumber : Nat) (r : OplogRange) : EpochM Epoch := do
  let s ← get
  match s.manager.epochs.find epochNumber with
  | none => throw (.validation s!"epoch {epochNumber} not found")
  | some epoch =>
    if epoch.isOpen then
      throw (.validation s!"epoch {epochNumber} is still open — close it before attaching oplog hash")
    modify fun s => { s with manager := { s.manager with
      epochs := s.manager.epochs.update epochNumber (Epoch.attach r)
      nextOplogStartTs := some r.endTs } }
    save io
    return epoch.attach r

/-- A real hash on file is not replaced by the empty one of a recovered commit. -/
def Epoch.commit (now txHash : String) (e : Epoch) : Epoch :=
  let keepExisting := txHash.isEmpty ∧ (e.txHash.any fun h => ¬ h.isEmpty)
  { e with committed := true, committedAt := some now, txHash := if keepExisting then e.txHash else some txHash }

/-- `mark_committed` (epoch.rs:440); `now` is the RFC 3339 text of the clock. -/
def markCommitted (io : EpochIo) (epochNumber : Nat) (now txHash : String) : EpochM Unit := do
  let s ← get
  match s.manager.epochs.find epochNumber with
  | none => throw (.validation s!"epoch {epochNumber} not found")
  | some _ =>
    modify fun s => { s with manager := { s.manager with
      epochs := s.manager.epochs.update epochNumber (Epoch.commit now txHash) } }
    save io

end Audit
