import NosqlBuddy.Lib.Mutation
import NosqlBuddy.Audit.Commitment
import NosqlBuddy.Audit.MerkleTree

/-!
# The audit log: state, disk and the writing operations

`audit-service/src/audit/mod.rs`, `audit-service/src/audit/sled_store.rs`.

| here | there |
| --- | --- |
| `AuditLog` | `AuditLog` (mod.rs:193); a mutex is its content |
| `Dir`, `World` | the two files below a data directory; the log together with the disk |

Every operation returns the state it leaves also when it fails: nothing is rolled back.
-/

namespace Audit
open Mutation

/-! ## Disk -/

/-- The keys of `tree.sled` that the tree store reads and writes. -/
structure SledTree where
  leafCount : Option Nat
  rootHex : Option String
  leaf : Nat → Option (List UInt8)

/-- The files of `<dir>/audit`; a missing file is `none`. -/
structure Dir where
  events : Option ByteArray
  sled : Option SledTree

/-- The outside calls that fail during one operation; `none` is success. -/
structure Io where
  createDir : Option String := none
  sledOpen : Option String := none
  sledGet : Option String := none
  sledReopen : Option String := none
  read : Option String := none
  /-- a failing `fs::write` leaves some other content behind -/
  rewrite : Option (ByteArray × String) := none
  reread : Option String := none
  openAppend : Option String := none
  /-- a failing `writeln!`, after this many bytes -/
  write : Option (Nat × String) := none
  sync : Option String := none
  /-- a failing `save_leaf`, after this many of its writes -/
  sledSave : Option (Nat × String) := none
  sledClear : Option String := none
  truncate : Option String := none
  reopen : Option String := none

namespace SledTree

def empty : SledTree := ⟨none, none, fun _ => none⟩

/-- The first `n` of the three inserts of `save_leaf`: leaf, leaf count, root. -/
def inserts (n index : Nat) (leaf root : Fr) (db : SledTree) : SledTree :=
  let db := if 0 < n then { db with leaf := Function.update db.leaf index (some (toBytesBe leaf)) } else db
  let db := if 1 < n then { db with leafCount := some (index + 1) } else db
  if 2 < n then { db with rootHex := some (frToHex root) } else db

/-- `save_leaf` (sled_store.rs:60). -/
def saveLeaf (fault : Option (Nat × String)) (index : Nat) (leaf root : Fr) (db : SledTree) :
    SledTree × Except AuditError Unit :=
  match fault with
  | none => (db.inserts 3 index leaf root, .ok ())
  | some (n, e) =>
    let what := if n = 0 then "insert leaf" else if n = 1 then "insert leaf_count"
      else if n = 2 then "insert root_hex" else "flush"
    (db.inserts n index leaf root, .error (.validation s!"sled {what}: {e}"))

/-- The loop of `load_tree` over the indices below `n`. -/
def loadLeaves (db : SledTree) : Nat → Except AuditError (List Fr)
  | 0 => .ok []
  | n + 1 => do
    let leaves ← db.loadLeaves n
    match db.leaf n with
    | some bytes => return leaves ++ [fromBeBytesModOrder bytes]
    | none => throw (.validation s!"missing leaf {n} in sled store")

/-- `load_tree` (sled_store.rs:89). A failing `get` is an error wherever it happens. -/
def loadTree (fault : Option String) (db : SledTree) :
    Except AuditError (Option (AuditMerkleTree 20 × String)) :=
  match fault with
  | some e => .error (.validation s!"sled get leaf_count: {e}")
  | none =>
    match db.leafCount with
    | none => .ok none
    | some leafCount => do
      let leaves ← db.loadLeaves leafCount
      return some (⟨leaves⟩, db.rootHex.getD "")

end SledTree

/-! ## State -/

structure AuditLog where
  tree : AuditMerkleTree 20
  events : List AuditEvent
  sequences : Finmap fun _ : Domain => Nat
  /-- the directory whose `events.jsonl` is open for append -/
  persistence : Option String
  /-- the directory whose `tree.sled` is open -/
  sledStore : Option String
  legalHolds : Finset Domain
  retainedDomainRoots : Finmap fun _ : Domain => List DomainRetentionRoot
  leafKey : Option Bytes32
  rootAfterByIndex : List String

structure World where
  log : AuditLog
  disk : String → Dir

abbrev AuditM := Mut World AuditError

namespace AuditLog

/-- `AuditLog::new` (mod.rs:236). -/
def new : AuditLog where
  tree := .empty
  events := []
  sequences := ∅
  persistence := none
  sledStore := none
  legalHolds := ∅
  retainedDomainRoots := ∅
  leafKey := none
  rootAfterByIndex := []

/-- `root_after_at` (mod.rs:247). -/
def rootAfterAt (log : AuditLog) (index : Nat) : Option String := log.rootAfterByIndex[index]?

def leafCount (log : AuditLog) : Nat := log.tree.leafCount

end AuditLog

/-- `*entry(domain).or_insert(0)`, then `+= 1`: the number given out and the new counters. -/
def nextSequence (seqs : Finmap fun _ : Domain => Nat) (domain : Domain) :
    Nat × Finmap fun _ : Domain => Nat :=
  let sequence := (seqs.lookup domain).getD 0
  (sequence, seqs.insert domain (sequence + 1))

/-- An outside call without a result. -/
def check (fault : Option String) (mk : String → AuditError) : AuditM Unit :=
  match fault with
  | some e => throw (mk e)
  | none => pure ()

def World.setDir (w : World) (dir : String) (d : Dir) : World :=
  { w with disk := Function.update w.disk dir d }

/-- Append bytes to `events.jsonl`. -/
def World.append (w : World) (dir : String) (bytes : ByteArray) : World :=
  w.setDir dir { w.disk dir with events := some (((w.disk dir).events.getD ByteArray.empty) ++ bytes) }

def lineBytes (line : List Char) : ByteArray := (String.ofList (line ++ ['\n'])).toByteArray

/-- `writeln!(file, "{line}")?; file.sync_all()?`. -/
def appendLine (io : Io) (dir : String) (line : List Char) : AuditM Unit := do
  match io.write with
  | some (n, e) =>
    modify (·.append dir ((lineBytes line).extract 0 n))
    throw (.io e)
  | none =>
    modify (·.append dir (lineBytes line))
    check io.sync .io

section
variable (P : Prims)

/-! ## Recording -/

/-- The arguments of `record_inner`. -/
structure Entry where
  deploymentId : String
  operation : String
  database : String
  collection : String
  payload : String
  leaf : Fr
  version : Nat
  timestamp : String
deriving DecidableEq

def Entry.domain (e : Entry) : Domain := (e.deploymentId, e.database)

/-- The line that `record_inner` writes for an entry with the given position. -/
def Entry.persisted (e : Entry) (index sequence : Nat) (rootAfter : String) : PersistedEvent where
  index := index
  operation := e.operation
  database := e.database
  collection := e.collection
  deploymentId := e.deploymentId
  sequence := sequence
  payload := e.payload
  leafHex := frToHex e.leaf
  rootAfter := rootAfter
  timestamp := e.timestamp
  version := e.version

/-- The `AuditEvent` that is kept in memory for a line, under the given sequence number. -/
def PersistedEvent.toAuditEvent (ev : PersistedEvent) (sequence : Nat) : AuditEvent where
  index := ev.index
  leafHex := ev.leafHex
  operation := ev.operation
  database := ev.database
  collection := ev.collection
  deploymentId := ev.deploymentId
  sequence := sequence
  timestamp := ev.timestamp

/-- The writes of `record_inner` to the four in-memory structures, in the source's order, and the line
to persist. -/
def AuditLog.push (log : AuditLog) (e : Entry) : AuditLog × PersistedEvent :=
  let (sequence, sequences) := nextSequence log.sequences e.domain
  let (tree, index) := log.tree.insert e.leaf
  let rootAfter := frToHex (tree.root P)
  let persisted := e.persisted index sequence rootAfter
  ({ log with
      sequences := sequences
      tree := tree
      rootAfterByIndex := log.rootAfterByIndex ++ [rootAfter]
      events := log.events ++ [persisted.toAuditEvent sequence] }, persisted)

/-- `record_inner` (mod.rs:936). -/
def recordInner (io : Io) (e : Entry) : AuditM Nat := do
  let w ← get
  let (log, persisted) := w.log.push P e
  set { w with log := log }
  match log.persistence with
  | some dir => appendLine io dir (P.eventToString persisted)
  | none => pure ()
  -- the tree store: a failure is only logged
  match log.sledStore, hexToFr persisted.rootAfter with
  | some dir, .ok root => modify fun w => w.setDir dir { w.disk dir with
      sled := (w.disk dir).sled.map fun db => (db.saveLeaf io.sledSave persisted.index e.leaf root).1 }
  | _, _ => pure ()
  return persisted.index

/-- The entry of a `record` call (mod.rs:861): the leaf is the caller's. -/
def recordEntry (leafKey : Option Bytes32) (now : Instant) (deploymentId operation database collection payload : String)
    (leaf : Fr) : Entry where
  deploymentId := deploymentId
  operation := operation
  database := database
  collection := collection
  payload := payload
  leaf := leaf
  version := if leafKey.isSome then 2 else 1
  timestamp := P.toRfc3339 now

def record (io : Io) (now : Instant) (deploymentId operation database collection payload : String) (leaf : Fr) :
    AuditM Nat := do
  let w ← get
  recordInner P io (recordEntry P w.log.leafKey now deploymentId operation database collection payload leaf)

/-- The entry of a `record_v3` call (mod.rs:894). -/
def recordV3Entry (key : Bytes32) (now : Instant) (deploymentId operation database collection : String)
    (canonicalPayload : List UInt8) : Entry where
  deploymentId := deploymentId
  operation := operation
  database := database
  collection := collection
  payload := P.base64Encode canonicalPayload
  leaf := poseidonLeafV3 P key operation database collection (clampSecs now.secs) canonicalPayload
  version := 3
  timestamp := P.toRfc3339 now

def recordV3 (io : Io) (now : Instant) (deploymentId operation database collection : String)
    (canonicalPayload : List UInt8) : AuditM Nat := do
  let w ← get
  match w.log.leafKey with
  | none => throw (.validation "v3 events require a leaf key, but none is configured")
  | some key => recordInner P io (recordV3Entry P key now deploymentId operation database collection canonicalPayload)

/-! ## Holds, pruning, reset -/

def legalHoldMeta (deploymentId database : String) (hold : Bool) : Json :=
  .obj [("meta", .str "legal_hold"), ("deployment_id", .str deploymentId), ("database", .str database),
    ("hold", .bool hold)]

/-- `set_legal_hold` (mod.rs:451). -/
def setLegalHold (io : Io) (deploymentId database : String) (hold : Bool) : AuditM Unit := do
  let key := (deploymentId, database)
  modify fun w => { w with log := { w.log with
    legalHolds := if hold then insert key w.log.legalHolds else w.log.legalHolds.erase key } }
  let w ← get
  match w.log.persistence with
  | some dir => appendLine io dir (P.valueToString (legalHoldMeta deploymentId database hold))
  | none => pure ()

/-- The loop of `prune_domain` over the events: the leaves of the domain and its largest index. -/
def pruneScan (key : Domain) : List AuditEvent → List Fr → Option Nat → Except AuditError (List Fr × Option Nat)
  | [], leaves, maxIndex => .ok (leaves, maxIndex)
  | ev :: evs, leaves, maxIndex =>
    if ev.deploymentId = key.1 ∧ ev.database = key.2 then do
      let leaf ← hexToFr ev.leafHex
      pruneScan key evs (leaves ++ [leaf]) (some (maxIndex.elim ev.index fun i => max i ev.index))
    else pruneScan key evs leaves maxIndex

def prunedDomainMeta (deploymentId database : String) (r : DomainRetentionRoot) : Json :=
  .obj [("meta", .str "pruned_domain"), ("deployment_id", .str deploymentId), ("database", .str database),
    ("root_hex", .str r.rootHex), ("event_count", .num (some r.eventCount)), ("max_index", .num (some r.maxIndex)),
    ("pruned_at", .str r.prunedAt)]

/-- `prune_domain` (mod.rs:1435). -/
def pruneDomain (io : Io) (now : Instant) (deploymentId database : String) : AuditM (Option DomainRetentionRoot) := do
  let w ← get
  if (deploymentId, database) ∈ w.log.legalHolds then
    throw (.validation s!"cannot prune audit domain {deploymentId}/{database}: legal hold is active")
  match pruneScan (deploymentId, database) w.log.events [] none with
  | .error e => throw e
  | .ok (_, none) => return none
  | .ok (leaves, some maxIndex) =>
    let retainedRoot : DomainRetentionRoot :=
      ⟨frToHex ((⟨leaves⟩ : AuditMerkleTree 20).root P), leaves.length, maxIndex, P.toRfc3339 now⟩
    match w.log.persistence with
    | some dir => appendLine io dir (P.valueToString (prunedDomainMeta deploymentId database retainedRoot))
    | none => pure ()
    modify fun w => { w with log := { w.log with
      retainedDomainRoots := w.log.retainedDomainRoots.insert (deploymentId, database)
        ((w.log.retainedDomainRoots.lookup (deploymentId, database)).getD [] ++ [retainedRoot])
      events := w.log.events.filter fun ev => ¬ (ev.deploymentId = deploymentId ∧ ev.database = database) } }
    return some retainedRoot

/-- `clear` (mod.rs:1210). It does not touch `root_after_by_index`. -/
def clear (io : Io) : AuditM Unit := do
  modify fun w => { w with log := { w.log with
    tree := .empty, events := [], sequences := ∅, legalHolds := ∅, retainedDomainRoots := ∅ } }
  let w ← get
  match w.log.sledStore with
  | some dir =>
    check io.sledClear fun e => .validation s!"sled clear: {e}"
    modify fun w => w.setDir dir { w.disk dir with sled := some .empty }
  | none => pure ()
  match w.log.persistence with
  | some dir =>
    check io.truncate .io
    modify fun w => w.setDir dir { w.disk dir with events := some ByteArray.empty }
    check io.reopen .io
  | none => pure ()

end

end Audit
