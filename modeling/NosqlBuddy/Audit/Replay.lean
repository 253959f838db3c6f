import NosqlBuddy.Lib.Text
import NosqlBuddy.Audit.Log

/-!
# Opening a data directory

`set_persistence_dir` (mod.rs:361) with its two readers of `events.jsonl`:

* `replay_file` (mod.rs:633) rebuilds the tree from the events and checks each event's leaf, index
  and `root_after` on the way;
* `verify_against_tree` (mod.rs:494) is taken when `tree.sled` could be loaded. It checks each leaf
  against its own line, each index against the number of loaded leaves, and the `root_after` of the
  last line only.

Both read the file in the same way (`readLog`): lines that parse as neither an event nor metadata are
taken for a torn write, the file is cut before the first of them, and the metadata lines are applied.
-/

namespace Audit
open Mutation Text

section
variable (P : Prims)

/-! ## Reading the file -/

/-- `std::fs::read_to_string`. -/
def readToString (fault : Option String) (dir : String) : AuditM (List Char) := do
  let w ← get
  match fault with
  | some e => throw (.io e)
  | none =>
    match (w.disk dir).events with
    | none => throw (.io "No such file or directory (os error 2)")
    | some bytes =>
      match bytes.utf8Decode? with
      | some text => return text.toList
      | none => throw (.io "stream did not contain valid UTF-8")

/-- The parsing loop of both readers: the events, and the number of the first line that is neither an
event nor metadata. -/
def scanLines : Nat → List (List Char) → List PersistedEvent × Option Nat
  | _, [] => ([], none)
  | i, line :: rest =>
    if trim line = [] then scanLines (i + 1) rest
    else match P.eventFromStr (trim line) with
      | some ev => let (parsed, firstBad) := scanLines (i + 1) rest; (ev :: parsed, firstBad)
      | none =>
        match (P.valueFromStr (trim line)).bind (·.get "meta") with
        | some _ => scanLines (i + 1) rest
        | none => ([], some i)

/-- The text that replaces a file whose first bad line is `badIdx`. -/
def cleanText (lines : List (List Char)) (badIdx : Nat) : List Char :=
  let clean := join (lines.take badIdx)
  if clean = [] then [] else clean ++ ['\n']

structure Metadata where
  legalHolds : Finset Domain
  retained : Finmap fun _ : Domain => List DomainRetentionRoot

/-- The effect of a `legal_hold` line. -/
def Metadata.hold (m : Metadata) (key : Domain) (hold : Bool) : Metadata :=
  { m with legalHolds := if hold then insert key m.legalHolds else m.legalHolds.erase key }

/-- The effect of a `pruned_domain` line: a root already retained is not added again. -/
def Metadata.retain (m : Metadata) (key : Domain) (r : DomainRetentionRoot) : Metadata :=
  let roots := (m.retained.lookup key).getD []
  let known := roots.any fun r' => r'.maxIndex = r.maxIndex && r'.rootHex = r.rootHex
  { m with retained := m.retained.insert key (if known then roots else roots ++ [r]) }

/-- One line of `replay_metadata_lines` (mod.rs:767). -/
def metadataLine (m : Metadata) (line : List Char) : Metadata :=
  if trim line = [] then m
  else match P.valueFromStr (trim line) with
    | none => m
    | some val =>
      match val.getStr "meta" with
      | some "legal_hold" =>
        match val.getStr "deployment_id", val.getStr "database", val.getBool "hold" with
        | some dep, some db, some hold => m.hold (dep, db) hold
        | _, _, _ => m
      | some "pruned_domain" =>
        match val.getStr "deployment_id", val.getStr "database", val.getStr "root_hex", val.getU64 "event_count",
          val.getU64 "max_index", val.getStr "pruned_at" with
        | some dep, some db, some rootHex, some eventCount, some maxIndex, some prunedAt =>
          m.retain (dep, db) ⟨rootHex, eventCount, maxIndex, prunedAt⟩
        | _, _, _, _, _, _ => m
      | _ => m

def metadataLines (lines : List (List Char)) : Metadata := lines.foldl (metadataLine P) ⟨∅, ∅⟩

/-- `replay_metadata_lines` (mod.rs:767). -/
def replayMetadataLines (io : Io) (dir : String) : AuditM Unit := do
  let text ← readToString io.reread dir
  let m := metadataLines P (lines text)
  modify fun w => { w with log := { w.log with legalHolds := m.legalHolds, retainedDomainRoots := m.retained } }

/-- The common first half of the two readers. -/
def readLog (io : Io) (dir : String) : AuditM (List PersistedEvent) := do
  let text ← readToString io.read dir
  let (parsed, firstBad) := scanLines P 0 (lines text)
  match firstBad with
  | none => pure ()
  | some badIdx =>
    match io.rewrite with
    | some (content, e) =>
      modify fun w => w.setDir dir { w.disk dir with events := some content }
      throw (.io e)
    | none =>
      modify fun w => w.setDir dir { w.disk dir with
        events := some (String.ofList (cleanText (lines text) badIdx)).toByteArray }
  replayMetadataLines P io dir
  return parsed

/-- `apply_retention_to_events` (mod.rs:832). -/
def applyRetention (retained : Finmap fun _ : Domain => List DomainRetentionRoot) (events : List AuditEvent) :
    List AuditEvent :=
  events.filter fun ev =>
    match retained.lookup (ev.deploymentId, ev.database) with
    | some roots => ¬ roots.any fun r => ev.index ≤ r.maxIndex
    | none => true

/-! ## Replaying into an empty tree -/

/-- What the replay loop writes. -/
structure Replay where
  tree : AuditMerkleTree 20
  rootAfterByIndex : List String
  seqCounters : Finmap fun _ : Domain => Nat
  events : List AuditEvent

def leafMismatch (ev : PersistedEvent) (recomputedHex : String) : AuditError :=
  .zkAudit s!"audit log tamper detected at index {ev.index}: leaf mismatch (stored {ev.leafHex}, recomputed {recomputedHex})"

/-- The event under the next sequence number of its domain. -/
def countEvent (seqs : Finmap fun _ : Domain => Nat) (ev : PersistedEvent) :
    AuditEvent × Finmap fun _ : Domain => Nat :=
  let (sequence, seqs) := nextSequence seqs ev.domain
  (ev.toAuditEvent sequence, seqs)

/-- The replay loop (mod.rs:692-753). -/
def replayEvents (leafKey : Option Bytes32) : List PersistedEvent → Replay → Except AuditError Unit × Replay
  | [], st => (.ok (), st)
  | ev :: evs, st =>
    match recomputeLeaf P leafKey ev with
    | .error e => (.error e, st)
    | .ok leaf =>
      if frToHex leaf ≠ ev.leafHex then (.error (leafMismatch ev (frToHex leaf)), st)
      else
        let (tree, insertedIdx) := st.tree.insert leaf
        if insertedIdx ≠ ev.index then
          (.error (.zkAudit
            s!"audit log tamper detected: index mismatch at line {ev.index} (expected {ev.index}, got {insertedIdx})"),
            { st with tree := tree })
        else
          let rootHex := frToHex (tree.root P)
          if rootHex ≠ ev.rootAfter then
            (.error (.zkAudit
              s!"audit log tamper detected at index {ev.index}: root_after mismatch (stored {ev.rootAfter}, recomputed {rootHex})"),
              { st with tree := tree })
          else
            let (auditEvent, seqCounters) := countEvent st.seqCounters ev
            replayEvents leafKey evs ⟨tree, st.rootAfterByIndex ++ [rootHex], seqCounters, st.events ++ [auditEvent]⟩

/-- `replay_file` (mod.rs:633). -/
def replayFile (io : Io) (dir : String) : AuditM (List PersistedEvent) := do
  let parsed ← readLog P io dir
  if parsed.isEmpty then return []
  let w ← get
  if w.log.events ≠ [] ∨ w.log.tree.leafCount ≠ 0 then
    throw (.zkAudit s!"cannot replay into a non-empty audit log ({w.log.events.length} event(s) already in memory)")
  let (result, st) := replayEvents P w.log.leafKey parsed ⟨w.log.tree, w.log.rootAfterByIndex, ∅, w.log.events⟩
  set { w with log := { w.log with
    tree := st.tree, rootAfterByIndex := st.rootAfterByIndex, events := st.events } }
  match result with
  | .error e => throw e
  | .ok () =>
    modify fun w => { w with log := { w.log with
      sequences := st.seqCounters
      events := applyRetention w.log.retainedDomainRoots w.log.events } }
    return parsed

/-! ## Verifying against the loaded tree -/

/-- The verification loop (mod.rs:555-603): the counters of a complete pass, and the events pushed. -/
def verifyEvents (leafKey : Option Bytes32) (leafCount : Nat) : List PersistedEvent →
    (Finmap fun _ : Domain => Nat) → List AuditEvent →
    Except AuditError (Finmap fun _ : Domain => Nat) × List AuditEvent
  | [], seqs, events => (.ok seqs, events)
  | ev :: evs, seqs, events =>
    match recomputeLeaf P leafKey ev with
    | .error e => (.error e, events)
    | .ok leaf =>
      if frToHex leaf ≠ ev.leafHex then (.error (leafMismatch ev (frToHex leaf)), events)
      else if ev.index ≥ leafCount then
        (.error (.zkAudit
          s!"audit log tamper detected at index {ev.index}: index {ev.index} exceeds tree leaf count {leafCount}"),
          events)
      else
        let (auditEvent, seqs) := countEvent seqs ev
        verifyEvents leafKey leafCount evs seqs (events ++ [auditEvent])

/-- `verify_against_tree` (mod.rs:494). -/
def verifyAgainstTree (io : Io) (dir : String) : AuditM (List PersistedEvent) := do
  let parsed ← readLog P io dir
  if parsed.isEmpty then return []
  let w ← get
  if w.log.events ≠ [] then
    throw (.zkAudit s!"cannot verify into a non-empty audit log ({w.log.events.length} event(s) already in memory)")
  let (result, events) := verifyEvents P w.log.leafKey w.log.tree.leafCount parsed ∅ w.log.events
  set { w with log := { w.log with events := events } }
  match result with
  | .error e => throw e
  | .ok seqCounters =>
    modify fun w => { w with log := { w.log with
      sequences := seqCounters, rootAfterByIndex := parsed.map (·.rootAfter) } }
    let treeRootHex := frToHex (w.log.tree.root P)
    match parsed.getLast? with
    | some last =>
      if last.rootAfter ≠ treeRootHex then
        throw (.zkAudit
          s!"audit log tamper detected: final root mismatch (stored {last.rootAfter}, tree {treeRootHex})")
      else pure ()
    | none => pure ()
    modify fun w => { w with log := { w.log with
      events := applyRetention w.log.retainedDomainRoots w.log.events } }
    return parsed

/-! ## `set_persistence_dir` -/

/-- Load the tree from `tree.sled`, if it exists, opens and is complete (mod.rs:371-397). -/
def loadSled (io : Io) (dir : String) : AuditM Bool := do
  let w ← get
  match (w.disk dir).sled, io.sledOpen with
  | some db, none =>
    match db.loadTree io.sledGet with
    | .ok (some (tree, _)) =>
      set { w with log := { w.log with tree := tree } }
      return true
    | _ => return false
  | _, _ => return false

/-- `SledTreeStore::open(&sled_path)?`, which creates the store, and the new handle (mod.rs:400-404). -/
def openSled (io : Io) (dir : String) : AuditM Unit := do
  check io.sledReopen fun e => .validation s!"open sled tree store: {e}"
  modify fun w => { w.setDir dir { w.disk dir with sled := some ((w.disk dir).sled.getD .empty) } with
    log := { w.log with sledStore := some dir } }

/-- Read an existing `events.jsonl` (mod.rs:410-422). -/
def readEvents (io : Io) (dir : String) (sledLoaded : Bool) : AuditM (List PersistedEvent) := do
  let w ← get
  match (w.disk dir).events with
  | none => return []
  | some _ => if sledLoaded then verifyAgainstTree P io dir else replayFile P io dir

/-- Open `events.jsonl` for append, creating it (mod.rs:425-435). -/
def openAppend (io : Io) (dir : String) : AuditM Unit := do
  check io.openAppend .io
  modify fun w => { w.setDir dir { w.disk dir with events := some ((w.disk dir).events.getD ByteArray.empty) } with
    log := { w.log with persistence := some dir } }

/-- `set_persistence_dir` (mod.rs:361). -/
def setPersistenceDir (io : Io) (dir : String) : AuditM Unit := do
  check io.createDir .io
  let sledLoaded ← loadSled io dir
  openSled io dir
  let _ ← readEvents P io dir sledLoaded
  openAppend io dir

end

end Audit
