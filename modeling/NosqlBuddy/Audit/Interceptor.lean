import NosqlBuddy.Oplog.Bson
import NosqlBuddy.Audit.Recording

/-!
# Change events and their leaves

`process_event` (change_stream.rs:316) and the interceptor functions it calls.

| here | there |
| --- | --- |
| `Serde` | the uses of `serde_json::to_string`; `none` is an error |
| `recordInsert`, …, `recordDropIndex` | interceptor.rs:14-216, as the call they make of the log |
| `ChangeEvent`, `OperationType` | the fields of the driver's event that are read; `unknown` is a variant of a later driver |

The results of the interceptor functions only go to the epoch manager (change_stream.rs:337): an event
without a call and a call that fails look the same from outside.
-/

namespace Audit

/-! ## Payloads -/

structure Serde where
  document : Oplog.Document → Option String
  value : Oplog.Bson → Option String
  strings : List String → Option String
  pair : String → String → Option String

/-- `push_length_prefixed` (crypto.rs:229); the length is cut to 32 bits. -/
def lengthPrefixed (data : String) : List UInt8 := Bytes.toBe 4 (strBytes data).length ++ strBytes data

def canonicalPayloadBytes (operation database collection data : String) : List UInt8 :=
  lengthPrefixed operation ++ lengthPrefixed database ++ lengthPrefixed collection ++ lengthPrefixed data

section
variable (J : Serde)

def buildInsertPayload (database collection documentJson : String) : List UInt8 :=
  canonicalPayloadBytes "insert" database collection documentJson

def buildUpdatePayload (database collection filterJson updateJson : String) : List UInt8 :=
  canonicalPayloadBytes "update" database collection ((J.pair filterJson updateJson).getD s!"[{filterJson},{updateJson}]")

def buildDeletePayload (database collection filterJson : String) : List UInt8 :=
  canonicalPayloadBytes "delete" database collection filterJson

def buildDropCollectionPayload (database collection : String) : List UInt8 :=
  canonicalPayloadBytes "drop_collection" database collection ""

def buildDropDatabasePayload (database : String) : List UInt8 := canonicalPayloadBytes "drop_database" database "" ""

def buildRenamePayload (database collection newName : String) : List UInt8 :=
  canonicalPayloadBytes "rename" database collection newName

def buildCreateIndexPayload (database collection keysJson optionsJson : String) : List UInt8 :=
  canonicalPayloadBytes "create_index" database collection ((J.pair keysJson optionsJson).getD s!"[{keysJson},{optionsJson}]")

def buildDropIndexPayload (database collection indexName : String) : List UInt8 :=
  canonicalPayloadBytes "drop_index" database collection indexName

end

/-! ## The interceptor -/

/-- The log that is recorded into: its deployment, whether it has a leaf key, and the time. -/
structure Capture where
  deploymentId : String
  hasLeafKey : Bool
  now : Instant

section
variable (P : Prims) (J : Serde) (c : Capture)

/-- The common body: with a leaf key the canonical payload, without one the text and its hash. -/
def intercept (operation database collection : String) (canonical : List UInt8) (payload : String) : RecordCall :=
  if c.hasLeafKey then .recordV3 c.now c.deploymentId operation database collection canonical
  else .record c.now c.deploymentId operation database collection payload
    (leafFromPayload P operation database collection payload)

def recordInsert (database collection documentJson : String) : RecordCall :=
  intercept P c "insert" database collection (buildInsertPayload database collection documentJson)
    s!"insert|{database}|{collection}|{documentJson}"

def recordUpdate (database collection filterJson updateJson : String) : RecordCall :=
  intercept P c "update" database collection (buildUpdatePayload J database collection filterJson updateJson)
    s!"update|{database}|{collection}|{filterJson}|{updateJson}"

def recordDelete (database collection filterJson : String) : RecordCall :=
  intercept P c "delete" database collection (buildDeletePayload database collection filterJson)
    s!"delete|{database}|{collection}|{filterJson}"

def recordDropCollection (database collection : String) : RecordCall :=
  intercept P c "drop_collection" database collection (buildDropCollectionPayload database collection)
    s!"drop_collection|{database}|{collection}"

def recordDropDatabase (database : String) : RecordCall :=
  intercept P c "drop_database" database "" (buildDropDatabasePayload database) s!"drop_database|{database}"

def recordRenameCollection (database collection newName : String) : RecordCall :=
  intercept P c "rename" database collection (buildRenamePayload database collection newName)
    s!"rename|{database}|{collection}|{newName}"

def recordCreateIndex (database collection keysJson optionsJson : String) : RecordCall :=
  intercept P c "create_index" database collection (buildCreateIndexPayload J database collection keysJson optionsJson)
    s!"create_index|{database}|{collection}|{keysJson}|{optionsJson}"

def recordDropIndex (database collection indexName : String) : RecordCall :=
  intercept P c "drop_index" database collection (buildDropIndexPayload database collection indexName)
    s!"drop_index|{database}|{collection}|{indexName}"

end

/-! ## Events -/

inductive OperationType where
  | insert
  | update
  | replace
  | delete
  | drop
  | dropDatabase
  | rename
  | invalidate
  | other (op : String)
  | unknown
deriving DecidableEq, Repr

structure ChangeNamespace where
  db : String
  coll : Option String

structure UpdateDescription where
  updatedFields : Oplog.Document
  removedFields : List String

structure ChangeEvent where
  operationType : OperationType
  ns : Option ChangeNamespace := none
  /-- `to`, the new namespace of a rename -/
  toNs : Option ChangeNamespace := none
  documentKey : Option Oplog.Document := none
  updateDescription : Option UpdateDescription := none
  fullDocument : Option Oplog.Document := none

namespace ChangeEvent

/-- An operation that is meant to get a leaf, with a namespace. -/
def auditable (ev : ChangeEvent) : Bool :=
  ev.ns.isSome && match ev.operationType with
    | .insert | .update | .replace | .delete | .drop | .dropDatabase | .rename => true
    | .other op => op = "createIndexes" || op = "dropIndexes"
    | .invalidate | .unknown => false

section
variable (J : Serde)

/-- The document key as the filter of an update or a delete. -/
def filterJson (ev : ChangeEvent) : String :=
  match ev.documentKey with
  | some key => (J.document key).getD ""
  | none => "\x7b\x7d"

def updateJson (ev : ChangeEvent) : String :=
  match ev.updateDescription, ev.fullDocument with
  | some ud, _ =>
    let updated := (J.document ud.updatedFields).getD "\x7b\x7d"
    let removed := (J.strings ud.removedFields).getD "[]"
    "\x7b\"updatedFields\":" ++ updated ++ ",\"removedFields\":" ++ removed ++ "\x7d"
  | none, some doc => (J.document doc).getD "\x7b\x7d"
  | none, none => "\x7b\x7d"

/-- The index keys of an expanded `createIndexes` event. -/
def keysJson (ev : ChangeEvent) : String :=
  match ev.fullDocument with
  | some doc => ((Oplog.Document.get doc "key").bind J.value).getD ""
  | none => "\x7b\x7d"

/-- The index name of an expanded `dropIndexes` event. -/
def indexName (ev : ChangeEvent) : String :=
  match ev.documentKey.bind (Oplog.Document.get · "name") with
  | some (.string name) => name
  | _ => "unknown"

end

def newName (ev : ChangeEvent) : String := (ev.toNs.bind ChangeNamespace.coll).getD "renamed"

end ChangeEvent

section
variable (P : Prims) (J : Serde) (c : Capture)

/-- The call that `process_event` makes for an event. -/
def eventCall (ev : ChangeEvent) : Option RecordCall :=
  match ev.ns with
  | none => none
  | some ns =>
    let db := ns.db
    let coll := ns.coll.getD ""
    match ev.operationType with
    | .insert => (ev.fullDocument.bind J.document).map (recordInsert P c db coll)
    | .update | .replace => some (recordUpdate P J c db coll (ev.filterJson J) (ev.updateJson J))
    | .delete => some (recordDelete P c db coll (ev.filterJson J))
    | .drop => some (recordDropCollection P c db coll)
    | .dropDatabase => some (recordDropDatabase P c db)
    | .rename => some (recordRenameCollection P c db coll ev.newName)
    | .other "createIndexes" => some (recordCreateIndex P J c db coll (ev.keysJson J) "\x7b\x7d")
    | .other "dropIndexes" => some (recordDropIndex P c db coll ev.indexName)
    | .other _ | .invalidate | .unknown => none

end

section
variable {P : Prims} {J : Serde}

theorem eventCall_isSome (c : Capture) (ha : ev.auditable = true)
    (hdoc : ev.operationType = .insert → (ev.fullDocument.bind J.document).isSome) : (eventCall P J c ev).isSome := by
  obtain ⟨op, ns, toNs, key, ud, full⟩ := ev
  obtain ⟨hns, hop⟩ := Bool.and_eq_true_iff.1 ha
  obtain ⟨ns', rfl⟩ := Option.isSome_iff_exists.1 hns
  unfold eventCall
  cases op with
  | insert =>
    simp only [Option.isSome_map]
    exact hdoc rfl
  | other op =>
    have hcase : op = "createIndexes" ∨ op = "dropIndexes" := by simpa using hop
    rcases hcase with rfl | rfl
    · rfl
    · rfl
  | invalidate => cases hop
  | unknown => cases hop
  | update => rfl
  | replace => rfl
  | delete => rfl
  | drop => rfl
  | dropDatabase => rfl
  | rename => rfl

theorem auditable_of_eventCall (h : eventCall P J c ev = some call) :
    ev.auditable = true := by
  obtain ⟨op, ns, toNs, key, ud, full⟩ := ev
  unfold eventCall at h
  cases ns with
  | none => cases h
  | some ns =>
    simp only at h
    split at h
    all_goals first
      | cases h; done
      | rfl

theorem eventCall_intercept (h : eventCall P J c ev = some call) :
    ∃ op db coll canonical payload, call = intercept P c op db coll canonical payload := by
  unfold eventCall at h
  split at h
  · cases h
  · simp only at h
    split at h
    · obtain ⟨json, _, rfl⟩ := Option.map_eq_some_iff.1 h
      exact ⟨_, _, _, _, _, rfl⟩
    all_goals first
      | cases h; done
      | obtain rfl := Option.some.inj h
        exact ⟨_, _, _, _, _, rfl⟩

theorem eventCall_entry (hl : P.Lawful) {key : Option Bytes32} {c : Capture} (hc : c.hasLeafKey = key.isSome)
    {ev : ChangeEvent} {call : RecordCall} (h : eventCall P J c ev = some call) :
    ∃ e, call.entry P key = some e ∧ e.Honest P key := by
  obtain ⟨op, db, coll, canonical, payload, rfl⟩ := eventCall_intercept h
  unfold intercept
  rw [hc]
  cases key with
  | none => exact ⟨_, rfl, fun _ _ _ => rfl⟩
  | some k => exact ⟨_, rfl, recordV3Entry_honest hl k _ _ _ _ _ _⟩

end

end Audit
