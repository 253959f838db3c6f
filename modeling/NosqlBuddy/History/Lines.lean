import NosqlBuddy.Jobs.Store
import NosqlBuddy.Lib.JsonRead
import NosqlBuddy.Lib.RecordFile
import NosqlBuddy.Timeline.Store

/-!
# The lines of the history files

| here | there |
| --- | --- |
| `jobJson`, `jobOf` | `#[derive(Serialize, Deserialize)]` of `JobMeta` (job_store.rs:45), keys in camel case |
| `StoredEntry`, `entryJson`, `entryOf` | the same of `TimelineEntry` (timeline_store.rs:76), the fields of the store and the rollback script |

The two files hold one compact JSON object on a line. What is printed here is read back (`jobLines`, `entryLines`); the readers
take the members in the order in which they are printed.
-/

namespace History
open Jobs Timeline RecordFile

/-- An entry of the timeline with the script that it carries. -/
structure StoredEntry extends TimelineEntry where
  rollbackScript : Option String := none
deriving DecidableEq, Repr

/-! ## Values -/

def ofNat (n : Nat) : Json := .number (Nat.toDigits 10 n)

def ofOption {α : Type} (f : α → Json) : Option α → Json
  | none => .null
  | some a => f a

def toNat : Json → Option Nat
  | .number text => some (Nat.ofDigitChars 10 text 0)
  | _ => none

def toStr : Json → Option String
  | .string s => some s
  | _ => none

def toBool : Json → Option Bool
  | .bool b => some b
  | _ => none

/-- `Option<T>`: `null` is `None`. -/
def toOption {α : Type} (f : Json → Option α) : Json → Option (Option α)
  | .null => some none
  | v => (f v).map some

def toStrings : Json → Option (List String)
  | .array items => items.mapM toStr
  | _ => none

/-- The values of an object with these keys. -/
def values (keys : List String) : Json → Option (List Json)
  | .object fs => if fs.map Prod.fst = keys then some (fs.map Prod.snd) else none
  | _ => none

theorem toNat_ofNat (n : Nat) : toNat (ofNat n) = some n := by rw [ofNat, toNat, Nat.ofDigitChars_ten_toDigits]

theorem toOption_ofOption {α : Type} {f : α → Json} {g : Json → Option α} (hf : ∀ a, g (f a) = some a)
    (hnull : ∀ a, f a ≠ .null) (o : Option α) : toOption g (ofOption f o) = some o := by
  cases o with
  | none => rfl
  | some a =>
    have hmap : toOption g (f a) = (g (f a)).map some := by
      unfold toOption
      split
      · next h => exact absurd h (hnull a)
      · rfl
    rw [ofOption, hmap, hf, Option.map_some]

theorem toOption_str (o : Option String) : toOption toStr (ofOption Json.string o) = some o :=
  @toOption_ofOption String Json.string toStr (fun _ => rfl) (fun _ h => by cases h) o

theorem toOption_nat (o : Option Nat) : toOption toNat (ofOption ofNat o) = some o :=
  toOption_ofOption toNat_ofNat (fun _ h => by cases h) o

theorem toStrings_strings (ss : List String) : toStrings (.array (ss.map .string)) = some ss := by
  rw [toStrings]
  induction ss with
  | nil => rfl
  | cons s ss ih => rw [List.map_cons, List.mapM_cons, ih]; rfl

/-! ## Jobs -/

def kindName : JobKind → String
  | .dump => "dump"
  | .restore => "restore"
  | .export => "export"
  | .import => "import"

def kindOf : Json → Option JobKind
  | .string s => [JobKind.dump, .restore, .export, .import].find? fun k => kindName k = s
  | _ => none

def statusName : JobStatus → String
  | .queued => "queued"
  | .running => "running"
  | .done => "done"
  | .failed => "failed"
  | .cancelled => "cancelled"

def statusOf : Json → Option JobStatus
  | .string s => [JobStatus.queued, .running, .done, .failed, .cancelled].find? fun k => statusName k = s
  | _ => none

def scheduleKeys : List String := ["cron", "enabled", "retentionCount", "nextRunAt"]

def scheduleJson (s : ScheduleConfig) : Json :=
  .object (scheduleKeys.zip [.string s.cron, .bool s.enabled, ofOption ofNat s.retentionCount, ofOption .string s.nextRunAt])

def scheduleOf (v : Json) : Option ScheduleConfig := do
  match ← values scheduleKeys v with
  | [cron, enabled, retentionCount, nextRunAt] =>
    return ⟨← toStr cron, ← toBool enabled, ← toOption toNat retentionCount, ← toOption toStr nextRunAt⟩
  | _ => none

def jobKeys : List String :=
  ["jobId", "kind", "status", "connectionId", "profileId", "database", "collections", "createdAt", "startedAt", "finishedAt",
    "outputPath", "sourcePath", "schedule", "parentJobId", "processed", "total", "errors", "message", "configJson"]

def jobValues (j : JobMeta) : List Json :=
  [.string j.jobId, .string (kindName j.kind), .string (statusName j.status), .string j.connectionId,
    .string j.profileId, .string j.database, .array (j.collections.map .string), .string j.createdAt, ofOption .string j.startedAt,
    ofOption .string j.finishedAt, ofOption .string j.outputPath, ofOption .string j.sourcePath, ofOption scheduleJson j.schedule,
    ofOption .string j.parentJobId, ofNat j.processed, ofOption ofNat j.total, ofNat j.errors, .string j.message,
    ofOption .string j.configJson]

def jobJson (j : JobMeta) : Json := .object (jobKeys.zip (jobValues j))

def jobOf (v : Json) : Option JobMeta := do
  match ← values jobKeys v with
  | [jobId, kind, status, connectionId, profileId, database, collections, createdAt, startedAt, finishedAt, outputPath, sourcePath,
      schedule, parentJobId, processed, total, errors, message, configJson] =>
    return ⟨← toStr jobId, ← kindOf kind, ← statusOf status, ← toStr connectionId, ← toStr profileId, ← toStr database,
      ← toStrings collections, ← toStr createdAt, ← toOption toStr startedAt, ← toOption toStr finishedAt,
      ← toOption toStr outputPath, ← toOption toStr sourcePath, ← toOption scheduleOf schedule, ← toOption toStr parentJobId,
      ← toNat processed, ← toOption toNat total, ← toNat errors, ← toStr message, ← toOption toStr configJson⟩
  | _ => none

theorem kindOf_kindName (k : JobKind) : kindOf (.string (kindName k)) = some k := by cases k <;> rfl

theorem statusOf_statusName (s : JobStatus) : statusOf (.string (statusName s)) = some s := by cases s <;> rfl

theorem scheduleOf_scheduleJson (s : ScheduleConfig) : scheduleOf (scheduleJson s) = some s := by
  have hvalues : values scheduleKeys (scheduleJson s) =
      some [.string s.cron, .bool s.enabled, ofOption ofNat s.retentionCount, ofOption .string s.nextRunAt] := rfl
  rw [scheduleOf, hvalues]
  simp [toStr, toBool, toOption_nat, toOption_str]

theorem jobOf_jobJson (j : JobMeta) : jobOf (jobJson j) = some j := by
  have hschedule : toOption scheduleOf (ofOption scheduleJson j.schedule) = some j.schedule :=
    toOption_ofOption scheduleOf_scheduleJson (fun _ h => by cases h) j.schedule
  have hvalues : values jobKeys (jobJson j) = some (jobValues j) := rfl
  rw [jobOf, hvalues]
  dsimp only [jobValues, Option.bind_eq_bind, Option.bind_some]
  rw [kindOf_kindName, statusOf_statusName, toStrings_strings, toOption_str j.startedAt, toOption_str j.finishedAt,
    toOption_str j.outputPath, toOption_str j.sourcePath, hschedule, toOption_str j.parentJobId, toNat_ofNat j.processed,
    toOption_nat, toNat_ofNat j.errors, toOption_str j.configJson]
  rfl

/-! ## Entries of the timeline -/

/-- `#[serde(rename_all = "camelCase")]` on `OperationKind` (timeline_store.rs:15). -/
def operationName : OperationKind → String
  | .find => "find"
  | .aggregate => "aggregate"
  | .sql => "sql"
  | .explain => "explain"
  | .insertOne => "insertOne"
  | .insertMany => "insertMany"
  | .updateOne => "updateOne"
  | .updateMany => "updateMany"
  | .deleteOne => "deleteOne"
  | .deleteMany => "deleteMany"
  | .replaceOne => "replaceOne"
  | .aggregationWrite => "aggregationWrite"
  | .indexCreate => "indexCreate"
  | .indexDrop => "indexDrop"
  | .collectionCreate => "collectionCreate"
  | .collectionDrop => "collectionDrop"
  | .collectionRename => "collectionRename"
  | .import => "import"
  | .export => "export"
  | .dump => "dump"
  | .restore => "restore"

def operationKinds : List OperationKind :=
  [.find, .aggregate, .sql, .explain, .insertOne, .insertMany, .updateOne, .updateMany, .deleteOne, .deleteMany, .replaceOne,
    .aggregationWrite, .indexCreate, .indexDrop, .collectionCreate, .collectionDrop, .collectionRename, .import, .export, .dump,
    .restore]

def operationOf : Json → Option OperationKind
  | .string s => operationKinds.find? fun k => operationName k = s
  | _ => none

def entryKeys : List String :=
  ["id", "profileId", "kind", "database", "collection", "rollbackScript", "notes", "createdAt", "errored"]

def entryValues (e : StoredEntry) : List Json :=
  [.string e.id, .string e.profileId, .string (operationName e.kind), .string e.database, .string e.collection,
    ofOption .string e.rollbackScript, ofOption .string e.notes, .string e.createdAt, .bool e.errored]

def entryJson (e : StoredEntry) : Json := .object (entryKeys.zip (entryValues e))

def entryOf (v : Json) : Option StoredEntry := do
  match ← values entryKeys v with
  | [id, profileId, kind, database, collection, rollbackScript, notes, createdAt, errored] =>
    let rollbackScript ← toOption toStr rollbackScript
    return { id := ← toStr id, profileId := ← toStr profileId, kind := ← operationOf kind, database := ← toStr database
             collection := ← toStr collection, rollbackScript := rollbackScript, notes := ← toOption toStr notes
             createdAt := ← toStr createdAt, errored := ← toBool errored }
  | _ => none

theorem operationOf_operationName (k : OperationKind) : operationOf (.string (operationName k)) = some k := by cases k <;> rfl

theorem entryOf_entryJson (e : StoredEntry) : entryOf (entryJson e) = some e := by
  have hvalues : values entryKeys (entryJson e) = some (entryValues e) := rfl
  rw [entryOf, hvalues]
  dsimp only [entryValues, Option.bind_eq_bind, Option.bind_some]
  rw [toOption_str e.rollbackScript, operationOf_operationName, toOption_str e.notes]
  rfl

/-! ## Lines -/

theorem numbered_ofNat (n : Nat) : (ofNat n).Numbered := by
  obtain ⟨d, ds, hds⟩ : ∃ d ds, Nat.toDigits 10 n = d :: ds := List.exists_cons_of_ne_nil Nat.toDigits_ne_nil
  have hdigit : ∀ c ∈ d :: ds, c.isDigit = true := by
    rw [← hds]
    exact fun c hc => Nat.isDigit_of_mem_toDigits (by omega) (by omega) hc
  rw [ofNat, Json.Numbered, hds]
  refine ⟨by simp [Json.startsNumber, hdigit d List.mem_cons_self], fun c hc => ?_⟩
  simp [Json.isNumberChar, hdigit c (List.mem_cons_of_mem d hc)]

theorem numbered_ofOption {α : Type} {f : α → Json} (hf : ∀ a, (f a).Numbered) (o : Option α) : (ofOption f o).Numbered := by
  cases o with
  | none => trivial
  | some a => exact hf a

theorem numbered_string (s : String) : (Json.string s).Numbered := trivial

theorem numberedItems_strings : ∀ ss : List String, Json.NumberedItems (ss.map .string)
  | [] => trivial
  | _ :: ss => ⟨trivial, numberedItems_strings ss⟩

theorem numberedMembers_zip : ∀ (keys : List String) {vals : List Json}, (∀ v ∈ vals, v.Numbered) → Json.NumberedMembers (keys.zip vals)
  | [], _, _ => trivial
  | _ :: _, [], _ => trivial
  | _ :: keys, v :: _, h => ⟨h v List.mem_cons_self, numberedMembers_zip keys fun w hw => h w (List.mem_cons_of_mem v hw)⟩

theorem numbered_scheduleJson (s : ScheduleConfig) : (scheduleJson s).Numbered := by
  refine numberedMembers_zip _ ?_
  simp only [List.forall_mem_cons, List.not_mem_nil, false_implies, implies_true, and_true]
  exact ⟨trivial, trivial, numbered_ofOption numbered_ofNat _, numbered_ofOption numbered_string _⟩

theorem numbered_jobJson (j : JobMeta) : (jobJson j).Numbered := by
  refine numberedMembers_zip _ ?_
  have hstr := numbered_ofOption numbered_string
  simp only [jobValues, List.forall_mem_cons, List.not_mem_nil, false_implies, implies_true, and_true]
  exact ⟨trivial, trivial, trivial, trivial, trivial, trivial, numberedItems_strings _, trivial, hstr _, hstr _, hstr _, hstr _,
    numbered_ofOption numbered_scheduleJson _, hstr _, numbered_ofNat _, numbered_ofOption numbered_ofNat _, numbered_ofNat _,
    trivial, hstr _⟩

theorem numbered_entryJson (e : StoredEntry) : (entryJson e).Numbered := by
  refine numberedMembers_zip _ ?_
  have hstr := numbered_ofOption numbered_string
  simp only [entryValues, List.forall_mem_cons, List.not_mem_nil, false_implies, implies_true, and_true]
  exact ⟨trivial, trivial, trivial, trivial, trivial, hstr _, hstr _, trivial, trivial⟩

theorem getLast?_object (f : String × Json) (fs : List (String × Json)) : (Json.object (f :: fs)).compact.getLast? = some '\x7d' := by
  rw [Json.compact, List.getLast?_concat]

/-- One JSON object a line. -/
def jsonLines {R : Type} (toJson : R → Json) (ofJson : Json → Option R) (hread : ∀ r, ofJson (toJson r) = some r)
    (hnum : ∀ r, (toJson r).Numbered) (hobject : ∀ r, ∃ f fs, toJson r = .object (f :: fs)) : LineCodec R where
  print r := (toJson r).compact
  parse line := (Json.read line).bind ofJson
  plain r := by
    refine ⟨Json.newline_notMem_compact (hnum r), ?_⟩
    obtain ⟨f, fs, hf⟩ := hobject r
    rw [hf, getLast?_object]
    decide
  ne_nil r := by
    obtain ⟨c, cs, hc, -, -⟩ := Json.head_compact (hnum r)
    rw [hc]
    exact List.cons_ne_nil c cs
  parse_print r := by rw [Json.read_compact (hnum r), Option.bind_some, hread]

def jobLines : LineCodec JobMeta :=
  jsonLines jobJson jobOf jobOf_jobJson numbered_jobJson fun _ => ⟨_, _, rfl⟩

def entryLines : LineCodec StoredEntry :=
  jsonLines entryJson entryOf entryOf_entryJson numbered_entryJson fun _ => ⟨_, _, rfl⟩

end History
