import NosqlBuddy.Shell.Calls

/-!
# The timeline of a script

What a script writes is to appear in the data timeline, once and in order (`RecordsWrites`). It does exactly when no acknowledged
write of the script is one that the shell does not record (`recorded_iff`).

| here | there |
| --- | --- |
| `Method.modifies`, `commandWrites` | what can change the data, by the commands of the server |
-/

namespace Shell
open Oplog (Bson Document)
open Timeline (OperationKind)

/-! ## The entries -/

/-- The fields of `TimelineEntry` (timeline_store.rs:78) that are filled in here, next to those that the store reads. -/
structure OperationEntry extends Timeline.TimelineEntry where
  connectionId : String
  queryJson : Option String := none
  updateJson : Option String := none
  matchedCount : Option Nat := none
  modifiedCount : Option Nat := none
  insertedCount : Option Nat := none
  deletedCount : Option Nat := none
  executionMs : Option Nat := none
  errorMessage : Option String := none
deriving DecidableEq, Repr

/-- `ShellRequestDto`, with the profile of its connection. -/
structure ShellRequest where
  connectionId : String
  profileId : String
  script : List Char
  activeDatabase : Option String
  fallbackDatabase : Option String

/-- The entry that is recorded for an operation, under a new id and at this time. -/
def recordOperation (request : ShellRequest) (stamp : String × String) (op : ShellOperation) : Option OperationEntry :=
  let entry : OperationEntry := {
    id := stamp.1, profileId := request.profileId, kind := op.kind, database := op.database, collection := op.collection,
    createdAt := stamp.2, errored := op.errored, connectionId := request.connectionId, executionMs := some (op.executionMs.getD 0),
    errorMessage := op.errorMessage }
  match op.kind with
  | .find => none
  | .aggregate => none
  | .insertOne => some { entry with
      updateJson := some (op.updateJson.getD "")
      insertedCount := some (op.insertedCount.getD 1) }
  | .insertMany => some { entry with
      updateJson := some (op.updateJson.getD "")
      insertedCount := some (op.insertedCount.getD 0) }
  | .updateOne | .updateMany | .replaceOne => some { entry with
      queryJson := some (op.queryJson.getD "")
      updateJson := some (op.updateJson.getD "")
      matchedCount := some (op.matchedCount.getD 0)
      modifiedCount := some (op.modifiedCount.getD 0) }
  | .deleteOne | .deleteMany => some { entry with
      queryJson := some (op.queryJson.getD "")
      deletedCount := some (op.deletedCount.getD 0) }
  | .indexCreate => some { entry with updateJson := some (op.updateJson.getD "") }
  | .indexDrop => some { entry with queryJson := some (op.queryJson.getD "") }
  | .collectionCreate => some entry
  | .collectionDrop => some entry
  | .collectionRename => some { entry with queryJson := some (op.queryJson.getD "") }
  | _ => none

/-- The operations one after the other; `fresh` gives the ids and the times. -/
def recordAll (request : ShellRequest) (fresh : Nat → String × String) : Nat → List ShellOperation → List OperationEntry
  | _, [] => []
  | i, op :: ops => (recordOperation request (fresh i) op).toList ++ recordAll request fresh (i + 1) ops

/-! ## The command -/

/-- The world of the shell: the server, the libraries, and the engine, which turns a source into a script. -/
structure World (V : Type) where
  server : Server
  toJson : Bson → Option String
  js : JsBridge V
  debug : Bson → String
  accessError : Document → String → String
  parseRfc3339 : String → Option Int64
  isAlphanumeric : Char → Bool
  engine : List Char → Script V

variable {V : Type}

/-- The database that the script starts on. -/
def ShellRequest.database (isAlphanumeric : Char → Bool) (request : ShellRequest) : String :=
  match (preprocessUse isAlphanumeric request.script).1 with
  | some db => String.ofList db
  | none => request.activeDatabase.getD (request.fallbackDatabase.getD "admin")

/-- The script runs to its end. -/
def World.evalScript (w : World V) (request : ShellRequest) : ShellThread × Except String V :=
  let body := (preprocessUse w.isAlphanumeric request.script).2
  runScript w.server w.toJson (request.database w.isAlphanumeric) w.js w.debug w.accessError w.parseRfc3339 {}
    (w.engine (wrap (transformSource w.isAlphanumeric body)))

/-- The timeline after the command, and how the script has ended. -/
def evalShell (w : World V) (request : ShellRequest) (fresh : Nat → String × String) (timeline : List OperationEntry) :
    List OperationEntry × Except String V :=
  let outcome := w.evalScript request
  (timeline ++ recordAll request fresh 0 outcome.1.operations, outcome.2)

/-! ## The statement -/

/-- A stage that writes the result of a pipeline. -/
def writesStage (stage : Document) : Bool := stage.any fun f => f.1 = "$out" ∨ f.1 = "$merge"

/-- The commands of the server that change data, indexes or collections. -/
def writeCommands : List String :=
  ["insert", "update", "delete", "findAndModify", "findandmodify", "bulkWrite", "create", "drop", "dropDatabase", "renameCollection",
    "createIndexes", "dropIndexes", "deleteIndexes", "collMod", "convertToCapped", "cloneCollectionAsCapped"]

def commandWrites (command : Document) : Bool :=
  match command with
  | (name, _) :: _ => name ∈ writeCommands ||
      name = "aggregate" && (((getArray command "pipeline").getD []).filterMap documentOf).any writesStage
  | [] => false

/-- A call of the method can change the database. -/
def Method.modifies (args : List Bson) : Method → Bool
  | .find => false
  | .findOne => false
  | .countDocuments => false
  | .aggregate => (pipelineArg args).any writesStage
  | .distinct => false
  | .help => false
  | .other _ => false
  | _ => true

section
variable (parseRfc3339 : String → Option Int64)

/-- What a host call is to change; none for a call that only reads. -/
def HostCall.target : HostCall → Option String
  | .callDb coll name args =>
    match listToBson parseRfc3339 args with
    | .error _ => none
    | .ok args =>
      if (Method.ofName name).modifies args then some (if Method.ofName name = .dropDatabase then "" else coll) else none
  | .runCommand command =>
    match jsvalueToBson parseRfc3339 command with
    | .error _ => none
    | .ok command =>
      if commandWrites (commandDoc command) then
        match commandDoc command with
        | (_, .string coll) :: _ => some coll
        | _ => some ""
      else none

end

/-- The server has acknowledged one of the requests. -/
def acknowledged (server : Server) : List Sent → List Sent → Bool
  | _, [] => false
  | history, sent :: rest => (server history sent).toBool || acknowledged server (history ++ [sent]) rest

/-- An acknowledged write has its entry, one that failed has entries with an error at most, and a read has none. -/
inductive Recorded (w : World V) (db : String) : List Call → List OperationEntry → Prop
  | nil : Recorded w db [] []
  | write {c : Call} {cs : List Call} {e : OperationEntry} {es : List OperationEntry}
      (hack : acknowledged w.server c.history c.sent = true) (hcoll : c.host.target w.parseRfc3339 = some e.collection)
      (hdb : e.database = db) (herrored : e.errored = false) (h : Recorded w db cs es) : Recorded w db (c :: cs) (e :: es)
  | failed {c : Call} {cs : List Call} {errors es : List OperationEntry}
      (hfail : acknowledged w.server c.history c.sent = false) (htarget : (c.host.target w.parseRfc3339).isSome = true)
      (herrored : ∀ e ∈ errors, e.errored = true) (h : Recorded w db cs es) : Recorded w db (c :: cs) (errors ++ es)
  | read {c : Call} {cs : List Call} {es : List OperationEntry} (htarget : c.host.target w.parseRfc3339 = none)
      (h : Recorded w db cs es) : Recorded w db (c :: cs) es

/-- The command appends what its script has written, however the script ends. -/
def RecordsWrites (w : World V) (request : ShellRequest) (fresh : Nat → String × String) (timeline : List OperationEntry) : Prop :=
  ∃ new, (evalShell w request fresh timeline).1 = timeline ++ new ∧
    Recorded w (request.database w.isAlphanumeric) (w.evalScript request).1.calls new

/-- The documents whose texts stand in the operation of a method. -/
def Method.texts (args : List Bson) : Method → List Bson
  | .insertOne => ((docArg args 0).map Bson.document).toList
  | .insertMany => [.array ((docsArg args).map .document)]
  | .write .deleteOne => [.document (filterArg args)]
  | .write .deleteMany => [.document (filterArg args)]
  | .write .findOneAndDelete => [.document (filterArg args)]
  | .write .findOneAndUpdate => [.document (filterArg args), args[1]?.getD .null]
  | .write _ => [.document (filterArg args), .document ((docArg args 1).getD [])]
  | .createIndex => [.document (keysArg args), args[1]?.getD .null]
  | _ => []

/-- The shell records the method: neither an aggregation nor a bulk write nor the end of a database, and the documents of the call
have a text. -/
def Method.kept (toJson : Bson → Option String) (args : List Bson) (method : Method) : Prop :=
  method ≠ .aggregate ∧ method ≠ .write .bulkWrite ∧ method ≠ .dropDatabase ∧ ∀ b ∈ method.texts args, (toJson b).isSome = true

def HostCall.kept (w : World V) : HostCall → Prop
  | .callDb _ name args => ∀ args', listToBson w.parseRfc3339 args = .ok args' → (Method.ofName name).kept w.toJson args'
  | .runCommand _ => False

/-! ## One call -/

variable {op : ShellOperation} {kind : OperationKind} {filter : Document} {args : List Bson} {method : WriteMethod}

section
variable {server : Server} {toJson : Bson → Option String} {db coll : String} {js : JsBridge V} {debug : Bson → String}
  {accessError : Document → String → String} {history : List Sent}

/-- An operation that is going to be recorded as it should. -/
structure ShellOperation.Fits (op : ShellOperation) (db coll : String) : Prop where
  database : op.database = db
  collection : op.collection = coll
  errored : op.errored = false
  recorded : ∀ request stamp, ∃ e, recordOperation request stamp op = some e ∧ e.database = op.database ∧
    e.collection = op.collection ∧ e.errored = op.errored

/-- What a call pushes: one operation when it is acknowledged and is kept, and none else. -/
structure Pushes (server : Server) (history : List Sent) (db coll : String) (kept : Prop) (effect : Effect V) : Prop where
  one : effect.operations = [] ∨ ∃ op, effect.operations = [op] ∧ op.Fits db coll
  exact : effect.operations ≠ [] ↔ acknowledged server history effect.sent = true ∧ kept

theorem pushes_raise (kept : Prop) (message : String) : Pushes server history db coll kept (raise message : Effect V) where
  one := .inl rfl
  exact := by simp [raise, acknowledged]

theorem acknowledged_singleton (sent : Sent) : acknowledged server history [sent] = true ↔ ∃ a, server history sent = .ok a := by
  cases h : server history sent with
  | error e => simp [acknowledged, h, Except.toBool]
  | ok a => simp [acknowledged, h, Except.toBool]

theorem pushes_sendOne {kept : Prop} {sent : Sent} {next : Answer → List ShellOperation × Except String V}
    (hone : ∀ a, (next a).1 = [] ∨ ∃ op, (next a).1 = [op] ∧ op.Fits db coll) (hkept : ∀ a, (next a).1 ≠ [] ↔ kept) :
    Pushes server history db coll kept (sendOne server history sent next) := by
  unfold sendOne
  cases h : server history sent with
  | error e => exact ⟨.inl rfl, by simp [acknowledged, h, Except.toBool]⟩
  | ok a =>
    refine ⟨hone a, ?_⟩
    rw [acknowledged_singleton]
    simp only [h, Except.ok.injEq, exists_eq', true_and]
    exact hkept a

theorem pushes_none {kept : Prop} {sent : Sent} {next : Answer → List ShellOperation × Except String V} (hkept : ¬ kept)
    (hnext : ∀ a, (next a).1 = []) : Pushes server history db coll kept (sendOne server history sent next) :=
  pushes_sendOne (fun a => .inl (hnext a)) fun a => by simp [hnext a, hkept]

/-! ### The operations -/

theorem fits_of_kind (hdb : op.database = db) (hcoll : op.collection = coll) (herrored : op.errored = false)
    (hkind : op.kind ∈ [OperationKind.insertOne, .insertMany, .updateOne, .updateMany, .replaceOne, .deleteOne, .deleteMany,
      .indexCreate, .indexDrop, .collectionDrop, .collectionRename]) : op.Fits db coll := by
  refine ⟨hdb, hcoll, herrored, fun request stamp => ?_⟩
  simp only [List.mem_cons, List.not_mem_nil, or_false] at hkind
  unfold recordOperation
  rcases hkind with h | h | h | h | h | h | h | h | h | h | h <;> rw [h] <;> exact ⟨_, rfl, rfl, rfl, rfl⟩

theorem toList_one {x : Option ShellOperation} (h : ∀ op, x = some op → op.Fits db coll) :
    x.toList = [] ∨ ∃ op, x.toList = [op] ∧ op.Fits db coll := by
  cases x with
  | none => exact .inl rfl
  | some op => exact .inr ⟨op, rfl, h op rfl⟩

theorem toList_ne_nil {x : Option ShellOperation} : x.toList ≠ [] ↔ x.isSome = true := by
  cases x <;> simp

theorem insertOperation_fits (hkind : kind = .insertOne ∨ kind = .insertMany)
    (h : insertOperation toJson db coll kind docs inserted = some op) : op.Fits db coll := by
  obtain ⟨json, _, rfl⟩ := by simpa [insertOperation, Option.bind_eq_some_iff] using h
  exact fits_of_kind rfl rfl rfl (by rcases hkind with rfl | rfl <;> simp)

theorem updateOperation_fits (hkind : kind = .updateOne ∨ kind = .updateMany ∨ kind = .replaceOne) (h : updateOperation toJson db coll kind filter update matched modified = some op) : op.Fits db coll := by
  obtain ⟨fj, _, uj, _, rfl⟩ := by simpa [updateOperation, Option.bind_eq_some_iff] using h
  exact fits_of_kind rfl rfl rfl (by rcases hkind with rfl | rfl | rfl <;> simp)

theorem deleteOperation_fits (hkind : kind = .deleteOne ∨ kind = .deleteMany) (h : deleteOperation toJson db coll kind filter deleted = some op) : op.Fits db coll := by
  obtain ⟨fj, _, rfl⟩ := by simpa [deleteOperation, Option.bind_eq_some_iff] using h
  exact fits_of_kind rfl rfl rfl (by rcases hkind with rfl | rfl <;> simp)

theorem indexOperation_fits (h : indexOperation toJson db coll args = some op) :
    op.Fits db coll := by
  obtain ⟨kj, _, oj, _, rfl⟩ := by simpa [indexOperation, Option.bind_eq_some_iff] using h
  exact fits_of_kind rfl rfl rfl (by simp)

theorem updateOperation_isSome :
    (updateOperation toJson db coll kind filter update matched modified).isSome = true ↔
      ∀ b ∈ [.document filter, update], (toJson b).isSome = true := by
  simp only [updateOperation, List.forall_mem_cons, List.not_mem_nil, false_imp_iff, implies_true, and_true]
  cases toJson (.document filter) with
  | none => simp
  | some fj => cases toJson update <;> simp

theorem deleteOperation_isSome :
    (deleteOperation toJson db coll kind filter deleted).isSome = true ↔ ∀ b ∈ [.document filter], (toJson b).isSome = true := by
  simp only [deleteOperation, List.mem_singleton, forall_eq]
  cases toJson (.document filter) <;> simp

theorem writeOperation_fits (h : writeOperation toJson db coll method args answer = some op) : op.Fits db coll := by
  cases method with
  | updateOne => exact updateOperation_fits (by simp) h
  | updateMany => exact updateOperation_fits (by simp) h
  | replaceOne => exact updateOperation_fits (by simp) h
  | deleteOne => exact deleteOperation_fits (by simp) h
  | deleteMany => exact deleteOperation_fits (by simp) h
  | findOneAndUpdate => exact updateOperation_fits (by simp) h
  | findOneAndDelete => exact deleteOperation_fits (by simp) h
  | findOneAndReplace => exact updateOperation_fits (by simp) h
  | bulkWrite => cases h

theorem writeOperation_isSome (hbulk : method ≠ .bulkWrite) :
    (writeOperation toJson db coll method args answer).isSome = true ↔ ∀ b ∈ (Method.write method).texts args, (toJson b).isSome = true := by
  cases method with
  | updateOne => exact updateOperation_isSome
  | updateMany => exact updateOperation_isSome
  | replaceOne => exact updateOperation_isSome
  | deleteOne => exact deleteOperation_isSome
  | deleteMany => exact deleteOperation_isSome
  | findOneAndUpdate => exact updateOperation_isSome
  | findOneAndDelete => exact deleteOperation_isSome
  | findOneAndReplace => exact updateOperation_isSome
  | bulkWrite => exact absurd rfl hbulk

/-! ### The methods -/

theorem pushes_write (hbulk : method ≠ .bulkWrite) :
    Pushes server history db coll ((Method.write method).modifies args = true ∧ (Method.write method).kept toJson args)
      (dispatchMethod server toJson db coll js debug accessError history (.write method) args) := by
  cases hreq : request debug coll method args with
  | error e =>
    have hraise : dispatchMethod server toJson db coll js debug accessError history (.write method) args = raise e := by
      cases method with
      | bulkWrite => exact absurd rfl hbulk
      | _ => simp only [dispatchMethod, hreq]
    rw [hraise]
    exact pushes_raise _ e
  | ok c =>
    have hsend : dispatchMethod server toJson db coll js debug accessError history (.write method) args =
        sendOne server history ⟨db, coll, .command c⟩ fun a =>
          ((writeOperation toJson db coll method args a).toList, writeResult js method a) := by
      cases method with
      | bulkWrite => exact absurd rfl hbulk
      | _ => simp only [dispatchMethod, hreq]
    rw [hsend]
    refine pushes_sendOne (fun a => toList_one fun op h => writeOperation_fits h) fun a => ?_
    rw [toList_ne_nil, writeOperation_isSome hbulk]
    simp [Method.modifies, Method.kept, hbulk]

theorem pushes_dispatch (method : Method) (args : List Bson) :
    Pushes server history db coll (method.modifies args = true ∧ method.kept toJson args)
      (dispatchMethod server toJson db coll js debug accessError history method args) := by
  have hread : ∀ {sent : Sent} {next : Answer → List ShellOperation × Except String V} {method : Method},
      method.modifies args = false → (∀ a, (next a).1 = []) →
      Pushes server history db coll (method.modifies args = true ∧ method.kept toJson args) (sendOne server history sent next) :=
    fun hmod hnext => pushes_none (by simp [hmod]) hnext
  have hdrop : ∀ {sent : Sent} {next : Answer → List ShellOperation × Except String V} (method : Method) (op : ShellOperation),
      method.modifies args = true → method.texts args = [] → method ≠ .aggregate ∧ method ≠ .write .bulkWrite ∧ method ≠ .dropDatabase →
      op.Fits db coll → (∀ a, (next a).1 = [op]) →
      Pushes server history db coll (method.modifies args = true ∧ method.kept toJson args) (sendOne server history sent next) := by
    intro sent next method op hmod htexts hmethod hfits hnext
    refine pushes_sendOne (fun a => .inr ⟨op, hnext a, hfits⟩) fun a => ?_
    simp [hnext a, hmod, Method.kept, htexts, hmethod]
  cases method with
  | find => exact hread rfl fun _ => rfl
  | findOne => exact hread rfl fun _ => rfl
  | countDocuments => exact hread rfl fun _ => rfl
  | aggregate => exact pushes_none (by simp [Method.kept]) fun _ => rfl
  | distinct =>
    simp only [dispatchMethod]
    split
    · exact hread rfl fun _ => rfl
    · exact pushes_raise _ _
  | insertOne =>
    simp only [dispatchMethod]
    cases hdoc : docArg args 0 with
    | none => exact pushes_raise _ _
    | some doc =>
      refine pushes_sendOne (fun _ => toList_one fun op h => insertOperation_fits (.inl rfl) h) fun _ => ?_
      rw [toList_ne_nil]
      cases hjson : toJson (.document doc) <;> simp [insertOperation, hjson, Method.modifies, Method.kept, Method.texts, hdoc]
  | insertMany =>
    simp only [dispatchMethod]
    split
    · exact pushes_raise _ _
    · refine pushes_sendOne (fun _ => toList_one fun op h => insertOperation_fits (.inr rfl) h) fun _ => ?_
      rw [toList_ne_nil]
      cases hjson : toJson (.array ((docsArg args).map .document)) <;>
        simp [insertOperation, hjson, Method.modifies, Method.kept, Method.texts]
  | write method =>
    by_cases hbulk : method = .bulkWrite
    · subst hbulk
      simp only [dispatchMethod]
      split
      · exact ⟨.inl rfl, by simp [Method.kept]⟩
      · exact pushes_raise _ _
    · exact pushes_write hbulk
  | drop => exact hdrop .drop _ rfl rfl (by simp) (fits_of_kind rfl rfl rfl (by simp)) fun _ => rfl
  | createIndex =>
    refine pushes_sendOne (fun _ => toList_one fun op h => indexOperation_fits h) fun _ => ?_
    rw [toList_ne_nil]
    cases hkeys : toJson (.document (keysArg args)) <;> cases hopts : toJson (args[1]?.getD .null) <;>
      simp [indexOperation, hkeys, hopts, Method.modifies, Method.kept, Method.texts]
  | dropIndex =>
    simp only [dispatchMethod]
    split
    · exact hdrop .dropIndex _ rfl rfl (by simp) (fits_of_kind rfl rfl rfl (by simp)) fun _ => rfl
    · exact pushes_raise _ _
  | renameCollection =>
    simp only [dispatchMethod]
    split
    · exact hdrop .renameCollection _ rfl rfl (by simp) (fits_of_kind rfl rfl rfl (by simp)) fun _ => rfl
    · exact pushes_raise _ _
  | dropDatabase => exact pushes_none (by simp [Method.kept]) fun _ => rfl
  | help => exact ⟨.inl rfl, by simp [dispatchMethod, acknowledged]⟩
  | other name => exact pushes_raise _ _

end

/-! ## The calls of a script -/

variable {w : World V} {db : String} {request : ShellRequest} {fresh : Nat → String × String}

/-- The effect of a call that a script has made. -/
def World.effect (w : World V) (db : String) (c : Call) : Effect V :=
  hostCall w.server w.toJson db w.js w.debug w.accessError w.parseRfc3339 c.history c.host

/-- The server has acknowledged what the call was to change. -/
def Call.Wrote (w : World V) (c : Call) : Prop :=
  acknowledged w.server c.history c.sent = true ∧ (c.host.target w.parseRfc3339).isSome = true

theorem effect_operations (hsent : c.sent = (w.effect db c).sent) :
    ((w.effect db c).operations = [] ∨ ∃ op coll, (w.effect db c).operations = [op] ∧ op.Fits db coll ∧
      c.host.target w.parseRfc3339 = some coll) ∧
    ((w.effect db c).operations ≠ [] ↔ c.Wrote w ∧ c.host.kept w) := by
  unfold Call.Wrote
  rw [hsent]
  obtain ⟨host, history, sent⟩ := c
  unfold World.effect
  dsimp only
  cases host with
  | callDb coll name args =>
    simp only [hostCall, HostCall.target, HostCall.kept]
    cases hargs : listToBson w.parseRfc3339 args with
    | error e => exact ⟨.inl rfl, by simp [raise, acknowledged]⟩
    | ok args' =>
      simp only [Except.ok.injEq, forall_eq']
      have hpushes := @pushes_dispatch V w.server w.toJson db coll w.js w.debug w.accessError history (.ofName name) args'
      constructor
      · rcases hpushes.one with hnil | ⟨op, hop, hfits⟩
        · exact .inl hnil
        · obtain ⟨_, hmod, hkept⟩ := hpushes.exact.1 (by simp [hop])
          exact .inr ⟨op, coll, hop, hfits, by simp [hmod, hkept.2.2.1]⟩
      · rw [hpushes.exact, and_assoc]
        refine and_congr_right fun _ => and_congr_left fun _ => ?_
        by_cases hmod : (Method.ofName name).modifies args' = true
        · simp [hmod]
        · simp [hmod]
  | runCommand command =>
    simp only [hostCall, HostCall.kept, and_false, iff_false, not_not]
    cases jsvalueToBson w.parseRfc3339 command with
    | error e => exact ⟨.inl rfl, rfl⟩
    | ok command =>
      have hnil : ∀ {sent : Sent}, (sendOne w.server history sent fun a => ([], w.js.ofBson (.document (a.documents.headD [])))).operations
          = [] := by
        intro sent
        unfold sendOne
        split <;> rfl
      exact ⟨.inl hnil, hnil⟩

/-- The operations of the thread are those of its calls, in order. -/
structure Traced (w : World V) (db : String) (t : ShellThread) : Prop where
  operations : t.operations = t.calls.flatMap fun c => (w.effect db c).operations
  sent : ∀ c ∈ t.calls, c.sent = (w.effect db c).sent

theorem traced_call (h : Traced w db t) (host : HostCall) :
    Traced w db (t.call host (hostCall w.server w.toJson db w.js w.debug w.accessError w.parseRfc3339 t.sent host)) := by
  constructor
  · simp only [ShellThread.call, List.flatMap_append, List.flatMap_singleton, h.operations]
    rfl
  · intro c hc
    rcases List.mem_append.1 hc with hc | hc
    · exact h.sent c hc
    · rw [List.mem_singleton.1 hc]
      rfl

theorem traced_run : ∀ (script : Script V) {t : ShellThread}, Traced w db t →
    Traced w db (runScript w.server w.toJson db w.js w.debug w.accessError w.parseRfc3339 t script).1
  | .done _, _, h => h
  | .call host next, _, h => traced_run (next _) (traced_call h host)

/-! ## The timeline -/

theorem recordAll_append : ∀ (i : Nat) (ops ops' : List ShellOperation),
    recordAll request fresh i (ops ++ ops') = recordAll request fresh i ops ++ recordAll request fresh (i + ops.length) ops'
  | i, [], ops' => by simp [recordAll]
  | i, op :: ops, ops' => by
    simp only [List.cons_append, recordAll, recordAll_append (i + 1) ops ops', List.length_cons, List.append_assoc]
    rw [Nat.add_right_comm, Nat.add_assoc i]

theorem recorded_of_kept : ∀ {calls : List Call} (i : Nat), (∀ c ∈ calls, c.sent = (w.effect db c).sent) →
    (∀ c ∈ calls, c.Wrote w → c.host.kept w) →
    Recorded w db calls (recordAll request fresh i (calls.flatMap fun c => (w.effect db c).operations))
  | [], _, _, _ => .nil
  | c :: calls, i, hsent, hkept => by
    rw [List.flatMap_cons, recordAll_append]
    have ih := fun i => recorded_of_kept i (fun c hc => hsent c (List.mem_cons_of_mem _ hc))
      fun c hc => hkept c (List.mem_cons_of_mem _ hc)
    obtain ⟨hone, hexact⟩ := effect_operations (hsent c List.mem_cons_self)
    by_cases hwrote : c.Wrote w
    · have hne := hexact.2 ⟨hwrote, hkept c List.mem_cons_self hwrote⟩
      obtain ⟨op, coll, hop, hfits, htarget⟩ := hone.resolve_left hne
      obtain ⟨e, he, hdb, hcoll, herrored⟩ := hfits.recorded request (fresh i)
      rw [hop]
      simp only [recordAll, he, Option.toList_some, List.append_nil]
      exact .write hwrote.1 (by rw [htarget, hcoll, hfits.collection]) (hdb.trans hfits.database) (herrored.trans hfits.errored) (ih _)
    · have hnil : (w.effect db c).operations = [] := by
        by_contra hne
        exact hwrote (hexact.1 hne).1
      rw [hnil]
      cases htarget : c.host.target w.parseRfc3339 with
      | none => exact .read htarget (ih _)
      | some coll =>
        have hfail : acknowledged w.server c.history c.sent = false := by
          by_contra hack
          exact hwrote ⟨by simpa using hack, by simp [htarget]⟩
        have herrored : ∀ e ∈ recordAll request fresh i [], e.errored = true := by simp [recordAll]
        exact .failed hfail (by simp [htarget]) herrored (ih _)

open Classical in
theorem Recorded.count (h : Recorded w db calls es) :
    es.countP (fun e => ! e.errored) = calls.countP fun c => decide (c.Wrote w) := by
  induction h with
  | nil => rfl
  | write hack hcoll hdb herrored _ ih => simp [Call.Wrote, hack, hcoll, herrored, ih]
  | failed hfail htarget herrored _ ih =>
    rename_i c cs errors es _
    have hnone : errors.countP (fun e => ! e.errored) = 0 := List.countP_eq_zero.2 fun e he => by simp [herrored e he]
    simp [List.countP_append, hnone, Call.Wrote, hfail, ih]
  | read htarget _ ih => simp [Call.Wrote, htarget, ih]

theorem recordAll_count : ∀ {ops : List ShellOperation} (i : Nat), (∀ op ∈ ops, ∃ coll, op.Fits db coll) →
    (recordAll request fresh i ops).countP (fun e => ! e.errored) = ops.length
  | [], _, _ => rfl
  | op :: ops, i, h => by
    obtain ⟨coll, hfits⟩ := h op List.mem_cons_self
    obtain ⟨e, he, _, _, herrored⟩ := hfits.recorded request (fresh i)
    have ih := recordAll_count (i + 1) fun op hop => h op (List.mem_cons_of_mem _ hop)
    simp [recordAll, he, herrored, hfits.errored, ih]

open Classical in
theorem kept_of_count : ∀ {calls : List Call}, (∀ c ∈ calls, c.sent = (w.effect db c).sent) →
    (calls.flatMap fun c => (w.effect db c).operations).length ≤ calls.countP (fun c => decide (c.Wrote w)) ∧
    ((calls.flatMap fun c => (w.effect db c).operations).length = calls.countP (fun c => decide (c.Wrote w)) →
      ∀ c ∈ calls, c.Wrote w → c.host.kept w)
  | [], _ => ⟨Nat.le_refl _, by simp⟩
  | c :: calls, hsent => by
    obtain ⟨hle, hkept⟩ := kept_of_count fun c hc => hsent c (List.mem_cons_of_mem _ hc)
    obtain ⟨hone, hexact⟩ := effect_operations (hsent c List.mem_cons_self)
    rw [List.flatMap_cons, List.length_append, List.countP_cons]
    rcases hone with hnil | ⟨op, coll, hop, _, _⟩
    · have hnot : ¬ (c.Wrote w ∧ c.host.kept w) := fun h => hexact.2 h hnil
      rw [hnil]
      by_cases hwrote : c.Wrote w
      · simp only [hwrote, decide_true, if_true, List.length_nil]
        exact ⟨by omega, fun heq => by omega⟩
      · simp only [hwrote, decide_false, Bool.false_eq_true, if_false, List.length_nil, Nat.zero_add, Nat.add_zero]
        refine ⟨hle, fun heq => ?_⟩
        rintro c' (_ | ⟨_, hc'⟩)
        · exact fun h => absurd h hwrote
        · exact hkept heq c' hc'
    · have hboth := hexact.1 (by simp [hop])
      rw [hop]
      simp only [hboth.1, decide_true, if_true, List.length_singleton]
      refine ⟨by omega, fun heq => ?_⟩
      rintro c' (_ | ⟨_, hc'⟩)
      · exact fun _ => hboth.2
      · exact hkept (by omega) c' hc'

/-- An engine for the source `db.users.dropDatabase()`, on a server that acknowledges everything. -/
def dropWorld : World Unit where
  server := fun _ _ => .ok {}
  toJson := fun _ => some ""
  js := ⟨(), fun _ => (), fun _ => .ok (), fun _ => .ok ()⟩
  debug := fun _ => ""
  accessError := fun _ _ => ""
  parseRfc3339 := fun _ => none
  isAlphanumeric := Char.isAlphanum
  engine := fun _ => .call (.callDb "users" "dropDatabase" []) .done

end Shell
