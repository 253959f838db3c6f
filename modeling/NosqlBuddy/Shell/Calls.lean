import NosqlBuddy.Shell.Dispatch
import NosqlBuddy.Shell.Source
import NosqlBuddy.Timeline.Store

/-!
# Everything a script can call

| here | there |
| --- | --- |
| `ShellOperation`, `ShellThread.operations` | mongo/shell.rs:83, `SHELL_OPERATIONS` (:157) |
| `Method`, `dispatchMethod` | all methods of `dispatch_sync` (shell.rs:903) |
| `hostCall` | `__call_db` and `__run_command` (shell.rs:542, :572) |

The answers of the server are a parameter, with the requests before them. What becomes of an answer in JavaScript is the `JsBridge`,
the JSON text of a document is `toJson` (`serde_json::to_string`). Audit records and printed lines are left out.
-/

namespace Shell
open Oplog (Bson Document)
open Timeline (OperationKind)

structure ShellOperation where
  kind : OperationKind
  database : String
  collection : String
  queryJson : Option String := none
  updateJson : Option String := none
  matchedCount : Option Nat := none
  modifiedCount : Option Nat := none
  insertedCount : Option Nat := none
  deletedCount : Option Nat := none
  executionMs : Option Nat := none
  errored : Bool := false
  errorMessage : Option String := none
deriving DecidableEq, Repr

inductive Method where
  | find | findOne | countDocuments | aggregate | distinct | insertOne | insertMany
  | write (method : WriteMethod)
  | drop | createIndex | dropIndex | renameCollection | dropDatabase | help
  | other (name : String)
deriving DecidableEq

def Method.ofName (name : String) : Method :=
  match name with
  | "find" => .find
  | "findOne" => .findOne
  | "countDocuments" => .countDocuments
  | "count" => .countDocuments
  | "aggregate" => .aggregate
  | "distinct" => .distinct
  | "insertOne" => .insertOne
  | "insertMany" => .insertMany
  | "updateOne" => .write .updateOne
  | "updateMany" => .write .updateMany
  | "replaceOne" => .write .replaceOne
  | "deleteOne" => .write .deleteOne
  | "deleteMany" => .write .deleteMany
  | "drop" => .drop
  | "createIndex" => .createIndex
  | "dropIndex" => .dropIndex
  | "rename" => .renameCollection
  | "renameCollection" => .renameCollection
  | "dropDatabase" => .dropDatabase
  | "findOneAndUpdate" => .write .findOneAndUpdate
  | "findOneAndDelete" => .write .findOneAndDelete
  | "findOneAndReplace" => .write .findOneAndReplace
  | "bulkWrite" => .write .bulkWrite
  | "help" => .help
  | name => .other name

structure IndexOptions where
  name : Option String
  unique : Option Bool
  sparse : Option Bool
  hidden : Option Bool
  expireAfterSecs : Option UInt64

inductive Request where
  | find (filter : Document)
  | findOne (filter : Document)
  | countDocuments (filter : Document)
  | aggregate (pipeline : List Document)
  | distinct (field : String) (filter : Document)
  | command (command : Command)
  | insertMany (docs : List Document)
  | drop
  | createIndex (keys : Document) (options : IndexOptions)
  | dropIndex (name : String)
  | dropDatabase
  | runCommand (command : Document)

/-- A request on a collection; the collection of a request on the database is empty. -/
structure Sent where
  database : String
  collection : String
  request : Request

/-- What an answer brings, as far as it is read. -/
structure Answer where
  documents : List Document := []
  values : List Bson := []
  count : Nat := 0
  matchedCount : Nat := 0
  modifiedCount : Nat := 0
  insertedCount : Nat := 0
  deletedCount : Nat := 0
  /-- The cursor of an aggregation fails after its command. -/
  cursorError : Option String := none

/-- The answer to a request, after the requests before it. -/
abbrev Server := List Sent → Sent → Except String Answer

/-- From the host to JavaScript. -/
structure JsBridge (V : Type) where
  undefined : V
  ofNumber : Nat → V
  ofBson : Bson → Except String V
  /-- An array with the methods of a cursor. -/
  ofCursor : List Document → Except String V

/-- What a call sends, records and gives back. -/
structure Effect (V : Type) where
  sent : List Sent
  operations : List ShellOperation
  result : Except String V

def raise {V : Type} (message : String) : Effect V := ⟨[], [], .error message⟩

section
variable {V : Type} (server : Server)

/-- One request, and what is made of its answer. -/
def sendOne (history : List Sent) (sent : Sent) (next : Answer → List ShellOperation × Except String V) : Effect V :=
  match server history sent with
  | .error e => ⟨[sent], [], .error e⟩
  | .ok answer => ⟨[sent], (next answer).1, (next answer).2⟩

/-! ## Arguments -/

/-- The stages that are documents, with a limit (shell.rs:986-1004). -/
def pipelineArg (args : List Bson) : List Document :=
  let pipeline := match args.head? with
    | some (.array stages) => stages.filterMap documentOf
    | _ => []
  if pipeline.any fun stage => stage.any (·.1 = "$limit") then pipeline else pipeline ++ [[("$limit", .int64 50)]]

def docsArg (args : List Bson) : List Document :=
  match args.head? with
  | some (.array docs) => docs.filterMap documentOf
  | _ => []

def keysArg (args : List Bson) : Document :=
  match args.head? with
  | some (.document keys) => keys
  | some (.string field) => [(field, .string "text")]
  | _ => []

def getBool (d : Document) (key : String) : Option Bool :=
  match d.lookup key with
  | some (.boolean b) => some b
  | _ => none

def indexOptions (args : List Bson) : IndexOptions :=
  match docArg args 1 with
  | none => ⟨none, none, none, none, none⟩
  | some opts => {
      name := match opts.lookup "name" with
        | some (.string name) => some name
        | _ => none
      unique := getBool opts "unique"
      sparse := getBool opts "sparse"
      hidden := getBool opts "hidden"
      expireAfterSecs := match opts.lookup "expireAfterSeconds" with
        | some (.int64 secs) => some secs.toUInt64
        | _ => none }

/-! ## Operations -/

variable (toJson : Bson → Option String) (db coll : String)

/-- With the JSON texts of the filter and of the update. -/
def updateOperation (kind : OperationKind) (filter : Document) (update : Bson) (matched modified : Nat) : Option ShellOperation := do
  let fj ← toJson (.document filter)
  let uj ← toJson update
  return {
    kind, database := db, collection := coll, queryJson := some fj, updateJson := some uj, matchedCount := some matched,
    modifiedCount := some modified }

def deleteOperation (kind : OperationKind) (filter : Document) (deleted : Nat) : Option ShellOperation := do
  let fj ← toJson (.document filter)
  return { kind, database := db, collection := coll, queryJson := some fj, deletedCount := some deleted }

/-- 1 when `findOneAnd…` has found a document. -/
def Answer.found (answer : Answer) : Nat := if answer.documents.isEmpty then 0 else 1

/-- The operation that an acknowledged write pushes. -/
def writeOperation (method : WriteMethod) (args : List Bson) (answer : Answer) : Option ShellOperation :=
  let update := Bson.document ((docArg args 1).getD [])
  match method with
  | .updateOne => updateOperation toJson db coll .updateOne (filterArg args) update answer.matchedCount answer.modifiedCount
  | .updateMany => updateOperation toJson db coll .updateMany (filterArg args) update answer.matchedCount answer.modifiedCount
  | .replaceOne => updateOperation toJson db coll .replaceOne (filterArg args) update answer.matchedCount answer.modifiedCount
  | .deleteOne => deleteOperation toJson db coll .deleteOne (filterArg args) answer.deletedCount
  | .deleteMany => deleteOperation toJson db coll .deleteMany (filterArg args) answer.deletedCount
  | .findOneAndUpdate => updateOperation toJson db coll .updateOne (filterArg args) (args[1]?.getD .null) answer.found answer.found
  | .findOneAndDelete => deleteOperation toJson db coll .deleteOne (filterArg args) answer.found
  | .findOneAndReplace => updateOperation toJson db coll .replaceOne (filterArg args) update answer.found answer.found
  | .bulkWrite => none

def insertOperation (kind : OperationKind) (docs : Bson) (inserted : Nat) : Option ShellOperation := do
  let json ← toJson docs
  return { kind, database := db, collection := coll, updateJson := some json, insertedCount := some inserted }

/-- The options are written too, and not used. -/
def indexOperation (args : List Bson) : Option ShellOperation := do
  let kj ← toJson (.document (keysArg args))
  let _oj ← toJson (args[1]?.getD .null)
  return { kind := .indexCreate, database := db, collection := coll, updateJson := some kj }

/-! ## Calls -/

variable (js : JsBridge V) (debug : Bson → String) (accessError : Document → String → String)

/-- The document that was found, or null. -/
def foundResult (answer : Answer) : Except String V :=
  match answer.documents with
  | d :: _ => js.ofBson (.document d)
  | [] => js.ofBson .null

def writeResult (method : WriteMethod) (answer : Answer) : Except String V :=
  match method with
  | .findOneAndUpdate => foundResult js answer
  | .findOneAndDelete => foundResult js answer
  | .findOneAndReplace => foundResult js answer
  | _ => .ok js.undefined

/-- `dispatch_sync`, after the requests of the `history`. -/
def dispatchMethod (history : List Sent) (method : Method) (args : List Bson) : Effect V :=
  match method with
  | .find => sendOne server history ⟨db, coll, .find (filterArg args)⟩ fun a => ([], js.ofCursor a.documents)
  | .findOne => sendOne server history ⟨db, coll, .findOne (filterArg args)⟩ fun a => ([], foundResult js a)
  | .countDocuments => sendOne server history ⟨db, coll, .countDocuments (filterArg args)⟩ fun a => ([], .ok (js.ofNumber a.count))
  | .aggregate => sendOne server history ⟨db, coll, .aggregate (pipelineArg args)⟩ fun a => ([], match a.cursorError with
      | some e => .error e
      | none => js.ofCursor a.documents)
  | .distinct =>
    match args.head? with
    | some (.string field) => sendOne server history ⟨db, coll, .distinct field ((docArg args 1).getD [])⟩ fun a =>
        ([], js.ofBson (.array a.values))
    | _ => raise "distinct(field, filter?) requires a field name"
  | .insertOne =>
    match docArg args 0 with
    | none => raise "insertOne requires a document"
    | some doc => sendOne server history ⟨db, coll, .command (.insertOne doc)⟩ fun _ =>
        ((insertOperation toJson db coll .insertOne (.document doc) 1).toList, .ok js.undefined)
  | .insertMany =>
    if (docsArg args).isEmpty then raise "insertMany requires a non-empty array of documents"
    else sendOne server history ⟨db, coll, .insertMany (docsArg args)⟩ fun a =>
      ((insertOperation toJson db coll .insertMany (.array ((docsArg args).map .document)) a.insertedCount).toList, .ok js.undefined)
  | .write .bulkWrite =>
    match args.head? with
    | some (.array ops) =>
      let answers := fun sent c => (server (history ++ sent.map fun p => ⟨db, coll, .command p.2⟩) ⟨db, coll, .command c⟩).map
        fun _ => ()
      let outcome := bulkLoop debug accessError answers 0 [] ops
      ⟨outcome.1.map fun p => ⟨db, coll, .command p.2⟩, [], outcome.2.map fun _ => js.undefined⟩
    | _ => raise "bulkWrite requires an array of operation documents"
  | .write method =>
    match request debug coll method args with
    | .error e => raise e
    | .ok c => sendOne server history ⟨db, coll, .command c⟩ fun a =>
        ((writeOperation toJson db coll method args a).toList, writeResult js method a)
  | .drop => sendOne server history ⟨db, coll, .drop⟩ fun _ =>
      ([{ kind := .collectionDrop, database := db, collection := coll }], .ok js.undefined)
  | .createIndex => sendOne server history ⟨db, coll, .createIndex (keysArg args) (indexOptions args)⟩ fun _ =>
      ((indexOperation toJson db coll args).toList, .ok js.undefined)
  | .dropIndex =>
    match args.head? with
    | some (.string name) => sendOne server history ⟨db, coll, .dropIndex name⟩ fun _ =>
        ([{ kind := .indexDrop, database := db, collection := coll, queryJson := some name }], .ok js.undefined)
    | _ => raise "dropIndex(name) requires the index name as a string"
  | .renameCollection =>
    match args.head? with
    | some (.string newName) =>
      sendOne server history ⟨"admin", "", .runCommand [("renameCollection", .string (db ++ "." ++ coll)),
          ("to", .string (db ++ "." ++ newName))]⟩ fun _ =>
        ([{ kind := .collectionRename, database := db, collection := coll, queryJson := some newName }], .ok js.undefined)
    | _ => raise "rename(newName) requires the new collection name as a string"
  | .dropDatabase => sendOne server history ⟨db, "", .dropDatabase⟩ fun _ => ([], .ok js.undefined)
  | .help => ⟨[], [], .ok js.undefined⟩
  | .other name => raise ("db." ++ coll ++ "." ++ name ++ ": not implemented")

end

/-- A call to the host. -/
inductive HostCall where
  | callDb (collection method : String) (args : List JsValue)
  | runCommand (command : JsValue)

/-- The command that is sent for a value. -/
def commandDoc : Bson → Document
  | .document d => d
  | .null => []
  | other => [("value", other)]

section
variable {V : Type} (server : Server) (toJson : Bson → Option String) (db : String) (js : JsBridge V) (debug : Bson → String)
  (accessError : Document → String → String) (parseRfc3339 : String → Option Int64)

def hostCall (history : List Sent) : HostCall → Effect V
  | .callDb coll method args =>
    match listToBson parseRfc3339 args with
    | .error e => raise e
    | .ok args => dispatchMethod server toJson db coll js debug accessError history (.ofName method) args
  | .runCommand command =>
    match jsvalueToBson parseRfc3339 command with
    | .error e => raise e
    | .ok command => sendOne server history ⟨db, "", .runCommand (commandDoc command)⟩ fun a =>
        ([], js.ofBson (.document (a.documents.headD [])))

/-! ## Scripts -/

/-- A script as it runs: it ends with a value or an exception, or calls the host and goes on with what comes back. -/
inductive Script (V : Type) where
  | done (result : Except String V)
  | call (host : HostCall) (next : Except String V → Script V)

/-- A call that a script has made, after the requests of the `history`. -/
structure Call where
  host : HostCall
  history : List Sent
  sent : List Sent

/-- What the thread of the shell keeps during a script. -/
structure ShellThread where
  sent : List Sent := []
  operations : List ShellOperation := []
  calls : List Call := []

def ShellThread.call (t : ShellThread) (host : HostCall) (effect : Effect V) : ShellThread where
  sent := t.sent ++ effect.sent
  operations := t.operations ++ effect.operations
  calls := t.calls ++ [⟨host, t.sent, effect.sent⟩]

def runScript : ShellThread → Script V → ShellThread × Except String V
  | t, .done result => (t, result)
  | t, .call host next =>
    let effect := hostCall server toJson db js debug accessError parseRfc3339 t.sent host
    runScript (t.call host effect) (next effect.result)

end

end Shell
