import NosqlBuddy.Shell.Values

/-!
# The write methods of the shell

| here | there |
| --- | --- |
| `WriteMethod` | the collection methods that write under a filter, and `bulkWrite` (mongo/shell.rs:911-2018) |

A command is what goes to the server, with the position of the operation it is for. The answers of the
server are a parameter, as is the text of the driver's error about a missing field. Audit records, the list of
operations and the printed lines are left out: none of them decides what is sent.
-/

namespace Shell
open Oplog (Bson Document)

inductive UpdateModifications where
  | document (update : Document)
  | pipeline (stages : List Document)

inductive ReturnDocument where
  | before
  | after

structure FindOneOptions where
  returnDocument : Option ReturnDocument
  upsert : Bool
  sort : Option Document
  projection : Option Document
  arrayFilters : Option (List Document)

/-- What is sent to the server. -/
inductive Command where
  | insertOne (doc : Document)
  | update (multi : Bool) (filter : Document) (update : UpdateModifications) (upsert : Bool)
  | replaceOne (filter replacement : Document) (upsert : Bool)
  | delete (multi : Bool) (filter : Document)
  | findOneAndUpdate (filter : Document) (update : UpdateModifications) (options : FindOneOptions)
  | findOneAndDelete (filter : Document) (options : FindOneOptions)
  | findOneAndReplace (filter replacement : Document) (options : FindOneOptions)

def Command.filter : Command → Option Document
  | .insertOne _ => none
  | .update _ filter _ _ => some filter
  | .replaceOne filter _ _ => some filter
  | .delete _ filter => some filter
  | .findOneAndUpdate filter _ _ => some filter
  | .findOneAndDelete filter _ => some filter
  | .findOneAndReplace filter _ _ => some filter

inductive WriteMethod where
  | updateOne
  | updateMany
  | replaceOne
  | deleteOne
  | deleteMany
  | findOneAndUpdate
  | findOneAndDelete
  | findOneAndReplace
  | bulkWrite
deriving DecidableEq

def WriteMethod.name : WriteMethod → String
  | updateOne => "updateOne"
  | updateMany => "updateMany"
  | replaceOne => "replaceOne"
  | deleteOne => "deleteOne"
  | deleteMany => "deleteMany"
  | findOneAndUpdate => "findOneAndUpdate"
  | findOneAndDelete => "findOneAndDelete"
  | findOneAndReplace => "findOneAndReplace"
  | bulkWrite => "bulkWrite"

/-! ## Arguments -/

def okOrElse {α : Type} (message : String) : Option α → Except String α
  | some a => .ok a
  | none => .error message

theorem okOrElse_ok {α : Type} {message : String} {x : Option α} {a : α} :
    okOrElse message x = .ok a ↔ x = some a := by
  cases x <;> simp [okOrElse]

def documentOf : Bson → Option Document
  | .document d => some d
  | _ => none

/-- `doc_arg` (shell.rs:2021). -/
def docArg (args : List Bson) (idx : Nat) : Option Document := args[idx]?.bind documentOf

/-- `bson_to_update_mods` (shell.rs:2031). The text shows the value as Rust prints it. -/
def bsonToUpdateMods (debug : Bson → String) : Bson → Except String UpdateModifications
  | .document d => .ok (.document d)
  | .array arr => .ok (.pipeline (arr.filterMap documentOf))
  | other => .error ("expected update document or pipeline array, got " ++ debug other)

/-- `opts.get_document(key)`. -/
def getDocument (d : Document) (key : String) : Option Document := (d.lookup key).bind documentOf

/-- `get_bool(key)` is `Ok(true)`. -/
def getTrue (d : Document) (key : String) : Bool :=
  match d.lookup key with
  | some (.boolean b) => b
  | _ => false

def getArray (d : Document) (key : String) : Option (List Bson) :=
  match d.lookup key with
  | some (.array xs) => some xs
  | _ => none

/-- `extract_return_document` (shell.rs:2053). -/
def extractReturnDocument (opts : Document) : Option ReturnDocument :=
  if getTrue opts "returnNewDocument" then some .after
  else
    match opts.lookup "returnDocument" with
    | some (.string s) =>
      if s = "after" ∨ s = "After" then some .after
      else if s = "before" ∨ s = "Before" then some .before
      else none
    | _ => none

def noOptions : FindOneOptions := ⟨none, false, none, none, none⟩

def updateOptions (o : Document) : FindOneOptions where
  returnDocument := extractReturnDocument o
  upsert := getTrue o "upsert"
  sort := getDocument o "sort"
  projection := getDocument o "projection"
  arrayFilters := (getArray o "arrayFilters").map fun af => af.filterMap documentOf

def replaceOptions (o : Document) : FindOneOptions where
  returnDocument := extractReturnDocument o
  upsert := getTrue o "upsert"
  sort := getDocument o "sort"
  projection := getDocument o "projection"
  arrayFilters := none

def deleteOptions (o : Document) : FindOneOptions where
  returnDocument := none
  upsert := false
  sort := getDocument o "sort"
  projection := getDocument o "projection"
  arrayFilters := none

section
variable (debug : Bson → String) (accessError : Document → String → String)

/-! ## One command -/

/-- `unwrap_or_default` on the filter: anything that is not a document is the empty one. -/
def filterArg (args : List Bson) : Document := (docArg args 0).getD []

/-- The command of a method other than `bulkWrite`, or the error raised before anything is sent. -/
def request (coll : String) (method : WriteMethod) (args : List Bson) : Except String Command :=
  match method with
  | .updateOne | .updateMany => do
    let update ← okOrElse ("db." ++ coll ++ "." ++ method.name ++ "(filter, update) requires an update document")
      (docArg args 1)
    return .update (method == .updateMany) (filterArg args) (.document update) false
  | .replaceOne => do
    let replacement ← okOrElse "replaceOne(filter, doc) requires a replacement document" (docArg args 1)
    return .replaceOne (filterArg args) replacement false
  | .deleteOne | .deleteMany => return .delete (method == .deleteMany) (filterArg args)
  | .findOneAndUpdate => do
    let update ← okOrElse "findOneAndUpdate(filter, update, options?) requires an update document" args[1]?
    let mods ← bsonToUpdateMods debug update
    return .findOneAndUpdate (filterArg args) mods ((docArg args 2).elim noOptions updateOptions)
  | .findOneAndDelete => return .findOneAndDelete (filterArg args) ((docArg args 1).elim noOptions deleteOptions)
  | .findOneAndReplace => do
    let replacement ← okOrElse "findOneAndReplace(filter, replacement, options?) requires a replacement document"
      (docArg args 1)
    return .findOneAndReplace (filterArg args) replacement ((docArg args 2).elim noOptions replaceOptions)
  | .bulkWrite => .error "bulkWrite requires an array of operation documents"

/-- One operation of `bulkWrite` by the name of its kind. -/
def bulkCommand (kind : String) (payload : Document) : Except String Command :=
  if kind = "insertOne" then do
    let doc ← okOrElse ("bulkWrite insertOne: " ++ accessError payload "document") (getDocument payload "document")
    return .insertOne doc
  else if kind = "updateOne" ∨ kind = "updateMany" then do
    let update ← okOrElse "bulkWrite update: missing update" (payload.lookup "update")
    let mods ← bsonToUpdateMods debug update
    return .update (kind == "updateMany") ((getDocument payload "filter").getD []) mods (getTrue payload "upsert")
  else if kind = "replaceOne" then do
    let replacement ← okOrElse ("bulkWrite replaceOne: " ++ accessError payload "replacement")
      (getDocument payload "replacement")
    return .replaceOne ((getDocument payload "filter").getD []) replacement (getTrue payload "upsert")
  else if kind = "deleteOne" ∨ kind = "deleteMany" then
    return .delete (kind == "deleteMany") ((getDocument payload "filter").getD [])
  else .error ("bulkWrite: unsupported operation '" ++ kind ++ "'")

/-- One element of the array: skipped when it is no document or an empty one. -/
def bulkOp : Bson → Except String (Option Command)
  | .document ((kind, .document payload) :: _) => some <$> bulkCommand debug accessError kind payload
  | .document ((kind, _) :: _) => .error ("bulkWrite: " ++ kind ++ " payload must be a document")
  | _ => .ok none

/-! ## Sending -/

/-- The commands sent, each with the position of the operation it is for, and how the call ends. -/
abbrev Outcome := List (Nat × Command) × Except String Unit

variable (server : List (Nat × Command) → Command → Except String Unit)

/-- The operations from position `i` on, after what was `sent`. -/
def bulkLoop : Nat → List (Nat × Command) → List Bson → Outcome
  | _, sent, [] => (sent, .ok ())
  | i, sent, op :: ops =>
    match bulkOp debug accessError op with
    | .error e => (sent, .error e)
    | .ok none => bulkLoop (i + 1) sent ops
    | .ok (some c) =>
      match server sent c with
      | .error e => (sent ++ [(i, c)], .error e)
      | .ok () => bulkLoop (i + 1) (sent ++ [(i, c)]) ops

/-- `dispatch_sync` for these methods. -/
def dispatchSync (coll : String) (method : WriteMethod) (args : List Bson) : Outcome :=
  match method, args.head? with
  | .bulkWrite, some (.array ops) => bulkLoop debug accessError server 0 [] ops
  | method, _ =>
    match request debug coll method args with
    | .error e => ([], .error e)
    | .ok c => ([(0, c)], server [] c)

variable (parseRfc3339 : String → Option Int64)

/-- `__call_db`: no argument that does not convert gets past the first step. -/
def callDb (coll : String) (method : WriteMethod) (args : List JsValue) : Outcome :=
  match listToBson parseRfc3339 args with
  | .error e => ([], .error e)
  | .ok bsonArgs => dispatchSync debug accessError server coll method bsonArgs

end

end Shell
