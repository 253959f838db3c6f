import NosqlBuddy.Lib.Fallible
import NosqlBuddy.Lib.Fields
import NosqlBuddy.Lib.Json
import NosqlBuddy.Mongo.Value
import NosqlBuddy.Oplog.Bson

/-!
# Safe Change: the rollback plan

A path is split at every dot, one at each level. The conversion of a document to JSON is the bson crate's
(`bson_doc_to_json`). Of the preview the counts, the level and the script are kept; what is shown of
the documents is a parameter that can only fail, the risk score is left out.
-/

namespace SafeChange
open Oplog (Bson Document)
open Mongo (splitPath)

/-- The kinds of operation that Safe Change knows, and the others. -/
inductive OperationKind where
  | updateOne
  | updateMany
  | deleteOne
  | deleteMany
  | replaceOne
  | other (debug : String)
deriving DecidableEq

structure SafeChangePreviewRequest where
  database : String
  collection : String
  kind : OperationKind
  filterJson : String
  updateJson : Option String
  replacementJson : Option String
  sampleLimit : Option Nat

/-! ## The inverse of an update -/

def getNestedValue (doc : Document) : List String → Option Bson
  | [] => none
  | [k] => doc.lookup k
  | k :: ks =>
    match doc.lookup k with
    | some (.document child) => getNestedValue child ks
    | _ => none

/-- `inverse.entry(op).or_insert_with(Document::new)` and `insert(k, v)` into it. -/
def insertUnder (op k : String) (v : Bson) (inverse : Document) : Document :=
  match inverse.lookup op with
  | some (.document d) => Fields.put op (.document (Fields.put k v d)) inverse
  | some _ => inverse
  | none => Fields.put op (.document [(k, v)]) inverse

/-- `inverse.entry(op).or_insert_with(Document::new)`. -/
def entryUnder (op : String) (inverse : Document) : Document :=
  match inverse.lookup op with
  | some _ => inverse
  | none => Fields.put op (.document []) inverse

def inverseSet (doc inverse : Document) (k : String) : Document :=
  match getNestedValue doc (splitPath k) with
  | some old => insertUnder "$set" k old inverse
  | none => insertUnder "$unset" k (.string "") inverse

def inverseUnset (doc inverse : Document) (k : String) : Document :=
  insertUnder "$set" k ((getNestedValue doc (splitPath k)).getD .null) inverse

def rollbackNote (op : String) : Bson := .string ("operator '" ++ op ++ "' requires manual rollback")

/-- One operator of the update. -/
def inverseOperator (doc inverse : Document) (op : String) (value : Bson) : Document :=
  if op = "$set" then
    match value with
    | .document fields => (fields.map Prod.fst).foldl (inverseSet doc) inverse
    | _ => inverse
  else if op = "$unset" then
    match value with
    | .document fields => (fields.map Prod.fst).foldl (inverseUnset doc) inverse
    | _ => inverse
  else insertUnder "$set" "__rollback_note" (rollbackNote op) inverse

def applyInverseUpdate (doc update : Document) : Document :=
  update.foldl (fun inverse f => inverseOperator doc inverse f.1 f.2) []

def metadataOperator (inverse : Document) (op : String) (value : Bson) : Document :=
  if op = "$set" then
    match value with
    | .document fields =>
      (fields.map Prod.fst).foldl (fun inverse k => insertUnder "$unset" k (.string "") inverse)
        (entryUnder "$unset" inverse)
    | _ => inverse
  else if op = "$unset" then
    match value with
    | .document fields =>
      (fields.map Prod.fst).foldl (fun inverse k => insertUnder "$set" k .null inverse) (entryUnder "$set" inverse)
    | _ => inverse
  else inverse

def invertUpdateMetadata (update : Document) : Document :=
  update.foldl (fun inverse f => metadataOperator inverse f.1 f.2) []

/-! ## The plan -/

/-- One operation of a plan, its documents as JSON. -/
inductive PlanOperation where
  | updateOne (filter update : Json)
  | updateMany (filter update : Json)
  | insertMany (documents : List Json)
  | replaceOne (filter replacement : Json)

inductive Plan where
  | bulkWrite (operations : List PlanOperation)
  | insertMany (documents : List Json) (note : Option String)
  | replaceOne (filter replacement : Json)
  | unsupported

/-- The operations that a plan describes. -/
def Plan.operations : Plan → List PlanOperation
  | .bulkWrite operations => operations
  | .insertMany documents _ => [.insertMany documents]
  | .replaceOne filter replacement => [.replaceOne filter replacement]
  | .unsupported => []

def PlanOperation.toJson : PlanOperation → Json
  | .updateOne filter update => .object [("updateOne", .object [("filter", filter), ("update", update)])]
  | .updateMany filter update => .object [("updateMany", .object [("filter", filter), ("update", update)])]
  | .insertMany documents => .object [("insertMany", .array documents)]
  | .replaceOne filter replacement =>
    .object [("replaceOne", .object [("filter", filter), ("replacement", replacement)])]

def Plan.toJson : Plan → Json
  | .bulkWrite operations =>
    .object [("operation", .string "bulkWrite"), ("operations", .array (operations.map PlanOperation.toJson))]
  | .insertMany documents note => .object ([("operation", .string "insertMany"), ("documents", .array documents)] ++
      note.toList.map fun n => ("note", .string n))
  | .replaceOne filter replacement =>
    .object [("operation", .string "replaceOne"), ("filter", filter), ("replacement", replacement)]
  | .unsupported => .object [("error", .string "unsupported rollback kind")]

section
variable (bsonDocToJson : Document → Json)

/-- The operation that restores one captured document after an update. -/
def inverseOf (update doc : Document) : Option PlanOperation :=
  match doc.lookup "_id" with
  | none => none
  | some id =>
    if applyInverseUpdate doc update = [] then none
    else some (.updateOne (bsonDocToJson [("_id", id)]) (bsonDocToJson (applyInverseUpdate doc update)))

def updatePlan (filter : Document) (capturedDocs : List Document) (update : Document) : Plan :=
  match capturedDocs.filterMap (inverseOf bsonDocToJson update) with
  | [] => .bulkWrite [.updateMany (bsonDocToJson filter) (bsonDocToJson (invertUpdateMetadata update))]
  | ops => .bulkWrite ops

def replacePlan (filter : Document) : List Document → Plan
  | original :: _ =>
    match original.lookup "_id" with
    | some id => .replaceOne (bsonDocToJson [("_id", id)]) (bsonDocToJson original)
    | none => .replaceOne (bsonDocToJson filter) (bsonDocToJson original)
  | [] => .replaceOne (bsonDocToJson filter) (.string "No pre-image captured.")

def deletePlan : List Document → Plan
  | [] => .insertMany [] (some "No pre-images captured. Restore from an external backup.")
  | docs => .insertMany (docs.map bsonDocToJson) none

/-- The plan, but for an update without its document. -/
def rollbackPlan (kind : OperationKind) (filter : Document) (capturedDocs : List Document)
    (updateOrReplacement : Option Document) : Option Plan :=
  match kind with
  | .updateOne | .updateMany => updateOrReplacement.map (updatePlan bsonDocToJson filter capturedDocs)
  | .deleteOne | .deleteMany => some (deletePlan bsonDocToJson capturedDocs)
  | .replaceOne => some (replacePlan bsonDocToJson filter capturedDocs)
  | .other _ => some .unsupported

/-- `generate_rollback_script`. -/
def generateRollbackScript (kind : OperationKind) (filter : Document) (capturedDocs : List Document)
    (updateOrReplacement : Option Document) : List Char :=
  match rollbackPlan bsonDocToJson kind filter capturedDocs updateOrReplacement with
  | some plan => plan.toJson.pretty 0
  | none => []

end

/-! ## The preview -/

inductive PreviewRollbackLevel where
  | metadataOnly
  | sampleBased
  | full
deriving DecidableEq

def rollbackCaptureLimit : Nat := 100

/-- What the preview asks outside: the readers and printers of documents, the server, and the simulation that
is only shown. -/
structure PreviewEnv where
  parseFilter : String → Except String Document
  isBlank : String → Bool
  bsonDocToJson : Document → Json
  countDocuments : Document → Except String Nat
  /-- `find(filter).limit(limit)`, where 0 is no limit. -/
  find : Document → Nat → Except String (List Document)
  /-- Showing the captured documents and what becomes of them. -/
  showDocuments : List Document → Except String Unit
  showUpdate : Document → List Document → Except String Unit

structure SafeChangePreview where
  kind : OperationKind
  matchedCount : Nat
  rollbackScript : List Char
  rollbackLevel : PreviewRollbackLevel

section
variable (env : PreviewEnv)

/-- `parse_optional_doc` (bson_json.rs:86). -/
def parseOptionalDoc : Option String → Except String (Option Document)
  | none => .ok none
  | some s => if env.isBlank s then .ok none else some <$> env.parseFilter s

def displayLimit (req : SafeChangePreviewRequest) : Nat := min (req.sampleLimit.getD 10) 50

def rollbackLevelOf (matchedCount : Nat) : PreviewRollbackLevel :=
  if matchedCount = 0 then .metadataOnly
  else if matchedCount ≤ rollbackCaptureLimit then .full
  else .sampleBased

def required (message : String) : Option Document → Except String Document
  | some d => .ok d
  | none => .error message

/-- What is shown, or the error that ends the preview. -/
def showSample (req : SafeChangePreviewRequest) (docs : List Document) (updateDoc replacementDoc : Option Document) :
    Except String Unit :=
  match req.kind with
  | .updateOne | .updateMany => do
    let update ← required "update document is required" updateDoc
    env.showUpdate update docs
  | .deleteOne | .deleteMany => env.showDocuments docs
  | .replaceOne => do
    let replacement ← required "replacement document is required" replacementDoc
    env.showDocuments (replacement :: docs)
  | .other debug => .error ("Safe Change Mode does not support operation kind: " ++ debug)

def previewOperation (req : SafeChangePreviewRequest) : Except String SafeChangePreview := do
  let parsed ← parseOptionalDoc env (some req.filterJson)
  let filter := parsed.getD []
  let matchedCount ← env.countDocuments filter
  let capturedDocs ← env.find filter (max (min matchedCount rollbackCaptureLimit) (displayLimit req))
  let updateDoc ← parseOptionalDoc env req.updateJson
  let replacementDoc ← parseOptionalDoc env req.replacementJson
  showSample env req (capturedDocs.take (displayLimit req)) updateDoc replacementDoc
  return {
    kind := req.kind
    matchedCount
    rollbackScript :=
      generateRollbackScript env.bsonDocToJson req.kind filter capturedDocs (updateDoc.or replacementDoc)
    rollbackLevel := rollbackLevelOf matchedCount }

end

theorem plan_of_shown (filter : Document) (docs : List Document)
    (h : showSample env req shown updateDoc replacementDoc = .ok ()) :
    ∃ plan : Plan, plan ≠ .unsupported ∧
      rollbackPlan env.bsonDocToJson req.kind filter docs (updateDoc.or replacementDoc) = some plan := by
  unfold showSample at h
  unfold rollbackPlan
  cases hkind : req.kind with
  | updateOne | updateMany =>
    rw [hkind] at h
    obtain ⟨update, hupdate, -⟩ := Fallible.bind_ok.1 h
    cases updateDoc with
    | none => cases hupdate
    | some d =>
      refine ⟨_, ?_, rfl⟩
      rw [updatePlan]
      split <;> exact fun h => by cases h
  | deleteOne | deleteMany =>
    refine ⟨_, ?_, rfl⟩
    cases docs <;> exact fun h => by cases h
  | replaceOne =>
    refine ⟨_, ?_, rfl⟩
    cases docs with
    | nil => exact fun h => by cases h
    | cons doc docs =>
      rw [replacePlan]
      split <;> exact fun h => by cases h
  | other debug =>
    rw [hkind] at h
    cases h

end SafeChange

/-!
## Safe Change: the simulated update

| here | there |
| --- | --- |
| `setNested`, `unsetNested`, `incNested`, `mulNested`, `renameField`, `pushToArray`, `addToSet`, `pullFromArray` | the same (safe_change.rs:370-470) |
| `numericAdd`, `numericMul` | the same (safe_change.rs:472-506) |

A path is the list of its parts between the dots. An operator whose argument is no document does nothing, one that is not
known adds a warning, each time an update is simulated.
-/

namespace SafeChange
open Oplog (Bson Document)
open Mongo (splitPath)

/-- `f64` on the 64 bits, and the equality of the bson crate. -/
structure Arithmetic where
  add : UInt64 → UInt64 → UInt64
  mul : UInt64 → UInt64 → UInt64
  /-- `as f64` -/
  ofInt : Int → UInt64
  eq : Bson → Bson → Bool

/-! ### Paths -/

def setNested : Document → List String → Bson → Except String Document
  | doc, [], _ => .ok doc
  | doc, [k], value => .ok (Fields.put k value doc)
  | doc, k :: l :: ks, value =>
    match doc.lookup k with
    | none => do return Fields.put k (.document (← setNested [] (l :: ks) value)) doc
    | some (.document child) => do return Fields.put k (.document (← setNested child (l :: ks) value)) doc
    | some _ => .error ("cannot set nested field '" ++ String.intercalate "." (k :: l :: ks) ++
        "': intermediate is not a document")

def unsetNested : Document → List String → Document
  | doc, [] => doc
  | doc, [k] => Fields.erase k doc
  | doc, k :: l :: ks =>
    match doc.lookup k with
    | some (.document child) => Fields.put k (.document (unsetNested child (l :: ks))) doc
    | _ => doc

/-! ### Numbers -/

def overflow : String := "integer overflow during update simulation"

/-- `checked_add` and `checked_mul` of `i32`: the exact result, when it fits. -/
def checkedInt32 (n : Int) : Except String Bson :=
  if -2 ^ 31 ≤ n ∧ n < 2 ^ 31 then .ok (.int32 (.ofInt n)) else .error overflow

def checkedInt64 (n : Int) : Except String Bson :=
  if -2 ^ 63 ≤ n ∧ n < 2 ^ 63 then .ok (.int64 (.ofInt n)) else .error overflow

section
variable (F : Arithmetic)

def numericAdd : Bson → Bson → Except String (Option Bson)
  | .int32 x, .int32 y => some <$> checkedInt32 (x.toInt + y.toInt)
  | .int32 x, .int64 y => some <$> checkedInt64 (x.toInt + y.toInt)
  | .int64 x, .int32 y => some <$> checkedInt64 (x.toInt + y.toInt)
  | .int64 x, .int64 y => some <$> checkedInt64 (x.toInt + y.toInt)
  | .double x, .double y => .ok (some (.double (F.add x y)))
  | .double x, .int32 y => .ok (some (.double (F.add x (F.ofInt y.toInt))))
  | .double x, .int64 y => .ok (some (.double (F.add x (F.ofInt y.toInt))))
  | .null, .int32 y => .ok (some (.int32 y))
  | .null, .int64 y => .ok (some (.int64 y))
  | .null, .double y => .ok (some (.double y))
  | _, _ => .ok none

def numericMul : Bson → Bson → Except String (Option Bson)
  | .int32 x, .int32 y => some <$> checkedInt32 (x.toInt * y.toInt)
  | .int32 x, .int64 y => some <$> checkedInt64 (x.toInt * y.toInt)
  | .int64 x, .int32 y => some <$> checkedInt64 (x.toInt * y.toInt)
  | .int64 x, .int64 y => some <$> checkedInt64 (x.toInt * y.toInt)
  | .double x, .double y => .ok (some (.double (F.mul x y)))
  | .double x, .int32 y => .ok (some (.double (F.mul x (F.ofInt y.toInt))))
  | .double x, .int64 y => .ok (some (.double (F.mul x (F.ofInt y.toInt))))
  | .null, .int32 _ => .ok (some (.int32 0))
  | .null, .int64 _ => .ok (some (.int64 0))
  | .null, .double _ => .ok (some (.double 0))
  | _, _ => .ok none

/-! ### Operators -/

/-- `$inc` and `$mul` of one field: the new number at the path. -/
def combineNested (op : String) (combine : Bson → Bson → Except String (Option Bson)) (doc : Document) (path : String)
    (argument : Bson) : Except String Document := do
  let current := (getNestedValue doc (splitPath path)).getD .null
  match ← combine current argument with
  | none => .error ("cannot " ++ op ++ " non-numeric field '" ++ path ++ "'")
  | some value => setNested doc (splitPath path) value

def incNested : Document → String → Bson → Except String Document := combineNested "$inc" (numericAdd F)

def mulNested : Document → String → Bson → Except String Document := combineNested "$mul" (numericMul F)

/-- The names are keys of the document, dots and all. -/
def renameField (doc : Document) (oldName newName : String) : Document :=
  match doc.lookup oldName with
  | some value => Fields.put newName value (Fields.erase oldName doc)
  | none => doc

/-- `$push` and `$addToSet` of one field: the new array at the path, of one element where there is nothing. -/
def extendArray (op : String) (extend : List Bson → List Bson) (doc : Document) (path : String) (value : Bson) :
    Except String Document :=
  match getNestedValue doc (splitPath path) with
  | some (.array arr) => setNested doc (splitPath path) (.array (extend arr))
  | none => setNested doc (splitPath path) (.array [value])
  | some _ => .error ("cannot " ++ op ++ " to non-array field '" ++ path ++ "'")

def pushToArray (doc : Document) (path : String) (value : Bson) : Except String Document :=
  extendArray "$push" (fun arr => arr ++ [value]) doc path value

def addToSet (doc : Document) (path : String) (value : Bson) : Except String Document :=
  extendArray "$addToSet" (fun arr => if arr.any fun item => F.eq item value then arr else arr ++ [value]) doc path value

def pullFromArray (doc : Document) (path : String) (value : Bson) : Except String Document :=
  match getNestedValue doc (splitPath path) with
  | some (.array arr) => setNested doc (splitPath path) (.array (arr.filter fun item => !F.eq item value))
  | _ => .ok doc

/-- The fields of an operator, one after the other. -/
def eachField (step : Document → String → Bson → Except String Document) (doc : Document) (argument : Bson) :
    Except String Document :=
  match argument with
  | .document fields => fields.foldlM (fun doc f => step doc f.1 f.2) doc
  | _ => .ok doc

/-- `$rename` of one field; a new name that is no string is passed over. -/
def renameStep (doc : Document) (oldName : String) (newName : Bson) : Except String Document :=
  match newName with
  | .string name => .ok (renameField doc oldName name)
  | _ => .ok doc

/-- What an operator does to one field, for the operators that are simulated. -/
def fieldStep (op : String) : Option (Document → String → Bson → Except String Document) :=
  match op with
  | "$set" => some fun doc k v => setNested doc (splitPath k) v
  | "$unset" => some fun doc k _ => .ok (unsetNested doc (splitPath k))
  | "$inc" => some (incNested F)
  | "$mul" => some (mulNested F)
  | "$rename" => some renameStep
  | "$push" => some pushToArray
  | "$addToSet" => some (addToSet F)
  | "$pull" => some (pullFromArray F)
  | _ => none

def notSimulated (op : String) : String :=
  "Preview does not fully simulate '" ++ op ++ "'; after-state is approximate."

/-- One operator of the update. -/
def simulateOperator (result : Document) (op : String) (value : Bson) : Except String Document :=
  match fieldStep F op with
  | some step => eachField step result value
  | none => .ok result

/-- The warnings of one simulation. -/
def simulationWarnings (update : Document) : List String :=
  update.filterMap fun f => if (fieldStep F f.1).isSome then none else some (notSimulated f.1)

/-- `simulate_update`: the document and, when it succeeds, the warnings it adds. -/
def simulateUpdate (doc update : Document) : Except String (Document × List String) := do
  let result ← update.foldlM (fun result f => simulateOperator F result f.1 f.2) doc
  return (result, simulationWarnings F update)

end

end SafeChange
