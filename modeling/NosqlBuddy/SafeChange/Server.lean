import NosqlBuddy.Lib.Paths
import NosqlBuddy.SafeChange.Plan

/-!
# What the server does

The writes that Safe Change previews and the operations of a plan, with the meaning MongoDB gives them:

| here | there |
| --- | --- |
| `setField`, `unsetField` | `$set` and `$unset` of one path, positions of arrays included |
| `WriteOperation.apply` | updateOne, updateMany, deleteOne, deleteMany, replaceOne |

A collection is the list of its documents in the order in which the server visits them. Which documents a
filter selects is a parameter, as is what the operators other than `$set` and `$unset` do.
-/

namespace SafeChange
open Oplog (Bson Document)
open Mongo (splitPath ValidPath)
open Paths (look view setAt eraseAt SameFields Apart)

def asDocument? : Bson → Option Document
  | .document d => some d
  | _ => none

instance : Paths.Nested Bson where
  open? := asDocument?
  close := .document
  open_close := fun _ => rfl

theorem asDocument_eq {v : Bson} {d : Document} : asDocument? v = some d ↔ v = .document d := by
  cases v <;> simp [asDocument?]

instance : Paths.LawfulNested Bson where
  close_open := fun h => (asDocument_eq.1 h).symm

/-! ## One update -/

/-- A position of an array. -/
def position (k : String) : Option Nat :=
  if k.toList ≠ [] ∧ k.toList.all Char.isDigit ∧ (k.toList.head? ≠ some '0' ∨ k = "0") then
    some (Nat.ofDigitChars 10 k.toList 0)
  else none

/-- The array with a value at a position, nulls before it where there was nothing. -/
def putAt (i : Nat) (v : Bson) (xs : List Bson) : List Bson :=
  if i < xs.length then xs.set i v else xs ++ List.replicate (i - xs.length) .null ++ [v]

/-- The value with another one put at a path below it; none where something else is in the way. -/
def setBelow : List String → Bson → Bson → Option Bson
  | [], v, _ => some v
  | k :: ks, v, .document d => do
    let w ← setBelow ks v ((d.lookup k).getD (.document []))
    return .document (Fields.put k w d)
  | k :: ks, v, .array xs => do
    let i ← position k
    let w ← setBelow ks v (xs[i]?.getD (.document []))
    return .array (putAt i w xs)
  | _ :: _, _, _ => none

def setField (p : List String) (v : Bson) (d : Document) : Option Document :=
  (setBelow p v (.document d)).bind asDocument?

/-- The value without what stands at a path below it; an element of an array becomes null. -/
def unsetBelow : List String → Bson → Option Bson
  | [], _ => none
  | k :: ks, .document d =>
    match d.lookup k with
    | none => some (.document d)
    | some w =>
      match unsetBelow ks w with
      | some w' => some (.document (Fields.put k w' d))
      | none => some (.document (Fields.erase k d))
  | k :: ks, .array xs =>
    match position k with
    | none => some (.array xs)
    | some i =>
      match xs[i]? with
      | none => some (.array xs)
      | some w => some (.array (xs.set i ((unsetBelow ks w).getD .null)))
  | _ :: _, w => some w

def unsetField (p : List String) (d : Document) : Document :=
  match unsetBelow p (.document d) with
  | some (.document d') => d'
  | _ => d

/-- A path of the update with the value it sets, or none for one it unsets. -/
abbrev FieldUpdate := String × Option Bson

def fieldUpdates : Document → List FieldUpdate
  | [] => []
  | (op, .document fields) :: us =>
    if op = "$set" then fields.map (fun f => (f.1, some f.2)) ++ fieldUpdates us
    else if op = "$unset" then fields.map (fun f => (f.1, none)) ++ fieldUpdates us
    else fieldUpdates us
  | _ :: us => fieldUpdates us

/-- Only `$set` and `$unset`, each with a document. -/
def SetOrUnset (update : Document) : Prop :=
  ∀ f ∈ update, (f.1 = "$set" ∨ f.1 = "$unset") ∧ (asDocument? f.2).isSome

instance (update : Document) : Decidable (SetOrUnset update) := List.decidableBAll _ _

/-- Paths the server accepts: none empty, none of an operator's name, none below another. -/
def Acceptable (us : List FieldUpdate) : Prop :=
  (∀ u ∈ us, ValidPath (splitPath u.1)) ∧ us.Pairwise fun u w => Apart (splitPath u.1) (splitPath w.1)

instance (us : List FieldUpdate) : Decidable (Acceptable us) :=
  inferInstanceAs (Decidable ((∀ u ∈ us, ValidPath (splitPath u.1)) ∧
    us.Pairwise fun u w => ¬ splitPath u.1 <+: splitPath w.1 ∧ ¬ splitPath w.1 <+: splitPath u.1))

def updateField (d : Document) (u : FieldUpdate) : Option Document :=
  match u.2 with
  | some v => setField (splitPath u.1) v d
  | none => some (unsetField (splitPath u.1) d)

/-- The server beside `$set` and `$unset`. -/
structure Server where
  selects : Document → Document → Bool
  /-- The `_id` is what it was. -/
  keepsId : Document → Document → Bool
  /-- An update with another operator. -/
  otherUpdate : Document → Document → Option Document
  keepsId_iff : ∀ {d d'}, keepsId d d' = true ↔ d'.lookup "_id" = d.lookup "_id"
  /-- A filter on the `_id` reads nothing else. -/
  selects_id : ∀ {id d e}, d.lookup "_id" = e.lookup "_id" → selects [("_id", id)] d = selects [("_id", id)] e

section
variable (server : Server)

def runUpdate (update d : Document) : Option Document :=
  if SetOrUnset update then
    if update ≠ [] ∧ Acceptable (fieldUpdates update) then (fieldUpdates update).foldlM updateField d else none
  else server.otherUpdate update d

/-- The update of one document. Its `_id` stays. -/
def applyUpdate (update d : Document) : Option Document :=
  (runUpdate server update d).bind fun d' => if server.keepsId d d' then some d' else none

/-- A replacement keeps the `_id`. -/
def replaceDocument (replacement d : Document) : Option Document :=
  match d.lookup "_id" with
  | none => none
  | some id =>
    if (replacement.lookup "_id").isNone ∨ server.keepsId d replacement then
      some (("_id", id) :: Fields.erase "_id" replacement)
    else none

/-! ## Writes to a collection -/

abbrev Collection := List Document

/-- The first document with the property. -/
def changeFirst (p : Document → Bool) (f : Document → Option Document) : Collection → Option Collection
  | [] => some []
  | d :: c => if p d then (f d).map (· :: c) else (changeFirst p f c).map (d :: ·)

def changeAll (p : Document → Bool) (f : Document → Option Document) (c : Collection) : Option Collection :=
  c.mapM fun d => if p d then f d else some d

inductive WriteOperation where
  | updateOne (filter update : Document)
  | updateMany (filter update : Document)
  | deleteOne (filter : Document)
  | deleteMany (filter : Document)
  | replaceOne (filter replacement : Document)

namespace WriteOperation

def kind : WriteOperation → OperationKind
  | updateOne _ _ => .updateOne
  | updateMany _ _ => .updateMany
  | deleteOne _ => .deleteOne
  | deleteMany _ => .deleteMany
  | replaceOne _ _ => .replaceOne

def filter : WriteOperation → Document
  | updateOne filter _ => filter
  | updateMany filter _ => filter
  | deleteOne filter => filter
  | deleteMany filter => filter
  | replaceOne filter _ => filter

/-- The update or the replacement. -/
def change : WriteOperation → Option Document
  | updateOne _ update => some update
  | updateMany _ update => some update
  | deleteOne _ => none
  | deleteMany _ => none
  | replaceOne _ replacement => some replacement

def apply (c : Collection) : WriteOperation → Option Collection
  | updateOne filter update => changeFirst (server.selects filter) (applyUpdate server update) c
  | updateMany filter update => changeAll (server.selects filter) (applyUpdate server update) c
  | deleteOne filter => some (c.eraseP (server.selects filter))
  | deleteMany filter => some (c.filter fun d => !server.selects filter d)
  | replaceOne filter replacement => changeFirst (server.selects filter) (replaceDocument server replacement) c

end WriteOperation

/-- A document with a new `_id`. -/
def insertOne (c : Collection) (d : Document) : Option Collection :=
  match d.lookup "_id" with
  | none => none
  | some id => if c.any (server.selects [("_id", id)]) then none else some (c ++ [d])

/-! ## A plan -/

variable (readJson : Json → Option Document)

def runOperation (c : Collection) : PlanOperation → Option Collection
  | .updateOne filter update => do
    let f ← readJson filter
    let u ← readJson update
    changeFirst (server.selects f) (applyUpdate server u) c
  | .updateMany filter update => do
    let f ← readJson filter
    let u ← readJson update
    changeAll (server.selects f) (applyUpdate server u) c
  | .insertMany documents => do
    let docs ← documents.mapM readJson
    docs.foldlM (insertOne server) c
  | .replaceOne filter replacement => do
    let f ← readJson filter
    let r ← readJson replacement
    changeFirst (server.selects f) (replaceDocument server r) c

/-- The operations of a plan one after the other, up to the first error. -/
def runPlan (plan : Plan) (c : Collection) : Option Collection :=
  plan.operations.foldlM (runOperation server readJson) c

end

/-! ## The same documents -/

def SameDocument (d e : Document) : Prop := SameFields (Bson.document d) (Bson.document e)

/-- The same documents in some order, each up to the order of its fields. -/
def SameDocuments (c c' : Collection) : Prop := ∃ c'', c.Perm c'' ∧ List.Forall₂ SameDocument c'' c'

/-- Every document has an `_id`, which selects it and no other one. -/
structure UniqueIds (server : Server) (c : Collection) : Prop where
  nodup : c.Nodup
  has_id : ∀ d ∈ c, ∃ id, d.lookup "_id" = some id
  selects_self : ∀ d ∈ c, ∀ id, d.lookup "_id" = some id → server.selects [("_id", id)] d = true
  eq_of_selects : ∀ d ∈ c, ∀ e ∈ c, ∀ id, d.lookup "_id" = some id → server.selects [("_id", id)] e = true → e = d

end SafeChange
