import Mathlib.Data.List.Sort
import NosqlBuddy.Mongo.Expr

/-!
# Pipelines and finds

| here | there |
| --- | --- |
| `groupDocs`, `accumulate` | `$group`, the groups in the order of their first documents |
| `runStage`, `runPipeline` | an aggregation; the outer `none` is an error |

Positions of arrays in paths, and arrays on the way to a computed field, are left out.
-/

namespace Mongo

/-! ## Documents -/

/-- Put a value at a path, making the documents on the way. -/
def setPath : List String → Value → Doc → Doc
  | [], _, d => d
  | [k], v, d => insertKV k v d
  | k :: l :: ks, v, d => match d.lookup k with
    | some (.doc fs) => insertKV k (.doc (setPath (l :: ks) v fs)) d
    | _ => insertKV k (.doc (setPath (l :: ks) v [])) d

/-- The paths that go on below a key. -/
def below (k : String) (ps : List (List String)) : List (List String) :=
  ps.filterMap fun p => match p with
    | l :: q => if l = k ∧ q ≠ [] then some q else none
    | [] => none

mutual

/-- The fields at the paths, or all but those. -/
def pick (keep : Bool) : List (List String) → List (String × Value) → List (String × Value)
  | _, [] => []
  | ps, (k, v) :: fs =>
    if ps.contains [k] then (if keep then (k, v) :: pick keep ps fs else pick keep ps fs)
    else if (below k ps).isEmpty then (if keep then pick keep ps fs else (k, v) :: pick keep ps fs)
    else pickValue keep k (below k ps) v ++ pick keep ps fs

/-- Below a key: in a document its fields, in an array its elements. -/
def pickValue (keep : Bool) (k : String) : List (List String) → Value → List (String × Value)
  | ps, .doc gs => [(k, .doc (pick keep ps gs))]
  | ps, .arr vs => [(k, .arr (pickList keep ps vs))]
  | _, v => if keep then [] else [(k, v)]

def pickList (keep : Bool) : List (List String) → List Value → List Value
  | _, [] => []
  | ps, .doc gs :: vs => .doc (pick keep ps gs) :: pickList keep ps vs
  | ps, v :: vs => if keep then pickList keep ps vs else v :: pickList keep ps vs

end

/-! ## Projections -/

/-- What an entry of a projection asks for: a number or a boolean keeps or drops the field. -/
inductive FieldSpec where
  | keep
  | drop
  | compute (e : Value)

def fieldSpec : Value → FieldSpec
  | .num q => if q = 0 then .drop else .keep
  | .bool b => if b then .keep else .drop
  | v => .compute v

def FieldSpec.isDrop : FieldSpec → Bool
  | .drop => true
  | _ => false

def FieldSpec.isKeep : FieldSpec → Bool
  | .keep => true
  | _ => false

/-- No path is a prefix of a later one, nor the other way round. -/
def pathsDisjoint : List (List String) → Bool
  | [] => true
  | p :: ps => ps.all (fun q => !p.isPrefixOf q && !q.isPrefixOf p) && pathsDisjoint ps

/-- The computed fields, evaluated on the document and put one after the other. -/
def computeFields (sv : Server) (d : Doc) : List (String × Value) → Doc → Option Doc
  | [], out => some out
  | (k, v) :: spec, out => match fieldSpec v with
    | .compute e => (eval sv e d).bind fun r => match r with
      | some w => computeFields sv d spec (setPath (splitPath k) w out)
      | none => computeFields sv d spec out
    | _ => computeFields sv d spec out

/-- The paths of the entries that keep or drop their field. -/
def specPaths (test : FieldSpec → Bool) (spec : List (String × Value)) : List (List String) :=
  (spec.filter fun f => test (fieldSpec f.2)).map fun f => splitPath f.1

/-- A projection of a document: `_id` stays unless it is dropped. -/
def projectDoc (sv : Server) (spec : List (String × Value)) (d : Doc) : Option Doc :=
  let rest := spec.filter fun f => f.1 ≠ "_id"
  if spec.isEmpty || !(spec.all fun f => decide (ValidPath (splitPath f.1))) ||
      !pathsDisjoint (spec.map fun f => splitPath f.1) then none
  else if rest.all fun f => (fieldSpec f.2).isDrop then some (pick false (specPaths FieldSpec.isDrop spec) d)
  else if rest.any fun f => (fieldSpec f.2).isDrop then none
  else
    let kept := specPaths FieldSpec.isKeep spec
    computeFields sv d spec (pick true (if (spec.lookup "_id").isSome then kept else ["_id"] :: kept) d)

/-! ## Sorting -/

/-- The values a path ends at, inside an array its elements. -/
def leaves : List String → Doc → List (Option Value)
  | [], _ => []
  | [k], d => match d.lookup k with
    | some (.arr vs) => vs.map some
    | v => [v]
  | k :: l :: ks, d => match d.lookup k with
    | some (.doc fs) => leaves (l :: ks) fs
    | some (.arr vs) => vs.flatMap fun v => match v with
      | .doc fs => leaves (l :: ks) fs
      | _ => []
    | _ => [none]

/-- The least value, or the greatest one when descending; an array without elements is below null. -/
def sortKey (desc : Bool) (p : List String) (d : Doc) : Option Value :=
  match (leaves p d).map fun v => some (v.getD .null) with
  | [] => none
  | v :: vs => vs.foldl (fun a b => if (if desc then (cmpOpt a b).isLT else (cmpOpt a b).isGT) then b else a) v

/-- The direction of a sort key. -/
def sortDirection : Value → Option Bool
  | .num q => if q = 1 then some false else if q = -1 then some true else none
  | _ => none

/-- Key by key, in the order of the sort document. -/
def compareBy : List (String × Value) → Doc → Doc → Ordering
  | [], _, _ => .eq
  | (k, v) :: spec, a, b =>
    let desc := sortDirection v = some true
    let o := cmpOpt (sortKey desc (splitPath k) a) (sortKey desc (splitPath k) b)
    (if desc then o.swap else o).then (compareBy spec a b)

def validSort (spec : List (String × Value)) : Bool :=
  !spec.isEmpty && spec.all fun f => decide (ValidPath (splitPath f.1)) && (sortDirection f.2).isSome

/-- A stable sort. -/
def sortDocs (spec : List (String × Value)) (docs : List Doc) : Option (List Doc) :=
  if validSort spec then some (docs.insertionSort fun a b => (compareBy spec a b).isLE) else none

/-! ## Groups -/

/-- The numbers of a list of values. -/
def numericValues : List (Option Value) → List ℚ
  | [] => []
  | some (.num q) :: vs => q :: numericValues vs
  | _ :: vs => numericValues vs

/-- The values that are neither null nor missing. -/
def presentValues (vs : List (Option Value)) : List Value := (vs.filterMap id).filter fun v => v ≠ .null

/-- The extreme of the present values, null without one. -/
def extreme (better : Ordering → Bool) (vs : List (Option Value)) : Value :=
  match presentValues vs with
  | [] => .null
  | v :: vs => vs.foldl (fun a b => if better (b.cmp a) then b else a) v

def accumulate (op : String) (vs : List (Option Value)) : Option Value :=
  match op with
  | "$sum" => some (.num (numericValues vs).sum)
  | "$avg" => some (if (numericValues vs).isEmpty then .null
      else .num ((numericValues vs).sum / (numericValues vs).length))
  | "$min" => some (extreme (·.isLT) vs)
  | "$max" => some (extreme (·.isGT) vs)
  | "$first" => some ((vs.headD none).getD .null)
  | _ => none

/-- The values of an expression on the documents. -/
def evalEach (sv : Server) (e : Value) : List Doc → Option (List (Option Value))
  | [] => some []
  | d :: ds => (eval sv e d).bind fun r => (evalEach sv e ds).map (r :: ·)

/-- The accumulated fields of one group: a name without dots, one accumulator each. -/
def groupFields (sv : Server) (docs : List Doc) : List (String × Value) → Option Doc
  | [] => some []
  | (k, .doc [(op, e)]) :: fs =>
    if isOperator k || k.toList.contains '.' then none
    else (evalEach sv e docs).bind fun vs => (accumulate op vs).bind fun v =>
      (groupFields sv docs fs).map ((k, v) :: ·)
  | _ :: _ => none

/-- The documents by their keys, the keys in the order they are first met. -/
def partitionBy : List (Value × Doc) → List (Value × List Doc)
  | [] => []
  | (k, d) :: kds =>
    let rest := partitionBy kds
    (k, d :: ((rest.find? fun g => g.1 = k).map Prod.snd).getD []) :: rest.filter fun g => g.1 ≠ k

/-- The fields of every group, its key first. -/
def finishGroups (sv : Server) (fs : List (String × Value)) : List (Value × List Doc) → Option (List Doc)
  | [] => some []
  | (k, docs) :: gs => (groupFields sv docs fs).bind fun out =>
      (finishGroups sv fs gs).map ((("_id", k) :: out) :: ·)

/-- `$group`: `_id` is the key expression, the other fields are accumulators. -/
def groupDocs (sv : Server) (spec : List (String × Value)) (docs : List Doc) : Option (List Doc) :=
  (spec.lookup "_id").bind fun id =>
    (evalEach sv id docs).bind fun keys =>
      finishGroups sv (spec.filter fun f => f.1 ≠ "_id") (partitionBy ((keys.map (·.getD .null)).zip docs))

/-! ## Joins -/

/-- A foreign document has the value of the local field, where a missing one is a null. -/
def joins (localField foreignField : List String) (d f : Doc) : Bool :=
  (leaves localField d).any fun v => (candidates foreignField f).any (sameValue (v.getD .null))

/-- `$lookup` on one document. -/
def lookupDoc (foreign : List Doc) (localField foreignField asName : String) (d : Doc) : Doc :=
  setPath (splitPath asName)
    (.arr ((foreign.filter (joins (splitPath localField) (splitPath foreignField) d)).map Value.doc)) d

/-! ## Stages -/

/-- A count of documents. -/
def countOf : Value → Option ℕ
  | .num q => if q.den = 1 ∧ 0 ≤ q.num then some q.num.toNat else none
  | _ => none

def filterDocs (test : Doc → Option Bool) : List Doc → Option (List Doc)
  | [] => some []
  | d :: ds => (test d).bind fun b => (filterDocs test ds).map fun out => if b then d :: out else out

def mapDocs (f : Doc → Option Doc) : List Doc → Option (List Doc)
  | [] => some []
  | d :: ds => (f d).bind fun e => (mapDocs f ds).map (e :: ·)

/-- `$replaceRoot`. -/
def replaceRoot (sv : Server) (e : Value) (d : Doc) : Option Doc :=
  match eval sv e d with
  | some (some (.doc fs)) => some fs
  | _ => none

/-- The text of a `$lookup` option. -/
def textField (fs : List (String × Value)) (k : String) : Option String :=
  match fs.lookup k with
  | some (.str s) => some s
  | _ => none

/-- The collections of a database. -/
abbrev Collections := String → List Doc

def runStage (sv : Server) (db : Collections) (op : String) (v : Value) (docs : List Doc) : Option (List Doc) :=
  match op, v with
  | "$match", f => filterDocs (satisfies sv f) docs
  | "$project", .doc spec => mapDocs (projectDoc sv spec) docs
  | "$sort", .doc spec => sortDocs spec docs
  | "$limit", n => (countOf n).bind fun n => if n = 0 then none else some (docs.take n)
  | "$skip", n => (countOf n).map fun n => docs.drop n
  | "$group", .doc spec => groupDocs sv spec docs
  | "$replaceRoot", .doc [("newRoot", e)] => mapDocs (replaceRoot sv e) docs
  | "$lookup", .doc fs =>
    (textField fs "from").bind fun src => (textField fs "localField").bind fun l =>
      (textField fs "foreignField").bind fun f => (textField fs "as").bind fun a =>
        some (docs.map (lookupDoc (db src) l f a))
  | _, _ => none

section
variable (sv : Server) (db : Collections) (docs : List Doc)

@[simp] theorem runStage_match (f : Value) : runStage sv db "$match" f docs = filterDocs (satisfies sv f) docs := rfl

@[simp] theorem runStage_project (spec : Doc) :
    runStage sv db "$project" (.doc spec) docs = mapDocs (projectDoc sv spec) docs := rfl

@[simp] theorem runStage_sort (spec : Doc) : runStage sv db "$sort" (.doc spec) docs = sortDocs spec docs := rfl

@[simp] theorem runStage_limit (n : Value) :
    runStage sv db "$limit" n docs = (countOf n).bind fun n => if n = 0 then none else some (docs.take n) := by
  simp [runStage]

@[simp] theorem runStage_skip (n : Value) : runStage sv db "$skip" n docs = (countOf n).map fun n => docs.drop n := by
  simp [runStage]

@[simp] theorem runStage_group (spec : Doc) : runStage sv db "$group" (.doc spec) docs = groupDocs sv spec docs := rfl

end

/-- The stages one after the other. -/
def runPipeline (sv : Server) (db : Collections) : List Value → List Doc → Option (List Doc)
  | [], docs => some docs
  | .doc [(op, v)] :: stages, docs => (runStage sv db op v docs).bind (runPipeline sv db stages)
  | _ :: _, _ => none

@[simp] theorem runPipeline_stage (sv : Server) (db : Collections) (op : String) (v : Value) (stages : List Value)
    (docs : List Doc) :
    runPipeline sv db (.doc [(op, v)] :: stages) docs = (runStage sv db op v docs).bind (runPipeline sv db stages) := rfl

theorem runPipeline_append (sv : Server) (db : Collections) (xs ys : List Value) (docs : List Doc) :
    runPipeline sv db (xs ++ ys) docs = (runPipeline sv db xs docs).bind (runPipeline sv db ys) := by
  induction xs generalizing docs with
  | nil => rfl
  | cons x xs ih =>
    cases x with
    | doc fs =>
      match fs with
      | [(op, v)] =>
        show (runStage sv db op v docs).bind (runPipeline sv db (xs ++ ys)) = _
        rw [show runPipeline sv db (.doc [(op, v)] :: xs) docs =
          (runStage sv db op v docs).bind (runPipeline sv db xs) from rfl, Option.bind_assoc]
        congr 1
        funext out
        exact ih out
      | [] => rfl
      | _ :: _ :: _ => rfl
    | _ => rfl

/-! ## Finds -/

/-- The integer of an option. -/
def intOf : Value → Option ℤ
  | .num q => if q.den = 1 then some q.num else none
  | _ => none

/-- `limit`: zero is no limit, a negative one counts the same. -/
def limitDocs (n : ℤ) (docs : List Doc) : List Doc := if n = 0 then docs else docs.take n.natAbs

def sortOption : Option Value → List Doc → Option (List Doc)
  | none, docs => some docs
  | some (.doc []), docs => some docs
  | some (.doc spec), docs => sortDocs spec docs
  | _, _ => none

def skipOption : Option Value → List Doc → Option (List Doc)
  | none, docs => some docs
  | some v, docs => (countOf v).map fun n => docs.drop n

def limitOption : Option Value → List Doc → Option (List Doc)
  | none, docs => some docs
  | some v, docs => (intOf v).map fun n => limitDocs n docs

def projectOption (sv : Server) : Option Value → List Doc → Option (List Doc)
  | none, docs => some docs
  | some (.doc []), docs => some docs
  | some (.doc spec), docs => mapDocs (projectDoc sv spec) docs
  | _, _ => none

/-- A find with the options of the document. -/
def runFind (sv : Server) (options : Doc) (docs : List Doc) : Option (List Doc) :=
  (filterDocs (satisfies sv ((options.lookup "filter").getD (.doc []))) docs).bind fun docs =>
    (sortOption (options.lookup "sort") docs).bind fun docs =>
      (skipOption (options.lookup "skip") docs).bind fun docs =>
        (limitOption (options.lookup "limit") docs).bind (projectOption sv (options.lookup "projection"))

end Mongo
