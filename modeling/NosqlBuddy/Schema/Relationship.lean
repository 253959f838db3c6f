import Mathlib.Data.Prod.Lex
import NosqlBuddy.Lib.Binary64
import NosqlBuddy.Lib.Newest
import NosqlBuddy.Schema.Shape

/-!
# Relationships between collections

`mongo/relationship.rs`.

| here | there |
| --- | --- |
| `Candidate` | :264: what is known of one field |

Doubles are bits. The random ids of the edges, the suffix of a name (`naming_suffix`), which no edge is built from, and the target
shape that `infer_cardinality` does not read are left out. `upper` is `char::to_uppercase`.
-/

namespace Schema
open Entries Binary64 LastMax

/-! ## Data -/

structure RelationshipConfig where
  confidenceThreshold : UInt64
  enableObjectIdMatch : Bool
  enableNaming : Bool
  enableLookup : Bool
  enableIndex : Bool
  enableAppSchema : Bool
  objectIdMatchThreshold : UInt64

inductive RelationshipKind where
  | oneToOne | oneToMany | manyToOne | manyToMany
deriving DecidableEq, Repr

inductive SignalKind where
  | objectIdMatch | namingConvention | lookup | index | appSchema
deriving DecidableEq, Repr

structure RelationshipSignal where
  kind : SignalKind
  detail : String
  weight : UInt64
deriving DecidableEq

structure RelationshipEdge where
  fromCollection : String
  toCollection : String
  fromField : String
  toField : String
  kind : RelationshipKind
  confidence : UInt64
  signals : List RelationshipSignal
  viaCollection : Option String
  confirmed : Bool
  hidden : Bool
deriving DecidableEq

structure LookupSignal where
  fromCollection : String
  toCollection : String
  localField : String
  foreignField : String
  count : Nat

structure AppSchemaSignal where
  fromCollection : String
  toCollection : String
  fromField : String
  toField : String
  isArray : Bool
  source : String

structure ObjectIdMatchSignal where
  fromCollection : String
  fromField : String
  toCollection : String
  toField : String
  matchRatio : UInt64
  sampled : Nat
  matched : Nat

structure ObjectIdMatchDetail where
  toCollection : String
  toField : String
  matchRatio : UInt64
  sampled : Nat
  matched : Nat

structure AppSchemaTarget where
  toCollection : String
  toField : String
  isArray : Bool
  source : String

structure Candidate where
  fromCollection : String
  fromField : String
  isArray : Bool := false
  isObjectId : Bool := false
  namingTarget : Option String := none
  /-- In the order in which they were inserted. -/
  lookupTargets : List (String × String) := []
  objectIdMatches : List ObjectIdMatchDetail := []
  appSchemaTarget : Option AppSchemaTarget := none
  indexed : Bool := false
  indexUnique : Bool := false

def Candidate.new (fromCollection fromField : String) : Candidate := { fromCollection := fromCollection, fromField := fromField }

/-- A collection and a field of it, in the order of the tuples. -/
abbrev Key := String ×ₗ String

abbrev CandidateMap := List (Key × Candidate)

/-- The iteration orders of the sets of one run. -/
structure HashOrder where
  iter : Key → List (String × String) → List (String × String)
  perm : ∀ k targets, (iter k targets).Perm targets

/-! ## Names -/

def refSuffixes : List (List Char) :=
  ["_ids", "ids", "_id", "id", "_refs", "refs", "_ref", "ref"].map String.toList

def endsWith (s : List Char) (suffix : String) : Bool := suffix.toList.isSuffixOf s

/-- `strip_ref_suffix`. No letter but those of ASCII has a lower case that ends in a letter of a suffix. -/
def stripRefSuffix (name : List Char) : List Char :=
  match refSuffixes.find? fun suffix => suffix.isSuffixOf (name.map Char.toLower) with
  | some suffix => name.take (name.length - suffix.length)
  | none => name

def dropEnd (s : List Char) (n : Nat) : List Char := s.take (s.length - n)

def pluralize (s : List Char) : List Char :=
  if endsWith s "s" then s
  else if endsWith s "y" && !endsWith s "ay" && !endsWith s "ey" && !endsWith s "oy" && !endsWith s "uy" then
    dropEnd s 1 ++ "ies".toList
  else if endsWith s "ss" || endsWith s "sh" || endsWith s "ch" || endsWith s "x" || endsWith s "z" then s ++ "es".toList
  else if endsWith s "f" && 1 < s.length then dropEnd s 1 ++ "ves".toList
  else if endsWith s "fe" && 2 < s.length then dropEnd s 2 ++ "ves".toList
  else s ++ "s".toList

def singularize (s : List Char) : List Char :=
  if endsWith s "ies" && 3 < s.length then dropEnd s 3 ++ "y".toList
  else if endsWith s "ves" && 3 < s.length then dropEnd s 3 ++ "f".toList
  else
    let stem := dropEnd s 2
    if endsWith s "es" && 2 < s.length &&
        (endsWith stem "ss" || endsWith stem "sh" || endsWith stem "ch" || endsWith stem "x" || endsWith stem "z") then stem
    else if endsWith s "s" && !endsWith s "ss" && 1 < s.length then dropEnd s 1
    else s

def capitalize (upper : Char → List Char) : List Char → List Char
  | [] => []
  | c :: cs => upper c ++ cs

/-- `naming_match`, of the names of all collections. -/
def namingMatch (upper : Char → List Char) (fieldName : String) (collections : List String) : Option String :=
  let stripped := stripRefSuffix fieldName.toList
  if stripped = [] then none
  else
    let known := fun s : List Char => decide (String.ofList s ∈ collections)
    let plural := pluralize stripped
    let singular := singularize stripped
    let alternatives := [(stripped, true), (plural, true), (singular, singular ≠ stripped), (capitalize upper plural, true),
      (capitalize upper singular, true)]
    (alternatives.find? fun a => a.2 && known a.1).map fun a => String.ofList a.1

/-! ## Candidates -/

/-- The dominant type is `objectId`. -/
def dominantObjectId (types : List (String × ℚ)) : Bool :=
  (maxBy (fun a b : String × ℚ => decide (b.2 < a.2)) types).any fun t => t.1 = "objectId"

mutual

/-- `examine_field`: the fields that are entered as candidates, each with its `is_array`, in order. -/
def examineField : ShapeNode → List (String × Bool)
  | ⟨path, _, types, _, _, _, children, arrayItem, _⟩ =>
    let isArrayOfObjectIds := decide ("array" ∈ types.map Prod.fst) && arrayItem.any fun item => dominantObjectId item.types
    (if dominantObjectId types || isArrayOfObjectIds then [(path, isArrayOfObjectIds)] else []) ++
      examineChildren children ++ examineItem arrayItem

def examineChildren : List ShapeNode → List (String × Bool)
  | [] => []
  | c :: cs => examineField c ++ examineChildren cs

def examineItem : Option ShapeNode → List (String × Bool)
  | none => []
  | some item => examineField item

end

/-- `out.entry(key).or_insert_with(|| Candidate::new(..))`, changed by `f`. -/
def enterCandidate (collection field : String) (f : Candidate → Candidate) : CandidateMap → CandidateMap :=
  alter (toLex (collection, field)) (.new collection field) f

/-- `collect_object_id_fields`. -/
def collectObjectIdFields (shape : CollectionShape) (out : CandidateMap) : CandidateMap :=
  (examineChildren shape.root.children).foldl
    (fun out field => enterCandidate shape.collection field.1 (fun c => { c with isObjectId := true, isArray := field.2 }) out) out

/-- The naming convention. -/
def nameCandidate (upper : Char → List Char) (names : List String) (x : Key × Candidate) : Key × Candidate :=
  match namingMatch upper (ofLex x.1).2 names with
  | some target => if target ≠ (ofLex x.1).1 then (x.1, { x.2 with namingTarget := some target }) else x
  | none => x

/-- `HashSet::insert`. -/
def insertTarget (target : String × String) (targets : List (String × String)) : List (String × String) :=
  if target ∈ targets then targets else targets ++ [target]

def addLookup (out : CandidateMap) (sig : LookupSignal) : CandidateMap :=
  enterCandidate sig.fromCollection sig.localField
    (fun c => { c with lookupTargets := insertTarget (sig.toCollection, sig.foreignField) c.lookupTargets }) out

def addAppSchema (out : CandidateMap) (sig : AppSchemaSignal) : CandidateMap :=
  enterCandidate sig.fromCollection sig.fromField
    (fun c => { c with appSchemaTarget := some ⟨sig.toCollection, sig.toField, sig.isArray, sig.source⟩ }) out

/-- The field of an index with a single key. -/
def singleKey (idx : IndexInfo) : Option String :=
  match idx.key with
  | .object [(field, _)] => some field
  | _ => none

/-- An index marks a candidate that is there. -/
def addIndex (collection : String) (out : CandidateMap) (idx : IndexInfo) : CandidateMap :=
  match singleKey idx with
  | some field =>
    if (get (toLex (collection, field)) out).isSome then
      enterCandidate collection field (fun c => { c with indexed := true, indexUnique := idx.unique }) out
    else out
  | none => out

def addMatch (config : RelationshipConfig) (out : CandidateMap) (sig : ObjectIdMatchSignal) : CandidateMap :=
  if fLe config.objectIdMatchThreshold sig.matchRatio then
    enterCandidate sig.fromCollection sig.fromField
      (fun c => { c with objectIdMatches := c.objectIdMatches ++ [⟨sig.toCollection, sig.toField, sig.matchRatio, sig.sampled, sig.matched⟩] })
      out
  else out

/-- What `detect_relationships` is given: no two shapes are of the same collection. -/
structure Inputs where
  shapes : List CollectionShape
  objectIdSignals : List ObjectIdMatchSignal
  lookupSignals : List LookupSignal
  appSchemaSignals : List AppSchemaSignal
  config : RelationshipConfig
  distinct : (shapes.map (·.collection)).Nodup

def Inputs.names (i : Inputs) : List String := i.shapes.map (·.collection)

def Inputs.fields (i : Inputs) : CandidateMap := i.shapes.foldl (fun out shape => collectObjectIdFields shape out) []

def Inputs.named (upper : Char → List Char) (i : Inputs) : CandidateMap :=
  if i.config.enableNaming then i.fields.map (nameCandidate upper i.names) else i.fields

def Inputs.withLookups (upper : Char → List Char) (i : Inputs) : CandidateMap :=
  if i.config.enableLookup then i.lookupSignals.foldl addLookup (i.named upper) else i.named upper

def Inputs.withAppSchemas (upper : Char → List Char) (i : Inputs) : CandidateMap :=
  if i.config.enableAppSchema then i.appSchemaSignals.foldl addAppSchema (i.withLookups upper) else i.withLookups upper

def Inputs.withIndexes (upper : Char → List Char) (i : Inputs) : CandidateMap :=
  if i.config.enableIndex then
    i.shapes.foldl (fun out shape => shape.indexes.foldl (addIndex shape.collection) out) (i.withAppSchemas upper)
  else i.withAppSchemas upper

def Inputs.candidates (upper : Char → List Char) (i : Inputs) : CandidateMap :=
  if i.config.enableObjectIdMatch then i.objectIdSignals.foldl (addMatch i.config) (i.withIndexes upper) else i.withIndexes upper

/-! ## Edges -/

/-- The bits of 0.7, 0.6, 0.4, 0.25, 0.1: the weights of the signals. -/
def appWeight : UInt64 := 0x3FE6666666666666
def matchWeight : UInt64 := 0x3FE3333333333333
def lookupWeight : UInt64 := 0x3FD999999999999A
def namingWeight : UInt64 := 0x3FD0000000000000
def indexWeight : UInt64 := 0x3FB999999999999A

def appSignal (app : AppSchemaTarget) : RelationshipSignal :=
  ⟨.appSchema, (if app.isArray then "Array" else "Single") ++ " ref: " ++ app.source, appWeight⟩

def matchSignal (fromField : String) (m : ObjectIdMatchDetail) : RelationshipSignal :=
  ⟨.objectIdMatch, display0 (fMul m.matchRatio 0x4059000000000000) ++ "% of sampled " ++ fromField ++ " values exist in " ++
    m.toCollection ++ "." ++ m.toField ++ " (" ++ toString m.matched ++ " / " ++ toString m.sampled ++ ")", matchWeight⟩

def lookupSignal (fromCollection fromField : String) (target : String × String) : RelationshipSignal :=
  ⟨.lookup, "$lookup from " ++ fromCollection ++ "." ++ fromField ++ " to " ++ target.1 ++ "." ++ target.2, lookupWeight⟩

def namingSignal (fromField target : String) : RelationshipSignal :=
  ⟨.namingConvention, fromField ++ " looks like a reference to '" ++ target ++ "'", namingWeight⟩

def indexSignal (fromField : String) (unique : Bool) : RelationshipSignal :=
  ⟨.index, fromField ++ " has a" ++ (if unique then " unique" else "n") ++ " index", indexWeight⟩

/-- The match with the highest ratio. -/
def bestMatch (ms : List ObjectIdMatchDetail) : Option ObjectIdMatchDetail := maxBy (fun a b => fLt b.matchRatio a.matchRatio) ms

/-- A match of more than nine tenths decides against the application schema. -/
def decisive (m : ObjectIdMatchDetail) : Bool := fLt 0x3FECCCCCCCCCCCCD m.matchRatio

def signalsOf (cand : Candidate) (best : Option ObjectIdMatchDetail) (lookups : List (String × String)) : List RelationshipSignal :=
  (cand.appSchemaTarget.map appSignal).toList ++ (best.map (matchSignal cand.fromField)).toList ++
    lookups.map (lookupSignal cand.fromCollection cand.fromField) ++ (cand.namingTarget.map (namingSignal cand.fromField)).toList ++
    if cand.indexed then [indexSignal cand.fromField cand.indexUnique] else []

/-- The target and its field: from the application schema, the best match, the first lookup, or the name. -/
def targetOf (app : Option AppSchemaTarget) (best : Option ObjectIdMatchDetail) (lookup : Option (String × String))
    (naming : Option String) : Option (String × String) :=
  let fromApp := app.map fun a => (a.toCollection, a.toField)
  let fromMatch := match best with
    | some m => if fromApp.isNone || decisive m then some (m.toCollection, m.toField) else fromApp
    | none => fromApp
  fromMatch <|> lookup <|> naming.map fun target => (target, "_id")

/-- `clamp` -/
def clamp (v lo hi : UInt64) : UInt64 := fMin (fMax v lo) hi

/-- Five hundredths for a unique index, and off for an array that is indexed; strong evidence counts nine tenths at least. -/
def confidenceOf (weights : List UInt64) (indexed unique isArray strong : Bool) : UInt64 :=
  let sum := fAdd (fAdd (weights.foldl fAdd 0) (if unique then 0x3FA999999999999A else 0))
    (if indexed && isArray then 0xBFA999999999999A else 0)
  let confidence := clamp sum 0 0x3FF0000000000000
  if strong then fMax confidence 0x3FECCCCCCCCCCCCD else confidence

/-- An application schema, or a match of four fifths. -/
def Candidate.strong (cand : Candidate) : Bool :=
  (cand.objectIdMatches.any fun m => fLe 0x3FE999999999999A m.matchRatio) || cand.appSchemaTarget.isSome

/-- `infer_cardinality` -/
def inferCardinality (cand : Candidate) (isArray : Bool) : RelationshipKind :=
  if isArray then .oneToMany else if cand.indexUnique && cand.isObjectId then .oneToOne else .manyToOne

abbrev Seen := List (String × String × String × String)

/-- `build_edge` -/
def buildEdge (hash : HashOrder) (config : RelationshipConfig) (cand : Candidate) (seen : Seen) : Option RelationshipEdge × Seen :=
  let best := bestMatch cand.objectIdMatches
  let lookups := hash.iter (toLex (cand.fromCollection, cand.fromField)) cand.lookupTargets
  let signals := signalsOf cand best lookups
  if signals = [] then (none, seen)
  else match targetOf cand.appSchemaTarget best lookups.head? cand.namingTarget with
  | none => (none, seen)
  | some (target, toField) =>
    let key := (cand.fromCollection, cand.fromField, target, toField)
    if key ∈ seen then (none, seen)
    else
      let isArray := cand.appSchemaTarget.any (·.isArray) || cand.isArray
      let confidence := confidenceOf (signals.map (·.weight)) cand.indexed cand.indexUnique isArray cand.strong
      if fLt confidence config.confidenceThreshold then (none, key :: seen)
      else (some ⟨cand.fromCollection, target, cand.fromField, toField, inferCardinality cand isArray, confidence, signals, none, false,
        false⟩, key :: seen)

def buildEdges (hash : HashOrder) (config : RelationshipConfig) : CandidateMap → Seen → List RelationshipEdge
  | [], _ => []
  | x :: xs, seen => (buildEdge hash config x.2 seen).1.toList ++ buildEdges hash config xs (buildEdge hash config x.2 seen).2

/-- `pairs` -/
def pairs {α : Type} : List α → List (α × α)
  | [] => []
  | x :: xs => xs.map (fun y => (x, y)) ++ pairs xs

/-- The edge that a join collection stands for. -/
def joinEdge (via : String) (pair : RelationshipEdge × RelationshipEdge) : RelationshipEdge where
  fromCollection := pair.1.toCollection
  toCollection := pair.2.toCollection
  fromField := pair.1.fromField
  toField := pair.2.fromField
  kind := .manyToMany
  confidence := 0x3FE3333333333333
  signals := [⟨.namingConvention, "Join collection " ++ via ++ " links " ++ pair.1.toCollection ++ " and " ++ pair.2.toCollection,
    0x3FD6666666666666⟩, ⟨.index, "Multiple outgoing references in one collection", 0x3FD0000000000000⟩]
  viaCollection := some via
  confirmed := false
  hidden := false

/-- `detect_many_to_many`, of one collection. -/
def joinsOf (edges : List RelationshipEdge) (collection : String) : List RelationshipEdge :=
  let refs := edges.filter fun e => e.fromCollection = collection
  let targets := refs.filter fun e => e.kind = .manyToOne
  if collection = "_" ∨ refs.length < 2 ∨ targets.length < 2 then [] else (pairs targets).map (joinEdge collection)

def detectManyToMany (edges : List RelationshipEdge) (shapes : List CollectionShape) : List RelationshipEdge :=
  shapes.flatMap fun shape => joinsOf edges shape.collection

/-- `detect_relationships` -/
def detectRelationships (upper : Char → List Char) (hash : HashOrder) (i : Inputs) : List RelationshipEdge :=
  let edges := buildEdges hash i.config (i.candidates upper) []
  (edges ++ detectManyToMany edges i.shapes).insertionSort fun a b => fLt a.confidence b.confidence = false

end Schema
