import Mathlib.Algebra.Order.Field.Rat
import Mathlib.Data.String.Basic
import NosqlBuddy.Lib.Entries
import NosqlBuddy.Lib.Json
import NosqlBuddy.Oplog.Bson

/-!
# The shape of a collection

`mongo/shape.rs`.

| here | there |
| --- | --- |
| `PathAccumulator` | shape.rs:73: the counts of one path |

Counts are `Nat` and ratios their exact quotients. The histograms and the statistics of numbers and dates, which no ratio
is read from, are left out.
-/

namespace Schema
open Oplog Entries

/-- `MAX_SHAPE_DEPTH`. -/
abbrev maxShapeDepth : Nat := 6

/-- `ARRAY_ELEMENT_SAMPLE_PER_DOC`. -/
abbrev arrayElementSamplePerDoc : Nat := 100

structure SchemaValueCount where
  value : String
  count : Nat
deriving DecidableEq

structure ShapeNode where
  path : String
  name : String
  types : List (String × ℚ)
  presence : ℚ
  nullRatio : ℚ
  cardinality : Option Nat
  children : List ShapeNode
  arrayItem : Option ShapeNode
  topValues : Option (List SchemaValueCount)

structure PathAccumulator where
  typeCounts : List (String × Nat) := []
  presentCount : Nat := 0
  nullCount : Nat := 0
  valueCounts : List (String × Nat) := []
  children : List (String × PathAccumulator) := []
  arrayElement : Option PathAccumulator := none

/-! ## Walking the documents -/

def bsonTypeName : Bson → String
  | .double _ => "double"
  | .string _ => "string"
  | .array _ => "array"
  | .document _ => "object"
  | .boolean _ => "bool"
  | .null => "null"
  | .int32 _ => "int"
  | .int64 _ => "long"
  | .objectId _ => "objectId"
  | .dateTime _ => "date"
  | .decimal128 _ => "decimal"
  | .binary _ _ => "binary"
  | .timestamp _ _ => "timestamp"
  | .regularExpression _ _ => "regex"
  | .javaScriptCode _ => "javascript"
  | .javaScriptCodeWithScope _ _ => "javascriptWithScope"
  | .minKey => "minKey"
  | .maxKey => "maxKey"
  | .undefined => "undefined"
  | .dbPointer _ _ => "dbPointer"
  | .symbol _ => "symbol"

/-- `top_value_label`: strings are cut to 48 characters. -/
def topValueLabel : Bson → Option String
  | .string s => some (if s.toList.length > 48 then String.ofList (s.toList.take 48) ++ "…" else s)
  | .boolean b => some (if b then "true" else "false")
  | _ => none

/-- The counts of the value itself. -/
def PathAccumulator.observe (acc : PathAccumulator) (value : Bson) : PathAccumulator :=
  { acc with
    typeCounts := count (bsonTypeName value) acc.typeCounts
    presentCount := acc.presentCount + 1
    nullCount := match value with
      | .null => acc.nullCount + 1
      | _ => acc.nullCount
    valueCounts := match topValueLabel value with
      | some label => count label acc.valueCounts
      | none => acc.valueCounts }

/-- `children.entry(name).or_default()`, changed by `f`. -/
def PathAccumulator.entry (acc : PathAccumulator) (name : String) (f : PathAccumulator → PathAccumulator) : PathAccumulator :=
  { acc with children := alter name {} f acc.children }

mutual

/-- `accumulate_value`: the accumulator is that of the value's own place. -/
def accumulateValue (depth : Nat) : Bson → PathAccumulator → PathAccumulator
  | .document fields, acc => walkFields depth fields (acc.observe (.document fields))
  | .array elems, acc =>
    { acc.observe (.array elems) with
      arrayElement := some (walkElems (depth + 1) arrayElementSamplePerDoc elems (acc.arrayElement.getD {})) }
  | value, acc => acc.observe value

/-- The fields of an object, unless they lie below the depth cap. -/
def walkFields (depth : Nat) : List (String × Bson) → PathAccumulator → PathAccumulator
  | [], acc => acc
  | (key, value) :: rest, acc =>
    walkFields depth rest (if depth < maxShapeDepth then acc.entry key (accumulateValue (depth + 1) value) else acc)

/-- The first elements of an array, whatever the depth. -/
def walkElems (depth : Nat) : Nat → List Bson → PathAccumulator → PathAccumulator
  | 0, _, acc => acc
  | _, [], acc => acc
  | n + 1, elem :: rest, acc => walkElems depth n rest (accumulateValue depth elem acc)

end

/-- `walk_value`. -/
def walkValue (value : Bson) (name : String) (parent : PathAccumulator) (depth : Nat) : PathAccumulator :=
  parent.entry name (accumulateValue depth value)

/-- `walk_document`. -/
def walkDocument (doc : Document) (root : PathAccumulator) : PathAccumulator :=
  doc.foldl (fun root field => walkValue field.2 field.1 root 1)
    { root with presentCount := root.presentCount + 1, typeCounts := count "object" root.typeCounts }

/-! ## Building the nodes -/

/-- `placeholder_node`. -/
def placeholderNode (path name : String) : ShapeNode where
  path := path
  name := name
  types := [("unknown", 1)]
  presence := 1
  nullRatio := 0
  cardinality := none
  children := []
  arrayItem := none
  topValues := none

/-- `format!("{path}.{name}")` below the root. -/
def childPath (path name : String) : String := if path = "" then name else path ++ "." ++ name

/-- The most frequent labels, if there are at most 30 of them. -/
def topValuesOf (valueCounts : List (String × Nat)) : Option (List SchemaValueCount) :=
  if valueCounts.length ≤ 30 then
    match (valueCounts.insertionSort fun a b => b.2 < a.2 ∨ b.2 = a.2 ∧ a.1 ≤ b.1).take 10 with
    | [] => none
    | limited => some (limited.map fun e => ⟨e.1, e.2⟩)
  else none

/-- `count / denominator`, and 0 where the source guards the division. -/
def ratio (count denominator : Nat) : ℚ := if denominator > 0 then count / denominator else 0

mutual

/-- `build_shape_node`: fields are counted against the documents, array elements against the elements. -/
def buildShapeNode (path name : String) (denominator totalDocs depth : Nat) : PathAccumulator → ShapeNode
  | ⟨typeCounts, presentCount, nullCount, valueCounts, children, arrayElement⟩ =>
    { path := path
      name := name
      types := typeCounts.map fun e => (e.1, (e.2 : ℚ) / denominator)
      presence := ratio presentCount denominator
      nullRatio := ratio nullCount denominator
      cardinality := if valueCounts.length > 1 then some valueCounts.length else none
      children := ((buildChildren path totalDocs depth children).insertionSort fun a b => a.name ≤ b.name) ++
        if depth = maxShapeDepth ∧ ("object" ∈ typeCounts.map Prod.fst ∨ "array" ∈ typeCounts.map Prod.fst) then
          [placeholderNode (path ++ ".…") "…"]
        else []
      arrayItem := buildItem (path ++ "[]") (name ++ "[]") totalDocs (depth + 1) arrayElement
      topValues := topValuesOf valueCounts }

def buildChildren (path : String) (totalDocs depth : Nat) : List (String × PathAccumulator) → List ShapeNode
  | [] => []
  | (name, child) :: rest =>
    (if depth + 1 < maxShapeDepth then buildShapeNode (childPath path name) name totalDocs totalDocs (depth + 1) child
      else placeholderNode (childPath path name) name) :: buildChildren path totalDocs depth rest

def buildItem (path name : String) (totalDocs depth : Nat) : Option PathAccumulator → Option ShapeNode
  | none => none
  | some elem => some (buildShapeNode path name elem.presentCount totalDocs depth elem)

end

mutual

/-- `max_depth`: the nodes of the deepest branch below this one, not counting placeholders of omitted structure. -/
def maxDepth : ShapeNode → Nat
  | ⟨_, _, _, _, _, _, children, arrayItem, _⟩ => max (maxDepthChildren children) (maxDepthItem arrayItem)

def maxDepthChildren : List ShapeNode → Nat
  | [] => 0
  | c :: cs => if c.name = "…" then maxDepthChildren cs else max (1 + maxDepth c) (maxDepthChildren cs)

def maxDepthItem : Option ShapeNode → Nat
  | none => 0
  | some item => 1 + maxDepth item

end

/-! ## The collection -/

/-- `{q:.0}` of a number that is not negative: the nearest integer, of two equally near ones the even one. -/
def rounded (q : ℚ) : Nat :=
  let below := q.floor.toNat
  if q - below < 1 / 2 then below else if q - below = 1 / 2 ∧ below % 2 = 0 then below else below + 1

/-- The warning about a path that is an object and an array, each in more than a tenth of the cases. -/
def polymorphism (path : String) (types : List (String × ℚ)) : List String :=
  let object := (get "object" types).getD 0
  let array := (get "array" types).getD 0
  if object > 1 / 10 ∧ array > 1 / 10 then
    [path ++ " is polymorphic: object " ++ toString (rounded object) ++ "% and array " ++ toString (rounded array) ++ "%"]
  else []

mutual

/-- The warnings of `build_shape_node`: of the children, of the element, then of the node. -/
def warningsOf : ShapeNode → List String
  | ⟨path, _, types, _, _, _, children, arrayItem, _⟩ =>
    warningsOfChildren children ++ warningsOfItem arrayItem ++ polymorphism path types

def warningsOfChildren : List ShapeNode → List String
  | [] => []
  | c :: cs => warningsOf c ++ warningsOfChildren cs

def warningsOfItem : Option ShapeNode → List String
  | none => []
  | some item => warningsOf item

end

inductive CollectionKind where
  | collection
  | view
  | timeSeries
  | sharded
  | bucketed
deriving DecidableEq

/-- `IndexInfo` (types.rs:351), as far as relationships read it. -/
structure IndexInfo where
  name : String
  key : Json
  unique : Bool

structure CollectionShape where
  database : String
  collection : String
  kind : CollectionKind
  documentCount : Option Nat
  sampledDocuments : Nat
  root : ShapeNode
  maxDepth : Nat
  warnings : List String
  indexes : List IndexInfo

/-- The accumulator of the documents. -/
def walkAll (docs : List Document) : PathAccumulator := docs.foldl (fun root doc => walkDocument doc root) {}

/-- The node of the documents themselves. -/
def rootNode (docs : List Document) : ShapeNode := buildShapeNode "" "" docs.length docs.length 0 (walkAll docs)

/-- `compute_collection_shape`. -/
def computeCollectionShape (database collection : String) (kind : CollectionKind) (documentCount : Option Nat)
    (docs : List Document) (indexes : List IndexInfo) : CollectionShape where
  database := database
  collection := collection
  kind := kind
  documentCount := documentCount
  sampledDocuments := docs.length
  root := rootNode docs
  maxDepth := maxDepth (rootNode docs)
  warnings := warningsOf (rootNode docs)
  indexes := indexes

end Schema

/-!
## What an accumulator counts

The accumulator of a place has counted the values that stand there, in the order in which they were met: `tally depth vs` is the
accumulator of the values `vs`, and one level of it is `tally_get` for the fields and `tally_arrayElement` for the elements.
`Counted` is the invariant of the counts at one place: their sum is the number of values, and that of type null is counted
twice, once as a type and once as the null count.
-/

namespace Schema
open Oplog Entries

/-! ### The counts of one place -/

/-- The counts of an accumulator fit each other. -/
structure Counted (acc : PathAccumulator) : Prop where
  ordered : Ordered acc.typeCounts
  sum : (acc.typeCounts.map Prod.snd).sum = acc.presentCount
  null : acc.nullCount = (get "null" acc.typeCounts).getD 0

theorem counted_default : Counted {} := ⟨List.Pairwise.nil, rfl, rfl⟩

theorem observe_nullCount (acc : PathAccumulator) (v : Bson) :
    (acc.observe v).nullCount = acc.nullCount + if "null" = bsonTypeName v then 1 else 0 := by
  cases v <;> rfl

theorem Counted.observe (h : Counted acc) (v : Bson) : Counted (acc.observe v) where
  ordered := h.ordered.alter
  sum := by
    show ((count (bsonTypeName v) acc.typeCounts).map Prod.snd).sum = acc.presentCount + 1
    rw [sum_count, h.sum]
  null := by
    rw [observe_nullCount, h.null]
    exact (get_count h.ordered _ _).symm

theorem Counted.congr (h : Counted acc) (ht : acc'.typeCounts = acc.typeCounts)
    (hp : acc'.presentCount = acc.presentCount) (hn : acc'.nullCount = acc.nullCount) : Counted acc' where
  ordered := ht ▸ h.ordered
  sum := by rw [ht, hp, h.sum]
  null := by rw [ht, hn, h.null]

/-! ### One value -/

section
variable (depth : Nat)

theorem walkFields_counts : ∀ (fields : List (String × Bson)) (acc : PathAccumulator),
    (walkFields depth fields acc).typeCounts = acc.typeCounts ∧ (walkFields depth fields acc).presentCount = acc.presentCount ∧
      (walkFields depth fields acc).nullCount = acc.nullCount ∧
      (walkFields depth fields acc).arrayElement = acc.arrayElement
  | [], _ => ⟨rfl, rfl, rfl, rfl⟩
  | (key, value) :: rest, acc => by
    rw [walkFields]
    obtain ⟨ht, hp, hn, ha⟩ := walkFields_counts rest
      (if depth < maxShapeDepth then acc.entry key (accumulateValue (depth + 1) value) else acc)
    rw [ht, hp, hn, ha]
    split <;> exact ⟨rfl, rfl, rfl, rfl⟩

theorem accumulateValue_document (fields : List (String × Bson)) (acc : PathAccumulator) :
    accumulateValue depth (.document fields) acc = walkFields depth fields (acc.observe (.document fields)) := rfl

theorem accumulateValue_array (elems : List Bson) (acc : PathAccumulator) :
    accumulateValue depth (.array elems) acc =
      { acc.observe (.array elems) with
        arrayElement := some (walkElems (depth + 1) arrayElementSamplePerDoc elems (acc.arrayElement.getD {})) } := rfl

theorem accumulateValue_counts (v : Bson) (acc : PathAccumulator) :
    (accumulateValue depth v acc).typeCounts = (acc.observe v).typeCounts ∧
      (accumulateValue depth v acc).presentCount = acc.presentCount + 1 ∧
      (accumulateValue depth v acc).nullCount = (acc.observe v).nullCount := by
  cases v
  case document fields =>
    rw [accumulateValue_document]
    obtain ⟨ht, hp, hn, -⟩ := walkFields_counts depth fields (acc.observe (.document fields))
    exact ⟨ht, hp, hn⟩
  all_goals exact ⟨rfl, rfl, rfl⟩

theorem Counted.accumulateValue (h : Counted acc) (v : Bson) : Counted (accumulateValue depth v acc) := by
  obtain ⟨ht, hp, hn⟩ := accumulateValue_counts depth v acc
  exact (h.observe v).congr ht hp hn

end

/-! ### The values of one place -/

/-- The accumulator after some values. -/
def tallyFrom (depth : Nat) (acc : PathAccumulator) (vs : List Bson) : PathAccumulator :=
  vs.foldl (fun acc v => accumulateValue depth v acc) acc

/-- The accumulator of some values. -/
def tally (depth : Nat) (vs : List Bson) : PathAccumulator := tallyFrom depth {} vs

@[simp] theorem tallyFrom_nil (depth : Nat) (acc : PathAccumulator) : tallyFrom depth acc [] = acc := rfl

@[simp] theorem tallyFrom_cons (depth : Nat) (acc : PathAccumulator) (v : Bson) (vs : List Bson) :
    tallyFrom depth acc (v :: vs) = tallyFrom depth (accumulateValue depth v acc) vs := rfl

theorem tallyFrom_append (depth : Nat) (acc : PathAccumulator) (vs ws : List Bson) :
    tallyFrom depth acc (vs ++ ws) = tallyFrom depth (tallyFrom depth acc vs) ws := List.foldl_append

theorem tally_concat (depth : Nat) (vs : List Bson) (v : Bson) :
    tally depth (vs ++ [v]) = accumulateValue depth v (tally depth vs) := tallyFrom_append depth {} vs [v]

theorem counted_tally (depth : Nat) (vs : List Bson) : Counted (tally depth vs) := by
  induction vs using List.reverseRecOn with
  | nil => exact counted_default
  | append_singleton vs v ih =>
    rw [tally_concat]
    exact ih.accumulateValue depth v

theorem tally_presentCount (depth : Nat) (vs : List Bson) : (tally depth vs).presentCount = vs.length := by
  induction vs using List.reverseRecOn with
  | nil => rfl
  | append_singleton vs v ih =>
    rw [tally_concat, (accumulateValue_counts depth v _).2.1, ih, List.length_append, List.length_singleton]

theorem tally_type_iff (depth : Nat) (vs : List Bson) (t : String) :
    t ∈ (tally depth vs).typeCounts.map Prod.fst ↔ ∃ v ∈ vs, bsonTypeName v = t := by
  induction vs using List.reverseRecOn with
  | nil => simp [tally]
  | append_singleton vs v ih =>
    rw [tally_concat, (accumulateValue_counts depth v _).1]
    show t ∈ (count (bsonTypeName v) (tally depth vs).typeCounts).map Prod.fst ↔ _
    rw [mem_keys_alter, ih]
    simp only [List.mem_append, List.mem_singleton, or_and_right, exists_or, exists_eq_left]
    rw [or_comm, eq_comm]

/-! ### The fields of the values -/

/-- One step into a value: a field of an object, or the elements of an array that are looked at. -/
inductive PathStep where
  | field (name : String)
  | element
deriving DecidableEq

def PathStep.into : PathStep → Bson → List Bson
  | .field name, .document fields => (fields.filter (·.1 = name)).map Prod.snd
  | .element, .array elems => elems.take arrayElementSamplePerDoc
  | _, _ => []

/-- The accumulator of a field after more values of it. -/
def grown (depth : Nat) (before : Option PathAccumulator) (vs : List Bson) : Option PathAccumulator :=
  if vs = [] then before else some (tallyFrom depth (before.getD {}) vs)

theorem grown_grown (depth : Nat) (before : Option PathAccumulator) (vs ws : List Bson) :
    grown depth (grown depth before vs) ws = grown depth before (vs ++ ws) := by
  by_cases hv : vs = []
  · rw [hv]
    rfl
  · have hne : vs ++ ws ≠ [] := List.append_ne_nil_of_left_ne_nil hv ws
    by_cases hw : ws = []
    · rw [hw, List.append_nil, grown, if_pos rfl]
    · rw [grown, if_neg hw, grown, if_neg hv, grown, if_neg hne, Option.getD_some, tallyFrom_append]

section
variable {depth : Nat} (hd : depth < maxShapeDepth)
include hd

theorem walkFields_children : ∀ (fields : List (String × Bson)) {acc : PathAccumulator}, Ordered acc.children →
    Ordered (walkFields depth fields acc).children ∧
      ∀ name, get name (walkFields depth fields acc).children =
        grown (depth + 1) (get name acc.children) ((fields.filter (·.1 = name)).map Prod.snd)
  | [], acc, h => ⟨h, fun _ => rfl⟩
  | (key, value) :: rest, acc, h => by
    rw [walkFields, if_pos hd]
    have hentry : Ordered (acc.entry key (accumulateValue (depth + 1) value)).children := Ordered.alter h
    obtain ⟨hordered, hget⟩ := walkFields_children rest hentry
    refine ⟨hordered, fun name => ?_⟩
    rw [hget name]
    show grown (depth + 1) (get name (alter key {} (accumulateValue (depth + 1) value) acc.children)) _ = _
    rw [get_alter h, List.filter_cons]
    by_cases hname : name = key
    · have hhead : some (accumulateValue (depth + 1) value ((get key acc.children).getD {})) =
          grown (depth + 1) (get key acc.children) [value] := rfl
      rw [if_pos hname, if_pos (by simp [hname]), hhead, grown_grown, hname]
      rfl
    · rw [if_neg hname, if_neg (by simp [Ne.symm hname])]

theorem accumulateValue_children (v : Bson) (h : Ordered acc.children) :
    Ordered (accumulateValue depth v acc).children ∧
      ∀ name, get name (accumulateValue depth v acc).children =
        grown (depth + 1) (get name acc.children) ((PathStep.field name).into v) := by
  cases v
  case document fields => exact @walkFields_children _ hd fields (acc.observe (.document fields)) h
  all_goals exact ⟨h, fun _ => rfl⟩

/-- **The accumulator of a field has counted the values of the field.** -/
theorem tally_children (vs : List Bson) : Ordered (tally depth vs).children ∧
    ∀ name, get name (tally depth vs).children = grown (depth + 1) none (vs.flatMap (PathStep.field name).into) := by
  induction vs using List.reverseRecOn with
  | nil => exact ⟨List.Pairwise.nil, fun _ => rfl⟩
  | append_singleton vs v ih =>
    obtain ⟨hordered, hget⟩ := accumulateValue_children hd v ih.1
    rw [tally_concat]
    refine ⟨hordered, fun name => ?_⟩
    rw [hget name, ih.2 name, grown_grown, List.flatMap_append, List.flatMap_singleton]

end

theorem walkFields_capped (hd : ¬ depth < maxShapeDepth) : ∀ (fields : List (String × Bson)) (acc : PathAccumulator),
    walkFields depth fields acc = acc
  | [], _ => rfl
  | (_, _) :: rest, acc => by rw [walkFields, if_neg hd, walkFields_capped hd rest acc]

theorem tally_children_capped (hd : ¬ depth < maxShapeDepth) (vs : List Bson) : (tally depth vs).children = [] := by
  induction vs using List.reverseRecOn with
  | nil => rfl
  | append_singleton vs v ih =>
    rw [tally_concat]
    cases v
    case document fields =>
      rw [accumulateValue_document, walkFields_capped hd]
      exact ih
    all_goals exact ih

/-! ### The elements of the values -/

theorem walkElems_eq (depth : Nat) : ∀ (n : Nat) (elems : List Bson) (acc : PathAccumulator),
    walkElems depth n elems acc = tallyFrom depth acc (elems.take n)
  | 0, [], _ => rfl
  | 0, _ :: _, _ => rfl
  | _ + 1, [], _ => rfl
  | n + 1, elem :: rest, acc => walkElems_eq depth n rest (accumulateValue depth elem acc)

def isArray : Bson → Bool
  | .array _ => true
  | _ => false

theorem into_element_of_not_array (h : isArray v = false) : PathStep.element.into v = [] := by
  cases v
  case array elems => cases h
  all_goals rfl

theorem flatMap_element_of_not_any {vs : List Bson} (h : ¬ vs.any isArray) : vs.flatMap PathStep.element.into = [] := by
  rw [List.any_eq_true, not_exists] at h
  refine List.flatMap_eq_nil_iff.2 fun v hv => into_element_of_not_array ?_
  rw [← Bool.not_eq_true]
  exact fun harray => h v ⟨hv, harray⟩

theorem accumulateValue_of_not_array (depth : Nat) (h : isArray v = false) (acc : PathAccumulator) :
    (accumulateValue depth v acc).arrayElement = acc.arrayElement := by
  cases v
  case array elems => cases h
  case document fields =>
    rw [accumulateValue_document, (walkFields_counts depth fields _).2.2.2]
    rfl
  all_goals rfl

/-- **The accumulator of the elements has counted the elements of the arrays.** -/
theorem tally_arrayElement (depth : Nat) (vs : List Bson) : (tally depth vs).arrayElement =
    if vs.any isArray then some (tally (depth + 1) (vs.flatMap PathStep.element.into)) else none := by
  induction vs using List.reverseRecOn with
  | nil => rfl
  | append_singleton vs v ih =>
    have hbefore : (tally depth vs).arrayElement.getD {} = tally (depth + 1) (vs.flatMap PathStep.element.into) := by
      rw [ih]
      split
      · rfl
      · next hnone => rw [flatMap_element_of_not_any hnone]; rfl
    rw [tally_concat, List.any_append, List.flatMap_append, List.flatMap_singleton]
    cases harray : isArray v with
    | false =>
      rw [accumulateValue_of_not_array depth harray, ih, into_element_of_not_array harray, List.append_nil]
      simp [harray]
    | true =>
      cases v
      case array elems =>
        rw [accumulateValue_array, walkElems_eq, hbefore]
        simp only [List.any_cons, isArray, Bool.true_or, Bool.or_true, if_true]
        rw [tally, ← tallyFrom_append]
        rfl
      all_goals cases harray

end Schema
