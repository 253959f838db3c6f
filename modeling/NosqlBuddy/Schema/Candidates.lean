import NosqlBuddy.Schema.Relationship

/-!
# What becomes a candidate

`Evidence` is what the shapes and the signals say of one field, and `Evidence.candidate` the candidate that
`detect_relationships` makes of it (`get_candidates`): of each kind of evidence that comes more than once it keeps the last
(`app_schema_target`, `index_unique`), or all.
-/

namespace Schema
open Entries

/-! ## Entries with a key -/

/-- Candidates entered for each key, one after the other. -/
def enterAll {P : Type} (f : P → Candidate → Candidate) (xs : List (Key × P)) (m : CandidateMap) : CandidateMap :=
  xs.foldl (fun m x => enterCandidate (ofLex x.1).1 (ofLex x.1).2 (f x.2) m) m

/-- What is entered for the key. -/
def payloads {P : Type} (k : Key) (xs : List (Key × P)) : List P := (xs.filter fun x => x.1 = k).map Prod.snd

theorem payloads_eq {P : Type} (k : Key) (xs : List (Key × P)) :
    payloads k xs = xs.filterMap fun x => if x.1 = k then some x.2 else none := by
  rw [payloads, ← List.filterMap_eq_map, List.filterMap_filter]
  refine List.filterMap_congr fun x _ => ?_
  simp

def Candidate.at (k : Key) : Candidate := .new (ofLex k).1 (ofLex k).2

section
variable {P : Type} (f : P → Candidate → Candidate) (xs : List (Key × P)) {m : CandidateMap}

theorem ordered_enterAll (h : Ordered m) : Ordered (enterAll f xs m) :=
  ordered_foldl_alter (fun x : Key × P => toLex ((ofLex x.1).1, (ofLex x.1).2)) (fun x => Candidate.at x.1) (fun x => f x.2) xs h

theorem foldl_option (c : Candidate) : ∀ (ps : List P) (o : Option Candidate),
    ps.foldl (fun o p => some (f p (o.getD c))) o = if ps = [] then o else some (ps.foldl (fun c p => f p c) (o.getD c))
  | [], _ => rfl
  | p :: ps, o => by
    rw [List.foldl_cons, foldl_option c ps, if_neg (List.cons_ne_nil p ps), List.foldl_cons]
    split
    · next h => rw [h]; rfl
    · rfl

theorem get_enterAll (h : Ordered m) (k : Key) : get k (enterAll f xs m) =
    if payloads k xs = [] then get k m else some ((payloads k xs).foldl (fun c p => f p c) ((get k m).getD (.at k))) := by
  have hget := get_foldl_alter (fun x : Key × P => toLex ((ofLex x.1).1, (ofLex x.1).2)) (fun x => .at x.1) (fun x => f x.2) k xs h
  have hfold : ((xs.filter fun x => x.1 = k).foldl (fun o x => some (f x.2 (o.getD (.at x.1)))) (get k m)) =
      (payloads k xs).foldl (fun o p => some (f p (o.getD (.at k)))) (get k m) := by
    rw [payloads, List.foldl_map]
    refine List.foldl_ext _ _ _ fun o x hx => ?_
    have hkey := (List.mem_filter.1 hx).2
    rw [decide_eq_true_eq] at hkey
    rw [hkey]
  rw [← foldl_option f (.at k), ← hfold]
  exact hget

end

/-- Candidates that are there are changed. -/
def changeAll {P : Type} (f : P → Candidate → Candidate) (xs : List (Key × P)) (m : CandidateMap) : CandidateMap :=
  xs.foldl (fun m x => change x.1 (.at x.1) (f x.2) m) m

theorem get_changeAll {P : Type} (f : P → Candidate → Candidate) (xs : List (Key × P)) (h : Ordered m) (k : Key) :
    get k (changeAll f xs m) = (get k m).map fun c => (payloads k xs).foldl (fun c p => f p c) c := by
  have hget := get_foldl_change (fun x : Key × P => x.1) (fun x => Candidate.at x.1) (fun x => f x.2) k xs h
  rw [changeAll, hget, payloads]
  simp only [List.foldl_map]

theorem ordered_changeAll {P : Type} (f : P → Candidate → Candidate) (xs : List (Key × P)) (h : Ordered m) :
    Ordered (changeAll f xs m) :=
  ordered_foldl_change (fun x : Key × P => x.1) (fun x => Candidate.at x.1) (fun x => f x.2) xs h

theorem foldl_last {P C : Type} {set : P → C → C} (hset : ∀ p q c, set p (set q c) = set p c) (c : C) {ps : List P} {p : P}
    (h : ps.getLast? = some p) : ps.foldl (fun c p => set p c) c = set p c := by
  obtain ⟨front, rfl⟩ := List.getLast?_eq_some_iff.1 h
  rw [List.foldl_append, List.foldl_cons, List.foldl_nil]
  clear h
  induction front generalizing c with
  | nil => rfl
  | cons q front ih => rw [List.foldl_cons, ih, hset]

/-! ## The entries of the inputs -/

def Candidate.visit (isArray : Bool) (c : Candidate) : Candidate := { c with isObjectId := true, isArray := isArray }

def Candidate.lookup (target : String × String) (c : Candidate) : Candidate :=
  { c with lookupTargets := insertTarget target c.lookupTargets }

def Candidate.refer (app : AppSchemaTarget) (c : Candidate) : Candidate := { c with appSchemaTarget := some app }

def Candidate.mark (unique : Bool) (c : Candidate) : Candidate := { c with indexed := true, indexUnique := unique }

def Candidate.match (m : ObjectIdMatchDetail) (c : Candidate) : Candidate := { c with objectIdMatches := c.objectIdMatches ++ [m] }

/-- The fields of a shape that are entered. -/
def visitsOf (shape : CollectionShape) : List (Key × Bool) :=
  (examineChildren shape.root.children).map fun field => (toLex (shape.collection, field.1), field.2)

/-- The indexes of a shape with a single key. -/
def marksOf (shape : CollectionShape) : List (Key × Bool) :=
  shape.indexes.filterMap fun idx => (singleKey idx).map fun field => (toLex (shape.collection, field), idx.unique)

def lookupEntry (sig : LookupSignal) : Key × (String × String) :=
  (toLex (sig.fromCollection, sig.localField), (sig.toCollection, sig.foreignField))

def appEntry (sig : AppSchemaSignal) : Key × AppSchemaTarget :=
  (toLex (sig.fromCollection, sig.fromField), ⟨sig.toCollection, sig.toField, sig.isArray, sig.source⟩)

def matchEntry (config : RelationshipConfig) (sig : ObjectIdMatchSignal) : Option (Key × ObjectIdMatchDetail) :=
  if Binary64.fLe config.objectIdMatchThreshold sig.matchRatio then
    some (toLex (sig.fromCollection, sig.fromField), ⟨sig.toCollection, sig.toField, sig.matchRatio, sig.sampled, sig.matched⟩)
  else none

section
variable (upper : Char → List Char) (i : Inputs)

theorem fields_eq : i.fields = enterAll Candidate.visit (i.shapes.flatMap visitsOf) [] := by
  rw [Inputs.fields, enterAll, List.foldl_flatMap]
  simp only [visitsOf, List.foldl_map]
  rfl

theorem foldl_addLookup (m : CandidateMap) (sigs : List LookupSignal) :
    sigs.foldl addLookup m = enterAll Candidate.lookup (sigs.map lookupEntry) m := by
  rw [enterAll, List.foldl_map]
  rfl

theorem foldl_addAppSchema (m : CandidateMap) (sigs : List AppSchemaSignal) :
    sigs.foldl addAppSchema m = enterAll Candidate.refer (sigs.map appEntry) m := by
  rw [enterAll, List.foldl_map]
  rfl

theorem foldl_addMatch (config : RelationshipConfig) (m : CandidateMap) (sigs : List ObjectIdMatchSignal) :
    sigs.foldl (addMatch config) m = enterAll Candidate.match (sigs.filterMap (matchEntry config)) m := by
  rw [enterAll, List.foldl_filterMap]
  refine List.foldl_ext _ _ _ fun m sig _ => ?_
  unfold addMatch matchEntry
  split <;> rfl

theorem foldl_addIndex (m : CandidateMap) (shapes : List CollectionShape) :
    shapes.foldl (fun out shape => shape.indexes.foldl (addIndex shape.collection) out) m =
      changeAll Candidate.mark (shapes.flatMap marksOf) m := by
  rw [changeAll, List.foldl_flatMap]
  refine List.foldl_ext _ _ _ fun m shape _ => ?_
  rw [marksOf, List.foldl_filterMap]
  refine List.foldl_ext _ _ _ fun m idx _ => ?_
  unfold addIndex
  cases singleKey idx <;> rfl

end

/-! ## Evidence -/

/-- What is known of a field, in the order in which it comes. -/
structure Evidence where
  visits : List Bool
  naming : Option String
  lookups : List (String × String)
  apps : List AppSchemaTarget
  marks : List Bool
  found : List ObjectIdMatchDetail

def evidence (upper : Char → List Char) (i : Inputs) (k : Key) : Evidence where
  visits := payloads k (i.shapes.flatMap visitsOf)
  naming := if i.config.enableNaming then (namingMatch upper (ofLex k).2 i.names).filter (· ≠ (ofLex k).1) else none
  lookups := if i.config.enableLookup then payloads k (i.lookupSignals.map lookupEntry) else []
  apps := if i.config.enableAppSchema then payloads k (i.appSchemaSignals.map appEntry) else []
  marks := if i.config.enableIndex then payloads k (i.shapes.flatMap marksOf) else []
  found := if i.config.enableObjectIdMatch then payloads k (i.objectIdSignals.filterMap (matchEntry i.config)) else []

/-- The field is a candidate when the indexes are looked at. -/
def Evidence.present (e : Evidence) : Bool := e.visits ≠ [] || e.lookups ≠ [] || e.apps ≠ []

def Evidence.isArray (e : Evidence) : Bool := e.visits.getLast?.getD false

/-- A name counts for the fields of the shapes. -/
def Evidence.namingTarget (e : Evidence) : Option String := if e.visits = [] then none else e.naming

def Evidence.indexed (e : Evidence) : Bool := e.present && e.marks ≠ []

/-- The candidate of the evidence, with what was kept where one of several is. -/
def Evidence.candidateWith (e : Evidence) (k : Key) (app : Option AppSchemaTarget) (unique : Option Bool) : Candidate where
  fromCollection := (ofLex k).1
  fromField := (ofLex k).2
  isArray := e.isArray
  isObjectId := e.visits ≠ []
  namingTarget := e.namingTarget
  lookupTargets := e.lookups.foldl (fun targets t => insertTarget t targets) []
  objectIdMatches := e.found
  appSchemaTarget := app
  indexed := e.indexed
  indexUnique := e.present && unique.getD false

def Evidence.candidate (e : Evidence) (k : Key) : Option Candidate :=
  if e.present || e.found ≠ [] then some (e.candidateWith k e.apps.getLast? e.marks.getLast?) else none

/-! ### Each kind of evidence -/

theorem foldl_visit (c : Candidate) {ps : List Bool} (h : ps ≠ []) : ps.foldl (fun c p => c.visit p) c = c.visit (ps.getLast?.getD false) := by
  have hlast := List.getLast?_eq_some_getLast h
  rw [@foldl_last _ _ Candidate.visit (fun _ _ _ => rfl) c _ _ hlast, hlast]
  rfl

theorem foldl_refer (c : Candidate) (ps : List AppSchemaTarget) : ps.foldl (fun c p => c.refer p) c =
    if ps = [] then c else { c with appSchemaTarget := ps.getLast? } := by
  split
  · next h => rw [h]; rfl
  · next h =>
    have hlast := List.getLast?_eq_some_getLast h
    rw [@foldl_last _ _ Candidate.refer (fun _ _ _ => rfl) c _ _ hlast, hlast]
    rfl

theorem foldl_mark (c : Candidate) (ps : List Bool) : ps.foldl (fun c p => c.mark p) c =
    if ps = [] then c else c.mark (ps.getLast?.getD false) := by
  split
  · next h => rw [h]; rfl
  · next h =>
    have hlast := List.getLast?_eq_some_getLast h
    rw [@foldl_last _ _ Candidate.mark (fun _ _ _ => rfl) c _ _ hlast, hlast]
    rfl

theorem foldl_lookup : ∀ (ps : List (String × String)) (c : Candidate), ps.foldl (fun c p => c.lookup p) c =
    { c with lookupTargets := ps.foldl (fun targets t => insertTarget t targets) c.lookupTargets }
  | [], _ => rfl
  | p :: ps, c => by
    rw [List.foldl_cons, foldl_lookup ps]
    rfl

theorem foldl_match : ∀ (ps : List ObjectIdMatchDetail) (c : Candidate), ps.foldl (fun c p => c.match p) c =
    { c with objectIdMatches := c.objectIdMatches ++ ps }
  | [], c => by rw [List.append_nil]; rfl
  | p :: ps, c => by
    rw [List.foldl_cons, foldl_match ps, Candidate.match, List.append_assoc, List.singleton_append]

/-! ### The map -/

section
variable (upper : Char → List Char) (i : Inputs) (k : Key)

theorem ordered_fields : Ordered i.fields := fields_eq i ▸ ordered_enterAll _ _ List.Pairwise.nil

theorem get_fields : get k i.fields = if payloads k (i.shapes.flatMap visitsOf) = [] then none
    else some ((Candidate.at k).visit ((payloads k (i.shapes.flatMap visitsOf)).getLast?.getD false)) := by
  rw [fields_eq, get_enterAll _ _ List.Pairwise.nil]
  split
  · rfl
  · next h => rw [Entries.get, Option.getD_none, foldl_visit _ h]

theorem nameCandidate_eq (names : List String) (x : Key × Candidate) (hx : x.2.namingTarget = none) : nameCandidate upper names x =
    (x.1, { x.2 with namingTarget := (namingMatch upper (ofLex x.1).2 names).filter (· ≠ (ofLex x.1).1) }) := by
  obtain ⟨k, c⟩ := x
  have hc : c = { c with namingTarget := none } := by
    cases c
    simp only at hx
    rw [hx]
  unfold nameCandidate
  cases namingMatch upper (ofLex k).2 names with
  | none => exact congrArg (Prod.mk k) hc
  | some target =>
    simp only [Option.filter_some, decide_eq_true_eq]
    split
    · rfl
    · exact congrArg (Prod.mk k) hc

theorem nameCandidate_fst (names : List String) (x : Key × Candidate) : (nameCandidate upper names x).1 = x.1 := by
  unfold nameCandidate
  split
  · split <;> rfl
  · rfl

theorem ordered_named : Ordered (i.named upper) := by
  unfold Inputs.named
  split
  · exact (ordered_fields i).map (nameCandidate_fst upper i.names)
  · exact ordered_fields i

theorem ordered_withLookups : Ordered (i.withLookups upper) := by
  unfold Inputs.withLookups
  split
  · rw [foldl_addLookup]
    exact ordered_enterAll _ _ (ordered_named upper i)
  · exact ordered_named upper i

theorem ordered_withAppSchemas : Ordered (i.withAppSchemas upper) := by
  unfold Inputs.withAppSchemas
  split
  · rw [foldl_addAppSchema]
    exact ordered_enterAll _ _ (ordered_withLookups upper i)
  · exact ordered_withLookups upper i

theorem ordered_withIndexes : Ordered (i.withIndexes upper) := by
  unfold Inputs.withIndexes
  split
  · rw [foldl_addIndex]
    exact ordered_changeAll _ _ (ordered_withAppSchemas upper i)
  · exact ordered_withAppSchemas upper i

theorem ordered_candidates : Ordered (i.candidates upper) := by
  unfold Inputs.candidates
  split
  · rw [foldl_addMatch]
    exact ordered_enterAll _ _ (ordered_withIndexes upper i)
  · exact ordered_withIndexes upper i

/-- The candidate of the shapes and the lookups. -/
def Evidence.base (e : Evidence) (k : Key) : Candidate :=
  { Candidate.at k with
    isArray := e.isArray
    isObjectId := e.visits ≠ []
    namingTarget := e.namingTarget
    lookupTargets := e.lookups.foldl (fun targets t => insertTarget t targets) [] }

theorem get_named : get k (i.named upper) = if (evidence upper i k).visits = [] then none
    else some { (Candidate.at k).visit (evidence upper i k).isArray with namingTarget := (evidence upper i k).naming } := by
  have hfields := get_fields i k
  unfold Inputs.named evidence
  split
  · rw [get_mapEntries (nameCandidate_fst upper i.names), hfields]
    split
    · rfl
    · rw [Option.map_some, nameCandidate_eq upper i.names _ rfl]
      rfl
  · rw [hfields]
    rfl

theorem get_withLookups : get k (i.withLookups upper) =
    if (evidence upper i k).visits = [] ∧ (evidence upper i k).lookups = [] then none else some ((evidence upper i k).base k) := by
  have hnamed := get_named upper i k
  generalize he : evidence upper i k = e at hnamed
  have hlookups : e.lookups = if i.config.enableLookup then payloads k (i.lookupSignals.map lookupEntry) else [] := by rw [← he]; rfl
  have hfold : ∀ ps, e.lookups = ps → (if ps = [] then get k (i.named upper)
      else some (ps.foldl (fun c p => Candidate.lookup p c) ((get k (i.named upper)).getD (.at k)))) =
        if e.visits = [] ∧ e.lookups = [] then none else some (e.base k) := by
    rintro ps rfl
    rw [hnamed]
    by_cases hvisits : e.visits = []
    · by_cases hnil : e.lookups = []
      · rw [if_pos hnil, if_pos hvisits, if_pos ⟨hvisits, hnil⟩]
      · have hno : ¬ (e.visits = [] ∧ e.lookups = []) := fun h => hnil h.2
        rw [if_neg hnil, if_pos hvisits, if_neg hno, foldl_lookup]
        simp [Evidence.base, Evidence.isArray, Evidence.namingTarget, hvisits, Candidate.at, Candidate.new]
    · have hno : ¬ (e.visits = [] ∧ e.lookups = []) := fun h => hvisits h.1
      rw [if_neg hvisits, if_neg hno]
      by_cases hnil : e.lookups = []
      · rw [if_pos hnil]
        simp [Evidence.base, Evidence.namingTarget, hvisits, hnil, Candidate.at, Candidate.new, Candidate.visit]
      · rw [if_neg hnil, foldl_lookup]
        simp [Evidence.base, Evidence.namingTarget, hvisits, Candidate.at, Candidate.new, Candidate.visit]
  unfold Inputs.withLookups
  split
  · next h =>
    rw [foldl_addLookup, get_enterAll _ _ (ordered_named upper i)]
    exact hfold _ (by rw [hlookups, if_pos h])
  · next h =>
    have hnil := hfold [] (by rw [hlookups, if_neg h])
    rwa [if_pos rfl] at hnil

theorem get_withAppSchemas : get k (i.withAppSchemas upper) = if (evidence upper i k).present
    then some { (evidence upper i k).base k with appSchemaTarget := (evidence upper i k).apps.getLast? } else none := by
  have hbefore := get_withLookups upper i k
  generalize he : evidence upper i k = e at hbefore
  have happs : e.apps = if i.config.enableAppSchema then payloads k (i.appSchemaSignals.map appEntry) else [] := by rw [← he]; rfl
  have hfold : ∀ ps, e.apps = ps → (if ps = [] then get k (i.withLookups upper)
      else some (ps.foldl (fun c p => Candidate.refer p c) ((get k (i.withLookups upper)).getD (.at k)))) =
        if e.present then some { e.base k with appSchemaTarget := e.apps.getLast? } else none := by
    rintro ps rfl
    rw [hbefore, foldl_refer]
    by_cases hnone : e.visits = [] ∧ e.lookups = []
    · rw [if_pos hnone]
      by_cases hnil : e.apps = []
      · simp [Evidence.present, hnil, hnone.1, hnone.2]
      · simp [Evidence.present, hnil, Evidence.base, Evidence.isArray, Evidence.namingTarget, hnone.1, hnone.2, Candidate.at,
          Candidate.new]
    · rw [if_neg hnone]
      have hpresent : e.present = true := by
        rw [not_and_or] at hnone
        rcases hnone with h | h <;> simp [Evidence.present, h]
      rw [if_pos hpresent, Option.getD_some]
      by_cases hnil : e.apps = []
      · rw [if_pos hnil, hnil]
        rfl
      · rw [if_neg hnil, if_neg hnil]
  unfold Inputs.withAppSchemas
  split
  · next h =>
    rw [foldl_addAppSchema, get_enterAll _ _ (ordered_withLookups upper i)]
    exact hfold _ (by rw [happs, if_pos h])
  · next h =>
    have hnil := hfold [] (by rw [happs, if_neg h])
    rwa [if_pos rfl] at hnil

theorem get_withIndexes : get k (i.withIndexes upper) = if (evidence upper i k).present
    then some { (evidence upper i k).base k with
      appSchemaTarget := (evidence upper i k).apps.getLast?
      indexed := (evidence upper i k).marks ≠ []
      indexUnique := (evidence upper i k).marks.getLast?.getD false } else none := by
  have hbefore := get_withAppSchemas upper i k
  generalize he : evidence upper i k = e at hbefore
  have hmarks : e.marks = if i.config.enableIndex then payloads k (i.shapes.flatMap marksOf) else [] := by rw [← he]; rfl
  have hfold : ∀ ps, e.marks = ps → ((get k (i.withAppSchemas upper)).map fun c => ps.foldl (fun c p => Candidate.mark p c) c) =
      if e.present then some { e.base k with
        appSchemaTarget := e.apps.getLast?
        indexed := e.marks ≠ []
        indexUnique := e.marks.getLast?.getD false } else none := by
    rintro ps rfl
    rw [hbefore]
    split
    · rw [Option.map_some, foldl_mark]
      by_cases hnil : e.marks = []
      · rw [if_pos hnil, hnil]
        rfl
      · simp [hnil, Candidate.mark]
    · rfl
  unfold Inputs.withIndexes
  split
  · next h =>
    rw [foldl_addIndex, get_changeAll _ _ (ordered_withAppSchemas upper i)]
    exact hfold _ (by rw [hmarks, if_pos h])
  · next h =>
    have hnil := hfold [] (by rw [hmarks, if_neg h])
    rw [← hnil]
    cases get k (i.withAppSchemas upper) <;> rfl

/-- **The candidate of a field** is made of the evidence for it. -/
theorem get_candidates : get k (i.candidates upper) = (evidence upper i k).candidate k := by
  have hbefore := get_withIndexes upper i k
  generalize he : evidence upper i k = e at hbefore
  have hfound : e.found = if i.config.enableObjectIdMatch then payloads k (i.objectIdSignals.filterMap (matchEntry i.config)) else [] := by
    rw [← he]
    rfl
  have hfold : ∀ ps, e.found = ps → (if ps = [] then get k (i.withIndexes upper)
      else some (ps.foldl (fun c p => Candidate.match p c) ((get k (i.withIndexes upper)).getD (.at k)))) = e.candidate k := by
    rintro ps rfl
    rw [hbefore, foldl_match, Evidence.candidate]
    by_cases hpresent : e.present = true
    · simp only [hpresent, if_true, Bool.true_or]
      by_cases hnil : e.found = []
      · simp [hnil, Evidence.candidateWith, Evidence.base, Evidence.indexed, hpresent, Candidate.at, Candidate.new]
      · simp [hnil, Evidence.candidateWith, Evidence.base, Evidence.indexed, hpresent, Candidate.at, Candidate.new]
    · have hnone : e.visits = [] ∧ e.lookups = [] ∧ e.apps = [] := by simpa [Evidence.present, and_assoc] using hpresent
      rw [Bool.not_eq_true] at hpresent
      by_cases hnil : e.found = []
      · simp [hnil, hpresent]
      · simp [hnil, hpresent, Evidence.candidateWith, Evidence.indexed, Evidence.isArray, Evidence.namingTarget, hnone.1, hnone.2.1,
          hnone.2.2, Candidate.at, Candidate.new]
  unfold Inputs.candidates
  split
  · next h =>
    rw [foldl_addMatch, get_enterAll _ _ (ordered_withIndexes upper i)]
    exact hfold _ (by rw [hfound, if_pos h])
  · next h =>
    have hnil := hfold [] (by rw [hfound, if_neg h])
    rwa [if_pos rfl] at hnil

end

end Schema
