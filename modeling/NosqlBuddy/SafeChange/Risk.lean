import NosqlBuddy.SafeChange.Plan

/-!
# Safe Change: the risk of an operation

| here | there |
| --- | --- |
| `riskFactors` | the points and the reasons that `score_risk` (mongo/safe_change.rs:828) adds, in its order |
| `scoreRisk` | their sum, at most 100 |

Every simulated document adds the same warnings, and each warning two points. So the risk depends on how many documents are
shown, unless every operator of the update is simulated. In its other arguments the score is monotone (`scoreRisk_mono`).
-/

namespace SafeChange
open Fallible
open Oplog (Bson Document)

/-! ## The score -/

def OperationKind.debug : OperationKind → String
  | .updateOne => "UpdateOne"
  | .updateMany => "UpdateMany"
  | .deleteOne => "DeleteOne"
  | .deleteMany => "DeleteMany"
  | .replaceOne => "ReplaceOne"
  | .other debug => debug

/-- The points of a factor and its reason. -/
abbrev Factor := Nat × String

def kindFactors (kind : OperationKind) : List Factor :=
  match kind with
  | .deleteMany => [(20, "deleteMany operation")]
  | .updateMany => [(15, "updateMany operation")]
  | .deleteOne => [(10, "deleteOne operation")]
  | .updateOne | .replaceOne => [(5, kind.debug ++ " operation")]
  | .other _ => []

/-- `likely_broad_filter` (safe_change.rs:929). -/
def likelyBroadFilter (filter : Document) : Bool :=
  if (filter.lookup "_id").isSome then false
  else filter.all fun f => ["$or", "$and", "$regex", "$exists"].contains f.1

def filterFactors (filter : Document) : List Factor :=
  if filter.isEmpty then [(25, "Empty filter matches the entire collection")]
  else if likelyBroadFilter filter then [(10, "Filter is broad")]
  else []

def indexFactors (indexUsed : Bool) : List Factor :=
  if indexUsed then [] else [(15, "Query does not use an index (collection scan likely)")]

/-- The percentage of the collection, in `u64`. -/
def percentage (matchedCount collectionSize : Nat) : Nat :=
  if 0 < collectionSize then (matchedCount * 100) % 2 ^ 64 / collectionSize else 0

def affected (pct matchedCount : Nat) : String :=
  toString pct ++ "% of the collection will be affected (" ++ toString matchedCount ++ " docs)"

def countFactors (matchedCount collectionSize : Nat) : List Factor :=
  let pct := percentage matchedCount collectionSize
  if 1 < matchedCount then
    if 50 ≤ pct ∨ 1000 < matchedCount then
      [(20, if 50 ≤ pct then affected pct matchedCount else "High matched count: " ++ toString matchedCount)]
    else if 25 ≤ pct ∨ 100 < matchedCount then
      [(10, if 25 ≤ pct then affected pct matchedCount else "Moderate matched count: " ++ toString matchedCount)]
    else if 5 ≤ matchedCount then [(5, toString matchedCount ++ " documents will be affected")]
    else []
  else []

def levelFactors (level : PreviewRollbackLevel) : List Factor :=
  if level = .metadataOnly then [(10, "No captured pre-images for rollback")] else []

def updateFactors (update : Option Document) : List Factor :=
  match update with
  | some u => (["$unset", "$rename", "$pull", "$mul"].filter fun op => (u.lookup op).isSome).map fun op => (5, "Update uses " ++ op)
  | none => []

/-- The arguments of `score_risk`; the filter and the update as they are parsed there, an error as none. -/
structure RiskInput where
  kind : OperationKind
  matchedCount : Nat
  collectionSize : Nat
  isProduction : Bool
  filter : Document
  indexUsed : Bool
  rollbackLevel : PreviewRollbackLevel
  update : Option Document

/-- The factors before the warnings. -/
def baseFactors (i : RiskInput) : List Factor :=
  (if i.isProduction then [(25, "Production environment")] else []) ++ kindFactors i.kind ++ filterFactors i.filter ++
    indexFactors i.indexUsed ++ countFactors i.matchedCount i.collectionSize ++ levelFactors i.rollbackLevel ++
    updateFactors i.update

def riskFactors (i : RiskInput) (extraWarnings : List String) : List Factor :=
  baseFactors i ++ extraWarnings.map fun w => (2, w)

def points (factors : List Factor) : Nat := (factors.map Prod.fst).sum

structure RiskResult where
  score : Nat
  reasons : List String
  deriving DecidableEq

def scoreRisk (i : RiskInput) (extraWarnings : List String) : RiskResult where
  score := min (points (riskFactors i extraWarnings)) 100
  reasons := (riskFactors i extraWarnings).map Prod.snd

/-! ## Monotonicity -/

theorem points_append (fs gs : List Factor) : points (fs ++ gs) = points fs + points gs := by
  rw [points, points, points, List.map_append, List.sum_append]

/-- More documents, no index, no filter or production, the other arguments as they were. -/
structure Riskier (i j : RiskInput) : Prop where
  kind : i.kind = j.kind
  matchedCount : i.matchedCount ≤ j.matchedCount
  collectionSize : i.collectionSize = j.collectionSize
  isProduction : i.isProduction = true → j.isProduction = true
  filter : j.filter = i.filter ∨ j.filter = []
  indexUsed : j.indexUsed = true → i.indexUsed = true
  rollbackLevel : i.rollbackLevel = j.rollbackLevel
  update : i.update = j.update

theorem percentage_mono {m m' size : Nat} (h : m ≤ m') (hsmall : m' ≤ 1000) : percentage m size ≤ percentage m' size := by
  rw [percentage, percentage]
  by_cases hs : 0 < size
  · rw [if_pos hs, if_pos hs, Nat.mod_eq_of_lt (by omega), Nat.mod_eq_of_lt (by omega)]
    exact Nat.div_le_div_right (Nat.mul_le_mul_right 100 h)
  · rw [if_neg hs, if_neg hs]

theorem points_count (m size : Nat) : points (countFactors m size) =
    if 1 < m ∧ (50 ≤ percentage m size ∨ 1000 < m) then 20
    else if 1 < m ∧ (25 ≤ percentage m size ∨ 100 < m) then 10
    else if 5 ≤ m then 5 else 0 := by
  unfold countFactors
  by_cases h1 : 1 < m
  · by_cases h2 : 50 ≤ percentage m size ∨ 1000 < m
    · simp only [h1, h2, if_true, and_self]
      rfl
    · by_cases h3 : 25 ≤ percentage m size ∨ 100 < m
      · simp only [h1, h2, h3, if_true, if_false, and_true, and_false]
        rfl
      · by_cases h4 : 5 ≤ m
        · simp only [h1, h2, h3, h4, if_true, if_false, and_false]
          rfl
        · simp only [h1, h2, h3, h4, if_true, if_false, and_false]
          rfl
  · have h4 : ¬ 5 ≤ m := by omega
    simp only [h1, h4, if_false, false_and]
    rfl

theorem points_count_mono {m m' : Nat} (size : Nat) (h : m ≤ m') :
    points (countFactors m size) ≤ points (countFactors m' size) := by
  rw [points_count, points_count]
  by_cases hbig : 1000 < m'
  · have htop : 1 < m' ∧ (50 ≤ percentage m' size ∨ 1000 < m') := ⟨by omega, .inr hbig⟩
    rw [if_pos htop]
    split_ifs <;> omega
  · have hp := @percentage_mono m m' size h (by omega)
    split_ifs <;> omega

theorem points_filter_le (filter : Document) : points (filterFactors filter) ≤ points (filterFactors []) := by
  have hempty : points (filterFactors []) = 25 := rfl
  rw [hempty, filterFactors]
  split_ifs <;> decide

/-- **The score is monotone in the number of documents, the index, the filter and the environment.** -/
theorem scoreRisk_mono (h : Riskier i j) (warnings : List String) :
    (scoreRisk i warnings).score ≤ (scoreRisk j warnings).score := by
  have hprod : points (if i.isProduction then [(25, "Production environment")] else []) ≤
      points (if j.isProduction then [(25, "Production environment")] else []) := by
    cases hi : i.isProduction with
    | true => rw [h.isProduction hi]
    | false => exact Nat.zero_le _
  have hindex : points (indexFactors i.indexUsed) ≤ points (indexFactors j.indexUsed) := by
    cases hj : j.indexUsed with
    | true => rw [h.indexUsed hj]
    | false =>
      cases i.indexUsed with
      | true => exact Nat.zero_le _
      | false => exact Nat.le_refl _
  have hfilter : points (filterFactors i.filter) ≤ points (filterFactors j.filter) := by
    rcases h.filter with he | he
    · rw [he]
    · rw [he]
      exact points_filter_le _
  have hcount := @points_count_mono i.matchedCount j.matchedCount i.collectionSize h.matchedCount
  simp only [scoreRisk, riskFactors, baseFactors, points_append, ← h.kind, ← h.rollbackLevel, ← h.update, ← h.collectionSize]
  omega

/-! ## The preview -/

def isDangerousKind : OperationKind → Bool
  | .deleteOne | .deleteMany | .updateMany | .replaceOne => true
  | .updateOne | .other _ => false

/-- `is_production_profile` (safe_change.rs:263). Of the letters that `to_lowercase` changes only those of ASCII become
letters of these words next to each other. -/
def isProductionProfile (name : String) : Bool :=
  ["prod", "production", "live", "master"].any fun word =>
    (name.toList.map Char.toLower).tails.any fun rest => word.toList.isPrefixOf rest

/-- What a preview reads: the connection's name, the readers of the request and the collection. The size is 0 when it could
not be estimated. -/
structure PreviewedCollection where
  name : String
  parseFilter : String → Except String Document
  isBlank : String → Bool
  bsonDocToJson : Document → Json
  /-- The documents that a filter selects, in the order of `find`. -/
  selected : Document → Except String (List Document)
  indexUsed : Document → Bool
  estimatedCount : Nat

structure RiskPreview where
  matchedCount : Nat
  warnings : List String
  riskScore : Nat
  riskReasons : List String
  rollbackLevel : PreviewRollbackLevel
  requiresTypedConfirmation : Bool

/-- `find(filter).limit(limit)`, where 0 is no limit. -/
def limited (limit : Nat) (docs : List Document) : List Document := if limit = 0 then docs else docs.take limit

section
variable (F : Arithmetic) (c : PreviewedCollection)

/-- The simulation of the shown documents, one after the other: its warnings. -/
def simulateSample (update : Document) : List Document → Except String (List String)
  | [] => .ok []
  | doc :: docs => do
    let (_, warnings) ← simulateUpdate F doc update
    return warnings ++ (← simulateSample update docs)

/-- The same collection for `previewOperation`. -/
def PreviewedCollection.env : PreviewEnv where
  parseFilter := c.parseFilter
  isBlank := c.isBlank
  bsonDocToJson := c.bsonDocToJson
  countDocuments filter := List.length <$> c.selected filter
  find filter limit := limited limit <$> c.selected filter
  showDocuments _ := .ok ()
  showUpdate update docs := (fun _ => ()) <$> simulateSample F update docs

/-- What the shown documents add to the warnings. -/
def sampleWarnings (req : SafeChangePreviewRequest) (shown : List Document) (updateDoc replacementDoc : Option Document) :
    Except String (List String) :=
  match req.kind with
  | .updateOne | .updateMany => do
    let update ← required "update document is required" updateDoc
    simulateSample F update shown
  | .deleteOne | .deleteMany => .ok []
  | .replaceOne => do
    let _ ← required "replacement document is required" replacementDoc
    return []
  | .other debug => .error ("Safe Change Mode does not support operation kind: " ++ debug)

/-- What the preview says of the risk. -/
def riskPreview (kind : OperationKind) (filter : Document) (matchedCount : Nat) (updateDoc : Option Document)
    (warnings : List String) : RiskPreview :=
  let isProduction := isProductionProfile c.name
  let risk := scoreRisk
    { kind
      matchedCount
      collectionSize := c.estimatedCount
      isProduction
      filter
      indexUsed := c.indexUsed filter
      rollbackLevel := rollbackLevelOf matchedCount
      update := updateDoc }
    warnings
  { matchedCount
    warnings
    riskScore := risk.score
    riskReasons := risk.reasons
    rollbackLevel := rollbackLevelOf matchedCount
    requiresTypedConfirmation := 60 ≤ risk.score || (isProduction && isDangerousKind kind) }

/-- `preview_operation`, with its risk. -/
def previewRisk (req : SafeChangePreviewRequest) : Except String RiskPreview := do
  let parsed ← parseOptionalDoc (c.env F) (some req.filterJson)
  let filter := parsed.getD []
  let docs ← c.selected filter
  let capturedDocs := limited (max (min docs.length rollbackCaptureLimit) (displayLimit req)) docs
  let updateDoc ← parseOptionalDoc (c.env F) req.updateJson
  let replacementDoc ← parseOptionalDoc (c.env F) req.replacementJson
  let warnings ← sampleWarnings F req (capturedDocs.take (displayLimit req)) updateDoc replacementDoc
  return riskPreview c req.kind filter docs.length updateDoc warnings

end

/-! ## What the sample adds -/

section
variable {F : Arithmetic} {c : PreviewedCollection}

theorem shown_eq (docs : List Document) (limit : Nat) :
    (limited (max (min docs.length rollbackCaptureLimit) limit) docs).take limit = docs.take limit := by
  rw [limited]
  by_cases hz : max (min docs.length rollbackCaptureLimit) limit = 0
  · rw [if_pos hz]
  · rw [if_neg hz, List.take_take]
    congr 1
    omega

theorem simulateUpdate_warnings (h : simulateUpdate F doc update = .ok r) : r.2 = simulationWarnings F update := by
  obtain ⟨result, -, hr⟩ := bind_ok.1 h
  rw [← pure_ok.1 hr]

theorem simulateSample_eq : ∀ {docs : List Document} {warnings : List String},
    simulateSample F update docs = .ok warnings →
      warnings = (List.replicate docs.length (simulationWarnings F update)).flatten
  | [], warnings, h => by
    cases h
    rfl
  | doc :: docs, warnings, h => by
    rw [simulateSample] at h
    obtain ⟨r, hr, h⟩ := bind_ok.1 h
    obtain ⟨rest, hrest, h⟩ := bind_ok.1 h
    rw [← pure_ok.1 h, simulateUpdate_warnings hr, simulateSample_eq hrest]
    rfl

/-- The operators of the request that the preview does not simulate, as warnings; none but for an update. -/
def unsimulated (F : Arithmetic) (kind : OperationKind) (updateDoc : Option Document) : List String :=
  match kind with
  | .updateOne | .updateMany => simulationWarnings F (updateDoc.getD [])
  | _ => []

theorem sampleWarnings_eq (h : sampleWarnings F req shown updateDoc replacementDoc = .ok warnings) :
    warnings = (List.replicate shown.length (unsimulated F req.kind updateDoc)).flatten := by
  have hnone : ∀ n, (List.replicate n ([] : List String)).flatten = [] := by
    intro n
    rw [List.flatten_eq_nil_iff]
    intro l hl
    exact List.eq_of_mem_replicate hl
  rw [sampleWarnings] at h
  cases hkind : req.kind with
  | updateOne | updateMany =>
    rw [hkind] at h
    obtain ⟨update, hu, h⟩ := bind_ok.1 h
    cases updateDoc with
    | none => cases hu
    | some d =>
      cases hu
      exact simulateSample_eq h
  | deleteOne | deleteMany =>
    rw [hkind] at h
    cases h
    exact (hnone _).symm
  | replaceOne =>
    rw [hkind] at h
    obtain ⟨_, -, h⟩ := bind_ok.1 h
    cases h
    exact (hnone _).symm
  | other debug =>
    rw [hkind] at h
    cases h

theorem length_flatten_replicate (n : Nat) (warnings : List String) :
    (List.replicate n warnings).flatten.length = n * warnings.length := by
  rw [List.length_flatten, List.map_replicate, List.sum_replicate_nat]

theorem flatten_replicate_inj {m n : Nat} {warnings : List String} :
    (List.replicate m warnings).flatten = (List.replicate n warnings).flatten ↔ warnings = [] ∨ m = n := by
  constructor
  · intro h
    have hlen := congrArg List.length h
    rw [length_flatten_replicate, length_flatten_replicate] at hlen
    rcases Nat.eq_zero_or_pos warnings.length with hz | hp
    · exact .inl (List.eq_nil_of_length_eq_zero hz)
    · exact .inr (Nat.eq_of_mul_eq_mul_right hp hlen)
  · rintro (rfl | rfl)
    · have hnil : ∀ k, (List.replicate k ([] : List String)).flatten = [] := fun k =>
        List.eq_nil_of_length_eq_zero (by rw [length_flatten_replicate, List.length_nil, Nat.mul_zero])
      rw [hnil, hnil]
    · rfl

/-! ## Two previews -/

/-- The documents that a preview with this limit shows. -/
def shownCount (F : Arithmetic) (c : PreviewedCollection) (req : SafeChangePreviewRequest) : Except String Nat := do
  let parsed ← parseOptionalDoc (c.env F) (some req.filterJson)
  let docs ← c.selected (parsed.getD [])
  return min (displayLimit req) docs.length

/-- The operators of the request that the preview does not simulate. -/
def unsimulatedOf (F : Arithmetic) (c : PreviewedCollection) (req : SafeChangePreviewRequest) : Except String (List String) :=
  unsimulated F req.kind <$> parseOptionalDoc (c.env F) req.updateJson

theorem previewRisk_ok (h : previewRisk F c req = .ok p) :
    ∃ parsed docs updateDoc,
      parseOptionalDoc (c.env F) (some req.filterJson) = .ok parsed ∧ c.selected (parsed.getD []) = .ok docs ∧
      parseOptionalDoc (c.env F) req.updateJson = .ok updateDoc ∧
      p = riskPreview c req.kind (parsed.getD []) docs.length updateDoc
        (List.replicate (min (displayLimit req) docs.length) (unsimulated F req.kind updateDoc)).flatten := by
  rw [previewRisk] at h
  obtain ⟨parsed, hparsed, h⟩ := bind_ok.1 h
  obtain ⟨docs, hdocs, h⟩ := bind_ok.1 h
  obtain ⟨updateDoc, hupdate, h⟩ := bind_ok.1 h
  obtain ⟨replacementDoc, -, h⟩ := bind_ok.1 h
  obtain ⟨warnings, hwarnings, h⟩ := bind_ok.1 h
  refine ⟨parsed, docs, updateDoc, hparsed, hdocs, hupdate, ?_⟩
  have hw := sampleWarnings_eq hwarnings
  rw [shown_eq, List.length_take] at hw
  rw [← pure_ok.1 h, hw]

theorem previewRisk_operation (h : previewRisk F c req = .ok p) :
    ∃ q, previewOperation (c.env F) req = .ok q ∧ q.matchedCount = p.matchedCount ∧ q.rollbackLevel = p.rollbackLevel := by
  rw [previewRisk] at h
  obtain ⟨parsed, hparsed, h⟩ := bind_ok.1 h
  obtain ⟨docs, hdocs, h⟩ := bind_ok.1 h
  obtain ⟨updateDoc, hupdate, h⟩ := bind_ok.1 h
  obtain ⟨replacementDoc, hreplacement, h⟩ := bind_ok.1 h
  obtain ⟨warnings, hwarnings, h⟩ := bind_ok.1 h
  have hshow : ∀ shown, sampleWarnings F req shown updateDoc replacementDoc = .ok warnings →
      showSample (c.env F) req shown updateDoc replacementDoc = .ok () := by
    intro shown hs
    rw [sampleWarnings] at hs
    rw [showSample]
    cases hkind : req.kind with
    | updateOne | updateMany =>
      rw [hkind] at hs
      obtain ⟨update, hu, hs⟩ := bind_ok.1 hs
      exact bind_ok.2 ⟨update, hu, map_ok.2 ⟨warnings, hs, rfl⟩⟩
    | deleteOne | deleteMany => rfl
    | replaceOne =>
      rw [hkind] at hs
      obtain ⟨replacement, hr, -⟩ := bind_ok.1 hs
      exact bind_ok.2 ⟨replacement, hr, rfl⟩
    | other debug =>
      rw [hkind] at hs
      cases hs
  refine ⟨_, bind_ok.2 ⟨parsed, hparsed, bind_ok.2 ⟨docs.length, map_ok.2 ⟨docs, hdocs, rfl⟩,
    bind_ok.2 ⟨_, map_ok.2 ⟨docs, hdocs, rfl⟩, bind_ok.2 ⟨updateDoc, hupdate,
      bind_ok.2 ⟨replacementDoc, hreplacement, bind_ok.2 ⟨(), hshow _ hwarnings, rfl⟩⟩⟩⟩⟩⟩, ?_, ?_⟩
  · rw [← pure_ok.1 h]
    rfl
  · rw [← pure_ok.1 h]
    rfl

/-- The risk, the confirmation and the level of two previews are the same. -/
def SameRisk (p q : RiskPreview) : Prop :=
  p.riskScore = q.riskScore ∧ p.riskReasons = q.riskReasons ∧
    p.requiresTypedConfirmation = q.requiresTypedConfirmation ∧ p.rollbackLevel = q.rollbackLevel

theorem sameRisk_riskPreview :
    SameRisk (riskPreview c kind filter n updateDoc warnings₁) (riskPreview c kind filter n updateDoc warnings₂) ↔
      warnings₁ = warnings₂ := by
  constructor
  · rintro ⟨-, hreasons, -, -⟩
    simp only [riskPreview, scoreRisk, riskFactors, List.map_append, List.map_map, List.append_cancel_left_eq] at hreasons
    simpa only [Function.comp_def, List.map_id'] using hreasons
  · rintro rfl
    exact ⟨rfl, rfl, rfl, rfl⟩

/-- **What is previewed changes the risk exactly when an operator is not simulated and another number of documents is shown;
the score is monotone.** -/
theorem risk_same_iff (F : Arithmetic) (c : PreviewedCollection) (req : SafeChangePreviewRequest)
    (limit₁ limit₂ : Option Nat) {p₁ p₂ : RiskPreview} (h₁ : previewRisk F c { req with sampleLimit := limit₁ } = .ok p₁)
    (h₂ : previewRisk F c { req with sampleLimit := limit₂ } = .ok p₂) :
    (SameRisk p₁ p₂ ↔ unsimulatedOf F c req = .ok [] ∨
      shownCount F c { req with sampleLimit := limit₁ } = shownCount F c { req with sampleLimit := limit₂ }) ∧
    ∀ (i j : RiskInput) (warnings : List String), Riskier i j → (scoreRisk i warnings).score ≤ (scoreRisk j warnings).score := by
  refine ⟨?_, fun i j warnings h => scoreRisk_mono h warnings⟩
  obtain ⟨parsed, docs, updateDoc, hparsed, hdocs, hupdate, rfl⟩ := previewRisk_ok h₁
  obtain ⟨parsed', docs', updateDoc', hparsed', hdocs', hupdate', rfl⟩ := previewRisk_ok h₂
  cases hparsed.symm.trans hparsed'
  cases hdocs.symm.trans hdocs'
  cases hupdate.symm.trans hupdate'
  have hunsimulated : unsimulatedOf F c req = .ok (unsimulated F req.kind updateDoc) := by
    rw [unsimulatedOf, show parseOptionalDoc (c.env F) req.updateJson = .ok updateDoc from hupdate]
    rfl
  have hshown : ∀ limit, shownCount F c { req with sampleLimit := limit } =
      .ok (min (displayLimit { req with sampleLimit := limit }) docs.length) := by
    intro limit
    exact bind_ok.2 ⟨parsed, hparsed, bind_ok.2 ⟨docs, hdocs, rfl⟩⟩
  rw [sameRisk_riskPreview, flatten_replicate_inj, hunsimulated, hshown, hshown, Except.ok.injEq, Except.ok.injEq]

end

/-- An update with an operator that is not simulated, of forty documents among a thousand. -/
def pricesRequest : SafeChangePreviewRequest where
  database := "shop"
  collection := "products"
  kind := .updateMany
  filterJson := "\x7b\"stock\": 0\x7d"
  updateJson := some "\x7b\"$min\": \x7b\"price\": 0\x7d\x7d"
  replacementJson := none
  sampleLimit := none

/-- The values of the fields as JSON, when they are integers. -/
def integersToJson (doc : Document) : Json :=
  .object (doc.map fun f => match f.2 with
    | .int32 n => (f.1, .number (toString n.toInt).toList)
    | _ => (f.1, .null))

def pricesCollection : PreviewedCollection where
  name := "Staging"
  parseFilter := fun s =>
    if s = pricesRequest.filterJson then .ok [("stock", .int32 0)] else .ok [("$min", .document [("price", .int32 0)])]
  isBlank := fun _ => false
  bsonDocToJson := integersToJson
  selected := fun _ => .ok (List.replicate 40 [("stock", .int32 0), ("price", .int32 5)])
  indexUsed := fun _ => true
  estimatedCount := 1000

/-- No number is computed for `$min`. -/
def noArithmetic : Arithmetic := ⟨fun x _ => x, fun x _ => x, fun _ => 0, fun _ _ => false⟩

theorem risk_of_price_update :
    (SameRisk (riskPreview pricesCollection .updateMany [("stock", .int32 0)] 40 (some [("$min", .document [("price", .int32 0)])])
        (List.replicate 1 [notSimulated "$min"]).flatten)
      (riskPreview pricesCollection .updateMany [("stock", .int32 0)] 40 (some [("$min", .document [("price", .int32 0)])])
        (List.replicate 40 [notSimulated "$min"]).flatten) ↔
      unsimulatedOf noArithmetic pricesCollection pricesRequest = .ok [] ∨
        shownCount noArithmetic pricesCollection { pricesRequest with sampleLimit := some 1 } =
          shownCount noArithmetic pricesCollection { pricesRequest with sampleLimit := some 50 }) ∧
    ∀ (i j : RiskInput) (warnings : List String), Riskier i j → (scoreRisk i warnings).score ≤ (scoreRisk j warnings).score :=
  risk_same_iff noArithmetic pricesCollection pricesRequest (some 1) (some 50) rfl rfl

/-- One document shown, and the operation is scored 22; all of them, and it is scored 100 and has to be confirmed. -/
theorem risk_grows_with_sample :
    ∃ p q, previewRisk noArithmetic pricesCollection { pricesRequest with sampleLimit := some 1 } = .ok p ∧
      previewRisk noArithmetic pricesCollection { pricesRequest with sampleLimit := some 50 } = .ok q ∧
      p.riskScore = 22 ∧ q.riskScore = 100 ∧ p.riskReasons.length = 3 ∧ q.riskReasons.length = 42 ∧
      p.requiresTypedConfirmation = false ∧ q.requiresTypedConfirmation = true :=
  ⟨_, _, rfl, rfl, rfl, rfl, rfl, rfl, rfl, rfl⟩

end SafeChange
