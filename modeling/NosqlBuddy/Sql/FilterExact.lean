import NosqlBuddy.Sql.AggExact

/-!
# Filters mean what the SQL condition means

A filter compares a field with the JSON of a literal as it stands, where an aggregation expression would read it, so
the operands allowed at the two places differ: `PlainBound` and `PlainComparison` for a field condition, `PlainExpr`
under `$expr`. `filter_exact`: on a row without `NULL` the filter of a `PlainFilter` condition gives its truth
value. `satisfies_mergeAnd`: merging two filters drops no condition.
-/

namespace Sql
open Mongo
open Mongo.Value
open Warned

variable {sv : Server} {today : ℤ} {d : Doc}

/-! ## Literals and fields of a filter -/

/-- The literal is written into a filter as its value. -/
def PlainOperand : SqlExpr → Prop
  | .value v => ExactLiteral v
  | .identifier i => i.quoteStyle = some '"' ∧ i.value.toList.head? ≠ some '#'
  | .nested e => PlainOperand e
  | .unaryOp _ e => PlainOperand e
  | _ => False

theorem classifyIdent_string (hq : i.quoteStyle = some '"') (hd : i.value.toList.head? ≠ some '#') :
    classifyIdent i = .stringLiteral i.value := by
  unfold classifyIdent
  split
  · next e => exact absurd (by rw [e]; rfl) hd
  · rw [if_pos hq]

theorem operand_exact : ∀ {e : SqlExpr} {v : Value}, PlainOperand e → isLiteral e = true → sqlEval d e = some v → Known v →
    Clean (exprToAggExpr today e) v ∧ v.Scalar
  | .value l, v, hp, _, h, _ => by
    rw [sqlEval] at h
    rw [exprToAggExpr]
    cases l with
    | number n =>
      have hn : n.sqlValue = some n.toJson := hp
      rw [← Option.some.inj (hn.symm.trans h)]
      refine ⟨rfl, ?_⟩
      unfold Numeral.toJson
      cases nearestDouble n.toRat <;> trivial
    | other _ => exact absurd hp id
    | _ => rw [← Option.some.inj h]; exact ⟨rfl, trivial⟩
  | .identifier i, v, hp, _, h, _ => by
    rw [sqlEval, sqlIdent, if_pos hp.1] at h
    rw [← Option.some.inj h, exprToAggExpr, classifyIdent_string hp.1 hp.2]
    exact ⟨rfl, trivial⟩
  | .nested e, v, hp, hl, h, hk => operand_exact (e := e) hp hl h hk
  | .unaryOp op e, v, hp, hl, h, hk => by
    cases op with
    | minus =>
      obtain ⟨w, hw, h⟩ := Option.bind_eq_some_iff.1 h
      cases w with
      | num q =>
        obtain ⟨hj, -⟩ := operand_exact (e := e) hp hl hw ⟨by simp, by simp⟩
        rw [← Option.some.inj h]
        exact ⟨bind_clean.2 ⟨_, hj, rfl⟩, trivial⟩
      | null => exact absurd (Option.some.inj h).symm hk.1
      | _ => exact absurd h (by simp [sqlNegate])
    | plus =>
      obtain ⟨w, hw, h⟩ := Option.bind_eq_some_iff.1 h
      obtain ⟨u, -, rfl⟩ := Option.map_eq_some_iff.1 h
      exact operand_exact (e := e) hp hl hw hk
    | not => exact absurd hl (by simp [isLiteral])
  | .compoundIdentifier _, _, hp, _, _, _ => absurd hp id
  | .binaryOp _ _ _, _, hp, _, _, _ => absurd hp id
  | .inList _ _ _, _, hp, _, _, _ => absurd hp id
  | .isNull _, _, hp, _, _, _ => absurd hp id
  | .isNotNull _, _, hp, _, _, _ => absurd hp id
  | .between _ _ _ _, _, hp, _, _, _ => absurd hp id
  | .like _ _ _ _ _, _, hp, _, _, _ => absurd hp id
  | .function _ _ _, _, hp, _, _, _ => absurd hp id
  | .other _, _, hp, _, _, _ => absurd hp id

theorem sqlEval_fieldName {f : String} : ∀ {e : SqlExpr}, fieldName e = some f → sqlEval d e = column d f :=
  fieldName_forms (motive := fun e => sqlEval d e = column d f) (fun i hc => by
      obtain ⟨hq, hd, hf⟩ := classifyIdent_eq_field hc
      rw [sqlEval, sqlIdent, if_neg hq, if_neg hd, hf])
    (fun is hf => by rw [sqlEval, hf]) (fun _ h => h)

/-! ## Filter documents -/

/-- The keys of an object are distinct. -/
def DistinctKeys : Value → Prop
  | .doc fs => (fs.map Prod.fst).Nodup
  | _ => True

theorem satisfies_one (h : (if k = "$expr" then (eval sv c d).map truthy
      else if k = "$and" then (matchEach sv c d).map (·.all id)
      else if k = "$or" then (matchEach sv c d).map (·.any id)
      else if isOperator k then none
      else fieldHolds c (candidates (splitPath k) d)) = r) : satisfies sv (.doc [(k, c)]) d = r := by
  rw [satisfies, matchFields, h]
  cases r <;> simp [matchFields]

theorem satisfies_expr (h : eval sv j d = some r) :
    satisfies sv (.doc [("$expr", j)]) d = some (truthy r) :=
  satisfies_one (by rw [if_pos rfl, h]; rfl)

variable {v : Value}

theorem satisfies_field (hf : PlainName f) (h : column d f = some v) (hv : ∀ vs, v ≠ .arr vs) :
    satisfies sv (.doc [(f, c)]) d = fieldHolds c [some v] := by
  have hop := ValidPath.name hf
  refine satisfies_one ?_
  rw [if_neg (by rintro rfl; exact absurd hop (by decide)), if_neg (by rintro rfl; exact absurd hop (by decide)),
    if_neg (by rintro rfl; exact absurd hop (by decide)), if_neg (by simp [hop]), candidates_of_getPath h hv]

theorem satisfies_and (l r : Value) : satisfies sv (call "$and" [l, r]) d = both (satisfies sv l d) (satisfies sv r d) := by
  refine satisfies_one ?_
  rw [if_neg (by decide), if_pos rfl, matchEach, matchList, matchList]
  cases satisfies sv l d <;> cases satisfies sv r d <;> simp [both]

variable {b : Bool}

theorem satisfies_or (hl : satisfies sv l d = some a) (hr : satisfies sv r d = some b) :
    satisfies sv (call "$or" [l, r]) d = some (a || b) := by
  refine satisfies_one ?_
  rw [if_neg (by decide), if_neg (by decide), if_pos rfl, matchEach, matchList, matchList, hl, hr]
  simp

theorem insertAll_of_disjoint (hr : (r.map Prod.fst).Nodup) (h : ∀ k ∈ r.map Prod.fst, k ∉ l.map Prod.fst) :
    insertAll r l = l ++ r := by
  induction r generalizing l with
  | nil => simp [insertAll]
  | cons x xs ih =>
    obtain ⟨k, v⟩ := x
    rw [List.map_cons, List.nodup_cons] at hr
    show insertAll xs (insertKV k v l) = _
    rw [insertKV_of_notMem (h k (by simp)), ih hr.2]
    · simp
    · intro m hm
      rw [List.map_append, List.mem_append, not_or]
      refine ⟨h m (by simpa using Or.inr (by simpa using hm)), ?_⟩
      simp only [List.map_cons, List.map_nil, List.mem_singleton]
      rintro rfl
      exact hr.1 hm

theorem lookup_isSome {fs : Doc} {k : String} : (fs.lookup k).isSome = true ↔ k ∈ fs.map Prod.fst := by
  induction fs with
  | nil => simp
  | cons x xs ih =>
    obtain ⟨l, v⟩ := x
    rw [lookup_cons, List.map_cons, List.mem_cons, ← ih]
    by_cases h : k = l <;> simp [h]

theorem mergeAnd_cases (l r : Value) (hr : DistinctKeys r) :
    mergeAnd l r = call "$and" [l, r] ∨
    ∃ fs gs, l = .doc fs ∧ r = .doc gs ∧ mergeAnd l r = .doc (fs ++ gs) ∧ ∀ k ∈ gs.map Prod.fst, k ∉ fs.map Prod.fst := by
  unfold mergeAnd
  split
  · next fs gs =>
    split
    · next h =>
      simp only [Bool.and_eq_true, Bool.not_eq_true', List.any_eq_false] at h
      have hdis : ∀ k ∈ gs.map Prod.fst, k ∉ fs.map Prod.fst := by
        intro k hk hm
        obtain ⟨x, hx, rfl⟩ := List.mem_map.1 hm
        exact h.2 x hx (lookup_isSome.2 hk)
      exact .inr ⟨fs, gs, rfl, rfl, by rw [insertAll_of_disjoint hr hdis], hdis⟩
    · exact .inl rfl
  · exact .inl rfl

/-- **`mergeAnd` is the conjunction of its two filters.** -/
theorem satisfies_mergeAnd (l r : Value) (hr : DistinctKeys r) :
    satisfies sv (mergeAnd l r) d = both (satisfies sv l d) (satisfies sv r d) := by
  rcases mergeAnd_cases l r hr with h | ⟨fs, gs, rfl, rfl, h, -⟩
  · rw [h, satisfies_and]
  · rw [h, satisfies, satisfies, satisfies, matchFields_append]

theorem distinctKeys_one (k : String) (v : Value) : DistinctKeys (.doc [(k, v)]) := List.nodup_singleton k

theorem DistinctKeys.mergeAnd (hl : DistinctKeys l) (hr : DistinctKeys r) : DistinctKeys (mergeAnd l r) := by
  rcases mergeAnd_cases l r hr with h | ⟨fs, gs, rfl, rfl, h, hdis⟩
  · rw [h]
    exact distinctKeys_one _ _
  · rw [h]
    show ((fs ++ gs).map Prod.fst).Nodup
    rw [List.map_append]
    exact List.nodup_append.2 ⟨hl, hr, fun a ha b hb e => hdis b hb (e ▸ ha)⟩

/-! ## Filters -/

/-- The comparison means the same as the filter it is translated to. -/
def PlainComparison (l r : SqlExpr) : Prop :=
  match fieldName l, isLiteral r with
  | some f, true => PlainName f ∧ PlainOperand r
  | _, _ => match isLiteral l, fieldName r with
    | true, some f => PlainName f ∧ PlainOperand l
    | _, _ => PlainExpr l ∧ PlainExpr r

theorem plainComparison_of_not (h : ¬ ∃ f, fieldName l = some f ∧ isLiteral r = true) :
    PlainComparison l r = match isLiteral l, fieldName r with
      | true, some f => PlainName f ∧ PlainOperand l
      | _, _ => PlainExpr l ∧ PlainExpr r := by
  unfold PlainComparison
  split
  · next f hf hlit => exact absurd ⟨f, hf, hlit⟩ h
  · rfl

/-- The literals compared with a field in `IN` or `BETWEEN`. -/
def PlainBound (e : SqlExpr) : Prop := isLiteral e = true ∧ PlainOperand e

/-- The expression means the same as the filter it is translated to. -/
def PlainFilter : SqlExpr → Prop
  | .nested inner => PlainFilter inner
  | .binaryOp left .and right => PlainFilter left ∧ PlainFilter right
  | .binaryOp left .or right => PlainFilter left ∧ PlainFilter right
  | .binaryOp left op right =>
    if op.comparison.isSome then PlainComparison left right else PlainExpr (.binaryOp left op right)
  | .inList inner list negated => match fieldName inner with
    | some f => PlainName f ∧ ∀ e ∈ list, PlainBound e
    | none => PlainExpr (.inList inner list negated)
  | .isNull inner => match fieldName inner with
    | some f => PlainName f
    | none => PlainExpr inner
  | .isNotNull inner => match fieldName inner with
    | some f => PlainName f
    | none => PlainExpr inner
  | .between inner negated low high => match fieldName inner with
    | some f => PlainName f ∧ PlainBound low ∧ PlainBound high
    | none => PlainExpr (.between inner negated low high)
  | e => PlainExpr e

/-- What the translation of an expression to a filter has to give. -/
def FilterIs (sv : Server) (d : Doc) (t : Warned Value) (b : Bool) : Prop :=
  ∃ j, Clean t j ∧ DistinctKeys j ∧ satisfies sv j d = some b

theorem exprFilter_exact (hp : PlainExpr e) (hs : Strict d e)
    (h : sqlEval d e = some (.bool b)) : FilterIs sv d (exprFilter today e) b := by
  obtain ⟨j, hj, hev⟩ := aggExpr_exact hp hs h
  exact ⟨_, bind_clean.2 ⟨j, hj, rfl⟩, distinctKeys_one _ _, satisfies_expr hev⟩

variable {w : Value}

theorem fieldHolds_scalar (hw : w.Scalar) : fieldHolds w [some v] = some (decide (v = w)) := by
  cases w with
  | arr _ => exact absurd hw id
  | doc _ => exact absurd hw id
  | _ => simp [fieldHolds, sameValue]

theorem fieldHolds_op (hop : isOperator op = true)
    (h : operatorHolds op w [some v] = some b) : fieldHolds (.doc [(op, w)]) [some v] = some b := by
  rw [fieldHolds, if_pos hop, operatorsHold, h]
  simp [operatorsHold]

/-- The test of a comparison operator. -/
def BinaryOperator.test : BinaryOperator → Ordering → Bool
  | .eq => (· == .eq)
  | .notEq => (· != .eq)
  | .lt => (·.isLT)
  | .ltEq => (·.isLE)
  | .gt => (·.isGT)
  | _ => (·.isGE)

variable {m : String} {op : BinaryOperator}

theorem sqlBinary_comparison (h : op.comparison = some m) :
    sqlBinary op = sqlCompare op.test := by
  cases op <;> first | rfl | exact absurd h (by simp [BinaryOperator.comparison])

theorem simpleFieldFilter_exact {f : String} {u : Value} (hm : op.comparison = some m)
    (hf : PlainName f) (hc : column d f = some v) (hv : Known v) (hw : Known w) (hs : w.Scalar)
    (h : sqlBinary op v w = some u) : ∃ b, u = .bool b ∧ satisfies sv (simpleFieldFilter m f w) d = some b := by
  rw [sqlBinary_comparison hm] at h
  obtain ⟨hr, rfl⟩ := sqlCompare_known hv hw h
  refine ⟨_, rfl, ?_⟩
  cases op with
  | eq =>
    injection hm with hm
    subst hm
    exact (satisfies_field hf hc hv.2).trans ((fieldHolds_scalar hs).trans (congrArg some (cmp_beq_eq v w).symm))
  | notEq =>
    injection hm with hm
    subst hm
    refine (satisfies_field hf hc hv.2).trans (fieldHolds_op (by decide) ?_)
    show some (!([some v].any (sameValue w))) = some (v.cmp w != .eq)
    rw [bne, cmp_beq_eq]
    simp [sameValue]
  | lt =>
    injection hm with hm
    subst hm
    refine (satisfies_field hf hc hv.2).trans (fieldHolds_op (by decide) ?_)
    simp [operatorHolds, ordered, BinaryOperator.test, hr]
  | ltEq =>
    injection hm with hm
    subst hm
    refine (satisfies_field hf hc hv.2).trans (fieldHolds_op (by decide) ?_)
    simp [operatorHolds, ordered, BinaryOperator.test, hr]
  | gt =>
    injection hm with hm
    subst hm
    refine (satisfies_field hf hc hv.2).trans (fieldHolds_op (by decide) ?_)
    simp [operatorHolds, ordered, BinaryOperator.test, hr]
  | gtEq =>
    injection hm with hm
    subst hm
    refine (satisfies_field hf hc hv.2).trans (fieldHolds_op (by decide) ?_)
    simp [operatorHolds, ordered, BinaryOperator.test, hr]
  | _ => exact absurd hm (by simp [BinaryOperator.comparison])

/-- The operator with its operands swapped. -/
def BinaryOperator.swapped : BinaryOperator → BinaryOperator
  | .lt => .gt
  | .gt => .lt
  | .ltEq => .gtEq
  | .gtEq => .ltEq
  | op => op

theorem comparison_swapped (h : op.comparison = some m) :
    op.swapped.comparison = some (swappedOp m) := by
  cases op <;> first | (injection h with h; subst h; rfl) | exact absurd h (by simp [BinaryOperator.comparison])

theorem sqlBinary_swapped (hm : op.comparison = some m) (v w : Value) :
    sqlBinary op.swapped w v = sqlBinary op v w := by
  rw [sqlBinary_comparison hm, sqlBinary_comparison (comparison_swapped hm)]
  unfold sqlCompare
  by_cases hn : v = .null ∨ w = .null
  · rw [if_pos hn, if_pos hn.symm]
  rw [if_neg hn, if_neg fun h => hn h.symm]
  by_cases hr : v.rank = w.rank
  · have ht : op.swapped.test (w.cmp v) = op.test (v.cmp w) := by
      rw [cmp_swap v w]
      cases op <;> first
        | (cases w.cmp v <;> rfl)
        | exact absurd hm (by simp [BinaryOperator.comparison])
    rw [ht, if_pos hr, if_pos hr.symm]
  · rw [if_neg hr, if_neg (Ne.symm hr)]

theorem comparisonToFilter_exact {l r : SqlExpr} {u : Value}
    (hm : op.comparison = some m) (hp : PlainComparison l r) (hop : op.Supported)
    (hsl : Strict d l) (hsr : Strict d r) (hl : sqlEval d l = some v) (hr : sqlEval d r = some w) (hv : Known v)
    (hw : Known w) (h : sqlBinary op v w = some u) :
    ∃ b, u = .bool b ∧ FilterIs sv d (comparisonToFilter today m l r) b := by
  have hkeys : ∀ m f w, DistinctKeys (simpleFieldFilter m f w) := by
    intro m f w
    unfold simpleFieldFilter
    split <;> exact distinctKeys_one _ _
  by_cases hleft : ∃ f, fieldName l = some f ∧ isLiteral r = true
  · obtain ⟨f, hf, hlit⟩ := hleft
    rw [PlainComparison, hf, hlit] at hp
    obtain ⟨hj, hsc⟩ := @operand_exact today _ _ _ hp.2 hlit hr hw
    rw [sqlEval_fieldName hf] at hl
    obtain ⟨b, rfl, hb⟩ := @simpleFieldFilter_exact sv _ _ _ _ _ _ _ hm hp.1 hl hv hw hsc h
    rw [comparisonToFilter_field hf hlit]
    exact ⟨b, rfl, _, bind_clean.2 ⟨w, hj, rfl⟩, hkeys _ _ _, hb⟩
  rw [plainComparison_of_not hleft] at hp
  by_cases hright : ∃ f, isLiteral l = true ∧ fieldName r = some f
  · obtain ⟨f, hlit, hf⟩ := hright
    rw [hlit, hf] at hp
    obtain ⟨hj, hsc⟩ := @operand_exact today _ _ _ hp.2 hlit hl hv
    rw [sqlEval_fieldName hf] at hr
    rw [← sqlBinary_swapped hm] at h
    obtain ⟨b, rfl, hb⟩ := @simpleFieldFilter_exact sv _ _ _ _ _ _ _ (comparison_swapped hm) hp.1 hr hw hv hsc h
    rw [comparisonToFilter_swapped hleft hlit hf]
    exact ⟨b, rfl, _, bind_clean.2 ⟨v, hj, rfl⟩, hkeys _ _ _, hb⟩
  · have hp : PlainExpr l ∧ PlainExpr r := by
      split at hp
      · next f hlit hf => exact absurd ⟨f, hlit, hf⟩ hright
      · exact hp
    obtain ⟨jl, hjl, hel⟩ := @aggExpr_exact sv today _ _ _ hp.1 hsl hl
    obtain ⟨jr, hjr, her⟩ := @aggExpr_exact sv today _ _ _ hp.2 hsr hr
    obtain ⟨m', hm', hmo, happ⟩ := @applyOperator_binary sv _ _ _ _ hop hv hw h
    have hmm : m' = m := by
      have hcl : Clean op.mongoOp m := by
        cases op <;> first | (injection hm with hm; subst hm; rfl) | exact absurd hm (by simp [BinaryOperator.comparison])
      exact hm'.unique hcl
    rw [hmm] at hmo happ
    rw [sqlBinary_comparison hm] at h
    obtain ⟨-, rfl⟩ := sqlCompare_known hv hw h
    have hev := (eval_call hmo (evalList_pair hel her)).trans happ
    rw [comparisonToFilter_expr hleft hright]
    exact ⟨_, rfl, .doc [("$expr", call m [jl, jr])],
      bind_clean.2 ⟨jl, hjl, bind_clean.2 ⟨jr, hjr, rfl⟩⟩, distinctKeys_one _ _, satisfies_expr hev⟩

theorem bounds_exact : ∀ {es : List SqlExpr} {vs : List Value}, (∀ e ∈ es, PlainBound e) → StrictList d es →
    sqlEvalList d es = some vs → Clean (runArgs (exprsToAggExpr today es)) vs ∧ ∀ v ∈ vs, Known v
  | [], vs, _, _, h => by
    rw [← Option.some.inj h]
    exact ⟨rfl, by simp⟩
  | e :: es, vs, hp, hs, h => by
    obtain ⟨-, ⟨a, ha, hka⟩, hses⟩ := hs
    rw [sqlEvalList, ha] at h
    obtain ⟨ws, hws, rfl⟩ := Option.map_eq_some_iff.1 h
    obtain ⟨hlit, hpe⟩ := hp e List.mem_cons_self
    obtain ⟨hj, -⟩ := @operand_exact today _ _ _ hpe hlit ha hka
    obtain ⟨hjs, hk⟩ := bounds_exact (fun x hx => hp x (List.mem_cons_of_mem e hx)) hses hws
    refine ⟨bind_clean.2 ⟨a, hj, bind_clean.2 ⟨ws, hjs, rfl⟩⟩, ?_⟩
    intro v hv
    rcases List.mem_cons.1 hv with rfl | hv
    · exact hka
    · exact hk v hv

theorem operatorHolds_in (v : Value) (ws : List Value) :
    operatorHolds "$in" (.arr ws) [some v] = some (decide (v ∈ ws)) := by
  have h : (ws.any fun w => [some v].any (sameValue w)) = decide (v ∈ ws) := by
    rw [← any_some_eq]
    congr 1
    ext w
    simp [sameValue, eq_comm]
  exact congrArg some h

theorem operatorHolds_nin (v : Value) (ws : List Value) :
    operatorHolds "$nin" (.arr ws) [some v] = some (!decide (v ∈ ws)) := by
  have h := operatorHolds_in v ws
  injection h with h
  exact congrArg (fun b => some (!b)) h

theorem negateTruth_bool (h : negateTruth negated (.bool a) = some (.bool b)) :
    b = if negated then !a else a := by
  cases negated with
  | false =>
    injection h with h
    injection h with h
    exact h.symm
  | true =>
    injection h with h
    injection h with h
    exact h.symm

/-- **On a row without `NULL` a plain condition is its filter.** -/
theorem filter_exact : ∀ {e : SqlExpr} {b : Bool}, PlainFilter e → Strict d e → sqlEval d e = some (.bool b) →
    FilterIs sv d (exprToFilter today e) b
  | .nested e, b, hp, hs, h => filter_exact (e := e) hp hs h
  | .binaryOp l op r, b, hp, hs, h => by
    have hs' := hs
    obtain ⟨hsl, ⟨v, hv, hkv⟩, hsr, ⟨w, hw, hkw⟩⟩ := hs'
    have h' := h
    rw [sqlEval, hv, hw, Option.bind_some, Option.bind_some] at h'
    have fallback : op.comparison = none → PlainExpr (.binaryOp l op r) →
        FilterIs sv d (exprFilter today (.binaryOp l op r)) b := fun _ hp => exprFilter_exact hp hs h
    have compared : ∀ m, op.comparison = some m → op.Supported → PlainComparison l r →
        FilterIs sv d (comparisonToFilter today m l r) b := by
      intro m hm hsup hp
      obtain ⟨c, hc, hf⟩ := @comparisonToFilter_exact sv today _ _ _ _ _ _ _ _ hm hp hsup hsl hsr hv hw hkv hkw h'
      injection hc with hc
      exact hc ▸ hf
    cases op with
    | and =>
      obtain ⟨x, y, rfl, rfl, hxy⟩ := sqlAnd_known hkv hkw h'
      injection hxy with hxy
      obtain ⟨jl, hjl, hdl, hml⟩ := filter_exact (e := l) hp.1 hsl hv
      obtain ⟨jr, hjr, hdr, hmr⟩ := filter_exact (e := r) hp.2 hsr hw
      refine ⟨mergeAnd jl jr, bind_clean.2 ⟨jl, hjl, bind_clean.2 ⟨jr, hjr, rfl⟩⟩, hdl.mergeAnd hdr, ?_⟩
      rw [satisfies_mergeAnd jl jr hdr, hml, hmr, hxy]
      rfl
    | or =>
      obtain ⟨x, y, rfl, rfl, hxy⟩ := sqlOr_known hkv hkw h'
      injection hxy with hxy
      obtain ⟨jl, hjl, hdl, hml⟩ := filter_exact (e := l) hp.1 hsl hv
      obtain ⟨jr, hjr, hdr, hmr⟩ := filter_exact (e := r) hp.2 hsr hw
      refine ⟨call "$or" [jl, jr], bind_clean.2 ⟨jl, hjl, bind_clean.2 ⟨jr, hjr, rfl⟩⟩, distinctKeys_one _ _, ?_⟩
      rw [satisfies_or hml hmr, hxy]
    | eq => exact compared "$eq" rfl trivial hp
    | notEq => exact compared "$ne" rfl trivial hp
    | lt => exact compared "$lt" rfl trivial hp
    | ltEq => exact compared "$lte" rfl trivial hp
    | gt => exact compared "$gt" rfl trivial hp
    | gtEq => exact compared "$gte" rfl trivial hp
    | plus => exact fallback rfl hp
    | minus => exact fallback rfl hp
    | multiply => exact fallback rfl hp
    | divide => exact fallback rfl hp
    | modulo => exact fallback rfl hp
    | spaceship => exact fallback rfl hp
    | other _ => exact fallback rfl hp
  | .inList e list negated, b, hp, hs, h => by
    rw [PlainFilter] at hp
    have hs' := hs
    obtain ⟨hse, ⟨v, hv, hkv⟩, hsl⟩ := hs'
    have h' := h
    rw [sqlEval, hv, Option.bind_some] at h'
    obtain ⟨ws, hws, h'⟩ := Option.bind_eq_some_iff.1 h'
    obtain ⟨t, ht, h'⟩ := Option.bind_eq_some_iff.1 h'
    cases hf : fieldName e with
    | some f =>
      rw [hf] at hp
      rw [exprToFilter_inList hf]
      obtain ⟨hjs, hk⟩ := @bounds_exact today _ _ _ hp.2 hsl hws
      rw [sqlIn_known hkv hk ht] at h'
      rw [sqlEval_fieldName hf] at hv
      have hb := negateTruth_bool h'
      refine ⟨simpleFieldFilter (if negated then "$nin" else "$in") f (.arr ws), ?_, ?_, ?_⟩
      · exact bind_clean.2 ⟨ws, hjs, rfl⟩
      · cases negated <;> exact distinctKeys_one _ _
      · cases negated with
        | false =>
          refine (satisfies_field hp.1 hv hkv.2).trans (fieldHolds_op (by decide) ?_)
          rw [hb]
          exact operatorHolds_in v ws
        | true =>
          refine (satisfies_field hp.1 hv hkv.2).trans (fieldHolds_op (by decide) ?_)
          rw [hb]
          exact operatorHolds_nin v ws
    | none =>
      rw [hf] at hp
      rw [exprToFilter_inList_expr hf]
      obtain ⟨j, hj, hev⟩ := @aggExpr_exact sv today _ _ _ hp hs h
      obtain ⟨js, hjs, hj⟩ := bind_clean.1 hj
      obtain ⟨je, hje, hj⟩ := bind_clean.1 hj
      refine ⟨.doc [("$expr", j)], ?_, distinctKeys_one _ _, satisfies_expr hev⟩
      refine bind_clean.2 ⟨js, hjs, bind_clean.2 ⟨je, hje, ?_⟩⟩
      rw [pure_clean.1 hj]
      rfl
  | .isNull e, b, hp, hs, h => by
    rw [PlainFilter] at hp
    have hs' := hs
    obtain ⟨-, v, hv, harr⟩ := hs'
    cases hf : fieldName e with
    | some f =>
      rw [hf] at hp
      have h' : some (Value.bool (decide (v = .null))) = some (.bool b) := by rw [← h, sqlEval, hv]; rfl
      injection h' with h'
      injection h' with h'
      rw [sqlEval_fieldName hf] at hv
      rw [exprToFilter_isNull hf]
      refine ⟨_, rfl, distinctKeys_one _ _, ?_⟩
      rw [satisfies_field hp hv harr, fieldHolds_scalar (show Scalar .null from trivial), h']
    | none =>
      rw [hf] at hp
      obtain ⟨j, hj, hev⟩ := @aggExpr_exact sv today d (.isNull e) _ hp hs h
      obtain ⟨je, hje, hj⟩ := bind_clean.1 hj
      rw [exprToFilter_isNull_expr hf]
      refine ⟨.doc [("$expr", j)], bind_clean.2 ⟨je, hje, ?_⟩, distinctKeys_one _ _, satisfies_expr hev⟩
      rw [pure_clean.1 hj]
      rfl
  | .isNotNull e, b, hp, hs, h => by
    rw [PlainFilter] at hp
    have hs' := hs
    obtain ⟨-, v, hv, harr⟩ := hs'
    cases hf : fieldName e with
    | some f =>
      rw [hf] at hp
      have h' : some (Value.bool (!decide (v = .null))) = some (.bool b) := by rw [← h, sqlEval, hv]; rfl
      injection h' with h'
      injection h' with h'
      rw [sqlEval_fieldName hf] at hv
      rw [exprToFilter_isNotNull hf]
      refine ⟨_, rfl, distinctKeys_one _ _, (satisfies_field hp hv harr).trans (fieldHolds_op (by decide) ?_)⟩
      rw [← h']
      simp [operatorHolds, sameValue]
    | none =>
      rw [hf] at hp
      obtain ⟨j, hj, hev⟩ := @aggExpr_exact sv today d (.isNotNull e) _ hp hs h
      obtain ⟨je, hje, hj⟩ := bind_clean.1 hj
      rw [exprToFilter_isNotNull_expr hf]
      refine ⟨.doc [("$expr", j)], bind_clean.2 ⟨je, hje, ?_⟩, distinctKeys_one _ _, satisfies_expr hev⟩
      rw [pure_clean.1 hj]
      rfl
  | .between e negated low high, b, hp, hs, h => by
    rw [PlainFilter] at hp
    cases hf : fieldName e with
    | some f =>
      rw [hf] at hp
      obtain ⟨hpf, ⟨hll, hpl⟩, hlh, hph⟩ := hp
      obtain ⟨-, ⟨v, hv, hkv⟩, -, ⟨l, hl, hkl⟩, -, ⟨u, hu, hku⟩⟩ := hs
      rw [sqlEval, hv, hl, hu, Option.bind_some, Option.bind_some, Option.bind_some] at h
      obtain ⟨p, hge, h⟩ := Option.bind_eq_some_iff.1 h
      obtain ⟨q, hle, h⟩ := Option.bind_eq_some_iff.1 h
      obtain ⟨t, ht, h⟩ := Option.bind_eq_some_iff.1 h
      obtain ⟨hrl, rfl⟩ := sqlCompare_known hkv hkl hge
      obtain ⟨hru, rfl⟩ := sqlCompare_known hkv hku hle
      obtain ⟨x, y, hx, hy, rfl⟩ := sqlAnd_known (known_bool _) (known_bool _) ht
      injection hx with hx
      injection hy with hy
      have hb := negateTruth_bool h
      obtain ⟨hjl, -⟩ := @operand_exact today _ _ _ hpl hll hl hkl
      obtain ⟨hjh, -⟩ := @operand_exact today _ _ _ hph hlh hu hku
      rw [sqlEval_fieldName hf] at hv
      rw [exprToFilter_between hf]
      cases negated with
      | false =>
        refine ⟨_, bind_clean.2 ⟨l, hjl, bind_clean.2 ⟨u, hjh, rfl⟩⟩, distinctKeys_one _ _, ?_⟩
        rw [satisfies_field hpf hv hkv.2, hb, ← hx, ← hy]
        simp [fieldHolds, operatorsHold, operatorHolds, ordered, ← hrl, ← hru, isOperator]
      | true =>
        refine ⟨_, bind_clean.2 ⟨l, hjl, bind_clean.2 ⟨u, hjh, rfl⟩⟩, distinctKeys_one _ _, ?_⟩
        have hlt : satisfies sv (.doc [(f, .doc [("$lt", l)])]) d = some (!x) := by
          refine (satisfies_field hpf hv hkv.2).trans (fieldHolds_op (by decide) ?_)
          rw [← hx]
          cases hc : v.cmp l <;> simp [operatorHolds, ordered, hrl, hc]
        have hgt : satisfies sv (.doc [(f, .doc [("$gt", u)])]) d = some (!y) := by
          refine (satisfies_field hpf hv hkv.2).trans (fieldHolds_op (by decide) ?_)
          rw [← hy]
          cases hc : v.cmp u <;> simp [operatorHolds, ordered, hru, hc]
        rw [satisfies_or hlt hgt, hb]
        cases x <;> cases y <;> rfl
    | none =>
      rw [hf] at hp
      rw [exprToFilter_between_expr hf]
      exact exprFilter_exact hp hs h
  | .identifier i, b, hp, hs, h => exprFilter_exact (e := .identifier i) hp hs h
  | .compoundIdentifier is, b, hp, hs, h => exprFilter_exact (e := .compoundIdentifier is) hp hs h
  | .value v, b, hp, hs, h => exprFilter_exact (e := .value v) hp hs h
  | .unaryOp op e, b, hp, hs, h => exprFilter_exact (e := .unaryOp op e) hp hs h
  | .like c n e p u, b, hp, hs, h => exprFilter_exact (e := .like c n e p u) hp hs h
  | .function n args f, b, hp, hs, h => exprFilter_exact (e := .function n args f) hp hs h
  | .other t, b, hp, hs, h => exprFilter_exact (e := .other t) hp hs h

end Sql
