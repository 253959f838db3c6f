import NosqlBuddy.Vqb.Reopen

/-!
# The round trip of the query builder

What the builder makes of a value it makes of it again (`parseScalarValue_parsed`, `parseArrayValue_parsed`), on any later
day. So a built filter is opened and built as itself, but for the conditions that `ConditionReopens` excludes: operators whose
absent value is refused or replaced, numbers that are no JSON, and fields with the name of a top-level operator
(`reopen_iff`).
-/

namespace Vqb
open Mongo
open Mongo.Value

variable {today today' : ℤ} {reader : JsonReader}

/-! ## Values are settled -/

theorem hash_notMem_toDigits (n : ℕ) : '#' ∉ Nat.toDigits 10 n := by
  intro h
  have hdigit := Nat.isDigit_of_mem_toDigits (by decide) (by decide) h
  exact absurd hdigit (by decide)

theorem head_toString (ms : ℤ) (tag : List Char) : (toString ms).toList ≠ '#' :: tag := by
  intro h
  have hmem : '#' ∈ (toString ms).toList := by
    rw [h]
    exact List.mem_cons_self
  cases ms with
  | ofNat n =>
    have hrepr : (toString (Int.ofNat n)).toList = Nat.toDigits 10 n := Nat.toList_repr
    rw [hrepr] at hmem
    exact hash_notMem_toDigits n hmem
  | negSucc n =>
    have hrepr : (toString (Int.negSucc n)).toList = '-' :: Nat.toDigits 10 (n + 1) := by
      have hcons : (toString (Int.negSucc n)) = "-" ++ Nat.repr (n + 1) := rfl
      rw [hcons, String.toList_append, Nat.toList_repr]
      rfl
    rw [hrepr] at hmem
    rcases List.mem_cons.1 hmem with he | hm
    · exact absurd he (by decide)
    · exact hash_notMem_toDigits _ hm

theorem expandDateTags_text (s : String) : expandDateTags today (.str s) =
    match s.toList with
    | '#' :: tag =>
      match Sql.resolveDateTag today (String.ofList tag) with
      | some ms => Sql.dateToExtjson ms
      | none => .str s
    | _ => .str s := rfl

theorem expandDateTags_tag (h : s.toList = '#' :: tag) : expandDateTags today (.str s) =
    match Sql.resolveDateTag today (String.ofList tag) with
    | some ms => Sql.dateToExtjson ms
    | none => .str s := by
  rw [expandDateTags_text, h]
  rfl

theorem expandDateTags_str (h : ∀ tag, s.toList ≠ '#' :: tag) : expandDateTags today (.str s) = .str s := by
  rw [expandDateTags_text]
  split
  · next tag ht => exact absurd ht (h tag)
  · rfl

theorem resolveDateTag_none : Sql.resolveDateTag today tag = none ↔ Sql.resolveDateTag today' tag = none := by
  unfold Sql.resolveDateTag
  dsimp only
  split_ifs <;> simp

theorem expandDateTags_date (ms : ℤ) : expandDateTags today (Sql.dateToExtjson ms) = Sql.dateToExtjson ms := by
  have hlong : expandDateTags today (.str (toString ms)) = .str (toString ms) := expandDateTags_str (head_toString ms)
  exact congrArg (fun v => Value.doc [("$date", .doc [("$numberLong", v)])]) hlong

theorem expandDateTags_cases (today : ℤ) (s : String) :
    (∃ ms, expandDateTags today (.str s) = Sql.dateToExtjson ms) ∨ ∀ today', expandDateTags today' (.str s) = .str s := by
  by_cases ht : ∃ tag, s.toList = '#' :: tag
  · obtain ⟨tag, ht⟩ := ht
    have hsome : ∀ today' ms, Sql.resolveDateTag today' (String.ofList tag) = some ms →
        expandDateTags today' (.str s) = Sql.dateToExtjson ms := by
      intro today' ms hr
      rw [expandDateTags_tag ht, hr]
    have hnone : ∀ today', Sql.resolveDateTag today' (String.ofList tag) = none → expandDateTags today' (.str s) = .str s := by
      intro today' hr
      rw [expandDateTags_tag ht, hr]
    cases hr : Sql.resolveDateTag today (String.ofList tag) with
    | some ms => exact .inl ⟨ms, hsome today ms hr⟩
    | none => exact .inr fun today' => hnone today' (resolveDateTag_none.1 hr)
  · exact .inr fun today' => expandDateTags_str fun tag he => ht ⟨tag, he⟩

mutual

theorem expandDateTags_expanded : ∀ v : Value, expandDateTags today' (expandDateTags today v) = expandDateTags today v
  | .str s => by
    rcases expandDateTags_cases today s with ⟨ms, hms⟩ | hkeep
    · rw [hms, expandDateTags_date]
    · rw [hkeep, hkeep]
  | .doc fs => congrArg Value.doc (expandFields_expanded fs)
  | .arr vs => congrArg Value.arr (expandList_expanded vs)
  | .null => rfl
  | .bool _ => rfl
  | .num _ => rfl

theorem expandList_expanded : ∀ vs : List Value, expandList today' (expandList today vs) = expandList today vs
  | [] => rfl
  | v :: vs => congrArg₂ List.cons (expandDateTags_expanded v) (expandList_expanded vs)

theorem expandFields_expanded : ∀ fs : List (String × Value), expandFields today' (expandFields today fs) = expandFields today fs
  | [] => rfl
  | (k, v) :: fs => congrArg₂ (fun w => List.cons (k, w)) (expandDateTags_expanded v) (expandFields_expanded fs)

end

theorem parseScalarString_str (h : parseScalarString s = .str t) : t = s := by
  unfold parseScalarString at h
  dsimp only at h
  split_ifs at h
  · exact (Value.str.inj h).symm
  · split at h
    · unfold numberToJson at h
      split_ifs at h
    · exact (Value.str.inj h).symm

theorem parseScalarValue_parsed (raw : Value) :
    parseScalarValue today' (parseScalarValue today raw) = parseScalarValue today raw := by
  have hkeep : ∀ v : Value, (∀ s, v ≠ .str s) → parseScalarValue today' (expandDateTags today v) = expandDateTags today v := by
    intro v hv
    have hstr : ∀ s, expandDateTags today v ≠ .str s := by
      intro s
      cases v with
      | str t => exact absurd rfl (hv t)
      | _ => exact fun h => by cases h
    have hsame : parseScalarValue today' (expandDateTags today v) = expandDateTags today' (expandDateTags today v) := by
      unfold parseScalarValue
      split
      · next s hs => exact absurd hs (hstr s)
      · rfl
    rw [hsame, expandDateTags_expanded]
  cases raw with
  | str s =>
    have hfirst : parseScalarValue today (.str s) = expandDateTags today (parseScalarString s) := rfl
    rw [hfirst]
    cases hr : parseScalarString s with
    | str t =>
      cases parseScalarString_str hr
      rcases expandDateTags_cases today s with ⟨ms, hms⟩ | hsame
      · rw [hms]
        exact expandDateTags_date ms
      · rw [hsame]
        have hsecond : parseScalarValue today' (.str s) = expandDateTags today' (parseScalarString s) := rfl
        rw [hsecond, hr, hsame]
    | _ => exact hkeep _ fun s h => by cases h
  | _ => exact hkeep _ fun s h => by cases h

/-- A value that the builder leaves alone on every day. -/
def Parsed (v : Value) : Prop := ∀ today, parseScalarValue today v = v ∧ expandDateTags today v = v

theorem parsed_parseScalarValue (today : ℤ) (raw : Value) : Parsed (parseScalarValue today raw) := by
  intro today'
  refine ⟨parseScalarValue_parsed raw, ?_⟩
  unfold parseScalarValue
  exact expandDateTags_expanded _

theorem parseArrayValue_settled (h : ∀ v ∈ vs, Parsed v) :
    parseArrayValue today reader (.arr vs) = .ok (.arr vs) := by
  have hitems : (vs.map (parseScalarValue today)).map (expandDateTags today) = vs := by
    rw [List.map_map]
    refine (List.map_congr_left fun v hv => ?_).trans (List.map_id vs)
    rw [Function.comp_apply, (h v hv today).1, (h v hv today).2, id]
  exact congrArg (fun items => Except.ok (Value.arr items)) hitems

theorem parseArrayValue_ok (h : parseArrayValue today reader raw = .ok v) :
    ∃ vs, v = .arr vs ∧ ∀ v ∈ vs, Parsed v := by
  have hvalues : ∀ ws : List Value, ∀ v ∈ (ws.map (parseScalarValue today)).map (expandDateTags today), Parsed v := by
    intro ws v hv
    rw [List.map_map] at hv
    obtain ⟨w, -, rfl⟩ := List.mem_map.1 hv
    rw [Function.comp_apply, (parsed_parseScalarValue today w today).2]
    exact parsed_parseScalarValue today w
  have htexts : ∀ parts : List (List Char),
      ∀ v ∈ (parts.map fun part => parseScalarString (String.ofList part)).map (expandDateTags today), Parsed v := by
    intro parts v hv
    rw [List.map_map] at hv
    obtain ⟨part, -, rfl⟩ := List.mem_map.1 hv
    exact parsed_parseScalarValue today (.str (String.ofList part))
  cases raw with
  | arr ws =>
    cases h
    exact ⟨_, rfl, hvalues ws⟩
  | str s =>
    unfold parseArrayValue at h
    dsimp only at h
    split_ifs at h
    · split at h
      · cases h
        exact ⟨_, rfl, hvalues _⟩
      · cases h
    · cases h
      exact ⟨_, rfl, htexts _⟩
  | null | bool _ | num _ | doc _ => cases h

theorem parseJsonObjectValue_ok (h : parseJsonObjectValue reader raw operator = .ok v) :
    ∃ fs, v = .doc fs := by
  cases raw with
  | doc fs =>
    cases h
    exact ⟨fs, rfl⟩
  | str s =>
    unfold parseJsonObjectValue at h
    dsimp only at h
    split_ifs at h
    split at h
    · cases h
    · cases h
      exact ⟨_, rfl⟩
    · cases h
  | null | bool _ | num _ | arr _ => cases h

theorem parseModValue_ok (h : parseModValue reader raw = .ok v) :
    ∃ a b, v = .arr [coerceToNumber a, coerceToNumber b] := by
  unfold parseModValue at h
  split at h
  · cases h
    exact ⟨_, _, rfl⟩
  · split at h
    · cases h
      exact ⟨_, _, rfl⟩
    · cases h
  · cases h

/-- A number stays one, and so does a text that is none; what JSON has no number for becomes null, and then 0. -/
theorem coerceToNumber_coerced (raw : Value) :
    coerceToNumber (coerceToNumber raw) = coerceToNumber raw ↔ coerceToNumber raw ≠ .null := by
  have hkeep : ∀ v : Value, v = coerceToNumber raw → (v ≠ .null → coerceToNumber v = v) := by
    intro v hv hne
    cases raw with
    | str s =>
      have hcases : coerceToNumber (.str s) = .str s ∨ coerceToNumber (.str s) = .null ∨ ∃ q, coerceToNumber (.str s) = .num q := by
        rw [coerceToNumber]
        split
        · exact .inr (.inr ⟨_, rfl⟩)
        · split
          · exact .inr (.inr ⟨_, rfl⟩)
          · exact .inr (.inl rfl)
          · exact .inl rfl
      rcases hcases with he | he | ⟨q, he⟩
      · rw [hv, he, he]
      · exact absurd (hv.trans he) hne
      · rw [hv, he]
        rfl
    | null | bool _ | num _ | arr _ | doc _ =>
      rw [hv]
      rfl
  constructor
  · intro h hnull
    rw [hnull] at h
    cases h
  · exact hkeep _ rfl

theorem coerceToStringOrNumber_coerced (raw : Value) :
    coerceToStringOrNumber (coerceToStringOrNumber raw) = coerceToStringOrNumber raw := by
  cases raw with
  | str s =>
    have hcases : coerceToStringOrNumber (.str s) = .str s ∨ ∃ q, coerceToStringOrNumber (.str s) = .num q := by
      rw [coerceToStringOrNumber]
      split
      · exact .inr ⟨_, rfl⟩
      · exact .inl rfl
    rcases hcases with he | ⟨q, he⟩
    · rw [he, he]
    · rw [he]
      rfl
  | null | bool _ | num _ | arr _ | doc _ => rfl

/-! ## Conditions -/

/-- The operators that refuse or replace an absent value when they read it again. -/
def needsValue : List String := ["exists", "size", "in", "nin", "elem_match", "mod", "expr", "json_schema"]

/-- The value is there where the operator needs it, and its numbers are numbers of JSON. -/
def Settles (reader : JsonReader) (operator : String) (value : Option Value) : Prop :=
  match value with
  | none => operator ∉ needsValue
  | some raw => (operator = "size" → coerceToNumber raw ≠ .null) ∧
      (operator = "mod" → ∀ a b, parseModValue reader raw = .ok (.arr [a, b]) → a ≠ .null ∧ b ≠ .null)

/-- The operators whose value is not one scalar. -/
def shaped : List String := ["exists", "type", "size", "in", "nin", "expr", "json_schema", "elem_match", "mod"]

theorem parseConditionValue_scalar (h : operator ∉ shaped) (raw : Value) :
    parseConditionValue today reader (some raw) operator = .ok (parseScalarValue today raw) := by
  simp only [shaped, List.mem_cons, List.not_mem_nil, or_false, not_or] at h
  obtain ⟨h1, h2, h3, h4, h5, h6, h7, h8, h9⟩ := h
  simp only [parseConditionValue]

theorem parseConditionValue_array (h : operator = "in" ∨ operator = "nin") (raw : Value) :
    parseConditionValue today reader (some raw) operator = parseArrayValue today reader raw := by
  rcases h with rfl | rfl <;> rfl

theorem parseConditionValue_object (h : operator ∈ ["expr", "json_schema", "elem_match"]) (raw : Value) :
    parseConditionValue today reader (some raw) operator = parseJsonObjectValue reader raw operator := by
  simp only [List.mem_cons, List.not_mem_nil, or_false] at h
  rcases h with rfl | rfl | rfl <;> rfl

theorem parseConditionValue_null (operator : String) :
    parseConditionValue today' reader (some .null) operator = .ok .null ↔ operator ∉ needsValue := by
  by_cases hs : operator ∈ shaped
  · simp only [shaped, List.mem_cons, List.not_mem_nil, or_false] at hs
    rcases hs with rfl | rfl | rfl | rfl | rfl | rfl | rfl | rfl | rfl
    · exact iff_of_false (fun h => by cases h) (by decide)
    · exact iff_of_true rfl (by decide)
    all_goals exact iff_of_false (fun h => by cases h) (by decide)
  · rw [parseConditionValue_scalar hs]
    refine iff_of_true rfl fun hn => hs ?_
    simp only [needsValue, List.mem_cons, List.not_mem_nil, or_false] at hn
    rcases hn with rfl | rfl | rfl | rfl | rfl | rfl | rfl | rfl <;> decide

theorem parseConditionValue_again (h : parseConditionValue today reader value operator = .ok v) :
    parseConditionValue today' reader (some v) operator = .ok v ↔ Settles reader operator value := by
  cases value with
  | none =>
    cases h
    exact parseConditionValue_null operator
  | some raw =>
    have hplain : operator ≠ "size" → operator ≠ "mod" → Settles reader operator (some raw) := fun hsize hmod =>
      ⟨fun he => absurd he hsize, fun he => absurd he hmod⟩
    by_cases hs : operator ∈ shaped
    · simp only [shaped, List.mem_cons, List.not_mem_nil, or_false] at hs
      rcases hs with rfl | rfl | rfl | harray | harray | hobject | hobject | hobject | rfl
      · refine iff_of_true ?_ (hplain (by decide) (by decide))
        cases raw <;> cases h <;> rfl
      · cases h
        refine iff_of_true ?_ (hplain (by decide) (by decide))
        exact congrArg Except.ok (coerceToStringOrNumber_coerced raw)
      · cases h
        have hiff := coerceToNumber_coerced raw
        constructor
        · intro hv
          exact ⟨fun _ => hiff.1 (Except.ok.inj hv), fun he => absurd he (by decide)⟩
        · rintro ⟨hsize, -⟩
          exact congrArg Except.ok (hiff.2 (hsize rfl))
      · rw [parseConditionValue_array (.inl harray)] at h
        obtain ⟨vs, rfl, hvs⟩ := parseArrayValue_ok h
        rw [parseConditionValue_array (.inl harray), parseArrayValue_settled hvs, harray]
        exact iff_of_true rfl ⟨fun he => absurd he (by decide), fun he => absurd he (by decide)⟩
      · rw [parseConditionValue_array (.inr harray)] at h
        obtain ⟨vs, rfl, hvs⟩ := parseArrayValue_ok h
        rw [parseConditionValue_array (.inr harray), parseArrayValue_settled hvs, harray]
        exact iff_of_true rfl ⟨fun he => absurd he (by decide), fun he => absurd he (by decide)⟩
      all_goals first
        | (subst hobject
           obtain ⟨fs, rfl⟩ := parseJsonObjectValue_ok h
           exact iff_of_true rfl (hplain (by decide) (by decide)))
        | skip
      have hmod : parseModValue reader raw = .ok v := h
      obtain ⟨a, b, rfl⟩ := parseModValue_ok hmod
      have hiff : parseConditionValue today' reader (some (.arr [coerceToNumber a, coerceToNumber b])) "mod" =
          .ok (.arr [coerceToNumber a, coerceToNumber b]) ↔ coerceToNumber a ≠ .null ∧ coerceToNumber b ≠ .null := by
        rw [← coerceToNumber_coerced a, ← coerceToNumber_coerced b]
        constructor
        · intro hv
          obtain ⟨ha, hrest⟩ := List.cons.inj (Value.arr.inj (Except.ok.inj hv))
          exact ⟨ha, (List.cons.inj hrest).1⟩
        · rintro ⟨ha, hb⟩
          have hagain : parseConditionValue today' reader (some (.arr [coerceToNumber a, coerceToNumber b])) "mod" =
              .ok (.arr [coerceToNumber (coerceToNumber a), coerceToNumber (coerceToNumber b)]) := rfl
          rw [hagain, ha, hb]
      rw [hiff]
      constructor
      · intro hne
        refine ⟨fun he => absurd he (by decide), fun _ a' b' he => ?_⟩
        rw [hmod] at he
        cases he
        exact hne
      · rintro ⟨-, hne⟩
        exact hne rfl _ _ hmod
    · rw [parseConditionValue_scalar hs] at h
      cases h
      rw [parseConditionValue_scalar hs, parseScalarValue_parsed]
      refine iff_of_true rfl (hplain ?_ ?_) <;>
      · rintro rfl
        exact hs (by decide)

/-- Where the value of a condition stands in its filter. -/
def conditionFilter (field mongoOp : String) (v : Value) : Value :=
  if mongoOp = "$text" then single "$text" (single "$search" v)
  else if mongoOp = "$expr" ∨ mongoOp = "$jsonSchema" then single mongoOp v
  else single field (single mongoOp v)

theorem single_inj (h : single k v = single k w) : v = w :=
  (Prod.mk.inj (List.cons.inj (Value.doc.inj h)).1).2

theorem conditionFilter_inj (h : conditionFilter field m v = conditionFilter field m w) : v = w := by
  unfold conditionFilter at h
  split_ifs at h
  · exact single_inj (single_inj h)
  · exact single_inj h
  · exact single_inj (single_inj h)

theorem buildCondition_eq (hm : mongoOperator operator = .ok m) (hnull : operator ≠ "is_null")
    (hnot : operator ≠ "is_not_null") (field : String) (value : Option Value) : buildCondition today reader field operator value =
      (parseConditionValue today reader value operator).map (conditionFilter field m) := by
  unfold buildCondition conditionFilter
  rw [hm]
  cases parseConditionValue today reader value operator with
  | error e => rfl
  | ok v =>
    show (if m = "$text" then _ else if _ then _ else if operator = "is_null" then _ else if operator = "is_not_null" then _ else _) = _
    rw [if_neg hnull, if_neg hnot]
    split_ifs <;> rfl

theorem mongoOperator_cases (h : mongoOperator operator = .ok m) :
    operator = "is_null" ∨ operator = "is_not_null" ∨ operator = "text" ∧ m = "$text" ∨ operator = "expr" ∧ m = "$expr" ∨
      operator = "json_schema" ∧ m = "$jsonSchema" ∨
      operator ∉ ["text", "expr", "json_schema", "is_null", "is_not_null"] ∧ m ∉ ["$text", "$expr", "$jsonSchema"] ∧
        mongoToVqbOp m = some operator := by
  unfold mongoOperator at h
  split at h <;> cases h <;> decide

/-! ## Built, opened and built again -/

theorem buildFilter_read (h : isBlank field = false) (v : Value) :
    buildFilter today reader (readCondition field operator v) = buildCondition today reader field operator (some v) := by
  rw [readCondition, buildFilter_condition, h]
  rfl

theorem reopen_single (h : ∀ vs, v ≠ .arr vs) :
    reopen today reader (single k v) = reopenEntry today reader k v := by
  have hgroup : firstGroup (arrayNodes [(k, v)]) = none := by
    cases v with
    | arr vs => exact absurd rfl (h vs)
    | _ => rfl
  rw [reopenEntry]
  cases he : entryCondition k v with
  | none =>
    refine reopen_none ?_
    rw [single, fromFilterValue_flat hgroup]
    simp only [List.filterMap_cons, he, List.filterMap_nil, conditionsNode]
  | some node =>
    refine reopen_some ?_
    rw [single, fromFilterValue_flat hgroup]
    simp only [List.filterMap_cons, he, List.filterMap_nil, conditionsNode]

theorem single_ne_arr (k : String) (v : Value) (vs : List Value) : single k v ≠ .arr vs := by
  intro h
  cases h

/-- The conditions that are opened as they were built. -/
def ConditionReopens (reader : JsonReader) (field operator : String) (value : Option Value) : Prop :=
  if operator = "is_null" then field ∉ ["$text", "$expr", "$jsonSchema"]
  else if operator = "is_not_null" then field ≠ "$text"
  else if operator ∈ ["text", "expr", "json_schema"] then Settles reader operator value
  else field ∈ ["$expr", "$jsonSchema"] ∨ field ≠ "$text" ∧ Settles reader operator value

theorem entryCondition_field (h : field ∉ ["$text", "$expr", "$jsonSchema"]) (v : Value) :
    entryCondition field v = conditionFromFieldValue field v := by
  simp only [List.mem_cons, List.not_mem_nil, or_false, not_or] at h
  unfold entryCondition
  rw [if_neg h.1, if_neg h.2.1, if_neg h.2.2]

/-- A field condition is read under the name of its operator, but for the fields that are top-level operators. -/
theorem reopen_field (hblank : isBlank field = false) (hm : mongoToVqbOp m = some operator)
    (hfield : field ∉ ["$text", "$expr", "$jsonSchema"]) (v : Value) :
    reopen today reader (single field (single m v)) = buildCondition today reader field operator (some v) := by
  have hread : conditionFromFieldValue field (single m v) = some (readCondition field operator v) := by
    rw [single, conditionFromFieldValue, hm]
    rfl
  rw [reopen_single (single_ne_arr m v), reopenEntry, entryCondition_field hfield, hread]
  exact buildFilter_read hblank v

theorem reopenEntry_expr (v : Value) : reopenEntry today reader "$expr" v =
    (parseConditionValue today reader (some v) "expr").map (single "$expr") := by
  have hread : entryCondition "$expr" v = some (readCondition "$expr" "expr" v) := rfl
  rw [reopenEntry, hread]
  refine (buildFilter_read (by decide) v).trans ?_
  rw [buildCondition_eq (m := "$expr") rfl (by decide) (by decide)]
  rfl

theorem reopenEntry_schema (v : Value) : reopenEntry today reader "$jsonSchema" v =
    (parseConditionValue today reader (some v) "json_schema").map (single "$jsonSchema") := by
  have hread : entryCondition "$jsonSchema" v = some (readCondition "$jsonSchema" "json_schema" v) := rfl
  rw [reopenEntry, hread]
  refine (buildFilter_read (by decide) v).trans ?_
  rw [buildCondition_eq (m := "$jsonSchema") rfl (by decide) (by decide)]
  rfl

theorem reopen_expr (h : ∀ vs, v ≠ .arr vs) : reopen today reader (single "$expr" v) =
    (parseConditionValue today reader (some v) "expr").map (conditionFilter "$expr" "$expr") :=
  (reopen_single h).trans (reopenEntry_expr v)

theorem reopen_schema (h : ∀ vs, v ≠ .arr vs) : reopen today reader (single "$jsonSchema" v) =
    (parseConditionValue today reader (some v) "json_schema").map (conditionFilter "$jsonSchema" "$jsonSchema") :=
  (reopen_single h).trans (reopenEntry_schema v)

theorem reopen_expression {k : String} (hk : k ∈ ["$expr", "$jsonSchema"]) {v : Value} (h : ∀ vs, v ≠ .arr vs) :
    ∃ operator ∈ ["expr", "json_schema"],
      reopen today reader (single k v) = (parseConditionValue today reader (some v) operator).map (single k) := by
  simp only [List.mem_cons, List.not_mem_nil, or_false] at hk
  rcases hk with rfl | rfl
  · exact ⟨"expr", by decide, reopen_expr h⟩
  · exact ⟨"json_schema", by decide, reopen_schema h⟩

theorem parseConditionValue_ne_arr (hop : operator ∈ ["expr", "json_schema", "elem_match"]) (h : parseConditionValue today reader value operator = .ok v) (vs : List Value) : v ≠ .arr vs := by
  cases value with
  | none =>
    cases h
    exact fun he => by cases he
  | some raw =>
    rw [parseConditionValue_object hop] at h
    obtain ⟨fs, rfl⟩ := parseJsonObjectValue_ok h
    exact fun he => by cases he

theorem reopen_textField (h : ∀ fs, v = .doc fs → fs.lookup "$search" = none) (harr : ∀ vs, v ≠ .arr vs) :
    reopen today reader (single "$text" v) = .ok emptyFilter := by
  have hnone : entryCondition "$text" v = none := by
    cases v with
    | doc fs =>
      have hsearch : entryCondition "$text" (.doc fs) = (fs.lookup "$search").map fun search => readCondition "$text" "text" search := rfl
      rw [hsearch, h fs rfl]
      rfl
    | _ => rfl
  rw [reopen_single harr, reopenEntry, hnone]

theorem reopen_search (v : Value) : reopen today reader (single "$text" (single "$search" v)) =
    buildCondition today reader "$text" "text" (some v) := by
  rw [reopen_single (single_ne_arr _ _), reopenEntry]
  exact buildFilter_read (by decide) v

theorem map_ok_iff {f : Value → Value} (hf : ∀ v w, f v = f w → v = w) {r : Except VqbError Value} {v : Value} :
    r.map f = .ok (f v) ↔ r = .ok v := by
  cases r with
  | error e => exact iff_of_false (fun h => by cases h) fun h => by cases h
  | ok w =>
    constructor
    · intro h
      rw [hf w v (Except.ok.inj h)]
    · intro h
      rw [Except.ok.inj h]
      rfl

theorem reopen_null {field : String} (hblank : isBlank field = false) :
    reopen today reader (single field .null) = .ok (single field .null) ↔ field ∉ ["$text", "$expr", "$jsonSchema"] := by
  by_cases htext : field = "$text"
  · subst htext
    rw [reopen_textField (fun fs h => by cases h) fun vs h => by cases h]
    exact iff_of_false (fun h => by cases h) (by decide)
  · by_cases hexpr : field ∈ ["$expr", "$jsonSchema"]
    · obtain ⟨operator, hop, hr⟩ := @reopen_expression today reader _ hexpr .null fun vs h => by cases h
      rw [hr, map_ok_iff fun v w => single_inj]
      refine iff_of_false (fun h => ?_) fun h => h (List.mem_cons_of_mem _ hexpr)
      refine (parseConditionValue_null operator).1 h ?_
      simp only [List.mem_cons, List.not_mem_nil, or_false] at hop
      rcases hop with rfl | rfl <;> decide
    · have hfield : field ∉ ["$text", "$expr", "$jsonSchema"] := by
        intro h
        rcases List.mem_cons.1 h with h | h
        · exact htext h
        · exact hexpr h
      refine iff_of_true ?_ hfield
      have hread : conditionFromFieldValue field .null = some (readCondition field "is_null" .null) := rfl
      rw [reopen_single (fun vs h => by cases h), reopenEntry, entryCondition_field hfield, hread]
      exact (buildFilter_read hblank _).trans rfl

theorem buildCondition_isNull (h : buildCondition today reader field "is_null" value = .ok f) : f = single field .null := by
  cases value <;> exact (Except.ok.inj h).symm

theorem buildCondition_isNotNull (h : buildCondition today reader field "is_not_null" value = .ok f) : f = single field (single "$ne" .null) := by
  cases value <;> exact (Except.ok.inj h).symm

/-- An operator of a field called like a top-level expression is kept as the operand of that expression. -/
theorem reopen_misread (h : field ∈ ["$expr", "$jsonSchema"]) :
    reopen today reader (single field (single m v)) = .ok (single field (single m v)) := by
  obtain ⟨operator, hop, hr⟩ := @reopen_expression today reader _ h _ (single_ne_arr m v)
  rw [hr, parseConditionValue_object (by simp only [List.mem_cons, List.not_mem_nil, or_false] at hop ⊢; tauto)]
  rfl

theorem lookup_search (h : mongoToVqbOp m = some operator) (v : Value) (fs : List (String × Value))
    (hfs : single m v = .doc fs) : fs.lookup "$search" = none := by
  have hne : m ≠ "$search" := by
    rintro rfl
    cases h
  cases hfs
  rw [List.lookup_cons, beq_false_of_ne hne.symm]
  rfl

theorem mongoOperator_of_built (h : buildCondition today reader field operator value = .ok f) : ∃ m, mongoOperator operator = .ok m := by
  unfold buildCondition at h
  cases hm : mongoOperator operator with
  | ok m => exact ⟨m, rfl⟩
  | error e =>
    rw [hm] at h
    cases h

theorem reopen_condition {field operator : String} {value : Option Value} {f : Value} (hblank : isBlank field = false)
    (h : buildCondition today reader field operator value = .ok f) :
    reopen today' reader f = .ok f ↔ ConditionReopens reader field operator value := by
  obtain ⟨m, hm⟩ := mongoOperator_of_built h
  by_cases hnull : operator = "is_null"
  · subst hnull
    rw [buildCondition_isNull h, reopen_null hblank, ConditionReopens, if_pos rfl]
  by_cases hnot : operator = "is_not_null"
  · subst hnot
    rw [buildCondition_isNotNull h, ConditionReopens, if_neg (by decide), if_pos rfl]
    by_cases htext : field = "$text"
    · subst htext
      rw [reopen_textField (fun fs hfs => by cases hfs; rfl) (single_ne_arr _ _)]
      exact iff_of_false (fun he => by cases he) fun hne => hne rfl
    · refine iff_of_true ?_ htext
      by_cases hexpr : field ∈ ["$expr", "$jsonSchema"]
      · exact reopen_misread hexpr
      · have hne : mongoToVqbOp "$ne" = some "ne" := rfl
        rw [reopen_field hblank hne (List.not_mem_cons_of_ne_of_not_mem htext hexpr)]
        rfl
  rw [buildCondition_eq hm hnull hnot] at h
  cases hv : parseConditionValue today reader value operator with
  | error e =>
    rw [hv] at h
    cases h
  | ok v =>
    rw [hv] at h
    have hf : f = conditionFilter field m v := (Except.ok.inj h).symm
    have hagain : (parseConditionValue today' reader (some v) operator).map (conditionFilter field m) = .ok f ↔
        Settles reader operator value := by
      rw [hf, map_ok_iff fun v w => conditionFilter_inj, parseConditionValue_again hv]
    rw [ConditionReopens, if_neg hnull, if_neg hnot]
    rcases mongoOperator_cases hm with he | he | ⟨rfl, rfl⟩ | ⟨rfl, rfl⟩ | ⟨rfl, rfl⟩ | ⟨hop, htop, hbound⟩
    · exact absurd he hnull
    · exact absurd he hnot
    · rw [if_pos (by decide), ← hagain, hf]
      exact iff_of_eq (congrArg (· = _) ((reopen_search v).trans (buildCondition_eq hm (by decide) (by decide) _ _)))
    · rw [if_pos (by decide), ← hagain, hf]
      exact iff_of_eq (congrArg (· = _) (reopen_expr (parseConditionValue_ne_arr (by decide) hv)))
    · rw [if_pos (by decide), ← hagain, hf]
      exact iff_of_eq (congrArg (· = _) (reopen_schema (parseConditionValue_ne_arr (by decide) hv)))
    · simp only [List.mem_cons, List.not_mem_nil, or_false, not_or] at hop htop
      have hshape : f = single field (single m v) := by
        rw [hf, conditionFilter, if_neg htop.1, if_neg (not_or.2 htop.2)]
      rw [if_neg (by simp [hop])]
      by_cases htext : field = "$text"
      · subst htext
        rw [hshape, reopen_textField (lookup_search hbound v) (single_ne_arr _ _)]
        exact iff_of_false (fun he => by cases he) (by simp)
      · by_cases hexpr : field ∈ ["$expr", "$jsonSchema"]
        · rw [hshape, reopen_misread hexpr]
          exact iff_of_true rfl (.inl hexpr)
        · rw [← hagain, ← buildCondition_eq hm hnull hnot, hshape,
            reopen_field hblank hbound (List.not_mem_cons_of_ne_of_not_mem htext hexpr)]
          exact ⟨fun he => .inr ⟨htext, he⟩, fun he => (he.resolve_left hexpr).2⟩

/-- What a built condition can be opened as: itself, nothing, everything, or the same operator with another value. -/
theorem reopen_condition_cases (hblank : isBlank field = false)
    (h : buildCondition today reader field operator value = .ok f) (hg : reopen today' reader f = .ok g) :
    g = f ∨ (g = emptyFilter ∧ ∃ v, (∀ vs, v ≠ .arr vs) ∧ f = single "$text" v) ∨
      ∃ m v w, mongoToVqbOp m = some operator ∧ f = single field (single m v) ∧ g = single field (single m w) := by
  have hself : reopen today' reader f = .ok f → g = f := fun hf => Except.ok.inj (hg.symm.trans hf)
  by_cases hreopens : ConditionReopens reader field operator value
  · exact .inl (hself ((reopen_condition hblank h).2 hreopens))
  unfold ConditionReopens at hreopens
  by_cases hnull : operator = "is_null"
  · subst hnull
    rw [if_pos rfl, not_not] at hreopens
    cases buildCondition_isNull h
    have hnone : ∀ vs, Value.null ≠ .arr vs := fun vs hvs => by cases hvs
    rcases List.mem_cons.1 hreopens with rfl | hexpr
    · rw [reopen_textField (fun fs hfs => by cases hfs) hnone] at hg
      exact .inr (.inl ⟨(Except.ok.inj hg).symm, .null, hnone, rfl⟩)
    · obtain ⟨operator, hop, hr⟩ := @reopen_expression today' reader _ hexpr _ hnone
      rw [hr, parseConditionValue_object (by simp only [List.mem_cons, List.not_mem_nil, or_false] at hop ⊢; tauto)] at hg
      cases hg
  by_cases hnot : operator = "is_not_null"
  · subst hnot
    rw [if_neg (by decide), if_pos rfl, not_not] at hreopens
    subst hreopens
    cases buildCondition_isNotNull h
    rw [reopen_textField (fun fs hfs => by cases hfs; rfl) (single_ne_arr _ _)] at hg
    exact .inr (.inl ⟨(Except.ok.inj hg).symm, _, single_ne_arr _ _, rfl⟩)
  rw [if_neg hnull, if_neg hnot] at hreopens
  obtain ⟨m, hm⟩ := mongoOperator_of_built h
  rw [buildCondition_eq hm hnull hnot] at h
  cases hv : parseConditionValue today reader value operator with
  | error e =>
    rw [hv] at h
    cases h
  | ok v =>
    rw [hv] at h
    have hf : f = conditionFilter field m v := (Except.ok.inj h).symm
    -- an operand that is there settles, an absent one is refused
    have hoperand : ∀ {operator : String}, operator ∈ ["text", "expr", "json_schema"] → ∀ raw, Settles reader operator (some raw) := by
      intro operator hop raw
      simp only [List.mem_cons, List.not_mem_nil, or_false] at hop
      rcases hop with rfl | rfl | rfl <;> exact ⟨fun he => absurd he (by decide), fun he => absurd he (by decide)⟩
    rcases mongoOperator_cases hm with he | he | ⟨rfl, rfl⟩ | ⟨rfl, rfl⟩ | ⟨rfl, rfl⟩ | ⟨hop, htop, hbound⟩
    · exact absurd he hnull
    · exact absurd he hnot
    · rw [if_pos (by decide)] at hreopens
      cases value with
      | none => exact absurd (by decide : "text" ∉ needsValue) hreopens
      | some raw => exact absurd (hoperand (by decide) raw) hreopens
    · rw [if_pos (by decide)] at hreopens
      cases value with
      | none =>
        cases hv
        rw [hf] at hg
        have hrefused := (reopen_expr fun vs hvs => by cases hvs).symm.trans hg
        cases hrefused
      | some raw => exact absurd (hoperand (by decide) raw) hreopens
    · rw [if_pos (by decide)] at hreopens
      cases value with
      | none =>
        cases hv
        rw [hf] at hg
        have hrefused := (reopen_schema fun vs hvs => by cases hvs).symm.trans hg
        cases hrefused
      | some raw => exact absurd (hoperand (by decide) raw) hreopens
    · simp only [List.mem_cons, List.not_mem_nil, or_false, not_or] at hop htop
      have hshape : ∀ w, conditionFilter field m w = single field (single m w) := by
        intro w
        rw [conditionFilter, if_neg htop.1, if_neg (not_or.2 htop.2)]
      rw [hshape] at hf
      rw [if_neg (by simp [hop])] at hreopens
      obtain ⟨hexpr, -⟩ := not_or.1 hreopens
      by_cases htext : field = "$text"
      · subst htext
        rw [hf, reopen_textField (lookup_search hbound v) (single_ne_arr _ _)] at hg
        exact .inr (.inl ⟨(Except.ok.inj hg).symm, _, single_ne_arr _ _, hf⟩)
      · rw [hf, reopen_field hblank hbound (List.not_mem_cons_of_ne_of_not_mem htext hexpr), buildCondition_eq hm hnull hnot] at hg
        cases hw : parseConditionValue today' reader (some v) operator with
        | error e =>
          rw [hw] at hg
          cases hg
        | ok w =>
          rw [hw] at hg
          exact .inr (.inr ⟨m, v, w, hbound, hf, by rw [← hshape]; exact (Except.ok.inj hg).symm⟩)

theorem isOperator_of_bound (h : mongoToVqbOp m = some operator) :
    isOperator m = true ∧ m ≠ "$options" := by
  unfold mongoToVqbOp at h
  split at h <;> cases h <;> decide

theorem operand_eq (hm : mongoToVqbOp m = some operator)
    (h : ∀ (M : Meaning Unit) (d : Unit),
      Matches M (single field (single m w)) d ↔ Matches M (single field (single m v)) d) : w = v := by
  obtain ⟨hoperator, hoptions⟩ := isOperator_of_bound hm
  have hmatch : ∀ x, Matches (D := Unit) ⟨fun _ _ operand _ _ => operand = v, fun _ operand _ => operand = single m v⟩
      (single field (single m x)) () ↔ x = v := by
    intro x
    refine (matches_single fun _ => single_ne_arr m x).trans ?_
    rw [EntryHolds]
    split_ifs with hfield
    · exact ⟨single_inj, fun hx => by rw [hx]⟩
    · exact fieldHolds_operator hoperator hoptions
  exact (hmatch w).1 ((h _ ()).2 ((hmatch v).2 rfl))

theorem condition_eq_of_same (hblank : isBlank field = false)
    (h : buildCondition today reader field operator value = .ok f) (hg : reopen today' reader f = .ok g)
    (hsame : ∀ (M : Meaning Unit) (d : Unit), Matches M g d ↔ Matches M f d) : g = f := by
  rcases reopen_condition_cases hblank h hg with hgf | ⟨rfl, v, hv, rfl⟩ | ⟨m, v, w, hm, rfl, rfl⟩
  · exact hgf
  · have htext := (hsame ⟨fun _ _ _ _ _ => False, fun _ _ _ => False⟩ ()).1 matches_empty
    rw [single, matches_single fun _ => hv, EntryHolds, if_pos (by decide)] at htext
    cases htext
  · rw [operand_eq hm hsame]

/-! ## Trees -/

mutual

/-- No enabled condition of the tree is changed when it is opened again. -/
def Reopens (reader : JsonReader) : VqbNode → Prop
  | .group _ children => ReopensAll reader children
  | .condition field operator value enabled =>
    enabled = true → isBlank field = false → ConditionReopens reader field operator value

def ReopensAll (reader : JsonReader) : List VqbNode → Prop
  | [] => True
  | node :: nodes => Reopens reader node ∧ ReopensAll reader nodes

end

theorem reopens_group (c : VqbCombinator) (children : List VqbNode) :
    Reopens reader (.group c children) = ReopensAll reader children := rfl

theorem reopens_condition (field operator : String) (value : Option Value) (enabled : Bool) :
    Reopens reader (.condition field operator value enabled) =
      (enabled = true → isBlank field = false → ConditionReopens reader field operator value) := rfl

theorem reopensAll_nil : ReopensAll reader [] = True := rfl

theorem reopensAll_cons (node : VqbNode) (nodes : List VqbNode) :
    ReopensAll reader (node :: nodes) = (Reopens reader node ∧ ReopensAll reader nodes) := rfl

theorem reopen_emptyFilter : reopen today reader emptyFilter = .ok emptyFilter := reopen_none rfl

theorem reopen_partsFilter (h : parts ≠ []) :
    reopen today reader (partsFilter c parts) = groupFilter c (parts.map (reopen today reader)) := by
  cases parts with
  | nil => exact absurd rfl h
  | cons p parts => exact reopen_group (by cases c <;> rfl)

theorem partsFilter_inj (h : partsFilter c ps = partsFilter c qs) : ps = qs := by
  cases ps <;> cases qs <;> cases h <;> rfl

theorem reopen_parts_iff (hne : ∀ p ∈ parts, p ≠ emptyFilter) :
    reopen today reader (partsFilter c parts) = .ok (partsFilter c parts) ↔ ∀ p ∈ parts, reopen today reader p = .ok p := by
  by_cases hparts : parts = []
  · rw [hparts]
    exact iff_of_true reopen_emptyFilter fun p hp => absurd hp List.not_mem_nil
  rw [reopen_partsFilter hparts, groupFilter_ok]
  constructor
  · rintro ⟨gs, hgs, hfilter⟩
    have hparts : parts = gs.filter fun g => decide (g ≠ emptyFilter) := partsFilter_inj hfilter
    -- nothing is left out, since there are as many results as parts
    have hlength : gs.length = parts.length := by
      have hlengths := congrArg List.length hgs
      rw [List.length_map, List.length_map] at hlengths
      exact hlengths.symm
    have hall : parts = gs := hparts.trans (List.filter_sublist.eq_of_length (by rw [← hparts, hlength]))
    rw [← hall] at hgs
    exact List.map_inj_left.1 hgs
  · intro hall
    refine ⟨parts, List.map_congr_left hall, ?_⟩
    rw [List.filter_eq_self.2 fun p hp => decide_eq_true (hne p hp)]

mutual

/-- **A built filter is opened and built as itself exactly when no condition of its tree is changed.** -/
theorem reopen_iff : ∀ {t : VqbNode} {f : Value}, buildFilter today reader t = .ok f →
    (reopen today' reader f = .ok f ↔ Reopens reader t)
  | .group c children, f, h => by
    rw [buildFilter_group] at h
    obtain ⟨gs, hgs, rfl⟩ := groupFilter_ok.1 h
    rw [reopens_group, ← reopenAll_iff hgs, reopen_parts_iff fun p hp => of_decide_eq_true (List.mem_filter.1 hp).2]
    constructor
    · intro hall g hg
      by_cases he : g = emptyFilter
      · rw [he, reopen_emptyFilter]
      · exact hall g (List.mem_filter.2 ⟨hg, decide_eq_true he⟩)
    · intro hall g hg
      exact hall g (List.mem_filter.1 hg).1
  | .condition field operator value enabled, f, h => by
    rw [buildFilter_condition] at h
    rw [reopens_condition]
    cases enabled with
    | false =>
      cases h
      exact iff_of_true reopen_emptyFilter fun he => absurd he (by decide)
    | true =>
      cases hblank : isBlank field with
      | true =>
        rw [hblank] at h
        cases h
        exact iff_of_true reopen_emptyFilter fun _ he => absurd he (by decide)
      | false =>
        rw [hblank] at h
        rw [reopen_condition hblank h]
        exact ⟨fun hc _ _ => hc, fun hc => hc rfl rfl⟩

theorem reopenAll_iff : ∀ {ts : List VqbNode} {gs : List Value}, buildAll today reader ts = gs.map .ok →
    ((∀ g ∈ gs, reopen today' reader g = .ok g) ↔ ReopensAll reader ts)
  | [], gs, h => by
    have hnil : gs = [] := List.map_eq_nil_iff.1 h.symm
    rw [hnil]
    exact iff_of_true (fun g hg => absurd hg List.not_mem_nil) trivial
  | t :: ts, [], h => by cases h
  | t :: ts, g :: gs, h => by
    obtain ⟨hhead, htail⟩ := List.cons.inj h
    rw [List.forall_mem_cons, reopensAll_cons, reopen_iff hhead, reopenAll_iff htail]

end

/-- The filter is opened, built as one that matches the same documents, and stays that one. -/
def RoundTrips (today : ℤ) (reader : JsonReader) (f : Value) : Prop :=
  ∃ g, reopen today reader f = .ok g ∧ reopen today reader g = .ok g ∧
    ∀ {D : Type} (M : Meaning D) (d : D), Matches M g d ↔ Matches M f d

theorem condition_round_trip (h : buildFilter today reader (.condition field operator value enabled) = .ok f) (hf : RoundTrips today' reader f) :
    reopen today' reader f = .ok f := by
  rw [buildFilter_condition] at h
  cases hskip : !enabled || isBlank field with
  | true =>
    rw [hskip] at h
    cases h
    exact reopen_emptyFilter
  | false =>
    rw [hskip] at h
    obtain ⟨g, hg, -, hsame⟩ := hf
    rw [condition_eq_of_same (Bool.or_eq_false_iff.1 hskip).2 h hg hsame] at hg
    exact hg

/-- **A tree whose enabled conditions keep their values makes the round trip, on any later day, and its filter comes back as it
is; any other tree gives an error or another filter, and a single condition then matches other documents.** -/
theorem round_trip_iff {t : VqbNode} {f : Value} (h : buildFilter today reader t = .ok f) :
    (Reopens reader t → RoundTrips today' reader f) ∧ (reopen today' reader f = .ok f ↔ Reopens reader t) ∧
    (∀ field operator value enabled, t = .condition field operator value enabled →
      (RoundTrips today' reader f ↔ Reopens reader t)) := by
  have hiff : reopen today' reader f = .ok f ↔ Reopens reader t := reopen_iff h
  have hmakes : Reopens reader t → RoundTrips today' reader f := fun ht => ⟨f, hiff.2 ht, hiff.2 ht, fun M d => Iff.rfl⟩
  refine ⟨hmakes, hiff, ?_⟩
  rintro field operator value enabled rfl
  exact ⟨fun hf => hiff.1 (condition_round_trip h hf), hmakes⟩

/-- A reader of a browser's filters; nothing below reads a text as JSON. -/
def noReader : JsonReader where
  fromStr _ := .error "expected value at line 1 column 1"
  display _ := ""

/-- A text that looks like a number, a date and a disabled condition, in two groups. -/
def orders : VqbNode :=
  .group .or [.condition "age" "gte" (some (.str "30")) true, .condition "name" "regex" (some (.str "[")) false,
    .group .nor [.condition "created" "lt" (some (.str "#today")) true, .condition "tag" "in" (some (.str "a, true,")) true]]

def ordersFilter : Value :=
  .doc [("$or", .arr [.doc [("age", .doc [("$gte", .num 30)])],
    .doc [("$nor", .arr [.doc [("created", .doc [("$lt", Sql.dateToExtjson 0)])],
      .doc [("tag", .doc [("$in", .arr [.str "a", .bool true])])]])]])]

theorem orders_round_trip : RoundTrips 1 noReader ordersFilter := by
  have hbuild : buildFilter 0 noReader orders = .ok ordersFilter := by decide +kernel
  refine (round_trip_iff hbuild).1 ?_
  simp [orders, reopens_group, reopensAll_cons, reopens_condition, reopensAll_nil, ConditionReopens, Settles]

/-- `exists` without a value is built as `null`, which `from_filter` opens as `true`: the filter is turned around. -/
theorem exists_turned : buildFilter 0 noReader (.condition "a" "exists" none true) =
      .ok (single "a" (single "$exists" .null)) ∧
    ¬ RoundTrips 0 noReader (single "a" (single "$exists" .null)) := by
  refine ⟨rfl, ?_⟩
  rintro ⟨g, hg, -, hiff⟩
  have hturned : reopen 0 noReader (single "a" (single "$exists" .null)) = .ok (single "a" (single "$exists" (.bool true))) := rfl
  rw [hturned] at hg
  cases hg
  have hall := @hiff Unit ⟨fun _ _ operand _ _ => operand = .null, fun _ _ _ => True⟩ ()
  have hfield : ∀ operand : Value, Matches (D := Unit) ⟨fun _ _ operand _ _ => operand = .null, fun _ _ _ => True⟩
      (single "a" (single "$exists" operand)) () ↔ operand = .null := by
    intro operand
    rw [single, matches_single fun hk => absurd hk (by decide)]
    simp [EntryHolds, FieldHolds, OperatorHolds, isOperator, single]
  rw [hfield, hfield] at hall
  exact absurd (hall.2 rfl) (by decide)

end Vqb
