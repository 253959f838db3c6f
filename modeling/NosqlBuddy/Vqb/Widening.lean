import NosqlBuddy.Vqb.RoundTrip

/-!
# Opening a filter in the builder

`from_filter` reads the first group it finds and drops what stands beside it, drops what it has no operator for, and drops the
children that become empty (mongo/vqb.rs:390, :437, :466). Under `$and` a dropped part widens the filter, under `$nor` it
narrows it, and an `$or` is widened by it only when nothing is left. `Safe pos f` is what a filter must avoid for what is
built from it to say no less (`pos`) or no more (`¬ pos`) than it; `safe_toward` follows it through the groups.
-/

namespace Vqb
open Mongo
open Mongo.Value

variable {today : ℤ} {reader : JsonReader}

/-! ## What is read -/

/-- An entry that becomes a condition (vqb.rs:417-452). -/
def entryRead (k : String) (v : Value) : Bool :=
  if k = "$text" then
    match v with
    | .doc fs => (fs.lookup "$search").isSome
    | _ => false
  else if k = "$expr" ∨ k = "$jsonSchema" then true
  else !isBlank k && match v with
    | .doc ops => ops.any fun o => (mongoToVqbOp o.1).isSome
    | _ => true

/-- A filter of which something is read. -/
inductive Represented : Value → Prop
  | entry {fs k v} : groupOf fs = none → (k, v) ∈ fs → entryRead k v = true → Represented (.doc fs)
  | group {fs c vs v} : groupOf fs = some (c, vs) → v ∈ vs → Represented v → Represented (.doc fs)

/-- A filter of which nothing is read. -/
inductive Dropped : Value → Prop
  | entries {fs} : groupOf fs = none → (∀ f ∈ fs, entryRead f.1 f.2 = false) → Dropped (.doc fs)
  | group {fs c vs} : groupOf fs = some (c, vs) → (∀ v ∈ vs, Dropped v) → Dropped (.doc fs)
  | scalar {v} : (∀ fs, v ≠ .doc fs) → Dropped v

/-- The operand that the builder's coercions leave as it is, or refuse. -/
def Uncoerced (today : ℤ) (reader : JsonReader) (operator : String) (v : Value) : Prop :=
  ∀ w, parseConditionValue today reader (some v) operator = .ok w → w = v

/-- The operators of a field: the ones that are read keep their operand, and `$options` belongs to no regex that is read; none
may be left out where `pos`. -/
def OperatorsKept (today : ℤ) (reader : JsonReader) (pos : Bool) (ops : List (String × Value)) : Prop :=
  (∀ o ∈ ops, ∀ operator, mongoToVqbOp o.1 = some operator →
    Uncoerced today reader operator o.2 ∧ (o.1 = "$regex" → ops.lookup "$options" = none)) ∧
  (∃ o rest, ops = o :: rest ∧ isOperator o.1 = true) ∧
  (pos = true → ∀ o ∈ ops, o.1 = "$options" ∨ (mongoToVqbOp o.1).isSome)

/-- An entry that is read as what it says. -/
def EntryKept (today : ℤ) (reader : JsonReader) (pos : Bool) (k : String) (v : Value) : Prop :=
  if k = "$text" then ∃ search, v = single "$search" search ∧ Uncoerced today reader "text" search
  else if k = "$expr" then Uncoerced today reader "expr" v
  else if k = "$jsonSchema" then Uncoerced today reader "json_schema" v
  else isOperator k = false ∧ isBlank k = false ∧
    match v with
    | .null => True
    | .doc ops => OperatorsKept today reader pos ops
    | v => Uncoerced today reader "eq" v

/-- What the filter has to be for the one that is built from it to imply it (`pos`) or to follow from it. -/
inductive Safe (today : ℤ) (reader : JsonReader) : Bool → Value → Prop
  | entries {pos fs} : groupOf fs = none →
      (∀ f ∈ fs, EntryKept today reader pos f.1 f.2 ∨ pos = false ∧ entryRead f.1 f.2 = false) → Safe today reader pos (.doc fs)
  | dropped {v} : Dropped v → Safe today reader false v
  | and {pos fs vs} : groupOf fs = some (.and, vs) → (pos = true → fs = [("$and", .arr vs)]) →
      (∀ v ∈ vs, Safe today reader pos v) → Safe today reader pos (.doc fs)
  | orPos {vs v} : (∀ v ∈ vs, ¬ Dropped v → Safe today reader true v) → v ∈ vs → Safe today reader true v →
      Safe today reader true (.doc [("$or", .arr vs)])
  | orNeg {fs vs} : groupOf fs = some (.or, vs) → (∀ v ∈ vs, Represented v) → (∀ v ∈ vs, Safe today reader false v) →
      Safe today reader false (.doc fs)
  | norPos {vs} : (∀ v ∈ vs, Represented v) → (∀ v ∈ vs, Safe today reader false v) →
      Safe today reader true (.doc [("$nor", .arr vs)])
  | norNeg {fs vs} : groupOf fs = some (.nor, vs) → (∀ v ∈ vs, ¬ Dropped v → Safe today reader true v) →
      Safe today reader false (.doc fs)

/-! ## Entries -/

variable {fs : List (String × Value)}

theorem reopen_flat (h : groupOf fs = none) : reopen today reader (.doc fs) =
    buildFilter today reader ((conditionsNode (fs.filterMap fun f => entryCondition f.1 f.2)).getD .defaultRoot) := by
  have hfirst : firstGroup (arrayNodes fs) = none := by rw [firstGroup_eq, h]; rfl
  rw [reopen, fromFilter, fromFilterValue_flat hfirst]

variable {g : Value}

theorem reopen_entries (h : groupOf fs = none) (hg : reopen today reader (.doc fs) = .ok g) :
    (∀ f ∈ fs, ∃ x, reopenEntry today reader f.1 f.2 = .ok x) ∧
    (g ≠ emptyFilter ↔ ∃ f ∈ fs, ∃ x, reopenEntry today reader f.1 f.2 = .ok x ∧ x ≠ emptyFilter) ∧
    ∀ {D : Type} (M : Meaning D) (d : D),
      Matches M g d ↔ ∀ f ∈ fs, ∀ x, reopenEntry today reader f.1 f.2 = .ok x → Matches M x d := by
  rw [reopen_flat h] at hg
  obtain ⟨hok, hne, hall⟩ := conditionsNode_conjoins hg
  have hentry : ∀ f : String × Value, entryCondition f.1 f.2 = none ∧ reopenEntry today reader f.1 f.2 = .ok emptyFilter ∨
      ∃ n, entryCondition f.1 f.2 = some n ∧ reopenEntry today reader f.1 f.2 = buildFilter today reader n := by
    intro f
    rw [reopenEntry]
    cases entryCondition f.1 f.2 with
    | none => exact .inl ⟨rfl, rfl⟩
    | some n => exact .inr ⟨n, rfl, rfl⟩
  have hmem : ∀ {f n}, f ∈ fs → entryCondition f.1 f.2 = some n → n ∈ fs.filterMap fun f => entryCondition f.1 f.2 :=
    fun hf hn => List.mem_filterMap.2 ⟨_, hf, hn⟩
  refine ⟨fun f hf => ?_, ?_, fun M d => ?_⟩
  · rcases hentry f with ⟨-, hx⟩ | ⟨n, hn, hx⟩
    · exact ⟨_, hx⟩
    · rw [hx]
      exact hok n (hmem hf hn)
  · rw [hne]
    constructor
    · rintro ⟨n, hn, x, hx, hxne⟩
      obtain ⟨f, hf, hfn⟩ := List.mem_filterMap.1 hn
      refine ⟨f, hf, x, ?_, hxne⟩
      rw [reopenEntry, hfn]
      exact hx
    · rintro ⟨f, hf, x, hx, hxne⟩
      rcases hentry f with ⟨-, hempty⟩ | ⟨n, hn, hbuild⟩
      · exact absurd (Except.ok.inj (hx.symm.trans hempty)) hxne
      · exact ⟨n, hmem hf hn, x, hbuild.symm.trans hx, hxne⟩
  · rw [hall]
    constructor
    · intro hnodes f hf x hx
      rcases hentry f with ⟨-, hempty⟩ | ⟨n, hn, hbuild⟩
      · rw [Except.ok.inj (hx.symm.trans hempty)]
        exact matches_empty
      · exact hnodes n (hmem hf hn) x (hbuild.symm.trans hx)
    · intro hentries n hn x hx
      obtain ⟨f, hf, hfn⟩ := List.mem_filterMap.1 hn
      refine hentries f hf x ?_
      rw [reopenEntry, hfn]
      exact hx

variable {operator : String}

theorem mongoOperator_of_bound (h : mongoToVqbOp m = some operator) :
    mongoOperator operator = .ok m ∧ operator ≠ "is_null" ∧ operator ≠ "is_not_null" ∧ m ∉ ["$text", "$expr", "$jsonSchema"] := by
  unfold mongoToVqbOp at h
  split at h <;> cases h <;> decide

variable {field : String}

theorem buildFilter_operator (hblank : isBlank field = false) (hm : mongoToVqbOp m = some operator)
    (v : Value) : buildFilter today reader (readCondition field operator v) =
      (parseConditionValue today reader (some v) operator).map fun w => single field (single m w) := by
  obtain ⟨hop, hnull, hnot, htop⟩ := mongoOperator_of_bound hm
  simp only [List.mem_cons, List.not_mem_nil, or_false, not_or] at htop
  have hshape : conditionFilter field m = fun w => single field (single m w) := by
    funext w
    rw [conditionFilter, if_neg htop.1, if_neg (not_or.2 htop.2)]
  rw [buildFilter_read hblank, buildCondition_eq hop hnull hnot, hshape]

variable {ops : List (String × Value)}

theorem mem_operatorConditions : n ∈ operatorConditions field ops ↔
    ∃ o ∈ ops, ∃ operator, mongoToVqbOp o.1 = some operator ∧ n = readCondition field operator o.2 := by
  rw [operatorConditions, List.mem_filterMap]
  refine exists_congr fun o => and_congr_right fun _ => ?_
  rw [Option.map_eq_some_iff]
  exact exists_congr fun operator => and_congr_right fun _ => eq_comm

theorem reopenEntry_eq (k : String) (v : Value) :
    reopenEntry today reader k v = buildFilter today reader ((entryCondition k v).getD .defaultRoot) := by
  rw [reopenEntry]
  cases entryCondition k v with
  | none => exact buildFilter_defaultRoot.symm
  | some n => rfl

theorem conditionFromFieldValue_ops (k : String) (ops : List (String × Value)) :
    conditionFromFieldValue k (.doc ops) = conditionsNode (operatorConditions k ops) ∨
      conditionFromFieldValue k (.doc ops) = groupNode .and (operatorConditions k ops) := by
  cases ops with
  | nil => exact .inl rfl
  | cons o ops =>
    cases ops with
    | nil =>
      have hone : conditionFromFieldValue k (.doc [o]) = (mongoToVqbOp o.1).map fun operator => readCondition k operator o.2 := rfl
      rw [hone, operatorConditions, List.filterMap_cons]
      cases mongoToVqbOp o.1 with
      | none => exact .inl rfl
      | some operator => exact .inl rfl
    | cons o' ops => exact .inr rfl

variable {k : String} {x : Value}

theorem reopenEntry_ops (hk : k ∉ ["$text", "$expr", "$jsonSchema"])
    (h : reopenEntry today reader k (.doc ops) = .ok x) : Conjoins today reader (operatorConditions k ops) x := by
  rw [reopenEntry_eq, entryCondition_field hk] at h
  rcases conditionFromFieldValue_ops k ops with hc | hc
  · rw [hc] at h
    exact conditionsNode_conjoins h
  · rw [hc] at h
    cases hn : operatorConditions k ops with
    | nil =>
      rw [hn] at h
      exact conditionsNode_conjoins h
    | cons n nodes =>
      rw [hn] at h
      exact group_conjoins h

/-- `p` is the meaning of a filter and `q` that of what is built from it: `q` says no less, or no more. -/
def Toward (pos : Bool) (p q : Prop) : Prop :=
  match pos with
  | true => q → p
  | false => p → q

variable {pos : Bool}

theorem Toward.of_iff {p q : Prop} (h : p ↔ q) : Toward pos p q := by
  cases pos
  · exact h.1
  · exact h.2

variable {D : Type} {M : Meaning D} {d : D}

theorem ops_toward (hk : k ∉ ["$text", "$expr", "$jsonSchema"])
    (hop : isOperator k = false) (hblank : isBlank k = false) (hkept : OperatorsKept today reader pos ops)
    (h : reopenEntry today reader k (.doc ops) = .ok x) : Toward pos (Matches M (.doc [(k, .doc ops)]) d) (Matches M x d) := by
  obtain ⟨hops, ⟨o, rest, hcons, hfirst⟩, hall⟩ := hkept
  obtain ⟨hok, -, hx⟩ := reopenEntry_ops hk h
  have hfield : Matches M (.doc [(k, .doc ops)]) d ↔ ∀ p ∈ ops, OperatorHolds M k ops p d := by
    rw [matches_single fun _ vs he => (by cases he), EntryHolds, hop, hcons, if_neg Bool.false_ne_true, FieldHolds,
      if_pos hfirst]
  -- an operator that is read, and what is built from it
  have hread : ∀ p ∈ ops, ∀ operator, mongoToVqbOp p.1 = some operator →
      (OperatorHolds M k ops p d ↔ ∀ y, buildFilter today reader (readCondition k operator p.2) = .ok y → Matches M y d) := by
    intro p hp operator hm
    obtain ⟨hsame, hoptions⟩ := hops p hp operator hm
    obtain ⟨hisop, hne⟩ := isOperator_of_bound hm
    obtain ⟨y, hy⟩ := hok _ (mem_operatorConditions.2 ⟨p, hp, operator, hm, rfl⟩)
    have hy' := hy
    rw [buildFilter_operator hblank hm] at hy'
    cases hw : parseConditionValue today reader (some p.2) operator with
    | error e =>
      rw [hw] at hy'
      cases hy'
    | ok w =>
      rw [hw] at hy'
      have hyeq : y = single k (single p.1 p.2) := by rw [← hsame w hw]; exact (Except.ok.inj hy').symm
      have hmatch : Matches M y d ↔ OperatorHolds M k ops p d := by
        rw [hyeq]
        refine (matches_single fun _ => single_ne_arr _ _).trans ?_
        rw [EntryHolds, hop, if_neg Bool.false_ne_true, OperatorHolds, if_neg hne]
        refine (fieldHolds_operator hisop hne).trans ?_
        split_ifs with hregex
        · rw [hoptions hregex]
        · rfl
      rw [← hmatch, hy]
      exact ⟨fun hm y' hy' => by cases hy'; exact hm, fun hall => hall y rfl⟩
  rw [hfield]
  have hnodes : Matches M x d ↔ ∀ p ∈ ops, ∀ operator, mongoToVqbOp p.1 = some operator → OperatorHolds M k ops p d := by
    rw [hx]
    constructor
    · intro hall p hp operator hm
      exact (hread p hp operator hm).2 (hall _ (mem_operatorConditions.2 ⟨p, hp, operator, hm, rfl⟩))
    · intro hall n hn y hy
      obtain ⟨p, hp, operator, hm, rfl⟩ := mem_operatorConditions.1 hn
      exact (hread p hp operator hm).1 (hall p hp operator hm) y hy
  rw [hnodes]
  cases pos with
  | false => exact fun hholds p hp operator _ => hholds p hp
  | true =>
    intro hholds p hp
    rcases hall rfl p hp with hoptions | hsome
    · rw [OperatorHolds, if_pos hoptions]
      trivial
    · obtain ⟨operator, hm⟩ := Option.isSome_iff_exists.1 hsome
      exact hholds p hp operator hm

variable {v : Value}

theorem expression_toward (hsame : Uncoerced today reader operator v)
    (h : (parseConditionValue today reader (some v) operator).map (single k) = .ok x) :
    Toward pos (Matches M (.doc [(k, v)]) d) (Matches M x d) := by
  cases hw : parseConditionValue today reader (some v) operator with
  | error e =>
    rw [hw] at h
    cases h
  | ok w =>
    rw [hw, hsame w hw] at h
    cases h
    exact Toward.of_iff Iff.rfl

/-- A kept entry means the same built again, but for the operators that are left out where that is allowed. -/
theorem kept_toward (hgroup : NoGroup k v) (hkept : EntryKept today reader pos k v)
    (h : reopenEntry today reader k v = .ok x) : Toward pos (Matches M (.doc [(k, v)]) d) (Matches M x d) := by
  unfold EntryKept at hkept
  by_cases htext : k = "$text"
  · subst htext
    rw [if_pos rfl] at hkept
    obtain ⟨search, rfl, hsame⟩ := hkept
    rw [← reopen_single (single_ne_arr _ _), reopen_search, buildCondition_eq (m := "$text") rfl (by decide) (by decide)] at h
    cases hw : parseConditionValue today reader (some search) "text" with
    | error e =>
      rw [hw] at h
      cases h
    | ok w =>
      rw [hw, hsame w hw] at h
      cases h
      exact Toward.of_iff Iff.rfl
  rw [if_neg htext] at hkept
  by_cases hexpr : k = "$expr"
  · subst hexpr
    rw [if_pos rfl] at hkept
    exact expression_toward hkept (reopenEntry_expr v ▸ h)
  rw [if_neg hexpr] at hkept
  by_cases hschema : k = "$jsonSchema"
  · subst hschema
    rw [if_pos rfl] at hkept
    exact expression_toward hkept (reopenEntry_schema v ▸ h)
  rw [if_neg hschema] at hkept
  have hk : k ∉ ["$text", "$expr", "$jsonSchema"] := by simp [htext, hexpr, hschema]
  obtain ⟨hop, hblank, hv⟩ := hkept
  -- a value stands for its equality
  have heq : (∀ ops, v ≠ .doc ops) → v ≠ .null → Uncoerced today reader "eq" v →
      Toward pos (Matches M (.doc [(k, v)]) d) (Matches M x d) := by
    intro hdoc hnull hsame
    have hread : conditionFromFieldValue k v = some (readCondition k "eq" v) := by
      cases v with
      | null => exact absurd rfl hnull
      | doc ops => exact absurd rfl (hdoc ops)
      | _ => rfl
    rw [reopenEntry, entryCondition_field hk, hread] at h
    have hbuild := (buildFilter_operator (m := "$eq") hblank rfl v).symm.trans h
    cases hw : parseConditionValue today reader (some v) "eq" with
    | error e =>
      rw [hw] at hbuild
      cases hbuild
    | ok w =>
      rw [hw, hsame w hw] at hbuild
      cases hbuild
      refine Toward.of_iff ?_
      refine Iff.trans ?_ (matches_single fun _ => single_ne_arr _ _).symm
      rw [matches_single hgroup, EntryHolds, EntryHolds, hop, if_neg Bool.false_ne_true, if_neg Bool.false_ne_true]
      refine Iff.trans ?_ (fieldHolds_operator (by decide) (by decide)).symm
      unfold FieldHolds
      cases v with
      | doc ops => exact absurd rfl (hdoc ops)
      | _ => exact Iff.rfl
  cases v with
  | null =>
    have hread : conditionFromFieldValue k .null = some (readCondition k "is_null" .null) := rfl
    rw [reopenEntry, entryCondition_field hk, hread] at h
    have hbuild := (buildFilter_read hblank _).symm.trans h
    rw [buildCondition_isNull hbuild]
    exact Toward.of_iff Iff.rfl
  | doc ops => exact ops_toward hk hop hblank hv h
  | bool b => exact heq (fun ops he => by cases he) (fun he => by cases he) hv
  | num q => exact heq (fun ops he => by cases he) (fun he => by cases he) hv
  | str s => exact heq (fun ops he => by cases he) (fun he => by cases he) hv
  | arr vs => exact heq (fun ops he => by cases he) (fun he => by cases he) hv

/-! ## What is read is built -/

theorem buildAll_empty (h : ∀ n ∈ nodes, buildFilter today reader n = .ok emptyFilter) :
    buildFilter today reader (.group .and nodes) = .ok emptyFilter := by
  rw [buildFilter_group, buildAll_eq, groupFilter_ok]
  refine ⟨nodes.map fun _ => emptyFilter, ?_, ?_⟩
  · rw [List.map_map]
    exact List.map_congr_left h
  · have hnone : ((nodes.map fun _ => emptyFilter).filter fun g => decide (g ≠ emptyFilter)) = [] := by
      refine List.filter_eq_nil_iff.2 fun g hg hkeep => ?_
      obtain ⟨n, -, rfl⟩ := List.mem_map.1 hg
      exact of_decide_eq_true hkeep rfl
    rw [hnone]
    rfl

theorem buildFilter_blank (h : isBlank field = true) (v : Value) :
    buildFilter today reader (readCondition field operator v) = .ok emptyFilter := by
  rw [readCondition, buildFilter_condition, h]
  rfl

theorem reopenEntry_unread (h : entryRead k v = false) : reopenEntry today reader k v = .ok emptyFilter := by
  unfold entryRead at h
  by_cases htext : k = "$text"
  · subst htext
    rw [if_pos rfl] at h
    cases v with
    | doc fs =>
      have hnone : entryCondition "$text" (.doc fs) = (fs.lookup "$search").map fun search => readCondition "$text" "text" search := rfl
      rw [reopenEntry_eq, hnone, Option.isSome_eq_false_iff.1 h |> Option.isNone_iff_eq_none.1]
      exact buildFilter_defaultRoot
    | _ => rfl
  rw [if_neg htext] at h
  by_cases hexpr : k = "$expr" ∨ k = "$jsonSchema"
  · rw [if_pos hexpr] at h
    cases h
  rw [if_neg hexpr] at h
  have hk : k ∉ ["$text", "$expr", "$jsonSchema"] := by simp [htext, not_or.1 hexpr]
  rw [reopenEntry_eq, entryCondition_field hk]
  cases v with
  | doc ops =>
    have hempty : ∀ n ∈ operatorConditions k ops, buildFilter today reader n = .ok emptyFilter := by
      intro n hn
      obtain ⟨o, ho, operator, hm, rfl⟩ := mem_operatorConditions.1 hn
      cases hblank : isBlank k with
      | true => exact buildFilter_blank hblank o.2
      | false =>
        rw [hblank] at h
        have hany := List.any_eq_false.1 h o ho
        rw [hm] at hany
        exact absurd rfl hany
    rcases conditionFromFieldValue_ops k ops with hc | hc
    · rw [hc]
      cases hn : operatorConditions k ops with
      | nil => exact buildFilter_defaultRoot
      | cons n nodes =>
        rw [hn] at hempty
        cases nodes with
        | nil => exact hempty n List.mem_cons_self
        | cons n' nodes => exact buildAll_empty hempty
    · rw [hc]
      cases hn : operatorConditions k ops with
      | nil => exact buildFilter_defaultRoot
      | cons n nodes =>
        rw [hn] at hempty
        exact buildAll_empty hempty
  | null | bool b | num q | str s | arr vs =>
    have hblank : isBlank k = true := by
      cases hb : isBlank k with
      | true => rfl
      | false =>
        rw [hb] at h
        cases h
    exact buildFilter_blank hblank _

theorem single_ne_empty (k : String) (v : Value) : single k v ≠ emptyFilter := by
  intro h
  cases h

theorem map_ne_empty {r : Except VqbError Value} {f : Value → Value} (hf : ∀ v, f v ≠ emptyFilter)
    (h : r.map f = .ok x) : x ≠ emptyFilter := by
  cases r with
  | error e => cases h
  | ok v =>
    cases h
    exact hf v

theorem buildCondition_ne_empty {value : Option Value} (h : buildCondition today reader field operator value = .ok x) : x ≠ emptyFilter := by
  by_cases hnull : operator = "is_null"
  · subst hnull
    rw [buildCondition_isNull h]
    exact single_ne_empty _ _
  by_cases hnot : operator = "is_not_null"
  · subst hnot
    rw [buildCondition_isNotNull h]
    exact single_ne_empty _ _
  obtain ⟨m, hm⟩ := mongoOperator_of_built h
  rw [buildCondition_eq hm hnull hnot] at h
  refine map_ne_empty (fun v => ?_) h
  unfold conditionFilter
  split_ifs <;> exact single_ne_empty _ _

theorem reopenEntry_read (h : entryRead k v = true) (hx : reopenEntry today reader k v = .ok x) :
    x ≠ emptyFilter := by
  unfold entryRead at h
  by_cases htext : k = "$text"
  · subst htext
    rw [if_pos rfl] at h
    cases v with
    | doc fs =>
      obtain ⟨search, hsearch⟩ := Option.isSome_iff_exists.1 h
      have hread : entryCondition "$text" (.doc fs) = (fs.lookup "$search").map fun search => readCondition "$text" "text" search := rfl
      rw [reopenEntry_eq, hread, hsearch] at hx
      exact buildCondition_ne_empty ((buildFilter_read (by decide) search).symm.trans hx)
    | null | bool b | num q | str s | arr vs => cases h
  rw [if_neg htext] at h
  by_cases hexpr : k = "$expr"
  · subst hexpr
    exact map_ne_empty (single_ne_empty _) ((reopenEntry_expr v).symm.trans hx)
  by_cases hschema : k = "$jsonSchema"
  · subst hschema
    exact map_ne_empty (single_ne_empty _) ((reopenEntry_schema v).symm.trans hx)
  have hk : k ∉ ["$text", "$expr", "$jsonSchema"] := by simp [htext, hexpr, hschema]
  rw [if_neg (not_or.2 ⟨hexpr, hschema⟩), Bool.and_eq_true, Bool.not_eq_true'] at h
  obtain ⟨hblank, hv⟩ := h
  have hread : ∀ operator, conditionFromFieldValue k v = some (readCondition k operator v) → x ≠ emptyFilter := by
    intro operator hc
    rw [reopenEntry_eq, entryCondition_field hk, hc] at hx
    exact buildCondition_ne_empty ((buildFilter_read hblank v).symm.trans hx)
  cases v with
  | doc ops =>
    obtain ⟨o, ho, hm⟩ := List.any_eq_true.1 hv
    obtain ⟨operator, hm⟩ := Option.isSome_iff_exists.1 hm
    obtain ⟨hok, hempty, -⟩ := reopenEntry_ops hk hx
    have hmem : readCondition k operator o.2 ∈ operatorConditions k ops := mem_operatorConditions.2 ⟨o, ho, operator, hm, rfl⟩
    obtain ⟨y, hy⟩ := hok _ hmem
    exact hempty.2 ⟨_, hmem, y, hy, buildCondition_ne_empty ((buildFilter_read hblank o.2).symm.trans hy)⟩
  | null => exact hread "is_null" rfl
  | bool b => exact hread "eq" rfl
  | num q => exact hread "eq" rfl
  | str s => exact hread "eq" rfl
  | arr vs => exact hread "eq" rfl

/-! ## Groups -/

/-- What becomes of the children of a group. -/
structure Children (today : ℤ) (reader : JsonReader) (vs gs : List Value) : Prop where
  reopened : ∀ v ∈ vs, ∃ g ∈ gs, reopen today reader v = .ok g
  original : ∀ g ∈ gs, ∃ v ∈ vs, reopen today reader v = .ok g

variable {gs vs : List Value}

theorem children_of_map (h : vs.map (reopen today reader) = gs.map .ok) : Children today reader vs gs where
  reopened v hv := by
    have hmem : reopen today reader v ∈ gs.map .ok := h ▸ List.mem_map_of_mem hv
    obtain ⟨g, hg, he⟩ := List.mem_map.1 hmem
    exact ⟨g, hg, he.symm⟩
  original g hg := by
    have hmem : .ok g ∈ vs.map (reopen today reader) := h ▸ List.mem_map_of_mem hg
    exact List.mem_map.1 hmem

variable {c : VqbCombinator}

theorem reopen_group_ok (h : groupOf fs = some (c, vs))
    (hg : reopen today reader (.doc fs) = .ok g) :
    ∃ gs, Children today reader vs gs ∧ g = partsFilter c (gs.filter fun g => decide (g ≠ emptyFilter)) := by
  rw [reopen_group h] at hg
  obtain ⟨gs, hgs, rfl⟩ := groupFilter_ok.1 hg
  exact ⟨gs, children_of_map hgs, rfl⟩

theorem dropped_reopens (hv : Dropped v) (hg : reopen today reader v = .ok g) : g = emptyFilter := by
  induction hv generalizing g with
  | @entries fs hgroup hall =>
    by_contra hne
    obtain ⟨-, hempty, -⟩ := reopen_entries hgroup hg
    obtain ⟨f, hf, x, hx, hxne⟩ := hempty.1 hne
    rw [reopenEntry_unread (hall f hf)] at hx
    exact hxne (Except.ok.inj hx).symm
  | group hgroup hall ih =>
    obtain ⟨gs, hchildren, rfl⟩ := reopen_group_ok hgroup hg
    by_contra hne
    refine partsFilter_ne_empty.1 hne (List.filter_eq_nil_iff.2 fun g hg hkeep => ?_)
    obtain ⟨v, hv, hvg⟩ := hchildren.original g hg
    exact of_decide_eq_true hkeep (ih v hv hvg)
  | @scalar v hdoc =>
    have hnone : fromFilterValue v = none := by
      cases v with
      | doc fs => exact absurd rfl (hdoc fs)
      | _ => rfl
    exact (Except.ok.inj ((reopen_none hnone).symm.trans hg)).symm

theorem represented_reopens (hv : Represented v) (hg : reopen today reader v = .ok g) : g ≠ emptyFilter := by
  induction hv generalizing g with
  | @entry fs k v hgroup hmem hread =>
    obtain ⟨hok, hempty, -⟩ := reopen_entries hgroup hg
    obtain ⟨x, hx⟩ := hok _ hmem
    exact hempty.2 ⟨_, hmem, x, hx, reopenEntry_read hread hx⟩
  | @group fs c vs v hgroup hmem hv ih =>
    obtain ⟨gs, hchildren, rfl⟩ := reopen_group_ok hgroup hg
    obtain ⟨g, hg, hvg⟩ := hchildren.reopened v hmem
    refine partsFilter_ne_empty.2 (List.ne_nil_of_mem (List.mem_filter.2 ⟨hg, decide_eq_true (ih hvg)⟩))

theorem mem_arrays :
    (k, vs) ∈ (fs.filterMap fun f => (arrayOf f.2).map (Prod.mk f.1)) ↔ (k, .arr vs) ∈ fs := by
  rw [List.mem_filterMap]
  constructor
  · rintro ⟨⟨k', v⟩, hf, hv⟩
    obtain ⟨ws, hws, he⟩ := Option.map_eq_some_iff.1 hv
    cases he
    cases v with
    | arr vs' =>
      cases hws
      exact hf
    | null | bool b | num q | str s | doc fs => cases hws
  · exact fun hf => ⟨_, hf, rfl⟩

theorem groupOf_mem (h : groupOf fs = some (c, vs)) :
    (c.asMongoOp, .arr vs) ∈ fs := by
  obtain ⟨c', -, hc⟩ := List.exists_of_findSome?_eq_some h
  obtain ⟨vs', hlookup, he⟩ := Option.map_eq_some_iff.1 hc
  cases he
  obtain ⟨l₁, l₂, hl, -⟩ := List.lookup_eq_some_iff.1 hlookup
  exact mem_arrays.1 (hl ▸ List.mem_append_right l₁ List.mem_cons_self)

theorem noGroup_of_groupOf (h : groupOf fs = none) : ∀ f ∈ fs, NoGroup f.1 f.2 := by
  rintro ⟨k, v⟩ hf hk vs rfl
  have hnone := List.findSome?_eq_none_iff.1 h
  have hkey : ∀ c ∈ [VqbCombinator.and, .or, .nor], c.asMongoOp ≠ k := by
    intro c hc hck
    have hlookup := List.lookup_eq_none_iff.1 (Option.map_eq_none_iff.1 (hnone c hc)) _ (mem_arrays.2 hf)
    exact bne_iff_ne.1 hlookup hck
  simp only [List.mem_cons, List.not_mem_nil, or_false] at hk
  rcases hk with rfl | rfl | rfl
  · exact hkey .and (by decide) rfl
  · exact hkey .or (by decide) rfl
  · exact hkey .nor (by decide) rfl

theorem mem_parts : g ∈ (gs.filter fun g => decide (g ≠ emptyFilter)) ↔ g ∈ gs ∧ g ≠ emptyFilter := by
  rw [List.mem_filter, decide_eq_true_iff]

theorem matches_partsFilter_or :
    Matches M (partsFilter .or (gs.filter fun g => decide (g ≠ emptyFilter))) d ↔
      (∀ g ∈ gs, g = emptyFilter) ∨ ∃ g ∈ gs, g ≠ emptyFilter ∧ Matches M g d := by
  by_cases hnone : ∀ g ∈ gs, g = emptyFilter
  · have hparts : (gs.filter fun g => decide (g ≠ emptyFilter)) = [] :=
      List.eq_nil_iff_forall_not_mem.2 fun g hg => (mem_parts.1 hg).2 (hnone g (mem_parts.1 hg).1)
    rw [hparts]
    exact iff_of_true matches_empty (.inl hnone)
  · have hparts : ∀ parts : List Value, parts ≠ [] → (Matches M (partsFilter .or parts) d ↔ ∃ p ∈ parts, Matches M p d) := by
      intro parts hne
      cases parts with
      | nil => exact absurd rfl hne
      | cons p parts => exact matches_or
    rw [hparts _ fun hnil => hnone fun g hg => ?_]
    · simp only [mem_parts, hnone, false_or, and_assoc]
    · by_contra hne
      exact List.not_mem_nil (hnil ▸ mem_parts.2 ⟨hg, hne⟩)

theorem matches_partsFilter_nor :
    Matches M (partsFilter .nor (gs.filter fun g => decide (g ≠ emptyFilter))) d ↔
      ∀ g ∈ gs, g ≠ emptyFilter → ¬ Matches M g d := by
  have hparts : ∀ parts : List Value, Matches M (partsFilter .nor parts) d ↔ ∀ p ∈ parts, ¬ Matches M p d := by
    intro parts
    cases parts with
    | nil => exact iff_of_true matches_empty fun p hp => absurd hp List.not_mem_nil
    | cons p parts => exact matches_nor
  rw [hparts]
  exact forall_congr' fun g => by rw [mem_parts, and_imp]

theorem matches_group (h : groupOf fs = some (c, vs))
    (hmatch : Matches M (.doc fs) d) : Matches M (.doc [(c.asMongoOp, .arr vs)]) d :=
  matches_entries.1 hmatch _ (groupOf_mem h)

/-- **What is built from a safe filter says no less than it, and in the negative no more.** -/
theorem safe_toward (h : Safe today reader pos f) (hg : reopen today reader f = .ok g) :
    Toward pos (Matches M f d) (Matches M g d) := by
  induction h generalizing g with
  | @entries pos fs hgroup hall =>
    obtain ⟨hok, -, hmatch⟩ := reopen_entries hgroup hg
    have hentry : ∀ f ∈ fs, ∀ x, reopenEntry today reader f.1 f.2 = .ok x →
        Toward pos (Matches M (.doc [f]) d) (Matches M x d) := by
      intro f hf x hx
      rcases hall f hf with hkept | ⟨rfl, hunread⟩
      · exact kept_toward (noGroup_of_groupOf hgroup f hf) hkept hx
      · rw [reopenEntry_unread hunread] at hx
        cases hx
        exact fun _ => matches_empty
    rw [matches_entries, hmatch]
    cases pos with
    | false => exact fun hholds f hf x hx => hentry f hf x hx (hholds f hf)
    | true =>
      intro hholds f hf
      obtain ⟨x, hx⟩ := hok f hf
      exact hentry f hf x hx (hholds f hf x hx)
  | dropped hv =>
    rw [dropped_reopens hv hg]
    exact fun _ => matches_empty
  | @and pos fs vs hgroup hone hall ih =>
    obtain ⟨gs, hchildren, rfl⟩ := reopen_group_ok hgroup hg
    rw [matches_partsFilter_and]
    cases pos with
    | false =>
      intro hmatch g hg
      obtain ⟨v, hv, hvg⟩ := hchildren.original g hg
      exact ih v hv hvg (matches_and.1 (matches_group hgroup hmatch) v hv)
    | true =>
      intro hmatch
      rw [hone rfl, matches_and]
      intro v hv
      obtain ⟨g, hg, hvg⟩ := hchildren.reopened v hv
      exact ih v hv hvg (hmatch g hg)
  | @orPos vs w hall hw hsafe ihall ihw =>
    obtain ⟨gs, hchildren, rfl⟩ := reopen_group_ok (c := .or) rfl hg
    intro hmatch
    rw [matches_or]
    rcases matches_partsFilter_or.1 hmatch with hempty | ⟨g, hg, hne, hmg⟩
    · -- nothing is left of the group, and the filter that is safe on its own matches everything
      obtain ⟨g, hg, hwg⟩ := hchildren.reopened w hw
      rw [hempty g hg] at hwg
      exact ⟨w, hw, ihw hwg matches_empty⟩
    · obtain ⟨v, hv, hvg⟩ := hchildren.original g hg
      exact ⟨v, hv, ihall v hv (fun hdropped => hne (dropped_reopens hdropped hvg)) hvg hmg⟩
  | @orNeg fs vs hgroup hread hall ih =>
    obtain ⟨gs, hchildren, rfl⟩ := reopen_group_ok hgroup hg
    intro hmatch
    obtain ⟨v, hv, hmv⟩ := matches_or.1 (matches_group hgroup hmatch)
    obtain ⟨g, hg, hvg⟩ := hchildren.reopened v hv
    exact matches_partsFilter_or.2 (.inr ⟨g, hg, represented_reopens (hread v hv) hvg, ih v hv hvg hmv⟩)
  | @norPos vs hread hall ih =>
    obtain ⟨gs, hchildren, rfl⟩ := reopen_group_ok (c := .nor) rfl hg
    intro hmatch
    refine matches_nor.2 fun v hv hmv => ?_
    obtain ⟨g, hg, hvg⟩ := hchildren.reopened v hv
    exact matches_partsFilter_nor.1 hmatch g hg (represented_reopens (hread v hv) hvg) (ih v hv hvg hmv)
  | @norNeg fs vs hgroup hall ih =>
    obtain ⟨gs, hchildren, rfl⟩ := reopen_group_ok hgroup hg
    intro hmatch
    refine matches_partsFilter_nor.2 fun g hg hne hmg => ?_
    obtain ⟨v, hv, hvg⟩ := hchildren.original g hg
    refine matches_nor.1 (matches_group hgroup hmatch) v hv ?_
    exact ih v hv (fun hdropped => hne (dropped_reopens hdropped hvg)) hvg hmg

end Vqb
