import NosqlBuddy.Sql.Congruence

/-!
# Statements with every column by its path

A statement, and the same statement in which every column is written as its path and every table as its name
(`Statement.canonical`). What a reference means to the translator is only what `field_name` extracts from it
(sql_to_mongo.rs:1095), so a statement whose names are resolved is translated as its canonical form (`translate_canonical`).
-/

namespace Sql
open Mongo (Value)
open Warned (Alike alike_eq)

/-! ## Every column by its path -/

/-- The reference, written as the path of its column. -/
def byPath (tables : List String) (r : SqlExpr) : SqlExpr :=
  match columnOf tables r with
  | some c => .compoundIdentifier [⟨c, none⟩]
  | none => r

mutual

def SqlExpr.canonical (tables : List String) : SqlExpr → SqlExpr
  | .identifier i => byPath tables (.identifier i)
  | .compoundIdentifier is => byPath tables (.compoundIdentifier is)
  | .nested e => .nested (e.canonical tables)
  | .value v => .value v
  | .unaryOp op e => .unaryOp op (e.canonical tables)
  | .binaryOp l op r => .binaryOp (l.canonical tables) op (r.canonical tables)
  | .inList e list negated => .inList (e.canonical tables) (canonicalAll tables list) negated
  | .isNull e => .isNull (e.canonical tables)
  | .isNotNull e => .isNotNull (e.canonical tables)
  | .between e negated low high => .between (e.canonical tables) negated (low.canonical tables) (high.canonical tables)
  | .like caseInsensitive negated e pattern unread =>
    .like caseInsensitive negated (e.canonical tables) (pattern.canonical tables) unread
  | .function name args form => .function name (canonicalAll tables args) form
  | .other display => .other display

def canonicalAll (tables : List String) : List SqlExpr → List SqlExpr
  | [] => []
  | e :: es => e.canonical tables :: canonicalAll tables es

end

def canonicalName (n : ObjectName) : ObjectName := [⟨identChain n, none⟩]

def canonicalTarget (tables : List String) (n : ObjectName) : ObjectName :=
  match targetColumn tables n with
  | some c => [⟨c, none⟩]
  | none => n

def TableFactor.canonical : TableFactor → TableFactor
  | .table n alias_ unread => .table (canonicalName n) alias_ unread
  | .other => .other

def Join.canonical (j : Join) : Join := { j with relation := j.relation.canonical }

def TableWithJoins.canonical (t : TableWithJoins) : TableWithJoins :=
  { relation := t.relation.canonical, joins := t.joins.map Join.canonical }

def TableObject.canonical : TableObject → TableObject
  | .tableName n => .tableName (canonicalName n)
  | .tableFunction => .tableFunction
  | .tableQuery => .tableQuery

def AssignmentTarget.canonical (tables : List String) : AssignmentTarget → AssignmentTarget
  | .columnName n => .columnName (canonicalTarget tables n)
  | .tuple => .tuple

def Assignment.canonical (tables : List String) (a : Assignment) : Assignment :=
  { a with target := a.target.canonical tables }

section
variable (tables : List String)

def SelectItem.canonical : SelectItem → SelectItem
  | .unnamedExpr e => .unnamedExpr (e.canonical tables)
  | .exprWithAlias e alias_ => .exprWithAlias (e.canonical tables) alias_
  | .exprWithAliases => .exprWithAliases
  | .wildcard unread => .wildcard unread
  | .qualifiedWildcard => .qualifiedWildcard

def GroupByExpr.canonical : GroupByExpr → GroupByExpr
  | .expressions es modifiers => .expressions (es.map (SqlExpr.canonical tables)) modifiers
  | .all => .all

def OrderByExpr.canonical (o : OrderByExpr) : OrderByExpr := { o with expr := o.expr.canonical tables }

def OrderByKind.canonical : OrderByKind → OrderByKind
  | .expressions es => .expressions (es.map (OrderByExpr.canonical tables))
  | .all => .all

def Select.canonical (s : Select) : Select :=
  { s with
    projection := s.projection.map (SelectItem.canonical tables)
    from_ := s.from_.map TableWithJoins.canonical
    selection := s.selection.map (SqlExpr.canonical tables)
    groupBy := s.groupBy.canonical tables
    having := s.having.map (SqlExpr.canonical tables) }

def SetExpr.canonical : SetExpr → SetExpr
  | .select s => .select (s.canonical tables)
  | .query withClause body orderBy limitClause unread => .query withClause (body.canonical) orderBy limitClause unread
  | .values rows => .values rows
  | .other => .other

end

/-- The statement in which every column is written as its path and every table as its name. -/
def Statement.canonical (s : Statement) : Statement :=
  match s with
  | .query q => .query { q with
      body := q.body.canonical s.tables
      orderBy := q.orderBy.map (OrderByKind.canonical s.tables) }
  | .update u => .update { u with
      table := u.table.canonical
      assignments := u.assignments.map (Assignment.canonical s.tables)
      selection := u.selection.map (SqlExpr.canonical s.tables) }
  | .insert i => .insert { i with
      table := i.table.canonical
      columns := i.columns.map (canonicalTarget s.tables) }
  | .delete d => .delete { d with
      tables := d.tables.map TableWithJoins.canonical
      selection := d.selection.map (SqlExpr.canonical s.tables) }
  | .other display => .other display

/-! ## Expressions -/

/-- A resolved reference by its path, and as it is written. -/
inductive ByPath (tables : List String) : SqlExpr → SqlExpr → Prop
  | identifier {i : Ident} (h : ∀ c, columnOf tables (.identifier i) = some c → fieldName (.identifier i) = some c) :
    ByPath tables (byPath tables (.identifier i)) (.identifier i)
  | compoundIdentifier {is : List Ident}
    (h : ∀ c, columnOf tables (.compoundIdentifier is) = some c → fieldName (.compoundIdentifier is) = some c) :
    ByPath tables (byPath tables (.compoundIdentifier is)) (.compoundIdentifier is)

section
variable {today : ℤ} {tables : List String} {e r : SqlExpr} {es : List SqlExpr} {f : String}

theorem resolving_append :
    Resolving tables (rs ++ rs') ↔ Resolving tables rs ∧ Resolving tables rs' :=
  List.forall_mem_append

theorem resolving_all : Resolving tables (referencesAll es) ↔ ∀ e ∈ es, Resolving tables e.references := by
  induction es with
  | nil =>
    constructor
    · intro _ e he
      exact absurd he List.not_mem_nil
    · intro _ r hr
      exact absurd hr List.not_mem_nil
  | cons e es ih => rw [referencesAll, resolving_append, ih, List.forall_mem_cons]

theorem fieldName_path (c : String) : fieldName (.compoundIdentifier [⟨c, none⟩]) = some c := by
  rw [fieldName, identChain, List.map_cons, List.map_nil, String.intercalate_singleton]

theorem byPath_cases (h : ∀ c, columnOf tables r = some c → fieldName r = some c) :
    byPath tables r = r ∨ ∃ c, fieldName r = some c ∧ byPath tables r = .compoundIdentifier [⟨c, none⟩] := by
  rw [byPath]
  cases hc : columnOf tables r with
  | none => exact .inl rfl
  | some c => exact .inr ⟨c, h c hc, rfl⟩

theorem ByPath.cases (h : ByPath tables e r) :
    e = r ∧ ¬ r.isFunction ∨ ∃ c, fieldName r = some c ∧ e = .compoundIdentifier [⟨c, none⟩] ∧ ¬ r.isFunction := by
  cases h with
  | identifier h =>
    obtain he | ⟨c, hc, he⟩ := byPath_cases h
    · exact .inl ⟨he, Bool.false_ne_true⟩
    · exact .inr ⟨c, hc, he, Bool.false_ne_true⟩
  | compoundIdentifier h =>
    obtain he | ⟨c, hc, he⟩ := byPath_cases h
    · exact .inl ⟨he, Bool.false_ne_true⟩
    · exact .inr ⟨c, hc, he, Bool.false_ne_true⟩

theorem exprToFilter_reference (h : ByPath tables e r) :
    exprToFilter today e = exprFilter today e ∧ exprToFilter today r = exprFilter today r := by
  cases h with
  | identifier h =>
    refine ⟨?_, by simp only [exprToFilter]⟩
    obtain he | ⟨c, _, he⟩ := byPath_cases h
    · rw [he]
      simp only [exprToFilter]
    · rw [he]
      simp only [exprToFilter]
  | compoundIdentifier h =>
    refine ⟨?_, by simp only [exprToFilter]⟩
    obtain he | ⟨c, _, he⟩ := byPath_cases h
    · rw [he]
      simp only [exprToFilter]
    · rw [he]
      simp only [exprToFilter]

/-- **A resolved reference is looked at only through the name it is extracted as.** -/
theorem byPathLeaves : Leaves today Eq (ByPath tables) where
  fieldName := by
    intro e r h
    obtain ⟨rfl, -⟩ | ⟨c, hc, rfl, -⟩ := h.cases
    · rfl
    · rw [fieldName_path, hc]
  isLiteral := by
    intro e r h
    obtain ⟨rfl, -⟩ | ⟨c, hc, rfl, -⟩ := h.cases
    · rfl
    · rw [isLiteral_fieldName hc]
      rfl
  isFunction := by
    intro e r h
    obtain ⟨rfl, -⟩ | ⟨c, hc, rfl, hno⟩ := h.cases
    · rfl
    · rw [Bool.not_eq_true] at hno
      rw [hno]
      rfl
  filter := exprToFilter_reference
  aggExpr := by
    intro e r h
    obtain ⟨rfl, -⟩ | ⟨c, hc, rfl, -⟩ := h.cases
    · exact alike_eq.2 rfl
    · rw [exprToAggExpr_fieldName hc, exprToAggExpr_fieldName (fieldName_path c)]
      exact alike_eq.2 rfl

theorem likePatternString_byPath (tables : List String) (r : SqlExpr) :
    likePatternString (byPath tables r) = likePatternString r := by
  rw [byPath]
  cases hc : columnOf tables r with
  | none => rfl
  | some c =>
    cases r with
    | identifier i =>
      rw [columnOf] at hc
      by_cases hp : i.Plain ∧ (i.quoteStyle = none → i.value.toList.head? ≠ some '#')
      · have hq : i.quoteStyle ≠ some '"' := by
          rcases hp.1 with hn | hb
          · rw [hn]
            exact fun hq => by cases hq
          · rw [hb]
            decide
        exact (if_neg hq).symm
      · rw [if_neg hp] at hc
        cases hc
    | compoundIdentifier is => rfl
    | _ => cases hc

theorem likePatternString_canonical (tables : List String) (e : SqlExpr) :
    likePatternString (e.canonical tables) = likePatternString e := by
  cases e with
  | identifier i => exact likePatternString_byPath tables _
  | compoundIdentifier is => exact likePatternString_byPath tables _
  | _ => rfl

mutual

/-- **A resolved expression and the one with its columns by their paths differ in resolved references.** -/
theorem canonical_congruent : ∀ {e : SqlExpr}, Resolving tables e.references → Congruent (ByPath tables) (e.canonical tables) e
  | .identifier i, h => .leaf (.identifier (h _ (List.mem_singleton.2 rfl)))
  | .compoundIdentifier is, h => .leaf (.compoundIdentifier (h _ (List.mem_singleton.2 rfl)))
  | .nested e, h => by
    rw [SqlExpr.references] at h
    exact .nested (canonical_congruent h)
  | .value v, _ => .same (.value v)
  | .unaryOp op e, h => by
    rw [SqlExpr.references] at h
    exact .unaryOp op (canonical_congruent h)
  | .binaryOp l op r, h => by
    rw [SqlExpr.references, resolving_append] at h
    exact .binaryOp op (canonical_congruent h.1) (canonical_congruent h.2)
  | .inList e list negated, h => by
    rw [SqlExpr.references, resolving_append] at h
    exact .inList negated (canonical_congruent h.1) (canonicalAll_congruent h.2)
  | .isNull e, h => by
    rw [SqlExpr.references] at h
    exact .isNull (canonical_congruent h)
  | .isNotNull e, h => by
    rw [SqlExpr.references] at h
    exact .isNotNull (canonical_congruent h)
  | .between e negated low high, h => by
    rw [SqlExpr.references, resolving_append, resolving_append] at h
    exact .between negated (canonical_congruent h.1.1) (canonical_congruent h.1.2) (canonical_congruent h.2)
  | .like caseInsensitive negated e pattern unread, h => by
    rw [SqlExpr.references, resolving_append] at h
    exact .like caseInsensitive negated unread (canonical_congruent h.1) (likePatternString_canonical tables pattern)
  | .function name args form, h => by
    rw [SqlExpr.references] at h
    exact .function name form (canonicalAll_congruent h)
  | .other display, _ => .same (.other display)

theorem canonicalAll_congruent : ∀ {es : List SqlExpr}, Resolving tables (referencesAll es) →
    CongruentAll (ByPath tables) (canonicalAll tables es) es
  | [], _ => .nil
  | e :: es, h => by
    rw [referencesAll, resolving_append] at h
    exact .cons (canonical_congruent h.1) (canonicalAll_congruent h.2)

end

theorem canonicalKeys_congruent : ∀ {es : List SqlExpr}, (∀ e ∈ es, Resolving tables e.references) →
    CongruentAll (ByPath tables) (es.map (SqlExpr.canonical tables)) es
  | [], _ => .nil
  | e :: es, h => by
    rw [List.forall_mem_cons] at h
    exact .cons (canonical_congruent h.1) (canonicalKeys_congruent h.2)

/-! ## Clauses -/

theorem tableFactorName_canonical {t : TableFactor} (h : ∀ n ∈ t.objectName, n.display = identChain n) :
    tableFactorName t.canonical = tableFactorName t := by
  cases t with
  | other => rfl
  | table n a u =>
    rw [TableFactor.canonical, tableFactorName, tableFactorName, h n (List.mem_singleton.2 rfl)]
    simp only [ObjectName.display, canonicalName, List.map_cons, List.map_nil, String.intercalate_singleton, Ident.display]

theorem buildJoins_canonical : ∀ {js : List Join},
    (∀ j ∈ js, ∀ n ∈ j.relation.objectName, n.display = identChain n) → buildJoins (js.map Join.canonical) = buildJoins js
  | [], _ => rfl
  | j :: js, h => by
    have hj : buildJoin j.canonical = buildJoin j := by
      rw [buildJoin, buildJoin, Join.canonical, tableFactorName_canonical (h j List.mem_cons_self)]
    rw [List.map_cons, buildJoins, buildJoins, hj, buildJoins_canonical fun k hk => h k (List.mem_cons_of_mem j hk)]

theorem canonical_table {t : TableWithJoins} (h : ∀ n ∈ t.objectNames, n.display = identChain n) :
    TableAlike t.canonical t := by
  rw [TableWithJoins.objectNames, List.forall_mem_append] at h
  refine ⟨tableFactorName_canonical h.1, buildJoins_canonical fun j hj n hn => ?_, List.isEmpty_map⟩
  exact h.2 n (List.mem_flatMap.2 ⟨j, hj, hn⟩)

theorem canonical_tables {ts : List TableWithJoins} (h : ∀ n ∈ ts.flatMap TableWithJoins.objectNames, n.display = identChain n) :
    List.Forall₂ TableAlike (ts.map TableWithJoins.canonical) ts := by
  rw [List.forall₂_map_left_iff, List.forall₂_same]
  exact fun t ht => canonical_table fun n hn => h n (List.mem_flatMap.2 ⟨t, ht, hn⟩)

theorem canonical_condition (h : ∀ e ∈ e?.toList, Resolving tables e.references) :
    Option.Rel (ConditionAlike AnyKey (ByPath tables) (ByPath tables)) (e?.map (SqlExpr.canonical tables)) e? := by
  cases e? with
  | none => exact .none
  | some e => exact .some ⟨fun _ _ _ _ => trivial, .computed (canonical_congruent (h e (List.mem_singleton.2 rfl)))⟩

theorem canonical_having (h : ∀ e ∈ e?.toList, Resolving tables e.references) :
    Option.Rel (Congruent (ByPath tables)) (e?.map (SqlExpr.canonical tables)) e? := by
  cases e? with
  | none => exact .none
  | some e => exact .some (canonical_congruent (h e (List.mem_singleton.2 rfl)))

theorem canonical_item : ∀ {i : SelectItem}, (∀ e ∈ i.exprs, Resolving tables e.references) →
    SelectItemAlike (ByPath tables) (i.canonical tables) i
  | .unnamedExpr e, h => .unnamedExpr (canonical_congruent (h e (List.mem_singleton.2 rfl)))
  | .exprWithAlias e a, h => .exprWithAlias a (canonical_congruent (h e (List.mem_singleton.2 rfl)))
  | .wildcard _, _ => .same _
  | .qualifiedWildcard, _ => .same _
  | .exprWithAliases, _ => .same _

theorem canonical_orderBy (h : ∀ e ∈ (o?.map OrderByKind.exprs).getD [], Resolving tables e.references) :
    Option.Rel (OrderByAlike (ByPath tables)) (o?.map (OrderByKind.canonical tables)) o? := by
  cases o? with
  | none => exact .none
  | some o =>
    cases o with
    | all => exact .some .all
    | expressions es =>
      refine .some (.expressions ?_)
      rw [List.forall₂_map_left_iff, List.forall₂_same]
      exact fun o ho => ⟨canonical_congruent (h o.expr (List.mem_map_of_mem ho)), rfl⟩

theorem canonical_select {s : Select} (h : ∀ e ∈ s.exprs, Resolving tables e.references)
    (ht : ∀ n ∈ s.from_.flatMap TableWithJoins.objectNames, n.display = identChain n) :
    SelectAlike AnyKey (ByPath tables) (ByPath tables) (s.canonical tables) s := by
  rw [Select.exprs, List.forall_mem_append, List.forall_mem_append, List.forall_mem_append] at h
  obtain ⟨⟨⟨hproj, hsel⟩, hgroup⟩, hhaving⟩ := h
  refine ⟨rfl, ?_, canonical_tables ht, canonical_condition hsel, ?_, canonical_having hhaving⟩
  · show List.Forall₂ _ (s.projection.map (SelectItem.canonical tables)) s.projection
    rw [List.forall₂_map_left_iff, List.forall₂_same]
    exact fun i hi => canonical_item fun e he => hproj e (List.mem_flatMap.2 ⟨i, hi, he⟩)
  · show GroupByAlike _ (s.groupBy.canonical tables) s.groupBy
    revert hgroup
    cases s.groupBy with
    | all => exact fun _ => .all
    | expressions es modifiers => exact fun hgroup => .expressions modifiers (canonicalKeys_congruent hgroup)

theorem canonical_body : ∀ {b : SetExpr},
    (∀ e ∈ (b.inner.map Select.exprs).getD [], Resolving tables e.references) →
      (∀ n ∈ (b.inner.map fun s => s.from_.flatMap TableWithJoins.objectNames).getD [], ObjectName.display n = identChain n) →
        BodyAlike AnyKey (ByPath tables) (ByPath tables) (b.canonical tables) b
  | .select _, h, ht => .select (canonical_select h ht)
  | .query withClause body orderBy limitClause unread, h, ht => by
    have hb : ∀ e ∈ (body.inner.map Select.exprs).getD [], Resolving tables e.references := h
    exact .query withClause orderBy limitClause unread (canonical_body hb ht)
  | .values rows, _, _ => .values rows
  | .other, _, _ => .other

theorem canonicalTarget_display (h : ∀ c, targetColumn tables n = some c → n.display = c) :
    (canonicalTarget tables n).display = n.display := by
  rw [canonicalTarget]
  cases hc : targetColumn tables n with
  | none => rfl
  | some c =>
    rw [h c hc]
    simp only [ObjectName.display, List.map_cons, List.map_nil, String.intercalate_singleton, Ident.display]

theorem canonicalName_display {n : ObjectName} (h : n.display = identChain n) : (canonicalName n).display = n.display := by
  rw [h]
  simp only [ObjectName.display, canonicalName, List.map_cons, List.map_nil, String.intercalate_singleton, Ident.display]

theorem canonical_assignment (h : ∀ n ∈ a.names, ∀ c, targetColumn tables n = some c → n.display = c) :
    AssignmentAlike (ByPath tables) (a.canonical tables) a := by
  refine ⟨?_, .same _⟩
  show assignmentTargetToField (a.target.canonical tables) = _
  rw [Assignment.names] at h
  revert h
  cases a.target with
  | tuple => exact fun _ => rfl
  | columnName n =>
    intro h
    rw [AssignmentTarget.canonical, assignmentTargetToField, assignmentTargetToField,
      canonicalTarget_display (h n (List.mem_singleton.2 rfl))]

theorem insertCollection_canonical {t : TableObject} (h : ∀ n, t = .tableName n → n.display = identChain n) :
    insertCollection t.canonical = insertCollection t := by
  cases t with
  | tableName n => rw [TableObject.canonical, insertCollection, insertCollection, canonicalName_display (h n rfl)]
  | tableFunction => rfl
  | tableQuery => rfl

end

/-! ## Statements -/

/-- **A resolved statement and its canonical form differ in resolved references.** -/
theorem statement_canonical {s : Statement} (h : Resolved s) :
    StatementAlike AnyKey (ByPath s.tables) (ByPath s.tables) s.canonical s := by
  have href := resolving_all.1 h.references
  have ht := h.tables
  cases s with
  | query q =>
    rw [Statement.exprs, List.forall_mem_append] at href
    exact .query ⟨rfl, canonical_body href.1 ht, canonical_orderBy href.2, rfl⟩
  | update u =>
    refine .update ⟨canonical_table ht, ?_, canonical_condition href⟩
    show List.Forall₂ _ (u.assignments.map (Assignment.canonical _)) u.assignments
    rw [List.forall₂_map_left_iff, List.forall₂_same]
    exact fun a ha => canonical_assignment fun n hn => h.targets n (List.mem_flatMap.2 ⟨a, ha, hn⟩)
  | insert i =>
    refine .insert ⟨insertCollection_canonical fun n hn => ht n ?_, ?_, ?_⟩
    · rw [Statement.tableNames, hn]
      exact List.mem_singleton.2 rfl
    · show (i.columns.map (canonicalTarget _)).map ObjectName.display = _
      rw [List.map_map]
      exact List.map_congr_left fun n hn => canonicalTarget_display (h.targets n hn)
    · show Option.Rel _ i.source i.source
      cases i.source with
      | none => exact .none
      | some s => exact .some (.same s)
  | delete d => exact .delete ⟨canonical_tables ht, canonical_condition href⟩
  | other display => exact .other display

section
variable {today : ℤ} {database : String} {upsert : Bool}

/-- **A statement whose names are resolved is translated as the one in which every column is written as its path and every
table as its name.** -/
theorem translate_canonical (h : Resolved s) :
    translate today database upsert s.canonical = translate today database upsert s := by
  have hset : Setting today Eq Eq (ByPath s.tables) (ByPath s.tables) :=
    ⟨jsonCongruence_eq, jsonCongruence_eq, byPathLeaves, byPathLeaves, byPathLeaves⟩
  exact alike_eq.1 ((translate_congruent hset database upsert (statement_canonical h)).imp fun t t' ht => ht.eq)

/-- **The names of a statement are resolved iff they are plain, and then each of them means its column or its table.** -/
theorem names_resolve_iff (today : ℤ) (database : String) (upsert : Bool) (s : Statement) :
    (Resolved s ↔ PlainNames s) ∧
      (PlainNames s → translate today database upsert s.canonical = translate today database upsert s) :=
  ⟨resolved_iff_plain, fun h => translate_canonical (resolved_iff_plain.2 h)⟩

end

/-- ``UPDATE `orders` SET `state` = 'paid' WHERE orders.ref = 'a1'``. -/
def quotedUpdate : Statement := .update {
  table := { relation := .table [⟨"orders", some '\x60'⟩] none [] }
  assignments := [⟨.columnName [⟨"state", some '\x60'⟩], .value (.singleQuotedString "paid")⟩]
  selection := some (.binaryOp (.compoundIdentifier [⟨"orders", none⟩, ⟨"ref", none⟩]) .eq
    (.value (.singleQuotedString "a1"))) }

/-- The collection and the field keep their quotes, and the condition is on a field inside `orders`. -/
theorem quoted_update_misses : Warned.Clean (translate 0 "shop" false quotedUpdate) {
      database := "shop"
      collection := "\x60orders\x60"
      operation := .update (.doc [("orders.ref", .str "a1")]) (.doc [("$set", .doc [("\x60state\x60", .str "paid")])])
        true false } ∧
    columnOf quotedUpdate.tables (.compoundIdentifier [⟨"orders", none⟩, ⟨"ref", none⟩]) = some "ref" ∧
    ¬ Resolved quotedUpdate := by
  refine ⟨by decide, by decide, fun h => ?_⟩
  exact absurd (h.tables [⟨"orders", some '\x60'⟩] (List.mem_singleton.2 rfl)) (by decide)

end Sql
