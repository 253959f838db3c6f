import NosqlBuddy.Sql.WriteValues

/-!
# The names of columns and tables

A column is written bare or between backticks, alone or behind the name or the alias of the table of `FROM` (`columnOf`); a
table is written with or without quotes. The translator extracts names with `field_name` and `ident_chain` in expressions
(sql_to_mongo.rs:1075-1105), and with `Display` in `SET`, in the columns of an `INSERT` and for tables
(:402-413, :722-729, :806-834).

`resolved_iff_plain`: the extracted name is the column's path exactly when no name is qualified by the table, no name behind
`SET` or `INSERT` and no table is quoted, and no column between backticks starts with `#`.
-/

namespace Sql
open Mongo (Value)

/-! ## Columns -/

/-- Bare or between backticks. -/
def Ident.Plain (i : Ident) : Prop := i.quoteStyle = none ∨ i.quoteStyle = some '\x60'

instance (i : Ident) : Decidable i.Plain := inferInstanceAs (Decidable (_ ∨ _))

/-- The parts of a name behind the qualifier. -/
def unqualified (tables : List String) : List Ident → List Ident
  | i :: j :: is => if i.value ∈ tables then j :: is else i :: j :: is
  | is => is

/-- The path of the column that a reference names; a bare `#…` is a date tag, and between double quotes there is a string. -/
def columnOf (tables : List String) : SqlExpr → Option String
  | .identifier i => if i.Plain ∧ (i.quoteStyle = none → i.value.toList.head? ≠ some '#') then some i.value else none
  | .compoundIdentifier is => if ∀ i ∈ is, i.Plain then some (identChain (unqualified tables is)) else none
  | _ => none

/-- The path of a column of `SET` or `INSERT`. -/
def targetColumn (tables : List String) (n : ObjectName) : Option String :=
  if ∀ i ∈ n, i.Plain then some (identChain (unqualified tables n)) else none

mutual

/-- The references of an expression. -/
def SqlExpr.references : SqlExpr → List SqlExpr
  | .identifier i => [.identifier i]
  | .compoundIdentifier is => [.compoundIdentifier is]
  | .nested e => e.references
  | .value _ => []
  | .unaryOp _ e => e.references
  | .binaryOp l _ r => l.references ++ r.references
  | .inList e list _ => e.references ++ referencesAll list
  | .isNull e => e.references
  | .isNotNull e => e.references
  | .between e _ low high => e.references ++ low.references ++ high.references
  | .like _ _ e pattern _ => e.references ++ pattern.references
  | .function _ args _ => referencesAll args
  | .other _ => []

def referencesAll : List SqlExpr → List SqlExpr
  | [] => []
  | e :: es => e.references ++ referencesAll es

end

/-! ## Statements -/

/-- The name and the alias of a table. -/
def TableFactor.names : TableFactor → List String
  | .table name alias_ _ => (name.getLast?.map Ident.value).toList ++ (alias_.map Ident.value).toList
  | .other => []

def TableFactor.objectName : TableFactor → List ObjectName
  | .table name _ _ => [name]
  | .other => []

/-- The `SELECT` inside the parentheses. -/
def SetExpr.inner : SetExpr → Option Select
  | .select s => some s
  | .query _ body _ _ _ => body.inner
  | _ => none

def SelectItem.exprs : SelectItem → List SqlExpr
  | .unnamedExpr e => [e]
  | .exprWithAlias e _ => [e]
  | _ => []

def GroupByExpr.exprs : GroupByExpr → List SqlExpr
  | .expressions es _ => es
  | .all => []

def OrderByKind.exprs : OrderByKind → List SqlExpr
  | .expressions es => es.map OrderByExpr.expr
  | .all => []

def Select.exprs (s : Select) : List SqlExpr :=
  s.projection.flatMap SelectItem.exprs ++ s.selection.toList ++ s.groupBy.exprs ++ s.having.toList

/-- The names of the table of `FROM`. -/
def fromNames (from_ : List TableWithJoins) : List String :=
  match from_ with
  | t :: _ => t.relation.names
  | [] => []

def Statement.tables : Statement → List String
  | .query q => (q.body.inner.map fun s => fromNames s.from_).getD []
  | .update u => u.table.relation.names
  | .insert i => match i.table with
    | .tableName n => (n.getLast?.map Ident.value).toList
    | _ => []
  | .delete d => fromNames d.tables
  | .other _ => []

/-- The expressions of the projection, of `WHERE`, `GROUP BY`, `HAVING` and `ORDER BY`. -/
def Statement.exprs : Statement → List SqlExpr
  | .query q => (q.body.inner.map Select.exprs).getD [] ++ (q.orderBy.map OrderByKind.exprs).getD []
  | .update u => u.selection.toList
  | .delete d => d.selection.toList
  | _ => []

def Statement.references (s : Statement) : List SqlExpr := referencesAll s.exprs

def Assignment.names (a : Assignment) : List ObjectName :=
  match a.target with
  | .columnName n => [n]
  | .tuple => []

/-- The columns of `SET` and `INSERT`. -/
def Statement.targets : Statement → List ObjectName
  | .update u => u.assignments.flatMap Assignment.names
  | .insert i => i.columns
  | _ => []

def TableWithJoins.objectNames (t : TableWithJoins) : List ObjectName :=
  t.relation.objectName ++ t.joins.flatMap fun j => j.relation.objectName

/-- The tables of `FROM`, `JOIN`, `UPDATE`, `INSERT` and `DELETE`. -/
def Statement.tableNames : Statement → List ObjectName
  | .query q => (q.body.inner.map fun s => s.from_.flatMap TableWithJoins.objectNames).getD []
  | .update u => u.table.objectNames
  | .insert i => match i.table with
    | .tableName n => [n]
    | _ => []
  | .delete d => d.tables.flatMap TableWithJoins.objectNames
  | .other _ => []

/-! ## Which names are resolved -/

/-- Each of the references is extracted as the path of its column. -/
def Resolving (tables : List String) (rs : List SqlExpr) : Prop :=
  ∀ r ∈ rs, ∀ c, columnOf tables r = some c → fieldName r = some c

/-- Every name is extracted as the path of its column, or as the name of its table. -/
structure Resolved (s : Statement) : Prop where
  references : Resolving s.tables s.references
  targets : ∀ n ∈ s.targets, ∀ c, targetColumn s.tables n = some c → n.display = c
  tables : ∀ n ∈ s.tableNames, n.display = identChain n

def Qualified (tables : List String) (is : List Ident) : Prop := ∃ i j rest, is = i :: j :: rest ∧ i.value ∈ tables

/-- What a name must not be, to be extracted as its column. -/
structure PlainNames (s : Statement) : Prop where
  unqualified : ∀ is, .compoundIdentifier is ∈ s.references → (∀ i ∈ is, i.Plain) → ¬ Qualified s.tables is
  noTag : ∀ i, .identifier i ∈ s.references → i.quoteStyle = some '\x60' → i.value.toList.head? ≠ some '#'
  unquoted : ∀ n ∈ s.targets, (∀ i ∈ n, i.Plain) → (∀ i ∈ n, i.quoteStyle = none) ∧ ¬ Qualified s.tables n
  unquotedTables : ∀ n ∈ s.tableNames, ∀ i ∈ n, i.quoteStyle = none

section
variable {tables : List String} {is : List Ident} {i : Ident} {n : ObjectName} {c : String}

theorem unqualified_eq (h : ¬ Qualified tables is) : unqualified tables is = is := by
  cases is with
  | nil => rfl
  | cons i rest =>
    cases rest with
    | nil => rfl
    | cons j rest => rw [unqualified, if_neg fun hi => h ⟨i, j, rest, rfl, hi⟩]

theorem identChain_cons_cons (i j : Ident) (rest : List Ident) :
    identChain (i :: j :: rest) = i.value ++ "." ++ identChain (j :: rest) := by
  simp only [identChain, List.map_cons, String.intercalate_cons_cons]

theorem display_cons_cons (i j : Ident) (rest : List Ident) :
    ObjectName.display (i :: j :: rest) = i.display ++ "." ++ ObjectName.display (j :: rest) := by
  simp only [ObjectName.display, List.map_cons, String.intercalate_cons_cons]

theorem length_qualified (h : Qualified tables is) : (identChain (unqualified tables is)).length < (identChain is).length := by
  obtain ⟨i, j, rest, rfl, hi⟩ := h
  rw [unqualified, if_pos hi, identChain_cons_cons]
  simp only [String.length_append]
  have hdot : ".".length = 1 := rfl
  omega

/-- **A compound name is the path of its column iff it is not qualified.** -/
theorem chain_unqualified_iff : identChain is = identChain (unqualified tables is) ↔ ¬ Qualified tables is := by
  constructor
  · intro h hq
    have hlt := length_qualified hq
    rw [← h] at hlt
    exact Nat.lt_irrefl _ hlt
  · intro h
    rw [unqualified_eq h]

theorem length_le_escape (q : Char) (s : String) : s.length ≤ (escapeQuotedString q s).length := by
  rw [escapeQuotedString, String.length_ofList, ← String.length_toList]
  induction s.toList with
  | nil => exact Nat.le_refl _
  | cons c cs ih =>
    rw [List.flatMap_cons, List.length_append, List.length_cons]
    by_cases hc : c = q
    · rw [if_pos hc]
      simp only [List.length_cons, List.length_nil]
      omega
    · rw [if_neg hc]
      simp only [List.length_cons, List.length_nil]
      omega

theorem length_quoted (h : i.quoteStyle ≠ none) : i.value.length + 2 ≤ i.display.length := by
  obtain ⟨q, hq⟩ := Option.ne_none_iff_exists'.1 h
  rw [Ident.display, hq]
  have hlen : i.value.length ≤ (if q = '[' then i.value else escapeQuotedString q i.value).length := by
    by_cases hb : q = '['
    · rw [if_pos hb]
    · rw [if_neg hb]
      exact length_le_escape q i.value
  simp only [String.length_append, String.length_singleton]
  omega

theorem length_le_display (i : Ident) : i.value.length ≤ i.display.length := by
  by_cases h : i.quoteStyle = none
  · rw [display_unquoted h]
  · have := length_quoted h
    omega

theorem chain_le_display : ∀ n : ObjectName, (identChain n).length ≤ n.display.length
  | [] => Nat.le_refl _
  | [i] => by
    simp only [identChain, ObjectName.display, List.map_cons, List.map_nil, String.intercalate_singleton]
    exact length_le_display i
  | i :: j :: rest => by
    have hi := length_le_display i
    have hrest := chain_le_display (j :: rest)
    rw [identChain_cons_cons, display_cons_cons]
    simp only [String.length_append]
    omega

theorem chain_lt_display : ∀ {n : ObjectName}, (∃ i ∈ n, i.quoteStyle ≠ none) → (identChain n).length < n.display.length
  | [], h => by
    obtain ⟨i, hi, -⟩ := h
    exact absurd hi List.not_mem_nil
  | [i], h => by
    obtain ⟨k, hk, hq⟩ := h
    obtain rfl := List.mem_singleton.1 hk
    have := length_quoted hq
    simp only [identChain, ObjectName.display, List.map_cons, List.map_nil, String.intercalate_singleton]
    omega
  | i :: j :: rest, h => by
    obtain ⟨k, hk, hq⟩ := h
    rw [identChain_cons_cons, display_cons_cons]
    simp only [String.length_append]
    rcases List.mem_cons.1 hk with rfl | hk
    · have hi := length_quoted hq
      have hrest := chain_le_display (j :: rest)
      omega
    · have hi := length_le_display i
      have hrest := chain_lt_display ⟨k, hk, hq⟩
      omega

/-- **A name is displayed as its chain iff none of its parts is quoted.** -/
theorem display_eq_chain_iff : n.display = identChain n ↔ ∀ i ∈ n, i.quoteStyle = none := by
  constructor
  · intro h i hi
    by_contra hq
    have hlt := chain_lt_display ⟨i, hi, hq⟩
    rw [h] at hlt
    exact Nat.lt_irrefl _ hlt
  · exact display_eq_chain

theorem display_eq_target_iff :
    n.display = identChain (unqualified tables n) ↔ (∀ i ∈ n, i.quoteStyle = none) ∧ ¬ Qualified tables n := by
  constructor
  · intro h
    have hq : ¬ Qualified tables n := by
      intro hq
      have hlt := length_qualified hq
      have hle := chain_le_display n
      rw [h] at hle
      omega
    rw [unqualified_eq hq] at h
    exact ⟨display_eq_chain_iff.1 h, hq⟩
  · rintro ⟨hu, hq⟩
    rw [unqualified_eq hq, display_eq_chain_iff.2 hu]

theorem classifyIdent_field (h : i.value.toList.head? ≠ some '#') (hq : i.Plain) : classifyIdent i = .field i.value := by
  unfold classifyIdent
  split
  · next tag htag =>
    rw [htag] at h
    exact absurd rfl h
  · rw [if_neg]
    intro hd
    rcases hq with hn | hb
    · rw [hn] at hd
      cases hd
    · rw [hb] at hd
      exact absurd hd (by decide)

theorem classifyIdent_tag (h : i.value.toList.head? = some '#') (f : String) : classifyIdent i ≠ .field f := by
  unfold classifyIdent
  split
  · intro hf
    cases hf
  · next hno =>
    obtain ⟨tag, htag⟩ := List.head?_eq_some_iff.1 h
    exact absurd htag (hno tag)

theorem identifier_resolved_iff : (∀ c, columnOf tables (.identifier i) = some c → fieldName (.identifier i) = some c) ↔
    (i.quoteStyle = some '\x60' → i.value.toList.head? ≠ some '#') := by
  rw [columnOf, fieldName]
  constructor
  · intro h hq hhead
    have hc := h i.value (if_pos ⟨Or.inr hq, fun hn => by rw [hn] at hq; cases hq⟩)
    revert hc
    cases hcl : classifyIdent i with
    | field f => exact absurd hcl (classifyIdent_tag hhead f)
    | dateTag tag => exact fun hc => by cases hc
    | stringLiteral s => exact fun hc => by cases hc
  · intro h c hc
    by_cases hp : i.Plain ∧ (i.quoteStyle = none → i.value.toList.head? ≠ some '#')
    · rw [if_pos hp] at hc
      have hhead : i.value.toList.head? ≠ some '#' := hp.1.elim hp.2 h
      rw [classifyIdent_field hhead hp.1]
      exact hc
    · rw [if_neg hp] at hc
      cases hc

theorem compound_resolved_iff :
    (∀ c, columnOf tables (.compoundIdentifier is) = some c → fieldName (.compoundIdentifier is) = some c) ↔
      ((∀ i ∈ is, i.Plain) → ¬ Qualified tables is) := by
  rw [columnOf, fieldName]
  constructor
  · intro h hp
    rw [← chain_unqualified_iff]
    exact Option.some.inj (h _ (if_pos hp))
  · intro h c hc
    by_cases hp : ∀ i ∈ is, i.Plain
    · rw [if_pos hp] at hc
      rw [← hc, chain_unqualified_iff.2 (h hp)]
    · rw [if_neg hp] at hc
      cases hc

theorem target_resolved_iff : (∀ c, targetColumn tables n = some c → n.display = c) ↔
    ((∀ i ∈ n, i.Plain) → (∀ i ∈ n, i.quoteStyle = none) ∧ ¬ Qualified tables n) := by
  rw [targetColumn]
  constructor
  · intro h hp
    exact display_eq_target_iff.1 (h _ (if_pos hp))
  · intro h c hc
    by_cases hp : ∀ i ∈ n, i.Plain
    · rw [if_pos hp] at hc
      rw [← Option.some.inj hc]
      exact display_eq_target_iff.2 (h hp)
    · rw [if_neg hp] at hc
      cases hc

end

/-- **The names of a statement are resolved iff they are plain.** -/
theorem resolved_iff_plain {s : Statement} : Resolved s ↔ PlainNames s := by
  constructor
  · intro h
    constructor
    · intro is his
      exact compound_resolved_iff.1 (h.references _ his)
    · intro i hi
      exact identifier_resolved_iff.1 (h.references _ hi)
    · intro n hn
      exact target_resolved_iff.1 (h.targets n hn)
    · intro n hn
      exact display_eq_chain_iff.1 (h.tables n hn)
  · intro h
    constructor
    · intro r hr
      cases r with
      | identifier i => exact identifier_resolved_iff.2 (h.noTag i hr)
      | compoundIdentifier is => exact compound_resolved_iff.2 (h.unqualified is hr)
      | _ => exact fun c hc => by cases hc
    · intro n hn
      exact target_resolved_iff.2 (h.unquoted n hn)
    · intro n hn
      exact display_eq_chain_iff.2 (h.unquotedTables n hn)

end Sql
