import NosqlBuddy.Sql.Expr

/-!
# Statements as pipelines, finds and writes

`mongo/sql_to_mongo.rs:355-896`, `:1640-1743`. The warnings are those of the `Warned` computation; the driver code of
a translation is left out.
-/

namespace Sql

open Mongo (Value insertKV)
open Mongo.Value

/-! ## Clauses -/

inductive ProjItem where
  | star
  | item (expr : SqlExpr) (alias_ : Option String)

structure OrderItem where
  expr : SqlExpr
  desc : Bool

inductive JoinKind where
  | inner
  | left
  deriving DecidableEq

structure JoinClause where
  collection : String
  localField : String
  foreignField : String
  kind : JoinKind

/-- An error when the condition holds. -/
def reject (c : Bool) (e : String) : Warned Unit := if c then .fail e else pure ()

/-- A warning when the condition holds. -/
def warnIf (c : Bool) (w : String) : Warned Unit := if c then .warn w () else pure ()

/-- `unwrap_query_body` (:392). -/
def unwrapQueryBody : SetExpr → Warned Select
  | .select s => pure s
  | .query _ body _ _ _ => unwrapQueryBody body
  | _ => .fail "only simple SELECT statements are supported (no UNION/EXCEPT/INTERSECT)"

/-- `table_factor_name` (:406). -/
def tableFactorName : TableFactor → Warned String
  | .table name _ _ => pure name.display
  | .other => .fail ("FROM/JOIN must reference a simple table name (subqueries and table functions are " ++
      "not supported)")

def convertItem : SelectItem → Warned ProjItem
  | .wildcard _ => pure .star
  | .unnamedExpr e => pure (.item e none)
  | .exprWithAlias e a => pure (.item e (some a.value))
  | .qualifiedWildcard => .fail "qualified wildcards (table.*) are not supported"
  | .exprWithAliases => .fail "multi-alias projections are not supported"

/-- `convert_projection` (:415). -/
def convertProjection : List SelectItem → Warned (List ProjItem)
  | [] => pure []
  | i :: is => do
    let p ← convertItem i
    let ps ← convertProjection is
    pure (p :: ps)

/-- `projection_name` (:438). -/
def projectionName (expr : SqlExpr) (alias_ : Option String) : String :=
  match alias_ with
  | some a => a
  | none => (fieldName expr).getD "expr"

/-! ## Joins -/

/-- `join_side_field` (:445): of a qualified name the last part. -/
def joinSideField : SqlExpr → Warned String
  | .identifier i => pure i.value
  | .compoundIdentifier is => match is.getLast? with
    | some i => pure i.value
    | none => .fail "empty identifier in JOIN ON clause"
  | _ => .fail "JOIN ON clause must compare simple field references"

/-- `join_condition_fields` (:460). -/
def joinConditionFields : SqlExpr → Warned (String × String)
  | .binaryOp left .eq right => do
    let l ← joinSideField left
    let r ← joinSideField right
    pure (l, r)
  | .nested inner => joinConditionFields inner
  | _ => .fail "JOIN ON clause must be a simple equality: <field> = <field>"

/-- The kind of a join and its constraint (:476-485). -/
def joinKind : JoinOperator → Warned (JoinKind × JoinConstraint)
  | .join c => pure (.inner, c)
  | .inner c => pure (.inner, c)
  | .left c => pure (.left, c)
  | .leftOuter c => pure (.left, c)
  | .other debug => .fail ("unsupported join type `" ++ debug ++
      "`; only INNER/LEFT JOIN ... ON <a> = <b> is supported")

def joinOn : JoinConstraint → Warned SqlExpr
  | .on e => pure e
  | .other => .fail "JOIN requires an ON <field> = <field> condition"

/-- `build_join` (:474): the left operand of `ON` is the local field. -/
def buildJoin (join : Join) : Warned JoinClause := do
  let collection ← tableFactorName join.relation
  let (kind, constraint) ← joinKind join.joinOperator
  let on ← joinOn constraint
  let (localField, foreignField) ← joinConditionFields on
  pure ⟨collection, localField, foreignField, kind⟩

def buildJoins : List Join → Warned (List JoinClause)
  | [] => pure []
  | j :: js => do
    let c ← buildJoin j
    let cs ← buildJoins js
    pure (c :: cs)

/-- A pipeline stage. -/
def stage (op : String) (v : Value) : Value := .doc [(op, v)]

/-- The array field of a join. -/
def JoinClause.asName (join : JoinClause) : String := join.collection ++ "_joined"

/-- `join_to_lookup` (:507). -/
def joinToLookup (join : JoinClause) : List Value :=
  let lookup := stage "$lookup" (.doc [("from", .str join.collection), ("localField", .str join.localField),
    ("foreignField", .str join.foreignField), ("as", .str join.asName)])
  match join.kind with
  | .left => [lookup]
  | .inner => [lookup, stage "$match" (.doc [(join.asName, .doc [("$ne", .arr [])])])]

/-! ## Stages -/

/-- The cast of a double to an `i64` (:1643): truncated, and to the nearest bound outside. -/
def asI64 (q : ℚ) : ℤ := max (-9223372036854775808) (min 9223372036854775807 (q.num.tdiv q.den))

/-- The cast of a double to a `u64` (:1650). -/
def asU64 (q : ℚ) : ℤ := max 0 (min 18446744073709551615 (q.num.tdiv q.den))

/-- `expr_to_i64` (:1640). -/
def exprToI64 (today : ℤ) (e : SqlExpr) : Warned ℤ := do
  match ← exprToAggExpr today e with
  | .num q => pure (asI64 q)
  | _ => .fail "LIMIT must be a numeric literal"

/-- `expr_to_u64` (:1647). -/
def exprToU64 (today : ℤ) (e : SqlExpr) : Warned ℤ := do
  match ← exprToAggExpr today e with
  | .num q => pure (asU64 q)
  | _ => .fail "OFFSET must be a numeric literal"

/-- The entries of `build_project_stage`, in the order of the projection. -/
def projectEntries (today : ℤ) : List ProjItem → Warned (List (String × Value))
  | [] => pure []
  | .star :: ps => projectEntries today ps
  | .item e a :: ps => do
    let v ← exprToAggExpr today e
    let rest ← projectEntries today ps
    pure ((projectionName e a, v) :: rest)

/-- `build_project_stage` (:1654): a later column of a name replaces an earlier one. -/
def buildProjectStage (today : ℤ) (projection : List ProjItem) : Warned (List (String × Value)) := do
  pure (Mongo.insertAll (← projectEntries today projection) [])

def distinctEntries : List ProjItem → List (String × Value)
  | [] => []
  | .star :: ps => distinctEntries ps
  | .item e a :: ps => (projectionName e a, .str ("$" ++ projectionName e a)) :: distinctEntries ps

def ProjItem.isStar : ProjItem → Bool
  | .star => true
  | .item _ _ => false

/-- `build_distinct_group_key` (:1672). -/
def buildDistinctGroupKey (projection : List ProjItem) : Warned Value :=
  if projection.any ProjItem.isStar || (distinctEntries projection).isEmpty then
    .fail "SELECT DISTINCT requires at least one named column"
  else pure (.doc (Mongo.insertAll (distinctEntries projection) []))

/-- `is_grouping_key` (:1729). -/
def isGroupingKey (e : SqlExpr) (keys : List SqlExpr) : Bool :=
  match fieldName e with
  | some name => keys.any fun k => fieldName k = some name
  | none => false

/-- The sub-field of `_id` a grouping expression gets (:1700). -/
def groupKeyName (key : SqlExpr) : String := (fieldName key).getD "_key"

def SqlExpr.isFunction : SqlExpr → Bool
  | .function _ _ _ => true
  | _ => false

/-- The accumulators of `build_group_stage`: grouping keys and unnamed expressions are skipped (:1706-1724). -/
def groupEntries (today : ℤ) (keys : List SqlExpr) : List ProjItem → Warned (List (String × Value))
  | [] => pure []
  | .star :: ps => groupEntries today keys ps
  | .item e a :: ps => match a.or (fieldName e) with
    | none => groupEntries today keys ps
    | some name =>
      if isGroupingKey e keys then groupEntries today keys ps
      else do
        let v ← exprToAggExpr today e
        let rest ← groupEntries today keys ps
        pure ((name, if e.isFunction then v else .doc [("$first", v)]) :: rest)

/-- `build_group_stage` (:1694). -/
def buildGroupStage (today : ℤ) (keys : List SqlExpr) (projection : List ProjItem) : Warned Value := do
  let id := Mongo.insertAll (keys.map fun k => (groupKeyName k, .str ("$" ++ groupKeyName k))) []
  let entries ← groupEntries today keys projection
  pure (.doc (Mongo.insertAll entries [("_id", .doc id)]))

/-- `build_sort_stage` (:1736). -/
def buildSortStage (order : List OrderItem) : Value :=
  .doc (Mongo.insertAll (order.map fun o => ((fieldName o.expr).getD "_id", .num (if o.desc then -1 else 1))) [])

/-! ## `SELECT` -/

/-- The filter of `WHERE` (:560-569). -/
def whereFilter (today : ℤ) : Option SqlExpr → Warned (Option Value)
  | none => pure none
  | some e => do pure (some (← exprToFilter today e))

/-- `DISTINCT` (:571-578). -/
def isDistinct : Option Distinct → Warned Bool
  | some .on => .fail "DISTINCT ON (...) is not supported"
  | some .distinct => pure true
  | _ => pure false

/-- The grouping expressions (:580-588). -/
def groupByExprs : GroupByExpr → Warned (List SqlExpr)
  | .expressions exprs [] => pure exprs
  | .expressions exprs _ => .warn "GROUP BY modifiers (ROLLUP/CUBE/etc.) are ignored" exprs
  | .all => .fail "GROUP BY ALL is not supported"

/-- `DISTINCT`, `GROUP BY` or a projection (:590-609): the stages, and the projection of the find. -/
def shapeStages (today : ℤ) (distinct : Bool) (keys : List SqlExpr) (projection : List ProjItem) :
    Warned (List Value × Option Value) :=
  if distinct && keys.isEmpty then do
    let key ← buildDistinctGroupKey projection
    pure ([stage "$group" (.doc [("_id", key)]), stage "$replaceRoot" (.doc [("newRoot", .str "$_id")])], none)
  else if !keys.isEmpty then do
    pure ([stage "$group" (← buildGroupStage today keys projection)], none)
  else do
    let project ← buildProjectStage today projection
    if project.isEmpty then pure ([], none)
    else pure ([stage "$project" (.doc project)], some (.doc project))

/-- `HAVING` (:611-618). -/
def havingStages (today : ℤ) : Option SqlExpr → Warned (List Value)
  | none => pure []
  | some e => do pure [stage "$match" (.doc [("$expr", ← exprToAggExpr today e)])]

/-- The terms of `ORDER BY` (:620-634). -/
def orderItems : Option OrderByKind → Warned (List OrderItem)
  | none => pure []
  | some (.expressions es) => pure (es.map fun e => ⟨e.expr, e.asc = some false⟩)
  | some .all => .fail "ORDER BY ALL is not supported"

/-- `$limit` and `$skip` in the order of the clause, and the same for the find. -/
structure Paging where
  stages : List Value := []
  limit : Option ℤ := none
  skip : Option ℤ := none

def optionally {α β : Type} (f : α → Warned β) : Option α → Warned (Option β)
  | none => pure none
  | some a => do pure (some (← f a))

/-- `LIMIT` and `OFFSET` (:641-673): `LIMIT n OFFSET m` limits before it skips. -/
def paging (today : ℤ) : Option LimitClause → Warned Paging
  | none => pure {}
  | some (.limitOffset limit offset limitBy) => do
    warnIf (!limitBy.isEmpty) "LIMIT BY is not supported and was ignored"
    let n ← optionally (exprToI64 today) limit
    let m ← optionally (exprToU64 today) offset
    pure { stages := (n.toList.map fun (n : ℤ) => stage "$limit" (.num n)) ++
        (m.toList.map fun (m : ℤ) => stage "$skip" (.num m)), limit := n, skip := m }
  | some (.offsetCommaLimit offset limit) => do
    let m ← exprToU64 today offset
    let n ← exprToI64 today limit
    pure { stages := [stage "$skip" (.num m), stage "$limit" (.num n)], limit := some n, skip := some m }

/-- The stages a find can do (:675-681). -/
def looksLikeFind (s : Value) : Bool :=
  match s with
  | .doc fs => ["$match", "$sort", "$project", "$limit", "$skip"].any fun op => (fs.lookup op).isSome
  | _ => false

/-- The entry of a find option that is set. -/
def optionEntry (key : String) : Option Value → List (String × Value)
  | none => []
  | some v => [(key, v)]

/-- The document of the find shortcut (:682-699). -/
def findDocument (filter : Value) (projection sort : Option Value) (page : Paging) : Value :=
  .doc ([("filter", filter)] ++ optionEntry "projection" projection ++ optionEntry "sort" sort ++
    optionEntry "limit" (page.limit.map fun (n : ℤ) => Value.num n) ++
    optionEntry "skip" (page.skip.map fun (m : ℤ) => Value.num m))

inductive SqlOperation where
  | find
  | aggregate
  | update (filter update : Value) (multi upsert : Bool)
  | insert (documents : List Value)
  | delete (filter : Value) (multi : Bool)
  deriving DecidableEq

structure SqlTranslation where
  database : String
  collection : String
  operation : SqlOperation
  pipeline : List Value := []
  find : Option Value := none
  deriving DecidableEq

/-- The clauses of a `SELECT`, each translated by itself. -/
structure SelectParts where
  collection : String
  joins : List JoinClause
  filter : Option Value
  shape : List Value × Option Value
  having : List Value
  order : List OrderItem
  page : Paging

/-- The sort document, when there are terms (:635-639). -/
def SelectParts.sort (p : SelectParts) : Option Value := if p.order.isEmpty then none else some (buildSortStage p.order)

/-- The pipeline, in the order the clauses are emitted in. -/
def SelectParts.stages (p : SelectParts) : List Value :=
  (p.filter.toList.map (stage "$match")) ++ p.joins.flatMap joinToLookup ++ p.shape.1 ++ p.having ++
    (p.sort.toList.map (stage "$sort")) ++ p.page.stages

def SelectParts.find (p : SelectParts) : Option Value :=
  match p.filter with
  | some filter => if p.stages.all looksLikeFind then some (findDocument filter p.shape.2 p.sort p.page) else none
  | none => none

/-- The clauses of the body and of the query around it, for the one table of `FROM` (:540-673). -/
def selectParts (today : ℤ) (query : Query) (select : Select) (twj : TableWithJoins) : Warned SelectParts := do
  let collection ← tableFactorName twj.relation
  let joins ← buildJoins twj.joins
  let projection ← convertProjection select.projection
  let filter ← whereFilter today select.selection
  let distinct ← isDistinct select.distinct
  let keys ← groupByExprs select.groupBy
  let shape ← shapeStages today distinct keys projection
  let having ← havingStages today select.having
  let order ← orderItems query.orderBy
  let page ← paging today query.limitClause
  pure ⟨collection, joins, filter, shape, having, order, page⟩

/-- The one table of `FROM` (:533-540). -/
def fromTable : List TableWithJoins → Warned TableWithJoins
  | [] => .fail "FROM clause with at least one table is required"
  | [t] => pure t
  | _ => .fail "comma-separated FROM tables are not supported; use JOIN instead"

/-- `translate_select` up to the assembly of the result (:526-673). -/
def queryParts (today : ℤ) (query : Query) : Warned SelectParts := do
  reject query.withClause "WITH (common table expressions) is not supported"
  let select ← unwrapQueryBody query.body
  let twj ← fromTable select.from_
  selectParts today query select twj

/-- `translate_select` (:526). -/
def translateSelect (today : ℤ) (database : String) (query : Query) : Warned SqlTranslation := do
  let parts ← queryParts today query
  let operation := if parts.find.isSome then SqlOperation.find else .aggregate
  pure { database, collection := parts.collection, operation, pipeline := parts.stages, find := parts.find }

/-! ## `UPDATE`, `INSERT`, `DELETE` -/

/-- `assignment_target_to_field` (:722). -/
def assignmentTargetToField : AssignmentTarget → Warned String
  | .columnName name => pure name.display
  | .tuple => .fail "tuple assignment targets are not supported"

/-- The fields of `SET`, in order. -/
def setEntries (today : ℤ) : List Assignment → Warned (List (String × Value))
  | [] => pure []
  | a :: as => do
    let field ← assignmentTargetToField a.target
    let v ← exprToAggExpr today a.value
    let rest ← setEntries today as
    pure ((field, v) :: rest)

/-- The filter of a write: without `WHERE` every document (:749-752, :873-876). -/
def writeFilter (today : ℤ) : Option SqlExpr → Warned Value
  | none => pure (.doc [])
  | some e => exprToFilter today e

/-- `translate_update` (:731). -/
def translateUpdate (today : ℤ) (database : String) (update : Update) (upsert : Bool) : Warned SqlTranslation := do
  reject (!update.table.joins.isEmpty) "UPDATE ... JOIN is not supported"
  let collection ← tableFactorName update.table.relation
  let fields ← setEntries today update.assignments
  let filter ← writeFilter today update.selection
  let update := Value.doc [("$set", .doc (Mongo.insertAll fields []))]
  pure { database, collection := collection, operation := .update filter update true upsert }

def insertCollection : TableObject → Warned String
  | .tableName name => pure name.display
  | .tableFunction => .fail "table-valued functions are not supported in INSERT"
  | .tableQuery => .fail "INSERT INTO (query)-form table targets are not supported"

/-- The rows of `VALUES` (:791-803). -/
def valuesRows : Option SetExpr → Warned (List (List SqlExpr))
  | none => .fail "INSERT requires a VALUES clause"
  | some (.values rows) => pure rows
  | some _ => .fail "INSERT ... SELECT is not supported; use VALUES or a raw JSON document"

/-- The document of one row (:829-839). -/
def rowDocument (today : ℤ) (columns : List String) (row : List SqlExpr) : Warned Value := do
  reject (row.length != columns.length)
    ("expected " ++ toString columns.length ++ " value(s) but got " ++ toString row.length)
  let values ← runArgs (exprsToAggExpr today row)
  pure (.doc (Mongo.insertAll (columns.zip values) []))

def rowDocuments (today : ℤ) (columns : List String) : List (List SqlExpr) → Warned (List Value)
  | [] => pure []
  | row :: rows => do
    let d ← rowDocument today columns row
    let ds ← rowDocuments today columns rows
    pure (d :: ds)

/-- `translate_insert` (:774). -/
def translateInsert (today : ℤ) (database : String) (insert : Insert) : Warned SqlTranslation := do
  let collection ← insertCollection insert.table
  let rows ← valuesRows insert.source
  let columns := insert.columns.map ObjectName.display
  reject columns.isEmpty ("INSERT ... VALUES (...) requires an explicit column list, e.g. " ++
    "INSERT INTO t (a, b) VALUES (1, 2); or paste a document directly: " ++
    "INSERT INTO t VALUES \x7b \"a\": 1, \"b\": 2 \x7d")
  let documents ← rowDocuments today columns rows
  pure { database, collection := collection, operation := .insert documents }

/-- The one table of `DELETE` (:856-865). -/
def deleteTable : List TableWithJoins → Warned TableWithJoins
  | [t] => pure t
  | _ => .fail "DELETE must reference exactly one table"

/-- `translate_delete` (:851). -/
def translateDelete (today : ℤ) (database : String) (delete : Delete) : Warned SqlTranslation := do
  let twj ← deleteTable delete.tables
  reject (!twj.joins.isEmpty) "DELETE ... JOIN is not supported"
  let collection ← tableFactorName twj.relation
  let filter ← writeFilter today delete.selection
  pure { database, collection := collection, operation := .delete filter true }

/-- `translate` (:135-143), on the parsed statement. -/
def translate (today : ℤ) (database : String) (upsert : Bool) : Statement → Warned SqlTranslation
  | .query q => translateSelect today database q
  | .update u => translateUpdate today database u upsert
  | .insert i => translateInsert today database i
  | .delete d => translateDelete today database d
  | .other display => .fail ("expected SELECT, UPDATE, INSERT, or DELETE statement, got: " ++ display)

end Sql
