import NosqlBuddy.Lib.Aligned
import NosqlBuddy.Mongo.Update
import NosqlBuddy.Sql.Translate
import NosqlBuddy.Sql.Where

/-!
# The values a write stores

`SET` and `VALUES` expressions are compiled by `expr_to_agg_expr`, but `{$set: …}` and an insert store JSON as it stands:
`price = price + 1` stores the document `{$add: ["$price", 1]}`.
-/

namespace Sql
open Mongo
open Mongo.Value
open Paths (Apart)
open Warned

variable {sv : Server} {today : ℤ} {d : Doc}

/-! ## What a write should store -/

/-- The column of an assignment. -/
def AssignmentTarget.column : AssignmentTarget → Option String
  | .columnName name => some (identChain name)
  | .tuple => none

/-- The update of a row: the columns of `SET` have the values of their expressions on the old row, and a path apart from
all of them what it had. -/
def UpdateWrites (assignments : List Assignment) (d d' : Doc) : Prop :=
  (∀ a ∈ assignments, ∀ f, a.target.column = some f → ∃ v, sqlEval d a.value = some v ∧ column d' f = some v) ∧
  ∀ q, (∀ a ∈ assignments, ∀ f, a.target.column = some f → Apart (splitPath f) q) →
    getPath q d' = getPath q d

/-- The document of a row: one field for each column, with the value of its expression. -/
def InsertWrites (columns : List ObjectName) (row : List SqlExpr) : Value → Prop
  | .doc fs => fs.map Prod.fst = columns.map identChain ∧
      ∀ p ∈ (columns.map identChain).zip row, ∃ v, sqlEval [] p.2 = some v ∧ fs.lookup p.1 = some v
  | _ => False

/-! ## Which values are stored as they stand -/

/-- The JSON of the expression is its value. -/
def Verbatim (d : Doc) : SqlExpr → Prop
  | .identifier i => match classifyIdent i with
    | .field f => column d f = some (.str ("$" ++ f))
    | .stringLiteral _ => True
    | .dateTag _ => False
  | .compoundIdentifier is => column d (identChain is) = some (.str ("$" ++ identChain is))
  | .nested e => Verbatim d e
  | .value v => ExactLiteral v
  | .unaryOp .minus e => SignedNumber e ∧ Verbatim d e
  | .unaryOp .plus e => Verbatim d e ∧ ∃ v, (sqlEval d e).bind sqlNegate = some v
  | _ => False

theorem sqlBinary_ne_doc {op : BinaryOperator} {v w : Value} {fs : Doc} : sqlBinary op v w ≠ some (.doc fs) := by
  have compared : ∀ test, sqlCompare test v w ≠ some (.doc fs) := by
    intro test
    unfold sqlCompare
    split
    · simp
    · split <;> simp
  have arith : ∀ f, sqlArith f v w ≠ some (.doc fs) := by
    intro f
    cases v <;> cases w <;> simp [sqlArith]
  cases op with
  | and =>
    cases v <;> cases w <;> simp only [sqlBinary, sqlAnd, ne_eq, reduceCtorEq, Option.some.injEq, not_false_eq_true] <;>
      split <;> simp
  | or =>
    cases v <;> cases w <;> simp only [sqlBinary, sqlOr, ne_eq, reduceCtorEq, Option.some.injEq, not_false_eq_true] <;>
      split <;> simp
  | eq => exact compared (· == .eq)
  | notEq => exact compared (· != .eq)
  | lt => exact compared _
  | ltEq => exact compared _
  | gt => exact compared _
  | gtEq => exact compared _
  | plus => exact arith _
  | minus => exact arith _
  | multiply => exact arith _
  | divide => exact arith _
  | modulo => exact arith _
  | spaceship => simp [sqlBinary]
  | other _ => simp [sqlBinary]

theorem negateTruth_ne_doc (hv : ∀ gs, v ≠ .doc gs) :
    negateTruth negated v ≠ some (.doc fs) := by
  cases negated with
  | false => simpa [negateTruth] using hv fs
  | true => cases v <;> simp [negateTruth, sqlNot]

theorem sqlIn_ne_doc (h : sqlIn v ws = some u) (fs : Doc) : u ≠ .doc fs := by
  rintro rfl
  cases ws with
  | nil => exact absurd h (by simp [sqlIn])
  | cons w ws =>
    obtain ⟨b, -, h⟩ := Option.bind_eq_some_iff.1 h
    obtain ⟨c, -, h⟩ := Option.bind_eq_some_iff.1 h
    exact @sqlBinary_ne_doc .or b c fs h

theorem negateIf_doc (negated : Bool) (fs : Doc) : ∃ gs, negateIf negated (.doc fs) = .doc gs := by
  cases negated
  · exact ⟨fs, rfl⟩
  · exact ⟨_, rfl⟩

theorem stringLiteral_quoted (h : classifyIdent i = .stringLiteral s) :
    i.quoteStyle = some '"' ∧ i.value = s := by
  unfold classifyIdent at h
  split at h
  · exact absurd h (by simp)
  · split at h
    · next hq => exact ⟨hq, by injection h⟩
    · exact absurd h (by simp)

theorem dateTag_head (h : classifyIdent i = .dateTag tag) : i.value.toList.head? = some '#' := by
  unfold classifyIdent at h
  split at h
  · next e => rw [e]; rfl
  · split at h <;> exact absurd h (by simp)

/-- The expression is an operator or a function on others, a sign apart. -/
def IsOperation : SqlExpr → Prop
  | .unaryOp .not _ => True
  | .binaryOp _ _ _ => True
  | .inList _ _ _ => True
  | .isNull _ => True
  | .isNotNull _ => True
  | .between _ _ _ _ => True
  | .like _ _ _ _ _ => True
  | .function _ _ _ => True
  | _ => False

theorem functionToAggExpr_doc (h : Clean (functionToAggExpr name args form) j) : ∃ fs, j = .doc fs := by
  have one : ∀ {x : Warned Value} {g : Value → Doc}, Clean (x >>= fun v => pure (.doc (g v))) j → ∃ fs, j = .doc fs := by
    intro x g h
    obtain ⟨v, -, h⟩ := bind_clean.1 h
    exact ⟨_, (pure_clean.1 h).symm⟩
  have regex : ∀ args, Clean (functionToAggExpr.regex args) j → ∃ fs, j = .doc fs := by
    intro args h
    unfold functionToAggExpr.regex at h
    split at h
    · obtain ⟨a, -, h⟩ := bind_clean.1 h
      obtain ⟨b, -, h⟩ := bind_clean.1 h
      obtain ⟨c, -, h⟩ := bind_clean.1 h
      exact ⟨_, (pure_clean.1 h).symm⟩
    · exact absurd h fail_clean
  unfold functionToAggExpr at h
  simp only at h
  split at h
  · exact absurd h fail_clean
  · split at h
    case h_1 => exact ⟨_, (pure_clean.1 h).symm⟩
    case h_6 => exact regex _ h
    case h_7 => exact regex _ h
    case h_8 =>
      obtain ⟨vs, -, h⟩ := bind_clean.1 h
      exact ⟨_, (pure_clean.1 h).symm⟩
    case h_16 => exact absurd h warn_clean
    all_goals exact one h

theorem operation_doc (ho : IsOperation e) (h : Clean (exprToAggExpr today e) j) :
    ∃ fs, j = .doc fs := by
  cases e with
  | unaryOp op e =>
    cases op with
    | not =>
      obtain ⟨a, -, h⟩ := bind_clean.1 h
      exact ⟨_, (pure_clean.1 h).symm⟩
    | _ => exact absurd ho id
  | binaryOp l op r =>
    obtain ⟨m, -, h⟩ := bind_clean.1 h
    obtain ⟨a, -, h⟩ := bind_clean.1 h
    obtain ⟨b, -, h⟩ := bind_clean.1 h
    exact ⟨_, (pure_clean.1 h).symm⟩
  | inList e list negated =>
    obtain ⟨arr, -, h⟩ := bind_clean.1 h
    obtain ⟨a, -, h⟩ := bind_clean.1 h
    exact pure_clean.1 h ▸ negateIf_doc negated _
  | isNull e =>
    obtain ⟨a, -, h⟩ := bind_clean.1 h
    exact ⟨_, (pure_clean.1 h).symm⟩
  | isNotNull e =>
    obtain ⟨a, -, h⟩ := bind_clean.1 h
    exact ⟨_, (pure_clean.1 h).symm⟩
  | between e negated low high =>
    obtain ⟨a, -, h⟩ := bind_clean.1 h
    obtain ⟨b, -, h⟩ := bind_clean.1 h
    obtain ⟨c, -, h⟩ := bind_clean.1 h
    exact pure_clean.1 h ▸ negateIf_doc negated _
  | like caseInsensitive negated e pattern unread =>
    obtain ⟨a, -, h⟩ := bind_clean.1 h
    obtain ⟨b, -, h⟩ := bind_clean.1 h
    exact pure_clean.1 h ▸ negateIf_doc negated _
  | function name args form => exact functionToAggExpr_doc h
  | _ => exact absurd ho id

theorem operation_value (ho : IsOperation e) (fs : Doc) : sqlEval d e ≠ some (.doc fs) := by
  intro h
  cases e with
  | unaryOp op e =>
    cases op with
    | not =>
      obtain ⟨v, -, h⟩ := Option.bind_eq_some_iff.1 h
      cases v <;> exact absurd h (by simp [sqlNot])
    | _ => exact absurd ho id
  | binaryOp l op r =>
    obtain ⟨v, -, h⟩ := Option.bind_eq_some_iff.1 h
    obtain ⟨w, -, h⟩ := Option.bind_eq_some_iff.1 h
    exact sqlBinary_ne_doc h
  | inList e list negated =>
    obtain ⟨v, -, h⟩ := Option.bind_eq_some_iff.1 h
    obtain ⟨ws, -, h⟩ := Option.bind_eq_some_iff.1 h
    obtain ⟨u, hu, h⟩ := Option.bind_eq_some_iff.1 h
    exact negateTruth_ne_doc (fun gs => sqlIn_ne_doc hu gs) h
  | isNull e =>
    obtain ⟨v, -, h⟩ := Option.map_eq_some_iff.1 h
    exact absurd h (by simp)
  | isNotNull e =>
    obtain ⟨v, -, h⟩ := Option.map_eq_some_iff.1 h
    exact absurd h (by simp)
  | between e negated low high =>
    obtain ⟨v, -, h⟩ := Option.bind_eq_some_iff.1 h
    obtain ⟨l, -, h⟩ := Option.bind_eq_some_iff.1 h
    obtain ⟨u, -, h⟩ := Option.bind_eq_some_iff.1 h
    obtain ⟨a, -, h⟩ := Option.bind_eq_some_iff.1 h
    obtain ⟨b, -, h⟩ := Option.bind_eq_some_iff.1 h
    obtain ⟨c, hc, h⟩ := Option.bind_eq_some_iff.1 h
    refine negateTruth_ne_doc (fun gs hg => ?_) h
    exact @sqlBinary_ne_doc .and a b gs (hg ▸ hc)
  | like _ _ _ _ _ => exact absurd h (by simp [sqlEval])
  | function _ _ _ => exact absurd h (by simp [sqlEval])
  | _ => exact absurd ho id

theorem signedNumber_of_num : ∀ {e : SqlExpr} {q : ℚ}, Clean (exprToAggExpr today e) (.num q) → SignedNumber e
  | .identifier i, q, h => by
    rw [exprToAggExpr] at h
    split at h
    · exact absurd (pure_clean.1 h) (by simp)
    · exact absurd (pure_clean.1 h) (by simp)
    · split at h
      · exact absurd (pure_clean.1 h) (by simp [dateToExtjson])
      · exact absurd h warn_clean
  | .compoundIdentifier is, q, h => absurd (pure_clean.1 h) (by simp)
  | .nested e, q, h => signedNumber_of_num (e := e) h
  | .value v, q, h => by
    cases v with
    | number n => trivial
    | other _ => exact absurd h warn_clean
    | _ => exact absurd (pure_clean.1 h) (by simp)
  | .unaryOp .minus e, q, h => by
    obtain ⟨j, hj, h⟩ := bind_clean.1 h
    have h := pure_clean.1 h
    cases j with
    | num p => exact signedNumber_of_num (e := e) hj
    | _ => exact absurd h (by simp [negateJson, call])
  | .unaryOp .plus e, q, h => signedNumber_of_num (e := e) h
  | .unaryOp .not e, q, h => by obtain ⟨fs, hfs⟩ := operation_doc (e := .unaryOp .not e) trivial h; exact absurd hfs (by simp)
  | .binaryOp l op r, q, h => by obtain ⟨fs, hfs⟩ := operation_doc (e := .binaryOp l op r) trivial h; exact absurd hfs (by simp)
  | .inList e list n, q, h => by obtain ⟨fs, hfs⟩ := operation_doc (e := .inList e list n) trivial h; exact absurd hfs (by simp)
  | .isNull e, q, h => by obtain ⟨fs, hfs⟩ := operation_doc (e := .isNull e) trivial h; exact absurd hfs (by simp)
  | .isNotNull e, q, h => by obtain ⟨fs, hfs⟩ := operation_doc (e := .isNotNull e) trivial h; exact absurd hfs (by simp)
  | .between e n l u, q, h => by obtain ⟨fs, hfs⟩ := operation_doc (e := .between e n l u) trivial h; exact absurd hfs (by simp)
  | .like c n e p u, q, h => by obtain ⟨fs, hfs⟩ := operation_doc (e := .like c n e p u) trivial h; exact absurd hfs (by simp)
  | .function n as f, q, h => by obtain ⟨fs, hfs⟩ := operation_doc (e := .function n as f) trivial h; exact absurd hfs (by simp)
  | .other t, q, h => absurd h warn_clean

theorem operation_verbatim (ho : IsOperation e) (h : Clean (exprToAggExpr today e) j) :
    sqlEval d e = some j ↔ False := by
  obtain ⟨fs, rfl⟩ := operation_doc ho h
  exact ⟨operation_value ho fs, False.elim⟩

/-- **The JSON of an expression is its value** iff it is an exact literal, or a field that holds the text of its own path. -/
theorem verbatim_iff : ∀ {e : SqlExpr} {j : Value}, Clean (exprToAggExpr today e) j → (sqlEval d e = some j ↔ Verbatim d e)
  | .identifier i, j, h => by
    rw [exprToAggExpr] at h
    rw [Verbatim]
    cases hc : classifyIdent i with
    | field f =>
      rw [hc] at h
      rw [← pure_clean.1 h, sqlEval_fieldName (f := f) (by rw [fieldName, hc])]
    | stringLiteral s =>
      rw [hc] at h
      obtain ⟨hq, hs⟩ := stringLiteral_quoted hc
      rw [← pure_clean.1 h, sqlEval, sqlIdent, if_pos hq, hs]
      exact ⟨fun _ => trivial, fun _ => rfl⟩
    | dateTag tag =>
      rw [hc] at h
      refine ⟨fun hv => ?_, False.elim⟩
      cases htag : resolveDateTag today tag with
      | none =>
        simp only [htag] at h
        exact absurd h warn_clean
      | some ms =>
        simp only [htag] at h
        rw [← pure_clean.1 h, sqlEval, sqlIdent] at hv
        split at hv
        · exact absurd hv (by simp [dateToExtjson])
        · rw [if_pos (dateTag_head hc)] at hv
          exact absurd hv (by simp)
  | .compoundIdentifier is, j, h => by
    rw [← pure_clean.1 h]
    exact Iff.rfl
  | .nested e, j, h => verbatim_iff (e := e) h
  | .value v, j, h => by
    rw [Verbatim, sqlEval]
    have h : Clean (valueToJson v) j := h
    cases v with
    | number n =>
      rw [← pure_clean.1 h]
      exact Iff.rfl
    | other _ => exact absurd h warn_clean
    | _ =>
      rw [← pure_clean.1 h]
      exact ⟨fun _ => trivial, fun _ => rfl⟩
  | .unaryOp .minus e, j, h => by
    obtain ⟨a, ha, h⟩ := bind_clean.1 h
    rw [← pure_clean.1 h, Verbatim, ← verbatim_iff ha]
    constructor
    · intro hv
      obtain ⟨v, hv, hneg⟩ := Option.bind_eq_some_iff.1 hv
      cases a with
      | num q =>
        refine ⟨signedNumber_of_num ha, ?_⟩
        cases v with
        | num p =>
          have heq : -p = -q := by simpa [sqlNegate, negateJson] using hneg
          rw [hv, neg_inj.1 heq]
        | _ => exact absurd hneg (by simp [sqlNegate, negateJson])
      | _ => cases v <;> exact absurd hneg (by simp [sqlNegate, negateJson, call])
    · rintro ⟨hs, hv⟩
      obtain ⟨-, q, rfl⟩ := signedNumber_strict hs hv
      rw [sqlEval, hv]
      rfl
  | .unaryOp .plus e, j, h => by
    have h : Clean (exprToAggExpr today e) j := h
    rw [Verbatim, ← verbatim_iff h, sqlEval]
    constructor
    · intro hv
      obtain ⟨v, he, hu⟩ := Option.bind_eq_some_iff.1 hv
      obtain ⟨u, hneg, rfl⟩ := Option.map_eq_some_iff.1 hu
      exact ⟨he, u, by rw [he]; exact hneg⟩
    · rintro ⟨hv, u, hu⟩
      rw [hv] at hu ⊢
      have hu : sqlNegate j = some u := hu
      rw [Option.bind_some, hu]
      rfl
  | .unaryOp .not e, j, h => operation_verbatim (e := .unaryOp .not e) trivial h
  | .binaryOp l op r, j, h => operation_verbatim (e := .binaryOp l op r) trivial h
  | .inList e list n, j, h => operation_verbatim (e := .inList e list n) trivial h
  | .isNull e, j, h => operation_verbatim (e := .isNull e) trivial h
  | .isNotNull e, j, h => operation_verbatim (e := .isNotNull e) trivial h
  | .between e n l u, j, h => operation_verbatim (e := .between e n l u) trivial h
  | .like c n e p u, j, h => operation_verbatim (e := .like c n e p u) trivial h
  | .function n as f, j, h => operation_verbatim (e := .function n as f) trivial h
  | .other t, j, h => absurd h warn_clean

/-! ## `SET` -/

theorem display_unquoted {i : Ident} (h : i.quoteStyle = none) : i.display = i.value := by
  rw [Ident.display, h]

theorem display_eq_chain {name : ObjectName} (h : ∀ i ∈ name, i.quoteStyle = none) : name.display = identChain name := by
  rw [ObjectName.display, identChain, List.map_congr_left fun i hi => display_unquoted (h i hi)]

/-- The columns of the assignments. -/
def targetColumns (assignments : List Assignment) : List String := assignments.filterMap fun a => a.target.column

/-- The columns are named without quotes, by valid paths none of which lies inside another, and `_id` is none of them. -/
structure PlainTargets (assignments : List Assignment) : Prop where
  unquoted : ∀ a ∈ assignments, ∀ name, a.target = .columnName name → ∀ i ∈ name, i.quoteStyle = none
  valid : ∀ f ∈ targetColumns assignments, ValidPath (splitPath f) ∧ (splitPath f).head? ≠ some "_id"
  apart : PathsApart (targetColumns assignments)

/-- What an assignment becomes. -/
def EntryOf (today : ℤ) (a : Assignment) (f : String × Value) : Prop :=
  ∃ name, a.target = .columnName name ∧ f.1 = name.display ∧ Clean (exprToAggExpr today a.value) f.2

theorem setEntries_clean : ∀ {assignments : List Assignment} {fields : Doc}, Clean (setEntries today assignments) fields →
    List.Forall₂ (EntryOf today) assignments fields
  | [], fields, h => by rw [← pure_clean.1 h]; exact .nil
  | a :: as, fields, h => by
    obtain ⟨field, hfield, h⟩ := bind_clean.1 h
    obtain ⟨v, hv, h⟩ := bind_clean.1 h
    obtain ⟨rest, hrest, h⟩ := bind_clean.1 h
    rw [← pure_clean.1 h]
    refine .cons ?_ (setEntries_clean hrest)
    unfold assignmentTargetToField at hfield
    split at hfield
    · next name hname => exact ⟨name, hname, (pure_clean.1 hfield).symm, hv⟩
    · exact absurd hfield fail_clean

theorem entries_columns (h : List.Forall₂ (EntryOf today) assignments fields)
    (hu : ∀ a ∈ assignments, ∀ name, a.target = .columnName name → ∀ i ∈ name, i.quoteStyle = none) :
    fields.map Prod.fst = targetColumns assignments := by
  induction h with
  | nil => rfl
  | @cons a f as fs hf _ ih =>
    obtain ⟨name, hname, hdisplay, -⟩ := hf
    have hcol : a.target.column = some f.1 := by
      rw [hname, hdisplay, display_eq_chain (hu a List.mem_cons_self name hname)]
      rfl
    rw [List.map_cons, ih fun b hb => hu b (List.mem_cons_of_mem a hb), targetColumns, targetColumns, List.filterMap_cons,
      hcol]

theorem mem_targetColumns :
    f ∈ targetColumns assignments ↔ ∃ a ∈ assignments, a.target.column = some f := List.mem_filterMap

theorem PathsApart.nodup (h : PathsApart names) : names.Nodup :=
  h.imp fun {f g} ha heq => ha.1 (by rw [heq])

/-- **`SET` stores the SQL values** iff each expression is stored as its value and nothing is in the way of its column. -/
theorem applySet_writes_iff (hf : List.Forall₂ (EntryOf today) assignments fields)
    (hp : PlainTargets assignments) (d : Doc) :
    (∃ d', applySet fields d = some d' ∧ UpdateWrites assignments d d') ↔
      ∀ a ∈ assignments, Verbatim d a.value ∧ ∀ f, a.target.column = some f → Clear (splitPath f) d := by
  have hkeys := entries_columns hf hp.unquoted
  have hvalid : ∀ f ∈ fields, ValidPath (splitPath f.1) ∧ (splitPath f.1).head? ≠ some "_id" :=
    fun f hmem => hp.valid f.1 (hkeys ▸ List.mem_map_of_mem hmem)
  have hapart : PathsApart (fields.map Prod.fst) := hkeys ▸ hp.apart
  have hset : ∀ {d'}, setFields fields d = some d' → applySet fields d = some d' := by
    intro d' h
    rw [applySet, if_pos ⟨fun f hmem => (hvalid f hmem).1, hapart⟩, h, Option.bind_some,
      if_pos (lookup_setFields h fun f hmem => (hvalid f hmem).2)]
  have hsome := @Mongo.setFields_isSome fields d (fun f hmem => (hvalid f hmem).1.1) hapart
  -- Each assignment with its entry: the column, and the value stored for it.
  have hentry : ∀ a ∈ assignments, ∃ f ∈ fields, a.target.column = some f.1 ∧ Clean (exprToAggExpr today a.value) f.2 := by
    intro a ha
    obtain ⟨f, hmem, name, hname, hdisplay, hc⟩ := Aligned.exists_right hf ha
    refine ⟨f, hmem, ?_, hc⟩
    rw [hname, hdisplay, display_eq_chain (hp.unquoted a ha name hname)]
    rfl
  have hcolumns : ∀ f ∈ fields, ∃ a ∈ assignments, a.target.column = some f.1 := fun f hmem =>
    mem_targetColumns.1 (hkeys ▸ List.mem_map_of_mem hmem)
  constructor
  · rintro ⟨d', happly, hw⟩
    have hfields : setFields fields d = some d' := by
      rw [applySet, if_pos ⟨fun f hmem => (hvalid f hmem).1, hapart⟩] at happly
      obtain ⟨d'', h, happly⟩ := Option.bind_eq_some_iff.1 happly
      split at happly
      · rw [h, Option.some.inj happly]
      · exact absurd happly (by simp)
    have hclear := hsome.1 ⟨d', hfields⟩
    obtain ⟨hget, -⟩ := getPath_setFields hfields hapart
    intro a ha
    obtain ⟨f, hmem, hcol, hc⟩ := hentry a ha
    constructor
    · obtain ⟨v, hv, hstored⟩ := hw.1 a ha f.1 hcol
      have heq : some v = some f.2 := hstored.symm.trans (hget f hmem)
      exact (verbatim_iff hc).1 (hv.trans heq)
    · intro g hg
      obtain rfl : f.1 = g := Option.some.inj (hcol.symm.trans hg)
      exact hclear f hmem
  · intro h
    have hclear : ∀ f ∈ fields, Clear (splitPath f.1) d := by
      intro f hmem
      obtain ⟨a, ha, hcol⟩ := hcolumns f hmem
      exact (h a ha).2 f.1 hcol
    obtain ⟨d', hfields⟩ := hsome.2 hclear
    obtain ⟨hget, hkeep⟩ := getPath_setFields hfields hapart
    refine ⟨d', hset hfields, ?_, ?_⟩
    · intro a ha g hg
      obtain ⟨f, hmem, hcol, hc⟩ := hentry a ha
      obtain rfl : f.1 = g := Option.some.inj (hcol.symm.trans hg)
      exact ⟨f.2, (verbatim_iff hc).2 (h a ha).1, hget f hmem⟩
    · intro q hq
      refine hkeep q fun f hmem => ?_
      obtain ⟨a, ha, hcol⟩ := hcolumns f hmem
      exact hq a ha f.1 hcol

/-! ## `VALUES` -/

/-- The columns are named without quotes, each once. -/
structure PlainColumns (columns : List ObjectName) : Prop where
  unquoted : ∀ name ∈ columns, ∀ i ∈ name, i.quoteStyle = none
  nodup : (columns.map identChain).Nodup

theorem PlainColumns.display (h : PlainColumns columns) :
    columns.map ObjectName.display = columns.map identChain :=
  List.map_congr_left fun name hname => display_eq_chain (h.unquoted name hname)

theorem runArgs_clean : ∀ {es : List SqlExpr} {vs : List Value}, Clean (runArgs (exprsToAggExpr today es)) vs →
    List.Forall₂ (fun e v => Clean (exprToAggExpr today e) v) es vs
  | [], vs, h => by rw [← pure_clean.1 h]; exact .nil
  | e :: es, vs, h => by
    obtain ⟨v, hv, h⟩ := bind_clean.1 h
    obtain ⟨ws, hws, h⟩ := bind_clean.1 h
    rw [← pure_clean.1 h]
    exact .cons hv (runArgs_clean hws)

theorem stored_iff (h : List.Forall₂ (fun e v => Clean (exprToAggExpr today e) v) row values) : ∀ {names : List String}, names.Nodup →
    names.length = row.length →
    ((∀ p ∈ names.zip row, ∃ v, sqlEval [] p.2 = some v ∧ (names.zip values).lookup p.1 = some v) ↔
      ∀ e ∈ row, Verbatim [] e) := by
  induction h with
  | nil => simp
  | @cons e v es vs he _ ih =>
    rintro (_ | ⟨f, fs⟩) hnodup hlen
    · exact absurd hlen (by simp)
    rw [List.nodup_cons] at hnodup
    have hrest : (∀ p ∈ fs.zip es, ∃ w, sqlEval [] p.2 = some w ∧ ((f :: fs).zip (v :: vs)).lookup p.1 = some w) ↔
        ∀ e ∈ es, Verbatim [] e := by
      rw [← ih hnodup.2 (Nat.succ.inj hlen)]
      refine forall₂_congr fun p hp => ?_
      have hne : p.1 ≠ f := fun heq => hnodup.1 (heq ▸ (List.of_mem_zip hp).1)
      rw [List.zip_cons_cons, lookup_cons, if_neg hne]
    rw [List.zip_cons_cons, List.forall_mem_cons, hrest, List.forall_mem_cons, ← verbatim_iff he, List.zip_cons_cons,
      List.lookup_cons_self]
    refine and_congr_left fun _ => ⟨?_, fun hv => ⟨v, hv, rfl⟩⟩
    rintro ⟨w, hw, heq⟩
    rw [hw, Option.some.inj heq]

/-- What a row becomes. -/
def DocumentOf (today : ℤ) (names : List String) (row : List SqlExpr) (document : Value) : Prop :=
  row.length = names.length ∧ ∃ values, Clean (runArgs (exprsToAggExpr today row)) values ∧
    document = .doc (insertAll (names.zip values) [])

theorem rowDocuments_clean : ∀ {rows : List (List SqlExpr)} {documents : List Value},
    Clean (rowDocuments today names rows) documents → List.Forall₂ (DocumentOf today names) rows documents
  | [], documents, h => by rw [← pure_clean.1 h]; exact .nil
  | row :: rows, documents, h => by
    obtain ⟨document, hdoc, h⟩ := bind_clean.1 h
    obtain ⟨rest, hrest, h⟩ := bind_clean.1 h
    rw [← pure_clean.1 h]
    refine .cons ?_ (rowDocuments_clean hrest)
    obtain ⟨checked, hlen, hdoc⟩ := bind_clean.1 hdoc
    obtain ⟨values, hvalues, hdoc⟩ := bind_clean.1 hdoc
    refine ⟨?_, values, hvalues, (pure_clean.1 hdoc).symm⟩
    by_contra hne
    unfold reject at hlen
    rw [if_pos (by simpa using hne)] at hlen
    exact fail_clean hlen

/-- **`VALUES` stores the SQL values** iff each expression is stored as its value. -/
theorem document_writes_iff (hp : PlainColumns columns)
    (h : DocumentOf today (columns.map ObjectName.display) row document) :
    InsertWrites columns row document ↔ ∀ e ∈ row, Verbatim [] e := by
  obtain ⟨hlen, values, hvalues, rfl⟩ := h
  rw [hp.display] at hlen ⊢
  have hclean := runArgs_clean hvalues
  have hle : (columns.map identChain).length ≤ values.length := by rw [← hclean.length_eq, hlen]
  have hkeys : ((columns.map identChain).zip values).map Prod.fst = columns.map identChain := List.map_fst_zip hle
  have hall : insertAll ((columns.map identChain).zip values) [] = (columns.map identChain).zip values := by
    rw [insertAll_of_disjoint (by rw [hkeys]; exact hp.nodup) (by simp), List.nil_append]
  rw [InsertWrites, hall, and_iff_right hkeys]
  exact stored_iff hclean hp.nodup hlen.symm

/-! ## Updates and inserts -/

def setPrice (e : SqlExpr) : Update where
  table := { relation := .table [{ value := "products" }] none [] }
  assignments := [{ target := .columnName [{ value := "price" }], value := e }]

def insertPrice (e : SqlExpr) : Insert where
  table := .tableName [{ value := "products" }]
  columns := [[{ value := "price" }]]
  source := some (.values [[e]])

/-- `-3`. -/
def minusThree : SqlExpr := .unaryOp .minus (numberOf 3)

theorem price_target (e : SqlExpr) : PlainTargets (setPrice e).assignments := by
  have hcols : targetColumns (setPrice e).assignments = ["price"] := rfl
  refine ⟨?_, ?_, ?_⟩
  · intro a ha name hname i hi
    obtain rfl := List.mem_singleton.1 ha
    injection hname with hname
    subst hname
    rw [List.mem_singleton.1 hi]
  · rw [hcols]
    simp only [List.mem_singleton, forall_eq]
    decide
  · rw [hcols]
    exact List.pairwise_singleton _ _

theorem three_exact : Verbatim d minusThree := ⟨trivial, by show Numeral.sqlValue _ = _; decide +kernel⟩

/-- `price + 1`. -/
def nextPrice : SqlExpr := .binaryOp (nameOf "price") .plus (numberOf 1)

end Sql
