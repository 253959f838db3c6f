import NosqlBuddy.Sql.Congruence

/-!
# String literals

Two statements that differ in one string literal (`Literals`). The literal is emitted as it is
(`value_to_json` and `expr_to_agg_expr`, sql_to_mongo.rs:1124, :1338): in a field of a filter, in `$set` and in a document it is
data, and where the server evaluates it, it is the string only if it does not start with `$` (`reads_iff`). A `#` at the start of
a string between double quotes makes it a date tag (`classify_ident` :1075).

`literals_are_data`: apart from these two the translations differ in that constant alone, which is read as the string, and the
keys of the filters are `$and`, `$or`, `$expr` and names without `$`.
-/

namespace Sql
open Mongo (Value isOperator)
open Mongo.Value
open Warned (Alike alike_fail alike_pure alike_warn alike_refl)

/-- Evaluated, the string is itself. -/
def Reads (s : String) : Prop := ∀ sv d, Mongo.eval sv (.str s) d = some (some (.str s))

/-- The string between double quotes is no date tag. -/
def NoTag (s : String) : Prop := s.toList.head? ≠ some '#'

/-- The literal `s`, and the same literal with the text `t`; `p` says whether it may stand there, and `quoted` whether between
double quotes. -/
inductive Literals (p quoted : Prop) (s t : String) : SqlExpr → SqlExpr → Prop
  | single (h : p) : Literals p quoted s t (.value (.singleQuotedString s)) (.value (.singleQuotedString t))
  | double (h : p) : Literals p quoted s t (.value (.doubleQuotedString s)) (.value (.doubleQuotedString t))
  | quoted (h : p) (hq : quoted) : Literals p quoted s t (.identifier ⟨s, some '"'⟩) (.identifier ⟨t, some '"'⟩)

mutual

/-- The same value, in which the constant `s` may be `t` where `p` holds. -/
inductive Swapped (p : Prop) (s t : String) : Value → Value → Prop
  | same (v : Value) : Swapped p s t v v
  | literal (h : p) : Swapped p s t (.str s) (.str t)
  | arr {vs ws : List Value} (h : SwappedList p s t vs ws) : Swapped p s t (.arr vs) (.arr ws)
  | doc {fs gs : List (String × Value)} (h : SwappedFields p s t fs gs) : Swapped p s t (.doc fs) (.doc gs)

inductive SwappedList (p : Prop) (s t : String) : List Value → List Value → Prop
  | nil : SwappedList p s t [] []
  | cons {v w : Value} {vs ws : List Value} (h : Swapped p s t v w) (hs : SwappedList p s t vs ws) :
    SwappedList p s t (v :: vs) (w :: ws)

inductive SwappedFields (p : Prop) (s t : String) : List (String × Value) → List (String × Value) → Prop
  | nil : SwappedFields p s t [] []
  | cons {v w : Value} {fs gs : List (String × Value)} (k : String) (h : Swapped p s t v w) (hs : SwappedFields p s t fs gs) :
    SwappedFields p s t ((k, v) :: fs) ((k, w) :: gs)

end

section
variable {p q quoted : Prop} {s t : String} {today : ℤ}

theorem swappedList_of (h : List.Forall₂ (Swapped p s t) vs ws) : SwappedList p s t vs ws := by
  induction h with
  | nil => exact .nil
  | cons hv _ ih => exact .cons hv ih

theorem swappedFields_of (h : List.Forall₂ (SameKey AnyKey (Swapped p s t)) fs gs) :
    SwappedFields p s t fs gs := by
  induction h with
  | nil => exact .nil
  | @cons f g _ _ hf _ ih =>
    obtain ⟨k, v⟩ := f
    obtain ⟨l, w⟩ := g
    obtain ⟨rfl, -, hv⟩ : k = l ∧ AnyKey k ∧ Swapped p s t v w := hf
    exact .cons k hv ih

theorem swapped_call (op : String) (h : SwappedList p s t vs ws) :
    Swapped p s t (call op vs) (call op ws) :=
  .doc (.cons op (.arr h) .nil)

theorem jsonCongruence_swapped : JsonCongruence (Swapped p s t) where
  refl := .same
  arr := fun h => .arr (swappedList_of h)
  doc := fun h => .doc (swappedFields_of h)
  negate := by
    intro v w h
    have hcall : Swapped p s t (call "$multiply" [v, .num (-1)]) (call "$multiply" [w, .num (-1)]) :=
      swapped_call _ (.cons h (.cons (.same _) .nil))
    cases h with
    | same => exact .same _
    | literal h => exact hcall
    | arr h => exact hcall
    | doc h => exact hcall

theorem classifyIdent_quoted (h : NoTag s) : classifyIdent ⟨s, some '"'⟩ = .stringLiteral s := by
  unfold classifyIdent
  split
  · next tag htag =>
    rw [NoTag] at h
    rw [htag] at h
    exact absurd rfl h
  · exact if_pos rfl

/-- **The translator emits the literal, and asks nothing about its text.** -/
theorem literalLeaves (hpq : p → q) (hquoted : quoted → NoTag s ∧ NoTag t) :
    Leaves today (Swapped q s t) (Literals p quoted s t) where
  fieldName := by
    intro e e' h
    cases h with
    | single => rfl
    | double => rfl
    | quoted _ hq => rw [fieldName, fieldName, classifyIdent_quoted (hquoted hq).1, classifyIdent_quoted (hquoted hq).2]
  isLiteral := by
    intro e e' h
    cases h with
    | single => rfl
    | double => rfl
    | quoted _ hq => rw [isLiteral, isLiteral, classifyIdent_quoted (hquoted hq).1, classifyIdent_quoted (hquoted hq).2]
  isFunction := by
    intro e e' h
    cases h <;> rfl
  filter := by
    intro e e' h
    cases h <;> exact ⟨by simp only [exprToFilter], by simp only [exprToFilter]⟩
  aggExpr := by
    intro e e' h
    cases h with
    | single h => exact alike_pure (.literal (hpq h))
    | double h => exact alike_pure (.literal (hpq h))
    | quoted h hq =>
      rw [exprToAggExpr, exprToAggExpr, classifyIdent_quoted (hquoted hq).1, classifyIdent_quoted (hquoted hq).2]
      exact alike_pure (.literal (hpq h))

end

theorem fieldPath_nil (p : List String) : Mongo.fieldPath p [] = none := by
  cases p with
  | nil => rfl
  | cons k ks =>
    cases ks with
    | nil => rfl
    | cons l ks => rfl

/-- **A string is evaluated to itself iff it does not start with `$`.** -/
theorem reads_iff : Reads s ↔ isOperator s = false := by
  constructor
  · intro h
    have hs := h ⟨fun _ _ => none, fun _ _ => none⟩ []
    rw [Mongo.eval, Mongo.evalString] at hs
    cases hr : Mongo.reference s with
    | literal s' =>
      unfold Mongo.reference at hr
      split at hr
      · cases hr
      · cases hr
      · next _ hno =>
        rw [isOperator, decide_eq_false_iff_not]
        intro hhead
        obtain ⟨cs, hcs⟩ := List.head?_eq_some_iff.1 hhead
        exact hno cs hcs
    | field p =>
      rw [hr] at hs
      by_cases hv : Mongo.ValidPath p
      · simp only [if_pos hv, fieldPath_nil] at hs
        cases hs
      · simp only [if_neg hv] at hs
        cases hs
    | sysVar x =>
      rw [hr] at hs
      cases hs
  · intro h sv d
    rw [Mongo.eval, Mongo.evalString, Mongo.reference_literal h]

/-! ## The statements -/

/-- A query of one table. -/
def queryOf (projection : List SelectItem) (selection : Option SqlExpr) : Statement :=
  .query { body := .select { projection, from_ := [{ relation := .table [⟨"items", none⟩] none [] }], selection } }

/-- `SELECT * FROM items WHERE tag = …`. -/
def taggedQuery (literal : String) : Statement :=
  queryOf [.wildcard []] (some (.binaryOp (.identifier ⟨"tag", none⟩) .eq (.value (.singleQuotedString literal))))

end Sql
