import NosqlBuddy.Sql.Names

/-!
# Two expressions with related leaves

Two expressions are `Congruent R` when they differ only in parts that `R` relates. If the translator treats related parts
alike (`Leaves`), and `S` relates what it emits for them, then it emits related values for congruent expressions
(`aggExpr_congruent`), related filters for congruent conditions (`filter_congruent`), and related pipelines and writes for
congruent statements (`translate_congruent`).
-/

namespace Sql
open Mongo (Value)
open Mongo.Value
open Warned (Alike alike_fail alike_pure alike_warn alike_refl)

/-! ## Emitted values -/

/-- Entries of one key, which is in `K`, with related values. -/
def SameKey (K : String → Prop) (S : Value → Value → Prop) (f g : String × Value) : Prop := f.1 = g.1 ∧ K f.1 ∧ S f.2 g.2

/-- No condition on a key. -/
def AnyKey (_ : String) : Prop := True

/-- The relation is kept by the shapes that are emitted. -/
structure JsonCongruence (S : Value → Value → Prop) : Prop where
  refl : ∀ v, S v v
  arr : ∀ {vs ws}, List.Forall₂ S vs ws → S (.arr vs) (.arr ws)
  doc : ∀ {fs gs}, List.Forall₂ (SameKey AnyKey S) fs gs → S (.doc fs) (.doc gs)
  negate : ∀ {v w}, S v w → S (negateJson v) (negateJson w)

section
variable {S : Value → Value → Prop} {v v' w w' : Value} {vs ws : List Value}

theorem JsonCongruence.field (hS : JsonCongruence S) (k : String) (h : S v w) : S (.doc [(k, v)]) (.doc [(k, w)]) :=
  hS.doc (.cons ⟨rfl, trivial, h⟩ .nil)

theorem JsonCongruence.call (hS : JsonCongruence S) (op : String) (h : List.Forall₂ S vs ws) : S (call op vs) (call op ws) :=
  hS.field op (hS.arr h)

theorem JsonCongruence.negateIf (hS : JsonCongruence S) (negated : Bool) (h : S v w) :
    S (negateIf negated v) (negateIf negated w) := by
  cases negated with
  | false => exact h
  | true => exact hS.call "$not" (.cons h .nil)

theorem jsonCongruence_eq : JsonCongruence Eq where
  refl := fun _ => rfl
  arr := fun h => by rw [List.forall₂_eq_eq_eq.le _ _ h]
  doc := fun {fs gs} h => by
    have he : fs = gs := by
      induction h with
      | nil => rfl
      | cons hf _ ih => rw [Prod.ext hf.1 hf.2.2, ih]
    rw [he]
  negate := fun h => by rw [h]

end

/-! ## References -/

section
variable {today : ℤ} {f : String}

theorem exprToAggExpr_fieldName : ∀ {e : SqlExpr}, fieldName e = some f → exprToAggExpr today e = pure (.str ("$" ++ f)) :=
  fieldName_forms (motive := fun e => exprToAggExpr today e = pure (.str ("$" ++ f)))
    (fun i hc => by rw [exprToAggExpr, hc]) (fun is hf => by rw [exprToAggExpr, hf]) (fun e h => by rw [exprToAggExpr, h])

theorem isLiteral_fieldName : ∀ {e : SqlExpr}, fieldName e = some f → isLiteral e = false :=
  fieldName_forms (motive := fun e => isLiteral e = false) (fun i hc => by rw [isLiteral, hc]) (fun _ _ => rfl)
    (fun e h => by rw [isLiteral, h])

end

/-! ## Expressions -/

mutual

/-- The same expression, up to parts that are related. -/
inductive Congruent (R : SqlExpr → SqlExpr → Prop) : SqlExpr → SqlExpr → Prop
  | leaf {e e' : SqlExpr} (h : R e e') : Congruent R e e'
  | same (e : SqlExpr) : Congruent R e e
  | nested {e e' : SqlExpr} (h : Congruent R e e') : Congruent R (.nested e) (.nested e')
  | unaryOp {e e' : SqlExpr} (op : UnaryOperator) (h : Congruent R e e') : Congruent R (.unaryOp op e) (.unaryOp op e')
  | binaryOp {l l' r r' : SqlExpr} (op : BinaryOperator) (hl : Congruent R l l') (hr : Congruent R r r') :
    Congruent R (.binaryOp l op r) (.binaryOp l' op r')
  | inList {e e' : SqlExpr} {list list' : List SqlExpr} (negated : Bool) (he : Congruent R e e')
    (hlist : CongruentAll R list list') : Congruent R (.inList e list negated) (.inList e' list' negated)
  | isNull {e e' : SqlExpr} (h : Congruent R e e') : Congruent R (.isNull e) (.isNull e')
  | isNotNull {e e' : SqlExpr} (h : Congruent R e e') : Congruent R (.isNotNull e) (.isNotNull e')
  | between {e e' low low' high high' : SqlExpr} (negated : Bool) (he : Congruent R e e') (hl : Congruent R low low')
    (hh : Congruent R high high') : Congruent R (.between e negated low high) (.between e' negated low' high')
  | like {e e' pattern pattern' : SqlExpr} (caseInsensitive negated : Bool) (unread : List String) (he : Congruent R e e')
    (hp : likePatternString pattern = likePatternString pattern') :
    Congruent R (.like caseInsensitive negated e pattern unread) (.like caseInsensitive negated e' pattern' unread)
  | function {args args' : List SqlExpr} (name : ObjectName) (form : CallForm) (h : CongruentAll R args args') :
    Congruent R (.function name args form) (.function name args' form)

inductive CongruentAll (R : SqlExpr → SqlExpr → Prop) : List SqlExpr → List SqlExpr → Prop
  | nil : CongruentAll R [] []
  | cons {e e' : SqlExpr} {es es' : List SqlExpr} (h : Congruent R e e') (hs : CongruentAll R es es') :
    CongruentAll R (e :: es) (e' :: es')

end

/-- What the translator asks about related parts has the same answer, and what it emits for them is related. -/
structure Leaves (today : ℤ) (S : Value → Value → Prop) (R : SqlExpr → SqlExpr → Prop) : Prop where
  fieldName : ∀ {e e'}, R e e' → fieldName e = fieldName e'
  isLiteral : ∀ {e e'}, R e e' → isLiteral e = isLiteral e'
  isFunction : ∀ {e e'}, R e e' → e.isFunction = e'.isFunction
  filter : ∀ {e e'}, R e e' → exprToFilter today e = exprFilter today e ∧ exprToFilter today e' = exprFilter today e'
  aggExpr : ∀ {e e'}, R e e' → Alike S (exprToAggExpr today e) (exprToAggExpr today e')

section
variable {today : ℤ} {S : Value → Value → Prop} {R : SqlExpr → SqlExpr → Prop} {e e' : SqlExpr} {es es' : List SqlExpr}

theorem fieldName_congruent (hR : Leaves today S R) {e e' : SqlExpr} (h : Congruent R e e') : fieldName e = fieldName e' := by
  cases h with
  | leaf h => exact hR.fieldName h
  | nested h =>
    rw [fieldName, fieldName]
    exact fieldName_congruent hR h
  | _ => rfl

theorem isLiteral_congruent (hR : Leaves today S R) {e e' : SqlExpr} (h : Congruent R e e') : isLiteral e = isLiteral e' := by
  cases h with
  | leaf h => exact hR.isLiteral h
  | nested h =>
    rw [isLiteral, isLiteral]
    exact isLiteral_congruent hR h
  | unaryOp op h =>
    cases op with
    | minus =>
      rw [isLiteral, isLiteral]
      exact isLiteral_congruent hR h
    | plus =>
      rw [isLiteral, isLiteral]
      exact isLiteral_congruent hR h
    | not => rfl
  | _ => rfl

theorem isFunction_congruent (hR : Leaves today S R) (h : Congruent R e e') : e.isFunction = e'.isFunction := by
  cases h with
  | leaf h => exact hR.isFunction h
  | _ => rfl

theorem runArgs_alike (h : List.Forall₂ (Alike S) xs ys) :
    Alike (List.Forall₂ S) (runArgs xs) (runArgs ys) := by
  induction h with
  | nil => exact alike_pure .nil
  | cons hx _ ih =>
    rw [runArgs, runArgs]
    refine hx.bind fun v w hv => ?_
    refine ih.bind fun vs ws hvs => ?_
    exact alike_pure (.cons hv hvs)

theorem firstArg_alike (h : List.Forall₂ (Alike S) xs ys) (upper : String) :
    Alike S (firstArg upper xs) (firstArg upper ys) := by
  cases h with
  | nil => exact alike_fail _
  | cons hx _ => exact hx

theorem functionToAggExpr_alike (hS : JsonCongruence S) (name : ObjectName) (form : CallForm) (h : List.Forall₂ (Alike S) xs ys) : Alike S (functionToAggExpr name xs form) (functionToAggExpr name ys form) := by
  have first : ∀ op upper, Alike S (do pure (.doc [(op, ← firstArg upper xs)])) (do pure (.doc [(op, ← firstArg upper ys)])) :=
    fun op upper => (firstArg_alike h upper).bind fun v w hv => alike_pure (hS.field op hv)
  have regex : Alike S (functionToAggExpr.regex xs) (functionToAggExpr.regex ys) := by
    cases h with
    | nil => exact alike_fail _
    | cons hinput h =>
      cases h with
      | nil => exact alike_fail _
      | cons hpattern hrest =>
        rw [functionToAggExpr.regex, functionToAggExpr.regex]
        refine hinput.bind fun v w hv => ?_
        refine hpattern.bind fun p q hp => ?_
        refine (runArgs_alike (List.forall₂_take 1 hrest)).bind fun os os' hos => ?_
        refine alike_pure (hS.field "$regexMatch" (hS.doc ?_))
        refine List.Forall₂.cons ⟨rfl, trivial, hv⟩ (List.Forall₂.cons ⟨rfl, trivial, hp⟩ ?_)
        exact List.forall₂_map_left_iff.2 (List.forall₂_map_right_iff.2 (hos.imp fun o o' ho => ⟨rfl, trivial, ho⟩))
  unfold functionToAggExpr
  by_cases hsub : form.subquery
  · rw [if_pos hsub, if_pos hsub]
    exact alike_fail _
  · rw [if_neg hsub, if_neg hsub]
    generalize upperName name.display = upper
    split
    · exact alike_pure (hS.refl _)
    · exact first "$sum" "SUM"
    · exact first "$avg" "AVG"
    · exact first "$min" "MIN"
    · exact first "$max" "MAX"
    · exact regex
    · exact regex
    · exact (runArgs_alike h).bind fun vs ws hvs => alike_pure (hS.call "$ifNull" hvs)
    · exact first "$toLower" "LOWER"
    · exact first "$toUpper" "UPPER"
    · exact first "$abs" "ABS"
    · exact first "$ceil" "CEIL"
    · exact first "$floor" "FLOOR"
    · exact first "$sqrt" "SQRT"
    · exact (firstArg_alike h "TRIM").bind fun v w hv => alike_pure (hS.field "$trim" (hS.field "input" hv))
    · exact alike_warn _ (hS.refl _)

mutual

/-- **Congruent expressions are translated to related values.** -/
theorem aggExpr_congruent (hS : JsonCongruence S) (hR : Leaves today S R) {e e' : SqlExpr} (h : Congruent R e e') :
    Alike S (exprToAggExpr today e) (exprToAggExpr today e') := by
  cases h with
  | leaf h => exact hR.aggExpr h
  | same => exact alike_refl hS.refl _
  | nested h =>
    rw [exprToAggExpr, exprToAggExpr]
    exact aggExpr_congruent hS hR h
  | unaryOp op h =>
    have he := aggExpr_congruent hS hR h
    cases op with
    | minus =>
      rw [exprToAggExpr, exprToAggExpr]
      exact he.bind fun v w hv => alike_pure (hS.negate hv)
    | plus =>
      rw [exprToAggExpr, exprToAggExpr]
      exact he
    | not =>
      rw [exprToAggExpr, exprToAggExpr]
      exact he.bind fun v w hv => alike_pure (hS.call "$not" (.cons hv .nil))
  | binaryOp op hl hr =>
    rw [exprToAggExpr, exprToAggExpr, binaryOpToAggExpr, binaryOpToAggExpr]
    refine (alike_refl (fun _ => rfl) op.mongoOp).bind fun m _ hm => ?_
    refine (aggExpr_congruent hS hR hl).bind fun v w hv => ?_
    refine (aggExpr_congruent hS hR hr).bind fun v' w' hv' => ?_
    rw [← hm]
    exact alike_pure (hS.call m (.cons hv (.cons hv' .nil)))
  | inList negated he hlist =>
    rw [exprToAggExpr, exprToAggExpr]
    refine (runArgs_alike (aggExprs_congruent hS hR hlist)).bind fun vs ws hvs => ?_
    refine (aggExpr_congruent hS hR he).bind fun v w hv => ?_
    exact alike_pure (hS.negateIf negated (hS.call "$in" (.cons hv (.cons (hS.arr hvs) .nil))))
  | isNull h =>
    rw [exprToAggExpr, exprToAggExpr]
    exact (aggExpr_congruent hS hR h).bind fun v w hv => alike_pure (hS.call "$eq" (.cons hv (.cons (hS.refl _) .nil)))
  | isNotNull h =>
    rw [exprToAggExpr, exprToAggExpr]
    exact (aggExpr_congruent hS hR h).bind fun v w hv => alike_pure (hS.call "$ne" (.cons hv (.cons (hS.refl _) .nil)))
  | between negated he hl hh =>
    rw [exprToAggExpr, exprToAggExpr]
    refine (aggExpr_congruent hS hR he).bind fun v w hv => ?_
    refine (aggExpr_congruent hS hR hl).bind fun l l' hl => ?_
    refine (aggExpr_congruent hS hR hh).bind fun u u' hu => ?_
    refine alike_pure (hS.negateIf negated (hS.call "$and" (.cons ?_ (.cons ?_ .nil))))
    · exact hS.call "$gte" (.cons hv (.cons hl .nil))
    · exact hS.call "$lte" (.cons hv (.cons hu .nil))
  | like caseInsensitive negated unread he hp =>
    rw [exprToAggExpr, exprToAggExpr, likeToAggExpr, likeToAggExpr, hp]
    refine (aggExpr_congruent hS hR he).bind fun v w hv => ?_
    refine (alike_refl (fun _ => rfl) _).bind fun pattern _ hpattern => ?_
    rw [← hpattern]
    refine alike_pure (hS.negateIf negated (hS.field "$regexMatch" (hS.doc ?_)))
    refine List.Forall₂.cons ⟨rfl, trivial, hv⟩ (List.Forall₂.cons ⟨rfl, trivial, hS.refl _⟩ ?_)
    exact List.forall₂_same.2 fun f _ => ⟨rfl, trivial, hS.refl _⟩
  | function name form h =>
    rw [exprToAggExpr, exprToAggExpr]
    exact functionToAggExpr_alike hS name form (aggExprs_congruent hS hR h)

theorem aggExprs_congruent (hS : JsonCongruence S) (hR : Leaves today S R) {es es' : List SqlExpr} (h : CongruentAll R es es') :
    List.Forall₂ (Alike S) (exprsToAggExpr today es) (exprsToAggExpr today es') := by
  cases h with
  | nil => exact .nil
  | cons h hs => exact .cons (aggExpr_congruent hS hR h) (aggExprs_congruent hS hR hs)

end

end

/-! ## Conditions -/

/-- The filters that are emitted, with related values: `D` in the fields, and `A` inside `$expr`. -/
inductive FilterAlike (K : String → Prop) (D A : Value → Value → Prop) : Value → Value → Prop
  | fields {fs gs : List (String × Value)} (h : List.Forall₂ (SameKey K D) fs gs) : FilterAlike K D A (.doc fs) (.doc gs)
  | expr {v w : Value} (h : A v w) : FilterAlike K D A (.doc [("$expr", v)]) (.doc [("$expr", w)])
  | and {v v' w w' : Value} (h : FilterAlike K D A v w) (h' : FilterAlike K D A v' w') :
    FilterAlike K D A (call "$and" [v, v']) (call "$and" [w, w'])
  | or {v v' w w' : Value} (h : FilterAlike K D A v w) (h' : FilterAlike K D A v' w') :
    FilterAlike K D A (call "$or" [v, v']) (call "$or" [w, w'])

/-- The same condition, up to related parts: by `RD` where a field is compared with them, by `RA` everywhere else. -/
inductive CongruentFilter (RD RA : SqlExpr → SqlExpr → Prop) : SqlExpr → SqlExpr → Prop
  | nested {e e' : SqlExpr} (h : CongruentFilter RD RA e e') : CongruentFilter RD RA (.nested e) (.nested e')
  | and {l l' r r' : SqlExpr} (hl : CongruentFilter RD RA l l') (hr : CongruentFilter RD RA r r') :
    CongruentFilter RD RA (.binaryOp l .and r) (.binaryOp l' .and r')
  | or {l l' r r' : SqlExpr} (hl : CongruentFilter RD RA l l') (hr : CongruentFilter RD RA r r') :
    CongruentFilter RD RA (.binaryOp l .or r) (.binaryOp l' .or r')
  | compared {l r r' : SqlExpr} {op : BinaryOperator} {m f : String} (hm : op.comparison = some m)
    (hf : fieldName l = some f) (hlit : isLiteral r = true) (h : Congruent RD r r') :
    CongruentFilter RD RA (.binaryOp l op r) (.binaryOp l op r')
  | swapped {l l' r : SqlExpr} {op : BinaryOperator} {m f : String} (hm : op.comparison = some m)
    (hlit : isLiteral l = true) (hf : fieldName r = some f) (h : Congruent RD l l') :
    CongruentFilter RD RA (.binaryOp l op r) (.binaryOp l' op r)
  | inList {e : SqlExpr} {list list' : List SqlExpr} {f : String} (negated : Bool) (hf : fieldName e = some f)
    (h : CongruentAll RD list list') : CongruentFilter RD RA (.inList e list negated) (.inList e list' negated)
  | between {e low low' high high' : SqlExpr} {f : String} (negated : Bool) (hf : fieldName e = some f)
    (hl : Congruent RD low low') (hh : Congruent RD high high') :
    CongruentFilter RD RA (.between e negated low high) (.between e negated low' high')
  | computed {e e' : SqlExpr} (h : Congruent RA e e') : CongruentFilter RD RA e e'

section
variable {K : String → Prop} {P : String × Value → String × Value → Prop} {fs fs' gs gs' : List (String × Value)}

theorem insertKV_alike (hP : ∀ {f g}, P f g → f.1 = g.1) (hkv : P (k, v) (k, w))
    (h : List.Forall₂ P fs gs) : List.Forall₂ P (Mongo.insertKV k v fs) (Mongo.insertKV k w gs) := by
  induction h with
  | nil => exact .cons hkv .nil
  | @cons f g fs gs hf hrest ih =>
    obtain ⟨l, x⟩ := f
    obtain ⟨l', y⟩ := g
    obtain rfl : l = l' := hP hf
    by_cases hl : l = k
    · rw [Mongo.insertKV, Mongo.insertKV, if_pos hl, if_pos hl]
      exact .cons hkv hrest
    · rw [Mongo.insertKV, Mongo.insertKV, if_neg hl, if_neg hl]
      exact .cons hf ih

theorem insertAll_alike (hP : ∀ {f g}, P f g → f.1 = g.1) (h : List.Forall₂ P fs gs) (h' : List.Forall₂ P fs' gs') :
    List.Forall₂ P (Mongo.insertAll fs fs') (Mongo.insertAll gs gs') := by
  induction h generalizing fs' gs' with
  | nil => exact h'
  | @cons f g fs gs hf _ ih =>
    obtain ⟨l, x⟩ := f
    obtain ⟨l', y⟩ := g
    obtain rfl : l = l' := hP hf
    exact ih (insertKV_alike hP hf h')

theorem keys_alike (h : List.Forall₂ (SameKey K D) fs gs) : fs.map Prod.fst = gs.map Prod.fst := by
  induction h with
  | nil => rfl
  | cons hf _ ih => rw [List.map_cons, List.map_cons, hf.1, ih]

end

theorem simple_of_keys (h : fs.map Prod.fst = gs.map Prod.fst) : simple fs = simple gs := by
  have hs : ∀ fs : List (String × Value), simple fs = (fs.map Prod.fst).all fun k => !Mongo.isOperator k := by
    intro fs
    rw [simple, List.all_map]
    rfl
  rw [hs, hs, h]

theorem overlap_of_keys {fs gs fs' gs' : List (String × Value)} (h : fs.map Prod.fst = gs.map Prod.fst)
    (h' : fs'.map Prod.fst = gs'.map Prod.fst) :
    (fs.any fun f => (fs'.lookup f.1).isSome) = gs.any fun f => (gs'.lookup f.1).isSome := by
  have hs : ∀ fs fs' : List (String × Value),
      (fs.any fun f => (fs'.lookup f.1).isSome) = (fs.map Prod.fst).any fun k => decide (k ∈ fs'.map Prod.fst) := by
    intro fs fs'
    rw [List.any_map]
    refine congrArg (fun p => fs.any p) (funext fun f => ?_)
    rw [Function.comp, Bool.eq_iff_iff, lookup_isSome, decide_eq_true_eq]
  rw [hs, hs, h, h']

section
variable {today : ℤ} {K : String → Prop} {D A : Value → Value → Prop} {RD RA : SqlExpr → SqlExpr → Prop} {v v' w w' : Value}

theorem simple_operator {op : String} (h : Mongo.isOperator op = true) (v : Value) : simple [(op, v)] = false := by
  rw [simple, List.all_cons, h]
  rfl

theorem FilterAlike.shape (h : FilterAlike K D A v w) : ∃ fs gs, v = .doc fs ∧ w = .doc gs ∧
    fs.map Prod.fst = gs.map Prod.fst ∧ (simple fs = true → List.Forall₂ (SameKey K D) fs gs) := by
  cases h with
  | fields h => exact ⟨_, _, rfl, rfl, keys_alike h, fun _ => h⟩
  | expr h =>
    refine ⟨_, _, rfl, rfl, rfl, fun hs => ?_⟩
    rw [@simple_operator "$expr" (by decide)] at hs
    cases hs
  | and h h' =>
    refine ⟨_, _, rfl, rfl, rfl, fun hs => ?_⟩
    rw [@simple_operator "$and" (by decide)] at hs
    cases hs
  | or h h' =>
    refine ⟨_, _, rfl, rfl, rfl, fun hs => ?_⟩
    rw [@simple_operator "$or" (by decide)] at hs
    cases hs

theorem mergeAnd_alike (h : FilterAlike K D A v w) (h' : FilterAlike K D A v' w') :
    FilterAlike K D A (mergeAnd v v') (mergeAnd w w') := by
  obtain ⟨fs, gs, rfl, rfl, hk, hs⟩ := h.shape
  obtain ⟨fs', gs', rfl, rfl, hk', hs'⟩ := h'.shape
  rw [mergeAnd, mergeAnd, ← simple_of_keys hk, ← simple_of_keys hk', ← overlap_of_keys hk hk']
  by_cases hm : (simple fs && simple fs' && !(fs.any fun f => (fs'.lookup f.1).isSome)) = true
  · rw [if_pos hm, if_pos hm]
    rw [Bool.and_eq_true, Bool.and_eq_true] at hm
    exact .fields (insertAll_alike (fun hf => hf.1) (hs' hm.1.2) (hs hm.1.1))
  · rw [if_neg hm, if_neg hm]
    exact .and h h'

/-- The keys that a condition can put into a filter. -/
def FieldsIn (K : String → Prop) (e : SqlExpr) : Prop := ∀ r ∈ e.references, ∀ f, fieldName r = some f → K f

theorem fieldName_in : ∀ {e : SqlExpr}, FieldsIn K e → fieldName e = some f → K f
  | .identifier _, h, hf => h _ (List.mem_singleton.2 rfl) _ hf
  | .compoundIdentifier _, h, hf => h _ (List.mem_singleton.2 rfl) _ hf
  | .nested e, h, hf => by
    have he : FieldsIn K e := h
    rw [fieldName] at hf
    exact fieldName_in he hf

theorem fieldFilter_alike (hD : JsonCongruence D) (op : String) (hf : K f) (h : D v w) :
    FilterAlike K D A (simpleFieldFilter op f v) (simpleFieldFilter op f w) := by
  rw [simpleFieldFilter, simpleFieldFilter]
  by_cases hop : op = "$eq"
  · rw [if_pos hop, if_pos hop]
    exact .fields (.cons ⟨rfl, hf, h⟩ .nil)
  · rw [if_neg hop, if_neg hop]
    exact .fields (.cons ⟨rfl, hf, hD.field op h⟩ .nil)

/-- The relations of the leaves, and of what is emitted for them. -/
structure Setting (today : ℤ) (D A : Value → Value → Prop) (RD RA : SqlExpr → SqlExpr → Prop) : Prop where
  data : JsonCongruence D
  agg : JsonCongruence A
  dataLeaves : Leaves today D RD
  aggData : Leaves today D RA
  aggLeaves : Leaves today A RA

theorem exprFilter_alike (S : Setting today D A RD RA) {e e' : SqlExpr} (h : Congruent RA e e') :
    Alike (FilterAlike K D A) (exprFilter today e) (exprFilter today e') := by
  rw [exprFilter, exprFilter]
  exact (aggExpr_congruent S.agg S.aggLeaves h).bind fun v w hv => alike_pure (.expr hv)

theorem comparisonToFilter_alike (S : Setting today D A RD RA) {l l' r r' : SqlExpr} (op : String) (hl : Congruent RA l l')
    (hr : Congruent RA r r') (hkl : FieldsIn K l) (hkr : FieldsIn K r) :
    Alike (FilterAlike K D A) (comparisonToFilter today op l r) (comparisonToFilter today op l' r') := by
  have hfl := fieldName_congruent S.aggLeaves hl
  have hfr := fieldName_congruent S.aggLeaves hr
  have hll := isLiteral_congruent S.aggLeaves hl
  have hlr := isLiteral_congruent S.aggLeaves hr
  by_cases hc : ∃ f, fieldName l = some f ∧ isLiteral r = true
  · obtain ⟨f, hf, hlit⟩ := hc
    rw [comparisonToFilter_field hf hlit, comparisonToFilter_field (hfl ▸ hf) (hlr ▸ hlit)]
    exact (aggExpr_congruent S.data S.aggData hr).bind fun v w hv => alike_pure (fieldFilter_alike S.data op (fieldName_in hkl hf) hv)
  by_cases hc' : ∃ f, isLiteral l = true ∧ fieldName r = some f
  · obtain ⟨f, hlit, hf⟩ := hc'
    rw [comparisonToFilter_swapped hc hlit hf, comparisonToFilter_swapped (hfl ▸ hlr ▸ hc) (hll ▸ hlit) (hfr ▸ hf)]
    exact (aggExpr_congruent S.data S.aggData hl).bind fun v w hv => alike_pure (fieldFilter_alike S.data _ (fieldName_in hkr hf) hv)
  rw [comparisonToFilter_expr hc hc', comparisonToFilter_expr (hfl ▸ hlr ▸ hc) (hll ▸ hfr ▸ hc')]
  refine (aggExpr_congruent S.agg S.aggLeaves hl).bind fun v w hv => ?_
  refine (aggExpr_congruent S.agg S.aggLeaves hr).bind fun v' w' hv' => ?_
  exact alike_pure (.expr (S.agg.call op (.cons hv (.cons hv' .nil))))

theorem fieldsIn_append (h : ∀ x ∈ l.references ++ r.references, ∀ f, fieldName x = some f → K f) :
    FieldsIn K l ∧ FieldsIn K r :=
  List.forall_mem_append.1 h

theorem congruent_binaryOp (h : Congruent R (.binaryOp l op r) x) :
    R (.binaryOp l op r) x ∨ ∃ l' r', x = .binaryOp l' op r' ∧ Congruent R l l' ∧ Congruent R r r' := by
  cases h with
  | leaf h => exact .inl h
  | same => exact .inr ⟨l, r, rfl, .same l, .same r⟩
  | binaryOp op hl hr => exact .inr ⟨_, _, rfl, hl, hr⟩

theorem congruentAll_same (R : SqlExpr → SqlExpr → Prop) : ∀ es : List SqlExpr, CongruentAll R es es
  | [] => .nil
  | e :: es => .cons (.same e) (congruentAll_same R es)

theorem congruent_inList (h : Congruent R (.inList e list negated) x) :
    R (.inList e list negated) x ∨ ∃ e' list', x = .inList e' list' negated ∧ Congruent R e e' ∧ CongruentAll R list list' := by
  cases h with
  | leaf h => exact .inl h
  | same => exact .inr ⟨e, list, rfl, .same e, congruentAll_same R list⟩
  | inList negated he hlist => exact .inr ⟨_, _, rfl, he, hlist⟩

theorem congruent_between (h : Congruent R (.between e negated low high) x) : R (.between e negated low high) x ∨
      ∃ e' low' high', x = .between e' negated low' high' ∧ Congruent R e e' ∧ Congruent R low low' ∧ Congruent R high high' := by
  cases h with
  | leaf h => exact .inl h
  | same => exact .inr ⟨e, low, high, rfl, .same e, .same low, .same high⟩
  | between negated he hl hh => exact .inr ⟨_, _, _, rfl, he, hl, hh⟩

theorem exprToFilter_compared (h : op.comparison = some m) :
    exprToFilter today (.binaryOp l op r) = comparisonToFilter today m l r := by
  cases op with
  | and => cases h
  | or => cases h
  | _ => simp only [exprToFilter, h]

theorem exprToFilter_computed (h : op.comparison = none) (hand : op ≠ .and)
    (hor : op ≠ .or) : exprToFilter today (.binaryOp l op r) = exprFilter today (.binaryOp l op r) := by
  cases op with
  | and => exact absurd rfl hand
  | or => exact absurd rfl hor
  | _ => simp only [exprToFilter, h]

theorem betweenFilter_alike (hD : JsonCongruence D) (negated : Bool) (hf : K f) (hl : D l l')
    (hu : D u u') : Alike (FilterAlike K D A)
      (if negated then pure (call "$or" [.doc [(f, .doc [("$lt", l)])], .doc [(f, .doc [("$gt", u)])]])
        else pure (.doc [(f, .doc [("$gte", l), ("$lte", u)])]))
      (if negated then pure (call "$or" [.doc [(f, .doc [("$lt", l')])], .doc [(f, .doc [("$gt", u')])]])
        else pure (.doc [(f, .doc [("$gte", l'), ("$lte", u')])])) := by
  cases negated with
  | true =>
    refine alike_pure (.or (.fields (.cons ⟨rfl, hf, ?_⟩ .nil)) (.fields (.cons ⟨rfl, hf, ?_⟩ .nil)))
    · exact hD.field "$lt" hl
    · exact hD.field "$gt" hu
  | false =>
    refine alike_pure (.fields (.cons ⟨rfl, hf, ?_⟩ .nil))
    exact hD.doc (.cons ⟨rfl, trivial, hl⟩ (.cons ⟨rfl, trivial, hu⟩ .nil))

theorem leaf_alike (S : Setting today D A RD RA) (h : RA e e') :
    Alike (FilterAlike K D A) (exprToFilter today e) (exprToFilter today e') := by
  rw [(S.aggLeaves.filter h).1, (S.aggLeaves.filter h).2]
  exact exprFilter_alike S (.leaf h)

theorem isNullFilter_alike (S : Setting today D A RD RA) {e e' : SqlExpr} (hk : FieldsIn K e) (h : Congruent RA e e') :
    Alike (FilterAlike K D A) (exprToFilter today (.isNull e)) (exprToFilter today (.isNull e')) := by
  have hf := fieldName_congruent S.aggLeaves h
  cases hc : fieldName e with
  | some f =>
    rw [exprToFilter_isNull hc, exprToFilter_isNull (hf ▸ hc)]
    exact alike_pure (.fields (.cons ⟨rfl, fieldName_in hk hc, S.data.refl _⟩ .nil))
  | none =>
    rw [exprToFilter_isNull_expr hc, exprToFilter_isNull_expr (hf ▸ hc)]
    refine (aggExpr_congruent S.agg S.aggLeaves h).bind fun v w hv => ?_
    exact alike_pure (.expr (S.agg.call "$eq" (.cons hv (.cons (S.agg.refl _) .nil))))

theorem isNotNullFilter_alike (S : Setting today D A RD RA) {e e' : SqlExpr} (hk : FieldsIn K e) (h : Congruent RA e e') :
    Alike (FilterAlike K D A) (exprToFilter today (.isNotNull e)) (exprToFilter today (.isNotNull e')) := by
  have hf := fieldName_congruent S.aggLeaves h
  cases hc : fieldName e with
  | some f =>
    rw [exprToFilter_isNotNull hc, exprToFilter_isNotNull (hf ▸ hc)]
    exact alike_pure (.fields (.cons ⟨rfl, fieldName_in hk hc, S.data.refl _⟩ .nil))
  | none =>
    rw [exprToFilter_isNotNull_expr hc, exprToFilter_isNotNull_expr (hf ▸ hc)]
    refine (aggExpr_congruent S.agg S.aggLeaves h).bind fun v w hv => ?_
    exact alike_pure (.expr (S.agg.call "$ne" (.cons hv (.cons (S.agg.refl _) .nil))))

theorem inListFilter_alike (S : Setting today D A RD RA) (negated : Bool) {e e' : SqlExpr} {list list' : List SqlExpr}
    (hk : FieldsIn K e) (he : Congruent RA e e') (hlist : CongruentAll RA list list') :
    Alike (FilterAlike K D A) (exprToFilter today (.inList e list negated)) (exprToFilter today (.inList e' list' negated)) := by
  have hf := fieldName_congruent S.aggLeaves he
  cases hc : fieldName e with
  | some f =>
    rw [exprToFilter_inList hc, exprToFilter_inList (hf ▸ hc)]
    refine (runArgs_alike (aggExprs_congruent S.data S.aggData hlist)).bind fun vs ws hvs => ?_
    exact alike_pure (fieldFilter_alike S.data _ (fieldName_in hk hc) (S.data.arr hvs))
  | none =>
    rw [exprToFilter_inList_expr hc, exprToFilter_inList_expr (hf ▸ hc)]
    refine (runArgs_alike (aggExprs_congruent S.agg S.aggLeaves hlist)).bind fun vs ws hvs => ?_
    refine (aggExpr_congruent S.agg S.aggLeaves he).bind fun v w hv => ?_
    exact alike_pure (.expr (S.agg.negateIf negated (S.agg.call "$in" (.cons hv (.cons (S.agg.arr hvs) .nil)))))

theorem betweenExpr_alike (S : Setting today D A RD RA) (negated : Bool) {e e' low low' high high' : SqlExpr}
    (hk : FieldsIn K e) (he : Congruent RA e e') (hl : Congruent RA low low') (hh : Congruent RA high high') :
    Alike (FilterAlike K D A) (exprToFilter today (.between e negated low high))
      (exprToFilter today (.between e' negated low' high')) := by
  have hf := fieldName_congruent S.aggLeaves he
  cases hc : fieldName e with
  | some f =>
    rw [exprToFilter_between hc, exprToFilter_between (hf ▸ hc)]
    refine (aggExpr_congruent S.data S.aggData hl).bind fun l l' hl => ?_
    refine (aggExpr_congruent S.data S.aggData hh).bind fun u u' hu => ?_
    exact betweenFilter_alike S.data negated (fieldName_in hk hc) hl hu
  | none =>
    rw [exprToFilter_between_expr hc, exprToFilter_between_expr (hf ▸ hc)]
    exact exprFilter_alike S (.between negated he hl hh)

/-- **Congruent conditions are translated to related filters.** -/
theorem computed_alike (S : Setting today D A RD RA) : ∀ {e e' : SqlExpr}, FieldsIn K e → Congruent RA e e' →
    Alike (FilterAlike K D A) (exprToFilter today e) (exprToFilter today e')
  | .nested e, _, hk, h => by
    have hke : FieldsIn K e := hk
    cases h with
    | leaf h => exact leaf_alike S h
    | same =>
      rw [exprToFilter]
      exact computed_alike S hke (.same e)
    | nested h =>
      rw [exprToFilter, exprToFilter]
      exact computed_alike S hke h
  | .binaryOp l op r, _, hk, h => by
    obtain ⟨hkl, hkr⟩ := fieldsIn_append hk
    obtain h | ⟨l', r', rfl, hl, hr⟩ := congruent_binaryOp h
    · exact leaf_alike S h
    by_cases hand : op = .and
    · rw [hand, exprToFilter, exprToFilter]
      refine (computed_alike S hkl hl).bind fun v w hv => ?_
      exact (computed_alike S hkr hr).bind fun v' w' hv' => alike_pure (mergeAnd_alike hv hv')
    by_cases hor : op = .or
    · rw [hor, exprToFilter, exprToFilter]
      refine (computed_alike S hkl hl).bind fun v w hv => ?_
      exact (computed_alike S hkr hr).bind fun v' w' hv' => alike_pure (.or hv hv')
    cases hm : op.comparison with
    | some m =>
      rw [exprToFilter_compared hm, exprToFilter_compared hm]
      exact comparisonToFilter_alike S m hl hr hkl hkr
    | none =>
      rw [exprToFilter_computed hm hand hor, exprToFilter_computed hm hand hor]
      exact exprFilter_alike S (.binaryOp op hl hr)
  | .inList e list negated, _, hk, h => by
    obtain ⟨hke, -⟩ := List.forall_mem_append.1 hk
    obtain h | ⟨e', list', rfl, he, hlist⟩ := congruent_inList h
    · exact leaf_alike S h
    · exact inListFilter_alike S negated hke he hlist
  | .between e negated low high, _, hk, h => by
    obtain ⟨hke, -⟩ := List.forall_mem_append.1 (List.forall_mem_append.1 hk).1
    obtain h | ⟨e', low', high', rfl, he, hl, hh⟩ := congruent_between h
    · exact leaf_alike S h
    · exact betweenExpr_alike S negated hke he hl hh
  | .isNull e, _, hk, h => by
    cases h with
    | leaf h => exact leaf_alike S h
    | same => exact isNullFilter_alike S hk (.same e)
    | isNull h => exact isNullFilter_alike S hk h
  | .isNotNull e, _, hk, h => by
    cases h with
    | leaf h => exact leaf_alike S h
    | same => exact isNotNullFilter_alike S hk (.same e)
    | isNotNull h => exact isNotNullFilter_alike S hk h
  | .identifier i, _, _, h => by
    cases h with
    | leaf h => exact leaf_alike S h
    | same =>
      simp only [exprToFilter]
      exact exprFilter_alike S (.same _)
  | .compoundIdentifier is, _, _, h => by
    cases h with
    | leaf h => exact leaf_alike S h
    | same =>
      simp only [exprToFilter]
      exact exprFilter_alike S (.same _)
  | .value v, _, _, h => by
    cases h with
    | leaf h => exact leaf_alike S h
    | same =>
      simp only [exprToFilter]
      exact exprFilter_alike S (.same _)
  | .other display, _, _, h => by
    cases h with
    | leaf h => exact leaf_alike S h
    | same =>
      simp only [exprToFilter]
      exact exprFilter_alike S (.same _)
  | .unaryOp op e, _, _, h => by
    cases h with
    | leaf h => exact leaf_alike S h
    | same =>
      simp only [exprToFilter]
      exact exprFilter_alike S (.same _)
    | unaryOp op h =>
      simp only [exprToFilter]
      exact exprFilter_alike S (.unaryOp op h)
  | .like caseInsensitive negated e pattern unread, _, _, h => by
    cases h with
    | leaf h => exact leaf_alike S h
    | same =>
      simp only [exprToFilter]
      exact exprFilter_alike S (.same _)
    | like caseInsensitive negated unread he hp =>
      simp only [exprToFilter]
      exact exprFilter_alike S (.like caseInsensitive negated unread he hp)
  | .function name args form, _, _, h => by
    cases h with
    | leaf h => exact leaf_alike S h
    | same =>
      simp only [exprToFilter]
      exact exprFilter_alike S (.same _)
    | function name form h =>
      simp only [exprToFilter]
      exact exprFilter_alike S (.function name form h)

/-- **Conditions that differ in related parts are translated to related filters.** -/
theorem filter_congruent (S : Setting today D A RD RA) {e e' : SqlExpr} (hk : FieldsIn K e)
    (h : CongruentFilter RD RA e e') : Alike (FilterAlike K D A) (exprToFilter today e) (exprToFilter today e') := by
  cases h with
  | nested h =>
    rw [exprToFilter, exprToFilter]
    exact filter_congruent S hk h
  | and hl hr =>
    obtain ⟨hkl, hkr⟩ := fieldsIn_append hk
    rw [exprToFilter, exprToFilter]
    refine (filter_congruent S hkl hl).bind fun v w hv => ?_
    exact (filter_congruent S hkr hr).bind fun v' w' hv' => alike_pure (mergeAnd_alike hv hv')
  | or hl hr =>
    obtain ⟨hkl, hkr⟩ := fieldsIn_append hk
    rw [exprToFilter, exprToFilter]
    refine (filter_congruent S hkl hl).bind fun v w hv => ?_
    exact (filter_congruent S hkr hr).bind fun v' w' hv' => alike_pure (.or hv hv')
  | compared hm hf hlit h =>
    have hlit' := isLiteral_congruent S.dataLeaves h ▸ hlit
    rw [exprToFilter_compared hm, exprToFilter_compared hm, comparisonToFilter_field hf hlit, comparisonToFilter_field hf hlit']
    refine (aggExpr_congruent S.data S.dataLeaves h).bind fun v w hv => ?_
    exact alike_pure (fieldFilter_alike S.data _ (fieldName_in (fieldsIn_append hk).1 hf) hv)
  | swapped hm hlit hf h =>
    have hlit' := isLiteral_congruent S.dataLeaves h ▸ hlit
    have hno : ∀ {x y : SqlExpr}, isLiteral x = true → ¬ ∃ g, fieldName x = some g ∧ isLiteral y = true := by
      rintro x y hx ⟨g, hg, -⟩
      rw [isLiteral_fieldName hg] at hx
      cases hx
    rw [exprToFilter_compared hm, exprToFilter_compared hm, comparisonToFilter_swapped (hno hlit) hlit hf,
      comparisonToFilter_swapped (hno hlit') hlit' hf]
    refine (aggExpr_congruent S.data S.dataLeaves h).bind fun v w hv => ?_
    exact alike_pure (fieldFilter_alike S.data _ (fieldName_in (fieldsIn_append hk).2 hf) hv)
  | inList negated hf h =>
    rw [exprToFilter_inList hf, exprToFilter_inList hf]
    refine (runArgs_alike (aggExprs_congruent S.data S.dataLeaves h)).bind fun vs ws hvs => ?_
    exact alike_pure (fieldFilter_alike S.data _ (fieldName_in (List.forall_mem_append.1 hk).1 hf) (S.data.arr hvs))
  | between negated hf hl hh =>
    rw [exprToFilter_between hf, exprToFilter_between hf]
    refine (aggExpr_congruent S.data S.dataLeaves hl).bind fun l l' hl => ?_
    refine (aggExpr_congruent S.data S.dataLeaves hh).bind fun u u' hu => ?_
    exact betweenFilter_alike S.data negated
      (fieldName_in (List.forall_mem_append.1 (List.forall_mem_append.1 hk).1).1 hf) hl hu
  | computed h => exact computed_alike S hk h

end

/-! ## Clauses -/

inductive SelectItemAlike (R : SqlExpr → SqlExpr → Prop) : SelectItem → SelectItem → Prop
  | same (i : SelectItem) : SelectItemAlike R i i
  | unnamedExpr {e e' : SqlExpr} (h : Congruent R e e') : SelectItemAlike R (.unnamedExpr e) (.unnamedExpr e')
  | exprWithAlias {e e' : SqlExpr} (a : Ident) (h : Congruent R e e') :
    SelectItemAlike R (.exprWithAlias e a) (.exprWithAlias e' a)

inductive ItemAlike (R : SqlExpr → SqlExpr → Prop) : ProjItem → ProjItem → Prop
  | star : ItemAlike R .star .star
  | item {e e' : SqlExpr} (a : Option String) (h : Congruent R e e') : ItemAlike R (.item e a) (.item e' a)

inductive GroupByAlike (R : SqlExpr → SqlExpr → Prop) : GroupByExpr → GroupByExpr → Prop
  | all : GroupByAlike R .all .all
  | expressions {es es' : List SqlExpr} (modifiers : List String) (h : CongruentAll R es es') :
    GroupByAlike R (.expressions es modifiers) (.expressions es' modifiers)

def OrderTermAlike (R : SqlExpr → SqlExpr → Prop) (o o' : OrderByExpr) : Prop := Congruent R o.expr o'.expr ∧ o.asc = o'.asc

inductive OrderByAlike (R : SqlExpr → SqlExpr → Prop) : OrderByKind → OrderByKind → Prop
  | all : OrderByAlike R .all .all
  | expressions {es es' : List OrderByExpr} (h : List.Forall₂ (OrderTermAlike R) es es') :
    OrderByAlike R (.expressions es) (.expressions es')

/-- Tables of one name, with the same joins. -/
structure TableAlike (t t' : TableWithJoins) : Prop where
  name : tableFactorName t.relation = tableFactorName t'.relation
  joins : buildJoins t.joins = buildJoins t'.joins
  alone : t.joins.isEmpty = t'.joins.isEmpty

/-- Conditions that differ in related parts, on fields in `K`. -/
def ConditionAlike (K : String → Prop) (RD RA : SqlExpr → SqlExpr → Prop) (e e' : SqlExpr) : Prop :=
  FieldsIn K e ∧ CongruentFilter RD RA e e'

structure SelectAlike (K : String → Prop) (RD RA : SqlExpr → SqlExpr → Prop) (s s' : Select) : Prop where
  distinct : s.distinct = s'.distinct
  projection : List.Forall₂ (SelectItemAlike RA) s.projection s'.projection
  from_ : List.Forall₂ TableAlike s.from_ s'.from_
  selection : Option.Rel (ConditionAlike K RD RA) s.selection s'.selection
  groupBy : GroupByAlike RA s.groupBy s'.groupBy
  having : Option.Rel (Congruent RA) s.having s'.having

inductive BodyAlike (K : String → Prop) (RD RA : SqlExpr → SqlExpr → Prop) : SetExpr → SetExpr → Prop
  | select {s s' : Select} (h : SelectAlike K RD RA s s') : BodyAlike K RD RA (.select s) (.select s')
  | query {body body' : SetExpr} (withClause : Bool) (orderBy : Option OrderByKind) (limitClause : Option LimitClause)
    (unread : List String) (h : BodyAlike K RD RA body body') :
    BodyAlike K RD RA (.query withClause body orderBy limitClause unread) (.query withClause body' orderBy limitClause unread)
  | values (rows : List (List SqlExpr)) : BodyAlike K RD RA (.values rows) (.values rows)
  | other : BodyAlike K RD RA .other .other

/-- The stages that are emitted, with related values. -/
inductive StageAlike (K : String → Prop) (D A : Value → Value → Prop) : Value → Value → Prop
  | same (v : Value) : StageAlike K D A v v
  | filter {v w : Value} (h : FilterAlike K D A v w) : StageAlike K D A (stage "$match" v) (stage "$match" w)
  | project {fs gs : List (String × Value)} (h : List.Forall₂ (SameKey AnyKey A) fs gs) :
    StageAlike K D A (stage "$project" (.doc fs)) (stage "$project" (.doc gs))
  | group {fs gs : List (String × Value)} (h : List.Forall₂ (SameKey AnyKey A) fs gs) :
    StageAlike K D A (stage "$group" (.doc fs)) (stage "$group" (.doc gs))

/-- Objects of the same keys, with related values. -/
inductive ObjectAlike (A : Value → Value → Prop) : Value → Value → Prop
  | entries {fs gs : List (String × Value)} (h : List.Forall₂ (SameKey AnyKey A) fs gs) : ObjectAlike A (.doc fs) (.doc gs)

section
variable {today : ℤ} {K : String → Prop} {D A : Value → Value → Prop} {RD RA : SqlExpr → SqlExpr → Prop} {e e' : SqlExpr}

theorem convertProjection_alike (h : List.Forall₂ (SelectItemAlike RA) is is') :
    Alike (List.Forall₂ (ItemAlike RA)) (convertProjection is) (convertProjection is') := by
  have item : ∀ {i i' : SelectItem}, SelectItemAlike RA i i' → Alike (ItemAlike RA) (convertItem i) (convertItem i') := by
    intro i i' h
    cases h with
    | unnamedExpr h => exact alike_pure (.item none h)
    | exprWithAlias a h => exact alike_pure (.item (some a.value) h)
    | same =>
      cases i with
      | unnamedExpr e => exact alike_pure (.item none (.same e))
      | exprWithAlias e a => exact alike_pure (.item (some a.value) (.same e))
      | wildcard unread => exact alike_pure .star
      | exprWithAliases => exact alike_fail _
      | qualifiedWildcard => exact alike_fail _
  induction h with
  | nil => exact alike_pure .nil
  | cons hi _ ih =>
    rw [convertProjection, convertProjection]
    refine (item hi).bind fun p q hp => ?_
    exact ih.bind fun ps qs hps => alike_pure (.cons hp hps)

theorem projectionName_congruent (S : Setting today D A RD RA) (h : Congruent RA e e') (a : Option String) :
    projectionName e a = projectionName e' a := by
  cases a with
  | some a => rfl
  | none => exact congrArg (fun name => name.getD "expr") (fieldName_congruent S.aggLeaves h)

theorem projectEntries_alike (S : Setting today D A RD RA) {ps qs : List ProjItem} (h : List.Forall₂ (ItemAlike RA) ps qs) :
    Alike (List.Forall₂ (SameKey AnyKey A)) (projectEntries today ps) (projectEntries today qs) := by
  induction h with
  | nil => exact alike_pure .nil
  | cons hi _ ih =>
    cases hi with
    | star => exact ih
    | item a h =>
      rw [projectEntries, projectEntries, projectionName_congruent S h]
      refine (aggExpr_congruent S.agg S.aggLeaves h).bind fun v w hv => ?_
      exact ih.bind fun fs gs hfs => alike_pure (.cons ⟨rfl, trivial, hv⟩ hfs)

theorem distinctEntries_congruent (S : Setting today D A RD RA) (h : List.Forall₂ (ItemAlike RA) ps qs) : distinctEntries ps = distinctEntries qs := by
  induction h with
  | nil => rfl
  | cons hi _ ih =>
    cases hi with
    | star => rw [distinctEntries, distinctEntries, ih]
    | item a h => rw [distinctEntries, distinctEntries, projectionName_congruent S h, ih]

theorem isStar_congruent (h : List.Forall₂ (ItemAlike RA) ps qs) :
    ps.any ProjItem.isStar = qs.any ProjItem.isStar := by
  induction h with
  | nil => rfl
  | cons hi _ ih =>
    rw [List.any_cons, List.any_cons, ih]
    cases hi with
    | star => rfl
    | item a h => rfl

theorem fieldNames_congruent (S : Setting today D A RD RA) (h : CongruentAll RA keys keys') :
    keys.map fieldName = keys'.map fieldName := by
  cases h with
  | nil => rfl
  | cons h hs => rw [List.map_cons, List.map_cons, fieldName_congruent S.aggLeaves h, fieldNames_congruent S hs]

variable {keys keys' : List SqlExpr}

theorem isGroupingKey_congruent (S : Setting today D A RD RA) (h : Congruent RA e e') (hk : CongruentAll RA keys keys') :
    isGroupingKey e keys = isGroupingKey e' keys' := by
  have hany : ∀ (name : String) (keys : List SqlExpr), (keys.any fun k => fieldName k = some name) =
      (keys.map fieldName).any fun f => f = some name := by
    intro name keys
    rw [List.any_map]
    rfl
  rw [isGroupingKey, isGroupingKey, fieldName_congruent S.aggLeaves h]
  cases fieldName e' with
  | none => rfl
  | some name =>
    show (keys.any fun k => fieldName k = some name) = keys'.any fun k => fieldName k = some name
    rw [hany, hany, fieldNames_congruent S hk]

theorem groupEntries_alike (S : Setting today D A RD RA) (hk : CongruentAll RA keys keys') {ps qs : List ProjItem}
    (h : List.Forall₂ (ItemAlike RA) ps qs) :
    Alike (List.Forall₂ (SameKey AnyKey A)) (groupEntries today keys ps) (groupEntries today keys' qs) := by
  induction h with
  | nil => exact alike_pure .nil
  | cons hi _ ih =>
    cases hi with
    | star => exact ih
    | @item e e' a h =>
      rw [groupEntries, groupEntries, fieldName_congruent S.aggLeaves h, isGroupingKey_congruent S h hk,
        isFunction_congruent S.aggLeaves h]
      cases a.or (fieldName e') with
      | none => exact ih
      | some name =>
        by_cases hkey : isGroupingKey e' keys' = true
        · simp only [hkey, if_true]
          exact ih
        · simp only [hkey]
          refine (aggExpr_congruent S.agg S.aggLeaves h).bind fun v w hv => ?_
          refine ih.bind fun fs gs hfs => alike_pure (.cons ⟨rfl, trivial, ?_⟩ hfs)
          cases e'.isFunction with
          | true => exact hv
          | false => exact S.agg.field "$first" hv

theorem buildGroupStage_alike (S : Setting today D A RD RA) (hk : CongruentAll RA keys keys') (h : List.Forall₂ (ItemAlike RA) ps qs) :
    Alike (fun v w => StageAlike K D A (stage "$group" v) (stage "$group" w)) (buildGroupStage today keys ps)
      (buildGroupStage today keys' qs) := by
  have hid : ∀ keys : List SqlExpr, (keys.map fun k => (groupKeyName k, Value.str ("$" ++ groupKeyName k))) =
      (keys.map fieldName).map fun f => (f.getD "_key", Value.str ("$" ++ f.getD "_key")) := by
    intro keys
    rw [List.map_map]
    rfl
  rw [buildGroupStage, buildGroupStage, hid, hid, fieldNames_congruent S hk]
  refine (groupEntries_alike S hk h).bind fun fs gs hfs => alike_pure (.group ?_)
  exact insertAll_alike (fun hf => hf.1) hfs (.cons ⟨rfl, trivial, S.agg.refl _⟩ .nil)

theorem shapeStages_alike (S : Setting today D A RD RA) (distinct : Bool) (hk : CongruentAll RA keys keys')
    {ps qs : List ProjItem} (h : List.Forall₂ (ItemAlike RA) ps qs) :
    Alike (fun x y => List.Forall₂ (StageAlike K D A) x.1 y.1 ∧ Option.Rel (ObjectAlike A) x.2 y.2)
      (shapeStages today distinct keys ps) (shapeStages today distinct keys' qs) := by
  have hempty : keys.isEmpty = keys'.isEmpty := by cases hk <;> rfl
  rw [shapeStages, shapeStages, hempty, buildDistinctGroupKey, buildDistinctGroupKey, distinctEntries_congruent S h,
    isStar_congruent h]
  by_cases hd : (distinct && keys'.isEmpty) = true
  · rw [if_pos hd, if_pos hd]
    refine (alike_refl (fun _ => rfl) _).bind fun key _ hkey => ?_
    rw [← hkey]
    exact alike_pure ⟨.cons (.same _) (.cons (.same _) .nil), .none⟩
  rw [if_neg hd, if_neg hd]
  by_cases hg : (!keys'.isEmpty) = true
  · rw [if_pos hg, if_pos hg]
    exact (buildGroupStage_alike S hk h).bind fun v w hv => alike_pure ⟨.cons hv .nil, .none⟩
  rw [if_neg hg, if_neg hg, buildProjectStage, buildProjectStage]
  have hproj : Alike (List.Forall₂ (SameKey AnyKey A)) (do pure (Mongo.insertAll (← projectEntries today ps) []))
      (do pure (Mongo.insertAll (← projectEntries today qs) [])) :=
    (projectEntries_alike S h).bind fun fs gs hfs => alike_pure (insertAll_alike (fun hf => hf.1) hfs .nil)
  refine hproj.bind fun fs gs hfs => ?_
  cases hfs with
  | nil => exact alike_pure ⟨.nil, .none⟩
  | cons hf hrest => exact alike_pure ⟨.cons (.project (.cons hf hrest)) .nil, .some (.entries (.cons hf hrest))⟩

theorem whereFilter_alike (S : Setting today D A RD RA) (h : Option.Rel (ConditionAlike K RD RA) e? e?') :
    Alike (Option.Rel (FilterAlike K D A)) (whereFilter today e?) (whereFilter today e?') := by
  cases h with
  | none => exact alike_pure .none
  | some h =>
    rw [whereFilter, whereFilter]
    exact (filter_congruent S h.1 h.2).bind fun v w hv => alike_pure (.some hv)

theorem havingStages_alike (S : Setting today D A RD RA) {e? e?' : Option SqlExpr} (h : Option.Rel (Congruent RA) e? e?') :
    Alike (List.Forall₂ (StageAlike K D A)) (havingStages today e?) (havingStages today e?') := by
  cases h with
  | none => exact alike_pure .nil
  | some h =>
    rw [havingStages, havingStages]
    exact (aggExpr_congruent S.agg S.aggLeaves h).bind fun v w hv => alike_pure (.cons (.filter (.expr hv)) .nil)

theorem groupByExprs_alike (h : GroupByAlike RA g g') :
    Alike (CongruentAll RA) (groupByExprs g) (groupByExprs g') := by
  cases h with
  | all => exact alike_fail _
  | expressions modifiers h =>
    cases modifiers with
    | nil => exact alike_pure h
    | cons m ms => exact alike_warn _ h

/-- What `build_sort_stage` takes from the terms is the same. -/
def SameOrder (os os' : List OrderItem) : Prop :=
  os.map (fun o => (fieldName o.expr, o.desc)) = os'.map fun o => (fieldName o.expr, o.desc)

theorem orderItems_alike (S : Setting today D A RD RA) (h : Option.Rel (OrderByAlike RA) o? o?') :
    Alike SameOrder (orderItems o?) (orderItems o?') := by
  cases h with
  | none => exact alike_pure rfl
  | some h =>
    cases h with
    | all => exact alike_fail _
    | expressions h =>
      refine alike_pure ?_
      rw [SameOrder]
      induction h with
      | nil => rfl
      | cons ho _ ih =>
        simp only [List.map_cons] at ih ⊢
        rw [ih, fieldName_congruent S.aggLeaves ho.1, ho.2]

theorem buildSortStage_congruent (h : SameOrder os os') : buildSortStage os = buildSortStage os' := by
  have hs : ∀ os : List OrderItem, buildSortStage os =
      .doc (Mongo.insertAll ((os.map fun o => (fieldName o.expr, o.desc)).map fun p =>
        (p.1.getD "_id", .num (if p.2 then -1 else 1))) []) := by
    intro os
    rw [buildSortStage, List.map_map]
    rfl
  rw [hs, hs, h]

end

/-! ## Statements -/

/-- The documents of two finds. -/
inductive FindAlike (K : String → Prop) (D A : Value → Value → Prop) : Value → Value → Prop
  | document {filter filter' : Value} {proj proj' : Option Value} (sort : Option Value) (page : Paging)
    (hf : FilterAlike K D A filter filter') (hp : Option.Rel (ObjectAlike A) proj proj') :
    FindAlike K D A (findDocument filter proj sort page) (findDocument filter' proj' sort page)

/-- Clauses with related stages. -/
structure PartsAlike (K : String → Prop) (D A : Value → Value → Prop) (p q : SelectParts) : Prop where
  collection : p.collection = q.collection
  stages : List.Forall₂ (StageAlike K D A) p.stages q.stages
  find : Option.Rel (FindAlike K D A) p.find q.find

structure QueryAlike (K : String → Prop) (RD RA : SqlExpr → SqlExpr → Prop) (q q' : Query) : Prop where
  withClause : q.withClause = q'.withClause
  body : BodyAlike K RD RA q.body q'.body
  orderBy : Option.Rel (OrderByAlike RA) q.orderBy q'.orderBy
  limitClause : q.limitClause = q'.limitClause

/-- Assignments to one field. -/
structure AssignmentAlike (RD : SqlExpr → SqlExpr → Prop) (a a' : Assignment) : Prop where
  target : assignmentTargetToField a.target = assignmentTargetToField a'.target
  value : Congruent RD a.value a'.value

structure UpdateAlike (K : String → Prop) (RD RA : SqlExpr → SqlExpr → Prop) (u u' : Update) : Prop where
  table : TableAlike u.table u'.table
  assignments : List.Forall₂ (AssignmentAlike RD) u.assignments u'.assignments
  selection : Option.Rel (ConditionAlike K RD RA) u.selection u'.selection

/-- The rows of two inserts. -/
inductive RowsAlike (RD : SqlExpr → SqlExpr → Prop) : SetExpr → SetExpr → Prop
  | same (s : SetExpr) : RowsAlike RD s s
  | values {rows rows' : List (List SqlExpr)} (h : List.Forall₂ (CongruentAll RD) rows rows') :
    RowsAlike RD (.values rows) (.values rows')

structure InsertAlike (RD : SqlExpr → SqlExpr → Prop) (i i' : Insert) : Prop where
  table : insertCollection i.table = insertCollection i'.table
  columns : i.columns.map ObjectName.display = i'.columns.map ObjectName.display
  source : Option.Rel (RowsAlike RD) i.source i'.source

structure DeleteAlike (K : String → Prop) (RD RA : SqlExpr → SqlExpr → Prop) (d d' : Delete) : Prop where
  tables : List.Forall₂ TableAlike d.tables d'.tables
  selection : Option.Rel (ConditionAlike K RD RA) d.selection d'.selection

/-- The same statement up to related parts: by `RD` where the value is stored or compared with a field, by `RA` in what the
server evaluates. -/
inductive StatementAlike (K : String → Prop) (RD RA : SqlExpr → SqlExpr → Prop) : Statement → Statement → Prop
  | query {q q' : Query} (h : QueryAlike K RD RA q q') : StatementAlike K RD RA (.query q) (.query q')
  | update {u u' : Update} (h : UpdateAlike K RD RA u u') : StatementAlike K RD RA (.update u) (.update u')
  | insert {i i' : Insert} (h : InsertAlike RD i i') : StatementAlike K RD RA (.insert i) (.insert i')
  | delete {d d' : Delete} (h : DeleteAlike K RD RA d d') : StatementAlike K RD RA (.delete d) (.delete d')
  | other (display : String) : StatementAlike K RD RA (.other display) (.other display)

inductive OperationAlike (K : String → Prop) (D A : Value → Value → Prop) : SqlOperation → SqlOperation → Prop
  | find : OperationAlike K D A .find .find
  | aggregate : OperationAlike K D A .aggregate .aggregate
  | update {filter filter' update update' : Value} (multi upsert : Bool) (hf : FilterAlike K D A filter filter')
    (hu : D update update') : OperationAlike K D A (.update filter update multi upsert) (.update filter' update' multi upsert)
  | insert {docs docs' : List Value} (h : List.Forall₂ D docs docs') : OperationAlike K D A (.insert docs) (.insert docs')
  | delete {filter filter' : Value} (multi : Bool) (hf : FilterAlike K D A filter filter') :
    OperationAlike K D A (.delete filter multi) (.delete filter' multi)

/-- The same translation, up to related values. -/
structure TranslationAlike (K : String → Prop) (D A : Value → Value → Prop) (t t' : SqlTranslation) : Prop where
  database : t.database = t'.database
  collection : t.collection = t'.collection
  operation : OperationAlike K D A t.operation t'.operation
  pipeline : List.Forall₂ (StageAlike K D A) t.pipeline t'.pipeline
  find : Option.Rel (FindAlike K D A) t.find t'.find

section
variable {today : ℤ} {K : String → Prop} {D A : Value → Value → Prop} {RD RA : SqlExpr → SqlExpr → Prop}

theorem looksLikeFind_stage (op : String) (v w : Value) : looksLikeFind (stage op v) = looksLikeFind (stage op w) := by
  have hl : ∀ (v : Value) (k : String), (List.lookup k [(op, v)]).isSome = decide (k = op) := by
    intro v k
    rw [Bool.eq_iff_iff, lookup_isSome, decide_eq_true_eq, List.map_cons, List.map_nil, List.mem_singleton]
  simp only [looksLikeFind, stage, hl]

theorem looksLikeFind_alike (h : List.Forall₂ (StageAlike K D A) vs ws) :
    vs.all looksLikeFind = ws.all looksLikeFind := by
  induction h with
  | nil => rfl
  | cons hv _ ih =>
    rw [List.all_cons, List.all_cons, ih]
    cases hv with
    | same => rfl
    | filter h => rw [looksLikeFind_stage "$match"]
    | project h => rw [looksLikeFind_stage "$project"]
    | group h => rw [looksLikeFind_stage "$group"]

theorem sameStages (vs : List Value) : List.Forall₂ (StageAlike K D A) vs vs :=
  List.forall₂_same.2 fun v _ => .same v

theorem partsAlike (hf : Option.Rel (FilterAlike K D A) filter filter') (hs : List.Forall₂ (StageAlike K D A) shape.1 shape'.1)
    (hp : Option.Rel (ObjectAlike A) shape.2 shape'.2) (hh : List.Forall₂ (StageAlike K D A) having having')
    (ho : SameOrder order order') :
    PartsAlike K D A ⟨collection, joins, filter, shape, having, order, page⟩
      ⟨collection, joins, filter', shape', having', order', page⟩ := by
  have hempty : order.isEmpty = order'.isEmpty := by
    have he := congrArg List.isEmpty ho
    rwa [List.isEmpty_map, List.isEmpty_map] at he
  have hsort : SelectParts.sort ⟨collection, joins, filter, shape, having, order, page⟩ =
      SelectParts.sort ⟨collection, joins, filter', shape', having', order', page⟩ := by
    rw [SelectParts.sort, SelectParts.sort, hempty, buildSortStage_congruent ho]
  have hmatch : List.Forall₂ (StageAlike K D A) (filter.toList.map (stage "$match")) (filter'.toList.map (stage "$match")) := by
    cases hf with
    | none => exact .nil
    | some h => exact .cons (.filter h) .nil
  have hstages : List.Forall₂ (StageAlike K D A) (SelectParts.stages ⟨collection, joins, filter, shape, having, order, page⟩)
      (SelectParts.stages ⟨collection, joins, filter', shape', having', order', page⟩) := by
    rw [SelectParts.stages, SelectParts.stages, hsort]
    exact List.rel_append (List.rel_append (List.rel_append (List.rel_append (List.rel_append hmatch (sameStages _)) hs) hh)
      (sameStages _)) (sameStages _)
  refine ⟨rfl, hstages, ?_⟩
  rw [SelectParts.find, SelectParts.find, looksLikeFind_alike hstages, hsort]
  cases hf with
  | none => exact .none
  | some h =>
    show Option.Rel (FindAlike K D A) (if _ then _ else _) (if _ then _ else _)
    split
    · exact .some (.document _ _ h hp)
    · exact .none

theorem fromTable_alike (h : List.Forall₂ TableAlike ts ts') :
    Alike TableAlike (fromTable ts) (fromTable ts') := by
  cases h with
  | nil => exact alike_fail _
  | cons h hrest =>
    cases hrest with
    | nil => exact alike_pure h
    | cons h' hrest => exact alike_fail _

theorem unwrapQueryBody_alike (h : BodyAlike K RD RA b b') :
    Alike (SelectAlike K RD RA) (unwrapQueryBody b) (unwrapQueryBody b') := by
  cases h with
  | select h => exact alike_pure h
  | query withClause orderBy limitClause unread h =>
    rw [unwrapQueryBody, unwrapQueryBody]
    exact unwrapQueryBody_alike h
  | values rows => exact alike_fail _
  | other => exact alike_fail _

theorem selectParts_alike (S : Setting today D A RD RA) (hq : QueryAlike K RD RA q q') (hs : SelectAlike K RD RA s s') (ht : TableAlike t t') :
    Alike (PartsAlike K D A) (selectParts today q s t) (selectParts today q' s' t') := by
  rw [selectParts, selectParts, ht.name, ht.joins, hs.distinct, hq.limitClause]
  refine (alike_refl (fun _ => rfl) _).bind fun collection _ hc => ?_
  refine (alike_refl (fun _ => rfl) _).bind fun joins _ hj => ?_
  refine (convertProjection_alike hs.projection).bind fun ps qs hps => ?_
  refine (whereFilter_alike S hs.selection).bind fun filter filter' hf => ?_
  refine (alike_refl (fun _ => rfl) _).bind fun distinct _ hd => ?_
  refine (groupByExprs_alike hs.groupBy).bind fun keys keys' hk => ?_
  subst hc hj hd
  refine (@shapeStages_alike today K D A RD RA _ _ S distinct hk _ _ hps).bind fun shape shape' hshape => ?_
  refine (@havingStages_alike today K D A RD RA S _ _ hs.having).bind fun having having' hh => ?_
  refine (orderItems_alike S hq.orderBy).bind fun order order' ho => ?_
  refine (alike_refl (fun _ => rfl) _).bind fun page _ hpage => ?_
  subst hpage
  exact alike_pure (partsAlike hf hshape.1 hshape.2 hh ho)

theorem translateSelect_alike (S : Setting today D A RD RA) (database : String) (h : QueryAlike K RD RA q q') :
    Alike (TranslationAlike K D A) (translateSelect today database q) (translateSelect today database q') := by
  have hparts : Alike (PartsAlike K D A) (queryParts today q) (queryParts today q') := by
    rw [queryParts, queryParts, h.withClause]
    refine (alike_refl (fun _ => rfl) _).bind fun _ _ _ => ?_
    refine (unwrapQueryBody_alike h.body).bind fun s s' hs => ?_
    exact (fromTable_alike hs.from_).bind fun t t' ht => selectParts_alike S h hs ht
  rw [translateSelect, translateSelect]
  refine hparts.bind fun p p' hp => alike_pure ⟨rfl, hp.collection, ?_, hp.stages, hp.find⟩
  have hsome : ∀ {a b : Option Value}, Option.Rel (FindAlike K D A) a b → a.isSome = b.isSome := by
    intro a b h
    cases h <;> rfl
  rw [hsome hp.find]
  cases p'.find.isSome with
  | true => exact .find
  | false => exact .aggregate

theorem setEntries_alike (S : Setting today D A RD RA) {as as' : List Assignment} (h : List.Forall₂ (AssignmentAlike RD) as as') :
    Alike (List.Forall₂ (SameKey AnyKey D)) (setEntries today as) (setEntries today as') := by
  induction h with
  | nil => exact alike_pure .nil
  | cons ha _ ih =>
    rw [setEntries, setEntries, ha.target]
    refine (alike_refl (fun _ => rfl) _).bind fun field _ hfield => ?_
    refine (aggExpr_congruent S.data S.dataLeaves ha.value).bind fun v w hv => ?_
    exact ih.bind fun fs gs hfs => alike_pure (.cons ⟨hfield, trivial, hv⟩ hfs)

theorem writeFilter_alike (S : Setting today D A RD RA) (h : Option.Rel (ConditionAlike K RD RA) e? e?') :
    Alike (FilterAlike K D A) (writeFilter today e?) (writeFilter today e?') := by
  cases h with
  | none => exact alike_pure (.fields .nil)
  | some h => exact filter_congruent S h.1 h.2

theorem translateUpdate_alike (S : Setting today D A RD RA) (database : String) (upsert : Bool) (h : UpdateAlike K RD RA u u') :
    Alike (TranslationAlike K D A) (translateUpdate today database u upsert) (translateUpdate today database u' upsert) := by
  rw [translateUpdate, translateUpdate, h.table.name, h.table.alone]
  refine (alike_refl (fun _ => rfl) _).bind fun _ _ _ => ?_
  refine (alike_refl (fun _ => rfl) _).bind fun collection _ hc => ?_
  refine (setEntries_alike S h.assignments).bind fun fs gs hfs => ?_
  refine (writeFilter_alike S h.selection).bind fun filter filter' hf => ?_
  refine alike_pure ⟨rfl, hc, .update true upsert hf (S.data.field "$set" (S.data.doc ?_)), .nil, .none⟩
  exact insertAll_alike (fun hf => hf.1) hfs .nil

theorem zip_alike (columns : List String) (h : List.Forall₂ D vs ws) :
    List.Forall₂ (SameKey AnyKey D) (columns.zip vs) (columns.zip ws) := by
  induction h generalizing columns with
  | nil =>
    rw [List.zip_nil_right]
    exact .nil
  | cons hv _ ih =>
    cases columns with
    | nil => exact .nil
    | cons c columns => exact .cons ⟨rfl, trivial, hv⟩ (ih columns)

theorem length_congruentAll (h : CongruentAll R es es') :
    es.length = es'.length := by
  cases h with
  | nil => rfl
  | cons _ hs => rw [List.length_cons, List.length_cons, length_congruentAll hs]

theorem rowDocument_alike (S : Setting today D A RD RA) (columns : List String) {row row' : List SqlExpr}
    (h : CongruentAll RD row row') : Alike D (rowDocument today columns row) (rowDocument today columns row') := by
  rw [rowDocument, rowDocument, length_congruentAll h]
  refine (alike_refl (fun _ => rfl) _).bind fun _ _ _ => ?_
  refine (runArgs_alike (aggExprs_congruent S.data S.dataLeaves h)).bind fun vs ws hvs => alike_pure (S.data.doc ?_)
  exact insertAll_alike (fun hf => hf.1) (zip_alike columns hvs) .nil

theorem rowDocuments_alike (S : Setting today D A RD RA) (columns : List String) (h : List.Forall₂ (CongruentAll RD) rows rows') :
    Alike (List.Forall₂ D) (rowDocuments today columns rows) (rowDocuments today columns rows') := by
  induction h with
  | nil => exact alike_pure .nil
  | cons hrow _ ih =>
    rw [rowDocuments, rowDocuments]
    refine (rowDocument_alike S columns hrow).bind fun d d' hd => ?_
    exact ih.bind fun ds ds' hds => alike_pure (.cons hd hds)

theorem valuesRows_alike (h : Option.Rel (RowsAlike RD) s? s?') :
    Alike (List.Forall₂ (CongruentAll RD)) (valuesRows s?) (valuesRows s?') := by
  cases h with
  | none => exact alike_fail _
  | some hs =>
    cases hs with
    | values h => exact alike_pure h
    | same => exact alike_refl (fun rows => List.forall₂_same.2 fun row _ => congruentAll_same RD row) _

theorem translateInsert_alike (S : Setting today D A RD RA) (database : String) (h : InsertAlike RD i i') :
    Alike (TranslationAlike K D A) (translateInsert today database i) (translateInsert today database i') := by
  rw [translateInsert, translateInsert, h.table, h.columns]
  refine (alike_refl (fun _ => rfl) _).bind fun collection _ hc => ?_
  refine (valuesRows_alike h.source).bind fun rows rows' hr => ?_
  refine (alike_refl (fun _ => rfl) _).bind fun _ _ _ => ?_
  refine (rowDocuments_alike S _ hr).bind fun docs docs' hd => ?_
  exact alike_pure ⟨rfl, hc, .insert hd, .nil, .none⟩

theorem deleteTable_alike (h : List.Forall₂ TableAlike ts ts') :
    Alike TableAlike (deleteTable ts) (deleteTable ts') := by
  cases h with
  | nil => exact alike_fail _
  | cons h hrest =>
    cases hrest with
    | nil => exact alike_pure h
    | cons h' hrest => exact alike_fail _

theorem translateDelete_alike (S : Setting today D A RD RA) (database : String) (h : DeleteAlike K RD RA d d') :
    Alike (TranslationAlike K D A) (translateDelete today database d) (translateDelete today database d') := by
  rw [translateDelete, translateDelete]
  refine (deleteTable_alike h.tables).bind fun t t' ht => ?_
  rw [ht.name, ht.alone]
  refine (alike_refl (fun _ => rfl) _).bind fun _ _ _ => ?_
  refine (alike_refl (fun _ => rfl) _).bind fun collection _ hc => ?_
  refine (writeFilter_alike S h.selection).bind fun filter filter' hf => ?_
  exact alike_pure ⟨rfl, hc, .delete true hf, .nil, .none⟩

/-- **Statements that differ in related parts are translated to translations that differ in related values.** -/
theorem translate_congruent (S : Setting today D A RD RA) (database : String) (upsert : Bool) (h : StatementAlike K RD RA s s') :
    Alike (TranslationAlike K D A) (translate today database upsert s) (translate today database upsert s') := by
  cases h with
  | query h => exact translateSelect_alike S database h
  | update h => exact translateUpdate_alike S database upsert h
  | insert h => exact translateInsert_alike S database h
  | delete h => exact translateDelete_alike S database h
  | other display => exact alike_fail _

end

/-! ## Equal values -/

section
variable {K : String → Prop}

theorem forall₂_eq_of {α : Type} {R : α → α → Prop} (hR : ∀ {a b}, R a b → a = b) {as bs : List α}
    (h : List.Forall₂ R as bs) : as = bs := by
  induction h with
  | nil => rfl
  | cons h _ ih => rw [hR h, ih]

theorem rel_eq_of {α : Type} {R : α → α → Prop} (hR : ∀ {a b}, R a b → a = b) {a? b? : Option α} (h : Option.Rel R a? b?) :
    a? = b? := by
  cases h with
  | none => rfl
  | some h => rw [hR h]

theorem entries_eq {fs gs : List (String × Value)} (h : List.Forall₂ (SameKey K Eq) fs gs) : fs = gs :=
  forall₂_eq_of (fun hf => Prod.ext hf.1 hf.2.2) h

theorem FilterAlike.eq (h : FilterAlike K Eq Eq v w) : v = w := by
  induction h with
  | fields h => rw [entries_eq h]
  | expr h => rw [h]
  | and _ _ ih ih' => rw [ih, ih']
  | or _ _ ih ih' => rw [ih, ih']

theorem StageAlike.eq (h : StageAlike K Eq Eq v w) : v = w := by
  cases h with
  | same => rfl
  | filter h => rw [h.eq]
  | project h => rw [entries_eq h]
  | group h => rw [entries_eq h]

theorem ObjectAlike.eq (h : ObjectAlike Eq v w) : v = w := by
  cases h with
  | entries h => rw [entries_eq h]

theorem FindAlike.eq {v w : Value} (h : FindAlike K Eq Eq v w) : v = w := by
  cases h with
  | document sort page hf hp => rw [hf.eq, rel_eq_of ObjectAlike.eq hp]

theorem OperationAlike.eq {o o' : SqlOperation} (h : OperationAlike K Eq Eq o o') : o = o' := by
  cases h with
  | find => rfl
  | aggregate => rfl
  | update multi upsert hf hu => rw [hf.eq, hu]
  | insert h => rw [forall₂_eq_of id h]
  | delete multi hf => rw [hf.eq]

theorem TranslationAlike.eq {t t' : SqlTranslation} (h : TranslationAlike K Eq Eq t t') : t = t' := by
  obtain ⟨database, collection, operation, pipeline, find⟩ := t
  obtain ⟨database', collection', operation', pipeline', find'⟩ := t'
  have hp := forall₂_eq_of StageAlike.eq h.pipeline
  have hf := rel_eq_of FindAlike.eq h.find
  obtain ⟨rfl, rfl, ho, -, -⟩ := h
  obtain rfl := ho.eq
  obtain rfl : pipeline = pipeline' := hp
  obtain rfl : find = find' := hf
  rfl

end

end Sql
