import NosqlBuddy.Schema.Candidates

/-!
# What an edge depends on

Of the evidence for a field, `build_edge` takes one application schema (the last), one best match (the last of the best), one lookup
(the first that the set gives) and the uniqueness of one index (the last). A `Choice` is what may be taken when the order is open.
All choices lead to one edge, or to none, exactly when the evidence `Agrees` wherever an edge is drawn (`same_edge_iff`).
-/

namespace Schema
open Entries Binary64 LastMax

/-! ## Choices -/

/-- One of the items, if there are any. -/
def AnyOf {α : Type} (xs : List α) (o : Option α) : Prop := (xs = [] ∧ o = none) ∨ ∃ x ∈ xs, o = some x

def higher (a b : ObjectIdMatchDetail) : Bool := fLt b.matchRatio a.matchRatio

/-- A match that none is better than. -/
abbrev Best (e : Evidence) (m : ObjectIdMatchDetail) : Prop := Largest higher e.found m

/-- The distinct targets of the lookups. -/
def Evidence.targets (e : Evidence) : List (String × String) := e.lookups.foldl (fun targets t => insertTarget t targets) []

@[ext]
structure Choice (e : Evidence) where
  app : Option AppSchemaTarget
  best : Option ObjectIdMatchDetail
  lookups : List (String × String)
  unique : Option Bool
  app_kept : AnyOf e.apps app
  best_kept : (e.found = [] ∧ best = none) ∨ ∃ m, Best e m ∧ best = some m
  lookups_perm : lookups.Perm e.targets
  unique_kept : AnyOf e.marks unique

def Evidence.strong (e : Evidence) : Bool := (e.found.any fun m => fLe 0x3FE999999999999A m.matchRatio) || e.apps ≠ []

/-- The weights of the signals. -/
def Evidence.weights (e : Evidence) : List UInt64 :=
  (if e.apps = [] then [] else [appWeight]) ++ (if e.found = [] then [] else [matchWeight]) ++
    List.replicate e.targets.length lookupWeight ++ (if e.namingTarget.isSome then [namingWeight] else []) ++
    if e.indexed then [indexWeight] else []

/-- The confidence, for an index and an application schema that are kept. -/
def Evidence.confidence (e : Evidence) (app : Option AppSchemaTarget) (unique : Option Bool) : UInt64 :=
  confidenceOf e.weights e.indexed (e.present && unique.getD false) (app.any (·.isArray) || e.isArray) e.strong

/-- The edge of a choice. -/
def Evidence.edge (e : Evidence) (k : Key) (config : RelationshipConfig) (c : Choice e) : Option RelationshipEdge :=
  match targetOf c.app c.best c.lookups.head? e.namingTarget with
  | none => none
  | some target =>
    let cand := e.candidateWith k c.app c.unique
    if fLt (e.confidence c.app c.unique) config.confidenceThreshold then none
    else some ⟨(ofLex k).1, target.1, (ofLex k).2, target.2, inferCardinality cand (c.app.any (·.isArray) || e.isArray),
      e.confidence c.app c.unique, signalsOf cand c.best c.lookups, none, false, false⟩

/-! ## The statement -/

/-- The same edge with the same set of signals. -/
structure SameEdge (e e' : RelationshipEdge) : Prop where
  fields : { e with signals := [] } = { e' with signals := [] }
  signals : ∀ s, s ∈ e.signals ↔ s ∈ e'.signals

/-- There is something to refer to, and for one of the choices the confidence reaches the threshold. -/
def Drawn (config : RelationshipConfig) (e : Evidence) : Prop :=
  (e.apps ≠ [] ∨ e.found ≠ [] ∨ e.lookups ≠ [] ∨ e.namingTarget.isSome = true) ∧
    ∃ app unique, AnyOf e.apps app ∧ AnyOf e.marks unique ∧ fLt (e.confidence app unique) config.confidenceThreshold = false

/-- What decides on the target points to one field: the best matches, if there is no application schema or they decide against it;
else the application schemas; else the lookups. -/
structure SameTarget (e : Evidence) : Prop where
  best : (e.apps = [] ∨ ∃ m, Best e m ∧ decisive m = true) → ∀ m m', Best e m → Best e m' →
    (m.toCollection, m.toField) = (m'.toCollection, m'.toField)
  app : (∀ m, Best e m → decisive m = false) → ∀ a ∈ e.apps, ∀ a' ∈ e.apps, (a.toCollection, a.toField) = (a'.toCollection, a'.toField)
  lookup : e.found = [] → e.apps = [] → ∀ t ∈ e.lookups, ∀ t' ∈ e.lookups, t = t'

/-- Nothing contradicts in what an edge shows of the evidence. -/
structure Agrees (e : Evidence) (field : String) : Prop where
  apps : ∀ a ∈ e.apps, ∀ a' ∈ e.apps, a.isArray = a'.isArray ∧ a.source = a'.source
  found : ∀ m m', Best e m → Best e m' → matchSignal field m = matchSignal field m'
  unique : e.present = true → ∀ u ∈ e.marks, ∀ u' ∈ e.marks, u = u'
  target : SameTarget e

/-! ## Items of lists -/

theorem mem_insertTarget : u ∈ insertTarget t ts ↔ u ∈ ts ∨ u = t := by
  unfold insertTarget
  split
  · next h => exact ⟨.inl, fun hu => hu.elim id fun heq => heq ▸ h⟩
  · rw [List.mem_append, List.mem_singleton]

theorem mem_foldl_insertTarget : ∀ (xs ts : List (String × String)),
    u ∈ xs.foldl (fun targets t => insertTarget t targets) ts ↔ u ∈ ts ∨ u ∈ xs
  | [], ts => by simp
  | x :: xs, ts => by
    rw [List.foldl_cons, mem_foldl_insertTarget xs, mem_insertTarget, List.mem_cons, or_assoc]

theorem nodup_foldl_insertTarget : ∀ (xs : List (String × String)) {ts : List (String × String)}, ts.Nodup →
    (xs.foldl (fun targets t => insertTarget t targets) ts).Nodup
  | [], _, h => h
  | x :: xs, ts, h => by
    rw [List.foldl_cons]
    refine nodup_foldl_insertTarget xs ?_
    unfold insertTarget
    split
    · exact h
    · next hx => exact List.nodup_append.2 ⟨h, List.nodup_singleton x, fun a ha b hb => by
        rw [List.mem_singleton.1 hb]
        exact fun heq => hx (heq ▸ ha)⟩

section
variable {e : Evidence}

theorem mem_targets : t ∈ e.targets ↔ t ∈ e.lookups := by
  rw [Evidence.targets, mem_foldl_insertTarget]
  simp

theorem targets_eq_nil : e.targets = [] ↔ e.lookups = [] := by
  simp only [List.eq_nil_iff_forall_not_mem, mem_targets]

theorem Choice.mem_lookups (c : Choice e) : t ∈ c.lookups ↔ t ∈ e.lookups := by
  rw [c.lookups_perm.mem_iff, mem_targets]

theorem Choice.lookups_eq_nil (c : Choice e) : c.lookups = [] ↔ e.lookups = [] := by
  simp only [List.eq_nil_iff_forall_not_mem, c.mem_lookups]

theorem Choice.app_eq_none (c : Choice e) (h : e.apps = []) : c.app = none := by
  rcases c.app_kept with ⟨-, ha⟩ | ⟨a, hmem, -⟩
  · exact ha
  · rw [h] at hmem
    cases hmem

theorem Choice.best_eq_none (c : Choice e) (h : e.found = []) : c.best = none := by
  rcases c.best_kept with ⟨-, hb⟩ | ⟨m, hm, -⟩
  · exact hb
  · have hmem := hm.1
    rw [h] at hmem
    cases hmem

theorem Choice.best_some (c : Choice e) (hd : Best e d) : ∃ m, Best e m ∧ c.best = some m := by
  rcases c.best_kept with ⟨h, -⟩ | hm
  · have hmem := hd.1
    rw [h] at hmem
    cases hmem
  · exact hm

theorem Choice.not_decisive (c : Choice e) (h : ∀ m, Best e m → decisive m = false) (m : ObjectIdMatchDetail) (hm : c.best = some m) :
    decisive m = false := by
  rcases c.best_kept with ⟨-, hb⟩ | ⟨m', hm', hb⟩
  · rw [hb] at hm
    cases hm
  · rw [hb] at hm
    exact Option.some.inj hm ▸ h m' hm'

theorem Choice.head?_eq (h : ∀ t ∈ e.lookups, ∀ t' ∈ e.lookups, t = t') (c c' : Choice e) : c.lookups.head? = c'.lookups.head? := by
  cases hl : c.lookups with
  | nil => rw [c'.lookups_eq_nil.2 (c.lookups_eq_nil.1 hl)]
  | cons t ts =>
    cases hl' : c'.lookups with
    | nil =>
      rw [c.lookups_eq_nil.2 (c'.lookups_eq_nil.1 hl')] at hl
      cases hl
    | cons t' ts' =>
      have hmem : t ∈ e.lookups := c.mem_lookups.1 (hl ▸ List.mem_cons_self)
      have hmem' : t' ∈ e.lookups := c'.mem_lookups.1 (hl' ▸ List.mem_cons_self)
      rw [List.head?_cons, List.head?_cons, h t hmem t' hmem']

theorem anyOf_isSome {α : Type} {xs : List α} {o : Option α} (h : AnyOf xs o) : o.isSome = true ↔ xs ≠ [] := by
  rcases h with ⟨rfl, rfl⟩ | ⟨x, hx, rfl⟩
  · simp
  · simp [List.ne_nil_of_mem hx]

theorem Choice.best_isSome (c : Choice e) : c.best.isSome = true ↔ e.found ≠ [] := by
  rcases c.best_kept with ⟨h, hb⟩ | ⟨m, hm, hb⟩
  · simp [h, hb]
  · simp [hb, List.ne_nil_of_mem hm.1]

/-! ## The target -/

/-- No ratio is a NaN. -/
def Evidence.Numeric (e : Evidence) : Prop := ∀ m ∈ e.found, isNaN m.matchRatio = false

theorem Evidence.Numeric.higher_iff (h : e.Numeric) : ∀ a ∈ e.found, ∀ b ∈ e.found,
    higher a b = true ↔ orderKey b.matchRatio < orderKey a.matchRatio :=
  fun a ha b hb => fLt_iff (h b hb) (h a ha)

theorem Evidence.Numeric.best_key (h : e.Numeric) (hm : Best e m) (hm' : Best e m') :
    orderKey m.matchRatio = orderKey m'.matchRatio := by
  have hle : ∀ {a b}, Best e a → Best e b → orderKey a.matchRatio ≤ orderKey b.matchRatio := by
    intro a b ha hb
    by_contra hlt
    have hgt := (h.higher_iff a ha.1 b hb.1).2 (Int.not_le.1 hlt)
    rw [hb.2 a ha.1] at hgt
    cases hgt
  exact Int.le_antisymm (hle hm hm') (hle hm' hm)

theorem Evidence.Numeric.decisive_eq (h : e.Numeric) (hm : Best e m) (hm' : Best e m') :
    decisive m = decisive m' := by
  have hnine : isNaN 0x3FECCCCCCCCCCCCD = false := by decide
  rw [Bool.eq_iff_iff, decisive, decisive, fLt_iff hnine (h m hm.1), fLt_iff hnine (h m' hm'.1), h.best_key hm hm']

theorem targetOf_isSome (c : Choice e) : (targetOf c.app c.best c.lookups.head? e.namingTarget).isSome = true ↔
    e.apps ≠ [] ∨ e.found ≠ [] ∨ e.lookups ≠ [] ∨ e.namingTarget.isSome = true := by
  have happ := anyOf_isSome c.app_kept
  have hbest := c.best_isSome
  have hlookup : c.lookups.head?.isSome = true ↔ e.lookups ≠ [] := by
    rw [List.isSome_head?]
    exact not_congr c.lookups_eq_nil
  rw [← happ, ← hbest, ← hlookup]
  unfold targetOf
  cases c.app <;> cases c.best <;> cases c.lookups.head? <;> cases e.namingTarget <;> simp [apply_ite Option.isSome]

theorem targetOf_best (h : app = none ∨ decisive m = true)
    (lookup : Option (String × String)) (naming : Option String) :
    targetOf app (some m) lookup naming = some (m.toCollection, m.toField) := by
  unfold targetOf
  rcases h with rfl | h
  · rfl
  · simp [h]

theorem targetOf_app (a : AppSchemaTarget) (h : ∀ m, best = some m → decisive m = false)
    (lookup : Option (String × String)) (naming : Option String) :
    targetOf (some a) best lookup naming = some (a.toCollection, a.toField) := by
  unfold targetOf
  cases best with
  | none => rfl
  | some m => simp [h m rfl]

theorem targetOf_lookup (t : String × String) (naming : Option String) : targetOf none none (some t) naming = some t := rfl

/-- **No choice changes the target**, where what decides on it agrees. -/
theorem SameTarget.targetOf_eq (h : SameTarget e) (hnum : e.Numeric) (c c' : Choice e) :
    targetOf c.app c.best c.lookups.head? e.namingTarget = targetOf c'.app c'.best c'.lookups.head? e.namingTarget := by
  by_cases hdec : ∃ d, Best e d ∧ (e.apps = [] ∨ decisive d = true)
  · obtain ⟨d, hd, hdd⟩ := hdec
    obtain ⟨m, hm, hb⟩ := c.best_some hd
    obtain ⟨m', hm', hb'⟩ := c'.best_some hd
    have happ : ∀ (x : Choice e) {m}, Best e m → x.app = none ∨ decisive m = true := fun x m hm =>
      hdd.imp x.app_eq_none fun h => (hnum.decisive_eq hm hd).trans h
    rw [hb, hb', targetOf_best (happ c hm), targetOf_best (happ c' hm'), h.best (hdd.imp_right fun h => ⟨d, hd, h⟩) m m' hm hm']
  · rcases c.app_kept with ⟨happs, ha⟩ | ⟨a, hamem, ha⟩
    · have hfound : e.found = [] := by
        rcases c.best_kept with ⟨hfound, -⟩ | ⟨m, hm, -⟩
        · exact hfound
        · exact absurd ⟨m, hm, .inl happs⟩ hdec
      rw [ha, c'.app_eq_none happs, c.best_eq_none hfound, c'.best_eq_none hfound, Choice.head?_eq (h.lookup hfound happs) c c']
    · have hnot : ∀ m, Best e m → decisive m = false := fun m hm => eq_false_of_ne_true fun hdm => hdec ⟨m, hm, .inr hdm⟩
      rcases c'.app_kept with ⟨happs, -⟩ | ⟨a', hamem', ha'⟩
      · rw [happs] at hamem
        cases hamem
      · rw [ha, ha', targetOf_app a (c.not_decisive hnot), targetOf_app a' (c'.not_decisive hnot), h.app hnot a hamem a' hamem']

/-! ## Edges -/

section
variable {k : Key} {config : RelationshipConfig}

theorem mem_signalsOf : s ∈ signalsOf cand best lookups ↔ s ∈ cand.appSchemaTarget.map appSignal ∨
      s ∈ best.map (matchSignal cand.fromField) ∨ (∃ t ∈ lookups, lookupSignal cand.fromCollection cand.fromField t = s) ∨
      s ∈ cand.namingTarget.map (namingSignal cand.fromField) ∨
      (cand.indexed = true ∧ s = indexSignal cand.fromField cand.indexUnique) := by
  have hindex : s ∈ (if cand.indexed then [indexSignal cand.fromField cand.indexUnique] else []) ↔
      cand.indexed = true ∧ s = indexSignal cand.fromField cand.indexUnique := by
    split
    · next h => simp [h]
    · next h => simp [h]
  rw [signalsOf, List.mem_append, hindex]
  simp only [List.mem_append, Option.mem_toList, Option.mem_def, List.mem_map, or_assoc]

theorem edge_of_target (c : Choice e) (h : targetOf c.app c.best c.lookups.head? e.namingTarget = some target) :
    e.edge k config c = if fLt (e.confidence c.app c.unique) config.confidenceThreshold then none
      else some ⟨(ofLex k).1, target.1, (ofLex k).2, target.2,
        inferCardinality (e.candidateWith k c.app c.unique) (c.app.any (·.isArray) || e.isArray), e.confidence c.app c.unique,
        signalsOf (e.candidateWith k c.app c.unique) c.best c.lookups, none, false, false⟩ := by
  rw [Evidence.edge, h]

theorem drawn_of_edge (h : (e.edge k config c).isSome = true) : Drawn config e := by
  cases htarget : targetOf c.app c.best c.lookups.head? e.namingTarget with
  | none =>
    rw [Evidence.edge, htarget] at h
    cases h
  | some target =>
    rw [edge_of_target c htarget] at h
    refine ⟨(targetOf_isSome c).1 (by rw [htarget]; rfl), c.app, c.unique, c.app_kept, c.unique_kept, ?_⟩
    by_contra hlt
    rw [if_pos (eq_true_of_ne_false hlt)] at h
    cases h

/-- Evidence that agrees shows the same in every edge. -/
structure SameShown (e : Evidence) (field : String) (c c' : Choice e) : Prop where
  isArray : c.app.any (·.isArray) = c'.app.any (·.isArray)
  app : c.app.map appSignal = c'.app.map appSignal
  best : c.best.map (matchSignal field) = c'.best.map (matchSignal field)
  unique : (e.present && c.unique.getD false) = (e.present && c'.unique.getD false)

theorem Agrees.sameShown (h : Agrees e field) (c c' : Choice e) : SameShown e field c c' := by
  have happ : c.app.any (·.isArray) = c'.app.any (·.isArray) ∧ c.app.map appSignal = c'.app.map appSignal := by
    rcases c.app_kept with ⟨hnil, ha⟩ | ⟨a, hmem, ha⟩
    · rw [ha, c'.app_eq_none hnil]
      exact ⟨rfl, rfl⟩
    · rcases c'.app_kept with ⟨hnil, -⟩ | ⟨a', hmem', ha'⟩
      · rw [hnil] at hmem
        cases hmem
      · obtain ⟨harray, hsource⟩ := h.apps a hmem a' hmem'
        rw [ha, ha']
        simp [appSignal, harray, hsource]
  refine ⟨happ.1, happ.2, ?_, ?_⟩
  · rcases c.best_kept with ⟨hnil, hb⟩ | ⟨m, hm, hb⟩
    · rw [hb, c'.best_eq_none hnil]
    · obtain ⟨m', hm', hb'⟩ := c'.best_some hm
      rw [hb, hb', Option.map_some, Option.map_some, h.found m m' hm hm']
  · cases hpresent : e.present with
    | false => rfl
    | true =>
      rcases c.unique_kept with ⟨hnil, hu⟩ | ⟨u, hmem, hu⟩
      · rcases c'.unique_kept with ⟨-, hu'⟩ | ⟨u', hmem', -⟩
        · rw [hu, hu']
        · rw [hnil] at hmem'
          cases hmem'
      · rcases c'.unique_kept with ⟨hnil, -⟩ | ⟨u', hmem', hu'⟩
        · rw [hnil] at hmem
          cases hmem
        · rw [hu, hu', h.unique hpresent u hmem u' hmem']

theorem same_edge_of_agrees (hnum : e.Numeric) (h : Agrees e (ofLex k).2) (c c' : Choice e) :
    Option.Rel SameEdge (e.edge k config c) (e.edge k config c') := by
  have hshown := h.sameShown c c'
  have htarget := h.target.targetOf_eq hnum c c'
  have hconfidence : e.confidence c.app c.unique = e.confidence c'.app c'.unique := by
    rw [Evidence.confidence, Evidence.confidence, hshown.isArray, hshown.unique]
  cases ht : targetOf c.app c.best c.lookups.head? e.namingTarget with
  | none =>
    have hnone : e.edge k config c = none := by rw [Evidence.edge, ht]
    have hnone' : e.edge k config c' = none := by rw [Evidence.edge, ← htarget, ht]
    rw [hnone, hnone']
    exact .none
  | some target =>
    rw [edge_of_target c ht, edge_of_target c' (htarget ▸ ht), hconfidence]
    split
    · exact .none
    · refine .some ⟨?_, fun s => ?_⟩
      · simp [inferCardinality, Evidence.candidateWith, hshown.isArray, hshown.unique]
      · rw [mem_signalsOf, mem_signalsOf]
        simp only [Evidence.candidateWith, hshown.app, hshown.best, hshown.unique, Choice.mem_lookups]

/-! ### Different choices -/

theorem appSignal_inj (h : appSignal a = appSignal a') : a.isArray = a'.isArray ∧ a.source = a'.source := by
  have hdetail := congrArg (fun s => s.detail.toList) h
  simp only [appSignal, String.toList_append] at hdetail
  cases ha : a.isArray <;> cases ha' : a'.isArray <;> simp only [ha, ha'] at hdetail
  · exact ⟨rfl, String.toList_inj.1 (List.append_cancel_left hdetail)⟩
  · simp at hdetail
  · simp at hdetail
  · exact ⟨rfl, String.toList_inj.1 (List.append_cancel_left hdetail)⟩

theorem indexSignal_inj (h : indexSignal field u = indexSignal field u') : u = u' := by
  have hdetail := congrArg (fun s => s.detail.toList.length) h
  simp only [indexSignal, String.toList_append, List.length_append] at hdetail
  cases u <;> cases u' <;> simp at hdetail ⊢

theorem shown_eq (hc : e.edge k config c = some edge)
    (h : Option.Rel SameEdge (e.edge k config c) (e.edge k config c')) :
    targetOf c.app c.best c.lookups.head? e.namingTarget = targetOf c'.app c'.best c'.lookups.head? e.namingTarget ∧
      ∀ s, s ∈ signalsOf (e.candidateWith k c.app c.unique) c.best c.lookups ↔
        s ∈ signalsOf (e.candidateWith k c'.app c'.unique) c'.best c'.lookups := by
  rw [hc] at h
  cases hc' : e.edge k config c' with
  | none => rw [hc'] at h; cases h
  | some edge' =>
    rw [hc'] at h
    obtain ⟨hsame⟩ := h
    have hshape : ∀ {x : Choice e} {d}, e.edge k config x = some d →
        targetOf x.app x.best x.lookups.head? e.namingTarget = some (d.toCollection, d.toField) ∧
          d.signals = signalsOf (e.candidateWith k x.app x.unique) x.best x.lookups := by
      intro x d hx
      cases ht : targetOf x.app x.best x.lookups.head? e.namingTarget with
      | none => rw [Evidence.edge, ht] at hx; cases hx
      | some target =>
        rw [edge_of_target x ht] at hx
        split at hx
        · cases hx
        · obtain rfl := Option.some.inj hx
          exact ⟨rfl, rfl⟩
    obtain ⟨ht, hs⟩ := hshape hc
    obtain ⟨ht', hs'⟩ := hshape hc'
    refine ⟨?_, fun s => by rw [← hs, ← hs']; exact hsame.signals s⟩
    have hto := congrArg RelationshipEdge.toCollection hsame.fields
    have hfield := congrArg RelationshipEdge.toField hsame.fields
    simp only at hto hfield
    rw [ht, ht', hto, hfield]

/-- A choice that keeps what is asked for. -/
def Choice.keep (c : Choice e) (app : Option AppSchemaTarget) (unique : Option Bool) (happ : AnyOf e.apps app)
    (hunique : AnyOf e.marks unique) : Choice e :=
  { c with app := app, unique := unique, app_kept := happ, unique_kept := hunique }

theorem exists_choice (hnum : e.Numeric) (happ : AnyOf e.apps app)
    (hunique : AnyOf e.marks unique) : ∃ c : Choice e, c.app = app ∧ c.unique = unique := by
  have hbest : (e.found = [] ∧ maxBy higher e.found = none) ∨ ∃ m, Best e m ∧ maxBy higher e.found = some m := by
    cases hm : maxBy higher e.found with
    | none =>
      refine .inl ⟨?_, rfl⟩
      by_contra hne
      have hsome := (@maxBy_isSome _ higher _).2 hne
      rw [hm] at hsome
      cases hsome
    | some m => exact .inr ⟨m, maxBy_spec hnum.higher_iff hm, rfl⟩
  exact ⟨⟨app, _, e.targets, unique, happ, hbest, List.Perm.refl _, hunique⟩, rfl, rfl⟩

theorem edge_of_drawn (hnum : e.Numeric) (h : Drawn config e) : ∃ c : Choice e, (e.edge k config c).isSome = true := by
  obtain ⟨hsome, app, unique, happ, hunique, hconfidence⟩ := h
  obtain ⟨c, rfl, rfl⟩ := exists_choice hnum happ hunique
  have htarget := (targetOf_isSome c).2 hsome
  obtain ⟨target, ht⟩ := Option.isSome_iff_exists.1 htarget
  refine ⟨c, ?_⟩
  rw [edge_of_target c ht, if_neg (by rw [hconfidence]; exact Bool.false_ne_true)]
  rfl

theorem appSignal_of_mem {c : Choice e} {a : AppSchemaTarget}
    (h : appSignal a ∈ signalsOf (e.candidateWith k c.app c.unique) c.best c.lookups) : c.app.map appSignal = some (appSignal a) := by
  rcases mem_signalsOf.1 h with h | h | ⟨_, _, h⟩ | h | ⟨_, h⟩
  · exact h
  · obtain ⟨_, _, h⟩ := Option.map_eq_some_iff.1 h
    cases congrArg RelationshipSignal.kind h
  · cases congrArg RelationshipSignal.kind h
  · obtain ⟨_, _, h⟩ := Option.map_eq_some_iff.1 h
    cases congrArg RelationshipSignal.kind h
  · cases congrArg RelationshipSignal.kind h

theorem matchSignal_of_mem {c : Choice e} {m : ObjectIdMatchDetail}
    (h : matchSignal (ofLex k).2 m ∈ signalsOf (e.candidateWith k c.app c.unique) c.best c.lookups) :
    c.best.map (matchSignal (ofLex k).2) = some (matchSignal (ofLex k).2 m) := by
  rcases mem_signalsOf.1 h with h | h | ⟨_, _, h⟩ | h | ⟨_, h⟩
  · obtain ⟨_, _, h⟩ := Option.map_eq_some_iff.1 h
    cases congrArg RelationshipSignal.kind h
  · exact h
  · cases congrArg RelationshipSignal.kind h
  · obtain ⟨_, _, h⟩ := Option.map_eq_some_iff.1 h
    cases congrArg RelationshipSignal.kind h
  · cases congrArg RelationshipSignal.kind h

theorem indexSignal_of_mem {c : Choice e} {u : Bool}
    (h : indexSignal (ofLex k).2 u ∈ signalsOf (e.candidateWith k c.app c.unique) c.best c.lookups) :
    indexSignal (ofLex k).2 u = indexSignal (ofLex k).2 (e.present && c.unique.getD false) := by
  rcases mem_signalsOf.1 h with h | h | ⟨_, _, h⟩ | h | ⟨_, h⟩
  · obtain ⟨_, _, h⟩ := Option.map_eq_some_iff.1 h
    cases congrArg RelationshipSignal.kind h
  · obtain ⟨_, _, h⟩ := Option.map_eq_some_iff.1 h
    cases congrArg RelationshipSignal.kind h
  · cases congrArg RelationshipSignal.kind h
  · obtain ⟨_, _, h⟩ := Option.map_eq_some_iff.1 h
    cases congrArg RelationshipSignal.kind h
  · exact h

/-- Two choices show the same: their target, and the signals of their edges. -/
def SameSigns (e : Evidence) (k : Key) (x y : Choice e) : Prop :=
  targetOf x.app x.best x.lookups.head? e.namingTarget = targetOf y.app y.best y.lookups.head? e.namingTarget ∧
    ∀ s, s ∈ signalsOf (e.candidateWith k x.app x.unique) x.best x.lookups ↔
      s ∈ signalsOf (e.candidateWith k y.app y.unique) y.best y.lookups

theorem agrees_of_sameSigns (hnum : e.Numeric) (c : Choice e) (h : ∀ x y, SameSigns e k x y) : Agrees e (ofLex k).2 where
  apps a ha a' ha' := by
    let x := c.keep (some a) c.unique (.inr ⟨a, ha, rfl⟩) c.unique_kept
    let y := c.keep (some a') c.unique (.inr ⟨a', ha', rfl⟩) c.unique_kept
    have hmem := ((h x y).2 (appSignal a)).1 (mem_signalsOf.2 (.inl rfl))
    exact appSignal_inj (Option.some.inj (appSignal_of_mem hmem)).symm
  found m m' hm hm' := by
    let x : Choice e := { c with best := some m, best_kept := .inr ⟨m, hm, rfl⟩ }
    let y : Choice e := { c with best := some m', best_kept := .inr ⟨m', hm', rfl⟩ }
    have hmem := ((h x y).2 (matchSignal (ofLex k).2 m)).1 (mem_signalsOf.2 (.inr (.inl rfl)))
    exact (Option.some.inj (matchSignal_of_mem hmem)).symm
  unique hpresent u hu u' hu' := by
    let x := c.keep c.app (some u) c.app_kept (.inr ⟨u, hu, rfl⟩)
    let y := c.keep c.app (some u') c.app_kept (.inr ⟨u', hu', rfl⟩)
    have hindexed : e.indexed = true := by simp [Evidence.indexed, hpresent, List.ne_nil_of_mem hu]
    have hself : indexSignal (ofLex k).2 u ∈ signalsOf (e.candidateWith k x.app x.unique) x.best x.lookups := by
      refine mem_signalsOf.2 (.inr (.inr (.inr (.inr ⟨hindexed, ?_⟩))))
      simp [Evidence.candidateWith, hpresent, x, Choice.keep]
    have hinj := indexSignal_inj (indexSignal_of_mem (((h x y).2 _).1 hself))
    simpa [hpresent, y, Choice.keep] using hinj
  target := {
    best := fun hdec m m' hm hm' => by
      have happ : ∀ {d}, Best e d → c.app = none ∨ decisive d = true := by
        intro d hd
        rcases hdec with hnil | ⟨d', hd', hdd⟩
        · exact .inl (c.app_eq_none hnil)
        · exact .inr ((hnum.decisive_eq hd hd').trans hdd)
      have htarget := (h { c with best := some m, best_kept := .inr ⟨m, hm, rfl⟩ }
        { c with best := some m', best_kept := .inr ⟨m', hm', rfl⟩ }).1
      rw [targetOf_best (happ hm), targetOf_best (happ hm')] at htarget
      exact Option.some.inj htarget
    app := fun hnot a ha a' ha' => by
      have htarget := (h (c.keep (some a) c.unique (.inr ⟨a, ha, rfl⟩) c.unique_kept)
        (c.keep (some a') c.unique (.inr ⟨a', ha', rfl⟩) c.unique_kept)).1
      simp only [Choice.keep] at htarget
      rw [targetOf_app a (c.not_decisive hnot), targetOf_app a' (c.not_decisive hnot)] at htarget
      exact Option.some.inj htarget
    lookup := fun hfound happs t ht t' ht' => by
      have hfront : ∀ t ∈ e.lookups, ∃ x : Choice e, x.app = none ∧ x.best = none ∧ x.lookups.head? = some t := by
        intro t ht
        exact ⟨{ c with lookups := t :: e.targets.erase t, lookups_perm := (List.perm_cons_erase (mem_targets.2 ht)).symm },
          c.app_eq_none happs, c.best_eq_none hfound, rfl⟩
      obtain ⟨x, hxa, hxb, hxl⟩ := hfront t ht
      obtain ⟨y, hya, hyb, hyl⟩ := hfront t' ht'
      have htarget := (h x y).1
      rw [hxa, hxb, hxl, hya, hyb, hyl, targetOf_lookup, targetOf_lookup] at htarget
      exact Option.some.inj htarget }

/-- **The edges of all choices are the same exactly when the evidence agrees**, or none is drawn. -/
theorem same_edge_iff (hnum : e.Numeric) : (∀ c c' : Choice e, Option.Rel SameEdge (e.edge k config c) (e.edge k config c')) ↔
    (Drawn config e → Agrees e (ofLex k).2) := by
  constructor
  · intro hall hdrawn
    obtain ⟨c, hc⟩ := edge_of_drawn (k := k) hnum hdrawn
    refine agrees_of_sameSigns hnum c fun x y => ?_
    cases hx : e.edge k config x with
    | none =>
      have hrel := hall x c
      rw [hx] at hrel
      cases hd : e.edge k config c with
      | none => rw [hd] at hc; cases hc
      | some d => rw [hd] at hrel; cases hrel
    | some d => exact shown_eq hx (hall x y)
  · intro h c c'
    cases hc : e.edge k config c with
    | some edge =>
      rw [← hc]
      exact same_edge_of_agrees hnum (h (drawn_of_edge (k := k) (c := c) (by rw [hc]; rfl))) c c'
    | none =>
      cases hc' : e.edge k config c' with
      | none => exact .none
      | some edge =>
        have hrel := @same_edge_of_agrees e k config hnum
          (h (drawn_of_edge (k := k) (c := c') (by rw [hc']; rfl))) c c'
        rwa [hc, hc'] at hrel

end

end

end Schema
