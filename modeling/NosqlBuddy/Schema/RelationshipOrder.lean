import NosqlBuddy.Schema.Choices

/-!
# Relationships and the order of their inputs

"Pure relationship detector" (relationship.rs:130): the edges are to be a function of a set of shapes and of sets of signals. They are
when, for each field that an edge is drawn for, the evidence agrees in what only one of several is kept of
(`order_free_iff`). Otherwise they depend on the order of the signals and of the indexes, and with two lookups of one field on the
order in which a `HashSet` gives its items, which is another in each run of the program (`two_lookups_open`).
-/

namespace Schema
open Entries Binary64 LastMax

/-! ## The statement -/

/-- The same shape with its indexes in another order. -/
structure SameShape (s s' : CollectionShape) : Prop where
  indexes : s.indexes.Perm s'.indexes
  rest : { s with indexes := [] } = { s' with indexes := [] }

/-- The same inputs in another order. -/
structure Shuffled (i i' : Inputs) : Prop where
  shapes : ∃ mid, i.shapes.Perm mid ∧ List.Forall₂ SameShape mid i'.shapes
  objectIdSignals : i.objectIdSignals.Perm i'.objectIdSignals
  lookupSignals : i.lookupSignals.Perm i'.lookupSignals
  appSchemaSignals : i.appSchemaSignals.Perm i'.appSchemaSignals
  config : i'.config = i.config

def SameEdges (es es' : List RelationshipEdge) : Prop :=
  (∀ e ∈ es, ∃ e' ∈ es', SameEdge e e') ∧ ∀ e' ∈ es', ∃ e ∈ es, SameEdge e e'

/-- Another order of the inputs and of the sets leaves the edges as they are. -/
def OrderFree (upper : Char → List Char) (i : Inputs) : Prop :=
  ∀ i' hash hash', Shuffled i i' → SameEdges (detectRelationships upper hash i) (detectRelationships upper hash' i')

/-! ## One candidate -/

section
variable {e : Evidence} {k : Key} {config : RelationshipConfig}

theorem weights_eq (c : Choice e) : (signalsOf (e.candidateWith k c.app c.unique) c.best c.lookups).map (·.weight) = e.weights := by
  have happ : ((c.app.map appSignal).toList).map (·.weight) = if e.apps = [] then [] else [appWeight] := by
    rcases c.app_kept with ⟨h, ha⟩ | ⟨a, h, ha⟩
    · rw [ha, if_pos h]; rfl
    · rw [ha, if_neg (List.ne_nil_of_mem h)]; rfl
  have hbest : ((c.best.map (matchSignal (ofLex k).2)).toList).map (·.weight) = if e.found = [] then [] else [matchWeight] := by
    rcases c.best_kept with ⟨h, hb⟩ | ⟨m, h, hb⟩
    · rw [hb, if_pos h]; rfl
    · rw [hb, if_neg (List.ne_nil_of_mem h.1)]; rfl
  have hlookups : (c.lookups.map (lookupSignal (ofLex k).1 (ofLex k).2)).map (·.weight) = List.replicate e.targets.length lookupWeight := by
    rw [List.map_map, ← c.lookups_perm.length_eq]
    exact List.map_const' ..
  have hnaming : ((e.namingTarget.map (namingSignal (ofLex k).2)).toList).map (·.weight) =
      if e.namingTarget.isSome then [namingWeight] else [] := by
    cases e.namingTarget <;> rfl
  have hindex : (if e.indexed then [indexSignal (ofLex k).2 (e.present && c.unique.getD false)] else []).map (·.weight) =
      if e.indexed then [indexWeight] else [] := by
    cases e.indexed <;> rfl
  rw [Evidence.weights, ← happ, ← hbest, ← hlookups, ← hnaming, ← hindex, ← List.map_append, ← List.map_append, ← List.map_append,
    ← List.map_append]
  rfl

theorem strong_eq (c : Choice e) : (e.candidateWith k c.app c.unique).strong = e.strong := by
  have happ : c.app.isSome = decide (e.apps ≠ []) := by
    rw [Bool.eq_iff_iff, decide_eq_true_eq]
    exact anyOf_isSome c.app_kept
  rw [Candidate.strong, Evidence.strong, ← happ]
  rfl

/-- **`build_edge` makes the edge of a choice.** -/
theorem buildEdge_eq {hash : HashOrder} (c : Choice e) (hbest : bestMatch e.found = c.best) (hlookups : hash.iter k e.targets = c.lookups) :
    (buildEdge hash config (e.candidateWith k c.app c.unique) []).1 = e.edge k config c := by
  have hiter : hash.iter (toLex ((e.candidateWith k c.app c.unique).fromCollection, (e.candidateWith k c.app c.unique).fromField))
      (e.candidateWith k c.app c.unique).lookupTargets = c.lookups := hlookups
  have hfound : bestMatch (e.candidateWith k c.app c.unique).objectIdMatches = c.best := hbest
  rw [buildEdge]
  simp only [hiter, hfound, weights_eq, strong_eq]
  by_cases hnil : signalsOf (e.candidateWith k c.app c.unique) c.best c.lookups = []
  · rw [if_pos hnil]
    cases ht : targetOf c.app c.best c.lookups.head? e.namingTarget with
    | none => rw [Evidence.edge, ht]
    | some target =>
      have hsome := (targetOf_isSome c).1 (by rw [ht]; rfl)
      have hweights : e.weights = [] := by rw [← weights_eq (k := k) c, hnil, List.map_nil]
      simp only [Evidence.weights, List.append_eq_nil_iff] at hweights
      obtain ⟨⟨⟨⟨happs, hfound⟩, hlook⟩, hnaming⟩, -⟩ := hweights
      rcases hsome with h | h | h | h
      · rw [if_neg h] at happs; cases happs
      · rw [if_neg h] at hfound; cases hfound
      · rw [List.replicate_eq_nil_iff, List.length_eq_zero_iff, targets_eq_nil] at hlook
        exact absurd hlook h
      · rw [if_pos h] at hnaming; cases hnaming
  · rw [if_neg hnil]
    have happ : (e.candidateWith k c.app c.unique).appSchemaTarget = c.app := rfl
    have hnaming : (e.candidateWith k c.app c.unique).namingTarget = e.namingTarget := rfl
    rw [happ, hnaming]
    cases ht : targetOf c.app c.best c.lookups.head? e.namingTarget with
    | none => rw [Evidence.edge, ht]
    | some target =>
      rw [edge_of_target c ht]
      simp only [List.not_mem_nil, if_false]
      have hconfidence : confidenceOf e.weights (e.candidateWith k c.app c.unique).indexed (e.candidateWith k c.app c.unique).indexUnique
          (c.app.any (·.isArray) || (e.candidateWith k c.app c.unique).isArray) e.strong = e.confidence c.app c.unique := rfl
      rw [hconfidence]
      split <;> rfl

/-- What is taken of the evidence as it comes. -/
def Evidence.taken (e : Evidence) (hnum : e.Numeric) (hash : HashOrder) (k : Key) : Choice e where
  app := e.apps.getLast?
  best := bestMatch e.found
  lookups := hash.iter k e.targets
  unique := e.marks.getLast?
  app_kept := by
    cases h : e.apps.getLast? with
    | none => exact .inl ⟨List.getLast?_eq_none_iff.1 h, rfl⟩
    | some a => exact .inr ⟨a, List.mem_of_getLast? h, rfl⟩
  best_kept := by
    cases h : bestMatch e.found with
    | none =>
      refine .inl ⟨?_, rfl⟩
      by_contra hne
      have hsome := (@maxBy_isSome _ higher _).2 hne
      rw [show maxBy higher e.found = none from h] at hsome
      cases hsome
    | some m => exact .inr ⟨m, maxBy_spec hnum.higher_iff h, rfl⟩
  lookups_perm := hash.perm k e.targets
  unique_kept := by
    cases h : e.marks.getLast? with
    | none => exact .inl ⟨List.getLast?_eq_none_iff.1 h, rfl⟩
    | some u => exact .inr ⟨u, List.mem_of_getLast? h, rfl⟩

theorem candidate_edge (hnum : e.Numeric) (hash : HashOrder) :
    (e.candidate k).bind (fun c => (buildEdge hash config c []).1) = e.edge k config (e.taken hnum hash k) := by
  rw [Evidence.candidate]
  split
  · exact buildEdge_eq (e.taken hnum hash k) rfl rfl
  · next h =>
    rw [Bool.or_eq_true, not_or] at h
    have hnone : e.visits = [] ∧ e.lookups = [] ∧ e.apps = [] ∧ e.found = [] := by
      simpa [Evidence.present, and_assoc] using h
    cases ht : targetOf (e.taken hnum hash k).app (e.taken hnum hash k).best (e.taken hnum hash k).lookups.head? e.namingTarget with
    | none =>
      rw [Evidence.edge, ht]
      rfl
    | some target =>
      have hsome := (targetOf_isSome (e.taken hnum hash k)).1 (by rw [ht]; rfl)
      simp [Evidence.namingTarget, hnone.1, hnone.2.1, hnone.2.2.1, hnone.2.2.2] at hsome

end

/-! ## The evidence of shuffled inputs -/

/-- The same evidence in another order; what comes from one shape has its order. -/
structure SameEvidence (e e' : Evidence) : Prop where
  visits : e'.visits = e.visits
  naming : e'.naming = e.naming
  lookups : e'.lookups.Perm e.lookups
  apps : e'.apps.Perm e.apps
  marks : e'.marks.Perm e.marks
  found : e'.found.Perm e.found

theorem SameShape.collection {s s' : CollectionShape} (h : SameShape s s') : s.collection = s'.collection := by
  have hrest := congrArg CollectionShape.collection h.rest
  exact hrest

theorem SameShape.visitsOf {s s' : CollectionShape} (h : SameShape s s') : visitsOf s = visitsOf s' := by
  have hroot : s.root = s'.root := by
    have hrest := congrArg CollectionShape.root h.rest
    exact hrest
  rw [Schema.visitsOf, Schema.visitsOf, h.collection, hroot]

/-- The shape of the collection of a field. -/
def Inputs.own (i : Inputs) (k : Key) : List CollectionShape := i.shapes.filter fun s => s.collection = (ofLex k).1

section
variable {P : Type}

theorem payloads_perm {xs ys : List (Key × P)} (h : xs.Perm ys) (k : Key) : (payloads k xs).Perm (payloads k ys) :=
  (h.filter _).map _

theorem payloads_flatMap {f : CollectionShape → List (Key × P)} (hf : ∀ s, ∀ x ∈ f s, (ofLex x.1).1 = s.collection) (k : Key) :
    ∀ shapes : List CollectionShape,
      payloads k (shapes.flatMap f) = (shapes.filter fun s => s.collection = (ofLex k).1).flatMap fun s => payloads k (f s)
  | [] => rfl
  | s :: ss => by
    have ih := payloads_flatMap hf k ss
    have happend : payloads k (f s ++ ss.flatMap f) = payloads k (f s) ++ payloads k (ss.flatMap f) := by
      rw [payloads, List.filter_append, List.map_append]
      rfl
    rw [List.flatMap_cons, happend, ih]
    by_cases h : s.collection = (ofLex k).1
    · rw [List.filter_cons_of_pos (by simpa using h), List.flatMap_cons]
    · have hnil : payloads k (f s) = [] := by
        rw [payloads, List.map_eq_nil_iff, List.filter_eq_nil_iff]
        intro x hx hk
        rw [decide_eq_true_eq] at hk
        exact h (hk ▸ (hf s x hx).symm)
      rw [List.filter_cons_of_neg (by simpa using h), hnil, List.nil_append]

end

theorem visitsOf_fst (s : CollectionShape) : ∀ x ∈ visitsOf s, (ofLex x.1).1 = s.collection := by
  intro x hx
  obtain ⟨field, -, rfl⟩ := List.mem_map.1 hx
  rfl

theorem marksOf_fst (s : CollectionShape) : ∀ x ∈ marksOf s, (ofLex x.1).1 = s.collection := by
  intro x hx
  obtain ⟨idx, -, hidx⟩ := List.mem_filterMap.1 hx
  obtain ⟨field, -, rfl⟩ := Option.map_eq_some_iff.1 hidx
  rfl

section
variable {i i' : Inputs}

theorem Inputs.own_cases (i : Inputs) (k : Key) : i.own k = [] ∨ ∃ s, i.own k = [s] := by
  have hall : ∀ s ∈ i.own k, s.collection = (ofLex k).1 := fun s hs => of_decide_eq_true (List.mem_filter.1 hs).2
  have hnodup : ((i.own k).map (·.collection)).Nodup := i.distinct.sublist (List.filter_sublist.map _)
  cases ho : i.own k with
  | nil => exact .inl rfl
  | cons s ss =>
    cases ss with
    | nil => exact .inr ⟨s, rfl⟩
    | cons t ts =>
      rw [ho] at hall hnodup
      have hs := hall s List.mem_cons_self
      have ht := hall t (List.mem_cons_of_mem s List.mem_cons_self)
      rw [List.map_cons, List.nodup_cons] at hnodup
      exact absurd (List.mem_map.2 ⟨t, List.mem_cons_self, ht.trans hs.symm⟩) hnodup.1

theorem Shuffled.own (h : Shuffled i i') (k : Key) :
    (i.own k = [] ∧ i'.own k = []) ∨ ∃ s s', i.own k = [s] ∧ i'.own k = [s'] ∧ SameShape s s' := by
  obtain ⟨mid, hperm, hrel⟩ := h.shapes
  have hmid : (i.own k).Perm (mid.filter fun s => s.collection = (ofLex k).1) := hperm.filter _
  have hown : List.Forall₂ SameShape (mid.filter fun s => s.collection = (ofLex k).1) (i'.own k) :=
    List.rel_filter (fun s s' hs => by simp [hs.collection]) hrel
  rcases i.own_cases k with ho | ⟨s, ho⟩
  · rw [ho, List.nil_perm] at hmid
    rw [hmid] at hown
    exact .inl ⟨ho, List.forall₂_nil_left_iff.1 hown⟩
  · rw [ho, List.singleton_perm] at hmid
    rw [← hmid] at hown
    obtain ⟨s', rest, hs, hnil, heq⟩ := List.forall₂_cons_left_iff.1 hown
    rw [List.forall₂_nil_left_iff.1 hnil] at heq
    exact .inr ⟨s, s', ho, heq, hs⟩

theorem namingMatch_congr {upper : Char → List Char} {field : String} {names names' : List String}
    (h : ∀ n, n ∈ names ↔ n ∈ names') : namingMatch upper field names = namingMatch upper field names' := by
  unfold namingMatch
  simp only [h]

theorem map_collection_eq {ss ss' : List CollectionShape} (h : List.Forall₂ SameShape ss ss') :
    ss.map (·.collection) = ss'.map (·.collection) := by
  induction h with
  | nil => rfl
  | cons hs _ ih => rw [List.map_cons, List.map_cons, hs.collection, ih]

theorem Shuffled.names (h : Shuffled i i') : i.names.Perm i'.names := by
  obtain ⟨mid, hperm, hrel⟩ := h.shapes
  rw [Inputs.names, Inputs.names, ← map_collection_eq hrel]
  exact hperm.map _

theorem Shuffled.sameEvidence (h : Shuffled i i') (upper : Char → List Char) (k : Key) :
    SameEvidence (evidence upper i k) (evidence upper i' k) where
  visits := by
    simp only [evidence, payloads_flatMap visitsOf_fst]
    rcases h.own k with ⟨ho, ho'⟩ | ⟨s, s', ho, ho', hs⟩
    · rw [Inputs.own] at ho ho'
      rw [ho, ho']
    · rw [Inputs.own] at ho ho'
      rw [ho, ho', List.flatMap_singleton, List.flatMap_singleton, hs.visitsOf]
  naming := by
    have hmatch : namingMatch upper (ofLex k).2 i'.names = namingMatch upper (ofLex k).2 i.names :=
      namingMatch_congr fun n => h.names.symm.mem_iff
    simp only [evidence, h.config, hmatch]
  lookups := by
    simp only [evidence, h.config]
    split
    · exact payloads_perm (h.lookupSignals.symm.map _) k
    · exact .nil
  apps := by
    simp only [evidence, h.config]
    split
    · exact payloads_perm (h.appSchemaSignals.symm.map _) k
    · exact .nil
  marks := by
    simp only [evidence, h.config]
    split
    · rw [payloads_flatMap marksOf_fst, payloads_flatMap marksOf_fst]
      rcases h.own k with ⟨ho, ho'⟩ | ⟨s, s', ho, ho', hs⟩
      · rw [Inputs.own] at ho ho'
        rw [ho, ho']
      · rw [Inputs.own] at ho ho'
        rw [ho, ho', List.flatMap_singleton, List.flatMap_singleton]
        refine payloads_perm ?_ k
        rw [marksOf, marksOf, hs.collection]
        exact hs.indexes.symm.filterMap _
    · exact .nil
  found := by
    simp only [evidence, h.config]
    split
    · exact payloads_perm (h.objectIdSignals.symm.filterMap _) k
    · exact .nil

end

section
variable {e e' : Evidence} {k : Key} {config : RelationshipConfig}

theorem AnyOf.perm {α : Type} {xs ys : List α} {o : Option α} (h : AnyOf xs o) (hp : xs.Perm ys) : AnyOf ys o := by
  rcases h with ⟨rfl, ho⟩ | ⟨x, hx, ho⟩
  · exact .inl ⟨List.nil_perm.1 hp, ho⟩
  · exact .inr ⟨x, hp.mem_iff.1 hx, ho⟩

theorem SameEvidence.targets (h : SameEvidence e e') : e'.targets.Perm e.targets := by
  refine (List.perm_ext_iff_of_nodup (nodup_foldl_insertTarget _ List.nodup_nil) (nodup_foldl_insertTarget _ List.nodup_nil)).2 fun t => ?_
  rw [← Evidence.targets, ← Evidence.targets, mem_targets, mem_targets, h.lookups.mem_iff]

theorem SameEvidence.best (h : SameEvidence e e') {m : ObjectIdMatchDetail} (hm : Best e' m) : Best e m :=
  ⟨h.found.mem_iff.1 hm.1, fun y hy => hm.2 y (h.found.mem_iff.2 hy)⟩

/-- A choice of the shuffled evidence is one of the evidence. -/
def Choice.of (h : SameEvidence e e') (c : Choice e') : Choice e where
  app := c.app
  best := c.best
  lookups := c.lookups
  unique := c.unique
  app_kept := c.app_kept.perm h.apps
  best_kept := by
    rcases c.best_kept with ⟨hnil, hb⟩ | ⟨m, hm, hb⟩
    · have hfound := h.found
      rw [hnil, List.nil_perm] at hfound
      exact .inl ⟨hfound, hb⟩
    · exact .inr ⟨m, h.best hm, hb⟩
  lookups_perm := c.lookups_perm.trans h.targets
  unique_kept := c.unique_kept.perm h.marks

theorem SameEvidence.eq_nil {α : Type} {xs ys : List α} (h : ys.Perm xs) : ys = [] ↔ xs = [] :=
  ⟨fun hy => List.nil_perm.1 (hy ▸ h), fun hx => List.perm_nil.1 (hx ▸ h)⟩

theorem SameEvidence.edge_eq (h : SameEvidence e e') (c : Choice e') : e'.edge k config c = e.edge k config (c.of h) := by
  have hlookups := SameEvidence.eq_nil h.lookups
  have happs := SameEvidence.eq_nil h.apps
  have hmarks := SameEvidence.eq_nil h.marks
  have hfound := SameEvidence.eq_nil h.found
  have hpresent : e'.present = e.present := by simp [Evidence.present, h.visits, hlookups, happs]
  have hnaming : e'.namingTarget = e.namingTarget := by rw [Evidence.namingTarget, Evidence.namingTarget, h.visits, h.naming]
  have hindexed : e'.indexed = e.indexed := by simp [Evidence.indexed, hpresent, hmarks]
  have harray : e'.isArray = e.isArray := by rw [Evidence.isArray, Evidence.isArray, h.visits]
  have hstrong : e'.strong = e.strong := by
    have hany : ∀ p : ObjectIdMatchDetail → Bool, e'.found.any p = e.found.any p := by
      intro p
      rw [Bool.eq_iff_iff, List.any_eq_true, List.any_eq_true]
      simp only [h.found.mem_iff]
    simp [Evidence.strong, happs, hany]
  have hweights : e'.weights = e.weights := by
    simp only [Evidence.weights, happs, hfound, hnaming, hindexed, h.targets.length_eq]
  have hconfidence : e'.confidence c.app c.unique = e.confidence c.app c.unique := by
    rw [Evidence.confidence, Evidence.confidence, hweights, hindexed, hpresent, harray, hstrong]
  -- what an edge shows of the candidate is the same
  have hcand : e'.candidateWith k c.app c.unique =
      { e.candidateWith k c.app c.unique with lookupTargets := e'.targets, objectIdMatches := e'.found } := by
    rw [Evidence.candidateWith, Evidence.candidateWith, hpresent, hnaming, hindexed, harray, h.visits]
    rfl
  rw [Evidence.edge, Evidence.edge, hnaming, harray]
  simp only [hconfidence, hcand]
  rfl

end

/-! ## Orders that give a choice -/

theorem numeric (upper : Char → List Char) (i : Inputs) (k : Key) : (evidence upper i k).Numeric := by
  intro m hm
  simp only [evidence] at hm
  split at hm
  · rw [payloads_eq, List.mem_filterMap] at hm
    obtain ⟨x, hx, hxm⟩ := hm
    obtain ⟨sig, -, hsig⟩ := List.mem_filterMap.1 hx
    unfold matchEntry at hsig
    split at hsig
    · next hle =>
      obtain rfl := Option.some.inj hsig
      split at hxm
      · obtain rfl := Option.some.inj hxm
        simp only [fLe, Bool.and_eq_true, Bool.not_eq_true'] at hle
        exact hle.1.2
      · cases hxm
    · cases hsig
  · cases hm

section
variable {k : Key}

theorem exists_last {α β : Type} (g : α → Option β) {xs : List α} {o : Option β} (h : AnyOf (xs.filterMap g) o) :
    ∃ ys, xs.Perm ys ∧ (ys.filterMap g).getLast? = o := by
  rcases h with ⟨hnil, rfl⟩ | ⟨b, hb, rfl⟩
  · exact ⟨xs, .refl _, by rw [hnil]; rfl⟩
  · obtain ⟨x, hx, hgx⟩ := List.mem_filterMap.1 hb
    obtain ⟨front, back, rfl⟩ := List.append_of_mem hx
    refine ⟨front ++ back ++ [x], ?_, ?_⟩
    · rw [List.append_assoc]
      exact (List.perm_append_singleton x back).symm.append_left front
    · rw [List.filterMap_append, List.filterMap_cons_some hgx]
      simp

theorem exists_lastPayload {α P : Type} (f : α → Option (Key × P)) (enabled : Bool) {xs : List α} {o : Option P}
    (h : AnyOf (if enabled then payloads k (xs.filterMap f) else []) o) :
    ∃ ys, xs.Perm ys ∧ (if enabled then payloads k (ys.filterMap f) else []).getLast? = o := by
  cases enabled with
  | false =>
    rcases h with ⟨-, rfl⟩ | ⟨x, hx, -⟩
    · exact ⟨xs, .refl _, rfl⟩
    · cases hx
  | true =>
    simp only [if_true, payloads_eq, List.filterMap_filterMap] at h ⊢
    exact exists_last _ h

theorem exists_lastMark (i : Inputs) {o : Option Bool} (h : AnyOf (if i.config.enableIndex then payloads k (i.shapes.flatMap marksOf) else []) o) :
    ∃ shapes, List.Forall₂ SameShape i.shapes shapes ∧
      (if i.config.enableIndex then payloads k (shapes.flatMap marksOf) else []).getLast? = o := by
  have hself : List.Forall₂ SameShape i.shapes i.shapes := List.forall₂_same.2 fun s _ => ⟨.refl _, rfl⟩
  rw [payloads_flatMap marksOf_fst] at h
  rcases i.own_cases k with ho | ⟨s, ho⟩
  · refine ⟨i.shapes, hself, ?_⟩
    rw [payloads_flatMap marksOf_fst]
    rw [Inputs.own] at ho
    rw [ho, List.flatMap_nil, ite_self] at h ⊢
    rcases h with ⟨-, rfl⟩ | ⟨x, hx, -⟩
    · rfl
    · cases hx
  · have hs : s.collection = (ofLex k).1 := by
      have hmem : s ∈ i.own k := ho ▸ List.mem_cons_self
      exact of_decide_eq_true (List.mem_filter.1 hmem).2
    have ho' := ho
    rw [Inputs.own] at ho'
    rw [ho', List.flatMap_singleton, marksOf] at h
    obtain ⟨ys, hys, hlast⟩ := exists_lastPayload _ _ h
    let f := fun t : CollectionShape => if t.collection = (ofLex k).1 then { t with indexes := ys } else t
    have hf : ∀ t, (f t).collection = t.collection := by
      intro t
      simp only [f]
      split <;> rfl
    refine ⟨i.shapes.map f, List.forall₂_map_right_iff.2 (List.forall₂_same.2 fun t ht => ?_), ?_⟩
    · by_cases hcoll : t.collection = (ofLex k).1
      · have hmem : t ∈ i.own k := List.mem_filter.2 ⟨ht, decide_eq_true hcoll⟩
        rw [ho, List.mem_singleton] at hmem
        obtain rfl := hmem
        simp only [f, if_pos hcoll]
        exact ⟨hys, rfl⟩
      · simp only [f, if_neg hcoll]
        exact ⟨.refl _, rfl⟩
    · rw [payloads_flatMap marksOf_fst, List.filter_map]
      have hfilter : ((fun s : CollectionShape => decide (s.collection = (ofLex k).1)) ∘ f) = fun s => decide (s.collection = (ofLex k).1) := by
        funext t
        simp only [Function.comp_apply, hf]
      rw [hfilter, ho', List.map_singleton, List.flatMap_singleton]
      simp only [f, if_pos hs]
      exact hlast

/-- **Each choice is what some order of the inputs and of the set leads to.** -/
theorem exists_shuffled (upper : Char → List Char) (i : Inputs) (c : Choice (evidence upper i k)) :
    ∃ i' hash, ∃ h : Shuffled i i', ((evidence upper i' k).taken (numeric upper i' k) hash k).of (h.sameEvidence upper k) = c := by
  obtain ⟨shapes, hshapes, hunique⟩ := exists_lastMark i c.unique_kept
  have happs := c.app_kept
  simp only [evidence, ← List.filterMap_eq_map] at happs
  obtain ⟨appSignals, hperm, happ⟩ := exists_lastPayload _ _ happs
  have hfound : AnyOf (evidence upper i k).found c.best := c.best_kept.imp_right fun ⟨m, hm, hb⟩ => ⟨m, hm.1, hb⟩
  obtain ⟨idSignals, hids, hbest⟩ := exists_lastPayload _ _ hfound
  let i' : Inputs := { i with
    shapes := shapes
    objectIdSignals := idSignals
    appSchemaSignals := appSignals
    distinct := map_collection_eq hshapes ▸ i.distinct }
  have h : Shuffled i i' := ⟨⟨i.shapes, .refl _, hshapes⟩, hids, .refl _, hperm, rfl⟩
  have hsame := h.sameEvidence upper k
  have hlast : (evidence upper i' k).found.getLast? = c.best := hbest
  let hash : HashOrder := {
    iter := fun _ targets => if targets.Perm c.lookups then c.lookups else targets
    perm := fun _ targets => by
      split
      · next hp => exact hp.symm
      · exact .refl _ }
  refine ⟨i', hash, h, Choice.ext ?_ ?_ ?_ ?_⟩
  · have happs : (evidence upper i' k).apps =
        if i.config.enableAppSchema then payloads k (appSignals.filterMap (some ∘ appEntry)) else [] := by
      rw [List.filterMap_eq_map]
      rfl
    rw [← happs] at happ
    exact happ
  · change bestMatch (evidence upper i' k).found = c.best
    rcases c.best_kept with ⟨-, hb⟩ | ⟨m, hm, hb⟩
    · rw [hb, List.getLast?_eq_none_iff] at hlast
      rw [hb, hlast]
      rfl
    · rw [hb] at hlast
      obtain ⟨front, hfront⟩ := List.getLast?_eq_some_iff.1 hlast
      rw [hb, hfront]
      refine maxBy_concat fun y hy => hm.2 y (hsame.found.mem_iff.1 ?_)
      rw [hfront]
      exact List.mem_append_left _ hy
  · exact if_pos (hsame.targets.trans c.lookups_perm.symm)
  · exact hunique

end

end Schema
