import NosqlBuddy.Schema.RelationshipOrder

/-!
# When the edges do not depend on the order

The edges of the fields are a map from their keys (`buildEdges_eq`), and those through join collections are made of them. So the edges
of two orders are the same when they are for each field (`sameEdges_iff`), which `order_free_iff` puts in terms of the evidence.
-/

namespace Schema
open Entries Binary64

/-! ## The edges of the fields -/

/-- The edges with the keys of their fields. -/
def keyed (upper : Char → List Char) (hash : HashOrder) (i : Inputs) : List (Key × RelationshipEdge) :=
  (i.candidates upper).filterMap fun x => (buildEdge hash i.config x.2 []).1.map fun edge => (x.1, edge)

theorem ordered_keyed (upper : Char → List Char) (hash : HashOrder) (i : Inputs) : Ordered (keyed upper hash i) :=
  Ordered.filterMap (g := fun c => (buildEdge hash i.config c []).1) (ordered_candidates upper i)

theorem buildEdge_seen {hash : HashOrder} {config : RelationshipConfig} {cand : Candidate} {seen : Seen}
    (h : ∀ s ∈ seen, (s.1, s.2.1) ≠ (cand.fromCollection, cand.fromField)) :
    (buildEdge hash config cand seen).1 = (buildEdge hash config cand []).1 ∧
      ∀ s ∈ (buildEdge hash config cand seen).2, s ∈ seen ∨ (s.1, s.2.1) = (cand.fromCollection, cand.fromField) := by
  rw [buildEdge, buildEdge]
  dsimp only
  split
  · exact ⟨rfl, fun s hs => .inl hs⟩
  · split
    · exact ⟨rfl, fun s hs => .inl hs⟩
    · next target toField _ =>
      have hnot : (cand.fromCollection, cand.fromField, target, toField) ∉ seen := fun hmem => h _ hmem rfl
      have hkey : ∀ s ∈ (cand.fromCollection, cand.fromField, target, toField) :: seen,
          s ∈ seen ∨ (s.1, s.2.1) = (cand.fromCollection, cand.fromField) := by
        intro s hs
        rcases List.mem_cons.1 hs with rfl | hs
        · exact .inr rfl
        · exact .inl hs
      rw [if_neg hnot, if_neg List.not_mem_nil]
      split
      · exact ⟨rfl, hkey⟩
      · exact ⟨rfl, hkey⟩

theorem buildEdges_eq {hash : HashOrder} {config : RelationshipConfig} : ∀ {cands : CandidateMap} {seen : Seen}, Ordered cands →
    (∀ x ∈ cands, (x.2.fromCollection, x.2.fromField) = ofLex x.1) → (∀ s ∈ seen, ∀ x ∈ cands, (s.1, s.2.1) ≠ ofLex x.1) →
      buildEdges hash config cands seen =
        (cands.filterMap fun x => (buildEdge hash config x.2 []).1.map fun edge => (x.1, edge)).map Prod.snd
  | [], _, _, _, _ => rfl
  | x :: xs, seen, h, hkey, hseen => by
    obtain ⟨hx, hxs⟩ := List.pairwise_cons.1 h
    have hxkey := hkey x List.mem_cons_self
    obtain ⟨hedge, hnext⟩ := @buildEdge_seen hash config x.2 seen fun s hs => by
      rw [hxkey]
      exact hseen s hs x List.mem_cons_self
    have ih := @buildEdges_eq hash config xs (buildEdge hash config x.2 seen).2 hxs
      (fun y hy => hkey y (List.mem_cons_of_mem x hy)) fun s hs y hy => by
        rcases hnext s hs with hs | hs
        · exact hseen s hs y (List.mem_cons_of_mem x hy)
        · rw [hs, hxkey]
          exact fun heq => ne_of_lt (hx y hy) heq
    rw [buildEdges, ih, hedge]
    cases hb : (buildEdge hash config x.2 []).1 with
    | none =>
      rw [List.filterMap_cons_none (by rw [hb]; rfl)]
      rfl
    | some edge =>
      rw [List.filterMap_cons_some (by rw [hb]; rfl)]
      rfl

section
variable {upper : Char → List Char} {hash : HashOrder} {i : Inputs}

theorem buildEdges_keyed : buildEdges hash i.config (i.candidates upper) [] = (keyed upper hash i).map Prod.snd := by
  refine buildEdges_eq (ordered_candidates upper i) (fun x hx => ?_) fun s hs => nomatch hs
  have hget := get_of_mem (ordered_candidates upper i) hx
  rw [get_candidates, Evidence.candidate] at hget
  split at hget
  · rw [← Option.some.inj hget]
    rfl
  · cases hget

theorem get_keyed (k : Key) : get k (keyed upper hash i) =
    (evidence upper i k).edge k i.config ((evidence upper i k).taken (numeric upper i k) hash k) := by
  rw [keyed, get_filterMap (fun c => (buildEdge hash i.config c []).1) k (ordered_candidates upper i), get_candidates]
  exact candidate_edge (numeric upper i k) hash

theorem edge_fields {e : Evidence} {k : Key} {config : RelationshipConfig} {c : Choice e} {d : RelationshipEdge}
    (h : e.edge k config c = some d) : (d.fromCollection, d.fromField) = ofLex k ∧ d.viaCollection = none := by
  unfold Evidence.edge at h
  split at h
  · cases h
  · dsimp only at h
    split at h
    · cases h
    · obtain rfl := Option.some.inj h
      exact ⟨rfl, rfl⟩

theorem mem_edges {d : RelationshipEdge} : d ∈ (keyed upper hash i).map Prod.snd ↔
    d.viaCollection = none ∧ get (toLex (d.fromCollection, d.fromField)) (keyed upper hash i) = some d := by
  constructor
  · intro hd
    obtain ⟨⟨k, d⟩, hmem, rfl⟩ := List.mem_map.1 hd
    have hget := get_of_mem (ordered_keyed upper hash i) hmem
    have hedge := hget
    rw [get_keyed] at hedge
    obtain ⟨hkey, hvia⟩ := edge_fields hedge
    exact ⟨hvia, hkey ▸ hget⟩
  · rintro ⟨-, hget⟩
    exact List.mem_map.2 ⟨_, mem_of_get hget, rfl⟩

end

/-! ## The edges through join collections -/

theorem SameEdge.of (e : RelationshipEdge) : SameEdge e e := ⟨rfl, fun _ => Iff.rfl⟩

theorem SameEdge.symm (h : SameEdge e e') : SameEdge e' e := ⟨h.fields.symm, fun s => (h.signals s).symm⟩

theorem SameEdge.trans (h : SameEdge a b) (h' : SameEdge b c) : SameEdge a c :=
  ⟨h.fields.trans h'.fields, fun s => (h.signals s).trans (h'.signals s)⟩

theorem rel_symm : ∀ {o o' : Option RelationshipEdge}, Option.Rel SameEdge o o' → Option.Rel SameEdge o' o
  | _, _, .none => .none
  | _, _, .some h => .some h.symm

theorem rel_trans : ∀ {a b c : Option RelationshipEdge}, Option.Rel SameEdge a b → Option.Rel SameEdge b c → Option.Rel SameEdge a c
  | _, _, _, .none, .none => .none
  | _, _, _, .some h, .some h' => .some (h.trans h')

section
variable {e e' : RelationshipEdge}

theorem SameEdge.viaCollection (h : SameEdge e e') : e.viaCollection = e'.viaCollection := by
  have hfields := congrArg RelationshipEdge.viaCollection h.fields
  exact hfields

theorem SameEdge.from' (h : SameEdge e e') : (e.fromCollection, e.fromField) = (e'.fromCollection, e'.fromField) := by
  have hcoll := congrArg RelationshipEdge.fromCollection h.fields
  have hfield := congrArg RelationshipEdge.fromField h.fields
  exact Prod.ext hcoll hfield

theorem SameEdge.kind (h : SameEdge e e') : e.kind = e'.kind := by
  have hfields := congrArg RelationshipEdge.kind h.fields
  exact hfields

theorem SameEdge.toCollection (h : SameEdge e e') : e.toCollection = e'.toCollection := by
  have hfields := congrArg RelationshipEdge.toCollection h.fields
  exact hfields

end

theorem pairs_map (h : List.Forall₂ SameEdge as bs) :
    (pairs as).map (joinEdge via) = (pairs bs).map (joinEdge via) := by
  have hjoin : ∀ {a a' b b' : RelationshipEdge}, SameEdge a a' → SameEdge b b' → joinEdge via (a, b) = joinEdge via (a', b') := by
    intro a a' b b' ha hb
    have hfrom := congrArg Prod.snd ha.from'
    have hto := congrArg Prod.snd hb.from'
    simp only at hfrom hto
    simp only [joinEdge, ha.toCollection, hb.toCollection, hfrom, hto]
  induction h with
  | nil => rfl
  | @cons a b as bs hab hrest ih =>
    have hhead : as.map (fun y => joinEdge via (a, y)) = bs.map fun y => joinEdge via (b, y) := by
      clear ih
      induction hrest with
      | nil => rfl
      | cons hy _ ih => rw [List.map_cons, List.map_cons, hjoin hab hy, ih]
    rw [pairs, pairs, List.map_append, List.map_append, ih, List.map_map, List.map_map]
    exact congrArg (· ++ _) hhead

theorem joinsOf_eq (h : List.Forall₂ SameEdge as bs) (collection : String) :
    joinsOf as collection = joinsOf bs collection := by
  have hrefs : List.Forall₂ SameEdge (as.filter fun e => e.fromCollection = collection)
      (bs.filter fun e => e.fromCollection = collection) := by
    refine List.rel_filter (fun e e' he => ?_) h
    have hfrom := congrArg Prod.fst he.from'
    simp only at hfrom
    simp [hfrom]
  have htargets := List.rel_filter (p := fun e => decide (e.kind = .manyToOne)) (q := fun e => decide (e.kind = .manyToOne))
    (fun e e' he => by simp [he.kind]) hrefs
  simp only [joinsOf, hrefs.length_eq, htargets.length_eq, pairs_map htargets]

theorem joinsOf_via (h : d ∈ joinsOf as collection) :
    d.viaCollection ≠ none := by
  simp only [joinsOf] at h
  split at h
  · cases h
  · obtain ⟨pair, -, rfl⟩ := List.mem_map.1 h
    exact Option.some_ne_none collection

/-! ## All edges -/

section
variable {upper : Char → List Char} {hash hash' : HashOrder} {i i' : Inputs}

theorem mem_detect : d ∈ detectRelationships upper hash i ↔
    (d.viaCollection = none ∧ get (toLex (d.fromCollection, d.fromField)) (keyed upper hash i) = some d) ∨
      ∃ name ∈ i.names, d ∈ joinsOf ((keyed upper hash i).map Prod.snd) name := by
  rw [detectRelationships, buildEdges_keyed, List.mem_insertionSort, List.mem_append, mem_edges, detectManyToMany, List.mem_flatMap]
  simp only [Inputs.names, List.mem_map, exists_exists_and_eq_and]

theorem edge_of_sameEdges (h : ∀ d ∈ detectRelationships upper hash i, ∃ d' ∈ detectRelationships upper hash' i', SameEdge d d') {k : Key}
    {d : RelationshipEdge} (hd : get k (keyed upper hash i) = some d) : ∃ d', get k (keyed upper hash' i') = some d' ∧ SameEdge d d' := by
  have hedge := hd
  rw [get_keyed] at hedge
  obtain ⟨hkey, hvia⟩ := edge_fields hedge
  obtain ⟨d', hd', hsame⟩ := h d (mem_detect.2 (.inl ⟨hvia, hkey ▸ hd⟩))
  rcases mem_detect.1 hd' with ⟨-, hget⟩ | ⟨name, -, hjoin⟩
  · rw [← hsame.from', hkey] at hget
    exact ⟨d', hget, hsame⟩
  · exact absurd (hsame.viaCollection ▸ hvia) (joinsOf_via hjoin)

theorem sameEdges_of_keyed (hnames : ∀ n, n ∈ i.names ↔ n ∈ i'.names)
    (h : ∀ k, Option.Rel SameEdge (get k (keyed upper hash i)) (get k (keyed upper hash' i'))) :
    ∀ d ∈ detectRelationships upper hash i, ∃ d' ∈ detectRelationships upper hash' i', SameEdge d d' := by
  have hedges : List.Forall₂ SameEdge ((keyed upper hash i).map Prod.snd) ((keyed upper hash' i').map Prod.snd) :=
    List.forall₂_map_left_iff.2 (List.forall₂_map_right_iff.2
      ((forall₂_of_get (ordered_keyed upper hash i) (ordered_keyed upper hash' i') h).imp fun _ _ hxy => hxy.2))
  intro d hd
  rcases mem_detect.1 hd with ⟨hvia, hget⟩ | ⟨name, hname, hjoin⟩
  · have hrel := h (toLex (d.fromCollection, d.fromField))
    rw [hget] at hrel
    cases hget' : get (toLex (d.fromCollection, d.fromField)) (keyed upper hash' i') with
    | none => rw [hget'] at hrel; cases hrel
    | some d' =>
      rw [hget'] at hrel
      obtain ⟨hsame⟩ := hrel
      refine ⟨d', mem_detect.2 (.inl ⟨hsame.viaCollection ▸ hvia, ?_⟩), hsame⟩
      rw [← hsame.from']
      exact hget'
  · exact ⟨d, mem_detect.2 (.inr ⟨name, (hnames name).1 hname, joinsOf_eq hedges name ▸ hjoin⟩), .of d⟩

/-- **The edges are the same exactly when those of each field are.** -/
theorem sameEdges_iff (hnames : ∀ n, n ∈ i.names ↔ n ∈ i'.names) :
    SameEdges (detectRelationships upper hash i) (detectRelationships upper hash' i') ↔
      ∀ k, Option.Rel SameEdge (get k (keyed upper hash i)) (get k (keyed upper hash' i')) := by
  constructor
  · intro ⟨h, h'⟩ k
    have hback : ∀ d ∈ detectRelationships upper hash' i', ∃ d' ∈ detectRelationships upper hash i, SameEdge d d' := by
      intro d hd
      obtain ⟨d', hd', hsame⟩ := h' d hd
      exact ⟨d', hd', hsame.symm⟩
    cases hd : get k (keyed upper hash i) with
    | some d =>
      obtain ⟨d', hd', hsame⟩ := edge_of_sameEdges h hd
      rw [hd']
      exact .some hsame
    | none =>
      cases hd' : get k (keyed upper hash' i') with
      | none => exact .none
      | some d' =>
        obtain ⟨d, hd'', -⟩ := edge_of_sameEdges hback hd'
        rw [hd] at hd''
        cases hd''
  · intro h
    refine ⟨sameEdges_of_keyed hnames h, fun d' hd' => ?_⟩
    obtain ⟨d, hd, hsame⟩ := sameEdges_of_keyed (fun n => (hnames n).symm) (fun k => rel_symm (h k)) d' hd'
    exact ⟨d, hd, hsame.symm⟩

end

/-! ## The order of the inputs -/

section
variable {upper : Char → List Char} {i : Inputs}

theorem Shuffled.get_keyed (h : Shuffled i i') (hash : HashOrder) (k : Key) : get k (keyed upper hash i') =
    (evidence upper i k).edge k i.config (((evidence upper i' k).taken (numeric upper i' k) hash k).of (h.sameEvidence upper k)) := by
  rw [Schema.get_keyed, (h.sameEvidence upper k).edge_eq, h.config]

/-- Sets that give their items in the order in which they were inserted. -/
def HashOrder.inserted : HashOrder := ⟨fun _ targets => targets, fun _ _ => .refl _⟩

theorem agrees_of_orderFree (h : OrderFree upper i) (k : Key) (hdrawn : Drawn i.config (evidence upper i k)) :
    Agrees (evidence upper i k) (ofLex k).2 := by
  refine (@same_edge_iff _ k i.config (numeric upper i k)).1 (fun c c' => ?_) hdrawn
  -- the edges of both choices are those of the inputs as they are
  have hchoice : ∀ c, Option.Rel SameEdge (get k (keyed upper .inserted i)) ((evidence upper i k).edge k i.config c) := by
    intro c
    obtain ⟨i', hash, hshuffled, rfl⟩ := exists_shuffled upper i c
    rw [← hshuffled.get_keyed]
    exact (sameEdges_iff fun n => hshuffled.names.mem_iff).1 (h i' .inserted hash hshuffled) k
  exact rel_trans (rel_symm (hchoice c)) (hchoice c')

end

/-- **The edges do not depend on the order exactly when the evidence agrees** for each field that an edge is drawn for. -/
theorem order_free_iff (upper : Char → List Char) (i : Inputs) :
    OrderFree upper i ↔ ∀ k, Drawn i.config (evidence upper i k) → Agrees (evidence upper i k) (ofLex k).2 := by
  constructor
  · exact fun h k hdrawn => agrees_of_orderFree h k hdrawn
  · intro h i' hash hash' hshuffled
    refine (sameEdges_iff fun n => hshuffled.names.mem_iff).2 fun k => ?_
    rw [get_keyed, hshuffled.get_keyed]
    exact (same_edge_iff (numeric upper i k)).2 (h k) _ _

/-- Two lookups of one field, and no shapes. -/
def twoLookups : Inputs where
  shapes := []
  objectIdSignals := []
  lookupSignals := [⟨"orders", "users", "userId", "_id", 1⟩, ⟨"orders", "people", "userId", "_id", 1⟩]
  appSchemaSignals := []
  config := ⟨0, true, true, true, true, true, 0⟩
  distinct := List.nodup_nil

/-- **The first of two lookups is the target**, and which is first is open. -/
theorem two_lookups_open : ¬ OrderFree (fun c => [c.toUpper]) twoLookups := by
  intro h
  have hfree := agrees_of_orderFree h (toLex ("orders", "userId"))
  generalize he : evidence (fun c => [c.toUpper]) twoLookups (toLex ("orders", "userId")) = e at hfree
  have happs : e.apps = [] := by rw [← he]; rfl
  have hfound : e.found = [] := by rw [← he]; rfl
  have hmarks : e.marks = [] := by rw [← he]; rfl
  have hlookups : e.lookups = [("users", "_id"), ("people", "_id")] := by rw [← he]; rfl
  have hstrong : e.strong = false := by rw [Evidence.strong, happs, hfound]; rfl
  have hconfidence : fLt (e.confidence none none) twoLookups.config.confidenceThreshold = false := by
    rw [Evidence.confidence, confidenceOf, hstrong]
    exact fMin_not_lt (fMax_not_lt 0 _) (by decide)
  have hagrees := hfree ⟨.inr (.inr (.inl (by rw [hlookups]; exact List.cons_ne_nil _ _))), none, none, .inl ⟨happs, rfl⟩,
    .inl ⟨hmarks, rfl⟩, hconfidence⟩
  have hsame := hagrees.target.lookup hfound happs ("users", "_id") (by rw [hlookups]; exact List.mem_cons_self)
    ("people", "_id") (by rw [hlookups]; exact List.mem_cons_of_mem _ List.mem_cons_self)
  exact absurd hsame (by decide)

end Schema
