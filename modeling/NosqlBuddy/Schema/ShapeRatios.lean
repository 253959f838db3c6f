import Mathlib.Algebra.Order.BigOperators.Group.List
import Mathlib.Algebra.Order.Field.Basic
import NosqlBuddy.Schema.Shape

/-!
# Ratios and depths of a shape

A path leads from the documents to the values that stand there (`reach`). The node of a path that a shape has is built from
the tally of these values (`node_at`), and every node a shape has is such a node or a placeholder (`Kept.at`). A field is
counted against the documents wherever it stands, so its ratios are probabilities exactly when it is found at most once for
each document; array elements are counted against themselves, and are built at any depth. `shape_iff` is both together.
-/

namespace Schema
open Oplog Entries

/-! ## Nodes and what they should be -/

/-- The ratios of a node are probabilities that fit each other. -/
structure Probabilities (n : ShapeNode) : Prop where
  presence : 0 ≤ n.presence ∧ n.presence ≤ 1
  nullRatio : 0 ≤ n.nullRatio ∧ n.nullRatio ≤ 1
  types : ∀ t ∈ n.types, 0 ≤ t.2 ∧ t.2 ≤ 1
  sum : (n.types.map Prod.snd).sum = n.presence
  null : n.nullRatio = (get "null" n.types).getD 0

/-- The node `m` lies `k` levels below the node `n`. -/
inductive ShapeNode.At : ShapeNode → Nat → ShapeNode → Prop
  | self (n : ShapeNode) : At n 0 n
  | child {n c m : ShapeNode} {k : Nat} : c ∈ n.children → At c k m → At n (k + 1) m
  | item {n c m : ShapeNode} {k : Nat} : n.arrayItem = some c → At c k m → At n (k + 1) m

/-- Every node has probabilities and lies within the depth cap. -/
def Sound (root : ShapeNode) : Prop := ∀ k n, root.At k n → Probabilities n ∧ k ≤ maxShapeDepth

variable {c n : ShapeNode} {k : Nat}

theorem ShapeNode.At.append (h : n.At k c) (hm : c.At l m) : n.At (k + l) m := by
  induction h with
  | self => rwa [Nat.zero_add]
  | child hc _ ih =>
    rw [Nat.add_right_comm]
    exact .child hc (ih hm)
  | item hc _ ih =>
    rw [Nat.add_right_comm]
    exact .item hc (ih hm)

/-! ## One node -/

theorem ratio_eq (count denominator : Nat) : ratio count denominator = (count : ℚ) / denominator := by
  rw [ratio]
  split
  · rfl
  · next h =>
    rw [Nat.eq_zero_of_not_pos h, Nat.cast_zero, div_zero]

theorem probabilities_placeholder (path name : String) : Probabilities (placeholderNode path name) where
  presence := ⟨zero_le_one, le_refl _⟩
  nullRatio := ⟨le_refl _, zero_le_one⟩
  types t ht := by
    rw [placeholderNode, List.mem_singleton] at ht
    rw [ht]
    exact ⟨zero_le_one, le_refl _⟩
  sum := by simp [placeholderNode]
  null := rfl

theorem div_bounds {count denominator : Nat} (h : count ≤ denominator) :
    (0 : ℚ) ≤ (count : ℚ) / denominator ∧ (count : ℚ) / denominator ≤ 1 :=
  ⟨div_nonneg (Nat.cast_nonneg _) (Nat.cast_nonneg _), div_le_one_of_le₀ (Nat.cast_le.2 h) (Nat.cast_nonneg _)⟩

theorem sum_div (xs : List (String × Nat)) (d : ℚ) :
    ((xs.map fun e => (e.1, (e.2 : ℚ) / d)).map Prod.snd).sum = ((xs.map Prod.snd).sum : ℚ) / d := by
  induction xs with
  | nil => simp
  | cons x xs ih =>
    simp only [List.map_cons, List.sum_cons, ih, Nat.cast_add, add_div]

section
variable {path name : String} {denominator total depth : Nat} {acc : PathAccumulator}

theorem build_types : (buildShapeNode path name denominator total depth acc).types =
    acc.typeCounts.map fun e => (e.1, (e.2 : ℚ) / denominator) := by
  cases acc
  rfl

theorem build_presence : (buildShapeNode path name denominator total depth acc).presence = ratio acc.presentCount denominator := by
  cases acc
  rfl

theorem build_nullRatio : (buildShapeNode path name denominator total depth acc).nullRatio = ratio acc.nullCount denominator := by
  cases acc
  rfl

theorem build_arrayItem : (buildShapeNode path name denominator total depth acc).arrayItem =
    buildItem (path ++ "[]") (name ++ "[]") total (depth + 1) acc.arrayElement := by
  cases acc
  rfl

/-- The node of a field, or its placeholder. -/
def fieldNode (path : String) (total depth : Nat) (field : String × PathAccumulator) : ShapeNode :=
  if depth + 1 < maxShapeDepth then buildShapeNode (childPath path field.1) field.1 total total (depth + 1) field.2
  else placeholderNode (childPath path field.1) field.1

theorem buildChildren_eq (children : List (String × PathAccumulator)) :
    buildChildren path total depth children = children.map (fieldNode path total depth) := by
  induction children with
  | nil => rfl
  | cons x xs ih =>
    obtain ⟨key, child⟩ := x
    rw [buildChildren, ih]
    rfl

theorem mem_build_children : c ∈ (buildShapeNode path name denominator total depth acc).children ↔
    (∃ x ∈ acc.children, c = fieldNode path total depth x) ∨
      (depth = maxShapeDepth ∧ ("object" ∈ acc.typeCounts.map Prod.fst ∨ "array" ∈ acc.typeCounts.map Prod.fst)) ∧
        c = placeholderNode (path ++ ".…") "…" := by
  obtain ⟨typeCounts, presentCount, nullCount, valueCounts, children, arrayElement⟩ := acc
  rw [buildShapeNode, buildChildren_eq, List.mem_append, List.mem_insertionSort, List.mem_map]
  refine or_congr (exists_congr fun x => and_congr_right fun _ => eq_comm) ?_
  split
  · next h => rw [List.mem_singleton, and_iff_right h]
  · next h => exact iff_of_false List.not_mem_nil fun hc => h hc.1

theorem probabilities_build (hc : Counted acc) (h : acc.presentCount ≤ denominator) :
    Probabilities (buildShapeNode path name denominator total depth acc) := by
  have hle : ∀ e ∈ acc.typeCounts, e.2 ≤ denominator := fun e he =>
    ((List.single_le_sum (fun _ _ => Nat.zero_le _) _ (List.mem_map_of_mem he)).trans_eq hc.sum).trans h
  have hnull : acc.nullCount ≤ denominator := by
    rw [hc.null]
    cases hget : get "null" acc.typeCounts with
    | none => exact Nat.zero_le _
    | some n => exact hle _ (mem_of_get hget)
  constructor
  · rw [build_presence, ratio_eq]
    exact div_bounds h
  · rw [build_nullRatio, ratio_eq]
    exact div_bounds hnull
  · intro t ht
    rw [build_types] at ht
    obtain ⟨e, he, rfl⟩ := List.mem_map.1 ht
    exact div_bounds (hle e he)
  · rw [build_types, build_presence, sum_div, hc.sum, ratio_eq]
  · rw [build_types, build_nullRatio, ratio_eq, hc.null, get_map fun n : Nat => (n : ℚ) / denominator]
    cases get "null" acc.typeCounts <;> simp

theorem presentCount_le (hd : 0 < denominator) (h : Probabilities (buildShapeNode path name denominator total depth acc)) :
    acc.presentCount ≤ denominator := by
  have hle := h.presence.2
  rw [build_presence, ratio_eq, div_le_one (Nat.cast_pos.2 hd)] at hle
  exact Nat.cast_le.1 hle

end

/-! ## Paths -/

/-- The values at the end of a path, over all documents. -/
def reach (docs : List Document) (p : List PathStep) : List Bson :=
  p.foldl (fun vs s => vs.flatMap s.into) (docs.map .document)

theorem length_concat (p : List PathStep) (s : PathStep) : (p ++ [s]).length = p.length + 1 := List.length_append

theorem reach_concat (docs : List Document) (p : List PathStep) (s : PathStep) :
    reach docs (p ++ [s]) = (reach docs p).flatMap s.into := List.foldl_append

theorem length_reach_nil (docs : List Document) : (reach docs []).length = docs.length := List.length_map _

theorem docs_pos : ∀ {p : List PathStep}, reach docs p ≠ [] → 0 < docs.length := by
  intro p
  induction p using List.reverseRecOn with
  | nil =>
    intro h
    rw [← length_reach_nil]
    exact List.length_pos_of_ne_nil h
  | append_singleton p s ih =>
    intro h
    refine ih fun hnil => h ?_
    rw [reach_concat, hnil]
    rfl

/-- An object or an array. -/
def isContainer : Bson → Bool
  | .document _ => true
  | .array _ => true
  | _ => false

/-- A field is found at most once for each document, and no array five levels deep has objects or arrays as elements. -/
structure Fits (docs : List Document) : Prop where
  fields (p : List PathStep) (name : String) : p.length + 1 < maxShapeDepth → (reach docs (p ++ [.field name])).length ≤ docs.length
  arrays (p : List PathStep) : p.length + 1 = maxShapeDepth → ∀ v ∈ reach docs (p ++ [.element]), isContainer v = false

/-! ## The root -/

theorem walkFields_eq_foldl (fields : List (String × Bson)) (root : PathAccumulator) :
    walkFields 0 fields root = fields.foldl (fun root field => walkValue field.2 field.1 root 1) root := by
  induction fields generalizing root with
  | nil => rfl
  | cons field fields ih =>
    obtain ⟨key, value⟩ := field
    rw [walkFields, if_pos (by decide), ih]
    rfl

theorem walkDocument_eq (doc : Document) (root : PathAccumulator) : walkDocument doc root = accumulateValue 0 (.document doc) root := by
  rw [accumulateValue_document, walkFields_eq_foldl]
  rfl

theorem walkAll_eq (docs : List Document) : walkAll docs = tally 0 (reach docs []) := by
  show docs.foldl (fun root doc => walkDocument doc root) {} = (docs.map Bson.document).foldl _ {}
  rw [List.foldl_map]
  simp only [walkDocument_eq]

/-! ## The node of a path -/

section
variable (docs : List Document)

/-- The node that is built for a path. -/
def nodeOf (path name : String) (denominator : Nat) (p : List PathStep) : ShapeNode :=
  buildShapeNode path name denominator docs.length p.length (tally p.length (reach docs p))

theorem rootNode_eq : rootNode docs = nodeOf docs "" "" docs.length [] := by
  rw [rootNode, walkAll_eq]
  rfl

theorem nodeOf_arrayItem (path name : String) (denominator : Nat) (p : List PathStep) :
    (nodeOf docs path name denominator p).arrayItem = if (reach docs p).any isArray then
      some (nodeOf docs (path ++ "[]") (name ++ "[]") (reach docs (p ++ [.element])).length (p ++ [.element])) else none := by
  rw [nodeOf, build_arrayItem, tally_arrayElement]
  split
  · rw [buildItem, tally_presentCount, nodeOf, reach_concat, List.length_append]
    rfl
  · rfl

theorem mem_nodeOf_children (hp : p.length < maxShapeDepth) :
    c ∈ (nodeOf docs path name denominator p).children ↔ ∃ key, reach docs (p ++ [.field key]) ≠ [] ∧
      c = if p.length + 1 < maxShapeDepth then nodeOf docs (childPath path key) key docs.length (p ++ [.field key])
        else placeholderNode (childPath path key) key := by
  obtain ⟨hordered, hget⟩ := tally_children hp (reach docs p)
  rw [nodeOf, mem_build_children, or_iff_left fun h => absurd h.1.1 (Nat.ne_of_lt hp)]
  constructor
  · rintro ⟨⟨key, child⟩, hmem, rfl⟩
    have hchild := (mem_iff_get hordered).1 hmem
    rw [hget key, ← reach_concat, grown] at hchild
    split at hchild
    · cases hchild
    · next hne =>
      obtain rfl := Option.some.inj hchild
      refine ⟨key, hne, ?_⟩
      rw [nodeOf, List.length_append]
      rfl
  · rintro ⟨key, hne, rfl⟩
    refine ⟨(key, tally (p.length + 1) (reach docs (p ++ [.field key]))), ?_, ?_⟩
    · rw [mem_iff_get hordered, hget key, ← reach_concat, grown, if_neg hne]
      rfl
    · rw [nodeOf, List.length_append]
      rfl

theorem typeName_of_container : isContainer v ↔ bsonTypeName v = "object" ∨ bsonTypeName v = "array" := by
  cases v <;> simp [isContainer, bsonTypeName]

theorem mem_nodeOf_children_capped (hp : p.length = maxShapeDepth) :
    c ∈ (nodeOf docs path name denominator p).children ↔
      (∃ v ∈ reach docs p, isContainer v) ∧ c = placeholderNode (path ++ ".…") "…" := by
  have hcapped := @tally_children_capped p.length (by omega) (reach docs p)
  rw [nodeOf, mem_build_children, hcapped, tally_type_iff, tally_type_iff, and_iff_right hp]
  simp only [List.not_mem_nil, false_and, exists_false, false_or, typeName_of_container]
  refine and_congr_left fun _ => ?_
  rw [← exists_or]
  exact exists_congr fun v => by rw [and_or_left]

/-! ## A shape that fits -/

/-- The nodes of a shape that fits, with their depths. -/
inductive Kept : Nat → ShapeNode → Prop
  | node {p : List PathStep} (path name : String) {denominator : Nat} :
      (p.length < maxShapeDepth ∨ p.length = maxShapeDepth ∧ ∃ q, p = q ++ [.element]) →
      (reach docs p).length ≤ denominator → Kept p.length (nodeOf docs path name denominator p)
  | placeholder {k : Nat} (path name : String) : k ≤ maxShapeDepth → Kept k (placeholderNode path name)

variable {docs}

theorem Kept.sound (h : Kept docs k n) : Probabilities n ∧ k ≤ maxShapeDepth := by
  cases h with
  | node path name hp hlen =>
    refine ⟨probabilities_build (counted_tally _ _) (by rwa [tally_presentCount]), ?_⟩
    rcases hp with hp | hp
    · exact Nat.le_of_lt hp
    · exact Nat.le_of_eq hp.1
  | placeholder path name hk => exact ⟨probabilities_placeholder path name, hk⟩

theorem Kept.child (hfits : Fits docs) (h : Kept docs k n) (hc : c ∈ n.children) :
    Kept docs (k + 1) c := by
  cases h with
  | placeholder path name hk => exact absurd hc List.not_mem_nil
  | @node p path name den hp hlen =>
    rcases hp with hp | ⟨hp, q, hq⟩
    · obtain ⟨key, -, rfl⟩ := (mem_nodeOf_children docs hp).1 hc
      split
      · next hlt =>
        have hfield := @Kept.node docs (p ++ [.field key]) (childPath path key) key _
          (.inl (by rwa [length_concat])) (hfits.fields p key hlt)
        rwa [length_concat] at hfield
      · exact .placeholder _ _ hp
    · obtain ⟨⟨v, hv, hcontainer⟩, -⟩ := (mem_nodeOf_children_capped docs hp).1 hc
      subst hq
      rw [length_concat] at hp
      rw [hfits.arrays q hp v hv] at hcontainer
      cases hcontainer

theorem Kept.item (hfits : Fits docs) (h : Kept docs k n) (hc : n.arrayItem = some c) :
    Kept docs (k + 1) c := by
  cases h with
  | placeholder path name hk => cases hc
  | @node p path name den hp hlen =>
    rw [nodeOf_arrayItem] at hc
    split at hc
    · next harray =>
      obtain rfl := Option.some.inj hc
      rcases hp with hp | ⟨hp, q, hq⟩
      · have hlong := length_concat p .element
        have hitem := @Kept.node docs (p ++ [.element]) (path ++ "[]") (name ++ "[]") _ (by
          rcases Nat.lt_or_ge (p.length + 1) maxShapeDepth with hlt | hge
          · exact .inl (hlong ▸ hlt)
          · exact .inr ⟨by omega, p, rfl⟩) (Nat.le_refl _)
        rwa [hlong] at hitem
      · obtain ⟨v, hv, hisArray⟩ := List.any_eq_true.1 harray
        subst hq
        rw [length_concat] at hp
        have hnone := hfits.arrays q hp v hv
        cases v <;> cases hisArray
        cases hnone
    · cases hc

theorem Kept.at (hfits : Fits docs) (h : Kept docs k n) (hm : n.At l m) : Kept docs (k + l) m := by
  induction hm generalizing k with
  | self => exact h
  | child hc _ ih =>
    rw [← Nat.add_assoc, Nat.add_right_comm]
    exact ih (h.child hfits hc)
  | item hc _ ih =>
    rw [← Nat.add_assoc, Nat.add_right_comm]
    exact ih (h.item hfits hc)

/-! ## The nodes that a shape has -/

theorem node_at : ∀ {p : List PathStep}, reach docs p ≠ [] → (p.length < maxShapeDepth ∨ p.length = maxShapeDepth ∧ ∃ q, p = q ++ [.element]) →
    ∃ path name den, (rootNode docs).At p.length (nodeOf docs path name den p) ∧ (∀ q key, p = q ++ [.field key] → den = docs.length) := by
  intro p
  induction p using List.reverseRecOn with
  | nil =>
    intro _ _
    exact ⟨"", "", docs.length, rootNode_eq docs ▸ .self _, fun q key h => absurd h.symm (List.append_ne_nil_of_right_ne_nil q (List.cons_ne_nil _ _))⟩
  | append_singleton p s ih =>
    intro hne hlen
    have hbefore : reach docs p ≠ [] := fun hnil => hne (by rw [reach_concat, hnil]; rfl)
    have hlong := length_concat p s
    have hshort : p.length < maxShapeDepth := by
      rcases hlen with h | ⟨h, -⟩ <;> omega
    obtain ⟨path, name, den, hat, -⟩ := ih hbefore (.inl hshort)
    rw [hlong]
    cases s with
    | field key =>
      have hlt : p.length + 1 < maxShapeDepth := by
        rcases hlen with h | ⟨-, q, hq⟩
        · omega
        · cases (List.append_inj' hq rfl).2
      have hchild := (@mem_nodeOf_children _ docs path name den _ hshort).2 ⟨key, hne, rfl⟩
      rw [if_pos hlt] at hchild
      exact ⟨_, _, _, hat.append (.child hchild (.self _)), fun _ _ _ => rfl⟩
    | element =>
      have harray : (reach docs p).any isArray := by
        by_contra hnone
        exact hne (by rw [reach_concat, flatMap_element_of_not_any hnone])
      have hitem := nodeOf_arrayItem docs path name den p
      rw [if_pos harray] at hitem
      exact ⟨_, _, _, hat.append (.item hitem (.self _)), fun q key h => nomatch (List.append_inj' h rfl).2⟩

end

/-- **The ratios of a shape are probabilities and its nodes within the cap exactly when each field is found at most once for each
document and no array at the fifth level holds objects or arrays.** -/
theorem shape_iff (database collection : String) (kind : CollectionKind) (documentCount : Option Nat) (docs : List Document)
    (indexes : List IndexInfo) :
    Sound (computeCollectionShape database collection kind documentCount docs indexes).root ↔ Fits docs := by
  constructor
  · intro h
    refine ⟨fun p name hp => ?_, fun p hp v hv => ?_⟩
    · by_cases hne : reach docs (p ++ [.field name]) = []
      · rw [hne]
        exact Nat.zero_le _
      obtain ⟨path, n, den, hat, hden⟩ := node_at hne (.inl (by rwa [length_concat]))
      have hprob := (h _ _ hat).1
      rw [hden p name rfl] at hprob
      have hle := presentCount_le (docs_pos hne) hprob
      rwa [tally_presentCount] at hle
    · rw [← Bool.not_eq_true]
      intro hcontainer
      have hlong : (p ++ [PathStep.element]).length = maxShapeDepth := by rw [length_concat, hp]
      obtain ⟨path, n, den, hat, -⟩ := node_at (List.ne_nil_of_mem hv) (.inr ⟨hlong, p, rfl⟩)
      have hchild := (@mem_nodeOf_children_capped _ docs path n den _ hlong).2
        ⟨⟨v, hv, hcontainer⟩, rfl⟩
      have hdeep := (h _ _ (hat.append (.child hchild (.self _)))).2
      omega
  · intro hfits k n hat
    have hroot : Kept docs 0 (rootNode docs) := by
      rw [rootNode_eq]
      exact .node (p := []) "" "" (.inl (by decide)) (Nat.le_of_eq (length_reach_nil docs))
    have hkept := (hroot.at hfits hat).sound
    rwa [Nat.zero_add] at hkept

/-- An order with two lines that both have a note: the note is found twice for one document. -/
def twoLines : Document :=
  [("items", .array [.document [("note", .null)], .document [("note", .null)]])]

/-- In the shape of an order with two lines the presence of a field of a line is 2. -/
theorem twoLines_unsound : ¬ Sound (computeCollectionShape "shop" "orders" .collection none [twoLines] []).root := by
  intro h
  have hreach : reach [twoLines] [.field "items", .element, .field "note"] = [.null, .null] := rfl
  have hne : reach [twoLines] [.field "items", .element, .field "note"] ≠ [] := hreach ▸ List.cons_ne_nil _ _
  obtain ⟨path, name, den, hat, hden⟩ := node_at hne (.inl (by decide))
  have hprob := (h _ _ hat).1
  rw [hden [.field "items", .element] "note" rfl] at hprob
  have hle := presentCount_le (by decide) hprob
  rw [tally_presentCount, hreach] at hle
  exact absurd hle (by decide)

end Schema
