import NosqlBuddy.Mongo.Meaning
import NosqlBuddy.Vqb.Builder

/-!
# A filter opened in the builder and built again

`reopen` is `to_filter` after `from_filter` (mongo/vqb.rs:67, :386). A group is built from what becomes of its filters
(`reopen_group`), any other filter from what becomes of its entries (`reopen_entries`); what is not represented becomes the
empty filter and is left out.
-/

namespace Vqb

open Mongo (Value)
open Mongo.Value

section
variable (today : ℤ) (reader : JsonReader)

def reopen (v : Value) : Except VqbError Value := buildFilter today reader (fromFilter v)

/-- An entry that is no group, on its own. -/
def reopenEntry (k : String) (v : Value) : Except VqbError Value :=
  match entryCondition k v with
  | some node => buildFilter today reader node
  | none => .ok emptyFilter

end

variable {today : ℤ} {reader : JsonReader}

theorem buildFilter_group (c : VqbCombinator) (nodes : List VqbNode) :
    buildFilter today reader (.group c nodes) = groupFilter c (buildAll today reader nodes) := rfl

theorem buildFilter_condition (field operator : String) (value : Option Value) (enabled : Bool) :
    buildFilter today reader (.condition field operator value enabled) =
      if !enabled || isBlank field then .ok emptyFilter else buildCondition today reader field operator value := rfl

theorem buildAll_cons (node : VqbNode) (nodes : List VqbNode) :
    buildAll today reader (node :: nodes) = buildFilter today reader node :: buildAll today reader nodes := rfl

theorem nodesOf_cons (v : Value) (vs : List Value) : nodesOf (v :: vs) = (fromFilterValue v).toList ++ nodesOf vs := rfl

variable {fs : List (String × Value)}

theorem fromFilterValue_group (h : firstGroup (arrayNodes fs) = some group) : fromFilterValue (.doc fs) = groupNode group.1 group.2 := by
  unfold fromFilterValue
  rw [h]

theorem fromFilterValue_flat (h : firstGroup (arrayNodes fs) = none) :
    fromFilterValue (.doc fs) = conditionsNode (fs.filterMap fun f => entryCondition f.1 f.2) := by
  unfold fromFilterValue
  rw [h]

theorem buildAll_eq : ∀ nodes : List VqbNode, buildAll today reader nodes = nodes.map (buildFilter today reader)
  | [] => rfl
  | node :: nodes => by rw [buildAll_cons, buildAll_eq nodes, List.map_cons]

theorem nodesOf_eq (vs : List Value) : nodesOf vs = vs.filterMap fromFilterValue := by
  induction vs with
  | nil => rfl
  | cons v vs ih =>
    rw [nodesOf_cons, ih, List.filterMap_cons]
    cases fromFilterValue v <;> rfl

/-! ## Groups -/

theorem groupFilter_filter (c : VqbCombinator) (rs : List (Except VqbError Value)) :
    groupFilter c (rs.filter keepPart) = groupFilter c rs := by
  have herror : ∀ rs : List (Except VqbError Value), firstError (rs.filter keepPart) = firstError rs := by
    intro rs
    induction rs with
    | nil => rfl
    | cons r rs ih =>
      rw [List.filter_cons]
      cases r with
      | error e => rfl
      | ok v =>
        rw [firstError]
        split_ifs
        · rw [firstError, ih]
        · exact ih
  rw [groupFilter, groupFilter, herror, List.filter_filter, funext fun r => Bool.and_self (keepPart r)]

theorem buildFilter_defaultRoot : buildFilter today reader .defaultRoot = .ok emptyFilter := by
  have hblank : isBlank "" = true := by decide
  rw [VqbNode.defaultRoot, buildFilter_group, buildAll_cons, buildFilter_condition, hblank]
  rfl

theorem reopen_none (h : fromFilterValue v = none) : reopen today reader v = .ok emptyFilter := by
  rw [reopen, fromFilter, h, Option.getD_none, buildFilter_defaultRoot]

theorem reopen_some (h : fromFilterValue v = some node) :
    reopen today reader v = buildFilter today reader node := by
  rw [reopen, fromFilter, h, Option.getD_some]

theorem keep_nodesOf (vs : List Value) : ((nodesOf vs).map (buildFilter today reader)).filter keepPart =
    (vs.map (reopen today reader)).filter keepPart := by
  rw [nodesOf_eq]
  induction vs with
  | nil => rfl
  | cons v vs ih =>
    rw [List.filterMap_cons, List.map_cons, List.filter_cons]
    cases hv : fromFilterValue v with
    | none =>
      rw [reopen_none hv, ih]
      rfl
    | some node => rw [reopen_some hv, List.map_cons, List.filter_cons, ih]

theorem groupFilter_nodesOf (c : VqbCombinator) (vs : List Value) :
    groupFilter c (buildAll today reader (nodesOf vs)) = groupFilter c (vs.map (reopen today reader)) := by
  rw [buildAll_eq, ← groupFilter_filter, keep_nodesOf, groupFilter_filter]

/-- The arrays among the entries. -/
def arrayOf : Value → Option (List Value)
  | .arr vs => some vs
  | _ => none

/-- The group that a filter is opened as: the first of the three, whatever stands beside it. -/
def groupOf (fs : List (String × Value)) : Option (VqbCombinator × List Value) :=
  [VqbCombinator.and, .or, .nor].findSome? fun c =>
    ((fs.filterMap fun f => (arrayOf f.2).map (Prod.mk f.1)).lookup c.asMongoOp).map (Prod.mk c)

theorem arrayNodes_eq (fs : List (String × Value)) : arrayNodes fs =
    (fs.filterMap fun f => (arrayOf f.2).map (Prod.mk f.1)).map fun f => (f.1, nodesOf f.2) := by
  induction fs with
  | nil => rfl
  | cons f fs ih =>
    obtain ⟨k, v⟩ := f
    rw [List.filterMap_cons]
    cases v with
    | arr vs => rw [arrayNodes, ih]; rfl
    | _ => rw [arrayNodes, ih]; rfl; simp

theorem lookup_map {α β : Type} (g : α → β) (k : String) : ∀ fs : List (String × α),
    (fs.map fun f => (f.1, g f.2)).lookup k = (fs.lookup k).map g
  | [] => rfl
  | f :: fs => by
    rw [List.map_cons, List.lookup_cons, List.lookup_cons, lookup_map g k fs]
    cases k == f.1 <;> rfl

theorem firstGroup_eq (fs : List (String × Value)) :
    firstGroup (arrayNodes fs) = (groupOf fs).map fun g => (g.1, nodesOf g.2) := by
  rw [firstGroup, groupOf, arrayNodes_eq]
  simp only [lookup_map, List.findSome?_cons, List.findSome?_nil]
  cases List.lookup VqbCombinator.and.asMongoOp (fs.filterMap fun f => (arrayOf f.2).map (Prod.mk f.1)) <;>
  cases List.lookup VqbCombinator.or.asMongoOp (fs.filterMap fun f => (arrayOf f.2).map (Prod.mk f.1)) <;>
  cases List.lookup VqbCombinator.nor.asMongoOp (fs.filterMap fun f => (arrayOf f.2).map (Prod.mk f.1)) <;> rfl

variable {c : VqbCombinator}

/-- **A group is built from what becomes of its filters.** -/
theorem reopen_group (h : groupOf fs = some (c, vs)) :
    reopen today reader (.doc fs) = groupFilter c (vs.map (reopen today reader)) := by
  have hfirst : firstGroup (arrayNodes fs) = some (c, nodesOf vs) := by rw [firstGroup_eq, h]; rfl
  rw [← groupFilter_nodesOf]
  cases hn : nodesOf vs with
  | nil =>
    have hnone : fromFilterValue (.doc fs) = none := by
      rw [fromFilterValue_group hfirst, hn]
      rfl
    rw [reopen_none hnone]
    rfl
  | cons node nodes =>
    have hsome : fromFilterValue (.doc fs) = some (.group c (node :: nodes)) := by
      rw [fromFilterValue_group hfirst, hn]
      rfl
    rw [reopen_some hsome, buildFilter_group]

theorem firstError_none (h : firstError rs = none) : ∃ gs : List Value, rs = gs.map .ok := by
  induction rs with
  | nil => exact ⟨[], rfl⟩
  | cons r rs ih =>
    cases r with
    | error e => cases h
    | ok v =>
      obtain ⟨gs, rfl⟩ := ih h
      exact ⟨v :: gs, rfl⟩

theorem firstError_map (gs : List Value) : firstError (gs.map .ok) = none := by
  induction gs with
  | nil => rfl
  | cons g gs ih => exact ih

theorem keepPart_ok (v : Value) : keepPart (.ok v) = decide (v ≠ emptyFilter) := by
  by_cases hv : v = emptyFilter
  · rw [hv]
    rfl
  · rw [decide_eq_true hv]
    unfold keepPart
    split
    · next h => exact absurd (Except.ok.inj h) hv
    · rfl

theorem parts_map (gs : List Value) :
    (((gs.map Except.ok : List (Except VqbError Value)).filter keepPart).filterMap Except.toOption) =
      gs.filter fun g => decide (g ≠ emptyFilter) := by
  induction gs with
  | nil => rfl
  | cons g gs ih =>
    rw [List.map_cons, List.filter_cons, List.filter_cons, keepPart_ok]
    split_ifs
    · rw [List.filterMap_cons, ih]
      rfl
    · exact ih

variable {g : Value}

theorem groupFilter_ok :
    groupFilter c rs = .ok g ↔
      ∃ gs : List Value, rs = gs.map .ok ∧ g = partsFilter c (gs.filter fun g => decide (g ≠ emptyFilter)) := by
  constructor
  · intro h
    rw [groupFilter] at h
    cases he : firstError rs with
    | some e =>
      rw [he] at h
      cases h
    | none =>
      obtain ⟨gs, rfl⟩ := firstError_none he
      rw [he] at h
      dsimp only at h
      rw [parts_map] at h
      exact ⟨gs, rfl, (Except.ok.inj h).symm⟩
  · rintro ⟨gs, rfl, rfl⟩
    rw [groupFilter, firstError_map]
    dsimp only
    rw [parts_map]

theorem partsFilter_ne_empty : partsFilter c parts ≠ emptyFilter ↔ parts ≠ [] := by
  cases parts with
  | nil => simp [partsFilter]
  | cons p parts => simp [partsFilter, single, emptyFilter]

theorem matches_partsFilter_and {D : Type} {M : Mongo.Meaning D} {d : D} {gs : List Value} :
    Mongo.Matches M (partsFilter .and (gs.filter fun g => decide (g ≠ emptyFilter))) d ↔ ∀ g ∈ gs, Mongo.Matches M g d := by
  have hparts : ∀ parts : List Value, Mongo.Matches M (partsFilter .and parts) d ↔ ∀ g ∈ parts, Mongo.Matches M g d := by
    intro parts
    cases parts with
    | nil => exact iff_of_true Mongo.matches_empty fun g hg => absurd hg List.not_mem_nil
    | cons p parts => exact Mongo.matches_and
  rw [hparts]
  constructor
  · intro h g hg
    by_cases he : g = emptyFilter
    · rw [he]
      exact Mongo.matches_empty
    · exact h g (List.mem_filter.2 ⟨hg, decide_eq_true he⟩)
  · exact fun h g hg => h g (List.mem_filter.1 hg).1

/-! ## Entries -/

/-- A filter that says what all of the nodes say, and is empty when none says anything. -/
def Conjoins (today : ℤ) (reader : JsonReader) (nodes : List VqbNode) (g : Value) : Prop :=
  (∀ n ∈ nodes, ∃ x, buildFilter today reader n = .ok x) ∧
  (g ≠ emptyFilter ↔ ∃ n ∈ nodes, ∃ x, buildFilter today reader n = .ok x ∧ x ≠ emptyFilter) ∧
  ∀ {D : Type} (M : Mongo.Meaning D) (d : D),
    Mongo.Matches M g d ↔ ∀ n ∈ nodes, ∀ x, buildFilter today reader n = .ok x → Mongo.Matches M x d

theorem group_conjoins {nodes : List VqbNode} (h : buildFilter today reader (.group .and nodes) = .ok g) :
    Conjoins today reader nodes g := by
  rw [buildFilter_group, buildAll_eq] at h
  obtain ⟨gs, hgs, rfl⟩ := groupFilter_ok.1 h
  have hbuilt : ∀ {x}, x ∈ gs ↔ ∃ n ∈ nodes, buildFilter today reader n = .ok x := by
    intro x
    have hmem : .ok x ∈ nodes.map (buildFilter today reader) ↔ _ := List.mem_map
    rw [hgs, List.mem_map_of_injective fun a b => Except.ok.inj] at hmem
    exact hmem
  refine ⟨fun n hn => ?_, ?_, fun M d => ?_⟩
  · have hmem : buildFilter today reader n ∈ nodes.map (buildFilter today reader) := List.mem_map_of_mem hn
    rw [hgs] at hmem
    obtain ⟨x, -, hx⟩ := List.mem_map.1 hmem
    exact ⟨x, hx.symm⟩
  · rw [partsFilter_ne_empty, Ne, List.filter_eq_nil_iff]
    constructor
    · intro hne
      by_contra hnone
      refine hne fun x hx hkeep => hnone ?_
      obtain ⟨n, hn, hb⟩ := hbuilt.1 hx
      exact ⟨n, hn, x, hb, of_decide_eq_true hkeep⟩
    · rintro ⟨n, hn, x, hb, hx⟩ hall
      exact hall x (hbuilt.2 ⟨n, hn, hb⟩) (decide_eq_true hx)
  · rw [matches_partsFilter_and]
    constructor
    · intro hall n hn x hb
      exact hall x (hbuilt.2 ⟨n, hn, hb⟩)
    · intro hall x hx
      obtain ⟨n, hn, hb⟩ := hbuilt.1 hx
      exact hall n hn x hb

theorem conditionsNode_conjoins (h : buildFilter today reader ((conditionsNode nodes).getD .defaultRoot) = .ok g) : Conjoins today reader nodes g := by
  cases nodes with
  | nil =>
    rw [conditionsNode, Option.getD_none, buildFilter_defaultRoot] at h
    cases h
    refine ⟨fun n hn => absurd hn List.not_mem_nil, ?_, fun M d => ?_⟩
    · exact iff_of_false (fun hne => hne rfl) fun hn => absurd hn.choose_spec.1 List.not_mem_nil
    · exact iff_of_true Mongo.matches_empty fun n hn => absurd hn List.not_mem_nil
  | cons n nodes =>
    cases nodes with
    | nil =>
      rw [conditionsNode, Option.getD_some] at h
      refine ⟨fun m hm => ⟨g, ?_⟩, ⟨fun hne => ⟨n, List.mem_cons_self, g, h, hne⟩, ?_⟩, fun M d => ⟨fun hg m hm x hx => ?_, ?_⟩⟩
      · rw [List.mem_singleton.1 hm, h]
      · rintro ⟨m, hm, x, hx, hne⟩
        rw [List.mem_singleton.1 hm, h] at hx
        cases hx
        exact hne
      · rw [List.mem_singleton.1 hm, h] at hx
        cases hx
        exact hg
      · exact fun hall => hall n List.mem_cons_self g h
    | cons m nodes => exact group_conjoins h

end Vqb
