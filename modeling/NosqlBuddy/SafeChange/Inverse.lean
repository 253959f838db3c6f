import Mathlib.Data.List.Pairwise
import NosqlBuddy.SafeChange.Server

/-!
# The inverse of an update

`inverse_restores`: what `apply_inverse_update` computes for a captured document takes the document back to
what it was, wherever the update has left it, if a path the update unsets was there and a path it
adds had documents above it (or the update has not been applied to this document at all).
-/

namespace SafeChange
open Fields
open Oplog (Bson Document)
open Mongo (splitPath)
open Paths (look view setAt eraseAt act Rooted Apart SameFields)

/-! ## The server on paths through documents -/

/-- No array stands above the path. -/
def Clear (d : Document) (p : List String) : Prop :=
  ∀ q, q <+: p → q ≠ p → ∀ xs : List Bson, view q (Bson.document d) ≠ some (some (Bson.array xs))

theorem clear_of_rooted (h : Rooted d p) : Clear d p := by
  intro q hq hne xs hview
  cases (h q hq hne).symm.trans hview

theorem view_document (k : String) (ks : List String) (d : Document) :
    view (k :: ks) (Bson.document d) = (d.lookup k).bind (view ks) := Paths.view_cons k ks d

theorem sub_of_rooted {d : Document} {k l : String} {ks : List String} (h : Rooted d (k :: l :: ks)) :
    ∃ sub, d.lookup k = some (.document sub) ∧ Rooted sub (l :: ks) := by
  have hk : view [k] (Bson.document d) = some none := h [k] (by simp) (by simp)
  rw [view_document] at hk
  obtain ⟨w, hw, hleaf⟩ := Option.bind_eq_some_iff.1 hk
  have hopen : (asDocument? w).isSome := by
    by_contra hno
    have : view [] w = some (some w) := by simp [view, Paths.leaf, Paths.open?, hno]
    rw [this] at hleaf
    cases hleaf
  obtain ⟨sub, hsub⟩ := Option.isSome_iff_exists.1 hopen
  rw [asDocument_eq] at hsub
  subst hsub
  refine ⟨sub, hw, fun q hq hne => ?_⟩
  have := h (k :: q) (by simpa using hq) (by simpa using hne)
  change view (k :: q) (Bson.document d) = some none at this
  rwa [view_document, hw, Option.bind_some] at this

theorem setBelow_eq : ∀ {p : List String} {v : Bson} {d : Document}, p ≠ [] → Rooted d p →
    setBelow p v (.document d) = some (.document (setAt p v d))
  | [], _, _, h, _ => absurd rfl h
  | [k], v, d, _, _ => rfl
  | k :: l :: ks, v, d, _, h => by
    obtain ⟨sub, hsub, hroot⟩ := sub_of_rooted h
    rw [setBelow, hsub, Option.getD_some, setBelow_eq (List.cons_ne_nil l ks) hroot, setAt, hsub]
    rfl

theorem setField_eq (hp : p ≠ []) (h : Rooted d p) :
    setField p v d = some (setAt p v d) := by
  rw [setField, setBelow_eq hp h]
  rfl

theorem unsetBelow_eq : ∀ {p : List String} {d : Document}, p ≠ [] → Clear d p →
    unsetBelow p (.document d) = some (.document (eraseAt p d))
  | [], _, h, _ => absurd rfl h
  | [k], d, _, _ => by
    rw [unsetBelow, eraseAt]
    cases hk : d.lookup k with
    | none => rw [erase_of_lookup hk]
    | some w => rfl
  | k :: l :: ks, d, _, h => by
    rw [unsetBelow, eraseAt]
    cases hk : d.lookup k with
    | none => rfl
    | some w =>
      have habove : ∀ q, q <+: l :: ks → q ≠ l :: ks → ∀ xs : List Bson, view q w ≠ some (some (Bson.array xs)) := by
        intro q hq hne xs hview
        refine h (k :: q) (by simpa using hq) (by simpa using hne) xs ?_
        rw [view_document, hk, Option.bind_some, hview]
      cases w with
      | document sub =>
        simp only [unsetBelow_eq (List.cons_ne_nil l ks) habove]
        rfl
      | array xs => exact absurd rfl (habove [] List.nil_prefix (List.cons_ne_nil l ks).symm xs)
      | _ => exact congrArg (fun d => some (Bson.document d)) (put_self hk)

theorem unsetField_eq (hp : p ≠ []) (h : Clear d p) :
    unsetField p d = eraseAt p d := by
  rw [unsetField, unsetBelow_eq hp h]

/-! ## Updates as writes at paths -/

def FieldUpdate.action (u : FieldUpdate) : Paths.Action Bson := (splitPath u.1, u.2)

/-- The path of the update can be written: documents above what is set, no array above what is unset. -/
def Writable (d : Document) (u : FieldUpdate) : Prop :=
  if u.2.isSome then Rooted d (splitPath u.1) else Clear d (splitPath u.1)

theorem updateField_eq (h : Writable d u) :
    updateField d u = some (act d u.action) := by
  obtain ⟨k, x⟩ := u
  cases x with
  | some v => exact setField_eq (Mongo.splitPath_ne_nil k) h
  | none => exact congrArg some (unsetField_eq (Mongo.splitPath_ne_nil k) h)

theorem Writable.act (hu : Writable d u) (hw : Writable d w)
    (hapart : Apart (splitPath u.1) (splitPath w.1)) : Writable (Paths.act d u.action) w := by
  have hkeep : ∀ q, q <+: splitPath w.1 → view q (Bson.document (Paths.act d u.action)) = view q (Bson.document d) := by
    intro q hq
    have hnot : ¬ u.action.1 <+: q := fun h => hapart.1 (h.trans hq)
    refine (Paths.view_act (a := u.action) (Mongo.splitPath_ne_nil u.1) d q).trans ?_
    rw [if_neg hnot]
    by_cases hup : u.action.2.isSome ∧ q <+: u.action.1
    · rw [if_pos hup]
      have hset : u.2.isSome := hup.1
      rw [Writable, if_pos hset] at hu
      exact (hu q hup.2 fun h => hnot (h ▸ List.prefix_rfl)).symm
    · rw [if_neg hup]
      rfl
  unfold Writable at hw ⊢
  split
  · next hset =>
    rw [if_pos hset] at hw
    exact fun q hq hne => (hkeep q hq).trans (hw q hq hne)
  · next hset =>
    rw [if_neg hset] at hw
    exact fun q hq hne xs => hkeep q hq ▸ hw q hq hne xs

theorem foldlM_updateField : ∀ {us : List FieldUpdate} {d : Document}, (∀ u ∈ us, Writable d u) →
    us.Pairwise (fun u w => Apart (splitPath u.1) (splitPath w.1)) →
    us.foldlM updateField d = some ((us.map FieldUpdate.action).foldl act d)
  | [], _, _, _ => rfl
  | u :: us, d, hw, hapart => by
    rw [List.pairwise_cons] at hapart
    have hu := hw u List.mem_cons_self
    rw [List.foldlM_cons, updateField_eq hu, Option.bind_eq_bind, Option.bind_some, List.map_cons, List.foldl_cons]
    exact foldlM_updateField (fun w hmem => hu.act (hw w (List.mem_cons_of_mem u hmem)) (hapart.1 w hmem)) hapart.2

/-! ## The inverse as updates of fields -/

/-- What undoes one update of a field of the captured document. -/
def undo (doc : Document) (u : FieldUpdate) : FieldUpdate :=
  match u.2 with
  | some _ => (u.1, getNestedValue doc (splitPath u.1))
  | none => (u.1, some ((getNestedValue doc (splitPath u.1)).getD .null))

/-- An update of a field written into the inverse. -/
def record (inverse : Document) (u : FieldUpdate) : Document :=
  match u.2 with
  | some v => insertUnder "$set" u.1 v inverse
  | none => insertUnder "$unset" u.1 (.string "") inverse

theorem fieldUpdates_set (fields : Document) :
    fieldUpdates [("$set", .document fields)] = fields.map fun f => (f.1, some f.2) := by
  rw [fieldUpdates, if_pos rfl]
  exact List.append_nil _

theorem fieldUpdates_unset (fields : Document) :
    fieldUpdates [("$unset", .document fields)] = fields.map fun f => (f.1, none) := by
  rw [fieldUpdates, if_neg (by decide), if_pos rfl]
  exact List.append_nil _

theorem inverseOperator_eq (hop : op = "$set" ∨ op = "$unset") : inverseOperator doc inverse op (.document fields) =
      ((fieldUpdates [(op, .document fields)]).map (undo doc)).foldl record inverse := by
  rcases hop with rfl | rfl
  · rw [inverseOperator, if_pos rfl, fieldUpdates_set, List.map_map, List.foldl_map, List.foldl_map]
    congr 1
  · rw [inverseOperator, if_neg (by decide), if_pos rfl, fieldUpdates_unset, List.map_map, List.foldl_map,
      List.foldl_map]
    rfl

theorem fieldUpdates_cons (f : String × Bson) (us : Document) :
    fieldUpdates (f :: us) = fieldUpdates [f] ++ fieldUpdates us := by
  obtain ⟨op, v⟩ := f
  cases v <;> simp only [fieldUpdates, List.nil_append]
  split
  · simp
  · split <;> simp

theorem fieldUpdates_append (us ws : Document) : fieldUpdates (us ++ ws) = fieldUpdates us ++ fieldUpdates ws := by
  induction us with
  | nil => rfl
  | cons f us ih => rw [List.cons_append, fieldUpdates_cons, ih, fieldUpdates_cons f us, List.append_assoc]

theorem applyInverseUpdate_eq (h : SetOrUnset update) :
    applyInverseUpdate doc update = ((fieldUpdates update).map (undo doc)).foldl record [] := by
  suffices hgen : ∀ (us inverse : Document), SetOrUnset us →
      us.foldl (fun inverse f => inverseOperator doc inverse f.1 f.2) inverse =
        ((fieldUpdates us).map (undo doc)).foldl record inverse from hgen update [] h
  intro us
  induction us with
  | nil => exact fun _ _ => rfl
  | cons f us ih =>
    intro inverse h
    obtain ⟨op, v⟩ := f
    obtain ⟨hop, hdoc⟩ := h (op, v) List.mem_cons_self
    obtain ⟨fields, hfields⟩ := Option.isSome_iff_exists.1 hdoc
    obtain rfl := asDocument_eq.1 hfields
    rw [List.foldl_cons, ih _ fun g hg => h g (List.mem_cons_of_mem _ hg), inverseOperator_eq hop,
      fieldUpdates_cons (op, .document fields) us, List.map_append, List.foldl_append]

/-- A document of updates as the inverse is one: `$set` and `$unset` at most once each. -/
structure WellMade (inverse : Document) : Prop where
  operators : SetOrUnset inverse
  nodup : (inverse.map Prod.fst).Nodup

def operatorOf (u : FieldUpdate) : String := if u.2.isSome then "$set" else "$unset"

theorem operatorOf_eq (u : FieldUpdate) : operatorOf u = "$set" ∨ operatorOf u = "$unset" := by
  unfold operatorOf
  split
  · exact .inl rfl
  · exact .inr rfl

theorem record_eq (inverse : Document) (u : FieldUpdate) :
    record inverse u = insertUnder (operatorOf u) u.1 (u.2.getD (.string "")) inverse := by
  obtain ⟨k, x⟩ := u
  cases x <;> rfl

theorem fieldUpdates_recorded (u : FieldUpdate) :
    fieldUpdates [(operatorOf u, .document [(u.1, u.2.getD (.string ""))])] = [u] := by
  obtain ⟨k, x⟩ := u
  cases x <;> simp [operatorOf, fieldUpdates]

theorem fieldUpdates_more (hop : op = "$set" ∨ op = "$unset") (d : Document) (f : String × Bson) :
    fieldUpdates [(op, .document (d ++ [f]))] = fieldUpdates [(op, .document d)] ++ fieldUpdates [(op, .document [f])] := by
  rcases hop with rfl | rfl
  · simp only [fieldUpdates_set, List.map_append]
  · simp only [fieldUpdates_unset, List.map_append]

theorem fieldUpdates_put (hop : op = "$set" ∨ op = "$unset") (f : String × Bson) :
    ∀ {inverse : Document}, inverse.lookup op = some (.document d) →
      (fieldUpdates (put op (.document (d ++ [f])) inverse)).Perm
        (fieldUpdates [(op, .document [f])] ++ fieldUpdates inverse)
  | [], h => by cases h
  | (l, w) :: inverse, h => by
    rw [lookup_cons] at h
    by_cases hl : op = l
    · rw [if_pos hl] at h
      obtain rfl := Option.some.inj h
      rw [put, if_pos hl.symm, fieldUpdates_cons, fieldUpdates_more hop, fieldUpdates_cons (l, .document d), ← hl,
        ← List.append_assoc]
      exact List.perm_append_comm.append_right _
    · rw [if_neg hl] at h
      rw [put, if_neg (Ne.symm hl), fieldUpdates_cons, fieldUpdates_cons (l, w) inverse]
      refine (fieldUpdates_put hop f h).append_left _ |>.trans ?_
      rw [← List.append_assoc, ← List.append_assoc]
      exact List.perm_append_comm.append_right _

theorem mem_fieldUpdates (hop : op = "$set" ∨ op = "$unset") (hf : f ∈ d) : ∀ {inverse : Document}, inverse.lookup op = some (.document d) → ∃ w ∈ fieldUpdates inverse, w.1 = f.1
  | [], h => by cases h
  | (l, w) :: inverse, h => by
    rw [lookup_cons] at h
    rw [fieldUpdates_cons]
    by_cases hl : op = l
    · rw [if_pos hl] at h
      obtain rfl := Option.some.inj h
      rcases hop with rfl | rfl
      · rw [← hl, fieldUpdates_set]
        exact ⟨(f.1, some f.2), List.mem_append_left _ (List.mem_map.2 ⟨f, hf, rfl⟩), rfl⟩
      · rw [← hl, fieldUpdates_unset]
        exact ⟨(f.1, none), List.mem_append_left _ (List.mem_map.2 ⟨f, hf, rfl⟩), rfl⟩
    · rw [if_neg hl] at h
      obtain ⟨u, hu, hkey⟩ := mem_fieldUpdates hop hf h
      exact ⟨u, List.mem_append_right _ hu, hkey⟩

theorem record_spec (h : WellMade inverse)
    (hnew : ∀ w ∈ fieldUpdates inverse, w.1 ≠ u.1) :
    WellMade (record inverse u) ∧ (fieldUpdates (record inverse u)).Perm (u :: fieldUpdates inverse) := by
  have hop := operatorOf_eq u
  rw [record_eq, insertUnder]
  cases hl : inverse.lookup (operatorOf u) with
  | none =>
    simp only [put_of_lookup hl, fieldUpdates_append, fieldUpdates_recorded]
    refine ⟨⟨?_, ?_⟩, List.perm_append_singleton _ _⟩
    · intro f hf
      rcases List.mem_append.1 hf with hf | hf
      · exact h.operators f hf
      · obtain rfl := List.mem_singleton.1 hf
        exact ⟨hop, rfl⟩
    · rw [List.map_append, List.map_singleton, List.nodup_append]
      refine ⟨h.nodup, List.nodup_singleton _, fun k hk l hl' => ?_⟩
      obtain ⟨f, hf, rfl⟩ := List.mem_map.1 hk
      rw [List.mem_singleton.1 hl']
      exact lookup_eq_none.1 hl f hf
  | some v =>
    obtain ⟨d, hd⟩ := Option.isSome_iff_exists.1 (h.operators _ (mem_of_lookup hl)).2
    obtain rfl := asDocument_eq.1 hd
    have hput : put u.1 (u.2.getD (.string "")) d = d ++ [(u.1, u.2.getD (.string ""))] := by
      refine put_of_lookup (lookup_eq_none.2 fun f hf heq => ?_)
      obtain ⟨w, hw, hkey⟩ := mem_fieldUpdates hop hf hl
      exact hnew w hw (hkey.trans heq)
    simp only [hput]
    refine ⟨⟨?_, ?_⟩, ?_⟩
    · intro f hf
      rcases mem_put hf with rfl | hf
      · exact ⟨hop, rfl⟩
      · exact h.operators f hf
    · rw [keys_put (by rw [hl]; rfl)]
      exact h.nodup
    · have := fieldUpdates_put hop (u.1, u.2.getD (.string "")) hl
      rwa [fieldUpdates_recorded] at this

theorem recorded_spec : ∀ {us : List FieldUpdate} {inverse : Document}, WellMade inverse →
    (us.map Prod.fst).Nodup → (∀ w ∈ fieldUpdates inverse, w.1 ∉ us.map Prod.fst) →
    WellMade (us.foldl record inverse) ∧ (fieldUpdates (us.foldl record inverse)).Perm (us ++ fieldUpdates inverse)
  | [], _, h, _, _ => ⟨h, List.Perm.refl _⟩
  | u :: us, inverse, h, hnodup, hnew => by
    rw [List.map_cons, List.nodup_cons] at hnodup
    obtain ⟨hmade, hperm⟩ := record_spec h fun w hw heq => hnew w hw (heq ▸ List.mem_cons_self)
    obtain ⟨hmade', hperm'⟩ := recorded_spec hmade hnodup.2 fun w hw hmem => by
      rcases List.mem_cons.1 (hperm.mem_iff.1 hw) with rfl | hw
      · exact hnodup.1 hmem
      · exact hnew w hw (List.mem_cons_of_mem _ hmem)
    refine ⟨hmade', hperm'.trans ?_⟩
    exact (hperm.append_left us).trans List.perm_middle

/-! ## Back to what it was -/

theorem getNestedValue_eq : ∀ {p : List String} {d : Document}, p ≠ [] → getNestedValue d p = look p (.document d)
  | [], _, h => absurd rfl h
  | [k], d, _ => by
    change d.lookup k = (d.lookup k).bind some
    cases d.lookup k <;> rfl
  | k :: l :: ks, d, _ => by
    have hlook : look (k :: l :: ks) (.document d) = (d.lookup k).bind (look (l :: ks)) := rfl
    rw [getNestedValue, hlook]
    cases d.lookup k with
    | none => rfl
    | some w =>
      cases w with
      | document sub => exact getNestedValue_eq (List.cons_ne_nil l ks)
      | _ => rfl
    exact List.cons_ne_nil l ks

theorem rooted_of_look {d : Document} {p : List String} {v : Bson} (h : look p (.document d) = some v) :
    Rooted d p := by
  rintro q ⟨r, rfl⟩ hne
  have hr : r ≠ [] := fun hr => hne (by rw [hr, List.append_nil])
  rw [Paths.look_append] at h
  obtain ⟨w, hw, hwr⟩ := Option.bind_eq_some_iff.1 h
  obtain ⟨k, ks, rfl⟩ := List.exists_cons_of_ne_nil hr
  obtain ⟨sub, hsub, -⟩ := Option.bind_eq_some_iff.1 hwr
  change (look q (Bson.document d)).map Paths.leaf = some none
  rw [hw, Option.map_some, Paths.leaf, hsub]
  rfl

/-- The document the inverse is applied to says what the captured one said wherever no path of the update
lies above; what the update unsets was there, and no array stands above what was not. -/
structure Undoable (update captured current : Document) : Prop where
  same_elsewhere : ∀ q, (∀ u ∈ fieldUpdates update, ¬ splitPath u.1 <+: q) →
    view q (Bson.document current) = view q (.document captured)
  unset_present : ∀ u ∈ fieldUpdates update, u.2 = none → (look (splitPath u.1) (Bson.document captured)).isSome
  clear : ∀ u ∈ fieldUpdates update, look (splitPath u.1) (Bson.document captured) = none →
    Clear captured (splitPath u.1)
  same_id : current.lookup "_id" = captured.lookup "_id"

theorem undo_fst (doc : Document) (u : FieldUpdate) : (undo doc u).1 = u.1 := by
  obtain ⟨k, x⟩ := u
  cases x <;> rfl

theorem Undoable.undo_snd (h : Undoable update captured current)
    (hu : u ∈ fieldUpdates update) :
    (undo captured u).2 = look (splitPath u.1) (.document captured) := by
  have hget := getNestedValue_eq (d := captured) (Mongo.splitPath_ne_nil u.1)
  obtain ⟨k, x⟩ := u
  cases x with
  | some v => exact hget
  | none =>
    obtain ⟨old, hold⟩ := Option.isSome_iff_exists.1 (h.unset_present (k, none) hu rfl)
    change some ((getNestedValue captured (splitPath k)).getD .null) = _
    rw [hget, hold, Option.getD_some]

instance apart_symm : Std.Symm fun u w : FieldUpdate => Apart (splitPath u.1) (splitPath w.1) :=
  ⟨fun _ _ h => ⟨h.2, h.1⟩⟩

theorem not_below {us : List FieldUpdate} (h : us.Pairwise fun u w => Apart (splitPath u.1) (splitPath w.1))
    {u : FieldUpdate} (hu : u ∈ us) {q : List String} (hq : q <+: splitPath u.1) (hne : q ≠ splitPath u.1) :
    ∀ w ∈ us, ¬ splitPath w.1 <+: q := by
  intro w hw hpre
  by_cases heq : w = u
  · subst heq
    exact hne (hq.eq_of_length (Nat.le_antisymm hq.length_le hpre.length_le))
  · exact (h.forall hw hu heq).1 (hpre.trans hq)

theorem Undoable.writable {update captured current : Document} (h : Undoable update captured current)
    (hok : Acceptable (fieldUpdates update)) {u : FieldUpdate} (hu : u ∈ fieldUpdates update) :
    Writable current (undo captured u) := by
  have hsame : ∀ q, q <+: splitPath u.1 → q ≠ splitPath u.1 →
      view q (Bson.document current) = view q (.document captured) :=
    fun q hq hne => h.same_elsewhere q (not_below hok.2 hu hq hne)
  have hsnd := h.undo_snd hu
  rw [Writable, undo_fst, hsnd]
  cases hold : look (splitPath u.1) (Bson.document captured) with
  | some old =>
    rw [if_pos Option.isSome_some]
    exact fun q hq hne => (hsame q hq hne).trans (rooted_of_look hold q hq hne)
  | none =>
    rw [if_neg (by simp)]
    exact fun q hq hne xs => hsame q hq hne ▸ h.clear u hu hold q hq hne xs

/-! ## The `_id` -/

theorem lookup_act {d : Document} {a : Paths.Action Bson} {k : String} (h : a.1.head? ≠ some k) :
    (act d a).lookup k = d.lookup k := by
  obtain ⟨p, x⟩ := a
  match p, h with
  | [], _ => cases x <;> rfl
  | [l], h =>
    have hl : k ≠ l := fun hkl => h (by simp [hkl])
    cases x with
    | some v => exact (lookup_put l k v d).trans (if_neg hl)
    | none => exact (lookup_erase l k d).trans (if_neg hl)
  | l :: m :: ms, h =>
    have hl : k ≠ l := fun hkl => h (by simp [hkl])
    cases x with
    | some v => exact (lookup_put l k _ d).trans (if_neg hl)
    | none =>
      change (eraseAt (l :: m :: ms) d).lookup k = _
      rw [eraseAt]
      split
      · exact (lookup_put l k _ d).trans (if_neg hl)
      · rfl

theorem act_self {d : Document} {a : Paths.Action Bson} (hp : a.1 ≠ []) (h : a.2 = look a.1 (.document d)) :
    act d a = d := by
  obtain ⟨p, x⟩ := a
  cases x with
  | some v => exact Paths.setAt_self hp h.symm
  | none => exact Paths.eraseAt_absent h.symm

theorem look_of_lookup (h : d.lookup k = e.lookup k) (hp : p.head? = some k) : look p (Bson.document d) = look p (.document e) := by
  obtain ⟨ks, rfl⟩ : ∃ ks, p = k :: ks := by
    cases p with
    | nil => cases hp
    | cons l ks => exact ⟨ks, by rw [Option.some.inj hp]⟩
  exact congrArg (fun x : Option Bson => x.bind (look ks)) h

theorem lookup_foldl_act {k : String} : ∀ {as : List (Paths.Action Bson)} {d : Document},
    (∀ a ∈ as, a.1 ≠ []) → (∀ a ∈ as, a.1.head? = some k → a.2 = look a.1 (.document d)) →
    (as.foldl act d).lookup k = d.lookup k
  | [], _, _, _ => rfl
  | a :: as, d, hne, h => by
    have hfirst : (act d a).lookup k = d.lookup k := by
      by_cases hk : a.1.head? = some k
      · rw [act_self (hne a List.mem_cons_self) (h a List.mem_cons_self hk)]
      · exact lookup_act hk
    rw [List.foldl_cons, lookup_foldl_act (fun b hb => hne b (List.mem_cons_of_mem a hb)), hfirst]
    intro b hb hk
    rw [h b (List.mem_cons_of_mem a hb) hk, look_of_lookup hfirst hk]

/-! ## The inverse of one update -/

theorem keys_nodup (h : Acceptable us) : (us.map Prod.fst).Nodup := by
  rw [List.Nodup, List.pairwise_map]
  refine h.2.imp fun {u w} hapart (heq : u.1 = w.1) => hapart.1 ?_
  have hsplit : splitPath w.1 = splitPath u.1 := congrArg splitPath heq.symm
  exact hsplit ▸ List.prefix_rfl

theorem inverse_spec {update captured : Document} (hset : SetOrUnset update) (hok : Acceptable (fieldUpdates update)) :
    SetOrUnset (applyInverseUpdate captured update) ∧
      (fieldUpdates (applyInverseUpdate captured update)).Perm ((fieldUpdates update).map (undo captured)) := by
  have hkeys : ((fieldUpdates update).map (undo captured)).map Prod.fst = (fieldUpdates update).map Prod.fst := by
    rw [List.map_map]
    exact List.map_congr_left fun u _ => undo_fst captured u
  have hempty : WellMade [] := ⟨(fun f hf => by cases hf), List.nodup_nil⟩
  obtain ⟨hmade, hperm⟩ := recorded_spec hempty (hkeys ▸ keys_nodup hok) (fun w hw => by cases hw)
  rw [← applyInverseUpdate_eq hset] at hmade hperm
  exact ⟨hmade.operators, by simpa [fieldUpdates] using hperm⟩

theorem undo_acceptable (hperm : ws.Perm (us.map (undo captured)))
    (hok : Acceptable us) : Acceptable ws := by
  constructor
  · intro w hw
    obtain ⟨u, hu, rfl⟩ := List.mem_map.1 (hperm.mem_iff.1 hw)
    rw [undo_fst]
    exact hok.1 u hu
  · rw [hperm.pairwise_iff fun h => ⟨h.2, h.1⟩, List.pairwise_map]
    simp only [undo_fst]
    exact hok.2

/-- **The inverse takes the document back.** -/
theorem inverse_restores {server : Server} {update captured current : Document} (hset : SetOrUnset update)
    (hok : Acceptable (fieldUpdates update)) (hsome : fieldUpdates update ≠ [])
    (h : Undoable update captured current) :
    ∃ d, applyUpdate server (applyInverseUpdate captured update) current = some d ∧ SameDocument d captured ∧
      d.lookup "_id" = captured.lookup "_id" := by
  obtain ⟨hinvset, hperm⟩ := @inverse_spec update captured hset hok
  have hinvok := undo_acceptable hperm hok
  have hmem : ∀ {w}, w ∈ fieldUpdates (applyInverseUpdate captured update) → ∃ u ∈ fieldUpdates update, undo captured u = w :=
    fun hw => List.mem_map.1 (hperm.mem_iff.1 hw)
  have hwritable : ∀ w ∈ fieldUpdates (applyInverseUpdate captured update), Writable current w := by
    intro w hw
    obtain ⟨u, hu, rfl⟩ := hmem hw
    exact h.writable hok hu
  have hne : applyInverseUpdate captured update ≠ [] := by
    intro hnil
    rw [hnil] at hperm
    exact hsome (List.map_eq_nil_iff.1 hperm.symm.eq_nil)
  -- The value that an action of the inverse leaves is the captured one.
  have hvalue : ∀ a ∈ (fieldUpdates (applyInverseUpdate captured update)).map FieldUpdate.action,
      a.2 = look a.1 (Bson.document captured) := by
    intro a ha
    obtain ⟨w, hw, rfl⟩ := List.mem_map.1 ha
    obtain ⟨u, hu, rfl⟩ := hmem hw
    exact (h.undo_snd hu).trans (by rw [FieldUpdate.action, undo_fst])
  have hpaths : ∀ a ∈ (fieldUpdates (applyInverseUpdate captured update)).map FieldUpdate.action, a.1 ≠ [] := by
    intro a ha
    obtain ⟨w, -, rfl⟩ := List.mem_map.1 ha
    exact Mongo.splitPath_ne_nil w.1
  generalize hd : ((fieldUpdates (applyInverseUpdate captured update)).map FieldUpdate.action).foldl act current = d
  have hid : d.lookup "_id" = current.lookup "_id" := by
    rw [← hd]
    refine lookup_foldl_act hpaths fun a ha hk => ?_
    rw [hvalue a ha, look_of_lookup h.same_id hk]
  refine ⟨d, ?_, ?_, hid.trans h.same_id⟩
  · rw [applyUpdate, runUpdate, if_pos hinvset, if_pos ⟨hne, hinvok⟩, foldlM_updateField hwritable hinvok.2, hd,
      Option.bind_some, if_pos (server.keepsId_iff.2 hid)]
  · intro q
    have happart : ((fieldUpdates (applyInverseUpdate captured update)).map FieldUpdate.action).Pairwise
        fun a b => Apart a.1 b.1 := List.pairwise_map.2 hinvok.2
    have hroot : ∀ a ∈ (fieldUpdates (applyInverseUpdate captured update)).map FieldUpdate.action,
        a.2.isSome → Rooted current a.1 := by
      intro a ha hsome
      obtain ⟨w, hw, rfl⟩ := List.mem_map.1 ha
      have := hwritable w hw
      rwa [Writable, if_pos (show w.2.isSome from hsome)] at this
    obtain ⟨hbelow, helse⟩ := Paths.view_runActions _ current hpaths happart hroot q
    rw [hd] at hbelow helse
    by_cases hex : ∃ a ∈ (fieldUpdates (applyInverseUpdate captured update)).map FieldUpdate.action, a.1 <+: q
    · obtain ⟨a, ha, hq⟩ := hex
      refine (hbelow a ha hq).trans ?_
      rw [Paths.Action.shows, hvalue a ha]
      cases hold : look a.1 (Bson.document captured) with
      | some old => exact (Paths.view_below hold hq).symm
      | none => exact (Paths.view_below_none hold hq).symm
    · push Not at hex
      refine (helse hex).trans (h.same_elsewhere q fun u hu hq => ?_)
      refine hex (FieldUpdate.action (undo captured u)) ?_ (by rwa [FieldUpdate.action, undo_fst])
      exact List.mem_map_of_mem (hperm.mem_iff.2 (List.mem_map_of_mem hu))

end SafeChange
