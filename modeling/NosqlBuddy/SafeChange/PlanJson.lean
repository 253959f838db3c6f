import NosqlBuddy.SafeChange.Inverse

/-!
# Plans as JSON

A plan holds its documents as JSON. `PlanCodec` is the conversion there and back, with the values it does not
change; `carries_inverse`: the inverse of an update is carried when the captured document is.
-/

namespace SafeChange
open Oplog (Bson Document)
open Mongo (splitPath ValidPath isOperator)
open Paths (look)

/-- The keys that extended JSON gives a meaning of their own. -/
def reservedKeys : List String :=
  ["$oid", "$date", "$numberInt", "$numberLong", "$numberDouble", "$numberDecimal", "$numberDecimalBytes", "$binary",
    "$uuid", "$code", "$scope", "$symbol", "$timestamp", "$regularExpression", "$dbPointer", "$undefined", "$minKey",
    "$maxKey"]

/-- Documents as JSON and read back, and the values that this does not change. -/
structure PlanCodec where
  write : Document → Json
  read : Json → Option Document
  Carries : Bson → Prop
  carries_document : ∀ {fields}, Carries (.document fields) ↔ ∀ f ∈ fields, f.1 ∉ reservedKeys ∧ Carries f.2
  carries_string : ∀ s, Carries (.string s)
  read_write : ∀ {fields}, Carries (.document fields) → read (write fields) = some fields

section
variable (codec : PlanCodec)

theorem carries_lookup (h : codec.Carries (.document d))
    (hk : d.lookup k = some v) : codec.Carries v :=
  (codec.carries_document.1 h (k, v) (Fields.mem_of_lookup hk)).2

theorem carries_look : ∀ {p : List String} {v w : Bson}, codec.Carries v → look p v = some w → codec.Carries w
  | [], _, _, h, hw => Option.some.inj hw ▸ h
  | k :: ks, v, w, h, hw => by
    obtain ⟨d, hd, hw⟩ := Option.bind_eq_some_iff.1 hw
    obtain ⟨x, hx, hw⟩ := Option.bind_eq_some_iff.1 hw
    rw [asDocument_eq.1 hd] at h
    exact carries_look (carries_lookup codec h hx) hw

theorem carries_id {id : Bson} (h : codec.Carries id) : codec.Carries (.document [("_id", id)]) := by
  have hkey : "_id" ∉ reservedKeys := by decide
  refine codec.carries_document.2 fun f hf => ?_
  obtain rfl := List.mem_singleton.1 hf
  exact ⟨hkey, h⟩

theorem not_reserved (h : ValidPath (splitPath k)) : k ∉ reservedKeys := by
  have hall : ∀ r ∈ reservedKeys, isOperator r = true := by decide
  intro hk
  exact absurd (hall k hk) (by simp [h.name])

theorem carries_insertUnder (h : codec.Carries (.document inverse))
    (hop : op ∉ reservedKeys) (hk : k ∉ reservedKeys) (hv : codec.Carries v) :
    codec.Carries (.document (insertUnder op k v inverse)) := by
  rw [insertUnder]
  split
  · next d hd =>
    refine codec.carries_document.2 fun f hf => ?_
    rcases Fields.mem_put hf with rfl | hf
    · refine ⟨hop, codec.carries_document.2 fun g hg => ?_⟩
      rcases Fields.mem_put hg with rfl | hg
      · exact ⟨hk, hv⟩
      · exact codec.carries_document.1 (carries_lookup codec h hd) g hg
    · exact codec.carries_document.1 h f hf
  · exact h
  · refine codec.carries_document.2 fun f hf => ?_
    rcases Fields.mem_put hf with rfl | hf
    · refine ⟨hop, codec.carries_document.2 fun g hg => ?_⟩
      obtain rfl := List.mem_singleton.1 hg
      exact ⟨hk, hv⟩
    · exact codec.carries_document.1 h f hf

theorem carries_record {us : List FieldUpdate} {inverse : Document} (h : codec.Carries (.document inverse))
    (hus : ∀ u ∈ us, u.1 ∉ reservedKeys ∧ ∀ v, u.2 = some v → codec.Carries v) :
    codec.Carries (.document (us.foldl record inverse)) := by
  induction us generalizing inverse with
  | nil => exact h
  | cons u us ih =>
    obtain ⟨hk, hv⟩ := hus u List.mem_cons_self
    refine ih ?_ fun w hw => hus w (List.mem_cons_of_mem u hw)
    rw [record_eq]
    refine carries_insertUnder codec h ?_ hk ?_
    · rcases operatorOf_eq u with hop | hop <;> rw [hop] <;> decide
    · cases hu : u.2 with
      | some v => exact hv v hu
      | none => exact codec.carries_string ""

theorem carries_inverse {update captured current : Document} (hset : SetOrUnset update)
    (hok : Acceptable (fieldUpdates update)) (h : Undoable update captured current)
    (hcarry : codec.Carries (.document captured)) :
    codec.Carries (.document (applyInverseUpdate captured update)) := by
  rw [applyInverseUpdate_eq hset]
  refine carries_record codec (codec.carries_document.2 fun f hf => by cases hf) fun w hw => ?_
  obtain ⟨u, hu, rfl⟩ := List.mem_map.1 hw
  rw [undo_fst]
  refine ⟨not_reserved (hok.1 u hu), fun v hv => ?_⟩
  rw [h.undo_snd hu] at hv
  exact carries_look codec hcarry hv

end

end SafeChange
