import Mathlib.Data.List.Perm.Subperm
import Mathlib.Data.List.Forall2

/-!
# Records with the value that was last saved

`Edit` is what an operation does to a list of records: some are taken out, one is changed in place, one is replaced by another
at the end, or new ones are appended. On cells, which carry what was last saved of their record, an edit takes the saved values
along (`saved_onCells`), and the records are those of the edit of the list (`map_record_onCells`).
-/

namespace Tracked

/-- A record, and the value that was last saved of it. -/
structure Cell (R : Type*) where
  record : R
  saved : Option R

/-- The record is saved as it is. -/
def Cell.fresh {R : Type*} (r : R) : Cell R := ⟨r, some r⟩

inductive Edit (R : Type*) where
  /-- The records that are left, among all of the list. -/
  | retain (p : List R → R → Bool)
  /-- The first record that `q` holds of is changed. -/
  | modify (q : R → Bool) (f : R → R)
  /-- The records that `q` holds of give way to one at the end, which depends on the first of them. -/
  | replace (q : R → Bool) (r : Option R → R)
  | append (rs : List R)

variable {R : Type*}

def modifyFirst {α : Type*} (q : α → Bool) (f : α → α) : List α → List α
  | [] => []
  | a :: as => if q a then f a :: as else a :: modifyFirst q f as

def Edit.apply : Edit R → List R → List R
  | .retain p, rs => rs.filter (p rs)
  | .modify q f, rs => modifyFirst q f rs
  | .replace q r, rs => (rs.filter fun x => !q x) ++ [r (rs.find? q)]
  | .append new, rs => rs ++ new

def Edit.onCells : Edit R → List (Cell R) → List (Cell R)
  | .retain p, cs => cs.filter fun c => p (cs.map Cell.record) c.record
  | .modify q f, cs => modifyFirst (fun c => q c.record) (fun c => { c with record := f c.record }) cs
  | .replace q r, cs =>
    let first := cs.find? fun c => q c.record
    (cs.filter fun c => !q c.record) ++ [⟨r (first.map Cell.record), first.bind Cell.saved⟩]
  | .append new, cs => cs ++ new.map fun r => ⟨r, none⟩

/-! ## The records -/

theorem map_record_modifyFirst (q : R → Bool) (f : R → R) : ∀ cs : List (Cell R),
    (modifyFirst (fun c => q c.record) (fun c => { c with record := f c.record }) cs).map Cell.record =
      modifyFirst q f (cs.map Cell.record)
  | [] => rfl
  | c :: cs => by
    rw [modifyFirst, List.map_cons, modifyFirst]
    split
    · rfl
    · rw [List.map_cons, map_record_modifyFirst q f cs]

theorem map_record_onCells (e : Edit R) (cs : List (Cell R)) : (e.onCells cs).map Cell.record = e.apply (cs.map Cell.record) := by
  cases e with
  | retain p => exact (List.filter_map ..).symm
  | modify q f => exact map_record_modifyFirst q f cs
  | replace q r =>
    simp only [Edit.onCells, Edit.apply, List.map_append, List.filter_map, List.find?_map, List.map_cons, List.map_nil]
    rfl
  | append new => simp [Edit.onCells, Edit.apply, Function.comp_def]

/-! ## What was saved -/

def saved (cs : List (Cell R)) : List R := cs.filterMap Cell.saved

theorem saved_modifyFirst (q : Cell R → Bool) (f : R → R) : ∀ cs : List (Cell R),
    saved (modifyFirst q (fun c => { c with record := f c.record }) cs) = saved cs
  | [] => rfl
  | c :: cs => by
    rw [modifyFirst]
    split
    · rfl
    · rw [saved, List.filterMap_cons, saved, List.filterMap_cons, ← saved, ← saved, saved_modifyFirst q f cs]

/-- **No edit invents a saved value**, and each is taken along once. -/
theorem saved_onCells (e : Edit R) (cs : List (Cell R)) : (saved (e.onCells cs)).Subperm (saved cs) := by
  cases e with
  | retain p => exact (List.filter_sublist.filterMap _).subperm
  | modify q f =>
    rw [Edit.onCells, saved_modifyFirst]
  | append new =>
    have hnone : (new.map fun r => (⟨r, none⟩ : Cell R)).filterMap Cell.saved = [] := by simp
    rw [Edit.onCells, saved, List.filterMap_append, hnone, List.append_nil]
    exact List.Subperm.refl _
  | replace q r =>
    have hperm : List.Perm (cs.filterMap Cell.saved)
        ((cs.filter fun c => !q c.record).filterMap Cell.saved ++ (cs.filter fun c => q c.record).filterMap Cell.saved) := by
      rw [← List.filterMap_append]
      refine ((List.filter_append_perm (fun c => q c.record) cs).symm.trans List.perm_append_comm).filterMap _
    have hfirst : List.Sublist ((cs.find? fun c => q c.record).bind Cell.saved).toList
        ((cs.filter fun c => q c.record).filterMap Cell.saved) := by
      rw [← List.head?_filter]
      cases cs.filter fun c => q c.record with
      | nil => exact List.Sublist.refl _
      | cons c rest =>
        rw [List.filterMap_cons, List.head?_cons, Option.bind_some]
        cases c.saved with
        | none => exact List.nil_sublist _
        | some r => exact List.singleton_sublist.2 List.mem_cons_self
    have hnew : saved ((Edit.replace q r).onCells cs) =
        (cs.filter fun c => !q c.record).filterMap Cell.saved ++ ((cs.find? fun c => q c.record).bind Cell.saved).toList := by
      rw [saved, Edit.onCells, List.filterMap_append]
      cases (cs.find? fun c => q c.record).bind Cell.saved <;> rfl
    rw [hnew, saved]
    exact ((List.Sublist.refl _).append hfirst).subperm.trans hperm.symm.subperm

theorem saved_fresh (rs : List R) : saved (rs.map Cell.fresh) = rs := by
  rw [saved, List.filterMap_map]
  exact List.filterMap_some

theorem forall₂_saved : ∀ cs : List (Cell R),
    List.Forall₂ (fun c r => c.saved = some r) (cs.filter fun c => c.saved.isSome) (saved cs)
  | [] => .nil
  | c :: cs => by
    have ih := forall₂_saved cs
    unfold saved at ih ⊢
    cases h : c.saved with
    | none => rwa [List.filter_cons_of_neg (by simp [h]), List.filterMap_cons_none h]
    | some r =>
      rw [List.filter_cons_of_pos (by simp [h]), List.filterMap_cons_some h]
      exact .cons h ih

end Tracked
