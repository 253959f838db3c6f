import Mathlib.Data.Finset.Basic
import Mathlib.Logic.Function.Basic
import NosqlBuddy.Lib.Runs

/-!
# Logs in segments

Entries are added under a key. A cut closes the open entries of one key into a segment, unless the key is
held or has no open entries; a reset forgets everything. `shown` is what is visible of a key from outside
when only one list is shown: the open entries, or the last segment when there are none.

The entries themselves are never looked at, so a run over renamed entries is the renamed run (`run_map`).
-/

namespace Segments

variable {κ α β : Type*}

inductive Op (κ α : Type*) where
  | add (k : κ) (a : α)
  | cut (k : κ)
  | hold (k : κ) (on : Bool)
  | reset
  | idle

structure State (κ α : Type*) where
  keys : Finset κ
  active : κ → List α
  closed : κ → List (List α)
  held : Finset κ

def State.empty : State κ α := ⟨∅, fun _ => [], fun _ => [], ∅⟩

/-- The cut of a key takes entries. -/
def State.Cuts (s : State κ α) (k : κ) : Prop := k ∉ s.held ∧ s.active k ≠ []

instance [DecidableEq κ] (s : State κ α) (k : κ) : Decidable (s.Cuts k) :=
  decidable_of_iff (k ∉ s.held ∧ (s.active k).isEmpty = false) (by cases h : s.active k <;> simp [State.Cuts, h])

section
variable [DecidableEq κ]

def step (s : State κ α) : Op κ α → State κ α
  | .add k a => { s with keys := insert k s.keys, active := Function.update s.active k (s.active k ++ [a]) }
  | .cut k =>
    if s.Cuts k then
      { s with
        active := Function.update s.active k []
        closed := Function.update s.closed k (s.closed k ++ [s.active k]) }
    else s
  | .hold k on => { s with held := if on then insert k s.held else s.held.erase k }
  | .reset => .empty
  | .idle => s

def run (ops : List (Op κ α)) : State κ α := Runs.run step .empty ops

end

/-- The one list that is shown of a key. -/
def State.shown (s : State κ α) (k : κ) : List α :=
  match s.active k with
  | [] => (s.closed k).getLast?.getD []
  | a :: as => a :: as

/-! ## Keys -/

/-- The keys are those with something to show. -/
def State.Keyed (s : State κ α) : Prop :=
  ∀ k, (k ∈ s.keys ↔ s.active k ≠ [] ∨ s.closed k ≠ []) ∧ [] ∉ s.closed k

theorem keyed_empty : (State.empty : State κ α).Keyed := by
  intro k
  simp [State.empty]

section
variable [DecidableEq κ]

theorem State.Keyed.step {s : State κ α} (h : s.Keyed) (op : Op κ α) : (step s op).Keyed := by
  intro k
  cases op with
  | add k' a =>
    by_cases hk : k = k'
    · subst hk
      simp [Segments.step, (h k).2]
    · simpa [Segments.step, hk] using h k
  | cut k' =>
    simp only [Segments.step]
    split
    · next hc =>
      by_cases hk : k = k'
      · subst hk
        have hmem : k ∈ s.keys := (h k).1.2 (.inl hc.2)
        simp [(h k).2, hmem, Ne.symm hc.2]
      · simpa [hk] using h k
    · exact h k
  | hold k' on => exact h k
  | reset => exact keyed_empty k
  | idle => exact h k

theorem keyed_run (ops : List (Op κ α)) : (run ops).Keyed := by
  induction ops using List.reverseRecOn with
  | nil => exact keyed_empty
  | append_singleton ops op ih =>
    rw [run, Runs.run_snoc]
    exact ih.step op

end

/-! ## Renaming the entries -/

def Op.map (f : α → β) : Op κ α → Op κ β
  | .add k a => .add k (f a)
  | .cut k => .cut k
  | .hold k on => .hold k on
  | .reset => .reset
  | .idle => .idle

def State.map (f : α → β) (s : State κ α) : State κ β where
  keys := s.keys
  active k := (s.active k).map f
  closed k := (s.closed k).map (List.map f)
  held := s.held

theorem cuts_map (f : α → β) (s : State κ α) (k : κ) : (s.map f).Cuts k ↔ s.Cuts k := by
  simp [State.Cuts, State.map]

theorem shown_map (f : α → β) (s : State κ α) (k : κ) : (s.map f).shown k = (s.shown k).map f := by
  simp only [State.shown, State.map]
  cases hact : s.active k with
  | nil =>
    rw [List.map_nil, List.getLast?_map]
    cases (s.closed k).getLast? <;> rfl
  | cons a as => rfl

section
variable [DecidableEq κ]

theorem step_map (f : α → β) (s : State κ α) (op : Op κ α) : step (s.map f) (op.map f) = (step s op).map f := by
  cases op with
  | add k a =>
    simp only [step, Op.map, State.map, State.mk.injEq, true_and, and_true]
    funext k'
    by_cases hk : k' = k
    · subst hk
      simp
    · simp [hk]
  | cut k =>
    simp only [step, Op.map, cuts_map]
    split
    · simp only [State.map, State.mk.injEq, true_and, and_true]
      constructor <;>
      · funext k'
        by_cases hk : k' = k
        · subst hk
          simp
        · simp [hk]
    · rfl
  | hold k on => rfl
  | reset => rfl
  | idle => rfl

theorem run_map (f : α → β) (ops : List (Op κ α)) : run (ops.map (Op.map f)) = (run ops).map f := by
  induction ops using List.reverseRecOn with
  | nil => rfl
  | append_singleton ops op ih =>
    rw [List.map_append, List.map_singleton, run, Runs.run_snoc, run, Runs.run_snoc]
    exact (congrArg (step · (op.map f)) ih).trans (step_map f _ op)

end

end Segments
