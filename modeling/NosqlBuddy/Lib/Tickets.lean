import Mathlib.Data.List.Perm.Basic
import NosqlBuddy.Lib.Runs

/-!
# Numbers that are taken first and placed later

A counter for each domain hands out numbers; a number is placed in a list in a later step, in any order. The
numbers placed and outstanding are always those handed out (`issued_run`), and the numbers of each domain stand
in the list in the order 0, 1, 2, … exactly when every step places the least outstanding number of its domain
(`inOrder_iff`).
-/

namespace Tickets

variable {D : Type*} [DecidableEq D]

structure State (D : Type*) where
  counter : D → Nat
  pending : List (D × Nat)
  placed : List (D × Nat)

inductive Step (D : Type*) where
  | take (d : D)
  | place (i : Nat)

def step (s : State D) : Step D → State D
  | .take d => { s with counter := Function.update s.counter d (s.counter d + 1), pending := s.pending ++ [(d, s.counter d)] }
  | .place i =>
    match s.pending[i]? with
    | some x => { s with pending := s.pending.eraseIdx i, placed := s.placed ++ [x] }
    | none => s

/-- The numbers of a domain, in the order of the list. -/
def numbersOf (d : D) (xs : List (D × Nat)) : List Nat := (xs.filter (·.1 = d)).map Prod.snd

/-- The numbers of each domain are 0, 1, 2, …. -/
def InOrder (xs : List (D × Nat)) : Prop := ∀ d, numbersOf d xs = List.range (numbersOf d xs).length

/-- The number that is placed is the least outstanding one of its domain. -/
def InTurn (s : State D) : Step D → Prop
  | .take _ => True
  | .place i => ∀ x, s.pending[i]? = some x → ∀ y ∈ s.pending, y.1 = x.1 → x.2 ≤ y.2

/-- Every number handed out is placed or outstanding, once. -/
def Issued (s : State D) : Prop :=
  ∀ d, (numbersOf d s.placed ++ numbersOf d s.pending).Perm (List.range (s.counter d))

theorem numbersOf_append (d : D) (xs ys : List (D × Nat)) : numbersOf d (xs ++ ys) = numbersOf d xs ++ numbersOf d ys := by
  simp [numbersOf]

theorem numbersOf_singleton (d : D) (x : D × Nat) : numbersOf d [x] = if x.1 = d then [x.2] else [] := by
  unfold numbersOf
  split
  · next h => simp [h]
  · next h => simp [h]

theorem mem_numbersOf {d : D} {xs : List (D × Nat)} {n : Nat} : n ∈ numbersOf d xs ↔ (d, n) ∈ xs := by
  simp [numbersOf]

theorem numbersOf_perm (h : xs.Perm ys) (d : D) : (numbersOf d xs).Perm (numbersOf d ys) :=
  (h.filter _).map _

/-- **One step** hands out the next number, or places one that was handed out. -/
theorem issued_step (s : State D) (a : Step D) (h : Issued s) : Issued (step s a) := by
  intro d
  cases a with
  | take d' =>
    simp only [step]
    rw [numbersOf_append, numbersOf_singleton, ← List.append_assoc]
    by_cases hd : d' = d
    · subst hd
      rw [if_pos rfl, Function.update_self, List.range_succ]
      exact (h d').append_right _
    · rw [if_neg hd, List.append_nil, Function.update_of_ne (Ne.symm hd)]
      exact h d
  | place i =>
    simp only [step]
    split
    · next x hx =>
      have hperm : (s.placed ++ [x] ++ s.pending.eraseIdx i).Perm (s.placed ++ s.pending) := by
        rw [List.append_assoc]
        refine List.Perm.append_left _ ?_
        obtain ⟨hi, rfl⟩ := List.getElem?_eq_some_iff.1 hx
        exact List.getElem_cons_eraseIdx_perm hi
      rw [← numbersOf_append]
      refine (numbersOf_perm hperm d).trans ?_
      rw [numbersOf_append]
      exact h d
    · exact h d

theorem issued_run {s : State D} (h : Issued s) (as : List (Step D)) : Issued (Runs.run step s as) :=
  Runs.run_inv (fun _ a _ => issued_step _ a) (Runs.guarded_true s as) h

theorem inOrder_concat {xs : List (D × Nat)} {x : D × Nat} :
    InOrder (xs ++ [x]) ↔ InOrder xs ∧ x.2 = (numbersOf x.1 xs).length := by
  have hlist : ∀ (l : List Nat) (n : Nat), l ++ [n] = List.range (l ++ [n]).length ↔ l = List.range l.length ∧ n = l.length := by
    intro l n
    rw [List.length_append, List.length_singleton, List.range_succ]
    constructor
    · intro h
      obtain ⟨hl, hn⟩ := List.append_inj h (by simp)
      exact ⟨hl, List.singleton_inj.1 hn⟩
    · rintro ⟨hl, rfl⟩
      rw [← hl]
  constructor
  · intro h
    refine ⟨fun d => ?_, ?_⟩
    · have hd := h d
      rw [numbersOf_append, numbersOf_singleton] at hd
      split at hd
      · exact ((hlist _ _).1 hd).1
      · simpa using hd
    · have hd := h x.1
      rw [numbersOf_append, numbersOf_singleton, if_pos rfl] at hd
      exact ((hlist _ _).1 hd).2
  · rintro ⟨h, hx⟩ d
    rw [numbersOf_append, numbersOf_singleton]
    split
    · next hd =>
      subst hd
      exact (hlist _ _).2 ⟨h _, hx⟩
    · simpa using h d

theorem least_pending {s : State D} (h : Issued s) (ho : InOrder s.placed) {x : D × Nat} (hx : x ∈ s.pending) :
    (∀ y ∈ s.pending, y.1 = x.1 → x.2 ≤ y.2) ↔ x.2 = (numbersOf x.1 s.placed).length := by
  have hperm := h x.1
  rw [ho x.1] at hperm
  generalize hk : (numbersOf x.1 s.placed).length = k at hperm
  have hnodup : (List.range k ++ numbersOf x.1 s.pending).Nodup := hperm.nodup_iff.2 List.nodup_range
  have hge : ∀ n ∈ numbersOf x.1 s.pending, k ≤ n := by
    intro n hn
    by_contra hlt
    exact (List.nodup_append.1 hnodup).2.2 n (List.mem_range.2 (Nat.lt_of_not_le hlt)) n hn rfl
  have hmem : x.2 ∈ numbersOf x.1 s.pending := mem_numbersOf.2 hx
  constructor
  · intro hleast
    have hlt : x.2 < s.counter x.1 := List.mem_range.1 (hperm.mem_iff.1 (List.mem_append_right _ hmem))
    have hk' : k ∈ List.range k ++ numbersOf x.1 s.pending :=
      hperm.mem_iff.2 (List.mem_range.2 (Nat.lt_of_le_of_lt (hge _ hmem) hlt))
    rcases List.mem_append.1 hk' with hk' | hk'
    · exact absurd (List.mem_range.1 hk') (Nat.lt_irrefl k)
    · exact Nat.le_antisymm (hleast (x.1, k) (mem_numbersOf.1 hk') rfl) (hge _ hmem)
  · rintro hx y hy hd
    rw [hx]
    refine hge _ (mem_numbersOf.2 ?_)
    rw [← hd]
    exact hy

/-- **One step** keeps the order exactly when it is in turn. -/
theorem inOrder_step (s : State D) (a : Step D) (h : Issued s) :
    InOrder (step s a).placed ↔ InOrder s.placed ∧ InTurn s a := by
  cases a with
  | take d => simp only [step, InTurn, and_true]
  | place i =>
    cases hx : s.pending[i]? with
    | none => simp only [step, hx, InTurn, reduceCtorEq, false_imp_iff, implies_true, and_true]
    | some x =>
      simp only [step, hx, inOrder_concat, InTurn, Option.some.injEq, forall_eq']
      exact and_congr_right fun ho => (least_pending h ho (List.mem_of_getElem? hx)).symm

/-- **The order of a run**: 0, 1, 2, … in each domain exactly when every number is placed in turn. -/
theorem inOrder_iff (h : Issued s) (ho : InOrder s.placed) (as : List (Step D)) :
    InOrder (Runs.run step s as).placed ↔ Runs.Guarded step InTurn s as := by
  rw [Runs.run_good_iff (I := Issued) (Q := fun s => InOrder s.placed) issued_step inOrder_step h]
  exact and_iff_right ho

end Tickets
