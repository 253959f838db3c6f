import NosqlBuddy.Mongo.Value

/-!
# What a filter means

| here | there |
| --- | --- |
| `Meaning` | what one operator on one field means, and what a top-level operator means, on documents of any kind |
| `Matches` | a filter: every entry, where `$and`, `$or` and `$nor` are over the filters of their array |
| `FieldHolds` | the condition of a field: operators when its first key is one, else a value to be equal to |

What the single operators mean is open, so that a result holds for all of them. `$options` is no operator of its own, it
belongs to `$regex`.
-/

namespace Mongo

structure Meaning (D : Type) where
  /-- `{field: {op: operand}}`, with the options where there are some -/
  holds : String → String → Value → Option Value → D → Prop
  /-- `{op: operand}` -/
  top : String → Value → D → Prop

variable {D : Type} (M : Meaning D)

/-- One operator among those of a field. -/
def OperatorHolds (field : String) (ops : List (String × Value)) (o : String × Value) (d : D) : Prop :=
  if o.1 = "$options" then True
  else M.holds field o.1 o.2 (if o.1 = "$regex" then ops.lookup "$options" else none) d

def FieldHolds (field : String) (v : Value) (d : D) : Prop :=
  match v with
  | .doc (o :: ops) =>
    if isOperator o.1 then ∀ p ∈ o :: ops, OperatorHolds M field (o :: ops) p d else M.holds field "$eq" v none d
  | _ => M.holds field "$eq" v none d

/-- An entry that is no group. -/
def EntryHolds (k : String) (v : Value) (d : D) : Prop := if isOperator k then M.top k v d else FieldHolds M k v d

mutual

def Matches : Value → D → Prop
  | .doc fs, d => MatchesEntries fs d
  | _, _ => False

/-- Every entry. -/
def MatchesEntries : List (String × Value) → D → Prop
  | [], _ => True
  | (k, .arr vs) :: fs, d =>
    (if k = "$and" then MatchesAll vs d
      else if k = "$or" then MatchesAny vs d
      else if k = "$nor" then ¬ MatchesAny vs d
      else EntryHolds M k (.arr vs) d) ∧ MatchesEntries fs d
  | (k, v) :: fs, d => EntryHolds M k v d ∧ MatchesEntries fs d

def MatchesAll : List Value → D → Prop
  | [], _ => True
  | v :: vs, d => Matches v d ∧ MatchesAll vs d

def MatchesAny : List Value → D → Prop
  | [], _ => False
  | v :: vs, d => Matches v d ∨ MatchesAny vs d

end

variable {M} {d : D}

theorem matches_doc (fs : List (String × Value)) : Matches M (.doc fs) d = MatchesEntries M fs d := rfl

theorem matchesEntries_nil : MatchesEntries M [] d = True := rfl

theorem matchesEntries_arr (k : String) (vs : List Value) (fs : List (String × Value)) :
    MatchesEntries M ((k, .arr vs) :: fs) d =
      ((if k = "$and" then MatchesAll M vs d
        else if k = "$or" then MatchesAny M vs d
        else if k = "$nor" then ¬ MatchesAny M vs d
        else EntryHolds M k (.arr vs) d) ∧ MatchesEntries M fs d) := rfl

variable {fs : List (String × Value)} {k : String} {v : Value}

theorem matchesEntries_other (h : ∀ vs, v ≠ .arr vs) :
    MatchesEntries M ((k, v) :: fs) d = (EntryHolds M k v d ∧ MatchesEntries M fs d) := by
  cases v with
  | arr vs => exact absurd rfl (h vs)
  | null | bool _ | num _ | str _ | doc _ => rfl

theorem matchesAll_cons (v : Value) (vs : List Value) : MatchesAll M (v :: vs) d = (Matches M v d ∧ MatchesAll M vs d) := rfl

theorem matchesAny_cons (v : Value) (vs : List Value) : MatchesAny M (v :: vs) d = (Matches M v d ∨ MatchesAny M vs d) := rfl

variable {vs : List Value}

theorem matchesAll_iff : MatchesAll M vs d ↔ ∀ v ∈ vs, Matches M v d := by
  induction vs with
  | nil => exact iff_of_true trivial fun v hv => absurd hv List.not_mem_nil
  | cons v vs ih => rw [matchesAll_cons, ih, List.forall_mem_cons]

theorem matchesAny_iff : MatchesAny M vs d ↔ ∃ v ∈ vs, Matches M v d := by
  induction vs with
  | nil => exact iff_of_false id fun h => List.not_mem_nil h.choose_spec.1
  | cons v vs ih => simp only [matchesAny_cons, ih, List.mem_cons, exists_eq_or_imp]

/-- An entry that is not one of the three groups. -/
def NoGroup (k : String) (v : Value) : Prop := k ∈ ["$and", "$or", "$nor"] → ∀ vs, v ≠ .arr vs

theorem matchesEntries_cons (h : NoGroup k v) :
    MatchesEntries M ((k, v) :: fs) d ↔ EntryHolds M k v d ∧ MatchesEntries M fs d := by
  cases v with
  | arr vs =>
    have hne : k ≠ "$and" ∧ k ≠ "$or" ∧ k ≠ "$nor" := by
      refine ⟨?_, ?_, ?_⟩ <;>
      · rintro rfl
        exact h (by simp) vs rfl
    rw [matchesEntries_arr, if_neg hne.1, if_neg hne.2.1, if_neg hne.2.2]
  | null | bool _ | num _ | str _ | doc _ => exact Iff.of_eq (matchesEntries_other fun vs hv => by cases hv)

theorem matchesEntries_split (f : String × Value) (fs : List (String × Value)) :
    MatchesEntries M (f :: fs) d ↔ MatchesEntries M [f] d ∧ MatchesEntries M fs d := by
  obtain ⟨k, v⟩ := f
  by_cases harr : ∃ vs, v = .arr vs
  · obtain ⟨vs, rfl⟩ := harr
    rw [matchesEntries_arr, matchesEntries_arr, matchesEntries_nil, and_true]
  · have hv : ∀ vs, v ≠ .arr vs := fun vs he => harr ⟨vs, he⟩
    rw [matchesEntries_other hv, matchesEntries_other hv, matchesEntries_nil, and_true]

theorem matches_entries : Matches M (.doc fs) d ↔ ∀ f ∈ fs, Matches M (.doc [f]) d := by
  induction fs with
  | nil => exact iff_of_true trivial fun f hf => absurd hf List.not_mem_nil
  | cons f fs ih =>
    rw [List.forall_mem_cons, matches_doc, matches_doc, matchesEntries_split]
    exact and_congr Iff.rfl ih

theorem matches_single (h : NoGroup k v) : Matches M (.doc [(k, v)]) d ↔ EntryHolds M k v d := by
  rw [matches_doc, matchesEntries_cons h, matchesEntries_nil, and_true]

theorem fieldHolds_ops (field : String) (o : String × Value) (ops : List (String × Value)) :
    FieldHolds M field (.doc (o :: ops)) d =
      if isOperator o.1 then ∀ p ∈ o :: ops, OperatorHolds M field (o :: ops) p d
      else M.holds field "$eq" (.doc (o :: ops)) none d := rfl

theorem fieldHolds_operator {field op : String} (hop : isOperator op = true) (hoptions : op ≠ "$options") :
    FieldHolds M field (.doc [(op, v)]) d ↔ M.holds field op v none d := by
  have hlookup : (if op = "$regex" then [(op, v)].lookup "$options" else none) = none := by
    split_ifs
    · rw [List.lookup_cons, beq_false_of_ne hoptions.symm]
      rfl
    · rfl
  rw [fieldHolds_ops, if_pos hop]
  simp only [List.mem_singleton, forall_eq, OperatorHolds, if_neg hoptions, hlookup]

theorem matches_empty : Matches M (.doc []) d := trivial

theorem matches_and : Matches M (.doc [("$and", .arr vs)]) d ↔ ∀ v ∈ vs, Matches M v d := by
  rw [matches_doc, matchesEntries_arr, if_pos rfl, matchesEntries_nil, and_true, matchesAll_iff]

theorem matches_or : Matches M (.doc [("$or", .arr vs)]) d ↔ ∃ v ∈ vs, Matches M v d := by
  rw [matches_doc, matchesEntries_arr, if_neg (by decide), if_pos rfl, matchesEntries_nil, and_true, matchesAny_iff]

theorem matches_nor : Matches M (.doc [("$nor", .arr vs)]) d ↔ ∀ v ∈ vs, ¬ Matches M v d := by
  rw [matches_doc, matchesEntries_arr, if_neg (by decide), if_neg (by decide), if_pos rfl, matchesEntries_nil, and_true, matchesAny_iff]
  simp only [not_exists, not_and]

end Mongo
