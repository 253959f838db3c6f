import Mathlib.Data.List.Basic
import Mathlib.Data.List.Nodup

/-!
# Fields in insertion order

A map kept as the list of its fields in the order in which they were first written, as an insertion-ordered
map or a BSON document keeps them. A key is read with `List.lookup`.
-/

namespace Fields

universe u
variable {α : Type u}

/-- Replace in place, else append. -/
def put (k : String) (v : α) : List (String × α) → List (String × α)
  | [] => [(k, v)]
  | (l, w) :: fs => if l = k then (k, v) :: fs else (l, w) :: put k v fs

/-- Without the key. -/
def erase (k : String) (fs : List (String × α)) : List (String × α) := fs.filter fun f => f.1 ≠ k

/-- Each pair in turn. -/
def putAll (kvs fs : List (String × α)) : List (String × α) := kvs.foldl (fun fs kv => put kv.1 kv.2 fs) fs

theorem lookup_cons (l k : String) (v : α) (fs : List (String × α)) :
    List.lookup l ((k, v) :: fs) = if l = k then some v else fs.lookup l := by
  by_cases h : l = k
  · rw [if_pos h, h, List.lookup_cons_self]
  · rw [if_neg h, List.lookup_cons, beq_eq_false_iff_ne.2 h]

@[simp] theorem lookup_put (k l : String) (v : α) (fs : List (String × α)) :
    (put k v fs).lookup l = if l = k then some v else fs.lookup l := by
  induction fs with
  | nil => exact lookup_cons l k v []
  | cons f fs ih =>
    obtain ⟨m, w⟩ := f
    by_cases hm : m = k
    · rw [put, if_pos hm, lookup_cons, lookup_cons, hm]
      split <;> rfl
    · rw [put, if_neg hm, lookup_cons, lookup_cons, ih]
      by_cases hl : l = m
      · rw [if_pos hl, if_neg (hl ▸ hm), if_pos hl]
      · rw [if_neg hl, if_neg hl]

theorem lookup_erase (k l : String) (fs : List (String × α)) :
    (erase k fs).lookup l = if l = k then none else fs.lookup l := by
  induction fs with
  | nil => simp [erase]
  | cons f fs ih =>
    obtain ⟨m, w⟩ := f
    rw [erase] at ih ⊢
    by_cases hm : m = k
    · rw [List.filter_cons_of_neg (by simp [hm]), ih, lookup_cons]
      by_cases hl : l = k
      · simp [hl]
      · simp [hl, hm]
    · rw [List.filter_cons_of_pos (by simp [hm]), lookup_cons, ih, lookup_cons]
      by_cases hl : l = m
      · simp [hl, hm]
      · simp [hl]

variable {k : String}

theorem put_of_lookup (h : fs.lookup k = none) :
    put k v fs = fs ++ [(k, v)] := by
  induction fs with
  | nil => rfl
  | cons f fs ih =>
    obtain ⟨l, w⟩ := f
    rw [lookup_cons] at h
    by_cases hl : k = l
    · simp [hl] at h
    · rw [if_neg hl] at h
      rw [put, if_neg (Ne.symm hl), ih h, List.cons_append]

theorem put_self (h : fs.lookup k = some v) : put k v fs = fs := by
  induction fs with
  | nil => cases h
  | cons f fs ih =>
    obtain ⟨l, w⟩ := f
    rw [lookup_cons] at h
    by_cases hl : k = l
    · rw [if_pos hl] at h
      rw [put, if_pos hl.symm, hl, Option.some.inj h]
    · rw [if_neg hl] at h
      rw [put, if_neg (Ne.symm hl), ih h]

theorem keys_put (h : (fs.lookup k).isSome) :
    (put k v fs).map Prod.fst = fs.map Prod.fst := by
  induction fs with
  | nil => cases h
  | cons f fs ih =>
    obtain ⟨l, w⟩ := f
    rw [lookup_cons] at h
    by_cases hl : k = l
    · rw [put, if_pos hl.symm, List.map_cons, List.map_cons, hl]
    · rw [if_neg hl] at h
      rw [put, if_neg (Ne.symm hl), List.map_cons, List.map_cons, ih h]

theorem mem_put (h : f ∈ put k v fs) :
    f = (k, v) ∨ f ∈ fs := by
  induction fs with
  | nil => exact .inl (List.mem_singleton.1 h)
  | cons g fs ih =>
    obtain ⟨l, w⟩ := g
    rw [put] at h
    split at h
    · exact (List.mem_cons.1 h).imp_right (List.mem_cons_of_mem _)
    · rcases List.mem_cons.1 h with rfl | h
      · exact .inr List.mem_cons_self
      · exact (ih h).imp_right (List.mem_cons_of_mem _)

theorem lookup_eq_none {fs : List (String × α)} : fs.lookup k = none ↔ ∀ f ∈ fs, f.1 ≠ k := by
  induction fs with
  | nil => simp
  | cons f fs ih =>
    obtain ⟨l, w⟩ := f
    rw [lookup_cons, List.forall_mem_cons]
    by_cases hl : k = l
    · simp [hl]
    · simp [hl, ih, Ne.symm hl]

theorem erase_of_lookup {fs : List (String × α)} (h : fs.lookup k = none) : erase k fs = fs :=
  List.filter_eq_self.2 fun f hf => by simpa using lookup_eq_none.1 h f hf

theorem mem_of_lookup {v : α} {fs : List (String × α)} (h : fs.lookup k = some v) : (k, v) ∈ fs := by
  induction fs with
  | nil => cases h
  | cons f fs ih =>
    obtain ⟨l, w⟩ := f
    rw [lookup_cons] at h
    by_cases hl : k = l
    · rw [if_pos hl] at h
      rw [hl, Option.some.inj h]
      exact List.mem_cons_self
    · rw [if_neg hl] at h
      exact List.mem_cons_of_mem _ (ih h)

@[simp] theorem put_ne_nil (k : String) (v : α) (fs : List (String × α)) : put k v fs ≠ [] := by
  cases fs with
  | nil => exact List.cons_ne_nil _ _
  | cons f fs =>
    rw [put]
    split <;> exact List.cons_ne_nil _ _

theorem head_put (k : String) (v : α) (fs : List (String × α)) :
    ((put k v fs).head?.map Prod.fst) = some ((fs.head?.map Prod.fst).getD k) := by
  cases fs with
  | nil => rfl
  | cons f fs =>
    rw [put]
    split
    · next h => simp [h]
    · rfl

@[simp] theorem putAll_nil (fs : List (String × α)) : putAll [] fs = fs := rfl

@[simp] theorem putAll_cons (kv : String × α) (kvs fs : List (String × α)) :
    putAll (kv :: kvs) fs = putAll kvs (put kv.1 kv.2 fs) := rfl

theorem lookup_putAll (l : String) : ∀ kvs fs : List (String × α),
    (putAll kvs fs).lookup l = (kvs.reverse.lookup l).or (fs.lookup l)
  | [], fs => by simp
  | kv :: kvs, fs => by
    have happ : ∀ xs ys : List (String × α), (xs ++ ys).lookup l = (xs.lookup l).or (ys.lookup l) := by
      intro xs ys
      induction xs with
      | nil => simp
      | cons x xs ih =>
        rw [List.cons_append, lookup_cons, lookup_cons, ih]
        split <;> simp
    rw [putAll_cons, lookup_putAll l kvs, lookup_put, List.reverse_cons, happ, lookup_cons]
    cases List.lookup l kvs.reverse with
    | some v => simp
    | none => split <;> simp

theorem putAll_eq_nil : putAll kvs fs = [] ↔ kvs = [] ∧ fs = [] := by
  induction kvs generalizing fs with
  | nil => simp
  | cons kv kvs ih => simp [ih]

theorem putAll_of_nodup {fs : List (String × α)} : ∀ {own : List (String × α)}, ((own ++ fs).map Prod.fst).Nodup →
    putAll fs own = own ++ fs := by
  induction fs with
  | nil => exact fun _ => (List.append_nil _).symm
  | cons f fs ih =>
    intro own h
    have hsplit : own ++ f :: fs = own ++ [f] ++ fs := by rw [List.append_assoc, List.singleton_append]
    rw [hsplit] at h ⊢
    have hnew : own.lookup f.1 = none := by
      refine lookup_eq_none.2 fun g hg he => ?_
      rw [List.map_append, List.map_append] at h
      exact List.disjoint_of_nodup_append (List.Nodup.of_append_left h) (List.mem_map_of_mem hg) (he ▸ List.mem_cons_self)
    rw [putAll_cons, put_of_lookup hnew]
    exact ih h

theorem length_put (k : String) (v : α) (fs : List (String × α)) :
    (put k v fs).length = if (fs.lookup k).isSome then fs.length else fs.length + 1 := by
  by_cases h : (fs.lookup k).isSome
  · rw [if_pos h, ← List.length_map Prod.fst, keys_put h, List.length_map]
  · rw [if_neg h, put_of_lookup (Option.not_isSome_iff_eq_none.1 h), List.length_append, List.length_singleton]

theorem nodup_put {v : α} {fs : List (String × α)} (h : (fs.map Prod.fst).Nodup) :
    ((put k v fs).map Prod.fst).Nodup := by
  by_cases hk : fs.lookup k = none
  · rw [put_of_lookup hk, List.map_append, List.map_singleton]
    refine h.append (List.nodup_singleton _) fun l hl hl' => ?_
    obtain ⟨f, hf, he⟩ := List.mem_map.1 hl
    exact lookup_eq_none.1 hk f hf (he.trans (List.mem_singleton.1 hl'))
  · rwa [keys_put (Option.isSome_iff_ne_none.2 hk)]

theorem length_putAll_le : ∀ kvs fs : List (String × α), (putAll kvs fs).length ≤ fs.length + kvs.length
  | [], _ => Nat.le_refl _
  | kv :: kvs, fs => by
    have hle := length_putAll_le kvs (put kv.1 kv.2 fs)
    rw [length_put] at hle
    rw [putAll_cons, List.length_cons]
    split at hle <;> omega

theorem nodup_of_length_putAll : ∀ {kvs own : List (String × α)}, (own.map Prod.fst).Nodup →
    (putAll kvs own).length = own.length + kvs.length → ((own ++ kvs).map Prod.fst).Nodup
  | [], own, hown, _ => by rwa [List.append_nil]
  | kv :: kvs, own, hown, h => by
    rw [putAll_cons, List.length_cons] at h
    by_cases hnew : own.lookup kv.1 = none
    · rw [put_of_lookup hnew] at h
      have hsplit : own ++ kv :: kvs = own ++ [kv] ++ kvs := by rw [List.append_assoc, List.singleton_append]
      rw [hsplit]
      refine nodup_of_length_putAll ?_ (by rw [h, List.length_append, List.length_singleton]; omega)
      exact put_of_lookup hnew ▸ @nodup_put α kv.1 kv.2 own hown
    · have hle := length_putAll_le kvs (put kv.1 kv.2 own)
      rw [length_put, if_pos (Option.isSome_iff_ne_none.2 hnew)] at hle
      omega

theorem head_putAll : ∀ kvs fs : List (String × α), fs ≠ [] →
    ((putAll kvs fs).head?.map Prod.fst) = fs.head?.map Prod.fst
  | [], _, _ => rfl
  | kv :: kvs, fs, h => by
    rw [putAll_cons, head_putAll kvs _ (put_ne_nil _ _ _), head_put]
    cases fs with
    | nil => exact absurd rfl h
    | cons f fs => rfl

end Fields
