import Mathlib.Data.List.Nodup
import Mathlib.Order.Lattice

/-!
# Ordered key-value stores

The contents of an embedded store with ordered keys, as the list of its pairs in the order of the keys: `get`,
`insert`, `remove`, and `scan` over the keys with a property. `mem_insert` and `mem_remove` say what each write
leaves, and a key has one value (`get_iff`).
-/

universe u v

/-- The pairs of a store, in the order of the keys. -/
structure SortedMap (K : Type u) (V : Type v) [LinearOrder K] where
  entries : List (K × V)
  sorted : entries.Pairwise fun x y => x.1 < y.1

namespace SortedMap

variable {K : Type u} {V : Type v} [LinearOrder K]

def empty : SortedMap K V := ⟨[], List.Pairwise.nil⟩

/-- Put the pair in its place, or in the place of the pair with its key. -/
def insertEntry (k : K) (v : V) : List (K × V) → List (K × V)
  | [] => [(k, v)]
  | x :: xs => if k < x.1 then (k, v) :: x :: xs else if k = x.1 then (k, v) :: xs else x :: insertEntry k v xs

theorem mem_insertEntry : ∀ {xs : List (K × V)}, x ∈ insertEntry k v xs → x = (k, v) ∨ x ∈ xs
  | [], h => by simpa [insertEntry] using h
  | y :: ys, h => by
    rw [insertEntry] at h
    split at h
    · simpa using h
    · split at h
      · rcases List.mem_cons.1 h with h | h
        · exact .inl h
        · exact .inr (List.mem_cons_of_mem y h)
      · rcases List.mem_cons.1 h with rfl | h
        · exact .inr List.mem_cons_self
        · exact (mem_insertEntry h).imp_right (List.mem_cons_of_mem y)

theorem sorted_insertEntry : ∀ {xs : List (K × V)}, xs.Pairwise (fun x y => x.1 < y.1) →
    (insertEntry k v xs).Pairwise fun x y => x.1 < y.1
  | [], _ => List.pairwise_singleton _ _
  | x :: xs, h => by
    obtain ⟨hx, hxs⟩ := List.pairwise_cons.1 h
    rw [insertEntry]
    split
    · next hlt =>
      refine List.pairwise_cons.2 ⟨fun y hy => ?_, h⟩
      rcases List.mem_cons.1 hy with rfl | hy
      · exact hlt
      · exact lt_trans hlt (hx y hy)
    · next hge =>
      split
      · next heq => exact List.pairwise_cons.2 ⟨fun y hy => heq ▸ hx y hy, hxs⟩
      · next hne =>
        refine List.pairwise_cons.2 ⟨fun y hy => ?_, sorted_insertEntry hxs⟩
        rcases mem_insertEntry hy with rfl | hy
        · exact lt_of_le_of_ne (not_lt.1 hge) (Ne.symm hne)
        · exact hx y hy

def insert (m : SortedMap K V) (k : K) (v : V) : SortedMap K V := ⟨insertEntry k v m.entries, sorted_insertEntry m.sorted⟩

def remove (m : SortedMap K V) (k : K) : SortedMap K V := ⟨m.entries.filter (·.1 ≠ k), m.sorted.filter _⟩

def get (m : SortedMap K V) (k : K) : Option V := (m.entries.find? (·.1 = k)).map Prod.snd

/-- The values under the keys with a property, in the order of the keys. -/
def scan (m : SortedMap K V) (p : K → Bool) : List V := (m.entries.filter fun x => p x.1).map Prod.snd

variable {m : SortedMap K V} {k : K} {v : V} {x : K × V}

theorem nodup_keys (m : SortedMap K V) : (m.entries.map Prod.fst).Nodup := by
  rw [List.Nodup, List.pairwise_map]
  exact m.sorted.imp ne_of_lt

theorem entry_unique (hx : x ∈ m.entries) (hy : y ∈ m.entries) (h : x.1 = y.1) : x = y :=
  List.inj_on_of_nodup_map m.nodup_keys hx hy h

theorem get_iff : m.get k = some v ↔ (k, v) ∈ m.entries := by
  constructor
  · intro h
    obtain ⟨⟨k', v'⟩, hfind, rfl⟩ := Option.map_eq_some_iff.1 h
    obtain rfl : k' = k := by simpa using List.find?_some hfind
    exact List.mem_of_find?_eq_some hfind
  · intro h
    cases hfind : m.entries.find? (·.1 = k) with
    | none => exact absurd (decide_eq_true rfl) (List.find?_eq_none.1 hfind (k, v) h)
    | some y =>
      have hy : y.1 = k := by simpa using List.find?_some hfind
      rw [get, hfind, ← entry_unique h (List.mem_of_find?_eq_some hfind) hy.symm]
      rfl

theorem get_none : m.get k = none ↔ ∀ v, (k, v) ∉ m.entries := by
  rw [Option.eq_none_iff_forall_ne_some]
  simp only [ne_eq, get_iff]

theorem mem_insertEntry_iff : ∀ {xs : List (K × V)}, xs.Pairwise (fun x y => x.1 < y.1) →
    (x ∈ insertEntry k v xs ↔ x = (k, v) ∨ (x ∈ xs ∧ x.1 ≠ k))
  | [], _ => by simp [insertEntry]
  | y :: ys, h => by
    obtain ⟨hy, hys⟩ := List.pairwise_cons.1 h
    rw [insertEntry]
    split
    · next hlt =>
      have hne : ∀ z ∈ y :: ys, z.1 ≠ k := by
        intro z hz
        rcases List.mem_cons.1 hz with rfl | hz
        · exact ne_of_gt hlt
        · exact ne_of_gt (lt_trans hlt (hy z hz))
      rw [List.mem_cons]
      exact or_congr_right ⟨fun hx => ⟨hx, hne x hx⟩, And.left⟩
    · split
      · next heq =>
        subst heq
        rw [List.mem_cons, List.mem_cons]
        refine or_congr_right ⟨fun hx => ⟨.inr hx, ne_of_gt (hy x hx)⟩, fun ⟨hx, hne⟩ => hx.resolve_left ?_⟩
        rintro rfl
        exact hne rfl
      · next hne =>
        rw [List.mem_cons, List.mem_cons, mem_insertEntry_iff hys]
        constructor
        · rintro (rfl | rfl | ⟨hx, hk⟩)
          · exact .inr ⟨.inl rfl, Ne.symm hne⟩
          · exact .inl rfl
          · exact .inr ⟨.inr hx, hk⟩
        · rintro (rfl | ⟨rfl | hx, hk⟩)
          · exact .inr (.inl rfl)
          · exact .inl rfl
          · exact .inr (.inr ⟨hx, hk⟩)

@[simp] theorem mem_empty : x ∉ (empty : SortedMap K V).entries := List.not_mem_nil

@[simp] theorem mem_insert : x ∈ (m.insert k v).entries ↔ x = (k, v) ∨ (x ∈ m.entries ∧ x.1 ≠ k) :=
  mem_insertEntry_iff m.sorted

@[simp] theorem mem_remove : x ∈ (m.remove k).entries ↔ x ∈ m.entries ∧ x.1 ≠ k := by
  simp [remove]

theorem get_empty : (empty : SortedMap K V).get k = none := rfl

theorem get_insert : (m.insert k v).get k' = if k' = k then some v else m.get k' := by
  refine Option.ext fun w => ?_
  rw [get_iff, mem_insert]
  split
  · next heq => simp [heq, eq_comm]
  · next hne => simp [hne, get_iff]

theorem mem_scan : v ∈ m.scan p ↔ ∃ k, p k = true ∧ (k, v) ∈ m.entries := by
  simp only [scan, List.mem_map, List.mem_filter, Prod.exists]
  constructor
  · rintro ⟨k, w, ⟨h, hk⟩, rfl⟩
    exact ⟨k, hk, h⟩
  · rintro ⟨k, hk, h⟩
    exact ⟨k, v, ⟨h, hk⟩, rfl⟩

theorem nodup_scan {p : K → Bool} {f : V → K} (hf : ∀ x ∈ m.entries, p x.1 = true → f x.2 = x.1) : (m.scan p).Nodup := by
  have hkeys : ((m.entries.filter fun x => p x.1).map Prod.fst).Nodup := m.nodup_keys.sublist (List.filter_sublist.map _)
  have hmap : (m.scan p).map f = (m.entries.filter fun x => p x.1).map Prod.fst := by
    rw [scan, List.map_map]
    refine List.map_congr_left fun x hx => ?_
    obtain ⟨hmem, hp⟩ := List.mem_filter.1 hx
    exact hf x hmem hp
  exact List.Nodup.of_map f (hmap ▸ hkeys)

end SortedMap
