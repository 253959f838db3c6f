import Mathlib

/-!
# The entries of an ordered map

An ordered map as the list of its entries, in the order of the keys, with the entry operation: `alter k d f` applies `f` to
the value of `k`, which is `d` when there is none. `get_alter` says what it leaves under each key. A map of counts that is
only written by adding one holds as many as were added (`sum_alter`).
-/

namespace Entries

variable {K V : Type} [LinearOrder K]

/-- `entry(k).or_insert(d)`, changed by `f`. -/
def alter (k : K) (d : V) (f : V → V) : List (K × V) → List (K × V)
  | [] => [(k, f d)]
  | x :: xs => if k < x.1 then (k, f d) :: x :: xs else if k = x.1 then (k, f x.2) :: xs else x :: alter k d f xs

def get (k : K) : List (K × V) → Option V
  | [] => none
  | x :: xs => if k = x.1 then some x.2 else get k xs

/-- Each key once, in order. -/
def Ordered (xs : List (K × V)) : Prop := xs.Pairwise fun x y => x.1 < y.1

variable {k l : K} {d : V} {f : V → V} {xs : List (K × V)}

theorem mem_alter : ∀ {xs : List (K × V)}, x ∈ alter k d f xs → x.1 = k ∨ x ∈ xs
  | [], h => .inl (by rw [alter, List.mem_singleton] at h; rw [h])
  | y :: ys, h => by
    rw [alter] at h
    split at h
    · rcases List.mem_cons.1 h with rfl | h
      · exact .inl rfl
      · exact .inr h
    · split at h
      · rcases List.mem_cons.1 h with rfl | h
        · exact .inl rfl
        · exact .inr (List.mem_cons_of_mem y h)
      · rcases List.mem_cons.1 h with rfl | h
        · exact .inr List.mem_cons_self
        · exact (mem_alter h).imp_right (List.mem_cons_of_mem y)

theorem Ordered.alter : ∀ {xs : List (K × V)}, Ordered xs → Ordered (alter k d f xs)
  | [], _ => List.pairwise_singleton _ _
  | y :: ys, h => by
    obtain ⟨hy, hys⟩ := List.pairwise_cons.1 h
    rw [Entries.alter]
    split
    · next hlt =>
      refine List.pairwise_cons.2 ⟨fun z hz => ?_, h⟩
      rcases List.mem_cons.1 hz with rfl | hz
      · exact hlt
      · exact lt_trans hlt (hy z hz)
    · next hge =>
      split
      · next heq => exact List.pairwise_cons.2 ⟨fun z hz => heq ▸ hy z hz, hys⟩
      · next hne =>
        refine List.pairwise_cons.2 ⟨fun z hz => ?_, Ordered.alter hys⟩
        rcases mem_alter hz with hz | hz
        · exact hz ▸ lt_of_le_of_ne (not_lt.1 hge) (Ne.symm hne)
        · exact hy z hz

theorem get_eq_none_of_lt : ∀ {xs : List (K × V)}, (∀ x ∈ xs, k < x.1) → get k xs = none
  | [], _ => rfl
  | y :: ys, h => by
    rw [get, if_neg (ne_of_lt (h y List.mem_cons_self)), get_eq_none_of_lt fun x hx => h x (List.mem_cons_of_mem y hx)]

/-- **The entry of the key is changed, or made; every other is as it was.** -/
theorem get_alter : ∀ {xs : List (K × V)}, Ordered xs →
    get l (alter k d f xs) = if l = k then some (f ((get k xs).getD d)) else get l xs
  | [], _ => rfl
  | y :: ys, h => by
    obtain ⟨hy, hys⟩ := List.pairwise_cons.1 h
    rw [alter]
    split
    · next hlt =>
      have hnone : get k (y :: ys) = none := get_eq_none_of_lt fun z hz => by
        rcases List.mem_cons.1 hz with rfl | hz
        · exact hlt
        · exact lt_trans hlt (hy z hz)
      rw [hnone]
      rfl
    · split
      · next heq =>
        subst heq
        rw [get, get, get, if_pos rfl]
        split <;> rfl
      · next hne =>
        rw [get, get, get, get_alter hys, if_neg hne]
        by_cases hl : l = y.1
        · rw [if_pos hl, if_neg (hl ▸ Ne.symm hne), if_pos hl]
        · rw [if_neg hl, if_neg hl]

theorem get_of_mem : ∀ {xs : List (K × V)}, Ordered xs → x ∈ xs → get x.1 xs = some x.2
  | y :: ys, h, hx => by
    obtain ⟨hy, hys⟩ := List.pairwise_cons.1 h
    rw [get]
    rcases List.mem_cons.1 hx with rfl | hx
    · rw [if_pos rfl]
    · rw [if_neg (ne_of_gt (hy x hx)), get_of_mem hys hx]

theorem mem_of_get : ∀ {xs : List (K × V)}, get k xs = some v → (k, v) ∈ xs
  | y :: ys, h => by
    rw [get] at h
    split at h
    · next heq =>
      obtain rfl := Option.some.inj h
      rw [heq]
      exact List.mem_cons_self
    · exact List.mem_cons_of_mem y (mem_of_get h)

theorem mem_iff_get (h : Ordered xs) : (k, v) ∈ xs ↔ get k xs = some v := ⟨fun hx => get_of_mem h hx, mem_of_get⟩

theorem get_map {W : Type} (g : V → W) (k : K) (xs : List (K × V)) :
    get k (xs.map fun x => (x.1, g x.2)) = (get k xs).map g := by
  induction xs with
  | nil => rfl
  | cons x xs ih =>
    rw [List.map_cons, get, get, ih]
    split <;> rfl

theorem get_mapEntries {W : Type} {g : K × V → K × W} (hg : ∀ x, (g x).1 = x.1) (k : K) (xs : List (K × V)) :
    get k (xs.map g) = (get k xs).map fun v => (g (k, v)).2 := by
  induction xs with
  | nil => rfl
  | cons x xs ih =>
    rw [List.map_cons, get, get, ih, hg]
    split
    · next h => rw [h]; rfl
    · rfl

theorem mem_keys_alter : ∀ {xs : List (K × V)}, l ∈ (alter k d f xs).map Prod.fst ↔ l = k ∨ l ∈ xs.map Prod.fst
  | [] => by simp [alter]
  | y :: ys => by
    rw [alter]
    split
    · simp
    · split
      · next heq => simp [heq]
      · rw [List.map_cons, List.mem_cons, mem_keys_alter, List.map_cons, List.mem_cons]
        exact or_left_comm

theorem get_filterMap {W : Type} (g : V → Option W) (k : K) : ∀ {xs : List (K × V)}, Ordered xs →
    get k (xs.filterMap fun x => (g x.2).map fun w => (x.1, w)) = (get k xs).bind g
  | [], _ => rfl
  | x :: xs, h => by
    obtain ⟨hx, hxs⟩ := List.pairwise_cons.1 h
    have ih := get_filterMap g k hxs
    rw [get]
    cases hg : g x.2 with
    | none =>
      rw [List.filterMap_cons_none (by rw [hg]; rfl), ih]
      split
      · next hk => rw [get_eq_none_of_lt fun y hy => hk ▸ hx y hy, Option.bind_some, hg]; rfl
      · rfl
    | some w =>
      rw [List.filterMap_cons_some (by rw [hg]; rfl), get, ih]
      split
      · rw [Option.bind_some, hg]
      · rfl

theorem Ordered.filterMap {W : Type} {g : V → Option W} {xs : List (K × V)} (h : Ordered xs) :
    Ordered (xs.filterMap fun x => (g x.2).map fun w => (x.1, w)) := by
  refine List.Pairwise.filterMap _ (fun x y hxy x' hx' y' hy' => ?_) h
  obtain ⟨w, -, rfl⟩ := Option.map_eq_some_iff.1 hx'
  obtain ⟨w', -, rfl⟩ := Option.map_eq_some_iff.1 hy'
  exact hxy

/-! ## Many entries -/

section
variable {X : Type} (key : X → K) (d : X → V) (f : X → V → V)

theorem ordered_foldl_alter : ∀ (as : List X) {xs : List (K × V)}, Ordered xs →
    Ordered (as.foldl (fun xs a => alter (key a) (d a) (f a) xs) xs)
  | [], _, h => h
  | _ :: as, _, h => ordered_foldl_alter as h.alter

/-- **The entry of a key after all of them** has gone through those of the key. -/
theorem get_foldl_alter (k : K) : ∀ (as : List X) {xs : List (K × V)}, Ordered xs →
    get k (as.foldl (fun xs a => alter (key a) (d a) (f a) xs) xs) =
      (as.filter fun a => key a = k).foldl (fun o a => some (f a (o.getD (d a)))) (get k xs)
  | [], _, _ => rfl
  | a :: as, xs, h => by
    rw [List.foldl_cons, get_foldl_alter k as h.alter, get_alter h]
    by_cases hk : key a = k
    · rw [List.filter_cons_of_pos (by simpa using hk), List.foldl_cons, if_pos hk.symm, hk]
    · rw [List.filter_cons_of_neg (by simpa using hk), if_neg (Ne.symm hk)]

/-- An entry that is there is changed. -/
def change (k : K) (d : V) (f : V → V) (xs : List (K × V)) : List (K × V) := if (get k xs).isSome then alter k d f xs else xs

theorem Ordered.change {k : K} {d : V} {f : V → V} {xs : List (K × V)} (h : Ordered xs) : Ordered (Entries.change k d f xs) := by
  unfold Entries.change
  split
  · exact h.alter
  · exact h

theorem get_change {k l : K} {d : V} {f : V → V} {xs : List (K × V)} (h : Ordered xs) :
    get l (change k d f xs) = if l = k then (get k xs).map f else get l xs := by
  unfold change
  cases hget : get k xs with
  | none =>
    rw [if_neg (by simp)]
    split
    · next hl => rw [hl, hget]; rfl
    · rfl
  | some v =>
    rw [Option.isSome_some, if_pos rfl, get_alter h, hget]
    rfl

theorem ordered_foldl_change : ∀ (as : List X) {xs : List (K × V)}, Ordered xs →
    Ordered (as.foldl (fun xs a => change (key a) (d a) (f a) xs) xs)
  | [], _, h => h
  | _ :: as, _, h => ordered_foldl_change as h.change

theorem get_foldl_change (k : K) : ∀ (as : List X) {xs : List (K × V)}, Ordered xs →
    get k (as.foldl (fun xs a => change (key a) (d a) (f a) xs) xs) =
      (get k xs).map fun v => (as.filter fun a => key a = k).foldl (fun v a => f a v) v
  | [], xs, _ => by
    rw [List.foldl_nil, List.filter_nil]
    cases get k xs <;> rfl
  | a :: as, xs, h => by
    rw [List.foldl_cons, get_foldl_change k as h.change, get_change h]
    by_cases hk : key a = k
    · rw [List.filter_cons_of_pos (by simpa using hk), if_pos hk.symm, hk, Option.map_map]
      rfl
    · rw [List.filter_cons_of_neg (by simpa using hk), if_neg (Ne.symm hk)]

end

theorem Ordered.map {W : Type} {xs : List (K × V)} (h : Ordered xs) {g : K × V → K × W} (hg : ∀ x, (g x).1 = x.1) :
    Ordered (xs.map g) := by
  refine List.pairwise_map.2 (h.imp ?_)
  intro x y hxy
  rwa [hg, hg]

theorem forall₂_of_get {W : Type} {R : V → W → Prop} : ∀ {xs : List (K × V)} {ys : List (K × W)}, Ordered xs → Ordered ys →
    (∀ k, Option.Rel R (get k xs) (get k ys)) → List.Forall₂ (fun x y => x.1 = y.1 ∧ R x.2 y.2) xs ys
  | [], [], _, _, _ => .nil
  | [], y :: ys, _, _, h => by
    have hy := h y.1
    rw [get, get, if_pos rfl] at hy
    cases hy
  | x :: xs, [], _, _, h => by
    have hx := h x.1
    rw [get, get, if_pos rfl] at hx
    cases hx
  | x :: xs, y :: ys, hxs, hys, h => by
    obtain ⟨hx, hxs'⟩ := List.pairwise_cons.1 hxs
    obtain ⟨hy, hys'⟩ := List.pairwise_cons.1 hys
    have hkey : x.1 = y.1 := by
      rcases lt_trichotomy x.1 y.1 with hlt | heq | hlt
      · have hrel := h x.1
        have hnone : get x.1 (y :: ys) = none := get_eq_none_of_lt fun z hz => by
          rcases List.mem_cons.1 hz with rfl | hz
          · exact hlt
          · exact lt_trans hlt (hy z hz)
        rw [hnone, get, if_pos rfl] at hrel
        cases hrel
      · exact heq
      · have hrel := h y.1
        have hnone : get y.1 (x :: xs) = none := get_eq_none_of_lt fun z hz => by
          rcases List.mem_cons.1 hz with rfl | hz
          · exact hlt
          · exact lt_trans hlt (hx z hz)
        rw [hnone, get, if_pos rfl] at hrel
        cases hrel
    refine .cons ⟨hkey, ?_⟩ (forall₂_of_get hxs' hys' fun k => ?_)
    · have hrel := h x.1
      rw [get, get, if_pos rfl, if_pos hkey] at hrel
      cases hrel with
      | some hr => exact hr
    · by_cases hk : k = x.1
      · have hxnone : get k xs = none := get_eq_none_of_lt fun z hz => hk ▸ hx z hz
        have hynone : get k ys = none := get_eq_none_of_lt fun z hz => hk ▸ hkey ▸ hy z hz
        rw [hxnone, hynone]
        exact .none
      · have hrel := h k
        rwa [get, get, if_neg hk, if_neg (hkey ▸ hk)] at hrel

/-! ## Counts -/

/-- One more. -/
abbrev count (k : K) (xs : List (K × Nat)) : List (K × Nat) := alter k 0 (· + 1) xs

theorem sum_count (k : K) (xs : List (K × Nat)) : ((count k xs).map Prod.snd).sum = (xs.map Prod.snd).sum + 1 := by
  induction xs with
  | nil => rfl
  | cons x xs ih =>
    rw [count, alter]
    split
    · simp [Nat.add_comm]
    · split
      · simp only [List.map_cons, List.sum_cons]
        omega
      · simp only [List.map_cons, List.sum_cons]
        rw [count] at ih
        omega

theorem get_count {xs : List (K × Nat)} (h : Ordered xs) (k l : K) :
    (get l (count k xs)).getD 0 = (get l xs).getD 0 + if l = k then 1 else 0 := by
  rw [count, get_alter h]
  split
  · next heq =>
    rw [heq]
    rfl
  · rfl

end Entries
