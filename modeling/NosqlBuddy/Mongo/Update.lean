import NosqlBuddy.Lib.Paths
import NosqlBuddy.Mongo.Value

/-!
# Updates

`{$set: {path: value, …}}`: the values are stored as they stand. A path goes through documents, which are made where
nothing is; `none` is an error of the server, which then writes nothing.

| here | there |
| --- | --- |
| `setField` | one path; what is no document is not gone through |

`getPath_setField`, `getPath_setFields`: a path reads what was written to it, and what was there elsewhere.
-/

namespace Mongo

open Paths (Apart)

variable {d d' : Doc}

/-! ## One path -/

def setField : List String → Value → Doc → Option Doc
  | [], _, _ => none
  | [k], v, d => some (insertKV k v d)
  | k :: l :: ks, v, d => match d.lookup k with
    | none => (setField (l :: ks) v []).map fun sub => insertKV k (.doc sub) d
    | some (.doc fs) => (setField (l :: ks) v fs).map fun sub => insertKV k (.doc sub) d
    | some _ => none

/-- Above the end of the path there is nothing but documents. -/
def Clear : List String → Doc → Prop
  | k :: l :: ks, d => match d.lookup k with
    | none => True
    | some (.doc fs) => Clear (l :: ks) fs
    | some _ => False
  | _, _ => True

attribute [local simp] setField Clear

theorem clear_nil : ∀ p : List String, Clear p []
  | [] => trivial
  | [_] => trivial
  | _ :: _ :: _ => trivial

theorem setField_step (h : setField (k :: l :: ks) v d = some d') :
    ∃ fs sub, (d.lookup k = some (.doc fs) ∨ d.lookup k = none ∧ fs = []) ∧ setField (l :: ks) v fs = some sub ∧
      d' = insertKV k (.doc sub) d := by
  rw [setField] at h
  split at h
  · next hk =>
    obtain ⟨sub, hsub, rfl⟩ := Option.map_eq_some_iff.1 h
    exact ⟨[], sub, .inr ⟨hk, rfl⟩, hsub, rfl⟩
  · next fs hk =>
    obtain ⟨sub, hsub, rfl⟩ := Option.map_eq_some_iff.1 h
    exact ⟨fs, sub, .inl hk, hsub, rfl⟩
  · exact absurd h (by simp)

theorem setField_isSome : ∀ {p : List String} {v : Value} {d : Doc}, p ≠ [] → ((∃ d', setField p v d = some d') ↔ Clear p d)
  | [], _, _, h => absurd rfl h
  | [k], v, d, _ => ⟨fun _ => trivial, fun _ => ⟨_, rfl⟩⟩
  | k :: l :: ks, v, d, _ => by
    rw [setField, Clear]
    split
    · obtain ⟨sub, hsub⟩ := (setField_isSome (v := v) (List.cons_ne_nil l ks)).2 (clear_nil _)
      exact ⟨fun _ => trivial, fun _ => ⟨_, by rw [hsub]; rfl⟩⟩
    · next fs _ =>
      rw [← setField_isSome (v := v) (List.cons_ne_nil l ks)]
      constructor
      · rintro ⟨d', h⟩
        obtain ⟨sub, hsub, -⟩ := Option.map_eq_some_iff.1 h
        exact ⟨sub, hsub⟩
      · rintro ⟨sub, hsub⟩
        exact ⟨_, by rw [hsub]; rfl⟩
    · exact ⟨fun ⟨_, h⟩ => absurd h (by simp), False.elim⟩

theorem getPath_setField : ∀ {p : List String} {v : Value} {d d' : Doc}, setField p v d = some d' → getPath p d' = some v
  | [], _, _, _, h => absurd h (by simp [setField])
  | [k], v, d, d', h => by
    rw [← Option.some.inj h, getPath, lookup_insertKV, if_pos rfl]
  | k :: l :: ks, v, d, d', h => by
    obtain ⟨fs, sub, -, hsub, rfl⟩ := setField_step h
    rw [getPath, lookup_insertKV, if_pos rfl]
    exact getPath_setField hsub

theorem Apart.cons {k : String} {p q : List String} (h : Apart (k :: p) (k :: q)) : Apart p q :=
  ⟨fun hp => h.1 (List.cons_prefix_cons.2 ⟨rfl, hp⟩), fun hq => h.2 (List.cons_prefix_cons.2 ⟨rfl, hq⟩)⟩

/-- **A write changes nothing at a path that is apart from its own.** -/
theorem getPath_setField_apart : ∀ {p q : List String} {v : Value} {d d' : Doc}, setField p v d = some d' → Apart p q →
    getPath q d' = getPath q d ∧ (Clear q d' ↔ Clear q d)
  | p, [], _, _, _, _, ha => absurd (List.nil_prefix) ha.2
  | [], _, _, _, _, h, _ => absurd h (by simp [setField])
  | [k], m :: qs, v, d, d', h, ha => by
    have hmk : m ≠ k := by
      rintro rfl
      exact ha.1 (by simp)
    rw [← Option.some.inj h]
    cases qs with
    | nil => exact ⟨by rw [getPath, getPath, lookup_insertKV, if_neg hmk], Iff.rfl⟩
    | cons n qs => exact ⟨by rw [getPath, getPath, lookup_insertKV, if_neg hmk], by rw [Clear, Clear, lookup_insertKV, if_neg hmk]⟩
  | k :: l :: ks, m :: qs, v, d, d', h, ha => by
    obtain ⟨fs, sub, hfs, hsub, rfl⟩ := setField_step h
    by_cases hmk : m = k
    · subst hmk
      cases qs with
      | nil => exact absurd (by simp) ha.2
      | cons n qs =>
        obtain ⟨hget, hclear⟩ := getPath_setField_apart hsub (Apart.cons ha)
        rw [getPath, getPath, Clear, Clear, lookup_insertKV, if_pos rfl]
        rcases hfs with hk | ⟨hk, rfl⟩
        · rw [hk]
          exact ⟨hget, hclear⟩
        · rw [hk]
          have hnone : getPath (n :: qs) [] = none := by cases qs <;> rfl
          exact ⟨hget.trans hnone, hclear.trans ⟨fun _ => trivial, fun _ => clear_nil _⟩⟩
    · cases qs with
      | nil => exact ⟨by rw [getPath, getPath, lookup_insertKV, if_neg hmk], Iff.rfl⟩
      | cons n qs =>
        exact ⟨by rw [getPath, getPath, lookup_insertKV, if_neg hmk], by rw [Clear, Clear, lookup_insertKV, if_neg hmk]⟩

theorem lookup_setField (h : setField p v d = some d') (hk : p.head? ≠ some k) :
    d'.lookup k = d.lookup k := by
  match p with
  | [] => exact absurd h (by simp [setField])
  | [m] =>
    have hmk : k ≠ m := by rintro rfl; exact hk rfl
    rw [← Option.some.inj h, lookup_insertKV, if_neg hmk]
  | m :: l :: ks =>
    have hmk : k ≠ m := by rintro rfl; exact hk rfl
    obtain ⟨fs, sub, -, -, rfl⟩ := setField_step h
    rw [lookup_insertKV, if_neg hmk]

/-! ## Several paths -/

def setFields (fields : Doc) (d : Doc) : Option Doc := fields.foldlM (fun d f => setField (splitPath f.1) f.2 d) d

/-- No path lies inside another. -/
def PathsApart (names : List String) : Prop := names.Pairwise fun f g => Apart (splitPath f) (splitPath g)

instance (names : List String) : Decidable (PathsApart names) :=
  inferInstanceAs (Decidable (names.Pairwise fun f g =>
    ¬ splitPath f <+: splitPath g ∧ ¬ splitPath g <+: splitPath f))

/-- `{$set: fields}` on one document. -/
def applySet (fields : Doc) (d : Doc) : Option Doc :=
  if (∀ f ∈ fields, ValidPath (splitPath f.1)) ∧ PathsApart (fields.map Prod.fst) then
    (setFields fields d).bind fun d' => if d'.lookup "_id" = d.lookup "_id" then some d' else none
  else none

/-- An update document of one `$set`. -/
def applyUpdate : Value → Doc → Option Doc
  | .doc [("$set", .doc fields)], d => applySet fields d
  | _, _ => none

/-- Writes at paths that are apart: each path reads what was written to it, a path apart from all what was there. -/
theorem getPath_setFields : ∀ {fields : Doc} {d d' : Doc}, setFields fields d = some d' →
    PathsApart (fields.map Prod.fst) →
    (∀ f ∈ fields, getPath (splitPath f.1) d' = some f.2) ∧
    ∀ q, (∀ f ∈ fields, Apart (splitPath f.1) q) → getPath q d' = getPath q d
  | [], d, d', h, _ => by
    rw [← Option.some.inj h]
    exact ⟨by simp, fun q _ => rfl⟩
  | f :: fs, d, d', h, ha => by
    rw [PathsApart, List.map_cons, List.pairwise_cons] at ha
    rw [setFields, List.foldlM_cons] at h
    obtain ⟨d₁, h₁, h⟩ := Option.bind_eq_some_iff.1 h
    obtain ⟨hget, hkeep⟩ := @getPath_setFields fs _ _ h ha.2
    refine ⟨?_, fun q hq => ?_⟩
    · intro g hg
      rcases List.mem_cons.1 hg with rfl | hg
      · rw [hkeep _ fun x hx => (ha.1 _ (List.mem_map_of_mem hx)).symm, getPath_setField h₁]
      · exact hget g hg
    · rw [hkeep q fun x hx => hq x (List.mem_cons_of_mem f hx), (getPath_setField_apart h₁ (hq f List.mem_cons_self)).1]

theorem setFields_isSome : ∀ {fields : Doc} {d : Doc}, (∀ f ∈ fields, splitPath f.1 ≠ []) →
    PathsApart (fields.map Prod.fst) →
    ((∃ d', setFields fields d = some d') ↔ ∀ f ∈ fields, Clear (splitPath f.1) d)
  | [], d, _, _ => ⟨fun _ => by simp, fun _ => ⟨d, rfl⟩⟩
  | f :: fs, d, hne, ha => by
    rw [PathsApart, List.map_cons, List.pairwise_cons] at ha
    have hrest := fun d₁ => @setFields_isSome fs d₁ (fun g hg => hne g (List.mem_cons_of_mem f hg)) ha.2
    have hone := @setField_isSome (splitPath f.1) f.2 d (hne f List.mem_cons_self)
    have hkeep : ∀ d₁, setField (splitPath f.1) f.2 d = some d₁ → ∀ g ∈ fs,
        (Clear (splitPath g.1) d₁ ↔ Clear (splitPath g.1) d) :=
      fun d₁ h g hg => (getPath_setField_apart h (ha.1 _ (List.mem_map_of_mem hg))).2
    constructor
    · rintro ⟨d', h⟩
      rw [setFields, List.foldlM_cons] at h
      obtain ⟨d₁, h₁, h⟩ := Option.bind_eq_some_iff.1 h
      have hclear := (hrest d₁).1 ⟨d', h⟩
      intro g hg
      rcases List.mem_cons.1 hg with rfl | hg
      · exact hone.1 ⟨d₁, h₁⟩
      · exact (hkeep d₁ h₁ g hg).1 (hclear g hg)
    · intro h
      obtain ⟨d₁, h₁⟩ := hone.2 (h f List.mem_cons_self)
      obtain ⟨d', h'⟩ := (hrest d₁).2 fun g hg => (hkeep d₁ h₁ g hg).2 (h g (List.mem_cons_of_mem f hg))
      exact ⟨d', by rw [setFields, List.foldlM_cons, h₁]; exact h'⟩

theorem lookup_setFields : ∀ {fields : Doc} {d d' : Doc} {k : String}, setFields fields d = some d' →
    (∀ f ∈ fields, (splitPath f.1).head? ≠ some k) → d'.lookup k = d.lookup k
  | [], d, d', k, h, _ => by rw [← Option.some.inj h]
  | f :: fs, d, d', k, h, hk => by
    rw [setFields, List.foldlM_cons] at h
    obtain ⟨d₁, h₁, h⟩ := Option.bind_eq_some_iff.1 h
    rw [@lookup_setFields fs _ _ _ h fun g hg => hk g (List.mem_cons_of_mem f hg),
      lookup_setField h₁ (hk f List.mem_cons_self)]

end Mongo
