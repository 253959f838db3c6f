import Mathlib.Data.List.Infix

/-!
# Cutting a list at the first occurrence of a pattern

`cut pat s` is what `s.find(pat)` and the two slices around the match give. `cut_some` and `cut_none` say which cut it is,
`cut_append` that it does not depend on what follows the match. `joined_eq_iff`: in how many ways a list is two parts
with a mark between them.
-/

namespace Cut

variable {α : Type*} [DecidableEq α]

/-- What stands before and behind the first occurrence of the pattern. -/
def cut (pat : List α) : List α → Option (List α × List α)
  | [] => if pat = [] then some ([], []) else none
  | c :: cs => if pat <+: c :: cs then some ([], (c :: cs).drop pat.length) else (cut pat cs).map fun r => (c :: r.1, r.2)

attribute [local simp] cut

theorem cut_eq : ∀ {s a b : List α}, cut pat s = some (a, b) → s = a ++ pat ++ b
  | [], a, b, h => by
    rw [cut] at h
    split at h
    · next hpat =>
      obtain ⟨rfl, rfl⟩ := Prod.mk.inj (Option.some.inj h)
      simp [hpat]
    · cases h
  | c :: cs, a, b, h => by
    rw [cut] at h
    split at h
    · next hpre =>
      obtain ⟨rfl, rfl⟩ := Prod.mk.inj (Option.some.inj h)
      obtain ⟨rest, hrest⟩ := hpre
      rw [← hrest]
      simp
    · obtain ⟨⟨a', b'⟩, hcut, heq⟩ := Option.map_eq_some_iff.1 h
      obtain ⟨rfl, rfl⟩ := Prod.mk.inj heq
      rw [cut_eq hcut]
      rfl

theorem cut_none : ∀ {s : List α}, cut pat s = none ↔ ¬ pat <:+: s
  | [] => by
    rw [cut]
    by_cases hpat : pat = []
    · simp [hpat]
    · simp [hpat]
  | c :: cs => by
    rw [cut, List.infix_cons_iff]
    by_cases hpre : pat <+: c :: cs
    · simp [hpre]
    · simp [hpre, cut_none (s := cs)]

theorem cut_append (t : List α) : ∀ {s a b : List α}, cut pat s = some (a, b) → cut pat (a ++ pat ++ t) = some (a, t)
  | [], a, b, h => by
    rw [cut] at h
    split at h
    · next hpat =>
      obtain ⟨rfl, _⟩ := Prod.mk.inj (Option.some.inj h)
      subst hpat
      cases t with
      | nil => rfl
      | cons c t => simp [cut]
    · cases h
  | c :: cs, a, b, h => by
    rw [cut] at h
    split at h
    · obtain ⟨rfl, _⟩ := Prod.mk.inj (Option.some.inj h)
      rw [List.nil_append]
      cases hpt : pat ++ t with
      | nil =>
        obtain ⟨rfl, rfl⟩ := List.append_eq_nil_iff.1 hpt
        rfl
      | cons d ds =>
        rw [cut, if_pos ⟨t, hpt⟩, ← hpt, List.drop_left]
    · next hpre =>
      obtain ⟨⟨a', b'⟩, hcut, heq⟩ := Option.map_eq_some_iff.1 h
      obtain ⟨rfl, rfl⟩ := Prod.mk.inj heq
      have hs : cs = a' ++ pat ++ b' := cut_eq hcut
      -- a match at the front would be one in front of what followed before
      have hpre' : ¬ pat <+: c :: (a' ++ pat ++ t) := by
        intro hm
        refine hpre ?_
        rw [hs]
        have h1 : pat <+: c :: a' ++ pat := by
          refine List.prefix_of_prefix_length_le hm ⟨t, by simp⟩ ?_
          simp only [List.length_append, List.length_cons]
          omega
        exact h1.trans ⟨b', by simp⟩
      rw [List.cons_append, List.cons_append, cut, if_neg hpre', cut_append t hcut]
      rfl

theorem cut_singleton : ∀ {s a b : List α}, cut [c] s = some (a, b) ↔ s = a ++ c :: b ∧ c ∉ a
  | [], a, b => by simp [cut]
  | d :: s, a, b => by
    rw [cut]
    by_cases hd : c = d
    · subst hd
      rw [if_pos ⟨s, rfl⟩]
      cases a with
      | nil => simp
      | cons e a =>
        simp only [Option.some.injEq, Prod.mk.injEq, List.nil_eq, reduceCtorEq, false_and, List.cons_append, List.cons.injEq,
          List.mem_cons, not_or, false_iff, not_and]
        rintro ⟨rfl, _⟩ hne
        exact absurd rfl hne
    · have hpre : ¬ [c] <+: d :: s := by simp [hd]
      rw [if_neg hpre]
      cases a with
      | nil => simp [Ne.symm hd]
      | cons e a =>
        simp only [Option.map_eq_some_iff, Prod.exists, cut_singleton (s := s), Prod.mk.injEq, List.cons.injEq, List.cons_append,
          List.mem_cons, not_or]
        constructor
        · rintro ⟨a', b', ⟨rfl, hnot⟩, ⟨rfl, rfl⟩, rfl⟩
          exact ⟨⟨rfl, rfl⟩, hd, hnot⟩
        · rintro ⟨⟨rfl, rfl⟩, _, hnot⟩
          exact ⟨a, b, ⟨rfl, hnot⟩, ⟨rfl, rfl⟩, rfl⟩

theorem cut_front (h : c ∉ a) (b : List α) : cut [c] (a ++ c :: b) = some (a, b) := cut_singleton.2 ⟨rfl, h⟩

theorem append_cons_inj {c : α} {a a' b b' : List α} (ha : c ∉ a) (ha' : c ∉ a') (h : a ++ c :: b = a' ++ c :: b') :
    a = a' ∧ b = b' := by
  have hcut := cut_front ha b
  rw [h, cut_front ha', Option.some.injEq, Prod.mk.injEq] at hcut
  exact ⟨hcut.1.symm, hcut.2.symm⟩

theorem cut_singleton_none {c : α} {s : List α} : cut [c] s = none ↔ c ∉ s := by
  rw [cut_none, List.singleton_infix_iff]

theorem cut_of_notMem {c : α} {pat : List α} : ∀ {a b : List α}, c ∉ a → cut (c :: pat) (a ++ c :: pat ++ b) = some (a, b)
  | [], b, _ => by
    have hpre : c :: pat <+: c :: (pat ++ b) := ⟨b, rfl⟩
    rw [List.nil_append, List.cons_append, cut, if_pos hpre, ← List.cons_append, List.drop_left]
  | d :: a, b, h => by
    rw [List.mem_cons, not_or] at h
    have hpre : ¬ c :: pat <+: d :: (a ++ c :: pat ++ b) := by
      rw [List.cons_prefix_cons]
      exact fun hc => h.1 hc.1
    rw [List.cons_append, List.cons_append, cut, if_neg hpre, cut_of_notMem h.2]
    rfl

omit [DecidableEq α] in
theorem joined_eq_iff : a ++ m :: b = a' ++ m :: b' ↔
    (a = a' ∧ b = b') ∨ (∃ t, a = a' ++ m :: t ∧ b' = t ++ m :: b) ∨ ∃ t, a' = a ++ m :: t ∧ b = t ++ m :: b' := by
  constructor
  · intro h
    rcases List.append_eq_append_iff.1 h with ⟨t, ha', hb⟩ | ⟨t, ha, hb'⟩
    · cases t with
      | nil =>
        simp only [List.nil_append, List.cons.injEq, true_and] at hb
        exact .inl ⟨by simpa using ha'.symm, hb⟩
      | cons c t =>
        obtain ⟨rfl, rfl⟩ := List.cons.inj hb
        exact .inr (.inr ⟨t, ha', rfl⟩)
    · cases t with
      | nil =>
        simp only [List.nil_append, List.cons.injEq, true_and] at hb'
        exact .inl ⟨by simpa using ha, hb'.symm⟩
      | cons c t =>
        obtain ⟨rfl, rfl⟩ := List.cons.inj hb'
        exact .inr (.inl ⟨t, ha, rfl⟩)
  · rintro (⟨rfl, rfl⟩ | ⟨t, rfl, rfl⟩ | ⟨t, rfl, rfl⟩)
    · rfl
    · simp
    · simp

end Cut
