import NosqlBuddy.Lib.Fields

/-!
# Dotted paths into nested documents

Values some of which are documents of values. What a document says is what `view` sees of it: at every path
nothing, a document, or a value that is none. The order of the fields does not matter to it.

`view_setAt` and `view_eraseAt` say what a write at one path changes, `view_runActions` what several writes at
paths do of which none lies below another.
-/

namespace Paths
open Fields

universe u

/-- Values that may be documents. -/
class Nested (V : Type u) where
  open? : V → Option (List (String × V))
  close : List (String × V) → V
  open_close : ∀ d, open? (close d) = some d

export Nested (open? close open_close)

/-- A document is its fields. -/
class LawfulNested (V : Type u) [Nested V] : Prop where
  close_open : ∀ {v : V} {d}, open? v = some d → close d = v

attribute [simp] open_close

variable {V : Type u} [Nested V]

/-- The value at a path, through documents only. -/
def look : List String → V → Option V
  | [], v => some v
  | k :: ks, v => (open? v).bind fun d => (d.lookup k).bind (look ks)

/-- A value that is no document. -/
def leaf (v : V) : Option V := if (open? v).isSome then none else some v

/-- What stands at the path: nothing, a document, or a leaf. -/
def view (p : List String) (v : V) : Option (Option V) := (look p v).map leaf

/-- The values say the same at every path. -/
def SameFields (v w : V) : Prop := ∀ p, view p v = view p w

/-- Put a value at a path, making the documents on the way. -/
def setAt : List String → V → List (String × V) → List (String × V)
  | [], _, d => d
  | [k], v, d => put k v d
  | k :: l :: ks, v, d => put k (close (setAt (l :: ks) v (((d.lookup k).bind open?).getD []))) d

/-- Without what stands at a path. -/
def eraseAt : List String → List (String × V) → List (String × V)
  | [], d => d
  | [k], d => erase k d
  | k :: l :: ks, d =>
    match (d.lookup k).bind open? with
    | some sub => put k (close (eraseAt (l :: ks) sub)) d
    | none => d

/-! ## Looking -/

attribute [local simp] setAt eraseAt

@[simp] theorem look_nil (v : V) : look [] v = some v := rfl

@[simp] theorem look_close (k : String) (ks : List String) (d : List (String × V)) :
    look (k :: ks) (close d) = (d.lookup k).bind (look ks) := by
  rw [look, open_close, Option.bind_some]

@[simp] theorem leaf_close (d : List (String × V)) : leaf (close d : V) = none := by simp [leaf]

@[simp] theorem view_nil (d : List (String × V)) : view [] (close d : V) = some none := by simp [view]

theorem view_cons (k : String) (ks : List String) (d : List (String × V)) :
    view (k :: ks) (close d : V) = (d.lookup k).bind (view ks) := by
  rw [view, look_close, Option.map_bind]
  rfl

theorem look_append : ∀ (p q : List String) (v : V), look (p ++ q) v = (look p v).bind (look q)
  | [], _, _ => rfl
  | k :: ks, q, v => by
    rw [List.cons_append, look, look, Option.bind_assoc]
    congr 1
    funext d
    rw [Option.bind_assoc]
    congr 1
    funext w
    exact look_append ks q w

theorem view_below {p q : List String} {v w : V} (h : look p v = some w) (hq : p <+: q) :
    view q v = view (q.drop p.length) w := by
  obtain ⟨r, rfl⟩ := hq
  rw [view, look_append, h, Option.bind_some, List.drop_left, view]

theorem view_below_none {p q : List String} {v : V} (h : look p v = none) (hq : p <+: q) : view q v = none := by
  obtain ⟨r, rfl⟩ := hq
  rw [view, look_append, h, Option.bind_none, Option.map_none]

theorem view_sub (k l : String) (ks : List String) (d : List (String × V)) :
    view (l :: ks) (close (((d.lookup k).bind open?).getD []) : V) = view (k :: l :: ks) (close d : V) := by
  rw [view_cons k]
  cases hk : d.lookup k with
  | none => simp [view, look]
  | some w =>
    rw [Option.bind_some, Option.bind_some]
    cases hw : open? w with
    | none => simp [view, look, hw]
    | some sub => simp [view, look, hw]

/-! ## Writing -/

/-- **A write shows below its path, makes documents above it, and changes nothing else.** -/
theorem view_setAt : ∀ {p : List String}, p ≠ [] → ∀ (v : V) (d : List (String × V)) (q : List String),
    view q (close (setAt p v d)) =
      if p <+: q then view (q.drop p.length) v else if q <+: p then some none else view q (close d)
  | [], h, _, _, _ => absurd rfl h
  | k :: ks, _, v, d, [] => by simp
  | [k], _, v, d, l :: ls => by
    rw [setAt, view_cons, lookup_put]
    by_cases hk : l = k
    · simp [hk]
    · rw [if_neg hk, if_neg (by simp [Ne.symm hk]), if_neg (by simp [hk]), view_cons]
  | k :: k' :: ks, _, v, d, l :: ls => by
    rw [setAt, view_cons, lookup_put]
    by_cases hk : l = k
    · subst hk
      rw [if_pos rfl, Option.bind_some, view_setAt (List.cons_ne_nil k' ks)]
      simp only [List.cons_prefix_cons, true_and, List.length_cons, List.drop_succ_cons]
      cases ls with
      | nil => simp
      | cons m ms => rw [view_sub]
    · rw [if_neg hk, if_neg (by simp [Ne.symm hk]), if_neg (by simp [hk]), view_cons]

/-- **An erasure shows below its path and changes nothing else.** -/
theorem view_eraseAt : ∀ {p : List String}, p ≠ [] → ∀ (d : List (String × V)) (q : List String),
    view q (close (eraseAt p d) : V) = if p <+: q then none else view q (close d)
  | [], h, _, _ => absurd rfl h
  | k :: ks, _, d, [] => by simp
  | [k], _, d, l :: ls => by
    rw [eraseAt, view_cons, lookup_erase, view_cons]
    by_cases hk : l = k
    · simp [hk]
    · rw [if_neg hk, if_neg (by simp [Ne.symm hk])]
  | k :: k' :: ks, _, d, l :: ls => by
    rw [eraseAt]
    cases hsub : (d.lookup k).bind open? with
    | none =>
      by_cases hk : k :: k' :: ks <+: l :: ls
      · rw [if_pos hk]
        obtain ⟨r, hr⟩ := hk
        rw [← hr, List.cons_append, List.cons_append, ← view_sub, hsub]
        simp [view]
      · rw [if_neg hk]
    | some sub =>
      rw [view_cons, lookup_put]
      by_cases hk : l = k
      · subst hk
        rw [if_pos rfl, Option.bind_some, view_eraseAt (List.cons_ne_nil k' ks)]
        simp only [List.cons_prefix_cons, true_and]
        split
        · rfl
        · cases ls with
          | nil =>
            obtain ⟨w, hw, hopen⟩ := Option.bind_eq_some_iff.1 hsub
            simp [hw, view, leaf, hopen]
          | cons m ms => rw [← view_sub, hsub, Option.getD_some]
      · rw [if_neg hk, if_neg (by simp [Ne.symm hk]), view_cons]

theorem setAt_self [LawfulNested V] : ∀ {p : List String} {v : V} {d : List (String × V)}, p ≠ [] →
    look p (close d) = some v → setAt p v d = d
  | [], _, _, h, _ => absurd rfl h
  | [k], v, d, _, h => by
    rw [look_close] at h
    obtain ⟨w, hw, hv⟩ := Option.bind_eq_some_iff.1 h
    rw [setAt, put_self (hw.trans (congrArg some (Option.some.inj hv)))]
  | k :: l :: ks, v, d, _, h => by
    rw [look_close] at h
    obtain ⟨w, hw, hv⟩ := Option.bind_eq_some_iff.1 h
    rw [look] at hv
    obtain ⟨sub, hsub, -⟩ := Option.bind_eq_some_iff.1 hv
    have hclose := LawfulNested.close_open hsub
    rw [setAt, hw, Option.bind_some, hsub, Option.getD_some, setAt_self (List.cons_ne_nil l ks) (hclose ▸ hv), hclose,
      put_self hw]

theorem eraseAt_absent [LawfulNested V] : ∀ {p : List String} {d : List (String × V)}, look p (close d : V) = none →
    eraseAt p d = d
  | [], _, h => by cases h
  | [k], d, h => by
    rw [look_close] at h
    rw [eraseAt, erase_of_lookup]
    cases hk : d.lookup k with
    | none => rfl
    | some w => simp [hk] at h
  | k :: l :: ks, d, h => by
    rw [eraseAt]
    split
    · next sub hsub =>
      obtain ⟨w, hw, hopen⟩ := Option.bind_eq_some_iff.1 hsub
      rw [look_close, hw, Option.bind_some, ← LawfulNested.close_open hopen] at h
      rw [eraseAt_absent h, LawfulNested.close_open hopen, put_self hw]
    · rfl

/-! ## Several writes -/

/-- A value at a path, or its absence. -/
abbrev Action (V : Type u) := List String × Option V

def act (d : List (String × V)) (a : Action V) : List (String × V) :=
  match a.2 with
  | some v => setAt a.1 v d
  | none => eraseAt a.1 d

/-- What an action leaves at a path below its own. -/
def Action.shows (a : Action V) (q : List String) : Option (Option V) := a.2.bind (view (q.drop a.1.length))

/-- Neither path lies below the other. -/
def Apart (p q : List String) : Prop := ¬ p <+: q ∧ ¬ q <+: p

/-- Above the path there are documents already. -/
def Rooted (d : List (String × V)) (p : List String) : Prop := ∀ q, q <+: p → q ≠ p → view q (close d : V) = some none

theorem view_act (h : a.1 ≠ []) (d : List (String × V)) (q : List String) :
    view q (close (act d a)) =
      if a.1 <+: q then a.shows q else if a.2.isSome ∧ q <+: a.1 then some none else view q (close d) := by
  obtain ⟨p, x⟩ := a
  cases x with
  | some v => simpa [act, Action.shows] using view_setAt h v d q
  | none => simpa [act, Action.shows] using view_eraseAt h d q

/-- **Writes at paths that are apart**, each with documents above it: below its path each shows what it
wrote, and elsewhere nothing changes. -/
theorem view_runActions : ∀ (as : List (Action V)) (d : List (String × V)),
    (∀ a ∈ as, a.1 ≠ []) → as.Pairwise (fun a b => Apart a.1 b.1) → (∀ a ∈ as, a.2.isSome → Rooted d a.1) →
    ∀ q, (∀ a ∈ as, a.1 <+: q → view q (close (as.foldl act d)) = a.shows q) ∧
      ((∀ a ∈ as, ¬ a.1 <+: q) → view q (close (as.foldl act d)) = view q (close d))
  | [], _, _, _, _, _ => by simp
  | a :: as, d, hne, happart, hroot, q => by
    rw [List.pairwise_cons] at happart
    obtain ⟨hhead, htail⟩ := happart
    -- What a leaves alone it leaves rooted.
    have hkeep : ∀ q, ¬ a.1 <+: q → view q (close (act d a)) = view q (close d) := by
      intro q hq
      rw [view_act (hne a List.mem_cons_self), if_neg hq]
      by_cases hup : a.2.isSome ∧ q <+: a.1
      · rw [if_pos hup]
        exact (hroot a List.mem_cons_self hup.1 q hup.2 fun h => hq (h ▸ List.prefix_rfl)).symm
      · rw [if_neg hup]
    have ih := view_runActions as (act d a) (fun b hb => hne b (List.mem_cons_of_mem a hb)) htail
      (fun b hb hset r hr hrb => by
        rw [hkeep r fun hpre => (hhead b hb).1 (hpre.trans hr)]
        exact hroot b (List.mem_cons_of_mem a hb) hset r hr hrb) q
    rw [List.foldl_cons]
    constructor
    · intro b hb hbq
      rcases List.mem_cons.1 hb with rfl | hb
      · have hclear : ∀ c ∈ as, ¬ c.1 <+: q := by
          intro c hc hcq
          rcases List.prefix_or_prefix_of_prefix hbq hcq with h | h
          · exact (hhead c hc).1 h
          · exact (hhead c hc).2 h
        rw [ih.2 hclear, view_act (hne b List.mem_cons_self), if_pos hbq]
      · exact ih.1 b hb hbq
    · intro hclear
      rw [ih.2 fun b hb => hclear b (List.mem_cons_of_mem a hb), hkeep q (hclear a List.mem_cons_self)]

/-! ## Writes that agree -/

theorem look_setAt : ∀ {p : List String}, p ≠ [] → ∀ (v : V) (d : List (String × V)) (r : List String),
    look (p ++ r) (close (setAt p v d)) = look r v
  | [], h, _, _, _ => absurd rfl h
  | [k], _, v, d, r => by
    rw [List.singleton_append, setAt, look_close, lookup_put, if_pos rfl, Option.bind_some]
  | k :: l :: ks, _, v, d, r => by
    rw [List.cons_append, setAt, look_close, lookup_put, if_pos rfl, Option.bind_some, look_setAt (List.cons_ne_nil l ks)]

theorem look_setAt_apart : ∀ {p q : List String}, Apart p q → ∀ (v : V) (d : List (String × V)),
    look q (close (setAt p v d)) = look q (close d)
  | [], _, h, _, _ => absurd List.nil_prefix h.1
  | _ :: _, [], h, _, _ => absurd List.nil_prefix h.2
  | [k], l :: ls, h, v, d => by
    have hk : l ≠ k := by
      rintro rfl
      exact h.1 ⟨ls, rfl⟩
    rw [setAt, look_close, look_close, lookup_put, if_neg hk]
  | k :: k' :: ks, l :: ls, h, v, d => by
    rw [setAt, look_close, look_close, lookup_put]
    by_cases hk : l = k
    · subst hk
      have happart : Apart (k' :: ks) ls :=
        ⟨fun hp => h.1 (List.cons_prefix_cons.2 ⟨rfl, hp⟩), fun hp => h.2 (List.cons_prefix_cons.2 ⟨rfl, hp⟩)⟩
      rw [if_pos rfl, Option.bind_some, look_setAt_apart happart]
      cases ls with
      | nil => exact absurd List.nil_prefix happart.2
      | cons m ms =>
        rw [look_close]
        cases hsub : d.lookup l with
        | none => rfl
        | some w =>
          rw [Option.bind_some, Option.bind_some, look]
          cases open? w <;> rfl
    · rw [if_neg hk]

/-- A value at a path. -/
abbrev Write (V : Type u) := List String × V

def setAll (ws : List (Write V)) (d : List (String × V)) : List (String × V) := ws.foldl (fun d w => setAt w.1 w.2 d) d

theorem setAll_append (ws ws' : List (Write V)) (d : List (String × V)) : setAll (ws ++ ws') d = setAll ws' (setAll ws d) :=
  List.foldl_append

/-- What a write puts below another one stands there in what that one puts. -/
def Agree (ws : List (Write V)) : Prop := ∀ a ∈ ws, ∀ b ∈ ws, ∀ r, b.1 = a.1 ++ r → look r a.2 = some b.2

theorem Agree.perm {ws ws' : List (Write V)} (h : Agree ws) (hp : ws.Perm ws') : Agree ws' := fun a ha b hb =>
  h a (hp.mem_iff.2 ha) b (hp.mem_iff.2 hb)

section
variable [LawfulNested V]

theorem look_setAll_from (hagree : Agree all) (hne : ∀ w ∈ all, w.1 ≠ []) :
    ∀ (ws : List (Write V)) (d : List (String × V)), (∀ w ∈ ws, w ∈ all) → ∀ a ∈ all,
      (a ∈ ws ∨ look a.1 (close d) = some a.2) → look a.1 (close (setAll ws d)) = some a.2
  | [], _, _, _, _, h => h.resolve_left List.not_mem_nil
  | w :: ws, d, hsub, a, ha, h => by
    have hw := hsub w List.mem_cons_self
    refine look_setAll_from hagree hne ws (setAt w.1 w.2 d) (fun x hx => hsub x (List.mem_cons_of_mem w hx)) a ha ?_
    rcases h with hmem | hlook
    · rcases List.mem_cons.1 hmem with rfl | hmem
      · have hself := look_setAt (hne a ha) a.2 d []
        rw [List.append_nil] at hself
        exact .inr hself
      · exact .inl hmem
    · -- what stands there already is written again, is left alone, or is written with what is around it
      refine .inr ?_
      by_cases hbelow : w.1 <+: a.1
      · obtain ⟨r, hr⟩ := hbelow
        rw [← hr, look_setAt (hne w hw)]
        exact hagree w hw a ha r hr.symm
      by_cases habove : a.1 <+: w.1
      · obtain ⟨r, hr⟩ := habove
        have hthere : look w.1 (close d) = some w.2 := by
          rw [← hr, look_append, hlook, Option.bind_some]
          exact hagree a ha w hw r hr.symm
        rwa [setAt_self (hne w hw) hthere]
      · rwa [look_setAt_apart ⟨hbelow, habove⟩]

/-- **Each of the writes that agree is there in the end.** -/
theorem look_setAll (hagree : Agree ws) (hne : ∀ w ∈ ws, w.1 ≠ []) (d : List (String × V)) (ha : a ∈ ws) : look a.1 (close (setAll ws d)) = some a.2 :=
  look_setAll_from hagree hne ws d (fun _ h => h) a ha (.inl ha)

end

theorem view_setAll_other : ∀ {ws : List (Write V)}, (∀ w ∈ ws, w.1 ≠ []) → ∀ (d : List (String × V)) {q : List String},
    (∀ w ∈ ws, ¬ w.1 <+: q) → view q (close (setAll ws d)) = if ∃ w ∈ ws, q <+: w.1 then some none else view q (close d)
  | [], _, d, q, _ => by
    rw [if_neg (by simp)]
    rfl
  | w :: ws, hne, d, q, hq => by
    have hrest : setAll (w :: ws) d = setAll ws (setAt w.1 w.2 d) := rfl
    rw [hrest, view_setAll_other (fun x hx => hne x (List.mem_cons_of_mem w hx)) _ fun x hx => hq x (List.mem_cons_of_mem w hx),
      view_setAt (hne w List.mem_cons_self), if_neg (hq w List.mem_cons_self)]
    simp only [List.exists_mem_cons_iff]
    by_cases hw : q <+: w.1
    · simp [hw]
    · simp only [if_neg hw, or_iff_right hw]

/-- **Writes that agree may be made in any order.** -/
theorem sameFields_setAll [LawfulNested V] {ws ws' : List (Write V)} (hagree : Agree ws) (hne : ∀ w ∈ ws, w.1 ≠ []) (hp : ws.Perm ws')
    (d : List (String × V)) : SameFields (close (setAll ws d) : V) (close (setAll ws' d)) := by
  have hne' : ∀ w ∈ ws', w.1 ≠ [] := fun w hw => hne w (hp.mem_iff.2 hw)
  intro q
  by_cases hq : ∃ w ∈ ws, w.1 <+: q
  · obtain ⟨w, hw, hwq⟩ := hq
    rw [view_below (look_setAll hagree hne d hw) hwq, view_below (look_setAll (hagree.perm hp) hne' d (hp.mem_iff.1 hw)) hwq]
  · have hnone : ∀ w ∈ ws, ¬ w.1 <+: q := fun w hw hwq => hq ⟨w, hw, hwq⟩
    rw [view_setAll_other hne d hnone, view_setAll_other hne' d fun w hw => hnone w (hp.mem_iff.2 hw)]
    simp only [hp.mem_iff]

end Paths
