import Mathlib.Logic.Basic

/-!
# Computations that fail or warn

A computation that returns a result with the warnings it pushed on the way, or an error. A sequence was clean,
that is without warnings, iff each of its steps was (`bind_clean`). Two sequences with related steps are related (`Alike.bind`).
-/

universe u v

/-- A result and the warnings pushed on the way to it, or an error. -/
def Warned (α : Type u) : Type u := Except String (α × List String)

namespace Warned

variable {α β : Type u}

def fail (e : String) : Warned α := .error e

/-- Return the value after one warning. -/
def warn (w : String) (a : α) : Warned α := .ok (a, [w])

/-- The warnings of the second step come after those of the first. -/
def andThen (x : Warned α) (f : α → Warned β) : Warned β :=
  match x with
  | .error e => .error e
  | .ok (a, ws) => match f a with
    | .error e => .error e
    | .ok (b, vs) => .ok (b, ws ++ vs)

instance : Monad Warned where
  pure a := .ok (a, [])
  bind := andThen

/-- The computation returned the value and pushed no warning. -/
def Clean (x : Warned α) (a : α) : Prop := x = .ok (a, [])

instance [DecidableEq α] (a : α) : (x : Warned α) → Decidable (Clean x a)
  | .error _ => .isFalse (by rintro ⟨⟩)
  | .ok (b, ws) => decidable_of_iff (b = a ∧ ws = [])
    ⟨by rintro ⟨rfl, rfl⟩; rfl, fun h => by injection h with h; exact Prod.mk.inj h⟩

/-- The computation returned the value, whatever it warned about. -/
def Returns (x : Warned α) (a : α) : Prop := ∃ ws, x = .ok (a, ws)

instance [DecidableEq α] (a : α) : (x : Warned α) → Decidable (Returns x a)
  | .error _ => .isFalse (by rintro ⟨ws, ⟨⟩⟩)
  | .ok (b, ws) => decidable_of_iff (b = a)
    ⟨by rintro rfl; exact ⟨ws, rfl⟩, by rintro ⟨vs, h⟩; injection h with h; exact (Prod.mk.inj h).1⟩

theorem Clean.returns (h : Clean x a) : Returns x a := ⟨[], h⟩

theorem Clean.unique (h : Clean x a) (h' : Clean x b) : a = b := by
  have e := h.symm.trans h'
  injection e with e
  exact (Prod.mk.inj e).1

theorem Returns.unique (h : Returns x a) (h' : Returns x b) : a = b := by
  obtain ⟨ws, h⟩ := h
  obtain ⟨vs, h'⟩ := h'
  have e := h.symm.trans h'
  injection e with e
  exact (Prod.mk.inj e).1

@[simp] theorem pure_clean : Clean (pure a) b ↔ a = b := by
  constructor
  · intro h
    injection h with h
    exact (Prod.mk.inj h).1
  · rintro rfl
    rfl

@[simp] theorem fail_clean : ¬ Clean (fail e) a := by
  rintro ⟨⟩

@[simp] theorem warn_clean : ¬ Clean (warn w a) b := by
  intro h
  injection h with h
  exact absurd (Prod.mk.inj h).2 (List.cons_ne_nil _ _)

theorem bind_clean :
    Clean (x >>= f) b ↔ ∃ a, Clean x a ∧ Clean (f a) b := by
  show andThen x f = _ ↔ _
  cases x with
  | error e => simp [andThen, Clean]
  | ok r =>
    obtain ⟨a, ws⟩ := r
    constructor
    · intro h
      rw [andThen] at h
      split at h
      · exact absurd h (by simp)
      · next c vs e =>
        injection h with h
        obtain ⟨rfl, hw⟩ := Prod.mk.inj h
        obtain ⟨rfl, rfl⟩ := List.append_eq_nil_iff.1 hw
        exact ⟨a, rfl, e⟩
    · rintro ⟨c, hc, hf⟩
      injection hc with hc
      obtain ⟨rfl, rfl⟩ := Prod.mk.inj hc
      rw [andThen, hf]
      rfl

@[simp] theorem pure_returns : Returns (pure a) b ↔ a = b := by
  constructor
  · rintro ⟨ws, h⟩
    injection h with h
    exact (Prod.mk.inj h).1
  · rintro rfl
    exact ⟨[], rfl⟩

@[simp] theorem fail_returns : ¬ Returns (fail e) a := by
  rintro ⟨ws, ⟨⟩⟩

@[simp] theorem warn_returns : Returns (warn w a) b ↔ a = b := by
  constructor
  · rintro ⟨ws, h⟩
    injection h with h
    exact (Prod.mk.inj h).1
  · rintro rfl
    exact ⟨[w], rfl⟩

theorem bind_returns :
    Returns (x >>= f) b ↔ ∃ a, Returns x a ∧ Returns (f a) b := by
  show (∃ ws, andThen x f = _) ↔ _
  cases x with
  | error e => simp [andThen, Returns]
  | ok r =>
    obtain ⟨a, ws⟩ := r
    constructor
    · rintro ⟨us, h⟩
      rw [andThen] at h
      split at h
      · exact absurd h (by simp)
      · next c vs e =>
        injection h with h
        obtain ⟨rfl, -⟩ := Prod.mk.inj h
        exact ⟨a, ⟨ws, rfl⟩, ⟨vs, e⟩⟩
    · rintro ⟨c, ⟨us, hc⟩, ⟨vs, hf⟩⟩
      injection hc with hc
      obtain ⟨rfl, rfl⟩ := Prod.mk.inj hc
      refine ⟨ws ++ vs, ?_⟩
      rw [andThen, hf]

/-! ## Two computations -/

variable {γ δ : Type u} {R : α → β → Prop} {S : γ → δ → Prop}

/-- Both fail with the same error, or return related values after the same warnings. -/
inductive Alike (R : α → β → Prop) : Warned α → Warned β → Prop
  | error (e : String) : Alike R (.error e) (.error e)
  | ok {a : α} {b : β} (ws : List String) (h : R a b) : Alike R (.ok (a, ws)) (.ok (b, ws))

theorem alike_fail (e : String) : Alike R (fail e) (fail e) := .error e

theorem alike_pure (h : R a b) : Alike R (pure a) (pure b) := .ok [] h

theorem alike_warn (w : String) (h : R a b) : Alike R (warn w a) (warn w b) := .ok [w] h

theorem alike_refl {R : α → α → Prop} (h : ∀ a, R a a) (x : Warned α) : Alike R x x := by
  cases x with
  | error e => exact .error e
  | ok r => exact .ok r.2 (h r.1)

theorem alike_eq : Alike Eq x y ↔ x = y := by
  constructor
  · intro h
    cases h with
    | error e => rfl
    | ok ws h => rw [h]
  · rintro rfl
    exact alike_refl (fun _ => rfl) x

theorem Alike.imp (h : Alike R x y) (hi : ∀ a b, R a b → T a b) :
    Alike T x y := by
  cases h with
  | error e => exact .error e
  | ok ws h => exact .ok ws (hi _ _ h)

theorem Alike.bind (hx : Alike R x y)
    (hf : ∀ a b, R a b → Alike S (f a) (g b)) : Alike S (x >>= f) (y >>= g) := by
  show Alike S (andThen x f) (andThen y g)
  cases hx with
  | error e => exact .error e
  | @ok a b ws h =>
    have hab := hf a b h
    rw [andThen, andThen]
    generalize f a = p at hab
    generalize g b = q at hab
    cases hab with
    | error e => exact .error e
    | ok vs h => exact .ok (ws ++ vs) h

end Warned
