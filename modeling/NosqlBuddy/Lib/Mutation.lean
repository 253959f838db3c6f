import Mathlib.Logic.Basic

/-!
# Fallible operations that keep their writes

A method with `&self` state and `?`: it stops at the first error, and what it wrote before stays
written. That is `ExceptT` over `StateM`; `exec` runs it and the `simp` lemmas run a `do` block step
by step. `Keeps f x` is the frame condition: whatever `x` does, it leaves the part `f` of the state as
it is. `Returns c x`: if `x` returns at all, it returns `c`.
-/

namespace Mutation

universe u
variable {σ ε α β : Type u}

abbrev Mut (σ ε : Type u) := ExceptT ε (StateM σ)

/-- The result and the state left behind. -/
def exec (x : Mut σ ε α) (s : σ) : Except ε α × σ := x.run.run s

@[simp] theorem exec_pure (a : α) (s : σ) : exec (pure a : Mut σ ε α) s = (.ok a, s) := rfl

@[simp] theorem exec_throw (e : ε) (s : σ) : exec (throw e : Mut σ ε α) s = (.error e, s) := rfl

@[simp] theorem exec_get (s : σ) : exec (get : Mut σ ε σ) s = (.ok s, s) := rfl

@[simp] theorem exec_set (s s' : σ) : exec (set s' : Mut σ ε PUnit) s = (.ok ⟨⟩, s') := rfl

@[simp] theorem exec_modify (f : σ → σ) (s : σ) : exec (modify f : Mut σ ε PUnit) s = (.ok ⟨⟩, f s) := rfl

theorem exec_bind (x : Mut σ ε α) (f : α → Mut σ ε β) (s : σ) :
    exec (x >>= f) s = match exec x s with
      | (.ok a, s') => exec (f a) s'
      | (.error e, s') => (.error e, s') := by
  show (ExceptT.bindCont (fun a => f a) (x s).1) (x s).2 = _
  unfold exec
  generalize hx : x s = r
  obtain ⟨a | a, s'⟩ := r
  · simp only [ExceptT.run, StateT.run, hx]; rfl
  · simp only [ExceptT.run, StateT.run, hx]; rfl

theorem exec_bind_ok (h : exec x s = (.ok a, s')) :
    exec (x >>= f) s = exec (f a) s' := by
  rw [exec_bind, h]

theorem exec_bind_error (h : exec x s = (.error e, s')) :
    exec (x >>= f) s = (.error e, s') := by
  rw [exec_bind, h]

theorem exec_bind_pure_snd (x : Mut σ ε α) (g : α → β) (s : σ) :
    (exec (x >>= fun a => pure (g a)) s).2 = (exec x s).2 := by
  rw [exec_bind]
  generalize exec x s = r
  obtain ⟨e | a, s'⟩ := r <;> rfl

/-! ## Frames -/

/-- `x` does not change `f` of the state, also when it fails. -/
def Keeps {τ : Type*} (f : σ → τ) (x : Mut σ ε α) : Prop := ∀ s, f (exec x s).2 = f s

section
variable {τ : Type*} {f : σ → τ}

theorem Keeps.apply (h : Keeps f x) (s : σ) : f (exec x s).2 = f s := h s

theorem keeps_pure (a : α) : Keeps f (pure a : Mut σ ε α) := fun _ => rfl

theorem keeps_throw (e : ε) : Keeps f (throw e : Mut σ ε α) := fun _ => rfl

theorem keeps_get : Keeps f (get : Mut σ ε σ) := fun _ => rfl

theorem keeps_modify (h : ∀ s, f (g s) = f s) : Keeps f (modify g : Mut σ ε PUnit) := h

theorem keeps_bind (hx : Keeps f x) (hg : ∀ a, Keeps f (g a)) :
    Keeps f (x >>= g) := by
  intro s
  rw [exec_bind]
  have h := hx s
  generalize exec x s = r at h
  obtain ⟨e | a, s'⟩ := r
  · exact h
  · exact (hg a s').trans h

theorem keeps_guard {c : Prop} [Decidable c] {e : ε} {rest : PUnit → Mut σ ε α} (h : Keeps f (rest ⟨⟩)) :
    Keeps f (if c then throw e >>= rest else rest ⟨⟩) := by
  split
  · exact fun _ => rfl
  · exact h

end

/-! ## Results -/

/-- Where `x` returns, it returns `c`. -/
def Returns (c : α) (x : Mut σ ε α) : Prop := ∀ s a, (exec x s).1 = .ok a → a = c

theorem Returns.apply (h : Returns c x) (ha : (exec x s).1 = .ok a) : a = c := h s a ha

theorem returns_pure (c : α) : Returns c (pure c : Mut σ ε α) := fun _ _ h => (Except.ok.inj h).symm

theorem returns_bind (x : Mut σ ε α) (h : ∀ a, Returns c (f a)) : Returns c (x >>= f) := by
  intro s b hb
  rw [exec_bind] at hb
  generalize exec x s = r at hb
  obtain ⟨e | a, s'⟩ := r
  · cases hb
  · exact h a s' b hb

end Mutation
