import Mathlib.Logic.Basic

/-!
# Reading a successful `Except` computation backwards

`do` blocks in `Except` are taken apart from the result: a bind succeeded iff both of its parts
did, a guard `if c then throw e` was passed iff `c` is false. With the specification of each callee
stated as `callee … = .ok r ↔ …`, `simp only` with these lemmas turns "the block returned `r`" into
the conjunction of everything the block checked.
-/

namespace Fallible

universe u v
variable {ε : Type u} {α β : Type v}

theorem bind_ok {x : Except ε α} {f : α → Except ε β} {r : β} :
    (x >>= f) = .ok r ↔ ∃ a, x = .ok a ∧ f a = .ok r := by
  cases x with
  | error e => simp [bind, Except.bind]
  | ok a => simp [bind, Except.bind]

theorem pure_ok : (pure a : Except ε α) = .ok r ↔ a = r := by
  simp [pure, Except.pure]

theorem map_ok {f : α → β} {x : Except ε α} {r : β} :
    f <$> x = .ok r ↔ ∃ a, x = .ok a ∧ f a = r := by
  cases x <;> simp [Functor.map, Except.map]

theorem mapM_ok {α : Type u} {β : Type v} {ε : Type v} {f : α → Except ε β} {g : α → β} :
    ∀ {xs : List α}, (∀ x ∈ xs, f x = .ok (g x)) → xs.mapM f = .ok (xs.map g)
  | [], _ => rfl
  | x :: xs, h => by
    rw [List.mapM_cons, h x List.mem_cons_self, mapM_ok fun y hy => h y (List.mem_cons_of_mem x hy)]
    rfl

theorem guard_ok {c : Prop} [Decidable c] :
    (if c then ((throw e : Except ε α) >>= f) else x) = .ok r ↔ ¬ c ∧ x = .ok r := by
  by_cases h : c
  · simp [h, throw, throwThe, MonadExceptOf.throw, bind, Except.bind]
  · simp [h]

end Fallible
