import Mathlib.Data.List.Basic

/-!
# Runs of a transition function

A system is a state type, a type of steps and a total function `step`. A run is a list of steps
applied one after the other (`run`); `Guarded ok` says that every step of a run meets `ok` in the
state it starts from. The rules here turn a fact about one step into a fact about whole runs:

* `run_inv` — an invariant of the guarded steps holds after every guarded run, and with a guard that
  is exact (`guarded_iff_good_under`, `guarded_iff_good`, `guarded_iff`, `run_good_iff`) in the guarded
  runs only;
* `run_rel` — a reflexive and transitive relation kept by every guarded step relates the ends of
  a guarded run;
* `run_sim`, `guarded_sim` — a function of the state that turns each step into a step of another system
  turns runs into runs, and guards on what it shows into guards;
* `exists_step_of_change` — a property that is false at the start and true at the end was made true
  by one step of the run.

`outputs` collects what the steps of a run give on the way.
-/

namespace Runs

variable {σ α : Type*}

/-- The state after the steps `as`. -/
def run (step : σ → α → σ) (s : σ) (as : List α) : σ := as.foldl step s

/-- Every step of the run meets `ok` in the state it is taken from. -/
def Guarded (step : σ → α → σ) (ok : σ → α → Prop) : σ → List α → Prop
  | _, [] => True
  | s, a :: as => ok s a ∧ Guarded step ok (step s a) as

/-- What the steps of the run give, in order. -/
def outputs {β : Type*} (step : σ → α → σ) (out : σ → α → Option β) : σ → List α → List β
  | _, [] => []
  | s, a :: as => (out s a).toList ++ outputs step out (step s a) as

section
variable {step : σ → α → σ} {ok : σ → α → Prop}

@[simp] theorem run_nil (s : σ) : run step s [] = s := rfl

@[simp] theorem run_cons (s : σ) (a : α) (as : List α) :
    run step s (a :: as) = run step (step s a) as := rfl

theorem run_append (s : σ) (as bs : List α) : run step s (as ++ bs) = run step (run step s as) bs := by
  simp [run, List.foldl_append]

theorem run_snoc (s : σ) (as : List α) (a : α) : run step s (as ++ [a]) = step (run step s as) a := by
  simp [run]

theorem outputs_append {β : Type*} (out : σ → α → Option β) : ∀ (s : σ) (as bs : List α),
    outputs step out s (as ++ bs) = outputs step out s as ++ outputs step out (run step s as) bs
  | _, [], _ => by simp [outputs]
  | s, a :: as, bs => by simp [outputs, outputs_append out (step s a) as bs]

theorem guarded_append : ∀ (s : σ) (as bs : List α),
    Guarded step ok s (as ++ bs) ↔ Guarded step ok s as ∧ Guarded step ok (run step s as) bs
  | _, [], _ => by simp [Guarded]
  | s, a :: as, bs => by
    simp only [List.cons_append, Guarded, run_cons, guarded_append (step s a) as bs, and_assoc]

theorem guarded_at (h : Guarded step ok s (pre ++ a :: post)) :
    ok (run step s pre) a :=
  ((guarded_append s pre (a :: post)).1 h).2.1

theorem guarded_left (h : Guarded step ok s (pre ++ post)) :
    Guarded step ok s pre :=
  ((guarded_append s pre post).1 h).1

theorem guarded_true : ∀ (s : σ) (as : List α), Guarded step (fun _ _ => True) s as
  | _, [] => trivial
  | s, a :: as => ⟨trivial, guarded_true (step s a) as⟩

/-- **Invariant rule.** -/
theorem run_inv {I : σ → Prop} (hstep : ∀ s a, ok s a → I s → I (step s a)) :
    ∀ {s : σ} {as : List α}, Guarded step ok s as → I s → I (run step s as)
  | _, [], _, hi => hi
  | s, a :: _, hg, hi => run_inv (s := step s a) hstep hg.2 (hstep s a hg.1 hi)

/-- **Exact guards.** In the runs whose steps all meet `env`: the guarded steps keep an invariant, and where
the invariant holds, a step leads to a good state exactly when it meets the guard. Then the guard holds
along a run exactly when every state of the run is good. -/
theorem guarded_iff_good_under {env : σ → α → Prop} {I Q : σ → Prop} (hgood : ∀ s, I s → Q s)
    (hkeep : ∀ s a, env s a → I s → ok s a → I (step s a)) (hstep : ∀ s a, env s a → I s → (Q (step s a) ↔ ok s a)) :
    ∀ {s : σ} {as : List α}, Guarded step env s as → I s →
      (Guarded step ok s as ↔ ∀ pre, pre <+: as → Q (run step s pre))
  | s, [], _, hi => by
    simp only [Guarded, List.prefix_nil, forall_eq, run_nil, hgood s hi]
  | s, a :: as, henv, hi => by
    constructor
    · rintro ⟨hok, hg⟩ pre hpre
      cases pre with
      | nil => exact hgood s hi
      | cons b pre =>
        obtain ⟨rfl, hpre'⟩ := List.cons_prefix_cons.1 hpre
        exact (guarded_iff_good_under hgood hkeep hstep henv.2 (hkeep s b henv.1 hi hok)).1 hg pre hpre'
    · intro h
      have hok : ok s a := (hstep s a henv.1 hi).1 (h [a] (by simp))
      exact ⟨hok, (guarded_iff_good_under hgood hkeep hstep henv.2 (hkeep s a henv.1 hi hok)).2 fun pre hpre =>
        h (a :: pre) (List.cons_prefix_cons.2 ⟨rfl, hpre⟩)⟩

theorem guarded_iff_good {I Q : σ → Prop} (hgood : ∀ s, I s → Q s) (hkeep : ∀ s a, I s → ok s a → I (step s a))
    (hstep : ∀ s a, I s → (Q (step s a) ↔ ok s a)) {s : σ} {as : List α} (hi : I s) :
    Guarded step ok s as ↔ ∀ pre, pre <+: as → Q (run step s pre) :=
  guarded_iff_good_under hgood (fun s a _ => hkeep s a) (fun s a _ => hstep s a) (guarded_true s as) hi

theorem guarded_iff {I : σ → Prop} (hstep : ∀ s a, I s → (I (step s a) ↔ ok s a)) {s : σ} {as : List α} (hi : I s) :
    Guarded step ok s as ↔ ∀ pre, pre <+: as → I (run step s pre) :=
  guarded_iff_good (fun _ h => h) (fun s a h hok => (hstep s a h).2 hok) hstep hi

theorem run_good_iff {I Q : σ → Prop} (hinv : ∀ s a, I s → I (step s a)) (hstep : ∀ s a, I s → (Q (step s a) ↔ Q s ∧ ok s a)) :
    ∀ {s : σ} {as : List α}, I s → (Q (run step s as) ↔ Q s ∧ Guarded step ok s as)
  | s, [], _ => by simp only [run_nil, Guarded, and_true]
  | s, a :: as, hi => by
    rw [run_cons, run_good_iff hinv hstep (hinv s a hi), hstep s a hi, and_assoc]
    rfl

/-- **Relation rule**, under an invariant the steps keep. -/
theorem run_rel {I : σ → Prop} {R : σ → σ → Prop} (hrefl : ∀ s, R s s)
    (htrans : ∀ {a b c}, R a b → R b c → R a c)
    (hinv : ∀ s a, ok s a → I s → I (step s a)) (hrel : ∀ s a, ok s a → I s → R s (step s a)) :
    ∀ {s : σ} {as : List α}, Guarded step ok s as → I s → R s (run step s as)
  | s, [], _, _ => hrefl s
  | s, a :: _, hg, hi =>
    htrans (hrel s a hg.1 hi) (run_rel hrefl htrans hinv hrel hg.2 (hinv s a hg.1 hi))

/-! ### Simulation -/

section
variable {τ β : Type*} {step' : τ → β → τ} {f : σ → τ} {g : α → β}

theorem run_sim (h : ∀ s a, f (step s a) = step' (f s) (g a)) : ∀ (s : σ) (as : List α),
    f (run step s as) = run step' (f s) (as.map g)
  | _, [] => rfl
  | s, a :: as => by rw [run_cons, run_sim h (step s a) as, h, List.map_cons, run_cons]

theorem guarded_sim (h : ∀ s a, f (step s a) = step' (f s) (g a)) {ok' : τ → β → Prop} : ∀ (s : σ) (as : List α),
    Guarded step (fun s a => ok' (f s) (g a)) s as ↔ Guarded step' ok' (f s) (as.map g)
  | _, [] => Iff.rfl
  | s, a :: as => by
    rw [Guarded, guarded_sim h (step s a) as, h]
    rfl

end

theorem exists_step_of_change {P : σ → Prop} :
    ∀ {s : σ} {as : List α}, ¬ P s → P (run step s as) →
      ∃ pre a post, as = pre ++ a :: post ∧ ¬ P (run step s pre) ∧ P (step (run step s pre) a)
  | _, [], hn, hp => absurd hp hn
  | s, a :: as, hn, hp => by
    by_cases ha : P (step s a)
    · exact ⟨[], a, as, rfl, hn, ha⟩
    · obtain ⟨pre, b, post, rfl, h1, h2⟩ := exists_step_of_change (s := step s a) ha hp
      exact ⟨a :: pre, b, post, rfl, h1, h2⟩

end

end Runs
