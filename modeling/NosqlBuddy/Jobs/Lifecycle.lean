import NosqlBuddy.Jobs.Runners

/-!
# The end of a job

The record of a job is to end with one terminal status, and nothing is to change it afterwards (`LivesWell`). It does in every run
without the exits that the runners do not handle, and in which the flag is raised only while the runner still looks at it
(`lives_well`).
-/

namespace Jobs
open Runs

def JobStatus.terminal : JobStatus → Prop
  | .done => True
  | .failed => True
  | .cancelled => True
  | _ => False

/-! ## The statement -/

/-- What holds of a run at its end. -/
structure Ended (s : RunState) : Prop where
  terminal : ∀ r, s.record = some r → r.status.terminal ∧ r.finishedAt.isSome = true
  unregistered : s.registered = false
  cut : ∀ item, (item, Outcome.cut) ∈ s.outcomes → ∀ r, s.record = some r → r.status = .cancelled
  done : ∀ r, s.record = some r → r.status = .done → ∀ item ∈ s.items, item.enabled = true →
    (item, Outcome.complete) ∈ s.outcomes ∨ (item, Outcome.skipped) ∈ s.outcomes

/-- A terminal status is not replaced by another. -/
def Settled (s s' : RunState) : Prop :=
  ∀ r, s.record = some r → r.status.terminal → ∃ r', s'.record = some r' ∧ r'.status = r.status

/-- The life of a job: whenever its run has ended, it has ended well, and no step replaces a terminal status; and wherever the run is,
some replies bring it to its end. -/
structure LivesWell (start : RunState) (inputs : List Input) : Prop where
  ended : ∀ pre, pre <+: inputs → (run stepRun start pre).phase = .ended → Ended (run stepRun start pre)
  settled : ∀ pre a, pre ++ [a] <+: inputs → Settled (run stepRun start pre) (run stepRun start (pre ++ [a]))
  ends : ∀ pre, pre <+: inputs → ∃ rest, (∀ a ∈ rest, ∃ reply now, a = .go reply now) ∧ (run stepRun start (pre ++ rest)).phase = .ended

def Runner.isExport : Runner → Prop
  | .export _ => True
  | _ => False

/-- The calls before the pipeline of a collection succeed. -/
def RunState.opens (s : RunState) (reply : Reply) : Prop :=
  match s.request.runner with
  | .restore strategy _ => reply.found = true ∧
    if strategy = .skip then reply.countError = none ∧ (reply.count = 0 → reply.error = none) else reply.error = none
  | _ => reply.error = none

/-- The runner is going to look at the flag: at the head of the loop before another collection, or when the pipeline of an export
is closed. -/
def RunState.seesFlag (s : RunState) : Prop :=
  match s.phase with
  | .head => ∃ item ∈ s.todo, item.enabled = true
  | .opening _ => ∃ item ∈ s.todo, item.enabled = true
  | .sinkStart _ => s.request.runner.isExport ∨ ∃ item ∈ s.todo, item.enabled = true
  | .check _ => s.request.runner.isExport ∨ ∃ item ∈ s.todo, item.enabled = true
  | .pull _ => s.request.runner.isExport ∨ ∃ item ∈ s.todo, item.enabled = true
  | .close _ => s.request.runner.isExport ∨ ∃ item ∈ s.todo, item.enabled = true
  | _ => False

/-- The steps that lead to a good end. A scheduled run has a usable configuration, or cannot connect; the calls before a pipeline
succeed; the flag is raised only while the runner is going to look at it; and an export has no bad rows, and does not fail once the
flag is raised. -/
def Steady (s : RunState) : Input → Prop
  | .raise => s.registered = true → s.seesFlag
  | .cancelStatus _ => True
  | .go reply _ =>
    match s.phase with
    | .resolve => ∀ config template, s.request.scheduled = some (config, template) →
      config ≠ .missing ∧ (reply.error = none → config = .good ∧ s.request.runner.schedulable = true)
    | .opening _ => s.opens reply
    | .sinkStart _ => s.request.runner.isExport → s.raised = true → reply.error = none
    | .pull _ => s.request.runner.isExport → reply.row ≠ .error ∧ (s.raised = true → ∀ e, reply.row ≠ .fail e ∧ reply.row ≠ .doc (some e))
    | .close _ => s.request.runner.isExport → s.raised = true → reply.error = none
    | _ => True

/-! ## Invariants -/

/-- The collection that is dealt with. -/
def RunPhase.item : RunPhase → Option Mapping
  | .opening item => some item
  | .sinkStart item => some item
  | .check item => some item
  | .pull item => some item
  | .close item => some item
  | _ => none

/-- Before the flag is registered. -/
structure Fresh (s : RunState) : Prop where
  registered : s.registered = false
  raised : s.raised = false
  cancelling : s.cancelling = 0
  cancelled : s.cancelled = false
  totalErrors : s.totalErrors = 0
  errors : s.errors = 0
  failure : s.failure = none
  outcomes : s.outcomes = []

/-- From the first collection to the verdict. -/
structure Underway (s : RunState) : Prop where
  record : ∃ r, s.record = some r ∧ (r.status = .running ∨ r.status = .cancelled ∧ s.raised = true)
  pending : 0 < s.cancelling → s.raised = true
  cut : ∀ item, (item, Outcome.cut) ∈ s.outcomes → s.raised = true
  fine : s.failure = none → s.totalErrors = 0 → ∀ p ∈ s.outcomes, p.2 ≠ .failed ∧ p.2 ≠ .missing
  sees : s.raised = true → s.cancelled = true ∨ s.seesFlag
  accounted : s.cancelled = true ∨ ∀ item ∈ s.items, item.enabled = true →
    (∃ o, (item, o) ∈ s.outcomes) ∨ s.phase.item = some item ∨ item ∈ s.todo
  rest : s.phase = .unregister ∨ s.phase = .finish → s.cancelled = true ∨ s.todo = []
  loop : ¬ s.request.runner.isExport → s.failure = none
  exports : s.request.runner.isExport → s.todo = [] ∧ s.errors = 0 ∧ s.totalErrors = 0 ∧
    (s.failure ≠ none → s.raised = false ∧ s.phase.item = none) ∧ s.phase ≠ .head ∧ ∀ item, s.phase ≠ .opening item
  goes : s.phase ≠ .unregister → s.phase ≠ .finish → s.cancelled = false

/-- What holds in each phase. -/
def LifeInv (s : RunState) : Prop :=
  match s.phase with
  | .resolve => Fresh s ∧ (∀ r, s.record = some r → r.status = .queued) ∧ (s.request.scheduled = none → s.record = none)
  | .prepare => Fresh s ∧ (∀ r, s.record = some r → r.status = .queued) ∧ (s.request.scheduled = none → s.record = none)
  | .create => Fresh s ∧ s.todo = s.items ∧ (s.request.runner.isExport → ∃ item, s.items = [item]) ∧
    ∀ r, s.record = some r → r.status = .queued
  | .start => Fresh s ∧ s.todo = s.items ∧ (s.request.runner.isExport → ∃ item, s.items = [item]) ∧
    ∃ r, s.record = some r ∧ r.status = .queued
  | .register => Fresh s ∧ s.todo = s.items ∧ (s.request.runner.isExport → ∃ item, s.items = [item]) ∧
    ∃ r, s.record = some r ∧ r.status = .running
  | .fail _ => s.registered = false ∧ s.cancelling = 0 ∧ (∀ item, (item, Outcome.cut) ∉ s.outcomes) ∧
    ∀ r, s.record = some r → r.status = .queued ∨ r.status = .failed
  | .ended => Ended s ∧ (0 < s.cancelling → ∀ r, s.record = some r → r.status = .cancelled)
  | .finish => Underway s ∧ s.registered = false
  | _ => Underway s ∧ s.registered = true

variable {s s' : RunState}

theorem settled_of_record_eq (h : s'.record = s.record) : Settled s s' :=
  fun r hr _ => ⟨r, h.trans hr, rfl⟩

theorem settled_of_status (h : ∀ r, s.record = some r → r.status = .queued ∨ r.status = .running) : Settled s s' := by
  intro r hr hterminal
  rcases h r hr with hs | hs <;> simp [hs, JobStatus.terminal] at hterminal

theorem withStatus_finished (h : status.terminal) (message now : String) (r : JobMeta) :
    (r.withStatus status message now).status.terminal ∧ (r.withStatus status message now).finishedAt.isSome = true := by
  cases status with
  | queued => exact h.elim
  | running => exact h.elim
  | done => exact ⟨trivial, rfl⟩
  | failed => exact ⟨trivial, rfl⟩
  | cancelled => exact ⟨trivial, rfl⟩

/-- A run that is over before the flag is registered, with a record that is failed or has never been made. -/
theorem ended_failed (hregistered : s.registered = false) (hcut : ∀ item, (item, Outcome.cut) ∉ s.outcomes)
    (hrecord : ∀ r, s.record = some r → r.status = .failed ∧ r.finishedAt.isSome = true) : Ended s where
  terminal r hr := ⟨by simp [(hrecord r hr).1, JobStatus.terminal], (hrecord r hr).2⟩
  unregistered := hregistered
  cut item hitem := absurd hitem (hcut item)
  done r hr hdone := by
    rw [(hrecord r hr).1] at hdone
    cases hdone

variable {now : String}

theorem setStatus_failed :
    ∀ r, (s.setStatus .failed message now).record = some r → r.status = .failed ∧ r.finishedAt.isSome = true := by
  intro r hr
  obtain ⟨r0, _, rfl⟩ := Option.map_eq_some_iff.1 hr
  exact ⟨rfl, rfl⟩

/-! ## Before the loop -/

theorem exit_user (h : s.request.scheduled = none) (message : String) : s.exit message = { s with phase := .ended } := by
  simp [RunState.exit, h]

theorem exit_scheduled {scheduled : ScheduledConfig × JobMeta} (h : s.request.scheduled = some scheduled)
    (message : String) : s.exit message = { s with phase := .fail message } := by
  simp [RunState.exit, h]

theorem lifeInv_exit (h : Fresh s) (hrecord : ∀ r, s.record = some r → r.status = .queued)
    (huser : s.request.scheduled = none → s.record = none) (message : String) : LifeInv (s.exit message) := by
  have hcut : ∀ item, (item, Outcome.cut) ∉ s.outcomes := by simp [h.outcomes]
  cases hs : s.request.scheduled with
  | some scheduled =>
    rw [exit_scheduled hs]
    exact ⟨h.registered, h.cancelling, hcut, fun r hr => .inl (hrecord r hr)⟩
  | none =>
    rw [exit_user hs]
    refine ⟨ended_failed h.registered hcut fun r hr => ?_, fun hpos => ?_⟩
    · rw [show s.record = none from huser hs] at hr
      cases hr
    · exact absurd hpos (by simp [h.cancelling])

/-- What a step of a run preserves. -/
def Advances (s s' : RunState) : Prop := LifeInv s' ∧ Settled s s'

variable {reply : Reply}

theorem advances_resolve (h : LifeInv s) (hphase : s.phase = .resolve)
    (hok : Steady s (.go reply now)) : Advances s (s.go reply now) := by
  simp only [LifeInv, hphase] at h
  simp only [Steady, hphase] at hok
  obtain ⟨hfresh, hrecord, huser⟩ := h
  have hfresh' : ∀ phase, Fresh { s with phase := phase } := fun _ =>
    ⟨hfresh.1, hfresh.2, hfresh.3, hfresh.4, hfresh.5, hfresh.6, hfresh.7, hfresh.8⟩
  refine ⟨?_, settled_of_status fun r hr => ?_⟩
  · simp only [RunState.go, hphase]
    cases hs : s.request.scheduled with
    | none => exact ⟨hfresh' _, hrecord, huser⟩
    | some scheduled =>
      obtain ⟨config, template⟩ := scheduled
      obtain ⟨hpresent, hgood⟩ := hok config template hs
      simp only [if_neg hpresent]
      cases he : reply.error with
      | none =>
        simp only [if_pos (hgood he)]
        exact ⟨hfresh' _, hrecord, huser⟩
      | some e =>
        refine ⟨ended_failed hfresh.registered (by simp [hfresh.outcomes, RunState.setStatus]) setStatus_failed, fun hpos => ?_⟩
        exact absurd hpos (by simp [RunState.setStatus, hfresh.cancelling])
  · exact .inl (hrecord r hr)

theorem advances_prepare (h : LifeInv s) (hphase : s.phase = .prepare) :
    Advances s (s.go reply now) := by
  simp only [LifeInv, hphase] at h
  obtain ⟨hfresh, hrecord, huser⟩ := h
  refine ⟨?_, settled_of_status fun r hr => .inl (hrecord r hr)⟩
  have hfresh' : ∀ items, Fresh { s with items := items, todo := items, phase := .create } := fun _ =>
    ⟨hfresh.1, hfresh.2, hfresh.3, hfresh.4, hfresh.5, hfresh.6, hfresh.7, hfresh.8⟩
  simp only [RunState.go, hphase]
  cases reply.error with
  | some e => exact lifeInv_exit hfresh hrecord huser e
  | none =>
    cases hrunner : s.request.runner with
    | dump collections =>
      simp only
      generalize (if collections = [] then _ else collections : List String) = names
      split
      · exact lifeInv_exit hfresh hrecord huser _
      · exact ⟨hfresh' _, rfl, by simp [hrunner, Runner.isExport], hrecord⟩
    | restore strategy collectionMap => exact ⟨hfresh' _, rfl, by simp [hrunner, Runner.isExport], hrecord⟩
    | «export» collection => exact ⟨hfresh' _, rfl, fun _ => ⟨_, rfl⟩, hrecord⟩

theorem advances_create (h : LifeInv s) (hphase : s.phase = .create) :
    Advances s (s.go reply now) := by
  simp only [LifeInv, hphase] at h
  obtain ⟨hfresh, htodo, hexport, hrecord⟩ := h
  refine ⟨?_, settled_of_status fun r hr => .inl (hrecord r hr)⟩
  simp only [RunState.go, hphase]
  refine ⟨⟨hfresh.1, hfresh.2, hfresh.3, hfresh.4, hfresh.5, hfresh.6, hfresh.7, hfresh.8⟩, htodo, hexport, _, rfl, ?_⟩
  have hstatus : (s.request.record s.items now).status = .queued := by
    unfold RunRequest.record
    split <;> rfl
  cases s.record <;> exact hstatus

theorem advances_start (h : LifeInv s) (hphase : s.phase = .start) :
    Advances s (s.go reply now) := by
  simp only [LifeInv, hphase] at h
  obtain ⟨hfresh, htodo, hexport, r, hr, hqueued⟩ := h
  refine ⟨?_, settled_of_status fun r' hr' => .inl ?_⟩
  · simp only [RunState.go, hphase]
    refine ⟨⟨hfresh.1, hfresh.2, hfresh.3, hfresh.4, hfresh.5, hfresh.6, hfresh.7, hfresh.8⟩, htodo, hexport,
      r.withStatus .running (s.request.runner.label ++ " started") now, ?_, rfl⟩
    simp [RunState.setStatus, hr]
  · rw [← Option.some.inj (hr.symm.trans hr')]
    exact hqueued

theorem advances_register (h : LifeInv s) (hphase : s.phase = .register) :
    Advances s (s.go reply now) := by
  simp only [LifeInv, hphase] at h
  obtain ⟨hfresh, htodo, hexport, r, hr, hrunning⟩ := h
  have hrecord : (s.go reply now).record = s.record := by
    simp only [RunState.go, hphase]
    split <;> rfl
  refine ⟨?_, settled_of_record_eq hrecord⟩
  simp only [RunState.go, hphase]
  split
  · next collection item rest hrunner htodo' =>
    obtain ⟨only, honly⟩ := hexport (by simp [hrunner, Runner.isExport])
    rw [htodo, honly] at htodo'
    obtain ⟨rfl, rfl⟩ := List.cons.inj htodo'
    refine ⟨⟨⟨r, hr, .inl hrunning⟩, ?_, ?_, ?_, ?_, ?_, ?_, ?_, ?_, fun _ _ => hfresh.cancelled⟩, rfl⟩
    · simp [hfresh.cancelling]
    · simp [hfresh.outcomes]
    · simp [hfresh.outcomes]
    · simp
    · refine .inr fun item hitem _ => .inr (.inl ?_)
      have hmem : item ∈ s.items := hitem
      rw [honly, List.mem_singleton] at hmem
      rw [hmem]
      rfl
    · rintro (hp | hp) <;> cases hp
    · exact fun _ => hfresh.failure
    · exact fun _ => ⟨rfl, hfresh.errors, hfresh.totalErrors, fun hf => absurd hfresh.failure hf, (by simp), (by simp)⟩
  · next hother =>
    have hnot : ¬ s.request.runner.isExport := by
      intro he
      obtain ⟨only, honly⟩ := hexport he
      cases hrunner : s.request.runner with
      | dump _ => simp [hrunner, Runner.isExport] at he
      | restore _ _ => simp [hrunner, Runner.isExport] at he
      | «export» collection => exact hother collection only [] hrunner (htodo.trans honly)
    refine ⟨⟨⟨r, hr, .inl hrunning⟩, ?_, ?_, ?_, ?_, ?_, ?_, ?_, ?_, fun _ _ => hfresh.cancelled⟩, rfl⟩
    · simp [hfresh.cancelling]
    · simp [hfresh.outcomes]
    · simp [hfresh.outcomes]
    · simp
    · exact .inr fun item hitem _ => .inr (.inr (htodo ▸ hitem))
    · rintro (hp | hp) <;> cases hp
    · exact fun _ => hfresh.failure
    · exact fun he => absurd he hnot

/-! ## The loop -/

theorem advances_head (h : LifeInv s) (hphase : s.phase = .head) :
    Advances s (s.go reply now) := by
  simp only [LifeInv, hphase] at h
  obtain ⟨hunder, hregistered⟩ := h
  have hnot : ¬ s.request.runner.isExport := fun he => (hunder.exports he).2.2.2.2.1 hphase
  have hgoes : s.cancelled = false := hunder.goes (by simp [hphase]) (by simp [hphase])
  have hsees : s.raised = true → s.cancelled = true ∨ ∃ item ∈ s.todo, item.enabled = true := by
    intro hr
    simpa only [RunState.seesFlag, hphase] using hunder.sees hr
  have haccounted : s.cancelled = true ∨ ∀ item ∈ s.items, item.enabled = true →
      (∃ o, (item, o) ∈ s.outcomes) ∨ item ∈ s.todo := by
    refine hunder.accounted.imp_right fun ha item hitem henabled => ?_
    rcases ha item hitem henabled with hout | hitem' | htodo
    · exact .inl hout
    · simp [hphase, RunPhase.item] at hitem'
    · exact .inr htodo
  simp only [RunState.go, hphase]
  cases htodo : s.todo with
  | nil =>
    refine ⟨⟨⟨hunder.record, hunder.pending, hunder.cut, hunder.fine, fun hr => ?_, ?_, fun _ => .inr rfl, hunder.loop,
      fun he => absurd he hnot, fun hp => absurd rfl hp⟩, hregistered⟩, settled_of_record_eq rfl⟩
    · exact (hsees hr).imp_right fun ⟨item, hitem, _⟩ => by simp [htodo] at hitem
    · refine haccounted.imp_right fun ha item hitem henabled => ?_
      exact (ha item hitem henabled).imp_right fun hmem => by simp [htodo] at hmem
  | cons item rest =>
    simp only
    split
    · next hdisabled =>
      have hdisabled' : item.enabled = false := by simpa using hdisabled
      refine ⟨?_, settled_of_record_eq rfl⟩
      simp only [LifeInv]
      refine ⟨⟨hunder.record, hunder.pending, hunder.cut, hunder.fine, fun hr => ?_, ?_, ?_, hunder.loop,
        fun he => absurd he hnot, fun _ _ => hgoes⟩, hregistered⟩
      · refine (hsees hr).imp_right fun ⟨item', hitem', henabled⟩ => ?_
        simp only [RunState.seesFlag]
        rw [htodo] at hitem'
        rcases List.mem_cons.1 hitem' with rfl | hrest
        · rw [hdisabled'] at henabled
          cases henabled
        · exact ⟨item', hrest, henabled⟩
      · refine haccounted.imp_right fun ha item' hitem' henabled => ?_
        rcases ha item' hitem' henabled with hout | hmem
        · exact .inl hout
        · rw [htodo] at hmem
          rcases List.mem_cons.1 hmem with rfl | hrest
          · rw [hdisabled'] at henabled
            cases henabled
          · exact .inr (.inr hrest)
      · rintro (hp | hp) <;> simp at hp
    · split
      · refine ⟨⟨⟨hunder.record, hunder.pending, hunder.cut, hunder.fine, fun _ => .inl rfl, .inl rfl, fun _ => .inl rfl,
          hunder.loop, fun he => absurd he hnot, fun hp => absurd rfl hp⟩, hregistered⟩, settled_of_record_eq rfl⟩
      · next hraised =>
        refine ⟨⟨⟨hunder.record, hunder.pending, hunder.cut, hunder.fine, fun hr => absurd hr hraised, ?_, ?_, hunder.loop,
          fun he => absurd he hnot, fun _ _ => hgoes⟩, hregistered⟩, settled_of_record_eq rfl⟩
        · refine haccounted.imp_right fun ha item' hitem' henabled => ?_
          rcases ha item' hitem' henabled with hout | hmem
          · exact .inl hout
          · rw [htodo] at hmem
            rcases List.mem_cons.1 hmem with rfl | hrest
            · exact .inr (.inl rfl)
            · exact .inr (.inr hrest)
        · rintro (hp | hp) <;> cases hp

/-- Both states are of one run, with the same collections left. -/
structure SameRun (s s' : RunState) : Prop where
  request : s'.request = s.request
  record : s'.record = s.record
  raised : s'.raised = s.raised
  cancelling : s'.cancelling = s.cancelling
  items : s'.items = s.items
  todo : s'.todo = s.todo

variable {item : Mapping}

theorem underway_outcome (h : Underway s) (hitem : s.phase.item = some item)
    (hsame : SameRun s s') (hout : s'.outcomes = s.outcomes ++ [(item, o)]) (hcancelled : s.cancelled = false)
    (hcut : o = .cut → s.raised = true)
    (hfine : s'.failure = none → s'.totalErrors = 0 → s.failure = none ∧ s.totalErrors = 0 ∧ o ≠ .failed ∧ o ≠ .missing)
    (hsees : s.raised = true → s'.cancelled = true ∨ s'.seesFlag)
    (hrest : s'.phase = .unregister ∨ s'.phase = .finish → s'.cancelled = true ∨ s'.todo = [])
    (hloop : ¬ s'.request.runner.isExport → s'.failure = none)
    (hexports : s'.request.runner.isExport → s'.todo = [] ∧ s'.errors = 0 ∧ s'.totalErrors = 0 ∧
      (s'.failure ≠ none → s'.raised = false ∧ s'.phase.item = none) ∧ s'.phase ≠ .head ∧ ∀ item, s'.phase ≠ .opening item)
    (hgoes : s'.phase ≠ .unregister → s'.phase ≠ .finish → s'.cancelled = false) : Underway s' where
  record := by
    rw [hsame.record, hsame.raised]
    exact h.record
  pending := by
    rw [hsame.cancelling, hsame.raised]
    exact h.pending
  cut item' hmem := by
    rw [hsame.raised]
    rw [hout] at hmem
    rcases List.mem_append.1 hmem with hold | hnew
    · exact h.cut item' hold
    · exact hcut (Prod.mk.inj (List.mem_singleton.1 hnew)).2.symm
  fine hfailure htotal p hmem := by
    obtain ⟨hf, ht, ho⟩ := hfine hfailure htotal
    rw [hout] at hmem
    rcases List.mem_append.1 hmem with hold | hnew
    · exact h.fine hf ht p hold
    · rw [List.mem_singleton.1 hnew]
      exact ho
  sees := by
    rw [hsame.raised]
    exact hsees
  accounted := by
    have hall := h.accounted.resolve_left (by simp [hcancelled])
    refine .inr fun item' hitem' henabled => ?_
    rw [hout, hsame.todo]
    rcases hall item' (hsame.items ▸ hitem') henabled with ⟨o', hold⟩ | hcur | htodo
    · exact .inl ⟨o', List.mem_append_left _ hold⟩
    · obtain rfl := Option.some.inj (hitem.symm.trans hcur)
      exact .inl ⟨o, List.mem_append_right _ (List.mem_singleton.2 rfl)⟩
    · exact .inr (.inr htodo)
  rest := hrest
  loop := hloop
  exports := hexports
  goes := hgoes

theorem underway_phase (processed errors : Nat) (h : Underway s)
    (hold : s.phase.item = some item) (hnew : phase.item = some item) (hopening : phase ≠ .opening item)
    (hsees : s.raised = true → s.cancelled = true ∨ RunState.seesFlag { s with phase := phase })
    (herrors : s.request.runner.isExport → errors = 0) :
    Underway { s with processed := processed, errors := errors, phase := phase } where
  record := h.record
  pending := h.pending
  cut := h.cut
  fine := h.fine
  sees := hsees
  accounted := by
    refine h.accounted.imp_right fun ha item' hitem' henabled => ?_
    rcases ha item' hitem' henabled with hout | hcur | htodo
    · exact .inl hout
    · exact .inr (.inl (hnew.trans (hold.symm.trans hcur)))
    · exact .inr (.inr htodo)
  rest hp := by rcases hp with rfl | rfl <;> cases hnew
  loop := h.loop
  exports he := by
    obtain ⟨htodo, _, htotal, hfailure, _, _⟩ := h.exports he
    refine ⟨htodo, herrors he, htotal, fun hf => absurd (hfailure hf).2 (by simp [hold]), ?_, fun item' hp => ?_⟩
    · rintro rfl
      cases hnew
    · have hp' : phase = .opening item' := hp
      subst hp'
      obtain rfl := Option.some.inj hnew
      exact hopening rfl
  goes _ _ := h.goes (by rintro hp; simp [hp, RunPhase.item] at hold) (by rintro hp; simp [hp, RunPhase.item] at hold)

theorem pipelineOutcome_cut {failure : Option String} {cut : Bool} {errors : Nat} (h : pipelineOutcome failure cut errors = .cut) :
    cut = true := by
  unfold pipelineOutcome at h
  split at h
  · assumption
  · split at h <;> cases h

theorem pipelineOutcome_fine (cut : Bool) : pipelineOutcome none cut 0 ≠ .failed ∧ pipelineOutcome none cut 0 ≠ .missing := by
  cases cut <;> decide

theorem report_export (h : s.request.runner = .export collection) (item failure cut inserted) :
    s.report item failure cut inserted = { s with
      phase := .unregister
      failure := failure
      cancelled := failure.isNone && cut
      totalProcessed := s.processed
      outcomes := s.outcomes ++ [(item, pipelineOutcome failure cut s.errors)] } := by
  simp only [RunState.report, h]

theorem report_error (h : ¬ s.request.runner.isExport) (item) (e : String) (cut inserted) :
    s.report item (some e) cut inserted = { s with
      phase := .head
      totalErrors := s.totalErrors + 1
      outcomes := s.outcomes ++ [(item, pipelineOutcome (some e) cut s.errors)] } := by
  unfold RunState.report
  cases hrunner : s.request.runner with
  | dump collections => rfl
  | restore strategy collectionMap => rfl
  | «export» collection => exact absurd (by simp [hrunner, Runner.isExport]) h

theorem report_ok (h : ¬ s.request.runner.isExport) (item cut inserted) :
    s.report item none cut inserted = { s with
      phase := .head
      totalProcessed := s.totalProcessed + s.processed
      totalInserted := s.totalInserted + inserted
      totalErrors := s.totalErrors + s.errors
      files := s.files + 1
      outcomes := s.outcomes ++ [(item, pipelineOutcome none cut s.errors)] } := by
  unfold RunState.report
  cases hrunner : s.request.runner with
  | dump collections => rfl
  | restore strategy collectionMap => rfl
  | «export» collection => exact absurd (by simp [hrunner, Runner.isExport]) h

theorem lifeInv_report (failure : Option String) (cut : Bool) (inserted : Nat) (h : Underway s)
    (hregistered : s.registered = true) (hitem : s.phase.item = some item) (hcancelled : s.cancelled = false)
    (hsees : s.raised = true → s.request.runner.isExport ∨ ∃ item ∈ s.todo, item.enabled = true)
    (hcut : cut = true → s.raised = true)
    (hexport : s.request.runner.isExport → s.raised = true → failure = none ∧ cut = true) :
    LifeInv (s.report item failure cut inserted) ∧ (s.report item failure cut inserted).record = s.record := by
  have hcut' : pipelineOutcome failure cut s.errors = .cut → s.raised = true := fun ho => hcut (pipelineOutcome_cut ho)
  by_cases he : s.request.runner.isExport
  · obtain ⟨htodo, herrors, htotal, hfailure, _⟩ := h.exports he
    have hold : s.failure = none := by
      by_contra hne
      rw [(hfailure hne).2] at hitem
      cases hitem
    obtain ⟨collection, hrunner⟩ : ∃ collection, s.request.runner = .export collection := by
      cases hrunner : s.request.runner with
      | dump collections => simp [hrunner, Runner.isExport] at he
      | restore strategy collectionMap => simp [hrunner, Runner.isExport] at he
      | «export» collection => exact ⟨collection, rfl⟩
    rw [report_export hrunner]
    refine ⟨⟨underway_outcome h hitem ⟨rfl, rfl, rfl, rfl, rfl, rfl⟩ rfl hcancelled hcut' (fun hf _ => ?_) (fun hr => .inl ?_)
      (fun _ => .inr htodo) (fun hn => absurd he hn) (fun _ => ⟨htodo, herrors, htotal, fun hf => ⟨?_, rfl⟩, (by simp), (by simp)⟩)
      fun hp => absurd rfl hp, hregistered⟩, rfl⟩
    · rw [show failure = none from hf, herrors]
      exact ⟨hold, htotal, pipelineOutcome_fine cut⟩
    · obtain ⟨hf, hc⟩ := hexport he hr
      simp [hf, hc]
    · by_contra hraised
      exact hf (hexport he (by simpa using hraised)).1
  · have hsees' : s.raised = true → ∃ item ∈ s.todo, item.enabled = true := fun hr => (hsees hr).resolve_left he
    have hhead : ∀ s' : RunState, SameRun s s' → s'.phase = .head → s'.registered = s.registered → s'.failure = s.failure → s'.cancelled = s.cancelled →
        s'.outcomes = s.outcomes ++ [(item, pipelineOutcome failure cut s.errors)] →
        (s'.totalErrors = 0 → s.totalErrors = 0 ∧ failure = none ∧ s.errors = 0) → LifeInv s' := by
      intro s' hsame hphase hreg hfail hcanc hout htotal
      have hinv : Underway s' := by
        refine underway_outcome h hitem hsame hout hcancelled hcut' (fun hf ht => ?_) (fun hr => .inr ?_) (fun hp => ?_) (fun _ => ?_)
          (fun he' => absurd (hsame.request ▸ he') he) fun _ _ => hcanc.trans hcancelled
        · obtain ⟨ht', hfailure, herrors⟩ := htotal ht
          rw [hfailure, herrors]
          exact ⟨h.loop he, ht', pipelineOutcome_fine cut⟩
        · simp only [RunState.seesFlag, hphase, hsame.todo]
          exact hsees' hr
        · rcases hp with hp | hp <;> simp [hphase] at hp
        · rw [hfail]
          exact h.loop he
      simp only [LifeInv, hphase]
      exact ⟨hinv, hreg.trans hregistered⟩
    cases failure with
    | some e =>
      rw [report_error he]
      exact ⟨hhead _ ⟨rfl, rfl, rfl, rfl, rfl, rfl⟩ rfl rfl rfl rfl rfl fun ht => by simp at ht, rfl⟩
    | none =>
      rw [report_ok he]
      refine ⟨hhead _ ⟨rfl, rfl, rfl, rfl, rfl, rfl⟩ rfl rfl rfl rfl rfl fun ht => ?_, rfl⟩
      have hsum : s.totalErrors + s.errors = 0 := ht
      exact ⟨by omega, rfl, by omega⟩

theorem lifeInv_of_item (item : Mapping) (hitem : s.phase.item = some item) (h : Underway s)
    (hregistered : s.registered = true) : LifeInv s := by
  unfold LifeInv
  cases hphase : s.phase <;> simp [hphase, RunPhase.item] at hitem <;> exact ⟨h, hregistered⟩

theorem underway_of_item (hitem : s.phase.item = some item) (h : LifeInv s) :
    Underway s ∧ s.registered = true := by
  unfold LifeInv at h
  cases hphase : s.phase <;> simp [hphase, RunPhase.item] at hitem <;> rw [hphase] at h <;> exact h

theorem seesFlag_pipeline (h : Underway s) (hitem : s.phase.item = some item) (hraised : s.raised = true) :
    s.request.runner.isExport ∨ ∃ item ∈ s.todo, item.enabled = true := by
  have hgoes : s.cancelled = false := h.goes (by rintro hp; simp [hp, RunPhase.item] at hitem) (by rintro hp; simp [hp, RunPhase.item] at hitem)
  have hsees := (h.sees hraised).resolve_left (by simp [hgoes])
  unfold RunState.seesFlag at hsees
  split at hsees
  · exact .inr hsees
  · exact .inr hsees
  · exact hsees
  · exact hsees
  · exact hsees
  · exact hsees
  · exact hsees.elim

theorem advances_opening (h : LifeInv s) (hphase : s.phase = .opening item)
    (hok : Steady s (.go reply now)) : Advances s (s.go reply now) := by
  have hitem : s.phase.item = some item := by rw [hphase, RunPhase.item]
  obtain ⟨hunder, hregistered⟩ := underway_of_item hitem h
  have hnot : ¬ s.request.runner.isExport := fun he => (hunder.exports he).2.2.2.2.2 item hphase
  have hsees : s.raised = true → ∃ item ∈ s.todo, item.enabled = true := fun hr =>
    (seesFlag_pipeline hunder hitem hr).resolve_left hnot
  have hcancelled : s.cancelled = false := hunder.goes (by simp [hphase]) (by simp [hphase])
  have hstart : Advances s { s with phase := .sinkStart item } := by
    refine ⟨⟨?_, hregistered⟩, settled_of_record_eq rfl⟩
    exact underway_phase s.processed s.errors hunder hitem rfl (by simp)
      (fun hr => .inr (.inr (hsees hr))) fun he => absurd he hnot
  have hopens : s.opens reply := by simpa only [Steady, hphase] using hok
  unfold RunState.opens at hopens
  simp only [RunState.go, hphase]
  cases hrunner : s.request.runner with
  | dump collections =>
    rw [hrunner] at hopens
    simp only [hopens]
    exact hstart
  | «export» collection => exact absurd (by simp [hrunner, Runner.isExport]) hnot
  | restore strategy collectionMap =>
    rw [hrunner] at hopens
    obtain ⟨hfound, hrest⟩ := hopens
    simp only [hfound, Bool.not_true, Bool.false_eq_true, if_false]
    by_cases hskip : strategy = .skip
    · rw [if_pos hskip] at hrest
      simp only [if_pos hskip, hrest.1]
      split
      · refine ⟨⟨?_, hregistered⟩, settled_of_record_eq rfl⟩
        refine underway_outcome hunder hitem ⟨rfl, rfl, rfl, rfl, rfl, rfl⟩ rfl hcancelled (by simp) (fun hf ht => ⟨hf, ht, by simp, by simp⟩)
          (fun hr => .inr (hsees hr)) (fun hp => ?_) hunder.loop (fun he => absurd he hnot) fun _ _ => hcancelled
        rcases hp with hp | hp <;> cases hp
      · next hcount =>
        simp only [hrest.2 (Nat.eq_zero_of_not_pos hcount)]
        exact hstart
    · rw [if_neg hskip] at hrest
      simp only [if_neg hskip, hrest]
      exact hstart

theorem advances_sinkStart (h : LifeInv s)
    (hphase : s.phase = .sinkStart item) (hok : Steady s (.go reply now)) : Advances s (s.go reply now) := by
  have hitem : s.phase.item = some item := by rw [hphase, RunPhase.item]
  obtain ⟨hunder, hregistered⟩ := underway_of_item hitem h
  have hflag := seesFlag_pipeline hunder hitem
  have hcancelled : s.cancelled = false := hunder.goes (by simp [hphase]) (by simp [hphase])
  simp only [Steady, hphase] at hok
  simp only [RunState.go, hphase]
  cases he : reply.error with
  | some e =>
    obtain ⟨hinv, hrecord⟩ := lifeInv_report (some e) false 0 hunder hregistered hitem hcancelled
      hflag (by simp) fun hex hr => by simp [hok hex hr] at he
    exact ⟨hinv, settled_of_record_eq hrecord⟩
  | none =>
    refine ⟨⟨?_, hregistered⟩, settled_of_record_eq rfl⟩
    exact underway_phase 0 0 hunder hitem rfl (by simp) (fun hr => .inr (hflag hr)) fun _ => rfl

theorem advances_check (h : LifeInv s) (hphase : s.phase = .check item) :
    Advances s (s.go reply now) := by
  have hitem : s.phase.item = some item := by rw [hphase, RunPhase.item]
  obtain ⟨hunder, hregistered⟩ := underway_of_item hitem h
  have hflag := seesFlag_pipeline hunder hitem
  have hmove : ∀ phase : RunPhase, phase = .close item ∨ phase = .pull item → Advances s { s with phase := phase } := by
    intro phase hp
    refine ⟨?_, settled_of_record_eq rfl⟩
    refine lifeInv_of_item item (by rcases hp with rfl | rfl <;> rfl) ?_ hregistered
    refine underway_phase s.processed s.errors hunder hitem (by rcases hp with rfl | rfl <;> rfl)
      (by rcases hp with rfl | rfl <;> simp) (fun hr => .inr ?_) fun he => (hunder.exports he).2.1
    rcases hp with rfl | rfl <;> exact hflag hr
  simp only [RunState.go, hphase]
  split
  · exact hmove _ (.inl rfl)
  · exact hmove _ (.inr rfl)

theorem advances_pull (h : LifeInv s) (hphase : s.phase = .pull item)
    (hok : Steady s (.go reply now)) : Advances s (s.go reply now) := by
  have hitem : s.phase.item = some item := by rw [hphase, RunPhase.item]
  obtain ⟨hunder, hregistered⟩ := underway_of_item hitem h
  have hflag := seesFlag_pipeline hunder hitem
  have hcancelled : s.cancelled = false := hunder.goes (by simp [hphase]) (by simp [hphase])
  simp only [Steady, hphase] at hok
  have hback : ∀ processed errors (phase : RunPhase), phase = .check item ∨ phase = .close item →
      (s.request.runner.isExport → errors = 0) →
      Advances s { s with processed := processed, errors := errors, phase := phase } := by
    intro processed errors phase hp herrors
    refine ⟨?_, settled_of_record_eq rfl⟩
    refine lifeInv_of_item item (by rcases hp with rfl | rfl <;> rfl) ?_ hregistered
    refine underway_phase processed errors hunder hitem (by rcases hp with rfl | rfl <;> rfl) (by rcases hp with rfl | rfl <;> simp)
      (fun hr => .inr ?_) herrors
    rcases hp with rfl | rfl <;> exact hflag hr
  have hfails : ∀ e, (s.request.runner.isExport → s.raised = true → False) → Advances s (s.report item (some e) false 0) := by
    intro e hno
    obtain ⟨hinv, hrecord⟩ := lifeInv_report (some e) false 0 hunder hregistered hitem hcancelled
      hflag (by simp) fun hex hr => (hno hex hr).elim
    exact ⟨hinv, settled_of_record_eq hrecord⟩
  have herrors : s.request.runner.isExport → s.errors = 0 := fun he => (hunder.exports he).2.1
  simp only [RunState.go, hphase]
  cases hrow : reply.row with
  | eof => exact hback s.processed s.errors _ (.inr rfl) herrors
  | skipped => exact hback _ s.errors _ (.inl rfl) herrors
  | fail e => exact hfails e fun he hr => ((hok he).2 hr e).1 hrow
  | doc writeError =>
    cases writeError with
    | none => exact hback _ s.errors _ (.inl rfl) herrors
    | some e => exact hfails e fun he hr => ((hok he).2 hr e).2 hrow
  | error =>
    have hnot : ¬ s.request.runner.isExport := fun he => (hok he).1 hrow
    have hsame : ({ s with processed := s.processed + 1, errors := s.errors + 1 } : RunState) =
        { s with processed := s.processed + 1, errors := s.errors + 1, phase := .pull item } := by rw [← hphase]
    have hunder' : Underway { s with processed := s.processed + 1, errors := s.errors + 1 } := by
      rw [hsame]
      exact underway_phase _ _ hunder hitem rfl (by simp) (fun hr => .inr (hflag hr)) fun he => absurd he hnot
    simp only
    split
    · obtain ⟨hinv, hrecord⟩ := lifeInv_report _ false 0 hunder' hregistered hitem hcancelled hflag (by simp)
        fun he => absurd he hnot
      exact ⟨hinv, settled_of_record_eq hrecord⟩
    · exact hback _ _ _ (.inl rfl) fun he => absurd he hnot

theorem advances_close (h : LifeInv s) (hphase : s.phase = .close item)
    (hok : Steady s (.go reply now)) : Advances s (s.go reply now) := by
  have hitem : s.phase.item = some item := by rw [hphase, RunPhase.item]
  obtain ⟨hunder, hregistered⟩ := underway_of_item hitem h
  have hcancelled : s.cancelled = false := hunder.goes (by simp [hphase]) (by simp [hphase])
  simp only [Steady, hphase] at hok
  simp only [RunState.go, hphase]
  obtain ⟨hinv, hrecord⟩ := lifeInv_report reply.error s.raised reply.inserted hunder hregistered hitem
    hcancelled (seesFlag_pipeline hunder hitem) id fun he hr => ⟨hok he hr, hr⟩
  exact ⟨hinv, settled_of_record_eq hrecord⟩

/-! ## The verdict -/

theorem advances_unregister (h : LifeInv s) (hphase : s.phase = .unregister) :
    Advances s (s.go reply now) := by
  simp only [LifeInv, hphase] at h
  obtain ⟨hunder, _⟩ := h
  have hnotSeen : ¬ s.seesFlag := by simp [RunState.seesFlag, hphase]
  simp only [RunState.go, hphase]
  refine ⟨⟨⟨hunder.record, hunder.pending, hunder.cut, hunder.fine, fun hr => ?_, ?_, fun _ => hunder.rest (.inl hphase), hunder.loop,
    fun he => ?_, fun _ hp => absurd rfl hp⟩, rfl⟩, settled_of_record_eq rfl⟩
  · exact .inl ((hunder.sees hr).resolve_right hnotSeen)
  · refine hunder.accounted.imp_right fun ha item hitem henabled => ?_
    rcases ha item hitem henabled with hout | hcur | htodo
    · exact .inl hout
    · simp [hphase, RunPhase.item] at hcur
    · exact .inr (.inr htodo)
  · obtain ⟨htodo, herrors, htotal, hfailure, _⟩ := hunder.exports he
    exact ⟨htodo, herrors, htotal, fun hf => ⟨(hfailure hf).1, rfl⟩, by simp, by simp⟩

theorem verdict_terminal (s : RunState) : s.verdict.1.terminal := by
  unfold RunState.verdict
  split
  · simp only
    split
    · trivial
    · split <;> trivial
  · simp only
    split
    · trivial
    · split <;> trivial
  · split
    · trivial
    · simp only
      split <;> trivial

theorem verdict_cancelled (h : s.cancelled = true) (hfailure : s.request.runner.isExport → s.failure = none) :
    s.verdict.1 = .cancelled := by
  unfold RunState.verdict
  split
  · simp [h]
  · simp [h]
  · next hrunner => simp [h, hfailure (by simp [hrunner, Runner.isExport])]

theorem verdict_done (h : s.verdict.1 = .done) : s.cancelled = false ∧
    (¬ s.request.runner.isExport → s.totalErrors = 0) ∧ (s.request.runner.isExport → s.failure = none) := by
  unfold RunState.verdict at h
  split at h
  · next hrunner =>
    by_cases hc : s.cancelled = true
    · simp [hc] at h
    · by_cases ht : 0 < s.totalErrors
      · simp [hc, ht] at h
      · exact ⟨by simpa using hc, fun _ => by omega, by simp [hrunner, Runner.isExport]⟩
  · next hrunner =>
    by_cases hc : s.cancelled = true
    · simp [hc] at h
    · by_cases ht : 0 < s.totalErrors
      · simp [hc, ht] at h
      · exact ⟨by simpa using hc, fun _ => by omega, by simp [hrunner, Runner.isExport]⟩
  · next hrunner =>
    split at h
    · cases h
    · next hfailure =>
      by_cases hc : s.cancelled = true
      · simp [hc] at h
      · exact ⟨by simpa using hc, fun hn => absurd (by simp [hrunner, Runner.isExport]) hn, fun _ => hfailure⟩

theorem advances_finish (h : LifeInv s) (hphase : s.phase = .finish) :
    Advances s (s.go reply now) := by
  simp only [LifeInv, hphase] at h
  obtain ⟨hunder, hregistered⟩ := h
  obtain ⟨r, hr, hstatus⟩ := hunder.record
  have hcancel : s.raised = true → s.cancelled = true := fun hraised =>
    (hunder.sees hraised).resolve_right (by simp [RunState.seesFlag, hphase])
  have hnofail : s.raised = true → s.request.runner.isExport → s.failure = none := by
    intro hraised he
    by_contra hf
    have hno := ((hunder.exports he).2.2.2.1 hf).1
    rw [hraised] at hno
    cases hno
  have hraisedVerdict : s.raised = true → s.verdict.1 = .cancelled := fun hraised =>
    verdict_cancelled (hcancel hraised) (hnofail hraised)
  have hrecord : (s.setStatus s.verdict.1 s.verdict.2 now).record = some (r.withStatus s.verdict.1 s.verdict.2 now) := by
    simp [RunState.setStatus, hr]
  have hsettled : Settled s (s.setStatus s.verdict.1 s.verdict.2 now) := by
    intro r' hr' hterminal
    obtain rfl := Option.some.inj (hr.symm.trans hr')
    refine ⟨_, hrecord, ?_⟩
    rcases hstatus with hrunning | ⟨hcancelled, hraised⟩
    · simp [hrunning, JobStatus.terminal] at hterminal
    · rw [hcancelled]
      exact hraisedVerdict hraised
  have hended : Ended (s.setStatus s.verdict.1 s.verdict.2 now) := by
    constructor
    · intro r' hr'
      rw [hrecord] at hr'
      rw [← Option.some.inj hr']
      exact withStatus_finished (verdict_terminal s) s.verdict.2 now r
    · exact hregistered
    · intro item hitem r' hr'
      rw [hrecord] at hr'
      rw [← Option.some.inj hr']
      exact hraisedVerdict (hunder.cut item hitem)
    · intro r' hr' hdone item hitem henabled
      rw [hrecord] at hr'
      rw [← Option.some.inj hr'] at hdone
      obtain ⟨hc, hloop, hexport⟩ := verdict_done hdone
      have hnotRaised : s.raised ≠ true := fun hraised => by simp [hcancel hraised] at hc
      have hfailure : s.failure = none := by
        by_cases he : s.request.runner.isExport
        · exact hexport he
        · exact hunder.loop he
      have htotal : s.totalErrors = 0 := by
        by_cases he : s.request.runner.isExport
        · exact (hunder.exports he).2.2.1
        · exact hloop he
      have htodo := (hunder.rest (.inr hphase)).resolve_left (by simp [hc])
      rcases hunder.accounted.resolve_left (by simp [hc]) item hitem henabled with ⟨o, hout⟩ | hcur | hmem
      · have hfine := hunder.fine hfailure htotal _ hout
        cases o with
        | complete => exact .inl hout
        | skipped => exact .inr hout
        | failed => exact absurd rfl hfine.1
        | missing => exact absurd rfl hfine.2
        | cut => exact absurd (hunder.cut item hout) hnotRaised
      · simp [hphase, RunPhase.item] at hcur
      · rw [htodo] at hmem
        cases hmem
  have hpending : 0 < s.cancelling → ∀ r', (s.setStatus s.verdict.1 s.verdict.2 now).record = some r' → r'.status = .cancelled := by
    intro hpos r' hr'
    rw [hrecord] at hr'
    rw [← Option.some.inj hr']
    exact hraisedVerdict (hunder.pending hpos)
  simp only [RunState.go, hphase]
  cases hf : s.failure with
  | none => exact ⟨⟨⟨hended.1, hended.2, hended.3, hended.4⟩, hpending⟩, hsettled⟩
  | some e =>
    refine ⟨?_, hsettled⟩
    change LifeInv ((s.setStatus s.verdict.1 s.verdict.2 now).exit e)
    cases hs : s.request.scheduled with
    | none =>
      rw [@exit_user (s.setStatus s.verdict.1 s.verdict.2 now) hs]
      exact ⟨⟨hended.1, hended.2, hended.3, hended.4⟩, hpending⟩
    | some scheduled =>
      rw [@exit_scheduled (s.setStatus s.verdict.1 s.verdict.2 now) _ hs]
      have he : s.request.runner.isExport := by
        by_contra hn
        simp [hunder.loop hn] at hf
      have hnotRaised : s.raised = false := ((hunder.exports he).2.2.2.1 (by simp [hf])).1
      refine ⟨hregistered, ?_, fun item hitem => ?_, fun r' hr' => .inr ?_⟩
      · by_contra hpos
        have hraised := hunder.pending (Nat.pos_of_ne_zero hpos)
        rw [hnotRaised] at hraised
        cases hraised
      · have hraised := hunder.cut item hitem
        rw [hnotRaised] at hraised
        cases hraised
      · have hr'' : (s.setStatus s.verdict.1 s.verdict.2 now).record = some r' := hr'
        rw [hrecord] at hr''
        rw [← Option.some.inj hr'']
        obtain ⟨collection, hrunner⟩ : ∃ collection, s.request.runner = .export collection := by
          cases hrunner : s.request.runner with
          | dump collections => simp [hrunner, Runner.isExport] at he
          | restore strategy collectionMap => simp [hrunner, Runner.isExport] at he
          | «export» collection => exact ⟨collection, rfl⟩
        simp [JobMeta.withStatus, RunState.verdict, hrunner, hf]

theorem advances_fail (h : LifeInv s) (hphase : s.phase = .fail e) :
    Advances s (s.go reply now) := by
  simp only [LifeInv, hphase] at h
  obtain ⟨hregistered, hcancelling, hcut, hrecord⟩ := h
  simp only [RunState.go, hphase]
  refine ⟨⟨ended_failed hregistered hcut setStatus_failed, fun hpos => absurd hpos (by simp [RunState.setStatus, hcancelling])⟩, ?_⟩
  intro r hr hterminal
  refine ⟨_, congrArg (Option.map _) hr, ?_⟩
  rcases hrecord r hr with hs | hs
  · simp [hs, JobStatus.terminal] at hterminal
  · rw [hs]
    rfl

/-! ## Runs -/

theorem advances_go (h : LifeInv s) (hok : Steady s (.go reply now)) :
    Advances s (s.go reply now) := by
  cases hphase : s.phase with
  | resolve => exact advances_resolve h hphase hok
  | prepare => exact advances_prepare h hphase
  | create => exact advances_create h hphase
  | start => exact advances_start h hphase
  | register => exact advances_register h hphase
  | head => exact advances_head h hphase
  | opening item => exact advances_opening h hphase hok
  | sinkStart item => exact advances_sinkStart h hphase hok
  | check item => exact advances_check h hphase
  | pull item => exact advances_pull h hphase hok
  | close item => exact advances_close h hphase hok
  | unregister => exact advances_unregister h hphase
  | finish => exact advances_finish h hphase
  | fail e => exact advances_fail h hphase
  | ended =>
    simp only [RunState.go, hphase]
    exact ⟨h, settled_of_record_eq rfl⟩

theorem underway_of_registered (h : LifeInv s) (hregistered : s.registered = true) :
    Underway s ∧ s.phase ≠ .finish := by
  unfold LifeInv at h
  split at h
  · simp [h.1.registered] at hregistered
  · simp [h.1.registered] at hregistered
  · simp [h.1.registered] at hregistered
  · simp [h.1.registered] at hregistered
  · simp [h.1.registered] at hregistered
  · simp [h.1] at hregistered
  · simp [h.1.unregistered] at hregistered
  · simp [h.2] at hregistered
  · next _ hfinish => exact ⟨h.1, hfinish⟩

/-- Where the flag is going to be looked at: at the head of the loop, or in the work on a collection. -/
theorem phase_of_seesFlag (h : s.seesFlag) : s.phase = .head ∨ ∃ item, s.phase.item = some item := by
  unfold RunState.seesFlag at h
  split at h
  · next hphase => exact .inl hphase
  all_goals first
    | next item hphase => exact .inr ⟨item, by rw [hphase, RunPhase.item]⟩
    | exact h.elim

theorem advances_raise (h : LifeInv s) (hok : Steady s .raise) : Advances s (stepRun s .raise) := by
  simp only [stepRun]
  split
  · next hregistered =>
    obtain ⟨hunder, _⟩ := underway_of_registered h hregistered
    have hsees := hok hregistered
    obtain ⟨r, hr, hstatus⟩ := hunder.record
    have hunder' : Underway { s with raised := true, cancelling := s.cancelling + 1 } := by
      refine ⟨⟨r, hr, hstatus.imp_right fun hc => ⟨hc.1, rfl⟩⟩, fun _ => rfl, fun _ _ => rfl, hunder.fine, fun _ => .inr hsees,
        hunder.accounted, hunder.rest, hunder.loop, fun he => ?_, hunder.goes⟩
      obtain ⟨htodo, herrors, htotal, hfailure, hhead, hopening⟩ := hunder.exports he
      refine ⟨htodo, herrors, htotal, fun hf => ?_, hhead, hopening⟩
      obtain ⟨item, hitem⟩ := (phase_of_seesFlag hsees).resolve_left hhead
      simp [(hfailure hf).2] at hitem
    refine ⟨?_, settled_of_record_eq rfl⟩
    rcases phase_of_seesFlag hsees with hphase | ⟨item, hitem⟩
    · simp only [LifeInv, hphase]
      rw [hphase] at hunder'
      exact ⟨hunder', hregistered⟩
    · exact lifeInv_of_item item hitem hunder' hregistered
  · exact ⟨h, settled_of_record_eq rfl⟩

/-- `cancel_job` writes the status: the flag was raised, so the run is still under way, or has ended as cancelled. -/
theorem advances_cancelStatus (h : LifeInv s) : Advances s (stepRun s (.cancelStatus now)) := by
  simp only [stepRun]
  split
  · next hpos =>
    have hunder' : Underway s → Underway { s.setStatus .cancelled "Cancelled by user" now with cancelling := s.cancelling - 1 } ∧
        Settled s { s.setStatus .cancelled "Cancelled by user" now with cancelling := s.cancelling - 1 } := by
      intro hunder
      obtain ⟨r, hr, hstatus⟩ := hunder.record
      have hraised := hunder.pending hpos
      have hrecord : (s.setStatus .cancelled "Cancelled by user" now).record = some (r.withStatus .cancelled "Cancelled by user" now) := by
        simp [RunState.setStatus, hr]
      refine ⟨⟨⟨_, hrecord, .inr ⟨rfl, hraised⟩⟩, fun _ => hraised, hunder.cut, hunder.fine, hunder.sees, hunder.accounted, hunder.rest,
        hunder.loop, hunder.exports, hunder.goes⟩, fun r' hr' hterminal => ⟨_, hrecord, ?_⟩⟩
      obtain rfl := Option.some.inj (hr.symm.trans hr')
      rcases hstatus with hs | ⟨hs, _⟩
      · simp [hs, JobStatus.terminal] at hterminal
      · rw [hs]
        rfl
    cases hphase : s.phase with
    | ended =>
      simp only [LifeInv, hphase] at h
      obtain ⟨hended, hcancelled⟩ := h
      have hstatus : ∀ r, (s.setStatus .cancelled "Cancelled by user" now).record = some r →
          r.status = .cancelled ∧ r.finishedAt.isSome = true := by
        intro r hr
        obtain ⟨r0, _, rfl⟩ := Option.map_eq_some_iff.1 hr
        exact ⟨rfl, rfl⟩
      refine ⟨?_, fun r hr _ => ⟨r.withStatus .cancelled "Cancelled by user" now, congrArg (Option.map _) hr, (hcancelled hpos r hr).symm⟩⟩
      simp only [LifeInv, RunState.setStatus, hphase]
      refine ⟨⟨fun r hr => ?_, hended.unregistered, fun item _ r hr => (hstatus r hr).1, fun r hr hdone => ?_⟩, fun _ r hr => (hstatus r hr).1⟩
      · exact ⟨by simp [(hstatus r hr).1, JobStatus.terminal], (hstatus r hr).2⟩
      · rw [(hstatus r hr).1] at hdone
        cases hdone
    | resolve => simp only [LifeInv, hphase] at h; simp [h.1.cancelling] at hpos
    | prepare => simp only [LifeInv, hphase] at h; simp [h.1.cancelling] at hpos
    | create => simp only [LifeInv, hphase] at h; simp [h.1.cancelling] at hpos
    | start => simp only [LifeInv, hphase] at h; simp [h.1.cancelling] at hpos
    | register => simp only [LifeInv, hphase] at h; simp [h.1.cancelling] at hpos
    | fail e => simp only [LifeInv, hphase] at h; simp [h.2.1] at hpos
    | _ =>
      simp only [LifeInv, hphase] at h
      obtain ⟨hinv, hsettled⟩ := hunder' h.1
      refine ⟨?_, hsettled⟩
      have hphase' : ({ s.setStatus .cancelled "Cancelled by user" now with cancelling := s.cancelling - 1 } : RunState).phase = _ := hphase
      have hregistered : ({ s.setStatus .cancelled "Cancelled by user" now with cancelling := s.cancelling - 1 } : RunState).registered =
        s.registered := rfl
      revert hinv hphase' hregistered
      generalize ({ s.setStatus .cancelled "Cancelled by user" now with cancelling := s.cancelling - 1 } : RunState) = s'
      intro hinv hphase' hregistered
      simp only [LifeInv, hphase']
      exact ⟨hinv, hregistered.trans h.2⟩
  · exact ⟨h, settled_of_record_eq rfl⟩

theorem advances_step (h : LifeInv s) (hok : Steady s a) : Advances s (stepRun s a) := by
  cases a with
  | go reply now => exact advances_go h hok
  | raise => exact advances_raise h hok
  | cancelStatus now => exact advances_cancelStatus h

theorem lifeInv_init (clock : Clock) (now : Int) (request : RunRequest) : LifeInv (.init clock now request) := by
  refine ⟨⟨rfl, rfl, rfl, rfl, rfl, rfl, rfl, rfl⟩, fun r hr => ?_, fun hs => ?_⟩
  · obtain ⟨scheduled, _, rfl⟩ := Option.map_eq_some_iff.1 hr
    rfl
  · simp [RunState.init, show request.scheduled = none from hs]

/-! ### The way to the end -/

/-- How far the run is from its end, when every source is at its end. -/
def RunState.left (s : RunState) : Nat :=
  match s.phase with
  | .ended => 0
  | .fail _ => 1
  | .finish => 2
  | .unregister => 3
  | .head => 4 + 6 * s.todo.length
  | .close _ => 5 + 6 * s.todo.length
  | .pull _ => 6 + 6 * s.todo.length
  | .check _ => 7 + 6 * s.todo.length
  | .sinkStart _ => 8 + 6 * s.todo.length
  | .opening _ => 9 + 6 * s.todo.length
  | .register => 10 + 6 * s.todo.length
  | .start => 11 + 6 * s.todo.length
  | .create => 12 + 6 * s.todo.length
  | .prepare => 13 + 6 * s.todo.length
  | .resolve => 14 + 6 * s.todo.length

theorem left_exit (s : RunState) (message : String) : (s.exit message).left ≤ 1 := by
  cases hs : s.request.scheduled with
  | none => simp [exit_user hs, RunState.left]
  | some scheduled => simp [exit_scheduled hs, RunState.left]

theorem left_report (s : RunState) (item : Mapping) (cut : Bool) : (s.report item none cut 0).left ≤ 4 + 6 * s.todo.length := by
  by_cases he : s.request.runner.isExport
  · cases hrunner : s.request.runner with
    | dump collections => simp [hrunner, Runner.isExport] at he
    | restore strategy collectionMap => simp [hrunner, Runner.isExport] at he
    | «export» collection =>
      rw [report_export hrunner]
      simp only [RunState.left]
      omega
  · rw [report_ok he]
    exact Nat.le_refl _

/-- Ready for a collection, or further. -/
def RunPhase.prepared : RunPhase → Prop
  | .resolve => False
  | .prepare => False
  | _ => True

theorem prepared_exit (s : RunState) (message : String) : (s.exit message).phase.prepared := by
  cases hs : s.request.scheduled with
  | none => simp [exit_user hs, RunPhase.prepared]
  | some scheduled => simp [exit_scheduled hs, RunPhase.prepared]

theorem left_go_lt (now : String) (hprepared : s.phase.prepared) (hended : s.phase ≠ .ended) :
    (s.go {} now).left < s.left ∧ (s.go {} now).phase.prepared := by
  have hmove : ∀ s' : RunState, s'.left < s.left → s'.phase.prepared → s'.left < s.left ∧ s'.phase.prepared := fun _ h1 h2 => ⟨h1, h2⟩
  cases hphase : s.phase with
  | resolve => simp [hphase, RunPhase.prepared] at hprepared
  | prepare => simp [hphase, RunPhase.prepared] at hprepared
  | ended => exact absurd hphase hended
  | create =>
    simp only [RunState.go, hphase]
    exact hmove _ (by simp [RunState.left, hphase]) trivial
  | start =>
    simp only [RunState.go, hphase]
    exact hmove _ (by simp [RunState.left, hphase, RunState.setStatus]) trivial
  | register =>
    simp only [RunState.go, hphase]
    split
    · next htodo => exact hmove _ (by simp [RunState.left, hphase, htodo]; omega) trivial
    · exact hmove _ (by simp [RunState.left, hphase]) trivial
  | head =>
    simp only [RunState.go, hphase]
    split
    · exact hmove _ (by simp [RunState.left, hphase]; omega) trivial
    · next htodo =>
      split
      · exact hmove _ (by simp [RunState.left, hphase, htodo]) (by simp [RunPhase.prepared])
      · split
        · exact hmove _ (by simp [RunState.left, hphase]; omega) trivial
        · exact hmove _ (by simp [RunState.left, hphase, htodo]; omega) trivial
  | opening item =>
    have hstart := hmove { s with phase := .sinkStart item } (by simp [RunState.left, hphase]) trivial
    simp only [RunState.go, hphase]
    cases s.request.runner with
    | dump collections => exact hstart
    | «export» collection => exact hstart
    | restore strategy collectionMap =>
      simp only [Bool.not_true, Bool.false_eq_true, if_false, Nat.lt_irrefl]
      split <;> exact hstart
  | sinkStart item =>
    simp only [RunState.go, hphase]
    exact hmove _ (by simp [RunState.left, hphase]) trivial
  | check item =>
    simp only [RunState.go, hphase]
    split
    · exact hmove _ (by simp [RunState.left, hphase]) trivial
    · exact hmove _ (by simp [RunState.left, hphase]) trivial
  | pull item =>
    simp only [RunState.go, hphase]
    exact hmove _ (by simp [RunState.left, hphase]) trivial
  | close item =>
    simp only [RunState.go, hphase]
    refine hmove _ (Nat.lt_of_le_of_lt (left_report s item s.raised) (by simp [RunState.left, hphase])) ?_
    by_cases he : s.request.runner.isExport
    · cases hrunner : s.request.runner with
      | dump collections => simp [hrunner, Runner.isExport] at he
      | restore strategy collectionMap => simp [hrunner, Runner.isExport] at he
      | «export» collection =>
        rw [report_export hrunner]
        trivial
    · rw [report_ok he]
      trivial
  | unregister =>
    simp only [RunState.go, hphase]
    exact hmove _ (by simp [RunState.left, hphase]) trivial
  | finish =>
    simp only [RunState.go, hphase]
    split
    · exact hmove _ (Nat.lt_of_le_of_lt (left_exit _ _) (by simp [RunState.left, hphase])) (prepared_exit _ _)
    · exact hmove _ (by simp [RunState.left, hphase]) trivial
  | fail e =>
    simp only [RunState.go, hphase]
    exact hmove _ (by simp [RunState.left, hphase]) trivial

theorem exists_end_of_prepared : ∀ (n : Nat) {s : RunState}, s.left ≤ n → s.phase.prepared →
    ∃ rest, (∀ a ∈ rest, ∃ reply now, a = .go reply now) ∧ (run stepRun s rest).phase = .ended := by
  intro n
  induction n with
  | zero =>
    intro s hleft hprepared
    refine ⟨[], by simp, ?_⟩
    by_contra hended
    have hlt := (left_go_lt "" hprepared hended).1
    omega
  | succ n ih =>
    intro s hleft hprepared
    by_cases hended : s.phase = .ended
    · exact ⟨[], by simp, hended⟩
    · obtain ⟨hlt, hprepared'⟩ := left_go_lt "" hprepared hended
      obtain ⟨rest, hall, hend⟩ := ih (by omega : (s.go {} "").left ≤ n) hprepared'
      refine ⟨.go {} "" :: rest, fun a ha => ?_, hend⟩
      rcases List.mem_cons.1 ha with rfl | ha
      · exact ⟨_, _, rfl⟩
      · exact hall a ha

theorem prepared_resolve (now : String) (h : s.phase = .resolve) :
    (s.go {} now).phase.prepared ∨ (s.go {} now).phase = .prepare := by
  simp only [RunState.go, h]
  split
  · exact .inr rfl
  · split
    · exact .inl trivial
    · dsimp only
      split
      · exact .inr rfl
      · exact .inl trivial

theorem prepared_prepare (now : String) (h : s.phase = .prepare) : (s.go { error := some "" } now).phase.prepared := by
  simp only [RunState.go, h]
  exact prepared_exit s ""

theorem exists_end_cons (reply : Reply) (now : String)
    (h : ∃ rest, (∀ a ∈ rest, ∃ reply now, a = .go reply now) ∧ (run stepRun (s.go reply now) rest).phase = .ended) :
    ∃ rest, (∀ a ∈ rest, ∃ reply now, a = .go reply now) ∧ (run stepRun s rest).phase = .ended := by
  obtain ⟨rest, hall, hend⟩ := h
  refine ⟨.go reply now :: rest, fun a ha => ?_, hend⟩
  rcases List.mem_cons.1 ha with rfl | ha
  · exact ⟨reply, now, rfl⟩
  · exact hall a ha

theorem exists_end (s : RunState) : ∃ rest, (∀ a ∈ rest, ∃ reply now, a = .go reply now) ∧ (run stepRun s rest).phase = .ended := by
  have hprepared : ∀ {s : RunState}, s.phase.prepared → _ := fun {s} h => exists_end_of_prepared s.left (Nat.le_refl _) h
  have hprepare : ∀ {s : RunState}, s.phase = .prepare → _ := fun h => exists_end_cons _ "" (hprepared (prepared_prepare "" h))
  by_cases h : s.phase.prepared
  · exact hprepared h
  · cases hphase : s.phase with
    | prepare => exact hprepare hphase
    | resolve =>
      apply exists_end_cons {} ""
      rcases prepared_resolve "" hphase with h | h
      · exact hprepared h
      · exact hprepare h
    | _ => simp [hphase, RunPhase.prepared] at h

/-- **The life of a job.** A dump, a restore or a scheduled run whose steps are steady ends with one terminal status: cancelled when a
pipeline was cut short, done only when every collection was dealt with. -/
theorem lives_well (clock : Clock) (now : Int) (request : RunRequest) (inputs : List Input)
    (h : Guarded stepRun Steady (.init clock now request) inputs) : LivesWell (.init clock now request) inputs := by
  have hinv : ∀ pre, Guarded stepRun Steady (.init clock now request) pre → LifeInv (run stepRun (.init clock now request) pre) :=
    fun pre hpre => run_inv (I := LifeInv) (fun s a hok hs => (advances_step hs hok).1) hpre (lifeInv_init clock now request)
  refine ⟨?_, ?_, fun pre _ => ?_⟩
  · rintro pre ⟨post, rfl⟩ hended
    have hlife := hinv pre (guarded_left h)
    simp only [LifeInv, hended] at hlife
    exact hlife.1
  · rintro pre a ⟨post, rfl⟩
    rw [List.append_assoc] at h
    rw [run_snoc]
    exact (advances_step (hinv pre (guarded_left h)) (guarded_at h)).2
  · obtain ⟨rest, hall, hend⟩ := exists_end (run stepRun (.init clock now request) pre)
    exact ⟨rest, hall, by rw [run_append, hend]⟩

/-- A user dumps the collections `a` and `b`. -/
def dumpAB : RunRequest where
  runner := .dump ["a", "b"]
  jobId := "j"
  connectionId := "c"
  profileId := "p"
  database := "shop"
  path := some "/home/u/dump"
  configJson := ""
  scheduled := none

def utcClock : Clock := ⟨fun _ => "2024-05-01T01:00:00+00:00", fun _ => none, fun _ => .error "no schedule"⟩

def goOn : Input := .go {} "2024-05-01T01:00:00+00:00"

/-- The dump is cancelled while it writes the first document of `a`. -/
theorem cancelled_dump_lives_well : LivesWell (.init utcClock 0 dumpAB)
    [goOn, goOn, goOn, goOn, goOn, goOn, goOn, goOn, goOn, .go { row := .doc none } "", .raise, .cancelStatus "", goOn, goOn, goOn, goOn,
      goOn] := by
  have hexport : ¬ dumpAB.runner.isExport := id
  apply lives_well
  refine ⟨fun _ _ h => (nomatch h), trivial, trivial, trivial, trivial, trivial, ?_, fun h => absurd h hexport, trivial,
    fun h => absurd h hexport, fun _ => ?_, trivial, trivial, fun h => absurd h hexport, trivial, trivial, trivial, trivial⟩
  · exact (rfl : (none : Option String) = none)
  · exact .inr ⟨.self "b", List.mem_singleton.2 rfl, rfl⟩

/-- The cursor of a collection cannot be opened: `run_dump` returns with the job running and its flag registered. -/
theorem early_exit_leaves_running : ¬ ∀ clock now request inputs, LivesWell (.init clock now request) inputs := by
  intro h
  have hended := (h utcClock 0 dumpAB [goOn, goOn, goOn, goOn, goOn, goOn, .go { error := some "cursor" } ""]).ended _ (List.prefix_refl _) rfl
  exact absurd hended.unregistered (by decide)

end Jobs
