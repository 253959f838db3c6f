import NosqlBuddy.Jobs.Scheduler
import NosqlBuddy.Lib.Fallible
import NosqlBuddy.Lib.Runs

/-!
# Updates of a job

What the operations on a job are to do to it is a list of effects, each on the fields it is about (`statusAfter`,
`progressAfter`, `scheduleAfter`), in the order in which they are written to the store (`effectOf`). The store keeps a whole
record for a job, and two operations write a record, or a field of it, from what they have read before: `update_schedule` (jobs.rs:141) and
`tick` (scheduler.rs:58). The jobs are what the effects make of them exactly when neither is overtaken (`updates_kept_iff`).

| here | there |
| --- | --- |
| `Effect` | the assignments of `create_job`, `update_status`, `update_progress`, `update_next_run`, `delete`, `cleanup_retention` (job_store.rs:173-420) and of `update_schedule` |
| `Overtaking` | the state in which the second section of `update_schedule` or of `tick` starts from stale values |
-/

namespace Jobs
open Runs

inductive Effect where
  | registered (record : JobMeta)
  | status (id : String) (status : JobStatus) (message : String)
  | progress (id : String) (processed : Nat) (total : Option Nat) (errors : Nat)
  | scheduled (id : String) (schedule : Option ScheduleConfig)
  | advanced (id : String) (seen : Option ScheduleConfig) (nextRunAt : Option String)
  | removed (ids : List String)

/-- The status and the message of a job, if there is one. -/
def statusAfter (id : String) : Option (JobStatus × String) → Effect → Option (JobStatus × String)
  | cur, .registered record => if record.jobId = id then some (record.status, record.message) else cur
  | cur, .status id' status message => if id' = id then cur.map fun _ => (status, message) else cur
  | cur, .removed ids => if id ∈ ids then none else cur
  | cur, _ => cur

/-- The counters of a job. -/
def progressAfter (id : String) : Option (Nat × Option Nat × Nat) → Effect → Option (Nat × Option Nat × Nat)
  | cur, .registered record => if record.jobId = id then some (record.processed, record.total, record.errors) else cur
  | cur, .progress id' processed total errors =>
    if id' = id then cur.map fun old => (processed, total <|> old.2.1, errors) else cur
  | cur, .removed ids => if id ∈ ids then none else cur
  | cur, _ => cur

/-- The schedule of a job: that of the last `update_schedule`, and a tick that has seen it moves its next run. -/
def scheduleAfter (id : String) : Option (Option ScheduleConfig) → Effect → Option (Option ScheduleConfig)
  | cur, .registered record => if record.jobId = id then some (record.schedule <|> cur.join) else cur
  | cur, .scheduled id' schedule => if id' = id then cur.map fun _ => schedule else cur
  | cur, .advanced id' seen nextRunAt => if id' = id then cur.map fun schedule =>
      if schedule = seen then schedule.map fun sched => { sched with nextRunAt := nextRunAt } else schedule
    else cur
  | cur, .removed ids => if id ∈ ids then none else cur
  | cur, _ => cur

section
variable (clock : Clock)

/-- What a section of a tick does to a job. -/
def tickEffect (newId : String) (now : Int) (t : Tick) (s : JobSystem) : Option Effect :=
  match t.due, t.phase with
  | [], _ =>
    match t.retention with
    | [] => none
    | (id, retention) :: _ => some (.removed (outdatedRuns id retention s.jobs))
  | template :: _, .check =>
    if template.jobId ∈ s.inFlight then none else some (.registered (spawned clock now newId template))
  | template :: _, .created _ =>
    match template.schedule with
    | none => none
    | some sched =>
      if sched.enabled then some (.advanced template.jobId template.schedule (nextRunFromCron clock now sched.cron)) else none
  | _, _ => none

/-- What a step does to a job. -/
def effectOf (s : JobSystem) : Step → Option Effect
  | .create record => some (.registered record)
  | .status id status message _ => some (.status id status message)
  | .progress id processed total errors => some (.progress id processed total errors)
  | .delete id => some (.removed [id])
  | .resume i _ => s.pending[i]?.map fun
    | .schedule _ changed => .scheduled changed.jobId changed.schedule
    | .cancel id => .status id .cancelled "Cancelled by user"
  | .tick newId now => s.tick.bind fun t => tickEffect clock newId now t s
  | _ => none

end

/-- A store, and the effects so far. -/
structure Logged where
  system : JobSystem
  effects : List Effect

def stepLogged (clock : Clock) (l : Logged) (a : Step) : Logged :=
  ⟨stepJobs clock l.system a, l.effects ++ (effectOf clock l.system a).toList⟩

/-- The jobs are what the effects make of those that were loaded. -/
structure Kept (loaded : List JobMeta) (l : Logged) : Prop where
  status : ∀ id, (getJob l.system.jobs id).map (fun j => (j.status, j.message)) =
    l.effects.foldl (statusAfter id) ((getJob loaded id).map fun j => (j.status, j.message))
  progress : ∀ id, (getJob l.system.jobs id).map (fun j => (j.processed, j.total, j.errors)) =
    l.effects.foldl (progressAfter id) ((getJob loaded id).map fun j => (j.processed, j.total, j.errors))
  schedule : ∀ id, (getJob l.system.jobs id).map (fun j => j.schedule) =
    l.effects.foldl (scheduleAfter id) ((getJob loaded id).map fun j => j.schedule)

/-- The job still has the status, the message and the counters that `update_schedule` has read. -/
def StillRead (read : JobMeta) (jobs : List JobMeta) (id : String) : Prop :=
  ∃ job, getJob jobs id = some job ∧ job.status = read.status ∧ job.message = read.message ∧ job.processed = read.processed ∧
    job.total = read.total ∧ job.errors = read.errors

/-- The schedule is still the one that the tick has read, or has none, or the next run is already there. -/
def StillSeen (seen : Option ScheduleConfig) (nextRunAt : Option String) (jobs : List JobMeta) (id : String) : Prop :=
  ∀ job, getJob jobs id = some job → job.schedule = seen ∨ ∀ sched, job.schedule = some sched → sched.nextRunAt = nextRunAt

/-- An `update_schedule` or a tick comes to its second section with values that still hold. -/
def NotOvertaken (clock : Clock) (l : Logged) : Step → Prop
  | .resume i _ => ∀ read changed, l.system.pending[i]? = some (.schedule read changed) → StillRead read l.system.jobs changed.jobId
  | .tick _ now => ∀ t template rest newId sched, l.system.tick = some t → t.due = template :: rest → t.phase = .created newId →
      template.schedule = some sched → sched.enabled = true →
      StillSeen template.schedule (nextRunFromCron clock now sched.cron) l.system.jobs template.jobId
  | _ => True

/-! ## Effects -/

/-- A change of the jobs does what the effect says. -/
structure Tracks (jobs jobs' : List JobMeta) (e : Effect) : Prop where
  status : ∀ id, (getJob jobs' id).map (fun j => (j.status, j.message)) =
    statusAfter id ((getJob jobs id).map fun j => (j.status, j.message)) e
  progress : ∀ id, (getJob jobs' id).map (fun j => (j.processed, j.total, j.errors)) =
    progressAfter id ((getJob jobs id).map fun j => (j.processed, j.total, j.errors)) e
  schedule : ∀ id, (getJob jobs' id).map (fun j => j.schedule) = scheduleAfter id ((getJob jobs id).map fun j => j.schedule) e

attribute [local simp] statusAfter progressAfter scheduleAfter

theorem tracks_createJob (record : JobMeta) (jobs : List JobMeta) : Tracks jobs (createJob record jobs) (.registered record) := by
  have hfields : ∀ existing, (record.preserving existing).status = record.status ∧
      (record.preserving existing).message = record.message ∧ (record.preserving existing).processed = record.processed ∧
      (record.preserving existing).total = record.total ∧ (record.preserving existing).errors = record.errors := by
    intro existing
    cases existing <;> exact ⟨rfl, rfl, rfl, rfl, rfl⟩
  constructor
  · intro id
    rw [getJob_createJob, statusAfter]
    split
    · obtain ⟨hstatus, hmessage, _⟩ := hfields (getJob jobs id)
      rw [Option.map_some, hstatus, hmessage]
    · rfl
  · intro id
    rw [getJob_createJob, progressAfter]
    split
    · obtain ⟨_, _, hprocessed, htotal, herrors⟩ := hfields (getJob jobs id)
      rw [Option.map_some, hprocessed, htotal, herrors]
    · rfl
  · intro id
    rw [getJob_createJob, scheduleAfter]
    split
    · cases getJob jobs id with
      | none => cases hschedule : record.schedule <;> simp [JobMeta.preserving, hschedule]
      | some existing => rfl
    · rfl

theorem tracks_updateStatus (id : String) (status : JobStatus) (message now : String) (jobs : List JobMeta) :
    Tracks jobs (updateStatus id status message now jobs) (.status id status message) := by
  constructor
  all_goals
    intro id'
    rw [getJob_updateStatus]
    by_cases hid : id = id'
    · cases getJob jobs id' <;> simp [hid, statusAfter, progressAfter, scheduleAfter, JobMeta.withStatus]
    · simp [hid, statusAfter, progressAfter, scheduleAfter]

theorem tracks_updateProgress (id : String) (processed : Nat) (total : Option Nat) (errors : Nat) (jobs : List JobMeta) :
    Tracks jobs (updateProgress id processed total errors jobs) (.progress id processed total errors) := by
  constructor
  all_goals
    intro id'
    rw [getJob_updateProgress]
    by_cases hid : id = id'
    · cases getJob jobs id' <;> simp [hid, statusAfter, progressAfter, scheduleAfter, JobMeta.withProgress]
    · simp [hid, statusAfter, progressAfter, scheduleAfter]

theorem tracks_removeJobs (ids : List String) (jobs : List JobMeta) : Tracks jobs (removeJobs ids jobs) (.removed ids) := by
  constructor
  all_goals
    intro id
    rw [getJob_removeJobs]
  · rw [statusAfter]
    split <;> rfl
  · rw [progressAfter]
    split <;> rfl
  · rw [scheduleAfter]
    split <;> rfl

/-- `update_next_run` does what a tick is to do exactly when the schedule is still the one the tick has seen. -/
theorem tracks_updateNextRun_iff (id : String) (seen : Option ScheduleConfig) (nextRunAt : Option String) (jobs : List JobMeta) :
    Tracks jobs (updateNextRun id nextRunAt jobs) (.advanced id seen nextRunAt) ↔ StillSeen seen nextRunAt jobs id := by
  constructor
  · intro h job hjob
    have hschedule := h.schedule id
    rw [getJob_updateNextRun, if_pos rfl, hjob] at hschedule
    by_cases hseen : job.schedule = seen
    · exact .inl hseen
    · refine .inr fun sched hsched => ?_
      rw [hsched] at hseen
      simp only [scheduleAfter, if_true, Option.map_some, JobMeta.withNextRun, hsched, hseen, if_false, Option.some.injEq] at hschedule
      rw [← hschedule]
  · intro h
    constructor
    all_goals
      intro id'
      rw [getJob_updateNextRun]
      by_cases hid : id = id'
      swap
      · simp [hid, statusAfter, progressAfter, scheduleAfter]
      subst hid
      rw [if_pos rfl]
    · cases getJob jobs id <;> rfl
    · cases getJob jobs id <;> rfl
    · cases hjob : getJob jobs id with
      | none => simp [scheduleAfter]
      | some job =>
        simp only [scheduleAfter, if_true, Option.map_some, JobMeta.withNextRun, Option.some.injEq]
        split
        · rfl
        · next hseen =>
          have hnext := (h job hjob).resolve_left hseen
          cases hsched : job.schedule with
          | none => rfl
          | some sched => rw [Option.map_some, ← hnext sched hsched]

/-- A change of a job by `update_schedule`: the schedule and an empty profile. -/
def ChangesSchedule (read changed : JobMeta) : Prop :=
  changed.schedule.isSome = true ∧ changed.status = read.status ∧ changed.message = read.message ∧
    changed.processed = read.processed ∧ changed.total = read.total ∧ changed.errors = read.errors

theorem changed_changesSchedule {clock : Clock} {now : Int} {request : UpdateScheduleRequest} {read changed : JobMeta}
    (h : request.changed clock now read = .ok changed) : ChangesSchedule read changed := by
  unfold UpdateScheduleRequest.changed at h
  obtain ⟨next, _, rfl⟩ := Fallible.map_ok.1 h
  exact ⟨rfl, rfl, rfl, rfl, rfl, rfl⟩

/-- `update_schedule` writes back its schedule, and nothing else, exactly when the job is still as it was read. -/
theorem tracks_scheduled_iff {read changed : JobMeta} (h : ChangesSchedule read changed) (jobs : List JobMeta) :
    Tracks jobs (createJob changed jobs) (.scheduled changed.jobId changed.schedule) ↔ StillRead read jobs changed.jobId := by
  obtain ⟨hsome, hstatus, hmessage, hprocessed, htotal, herrors⟩ := h
  obtain ⟨sched, hsched⟩ := Option.isSome_iff_exists.1 hsome
  constructor
  · intro ht
    have hst := ht.status changed.jobId
    have hpr := ht.progress changed.jobId
    rw [getJob_createJob, if_pos rfl] at hst hpr
    cases hjob : getJob jobs changed.jobId with
    | none =>
      rw [hjob] at hst
      simp [statusAfter] at hst
    | some job =>
      rw [hjob] at hst hpr
      simp only [statusAfter, progressAfter, Option.map_some, JobMeta.preserving, Option.some.injEq, Prod.mk.injEq] at hst hpr
      refine ⟨job, hjob, ?_, ?_, ?_, ?_, ?_⟩
      · rw [← hst.1, hstatus]
      · rw [← hst.2, hmessage]
      · rw [← hpr.1, hprocessed]
      · rw [← hpr.2.1, htotal]
      · rw [← hpr.2.2, herrors]
  · rintro ⟨job, hjob, hst, hmsg, hpr, htot, herr⟩
    constructor
    all_goals
      intro id
      rw [getJob_createJob]
      by_cases hid : changed.jobId = id
      swap
      · simp [hid, statusAfter, progressAfter, scheduleAfter]
      subst hid
      rw [if_pos rfl, hjob]
    · simp [statusAfter, JobMeta.preserving, hstatus, hmessage, hst, hmsg]
    · simp [progressAfter, JobMeta.preserving, hprocessed, htotal, herrors, hpr, htot, herr]
    · simp [scheduleAfter, JobMeta.preserving, hsched]

/-! ## One step -/

variable {l : Logged} {loaded : List JobMeta}

theorem kept_effect_iff (h : Kept loaded l) (s : JobSystem) (e : Effect) :
    Kept loaded ⟨s, l.effects ++ [e]⟩ ↔ Tracks l.system.jobs s.jobs e := by
  constructor
  · intro hkept
    constructor
    · intro id
      rw [hkept.status id, h.status id, List.foldl_concat]
    · intro id
      rw [hkept.progress id, h.progress id, List.foldl_concat]
    · intro id
      rw [hkept.schedule id, h.schedule id, List.foldl_concat]
  · intro ht
    constructor
    · intro id
      rw [List.foldl_concat, ← h.status id]
      exact ht.status id
    · intro id
      rw [List.foldl_concat, ← h.progress id]
      exact ht.progress id
    · intro id
      rw [List.foldl_concat, ← h.schedule id]
      exact ht.schedule id

theorem Kept.of_jobs_eq (h : Kept loaded l) (hjobs : s.jobs = l.system.jobs) :
    Kept loaded ⟨s, l.effects ++ []⟩ := by
  rw [List.append_nil]
  exact ⟨hjobs ▸ h.status, hjobs ▸ h.progress, hjobs ▸ h.schedule⟩

/-- Each `update_schedule` that is pending has changed the schedule of the record it has read. -/
def WellPending (s : JobSystem) : Prop := ∀ read changed, Pending.schedule read changed ∈ s.pending → ChangesSchedule read changed

section
variable (clock : Clock)

theorem kept_tick_iff (h : Kept loaded l) (newId : String) (now : Int) (ht : l.system.tick = some t) :
    Kept loaded ⟨stepTick clock newId now t l.system, l.effects ++ (tickEffect clock newId now t l.system).toList⟩ ↔
      NotOvertaken clock l (.tick newId now) := by
  obtain ⟨due, phase, retention⟩ := t
  have hother : (∀ template rest id sched, due = template :: rest → phase = .created id → template.schedule = some sched →
      sched.enabled = false) → NotOvertaken clock l (.tick newId now) := by
    intro hno t' template rest id sched ht' hdue hphase hsched henabled
    obtain rfl := Option.some.inj (ht.symm.trans ht')
    rw [hno template rest id sched hdue hphase hsched] at henabled
    cases henabled
  cases due with
  | nil =>
    refine iff_of_true ?_ (hother fun _ _ _ _ hdue => absurd hdue (List.cons_ne_nil _ _).symm)
    cases retention with
    | nil => exact h.of_jobs_eq rfl
    | cons r rest => exact (kept_effect_iff h _ _).2 (tracks_removeJobs _ _)
  | cons template rest =>
    cases phase with
    | check =>
      refine iff_of_true ?_ (hother fun _ _ _ _ _ hphase => absurd hphase (by simp))
      simp only [stepTick, tickEffect]
      split
      · exact h.of_jobs_eq rfl
      · exact (kept_effect_iff h _ _).2 (tracks_createJob _ _)
    | created id =>
      simp only [stepTick, tickEffect]
      cases hsched : template.schedule with
      | none =>
        refine iff_of_true (h.of_jobs_eq rfl) (hother fun template' _ _ sched hdue _ hs => ?_)
        rw [← (List.cons.inj hdue).1, hsched] at hs
        cases hs
      | some sched =>
        by_cases henabled : sched.enabled = true
        · simp only [henabled, if_true]
          refine (kept_effect_iff h _ _).trans ((tracks_updateNextRun_iff _ _ _ _).trans ?_)
          constructor
          · intro hseen t' template' rest' id' sched' ht' hdue _ hs' _
            obtain rfl := Option.some.inj (ht.symm.trans ht')
            obtain rfl := (List.cons.inj hdue).1
            obtain rfl := Option.some.inj (hsched.symm.trans hs')
            rwa [hsched]
          · intro hnot
            exact hsched ▸ hnot _ template rest id sched ht rfl rfl hsched henabled
        · rw [Bool.not_eq_true] at henabled
          simp only [henabled, Bool.false_eq_true, if_false]
          refine iff_of_true (h.of_jobs_eq rfl) (hother fun template' _ _ sched' hdue _ hs => ?_)
          rw [← (List.cons.inj hdue).1, hsched] at hs
          rw [← Option.some.inj hs]
          exact henabled
    | advanced id => exact iff_of_true (h.of_jobs_eq rfl) (hother fun _ _ _ _ _ hphase => absurd hphase (by simp))
    | marked id =>
      refine iff_of_true (h.of_jobs_eq ?_) (hother fun _ _ _ _ _ hphase => absurd hphase (by simp))
      simp only [stepTick]
      split <;> rfl

/-- **One step** keeps the jobs what the effects make of them exactly when it is not overtaken. -/
theorem kept_step_iff (h : Kept loaded l) (hpending : WellPending l.system) (a : Step) :
    Kept loaded (stepLogged clock l a) ↔ NotOvertaken clock l a := by
  cases a with
  | create record => exact iff_of_true ((kept_effect_iff h _ _).2 (tracks_createJob _ _)) trivial
  | status id status message now => exact iff_of_true ((kept_effect_iff h _ _).2 (tracks_updateStatus _ _ _ _ _)) trivial
  | progress id processed total errors => exact iff_of_true ((kept_effect_iff h _ _).2 (tracks_updateProgress _ _ _ _ _)) trivial
  | delete id => exact iff_of_true ((kept_effect_iff h _ _).2 (tracks_removeJobs _ _)) trivial
  | register id => exact iff_of_true (h.of_jobs_eq rfl) trivial
  | unregister id => exact iff_of_true (h.of_jobs_eq rfl) trivial
  | updateSchedule request now =>
    refine iff_of_true (h.of_jobs_eq ?_) trivial
    simp only [stepJobs]
    split
    · rfl
    · split <;> rfl
  | cancelJob id =>
    refine iff_of_true (h.of_jobs_eq ?_) trivial
    simp only [stepJobs]
    split <;> rfl
  | finish i =>
    refine iff_of_true (h.of_jobs_eq ?_) trivial
    simp only [stepJobs]
    split <;> rfl
  | resume i now =>
    simp only [stepLogged, stepJobs, effectOf]
    cases hop : l.system.pending[i]? with
    | none => exact iff_of_true (h.of_jobs_eq rfl) fun read changed hop' => nomatch hop.symm.trans hop'
    | some op =>
      cases op with
      | cancel id =>
        refine iff_of_true ((kept_effect_iff h _ _).2 (tracks_updateStatus _ _ _ _ _)) fun read changed hop' => ?_
        exact nomatch Option.some.inj (hop.symm.trans hop')
      | schedule read changed =>
        refine (kept_effect_iff h _ _).trans ((tracks_scheduled_iff (hpending read changed (List.mem_of_getElem? hop)) _).trans ?_)
        constructor
        · intro hstill read' changed' hop'
          cases Option.some.inj (hop.symm.trans hop')
          exact hstill
        · exact fun hnot => hnot read changed hop
  | tick newId now =>
    cases ht : l.system.tick with
    | none =>
      refine iff_of_true ?_ fun t _ _ _ _ ht' => nomatch ht.symm.trans ht'
      have heffect : effectOf clock l.system (.tick newId now) = none := by simp only [effectOf, ht, Option.bind_none]
      rw [stepLogged, heffect]
      refine h.of_jobs_eq ?_
      simp only [stepJobs, ht]
      split <;> rfl
    | some t =>
      have heffect : effectOf clock l.system (.tick newId now) = tickEffect clock newId now t l.system := by
        simp only [effectOf, ht, Option.bind_some]
      have hstep : stepJobs clock l.system (.tick newId now) = stepTick clock newId now t l.system := by simp only [stepJobs, ht]
      rw [stepLogged, heffect, hstep]
      exact kept_tick_iff clock h newId now ht

theorem stepTick_pending (newId : String) (now : Int) (t : Tick) (s : JobSystem) :
    (stepTick clock newId now t s).pending = s.pending := by
  unfold stepTick
  split
  · split <;> rfl
  · split <;> rfl
  · split
    · rfl
    · split <;> rfl
  · rfl
  · split <;> rfl

theorem wellPending_step {s : JobSystem} (h : WellPending s) (a : Step) : WellPending (stepJobs clock s a) := by
  cases a with
  | updateSchedule request now =>
    simp only [stepJobs]
    split
    · exact h
    · split
      · next read _ changed hchanged =>
        intro read' changed' hmem
        rcases List.mem_append.1 hmem with hold | hnew
        · exact h read' changed' hold
        · cases List.mem_singleton.1 hnew
          exact changed_changesSchedule hchanged
      · exact h
  | cancelJob id =>
    simp only [stepJobs]
    split
    · intro read changed hmem
      rcases List.mem_append.1 hmem with hold | hnew
      · exact h read changed hold
      · cases List.mem_singleton.1 hnew
    · exact h
  | resume i now =>
    simp only [stepJobs]
    split
    · exact fun read changed hmem => h read changed (List.mem_of_mem_eraseIdx hmem)
    · exact h
  | tick newId now =>
    simp only [stepJobs]
    split
    · split <;> exact h
    · next t _ =>
      intro read changed hmem
      rw [stepTick_pending] at hmem
      exact h read changed hmem
  | finish i =>
    simp only [stepJobs]
    split <;> exact h
  | create record => exact h
  | status id status message now => exact h
  | progress id processed total errors => exact h
  | delete id => exact h
  | register id => exact h
  | unregister id => exact h

/-! ## Runs -/

/-- **No update of a job is lost**, in every state that a run reaches, exactly when no step of the run is overtaken. -/
theorem updates_kept_iff (loaded : List JobMeta) (steps : List Step) :
    Guarded (stepLogged clock) (NotOvertaken clock) ⟨.load loaded, []⟩ steps ↔
      ∀ pre, pre <+: steps → Kept loaded (run (stepLogged clock) ⟨.load loaded, []⟩ pre) := by
  refine guarded_iff_good (I := fun l => Kept loaded l ∧ WellPending l.system) (fun l h => h.1) (fun l a h hok => ?_)
    (fun l a h => kept_step_iff clock h.1 h.2 a) ?_
  · exact ⟨(kept_step_iff clock h.1 h.2 a).2 hok, wellPending_step clock h.2 a⟩
  · exact ⟨⟨fun _ => rfl, fun _ => rfl, fun _ => rfl⟩, fun _ _ hmem => nomatch hmem⟩

/-- `update_schedule` reads the job while it runs, and writes it back after it is done: the job is running again. -/
theorem schedule_overwrites_status : ¬ ∀ clock loaded steps, Kept loaded (run (stepLogged clock) ⟨.load loaded, []⟩ steps) := by
  intro h
  have hstatus := (h ⟨fun _ => "2024-05-01T02:00:00+00:00", fun _ => none, fun _ => .error "no schedule"⟩ []
    [.create (.new "j" .dump "c" "shop" "2024-05-01T02:00:00+00:00"), .status "j" .running "Dump started" 0,
      .updateSchedule ⟨"j", "0 0 2 * * *", false, none, none⟩ 1, .status "j" .done "Dumped 3 documents from 1 collections" 2,
      .resume 0 3]).status "j"
  exact absurd hstatus (by decide)

end

end Jobs
