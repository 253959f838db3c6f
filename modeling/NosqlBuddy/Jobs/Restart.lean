import NosqlBuddy.Jobs.Scheduler
import NosqlBuddy.Lib.Runs

/-!
# Schedules across restarts

| here | there |
| --- | --- |
| `Machine.disk`, `save`, `crash` | the file of the jobs, `save` (job_store.rs:162) and `with_path` (job_store.rs:148) in the next process |

Runs in flight are known to the process only, and the status of a template is persisted. No template has two runs in flight;
a tick starts the templates that wait, except those with status `Running` or `Queued` (`schedules_run`). A process that dies
while a template has such a status leaves it to the next one, where nothing clears it (`running_template_never_due`).
-/

namespace Jobs
open Runs

structure Machine where
  system : JobSystem
  disk : List JobMeta
deriving DecidableEq, Repr

inductive Event where
  | step (a : Step)
  | save
  /-- The process dies between two saves, and another starts. -/
  | crash
  /-- The process dies when it has written the first lines of the file. -/
  | crashInSave (lines : Nat)
deriving DecidableEq, Repr

def Machine.init : Machine := ⟨.load [], []⟩

/-- The process goes on. -/
def Event.live : Event → Prop
  | .crash => False
  | .crashInSave _ => False
  | _ => True

section
variable (clock : Clock)

def stepMachine (m : Machine) : Event → Machine
  | .step a => { m with system := stepJobs clock m.system a }
  | .save => { m with disk := m.system.jobs }
  | .crash => { m with system := .load m.disk }
  | .crashInSave lines => ⟨.load (m.system.jobs.take lines), m.system.jobs.take lines⟩

/-- The run that a section of a tick starts: the template, and the id of the run. -/
def startedBy (m : Machine) : Event → Option (String × String)
  | .step (.tick _ _) =>
    match m.system.tick with
    | some ⟨template :: _, .marked newId, _⟩ =>
      if m.system.running.length < maxConcurrentJobs then some (template.jobId, newId) else none
    | _ => none
  | _ => none

/-- The events from a section of a tick to the end of the tick. -/
def TickRun : Machine → List Event → Prop
  | m, [] => m.system.tick = none
  | m, e :: es => m.system.tick ≠ none ∧ e.live ∧ TickRun (stepMachine clock m e) es

/-- The template whose run the tick is about to start. -/
def Tick.aboutTo (t : Tick) : Option String :=
  match t.due, t.phase with
  | template :: _, .created _ => some template.jobId
  | template :: _, .advanced _ => some template.jobId
  | template :: _, .marked _ => some template.jobId
  | _, _ => none

/-- The templates of the runs in flight, the one that is about to start included. -/
def JobSystem.flying (s : JobSystem) : List String := (s.tick.bind Tick.aboutTo).toList ++ s.running.map Prod.fst

/-- A template whose schedule is enabled and due, and that no run of the process is in flight for. -/
structure Waiting (s : JobSystem) (now : Int) (template : JobMeta) : Prop where
  mem : template ∈ s.jobs
  parentJobId : template.parentJobId = none
  due : template.schedule.any (ScheduleConfig.due clock now) = true
  idle : template.jobId ∉ s.flying

/-- What a history of the scheduler meets: no template has two runs in flight; a tick that is at work can come to its end, by its own
sections and the ends of runs; and a whole tick starts those waiting templates that are neither running nor queued. -/
structure SchedulesRun (events : List Event) : Prop where
  atMostOne : ∀ pre, pre <+: events → (run (stepMachine clock) .init pre).system.flying.Nodup
  ends : ∀ pre, pre <+: events → ∃ rest, (∀ e ∈ rest, (∃ newId now, e = .step (.tick newId now)) ∨ ∃ i, e = .step (.finish i)) ∧
    TickRun clock (run (stepMachine clock) .init pre) rest
  starts : ∀ pre newId now mid, pre ++ .step (.tick newId now) :: mid <+: events →
    (run (stepMachine clock) .init pre).system.tick = none →
    TickRun clock (run (stepMachine clock) .init (pre ++ [.step (.tick newId now)])) mid →
    ∀ template, Waiting clock (run (stepMachine clock) .init pre).system now template →
      ((∃ runId, (template.jobId, runId) ∈ outputs (stepMachine clock) startedBy
        (run (stepMachine clock) .init (pre ++ [.step (.tick newId now)])) mid) ↔
          template.status ≠ .running ∧ template.status ≠ .queued)

end

/-! ## The sections of a tick -/

/-- What a section of a tick does to the scheduler, and the run that it starts. -/
inductive TickMove (newId : String) (s s' : JobSystem) : Tick → Option (String × String) → Prop
  | leave (phase) (htick : s'.tick = none) (hflight : s'.inFlight = s.inFlight) (hrunning : s'.running = s.running) :
      TickMove newId s s' ⟨[], phase, []⟩ none
  | cleanup (phase r rest) (htick : s'.tick = some ⟨[], phase, rest⟩) (hflight : s'.inFlight = s.inFlight)
      (hrunning : s'.running = s.running) : TickMove newId s s' ⟨[], phase, r :: rest⟩ none
  | skip (template rest retention) (hmem : template.jobId ∈ s.inFlight) (htick : s'.tick = some ⟨rest, .check, retention⟩)
      (hflight : s'.inFlight = s.inFlight) (hrunning : s'.running = s.running) :
      TickMove newId s s' ⟨template :: rest, .check, retention⟩ none
  | create (template rest retention) (hmem : template.jobId ∉ s.inFlight)
      (htick : s'.tick = some ⟨template :: rest, .created newId, retention⟩) (hflight : s'.inFlight = s.inFlight)
      (hrunning : s'.running = s.running) : TickMove newId s s' ⟨template :: rest, .check, retention⟩ none
  | advance (template rest runId retention retention') (hret : retention'.length ≤ retention.length + 1)
      (htick : s'.tick = some ⟨template :: rest, .advanced runId, retention'⟩) (hflight : s'.inFlight = s.inFlight)
      (hrunning : s'.running = s.running) : TickMove newId s s' ⟨template :: rest, .created runId, retention⟩ none
  | mark (template rest runId retention) (htick : s'.tick = some ⟨template :: rest, .marked runId, retention⟩)
      (hflight : s'.inFlight = template.jobId :: s.inFlight) (hrunning : s'.running = s.running) :
      TickMove newId s s' ⟨template :: rest, .advanced runId, retention⟩ none
  | start (template rest runId retention) (hpermit : s.running.length < maxConcurrentJobs)
      (htick : s'.tick = some ⟨rest, .check, retention⟩) (hflight : s'.inFlight = s.inFlight)
      (hrunning : s'.running = s.running ++ [(template.jobId, runId)]) :
      TickMove newId s s' ⟨template :: rest, .marked runId, retention⟩ (some (template.jobId, runId))
  | wait (template rest runId retention) (hpermit : ¬ s.running.length < maxConcurrentJobs) (heq : s' = s) :
      TickMove newId s s' ⟨template :: rest, .marked runId, retention⟩ none

theorem stepTick_move (clock : Clock) (ht : m.system.tick = some t) (newId : String) (now : Int) :
    TickMove newId m.system (stepMachine clock m (.step (.tick newId now))).system t (startedBy m (.step (.tick newId now))) := by
  obtain ⟨due, phase, retention⟩ := t
  have hstep : (stepMachine clock m (.step (.tick newId now))).system = stepTick clock newId now ⟨due, phase, retention⟩ m.system := by
    simp only [stepMachine, stepJobs, ht]
  rw [hstep]
  simp only [startedBy, ht]
  cases due with
  | nil =>
    cases retention with
    | nil => exact .leave phase rfl rfl rfl
    | cons r rest => exact .cleanup phase r rest rfl rfl rfl
  | cons template rest =>
    cases phase with
    | check =>
      by_cases hmem : template.jobId ∈ m.system.inFlight
      · simp only [stepTick, if_pos hmem]
        exact .skip template rest retention hmem rfl rfl rfl
      · simp only [stepTick, if_neg hmem]
        exact .create template rest retention hmem rfl rfl rfl
    | created runId =>
      simp only [stepTick]
      cases template.schedule with
      | none => exact .advance template rest runId retention retention (Nat.le_succ _) rfl rfl rfl
      | some sched =>
        by_cases henabled : sched.enabled = true
        · simp only [if_pos henabled]
          refine .advance template rest runId retention _ ?_ rfl rfl rfl
          split
          · simp
          · exact Nat.le_succ _
        · simp only [if_neg henabled]
          exact .advance template rest runId retention retention (Nat.le_succ _) rfl rfl rfl
    | advanced runId => exact .mark template rest runId retention rfl rfl rfl
    | marked runId =>
      by_cases hpermit : m.system.running.length < maxConcurrentJobs
      · simp only [stepTick, if_pos hpermit]
        exact .start template rest runId retention hpermit rfl rfl rfl
      · simp only [stepTick, if_neg hpermit]
        exact .wait template rest runId retention hpermit rfl

/-- A tick and an end of a run are all that the scheduler takes part in. -/
def Step.scheduling : Step → Prop
  | .tick _ _ => True
  | .finish _ => True
  | _ => False

theorem stepJobs_frame (clock : Clock) (s : JobSystem) (h : ¬ a.scheduling) : (stepJobs clock s a).tick = s.tick ∧
    (stepJobs clock s a).inFlight = s.inFlight ∧ (stepJobs clock s a).running = s.running := by
  cases a with
  | tick newId now => exact absurd trivial h
  | finish i => exact absurd trivial h
  | updateSchedule request now =>
    simp only [stepJobs]
    split
    · exact ⟨rfl, rfl, rfl⟩
    · split <;> exact ⟨rfl, rfl, rfl⟩
  | cancelJob id =>
    simp only [stepJobs]
    split <;> exact ⟨rfl, rfl, rfl⟩
  | resume i now =>
    simp only [stepJobs]
    split <;> exact ⟨rfl, rfl, rfl⟩
  | create record => exact ⟨rfl, rfl, rfl⟩
  | status id status message now => exact ⟨rfl, rfl, rfl⟩
  | progress id processed total errors => exact ⟨rfl, rfl, rfl⟩
  | delete id => exact ⟨rfl, rfl, rfl⟩
  | register id => exact ⟨rfl, rfl, rfl⟩
  | unregister id => exact ⟨rfl, rfl, rfl⟩

/-! ## The runs in flight -/

/-- The set of the templates in flight holds those of the runs that have a permit, and the one that the tick has marked. -/
structure InFlight (s : JobSystem) : Prop where
  nodup : s.flying.Nodup
  permits : s.running.length ≤ maxConcurrentJobs
  running : ∀ id ∈ s.running.map Prod.fst, id ∈ s.inFlight
  flying : ∀ id ∈ s.inFlight, id ∈ s.flying
  marked : ∀ t template rest runId, s.tick = some t → t.due = template :: rest → t.phase = .marked runId → template.jobId ∈ s.inFlight

theorem inFlight_load (jobs : List JobMeta) : InFlight (.load jobs) where
  nodup := List.nodup_nil
  permits := Nat.zero_le _
  running _ hid := nomatch hid
  flying _ hid := nomatch hid
  marked _ _ _ _ ht := nomatch ht

theorem InFlight.of_flying_eq (h : InFlight s) (hflying : s'.flying = s.flying)
    (hflight : s'.inFlight = s.inFlight) (hrunning : s'.running = s.running)
    (hmarked : ∀ t template rest runId, s'.tick = some t → t.due = template :: rest → t.phase = .marked runId →
      template.jobId ∈ s.inFlight) : InFlight s' where
  nodup := hflying ▸ h.nodup
  permits := hrunning ▸ h.permits
  running := by
    rw [hrunning, hflight]
    exact h.running
  flying := by
    rw [hflight, hflying]
    exact h.flying
  marked := hflight ▸ hmarked

theorem InFlight.of_eq (h : InFlight s) (htick : s'.tick = s.tick) (hflight : s'.inFlight = s.inFlight)
    (hrunning : s'.running = s.running) : InFlight s' :=
  h.of_flying_eq (by rw [JobSystem.flying, JobSystem.flying, htick, hrunning]) hflight hrunning (htick ▸ h.marked)

theorem flying_of_idle {s : JobSystem} (h : s.tick = none) : s.flying = s.running.map Prod.fst := by
  rw [JobSystem.flying, h]
  rfl

theorem flying_of_nil {s : JobSystem} {phase : Phase} {retention : List (String × Nat)} (h : s.tick = some ⟨[], phase, retention⟩) :
    s.flying = s.running.map Prod.fst := by
  rw [JobSystem.flying, h]
  rfl

theorem flying_of_check {s : JobSystem} {due : List JobMeta} {retention : List (String × Nat)}
    (h : s.tick = some ⟨due, .check, retention⟩) : s.flying = s.running.map Prod.fst := by
  rw [JobSystem.flying, h]
  cases due <;> rfl

theorem flying_of_cons {s : JobSystem} {template : JobMeta} {rest : List JobMeta} {phase : Phase} {retention : List (String × Nat)}
    (h : s.tick = some ⟨template :: rest, phase, retention⟩) (hphase : phase ≠ .check) :
    s.flying = template.jobId :: s.running.map Prod.fst := by
  rw [JobSystem.flying, h]
  cases phase with
  | check => exact absurd rfl hphase
  | created _ => rfl
  | advanced _ => rfl
  | marked _ => rfl

theorem not_marked {s : JobSystem} {t : Tick} (h : s.tick = some t) (hphase : ∀ runId, t.phase ≠ .marked runId) (P : JobMeta → Prop) :
    ∀ t' template rest runId, s.tick = some t' → t'.due = template :: rest → t'.phase = .marked runId → P template := by
  intro t' template rest runId ht' _ hphase'
  obtain rfl := Option.some.inj (h.symm.trans ht')
  exact absurd hphase' (hphase runId)

theorem InFlight.move {newId : String} {t : Tick} {s s' : JobSystem} {out : Option (String × String)} (h : InFlight s)
    (ht : s.tick = some t) (hmove : TickMove newId s s' t out) : InFlight s' := by
  cases hmove with
  | leave phase htick hflight hrunning =>
    exact h.of_flying_eq (by rw [flying_of_idle htick, flying_of_nil ht, hrunning]) hflight hrunning fun _ _ _ _ ht' =>
      nomatch htick.symm.trans ht'
  | cleanup phase r rest htick hflight hrunning =>
    refine h.of_flying_eq (by rw [flying_of_nil htick, flying_of_nil ht, hrunning]) hflight hrunning fun t' _ _ _ ht' hdue => ?_
    obtain rfl := Option.some.inj (htick.symm.trans ht')
    exact nomatch hdue
  | skip template rest retention hmem htick hflight hrunning =>
    exact h.of_flying_eq (by rw [flying_of_check htick, flying_of_check ht, hrunning]) hflight hrunning
      (not_marked htick (fun _ hp => by cases hp) _)
  | create template rest retention hmem htick hflight hrunning =>
    have hold := flying_of_check ht
    have hnew := flying_of_cons htick (fun hp => by cases hp)
    rw [hrunning] at hnew
    constructor
    · rw [hnew]
      exact List.nodup_cons.2 ⟨fun hr => hmem (h.running _ hr), hold ▸ h.nodup⟩
    · exact hrunning ▸ h.permits
    · rw [hrunning, hflight]
      exact h.running
    · rw [hflight, hnew, ← hold]
      exact fun id hid => List.mem_cons_of_mem _ (h.flying id hid)
    · exact not_marked htick (fun _ hp => by cases hp) _
  | advance template rest runId retention retention' _ htick hflight hrunning =>
    refine h.of_flying_eq ?_ hflight hrunning (not_marked htick (fun _ hp => by cases hp) _)
    rw [flying_of_cons htick (fun hp => by cases hp), flying_of_cons ht (fun hp => by cases hp), hrunning]
  | mark template rest runId retention htick hflight hrunning =>
    have hold := flying_of_cons ht (fun hp => by cases hp)
    have hnew : s'.flying = s.flying := by rw [flying_of_cons htick (fun hp => by cases hp), hold, hrunning]
    constructor
    · exact hnew ▸ h.nodup
    · exact hrunning ▸ h.permits
    · rw [hrunning, hflight]
      exact fun id hid => List.mem_cons_of_mem _ (h.running id hid)
    · rw [hflight, hnew]
      intro id hid
      rcases List.mem_cons.1 hid with rfl | hid
      · rw [hold]
        exact List.mem_cons_self
      · exact h.flying id hid
    · intro t' template' _ _ ht' hdue _
      obtain rfl := Option.some.inj (htick.symm.trans ht')
      rw [hflight, ← (List.cons.inj hdue).1]
      exact List.mem_cons_self
  | start template rest runId retention hpermit htick hflight hrunning =>
    have hperm : s'.flying.Perm s.flying := by
      rw [flying_of_check htick, flying_of_cons ht (fun hp => by cases hp), hrunning, List.map_append]
      exact List.perm_append_comm
    constructor
    · exact hperm.nodup_iff.2 h.nodup
    · rw [hrunning, List.length_append, List.length_singleton]
      exact hpermit
    · rw [hrunning, hflight, List.map_append]
      intro id hid
      rcases List.mem_append.1 hid with hid | hid
      · exact h.running id hid
      · rw [List.mem_singleton.1 hid]
        exact h.marked _ template rest runId ht rfl rfl
    · rw [hflight]
      exact fun id hid => hperm.mem_iff.2 (h.flying id hid)
    · exact not_marked htick (fun _ hp => by cases hp) _
  | wait _ _ _ _ _ heq => exact heq ▸ h

theorem stepJobs_finish (h : s.running[i]? = some (template, runId)) :
    stepJobs clock s (.finish i) =
      { s with running := s.running.eraseIdx i, inFlight := s.inFlight.filter (· ≠ template) } := by
  simp only [stepJobs, h]

theorem InFlight.finish {clock : Clock} {s : JobSystem} (h : InFlight s) (i : Nat) : InFlight (stepJobs clock s (.finish i)) := by
  cases hi : s.running[i]? with
  | none =>
    have hstep : stepJobs clock s (.finish i) = s := by simp only [stepJobs, hi]
    rw [hstep]
    exact h
  | some r =>
    obtain ⟨template, runId⟩ := r
    rw [stepJobs_finish hi]
    obtain ⟨hlt, hget⟩ := List.getElem?_eq_some_iff.1 hi
    have hsplit : s.running = s.running.take i ++ (template, runId) :: s.running.drop (i + 1) := by
      rw [← hget, List.getElem_cons_drop, List.take_append_drop]
    have herase : s.running.eraseIdx i = s.running.take i ++ s.running.drop (i + 1) := List.eraseIdx_eq_take_drop_succ _ _
    generalize s.running.take i = front at hsplit herase
    generalize s.running.drop (i + 1) = back at hsplit herase
    have hperm : s.flying.Perm (template :: ((s.tick.bind Tick.aboutTo).toList ++ (front ++ back).map Prod.fst)) := by
      rw [JobSystem.flying, hsplit]
      simp only [List.map_append, List.map_cons, ← List.append_assoc]
      exact List.perm_middle
    have hnodup := hperm.nodup_iff.1 h.nodup
    obtain ⟨hapart, hnodup'⟩ := List.nodup_cons.1 hnodup
    rw [herase]
    constructor
    · exact hnodup'
    · have hlen := congrArg List.length hsplit
      simp only [List.length_append, List.length_cons] at hlen ⊢
      have := h.permits
      omega
    · intro id hid
      simp only [List.mem_filter, decide_eq_true_eq]
      refine ⟨h.running id ?_, ?_⟩
      · rw [hsplit, List.map_append, List.map_cons]
        rw [List.map_append] at hid
        rcases List.mem_append.1 hid with hid | hid
        · exact List.mem_append_left _ hid
        · exact List.mem_append_right _ (List.mem_cons_of_mem _ hid)
      · rintro rfl
        exact hapart (List.mem_append_right _ hid)
    · intro id hid
      obtain ⟨hid, hne⟩ := List.mem_filter.1 hid
      exact (List.mem_cons.1 (hperm.mem_iff.1 (h.flying id hid))).resolve_left (of_decide_eq_true hne)
    · intro t template' rest runId' ht hdue hphase
      refine List.mem_filter.2 ⟨h.marked t template' rest runId' ht hdue hphase, decide_eq_true ?_⟩
      rintro rfl
      refine hapart (List.mem_append_left _ ?_)
      rw [show s.tick = some t from ht, Option.bind_some, Tick.aboutTo, hdue, hphase]
      exact List.mem_singleton.2 rfl

theorem InFlight.step {clock : Clock} {m : Machine} (h : InFlight m.system) (e : Event) : InFlight (stepMachine clock m e).system := by
  cases e with
  | save => exact h
  | crash => exact inFlight_load _
  | crashInSave lines => exact inFlight_load _
  | step a =>
    by_cases hsched : a.scheduling
    · cases a with
      | tick newId now =>
        cases ht : m.system.tick with
        | some t => exact h.move ht (stepTick_move clock ht newId now)
        | none =>
          simp only [stepMachine, stepJobs, ht]
          split
          · exact h
          · refine h.of_flying_eq ?_ rfl rfl fun t' _ _ _ ht' _ hphase' => ?_
            · rw [flying_of_idle ht]
              exact flying_of_check rfl
            · obtain rfl := Option.some.inj ht'
              cases hphase'
      | finish i => exact @InFlight.finish clock _ h i
      | _ => exact absurd hsched id
    · obtain ⟨htick, hflight, hrunning⟩ := stepJobs_frame clock m.system hsched
      exact h.of_eq htick hflight hrunning

/-! ## One record a job -/

/-- The ids of the jobs, and of those in the file, are distinct. -/
def OneRecord (m : Machine) : Prop := (m.system.jobs.map JobMeta.jobId).Nodup ∧ (m.disk.map JobMeta.jobId).Nodup

theorem nodup_removeJobs (h : (jobs.map JobMeta.jobId).Nodup) (ids : List String) :
    ((removeJobs ids jobs).map JobMeta.jobId).Nodup :=
  h.sublist (List.filter_sublist.map _)

theorem nodup_createJob (h : (jobs.map JobMeta.jobId).Nodup) (record : JobMeta) :
    ((createJob record jobs).map JobMeta.jobId).Nodup := by
  have hnodup := nodup_removeJobs h [record.jobId]
  rw [createJob, List.map_append, List.map_singleton, JobMeta.preserving_jobId]
  refine List.Nodup.append hnodup (List.nodup_singleton _) ?_
  rw [List.disjoint_singleton]
  intro hmem
  obtain ⟨j, hj, hid⟩ := List.mem_map.1 hmem
  have hne := (List.mem_filter.1 hj).2
  simp [hid] at hne

theorem map_jobId_modifyJob (hf : ∀ j, (f j).jobId = j.jobId) (id : String) : ∀ jobs : List JobMeta,
    (modifyJob id f jobs).map JobMeta.jobId = jobs.map JobMeta.jobId
  | [] => rfl
  | j :: jobs => by
    rw [modifyJob]
    split
    · rw [List.map_cons, List.map_cons, hf]
    · rw [List.map_cons, List.map_cons, map_jobId_modifyJob hf id jobs]

theorem nodup_stepTick (clock : Clock) (newId : String) (now : Int) (t : Tick) (h : (s.jobs.map JobMeta.jobId).Nodup) :
    ((stepTick clock newId now t s).jobs.map JobMeta.jobId).Nodup := by
  unfold stepTick
  split
  · split
    · exact h
    · exact nodup_removeJobs h _
  · split
    · exact h
    · exact nodup_createJob h _
  · split
    · exact h
    · split
      · exact (map_jobId_modifyJob (f := JobMeta.withNextRun _) (fun _ => rfl) _ s.jobs).symm ▸ h
      · exact h
  · exact h
  · split <;> exact h

theorem OneRecord.step {clock : Clock} {m : Machine} (h : OneRecord m) (e : Event) : OneRecord (stepMachine clock m e) := by
  obtain ⟨hjobs, hdisk⟩ := h
  cases e with
  | save => exact ⟨hjobs, hjobs⟩
  | crash => exact ⟨hdisk, hdisk⟩
  | crashInSave lines =>
    have htake := hjobs.sublist ((List.take_sublist lines m.system.jobs).map JobMeta.jobId)
    exact ⟨htake, htake⟩
  | step a =>
    refine ⟨?_, hdisk⟩
    cases a with
    | create record => exact nodup_createJob hjobs record
    | status id status message now =>
      exact (map_jobId_modifyJob (f := JobMeta.withStatus status message _) (fun _ => rfl) id m.system.jobs).symm ▸ hjobs
    | progress id processed total errors =>
      exact (map_jobId_modifyJob (f := JobMeta.withProgress processed total errors) (fun _ => rfl) id m.system.jobs).symm ▸ hjobs
    | delete id => exact nodup_removeJobs hjobs [id]
    | register id => exact hjobs
    | unregister id => exact hjobs
    | updateSchedule request now =>
      simp only [stepMachine, stepJobs]
      split
      · exact hjobs
      · split <;> exact hjobs
    | cancelJob id =>
      simp only [stepMachine, stepJobs]
      split <;> exact hjobs
    | resume i now =>
      simp only [stepMachine, stepJobs]
      split
      · next op _ =>
        cases op with
        | schedule read changed => exact nodup_createJob hjobs changed
        | cancel id =>
          exact (map_jobId_modifyJob (f := JobMeta.withStatus _ _ _) (fun _ => rfl) id m.system.jobs).symm ▸ hjobs
      · exact hjobs
    | tick newId now =>
      simp only [stepMachine, stepJobs]
      split
      · split <;> exact hjobs
      · exact nodup_stepTick clock newId now _ hjobs
    | finish i =>
      simp only [stepMachine, stepJobs]
      split <;> exact hjobs

/-! ## A whole tick -/

theorem tick_or_frame (clock : Clock) (ht : m.system.tick = some t) (he : e.live) :
    (∃ newId, TickMove newId m.system (stepMachine clock m e).system t (startedBy m e)) ∨
    (startedBy m e = none ∧ (stepMachine clock m e).system.tick = some t ∧
      ∀ id ∈ (stepMachine clock m e).system.inFlight, id ∈ m.system.inFlight) := by
  cases e with
  | save => exact .inr ⟨rfl, ht, fun _ h => h⟩
  | crash => exact he.elim
  | crashInSave lines => exact he.elim
  | step a =>
    by_cases hsched : a.scheduling
    · cases a with
      | tick newId now => exact .inl ⟨newId, stepTick_move clock ht newId now⟩
      | finish i =>
        refine .inr ⟨rfl, ?_, ?_⟩
        · simp only [stepMachine, stepJobs]
          split <;> exact ht
        · simp only [stepMachine, stepJobs]
          split
          · exact fun _ hid => (List.mem_filter.1 hid).1
          · exact fun _ hid => hid
      | _ => exact absurd hsched id
    · obtain ⟨htick, hflight, _⟩ := stepJobs_frame clock m.system hsched
      refine .inr ⟨?_, htick.trans ht, fun id hid => hflight ▸ hid⟩
      cases a with
      | tick newId now => exact absurd trivial hsched
      | _ => rfl

/-- The template is about to be started, or comes later and is not in flight. -/
def Ahead (s : JobSystem) (t : Tick) (id : String) : Prop :=
  id ∈ t.due.map JobMeta.jobId ∧ (id ∉ s.inFlight ∨ t.phase ≠ .check ∧ (t.due.map JobMeta.jobId).head? = some id)

theorem started_of_ahead (clock : Clock) {id : String} : ∀ {mid : List Event} {m : Machine} {t : Tick}, m.system.tick = some t →
    Ahead m.system t id → TickRun clock m mid → ∃ runId, (id, runId) ∈ outputs (stepMachine clock) startedBy m mid
  | [], m, t, ht, _, hrun => nomatch ht.symm.trans hrun
  | e :: es, m, t, ht, hahead, hrun => by
    obtain ⟨_, hlive, hrest⟩ := hrun
    have hlater : ∀ t', (stepMachine clock m e).system.tick = some t' → Ahead (stepMachine clock m e).system t' id →
        ∃ runId, (id, runId) ∈ outputs (stepMachine clock) startedBy m (e :: es) := by
      intro t' ht' hahead'
      obtain ⟨runId, hmem⟩ := started_of_ahead clock ht' hahead' hrest
      exact ⟨runId, List.mem_append_right _ hmem⟩
    obtain ⟨hmem, hwhere⟩ := hahead
    rcases tick_or_frame clock ht hlive with ⟨newId, hmove⟩ | ⟨_, htick, hflight⟩
    · generalize hout : startedBy m e = out at hmove
      cases hmove with
      | leave phase => cases hmem
      | cleanup phase r rest => cases hmem
      | skip template rest retention hskip htick hflight =>
        refine hlater _ htick ?_
        have hnot : id ∉ m.system.inFlight := hwhere.resolve_right fun h => h.1 rfl
        rcases List.mem_cons.1 hmem with rfl | hmem
        · exact absurd hskip hnot
        · exact ⟨hmem, .inl (hflight ▸ hnot)⟩
      | create template rest retention _ htick hflight =>
        exact hlater _ htick ⟨hmem, .inl (hflight ▸ hwhere.resolve_right fun h => h.1 rfl)⟩
      | advance template rest runId retention retention' _ htick hflight =>
        refine hlater _ htick ⟨hmem, ?_⟩
        rcases hwhere with hnot | ⟨_, hhead⟩
        · exact .inl (hflight ▸ hnot)
        · exact .inr ⟨fun hp => (by cases hp), hhead⟩
      | mark template rest runId retention htick hflight =>
        refine hlater _ htick ⟨hmem, ?_⟩
        by_cases hid : template.jobId = id
        · exact .inr ⟨fun hp => (by cases hp), congrArg some hid⟩
        · rcases hwhere with hnot | ⟨_, hhead⟩
          · rw [hflight]
            exact .inl fun hin => (List.mem_cons.1 hin).elim (fun heq => hid heq.symm) hnot
          · exact absurd (Option.some.inj hhead) hid
      | start template rest runId retention _ htick hflight =>
        by_cases hid : template.jobId = id
        · exact ⟨runId, List.mem_append_left _ (by rw [hout, hid]; exact List.mem_singleton.2 rfl)⟩
        · have hnot : id ∉ m.system.inFlight := hwhere.resolve_right fun h => hid (Option.some.inj h.2)
          exact hlater _ htick ⟨(List.mem_cons.1 hmem).resolve_left (Ne.symm hid), .inl (hflight ▸ hnot)⟩
      | wait template rest runId retention _ heq => exact hlater _ (heq ▸ ht) ⟨hmem, heq ▸ hwhere⟩
    · exact hlater t htick ⟨hmem, hwhere.imp_left fun hnot hin => hnot (hflight id hin)⟩

theorem due_of_started (clock : Clock) {id runId : String} : ∀ {mid : List Event} {m : Machine} {t : Tick}, m.system.tick = some t →
    TickRun clock m mid → (id, runId) ∈ outputs (stepMachine clock) startedBy m mid → id ∈ t.due.map JobMeta.jobId
  | [], m, t, ht, hrun, _ => nomatch ht.symm.trans hrun
  | e :: es, m, t, ht, hrun, hmem => by
    obtain ⟨_, hlive, hrest⟩ := hrun
    have hlater : ∀ t', (stepMachine clock m e).system.tick = some t' → (∀ i ∈ t'.due.map JobMeta.jobId, i ∈ t.due.map JobMeta.jobId) →
        (id, runId) ∈ outputs (stepMachine clock) startedBy (stepMachine clock m e) es → id ∈ t.due.map JobMeta.jobId :=
      fun t' ht' hsub hin => hsub id (due_of_started clock ht' hrest hin)
    rcases tick_or_frame clock ht hlive with ⟨newId, hmove⟩ | ⟨hout, htick, _⟩
    · rw [outputs] at hmem
      generalize startedBy m e = out at hmove hmem
      cases hmove with
      | leave phase htick =>
        cases es with
        | nil => cases hmem
        | cons e' es' => exact absurd htick hrest.1
      | cleanup phase r rest htick => exact hlater _ htick (fun _ h => h) hmem
      | skip template rest retention _ htick => exact hlater _ htick (fun _ h => List.mem_cons_of_mem _ h) hmem
      | create template rest retention _ htick => exact hlater _ htick (fun _ h => h) hmem
      | advance template rest id' retention retention' _ htick => exact hlater _ htick (fun _ h => h) hmem
      | mark template rest id' retention htick => exact hlater _ htick (fun _ h => h) hmem
      | start template rest id' retention _ htick =>
        rcases List.mem_append.1 hmem with hnow | hin
        · cases List.mem_singleton.1 hnow
          exact List.mem_cons_self
        · exact hlater _ htick (fun _ h => List.mem_cons_of_mem _ h) hin
      | wait template rest id' retention _ heq => exact hlater _ (heq ▸ ht) (fun _ h => h) hmem
    · rw [outputs, hout] at hmem
      exact hlater t htick (fun _ h => h) hmem

/-- How much of a tick is left. -/
def Tick.left (t : Tick) : Nat := 6 * t.due.length + t.retention.length + match t.phase with
  | .check => 5
  | .created _ => 4
  | .advanced _ => 2
  | .marked _ => 1

/-- A section of a tick or the end of a run. -/
def Event.ofTick (e : Event) : Prop := (∃ newId now, e = .step (.tick newId now)) ∨ ∃ i, e = .step (.finish i)

/-- Where a section of a tick is not waiting for a permit, less of the tick is left after it, or none. -/
theorem TickMove.left_lt (h : TickMove newId s s' t out) :
    s'.tick = none ∨ (∃ t', s'.tick = some t' ∧ t'.left < t.left) ∨
      s' = s ∧ ¬ s.running.length < maxConcurrentJobs ∧ ∃ runId, t.phase = .marked runId := by
  cases h with
  | leave phase htick => exact .inl htick
  | cleanup phase r rest htick => exact .inr (.inl ⟨_, htick, by simp [Tick.left]⟩)
  | skip template rest retention _ htick => exact .inr (.inl ⟨_, htick, by simp [Tick.left]⟩)
  | create template rest retention _ htick => exact .inr (.inl ⟨_, htick, by simp [Tick.left]⟩)
  | advance template rest runId retention retention' hret htick => exact .inr (.inl ⟨_, htick, by simp [Tick.left]; omega⟩)
  | mark template rest runId retention htick => exact .inr (.inl ⟨_, htick, by simp [Tick.left]⟩)
  | start template rest runId retention _ htick => exact .inr (.inl ⟨_, htick, by simp [Tick.left]; omega⟩)
  | wait template rest runId retention hpermit heq => exact .inr (.inr ⟨heq, hpermit, runId, rfl⟩)

theorem exists_tickRun (clock : Clock) : ∀ (n : Nat) {m : Machine} {t : Tick}, InFlight m.system → m.system.tick = some t → t.left ≤ n →
    ∃ rest, (∀ e ∈ rest, Event.ofTick e) ∧ TickRun clock m rest := by
  intro n
  induction n with
  | zero =>
    intro m t _ _ hleft
    obtain ⟨due, phase, retention⟩ := t
    cases phase <;> simp [Tick.left] at hleft
  | succ n ih =>
    intro m t hflight ht hleft
    -- one section of the tick, when it does not wait
    have hsection : ∀ m' : Machine, InFlight m'.system → m'.system.tick = some t →
        (m'.system.running.length < maxConcurrentJobs ∨ ∀ runId, t.phase ≠ .marked runId) →
        ∃ rest, (∀ e ∈ rest, Event.ofTick e) ∧ TickRun clock m' rest := by
      intro m' hflight' ht' hgo
      have hnone : m'.system.tick ≠ none := by simp [ht']
      rcases (stepTick_move clock ht' "" 0).left_lt with hend | ⟨t', htick, hlt⟩ | ⟨_, hwait, runId, hphase⟩
      · exact ⟨[.step (.tick "" 0)], by simpa using .inl ⟨"", 0, rfl⟩, hnone, trivial, hend⟩
      · obtain ⟨rest, hall, hrun⟩ := ih (hflight'.step _) htick (by omega)
        refine ⟨.step (.tick "" 0) :: rest, fun e he => ?_, hnone, trivial, hrun⟩
        rcases List.mem_cons.1 he with rfl | he
        · exact .inl ⟨"", 0, rfl⟩
        · exact hall e he
      · rcases hgo with hgo | hgo
        · exact absurd hgo hwait
        · exact absurd hphase (hgo runId)
    by_cases hgo : m.system.running.length < maxConcurrentJobs ∨ ∀ runId, t.phase ≠ .marked runId
    · exact hsection m hflight ht hgo
    · -- the tick waits for a permit: the first of the runs ends
      obtain ⟨hfull, _⟩ := not_or.1 hgo
      cases hr : m.system.running with
      | nil => exact absurd (by rw [hr]; decide) hfull
      | cons r rs =>
        have hstep : (stepMachine clock m (.step (.finish 0))).system =
            { m.system with running := rs, inFlight := m.system.inFlight.filter (· ≠ r.1) } := by
          have hget : m.system.running[0]? = some (r.1, r.2) := by rw [hr]; rfl
          simp only [stepMachine, stepJobs_finish hget, hr, List.eraseIdx_cons_zero]
        have htick : (stepMachine clock m (.step (.finish 0))).system.tick = some t := by
          rw [hstep]
          exact ht
        have hpermit : (stepMachine clock m (.step (.finish 0))).system.running.length < maxConcurrentJobs := by
          have hle := hflight.permits
          rw [hr] at hle
          rw [hstep]
          exact hle
        obtain ⟨rest, hall, hrun⟩ := hsection _ (hflight.step _) htick (.inl hpermit)
        refine ⟨.step (.finish 0) :: rest, fun e he => ?_, by simp [ht], trivial, hrun⟩
        rcases List.mem_cons.1 he with rfl | he
        · exact .inr ⟨0, rfl⟩
        · exact hall e he

/-! ## Histories -/

theorem inv_run (clock : Clock) (events : List Event) : InFlight (run (stepMachine clock) .init events).system ∧
    OneRecord (run (stepMachine clock) .init events) :=
  run_inv (I := fun m => InFlight m.system ∧ OneRecord m) (fun _ e _ h => ⟨h.1.step e, h.2.step e⟩)
    (@guarded_true _ _ (stepMachine clock) .init events) ⟨inFlight_load [], List.nodup_nil, List.nodup_nil⟩

/-- The whole tick that begins now starts a waiting template exactly when it is neither running nor queued. -/
theorem started_iff (clock : Clock) {m : Machine} (hflight : InFlight m.system) (hone : OneRecord m) (ht : m.system.tick = none)
    {newId : String} {now : Int} {mid : List Event} (hrun : TickRun clock (stepMachine clock m (.step (.tick newId now))) mid)
    {template : JobMeta} (hwaiting : Waiting clock m.system now template) :
    (∃ runId, (template.jobId, runId) ∈ outputs (stepMachine clock) startedBy (stepMachine clock m (.step (.tick newId now))) mid) ↔
      template.status ≠ .running ∧ template.status ≠ .queued := by
  have hdue : template ∈ dueJobs clock now m.system.jobs ↔ template.status ≠ .running ∧ template.status ≠ .queued := by
    simp [dueJobs, hwaiting.mem, hwaiting.parentJobId, hwaiting.due]
  have hmap : template.jobId ∈ (dueJobs clock now m.system.jobs).map JobMeta.jobId ↔ template ∈ dueJobs clock now m.system.jobs := by
    constructor
    · intro hmem
      obtain ⟨j, hj, hid⟩ := List.mem_map.1 hmem
      have heq : j = template := List.inj_on_of_nodup_map hone.1 (List.mem_filter.1 hj).1 hwaiting.mem hid
      exact heq ▸ hj
    · exact List.mem_map_of_mem
  have hidle : template.jobId ∉ m.system.inFlight := fun hin => hwaiting.idle (hflight.flying _ hin)
  rw [← hdue, ← hmap]
  by_cases hnil : dueJobs clock now m.system.jobs = []
  · have hstep : stepMachine clock m (.step (.tick newId now)) = m := by simp only [stepMachine, stepJobs, ht, if_pos hnil]
    rw [hstep] at hrun ⊢
    cases mid with
    | nil => simp [outputs, hnil]
    | cons e es => exact absurd ht hrun.1
  · have hstep : (stepMachine clock m (.step (.tick newId now))).system =
        { m.system with tick := some ⟨dueJobs clock now m.system.jobs, .check, []⟩ } := by
      simp only [stepMachine, stepJobs, ht, if_neg hnil]
    have htick : (stepMachine clock m (.step (.tick newId now))).system.tick = some ⟨dueJobs clock now m.system.jobs, .check, []⟩ := by
      rw [hstep]
    constructor
    · rintro ⟨runId, hmem⟩
      exact due_of_started clock htick hrun hmem
    · intro hmem
      refine started_of_ahead clock htick ⟨hmem, .inl ?_⟩ hrun
      rw [hstep]
      exact hidle

/-- **Schedules across restarts.** In every history: no template has two runs in flight, a tick comes to its end, and it starts the
waiting templates that are neither running nor queued, and those only. -/
theorem schedules_run (clock : Clock) (events : List Event) : SchedulesRun clock events where
  atMostOne pre _ := (inv_run clock pre).1.nodup
  ends pre _ := by
    cases ht : (run (stepMachine clock) .init pre).system.tick with
    | none => exact ⟨[], by simp, ht⟩
    | some t => exact exists_tickRun clock t.left (inv_run clock pre).1 ht (Nat.le_refl _)
  starts pre newId now mid _ ht hrun template hwaiting := by
    rw [run_snoc] at hrun ⊢
    exact started_iff clock (inv_run clock pre).1 (inv_run clock pre).2 ht hrun hwaiting

/-- Every waiting template is started by the next tick. -/
def StartsWaiting (clock : Clock) (events : List Event) : Prop := ∀ pre newId now mid, pre ++ .step (.tick newId now) :: mid <+: events →
  (run (stepMachine clock) .init pre).system.tick = none →
  TickRun clock (run (stepMachine clock) .init (pre ++ [.step (.tick newId now)])) mid →
  ∀ template, Waiting clock (run (stepMachine clock) .init pre).system now template →
    ∃ runId, (template.jobId, runId) ∈ outputs (stepMachine clock) startedBy
      (run (stepMachine clock) .init (pre ++ [.step (.tick newId now)])) mid

/-- Every night at two o'clock. -/
def nightly : Clock where
  toRfc3339 _ := "2024-05-01T01:00:00+00:00"
  parseFromRfc3339 t := if t = "2024-05-01T02:00:00+00:00" then some 1714528800 else none
  fromStr cron := if cron = "0 0 2 * * *" then .ok fun _ => some "2024-05-01T02:00:00+00:00" else .error "invalid expression"

/-- A dump is scheduled while it runs, and the process dies. The next process never starts it. -/
def diedRunning : List Event := [.step (.create (.new "j" .dump "c" "shop" "2024-05-01T01:00:00+00:00")),
  .step (.status "j" .running "Dump started" 1714525200), .step (.updateSchedule ⟨"j", "0 0 2 * * *", true, none, some "p"⟩ 1714525201),
  .step (.resume 0 1714525201), .save, .crash]

def scheduledRunning : JobMeta := { JobMeta.new "j" .dump "c" "shop" "2024-05-01T01:00:00+00:00" with
  status := .running
  message := "Dump started"
  profileId := "p"
  startedAt := some "2024-05-01T01:00:00+00:00"
  schedule := some ⟨"0 0 2 * * *", true, none, some "2024-05-01T02:00:00+00:00"⟩ }

theorem running_template_never_due : ¬ ∀ clock events, StartsWaiting clock events := by
  intro h
  have hsystem : (run (stepMachine nightly) .init diedRunning).system = .load [scheduledRunning] := by decide
  have htick : (run (stepMachine nightly) .init (diedRunning ++ [.step (.tick "r" 1714528860)])).system = .load [scheduledRunning] := by
    decide
  have hwaiting : Waiting nightly (run (stepMachine nightly) .init diedRunning).system 1714528860 scheduledRunning := by
    rw [hsystem]
    exact ⟨List.mem_singleton.2 rfl, rfl, by decide, List.not_mem_nil⟩
  obtain ⟨runId, hmem⟩ := h nightly (diedRunning ++ [.step (.tick "r" 1714528860)]) diedRunning "r" 1714528860 [] (List.prefix_refl _)
    (by rw [hsystem]; rfl) (by rw [TickRun, htick]; rfl) scheduledRunning hwaiting
  cases hmem

end Jobs
