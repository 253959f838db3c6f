import Mathlib.Data.List.Sort

/-!
# The job store

| here | there |
| --- | --- |
| `JobKind`, `JobStatus`, `ScheduleConfig`, `JobMeta` | `job_store.rs:16`, `:26`, `:37`, `:47` |
| `createJob`, `updateStatus`, `updateProgress` | `job_store.rs:173`, `:226`, `:245` |
| `dueJobs`, `updateNextRun`, `cleanupRetention` | `job_store.rs:353`, `:378`, `:392` |

Each operation is one section under the lock of the jobs: a function of the list. A job is found by its id, and the first
that has it counts (`getJob_createJob`, `getJob_modifyJob`, `getJob_removeJobs`).
-/

namespace Jobs

inductive JobKind where
  | dump | restore | export | import
deriving DecidableEq, Repr

inductive JobStatus where
  | queued | running | done | failed | cancelled
deriving DecidableEq, Repr

structure ScheduleConfig where
  cron : String
  enabled : Bool
  retentionCount : Option Nat
  nextRunAt : Option String
deriving DecidableEq, Repr

structure JobMeta where
  jobId : String
  kind : JobKind
  status : JobStatus
  connectionId : String
  profileId : String
  database : String
  collections : List String
  createdAt : String
  startedAt : Option String
  finishedAt : Option String
  outputPath : Option String
  sourcePath : Option String
  schedule : Option ScheduleConfig
  parentJobId : Option String
  processed : Nat
  total : Option Nat
  errors : Nat
  message : String
  configJson : Option String
deriving DecidableEq, Repr

/-- What the code asks `chrono` and `cron`; a moment is an integer. -/
structure Clock where
  toRfc3339 : Int → String
  parseFromRfc3339 : String → Option Int
  /-- `Schedule::from_str`, and the first of `upcoming` after a moment. -/
  fromStr : String → Except String (Int → Option String)

/-- `JobMeta::new` (job_store.rs:80). -/
def JobMeta.new (jobId : String) (kind : JobKind) (connectionId database createdAt : String) : JobMeta where
  jobId := jobId
  kind := kind
  status := .queued
  connectionId := connectionId
  profileId := ""
  database := database
  collections := []
  createdAt := createdAt
  startedAt := none
  finishedAt := none
  outputPath := none
  sourcePath := none
  schedule := none
  parentJobId := none
  processed := 0
  total := none
  errors := 0
  message := ""
  configJson := none

/-! ## Operations -/

/-- `get` (job_store.rs:327). -/
def getJob (jobs : List JobMeta) (id : String) : Option JobMeta := jobs.find? fun j => j.jobId = id

/-- The fields that live outside the request of a runner are kept from the record that is replaced. -/
def JobMeta.preserving (record : JobMeta) : Option JobMeta → JobMeta
  | none => record
  | some existing => { record with
      schedule := record.schedule <|> existing.schedule
      parentJobId := record.parentJobId <|> existing.parentJobId
      profileId := if record.profileId = "" then existing.profileId else record.profileId }

def removeJobs (ids : List String) (jobs : List JobMeta) : List JobMeta := jobs.filter fun j => j.jobId ∉ ids

/-- `create_job` (job_store.rs:173). -/
def createJob (record : JobMeta) (jobs : List JobMeta) : List JobMeta :=
  removeJobs [record.jobId] jobs ++ [record.preserving (getJob jobs record.jobId)]

/-- `jobs.iter_mut().find(|j| j.job_id == job_id)`: the first job with the id is changed in place. -/
def modifyJob (id : String) (f : JobMeta → JobMeta) : List JobMeta → List JobMeta
  | [] => []
  | j :: jobs => if j.jobId = id then f j :: jobs else j :: modifyJob id f jobs

/-- The change that `update_status` makes. -/
def JobMeta.withStatus (status : JobStatus) (message now : String) (job : JobMeta) : JobMeta :=
  { job with
    status := status
    message := message
    startedAt := if status = .running ∧ job.startedAt = none then some now else job.startedAt
    finishedAt := if status = .done ∨ status = .failed ∨ status = .cancelled then some now else job.finishedAt }

def updateStatus (id : String) (status : JobStatus) (message now : String) : List JobMeta → List JobMeta :=
  modifyJob id (JobMeta.withStatus status message now)

/-- The change that `update_progress` makes. -/
def JobMeta.withProgress (processed : Nat) (total : Option Nat) (errors : Nat) (job : JobMeta) : JobMeta :=
  { job with processed := processed, total := total <|> job.total, errors := errors }

def updateProgress (id : String) (processed : Nat) (total : Option Nat) (errors : Nat) : List JobMeta → List JobMeta :=
  modifyJob id (JobMeta.withProgress processed total errors)

/-- The change that `update_next_run` makes. -/
def JobMeta.withNextRun (nextRunAt : Option String) (job : JobMeta) : JobMeta :=
  { job with schedule := job.schedule.map fun schedule => { schedule with nextRunAt := nextRunAt } }

def updateNextRun (id : String) (nextRunAt : Option String) : List JobMeta → List JobMeta :=
  modifyJob id (JobMeta.withNextRun nextRunAt)

/-- `delete` (job_store.rs:337). -/
def deleteJob (id : String) : List JobMeta → List JobMeta := removeJobs [id]

/-- The schedule is enabled and its next run lies in the past. -/
def ScheduleConfig.due (clock : Clock) (now : Int) (s : ScheduleConfig) : Bool :=
  s.enabled && s.nextRunAt.any fun t => (clock.parseFromRfc3339 t).any (· ≤ now)

/-- `due_jobs` (job_store.rs:353). -/
def dueJobs (clock : Clock) (now : Int) (jobs : List JobMeta) : List JobMeta :=
  jobs.filter fun j =>
    j.parentJobId = none && j.status ≠ .running && j.status ≠ .queued && j.schedule.any (ScheduleConfig.due clock now)

/-- `JobFilter` (job_store.rs:126). -/
structure JobFilter where
  connectionId : Option String := none
  profileId : Option String := none
  database : Option String := none
  kind : Option JobKind := none
  status : Option JobStatus := none
  limit : Option Nat := none
deriving DecidableEq, Repr

/-- The criteria that `list` checks on each job; a job of no profile is shown for each. -/
def JobFilter.accepts (filter : JobFilter) (j : JobMeta) : Bool :=
  filter.connectionId.all (j.connectionId = ·) && filter.profileId.all (fun id => j.profileId = "" || j.profileId = id) &&
    filter.database.all (j.database = ·) && filter.kind.all (j.kind = ·) && filter.status.all (j.status = ·)

/-- `list` (job_store.rs:305): newest first, up to the limit. -/
def listJobs (filter : JobFilter) (jobs : List JobMeta) : List JobMeta :=
  let out := (jobs.filter filter.accepts).insertionSort fun a b => b.createdAt ≤ a.createdAt
  match filter.limit with
  | some limit => out.take limit
  | none => out

/-- The runs that `cleanup_retention` removes: finished runs of the template beyond the newest. -/
def outdatedRuns (templateJobId : String) (retentionCount : Nat) (jobs : List JobMeta) : List String :=
  let runs := jobs.filter fun j => j.parentJobId = some templateJobId && j.status ≠ .running && j.status ≠ .queued
  ((runs.insertionSort fun a b => b.createdAt ≤ a.createdAt).drop retentionCount).map (·.jobId)

/-- `cleanup_retention` (job_store.rs:392). -/
def cleanupRetention (templateJobId : String) (retentionCount : Nat) (jobs : List JobMeta) : List JobMeta :=
  removeJobs (outdatedRuns templateJobId retentionCount jobs) jobs

/-! ## Finding a job -/

theorem getJob_removeJobs (ids jobs id) : getJob (removeJobs ids jobs) id = if id ∈ ids then none else getJob jobs id := by
  unfold getJob removeJobs
  rw [List.find?_filter]
  split
  · next hmem =>
    rw [List.find?_eq_none]
    intro j _ hj
    simp only [decide_not, Bool.not_eq_true', decide_eq_false_iff_not, decide_eq_true_eq] at hj
    exact hj.1 (hj.2 ▸ hmem)
  · next hmem =>
    refine congrFun (congrArg _ (funext fun j => ?_)) _
    by_cases hj : j.jobId = id
    · simp [hj, hmem]
    · simp [hj]

@[simp] theorem JobMeta.preserving_jobId (record : JobMeta) (existing : Option JobMeta) :
    (record.preserving existing).jobId = record.jobId := by
  cases existing <;> rfl

theorem getJob_createJob (record : JobMeta) (jobs : List JobMeta) (id : String) :
    getJob (createJob record jobs) id = if record.jobId = id then some (record.preserving (getJob jobs id)) else getJob jobs id := by
  have hremove := getJob_removeJobs [record.jobId] jobs id
  unfold createJob
  unfold getJob at hremove ⊢
  rw [List.find?_append, hremove]
  by_cases hid : record.jobId = id
  · subst hid
    simp
  · simp [hid, Ne.symm hid]

theorem getJob_modifyJob {f : JobMeta → JobMeta} (hf : ∀ j, (f j).jobId = j.jobId) (id id' : String) : ∀ jobs : List JobMeta,
    getJob (modifyJob id f jobs) id' = if id = id' then (getJob jobs id').map f else getJob jobs id'
  | [] => by simp [modifyJob, getJob]
  | j :: jobs => by
    have ih := getJob_modifyJob hf id id' jobs
    unfold getJob at ih ⊢
    rw [modifyJob]
    by_cases hj : j.jobId = id
    · rw [if_pos hj, List.find?_cons, List.find?_cons, hf, hj]
      by_cases hid : id = id'
      · simp [hid]
      · simp [hid]
    · rw [if_neg hj, List.find?_cons, List.find?_cons, ih]
      by_cases hid : id = id'
      · subst hid
        simp [hj]
      · by_cases hj' : j.jobId = id'
        · simp [hj', hid]
        · simp [hj', hid]

@[simp] theorem getJob_updateStatus (id status message now id') (jobs : List JobMeta) :
    getJob (updateStatus id status message now jobs) id' =
      if id = id' then (getJob jobs id').map (JobMeta.withStatus status message now) else getJob jobs id' :=
  @getJob_modifyJob (JobMeta.withStatus status message now) (fun _ => rfl) id id' jobs

@[simp] theorem getJob_updateProgress (id processed total errors id') (jobs : List JobMeta) :
    getJob (updateProgress id processed total errors jobs) id' =
      if id = id' then (getJob jobs id').map (JobMeta.withProgress processed total errors) else getJob jobs id' :=
  @getJob_modifyJob (JobMeta.withProgress processed total errors) (fun _ => rfl) id id' jobs

@[simp] theorem getJob_updateNextRun (id nextRunAt id') (jobs : List JobMeta) :
    getJob (updateNextRun id nextRunAt jobs) id' =
      if id = id' then (getJob jobs id').map (JobMeta.withNextRun nextRunAt) else getJob jobs id' :=
  @getJob_modifyJob (JobMeta.withNextRun nextRunAt) (fun _ => rfl) id id' jobs

end Jobs
