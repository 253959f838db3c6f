import NosqlBuddy.Jobs.Store

/-!
# The scheduler and the commands

| here | there |
| --- | --- |
| `UpdateScheduleRequest`, `UpdateScheduleRequest.changed` | `commands/jobs.rs:132`, the body of `update_schedule` (jobs.rs:141) after the job is read |
| `JobSystem`, `stepJobs` | the job store with its scheduler, and all that runs on it |

A tick reads the due jobs once. For each that is not in flight it makes a record of a run, moves the next run of the template,
enters the template in the set of those in flight, and waits for a permit to start the run. Everything else that uses the
store may come between these sections.
-/

namespace Jobs

structure UpdateScheduleRequest where
  jobId : String
  cron : String
  enabled : Bool
  retentionCount : Option Nat
  profileId : Option String
deriving DecidableEq, Repr

/-- The next run of the requested schedule. -/
def UpdateScheduleRequest.next (request : UpdateScheduleRequest) (clock : Clock) (now : Int) : Except String (Option String) :=
  if request.enabled then
    match clock.fromStr request.cron with
    | .ok upcoming => .ok (upcoming now)
    | .error e => .error ("invalid cron: " ++ e)
  else .ok none

/-- The record that `update_schedule` writes back for the one it has read. -/
def UpdateScheduleRequest.changed (request : UpdateScheduleRequest) (clock : Clock) (now : Int) (job : JobMeta) :
    Except String JobMeta :=
  (request.next clock now).map fun next => { job with
    schedule := some ⟨request.cron, request.enabled, request.retentionCount, next⟩
    profileId := if job.profileId = "" then request.profileId.getD job.profileId else job.profileId }

/-- `next_run_from_cron` (scheduler.rs:192). -/
def nextRunFromCron (clock : Clock) (now : Int) (cronExpr : String) : Option String :=
  match clock.fromStr cronExpr with
  | .ok upcoming => upcoming now
  | .error _ => none

/-- The record of a run that `tick` makes for a template. -/
def spawned (clock : Clock) (now : Int) (newId : String) (template : JobMeta) : JobMeta :=
  { JobMeta.new newId template.kind template.connectionId template.database (clock.toRfc3339 now) with
    collections := template.collections
    outputPath := template.outputPath
    sourcePath := template.sourcePath
    configJson := template.configJson
    profileId := template.profileId
    schedule := none
    parentJobId := some template.jobId
    message := "Queued by scheduler" }

def maxConcurrentJobs : Nat := 2

/-- How far `tick` is with the first of its jobs. -/
inductive Phase where
  | check
  | created (newId : String)
  | advanced (newId : String)
  | marked (newId : String)
deriving DecidableEq, Repr

/-- A tick at work: the due jobs that are left, and the templates to clean up after. -/
structure Tick where
  due : List JobMeta
  phase : Phase
  retention : List (String × Nat)
deriving DecidableEq, Repr

/-- A command between its two sections. -/
inductive Pending where
  | schedule (read changed : JobMeta)
  | cancel (id : String)
deriving DecidableEq, Repr

structure JobSystem where
  jobs : List JobMeta
  /-- The jobs with a cancel flag. -/
  active : List String
  inFlight : List String
  /-- The runs that hold a permit: their template, and their own id. -/
  running : List (String × String)
  tick : Option Tick
  pending : List Pending
deriving DecidableEq, Repr

/-- `with_path` (job_store.rs:148), after the lines of the file are read, and `start_scheduler`. -/
def JobSystem.load (jobs : List JobMeta) : JobSystem := ⟨jobs, [], [], [], none, []⟩

inductive Step where
  /-- A runner or a command makes a record: `create_job`. -/
  | create (record : JobMeta)
  | status (id : String) (status : JobStatus) (message : String) (now : Int)
  | progress (id : String) (processed : Nat) (total : Option Nat) (errors : Nat)
  | delete (id : String)
  | register (id : String)
  | unregister (id : String)
  /-- `update_schedule` reads the job. -/
  | updateSchedule (request : UpdateScheduleRequest) (now : Int)
  /-- `cancel_job` raises the flag. -/
  | cancelJob (id : String)
  /-- The second section of the command that is pending at `i`. -/
  | resume (i : Nat) (now : Int)
  /-- A tick begins, or goes on; `newId` is the identifier it makes. -/
  | tick (newId : String) (now : Int)
  /-- The run that holds the permit at `i` ends. -/
  | finish (i : Nat)
deriving DecidableEq, Repr

section
variable (clock : Clock)

/-- The next section of a tick that is at work. -/
def stepTick (newId : String) (now : Int) (t : Tick) (s : JobSystem) : JobSystem :=
  match t.due, t.phase with
  | [], _ =>
    match t.retention with
    | [] => { s with tick := none }
    | (id, retention) :: rest => { s with jobs := cleanupRetention id retention s.jobs, tick := some { t with retention := rest } }
  | template :: rest, .check =>
    if template.jobId ∈ s.inFlight then { s with tick := some { t with due := rest } }
    else { s with jobs := createJob (spawned clock now newId template) s.jobs, tick := some { t with phase := .created newId } }
  | template :: _, .created newId =>
    match template.schedule with
    | none => { s with tick := some { t with phase := .advanced newId } }
    | some sched =>
      if sched.enabled then
        let next := nextRunFromCron clock now sched.cron
        let retention := match next, sched.retentionCount with
          | some _, some n => t.retention ++ [(template.jobId, n)]
          | _, _ => t.retention
        { s with jobs := updateNextRun template.jobId next s.jobs, tick := some { t with phase := .advanced newId, retention := retention } }
      else { s with tick := some { t with phase := .advanced newId } }
  | template :: _, .advanced newId => { s with
      inFlight := template.jobId :: s.inFlight
      tick := some { t with phase := .marked newId } }
  | template :: rest, .marked newId =>
    if s.running.length < maxConcurrentJobs then { s with
      running := s.running ++ [(template.jobId, newId)]
      tick := some { t with due := rest, phase := .check } }
    else s

/-- The second section of a command. -/
def resumeCommand (now : Int) (op : Pending) (jobs : List JobMeta) : List JobMeta :=
  match op with
  | .schedule _ changed => createJob changed jobs
  | .cancel id => updateStatus id .cancelled "Cancelled by user" (clock.toRfc3339 now) jobs

def stepJobs (s : JobSystem) : Step → JobSystem
  | .create record => { s with jobs := createJob record s.jobs }
  | .status id status message now => { s with jobs := updateStatus id status message (clock.toRfc3339 now) s.jobs }
  | .progress id processed total errors => { s with jobs := updateProgress id processed total errors s.jobs }
  | .delete id => { s with jobs := deleteJob id s.jobs }
  | .register id => { s with active := id :: s.active }
  | .unregister id => { s with active := s.active.filter (· ≠ id) }
  | .updateSchedule request now =>
    match getJob s.jobs request.jobId with
    | none => s
    | some read =>
      match request.changed clock now read with
      | .ok changed => { s with pending := s.pending ++ [.schedule read changed] }
      | .error _ => s
  | .cancelJob id => if id ∈ s.active then { s with pending := s.pending ++ [.cancel id] } else s
  | .resume i now =>
    match s.pending[i]? with
    | some op => { s with jobs := resumeCommand clock now op s.jobs, pending := s.pending.eraseIdx i }
    | none => s
  | .tick newId now =>
    match s.tick with
    | none =>
      let due := dueJobs clock now s.jobs
      if due = [] then s else { s with tick := some ⟨due, .check, []⟩ }
    | some t => stepTick clock newId now t s
  | .finish i =>
    match s.running[i]? with
    | some (template, _) => { s with running := s.running.eraseIdx i, inFlight := s.inFlight.filter (· ≠ template) }
    | none => s

end

end Jobs
