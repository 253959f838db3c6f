import NosqlBuddy.Jobs.Scheduler
import NosqlBuddy.Lib.Runs

/-!
# Dump, restore and scheduled runs

| here | there |
| --- | --- |
| `Runner`, `RunRequest`, `Mapping` | `run_dump` (`commands/dump.rs:59`), `restore_database` (`commands/restore.rs:104`), `run_export` (`commands/export.rs:165`), and their requests |
| `ScheduledConfig`, the phases `resolve` and `fail` | `execute_scheduled_job` (`scheduler.rs:203`) before and after the runner |
| the phases `sinkStart`, `check`, `pull`, `close` | `run_pipeline` (`import_export/core.rs:105`) |
| `Input.raise`, `Input.cancelStatus` | the two sections of `cancel_job` (`commands/jobs.rs:82`) |

A run takes one step after the other, and `cancel_job` comes in between. What the outside world answers (the server, the files, the
sinks) is the `Reply` of a step; a step with an error that the code does not handle leaves the function by `?` (`RunState.exit`).
-/

namespace Jobs

inductive ConflictStrategy where
  | drop | skip | upsert
deriving DecidableEq, Repr

/-- `CollectionMapping` (restore.rs:38). -/
structure Mapping where
  source : String
  target : String
  enabled : Bool
deriving DecidableEq, Repr

/-- A collection that is dumped or exported. -/
def Mapping.self (name : String) : Mapping := ⟨name, name, true⟩

inductive Runner where
  | dump (collections : List String)
  | restore (strategy : ConflictStrategy) (collectionMap : List Mapping)
  | export (collection : String)
deriving DecidableEq, Repr

/-- What `execute_scheduled_job` finds in `config_json` and `kind` of the template. -/
inductive ScheduledConfig where
  | missing
  | bad
  | clipboard
  | unsupportedKind
  | good
deriving DecidableEq, Repr

structure RunRequest where
  runner : Runner
  jobId : String
  connectionId : String
  profileId : String
  database : String
  /-- The destination directory or file, or the source directory. -/
  path : Option String
  configJson : String
  /-- For a scheduled run: the configuration, and the template that the tick has spawned it from. -/
  scheduled : Option (ScheduledConfig × JobMeta)
deriving DecidableEq, Repr

/-- What the source of a pipeline has next, and what becomes of it. -/
inductive Row where
  /-- A document, and the error of the sink that gets it. -/
  | doc (writeError : Option String)
  | skipped
  /-- A row that is no document, or that a transform rejects. -/
  | error
  | eof
  | fail (message : String)
deriving DecidableEq, Repr

/-- What the outside world answers to a step of a run. -/
structure Reply where
  error : Option String := none
  /-- `list_collection_names`. -/
  names : List String := []
  /-- The source file of the mapping is there. -/
  found : Bool := true
  /-- `estimated_document_count` of the target. -/
  countError : Option String := none
  count : Nat := 0
  row : Row := .eof
  /-- The documents that the sink of a restore has inserted. -/
  inserted : Nat := 0
deriving DecidableEq, Repr

inductive RunPhase where
  | resolve
  | prepare
  | create
  | start
  | register
  | head
  | opening (item : Mapping)
  | sinkStart (item : Mapping)
  | check (item : Mapping)
  | pull (item : Mapping)
  | close (item : Mapping)
  | unregister
  | finish
  | fail (message : String)
  | ended
deriving DecidableEq, Repr

/-- How the run dealt with a collection. -/
inductive Outcome where
  | complete
  /-- The pipeline failed, or a row of it. -/
  | failed
  /-- The pipeline was cut short by the cancel flag. -/
  | cut
  /-- Skipped by the strategy `Skip`. -/
  | skipped
  /-- The source file is missing. -/
  | missing
deriving DecidableEq, Repr

structure RunState where
  request : RunRequest
  phase : RunPhase
  /-- The record of the job in the store. -/
  record : Option JobMeta
  /-- The cancel flag is registered. -/
  registered : Bool
  raised : Bool
  /-- Calls of `cancel_job` that have raised the flag, and have not written the status yet. -/
  cancelling : Nat
  items : List Mapping
  todo : List Mapping
  processed : Nat
  errors : Nat
  totalProcessed : Nat
  totalInserted : Nat
  totalErrors : Nat
  files : Nat
  cancelled : Bool
  /-- The error of the pipeline of an export. -/
  failure : Option String
  outcomes : List (Mapping × Outcome)
deriving DecidableEq, Repr

/-- Before the first step. The tick has made the record of a scheduled run. -/
def RunState.init (clock : Clock) (now : Int) (request : RunRequest) : RunState where
  request := request
  phase := .resolve
  record := request.scheduled.map fun scheduled => spawned clock now request.jobId scheduled.2
  registered := false
  raised := false
  cancelling := 0
  items := []
  todo := []
  processed := 0
  errors := 0
  totalProcessed := 0
  totalInserted := 0
  totalErrors := 0
  files := 0
  cancelled := false
  failure := none
  outcomes := []

def maxErrors : Nat := 10000

/-- The record that the runner makes. -/
def RunRequest.record (request : RunRequest) (items : List Mapping) (now : String) : JobMeta :=
  match request.runner with
  | .dump _ => { JobMeta.new request.jobId .dump request.connectionId request.database now with
      collections := items.map (·.target)
      outputPath := request.path
      configJson := some request.configJson
      profileId := request.profileId }
  | .restore _ _ => { JobMeta.new request.jobId .restore request.connectionId request.database now with
      collections := (items.filter (·.enabled)).map (·.target)
      sourcePath := request.path
      profileId := request.profileId }
  | .export _ => { JobMeta.new request.jobId .export request.connectionId request.database now with
      collections := items.map (·.target)
      outputPath := request.path
      configJson := some request.configJson
      profileId := request.profileId }

/-- "Dump", "Restore", "Export". -/
def Runner.label : Runner → String
  | .dump _ => "Dump"
  | .restore _ _ => "Restore"
  | .export _ => "Export"

/-- Scheduling is only supported for dump and export jobs. -/
def Runner.schedulable : Runner → Bool
  | .restore _ _ => false
  | _ => true

/-- `update_status` of the job of the run. -/
def RunState.setStatus (s : RunState) (status : JobStatus) (message now : String) : RunState :=
  { s with record := s.record.map (JobMeta.withStatus status message now) }

/-- The runner returns an error by `?`, and `execute_scheduled_job` handles it. -/
def RunState.exit (s : RunState) (message : String) : RunState :=
  { s with phase := if s.request.scheduled.isSome then .fail message else .ended }

/-- The status and the message at the end of the runner. -/
def RunState.verdict (s : RunState) : JobStatus × String :=
  match s.request.runner with
  | .dump _ => (if s.cancelled then .cancelled else if 0 < s.totalErrors then .failed else .done,
      s!"Dumped {s.totalProcessed} documents from {s.files} collections")
  | .restore _ _ => (if s.cancelled then .cancelled else if 0 < s.totalErrors then .failed else .done,
      s!"Restored {s.totalInserted} documents into {s.items.length} collections")
  | .export _ =>
    match s.failure with
    | some message => (.failed, message)
    | none => (if s.cancelled then .cancelled else .done, s!"Exported {s.totalProcessed} documents")

/-- How a pipeline dealt with its collection. -/
def pipelineOutcome (failure : Option String) (cut : Bool) (errors : Nat) : Outcome :=
  if cut then .cut else if failure.isSome ∨ 0 < errors then .failed else .complete

/-- `run_pipeline` has returned: `cut` is `JobReport::cancelled`, and says for an error whether the flag had stopped the pipeline. -/
def RunState.report (s : RunState) (item : Mapping) (failure : Option String) (cut : Bool) (inserted : Nat) : RunState :=
  let outcomes := s.outcomes ++ [(item, pipelineOutcome failure cut s.errors)]
  match s.request.runner with
  | .export _ => { s with
      phase := .unregister
      failure := failure
      cancelled := failure.isNone && cut
      totalProcessed := s.processed
      outcomes := outcomes }
  | _ =>
    if failure.isSome then { s with
      phase := .head
      totalErrors := s.totalErrors + 1
      outcomes := outcomes }
    else { s with
      phase := .head
      totalProcessed := s.totalProcessed + s.processed
      totalInserted := s.totalInserted + inserted
      totalErrors := s.totalErrors + s.errors
      files := s.files + 1
      outcomes := outcomes }

/-- One step of the run. -/
def RunState.go (s : RunState) (reply : Reply) (now : String) : RunState :=
  match s.phase with
  | .resolve =>
    match s.request.scheduled with
    | none => { s with phase := .prepare }
    | some (config, _) =>
      if config = .missing then { s with phase := .ended }
      else match reply.error with
        | some e => { s.setStatus .failed ("Scheduled job could not connect: " ++ e) now with phase := .ended }
        | none => { s with phase := if config = .good ∧ s.request.runner.schedulable then .prepare else .ended }
  | .prepare =>
    match reply.error with
    | some e => s.exit e
    | none =>
      match s.request.runner with
      | .dump collections =>
        let names := if collections = [] then reply.names.filter fun n => ! n.startsWith "system." else collections
        if names = [] then s.exit "no collections to dump"
        else { s with items := names.map Mapping.self, todo := names.map Mapping.self, phase := .create }
      | .restore _ collectionMap => { s with items := collectionMap, todo := collectionMap, phase := .create }
      | .export collection => { s with items := [.self collection], todo := [.self collection], phase := .create }
  | .create => { s with record := some ((s.request.record s.items now).preserving s.record), phase := .start }
  | .start => { s.setStatus .running (s.request.runner.label ++ " started") now with phase := .register }
  | .register =>
    let s := { s with registered := true, raised := false }
    match s.request.runner, s.todo with
    | .export _, item :: rest => { s with todo := rest, phase := .sinkStart item }
    | _, _ => { s with phase := .head }
  | .head =>
    match s.todo with
    | [] => { s with phase := .unregister }
    | item :: rest =>
      if ! item.enabled then { s with todo := rest }
      else if s.raised then { s with cancelled := true, phase := .unregister }
      else { s with todo := rest, phase := .opening item }
  | .opening item =>
    let opened := match reply.error with
      | some e => s.exit e
      | none => { s with phase := .sinkStart item }
    match s.request.runner with
    | .restore strategy _ =>
      if ! reply.found then { s with outcomes := s.outcomes ++ [(item, .missing)], phase := .head }
      else if strategy = .skip then
        match reply.countError with
        | some e => s.exit e
        | none => if 0 < reply.count then { s with outcomes := s.outcomes ++ [(item, .skipped)], phase := .head } else opened
      else opened
    | _ => opened
  | .sinkStart item =>
    match reply.error with
    | some e => s.report item (some e) false 0
    | none => { s with processed := 0, errors := 0, phase := .check item }
  | .check item => if s.raised then { s with phase := .close item } else { s with phase := .pull item }
  | .pull item =>
    match reply.row with
    | .eof => { s with phase := .close item }
    | .fail e => s.report item (some e) false 0
    | .doc (some e) => s.report item (some e) false 0
    | .doc none => { s with processed := s.processed + 1, phase := .check item }
    | .skipped => { s with processed := s.processed + 1, phase := .check item }
    | .error =>
      let s := { s with errors := s.errors + 1, processed := s.processed + 1 }
      if maxErrors < s.errors then
        s.report item (some s!"Job aborted: error count exceeded maximum of {maxErrors}") false 0
      else { s with phase := .check item }
  | .close item => s.report item reply.error s.raised reply.inserted
  | .unregister => { s with registered := false, phase := .finish }
  | .finish =>
    let s' := s.setStatus s.verdict.1 s.verdict.2 now
    match s.failure with
    | some e => s'.exit e
    | none => { s' with phase := .ended }
  | .fail e =>
    { s.setStatus .failed ("Scheduled " ++ s.request.runner.label.toLower ++ " failed: " ++ e) now with
      phase := .ended }
  | .ended => s

inductive Input where
  | go (reply : Reply) (now : String)
  /-- `cancel_job` raises the flag, if it is registered. -/
  | raise
  /-- `cancel_job` writes the status. -/
  | cancelStatus (now : String)
deriving DecidableEq, Repr

def stepRun (s : RunState) : Input → RunState
  | .go reply now => s.go reply now
  | .raise => if s.registered then { s with raised := true, cancelling := s.cancelling + 1 } else s
  | .cancelStatus now =>
    if 0 < s.cancelling then { s.setStatus .cancelled "Cancelled by user" now with cancelling := s.cancelling - 1 } else s

end Jobs
