import NosqlBuddy.SafeChange.Plan
import NosqlBuddy.Shell.Eval

/-!
# Safe Change: executing a rollback

| here | there |
| --- | --- |
| `TimelineEntry` | the fields of `TimelineEntry` that a rollback reads (mongo/timeline_store.rs:73) |

`rollback_never_runs`: the script that a preview stores is a JSON object. In the function around it the object
is a block, its first key a string that a colon follows, and that is no program.
-/

namespace SafeChange
open Shell (Engine Execution Issued ShellOutput evalScript)

inductive RollbackLevel where
  | none
  | sample
  | changedFields
  | full
deriving DecidableEq

structure TimelineEntry where
  id : String
  kind : OperationKind
  database : List Char
  collection : String
  rollbackLevel : RollbackLevel
  rollbackScript : Option (List Char)

/-- What the command reads of the application: entries, connections and their shells. -/
structure AppState (σ : Type) where
  timeline : String → Option TimelineEntry
  client : String → Except String String
  /-- The shell of a connection, or the error of starting it or of a thread that is gone. -/
  shell : String → Except String σ

structure ExecuteRollbackRequest where
  timelineEntryId : String
  connectionId : String

structure ExecuteRollbackResult where
  script : List Char
  output : List Char
  errored : Bool
  errorMessage : Option (List Char)

/-- What a call sends to the server, and its answer. -/
structure RollbackRun where
  issued : List (Issued PlanOperation)
  result : Except String ExecuteRollbackResult

def outputLine : ShellOutput → List Char
  | .text value => value
  | .json value => value.compact
  | .error value => value
  | .table value => ['\t'].intercalate (value.columns.map String.toList)

def rollbackResult (script : List Char) (outputs : List ShellOutput) : ExecuteRollbackResult :=
  let output := Text.join (outputs.map outputLine)
  let errored := outputs.any ShellOutput.isError
  { script, output, errored, errorMessage := if errored then (Text.lines output).getLast? else none }

section
variable {σ : Type} (engine : Engine σ PlanOperation) (isAlphanumeric : Char → Bool) (executionMs : Nat)

def noScript : String :=
  "this timeline entry has no rollback script; the operation was either a read, had rollback_level=none, or " ++
    "pre-image capture was not available"

def executeRollback (app : AppState σ) (request : ExecuteRollbackRequest) : RollbackRun :=
  match app.timeline request.timelineEntryId with
  | none => ⟨[], .error ("timeline entry '" ++ request.timelineEntryId ++ "' not found")⟩
  | some entry =>
    match entry.rollbackScript with
    | none => ⟨[], .error noScript⟩
    | some script =>
      match app.client request.connectionId, app.shell request.connectionId with
      | .error e, _ => ⟨[], .error e⟩
      | .ok _, .error e => ⟨[], .error e⟩
      | .ok connection, .ok state =>
        let run := evalScript engine isAlphanumeric executionMs connection script entry.database state
        ⟨run.1.issued, .ok (rollbackResult script run.2)⟩

/-- The rollback sent the operations of the plan to the entry's collection, and nothing else, and reports success. -/
def RollbackRuns (plan : Plan) (connection : String) (entry : TimelineEntry) (run : RollbackRun) : Prop :=
  run.issued = plan.operations.map (fun op => ⟨connection, entry.database, entry.collection, op⟩) ∧
    ∃ result, run.result = .ok result ∧ result.errored = false

/-! ## What is stored -/

theorem preview_script (h : previewOperation env req = .ok preview) :
    ∃ plan : Plan, plan ≠ .unsupported ∧ preview.rollbackScript = plan.toJson.pretty 0 := by
  simp only [previewOperation, Fallible.bind_ok, Fallible.pure_ok] at h
  obtain ⟨parsed, -, count, -, docs, -, updateDoc, -, replacementDoc, -, _, hshow, rfl⟩ := h
  obtain ⟨plan, hplan, heq⟩ := plan_of_shown (parsed.getD []) docs hshow
  exact ⟨plan, hplan, by rw [generateRollbackScript, heq]⟩

theorem plan_text {plan : Plan} (h : plan ≠ .unsupported) : ∃ rest, plan.toJson.pretty 0 =
    '\x7b' :: '\n' :: ' ' :: ' ' :: '"' :: ("operation".toList ++ '"' :: ':' :: rest) := by
  have hkey : JsonText.printString "operation".toList = '"' :: ("operation".toList ++ ['"']) := by decide
  cases plan with
  | bulkWrite operations =>
    obtain ⟨rest, hrest⟩ := Json.pretty_object "operation" (.string "bulkWrite")
      [("operations", .array (operations.map PlanOperation.toJson))]
    exact ⟨' ' :: rest, by rw [Plan.toJson, hrest, hkey]; simp⟩
  | insertMany documents note =>
    obtain ⟨rest, hrest⟩ := Json.pretty_object "operation" (.string "insertMany")
      (("documents", .array documents) :: note.toList.map fun n => ("note", .string n))
    exact ⟨' ' :: rest, by rw [Plan.toJson]; exact hrest.trans (by rw [hkey]; simp)⟩
  | replaceOne filter replacement =>
    obtain ⟨rest, hrest⟩ := Json.pretty_object "operation" (.string "replaceOne")
      [("filter", filter), ("replacement", replacement)]
    exact ⟨' ' :: rest, by rw [Plan.toJson, hrest, hkey]; simp⟩
  | unsupported => exact absurd rfl h

variable {engine isAlphanumeric executionMs}

theorem operation_plain : ∀ c ∈ "operation".toList, c ≠ '"' ∧ c ≠ '\\' ∧ c ≠ '\n' ∧ c ≠ '\r' := by
  have hall : ("operation".toList.all fun c => decide (c ≠ '"' ∧ c ≠ '\\' ∧ c ≠ '\n' ∧ c ≠ '\r')) = true := by decide
  exact fun c hc => of_decide_eq_true (List.all_eq_true.1 hall c hc)

theorem plan_rejected {plan : Plan} (hgrammar : engine.RejectsStringThenColon) (h : plan ≠ .unsupported) :
    ∃ e, engine.parse (Shell.sourceOf isAlphanumeric (plan.toJson.pretty 0)) = .error e := by
  obtain ⟨rest, hrest⟩ := plan_text h
  rw [hrest]
  exact hgrammar _ (Shell.object_no_program operation_plain)

theorem plan_run {app : AppState σ} {request : ExecuteRollbackRequest} {entry : TimelineEntry} {plan : Plan}
    (hgrammar : engine.RejectsStringThenColon) (hplan : plan ≠ .unsupported)
    (hentry : app.timeline request.timelineEntryId = some entry)
    (hscript : entry.rollbackScript = some (plan.toJson.pretty 0)) :
    let run := executeRollback engine isAlphanumeric executionMs app request
    run.issued = [] ∧ ∀ result, run.result = .ok result → result.errored = true := by
  intro run
  obtain ⟨e, he⟩ := @plan_rejected σ engine isAlphanumeric plan hgrammar hplan
  simp only [run, executeRollback, hentry, hscript]
  split
  · exact ⟨rfl, fun _ h => by cases h⟩
  · exact ⟨rfl, fun _ h => by cases h⟩
  · rw [Shell.evalScript_rejected he]
    refine ⟨rfl, fun result h => ?_⟩
    rw [← Except.ok.inj h]
    rfl

theorem not_runs_of_errored (h : ∀ result, run.result = .ok result → result.errored = true)
    (plan : Plan) (connection : String) (entry : TimelineEntry) : ¬ RollbackRuns plan connection entry run := by
  rintro ⟨-, result, hresult, hsuccess⟩
  exact absurd (h result hresult) (by simp [hsuccess])

/-- **A stored rollback is never executed.** Nothing is sent, and where there is an answer it reports an error. -/
theorem rollback_never_runs {env : PreviewEnv} {req : SafeChangePreviewRequest} {preview : SafeChangePreview}
    {app : AppState σ} {request : ExecuteRollbackRequest} {entry : TimelineEntry}
    (hgrammar : engine.RejectsStringThenColon) (hpreview : previewOperation env req = .ok preview)
    (hentry : app.timeline request.timelineEntryId = some entry)
    (hstored : entry.rollbackScript = some preview.rollbackScript) :
    let run := executeRollback engine isAlphanumeric executionMs app request
    run.issued = [] ∧ (∀ result, run.result = .ok result → result.errored = true) ∧
      ∀ plan connection, ¬ RollbackRuns plan connection entry run := by
  obtain ⟨plan, hplan, htext⟩ := preview_script hpreview
  obtain ⟨hissued, herrored⟩ := plan_run hgrammar hplan hentry (hstored.trans (congrArg some htext))
  exact ⟨hissued, herrored, fun plan connection => not_runs_of_errored herrored plan connection entry⟩

/-! ## A rollback -/

/-- One user with a status to change. -/
def demoUser : Oplog.Document := [("_id", .int32 1), ("status", .string "active")]

def demoEnv : PreviewEnv where
  parseFilter := fun s =>
    if s = "filter" then .ok [("_id", .int32 1)] else .ok [("$set", .document [("status", .string "trial")])]
  isBlank := fun _ => false
  bsonDocToJson := fun doc => .object (doc.map fun f => (f.1, .null))
  countDocuments := fun _ => .ok 1
  find := fun _ _ => .ok [demoUser]
  showDocuments := fun _ => .ok ()
  showUpdate := fun _ _ => .ok ()

def demoRequest : SafeChangePreviewRequest :=
  ⟨"shop", "users", .updateOne, "filter", some "update", none, none⟩

/-- Rejects what starts like the text of a rollback. -/
def demoEngine : Engine Unit PlanOperation where
  Program := Unit
  parse := fun src => if Shell.wrapOpen <+: src then .error "SyntaxError".toList else .ok ()
  exec := fun _ _ _ state => ⟨state, [], [], .ok none⟩

theorem demoEngine_rejects : demoEngine.RejectsStringThenColon := by
  rintro src ⟨ws₁, ws₂, key, rest, -, -, rfl⟩
  have hopen : Shell.wrapOpen <+: Shell.wrapOpen ++ ws₁ ++ '\x7b' :: ws₂ ++ '"' :: key ++ '"' :: ':' :: rest := by
    simp only [List.append_assoc]
    exact List.prefix_append _ _
  exact ⟨"SyntaxError".toList, by dsimp only [demoEngine]; rw [if_pos hopen]⟩

def demoPreview : SafeChangePreview :=
  ⟨.updateOne, 1, generateRollbackScript demoEnv.bsonDocToJson .updateOne [("_id", .int32 1)] [demoUser]
    (some [("$set", .document [("status", .string "trial")])]), .full⟩

def demoEntry : TimelineEntry :=
  ⟨"entry-1", .updateOne, "shop".toList, "users", .full, some demoPreview.rollbackScript⟩

def demoApp : AppState Unit where
  timeline := fun id => if id = "entry-1" then some demoEntry else none
  client := fun id => .ok id
  shell := fun _ => .ok ()

theorem demo_preview : previewOperation demoEnv demoRequest = .ok demoPreview := rfl

/-- Nothing comes of the stored rollback. -/
theorem demo_rollback :
    let run := executeRollback demoEngine Char.isAlphanum 0 demoApp ⟨"entry-1", "c"⟩
    run.issued = [] ∧ (∀ result, run.result = .ok result → result.errored = true) ∧
      ∀ plan connection, ¬ RollbackRuns plan connection demoEntry run :=
  rollback_never_runs demoEngine_rejects demo_preview rfl rfl

def demoPlan : Plan :=
  updatePlan demoEnv.bsonDocToJson [("_id", .int32 1)] [demoUser] [("$set", .document [("status", .string "trial")])]

/-- The plan of a full preview is not executed. -/
theorem rollback_not_executed :
    previewOperation demoEnv demoRequest = .ok demoPreview ∧ demoPreview.rollbackLevel = .full ∧
      demoPreview.rollbackScript = demoPlan.toJson.pretty 0 ∧
      ¬ RollbackRuns demoPlan "c" demoEntry (executeRollback demoEngine Char.isAlphanum 0 demoApp ⟨"entry-1", "c"⟩) := by
  refine ⟨demo_preview, rfl, rfl, not_runs_of_errored ?_ demoPlan "c" demoEntry⟩
  have hplan : demoPlan ≠ .unsupported := fun h => by cases h
  exact (plan_run demoEngine_rejects hplan rfl rfl).2

end

end SafeChange
