import NosqlBuddy.Audit.Interceptor
import NosqlBuddy.Audit.HistoricalRoots
import NosqlBuddy.Audit.SuperRoot

/-!
# Restarts are transparent

A run of the capture path: the interceptor functions, `record_v3`, holds and prunes, on one directory and without failing
outside calls. `set_persistence_dir` (mod.rs:361) on a new log rebuilds the memory from `events.jsonl`, and takes the tree
from `tree.sled` where that store has one; `Restart` is the directory as it is found, with its tree store or without.

`Restorable` and `Aligned` fix every field of the log by the lines of the file, so the reopened log is the old one
(`restored_eq`). What follows a restart depends on the log and the event file only (`SameFile`): a tree store that was
lost stays incomplete, but nothing reads it before the next restart.
-/

namespace Audit
open Mutation Text

/-! ## Captured runs -/

/-- A call of one of the interceptor functions (interceptor.rs:14-216). -/
inductive InterceptorCall where
  | insert (database collection documentJson : String)
  | update (database collection filterJson updateJson : String)
  | delete (database collection filterJson : String)
  | dropCollection (database collection : String)
  | dropDatabase (database : String)
  | renameCollection (database collection newName : String)
  | createIndex (database collection keysJson optionsJson : String)
  | dropIndex (database collection indexName : String)

/-- What a captured run does with the log. -/
inductive CaptureStep where
  | intercept (now : Instant) (deploymentId : String) (call : InterceptorCall)
  | recordV3 (now : Instant) (deploymentId operation database collection : String) (canonical : List UInt8)
  | setLegalHold (deploymentId database : String) (hold : Bool)
  | pruneDomain (now : Instant) (deploymentId database : String)

/-- The directory that a new log is opened on. -/
inductive Restart where
  | sled
  | jsonl

/-- Without its tree store, for `jsonl`. -/
def Restart.disk (r : Restart) (dir : String) (disk : String → Dir) : String → Dir :=
  match r with
  | .sled => disk
  | .jsonl => Function.update disk dir { disk dir with sled := none }

section
variable (P : Prims) (J : Serde) (key : Option Bytes32) (dir : String)

def InterceptorCall.recordCall (c : Capture) : InterceptorCall → RecordCall
  | .insert database collection documentJson => recordInsert P c database collection documentJson
  | .update database collection filterJson updateJson => recordUpdate P J c database collection filterJson updateJson
  | .delete database collection filterJson => recordDelete P c database collection filterJson
  | .dropCollection database collection => recordDropCollection P c database collection
  | .dropDatabase database => recordDropDatabase P c database
  | .renameCollection database collection newName => recordRenameCollection P c database collection newName
  | .createIndex database collection keysJson optionsJson => recordCreateIndex P J c database collection keysJson optionsJson
  | .dropIndex database collection indexName => recordDropIndex P c database collection indexName

def CaptureStep.fileStep : CaptureStep → FileStep
  | .intercept now deploymentId call => .record (call.recordCall P J ⟨deploymentId, key.isSome, now⟩)
  | .recordV3 now deploymentId operation database collection canonical =>
    .record (.recordV3 now deploymentId operation database collection canonical)
  | .setLegalHold deploymentId database hold => .setLegalHold deploymentId database hold
  | .pruneDomain now deploymentId database => .pruneDomain now deploymentId database

/-- The state after the steps, from `w` on. -/
def runCapture (w : World) (steps : List CaptureStep) : World :=
  Runs.run (stepFile P key dir) w (steps.map (CaptureStep.fileStep P J key))

/-- `set_persistence_dir` of a new log with the same leaf key. -/
def reopen (r : Restart) (w : World) : Except AuditError Unit × World :=
  exec (setPersistenceDir P {} dir) (World.start key (r.disk dir w.disk))

end

/-! ## Interceptor calls are honest -/

section
variable {P : Prims} {J : Serde} {key : Option Bytes32} {dir : String}

theorem recordEntry_honest (now : Instant) (dep op db coll payload : String) :
    (recordEntry P none now dep op db coll payload (leafFromPayload P op db coll payload)).Honest P none :=
  fun _ _ _ => rfl

theorem intercept_honest (hl : P.Lawful) (now : Instant) (dep op db coll : String) (canonical : List UInt8) (payload : String) :
    (FileStep.record (intercept P ⟨dep, key.isSome, now⟩ op db coll canonical payload)).Honest P key := by
  intro e he
  cases key with
  | none =>
    obtain rfl := Option.some.inj he
    exact recordEntry_honest now dep op db coll payload
  | some k =>
    obtain rfl := Option.some.inj he
    exact recordV3Entry_honest hl k now dep op db coll canonical

theorem CaptureStep.honest (hl : P.Lawful) (s : CaptureStep) : (s.fileStep P J key).Honest P key := by
  cases s with
  | intercept now dep call => cases call <;> exact intercept_honest hl now dep _ _ _ _ _
  | recordV3 now dep op db coll canonical =>
    intro e he
    obtain ⟨k, rfl, rfl⟩ := Option.map_eq_some_iff.1 he
    exact recordV3Entry_honest hl k now dep op db coll canonical
  | setLegalHold dep db hold => trivial
  | pruneDomain now dep db => trivial

/-! ## The roots beside the tree -/

theorem aligned_record (h : Aligned P w) (call : RecordCall) : Aligned P (exec (call.run P {}) w).2 := by
  rcases log_run call {} w with hlog | ⟨e, _, hlog⟩
  · have hroots : (exec (call.run P {}) w).2.roots = w.roots := congrArg AuditLog.rooted hlog
    exact (aligned_of_roots hroots).2 h
  · have hnext : Aligned P ⟨(w.log.push P e).1, w.disk⟩ := by
      obtain ⟨h1, h2⟩ := Prod.mk.inj (roots_push (P := P) w.log e w.disk)
      rw [Aligned] at h ⊢
      rw [h1, h2, h, rootHexes_concat]
    have hroots : (exec (call.run P {}) w).2.roots = World.roots ⟨(w.log.push P e).1, w.disk⟩ := congrArg AuditLog.rooted hlog
    exact (aligned_of_roots hroots).2 hnext

theorem CaptureStep.aligned (h : Aligned P w) (s : CaptureStep) :
    Aligned P (stepFile P key dir w (s.fileStep P J key)) := by
  cases s with
  | intercept now dep call => exact aligned_record h _
  | recordV3 now dep op db coll canonical => exact aligned_record h _
  | setLegalHold dep db hold => exact (aligned_of_roots (keeps_setLegalHold {} dep db hold w)).2 h
  | pruneDomain now dep db => exact (aligned_of_roots (keeps_pruneDomain {} now dep db w)).2 h

theorem aligned_openNew : Aligned P (openNew P key dir) := by
  have hopen : openNew P key dir = ((World.start key emptyDisk).opening {} dir).opened dir := by
    rw [openNew, exec_open_new rfl]
  rw [hopen]
  rfl

theorem Chained.rootAfter_eq (h : Chained P key [] evs) :
    evs.map (·.rootAfter) = rootHexes P (leavesOf P key evs) := by
  obtain ⟨hchecked, hat⟩ := (chained_iff evs []).1 h
  refine List.ext_getElem? fun i => ?_
  rw [List.getElem?_map, getElem?_rootHexes, length_leavesOf hchecked]
  cases hi : evs[i]? with
  | none => simpa using hi
  | some ev =>
    rw [if_pos (List.getElem?_eq_some_iff.1 hi).1, Option.map_some, (hat i ev hi).2, List.nil_append]

/-! ## The invariant of a captured run -/

theorem aligned_capture (steps : List CaptureStep) : Aligned P (runCapture P J key dir (openNew P key dir) steps) := by
  induction steps using List.reverseRecOn with
  | nil => exact aligned_openNew
  | append_singleton steps s ih =>
    rw [runCapture, List.map_append, List.map_singleton, Runs.run_snoc]
    exact CaptureStep.aligned ih s

theorem restorable_capture (hl : P.LawfulLines) (steps : List CaptureStep) :
    ∃ ls, Restorable P key dir (runCapture P J key dir (openNew P key dir) steps) ls := by
  obtain ⟨ls, hrest, _⟩ := @shelved_run P key dir hl (steps.map (CaptureStep.fileStep P J key)) fun s hs => by
    obtain ⟨c, _, rfl⟩ := List.mem_map.1 hs
    exact c.honest hl.toLawful
  exact ⟨ls, hrest⟩

/-! ## The reopened log -/

theorem Restart.events_disk (r : Restart) (dir : String) (disk : String → Dir) :
    (r.disk dir disk dir).events = (disk dir).events := by
  cases r with
  | sled => rfl
  | jsonl => simp [Restart.disk]

theorem Restart.sledTree_eq (r : Restart) (h : Filed P key dir w ls) (ht : sledTree {} (r.disk dir w.disk dir) = some tree) : tree = ⟨leavesOf P key (eventsOf ls)⟩ := by
  cases r with
  | sled => exact h.sledTree_eq ht
  | jsonl => simp [Restart.disk, sledTree] at ht

theorem ReadBack.log_eq (h : Restorable P key dir w ls) (ha : Aligned P w) (hback : ReadBack P key dir ls log) : { log with persistence := some dir } = w.log := by
  have hholds : log.legalHolds = w.log.legalHolds := by rw [hback.legalHolds, h.metadata]
  have hretained : log.retainedDomainRoots = w.log.retainedDomainRoots := by rw [hback.retained, h.metadata]
  have hevents : log.events = w.log.events := by rw [hback.events, hretained, h.events]
  have hroots : log.rootAfterByIndex = w.log.rootAfterByIndex := by rw [hback.roots, h.chained.rootAfter_eq, ha, h.tree]
  have hfields : w.log = ⟨w.log.tree, w.log.events, w.log.sequences, w.log.persistence, w.log.sledStore, w.log.legalHolds,
    w.log.retainedDomainRoots, w.log.leafKey, w.log.rootAfterByIndex⟩ := rfl
  rw [hfields, h.tree, ← hback.tree, ← hevents, h.sequences, ← hback.sequences, h.persistence, h.sledStore, ← hback.sledStore,
    ← hholds, ← hretained, h.leafKey, ← hback.leafKey, ← hroots]

/-- **The reopened log is the log**, and the event file stays as it is. -/
theorem restored_eq (hl : P.LawfulLines) (h : Restorable P key dir w ls) (ha : Aligned P w)
    (r : Restart) : ∃ w', reopen P key dir r w = (.ok (), w') ∧ w'.log = w.log ∧ (w'.disk dir).events = (w.disk dir).events := by
  have hfile : (r.disk dir w.disk dir).events = some (String.ofList (fileText P ls)).toByteArray :=
    (r.events_disk dir w.disk).trans h.file
  obtain ⟨log, hback, hexec⟩ := readBack_file hl h.written h.chained hfile fun _ => r.sledTree_eq h.toFiled
  refine ⟨_, hexec, hback.log_eq h ha, ?_⟩
  simp [World.restore, World.opened, World.setDir, Dir.withEvents, Dir.withSled, hfile, h.file]

/-! ## Continuing -/

/-- The two states have one log, open on one event file. -/
structure SameFile (dir : String) (w w' : World) : Prop where
  log : w'.log = w.log
  events : (w'.disk dir).events = (w.disk dir).events
  persistence : w.log.persistence = some dir

theorem SameFile.append {w w' : World} (h : SameFile dir w w') {log : AuditLog} (hp : log.persistence = some dir)
    (bytes : ByteArray) : SameFile dir (World.append ⟨log, w.disk⟩ dir bytes) (World.append ⟨log, w'.disk⟩ dir bytes) :=
  ⟨rfl, by simp [World.append, World.setDir, h.events], hp⟩

theorem SameFile.saved (h : SameFile dir w w') (n index : Nat) (leaf root : Fr) :
    SameFile dir (w.saved n index leaf root) (w'.saved n index leaf root) := by
  have hevents : ∀ v : World, ((v.saved n index leaf root).disk dir).events = (v.disk dir).events := by
    intro v
    unfold World.saved
    cases v.log.sledStore with
    | none => rfl
    | some d =>
      by_cases hd : dir = d
      · subst hd
        simp [World.setDir]
      · simp [World.setDir, hd]
  have hlog : ∀ v : World, (v.saved n index leaf root).log = v.log := by
    intro v
    unfold World.saved
    cases v.log.sledStore <;> rfl
  exact ⟨by rw [hlog, hlog]; exact h.log, by rw [hevents, hevents]; exact h.events, by rw [hlog]; exact h.persistence⟩

theorem SameFile.record {w w' : World} (h : SameFile dir w w') (call : RecordCall) :
    SameFile dir (exec (call.run P {}) w).2 (exec (call.run P {}) w').2 := by
  rw [exec_run, exec_run, h.log]
  cases call.entry P w.log.leafKey with
  | none => exact h
  | some e =>
    have hexec := @recordInner_ok P {} e w dir h.persistence rfl rfl
    have hexec' := @recordInner_ok P {} e w' dir (h.log ▸ h.persistence) rfl rfl
    have hp : (w.log.push P e).1.persistence = some dir := h.persistence
    simp only [hexec, hexec', h.log]
    exact (h.append hp _).saved _ _ _ _

theorem SameFile.setLegalHold (h : SameFile dir w w') (dep db : String) (hold : Bool) :
    SameFile dir (exec (setLegalHold P {} dep db hold) w).2 (exec (setLegalHold P {} dep db hold) w').2 := by
  unfold Audit.setLegalHold
  rw [exec_bind_ok (exec_modify _ _), exec_bind_ok (exec_get _), exec_bind_ok (exec_modify _ _), exec_bind_ok (exec_get _)]
  simp only [h.log, h.persistence, exec_appendLine]
  refine h.append ?_ _
  rfl

theorem SameFile.pruneDomain (h : SameFile dir w w') (now : Instant) (dep db : String) :
    SameFile dir (exec (pruneDomain P {} now dep db) w).2 (exec (pruneDomain P {} now dep db) w').2 := by
  unfold Audit.pruneDomain
  rw [exec_bind_ok (exec_get _), exec_bind_ok (exec_get _)]
  simp only [h.log]
  by_cases hhold : (dep, db) ∈ w.log.legalHolds
  · rw [if_pos hhold]
    exact h
  · rw [if_neg hhold]
    obtain e | ⟨leaves, _ | maxIndex⟩ := pruneScan (dep, db) w.log.events [] none
    · exact h
    · exact h
    · simp only [h.persistence]
      rw [exec_bind_ok (exec_appendLine _ _ _), exec_bind_ok (exec_modify _ _), exec_bind_ok (exec_appendLine _ _ _),
        exec_bind_ok (exec_modify _ _)]
      have happ := h.append h.persistence (lineBytes (P.valueToString (prunedDomainMeta dep db
        ⟨frToHex ((⟨leaves⟩ : AuditMerkleTree 20).root P), leaves.length, maxIndex, P.toRfc3339 now⟩)))
      exact ⟨by simp only [World.append, World.setDir, h.log]; rfl, happ.events, h.persistence⟩

theorem CaptureStep.sameFile (h : SameFile dir w w') (s : CaptureStep) :
    SameFile dir (stepFile P key dir w (s.fileStep P J key)) (stepFile P key dir w' (s.fileStep P J key)) := by
  cases s with
  | intercept now dep call => exact h.record _
  | recordV3 now dep op db coll canonical => exact h.record _
  | setLegalHold dep db hold => exact h.setLegalHold dep db hold
  | pruneDomain now dep db => exact h.pruneDomain now dep db

theorem sameFile_capture {w w' : World} (h : SameFile dir w w') (steps : List CaptureStep) :
    SameFile dir (runCapture P J key dir w steps) (runCapture P J key dir w' steps) := by
  induction steps using List.reverseRecOn with
  | nil => exact h
  | append_singleton steps s ih =>
    rw [runCapture, runCapture, List.map_append, List.map_singleton, Runs.run_snoc, Runs.run_snoc]
    exact CaptureStep.sameFile ih s

/-- **A restart is transparent.** After every captured run, a new log on the directory, with or without its tree store, opens
and is the old log in every field; and whatever is captured next leaves the same log and the same event file as without
the restart. -/
theorem restart_transparent (hl : P.LawfulLines) (J : Serde) (key : Option Bytes32) (dir : String) (r : Restart)
    (steps more : List CaptureStep) :
    ∃ w', reopen P key dir r (runCapture P J key dir (openNew P key dir) steps) = (.ok (), w') ∧
      w'.log = (runCapture P J key dir (openNew P key dir) steps).log ∧
      (runCapture P J key dir w' more).log = (runCapture P J key dir (openNew P key dir) (steps ++ more)).log ∧
      ((runCapture P J key dir w' more).disk dir).events =
        ((runCapture P J key dir (openNew P key dir) (steps ++ more)).disk dir).events := by
  obtain ⟨ls, hrest⟩ := @restorable_capture P J key dir hl steps
  obtain ⟨w', hopen, hlog, hevents⟩ := restored_eq hl hrest (aligned_capture steps) r
  have hsame := @sameFile_capture P J key dir _ w' ⟨hlog, hevents, hrest.persistence⟩ more
  have happ : runCapture P J key dir (openNew P key dir) (steps ++ more) =
      runCapture P J key dir (runCapture P J key dir (openNew P key dir) steps) more := by
    rw [runCapture, List.map_append, Runs.run_append]
    rfl
  exact ⟨w', hopen, hlog, by rw [happ]; exact hsame.log, by rw [happ]; exact hsame.events⟩

end

def demoCaptureSerde : Serde := ⟨fun _ => none, fun _ => none, fun _ => none, fun _ _ => none⟩

/-- A held database and a pruned one. -/
def demoCapture : List CaptureStep :=
  [.intercept ⟨0, 0⟩ "rs:rs0" (.insert "shop" "orders" "1"), .setLegalHold "rs:rs0" "shop" true,
    .intercept ⟨1, 0⟩ "rs:rs0" (.insert "bank" "accounts" "2"), .pruneDomain ⟨2, 0⟩ "rs:rs0" "bank"]

/-- The pruned database is used again after a restart without the tree store. -/
theorem pruned_run_restored : demoPrims.LawfulLines ∧ ∃ w',
    reopen demoPrims none "data" .jsonl (runCapture demoPrims demoCaptureSerde none "data" (openNew demoPrims none "data")
      demoCapture) = (.ok (), w') ∧
    (runCapture demoPrims demoCaptureSerde none "data" w' [.intercept ⟨3, 0⟩ "rs:rs0" (.dropDatabase "bank")]).log =
      (runCapture demoPrims demoCaptureSerde none "data" (openNew demoPrims none "data")
        (demoCapture ++ [.intercept ⟨3, 0⟩ "rs:rs0" (.dropDatabase "bank")])).log := by
  have hl : demoPrims.LawfulLines := textPrims_lawfulLines _ _ _
  obtain ⟨w', hopen, _, hlog, _⟩ := restart_transparent hl demoCaptureSerde none "data" .jsonl demoCapture
    [.intercept ⟨3, 0⟩ "rs:rs0" (.dropDatabase "bank")]
  exact ⟨hl, w', hopen, hlog⟩

end Audit
