import NosqlBuddy.History.Lines
import NosqlBuddy.Lib.Tracked

/-!
# History files and crashes

| here | there |
| --- | --- |
| `JobOp`, `JobOp.edit` | the operations of `JobStore` that change the jobs (job_store.rs:173-430) |
| `TimelineOp`, `TimelineOp.edit` | those of `TimelineStore` (timeline_store.rs:430-575) |
| `StoreState.init`, `.crash` | `with_path` (job_store.rs:148, timeline_store.rs:395) |
| `.save`, `.crashInSave` | `save` (job_store.rs:162, timeline_store.rs:417) |

Both stores write all their records with one `std::fs::write`, which empties the file and then writes it from its start. A crash in
between leaves the first bytes of the new file. Files that are written next to the old one and renamed over it are there
(`AtomicFileWriter`, io_util.rs:103), but these two are not written so.

`saved` is a value of the proof, not of the store: what the file last held of a record, from a completed save or when it was read.
-/

namespace History
open Jobs Timeline RecordFile Tracked Runs

/-! ## Operations -/

inductive JobOp where
  | createJob (record : JobMeta)
  | updateStatus (id : String) (status : JobStatus) (message now : String)
  | updateProgress (id : String) (processed : Nat) (total : Option Nat) (errors : Nat)
  | updateNextRun (id : String) (nextRunAt : Option String)
  | delete (id : String)
  | cleanupRetention (templateJobId : String) (retentionCount : Nat)

def JobOp.edit : JobOp → Edit JobMeta
  | .createJob record => .replace (fun j => j.jobId = record.jobId) record.preserving
  | .updateStatus id status message now => .modify (fun j => j.jobId = id) (JobMeta.withStatus status message now)
  | .updateProgress id processed total errors => .modify (fun j => j.jobId = id) (JobMeta.withProgress processed total errors)
  | .updateNextRun id nextRunAt => .modify (fun j => j.jobId = id) (JobMeta.withNextRun nextRunAt)
  | .delete id => .retain fun _ j => j.jobId ∉ [id]
  | .cleanupRetention templateJobId retentionCount => .retain fun jobs j => j.jobId ∉ outdatedRuns templateJobId retentionCount jobs

/-- The operations of the job store. -/
def JobOp.apply : JobOp → List JobMeta → List JobMeta
  | .createJob record => Jobs.createJob record
  | .updateStatus id status message now => Jobs.updateStatus id status message now
  | .updateProgress id processed total errors => Jobs.updateProgress id processed total errors
  | .updateNextRun id nextRunAt => Jobs.updateNextRun id nextRunAt
  | .delete id => deleteJob id
  | .cleanupRetention templateJobId retentionCount => Jobs.cleanupRetention templateJobId retentionCount

inductive TimelineOp where
  | appendBatch (entries : List StoredEntry)
  | updateNotes (id notes : String)
  | delete (id : String)
  | prune (cutoff : String) (retentionCount : Nat)

def TimelineOp.edit : TimelineOp → Edit StoredEntry
  | .appendBatch entries => .append entries
  | .updateNotes id notes => .modify (fun e => e.id = id) fun e => { e with notes := some notes }
  | .delete id => .retain fun _ e => e.id ≠ id
  | .prune cutoff retentionCount =>
    .retain fun es e => cutoff ≤ e.createdAt || e.id ∈ keepIds retentionCount (es.map StoredEntry.toTimelineEntry)

/-- The operations of the timeline store on its entries. -/
def TimelineOp.apply : TimelineOp → List TimelineEntry → List TimelineEntry
  | .appendBatch entries => fun es => es ++ entries.map StoredEntry.toTimelineEntry
  | .updateNotes id notes => withNotes id notes
  | .delete id => retained id
  | .prune cutoff retentionCount => pruned cutoff retentionCount

theorem modifyFirst_jobs (id : String) (f : JobMeta → JobMeta) : ∀ jobs : List JobMeta,
    modifyFirst (fun j => decide (j.jobId = id)) f jobs = modifyJob id f jobs
  | [] => rfl
  | j :: jobs => by simp only [modifyFirst, modifyJob, decide_eq_true_eq, modifyFirst_jobs id f jobs]

/-- **The edits are the operations of the job store.** -/
theorem JobOp.apply_edit (op : JobOp) (jobs : List JobMeta) : op.edit.apply jobs = op.apply jobs := by
  cases op with
  | createJob record => simp [JobOp.edit, Edit.apply, JobOp.apply, Jobs.createJob, removeJobs, getJob]
  | updateStatus id status message now => exact modifyFirst_jobs id _ jobs
  | updateProgress id processed total errors => exact modifyFirst_jobs id _ jobs
  | updateNextRun id nextRunAt => exact modifyFirst_jobs id _ jobs
  | delete id => rfl
  | cleanupRetention templateJobId retentionCount => rfl

theorem modifyFirst_entries (id notes : String) : ∀ es : List StoredEntry,
    (modifyFirst (fun e : StoredEntry => decide (e.id = id)) (fun e => { e with notes := some notes }) es).map
      StoredEntry.toTimelineEntry = withNotes id notes (es.map StoredEntry.toTimelineEntry)
  | [] => rfl
  | e :: es => by
    rw [modifyFirst, List.map_cons, withNotes]
    by_cases h : e.id = id
    · simp [h]
    · simp [h, modifyFirst_entries id notes es]

/-- **The edits are the operations of the timeline store.** -/
theorem TimelineOp.apply_edit (op : TimelineOp) (es : List StoredEntry) :
    (op.edit.apply es).map StoredEntry.toTimelineEntry = op.apply (es.map StoredEntry.toTimelineEntry) := by
  cases op with
  | appendBatch entries => exact List.map_append
  | updateNotes id notes => exact modifyFirst_entries id notes es
  | delete id => simp only [TimelineOp.edit, Edit.apply, TimelineOp.apply, retained, List.filter_map]; rfl
  | prune cutoff retentionCount => simp only [TimelineOp.edit, Edit.apply, TimelineOp.apply, pruned, List.filter_map]; rfl

/-! ## Saves and crashes -/

inductive StoreEvent (Op : Type) where
  | mutate (op : Op)
  | save
  /-- The process dies outside of a rewrite, and another starts. -/
  | crash
  /-- The process dies when it has written the first `k` bytes of the file. -/
  | crashInSave (k : Nat)

structure StoreState (R : Type) where
  cells : List (Cell R)
  disk : Option ByteArray

def StoreState.records {R : Type} (m : StoreState R) : List R := m.cells.map Cell.record

section
variable {R Op : Type} (codec : LineCodec R) (edit : Op → Edit R)

/-- A process that reads this file. -/
def StoreState.init (disk : Option ByteArray) : StoreState R := ⟨(load codec disk).map Cell.fresh, disk⟩

def stepHistory (m : StoreState R) : StoreEvent Op → StoreState R
  | .mutate op => { m with cells := (edit op).onCells m.cells }
  | .save => ⟨m.records.map Cell.fresh, some (fileOf codec m.records)⟩
  | .crash => .init codec m.disk
  | .crashInSave k => .init codec (some ((fileOf codec m.records).extract 0 k))

/-- What a crash leaves of the records: of each that was saved and is not removed since, the value that was saved, or the one
that was being written. Two records have two such values. -/
def Survives (m : StoreState R) (e : StoreEvent Op) (loaded : List R) : Prop :=
  ∃ kept, kept.Subperm loaded ∧
    List.Forall₂ (fun c r => c.saved = some r ∨ (∃ k, e = .crashInSave k) ∧ c.record = r) (m.cells.filter fun c => c.saved.isSome) kept

/-- Every crash of the run leaves the records that were saved. -/
def HistorySurvives (file : Option ByteArray) (events : List (StoreEvent Op)) : Prop :=
  ∀ pre e post, events = pre ++ e :: post → (e = .crash ∨ ∃ k, e = .crashInSave k) →
    Survives (run (stepHistory codec edit) (.init codec file) pre) e
      (run (stepHistory codec edit) (.init codec file) (pre ++ [e])).records

/-- A rewrite that is cut off has come to the end of the line of the last record that was saved before, and does not end in the middle
of a character; or no record was saved. -/
def FarEnough (m : StoreState R) : StoreEvent Op → Prop
  | .crashInSave k => ∃ n, (∀ c ∈ m.cells.drop n, c.saved = none) ∧
      (n = 0 ∨ ∃ cut, cut <+: textOf codec m.records ∧ (fileOf codec m.records).extract 0 k = encode cut ∧
        textOf codec (m.records.take n) <+: cut)
  | _ => True

/-! ## One step -/

/-- What is on the disk holds what was saved. -/
def OnDisk (m : StoreState R) : Prop := (saved m.cells).Subperm (load codec m.disk)

theorem onDisk_init (disk : Option ByteArray) : OnDisk codec (StoreState.init codec disk) := by
  rw [OnDisk, StoreState.init, saved_fresh]

theorem records_init (disk : Option ByteArray) : (StoreState.init codec disk).records = load codec disk := by
  rw [StoreState.records, StoreState.init, List.map_map]
  exact List.map_id _

theorem records_crash (m : StoreState R) : (stepHistory codec edit m .crash).records = load codec m.disk :=
  records_init codec m.disk

theorem records_crashInSave (m : StoreState R) (k : Nat) : (stepHistory codec edit m (.crashInSave k)).records =
    load codec (some ((fileOf codec m.records).extract 0 k)) :=
  records_init codec _

/-- **Step lemma.** -/
theorem onDisk_step (h : OnDisk codec m) (e : StoreEvent Op) : OnDisk codec (stepHistory codec edit m e) := by
  cases e with
  | mutate op => exact (saved_onCells (edit op) m.cells).trans h
  | save =>
    rw [OnDisk, stepHistory, saved_fresh, load_fileOf]
  | crash => exact onDisk_init codec m.disk
  | crashInSave k => exact onDisk_init codec _

theorem survives_crash (h : OnDisk codec m) : Survives m (.crash : StoreEvent Op) (load codec m.disk) :=
  ⟨saved m.cells, h, (forall₂_saved m.cells).imp fun _ _ => .inl⟩

theorem survives_crashInSave (h : FarEnough codec m (.crashInSave k : StoreEvent Op)) :
    Survives m (.crashInSave k : StoreEvent Op) (load codec (some ((fileOf codec m.records).extract 0 k))) := by
  obtain ⟨n, hdrop, hcut⟩ := h
  have hkept : m.cells.filter (fun c => c.saved.isSome) = (m.cells.take n).filter fun c => c.saved.isSome := by
    have hnone : (m.cells.drop n).filter (fun c => c.saved.isSome) = [] :=
      List.filter_eq_nil_iff.2 fun c hc => by simp [hdrop c hc]
    conv_lhs => rw [← List.take_append_drop n m.cells, List.filter_append, hnone, List.append_nil]
  refine ⟨((m.cells.take n).filter fun c => c.saved.isSome).map Cell.record, ?_, ?_⟩
  · have hsub : List.Sublist (((m.cells.take n).filter fun c => c.saved.isSome).map Cell.record) (m.records.take n) := by
      rw [StoreState.records, ← List.map_take]
      exact List.filter_sublist.map _
    rcases hcut with rfl | ⟨cut, hprefix, hbytes, hlines⟩
    · rw [List.take_zero, List.filter_nil, List.map_nil]
      exact List.nil_subperm
    · obtain ⟨more, hload⟩ := load_cut codec hprefix hlines
      rw [hbytes, hload]
      exact (hsub.trans (List.sublist_append_left _ more)).subperm
  · rw [hkept, List.forall₂_map_right_iff]
    exact List.forall₂_same.2 fun c _ => .inr ⟨⟨k, rfl⟩, rfl⟩

theorem farEnough_whole (m : StoreState R) : FarEnough codec m (.crashInSave (fileOf codec m.records).size : StoreEvent Op) := by
  refine ⟨m.cells.length, fun c hc => ?_, .inr ⟨_, List.prefix_refl _, ByteArray.extract_zero_size, ?_⟩⟩
  · rw [List.drop_length] at hc
    exact absurd hc List.not_mem_nil
  · have hall : m.records.take m.cells.length = m.records := List.take_of_length_le (by rw [StoreState.records, List.length_map])
    simp only [hall, List.prefix_refl]

theorem farEnough_first (hrecords : m.records = [a, b]) (hnew : ∀ c ∈ m.cells.drop 1, c.saved = none) :
    FarEnough codec m (.crashInSave (encode (codec.print a)).size : StoreEvent Op) := by
  have htext : textOf codec [a, b] = codec.print a ++ '\n' :: codec.print b := by
    simp [textOf, Text.join, List.intercalate]
  refine ⟨1, hnew, .inr ⟨codec.print a, ?_, ?_, ?_⟩⟩
  · rw [hrecords, htext]
    exact List.prefix_append _ _
  · rw [hrecords, fileOf, htext]
    exact extract_encode _ _
  · have hline : textOf codec [a] = codec.print a := by simp [textOf, Text.join, List.intercalate]
    simp only [hrecords, List.take_succ_cons, List.take_zero, hline, List.prefix_refl]

/-! ## Runs -/

theorem historySurvives (h : Guarded (stepHistory codec edit) (FarEnough codec) (.init codec file) events) : HistorySurvives codec edit file events := by
  rintro pre e post rfl hcrash
  have hdisk : OnDisk codec (run (stepHistory codec edit) (.init codec file) pre) :=
    run_inv (I := OnDisk codec) (fun _ e _ hm => onDisk_step codec edit hm e) (guarded_left h) (onDisk_init codec file)
  have hfar := guarded_at h
  rw [run_snoc]
  rcases hcrash with rfl | ⟨k, rfl⟩
  · rw [records_crash]
    exact survives_crash codec hdisk
  · rw [records_crashInSave]
    exact survives_crashInSave codec hfar

/-! ## Two lists -/

/-- The records in memory, and those that the file gives back. -/
def stepLists (apply : Op → List R → List R) (m : List R × List R) : StoreEvent Op → List R × List R
  | .mutate op => (apply op m.1, m.2)
  | .save => (m.1, m.1)
  | .crash => (m.2, m.2)
  | .crashInSave k =>
    let left := load codec (some ((fileOf codec m.1).extract 0 k))
    (left, left)

def StoreState.lists (m : StoreState R) : List R × List R := (m.records, load codec m.disk)

theorem lists_step (m : StoreState R) (e : StoreEvent Op) : (stepHistory codec edit m e).lists codec =
    stepLists codec (fun op => (edit op).apply) (m.lists codec) e := by
  cases e with
  | mutate op => exact congrArg (·, load codec m.disk) (map_record_onCells (edit op) m.cells)
  | save =>
    have hrecords : (m.records.map Cell.fresh).map Cell.record = m.records := by
      rw [List.map_map]
      exact List.map_id _
    exact Prod.ext hrecords (load_fileOf codec m.records)
  | crash => exact Prod.ext (records_crash codec edit m) rfl
  | crashInSave k => exact Prod.ext (records_crashInSave codec edit m k) rfl

theorem lists_run (file : Option ByteArray) (events : List (StoreEvent Op)) :
    (run (stepHistory codec edit) (.init codec file) events).lists codec =
      run (stepLists codec fun op => (edit op).apply) (load codec file, load codec file) events := by
  have hstart : (StoreState.init codec file).lists codec = (load codec file, load codec file) :=
    Prod.ext (records_init codec file) rfl
  rw [run_sim (g := id) (lists_step codec edit), List.map_id, hstart]

end

/-- **Histories survive crashes** whose rewrite has come far enough. -/
theorem crashes_survived (jobs : LineCodec JobMeta) (timeline : LineCodec StoredEntry) (jobsFile timelineFile : Option ByteArray)
    (jobEvents : List (StoreEvent JobOp)) (timelineEvents : List (StoreEvent TimelineOp))
    (hjobs : Guarded (stepHistory jobs JobOp.edit) (FarEnough jobs) (.init jobs jobsFile) jobEvents)
    (htimeline : Guarded (stepHistory timeline TimelineOp.edit) (FarEnough timeline) (.init timeline timelineFile) timelineEvents) :
    HistorySurvives jobs JobOp.edit jobsFile jobEvents ∧
      HistorySurvives timeline TimelineOp.edit timelineFile timelineEvents :=
  ⟨historySurvives jobs JobOp.edit hjobs, historySurvives timeline TimelineOp.edit htimeline⟩

def sampleJob : JobMeta := JobMeta.new "job" .dump "connection" "shop" ""

def sampleEntry (id : String) : StoredEntry :=
  { id := id, profileId := "profile", kind := .updateMany, createdAt := "", rollbackScript := some "[]" }

/-- A job is done, and the process dies when it has written that, and once more. -/
def doneJob : List (StoreEvent JobOp) :=
  [.mutate (.createJob sampleJob), .save, .mutate (.updateStatus "job" .done "" ""),
    .crashInSave (fileOf jobLines [sampleJob.withStatus .done "" ""]).size, .crash]

/-- The process dies when it has written the entry that was there before the last. -/
def lateAppend : List (StoreEvent TimelineOp) :=
  [.mutate (.appendBatch [sampleEntry "a"]), .save, .mutate (.appendBatch [sampleEntry "b"]),
    .crashInSave (encode (entryLines.print (sampleEntry "a"))).size]

theorem late_crashes_survived :
    HistorySurvives jobLines JobOp.edit none doneJob ∧ HistorySurvives entryLines TimelineOp.edit none lateAppend := by
  refine crashes_survived jobLines entryLines none none _ _ ⟨trivial, trivial, trivial, ?_, trivial, trivial⟩
    ⟨trivial, trivial, trivial, ?_, trivial⟩
  · exact farEnough_whole jobLines _
  · exact farEnough_first entryLines rfl fun c hc => by rw [List.mem_singleton.1 hc]

/-- The second entry is appended and the process dies when the file is empty: the first entry and its rollback script are lost. -/
theorem truncated_timeline_lost : ¬ ∀ (jobs : LineCodec JobMeta) (timeline : LineCodec StoredEntry)
    (jobsFile timelineFile : Option ByteArray) (jobEvents : List (StoreEvent JobOp)) (timelineEvents : List (StoreEvent TimelineOp)),
    HistorySurvives jobs JobOp.edit jobsFile jobEvents ∧
      HistorySurvives timeline TimelineOp.edit timelineFile timelineEvents := by
  intro h
  obtain ⟨kept, hsub, hkept⟩ := (h jobLines entryLines none none [] _).2
    [.mutate (.appendBatch [sampleEntry "a"]), .save, .mutate (.appendBatch [sampleEntry "b"])] (.crashInSave 0) [] rfl (.inr ⟨0, rfl⟩)
  have hempty : (run (stepHistory entryLines TimelineOp.edit) (.init entryLines none)
      [.mutate (.appendBatch [sampleEntry "a"]), .save, .mutate (.appendBatch [sampleEntry "b"]), .crashInSave 0]).records = [] := by
    rw [run_cons, run_cons, run_cons, run_cons, run_nil, records_crashInSave]
    have hcut := load_encode entryLines []
    rw [← extract_encode []] at hcut
    exact hcut
  rw [List.cons_append, List.cons_append, List.cons_append, List.nil_append, hempty, List.subperm_nil] at hsub
  rw [hsub] at hkept
  have hlen := hkept.length_eq
  exact absurd hlen (by decide)

end History
