import NosqlBuddy.ImportExport.ImportSources

/-!
# The pipeline

| here | there |
| --- | --- |
| `DocumentSink`, `JobContext`, `JobReport` | `core.rs:42`, `:60`, `:96` |

A failing `abort` is left out: those of the sinks report none. So are the progress events.
-/

namespace ImportExport
open Oplog (Bson Document)

abbrev Transform := Document → Except AppError (Option Document)

structure JobContext where
  jobId : String
  /-- The number of the first load of the flag that finds it set. -/
  cancelAt : Option Nat
  maxErrors : Nat
  maxErrorSamples : Nat

structure JobReport where
  jobId : String
  processed : Nat
  errors : Nat
  cancelled : Bool
  rowErrors : List RowError

/-- What is sent through the pipeline. -/
structure Job where
  transforms : List Transform
  rows : List RowResult
  sourceFault : Option AppError
  ctx : JobContext

structure DocumentSink (σ : Type) where
  start : σ → Option AppError × σ
  /-- `write`, for the document of a row. -/
  write : Nat → Document → σ → Option AppError × σ
  finish : σ → Option AppError × σ
  abort : σ → σ

/-! ## One run -/

section
variable {σ : Type} (sink : DocumentSink σ) (J : Job)

structure Counts where
  processed : Nat
  errors : Nat
  rowErrors : List RowError

def Counts.error (c : Counts) (e : RowError) : Counts :=
  { c with
    errors := c.errors + 1
    rowErrors := if c.rowErrors.length < J.ctx.maxErrorSamples then c.rowErrors ++ [e] else c.rowErrors }

def applyTransforms : List Transform → Document → Except AppError (Option Document)
  | [], doc => .ok (some doc)
  | t :: ts, doc =>
    match t doc with
    | .error e => .error e
    | .ok none => .ok none
    | .ok (some doc) => applyTransforms ts doc

/-- The `match` on the row (core.rs:135). -/
def handleRow (row : RowResult) (c : Counts) (s : σ) : Option AppError × Counts × σ :=
  match row with
  | .doc doc =>
    match applyTransforms J.transforms doc with
    | .error e => (none, c.error J ⟨some (c.processed + 1), e.display⟩, s)
    | .ok none => (none, c, s)
    | .ok (some doc) => ((sink.write c.processed doc s).1, c, (sink.write c.processed doc s).2)
  | .skipped => (none, c, s)
  | .error e => (none, c.error J e, s)

/-- The flag is set when it is loaded for the n-th time, from 0 on. -/
def CancelledAt (n : Nat) : Prop := ∃ k, J.ctx.cancelAt = some k ∧ k ≤ n

instance (n : Nat) : Decidable (CancelledAt J n) :=
  match h : J.ctx.cancelAt with
  | some k => decidable_of_iff (k ≤ n) ⟨fun hk => ⟨k, h, hk⟩, fun ⟨_, hk', hle⟩ => Option.some.inj (h.symm.trans hk') ▸ hle⟩
  | none => isFalse fun ⟨_, hk, _⟩ => by rw [h] at hk; cases hk

/-- The loop; the flag is loaded once for each row and once at the end (core.rs:124). An error was answered with `abort`. -/
def pipelineLoop : List RowResult → Counts → σ → Option AppError × Counts × σ
  | [], c, s =>
    if CancelledAt J c.processed then (none, c, s)
    else
      match J.sourceFault with
      | some e => (some e, c, sink.abort s)
      | none => (none, c, s)
  | row :: rows, c, s =>
    if CancelledAt J c.processed then (none, c, s)
    else
      match handleRow sink J row c s with
      | (some e, c, s) => (some e, c, sink.abort s)
      | (none, c, s) =>
        if J.ctx.maxErrors < c.errors then
          (some (.validation ("Job aborted: error count exceeded maximum of " ++ toString J.ctx.maxErrors)),
            { c with processed := c.processed + 1 }, sink.abort s)
        else pipelineLoop rows { c with processed := c.processed + 1 } s

def Counts.report (c : Counts) (cancelled : Bool) : JobReport := ⟨J.ctx.jobId, c.processed, c.errors, cancelled, c.rowErrors⟩

/-- `run_pipeline` (core.rs:106), but for the progress events. -/
def runPipeline (s : σ) : Except AppError JobReport × σ :=
  match sink.start s with
  | (some e, s) => (.error e, s)
  | (none, s) =>
    match pipelineLoop sink J J.rows ⟨0, 0, []⟩ s with
    | (some e, _, s) => (.error e, s)
    | (none, c, s) =>
      if CancelledAt J (c.processed + 1) then (.ok (c.report J true), sink.abort s)
      else
        match sink.finish s with
        | (some e, s) => (.error e, s)
        | (none, s) => (.ok (c.report J false), s)

theorem CancelledAt.mono {J : Job} {n m : Nat} (h : CancelledAt J n) (hle : n ≤ m) : CancelledAt J m := by
  obtain ⟨k, hk, hn⟩ := h
  exact ⟨k, hk, Nat.le_trans hn hle⟩

/-! ## Invariants of the sink -/

/-- A document that the transforms make of a row. -/
def Written (J : Job) (doc : Document) : Prop := ∃ row, .doc row ∈ J.rows ∧ applyTransforms J.transforms row = .ok (some doc)

variable {sink J} {I : σ → Prop}

theorem pipelineLoop_inv (hwrite : ∀ n doc s, Written J doc → I s → I (sink.write n doc s).2) (habort : ∀ s, I s → I (sink.abort s)) :
    ∀ (rows : List RowResult), (∀ row ∈ rows, row ∈ J.rows) → ∀ (c : Counts) (s : σ), I s → I (pipelineLoop sink J rows c s).2.2
  | [], _, c, s, h => by
    rw [pipelineLoop]
    split
    · exact h
    · split
      · exact habort s h
      · exact h
  | row :: rows, hrows, c, s, h => by
    have hrow : I (handleRow sink J row c s).2.2 := by
      unfold handleRow
      split
      · next doc =>
        split
        · exact h
        · exact h
        · next out hout => exact hwrite _ out s ⟨doc, hrows _ List.mem_cons_self, hout⟩ h
      · exact h
      · exact h
    rw [pipelineLoop]
    split
    · exact h
    · rcases hr : handleRow sink J row c s with ⟨_ | e, c', s'⟩
      · rw [hr] at hrow
        dsimp only
        split
        · exact habort s' hrow
        · exact pipelineLoop_inv hwrite habort rows (fun r hr => hrows r (List.mem_cons_of_mem _ hr)) _ s' hrow
      · rw [hr] at hrow
        exact habort s' hrow

/-- **What every call of the sink keeps is kept by the whole run**, however it ends. -/
theorem runPipeline_inv (hstart : ∀ s, I s → I (sink.start s).2) (hwrite : ∀ n doc s, Written J doc → I s → I (sink.write n doc s).2)
    (hfinish : ∀ s, I s → I (sink.finish s).2) (habort : ∀ s, I s → I (sink.abort s)) (h : I s) : I (runPipeline sink J s).2 := by
  have hs := hstart s h
  unfold runPipeline
  rcases hstarted : sink.start s with ⟨_ | e, s₁⟩
  · rw [hstarted] at hs
    have hloop := pipelineLoop_inv hwrite habort J.rows (fun _ hr => hr) ⟨0, 0, []⟩ s₁ hs
    dsimp only
    rcases hl : pipelineLoop sink J J.rows ⟨0, 0, []⟩ s₁ with ⟨_ | e, c, s₂⟩
    · rw [hl] at hloop
      dsimp only
      split
      · exact habort s₂ hloop
      · have hf := hfinish s₂ hloop
        rcases hfin : sink.finish s₂ with ⟨_ | e, s₃⟩
        · rwa [hfin] at hf
        · rwa [hfin] at hf
    · rwa [hl] at hloop
  · rwa [hstarted] at hs

end

end ImportExport
