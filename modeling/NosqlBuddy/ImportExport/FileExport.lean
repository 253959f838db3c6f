import NosqlBuddy.ImportExport.DumpPaths
import NosqlBuddy.ImportExport.FieldMapping
import NosqlBuddy.ImportExport.Pipeline

/-!
# Exports to a file

| here | there |
| --- | --- |
| `startChunks`, `docChunks`, `finishChunks` | what `JsonSink`, `CsvSink` and `BsonSink` write (json.rs:63, csv.rs:61, bson_sink.rs:31) |
| `Faults` | the I/O steps that fail, with their errors |

A sink that fails in `start` or `finish` is dropped, which leaves the `.part` file, and so does a compressor that cannot be
finished. Every other failure is cleaned up (`exportFile_iff`).
-/

namespace ImportExport
open Oplog (Bson Document)
open FieldMapping (getBsonPath)

/-! ## Files and their faults -/

/-- The file at the final path and the one beside it. -/
structure Disk where
  final : Option (List UInt8)
  part : Option (List UInt8)

inductive IoStep where
  | create
  | startWrite
  | docWrite (row chunk : Nat)
  | finishWrite
  | compress
  | flush
  | sync
  | rename
deriving DecidableEq, Repr

abbrev Faults := IoStep → Option String

inductive JsonShape where
  | array
  | ndjson
deriving DecidableEq, Repr

inductive SinkKind where
  | json (shape : JsonShape) (canonical : Bool)
  | csv (columns : List String) (delimiter : UInt8) (writeHeaders : Bool)
  | bson

structure SinkCodec extends CellCodec where
  encodeJson : Bool → Document → List UInt8
  encodeRecord : UInt8 → List (List Char) → Except AppError (List UInt8)
  toVec : Document → Except String (List UInt8)
  compress : CompressionKind → List UInt8 → List UInt8

/-- What is exported, and how. -/
structure ExportJob extends Job where
  compression : CompressionKind
  sink : SinkKind

inductive SinkCall where
  | start
  | write
  | finish
  | abort
deriving DecidableEq, Repr

structure Export where
  disk : Disk
  /-- What was written so far, before it is compressed. -/
  raw : List UInt8
  wroteFirst : Bool
  calls : List SinkCall

def Export.call (s : Export) (c : SinkCall) : Export := { s with calls := s.calls ++ [c] }

/-! ## Sinks -/

variable {s : Export} {c : Counts} {row : RowResult} {rows : List RowResult}

section
variable (C : SinkCodec)

def startChunks : SinkKind → Except AppError (List (List UInt8))
  | .json .array _ => .ok [[openBracket]]
  | .json .ndjson _ => .ok []
  | .csv columns delimiter writeHeaders =>
    if writeHeaders then (C.encodeRecord delimiter (columns.map String.toList)).map fun bytes => [bytes] else .ok []
  | .bson => .ok []

def docChunks (sink : SinkKind) (first : Bool) (doc : Document) : Except AppError (List (List UInt8)) :=
  match sink with
  | .json .array canonical => .ok [if first then [0x0A, 0x20, 0x20] else [comma, 0x0A, 0x20, 0x20], C.encodeJson canonical doc]
  | .json .ndjson canonical => .ok [C.encodeJson canonical doc, [newline]]
  | .csv columns delimiter _ =>
    (C.encodeRecord delimiter (columns.map fun col => csvCell C.toCellCodec (getBsonPath doc col))).map fun bytes => [bytes]
  | .bson =>
    match C.toVec doc with
    | .error e => .error (.invalidBson e)
    | .ok bytes => .ok [bytes]

def finishChunks (sink : SinkKind) (wroteFirst : Bool) : List (List UInt8) :=
  match sink with
  | .json .array _ => [if wroteFirst then [0x0A, closeBracket, 0x0A] else [closeBracket, 0x0A]]
  | _ => []

variable (F : Faults) (J : ExportJob)

/-- The bytes reach the file, or the compressor in front of it. -/
def Export.append (s : Export) (bytes : List UInt8) : Export :=
  { s with
    raw := s.raw ++ bytes
    disk := { s.disk with part := if J.compression = .none then some (s.raw ++ bytes) else s.disk.part } }

def writeError (e : String) : AppError :=
  if J.compression = .none then .io e else .io ("compression write failed: io error: " ++ e)

/-- `write_all` for one chunk after the other. -/
def writeChunks (step : Nat → IoStep) : Nat → List (List UInt8) → Export → Option AppError × Export
  | _, [], s => (none, s)
  | i, bytes :: chunks, s =>
    match F (step i) with
    | some e => (some (writeError J e), s)
    | none => writeChunks step (i + 1) chunks (s.append J bytes)

/-- `start` of the sink. -/
def sinkStart (s : Export) : Option AppError × Export :=
  match startChunks C J.sink with
  | .error e => (some e, s.call .start)
  | .ok chunks => writeChunks F J (fun _ => .startWrite) 0 chunks (s.call .start)

/-- `write` of the sink, for the document of a row. -/
def sinkWrite (row : Nat) (doc : Document) (s : Export) : Option AppError × Export :=
  match docChunks C J.sink (!s.wroteFirst) doc with
  | .error e => (some e, s.call .write)
  | .ok chunks =>
    match writeChunks F J (.docWrite row) 0 chunks (s.call .write) with
    | (some e, s) => (some e, s)
    | (none, s) => (none, { s with wroteFirst := true })

/-- `AtomicFileWriter::commit` (io_util.rs:127). -/
def commit (disk : Disk) : Option AppError × Disk :=
  match F .flush with
  | some e => (some (.io e), disk)
  | none =>
    match F .sync with
    | some e => (some (.io e), disk)
    | none =>
      match F .rename with
      | some e => (some (.io e), disk)
      | none => (none, ⟨disk.part, none⟩)

/-- `finish` of the compressor, if there is one, and the commit (io_util.rs:346). -/
def commitSink (s : Export) : Option AppError × Export :=
  if J.compression = .none then ((commit F s.disk).1, { s with disk := (commit F s.disk).2 })
  else
    match F .compress with
    | some e => (some (.io ((if J.compression = .gzip then "gzip finish: " else "zstd finish: ") ++ e)), s)
    | none =>
      let disk := { s.disk with part := some (C.compress J.compression s.raw) }
      ((commit F disk).1, { s with disk := (commit F disk).2 })

/-- `finish` of the sink. -/
def sinkFinish (s : Export) : Option AppError × Export :=
  match writeChunks F J (fun _ => .finishWrite) 0 (finishChunks J.sink s.wroteFirst) (s.call .finish) with
  | (some e, s) => (some e, s)
  | (none, s) => commitSink C F J s

/-- `abort` of the sink (io_util.rs:357): a compressor that cannot be finished takes the file with it. -/
def abort (s : Export) : Export :=
  if J.compression = .none then { s.call .abort with disk := { s.disk with part := none } }
  else
    match F .compress with
    | some _ => s.call .abort
    | none => { s.call .abort with disk := { s.disk with part := none } }

def fileSink : DocumentSink Export := ⟨sinkStart C F J, sinkWrite C F J, sinkFinish C F J, abort F J⟩

@[simp] theorem fileSink_start : (fileSink C F J).start = sinkStart C F J := rfl
@[simp] theorem fileSink_write : (fileSink C F J).write = sinkWrite C F J := rfl
@[simp] theorem fileSink_finish : (fileSink C F J).finish = sinkFinish C F J := rfl
@[simp] theorem fileSink_abort : (fileSink C F J).abort = abort F J := rfl

/-- The export to a file. -/
def exportFile (disk : Disk) : Except AppError JobReport × Export :=
  match F .create with
  | some e => (.error (.io e), ⟨disk, [], false, []⟩)
  | none => runPipeline (fileSink C F J) J.toJob ⟨{ disk with part := some [] }, [], false, []⟩

/-! ## All or nothing -/

/-- The document that a row is written as. -/
def delivered (row : RowResult) : Option Document :=
  match row with
  | .doc doc => ((applyTransforms J.transforms doc).toOption).join
  | _ => none

/-- The row counts as an error. -/
def failed (row : RowResult) : Bool :=
  match row with
  | .doc doc => (applyTransforms J.transforms doc).toOption.isNone
  | .skipped => false
  | .error _ => true

/-- The documents one after the other. -/
def docsText (sink : SinkKind) : Bool → List Document → Except AppError (List UInt8)
  | _, [] => .ok []
  | first, doc :: docs =>
    match docChunks C sink first doc with
    | .error e => .error e
    | .ok chunks => (docsText sink false docs).map fun text => chunks.flatten ++ text

/-- The text of the file before compression: the head, the documents and the end. -/
def fileText (sink : SinkKind) (docs : List Document) : Except AppError (List UInt8) :=
  match startChunks C sink with
  | .error e => .error e
  | .ok chunks => (docsText C sink true docs).map fun text =>
      chunks.flatten ++ (text ++ (finishChunks sink (docs ≠ [])).flatten)

def stored (raw : List UInt8) : List UInt8 := if J.compression = .none then raw else C.compress J.compression raw

/-- The outcome of an export: the whole file and the counts, or what was there before. -/
def Outcome (before : Disk) (result : Except AppError JobReport) (after : Disk) : Prop :=
  match result with
  | .ok report =>
    if report.cancelled then after.final = before.final ∧ after.part = none
    else (∃ text, fileText C J.sink (J.rows.filterMap (delivered J)) = .ok text ∧ after.final = some (stored C J text)) ∧
      after.part = none ∧ report.processed = J.rows.length ∧ report.errors = J.rows.countP (failed J)
  | .error _ => after.final = before.final ∧ after.part = none

def AllOrNothing (before : Disk) (result : Except AppError JobReport × Export) : Prop :=
  Outcome C J before result.1 result.2.disk ∧ ¬ (.finish ∈ result.2.calls ∧ .abort ∈ result.2.calls)

/-- The sink starts: the head is encoded and written. -/
def Starts : Prop := ∃ chunks, startChunks C J.sink = .ok chunks ∧ (chunks ≠ [] → F .startWrite = none)

/-- The document of a row is encoded, and none of its writes fails. -/
def RowWritten (n : Nat) (row : RowResult) : Prop := ∀ doc, delivered J row = some doc →
  ∃ chunks, docChunks C J.sink true doc = .ok chunks ∧ ∀ i < chunks.length, F (.docWrite n i) = none

/-- Nothing keeps the rows from being exported: no cancellation, no error of the source, not too many errors of rows, and
every document is written. -/
structure Completes : Prop where
  notCancelled : ¬ CancelledAt J.toJob (J.rows.length + 1)
  source : J.sourceFault = none
  errors : J.rows.countP (failed J) ≤ J.ctx.maxErrors
  written : ∀ n row, J.rows[n]? = some row → RowWritten C F J n row

/-- The compressor can be finished, if there is one. -/
def Compresses : Prop := J.compression ≠ .none → F .compress = none

/-- The end is written, and the file reaches its place. -/
def Commits : Prop :=
  (finishChunks J.sink true ≠ [] → F .finishWrite = none) ∧ F .flush = none ∧ F .sync = none ∧ F .rename = none

/-! ## Steps of the export -/

/-- The export is under way: the file is as it was, and the `.part` file holds what no compressor keeps back. -/
structure Opened (before : Disk) (s : Export) : Prop where
  final : s.disk.final = before.final
  part : s.disk.part.isSome
  plain : J.compression = .none → s.disk.part = some s.raw

variable {before : Disk}

theorem opened_call (h : Opened J before s) (c : SinkCall) : Opened J before (s.call c) :=
  ⟨h.final, h.part, h.plain⟩

theorem opened_append (h : Opened J before s) (bytes : List UInt8) : Opened J before (s.append J bytes) where
  final := h.final
  part := by
    simp only [Export.append]
    split
    · rfl
    · exact h.part
  plain hk := by simp only [Export.append, if_pos hk]

theorem writeChunks_opened (step : Nat → IoStep) (chunks : List (List UInt8)) :
    ∀ (i : Nat) {s : Export}, Opened J before s → Opened J before (writeChunks F J step i chunks s).2 := by
  induction chunks with
  | nil => exact fun _ _ h => h
  | cons bytes chunks ih =>
    intro i s h
    simp only [writeChunks]
    cases F (step i) with
    | some e => exact h
    | none => exact ih (i + 1) (opened_append J h bytes)

@[simp] theorem writeChunks_calls (step : Nat → IoStep) (chunks : List (List UInt8)) :
    ∀ (i : Nat) (s : Export), (writeChunks F J step i chunks s).2.calls = s.calls := by
  induction chunks with
  | nil => exact fun _ _ => rfl
  | cons bytes chunks ih =>
    intro i s
    simp only [writeChunks]
    cases F (step i) with
    | some e => rfl
    | none => exact ih (i + 1) (s.append J bytes)

@[simp] theorem writeChunks_wroteFirst (step : Nat → IoStep) (chunks : List (List UInt8)) :
    ∀ (i : Nat) (s : Export), (writeChunks F J step i chunks s).2.wroteFirst = s.wroteFirst := by
  induction chunks with
  | nil => exact fun _ _ => rfl
  | cons bytes chunks ih =>
    intro i s
    simp only [writeChunks]
    cases F (step i) with
    | some e => rfl
    | none => exact ih (i + 1) (s.append J bytes)

theorem writeChunks_none_iff (step : Nat → IoStep) (chunks : List (List UInt8)) : ∀ (i : Nat) (s : Export),
    (writeChunks F J step i chunks s).1 = none ↔ ∀ j < chunks.length, F (step (i + j)) = none := by
  induction chunks with
  | nil => simp [writeChunks]
  | cons bytes chunks ih =>
    intro i s
    simp only [writeChunks]
    cases hf : F (step i) with
    | some e =>
      refine iff_of_false (by simp) fun h => ?_
      have := h 0 (by simp)
      simp [hf] at this
    | none =>
      rw [ih (i + 1) (s.append J bytes)]
      constructor
      · intro h j hj
        cases j with
        | zero => exact hf
        | succ j => simpa [Nat.add_assoc, Nat.add_comm 1 j] using h j (by simpa using hj)
      · intro h j hj
        simpa [Nat.add_assoc, Nat.add_comm 1 j] using h (j + 1) (by simpa using hj)

theorem writeChunks_raw (step : Nat → IoStep) (chunks : List (List UInt8)) : ∀ (i : Nat) (s : Export),
    (writeChunks F J step i chunks s).1 = none → (writeChunks F J step i chunks s).2.raw = s.raw ++ chunks.flatten := by
  induction chunks with
  | nil => simp [writeChunks]
  | cons bytes chunks ih =>
    intro i s
    simp only [writeChunks]
    cases F (step i) with
    | some e => simp
    | none =>
      intro h
      rw [ih (i + 1) (s.append J bytes) h]
      simp [Export.append]

theorem docChunks_first (sink : SinkKind) (first first' : Bool) (doc : Document) (h : docChunks C sink first doc = .ok chunks) :
    ∃ chunks', docChunks C sink first' doc = .ok chunks' ∧ chunks'.length = chunks.length := by
  cases sink with
  | json shape canonical =>
    cases shape <;> simp only [docChunks, Except.ok.injEq] at h ⊢ <;> exact ⟨_, rfl, by simp [← h]⟩
  | csv columns delimiter writeHeaders => exact ⟨chunks, h, rfl⟩
  | bson => exact ⟨chunks, h, rfl⟩

theorem finishChunks_empty_iff (sink : SinkKind) (wroteFirst wroteFirst' : Bool) :
    finishChunks sink wroteFirst = [] ↔ finishChunks sink wroteFirst' = [] := by
  cases sink with
  | json shape canonical => cases shape <;> simp [finishChunks]
  | csv columns delimiter writeHeaders => exact Iff.rfl
  | bson => exact Iff.rfl

/-! ## The sinks -/

theorem sinkStart_opened (h : Opened J before s) : Opened J before (sinkStart C F J s).2 := by
  unfold sinkStart
  cases startChunks C J.sink with
  | error e => exact opened_call J h .start
  | ok chunks => exact writeChunks_opened F J _ chunks 0 (opened_call J h .start)

@[simp] theorem sinkStart_calls (s : Export) : (sinkStart C F J s).2.calls = s.calls ++ [.start] := by
  unfold sinkStart
  cases startChunks C J.sink with
  | error e => rfl
  | ok chunks => simp [Export.call]

@[simp] theorem sinkStart_wroteFirst (s : Export) : (sinkStart C F J s).2.wroteFirst = s.wroteFirst := by
  unfold sinkStart
  cases startChunks C J.sink with
  | error e => rfl
  | ok chunks => simp [Export.call]

theorem sinkStart_none_iff (s : Export) : (sinkStart C F J s).1 = none ↔ Starts C F J := by
  unfold sinkStart Starts
  cases startChunks C J.sink with
  | error e => simp
  | ok chunks =>
    simp only [writeChunks_none_iff, Except.ok.injEq, exists_eq_left']
    constructor
    · exact fun h hne => h 0 (List.length_pos_iff.2 hne)
    · exact fun h j hj => h (List.ne_nil_of_length_pos (Nat.zero_lt_of_lt hj))

theorem sinkStart_raw (h : (sinkStart C F J s).1 = none) :
    ∃ chunks, startChunks C J.sink = .ok chunks ∧ (sinkStart C F J s).2.raw = s.raw ++ chunks.flatten := by
  unfold sinkStart at h ⊢
  cases hc : startChunks C J.sink with
  | error e => simp [hc] at h
  | ok chunks =>
    simp only [hc] at h
    exact ⟨chunks, rfl, writeChunks_raw F J _ chunks 0 _ h⟩

theorem sinkWrite_eq (row : Nat) (h : docChunks C J.sink (!s.wroteFirst) doc = .ok chunks) :
    let r := writeChunks F J (.docWrite row) 0 chunks (s.call .write)
    sinkWrite C F J row doc s = (r.1, { r.2 with wroteFirst := r.2.wroteFirst || r.1.isNone }) := by
  simp only [sinkWrite, h]
  cases writeChunks F J (.docWrite row) 0 chunks (s.call .write) with
  | mk error s' => cases error <;> simp

theorem sinkWrite_opened (row : Nat) (doc : Document) (h : Opened J before s) :
    Opened J before (sinkWrite C F J row doc s).2 := by
  cases hd : docChunks C J.sink (!s.wroteFirst) doc with
  | error e =>
    simp only [sinkWrite, hd]
    exact opened_call J h .write
  | ok chunks =>
    rw [sinkWrite_eq C F J row hd]
    have hw := writeChunks_opened F J (.docWrite row) chunks 0 (opened_call J h .write)
    exact ⟨hw.final, hw.part, hw.plain⟩

@[simp] theorem sinkWrite_calls (row : Nat) (doc : Document) (s : Export) :
    (sinkWrite C F J row doc s).2.calls = s.calls ++ [.write] := by
  cases hd : docChunks C J.sink (!s.wroteFirst) doc with
  | error e => simp only [sinkWrite, hd, Export.call]
  | ok chunks =>
    rw [sinkWrite_eq C F J row hd]
    exact writeChunks_calls F J (.docWrite row) chunks 0 (s.call .write)

theorem sinkWrite_none_iff (row : Nat) (doc : Document) (s : Export) : (sinkWrite C F J row doc s).1 = none ↔
    ∃ chunks, docChunks C J.sink true doc = .ok chunks ∧ ∀ i < chunks.length, F (.docWrite row i) = none := by
  cases hd : docChunks C J.sink (!s.wroteFirst) doc with
  | error e =>
    refine iff_of_false (by simp [sinkWrite, hd]) ?_
    rintro ⟨chunks, hc, -⟩
    obtain ⟨chunks', hc', -⟩ := docChunks_first C J.sink true (!s.wroteFirst) doc hc
    rw [hd] at hc'
    cases hc'
  | ok chunks =>
    obtain ⟨chunks', hc', hlen⟩ := docChunks_first C J.sink (!s.wroteFirst) true doc hd
    rw [sinkWrite_eq C F J row hd]
    simp only [hc', Except.ok.injEq, exists_eq_left', hlen, writeChunks_none_iff, Nat.zero_add]

theorem sinkWrite_raw (row : Nat) (doc : Document) (h : (sinkWrite C F J row doc s).1 = none) :
    ∃ chunks, docChunks C J.sink (!s.wroteFirst) doc = .ok chunks ∧
      (sinkWrite C F J row doc s).2.raw = s.raw ++ chunks.flatten ∧ (sinkWrite C F J row doc s).2.wroteFirst = true := by
  cases hd : docChunks C J.sink (!s.wroteFirst) doc with
  | error e => simp [sinkWrite, hd] at h
  | ok chunks =>
    rw [sinkWrite_eq C F J row hd] at h ⊢
    refine ⟨chunks, rfl, writeChunks_raw F J (.docWrite row) chunks 0 (s.call .write) h, ?_⟩
    have hn : (writeChunks F J (.docWrite row) 0 chunks (s.call .write)).1 = none := h
    simp [hn]

/-! ## A row -/

theorem delivered_doc (doc : Document) : delivered J (.doc doc) = ((applyTransforms J.transforms doc).toOption).join := rfl

/-- What a row that went through did: the counts, and the bytes that were written. -/
structure RowDone (row : RowResult) (c : Counts) (s : Export) (c' : Counts) (s' : Export) : Prop where
  processed : c'.processed = c.processed
  errors : c'.errors = c.errors + if failed J row then 1 else 0
  text : ∃ text, docsText C J.sink (!s.wroteFirst) (delivered J row).toList = .ok text ∧ s'.raw = s.raw ++ text
  wroteFirst : s'.wroteFirst = (s.wroteFirst || (delivered J row).isSome)

theorem rowDone_of_not_delivered (hd : delivered J row = none) (s : Export)
    (hp : c'.processed = c.processed) (he : c'.errors = c.errors + if failed J row then 1 else 0) :
    RowDone C J row c s c' s where
  processed := hp
  errors := he
  text := ⟨[], by rw [hd]; exact ⟨rfl, (List.append_nil _).symm⟩⟩
  wroteFirst := by rw [hd]; simp

theorem handleRow_cases (row : RowResult) (c : Counts) (h : Opened J before s) :
    let r := handleRow (fileSink C F J) J.toJob row c s
    Opened J before r.2.2 ∧ (.finish ∈ r.2.2.calls ↔ .finish ∈ s.calls) ∧ (.abort ∈ r.2.2.calls ↔ .abort ∈ s.calls) ∧
      ((r.1 = none ∧ RowWritten C F J c.processed row ∧ RowDone C J row c s r.2.1 r.2.2) ∨
        (r.1.isSome ∧ ¬ RowWritten C F J c.processed row)) := by
  have hnone : delivered J row = none → RowWritten C F J c.processed row := by
    intro hd doc h
    rw [hd] at h
    cases h
  cases row with
  | skipped => exact ⟨h, Iff.rfl, Iff.rfl, .inl ⟨rfl, hnone rfl, rowDone_of_not_delivered C J rfl s rfl rfl⟩⟩
  | error e => exact ⟨h, Iff.rfl, Iff.rfl, .inl ⟨rfl, hnone rfl, rowDone_of_not_delivered C J rfl s rfl rfl⟩⟩
  | doc doc =>
    simp only [delivered_doc] at hnone
    simp only [handleRow]
    cases ht : applyTransforms J.transforms doc with
    | error e =>
      rw [ht] at hnone
      have hd : delivered J (.doc doc) = none := by rw [delivered_doc, ht]; rfl
      have hf : failed J (.doc doc) = true := by simp [failed, ht, Except.toOption]
      exact ⟨h, Iff.rfl, Iff.rfl, .inl ⟨rfl, hnone rfl, rowDone_of_not_delivered C J hd s rfl (by rw [hf]; rfl)⟩⟩
    | ok written =>
      have hd : delivered J (.doc doc) = written := by rw [delivered_doc, ht]; rfl
      have hf : failed J (.doc doc) = false := by simp [failed, ht, Except.toOption]
      cases written with
      | none =>
        rw [ht] at hnone
        exact ⟨h, Iff.rfl, Iff.rfl, .inl ⟨rfl, hnone rfl, rowDone_of_not_delivered C J hd s rfl (by rw [hf]; rfl)⟩⟩
      | some doc' =>
        have hw : (sinkWrite C F J c.processed doc' s).1 = none ↔ RowWritten C F J c.processed (.doc doc) := by
          simp [sinkWrite_none_iff, RowWritten, hd]
        refine ⟨sinkWrite_opened C F J c.processed doc' h, by simp, by simp, ?_⟩
        by_cases hn : (sinkWrite C F J c.processed doc' s).1 = none
        · obtain ⟨chunks, hc, hraw, hfirst⟩ := sinkWrite_raw C F J c.processed doc' hn
          refine .inl ⟨hn, hw.1 hn, rfl, by rw [hf]; rfl, ⟨chunks.flatten, ?_, hraw⟩, by simp [hd, hfirst]⟩
          simp [hd, docsText, hc, Except.map]
        · exact .inr ⟨Option.isSome_iff_ne_none.2 hn, fun h => hn (hw.2 h)⟩

/-! ## The loop -/

/-- Neither `finish` nor `abort` was called yet. -/
def Pending (s : Export) : Prop := .finish ∉ s.calls ∧ .abort ∉ s.calls

/-- What the loop asks of the rows that are left, besides that nobody cancels. -/
structure Passes (c : Counts) (rows : List RowResult) : Prop where
  source : J.sourceFault = none
  errors : c.errors + rows.countP (failed J) ≤ J.ctx.maxErrors
  written : ∀ n row, rows[n]? = some row → RowWritten C F J (c.processed + n) row

/-- What a loop that read every row did. -/
structure RowsDone (rows : List RowResult) (c : Counts) (s : Export) (c' : Counts) (s' : Export) : Prop where
  processed : c'.processed = c.processed + rows.length
  errors : c'.errors = c.errors + rows.countP (failed J)
  text : ∃ text, docsText C J.sink (!s.wroteFirst) (rows.filterMap (delivered J)) = .ok text ∧ s'.raw = s.raw ++ text
  wroteFirst : s'.wroteFirst = (s.wroteFirst || !(rows.filterMap (delivered J)).isEmpty)

/-- How the loop ends. -/
inductive LoopEnds (before : Disk) (rows : List RowResult) (c : Counts) (s : Export) :
    Option AppError × Counts × Export → Prop where
  | stopped {e c' s'} (opened : Opened J before s') (pending : Pending s') (fails : ¬ Passes C F J c rows) :
      LoopEnds before rows c s (some e, c', abort F J s')
  | cancelled {c' s'} (opened : Opened J before s') (pending : Pending s') (flag : CancelledAt J.toJob c'.processed)
      (read : c'.processed ≤ c.processed + rows.length) : LoopEnds before rows c s (none, c', s')
  | passed {c' s'} (opened : Opened J before s') (pending : Pending s') (passes : Passes C F J c rows)
      (done : RowsDone C J rows c s c' s') : LoopEnds before rows c s (none, c', s')

theorem filterMap_delivered_cons (row : RowResult) (rows : List RowResult) :
    (row :: rows).filterMap (delivered J) = (delivered J row).toList ++ rows.filterMap (delivered J) := by
  cases hd : delivered J row <;> simp [hd]

theorem countP_failed_cons (row : RowResult) (rows : List RowResult) :
    (row :: rows).countP (failed J) = (if failed J row then 1 else 0) + rows.countP (failed J) := by
  rw [List.countP_cons, Nat.add_comm]

theorem docsText_toList_append (sink : SinkKind) {first : Bool} {doc : Option Document} {docs : List Document}
    {text text' : List UInt8} (h : docsText C sink first doc.toList = .ok text)
    (h' : docsText C sink (first && doc.isNone) docs = .ok text') :
    docsText C sink first (doc.toList ++ docs) = .ok (text ++ text') := by
  cases doc with
  | none =>
    cases h
    simpa using h'
  | some doc =>
    simp only [Option.toList_some, docsText, List.singleton_append] at h ⊢
    cases hd : docChunks C sink first doc with
    | error e => simp [hd] at h
    | ok chunks =>
      simp only [hd, Except.map, Except.ok.injEq, List.append_nil] at h
      simp only [Option.isNone_some, Bool.and_false] at h'
      simp [h', Except.map, ← h]

theorem rowsDone_cons (h : RowDone C J row c s c₁ s₁) (hr : RowsDone C J rows { c₁ with processed := c₁.processed + 1 } s₁ c' s') :
    RowsDone C J (row :: rows) c s c' s' where
  processed := by
    have := hr.processed
    simp only [h.processed, List.length_cons] at this ⊢
    omega
  errors := by
    have := hr.errors
    simp only [h.errors, countP_failed_cons] at this ⊢
    omega
  text := by
    obtain ⟨text, ht, hraw⟩ := h.text
    obtain ⟨text', ht', hraw'⟩ := hr.text
    rw [h.wroteFirst] at ht'
    refine ⟨text ++ text', ?_, by rw [hraw', hraw, List.append_assoc]⟩
    rw [filterMap_delivered_cons]
    refine docsText_toList_append C J.sink ht ?_
    cases hd : delivered J row <;> simpa [hd] using ht'
  wroteFirst := by
    rw [hr.wroteFirst, h.wroteFirst, filterMap_delivered_cons]
    cases delivered J row <;> simp

theorem passes_cons_iff (h : RowDone C J row c s c₁ s₁) : Passes C F J c (row :: rows) ↔
      RowWritten C F J c.processed row ∧ Passes C F J { c₁ with processed := c₁.processed + 1 } rows := by
  constructor
  · intro hp
    refine ⟨by simpa using hp.written 0 row rfl, hp.source, ?_, fun n row' hr => ?_⟩
    · have := hp.errors
      simp only [h.errors, countP_failed_cons] at this ⊢
      omega
    · have := hp.written (n + 1) row' (by simpa using hr)
      simpa [h.processed, Nat.add_assoc, Nat.add_comm 1 n] using this
  · rintro ⟨hw, hp⟩
    refine ⟨hp.source, ?_, fun n row' hr => ?_⟩
    · have := hp.errors
      simp only [h.errors, countP_failed_cons] at this ⊢
      omega
    · cases n with
      | zero =>
        simp only [List.getElem?_cons_zero, Option.some.injEq] at hr
        exact hr ▸ hw
      | succ n =>
        have := hp.written n row' (by simpa using hr)
        simpa [h.processed, Nat.add_assoc, Nat.add_comm 1 n] using this

theorem not_passes_of_not_written (h : ¬ RowWritten C F J c.processed row) : ¬ Passes C F J c (row :: rows) :=
  fun hp => h (by simpa using hp.written 0 row rfl)

theorem not_passes_of_errors (h : J.ctx.maxErrors < c.errors) :
    ¬ Passes C F J c rows :=
  fun hp => absurd hp.errors (by omega)

theorem pipelineLoop_ends (rows : List RowResult) : ∀ {c : Counts} {s : Export}, Opened J before s → Pending s →
    c.errors ≤ J.ctx.maxErrors → LoopEnds C F J before rows c s (pipelineLoop (fileSink C F J) J.toJob rows c s) := by
  induction rows with
  | nil =>
    intro c s ho hp hc
    simp only [pipelineLoop]
    split
    · next hflag => exact .cancelled ho hp hflag (Nat.le_refl _)
    · cases hs : J.sourceFault with
      | some e => exact .stopped ho hp fun h => by simp [h.source] at hs
      | none =>
        refine .passed ho hp ⟨hs, by simpa using hc, by simp⟩ ⟨rfl, rfl, ⟨[], rfl, (List.append_nil _).symm⟩, by simp⟩
  | cons row rows ih =>
    intro c s ho hp hc
    simp only [pipelineLoop]
    split
    · next hflag => exact .cancelled ho hp hflag (Nat.le_add_right _ _)
    · obtain ⟨ho₁, hfinish, habort, hrow⟩ := handleRow_cases C F J row c ho
      cases hr : handleRow (fileSink C F J) J.toJob row c s with
      | mk error rest =>
        obtain ⟨c₁, s₁⟩ := rest
        simp only [hr] at ho₁ hfinish habort hrow
        have hp₁ : Pending s₁ := ⟨fun h => hp.1 (hfinish.1 h), fun h => hp.2 (habort.1 h)⟩
        obtain ⟨rfl, hwritten, hdone⟩ | ⟨herr, hnot⟩ := hrow
        · by_cases hmany : J.ctx.maxErrors < c₁.errors
          · simp only [hmany, if_true]
            refine .stopped ho₁ hp₁ fun h => ?_
            exact not_passes_of_errors C F J (c := { c₁ with processed := c₁.processed + 1 }) hmany
              ((passes_cons_iff C F J hdone).1 h).2
          · simp only [hmany, if_false]
            -- the rest of the rows, from the counts after this one
            have hend := ih (c := { c₁ with processed := c₁.processed + 1 }) ho₁ hp₁ (Nat.le_of_not_lt hmany)
            generalize pipelineLoop (fileSink C F J) J.toJob rows { c₁ with processed := c₁.processed + 1 } s₁ = r at hend ⊢
            cases hend with
            | stopped ho' hp' hfails => exact .stopped ho' hp' fun h => hfails ((passes_cons_iff C F J hdone).1 h).2
            | cancelled ho' hp' hflag hread =>
              refine .cancelled ho' hp' hflag ?_
              simp only [hdone.processed, List.length_cons] at hread ⊢
              omega
            | passed ho' hp' hpasses hrest =>
              exact .passed ho' hp' ((passes_cons_iff C F J hdone).2 ⟨hwritten, hpasses⟩) (rowsDone_cons C J hdone hrest)
        · obtain ⟨e, rfl⟩ := Option.isSome_iff_exists.1 herr
          exact .stopped ho₁ hp₁ (not_passes_of_not_written C F J hnot)

/-! ## The end -/

theorem commit_ok (h : F .flush = none ∧ F .sync = none ∧ F .rename = none) (disk : Disk) :
    commit F disk = (none, ⟨disk.part, none⟩) := by
  simp only [commit, h.1, h.2.1, h.2.2]

theorem commit_failed (h : ¬ (F .flush = none ∧ F .sync = none ∧ F .rename = none)) (disk : Disk) :
    ∃ e, commit F disk = (some e, disk) := by
  unfold commit
  cases hf : F .flush with
  | some e => exact ⟨.io e, rfl⟩
  | none =>
    cases hs : F .sync with
    | some e => exact ⟨.io e, rfl⟩
    | none =>
      cases hr : F .rename with
      | some e => exact ⟨.io e, rfl⟩
      | none => exact absurd ⟨hf, hs, hr⟩ h

theorem commitSink_ok (h : Opened J before s) (hc : Compresses F J)
    (hd : F .flush = none ∧ F .sync = none ∧ F .rename = none) :
    commitSink C F J s = (none, { s with disk := ⟨some (stored C J s.raw), none⟩ }) := by
  unfold commitSink stored
  by_cases hk : J.compression = .none
  · simp only [if_pos hk, commit_ok F hd, h.plain hk]
  · simp only [if_neg hk, hc hk, commit_ok F hd]

theorem commitSink_failed (h : Opened J before s)
    (hd : ¬ (Compresses F J ∧ F .flush = none ∧ F .sync = none ∧ F .rename = none)) :
    (commitSink C F J s).1.isSome ∧ (commitSink C F J s).2.disk.part.isSome := by
  unfold commitSink
  by_cases hk : J.compression = .none
  · obtain ⟨e, he⟩ := commit_failed F (fun hd' => hd ⟨fun hne => absurd hk hne, hd'⟩) s.disk
    simp [hk, he, h.part]
  · simp only [if_neg hk]
    cases hc : F .compress with
    | some e => exact ⟨rfl, h.part⟩
    | none =>
      obtain ⟨e, he⟩ := commit_failed F (fun hd' => hd ⟨fun _ => hc, hd'⟩)
        { s.disk with part := some (C.compress J.compression s.raw) }
      simp [he]

theorem finishWrite_iff (s : Export) :
    (writeChunks F J (fun _ => .finishWrite) 0 (finishChunks J.sink s.wroteFirst) (s.call .finish)).1 = none ↔
      (finishChunks J.sink true ≠ [] → F .finishWrite = none) := by
  rw [writeChunks_none_iff, Ne, finishChunks_empty_iff J.sink true s.wroteFirst]
  constructor
  · exact fun h hne => h 0 (List.length_pos_iff.2 hne)
  · exact fun h j hj => h (List.ne_nil_of_length_pos (Nat.zero_lt_of_lt hj))

theorem sinkFinish_ok (h : Opened J before s) (hc : Compresses F J) (hd : Commits F J) :
    (sinkFinish C F J s).1 = none ∧ (sinkFinish C F J s).2.calls = s.calls ++ [.finish] ∧
      (sinkFinish C F J s).2.disk = ⟨some (stored C J (s.raw ++ (finishChunks J.sink s.wroteFirst).flatten)), none⟩ := by
  have hn := (finishWrite_iff F J s).2 hd.1
  have ho := writeChunks_opened F J (fun _ => .finishWrite) (finishChunks J.sink s.wroteFirst) 0 (opened_call J h .finish)
  have hraw := writeChunks_raw F J (fun _ => .finishWrite) (finishChunks J.sink s.wroteFirst) 0 (s.call .finish) hn
  have hcalls := writeChunks_calls F J (fun _ => .finishWrite) (finishChunks J.sink s.wroteFirst) 0 (s.call .finish)
  unfold sinkFinish
  cases hr : writeChunks F J (fun _ => .finishWrite) 0 (finishChunks J.sink s.wroteFirst) (s.call .finish) with
  | mk error s' =>
    simp only [hr] at hn ho hraw hcalls
    subst hn
    simp only [commitSink_ok C F J ho hc hd.2, hraw, true_and]
    exact ⟨hcalls, rfl⟩

theorem sinkFinish_failed (h : Opened J before s) (hd : ¬ (Compresses F J ∧ Commits F J)) :
    (sinkFinish C F J s).1.isSome ∧ (sinkFinish C F J s).2.disk.part.isSome := by
  have hiff := finishWrite_iff F J s
  have ho := writeChunks_opened F J (fun _ => .finishWrite) (finishChunks J.sink s.wroteFirst) 0 (opened_call J h .finish)
  unfold sinkFinish
  cases hr : writeChunks F J (fun _ => .finishWrite) 0 (finishChunks J.sink s.wroteFirst) (s.call .finish) with
  | mk error s' =>
    simp only [hr] at hiff ho
    cases error with
    | some e => exact ⟨rfl, ho.part⟩
    | none => exact commitSink_failed C F J ho fun hd' => hd ⟨hd'.1, hiff.1 rfl, hd'.2⟩

@[simp] theorem abort_calls (s : Export) : (abort F J s).calls = s.calls ++ [.abort] := by
  unfold abort
  split
  · rfl
  · split <;> rfl

theorem abort_iff (h : Opened J before s) :
    (abort F J s).disk.final = before.final ∧ (abort F J s).disk.part = none ↔ Compresses F J := by
  unfold abort Compresses
  by_cases hk : J.compression = .none
  · simp [hk, h.final]
  · cases hc : F .compress with
    | some e =>
      simp only [if_neg hk, Export.call]
      refine iff_of_false (fun hd => ?_) fun hd => by simpa using hd hk
      have := h.part
      simp [hd.2] at this
    | none => simp [hk, h.final]

/-! ## The whole export -/

theorem not_completes_of_cancelled (h : CancelledAt J.toJob n) (hle : n ≤ J.rows.length + 1) :
    ¬ Completes C F J :=
  fun hc => hc.notCancelled (h.mono hle)

theorem completes_iff : Completes C F J ↔ ¬ CancelledAt J.toJob (J.rows.length + 1) ∧ Passes C F J ⟨0, 0, []⟩ J.rows := by
  constructor
  · exact fun h => ⟨h.notCancelled, h.source, by simpa using h.errors, by simpa using h.written⟩
  · exact fun h => ⟨h.1, h.2.source, by simpa using h.2.errors, by simpa using h.2.written⟩

theorem allOrNothing_abort_iff (h : Opened J before s) (hp : Pending s) (hr : ∀ report, result = .ok report → report.cancelled = true) :
    AllOrNothing C J before (result, abort F J s) ↔ Compresses F J := by
  have hcalls : ¬ (.finish ∈ (abort F J s).calls ∧ .abort ∈ (abort F J s).calls) := by simp [hp.1]
  have hout : Outcome C J before result (abort F J s).disk ↔ Compresses F J := by
    rw [← abort_iff F J h]
    cases result with
    | error e => rfl
    | ok report => simp only [Outcome, hr report rfl, if_true]
  simp only [AllOrNothing, hout, hcalls, not_false_eq_true, and_true]

theorem not_allOrNothing_of_part (h : s.disk.part.isSome) (e : AppError) :
    ¬ AllOrNothing C J before (.error e, s) := by
  rintro ⟨⟨-, hnone⟩, -⟩
  simp only at hnone
  simp [hnone] at h

theorem fileText_eq (hs : startChunks C J.sink = .ok head) (ht : docsText C J.sink true docs = .ok text) :
    fileText C J.sink docs = .ok (head.flatten ++ text ++ (finishChunks J.sink (!docs.isEmpty)).flatten) := by
  simp only [fileText, hs, ht, Except.map, List.append_assoc]
  cases docs <;> rfl

theorem runPipeline_iff (ho : Opened J before s) (hp : Pending s) (hraw : s.raw = []) (hfirst : s.wroteFirst = false) :
    AllOrNothing C J before (runPipeline (fileSink C F J) J.toJob s) ↔
      Starts C F J ∧ Compresses F J ∧ (Completes C F J → Commits F J) := by
  have hstart := sinkStart_none_iff C F J s
  have ho₁ := sinkStart_opened C F J ho
  have hcalls := sinkStart_calls C F J s
  have hfirst₁ := sinkStart_wroteFirst C F J s
  have hraw₁ := sinkStart_raw C F J (s := s)
  simp only [runPipeline, fileSink_start, fileSink_finish, fileSink_abort]
  cases hs : sinkStart C F J s with
  | mk error s₁ =>
    simp only [hs, hraw, hfirst] at hstart ho₁ hcalls hfirst₁ hraw₁
    cases error with
    | some e => exact iff_of_false (not_allOrNothing_of_part C J ho₁.part e) fun h => by cases hstart.2 h.1
    | none =>
      have hstarts : Starts C F J := hstart.1 rfl
      have hp₁ : Pending s₁ := by simpa [Pending, hcalls] using hp
      have hend := pipelineLoop_ends C F J J.rows (c := ⟨0, 0, []⟩) ho₁ hp₁ (Nat.zero_le _)
      simp only [hstarts, true_and]
      generalize pipelineLoop (fileSink C F J) J.toJob J.rows ⟨0, 0, []⟩ s₁ = r at hend ⊢
      cases hend with
      | stopped ho' hp' hfails =>
        have hnot : ¬ Completes C F J := fun h => hfails ((completes_iff C F J).1 h).2
        have herror (e : AppError) (report : JobReport) (h : .error e = Except.ok report) : report.cancelled = true := nomatch h
        have haborted (e : AppError) := allOrNothing_abort_iff C F J ho' hp' (herror e)
        simp only [haborted, hnot, false_imp_iff, and_true]
      | @cancelled c' s' ho' hp' hflag hread =>
        have hle : c'.processed + 1 ≤ J.rows.length + 1 := by simpa using hread
        have hnot := not_completes_of_cancelled C F J (hflag.mono (Nat.le_succ _)) hle
        simp only [hflag.mono (Nat.le_succ _), if_true]
        rw [allOrNothing_abort_iff C F J ho' hp' (by rintro _ ⟨⟩; rfl)]
        simp only [hnot, false_imp_iff, and_true]
      | @passed c' s' ho' hp' hpasses hdone =>
        have hprocessed : c'.processed = J.rows.length := by simpa using hdone.processed
        simp only [hprocessed]
        by_cases hflag : CancelledAt J.toJob (J.rows.length + 1)
        · have hnot := not_completes_of_cancelled C F J hflag (Nat.le_refl _)
          simp only [hflag, if_true]
          rw [allOrNothing_abort_iff C F J ho' hp' (by rintro _ ⟨⟩; rfl)]
          simp only [hnot, false_imp_iff, and_true]
        · have hcomplete : Completes C F J := (completes_iff C F J).2 ⟨hflag, hpasses⟩
          simp only [hflag, if_false, hcomplete, true_imp_iff]
          by_cases hd : Compresses F J ∧ Commits F J
          · obtain ⟨hnone, hfinish, hdisk⟩ := sinkFinish_ok C F J ho' hd.1 hd.2
            obtain ⟨head, hhead, hrawHead⟩ := hraw₁ rfl
            obtain ⟨text, htext, hrawText⟩ := hdone.text
            refine iff_of_true ?_ hd
            cases hf : sinkFinish C F J s' with
            | mk error s'' =>
              simp only [hf] at hnone hfinish hdisk
              subst hnone
              have hnoAbort : .abort ∉ s''.calls := by simp [hfinish, hp'.2]
              refine ⟨?_, fun h => hnoAbort h.2⟩
              simp only [Outcome, Counts.report, Bool.false_eq_true, if_false, hdisk, hprocessed]
              refine ⟨⟨_, fileText_eq C J hhead (by simpa [hfirst₁] using htext), ?_⟩, trivial, trivial,
                by simpa using hdone.errors⟩
              rw [hrawText, hrawHead, hdone.wroteFirst, hfirst₁]
              simp
          · obtain ⟨herr, hpart⟩ := sinkFinish_failed C F J ho' hd
            refine iff_of_false ?_ hd
            cases hf : sinkFinish C F J s' with
            | mk error s'' =>
              simp only [hf] at herr hpart
              obtain ⟨e, rfl⟩ := Option.isSome_iff_exists.1 herr
              exact not_allOrNothing_of_part C J hpart e

/-- **An export to a file is all or nothing exactly when** either the `.part` file could not be created and there was none, or
it was created, the head was written, the compressor can be finished, and, if no row, no error and no cancellation kept the
sink from being finished, neither the end, nor flush, nor sync, nor rename fails. -/
theorem exportFile_iff (disk : Disk) : AllOrNothing C J disk (exportFile C F J disk) ↔
    ((F .create).isSome ∧ disk.part = none) ∨
      (F .create = none ∧ Starts C F J ∧ Compresses F J ∧ (Completes C F J → Commits F J)) := by
  unfold exportFile
  cases hc : F .create with
  | some e => simp [AllOrNothing, Outcome]
  | none =>
    have ho : Opened J disk ⟨{ disk with part := some [] }, [], false, []⟩ := ⟨rfl, rfl, fun _ => rfl⟩
    simp [runPipeline_iff C F J ho (by simp [Pending]) rfl rfl]

end

/-! ## A rename that fails -/

/-- A codec that escapes and compresses nothing. -/
def plainSink : SinkCodec where
  toCellCodec := plainCodec
  encodeJson _ _ := [0x7B, 0x7D]
  encodeRecord delimiter fields := .ok (encodeUtf8 ([Char.ofNat delimiter.toNat].intercalate fields) ++ [newline])
  toVec _ := .ok [5, 0, 0, 0, 0]
  compress _ bytes := bytes

/-- The export of no documents, as a JSON array. -/
def emptyExport : ExportJob where
  compression := .none
  sink := .json .array true
  transforms := []
  rows := []
  sourceFault := none
  ctx := ⟨"job-1", none, 0, 10⟩

/-- The final path cannot be replaced, and nothing else fails. -/
def renameFault : Faults := fun step => if step = .rename then some "permission denied" else none

/-- The array is complete, it cannot be renamed, and its `.part` file stays. -/
theorem part_left : ¬ AllOrNothing plainSink emptyExport ⟨none, none⟩ (exportFile plainSink renameFault emptyExport ⟨none, none⟩) := by
  have hpart : (exportFile plainSink renameFault emptyExport ⟨none, none⟩).2.disk.part = some [0x5B, 0x5D, 0x0A] := by decide
  have hresult : (exportFile plainSink renameFault emptyExport ⟨none, none⟩).1 = .error (.io "permission denied") := by rfl
  rintro ⟨hout, -⟩
  rw [hresult] at hout
  simp [Outcome, hpart] at hout

end ImportExport
