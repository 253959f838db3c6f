import NosqlBuddy.ImportExport.CsvSource
import NosqlBuddy.ImportExport.JsonArray

/-!
# Import sources come to an end

| here | there |
| --- | --- |
| `JsonReader` | `serde_json`, `bson::to_bson` and what a row is shown as |

A closing brace where the array has nothing to close is returned as an empty element and stays where it is, so the
calls never end (`Stuck`). Everything else is used up (`progresses_iff`).
-/

namespace ImportExport
open Oplog (Bson Document)
open Text (trim)

/-! ## The sources -/

/-- The text of an error (error.rs:25). -/
def AppError.display : AppError → String
  | .io message => "io error: " ++ message
  | .validation message => "validation error: " ++ message
  | .internal message => "internal error: " ++ message
  | .mongo message => "mongo error: " ++ message
  | .invalidBson message => "invalid BSON: " ++ message

structure JsonReader (J : Type) where
  fromSlice : List UInt8 → Except String J
  toBson : J → Except String Bson
  displayJson : Document → Except AppError J

inductive JsonImportShape where
  | object
  | array
  | ndjson
deriving DecidableEq, Repr

/-- `bson_type_name` (json_source.rs:318). -/
def bsonTypeName : Bson → String
  | .array _ => "array"
  | .boolean _ => "bool"
  | .double _ => "double"
  | .int32 _ => "int32"
  | .int64 _ => "int64"
  | .null => "null"
  | .string _ => "string"
  | _ => "bson"

def rowError (row : Nat) (message : String) : RowResult := .error ⟨some row, message⟩

section
variable {J : Type} (P : JsonReader J)

/-- `doc_from_json_value` (json_source.rs:307). -/
def docFromJsonValue (value : J) : Except AppError Document :=
  match P.toBson value with
  | .error e => .error (.invalidBson e)
  | .ok (.document doc) => .ok doc
  | .ok other => .error (.invalidBson ("import row must be a JSON object, got " ++ bsonTypeName other))

def docRow (row : Nat) (value : J) : RowResult :=
  match docFromJsonValue P value with
  | .ok doc => .doc doc
  | .error e => rowError row e.display

/-- A document, or the error of the row. -/
def jsonRow (row : Nat) (raw : List UInt8) : RowResult :=
  match P.fromSlice raw with
  | .error e => rowError row e
  | .ok value => docRow P row value

abbrev newline : UInt8 := 0x0A

/-- `read_line`: up to the newline, with it. -/
def readLine (bytes : List UInt8) : List UInt8 × List UInt8 :=
  (bytes.takeWhile (· ≠ newline) ++ (bytes.dropWhile (· ≠ newline)).take 1, (bytes.dropWhile (· ≠ newline)).drop 1)

def decodeUtf8 (bytes : List UInt8) : Option (List Char) := (String.fromUTF8? ⟨bytes.toArray⟩).map String.toList

def encodeUtf8 (text : List Char) : List UInt8 := (String.ofList text).toUTF8.data.toList

theorem readLine_shorter (h : bytes ≠ []) : (readLine bytes).2.length < bytes.length := by
  have hle := (List.dropWhile_sublist (p := (· ≠ newline)) (l := bytes)).length_le
  have hpos := List.length_pos_of_ne_nil h
  rw [readLine, List.length_drop]
  omega

/-- The next line that is not blank (json_source.rs:105), the number of its row and what follows it. -/
def ndjsonNext (row : Nat) (bytes : List UInt8) : Except AppError (Option RowResult) × Nat × List UInt8 :=
  if _h : bytes = [] then (.ok none, row, [])
  else
    match decodeUtf8 (readLine bytes).1 with
    | none => (.error (.io "stream did not contain valid UTF-8"), row, (readLine bytes).2)
    | some text =>
      if trim text = [] then ndjsonNext (row + 1) (readLine bytes).2
      else (.ok (some (jsonRow P (row + 1) (encodeUtf8 (trim text)))), row + 1, (readLine bytes).2)
termination_by bytes.length
decreasing_by exact readLine_shorter _h

end

/-- `JsonSourceInner`, and the source of CSV. -/
inductive ImportSource (σ : Type) where
  | rows (queue : List RowResult)
  | array (reader : JsonArrayReader) (row : Nat)
  | ndjson (bytes : List UInt8) (row : Nat)
  | csv (src : CsvSource σ)

/-- What is imported: bytes of JSON, or the reader of CSV with its delimiter. -/
inductive ImportInput (σ : Type) where
  | json (shape : JsonImportShape) (bytes : List UInt8)
  | csv (reader : σ) (headers : Bool)

section
variable {σ J : Type} (P : JsonReader J) (C : CellCodec) (R : CsvReader σ)

/-- `JsonSource::from_reader` (json_source.rs:51) and `CsvSource::from_reader`. -/
def ImportSource.build : ImportInput σ → Except AppError (ImportSource σ)
  | .json .object bytes =>
    match P.fromSlice bytes with
    | .error e => .error (.internal ("serialization error: " ++ e))
    | .ok value => .ok (.rows [docRow P 1 value])
  | .json .array bytes => .ok (.array (.new bytes) 0)
  | .json .ndjson bytes => .ok (.ndjson bytes 0)
  | .csv reader headers => (CsvSource.fromReader R reader headers).map .csv

def ImportSource.nextDoc : ImportSource σ → Except AppError (Option RowResult) × ImportSource σ
  | .rows queue => (.ok queue.head?, .rows queue.tail)
  | .array reader row =>
    match reader.nextRaw with
    | (.error e, reader) => (.error e, .array reader row)
    | (.ok none, reader) => (.ok none, .array reader row)
    | (.ok (some raw), reader) => (.ok (some (jsonRow P (row + 1) raw)), .array reader (row + 1))
  | .ndjson bytes row =>
    ((ndjsonNext P row bytes).1, .ndjson (ndjsonNext P row bytes).2.2 (ndjsonNext P row bytes).2.1)
  | .csv src => ((src.nextDoc C R).1, .csv (src.nextDoc C R).2)

/-! ## The preview -/

def defaultPreviewRows : Nat := 20
def maxPreviewRows : Nat := 100
def maxErrorSamples : Nat := 100

structure Preview (J : Type) where
  docs : List Document
  rows : List J
  errors : List RowError

def Preview.sample (preview : Preview J) (e : RowError) : Preview J :=
  if preview.errors.length < maxErrorSamples then { preview with errors := preview.errors ++ [e] } else preview

/-- The loop of the preview; without fuel there is no result. -/
def previewLoop (limit : Nat) : Nat → Preview J → ImportSource σ → Option (Except AppError (Preview J))
  | 0, _, _ => none
  | fuel + 1, preview, src =>
    if limit ≤ preview.docs.length then some (.ok preview)
    else
      match src.nextDoc P C R with
      | (.error e, _) => some (.error e)
      | (.ok none, _) => some (.ok preview)
      | (.ok (some (.doc doc)), src) =>
        match P.displayJson doc with
        | .error e => some (.error e)
        | .ok row => previewLoop limit fuel { preview with rows := preview.rows ++ [row], docs := preview.docs ++ [doc] } src
      | (.ok (some .skipped), src) => previewLoop limit fuel preview src
      | (.ok (some (.error e)), src) => previewLoop limit fuel (preview.sample e) src

/-- `preview_import` (commands/import.rs:110); the fields are inferred from the documents. -/
def previewImport (fuel : Nat) (input : ImportInput σ) (previewRows : Option Nat) : Option (Except AppError (Preview J)) :=
  match ImportSource.build P R input with
  | .error e => some (.error e)
  | .ok src => previewLoop P C R (max 1 (min (previewRows.getD defaultPreviewRows) maxPreviewRows)) fuel ⟨[], [], []⟩ src

/-! ## Progress -/

/-- What is still to be read: bytes, queued rows, what is left of the CSV and the record that waits. -/
def ImportSource.left (csvLeft : σ → Nat) : ImportSource σ → Nat
  | .rows queue => queue.length
  | .array reader _ => reader.rest.length
  | .ndjson bytes _ => bytes.length
  | .csv src => csvLeft src.reader + src.pending.toList.length

/-- The sources between the calls, as long as these return rows. -/
inductive Reads (input : ImportInput σ) : ImportSource σ → Prop where
  | start {src : ImportSource σ} : ImportSource.build P R input = .ok src → Reads input src
  | next {src src' : ImportSource σ} {row : RowResult} : Reads input src → src.nextDoc P C R = (.ok (some row), src') →
      Reads input src'

/-- The calls reach `None` or an error. -/
inductive Finishes : ImportSource σ → Prop where
  | ended {src src' : ImportSource σ} : src.nextDoc P C R = (.ok none, src') → Finishes src
  | failed {src src' : ImportSource σ} {e : AppError} : src.nextDoc P C R = (.error e, src') → Finishes src
  | row {src src' : ImportSource σ} {row : RowResult} : src.nextDoc P C R = (.ok (some row), src') → Finishes src' →
      Finishes src

structure Progresses (csvLeft : σ → Nat) (input : ImportInput σ) : Prop where
  consumes : ∀ {src src' row}, Reads P C R input src → src.nextDoc P C R = (.ok (some row), src') →
    src'.left csvLeft < src.left csvLeft
  finishes : ∀ {src}, ImportSource.build P R input = .ok src → Finishes P C R src
  previews : ∀ previewRows, ∃ fuel result, previewImport P C R fuel input previewRows = some result

/-- `read_record` of `csv::Reader` uses something up for each record and for each error; behind an I/O error nothing is left. -/
def CsvReader.Advances (csvLeft : σ → Nat) : Prop :=
  ∀ s out s', R.readRecord s = (out, s') → out ≠ .ok none → csvLeft s' < csvLeft s

end

/-! ## Where an array gets stuck -/

/-- Bytes at the level of the array: strings and groups are closed, and no bracket closes anything else. -/
inductive Level : List UInt8 → Prop where
  | nil : Level []
  | byte {b : UInt8} {p : List UInt8} : b ≠ quote → ¬ Opens b → ¬ Shuts b → Level p → Level (b :: p)
  | string {q p : List UInt8} : Quoted q → Level p → Level (quote :: (q ++ p))
  | group {b : UInt8} {g p : List UInt8} : Opens b → Closes 1 g → Level p → Level (b :: (g ++ p))

def StuckRest (t : List UInt8) : Prop := ∃ p rest, Level p ∧ t = p ++ closeBrace :: rest

/-- At the level of the array stands a closing brace, with no closing bracket before it. -/
def Stuck (t : List UInt8) : Prop := ∃ w u, Blank w ∧ t = w ++ openBracket :: u ∧ StuckRest u

variable {p : List UInt8}

theorem Level.append (hp : Level p) (hs : Level s) : Level (p ++ s) := by
  induction hp with
  | nil => exact hs
  | byte hq ho hsh _ ih => exact .byte hq ho hsh ih
  | string hq _ ih =>
    rw [List.cons_append, List.append_assoc]
    exact .string hq ih
  | group ho hg _ ih =>
    rw [List.cons_append, List.append_assoc]
    exact .group ho hg ih

variable {t : List UInt8}

theorem StuckRest.append (hp : Level p) (h : StuckRest t) : StuckRest (p ++ t) := by
  obtain ⟨s, rest, hs, rfl⟩ := h
  exact ⟨p ++ s, rest, hp.append hs, (List.append_assoc _ _ _).symm⟩

theorem level_of_forall (h : ∀ b ∈ p, b ≠ quote ∧ ¬ Opens b ∧ ¬ Shuts b) : Level p := by
  induction p with
  | nil => exact .nil
  | cons b p ih =>
    obtain ⟨hq, ho, hs⟩ := h b List.mem_cons_self
    exact .byte hq ho hs (ih fun c hc => h c (List.mem_cons_of_mem _ hc))

theorem ws_apart (h : isAsciiWhitespace b = true) : b ≠ quote ∧ ¬ Opens b ∧ ¬ Shuts b := by
  simp only [isAsciiWhitespace, Bool.or_eq_true, beq_iff_eq] at h
  rcases h with (((rfl | rfl) | rfl) | rfl) | rfl <;> decide

theorem level_blank (h : Blank w) : Level w := level_of_forall fun b hb => ws_apart (h b hb)

theorem level_raw (h : Raw e s) : Level e := by
  have hplain : ∀ {p : List UInt8}, (∀ b ∈ p, PlainByte b) → Level p := fun hp =>
    level_of_forall fun b hb => ⟨(hp b hb).1, (hp b hb).2.1, (hp b hb).2.2.1⟩
  cases h with
  | word _ hp _ => exact hplain hp
  | string hp hq =>
    have hstring := Level.string hq .nil
    rw [List.append_nil] at hstring
    exact (hplain hp).append hstring
  | group hp ho hg =>
    have hgroup := Level.group ho hg .nil
    rw [List.append_nil] at hgroup
    exact (hplain hp).append hgroup

/-! ### A call that is stuck -/

theorem StuckRest.tail (h : StuckRest (b :: t)) (hq : b ≠ quote) (ho : ¬ Opens b)
    (hb : b ≠ closeBrace) : StuckRest t := by
  obtain ⟨p, rest, hp, he⟩ := h
  cases hp with
  | nil => exact absurd (List.cons.inj he).1 hb
  | byte _ _ _ hp => exact ⟨_, rest, hp, (List.cons.inj he).2⟩
  | string => exact absurd (List.cons.inj he).1 hq
  | group ho' => exact absurd ((List.cons.inj he).1 ▸ ho') ho

theorem StuckRest.head (h : StuckRest t) : ∃ b u, t = b :: u ∧ b ≠ closeBracket := by
  obtain ⟨p, rest, hp, rfl⟩ := h
  cases hp with
  | nil => exact ⟨closeBrace, rest, rfl, by decide⟩
  | byte _ _ hs => exact ⟨_, _, rfl, fun he => hs (.inr he)⟩
  | string => exact ⟨quote, _, rfl, by decide⟩
  | group ho =>
    refine ⟨_, _, rfl, ?_⟩
    rcases ho with rfl | rfl <;> decide

theorem StuckRest.skip_blank (hw : Blank w) (h : StuckRest (w ++ u)) : StuckRest u := by
  induction w with
  | nil => exact h
  | cons b w ih =>
    have hb := hw b List.mem_cons_self
    obtain ⟨hq, ho, hs⟩ := ws_apart hb
    exact ih (fun c hc => hw c (List.mem_cons_of_mem _ hc)) (h.tail hq ho fun he => hs (.inl he))

theorem scanValue_stuck (hp : Level p) (rest : List UInt8) : ∀ buf : List UInt8,
    ∃ raw u, scanValue buf 0 false false (p ++ closeBrace :: rest) = .ok (raw, u) ∧ StuckRest u := by
  induction hp with
  | nil => exact fun buf => ⟨buf, closeBrace :: rest, scanValue_shuts (.inl rfl), [], rest, .nil, rfl⟩
  | @byte b p hq ho hs hp ih =>
    intro buf
    by_cases hparts : Parts b
    · exact ⟨buf, b :: (p ++ closeBrace :: rest), scanValue_parts hparts, b :: p, rest, .byte hq ho hs hp, rfl⟩
    · obtain ⟨raw, u, hscan, hu⟩ := ih (buf ++ [b])
      exact ⟨raw, u, (scanValue_plain ⟨hq, ho, hs, hparts⟩).trans hscan, hu⟩
  | @string q p hq hp _ =>
    intro buf
    refine ⟨buf ++ [quote] ++ q, p ++ closeBrace :: rest, ?_, p, rest, hp, rfl⟩
    rw [List.cons_append, List.append_assoc, scanValue_quote, scanValue_quoted hq, if_pos rfl]
  | @group b g p ho hg hp _ =>
    intro buf
    refine ⟨buf ++ [b] ++ g, p ++ closeBrace :: rest, ?_, p, rest, hp, rfl⟩
    rw [List.cons_append, List.append_assoc, scanValue_opens ho, scanValue_closes hg _ _ (Nat.succ_pos 0)]

theorem element_stuck (h : StuckRest t) :
    ∃ raw u, JsonArrayReader.element ⟨t, true, false⟩ = (.ok (some raw), ⟨u, true, false⟩) ∧ StuckRest u := by
  obtain ⟨w, s, hw, rfl, hskip, -⟩ := exists_blank t
  have hs := h.skip_blank hw
  obtain ⟨b, s', hcons, hclose⟩ := hs.head
  have hopen : s.head? ≠ some closeBracket := by
    rw [hcons]
    exact fun he => hclose (Option.some.inj he)
  obtain ⟨p, rest, hp, rfl⟩ := hs
  obtain ⟨raw, u, hscan, hu⟩ := scanValue_stuck hp rest []
  refine ⟨raw, u, ?_, hu⟩
  unfold JsonArrayReader.element
  dsimp only
  rw [hskip, if_neg hopen, hscan]

theorem nextRaw_stuck (h : StuckRest t) :
    ∃ raw u, JsonArrayReader.nextRaw ⟨t, true, false⟩ = (.ok (some raw), ⟨u, true, false⟩) ∧ StuckRest u := by
  obtain ⟨w, s, hw, rfl, -, hws⟩ := exists_blank t
  have hs := h.skip_blank hw
  obtain ⟨b, s', rfl, hclose⟩ := hs.head
  by_cases hcomma : b = comma
  · subst hcomma
    rw [nextRaw_comma hw]
    exact element_stuck (hs.tail (by decide) (by decide) (by decide))
  · rw [nextRaw_other hw (hws b rfl) hcomma hclose]
    exact element_stuck hs

/-! ### A call that is not -/

theorem nextRaw_progress (h : JsonArrayReader.nextRaw ⟨t, true, false⟩ = (.ok (some raw), r')) :
    ∃ p u, r' = ⟨u, true, false⟩ ∧ t = p ++ u ∧ Level p ∧ (p ≠ [] ∨ StuckRest t) := by
  obtain ⟨w, b, u, hw, hb, rfl, ⟨rfl, hel⟩ | ⟨-, hnone⟩ | ⟨hcomma, hclose, hel⟩⟩ := nextRaw_later h
  · obtain ⟨w', hw', he, hr', hcases⟩ := element_some hel
    obtain rfl : u = w' ++ (raw ++ r'.rest) := he
    have hraw : Level raw := by
      rcases hcases with helement | ⟨rfl, -⟩
      · exact level_raw helement.1
      · exact .nil
    have hlevel : Level (w ++ comma :: (w' ++ raw)) :=
      (level_blank hw).append (.byte (by decide) (by decide) (by decide) ((level_blank hw').append hraw))
    refine ⟨_, r'.rest, hr', ?_, hlevel, .inl (by simp)⟩
    simp only [List.append_assoc, List.cons_append]
  · cases hnone
  · obtain ⟨w', hw', he, hr', hcases⟩ := element_some hel
    cases w' with
    | cons c w' =>
      rw [(List.cons.inj he).1, hw' c List.mem_cons_self] at hb
      cases hb
    | nil =>
      have heq : b :: u = raw ++ r'.rest := he
      rcases hcases with helement | ⟨rfl, hstop⟩
      · refine ⟨w ++ raw, r'.rest, hr', by rw [heq, List.append_assoc], (level_blank hw).append (level_raw helement.1), .inl ?_⟩
        exact fun hnil => element_ne_nil helement (List.append_eq_nil_iff.1 hnil).2
      · -- the byte that begins nothing is no comma, so it is the brace
        have hbrace : b = closeBrace := (hstop b (by rw [← List.nil_append r'.rest, ← heq]; rfl)).resolve_right hcomma
        subst hbrace
        exact ⟨w, r'.rest, hr', by rw [heq, List.nil_append], level_blank hw, .inr ⟨w, u, level_blank hw, rfl⟩⟩

theorem nextRaw_first_progress (h : JsonArrayReader.nextRaw ⟨t, false, false⟩ = (.ok (some raw), r')) :
    ∃ u, r' = ⟨u, true, false⟩ ∧ u.length < t.length ∧ (StuckRest u → Stuck t) := by
  obtain ⟨w, u, hw, rfl, hel⟩ := nextRaw_first h
  obtain ⟨w', hw', he, hr', hcases⟩ := element_some hel
  obtain rfl : u = w' ++ (raw ++ r'.rest) := he
  refine ⟨r'.rest, hr', ?_, fun hstuck => ⟨w, _, hw, rfl, ?_⟩⟩
  · simp only [List.length_append, List.length_cons]
    omega
  · have hraw : Level raw := by
      rcases hcases with helement | ⟨rfl, -⟩
      · exact level_raw helement.1
      · exact .nil
    exact (hstuck.append hraw).append (level_blank hw')

/-! ## Every run -/

section
variable {σ J : Type} {P : JsonReader J} {C : CellCodec} {R : CsvReader σ} {csvLeft : σ → Nat}

theorem ndjsonNext_shorter (row : Nat) (bytes : List UInt8) (h : (ndjsonNext P row bytes).1 = .ok (some out)) :
    (ndjsonNext P row bytes).2.2.length < bytes.length := by
  induction row, bytes using ndjsonNext.induct with
  | case1 row =>
    rw [ndjsonNext, dif_pos rfl] at h
    cases h
  | case2 row bytes hne hutf =>
    rw [ndjsonNext, dif_neg hne, hutf] at h
    cases h
  | case3 row bytes hne text hutf hblank ih =>
    rw [ndjsonNext, dif_neg hne, hutf] at h ⊢
    dsimp only at h ⊢
    rw [if_pos hblank] at h ⊢
    exact Nat.lt_trans (ih h) (readLine_shorter hne)
  | case4 row bytes hne text hutf hblank =>
    rw [ndjsonNext, dif_neg hne, hutf]
    dsimp only
    rw [if_neg hblank]
    exact readLine_shorter hne

theorem csv_consumes (hR : R.Advances csvLeft) (h : src.nextDoc C R = (.ok (some row), src')) :
    (ImportSource.csv src').left csvLeft < (ImportSource.csv src).left csvLeft := by
  have hread : ∀ out mid, src.nextRecord R = (out, mid) → out ≠ .ok none →
      (ImportSource.csv mid).left csvLeft < (ImportSource.csv src).left csvLeft := by
    intro out mid hmid hout
    obtain ⟨reader, columns, pending, n⟩ := src
    unfold CsvSource.nextRecord at hmid
    cases pending with
    | some record =>
      obtain ⟨-, rfl⟩ := Prod.mk.inj hmid
      exact Nat.lt_succ_self _
    | none =>
      obtain ⟨rfl, rfl⟩ := Prod.mk.inj hmid
      exact hR reader _ _ rfl hout
  unfold CsvSource.nextDoc at h
  rcases hmid : src.nextRecord R with ⟨e | (- | record), mid⟩ <;> rw [hmid] at h
  · rw [← (Prod.mk.inj h).2]
    exact hread _ mid hmid (by simp)
  · cases h
  · rw [← (Prod.mk.inj h).2]
    exact hread _ mid hmid (by simp)

/-- No closing brace stands where the array has nothing to close. -/
def Healthy : ImportSource σ → Prop
  | .array reader _ => if reader.opened then ¬ StuckRest reader.rest else ¬ Stuck reader.rest
  | _ => True

/-- **A call that returns a row uses something up, and what is left is healthy again.** -/
theorem healthy_next (hR : R.Advances csvLeft) (hsrc : Healthy src)
    (h : src.nextDoc P C R = (.ok (some row), src')) : Healthy src' ∧ src'.left csvLeft < src.left csvLeft := by
  cases src with
  | rows queue =>
    obtain ⟨hrow, rfl⟩ := Prod.mk.inj h
    obtain ⟨rest, rfl⟩ := List.head?_eq_some_iff.1 (Except.ok.inj hrow)
    exact ⟨trivial, Nat.lt_succ_self _⟩
  | ndjson bytes n =>
    obtain ⟨hrow, rfl⟩ := Prod.mk.inj h
    exact ⟨trivial, ndjsonNext_shorter n bytes hrow⟩
  | csv src =>
    obtain ⟨hrow, rfl⟩ := Prod.mk.inj h
    exact ⟨trivial, csv_consumes hR (Prod.ext hrow rfl)⟩
  | array reader n =>
    obtain ⟨t, opened, finished⟩ := reader
    unfold ImportSource.nextDoc at h
    dsimp only at h
    rcases hraw : JsonArrayReader.nextRaw ⟨t, opened, finished⟩ with ⟨e | (- | raw), r'⟩ <;> rw [hraw] at h
    · cases h
    · cases h
    obtain ⟨-, rfl⟩ := Prod.mk.inj h
    cases finished with
    | true => cases hraw
    | false =>
      cases opened with
      | false =>
        obtain ⟨u, rfl, hlt, hstuck⟩ := nextRaw_first_progress hraw
        exact ⟨fun hu => hsrc (hstuck hu), hlt⟩
      | true =>
        obtain ⟨p, u, rfl, rfl, hp, hcases⟩ := nextRaw_progress hraw
        have hne : p ≠ [] := hcases.resolve_right hsrc
        refine ⟨fun hu => hsrc (hu.append hp), ?_⟩
        have hpos := List.length_pos_of_ne_nil hne
        show u.length < (p ++ u).length
        rw [List.length_append]
        omega

theorem finishes_of_healthy (hR : R.Advances csvLeft) (src : ImportSource σ) (hsrc : Healthy src) : Finishes P C R src := by
  induction hn : src.left csvLeft using Nat.strong_induction_on generalizing src with
  | _ n ih =>
    rcases hnext : src.nextDoc P C R with ⟨e | (- | row), src'⟩
    · exact .failed hnext
    · exact .ended hnext
    · obtain ⟨hhealthy, hlt⟩ := healthy_next hR hsrc hnext
      exact .row hnext (ih _ (hn ▸ hlt) src' hhealthy rfl)

theorem previewLoop_returns (h : Finishes P C R src) (limit : Nat) :
    ∀ preview : Preview J, ∃ fuel result, previewLoop P C R limit fuel preview src = some result := by
  -- a limit that is reached ends the loop at once
  have hfull : ∀ (preview : Preview J) (src : ImportSource σ), limit ≤ preview.docs.length →
      previewLoop P C R limit 1 preview src = some (.ok preview) := fun preview src hlimit => if_pos hlimit
  induction h with
  | @ended src src' hnext =>
    intro preview
    by_cases hlimit : limit ≤ preview.docs.length
    · exact ⟨1, _, hfull preview src hlimit⟩
    · exact ⟨1, .ok preview, by rw [previewLoop, if_neg hlimit, hnext]⟩
  | @failed src src' e hnext =>
    intro preview
    by_cases hlimit : limit ≤ preview.docs.length
    · exact ⟨1, _, hfull preview src hlimit⟩
    · exact ⟨1, .error e, by rw [previewLoop, if_neg hlimit, hnext]⟩
  | @row src src' row hnext _ ih =>
    intro preview
    by_cases hlimit : limit ≤ preview.docs.length
    · exact ⟨1, _, hfull preview src hlimit⟩
    cases row with
    | skipped =>
      obtain ⟨fuel, result, hloop⟩ := ih preview
      exact ⟨fuel + 1, result, by rw [previewLoop, if_neg hlimit, hnext]; exact hloop⟩
    | error e =>
      obtain ⟨fuel, result, hloop⟩ := ih (preview.sample e)
      exact ⟨fuel + 1, result, by rw [previewLoop, if_neg hlimit, hnext]; exact hloop⟩
    | doc doc =>
      cases hdisplay : P.displayJson doc with
      | error e => exact ⟨1, .error e, by rw [previewLoop, if_neg hlimit, hnext]; simp only [hdisplay]⟩
      | ok shown =>
        obtain ⟨fuel, result, hloop⟩ := ih { preview with rows := preview.rows ++ [shown], docs := preview.docs ++ [doc] }
        exact ⟨fuel + 1, result, by rw [previewLoop, if_neg hlimit, hnext]; simpa only [hdisplay] using hloop⟩

theorem healthy_build (h : ImportSource.build P R input = .ok src)
    (hstuck : ¬ ∃ bytes, input = .json .array bytes ∧ Stuck bytes) : Healthy src := by
  cases input with
  | csv reader headers =>
    cases hreader : CsvSource.fromReader R reader headers with
    | error e => simp only [ImportSource.build, hreader, Except.map, reduceCtorEq] at h
    | ok csv =>
      simp only [ImportSource.build, hreader, Except.map, Except.ok.injEq] at h
      subst h
      trivial
  | json shape bytes =>
    cases shape with
    | array =>
      cases h
      exact fun hbytes => hstuck ⟨bytes, rfl, hbytes⟩
    | ndjson =>
      cases h
      trivial
    | object =>
      unfold ImportSource.build at h
      dsimp only at h
      split at h
      · cases h
      · cases h
        trivial

theorem healthy_reads (hR : R.Advances csvLeft) (hstuck : ¬ ∃ bytes, input = .json .array bytes ∧ Stuck bytes) (h : Reads P C R input src) : Healthy src := by
  induction h with
  | start h => exact healthy_build h hstuck
  | next _ hnext ih => exact (healthy_next hR ih hnext).1

theorem not_finishes_of_stuck (h : Finishes P C R src) : ∀ u n, src = .array ⟨u, true, false⟩ n →
    ¬ StuckRest u := by
  have hnext : ∀ {src src' : ImportSource σ} {out : Except AppError (Option RowResult)} {u : List UInt8} {n : Nat},
      src.nextDoc P C R = (out, src') → src = .array ⟨u, true, false⟩ n → StuckRest u →
      ∃ row u', out = .ok (some row) ∧ src' = .array ⟨u', true, false⟩ (n + 1) ∧ StuckRest u' := by
    intro src src' out u n h hsrc hu
    obtain ⟨raw, u', hraw, hu'⟩ := nextRaw_stuck hu
    subst hsrc
    unfold ImportSource.nextDoc at h
    dsimp only at h
    rw [hraw] at h
    obtain ⟨rfl, rfl⟩ := Prod.mk.inj h
    exact ⟨_, u', rfl, rfl, hu'⟩
  induction h with
  | ended h =>
    intro u n hsrc hu
    obtain ⟨row, u', hout, -⟩ := hnext h hsrc hu
    cases hout
  | failed h =>
    intro u n hsrc hu
    obtain ⟨row, u', hout, -⟩ := hnext h hsrc hu
    cases hout
  | row h _ ih =>
    intro u n hsrc hu
    obtain ⟨row, u', -, hsrc', hu'⟩ := hnext h hsrc hu
    exact ih u' (n + 1) hsrc' hu'

/-- **Every call uses something up, the calls come to an end and the preview returns, unless an array has a closing brace
that closes nothing.** -/
theorem progresses_iff (hR : R.Advances csvLeft) (input : ImportInput σ) :
    Progresses P C R csvLeft input ↔ ¬ ∃ bytes, input = .json .array bytes ∧ Stuck bytes := by
  constructor
  · rintro hprog ⟨bytes, rfl, w, u, hw, rfl, hu⟩
    have hfin : Finishes P C R (.array (.new (w ++ openBracket :: u)) 0) := hprog.finishes rfl
    obtain ⟨raw, u', hel, hu'⟩ := element_stuck hu
    have hnext : ImportSource.nextDoc P C R (.array (.new (w ++ openBracket :: u)) 0) =
        (.ok (some (jsonRow P 1 raw)), .array ⟨u', true, false⟩ 1) := by
      unfold ImportSource.nextDoc JsonArrayReader.new
      dsimp only
      rw [nextRaw_open hw, hel]
    cases hfin with
    | ended h => cases hnext.symm.trans h
    | failed h => cases hnext.symm.trans h
    | row h hfin' =>
      obtain ⟨-, rfl⟩ := Prod.mk.inj (hnext.symm.trans h)
      exact not_finishes_of_stuck hfin' u' 1 rfl hu'
  · intro hstuck
    have hbuild : ∀ {src : ImportSource σ}, ImportSource.build P R input = .ok src → Finishes P C R src := fun h =>
      finishes_of_healthy hR _ (healthy_build h hstuck)
    refine ⟨fun hreads hnext => (healthy_next hR (healthy_reads hR hstuck hreads) hnext).2, hbuild, fun previewRows => ?_⟩
    unfold previewImport
    cases hsrc : ImportSource.build P R input with
    | error e => exact ⟨0, _, rfl⟩
    | ok src => exact previewLoop_returns (hbuild hsrc) _ _

end

/-! ### An opened bracket and a closed brace -/

/-- What is read of nothing. -/
def emptyReader : JsonReader Unit where
  fromSlice _ := .error "EOF while parsing a value at line 1 column 0"
  toBson _ := .ok .null
  displayJson _ := .ok ()

theorem rowsReader_advances : rowsReader.Advances List.length := by
  intro rows out rows' h hout
  obtain ⟨rfl, rfl⟩ := Prod.mk.inj h
  cases rows with
  | nil => exact absurd rfl hout
  | cons row rows => exact Nat.lt_succ_self _

theorem progresses_iff_empty : Progresses emptyReader plainCodec rowsReader List.length (.json .array [openBracket, closeBracket]) ↔
    ¬ ∃ bytes, ImportInput.json .array [openBracket, closeBracket] = (.json .array bytes : ImportInput (List (List String))) ∧
      Stuck bytes :=
  progresses_iff rowsReader_advances _

/-- `[}` returns an error for the same brace again and again. -/
theorem brace_stuck : ¬ Progresses emptyReader plainCodec rowsReader List.length (.json .array [openBracket, closeBrace]) := by
  intro h
  have hnext : ∀ n, ImportSource.nextDoc emptyReader plainCodec rowsReader (.array ⟨[closeBrace], true, false⟩ n) =
      (.ok (some (jsonRow emptyReader (n + 1) [])), .array ⟨[closeBrace], true, false⟩ (n + 1)) := fun n => rfl
  have hreads : Reads emptyReader plainCodec rowsReader (.json .array [openBracket, closeBrace])
      (.array ⟨[closeBrace], true, false⟩ 1) := .next (.start rfl) rfl
  exact absurd (h.consumes hreads (hnext 1)) (Nat.lt_irrefl 1)

end ImportExport
