import Mathlib.Logic.Function.Basic
import NosqlBuddy.ImportExport.BsonArchive
import NosqlBuddy.Lib.Bytes
import NosqlBuddy.Lib.Cut
import NosqlBuddy.Lib.Fields
import NosqlBuddy.Oplog.Bson
import NosqlBuddy.Vqb.Scalar

/-!
# Rows of a CSV file

| here | there |
| --- | --- |
| `CellCodec` | the texts of doubles, dates, decimals and Extended JSON |

A record becomes a document with a field for each cell, unless two cells get one name; the value that is inferred from a
cell is not always written as the cell was, but it says the same (`kept_iff`, `cells_said`).
-/

namespace ImportExport
open Oplog (Bson Document Fixed)
open Vqb (caseless parseI64 splitSign readDigits)
open Text (trim)

/-! ## Rows -/

structure RowError where
  row : Option Nat
  message : String
deriving DecidableEq, Repr

inductive RowResult where
  | doc (doc : Document)
  | skipped
  | error (e : RowError)

/-! ## Cells -/

structure CellCodec where
  parseF64 : List Char → Option UInt64
  displayF64 : UInt64 → List Char
  parse_display : ∀ bits, parseF64 (displayF64 bits) = some bits ∨ displayF64 bits = ['N', 'a', 'N']
  /-- `serde_json::from_str`, then `bson::to_bson` -/
  fromJson : List Char → Option Bson
  toRfc3339 : Int64 → Option (List Char)
  decimalText : Fixed 16 → List Char
  /-- `into_relaxed_extjson`, then `serde_json::to_string` -/
  relaxedJson : Bson → List Char

def intText (n : ℤ) : List Char := (toString n).toList

/-- `str::parse::<i32>` -/
def parseI32 (cs : List Char) : Option Int32 :=
  (parseI64 cs).bind fun n => if -2 ^ 31 ≤ n ∧ n < 2 ^ 31 then some (.ofInt n) else none

section
variable (C : CellCodec)

/-- `csv_cell` (csv.rs:123). -/
def csvCell : Option Bson → List Char
  | none => []
  | some .null => []
  | some (.string s) => s.toList
  | some (.int32 n) => intText n.toInt
  | some (.int64 n) => intText n.toInt
  | some (.double bits) => C.displayF64 bits
  | some (.boolean b) => if b then ['t', 'r', 'u', 'e'] else ['f', 'a', 'l', 's', 'e']
  | some (.objectId oid) => Bytes.hexEncode oid.val
  | some (.dateTime ms) => (C.toRfc3339 ms).getD (intText ms.toInt)
  | some (.decimal128 d) => C.decimalText d
  | some other => C.relaxedJson other

/-- A text with a point or an exponent, as a double. -/
def pointedF64 (t : List Char) : Option UInt64 := if '.' ∈ t ∨ 'e' ∈ t ∨ 'E' ∈ t then C.parseF64 t else none

/-- A text in braces or brackets, as a value. -/
def bracketedJson (t : List Char) : Option Bson := if t.head? = some '\x7b' ∨ t.head? = some '[' then C.fromJson t else none

/-- `bson_value_from_cell` (csv_source.rs:116). -/
def bsonValueFromCell (cell : String) : Bson :=
  let trimmed := trim cell.toList
  if trimmed = [] then .null
  else if caseless trimmed "true" then .boolean true
  else if caseless trimmed "false" then .boolean false
  else match parseI32 trimmed with
  | some n => .int32 n
  | none =>
    match parseI64 trimmed with
    | some n => .int64 (.ofInt n)
    | none =>
      match pointedF64 C trimmed with
      | some bits => .double bits
      | none =>
        match bracketedJson C trimmed with
        | some v => v
        | none => .string cell

/-- The spellings that the types write themselves: the words in lower case, an integer and a decimal as they are printed, JSON
as it is printed after the conversion. Text that has no other type is not trimmed. -/
def KeepsCell (cell : String) : Prop :=
  let trimmed := trim cell.toList
  if trimmed = [] then True
  else if caseless trimmed "true" then trimmed = ['t', 'r', 'u', 'e']
  else if caseless trimmed "false" then trimmed = ['f', 'a', 'l', 's', 'e']
  else if (parseI64 trimmed).isSome then ∃ n : ℤ, trimmed = intText n
  else if (pointedF64 C trimmed).isSome then ∃ bits, trimmed = C.displayF64 bits
  else match bracketedJson C trimmed with
  | some v => csvCell C (some v) = trimmed
  | none => trimmed = cell.toList

/-- The text says what the cell says: the same word, integer or double, else the cell with the white space around it. -/
def SaysCell (cell : String) (text : List Char) : Prop :=
  let trimmed := trim cell.toList
  if trimmed = [] then text = []
  else if caseless trimmed "true" then text = ['t', 'r', 'u', 'e']
  else if caseless trimmed "false" then text = ['f', 'a', 'l', 's', 'e']
  else if (parseI64 trimmed).isSome then parseI64 text = parseI64 trimmed
  else if (pointedF64 C trimmed).isSome then C.parseF64 text = pointedF64 C trimmed ∨ text = ['N', 'a', 'N']
  else match bracketedJson C trimmed with
  | some v => text = csvCell C (some v)
  | none => text = cell.toList

end

/-! ## Names -/

/-- `name_k` -/
def suffixed (name : String) (k : Nat) : String := name ++ "_" ++ toString k

/-- `field_{}` with the number of the cell. -/
def fieldName (idx : Nat) : String := "field_" ++ toString (idx + 1)

/-- The name of a column by its header, which may be blank. -/
def headerName (idx : Nat) (name : String) : String :=
  if trim name.toList = [] then fieldName idx else String.ofList (trim name.toList)

/-- The columns, by how often each name was seen before. -/
def dedupFrom (seen : String → Nat) : List String → List String
  | [] => []
  | name :: names =>
    let count := seen name + 1
    (if count = 1 then name else suffixed name count) :: dedupFrom (Function.update seen name count) names

/-- `columns_dedup` (csv_source.rs:147). -/
def columnsDedup (columns : List String) : List String := dedupFrom (fun _ => 0) columns

/-- The key of the cell: its column, or `field_{}` behind the last one (csv_source.rs:104). -/
def keyAt (columns : List String) (idx : Nat) : String := columns[idx]?.getD (fieldName idx)

def numbered (width : Nat) : List String := (List.range width).map fieldName

/-! ## The source -/

/-- `csv::Reader` of another package: `headers` and `read_record`. -/
structure CsvReader (σ : Type) where
  headers : σ → Except String (List String) × σ
  readRecord : σ → Except String (Option (List String)) × σ

structure CsvSource (σ : Type) where
  reader : σ
  columns : List String
  pending : Option (List String)
  row : Nat

section
variable {σ : Type} (C : CellCodec) (R : CsvReader σ)

/-- `from_reader` (csv_source.rs:29). -/
def CsvSource.fromReader (reader : σ) (headers : Bool) : Except AppError (CsvSource σ) :=
  if headers then
    match R.headers reader with
    | (.error e, _) => .error (.validation ("invalid CSV headers: " ++ e))
    | (.ok names, reader) => .ok ⟨reader, columnsDedup (names.mapIdx headerName), none, 1⟩
  else
    match R.readRecord reader with
    | (.error e, _) => .error (.validation ("invalid CSV row: " ++ e))
    | (.ok (some first), reader) => .ok ⟨reader, numbered first.length, some first, 0⟩
    | (.ok none, reader) => .ok ⟨reader, [], none, 0⟩

/-- The record that waits, else the next one that is read. -/
def CsvSource.nextRecord (src : CsvSource σ) : Except String (Option (List String)) × CsvSource σ :=
  match src.pending with
  | some record => (.ok (some record), { src with pending := none })
  | none => ((R.readRecord src.reader).1, { src with reader := (R.readRecord src.reader).2 })

/-- The fields of a record, in the order of its cells (csv_source.rs:102). -/
def recordDoc (columns : List String) (record : List String) : Document :=
  Fields.putAll (record.mapIdx fun idx cell => (keyAt columns idx, bsonValueFromCell C cell)) []

def rowColumns (columns record : List String) : List String := if columns = [] then numbered record.length else columns

/-- `next_doc` (csv_source.rs:79). -/
def CsvSource.nextDoc (src : CsvSource σ) : Except AppError (Option RowResult) × CsvSource σ :=
  match src.nextRecord R with
  | (.ok none, src) => (.ok none, src)
  | (.error e, src) => (.ok (some (.error ⟨some (src.row + 1), e⟩)), { src with row := src.row + 1 })
  | (.ok (some record), src) =>
    (.ok (some (.doc (recordDoc C (rowColumns src.columns record) record))),
      { src with row := src.row + 1, columns := rowColumns src.columns record })

/-- The states of the source. -/
inductive CsvReaches (reader : σ) (headers : Bool) : CsvSource σ → Prop where
  | start {src : CsvSource σ} : CsvSource.fromReader R reader headers = .ok src → CsvReaches reader headers src
  | next {src src' : CsvSource σ} {out : Except AppError (Option RowResult)} : CsvReaches reader headers src →
      src.nextDoc C R = (out, src') → CsvReaches reader headers src'

/-- The record of a row and the document that it becomes. -/
def CsvRow (reader : σ) (headers : Bool) (record : List String) (doc : Document) : Prop :=
  ∃ src src' src'', CsvReaches C R reader headers src ∧ src.nextRecord R = (.ok (some record), src') ∧
    src.nextDoc C R = (.ok (some (.doc doc)), src'')

/-- The names of the header row, before repeated ones are numbered. -/
def headings (reader : σ) (headers : Bool) : List String :=
  if headers then
    match (R.headers reader).1 with
    | .ok names => names.mapIdx headerName
    | .error _ => []
  else []

/-- A field for each cell, by names of their own, that is written as the cell was but for the white space around it. -/
def Kept (record : List String) (doc : Document) : Prop :=
  (doc.map Prod.fst).Nodup ∧ doc.map (fun f => csvCell C (some f.2)) = record.map fun cell => trim cell.toList

end

/-- Two of the first cells get one name: a header is what the k-th of another one is renamed to, or it is the name of
a cell behind the headers. -/
def HeaderClash (names : List String) (width : Nat) : Prop :=
  (∃ name k, 2 ≤ k ∧ k ≤ (names.take width).count name ∧ suffixed name k ∈ names.take width) ∨
    ∃ idx, names.length ≤ idx ∧ idx < width ∧ fieldName idx ∈ names

/-! ## What a cell says -/

theorem readDigits_toDigits (n : ℕ) : readDigits (Nat.toDigits 10 n) = some n := by
  have hdigits : (Nat.toDigits 10 n).all Char.isDigit = true :=
    List.all_eq_true.2 fun c hc => Nat.isDigit_of_mem_toDigits (by decide) (by decide) hc
  rw [readDigits, if_pos ⟨Nat.toDigits_ne_nil, hdigits⟩, Nat.ofDigitChars_ten_toDigits]

theorem intText_natCast (n : ℕ) : intText n = Nat.toDigits 10 n := Nat.toList_repr

theorem intText_negSucc (n : ℕ) : intText (Int.negSucc n) = '-' :: Nat.toDigits 10 (n + 1) := by
  have hrepr : toString (Int.negSucc n) = "-" ++ Nat.repr (n + 1) := rfl
  rw [intText, hrepr, String.toList_append, Nat.toList_repr]
  rfl

theorem parseI64_intText (n : ℤ) : parseI64 (intText n) = if -2 ^ 63 ≤ n ∧ n < 2 ^ 63 then some n else none := by
  cases n with
  | ofNat n =>
    obtain ⟨c, cs, hcs⟩ := List.exists_cons_of_ne_nil (@Nat.toDigits_ne_nil n 10)
    have hdigit : c.isDigit = true := Nat.isDigit_of_mem_toDigits (by decide) (by decide) (hcs ▸ List.mem_cons_self)
    have hsign : splitSign (Nat.toDigits 10 n) = (false, Nat.toDigits 10 n) := by
      rw [hcs]
      refine Vqb.splitSign_of_ne ?_ ?_ <;> rintro rfl <;> exact absurd hdigit (by decide)
    have htext : intText (Int.ofNat n) = Nat.toDigits 10 n := intText_natCast n
    rw [htext, parseI64, hsign]
    simp only [readDigits_toDigits, Bool.false_eq_true, if_false]
    rfl
  | negSucc n =>
    rw [intText_negSucc, parseI64]
    simp only [splitSign, readDigits_toDigits, if_true]
    rfl

theorem parseI64_range (h : parseI64 t = some n) : -2 ^ 63 ≤ n ∧ n < 2 ^ 63 := by
  unfold parseI64 at h
  split at h
  split at h
  · dsimp only at h
    split at h <;> split at h <;> first | (cases h; assumption) | cases h
  · cases h

theorem intText_eq_iff (h : parseI64 t = some n) : intText n = t ↔ ∃ m : ℤ, t = intText m := by
  constructor
  · intro he
    exact ⟨n, he.symm⟩
  · rintro ⟨m, rfl⟩
    rw [parseI64_intText] at h
    split at h
    · rw [Option.some.inj h]
    · cases h

theorem parseI32_some (h : parseI32 t = some i) : parseI64 t = some i.toInt := by
  obtain ⟨n, hn, hi⟩ := Option.bind_eq_some_iff.1 h
  split at hi
  · next hrange =>
    rw [hn, ← Option.some.inj hi, Int32.toInt_ofInt_of_le hrange.1 hrange.2]
  · cases hi

section
variable {C : CellCodec}

theorem displayF64_eq_iff (h : pointedF64 C t = some bits) :
    C.displayF64 bits = t ↔ ∃ other, t = C.displayF64 other := by
  constructor
  · intro he
    exact ⟨bits, he.symm⟩
  · rintro ⟨other, rfl⟩
    unfold pointedF64 at h
    split at h
    · next hpoint =>
      rcases C.parse_display other with hback | hnan
      · rw [Option.some.inj (h.symm.trans hback)]
      · rw [hnan] at hpoint
        exact absurd hpoint (by decide)
    · cases h

theorem csvCell_integer {t : List Char} {n : ℤ} (h : parseI64 t = some n) :
    csvCell C (some (match parseI32 t with | some i => .int32 i | none => .int64 (.ofInt n))) = intText n := by
  cases hi : parseI32 t with
  | some i =>
    rw [← Option.some.inj ((parseI32_some hi).symm.trans h)]
    rfl
  | none =>
    have hrange := parseI64_range h
    have hback : (Int64.ofInt n).toInt = n := Int64.toInt_ofInt_of_le hrange.1 hrange.2
    exact congrArg intText hback

theorem csvCell_value (cell : String) : csvCell C (some (bsonValueFromCell C cell)) =
    let trimmed := trim cell.toList
    if trimmed = [] then []
    else if caseless trimmed "true" then ['t', 'r', 'u', 'e']
    else if caseless trimmed "false" then ['f', 'a', 'l', 's', 'e']
    else match parseI64 trimmed with
    | some n => intText n
    | none =>
      match pointedF64 C trimmed with
      | some bits => C.displayF64 bits
      | none =>
        match bracketedJson C trimmed with
        | some v => csvCell C (some v)
        | none => cell.toList := by
  unfold bsonValueFromCell
  dsimp only
  split_ifs
  · rfl
  · rfl
  · rfl
  · cases hn : parseI64 (trim cell.toList) with
    | some n =>
      have hcell := @csvCell_integer C _ _ hn
      cases hi : parseI32 (trim cell.toList) <;> rw [hi] at hcell <;> exact hcell
    | none =>
      rw [parseI32, hn, Option.bind_none]
      dsimp only
      cases pointedF64 C (trim cell.toList) with
      | some bits => rfl
      | none => cases bracketedJson C (trim cell.toList) <;> rfl

/-- **The value of a cell is written as the cell was exactly for these spellings.** -/
theorem csvCell_iff (cell : String) :
    csvCell C (some (bsonValueFromCell C cell)) = trim cell.toList ↔ KeepsCell C cell := by
  rw [csvCell_value]
  unfold KeepsCell
  dsimp only
  split_ifs with hempty htrue hfalse hint hpoint
  · exact iff_of_true hempty.symm trivial
  · exact eq_comm
  · exact eq_comm
  · obtain ⟨n, hn⟩ := Option.isSome_iff_exists.1 hint
    rw [← intText_eq_iff hn, hn]
  · obtain ⟨bits, hbits⟩ := Option.isSome_iff_exists.1 hpoint
    rw [← displayF64_eq_iff hbits, hbits, Option.not_isSome_iff_eq_none.1 hint]
  · rw [Option.not_isSome_iff_eq_none.1 hint, Option.not_isSome_iff_eq_none.1 hpoint]
    cases bracketedJson C (trim cell.toList) with
    | some v => exact Iff.rfl
    | none => exact eq_comm

/-- **The value of a cell is written as something that says the same.** -/
theorem csvCell_shows (cell : String) : SaysCell C cell (csvCell C (some (bsonValueFromCell C cell))) := by
  rw [csvCell_value]
  unfold SaysCell
  dsimp only
  split_ifs with hempty htrue hfalse hint hpoint
  · rfl
  · rfl
  · rfl
  · obtain ⟨n, hn⟩ := Option.isSome_iff_exists.1 hint
    rw [hn]
    exact (parseI64_intText n).trans (if_pos (parseI64_range hn))
  · obtain ⟨bits, hbits⟩ := Option.isSome_iff_exists.1 hpoint
    rw [hbits, Option.not_isSome_iff_eq_none.1 hint]
    exact C.parse_display bits
  · rw [Option.not_isSome_iff_eq_none.1 hint, Option.not_isSome_iff_eq_none.1 hpoint]
    cases bracketedJson C (trim cell.toList) <;> rfl

end

/-! ## How often a name was seen -/

section
variable {l : List String} {a : String}

theorem count_take_succ (h : l[i]? = some a) : (l.take (i + 1)).count a = (l.take i).count a + 1 := by
  rw [List.take_add_one, h, Option.toList_some, List.count_append, List.count_singleton_self]

theorem count_take_le (h : i ≤ j) : (l.take i).count a ≤ (l.take j).count a :=
  (List.take_sublist_take_left h).count_le a

theorem count_take_lt (hij : i < j) (hj : l[j]? = some a) : (l.take (i + 1)).count a < (l.take (j + 1)).count a := by
  rw [count_take_succ hj]
  exact Nat.lt_succ_of_le (count_take_le hij)

theorem exists_count_eq (hk : 1 ≤ k) : ∀ {w : Nat}, k ≤ (l.take w).count a →
    ∃ i < w, l[i]? = some a ∧ (l.take (i + 1)).count a = k
  | 0, h => by
    rw [List.take_zero, List.count_nil] at h
    omega
  | w + 1, h => by
    by_cases hw : k ≤ (l.take w).count a
    · obtain ⟨i, hi, hrest⟩ := exists_count_eq hk hw
      exact ⟨i, by omega, hrest⟩
    · have hlast : l[w]? = some a := by
        rw [List.take_add_one, List.count_append] at h
        cases hget : l[w]? with
        | none =>
          rw [hget, Option.toList_none, List.count_nil] at h
          omega
        | some b =>
          rw [hget, Option.toList_some] at h
          by_cases hb : b = a
          · rw [hb]
          · rw [List.count_singleton, if_neg (by simpa using hb)] at h
            omega
      refine ⟨w, Nat.lt_succ_self w, hlast, ?_⟩
      rw [count_take_succ hlast] at h ⊢
      omega

end

/-! ## Names of their own -/

/-- A name, with the number of times that it was seen unless that is one. -/
def labelled (name : String) (count : Nat) : String := if count = 1 then name else suffixed name count

theorem dedupFrom_getElem : ∀ (names : List String) (seen : String → Nat) (i : Nat), (dedupFrom seen names)[i]? =
    names[i]?.map fun name => labelled name (seen name + (names.take (i + 1)).count name)
  | [], _, _ => rfl
  | name :: names, seen, 0 => by
    rw [List.take_succ_cons, List.take_zero, List.getElem?_cons_zero, Option.map_some, List.count_singleton_self]
    rfl
  | name :: names, seen, i + 1 => by
    have htail : (dedupFrom seen (name :: names))[i + 1]? =
        (dedupFrom (Function.update seen name (seen name + 1)) names)[i]? := rfl
    rw [htail, dedupFrom_getElem names, List.getElem?_cons_succ, List.take_succ_cons]
    cases names[i]? with
    | none => rfl
    | some other =>
      rw [Option.map_some, Option.map_some, List.count_cons]
      congr 2
      by_cases ho : other = name
      · rw [ho, Function.update_self, if_pos (beq_self_eq_true name)]
        omega
      · rw [Function.update_of_ne ho, if_neg (by simpa using Ne.symm ho)]
        rfl

theorem keyAt_dedup (h : names[i]? = some name) :
    keyAt (columnsDedup names) i = labelled name ((names.take (i + 1)).count name) := by
  rw [keyAt, columnsDedup, dedupFrom_getElem, h, Option.map_some, Option.getD_some, Nat.zero_add]

theorem keyAt_behind (h : names.length ≤ i) : keyAt (columnsDedup names) i = fieldName i := by
  rw [keyAt, columnsDedup, dedupFrom_getElem, List.getElem?_eq_none h, Option.map_none, Option.getD_none]

theorem toList_suffixed (name : String) (k : Nat) : (suffixed name k).toList = name.toList ++ '_' :: Nat.toDigits 10 k := by
  have hk : (toString k).toList = Nat.toDigits 10 k := Nat.toList_repr
  rw [suffixed, String.toList_append, String.toList_append, hk, List.append_assoc]
  rfl

theorem underscore_notMem_toDigits (k : Nat) : '_' ∉ Nat.toDigits 10 k := fun h =>
  absurd (Nat.isDigit_of_mem_toDigits (by decide) (by decide) h) (by decide)

theorem suffixed_inj (h : suffixed a k = suffixed b l) : a = b ∧ k = l := by
  have hlist := congrArg String.toList h
  rw [toList_suffixed, toList_suffixed] at hlist
  -- the number starts behind the last underscore
  rcases Cut.joined_eq_iff.1 hlist with ⟨hname, hdigits⟩ | ⟨t, -, hdigits⟩ | ⟨t, -, hdigits⟩
  · refine ⟨String.toList_inj.1 hname, ?_⟩
    have hvalue := congrArg (Nat.ofDigitChars 10 · 0) hdigits
    simpa only [Nat.ofDigitChars_ten_toDigits] using hvalue
  · exact absurd (hdigits ▸ List.mem_append_right _ List.mem_cons_self) (underscore_notMem_toDigits l)
  · exact absurd (hdigits ▸ List.mem_append_right _ List.mem_cons_self) (underscore_notMem_toDigits k)

theorem fieldName_eq (idx : Nat) : fieldName idx = suffixed "field" (idx + 1) := rfl

theorem fieldName_inj (h : fieldName i = fieldName j) : i = j := by
  rw [fieldName_eq, fieldName_eq] at h
  exact Nat.succ_injective (suffixed_inj h).2

section
variable {names : List String} {width : Nat}

theorem getElem?_of_lt {l : List String} {i : Nat} (h : i < l.length) : ∃ name, l[i]? = some name :=
  ⟨l[i], List.getElem?_eq_getElem h⟩

theorem mem_take_of_getElem? {l : List String} {i w : Nat} {a : String} (hi : i < w) (h : l[i]? = some a) : a ∈ l.take w :=
  List.mem_of_getElem? ((List.getElem?_take_of_lt hi).trans h)

theorem clash_of_lt {i j : Nat} (hij : i < j) (hj : j < width)
    (h : keyAt (columnsDedup names) i = keyAt (columnsDedup names) j) : HeaderClash names width := by
  have hi : i < width := Nat.lt_trans hij hj
  rcases Nat.lt_or_ge i names.length with hilen | hilen
  · obtain ⟨a, ha⟩ := getElem?_of_lt hilen
    have hcount : 1 ≤ (names.take (i + 1)).count a := by
      rw [count_take_succ ha]
      exact Nat.succ_pos _
    rw [keyAt_dedup ha] at h
    rcases Nat.lt_or_ge j names.length with hjlen | hjlen
    · -- two columns
      obtain ⟨b, hb⟩ := getElem?_of_lt hjlen
      have hcount' : 1 ≤ (names.take (j + 1)).count b := by
        rw [count_take_succ hb]
        exact Nat.succ_pos _
      rw [keyAt_dedup hb] at h
      unfold labelled at h
      split_ifs at h with hone hone' hone'
      · have hlt := count_take_lt hij (h ▸ hb)
        rw [h] at hlt hone
        omega
      · exact .inl ⟨b, (names.take (j + 1)).count b, by omega, count_take_le hj, h ▸ mem_take_of_getElem? hi ha⟩
      · exact .inl ⟨a, (names.take (i + 1)).count a, by omega, count_take_le hi, h ▸ mem_take_of_getElem? hj hb⟩
      · obtain ⟨rfl, hcounts⟩ := suffixed_inj h
        exact absurd hcounts (Nat.ne_of_lt (count_take_lt hij hb))
    · -- a column and a cell behind them
      rw [keyAt_behind hjlen] at h
      unfold labelled at h
      split_ifs at h
      · exact .inr ⟨j, hjlen, hj, h ▸ List.mem_of_getElem? ha⟩
      · have hnumber := (suffixed_inj (h.trans (fieldName_eq j))).2
        have hle := (List.count_le_length (a := a) (l := names.take (i + 1))).trans (List.length_take_le _ _)
        omega
  · rw [keyAt_behind hilen, keyAt_behind (by omega)] at h
    exact absurd (fieldName_inj h) (Nat.ne_of_lt hij)

theorem exists_keyAt (h : name ∈ names.take width) :
    ∃ i < width, i < names.length ∧ names[i]? = some name ∧ keyAt (columnsDedup names) i = name := by
  obtain ⟨i, hi, hget, hcount⟩ := exists_count_eq (Nat.le_refl 1) (List.one_le_count_iff.2 h)
  refine ⟨i, hi, ?_, hget, ?_⟩
  · exact (List.getElem?_eq_some_iff.1 hget).1
  · rw [keyAt_dedup hget, hcount]
    exact if_pos rfl

/-- **The cells have names of their own exactly if no headers clash.** -/
theorem nodup_keyAt_iff (names : List String) (width : Nat) :
    ((List.range width).map (keyAt (columnsDedup names))).Nodup ↔ ¬ HeaderClash names width := by
  rw [List.nodup_map_iff_inj_on List.nodup_range]
  constructor
  · rintro hinj (⟨name, k, hk, hcount, hmem⟩ | ⟨idx, hlen, hidx, hmem⟩)
    · obtain ⟨i, hi, hget, hseen⟩ := exists_count_eq (Nat.le_of_succ_le hk) hcount
      obtain ⟨j, hj, -, hget', hkey⟩ := exists_keyAt hmem
      have hsame : keyAt (columnsDedup names) i = keyAt (columnsDedup names) j := by
        rw [keyAt_dedup hget, hseen, hkey, labelled, if_neg (by omega)]
      have hij := hinj i (List.mem_range.2 hi) j (List.mem_range.2 hj) hsame
      -- a name is shorter than the same name with a number
      have hlen := congrArg (fun s : String => s.toList.length) (Option.some.inj (hget.symm.trans (hij ▸ hget')))
      simp only [toList_suffixed, List.length_append, List.length_cons] at hlen
      omega
    · rw [← List.take_of_length_le hlen] at hmem
      obtain ⟨j, hj, hjlen, -, hkey⟩ := exists_keyAt hmem
      have hij := hinj j (List.mem_range.2 (Nat.lt_trans hj hidx)) idx (List.mem_range.2 hidx)
        (hkey.trans (keyAt_behind hlen).symm)
      omega
  · intro hclash i hi j hj h
    rcases Nat.lt_trichotomy i j with hlt | heq | hgt
    · exact absurd (clash_of_lt hlt (List.mem_range.1 hj) h) hclash
    · exact heq
    · exact absurd (clash_of_lt hgt (List.mem_range.1 hi) h.symm) hclash

end

/-! ## The document of a record -/

section
variable {σ : Type} {C : CellCodec} {R : CsvReader σ}

theorem keyAt_numbered (width idx : Nat) : keyAt (numbered width) idx = fieldName idx := by
  rw [keyAt, numbered, List.getElem?_map]
  rcases Nat.lt_or_ge idx width with h | h
  · rw [List.getElem?_range h, Option.map_some, Option.getD_some]
  · rw [List.getElem?_eq_none (by simpa using h), Option.map_none, Option.getD_none]

/-- The names of the cells are the ones of the header row, whatever the columns are. -/
def NamedBy (names columns : List String) : Prop := ∀ idx, keyAt columns idx = keyAt (columnsDedup names) idx

theorem namedBy_numbered (width : Nat) : NamedBy [] (numbered width) := fun idx => keyAt_numbered width idx

theorem NamedBy.rowColumns (h : NamedBy names columns) (record : List String) :
    NamedBy names (rowColumns columns record) := by
  unfold ImportExport.rowColumns
  split_ifs with hc
  · intro idx
    rw [← h idx, hc, keyAt_numbered]
    rfl
  · exact h

theorem namedBy_start (h : CsvSource.fromReader R reader headers = .ok src) : NamedBy (headings R reader headers) src.columns := by
  unfold CsvSource.fromReader at h
  unfold headings
  cases headers with
  | true =>
    rw [if_pos rfl] at h ⊢
    rcases hread : R.headers reader with ⟨e | names, reader'⟩ <;> rw [hread] at h
    · cases h
    · cases h
      exact fun idx => rfl
  | false =>
    rw [if_neg (by decide)] at h ⊢
    rcases hread : R.readRecord reader with ⟨e | (- | first), reader'⟩ <;> rw [hread] at h
    · cases h
    · cases h
      exact fun idx => rfl
    · cases h
      exact namedBy_numbered _

theorem nextRecord_columns (src : CsvSource σ) : (src.nextRecord R).2.columns = src.columns := by
  unfold CsvSource.nextRecord
  split <;> rfl

theorem namedBy_reaches (h : CsvReaches C R reader headers src) :
    NamedBy (headings R reader headers) src.columns := by
  induction h with
  | start h => exact namedBy_start h
  | @next src src' out _ hnext ih =>
    have hcolumns := nextRecord_columns (R := R) src
    unfold CsvSource.nextDoc at hnext
    rcases hread : src.nextRecord R with ⟨e | (- | record), mid⟩ <;> rw [hread] at hnext hcolumns <;>
      dsimp only at hnext hcolumns <;> rw [← (Prod.mk.inj hnext).2]
    · exact hcolumns ▸ ih
    · exact hcolumns ▸ ih
    · exact (hcolumns.symm ▸ ih : NamedBy _ mid.columns).rowColumns record

theorem keys_recordDoc (columns record : List String) :
    (record.mapIdx fun idx cell => (keyAt columns idx, bsonValueFromCell C cell)).map Prod.fst =
      (List.range record.length).map (keyAt columns) := by
  refine List.ext_getElem? fun i => ?_
  rw [List.getElem?_map, List.getElem?_mapIdx, List.getElem?_map]
  rcases Nat.lt_or_ge i record.length with h | h
  · rw [List.getElem?_range h, List.getElem?_eq_getElem h]
    rfl
  · rw [List.getElem?_eq_none h, List.getElem?_eq_none (by simpa using h)]
    rfl

theorem cells_recordDoc (columns record : List String) :
    (record.mapIdx fun idx cell => (keyAt columns idx, bsonValueFromCell C cell)).map (fun f => csvCell C (some f.2)) =
      record.map fun cell => csvCell C (some (bsonValueFromCell C cell)) := by
  refine List.ext_getElem? fun i => ?_
  rw [List.getElem?_map, List.getElem?_mapIdx, List.getElem?_map, Option.map_map]
  rfl

theorem recordDoc_kept_iff (columns record : List String) : Kept C record (recordDoc C columns record) ↔
    ((List.range record.length).map (keyAt columns)).Nodup ∧ ∀ cell ∈ record, KeepsCell C cell := by
  unfold Kept recordDoc
  constructor
  · rintro ⟨-, hcells⟩
    have hlen := congrArg List.length hcells
    rw [List.length_map, List.length_map] at hlen
    have hnodup := @Fields.nodup_of_length_putAll _ (record.mapIdx fun idx cell => (keyAt columns idx, bsonValueFromCell C cell)) []
      List.nodup_nil (hlen.trans (by rw [List.length_nil, List.length_mapIdx, Nat.zero_add]))
    rw [Fields.putAll_of_nodup hnodup, List.nil_append, cells_recordDoc] at hcells
    rw [List.nil_append, keys_recordDoc] at hnodup
    exact ⟨hnodup, fun cell hcell => (csvCell_iff cell).1 (List.map_inj_left.1 hcells cell hcell)⟩
  · rintro ⟨hnodup, hcells⟩
    rw [← keys_recordDoc] at hnodup
    rw [Fields.putAll_of_nodup (by rwa [List.nil_append]), List.nil_append, cells_recordDoc]
    exact ⟨hnodup, List.map_congr_left fun cell hcell => (csvCell_iff cell).2 (hcells cell hcell)⟩

theorem nextDoc_doc {src src' src'' : CsvSource σ} {record : List String} {doc : Document}
    (hread : src.nextRecord R = (.ok (some record), src')) (hnext : src.nextDoc C R = (.ok (some (.doc doc)), src'')) :
    doc = recordDoc C (rowColumns src.columns record) record := by
  have hcolumns := nextRecord_columns (R := R) src
  rw [hread] at hcolumns
  unfold CsvSource.nextDoc at hnext
  rw [hread] at hnext
  dsimp only at hnext hcolumns
  rw [hcolumns] at hnext
  exact (RowResult.doc.inj (Option.some.inj (Except.ok.inj (Prod.mk.inj hnext).1))).symm

/-- **A row is kept**, field by field, exactly where no headers clash and every cell is spelled as its type writes it. -/
theorem kept_iff {reader : σ} {headers : Bool} {record : List String} {doc : Document}
    (h : CsvRow C R reader headers record doc) :
    Kept C record doc ↔ ¬ HeaderClash (headings R reader headers) record.length ∧ ∀ cell ∈ record, KeepsCell C cell := by
  obtain ⟨src, src', src'', hreach, hread, hnext⟩ := h
  have hnamed := (namedBy_reaches hreach).rowColumns record
  rw [nextDoc_doc hread hnext, recordDoc_kept_iff, ← nodup_keyAt_iff, List.map_congr_left fun idx _ => hnamed idx]

/-- **Where no headers clash there is a field for each cell, in order and by names of their own; what it is written as says
what the cell says, and is the cell exactly if that is spelled as its type writes it.** -/
theorem cells_said {reader : σ} {headers : Bool} {record : List String} {doc : Document}
    (h : CsvRow C R reader headers record doc) (hclash : ¬ HeaderClash (headings R reader headers) record.length) :
    (doc.map Prod.fst).Nodup ∧ List.Forall₂ (fun cell f => SaysCell C cell (csvCell C (some f.2)) ∧
      (csvCell C (some f.2) = trim cell.toList ↔ KeepsCell C cell)) record doc := by
  obtain ⟨src, src', src'', hreach, hread, hnext⟩ := h
  have hnamed := (namedBy_reaches hreach).rowColumns record
  have hnodup := (nodup_keyAt_iff _ _).2 hclash
  rw [← List.map_congr_left fun idx _ => hnamed idx, ← keys_recordDoc] at hnodup
  rw [nextDoc_doc hread hnext, recordDoc, Fields.putAll_of_nodup (by rwa [List.nil_append]), List.nil_append]
  refine ⟨hnodup, List.forall₂_iff_get.2 ⟨List.length_mapIdx.symm, fun i hi hi' => ?_⟩⟩
  rw [List.get_eq_getElem, List.get_eq_getElem, List.getElem_mapIdx]
  exact ⟨csvCell_shows _, csvCell_iff _⟩

end

/-! ### Leading zeros and a header with a number -/

/-- Where no cell has a point, an exponent or a bracket, and nothing is stored but numbers and text. -/
def plainCodec : CellCodec where
  parseF64 _ := none
  displayF64 _ := ['N', 'a', 'N']
  parse_display _ := .inr rfl
  fromJson _ := none
  toRfc3339 _ := none
  decimalText _ := []
  relaxedJson _ := []

/-- The reader of a file of these rows. -/
def rowsReader : CsvReader (List (List String)) where
  headers rows := (.ok (rows.head?.getD []), rows.tail)
  readRecord rows := (.ok rows.head?, rows.tail)

theorem headerClash_one (name : String) : ¬ HeaderClash [name] 1 := by
  rintro (⟨other, k, hk, hcount, -⟩ | ⟨idx, hlen, hidx, -⟩)
  · have hle := hcount.trans List.count_le_length
    simp only [List.length_take, List.length_singleton] at hle
    omega
  · rw [List.length_singleton] at hlen
    omega

theorem cells_said_seven : (["n"] : List String).Nodup ∧
    List.Forall₂ (fun cell f => SaysCell plainCodec cell (csvCell plainCodec (some f.2)) ∧
      (csvCell plainCodec (some f.2) = trim cell.toList ↔ KeepsCell plainCodec cell)) ["7"] [("n", .int32 7)] :=
  @cells_said _ plainCodec rowsReader [["n"], ["7"]] true ["7"] [("n", .int32 7)] ⟨_, _, _, .start rfl, rfl, rfl⟩
    (headerClash_one "n")

theorem kept_seven : Kept plainCodec ["7"] [("n", .int32 7)] ↔
    ¬ HeaderClash (headings rowsReader [["n"], ["7"]] true) 1 ∧ ∀ cell ∈ ["7"], KeepsCell plainCodec cell :=
  @kept_iff _ plainCodec rowsReader [["n"], ["7"]] true ["7"] [("n", .int32 7)] ⟨_, _, _, .start rfl, rfl, rfl⟩

/-- `007` becomes 7, and the second of two columns `a` takes the name of a column `a_2`. -/
theorem cells_lost :
    ¬ (∀ record doc, CsvRow plainCodec rowsReader [["a"], ["007"]] true record doc → Kept plainCodec record doc) ∧
    ¬ (∀ record doc, CsvRow plainCodec rowsReader [["a", "a", "a_2"], ["x", "y", "z"]] true record doc →
      Kept plainCodec record doc) := by
  constructor
  · intro h
    have hkept := h ["007"] [("a", .int32 7)] ⟨_, _, _, .start rfl, rfl, rfl⟩
    exact absurd hkept.2 (by decide)
  · intro h
    have hkept := h ["x", "y", "z"] [("a", .string "x"), ("a_2", .string "z")] ⟨_, _, _, .start rfl, rfl, rfl⟩
    exact absurd hkept.2 (by decide)

end ImportExport
