import NosqlBuddy.ImportExport.CsvSource

/-!
# Type overrides

| here | there |
| --- | --- |
| `MappingCodec` | the texts of `CellCodec`, and RFC 3339 and object ids read back |

The casts to a narrower type wrap or saturate, so only a number that the target can hold is kept (`coerce_denotes`); a double
loses its fraction on the way to an integer or a date.
-/

namespace FieldMapping
open Binary64
open ImportExport (AppError CellCodec parseI32 csvCell intText)
open Oplog (Bson Document Fixed)
open Vqb (parseI64 splitSign)
open Text (trim)

inductive TypeOverride where
  | string
  | int32
  | int64
  | double
  | boolean
  | date
  | objectId
deriving DecidableEq, Repr

structure MappingCodec extends CellCodec where
  parseRfc3339 : List Char → Option Int64
  parseObjectId : List Char → Except String (Fixed 12)

/-! ## Texts of errors -/

/-- `bson_type_name` (mapping.rs:307). -/
def bsonTypeName : Bson → String
  | .double _ => "double"
  | .string _ => "string"
  | .document _ => "object"
  | .array _ => "array"
  | .objectId _ => "objectId"
  | .boolean _ => "bool"
  | .dateTime _ => "date"
  | .null => "null"
  | .int32 _ => "int"
  | .int64 _ => "long"
  | .decimal128 _ => "decimal"
  | .binary _ _ => "binary"
  | _ => "other"

/-- Why the digits are no integer in the range: the first one that is none, or that leads out of it. -/
def digitsError (low high : ℤ) (negative : Bool) : ℤ → List Char → String
  | _, [] => ""
  | n, c :: cs =>
    let next := if negative then n * 10 - (c.toNat - '0'.toNat : ℕ) else n * 10 + (c.toNat - '0'.toNat : ℕ)
    if ¬ c.isDigit then "invalid digit found in string"
    else if next < low then "number too small to fit in target type"
    else if high < next then "number too large to fit in target type"
    else digitsError low high negative next cs

/-- `ParseIntError` -/
def parseIntError (low high : ℤ) (cs : List Char) : String :=
  if cs = [] then "cannot parse integer from empty string"
  else if (splitSign cs).2 = [] then "invalid digit found in string"
  else digitsError low high (splitSign cs).1 0 (splitSign cs).2

/-- `ParseFloatError` -/
def parseFloatError (cs : List Char) : String :=
  if cs = [] then "cannot parse float from empty string" else "invalid float literal"

def cannotCoerce (value : Bson) (target : String) : AppError :=
  .validation ("cannot coerce " ++ bsonTypeName value ++ " to " ++ target)

def cannotRead (s target : String) (why : String) : AppError :=
  .validation ("cannot coerce \"" ++ s ++ "\" to " ++ target ++ why)

/-! ## Coercions -/

def boolInt (b : Bool) : ℤ := if b then 1 else 0

section
variable (C : MappingCodec)

/-- `bson_to_string` (mapping.rs:164). -/
def bsonToString : Bson → List Char
  | .null => C.relaxedJson .null
  | v => csvCell C.toCellCodec (some v)

/-- `bson_to_i32` (mapping.rs:184); the cast of a wider integer wraps. -/
def bsonToI32 : Bson → Except AppError Int32
  | .int32 n => .ok n
  | .int64 n => .ok n.toInt32
  | .double bits => .ok (.ofInt (castInt (-2 ^ 31) (2 ^ 31 - 1) bits))
  | .boolean b => .ok (.ofInt (boolInt b))
  | .string s =>
    match parseI32 (trim s.toList) with
    | some n => .ok n
    | none => .error (cannotRead s "int32" (": " ++ parseIntError (-2 ^ 31) (2 ^ 31 - 1) (trim s.toList)))
  | other => .error (cannotCoerce other "int32")

/-- `bson_to_i64` (mapping.rs:203). -/
def bsonToI64 : Bson → Except AppError Int64
  | .int32 n => .ok n.toInt64
  | .int64 n => .ok n
  | .double bits => .ok (.ofInt (castInt (-2 ^ 63) (2 ^ 63 - 1) bits))
  | .boolean b => .ok (.ofInt (boolInt b))
  | .string s =>
    match parseI64 (trim s.toList) with
    | some n => .ok (.ofInt n)
    | none => .error (cannotRead s "int64" (": " ++ parseIntError (-2 ^ 63) (2 ^ 63 - 1) (trim s.toList)))
  | other => .error (cannotCoerce other "int64")

/-- `bson_to_f64` (mapping.rs:222). -/
def bsonToF64 : Bson → Except AppError UInt64
  | .int32 n => .ok (ofInt n.toInt)
  | .int64 n => .ok (ofInt n.toInt)
  | .double bits => .ok bits
  | .boolean b => .ok (ofInt (boolInt b))
  | .string s =>
    match C.parseF64 (trim s.toList) with
    | some bits => .ok bits
    | none => .error (cannotRead s "double" (": " ++ parseFloatError (trim s.toList)))
  | other => .error (cannotCoerce other "double")

/-- `bson_to_bool` (mapping.rs:241). -/
def bsonToBool : Bson → Except AppError Bool
  | .boolean b => .ok b
  | .int32 n => .ok (n.toInt ≠ 0)
  | .int64 n => .ok (n.toInt ≠ 0)
  | .double bits => .ok (bits.toNat % 2 ^ 63 ≠ 0)
  | .string s =>
    if String.ofList ((trim s.toList).map Char.toLower) ∈ ["true", "1", "yes", "y", "t"] then .ok true
    else if String.ofList ((trim s.toList).map Char.toLower) ∈ ["false", "0", "no", "n", "f", ""] then .ok false
    else .error (cannotRead s "bool" "")
  | other => .error (cannotCoerce other "bool")

/-- `bson_to_date` (mapping.rs:265); the bare seconds are looked for where an integer was not found, so they never are. -/
def bsonToDate : Bson → Except AppError Int64
  | .dateTime ms => .ok ms
  | .string s =>
    match C.parseRfc3339 (trim s.toList) with
    | some ms => .ok ms
    | none =>
      match parseI64 (trim s.toList) with
      | some ms => .ok (.ofInt ms)
      | none => .error (cannotRead s "date" " (expected RFC3339 or epoch millis)")
  | .int32 n => .ok n.toInt64
  | .int64 n => .ok n
  | .double bits => .ok (.ofInt (castInt (-2 ^ 63) (2 ^ 63 - 1) bits))
  | other => .error (cannotCoerce other "date")

/-- `bson_to_objectid` (mapping.rs:295). -/
def bsonToObjectid : Bson → Except AppError (Fixed 12)
  | .objectId oid => .ok oid
  | .string s =>
    match C.parseObjectId (trim s.toList) with
    | .ok oid => .ok oid
    | .error e => .error (cannotRead s "objectId" (": " ++ e))
  | other => .error (cannotCoerce other "objectId")

/-- `coerce` (mapping.rs:146). -/
def coerce (value : Bson) (target : TypeOverride) : Except AppError Bson :=
  match value with
  | .null => .ok .null
  | value =>
    match target with
    | .string => .ok (.string (String.ofList (bsonToString C value)))
    | .int32 => (bsonToI32 value).map .int32
    | .int64 => (bsonToI64 value).map .int64
    | .double => (bsonToF64 C value).map .double
    | .boolean => (bsonToBool value).map .boolean
    | .date => (bsonToDate C value).map .dateTime
    | .objectId => (bsonToObjectid C value).map .objectId

end

/-! ## The number that a value is -/

/-- A truth value is 0 or 1, and an instant is its milliseconds. -/
def amount : Bson → Option ℚ
  | .int32 n => some n.toInt
  | .int64 n => some n.toInt
  | .double bits => value bits
  | .boolean b => some (boolInt b)
  | .dateTime ms => some ms.toInt
  | _ => none

def Numeric (t : TypeOverride) : Prop := t = .int32 ∨ t = .int64 ∨ t = .double ∨ t = .date

def HasType (t : TypeOverride) (w : Bson) : Prop :=
  (t = .int32 ∧ ∃ n, w = .int32 n) ∨ (t = .int64 ∧ ∃ n, w = .int64 n) ∨ (t = .double ∧ ∃ bits, w = .double bits) ∨
    (t = .date ∧ ∃ ms, w = .dateTime ms)

/-- The value of the type says the text. -/
def SaysText (C : MappingCodec) (t : TypeOverride) (text : List Char) (w : Bson) : Prop :=
  HasType t w ∧ ((t = .double ∧ ∃ bits, C.parseF64 text = some bits ∧ w = .double bits) ∨
    (t = .date ∧ ∃ ms, C.parseRfc3339 text = some ms ∧ w = .dateTime ms) ∨
    (t ≠ .double ∧ ∃ n : ℤ, parseI64 text = some n ∧ amount w = some (n : ℚ)))

/-- The value is of the type and is the number, without the fraction where the type has none. -/
def Denotes (C : MappingCodec) (t : TypeOverride) (v w : Bson) : Prop :=
  match v with
  | .null => w = .null
  | .string s => SaysText C t (trim s.toList) w
  | .double bits => HasType t w ∧
      if t = .double then w = .double bits
      else ∃ q, value bits = some q ∧ amount w = some (truncated q : ℚ)
  | v => HasType t w ∧ amount w = amount v

/-- A number and not a text or a truth value. -/
def IsNumber : Bson → Prop
  | .int32 _ => True
  | .int64 _ => True
  | .double _ => True
  | _ => False

/-- A double that is a number between the ends. -/
def DoubleFits (low high : ℤ) (bits : UInt64) : Prop :=
  ∃ q, value bits = some q ∧ low ≤ truncated q ∧ truncated q ≤ high

/-- The target can hold the number. -/
def InReach (v : Bson) (t : TypeOverride) : Prop :=
  match v, t with
  | .int64 n, .int32 => -2 ^ 31 ≤ n.toInt ∧ n.toInt ≤ 2 ^ 31 - 1
  | .int64 n, .double => Fits n.toInt.natAbs
  | .double bits, .int32 => DoubleFits (-2 ^ 31) (2 ^ 31 - 1) bits
  | .double bits, .int64 => DoubleFits (-2 ^ 63) (2 ^ 63 - 1) bits
  | .double bits, .date => DoubleFits (-2 ^ 63) (2 ^ 63 - 1) bits
  | _, _ => True

/-! ## Numbers of other types -/

theorem toInt_toInt32 {n : Int64} (h : -2 ^ 31 ≤ n.toInt ∧ n.toInt ≤ 2 ^ 31 - 1) : n.toInt32.toInt = n.toInt := by
  rw [Int64.toInt_toInt32]
  exact Int.bmod_eq_of_le_mul_two (by omega) (by omega)

theorem toInt_toInt64 (n : Int32) : n.toInt64.toInt = n.toInt := Int32.toInt_toInt64 n

theorem toInt_ofInt32 (h : -2 ^ 31 ≤ n ∧ n ≤ 2 ^ 31 - 1) : (Int32.ofInt n).toInt = n :=
  Int32.toInt_ofInt_of_le h.1 (by omega)

theorem toInt_ofInt64 (h : -2 ^ 63 ≤ n ∧ n ≤ 2 ^ 63 - 1) : (Int64.ofInt n).toInt = n :=
  Int64.toInt_ofInt_of_le h.1 (by omega)

theorem value_ofInt_of_fits (hn : n.natAbs ≤ 2 ^ 63) (h : Fits n.natAbs) :
    value (ofInt n) = some (n : ℚ) := by
  rw [value_ofInt hn, (roundedInt_eq_iff n).2 h]

theorem value_ofInt_small (hn : n.natAbs < 2 ^ 53) : value (ofInt n) = some (n : ℚ) :=
  value_ofInt_of_fits (by omega) (fits_of_lt hn)

theorem natAbs_int32 (n : Int32) : n.toInt.natAbs < 2 ^ 53 := by
  have hlow := Int32.le_toInt n
  have hhigh := Int32.toInt_lt n
  omega

theorem natAbs_int64 (n : Int64) : n.toInt.natAbs ≤ 2 ^ 63 := by
  have hlow := Int64.le_toInt n
  have hhigh := Int64.toInt_lt n
  omega

theorem natAbs_boolInt (b : Bool) : (boolInt b).natAbs ≤ 1 := by cases b <;> decide

section
variable {C : MappingCodec}

theorem double_cast (h : DoubleFits low high bits) :
    ∃ q, value bits = some q ∧ castInt low high bits = truncated q ∧
      low ≤ castInt low high bits ∧ castInt low high bits ≤ high := by
  obtain ⟨q, hq, hrange⟩ := h
  have hcast := castInt_of_value hq hrange
  exact ⟨q, hq, hcast, hcast ▸ hrange⟩

theorem coerce_int32 {v : Bson} (h : InReach v .int32) :
    ((∃ e, coerce C v .int32 = .error e) ∧ ¬ IsNumber v) ∨ ∃ w, coerce C v .int32 = .ok w ∧ Denotes C .int32 v w := by
  have htype : ∀ n, HasType .int32 (.int32 n) := fun n => .inl ⟨rfl, n, rfl⟩
  cases v with
  | null => exact .inr ⟨.null, rfl, rfl⟩
  | int32 n => exact .inr ⟨.int32 n, rfl, htype n, rfl⟩
  | int64 n => exact .inr ⟨.int32 n.toInt32, rfl, htype _, by rw [amount, amount, toInt_toInt32 h]⟩
  | boolean b =>
    have hb := natAbs_boolInt b
    exact .inr ⟨.int32 (.ofInt (boolInt b)), rfl, htype _, by rw [amount, amount, toInt_ofInt32 (by omega)]⟩
  | double bits =>
    obtain ⟨q, hq, hcast, hrange⟩ := double_cast h
    refine .inr ⟨.int32 (.ofInt (castInt (-2 ^ 31) (2 ^ 31 - 1) bits)), rfl, htype _, q, hq, ?_⟩
    rw [amount, toInt_ofInt32 hrange, hcast]
  | string s =>
    have hdef : coerce C (.string s) .int32 = (bsonToI32 (.string s)).map .int32 := rfl
    rw [hdef, bsonToI32]
    cases hn : parseI32 (trim s.toList) with
    | none => exact .inl ⟨⟨_, rfl⟩, fun hnum => hnum⟩
    | some n =>
      exact .inr ⟨.int32 n, rfl, htype n, .inr (.inr ⟨by decide, n.toInt, ImportExport.parseI32_some hn, rfl⟩)⟩
  | _ => exact .inl ⟨⟨_, rfl⟩, fun hnum => hnum⟩

theorem coerce_int64 (h : InReach v .int64) :
    ((∃ e, coerce C v .int64 = .error e) ∧ ¬ IsNumber v) ∨ ∃ w, coerce C v .int64 = .ok w ∧ Denotes C .int64 v w := by
  have htype : ∀ n, HasType .int64 (.int64 n) := fun n => .inr (.inl ⟨rfl, n, rfl⟩)
  cases v with
  | null => exact .inr ⟨.null, rfl, rfl⟩
  | int32 n => exact .inr ⟨.int64 n.toInt64, rfl, htype _, by rw [amount, amount, toInt_toInt64]⟩
  | int64 n => exact .inr ⟨.int64 n, rfl, htype n, rfl⟩
  | boolean b =>
    have hb := natAbs_boolInt b
    exact .inr ⟨.int64 (.ofInt (boolInt b)), rfl, htype _, by rw [amount, amount, toInt_ofInt64 (by omega)]⟩
  | double bits =>
    obtain ⟨q, hq, hcast, hrange⟩ := double_cast h
    refine .inr ⟨.int64 (.ofInt (castInt (-2 ^ 63) (2 ^ 63 - 1) bits)), rfl, htype _, q, hq, ?_⟩
    rw [amount, toInt_ofInt64 hrange, hcast]
  | string s =>
    have hdef : coerce C (.string s) .int64 = (bsonToI64 (.string s)).map .int64 := rfl
    rw [hdef, bsonToI64]
    cases hn : parseI64 (trim s.toList) with
    | none => exact .inl ⟨⟨_, rfl⟩, fun hnum => hnum⟩
    | some n =>
      have hrange := ImportExport.parseI64_range hn
      refine .inr ⟨.int64 (.ofInt n), rfl, htype _, .inr (.inr ⟨by decide, n, hn, ?_⟩)⟩
      rw [amount, toInt_ofInt64 (by omega)]
  | _ => exact .inl ⟨⟨_, rfl⟩, fun hnum => hnum⟩

theorem coerce_double (h : InReach v .double) :
    ((∃ e, coerce C v .double = .error e) ∧ ¬ IsNumber v) ∨ ∃ w, coerce C v .double = .ok w ∧ Denotes C .double v w := by
  have htype : ∀ bits, HasType .double (.double bits) := fun bits => .inr (.inr (.inl ⟨rfl, bits, rfl⟩))
  cases v with
  | null => exact .inr ⟨.null, rfl, rfl⟩
  | int32 n => exact .inr ⟨.double (ofInt n.toInt), rfl, htype _, value_ofInt_small (natAbs_int32 n)⟩
  | int64 n => exact .inr ⟨.double (ofInt n.toInt), rfl, htype _, value_ofInt_of_fits (natAbs_int64 n) h⟩
  | boolean b =>
    have hb := natAbs_boolInt b
    exact .inr ⟨.double (ofInt (boolInt b)), rfl, htype _, value_ofInt_small (by omega)⟩
  | double bits => exact .inr ⟨.double bits, rfl, htype bits, rfl⟩
  | string s =>
    have hdef : coerce C (.string s) .double = (bsonToF64 C (.string s)).map .double := rfl
    rw [hdef, bsonToF64]
    cases hbits : C.parseF64 (trim s.toList) with
    | none => exact .inl ⟨⟨_, rfl⟩, fun hnum => hnum⟩
    | some bits => exact .inr ⟨.double bits, rfl, htype bits, .inl ⟨rfl, bits, hbits, rfl⟩⟩
  | _ => exact .inl ⟨⟨_, rfl⟩, fun hnum => hnum⟩

theorem coerce_date (h : InReach v .date) :
    ((∃ e, coerce C v .date = .error e) ∧ ¬ IsNumber v) ∨ ∃ w, coerce C v .date = .ok w ∧ Denotes C .date v w := by
  have htype : ∀ ms, HasType .date (.dateTime ms) := fun ms => .inr (.inr (.inr ⟨rfl, ms, rfl⟩))
  cases v with
  | null => exact .inr ⟨.null, rfl, rfl⟩
  | int32 n => exact .inr ⟨.dateTime n.toInt64, rfl, htype _, by rw [amount, amount, toInt_toInt64]⟩
  | int64 n => exact .inr ⟨.dateTime n, rfl, htype n, rfl⟩
  | dateTime ms => exact .inr ⟨.dateTime ms, rfl, htype ms, rfl⟩
  | double bits =>
    obtain ⟨q, hq, hcast, hrange⟩ := double_cast h
    refine .inr ⟨.dateTime (.ofInt (castInt (-2 ^ 63) (2 ^ 63 - 1) bits)), rfl, htype _, q, hq, ?_⟩
    rw [amount, toInt_ofInt64 hrange, hcast]
  | string s =>
    have hdef : coerce C (.string s) .date = (bsonToDate C (.string s)).map .dateTime := rfl
    rw [hdef, bsonToDate]
    cases hms : C.parseRfc3339 (trim s.toList) with
    | some ms => exact .inr ⟨.dateTime ms, rfl, htype ms, .inr (.inl ⟨rfl, ms, hms, rfl⟩)⟩
    | none =>
      cases hn : parseI64 (trim s.toList) with
      | none => exact .inl ⟨⟨_, rfl⟩, fun hnum => hnum⟩
      | some n =>
        have hrange := ImportExport.parseI64_range hn
        refine .inr ⟨.dateTime (.ofInt n), rfl, htype _, .inr (.inr ⟨by decide, n, hn, ?_⟩)⟩
        rw [amount, toInt_ofInt64 (by omega)]
  | _ => exact .inl ⟨⟨_, rfl⟩, fun hnum => hnum⟩

/-- **A number in reach of the target is kept, up to the fraction where the target has none; what is neither a number nor
says one is an error.** -/
theorem coerce_denotes {v : Bson} {t : TypeOverride} (ht : Numeric t) (h : InReach v t) :
    ((∃ e, coerce C v t = .error e) ∧ ¬ IsNumber v) ∨ ∃ w, coerce C v t = .ok w ∧ Denotes C t v w := by
  rcases ht with rfl | rfl | rfl | rfl
  · exact coerce_int32 h
  · exact coerce_int64 h
  · exact coerce_double h
  · exact coerce_date h

end

/-! ### A fraction -/

/-- Where no text is read and nothing is written but numbers. -/
def plainMapping : MappingCodec where
  toCellCodec := ImportExport.plainCodec
  parseRfc3339 _ := none
  parseObjectId _ := .error "expected 24-character hexadecimal string"

theorem coerce_denotes_forty_two :
    ((∃ e, coerce plainMapping (.int64 42) .int32 = .error e) ∧ ¬ IsNumber (.int64 42)) ∨
      ∃ w, coerce plainMapping (.int64 42) .int32 = .ok w ∧ Denotes plainMapping .int32 (.int64 42) w :=
  coerce_denotes (.inl rfl) ⟨by decide, by decide⟩

/-- 42.5 becomes 42. -/
theorem fraction_dropped : ¬ ∀ v t, Numeric t →
    (∃ e, coerce plainMapping v t = .error e) ∨ ∃ w, coerce plainMapping v t = .ok w ∧ amount w = amount v := by
  intro h
  have hcast : castInt (-2 ^ 31) (2 ^ 31 - 1) 0x4045400000000000 = 42 := by decide
  have hcoerce : coerce plainMapping (.double 0x4045400000000000) .int32 = .ok (.int32 42) :=
    congrArg (fun n => Except.ok (Bson.int32 (.ofInt n))) hcast
  have hvalue : value 0x4045400000000000 = some (85 / 2) := by
    have hexp : exponent 0x4045400000000000 ≠ 2047 := by decide
    have hnumer : signedNumer 0x4045400000000000 = 85 * 2 ^ 46 := by decide
    have hdenom : denom 0x4045400000000000 = 2 ^ 47 := by decide
    rw [value, if_neg hexp, hnumer, hdenom]
    norm_num
  rcases h (.double 0x4045400000000000) .int32 (.inl rfl) with ⟨e, he⟩ | ⟨w, hw, hamount⟩
  · cases hcoerce.symm.trans he
  · cases hcoerce.symm.trans hw
    have hsame : (42 : ℚ) = 85 / 2 := Option.some.inj (hamount.trans hvalue)
    norm_num at hsame

end FieldMapping
