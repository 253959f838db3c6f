import NosqlBuddy.Oplog.Bson

/-!
# The canonical encoding of oplog entries

`audit-service/src/audit/oplog_canon.rs`, spec `oplog-hash-v1`.

| here | there |
| --- | --- |
| `tagNull` … `tagDecimal128` | the type tags (oplog_canon.rs:61-74) |
| `display` | `to_string` of the types without a branch of their own (oplog_canon.rs:206) |

A value other than an array or a document is written as a tag, some bytes whose number the tag
determines, and byte strings behind their lengths, whose number the tag determines as well (`Atom`). So
the bytes of a value tell where they end and determine it up to the order of fields, the bits of a NaN
and the types that share the tag of strings (`canonicalizeBson_append_inj`).
-/

namespace Oplog
open Codes

def tagNull : UInt8 := 0x01
def tagBool : UInt8 := 0x02
def tagInt32 : UInt8 := 0x03
def tagInt64 : UInt8 := 0x04
def tagDouble : UInt8 := 0x05
def tagString : UInt8 := 0x06
def tagObjectId : UInt8 := 0x07
def tagDateTime : UInt8 := 0x08
def tagTimestamp : UInt8 := 0x09
def tagBinary : UInt8 := 0x0A
def tagRegex : UInt8 := 0x0B
def tagArray : UInt8 := 0x0C
def tagDocument : UInt8 := 0x0D
def tagDecimal128 : UInt8 := 0x0E

/-- `s.as_bytes()`. -/
def utf8 (s : String) : List UInt8 := s.toByteArray.data.toList

theorem utf8_injective : Function.Injective utf8 := by
  intro s t h
  refine String.toByteArray_inj.1 (ByteArray.ext ?_)
  exact Array.toList_inj.1 h

/-- `f64::is_nan`, on the bits: the exponent is full and the fraction is not zero. -/
def isNan (bits : UInt64) : Bool :=
  bits.toNat / 2 ^ 52 % 2 ^ 11 = 2 ^ 11 - 1 ∧ bits.toNat % 2 ^ 52 ≠ 0

def canonicalNanBits : UInt64 := 0x7ff8000000000000

/-- `String::cmp` compares the bytes. -/
def keyOrder (key : String) : List Nat := (utf8 key).map UInt8.toNat

/-- `sort_by(|a, b| a.0.cmp(&b.0))`. -/
def sortByKey {α : Type} (pairs : List (String × α)) : List (String × α) :=
  pairs.insertionSort fun a b => keyOrder a.1 ≤ keyOrder b.1

section
variable (display : Bson → String)

mutual

def canonicalizeBson : Bson → List UInt8
  | .null => [tagNull]
  | .boolean b => [tagBool, if b then 0x01 else 0x00]
  | .int32 n => tagInt32 :: toLe 4 n.toUInt32.toNat
  | .int64 n => tagInt64 :: toLe 8 n.toUInt64.toNat
  | .double bits => tagDouble :: toLe 8 (if isNan bits then canonicalNanBits else bits).toNat
  | .string s => tagString :: blob (utf8 s)
  | .objectId oid => tagObjectId :: oid.val
  | .dateTime ms => tagDateTime :: toLe 8 ms.toUInt64.toNat
  | .timestamp time increment => tagTimestamp :: (toLe 4 time.toNat ++ toLe 4 increment.toNat)
  | .binary subtype bytes => tagBinary :: subtype :: blob bytes
  | .regularExpression pattern options => tagRegex :: (blob (utf8 pattern) ++ blob (utf8 options))
  | .array elems => tagArray :: (toLe 4 elems.length ++ canonicalizeElems elems)
  | .document fields =>
    tagDocument :: (toLe 4 fields.length ++
      (sortByKey (canonicalizePairs fields)).flatMap fun (key, valueBytes) => blob (utf8 key) ++ valueBytes)
  | .decimal128 bytes => tagDecimal128 :: bytes.val
  | .javaScriptCode code => tagString :: blob (utf8 code)
  | .symbol s => tagString :: blob (utf8 s)
  | .javaScriptCodeWithScope code _ => tagString :: blob (utf8 code)
  | .undefined => tagString :: blob (utf8 (display .undefined))
  | .minKey => tagString :: blob (utf8 (display .minKey))
  | .maxKey => tagString :: blob (utf8 (display .maxKey))
  | .dbPointer ns id => tagString :: blob (utf8 (display (.dbPointer ns id)))

/-- The elements of an array, in order. -/
def canonicalizeElems : List Bson → List UInt8
  | [] => []
  | v :: vs => canonicalizeBson v ++ canonicalizeElems vs

/-- The pairs of a document: key and canonical value bytes. -/
def canonicalizePairs : List (String × Bson) → List (String × List UInt8)
  | [] => []
  | (k, v) :: fs => (k, canonicalizeBson v) :: canonicalizePairs fs

end

/-- The canonical projection fields, in sorted order. -/
def canonicalFields : List String := ["ns", "o", "o2", "op", "t", "ts", "ui", "v"]

def canonicalizeOplogEntry (entry : Document) : List UInt8 :=
  let presentFields := canonicalFields.filter fun field => (entry.get field).isSome
  toLe 4 presentFields.length ++ presentFields.flatMap fun field =>
    blob (utf8 field) ++ ((entry.get field).map (canonicalizeBson display)).getD []

/-! ## Atoms -/

/-- What is written for a value other than an array or a document: the tag, bytes without a length,
byte strings behind their length. -/
structure Atom where
  tag : UInt8
  fixed : List UInt8
  blobs : List (List UInt8)
deriving DecidableEq

namespace Atom

def bytes (a : Atom) : List UInt8 := a.tag :: (a.fixed ++ a.blobs.flatMap blob)

/-- How many bytes without a length and how many byte strings follow a tag. -/
def layout (tag : UInt8) : Nat × Nat :=
  if tag = tagBool then (1, 0)
  else if tag = tagInt32 then (4, 0)
  else if tag = tagInt64 ∨ tag = tagDouble ∨ tag = tagDateTime ∨ tag = tagTimestamp then (8, 0)
  else if tag = tagString then (0, 1)
  else if tag = tagObjectId then (12, 0)
  else if tag = tagBinary then (1, 1)
  else if tag = tagRegex then (0, 2)
  else if tag = tagDecimal128 then (16, 0)
  else (0, 0)

end Atom

/-- The text of a value that is written under the tag of strings. -/
def Bson.text : Bson → Option String
  | .string s => some s
  | .javaScriptCode code => some code
  | .symbol s => some s
  | .javaScriptCodeWithScope code _ => some code
  | .undefined => some (display .undefined)
  | .minKey => some (display .minKey)
  | .maxKey => some (display .maxKey)
  | .dbPointer ns id => some (display (.dbPointer ns id))
  | _ => none

def Bson.atom : Bson → Option Atom
  | .array _ => none
  | .document _ => none
  | .null => some ⟨tagNull, [], []⟩
  | .boolean b => some ⟨tagBool, [if b then 0x01 else 0x00], []⟩
  | .int32 n => some ⟨tagInt32, toLe 4 n.toUInt32.toNat, []⟩
  | .int64 n => some ⟨tagInt64, toLe 8 n.toUInt64.toNat, []⟩
  | .double bits => some ⟨tagDouble, toLe 8 (if isNan bits then canonicalNanBits else bits).toNat, []⟩
  | .objectId oid => some ⟨tagObjectId, oid.val, []⟩
  | .dateTime ms => some ⟨tagDateTime, toLe 8 ms.toUInt64.toNat, []⟩
  | .timestamp time increment => some ⟨tagTimestamp, toLe 4 time.toNat ++ toLe 4 increment.toNat, []⟩
  | .binary subtype bytes => some ⟨tagBinary, [subtype], [bytes]⟩
  | .regularExpression pattern options => some ⟨tagRegex, [], [utf8 pattern, utf8 options]⟩
  | .decimal128 bytes => some ⟨tagDecimal128, bytes.val, []⟩
  | v => (v.text display).map fun s => ⟨tagString, [], [utf8 s]⟩

/-- Lengths fit into the four bytes they are written in, and keys are distinct. -/
def Bson.Fits : Bson → Prop
  | .array elems => elems.length < 2 ^ 32
  | .document fields => fields.length < 2 ^ 32 ∧ (fields.map Prod.fst).Nodup ∧ ∀ f ∈ fields, (utf8 f.1).length < 2 ^ 32
  | v => ∀ a ∈ v.atom display, ∀ b ∈ a.blobs, b.length < 2 ^ 32

/-- A value whose lengths fit and whose documents have distinct keys, at any depth. -/
def Bson.WellFormed (v : Bson) : Prop := v.Everywhere (Bson.Fits display)

end

end Oplog
