import Mathlib.Algebra.GroupWithZero.Nat
import Mathlib.Data.Finmap
import NosqlBuddy.Lib.Bytes

/-!
# The audit log: data, field elements and outside code

`audit-service/src/audit/mod.rs`, `audit-service/src/error.rs`, `zk-audit/src/commitment.rs`.

| here | there |
| --- | --- |
| `AuditEvent`, `PersistedEvent`, `DomainRetentionRoot` | the structs of mod.rs:83-178 |
| `Json` | `serde_json::Value`, as far as `get`, `as_str`, `as_bool` and `as_u64` see it |

`u64` indices, counters and sequence numbers are `Nat`: they count elements of vectors. The Unix
seconds of a timestamp keep their width, because they are mapped into the field.
-/

namespace Audit
open Bytes

/-! ## Field elements -/

/-- The order of the BN254 scalar field. -/
def frModulus : Nat := 21888242871839275222246405745257275088548364400416034343698204186575808495617

instance : NeZero frModulus := ⟨by decide⟩

abbrev Fr := Fin frModulus

/-- `Fr::from_be_bytes_mod_order`. -/
def fromBeBytesModOrder (bs : List UInt8) : Fr := Fin.ofNat frModulus (ofBe bs)

/-- `f.into_bigint().to_bytes_be()`. -/
def toBytesBe (f : Fr) : List UInt8 := toBe 32 f.val

theorem fromBeBytesModOrder_toBytesBe (f : Fr) : fromBeBytesModOrder (toBytesBe f) = f := by
  have hlt : f.val < 256 ^ 32 := Nat.lt_trans f.isLt (by decide)
  rw [fromBeBytesModOrder, toBytesBe, ofBe_toBe, Nat.mod_eq_of_lt hlt]
  exact Fin.ext (Nat.mod_eq_of_lt f.isLt)

/-! ## Errors -/

inductive AuditError where
  | io (message : String)
  | notFound (message : String)
  | validation (message : String)
  | internal (message : String)
  | mongo (message : String)
  | credential (message : String)
  | timeout (message : String)
  | zkAudit (message : String)
deriving DecidableEq, Repr

/-! ## Hexadecimal field elements -/

def frToHex (f : Fr) : String := String.ofList (hexEncode (toBytesBe f))

/-- The text of a `hex::FromHexError`. -/
def fromHexError (cs : List Char) : String :=
  if cs.length % 2 = 1 then "Odd number of digits"
  else match cs.zipIdx.find? fun p => (hexVal p.1).isNone with
    | some (c, i) => s!"Invalid character {repr c} at position {i}"
    | none => ""

def hexToFr (hexStr : String) : Except AuditError Fr :=
  match hexDecode hexStr.toList with
  | some bytes => .ok (fromBeBytesModOrder bytes)
  | none => .error (.validation s!"hex_to_fr decode: {fromHexError hexStr.toList}")

theorem hexToFr_frToHex (f : Fr) : hexToFr (frToHex f) = .ok f := by
  simp [hexToFr, frToHex, hexDecode_hexEncode, fromBeBytesModOrder_toBytesBe]

theorem length_frToHex (f : Fr) : (frToHex f).toList.length = 64 := by
  rw [frToHex, String.toList_ofList, length_hexEncode, toBytesBe, length_toBe]

theorem frToHex_injective : Function.Injective frToHex := by
  intro a b h
  have ha := hexToFr_frToHex a
  rw [h, hexToFr_frToHex] at ha
  exact (Except.ok.inj ha).symm

/-! ## Events -/

/-- An audit domain: `(deployment_id, database)`. -/
abbrev Domain := String × String

structure AuditEvent where
  index : Nat
  leafHex : String
  operation : String
  database : String
  collection : String
  deploymentId : String
  sequence : Nat
  timestamp : String
deriving DecidableEq, Repr

/-- One JSONL line of `events.jsonl`. -/
structure PersistedEvent where
  index : Nat
  operation : String
  database : String
  collection : String
  deploymentId : String
  sequence : Nat
  payload : String
  leafHex : String
  rootAfter : String
  timestamp : String
  version : Nat
deriving DecidableEq, Repr

def PersistedEvent.domain (ev : PersistedEvent) : Domain := (ev.deploymentId, ev.database)

structure DomainRetentionRoot where
  rootHex : String
  eventCount : Nat
  maxIndex : Nat
  prunedAt : String
deriving DecidableEq, Repr

/-! ## JSON values -/

inductive Json where
  | null
  | bool (b : Bool)
  /-- a number, with its value when it is a `u64` -/
  | num (n : Option Nat)
  | str (s : String)
  | arr (xs : List Json)
  | obj (fields : List (String × Json))

namespace Json

/-- `value.get(key)`: the last of the fields with that key, as a map keeps it. -/
def get : Json → String → Option Json
  | obj fields, key => (fields.reverse.find? fun f => f.1 = key).map Prod.snd
  | _, _ => none

def asStr : Json → Option String
  | str s => some s
  | _ => none

def asBool : Json → Option Bool
  | bool b => some b
  | _ => none

def asU64 : Json → Option Nat
  | num n => n
  | _ => none

/-- `value.get(key).and_then(|v| v.as_str())`, and likewise below. -/
def getStr (v : Json) (key : String) : Option String := (v.get key).bind asStr
def getBool (v : Json) (key : String) : Option Bool := (v.get key).bind asBool
def getU64 (v : Json) (key : String) : Option Nat := (v.get key).bind asU64

end Json

/-! ## Outside code -/

/-- 32 bytes: a leaf key or a digest. -/
abbrev Bytes32 := { b : List UInt8 // b.length = 32 }

theorem length_zeros : (List.replicate 32 (0 : UInt8)).length = 32 := rfl

/-- A reading of the clock, `chrono::Utc::now()`. -/
structure Instant where
  secs : Int64
  nanos : Nat
deriving DecidableEq

/-- The functions that the audit log takes from other crates. -/
structure Prims where
  sha256 : List UInt8 → Bytes32
  /-- `HmacSha256` with a 32-byte key -/
  hmacSha256 : Bytes32 → List UInt8 → Bytes32
  /-- `Poseidon::<Fr>::new_circom(inputs.len()).hash(inputs)` -/
  poseidon : List Fr → Fr
  base64Encode : List UInt8 → String
  base64Decode : String → Except String (List UInt8)
  /-- `DateTime::to_rfc3339` -/
  toRfc3339 : Instant → String
  /-- `DateTime::parse_from_rfc3339(text)`, its Unix seconds -/
  parseRfc3339 : String → Except String Int64
  /-- `serde_json::to_string` of an event and of a metadata object -/
  eventToString : PersistedEvent → List Char
  valueToString : Json → List Char
  /-- `serde_json::from_str::<PersistedEvent>` -/
  eventFromStr : List Char → Option PersistedEvent
  /-- `serde_json::from_str::<serde_json::Value>` -/
  valueFromStr : List Char → Option Json

end Audit
