import NosqlBuddy.Lib.Fallible
import NosqlBuddy.Lib.Merkle
import NosqlBuddy.Audit.Types

/-!
# Leaves

The three leaf derivations and their dispatch in `recompute_leaf`:

| version | leaf | here |
| --- | --- | --- |
| 0, 1 | SHA-256 of the payload text | `leafFromPayload` (mod.rs:1553) |
| 2 | HMAC of the base64-decoded payload | `hmacLeaf` (crypto.rs:112) |
| 3 | Poseidon over seven field elements | `poseidonLeafV3` (commitment.rs:152) |

All four digest-to-field maps of the source keep 31 bytes and the low nibble of the last byte
(`digestToField`). Only version 3 reads the event's operation, database, collection and timestamp,
and no version reads its deployment id; `recomputeLeaf_congr` is that fact.
-/

namespace Audit
open Fallible

section
variable (P : Prims)

/-- `s.as_bytes()`. -/
def strBytes (s : String) : List UInt8 := s.toByteArray.data.toList

/-- The first 31 bytes of a digest and the low nibble of byte 31, as a field element. -/
def digestToField (hash : Bytes32) : Fr :=
  fromBeBytesModOrder (hash.1.take 31 ++ [hash.1.getD 31 0 &&& 0x0F])

/-- `leaf_from_payload` (mod.rs:1553): its first three arguments are unused. -/
def leafFromPayload (_operation _database _collection payload : String) : Fr :=
  digestToField (P.sha256 (strBytes payload))

/-- `hmac_leaf` (crypto.rs:112). -/
def hmacLeaf (key : Bytes32) (canonicalPayload : List UInt8) : Fr :=
  digestToField (P.hmacSha256 key canonicalPayload)

/-! ## Version 3 -/

/-- `bytes_to_field` (commitment.rs:103). -/
def bytesToField (bytes : List UInt8) : Fr := digestToField (P.sha256 bytes)

def strToField (s : String) : Fr := bytesToField P (strBytes s)

def keyToField (key : Bytes32) : Fr := fromBeBytesModOrder key.1

/-- `derive_salt` (commitment.rs:124). -/
def deriveSalt (key : Bytes32) (canonicalPayload : List UInt8) : Fr :=
  digestToField (P.hmacSha256 key (0x03 :: canonicalPayload))

/-- `LeafOpening` (commitment.rs:67): the committed field elements. -/
structure LeafOpening where
  key : Fr
  opH : Fr
  dbH : Fr
  collH : Fr
  ts : UInt64
  docH : Fr
  salt : Fr
deriving DecidableEq

/-- `Fr::from(ts)`. -/
def frOfU64 (ts : UInt64) : Fr := Fin.ofNat frModulus ts.toNat

/-- `to_inputs`: in commitment order. -/
def LeafOpening.toInputs (o : LeafOpening) : List Fr :=
  [o.key, o.opH, o.dbH, o.collH, frOfU64 o.ts, o.docH, o.salt]

def leafOpening (key : Bytes32) (operation database collection : String) (ts : UInt64)
    (canonicalPayload : List UInt8) : LeafOpening where
  key := keyToField key
  opH := strToField P operation
  dbH := strToField P database
  collH := strToField P collection
  ts := ts
  docH := bytesToField P canonicalPayload
  salt := deriveSalt P key canonicalPayload

/-- `poseidon_leaf_v3` (commitment.rs:152), the leaf. -/
def poseidonLeafV3 (key : Bytes32) (operation database collection : String) (ts : UInt64)
    (canonicalPayload : List UInt8) : Fr :=
  P.poseidon (leafOpening P key operation database collection ts canonicalPayload).toInputs

/-- `timestamp.max(0) as u64`. -/
def clampSecs (secs : Int64) : UInt64 := (max secs 0).toUInt64

/-! ## Recomputing the leaf of a persisted event -/

/-- `leaf_key.ok_or_else(..)?` for a version that needs it. -/
def requireKey (key : Option Bytes32) (message : String) : Except AuditError Bytes32 :=
  match key with
  | some k => .ok k
  | none => .error (.validation message)

/-- `map_err` of an outside decoder to a validation error. -/
def decodeOr {α : Type} (r : Except String α) (message : String → String) : Except AuditError α :=
  match r with
  | .ok a => .ok a
  | .error e => .error (.validation (message e))

/-- `recompute_leaf` (mod.rs:283). -/
def recomputeLeaf (leafKey : Option Bytes32) (event : PersistedEvent) : Except AuditError Fr :=
  match event.version with
  | 0 | 1 => .ok (leafFromPayload P event.operation event.database event.collection event.payload)
  | 2 => do
    let key ← requireKey leafKey "v2 event requires leaf key, but none is configured"
    let canonical ← decodeOr (P.base64Decode event.payload)
      fun e => s!"v2 event base64 decode failed at index {event.index}: {e}"
    return hmacLeaf P key canonical
  | 3 => do
    let key ← requireKey leafKey "v3 event requires leaf key, but none is configured"
    let canonical ← decodeOr (P.base64Decode event.payload)
      fun e => s!"v3 event base64 decode failed at index {event.index}: {e}"
    let secs ← decodeOr (P.parseRfc3339 event.timestamp)
      fun e => s!"v3 event timestamp parse failed at index {event.index}: {e}"
    return poseidonLeafV3 P key event.operation event.database event.collection (clampSecs secs) canonical
  | v => .error (.validation s!"unknown event version {v} at index {event.index}")

end

/-! ## What the leaf binds -/

section
variable {P : Prims}

theorem requireKey_ok {key : Option Bytes32} {message : String} {k : Bytes32} :
    requireKey key message = .ok k ↔ key = some k := by
  cases key <;> simp [requireKey]

theorem decodeOr_ok {α : Type} {r : Except String α} {message : String → String} {a : α} :
    decodeOr r message = .ok a ↔ r = .ok a := by
  cases r <;> simp [decodeOr]

theorem recomputeLeaf_v3 {key : Option Bytes32} {ev : PersistedEvent} (hv : ev.version = 3) {leaf : Fr} :
    recomputeLeaf P key ev = .ok leaf ↔ ∃ k canonical secs, key = some k ∧ P.base64Decode ev.payload = .ok canonical ∧
      P.parseRfc3339 ev.timestamp = .ok secs ∧
      leaf = poseidonLeafV3 P k ev.operation ev.database ev.collection (clampSecs secs) canonical := by
  simp only [recomputeLeaf, hv, bind_ok, requireKey_ok, decodeOr_ok, pure_ok]
  constructor
  · rintro ⟨k, hk, c, hc, s, hs, rfl⟩
    exact ⟨k, c, s, hk, hc, hs, rfl⟩
  · rintro ⟨k, c, s, hk, hc, hs, rfl⟩
    exact ⟨k, hk, c, hc, s, hs, rfl⟩

theorem recomputeLeaf_congr {key : Option Bytes32} {ev ev' : PersistedEvent} (hv : ev.version ≠ 3)
    (h1 : ev'.version = ev.version) (h2 : ev'.payload = ev.payload) (h3 : ev'.index = ev.index) :
    recomputeLeaf P key ev' = recomputeLeaf P key ev := by
  unfold recomputeLeaf
  rw [h1, h2, h3]
  split
  · rfl
  · rfl
  · rfl
  · next h => exact absurd h hv
  · rfl

theorem strBytes_injective : Function.Injective strBytes := by
  intro s t h
  have harr : s.toByteArray.data = t.toByteArray.data := Array.toList_inj.1 h
  have hb : s.toByteArray = t.toByteArray := by
    cases hs : s.toByteArray
    cases ht : t.toByteArray
    simp_all
  exact String.toByteArray_inj.1 hb

theorem frOfU64_injective : Function.Injective frOfU64 := by
  intro a b h
  have hval := congrArg Fin.val h
  have hbig : 2 ^ 64 < frModulus := by decide
  have ha : a.toNat < frModulus := Nat.lt_trans a.toNat_lt hbig
  have hb : b.toNat < frModulus := Nat.lt_trans b.toNat_lt hbig
  simp only [frOfU64, Fin.ofNat, Nat.mod_eq_of_lt ha, Nat.mod_eq_of_lt hb] at hval
  exact UInt64.toNat_inj.1 hval

/-- Equal openings commit to equal strings, seconds and payload bytes, as far as the SHA-256 field map
has no collision among the hashed strings. -/
theorem leafOpening_inj (hQ : Merkle.CollisionFree (bytesToField P) Q)
    (hmem : ∀ b ∈ [strBytes op, strBytes db, strBytes coll, doc, strBytes op', strBytes db', strBytes coll', doc'],
      b ∈ Q)
    (h : (leafOpening P key op db coll ts doc).toInputs = (leafOpening P key op' db' coll' ts' doc').toInputs) :
    op = op' ∧ db = db' ∧ coll = coll' ∧ ts = ts' ∧ doc = doc' := by
  simp only [List.mem_cons, List.not_mem_nil, or_false, forall_eq_or_imp, forall_eq] at hmem
  obtain ⟨m1, m2, m3, m4, m5, m6, m7, m8⟩ := hmem
  simp only [LeafOpening.toInputs, leafOpening, strToField, List.cons.injEq, and_true, true_and] at h
  obtain ⟨h1, h2, h3, h4, h5, _⟩ := h
  exact ⟨strBytes_injective (hQ _ m1 _ m5 h1), strBytes_injective (hQ _ m2 _ m6 h2),
    strBytes_injective (hQ _ m3 _ m7 h3), frOfU64_injective h4, hQ _ m4 _ m8 h5⟩

end

end Audit
