import NosqlBuddy.Lib.JsonText
import NosqlBuddy.Audit.Recording

/-!
# The JSON text of the lines

The laws of `Prims.Lawful` hold of an actual codec: the JSON object that `#[derive(Serialize)]` gives
for `PersistedEvent`, fields in declaration order, read back by key with the `#[serde(default)]`s of
the struct (mod.rs:114-165). `textPrims_lawful` holds for every choice of hash functions.

For base64 and RFC 3339 the codec has a text of its own outside the inputs used below (the empty
payload, the epoch and the second before it), where it is the standard one.
-/

namespace Audit
open JsonText Bytes

/-! ## Events -/

def eventFields (ev : PersistedEvent) : List Field :=
  [("index".toList, .nat ev.index), ("operation".toList, .str ev.operation.toList),
   ("database".toList, .str ev.database.toList), ("collection".toList, .str ev.collection.toList),
   ("deployment_id".toList, .str ev.deploymentId.toList), ("sequence".toList, .nat ev.sequence),
   ("payload".toList, .str ev.payload.toList), ("leaf_hex".toList, .str ev.leafHex.toList),
   ("root_after".toList, .str ev.rootAfter.toList), ("timestamp".toList, .str ev.timestamp.toList),
   ("version".toList, .nat ev.version)]

def fieldStr (fs : List Field) (key : String) : Option String :=
  match fs.find? fun f => f.1 = key.toList with
  | some (_, .str s) => some (String.ofList s)
  | _ => none

def fieldNat (fs : List Field) (key : String) : Option Nat :=
  match fs.find? fun f => f.1 = key.toList with
  | some (_, .nat n) => some n
  | _ => none

/-- Unknown keys are ignored; `deployment_id`, `sequence` and `version` have defaults. -/
def eventOfFields (fs : List Field) : Option PersistedEvent := do
  let index ← fieldNat fs "index"
  let operation ← fieldStr fs "operation"
  let database ← fieldStr fs "database"
  let collection ← fieldStr fs "collection"
  let payload ← fieldStr fs "payload"
  let leafHex ← fieldStr fs "leaf_hex"
  let rootAfter ← fieldStr fs "root_after"
  let timestamp ← fieldStr fs "timestamp"
  return ⟨index, operation, database, collection, (fieldStr fs "deployment_id").getD "",
    (fieldNat fs "sequence").getD 0, payload, leafHex, rootAfter, timestamp, (fieldNat fs "version").getD 1⟩

theorem find_field {f : Field} : ∀ {fs : List Field}, (fs.map Prod.fst).Nodup → f ∈ fs →
    fs.find? (fun g => g.1 = f.1) = some f
  | [], _, hm => absurd hm List.not_mem_nil
  | g :: fs, hnd, hm => by
    rw [List.map_cons, List.nodup_cons] at hnd
    rcases List.mem_cons.1 hm with rfl | hm
    · simp
    · have hne : g.1 ≠ f.1 := fun he => hnd.1 (he ▸ List.mem_map_of_mem hm)
      rw [List.find?_cons_of_neg (by simpa using hne), find_field hnd.2 hm]

theorem nodup_eventFields (ev : PersistedEvent) : ((eventFields ev).map Prod.fst).Nodup := by
  have hkeys : (eventFields ev).map Prod.fst = ["index", "operation", "database", "collection", "deployment_id",
    "sequence", "payload", "leaf_hex", "root_after", "timestamp", "version"].map String.toList := rfl
  rw [hkeys]
  exact List.Nodup.map (fun _ _ h => String.toList_inj.1 h) (by decide)

section
variable (ev : PersistedEvent) {key : String} (i : Nat)

theorem fieldStr_event {s : String} (h : (eventFields ev)[i]? = some (key.toList, .str s.toList)) :
    fieldStr (eventFields ev) key = some s := by
  have hf := find_field (nodup_eventFields ev) (List.mem_of_getElem? h)
  simp only [fieldStr, hf, String.ofList_toList]

theorem fieldNat_event {n : Nat} (h : (eventFields ev)[i]? = some (key.toList, .nat n)) :
    fieldNat (eventFields ev) key = some n := by
  have hf := find_field (nodup_eventFields ev) (List.mem_of_getElem? h)
  simp only [fieldNat, hf]

end

theorem eventOfFields_eventFields (ev : PersistedEvent) : eventOfFields (eventFields ev) = some ev := by
  have h0 : fieldNat (eventFields ev) "index" = some ev.index := fieldNat_event ev 0 rfl
  have h1 : fieldStr (eventFields ev) "operation" = some ev.operation := fieldStr_event ev 1 rfl
  have h2 : fieldStr (eventFields ev) "database" = some ev.database := fieldStr_event ev 2 rfl
  have h3 : fieldStr (eventFields ev) "collection" = some ev.collection := fieldStr_event ev 3 rfl
  have h4 : fieldStr (eventFields ev) "deployment_id" = some ev.deploymentId := fieldStr_event ev 4 rfl
  have h5 : fieldNat (eventFields ev) "sequence" = some ev.sequence := fieldNat_event ev 5 rfl
  have h6 : fieldStr (eventFields ev) "payload" = some ev.payload := fieldStr_event ev 6 rfl
  have h7 : fieldStr (eventFields ev) "leaf_hex" = some ev.leafHex := fieldStr_event ev 7 rfl
  have h8 : fieldStr (eventFields ev) "root_after" = some ev.rootAfter := fieldStr_event ev 8 rfl
  have h9 : fieldStr (eventFields ev) "timestamp" = some ev.timestamp := fieldStr_event ev 9 rfl
  have h10 : fieldNat (eventFields ev) "version" = some ev.version := fieldNat_event ev 10 rfl
  unfold eventOfFields
  rw [h0, h1, h2, h3, h4, h5, h6, h7, h8, h9, h10]
  rfl

/-! ## Values -/

def scalarValue : Scalar → Json
  | .str s => .str (String.ofList s)
  | .nat n => .num (some n)
  | .bool b => .bool b

def fieldsValue (fs : List Field) : Json := .obj (fs.map fun f => (String.ofList f.1, scalarValue f.2))

def valueFields : Json → List Field
  | .obj fields => fields.filterMap fun f =>
      match f.2 with
      | .str s => some (f.1.toList, .str s.toList)
      | .num (some n) => some (f.1.toList, .nat n)
      | .bool b => some (f.1.toList, .bool b)
      | _ => none
  | _ => []

theorem eventFields_no_meta (ev : PersistedEvent) : (fieldsValue (eventFields ev)).get "meta" = none := by
  simp [fieldsValue, eventFields, Json.get]

/-! ## Times -/

def epochText : String := "1970-01-01T00:00:00+00:00"
def beforeEpochText : String := "1969-12-31T23:59:59+00:00"

def timeText (t : Instant) : String :=
  if t = ⟨0, 0⟩ then epochText
  else if t = ⟨-1, 0⟩ then beforeEpochText
  else String.ofList ('@' :: Nat.toDigits 10 t.secs.toUInt64.toNat)

def timeOfText (s : String) : Except String Int64 :=
  if s = epochText then .ok 0
  else if s = beforeEpochText then .ok (-1)
  else match s.toList with
    | '@' :: cs => .ok (UInt64.ofNat (Nat.ofDigitChars 10 cs 0)).toInt64
    | _ => .error "input contains invalid characters"

theorem timeOfText_timeText (t : Instant) : timeOfText (timeText t) = .ok t.secs := by
  unfold timeText
  split
  · next h => subst h; simp [timeOfText]
  · split
    · next h => subst h; simp [timeOfText, epochText, beforeEpochText]
    · have h1 : String.ofList ('@' :: Nat.toDigits 10 t.secs.toUInt64.toNat) ≠ epochText := by
        intro h
        have := congrArg String.toList h
        simp [epochText] at this
      have h2 : String.ofList ('@' :: Nat.toDigits 10 t.secs.toUInt64.toNat) ≠ beforeEpochText := by
        intro h
        have := congrArg String.toList h
        simp [beforeEpochText] at this
      rw [timeOfText, if_neg h1, if_neg h2]
      simp [Nat.ofDigitChars_ten_toDigits]

/-! ## The codec -/

/-- The codec with given hash functions. -/
def textPrims (sha256 : List UInt8 → Bytes32) (hmacSha256 : Bytes32 → List UInt8 → Bytes32)
    (poseidon : List Fr → Fr) : Prims where
  sha256 := sha256
  hmacSha256 := hmacSha256
  poseidon := poseidon
  base64Encode := fun bytes => String.ofList (hexEncode bytes)
  base64Decode := fun s => match hexDecode s.toList with
    | some bytes => .ok bytes
    | none => .error "Invalid symbol"
  toRfc3339 := timeText
  parseRfc3339 := timeOfText
  eventToString := fun ev => print (eventFields ev)
  valueToString := fun v => print (valueFields v)
  eventFromStr := fun cs => (parse cs).bind eventOfFields
  valueFromStr := fun cs => (parse cs).map fieldsValue

theorem textPrims_lawful (sha256 : List UInt8 → Bytes32) (hmacSha256 : Bytes32 → List UInt8 → Bytes32)
    (poseidon : List Fr → Fr) : (textPrims sha256 hmacSha256 poseidon).Lawful where
  base64 := by intro bytes; simp [textPrims, hexDecode_hexEncode]
  rfc3339 := timeOfText_timeText
  event := by
    intro ev
    have hne : eventFields ev ≠ [] := by simp [eventFields]
    simp [textPrims, parse_print hne, eventOfFields_eventFields]
  braces := fun ev => print_ends (eventFields ev)
  oneLine := fun ev => newline_notMem_print (eventFields ev)
  notMeta := by
    intro ev v h
    have hne : eventFields ev ≠ [] := by simp [eventFields]
    simp only [textPrims, parse_print hne, Option.map_some, Option.some.injEq] at h
    rw [← h]
    exact eventFields_no_meta ev
  torn := by
    intro ev l t h ht
    have hne : eventFields ev ≠ [] := by simp [eventFields]
    simp [textPrims, parse_truncated hne ht h]

/-! ## A codec to run -/

/-- Stand-ins for the hash functions: without collisions on short inputs. -/
def demoDigest (tag : UInt8) (bytes : List UInt8) : Bytes32 := ⟨toBe 32 (ofBe (tag :: bytes) * 256), by simp⟩

def demoPoseidon (inputs : List Fr) : Fr :=
  Fin.ofNat frModulus (inputs.foldl (fun acc x => acc * 0x1000193 + x.val + 1) 0)

def demoPrims : Prims := textPrims (demoDigest 1) (fun _ => demoDigest 2) demoPoseidon

theorem demoPrims_lawful : demoPrims.Lawful := textPrims_lawful _ _ _

/-- An insert into `shop.orders`, as the interceptor records it without a leaf key. -/
def demoInsert (payload : String) : RecordCall :=
  .record ⟨0, 0⟩ "rs:rs0" "insert" "shop" "orders" payload
    (leafFromPayload demoPrims "insert" "shop" "orders" payload)

/-- The entry of that insert. -/
def demoEntry (payload : String) : Entry := recordEntry demoPrims none ⟨0, 0⟩ "rs:rs0" "insert" "shop" "orders" payload
  (leafFromPayload demoPrims "insert" "shop" "orders" payload)

theorem demoInsert_entry (payload : String) : (demoInsert payload).entry demoPrims none = some (demoEntry payload) := rfl

theorem demoEntry_honest (payload : String) : (demoEntry payload).Honest demoPrims none := fun _ _ _ => rfl

end Audit
