import NosqlBuddy.Lib.Binary64
import NosqlBuddy.Shell.Values

/-!
# What the shell read, written back

| here | there |
| --- | --- |
| `toRfc3339` | `DateTime::try_to_rfc3339_string` of the bson crate |

The properties of an object are in the order of `own_property_keys`: array indices by number, then the others as they came.
`__proto__` is a setter of every object and no property of its own.
-/

namespace Shell
open Oplog (Bson Document)

/-! ## Numbers -/

/-- The whole number that a double is, of any size. -/
def wholeNumber (bits : UInt64) : Option Int :=
  (wholeSize bits).map fun n : Nat => (if bits.toNat < 2 ^ 63 then (n : Int) else -(n : Int))

variable {bits : UInt64}

theorem wholeSize_fields (h : bits.toNat = sign * 2 ^ 63 + (e * 2 ^ 52 + f))
    (hpos : 0 < e) (he : e < 2047) (hf : f < 2 ^ 52) :
    wholeSize bits =
      if 1075 ≤ e then some ((f + 2 ^ 52) * 2 ^ (e - 1075))
      else if (f + 2 ^ 52) % 2 ^ (1075 - e) = 0 then some ((f + 2 ^ 52) / 2 ^ (1075 - e))
      else none := by
  have hexp : bits.toNat / 2 ^ 52 % 2048 = e := by omega
  have hfrac : bits.toNat % 2 ^ 52 = f := by omega
  have hne : e ≠ 0 := by omega
  have hne' : e ≠ 2047 := by omega
  simp only [wholeSize, hexp, hfrac, if_neg hne, if_neg hne']

variable {n : Int}

theorem wholeSize_ofInt (h : n.natAbs ≤ 2 ^ 63) :
    wholeSize (Binary64.ofInt n) = some (Binary64.rounded n.natAbs) := by
  rcases Nat.eq_zero_or_pos n.natAbs with hz | hpos
  · rw [Int.natAbs_eq_zero.1 hz]
    decide +kernel
  obtain ⟨hbits, -⟩ := Binary64.ofInt_toNat h
  obtain ⟨e, f, hfields, hepos, hemax, hf, hvalue⟩ := Binary64.magnitude_fields hpos h
  rw [hfields] at hbits
  rw [wholeSize_fields hbits hepos hemax hf]
  split_ifs with hbig hmod
  · rw [hvalue, Nat.sub_eq_zero_of_le hbig, Nat.pow_zero, Nat.mul_one]
  · rw [Nat.sub_eq_zero_of_le (Nat.le_of_not_le hbig), Nat.pow_zero, Nat.mul_one] at hvalue
    rw [hvalue, Nat.mul_div_cancel _ (Nat.two_pow_pos _)]
  · rw [Nat.sub_eq_zero_of_le (Nat.le_of_not_le hbig), Nat.pow_zero, Nat.mul_one] at hvalue
    rw [hvalue, Nat.mul_mod_left] at hmod
    exact absurd rfl hmod

theorem wholeNumber_ofInt (h : n.natAbs ≤ 2 ^ 63) :
    wholeNumber (Binary64.ofInt n) = some (Binary64.roundedInt n) := by
  obtain ⟨hbits, hmag⟩ := Binary64.ofInt_toNat h
  rw [wholeNumber, wholeSize_ofInt h, Option.map_some, Binary64.roundedInt]
  split_ifs at hbits ⊢ <;> first | rfl | omega

/-! ## Objects -/

/-- The number of an array index, written as numbers are. -/
def arrayIndex (key : String) : Option Nat :=
  let n := Nat.ofDigitChars 10 key.toList 0
  if Nat.toDigits 10 n = key.toList ∧ n < 2 ^ 32 - 1 then some n else none

/-- The place of a key among those of an object: past every index for the keys that are none. -/
def ownRank (key : String) : Nat := (arrayIndex key).getD (2 ^ 32)

variable {key : String}

section
variable {α : Type}

/-- A property set on an object, at its place in the order of the keys. -/
def setProperty (key : String) (value : α) : List (String × α) → List (String × α)
  | [] => [(key, value)]
  | (l, w) :: own =>
    if key = l then (key, value) :: own
    else if ownRank key < ownRank l then (key, value) :: (l, w) :: own
    else (l, w) :: setProperty key value own

/-- Setting `__proto__` makes no property. -/
def setAll (kvs own : List (String × α)) : List (String × α) :=
  kvs.foldl (fun own f => if f.1 = "__proto__" then own else setProperty f.1 f.2 own) own

/-- The keys of an object, in their order. -/
structure OwnKeys (keys : List String) : Prop where
  nodup : keys.Nodup
  sorted : keys.Pairwise fun k l => ownRank k ≤ ownRank l
  proto : "__proto__" ∉ keys

theorem ownKeys_nil : OwnKeys [] := ⟨.nil, .nil, List.not_mem_nil⟩

theorem keys_setProperty :
    l ∈ (setProperty key value own).map Prod.fst ↔ l = key ∨ l ∈ own.map Prod.fst := by
  induction own with
  | nil => simp only [setProperty, List.map_cons, List.map_nil, List.mem_singleton, List.not_mem_nil, or_false]
  | cons f own ih =>
    obtain ⟨k, w⟩ := f
    rw [setProperty]
    by_cases hk : key = k
    · subst hk
      rw [if_pos rfl, List.map_cons, List.map_cons, List.mem_cons]
      tauto
    · rw [if_neg hk]
      split_ifs
      · simp only [List.map_cons, List.mem_cons]
      · rw [List.map_cons, List.map_cons, List.mem_cons, List.mem_cons, ih]
        tauto

theorem ownKeys_setProperty (h : OwnKeys (own.map Prod.fst))
    (hkey : key ≠ "__proto__") : OwnKeys ((setProperty key value own).map Prod.fst) := by
  induction own with
  | nil => exact ⟨List.nodup_singleton _, List.pairwise_singleton _ _, fun hm => hkey (List.mem_singleton.1 hm).symm⟩
  | cons f own ih =>
    obtain ⟨k, w⟩ := f
    obtain ⟨hnodup, hsorted, hproto⟩ := h
    obtain ⟨hk, hnodup'⟩ := List.nodup_cons.1 hnodup
    obtain ⟨hle, hsorted'⟩ := List.pairwise_cons.1 hsorted
    have hproto' := fun hm => hproto (List.mem_cons_of_mem _ hm)
    rw [setProperty]
    by_cases heq : key = k
    · subst heq
      rw [if_pos rfl]
      exact ⟨hnodup, hsorted, hproto⟩
    rw [if_neg heq]
    by_cases hlt : ownRank key < ownRank k
    · rw [if_pos hlt]
      have hbefore : ∀ l ∈ k :: own.map Prod.fst, ownRank key < ownRank l := by
        intro l hl
        rcases List.mem_cons.1 hl with rfl | hl
        · exact hlt
        · exact Nat.lt_of_lt_of_le hlt (hle l hl)
      refine ⟨List.nodup_cons.2 ⟨fun hm => Nat.lt_irrefl _ (hbefore key hm), hnodup⟩,
        List.pairwise_cons.2 ⟨fun l hl => (hbefore l hl).le, hsorted⟩, fun hm => ?_⟩
      rcases List.mem_cons.1 hm with he | hm
      · exact hkey he.symm
      · exact hproto hm
    · rw [if_neg hlt]
      obtain ⟨hnodup₂, hsorted₂, hproto₂⟩ := ih ⟨hnodup', hsorted', hproto'⟩
      refine ⟨List.nodup_cons.2 ⟨fun hm => ?_, hnodup₂⟩, List.pairwise_cons.2 ⟨fun l hl => ?_, hsorted₂⟩, fun hm => ?_⟩
      · rcases keys_setProperty.1 hm with he | hm
        · exact heq he.symm
        · exact hk hm
      · rcases keys_setProperty.1 hl with rfl | hl
        · exact Nat.le_of_not_lt hlt
        · exact hle l hl
      · rcases List.mem_cons.1 hm with he | hm
        · exact hproto (he ▸ List.mem_cons_self)
        · exact hproto₂ hm

theorem ownKeys_setAll (h : OwnKeys (own.map Prod.fst)) :
    OwnKeys ((setAll kvs own).map Prod.fst) := by
  induction kvs generalizing own with
  | nil => exact h
  | cons f kvs ih =>
    rw [setAll, List.foldl_cons]
    apply ih
    split_ifs with hf
    · exact h
    · exact ownKeys_setProperty h hf

theorem setProperty_of_last {value : α} {own : List (String × α)}
    (h : ∀ l ∈ own.map Prod.fst, key ≠ l ∧ ownRank l ≤ ownRank key) : setProperty key value own = own ++ [(key, value)] := by
  induction own with
  | nil => rfl
  | cons f own ih =>
    obtain ⟨k, w⟩ := f
    obtain ⟨hne, hle⟩ := h k List.mem_cons_self
    rw [setProperty, if_neg hne, if_neg (Nat.not_lt.2 hle), ih fun l hl => h l (List.mem_cons_of_mem _ hl)]
    rfl

theorem setAll_of_ownKeys {kvs own : List (String × α)} (h : OwnKeys ((own ++ kvs).map Prod.fst)) :
    setAll kvs own = own ++ kvs := by
  induction kvs generalizing own with
  | nil => exact (List.append_nil own).symm
  | cons f kvs ih =>
    have hsplit : own ++ f :: kvs = own ++ [f] ++ kvs := by rw [List.append_assoc, List.singleton_append]
    rw [hsplit] at h ⊢
    have hmem : f.1 ∈ (own ++ [f] ++ kvs).map Prod.fst :=
      List.mem_map_of_mem (List.mem_append_left _ (List.mem_append_right _ List.mem_cons_self))
    have hproto : f.1 ≠ "__proto__" := fun he => h.proto (he ▸ hmem)
    have hlast : setProperty f.1 f.2 own = own ++ [f] := by
      refine setProperty_of_last fun l hl => ?_
      obtain ⟨hnodup, hsorted, -⟩ := h
      rw [List.map_append, List.map_append] at hnodup hsorted
      refine ⟨?_, ?_⟩
      · rintro rfl
        exact List.disjoint_of_nodup_append (List.Nodup.of_append_left hnodup) hl List.mem_cons_self
      · exact (List.pairwise_append.1 (List.pairwise_append.1 hsorted).1).2.2 l hl f.1 List.mem_cons_self
    rw [setAll, List.foldl_cons, if_neg hproto, hlast]
    exact ih h

end

/-! ## The way to JavaScript -/

section
variable (toRfc3339 : Int64 → Option String)

mutual

def bsonToJs : Bson → JsValue
  | .double bits => .number bits
  | .string s => .string s
  | .boolean b => .boolean b
  | .null => .null
  | .int32 n => .number (Binary64.ofInt n.toInt)
  | .int64 n => .number (Binary64.ofInt n.toInt)
  | .objectId oid => .string (String.ofList (Bytes.hexEncode oid.val))
  | .dateTime ms => .string ((toRfc3339 ms).getD "")
  | .array elems => .array (listToJs elems)
  | .document fields => .object (setAll (fieldsToJs fields) [])
  | _ => .null

def listToJs : List Bson → List JsValue
  | [] => []
  | v :: vs => bsonToJs v :: listToJs vs

def fieldsToJs : List (String × Bson) → List (String × JsValue)
  | [] => []
  | (k, v) :: fs => (k, bsonToJs v) :: fieldsToJs fs

end

theorem listToJs_eq : ∀ vs : List Bson, listToJs toRfc3339 vs = vs.map (bsonToJs toRfc3339)
  | [] => rfl
  | v :: vs => by rw [listToJs, listToJs_eq vs, List.map_cons]

theorem fieldsToJs_eq : ∀ fs : List (String × Bson), fieldsToJs toRfc3339 fs = fs.map fun f => (f.1, bsonToJs toRfc3339 f.2)
  | [] => rfl
  | (k, v) :: fs => by rw [fieldsToJs, fieldsToJs_eq fs, List.map_cons]

theorem bsonToJs_dateTime (ms : Int64) : bsonToJs toRfc3339 (.dateTime ms) = .string ((toRfc3339 ms).getD "") := rfl

theorem bsonToJs_array (elems : List Bson) :
    bsonToJs toRfc3339 (.array elems) = .array (elems.map (bsonToJs toRfc3339)) :=
  congrArg JsValue.array (listToJs_eq toRfc3339 elems)

theorem bsonToJs_document (fields : List (String × Bson)) : bsonToJs toRfc3339 (.document fields) =
    .object (setAll (fields.map fun f => (f.1, bsonToJs toRfc3339 f.2)) []) :=
  congrArg (fun own => JsValue.object (setAll own [])) (fieldsToJs_eq toRfc3339 fields)

end

/-! ## Equality up to the width of a number -/

mutual

/-- An integer of any width, a whole double too, as an `Int64`. -/
def widen : Bson → Bson
  | .int32 n => .int64 (Int64.ofInt n.toInt)
  | .double bits =>
    match wholeNumber bits with
    | some n => if -2 ^ 63 ≤ n ∧ n < 2 ^ 63 then .int64 (Int64.ofInt n) else .double bits
    | none => .double bits
  | .array elems => .array (widenList elems)
  | .document fields => .document (widenFields fields)
  | v => v

def widenList : List Bson → List Bson
  | [] => []
  | v :: vs => widen v :: widenList vs

def widenFields : List (String × Bson) → List (String × Bson)
  | [] => []
  | (k, v) :: fs => (k, widen v) :: widenFields fs

end

attribute [local simp] widen widenList widenFields

theorem widenList_eq : ∀ vs : List Bson, widenList vs = vs.map widen
  | [] => rfl
  | v :: vs => by rw [widenList, widenList_eq vs, List.map_cons]

theorem widenFields_eq : ∀ fs : List (String × Bson), widenFields fs = fs.map fun f => (f.1, widen f.2)
  | [] => rfl
  | (k, v) :: fs => by rw [widenFields, widenFields_eq fs, List.map_cons]

theorem widen_int64 (n : Int64) : widen (.int64 n) = .int64 n := rfl

theorem widen_array (elems : List Bson) : widen (.array elems) = .array (elems.map widen) :=
  congrArg Bson.array (widenList_eq elems)

theorem widen_document (fields : List (String × Bson)) :
    widen (.document fields) = .document (fields.map fun f => (f.1, widen f.2)) :=
  congrArg Bson.document (widenFields_eq fields)

theorem widen_whole (h : wholeNumber bits = some n) :
    widen (.double bits) = if -2 ^ 63 ≤ n ∧ n < 2 ^ 63 then .int64 (Int64.ofInt n) else .double bits := by
  have hdef : widen (.double bits) = match wholeNumber bits with
    | some n => if -2 ^ 63 ≤ n ∧ n < 2 ^ 63 then .int64 (Int64.ofInt n) else .double bits
    | none => .double bits := rfl
  rw [hdef, h]

theorem widen_double (h : wholeNumber bits = some n) (hn : -2 ^ 63 ≤ n ∧ n < 2 ^ 63) :
    widen (.double bits) = .int64 (Int64.ofInt n) := by
  rw [widen_whole h]
  exact if_pos hn

variable {v : Bson}

section
variable {parseRfc3339 : String → Option Int64}

theorem number_kept (h : jsvalueToBson parseRfc3339 (.number bits) = .ok v) :
    widen v = widen (.double bits) := by
  rw [jsvalueToBson_number] at h
  cases hsize : wholeSize bits with
  | none =>
    have hint : integral bits = none := by rw [integral, hsize]
    rw [hint] at h
    cases h
    rfl
  | some n =>
    by_cases hn : n < 2 ^ 63
    · have hint : integral bits = some (if bits.toNat < 2 ^ 63 then (n : Int) else -(n : Int)) := by
        rw [integral, hsize]
        exact if_pos hn
      have hwhole : wholeNumber bits = some (if bits.toNat < 2 ^ 63 then (n : Int) else -(n : Int)) := by
        rw [wholeNumber, hsize]
        rfl
      rw [hint] at h
      cases h
      rw [widen_int64, widen_double hwhole (by split_ifs <;> omega)]
    · have hint : integral bits = none := by
        rw [integral, hsize]
        exact if_neg hn
      rw [hint] at h
      cases h
      rfl

theorem widen_ofInt (n : Int64) :
    widen (.double (Binary64.ofInt n.toInt)) = .int64 n ↔ Binary64.Fits n.toInt.natAbs := by
  have hlow := n.le_toInt
  have hhigh := n.toInt_lt
  have hwhole := wholeNumber_ofInt (show n.toInt.natAbs ≤ 2 ^ 63 by omega)
  rw [← Binary64.roundedInt_eq_iff]
  constructor
  · intro h
    rw [widen_whole hwhole] at h
    by_cases hr : -2 ^ 63 ≤ Binary64.roundedInt n.toInt ∧ Binary64.roundedInt n.toInt < 2 ^ 63
    · rw [if_pos hr] at h
      have hn := congrArg Int64.toInt (Bson.int64.inj h)
      rwa [Int64.toInt_ofInt_of_le hr.1 hr.2] at hn
    · rw [if_neg hr] at h
      cases h
  · intro h
    rw [h] at hwhole
    rw [widen_double hwhole ⟨hlow, hhigh⟩, Int64.ofInt_toInt]

theorem widen_ofInt32 (n : Int32) : widen (.double (Binary64.ofInt n.toInt)) = .int64 (Int64.ofInt n.toInt) := by
  have hlow := n.le_toInt
  have hhigh := n.toInt_lt
  have hwhole := wholeNumber_ofInt (show n.toInt.natAbs ≤ 2 ^ 63 by omega)
  rw [(Binary64.roundedInt_eq_iff _).2 (Binary64.fits_of_lt (by omega))] at hwhole
  exact widen_double hwhole (by omega)

end

/-! ## What is kept -/

section
variable (toRfc3339 : Int64 → Option String) (parseRfc3339 : String → Option Int64)

/-- The text of a date, which has a `T` in it, reads as the date; no text reads as none. -/
structure DateText : Prop where
  reads : ∀ {ms s}, toRfc3339 ms = some s → parseRfc3339 s = some ms
  time : ∀ {ms s}, toRfc3339 ms = some s → 'T' ∈ s.toList
  empty : parseRfc3339 "" = none

/-- What a value needs, besides the values inside it, to come back. -/
def KeptHere : Bson → Prop
  | .null | .boolean _ | .int32 _ | .double _ | .objectId _ | .array _ => True
  | .int64 n => Binary64.Fits n.toInt.natAbs
  | .string s => parseObjectId s = none ∧ parseRfc3339 s = none
  | .dateTime ms => (toRfc3339 ms).isSome
  | .document fields => OwnKeys (fields.map Prod.fst)
  | _ => False

/-- The values that a script can read and write back. -/
def Kept (v : Bson) : Prop := v.Everywhere (KeptHere toRfc3339 parseRfc3339)

/-- Reading the value in a script and writing it back unmodified gives it again, but for the width of its numbers. -/
def ReadsBack (v : Bson) : Prop :=
  ∃ w, jsvalueToBson parseRfc3339 (bsonToJs toRfc3339 v) = .ok w ∧ widen w = widen v

end

theorem parseObjectId_of_time (h : 'T' ∈ s.toList) : parseObjectId s = none := by
  rw [parseObjectId]
  cases hdecode : Bytes.hexDecode s.toList with
  | none => rfl
  | some bytes => exact absurd (Bytes.hexVal_of_hexDecode hdecode 'T' h) (by decide)

theorem parseObjectId_toHex (oid : Oplog.Fixed 12) : parseObjectId (String.ofList (Bytes.hexEncode oid.val)) = some oid := by
  rw [parseObjectId, String.toList_ofList, Bytes.hexDecode_hexEncode]
  exact dif_pos oid.property

variable {fields : List (String × Bson)}

section
variable {toRfc3339 : Int64 → Option String} {parseRfc3339 : String → Option Int64}

theorem readsBack_string (s : String) :
    ReadsBack toRfc3339 parseRfc3339 (.string s) ↔ parseObjectId s = none ∧ parseRfc3339 s = none := by
  constructor
  · rintro ⟨w, hw, hs⟩
    cases hw
    unfold stringToBson at hs
    cases ho : parseObjectId s with
    | some oid =>
      rw [ho] at hs
      cases hs
    | none =>
      rw [ho] at hs
      cases hd : parseRfc3339 s with
      | some ms =>
        rw [hd] at hs
        cases hs
      | none => exact ⟨rfl, rfl⟩
  · rintro ⟨ho, hd⟩
    refine ⟨.string s, ?_, rfl⟩
    have hkeep : stringToBson parseRfc3339 s = .string s := by
      rw [stringToBson, ho]
      dsimp only
      rw [hd]
    exact congrArg Except.ok hkeep

theorem readsBack_dateTime (laws : DateText toRfc3339 parseRfc3339) (ms : Int64) :
    ReadsBack toRfc3339 parseRfc3339 (.dateTime ms) ↔ (toRfc3339 ms).isSome := by
  cases hms : toRfc3339 ms with
  | none =>
    refine iff_of_false ?_ (by decide)
    rintro ⟨w, hw, hs⟩
    rw [bsonToJs_dateTime, hms] at hw
    cases hw
    have hempty : stringToBson parseRfc3339 "" = .string "" := by
      rw [stringToBson]
      have ho : parseObjectId "" = none := by decide
      rw [ho]
      dsimp only
      rw [laws.empty]
    rw [Option.getD_none, hempty] at hs
    cases hs
  | some s =>
    refine iff_of_true ⟨.dateTime ms, ?_, rfl⟩ rfl
    have hread : stringToBson parseRfc3339 s = .dateTime ms := by
      rw [stringToBson, parseObjectId_of_time (laws.time hms)]
      dsimp only
      rw [laws.reads hms]
    rw [bsonToJs_dateTime, hms]
    exact congrArg Except.ok hread

theorem readsBack_number (h : bsonToJs toRfc3339 v = .number bits) :
    ReadsBack toRfc3339 parseRfc3339 v ↔ widen (.double bits) = widen v := by
  rw [ReadsBack, h]
  constructor
  · rintro ⟨w, hw, hv⟩
    rw [← number_kept hw, hv]
  · intro hv
    obtain ⟨w, hw⟩ : ∃ w, jsvalueToBson parseRfc3339 (.number bits) = .ok w := by
      rw [jsvalueToBson_number]
      cases integral bits with
      | none => exact ⟨_, rfl⟩
      | some n => exact ⟨_, rfl⟩
    exact ⟨w, hw, (number_kept hw).trans hv⟩

theorem not_readsBack_of_null (h : bsonToJs toRfc3339 v = .null) (hv : widen v ≠ .null) :
    ¬ ReadsBack toRfc3339 parseRfc3339 v := by
  rintro ⟨w, hw, hs⟩
  rw [h] at hw
  cases hw
  exact hv hs.symm

theorem readsBack_atom (laws : DateText toRfc3339 parseRfc3339) (hv : v.IsAtom) :
    ReadsBack toRfc3339 parseRfc3339 v ↔ KeptHere toRfc3339 parseRfc3339 v := by
  cases v with
  | null => exact iff_of_true ⟨.null, rfl, rfl⟩ trivial
  | boolean b => exact iff_of_true ⟨.boolean b, rfl, rfl⟩ trivial
  | int32 n => exact iff_of_true ((readsBack_number rfl).2 (widen_ofInt32 n)) trivial
  | int64 n => exact (readsBack_number rfl).trans (widen_ofInt n)
  | double bits => exact iff_of_true ((readsBack_number rfl).2 rfl) trivial
  | string s => exact readsBack_string s
  | objectId oid =>
    refine iff_of_true ⟨.objectId oid, ?_, rfl⟩ trivial
    have hread : stringToBson parseRfc3339 (String.ofList (Bytes.hexEncode oid.val)) = .objectId oid := by
      rw [stringToBson, parseObjectId_toHex]
    exact congrArg Except.ok hread
  | dateTime ms => exact readsBack_dateTime laws ms
  | array elems => exact hv.elim
  | document fields => exact hv.elim
  | timestamp _ _ | binary _ _ | regularExpression _ _ | decimal128 _ | javaScriptCode _ | symbol _
  | javaScriptCodeWithScope _ _ | undefined | minKey | maxKey | dbPointer _ _ =>
    exact iff_of_false (not_readsBack_of_null rfl (fun h => by cases h)) id

theorem forall₂_map_eq_iff {α β γ : Type} {R : α → β → Prop} {f : β → γ} {g : α → γ} : ∀ {xs : List α},
    (∃ ys, List.Forall₂ R xs ys ∧ ys.map f = xs.map g) ↔ ∀ x ∈ xs, ∃ y, R x y ∧ f y = g x
  | [] => iff_of_true ⟨[], .nil, rfl⟩ fun _ hx => absurd hx List.not_mem_nil
  | x :: xs => by
    rw [List.forall_mem_cons, ← @forall₂_map_eq_iff _ _ _ R f g xs]
    constructor
    · rintro ⟨ys, hall, heq⟩
      cases hall with
      | cons hx hxs =>
        obtain ⟨hfirst, hrest⟩ := List.cons.inj heq
        exact ⟨⟨_, hx, hfirst⟩, ⟨_, hxs, hrest⟩⟩
    · rintro ⟨⟨y, hx, hfirst⟩, ⟨ys, hxs, hrest⟩⟩
      refine ⟨y :: ys, .cons hx hxs, ?_⟩
      rw [List.map_cons, List.map_cons, hfirst, hrest]

theorem readsBack_array : ReadsBack toRfc3339 parseRfc3339 (.array elems) ↔
    ∀ x ∈ elems, ReadsBack toRfc3339 parseRfc3339 x := by
  refine Iff.trans ?_
    (@forall₂_map_eq_iff _ _ _ (fun x y => jsvalueToBson parseRfc3339 (bsonToJs toRfc3339 x) = .ok y) widen widen elems)
  constructor
  · rintro ⟨w, hw, hv⟩
    rw [bsonToJs_array] at hw
    obtain ⟨out, hout, rfl⟩ := jsvalueToBson_array.1 hw
    rw [widen_array, widen_array] at hv
    exact ⟨out, List.forall₂_map_left_iff.1 (listToBson_ok.1 hout), Bson.array.inj hv⟩
  · rintro ⟨out, hout, hv⟩
    refine ⟨.array out, ?_, ?_⟩
    · rw [bsonToJs_array]
      exact jsvalueToBson_array.2 ⟨out, listToBson_ok.2 (List.forall₂_map_left_iff.2 hout), rfl⟩
    · rw [widen_array, widen_array, hv]

theorem keys_fieldsToBson (h : fieldsToBson parseRfc3339 own = .ok out) : out.map Prod.fst = own.map Prod.fst := by
  have hall := fieldsToBson_ok.1 h
  clear h
  induction hall with
  | nil => rfl
  | cons hf _ ih => rw [List.map_cons, List.map_cons, ih, hf.1]

theorem ownKeys_of_readsBack (h : ReadsBack toRfc3339 parseRfc3339 (.document fields)) :
    OwnKeys (fields.map Prod.fst) := by
  obtain ⟨w, hw, hv⟩ := h
  rw [bsonToJs_document] at hw
  obtain ⟨out, hout, rfl⟩ := jsvalueToBson_object.1 hw
  have hown : OwnKeys (out.map Prod.fst) := by
    rw [keys_fieldsToBson hout]
    exact ownKeys_setAll ownKeys_nil
  have hput : Fields.putAll out [] = out := by
    rw [Fields.putAll_of_nodup, List.nil_append]
    exact hown.nodup
  rw [hput, widen_document, widen_document] at hv
  have hfst := congrArg (List.map Prod.fst) (Bson.document.inj hv)
  rw [List.map_map, List.map_map] at hfst
  have hfst' : out.map Prod.fst = fields.map Prod.fst := hfst
  exact hfst' ▸ hown

/-- The field that is read back from a field. -/
def FieldBack (toRfc3339 : Int64 → Option String) (parseRfc3339 : String → Option Int64) (f g : String × Bson) : Prop :=
  f.1 = g.1 ∧ jsvalueToBson parseRfc3339 (bsonToJs toRfc3339 f.2) = .ok g.2

theorem fieldsToBson_back :
    fieldsToBson parseRfc3339 (fields.map fun f => (f.1, bsonToJs toRfc3339 f.2)) = .ok out ↔
      List.Forall₂ (FieldBack toRfc3339 parseRfc3339) fields out := by
  rw [fieldsToBson_ok, List.forall₂_map_left_iff]
  exact Iff.rfl

def widenField (f : String × Bson) : String × Bson := (f.1, widen f.2)

theorem readsBack_of_ownKeys (hkeys : OwnKeys (fields.map Prod.fst)) :
    ReadsBack toRfc3339 parseRfc3339 (.document fields) ↔
      ∃ out, List.Forall₂ (FieldBack toRfc3339 parseRfc3339) fields out ∧ out.map widenField = fields.map widenField := by
  have hown : setAll (fields.map fun f => (f.1, bsonToJs toRfc3339 f.2)) [] =
      fields.map fun f => (f.1, bsonToJs toRfc3339 f.2) := by
    rw [setAll_of_ownKeys, List.nil_append]
    rw [List.nil_append, List.map_map]
    exact hkeys
  have hputAll : ∀ {out : List (String × Bson)},
      fieldsToBson parseRfc3339 (fields.map fun f => (f.1, bsonToJs toRfc3339 f.2)) = .ok out → Fields.putAll out [] = out := by
    intro out hout
    rw [Fields.putAll_of_nodup, List.nil_append]
    rw [List.nil_append, keys_fieldsToBson hout, List.map_map]
    exact hkeys.nodup
  constructor
  · rintro ⟨w, hw, hv⟩
    rw [bsonToJs_document, hown] at hw
    obtain ⟨out, hout, rfl⟩ := jsvalueToBson_object.1 hw
    rw [hputAll hout, widen_document, widen_document] at hv
    exact ⟨out, fieldsToBson_back.1 hout, Bson.document.inj hv⟩
  · rintro ⟨out, hall, hv⟩
    have hout := fieldsToBson_back.2 hall
    refine ⟨.document out, ?_, ?_⟩
    · rw [bsonToJs_document, hown]
      exact jsvalueToBson_object.2 ⟨out, hout, congrArg Bson.document (hputAll hout)⟩
    · rw [widen_document, widen_document]
      exact congrArg Bson.document hv

theorem readsBack_document : ReadsBack toRfc3339 parseRfc3339 (.document fields) ↔
    OwnKeys (fields.map Prod.fst) ∧ ∀ f ∈ fields, ReadsBack toRfc3339 parseRfc3339 f.2 := by
  constructor
  · intro h
    have hkeys := ownKeys_of_readsBack h
    refine ⟨hkeys, fun f hf => ?_⟩
    obtain ⟨g, hg, heq⟩ := forall₂_map_eq_iff.1 ((readsBack_of_ownKeys hkeys).1 h) f hf
    exact ⟨g.2, hg.2, (Prod.mk.inj heq).2⟩
  · rintro ⟨hkeys, hf⟩
    refine (readsBack_of_ownKeys hkeys).2 (forall₂_map_eq_iff.2 fun f hmem => ?_)
    obtain ⟨w, hw, hv⟩ := hf f hmem
    exact ⟨(f.1, w), ⟨rfl, hw⟩, congrArg (Prod.mk f.1) hv⟩

/-- **A value comes back unchanged exactly when it has no type that JavaScript lacks, no string that looks like an identifier
or a date, no date past the years of RFC 3339, no integer of more than 53 bits, and its keys are those of an object.** -/
theorem readsBack_iff (laws : DateText toRfc3339 parseRfc3339) (v : Bson) :
    ReadsBack toRfc3339 parseRfc3339 v ↔ Kept toRfc3339 parseRfc3339 v := by
  induction v using Bson.induction with
  | atom v hv => rw [readsBack_atom laws hv, Kept, Bson.everywhere_atom hv]
  | array xs ih =>
    rw [readsBack_array, Kept, Bson.everywhere_array]
    exact ⟨fun h => ⟨trivial, fun x hx => (ih x hx).1 (h x hx)⟩, fun h x hx => (ih x hx).2 (h.2 x hx)⟩
  | document fs ih =>
    rw [readsBack_document, Kept, Bson.everywhere_document]
    exact and_congr_right fun _ => forall₂_congr fun f hf => ih f hf

end

/-! ## A document of the shell -/

/-- The dates of the first day only. -/
def demoToRfc3339 (ms : Int64) : Option String := if ms = 0 then some "1970-01-01T00:00:00Z" else none

def demoParseRfc3339 (s : String) : Option Int64 := if s = "1970-01-01T00:00:00Z" then some 0 else none

theorem demoDates : DateText demoToRfc3339 demoParseRfc3339 where
  reads := by
    intro ms s h
    unfold demoToRfc3339 at h
    split_ifs at h with hz
    cases h
    exact congrArg some hz.symm
  time := by
    intro ms s h
    unfold demoToRfc3339 at h
    split_ifs at h
    cases h
    decide
  empty := rfl

def orderDocument : Document :=
  [("0", .int32 3), ("_id", .objectId ⟨List.replicate 12 7, rfl⟩), ("placed", .dateTime 0), ("total", .int64 1200)]

theorem order_reads_back : ReadsBack demoToRfc3339 demoParseRfc3339 (.document orderDocument) :=
  (readsBack_iff demoDates (.document orderDocument)).2
    ⟨⟨by decide, by decide, by decide⟩, trivial, trivial, rfl, Binary64.fits_of_lt (by decide), trivial⟩

/-- An identifier of 64 bits, bytes, a string of 24 hexadecimal digits and an index after another key do not come back. -/
theorem order_changes :
    ¬ ReadsBack demoToRfc3339 demoParseRfc3339 (.document [("id", .int64 9007199254740993)]) ∧
    ¬ ReadsBack demoToRfc3339 demoParseRfc3339 (.document [("data", .binary 0 [1, 2])]) ∧
    ¬ ReadsBack demoToRfc3339 demoParseRfc3339 (.document [("code", .string "0123456789abcdef01234567")]) ∧
    ¬ ReadsBack demoToRfc3339 demoParseRfc3339 (.document orderDocument.reverse) := by
  refine ⟨fun h => ?_, fun h => ?_, fun h => ?_, fun h => ?_⟩
  · have hid := (readsBack_document.1 h).2 _ List.mem_cons_self
    exact absurd ((widen_ofInt _).1 ((readsBack_number rfl).1 hid)) (by decide)
  · have hdata := (readsBack_document.1 h).2 _ List.mem_cons_self
    exact not_readsBack_of_null rfl (fun h => by cases h) hdata
  · have hcode := (readsBack_string _).1 ((readsBack_document.1 h).2 _ List.mem_cons_self)
    exact absurd hcode.1 (by decide)
  · exact absurd (ownKeys_of_readsBack h).sorted (by decide)

end Shell
