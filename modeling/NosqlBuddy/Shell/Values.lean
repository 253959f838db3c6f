import NosqlBuddy.Lib.Bytes
import NosqlBuddy.Lib.Fallible
import NosqlBuddy.Lib.Fields
import NosqlBuddy.Oplog.Bson

/-!
# JavaScript values in the shell

| here | there |
| --- | --- |
| `JsValue` | `boa_engine::JsValue` as the host functions read it |

A string is the Rust string that `to_std_string_escaped` gives. What an object's getters do besides giving
a value or throwing is the script's own. `parse_rfc3339` is the date reader of the bson crate.
-/

namespace Shell
open Oplog (Bson Document)

inductive JsValue where
  | undefined
  | null
  | boolean (b : Bool)
  /-- The 64 bits of the double. -/
  | number (bits : UInt64)
  | string (s : String)
  | symbol
  | bigint (digits : String)
  | array (elems : List JsValue)
  /-- Any other object, a function too: its own properties in the order of `own_property_keys`. -/
  | object (own : List (String × JsValue))
  /-- A read that throws: a getter, or an object whose keys cannot be listed. -/
  | throws (message : String)

/-- The size of a double that is a whole number. -/
def wholeSize (bits : UInt64) : Option Nat :=
  let e := bits.toNat / 2 ^ 52 % 2048
  let m := bits.toNat % 2 ^ 52
  let significand := if e = 0 then m else m + 2 ^ 52
  let exponent := if e = 0 then 1 else e
  if e = 2047 then none
  else if 1075 ≤ exponent then some (significand * 2 ^ (exponent - 1075))
  else if significand % 2 ^ (1075 - exponent) = 0 then some (significand / 2 ^ (1075 - exponent))
  else none

/-- The integer that a double below 2^63 in size is, if it is one. -/
def integral (bits : UInt64) : Option Int :=
  match wholeSize bits with
  | some n => if n < 2 ^ 63 then some (if bits.toNat < 2 ^ 63 then (n : Int) else -(n : Int)) else none
  | none => none

/-- 24 hexadecimal digits (shell.rs:2177-2181). -/
def parseObjectId (raw : String) : Option (Oplog.Fixed 12) :=
  match Bytes.hexDecode raw.toList with
  | some bytes => if h : bytes.length = 12 then some ⟨bytes, h⟩ else none
  | none => none

variable {b : Bson} {own : List (String × JsValue)} {v : JsValue}

section
variable (parseRfc3339 : String → Option Int64)

def stringToBson (raw : String) : Bson :=
  match parseObjectId raw with
  | some oid => .objectId oid
  | none =>
    match parseRfc3339 raw with
    | some ms => .dateTime ms
    | none => .string raw

mutual

/-- `jsvalue_to_bson`. -/
def jsvalueToBson : JsValue → Except String Bson
  | .undefined => .ok .null
  | .null => .ok .null
  | .boolean b => .ok (.boolean b)
  | .number bits =>
    match integral bits with
    | some n => .ok (.int64 (Int64.ofInt n))
    | none => .ok (.double bits)
  | .string raw => .ok (stringToBson parseRfc3339 raw)
  | .symbol => .error "cannot convert Symbol to string"
  | .bigint digits => .ok (.string digits)
  | .array elems => do
    let out ← listToBson elems
    return .array out
  | .object own => do
    let fields ← fieldsToBson own
    return .document (Fields.putAll fields [])
  | .throws message => .error message

def listToBson : List JsValue → Except String (List Bson)
  | [] => .ok []
  | v :: vs => do
    let b ← jsvalueToBson v
    let bs ← listToBson vs
    return b :: bs

def fieldsToBson : List (String × JsValue) → Except String (List (String × Bson))
  | [] => .ok []
  | (k, v) :: fs => do
    let b ← jsvalueToBson v
    let bs ← fieldsToBson fs
    return (k, b) :: bs

end

variable {parseRfc3339}

attribute [local simp] jsvalueToBson listToBson fieldsToBson

theorem jsvalueToBson_number (bits : UInt64) : jsvalueToBson parseRfc3339 (.number bits) =
    match integral bits with
    | some n => .ok (.int64 (Int64.ofInt n))
    | none => .ok (.double bits) := rfl

theorem jsvalueToBson_object :
    jsvalueToBson parseRfc3339 (.object own) = .ok b ↔
      ∃ fields, fieldsToBson parseRfc3339 own = .ok fields ∧ .document (Fields.putAll fields []) = b := by
  rw [jsvalueToBson, Fallible.bind_ok]
  exact exists_congr fun fields => and_congr_right fun _ => Fallible.pure_ok

theorem jsvalueToBson_array :
    jsvalueToBson parseRfc3339 (.array elems) = .ok b ↔
      ∃ out, listToBson parseRfc3339 elems = .ok out ∧ .array out = b := by
  rw [jsvalueToBson, Fallible.bind_ok]
  exact exists_congr fun out => and_congr_right fun _ => Fallible.pure_ok

theorem listToBson_ok : ∀ {vs : List JsValue} {bs : List Bson},
    listToBson parseRfc3339 vs = .ok bs ↔ List.Forall₂ (fun v b => jsvalueToBson parseRfc3339 v = .ok b) vs bs
  | [], bs => by simp [listToBson, eq_comm]
  | v :: vs, bs => by
    rw [listToBson, List.forall₂_cons_left_iff]
    simp only [Fallible.bind_ok, Fallible.pure_ok, @listToBson_ok vs]
    constructor
    · rintro ⟨b, hb, bs', hbs, rfl⟩
      exact ⟨b, bs', hb, hbs, rfl⟩
    · rintro ⟨b, bs', hb, hbs, rfl⟩
      exact ⟨b, hb, bs', hbs, rfl⟩

theorem fieldsToBson_ok : ∀ {own : List (String × JsValue)} {fields : List (String × Bson)},
    fieldsToBson parseRfc3339 own = .ok fields ↔
      List.Forall₂ (fun p f => p.1 = f.1 ∧ jsvalueToBson parseRfc3339 p.2 = .ok f.2) own fields
  | [], fields => by simp [fieldsToBson, eq_comm]
  | (k, v) :: own, fields => by
    rw [fieldsToBson, List.forall₂_cons_left_iff]
    simp only [Fallible.bind_ok, Fallible.pure_ok, @fieldsToBson_ok own]
    constructor
    · rintro ⟨b, hb, fs, hfs, rfl⟩
      exact ⟨(k, b), fs, ⟨rfl, hb⟩, hfs, rfl⟩
    · rintro ⟨⟨l, b⟩, fs, ⟨rfl, hb⟩, hfs, rfl⟩
      exact ⟨b, hb, fs, hfs, rfl⟩

/-! ## Documents -/

theorem jsvalueToBson_ok (h : jsvalueToBson parseRfc3339 v = .ok b) :
    b.IsAtom ∨ (∃ elems out, v = .array elems ∧ listToBson parseRfc3339 elems = .ok out ∧ b = .array out) ∨
      ∃ own fields, v = .object own ∧ fieldsToBson parseRfc3339 own = .ok fields ∧
        b = .document (Fields.putAll fields []) := by
  cases v with
  | object own =>
    obtain ⟨fields, hf, hb⟩ := jsvalueToBson_object.1 h
    exact .inr (.inr ⟨own, fields, rfl, hf, hb.symm⟩)
  | array elems =>
    obtain ⟨out, ho, hb⟩ := jsvalueToBson_array.1 h
    exact .inr (.inl ⟨elems, out, rfl, ho, hb.symm⟩)
  | number bits =>
    rw [jsvalueToBson] at h
    split at h <;> exact .inl (Except.ok.inj h ▸ trivial)
  | string raw =>
    refine .inl (Except.ok.inj h ▸ ?_)
    unfold stringToBson
    split
    · exact trivial
    · split <;> exact trivial
  | undefined => exact .inl (Except.ok.inj h ▸ trivial)
  | null => exact .inl (Except.ok.inj h ▸ trivial)
  | boolean b => exact .inl (Except.ok.inj h ▸ trivial)
  | bigint digits => exact .inl (Except.ok.inj h ▸ trivial)
  | symbol => cases h
  | throws message => cases h

theorem object_of_document (h : jsvalueToBson parseRfc3339 v = .ok (.document d)) :
    ∃ own fields, v = .object own ∧ fieldsToBson parseRfc3339 own = .ok fields ∧ d = Fields.putAll fields [] := by
  rcases jsvalueToBson_ok h with hatom | ⟨_, _, -, -, hb⟩ | ⟨own, fields, hv, hf, hb⟩
  · exact hatom.elim
  · cases hb
  · exact ⟨own, fields, hv, hf, Bson.document.inj hb⟩

theorem array_of_array (h : jsvalueToBson parseRfc3339 v = .ok (.array bs)) :
    ∃ elems, v = .array elems ∧ listToBson parseRfc3339 elems = .ok bs := by
  rcases jsvalueToBson_ok h with hatom | ⟨elems, out, hv, ho, hb⟩ | ⟨_, _, -, -, hb⟩
  · exact hatom.elim
  · exact ⟨elems, hv, Bson.array.inj hb ▸ ho⟩
  · cases hb

/-- **Only an empty object becomes the empty document.** -/
theorem empty_document : jsvalueToBson parseRfc3339 v = .ok (.document []) ↔ v = .object [] := by
  constructor
  · intro h
    obtain ⟨own, fields, rfl, hf, hd⟩ := object_of_document h
    obtain ⟨rfl, -⟩ := Fields.putAll_eq_nil.1 hd.symm
    have hall := fieldsToBson_ok.1 hf
    rw [List.forall₂_nil_right_iff.1 hall]
  · rintro rfl
    exact jsvalueToBson_object.2 ⟨[], rfl, rfl⟩

/-- The value of a property: of the last one, where two keys have one text. -/
def getOwn (own : List (String × JsValue)) (key : String) : Option JsValue := own.reverse.lookup key

theorem lookup_document (key : String)
    (h : fieldsToBson parseRfc3339 own = .ok fields) :
    Option.Rel (fun v b => jsvalueToBson parseRfc3339 v = .ok b) (getOwn own key)
      ((Fields.putAll fields []).lookup key) := by
  have hrev := List.rel_reverse (fieldsToBson_ok.1 h)
  rw [Fields.lookup_putAll, List.lookup_nil, Option.or_none, getOwn]
  generalize own.reverse = ps, fields.reverse = fs at hrev
  induction hrev with
  | nil => exact .none
  | @cons p f ps fs hp _ ih =>
    obtain ⟨k, v⟩ := p
    obtain ⟨l, b⟩ := f
    obtain ⟨rfl, hv⟩ : k = l ∧ _ := hp
    rw [Fields.lookup_cons, Fields.lookup_cons]
    by_cases hk : key = k
    · rw [if_pos hk, if_pos hk]
      exact .some hv
    · rw [if_neg hk, if_neg hk]
      exact ih

theorem head_document (h : fieldsToBson parseRfc3339 own = .ok fields) :
    (Fields.putAll fields []).head?.map Prod.fst = own.head?.map Prod.fst := by
  cases fieldsToBson_ok.1 h with
  | nil => rfl
  | @cons p f ps fs hp _ =>
    rw [Fields.putAll_cons, Fields.head_putAll fs _ (Fields.put_ne_nil _ _ _)]
    exact congrArg some hp.1.symm

end

end Shell
