import Mathlib.Data.List.Perm.Basic
import NosqlBuddy.Oplog.Canonical

/-!
# What canonical bytes determine

The bytes of a value are decoded from the left (`canonicalizeBson_append_inj`): they determine the value
up to the order of the fields of documents, the bits of a NaN, and which of the types that are written
as strings it has (`Alike`). On the fourteen types of the table (oplog_canon.rs:39-54) that is equality up
to field order and NaN (`canonical_injective`).
-/

namespace Oplog
open Codes Bson

/-- The values are written alike: the same arrays, the same documents up to field order, and atoms that
give the same bytes. -/
def Alike (display : Bson → String) : Bson → Bson → Prop := Lift fun v w => ∃ a, v.atom display = some a ∧ w.atom display = some a

/-- Equal up to the order of the fields of documents at any depth, with all NaNs identified. -/
def Same : Bson → Bson → Prop := Lift fun v w =>
  v = w ∨ ∃ a b, v = .double a ∧ w = .double b ∧ isNan a ∧ isNan b

variable {a : Atom} {v w : Bson} {keys : List String} {key : String} {e : Document}

section
variable {display : Bson → String}

/-! ## The bytes of a value -/

attribute [local simp] canonicalizeElems canonicalizePairs Bson.atom

theorem canonicalizeElems_eq : ∀ vs : List Bson, canonicalizeElems display vs = vs.flatMap (canonicalizeBson display)
  | [] => by simp [canonicalizeElems]
  | v :: vs => by simp [canonicalizeElems, canonicalizeElems_eq vs]

theorem canonicalizePairs_eq : ∀ fs : List (String × Bson),
    canonicalizePairs display fs = fs.map fun f => (f.1, canonicalizeBson display f.2)
  | [] => by simp [canonicalizePairs]
  | (k, v) :: fs => by simp [canonicalizePairs, canonicalizePairs_eq fs]

/-- The bytes of one field. -/
def fieldBytes (display : Bson → String) (f : String × Bson) : List UInt8 := blob (utf8 f.1) ++ canonicalizeBson display f.2

theorem canonicalizeBson_array (xs : List Bson) : canonicalizeBson display (.array xs) =
    tagArray :: (toLe 4 xs.length ++ xs.flatMap (canonicalizeBson display)) := by
  rw [canonicalizeBson, canonicalizeElems_eq]

theorem canonicalizeBson_document (fs : List (String × Bson)) : canonicalizeBson display (.document fs) =
    tagDocument :: (toLe 4 fs.length ++ (sortByKey fs).flatMap (fieldBytes display)) := by
  have hsort : sortByKey (fs.map fun f => (f.1, canonicalizeBson display f.2)) =
      (sortByKey fs).map fun f => (f.1, canonicalizeBson display f.2) :=
    (List.map_insertionSort (fun a b : String × Bson => keyOrder a.1 ≤ keyOrder b.1)
      (fun a b : String × List UInt8 => keyOrder a.1 ≤ keyOrder b.1) (fun f => (f.1, canonicalizeBson display f.2)) fs
      fun _ _ _ _ => Iff.rfl).symm
  rw [canonicalizeBson, canonicalizePairs_eq, hsort, List.flatMap_map]
  rfl

theorem canonicalizeBson_atom (h : v.atom display = some a) : canonicalizeBson display v = a.bytes := by
  cases v <;> simp only [Bson.atom, Bson.text, Option.map_some, Option.some.injEq, reduceCtorEq] at h <;> subst h <;>
    simp [canonicalizeBson, Atom.bytes]

theorem isAtom_iff : Bson.IsAtom v ↔ ∃ a, v.atom display = some a := by
  cases v <;> simp [Bson.IsAtom, Bson.atom, Bson.text]

theorem atom_layout (h : v.atom display = some a) :
    (a.fixed.length, a.blobs.length) = Atom.layout a.tag ∧ a.tag ≠ tagArray ∧ a.tag ≠ tagDocument := by
  cases v <;> simp only [Bson.atom, Bson.text, Option.map_some, Option.some.injEq, reduceCtorEq] at h <;> subst h <;>
    refine ⟨?_, by simp only; decide, by simp only; decide⟩ <;> simp [Atom.layout, tagNull, tagBool, tagInt32, tagInt64,
      tagDouble, tagString, tagObjectId, tagDateTime, tagTimestamp, tagBinary, tagRegex, tagDecimal128]

/-! ## Decoding -/

theorem wellFormed_atom (hv : v.WellFormed display) (h : v.atom display = some a) :
    ∀ b ∈ a.blobs, b.length < 2 ^ 32 := by
  have hfits : v.Fits display := (everywhere_atom (isAtom_iff.2 ⟨a, h⟩)).1 hv
  cases v <;> first | exact hfits a h | simp [Bson.atom] at h

theorem atom_append_inj (hv : v.WellFormed display) (hw : w.WellFormed display) (ha : v.atom display = some a) (hb : w.atom display = some b) (h : a.bytes ++ s = b.bytes ++ t) :
    a = b ∧ s = t := by
  obtain ⟨tag, fixed, blobs⟩ := a
  obtain ⟨tag', fixed', blobs'⟩ := b
  simp only [Atom.bytes, List.cons_append, List.append_assoc, List.cons.injEq] at h
  obtain ⟨rfl, h⟩ := h
  have hlayout : (fixed.length, blobs.length) = (fixed'.length, blobs'.length) :=
    (atom_layout ha).1.trans (atom_layout hb).1.symm
  obtain ⟨hfixed, hblobs⟩ := Prod.mk.inj hlayout
  obtain ⟨rfl, hrest⟩ := List.append_inj h hfixed
  have hdec : ∀ x ∈ blobs, ∀ y ∈ blobs', ∀ s t, blob x ++ s = blob y ++ t → x = y ∧ s = t := fun x hx y hy _ _ hxy =>
    blob_append_inj (wellFormed_atom hv ha x hx) (wellFormed_atom hw hb y hy) hxy
  obtain ⟨hall, hst⟩ := flatMap_append_inj hblobs hdec hrest
  obtain rfl := List.forall₂_eq_eq_eq ▸ hall
  exact ⟨rfl, hst⟩

theorem toLe_length_inj (hm : m < 2 ^ 32) (hn : n < 2 ^ 32) (h : toLe 4 m ++ s = toLe 4 n ++ t) : m = n ∧ s = t := by
  obtain ⟨hlen, hrest⟩ := List.append_inj h (by simp)
  exact ⟨toLe_inj (by simpa using hm) (by simpa using hn) hlen, hrest⟩

theorem perm_sortByKey {α : Type} (fs : List (String × α)) : (sortByKey fs).Perm fs := List.perm_insertionSort _ fs

/-- **Unique decoding.** Values whose bytes start the same byte string are written alike, and the same
bytes are left over. -/
theorem canonicalizeBson_append_inj (v : Bson) : ∀ {w : Bson} {s t : List UInt8}, v.WellFormed display →
    w.WellFormed display → canonicalizeBson display v ++ s = canonicalizeBson display w ++ t →
    Alike display v w ∧ s = t := by
  induction v using Bson.induction with
  | atom v hatom =>
    intro w s t hv hw h
    obtain ⟨a, ha⟩ := isAtom_iff.1 hatom
    rw [canonicalizeBson_atom ha] at h
    rcases atom_or w with hwatom | ⟨ys, rfl⟩ | ⟨gs, rfl⟩
    · obtain ⟨b, hb⟩ := isAtom_iff.1 hwatom
      rw [canonicalizeBson_atom hb] at h
      obtain ⟨rfl, hst⟩ := atom_append_inj hv hw ha hb h
      exact ⟨(lift_atom hatom).2 ⟨a, ha, hb⟩, hst⟩
    · rw [canonicalizeBson_array] at h
      exact absurd (List.cons.inj h).1 (atom_layout ha).2.1
    · rw [canonicalizeBson_document] at h
      exact absurd (List.cons.inj h).1 (atom_layout ha).2.2
  | array xs ih =>
    intro w s t hv hw h
    rw [canonicalizeBson_array] at h
    rcases atom_or w with hwatom | ⟨ys, rfl⟩ | ⟨gs, rfl⟩
    · obtain ⟨b, hb⟩ := isAtom_iff.1 hwatom
      rw [canonicalizeBson_atom hb] at h
      exact absurd (List.cons.inj h).1.symm (atom_layout hb).2.1
    · rw [canonicalizeBson_array] at h
      obtain ⟨hlx, hx⟩ := everywhere_array.1 hv
      obtain ⟨hly, hy⟩ := everywhere_array.1 hw
      simp only [List.cons_append, List.cons.injEq, true_and, List.append_assoc] at h
      obtain ⟨hlen, helems⟩ := toLe_length_inj hlx hly h
      obtain ⟨hall, hst⟩ := flatMap_append_inj hlen (R := Alike display)
        (fun x hxm y hym _ _ hxy => ih x hxm (hx x hxm) (hy y hym) hxy) helems
      exact ⟨lift_array.2 ⟨ys, rfl, hall⟩, hst⟩
    · rw [canonicalizeBson_document] at h
      exact absurd (List.cons.inj h).1 (by decide)
  | document fs ih =>
    intro w s t hv hw h
    rw [canonicalizeBson_document] at h
    rcases atom_or w with hwatom | ⟨ys, rfl⟩ | ⟨gs, rfl⟩
    · obtain ⟨b, hb⟩ := isAtom_iff.1 hwatom
      rw [canonicalizeBson_atom hb] at h
      exact absurd (List.cons.inj h).1.symm (atom_layout hb).2.2
    · rw [canonicalizeBson_array] at h
      exact absurd (List.cons.inj h).1 (by decide)
    · rw [canonicalizeBson_document] at h
      obtain ⟨⟨hlf, _, hkf⟩, hf⟩ := everywhere_document.1 hv
      obtain ⟨⟨hlg, _, hkg⟩, hg⟩ := everywhere_document.1 hw
      simp only [List.cons_append, List.cons.injEq, true_and, List.append_assoc] at h
      obtain ⟨hlen, hfields⟩ := toLe_length_inj hlf hlg h
      have hsorted : (sortByKey fs).length = (sortByKey gs).length := by
        rw [(perm_sortByKey fs).length_eq, (perm_sortByKey gs).length_eq, hlen]
      obtain ⟨hall, hst⟩ := flatMap_append_inj hsorted (R := FieldLift _) (fun f hfm g hgm s t hfg => by
        have hfm' := (perm_sortByKey fs).mem_iff.1 hfm
        have hgm' := (perm_sortByKey gs).mem_iff.1 hgm
        unfold fieldBytes at hfg
        rw [List.append_assoc, List.append_assoc] at hfg
        obtain ⟨hkey, hval⟩ := blob_append_inj (hkf f hfm') (hkg g hgm') hfg
        obtain ⟨halike, hrest⟩ := ih f hfm' (hf f hfm') (hg g hgm') hval
        exact ⟨⟨utf8_injective hkey, halike⟩, hrest⟩) hfields
      obtain ⟨gs', hall', hperm⟩ := List.perm_comp_forall₂ (perm_sortByKey fs).symm hall
      exact ⟨lift_document.2 ⟨gs, gs', rfl, (hperm.trans (perm_sortByKey gs)).symm, hall'⟩, hst⟩

/-! ## Encoding -/

theorem keyOrder_injective : Function.Injective keyOrder := fun _ _ h =>
  utf8_injective (List.map_injective_iff.2 (fun _ _ hb => UInt8.toNat_inj.1 hb) h)

theorem sortByKey_eq_of_perm {α : Type} {ps qs : List (String × α)} (hk : (ps.map Prod.fst).Nodup) (h : ps.Perm qs) :
    sortByKey ps = sortByKey qs := by
  have htotal : Std.Total fun a b : String × α => keyOrder a.1 ≤ keyOrder b.1 := ⟨fun _ _ => le_total _ _⟩
  have htrans : IsTrans (String × α) fun a b => keyOrder a.1 ≤ keyOrder b.1 := ⟨fun _ _ _ => le_trans⟩
  refine List.Perm.eq_of_pairwise (fun a b ha hb hab hba => ?_) (List.pairwise_insertionSort _ ps)
    (List.pairwise_insertionSort _ qs) ((perm_sortByKey ps).trans (h.trans (perm_sortByKey qs).symm))
  have hap : a ∈ ps := (perm_sortByKey ps).mem_iff.1 ha
  have hbp : b ∈ ps := h.mem_iff.2 ((perm_sortByKey qs).mem_iff.1 hb)
  exact List.inj_on_of_nodup_map hk hap hbp (keyOrder_injective (le_antisymm hab hba))

/-- **Values that are written alike** have the same bytes. -/
theorem Alike.bytes_eq (v : Bson) : ∀ {w : Bson}, v.WellFormed display → w.WellFormed display → Alike display v w →
    canonicalizeBson display v = canonicalizeBson display w := by
  induction v using Bson.induction with
  | atom v hatom =>
    intro w _ _ h
    obtain ⟨a, ha, hb⟩ := (lift_atom hatom).1 h
    rw [canonicalizeBson_atom ha, canonicalizeBson_atom hb]
  | array xs ih =>
    intro w hv hw h
    obtain ⟨ys, rfl, hall⟩ := lift_array.1 h
    have hx := (everywhere_array.1 hv).2
    have hy := (everywhere_array.1 hw).2
    have hbytes : xs.map (canonicalizeBson display) = ys.map (canonicalizeBson display) := by
      rw [← List.forall₂_eq_eq_eq, List.forall₂_map_left_iff, List.forall₂_map_right_iff]
      rw [List.forall₂_iff_get] at hall ⊢
      exact ⟨hall.1, fun i h1 h2 => ih _ (List.get_mem _ _) (hx _ (List.get_mem _ _)) (hy _ (List.get_mem _ _))
        (hall.2 i h1 h2)⟩
    rw [canonicalizeBson_array, canonicalizeBson_array, hall.length_eq, List.flatMap_def, List.flatMap_def, hbytes]
  | document fs ih =>
    intro w hv hw h
    obtain ⟨gs, gs', rfl, hperm, hall⟩ := lift_document.1 h
    obtain ⟨⟨_, hkf, _⟩, hf⟩ := everywhere_document.1 hv
    have hg : ∀ g ∈ gs', g.2.WellFormed display := fun g hg => (everywhere_document.1 hw).2 g (hperm.mem_iff.2 hg)
    have hpairs : (fs.map fun f => (f.1, canonicalizeBson display f.2)) =
        gs'.map fun f => (f.1, canonicalizeBson display f.2) := by
      rw [← List.forall₂_eq_eq_eq, List.forall₂_map_left_iff, List.forall₂_map_right_iff]
      rw [List.forall₂_iff_get] at hall ⊢
      refine ⟨hall.1, fun i h1 h2 => ?_⟩
      obtain ⟨hkey, hval⟩ := hall.2 i h1 h2
      rw [hkey, ih _ (List.get_mem _ _) (hf _ (List.get_mem _ _)) (hg _ (List.get_mem _ _)) hval]
    have hsort : sortByKey (fs.map fun f => (f.1, canonicalizeBson display f.2)) =
        sortByKey (gs.map fun f => (f.1, canonicalizeBson display f.2)) := by
      refine sortByKey_eq_of_perm (by rw [List.map_map]; exact hkf) ?_
      rw [hpairs]
      exact (hperm.map _).symm
    rw [canonicalizeBson, canonicalizeBson, canonicalizePairs_eq, canonicalizePairs_eq, hsort, hall.length_eq, hperm.length_eq]

theorem alike_iff (hv : v.WellFormed display) (hw : w.WellFormed display) :
    canonicalizeBson display v = canonicalizeBson display w ↔ Alike display v w :=
  ⟨fun h => (canonicalizeBson_append_inj v hv hw (congrArg (· ++ []) h)).1, Alike.bytes_eq v hv hw⟩

theorem prefix_free (hv : v.WellFormed display) (hw : w.WellFormed display)
    (h : canonicalizeBson display v <+: canonicalizeBson display w) :
    canonicalizeBson display v = canonicalizeBson display w := by
  obtain ⟨s, hs⟩ := h
  have hdec := canonicalizeBson_append_inj v (s := s) (t := []) hv hw (by simpa using hs)
  rw [← hs, hdec.2, List.append_nil]

/-! ## Types -/

inductive BsonType where
  | null | boolean | int32 | int64 | double | string | objectId | dateTime | timestamp | binary | regularExpression
  | array | document | decimal128 | javaScriptCode | symbol | javaScriptCodeWithScope | undefined | minKey | maxKey
  | dbPointer
deriving DecidableEq, Repr

def Bson.typeOf : Bson → BsonType
  | .null => .null
  | .boolean _ => .boolean
  | .int32 _ => .int32
  | .int64 _ => .int64
  | .double _ => .double
  | .string _ => .string
  | .objectId _ => .objectId
  | .dateTime _ => .dateTime
  | .timestamp _ _ => .timestamp
  | .binary _ _ => .binary
  | .regularExpression _ _ => .regularExpression
  | .array _ => .array
  | .document _ => .document
  | .decimal128 _ => .decimal128
  | .javaScriptCode _ => .javaScriptCode
  | .symbol _ => .symbol
  | .javaScriptCodeWithScope _ _ => .javaScriptCodeWithScope
  | .undefined => .undefined
  | .minKey => .minKey
  | .maxKey => .maxKey
  | .dbPointer _ _ => .dbPointer

/-- The types of the table of the spec. -/
def BsonType.inTable : BsonType → Bool
  | .javaScriptCode | .symbol | .javaScriptCodeWithScope | .undefined | .minKey | .maxKey | .dbPointer => false
  | _ => true

/-- Only types of the table, at any depth. -/
def Bson.InTable (v : Bson) : Prop := v.Everywhere fun v => v.typeOf.inTable

/-- The type of the table that is written under the tag. -/
def typeOfTag (tag : UInt8) : BsonType :=
  if tag = tagNull then .null
  else if tag = tagBool then .boolean
  else if tag = tagInt32 then .int32
  else if tag = tagInt64 then .int64
  else if tag = tagDouble then .double
  else if tag = tagString then .string
  else if tag = tagObjectId then .objectId
  else if tag = tagDateTime then .dateTime
  else if tag = tagTimestamp then .timestamp
  else if tag = tagBinary then .binary
  else if tag = tagRegex then .regularExpression
  else .decimal128

theorem typeOf_of_tag (h : v.atom display = some a) (ht : v.typeOf.inTable ∨ a.tag ≠ tagString) :
    v.typeOf = typeOfTag a.tag := by
  cases v <;> simp only [Bson.atom, Bson.text, Option.map_some, Option.some.injEq, reduceCtorEq] at h <;> subst h <;>
    simp [BsonType.inTable, Bson.typeOf] at ht <;> rfl

theorem toLe_uint32_inj {m n : UInt32} (h : toLe 4 m.toNat = toLe 4 n.toNat) : m = n :=
  UInt32.toNat_inj.1 (toLe_inj m.toNat_lt n.toNat_lt h)

theorem toLe_uint64_inj {m n : UInt64} (h : toLe 8 m.toNat = toLe 8 n.toNat) : m = n :=
  UInt64.toNat_inj.1 (toLe_inj m.toNat_lt n.toNat_lt h)

theorem toLe_int32_inj {m n : Int32} (h : toLe 4 m.toUInt32.toNat = toLe 4 n.toUInt32.toNat) : m = n :=
  Int32.toBitVec.inj (congrArg UInt32.toBitVec (toLe_uint32_inj h))

theorem toLe_int64_inj {m n : Int64} (h : toLe 8 m.toUInt64.toNat = toLe 8 n.toUInt64.toNat) : m = n :=
  Int64.toBitVec.inj (congrArg UInt64.toBitVec (toLe_uint64_inj h))

theorem double_inj {a b : UInt64} (h : (if isNan a then canonicalNanBits else a) = if isNan b then canonicalNanBits else b) :
    a = b ∨ isNan a ∧ isNan b := by
  have hnan : isNan canonicalNanBits = true := by decide
  by_cases ha : isNan a = true
  · by_cases hb : isNan b = true
    · exact .inr ⟨ha, hb⟩
    · rw [if_pos ha, if_neg hb] at h
      exact absurd (h ▸ hnan) hb
  · by_cases hb : isNan b = true
    · rw [if_neg ha, if_pos hb] at h
      exact absurd (h ▸ hnan) ha
    · rw [if_neg ha, if_neg hb] at h
      exact .inl h

theorem eq_of_atom (hv : v.typeOf.inTable) (hw : w.typeOf.inTable)
    (ha : v.atom display = some a) (hb : w.atom display = some a) :
    v = w ∨ ∃ x y, v = .double x ∧ w = .double y ∧ isNan x ∧ isNan y := by
  have htype : v.typeOf = w.typeOf := (typeOf_of_tag ha (.inl hv)).trans (typeOf_of_tag hb (.inl hw)).symm
  have hatom : v.atom display = w.atom display := ha.trans hb.symm
  cases v <;> cases w <;> simp only [Bson.typeOf, reduceCtorEq] at htype
  case null.null => exact .inl rfl
  case boolean.boolean x y =>
    simp only [Bson.atom, Option.some.injEq, Atom.mk.injEq, List.cons.injEq, and_true, true_and] at hatom
    cases x <;> cases y <;> simp at hatom ⊢
  case int32.int32 x y =>
    simp only [Bson.atom, Option.some.injEq, Atom.mk.injEq, and_true, true_and] at hatom
    rw [toLe_int32_inj hatom]
    exact .inl rfl
  case int64.int64 x y =>
    simp only [Bson.atom, Option.some.injEq, Atom.mk.injEq, and_true, true_and] at hatom
    rw [toLe_int64_inj hatom]
    exact .inl rfl
  case double.double x y =>
    simp only [Bson.atom, Option.some.injEq, Atom.mk.injEq, and_true, true_and] at hatom
    rcases double_inj (toLe_uint64_inj hatom) with rfl | ⟨hx, hy⟩
    · exact .inl rfl
    · exact .inr ⟨x, y, rfl, rfl, hx, hy⟩
  case string.string x y =>
    simp only [Bson.atom, Bson.text, Option.map_some, Option.some.injEq, Atom.mk.injEq, List.cons.injEq, and_true,
      true_and] at hatom
    rw [utf8_injective hatom]
    exact .inl rfl
  case dateTime.dateTime x y =>
    simp only [Bson.atom, Option.some.injEq, Atom.mk.injEq, and_true, true_and] at hatom
    rw [toLe_int64_inj hatom]
    exact .inl rfl
  case timestamp.timestamp x i y j =>
    simp only [Bson.atom, Option.some.injEq, Atom.mk.injEq, and_true, true_and] at hatom
    obtain ⟨htime, hincrement⟩ := List.append_inj hatom (by simp)
    rw [toLe_uint32_inj htime, toLe_uint32_inj hincrement]
    exact .inl rfl
  case objectId.objectId x y =>
    simp only [Bson.atom, Option.some.injEq, Atom.mk.injEq, and_true, true_and] at hatom
    rw [Subtype.ext hatom]
    exact .inl rfl
  case decimal128.decimal128 x y =>
    simp only [Bson.atom, Option.some.injEq, Atom.mk.injEq, and_true, true_and] at hatom
    rw [Subtype.ext hatom]
    exact .inl rfl
  case binary.binary s x t y =>
    simp only [Bson.atom, Option.some.injEq, Atom.mk.injEq, List.cons.injEq, and_true, true_and] at hatom
    rw [hatom.1, hatom.2]
    exact .inl rfl
  case regularExpression.regularExpression p x q y =>
    simp only [Bson.atom, Option.some.injEq, Atom.mk.injEq, List.cons.injEq, and_true, true_and] at hatom
    rw [utf8_injective hatom.1, utf8_injective hatom.2]
    exact .inl rfl
  -- the types written as strings are not in the table, arrays and documents are no atoms
  case array.array => simp [Bson.atom] at ha
  case document.document => simp [Bson.atom] at ha
  all_goals exact absurd hv (by simp [Bson.typeOf, BsonType.inTable])

theorem atom_inTable (hw : w.InTable) (hb : w.atom display = some a) : w.typeOf.inTable :=
  (everywhere_atom (isAtom_iff.2 ⟨a, hb⟩)).1 hw

theorem alike_iff_same (hv : v.InTable) (hw : w.InTable) : Alike display v w ↔ Same v w := by
  constructor
  · refine Lift.imp (fun v w _ hv hw => ?_) v hv hw
    rintro ⟨a, ha, hb⟩
    exact eq_of_atom hv (atom_inTable hw hb) ha hb
  · refine Lift.imp (fun v w hatom _ _ => ?_) v hv hw
    rintro (rfl | ⟨x, y, rfl, rfl, hx, hy⟩)
    · obtain ⟨a, ha⟩ := isAtom_iff.1 hatom
      exact ⟨a, ha, ha⟩
    · simp [Bson.atom, hx, hy]

theorem bytes_eq_iff_same (hv : v.WellFormed display) (hw : w.WellFormed display) (hv' : v.InTable)
    (hw' : w.InTable) : canonicalizeBson display v = canonicalizeBson display w ↔ Same v w :=
  (alike_iff hv hw).trans (alike_iff_same hv' hw')

/-! ## Oplog entries -/

/-- The fields of an entry that are written, with their values. -/
def presentFields (entry : Document) (keys : List String) : Document :=
  keys.filterMap fun key => (entry.get key).map fun v => (key, v)

theorem mem_presentFields :
    f ∈ presentFields entry keys ↔ f.1 ∈ keys ∧ entry.get f.1 = some f.2 := by
  simp only [presentFields, List.mem_filterMap, Option.map_eq_some_iff]
  constructor
  · rintro ⟨key, hkey, v, hv, rfl⟩
    exact ⟨hkey, hv⟩
  · rintro ⟨hkey, hv⟩
    exact ⟨f.1, hkey, f.2, hv, rfl⟩

theorem canonicalizeOplogEntry_eq (entry : Document) : canonicalizeOplogEntry display entry =
    toLe 4 (presentFields entry canonicalFields).length ++
      (presentFields entry canonicalFields).flatMap (fieldBytes display) := by
  unfold canonicalizeOplogEntry presentFields
  generalize canonicalFields = keys
  have hfields : ∀ keys : List String,
      (keys.filterMap fun key => (entry.get key).map fun v => (key, v)).length =
        (keys.filter fun key => (entry.get key).isSome).length ∧
      (keys.filterMap fun key => (entry.get key).map fun v => (key, v)).flatMap (fieldBytes display) =
        (keys.filter fun key => (entry.get key).isSome).flatMap fun field =>
          blob (utf8 field) ++ ((entry.get field).map (canonicalizeBson display)).getD [] := by
    intro keys
    induction keys with
    | nil => exact ⟨rfl, rfl⟩
    | cons key keys ih =>
      cases hget : entry.get key with
      | none => simpa [hget] using ih
      | some v => simpa [hget, fieldBytes] using ih
  rw [(hfields keys).1, (hfields keys).2]

theorem presentFields_some (h : d.get key = some v) :
    presentFields d (key :: keys) = (key, v) :: presentFields d keys := by
  simp [presentFields, h]

theorem presentFields_none (h : d.get key = none) :
    presentFields d (key :: keys) = presentFields d keys := by
  simp [presentFields, h]

theorem forall₂_presentFields : ∀ {keys : List String}, keys.Nodup →
    (List.Forall₂ (fun p q : String × Bson => p.1 = q.1 ∧ R p.2 q.2) (presentFields e keys) (presentFields f keys) ↔
      ∀ key ∈ keys, Option.Rel R (e.get key) (f.get key))
  | [], _ => by simp [presentFields]
  | key :: keys, hnodup => by
    obtain ⟨hkey, hnodup⟩ := List.nodup_cons.1 hnodup
    rw [List.forall_mem_cons, ← forall₂_presentFields hnodup]
    -- a key that only one side has does not come again later on the other side
    have habsent : ∀ {d : Document} {p : String × Bson}, p ∈ presentFields d keys → p.1 ≠ key := fun hp hpk =>
      hkey (hpk ▸ (mem_presentFields.1 hp).1)
    cases he : e.get key with
    | none =>
      rw [presentFields_none he]
      cases hf : f.get key with
      | none => simp [presentFields_none hf]
      | some w =>
        rw [presentFields_some hf]
        constructor
        · intro h
          obtain ⟨p, ps, ⟨hp, _⟩, _, hps⟩ := List.forall₂_cons_right_iff.1 h
          exact absurd hp (habsent (d := e) (hps ▸ List.mem_cons_self))
        · rintro ⟨h, _⟩
          cases h
    | some v =>
      rw [presentFields_some he]
      cases hf : f.get key with
      | none =>
        rw [presentFields_none hf]
        constructor
        · intro h
          obtain ⟨q, qs, ⟨hq, _⟩, _, hqs⟩ := List.forall₂_cons_left_iff.1 h
          exact absurd hq.symm (habsent (d := f) (hqs ▸ List.mem_cons_self))
        · rintro ⟨h, _⟩
          cases h
      | some w => simp [presentFields_some hf]

theorem get_mem (h : e.get key = some v) : (key, v) ∈ e := by
  obtain ⟨⟨k, w⟩, hfind, rfl⟩ := Option.map_eq_some_iff.1 h
  have hk := List.find?_some hfind
  simp only [decide_eq_true_eq] at hk
  exact hk ▸ List.mem_of_find?_eq_some hfind

theorem everywhere_get (he : (Bson.document e).Everywhere p) (h : e.get key = some v) : v.Everywhere p := (everywhere_document.1 he).2 _ (get_mem h)

/-- **The bytes of an oplog entry** determine the written fields up to how their values are written. -/
theorem entry_bytes_iff {f : Document} (he : (Bson.document e).WellFormed display)
    (hf : (Bson.document f).WellFormed display) :
    canonicalizeOplogEntry display e = canonicalizeOplogEntry display f ↔
      ∀ key ∈ canonicalFields, Option.Rel (Alike display) (e.get key) (f.get key) := by
  have hkeys : ∀ key ∈ canonicalFields, (utf8 key).length < 2 ^ 32 := by decide
  have hfew : ∀ d : Document, (presentFields d canonicalFields).length < 2 ^ 32 := fun d =>
    (List.length_filterMap_le _ _).trans_lt (by decide)
  rw [← forall₂_presentFields (by decide), canonicalizeOplogEntry_eq, canonicalizeOplogEntry_eq]
  constructor
  · intro h
    obtain ⟨hlen, hfields⟩ := toLe_length_inj (hfew e) (hfew f) h
    refine (flatMap_append_inj hlen (s := []) (t := []) (fun p hp q hq s t hpq => ?_) (by simpa using hfields)).1
    obtain ⟨hpk, hpv⟩ := mem_presentFields.1 hp
    obtain ⟨hqk, hqv⟩ := mem_presentFields.1 hq
    unfold fieldBytes at hpq
    rw [List.append_assoc, List.append_assoc] at hpq
    obtain ⟨hkey, hval⟩ := blob_append_inj (hkeys _ hpk) (hkeys _ hqk) hpq
    obtain ⟨halike, hrest⟩ := canonicalizeBson_append_inj _ (everywhere_get he hpv) (everywhere_get hf hqv) hval
    exact ⟨⟨utf8_injective hkey, halike⟩, hrest⟩
  · intro h
    have hbytes : (presentFields e canonicalFields).map (fieldBytes display) =
        (presentFields f canonicalFields).map (fieldBytes display) := by
      rw [← List.forall₂_eq_eq_eq, List.forall₂_map_left_iff, List.forall₂_map_right_iff]
      rw [List.forall₂_iff_get] at h ⊢
      refine ⟨h.1, fun i h1 h2 => ?_⟩
      obtain ⟨hkey, hval⟩ := h.2 i h1 h2
      have hp := (mem_presentFields.1 (List.get_mem (presentFields e canonicalFields) ⟨i, h1⟩)).2
      have hq := (mem_presentFields.1 (List.get_mem (presentFields f canonicalFields) ⟨i, h2⟩)).2
      rw [fieldBytes, fieldBytes, hkey, hval.bytes_eq _ (everywhere_get he hp) (everywhere_get hf hq)]
    rw [h.length_eq, List.flatMap_def, List.flatMap_def, hbytes]

theorem rel_imp {α : Type*} {R S : α → α → Prop} {x y : Option α} (h : ∀ a ∈ x, ∀ b ∈ y, R a b → S a b)
    (hr : Option.Rel R x y) : Option.Rel S x y := by
  cases hr with
  | none => exact .none
  | some hab => exact .some (h _ rfl _ rfl hab)

theorem rel_congr {α : Type*} {R S : α → α → Prop} {x y : Option α} (h : ∀ a ∈ x, ∀ b ∈ y, R a b ↔ S a b) :
    Option.Rel R x y ↔ Option.Rel S x y :=
  ⟨rel_imp fun a ha b hb => (h a ha b hb).1, rel_imp fun a ha b hb => (h a ha b hb).2⟩

/-- **Canonical bytes are injective up to field order.** On values of the types of the table the bytes
agree exactly for values that are the same up to the order of fields and NaN, no encoding is the
beginning of another one, and the bytes of entries agree exactly when the projected fields do. -/
theorem canonical_injective (display : Bson → String) :
    (∀ v w : Bson, v.WellFormed display → w.WellFormed display → v.InTable → w.InTable →
      (canonicalizeBson display v = canonicalizeBson display w ↔ Same v w) ∧
      (canonicalizeBson display v <+: canonicalizeBson display w →
        canonicalizeBson display v = canonicalizeBson display w)) ∧
    ∀ e f : Document, (Bson.document e).WellFormed display → (Bson.document f).WellFormed display →
      (Bson.document e).InTable → (Bson.document f).InTable →
      (canonicalizeOplogEntry display e = canonicalizeOplogEntry display f ↔
        ∀ key ∈ canonicalFields, Option.Rel Same (e.get key) (f.get key)) := by
  constructor
  · intro v w hv hw hv' hw'
    exact ⟨bytes_eq_iff_same hv hw hv' hw', prefix_free hv hw⟩
  · intro e f he hf he' hf'
    rw [entry_bytes_iff he hf]
    refine forall₂_congr fun key _ => rel_congr fun v hv w hw => ?_
    exact alike_iff_same (everywhere_get he' hv) (everywhere_get hf' hw)

/-- Two documents with the same fields in another order. -/
theorem reordered_same : Same (.document [("b", .null), ("a", .document [("x", .int32 1), ("y", .boolean true)])])
    (.document [("a", .document [("y", .boolean true), ("x", .int32 1)]), ("b", .null)]) := by
  refine (((canonical_injective fun _ => "").1 _ _ ?_ ?_ ?_ ?_).1).1 ?_
  · simp [Bson.WellFormed, Everywhere, EverywhereFields, Bson.Fits, Bson.atom, utf8]
    decide
  · simp [Bson.WellFormed, Everywhere, EverywhereFields, Bson.Fits, Bson.atom, utf8]
    decide
  · simp [Bson.InTable, Everywhere, EverywhereFields, Bson.typeOf, BsonType.inTable]
  · simp [Bson.InTable, Everywhere, EverywhereFields, Bson.typeOf, BsonType.inTable]
  · decide

end

end Oplog
