import NosqlBuddy.Lib.Aligned
import NosqlBuddy.Oplog.Injective

/-!
# Types that share a tag

Code, symbols, code with scope and the types of the fallback are written under the tag of strings
(oplog_canon.rs:191-213), the scope of code not at all. The module says that two different values never
produce the same bytes because the tags prevent ambiguity (oplog_canon.rs:55-57).

`types_separated_iff`: the bytes of a value determine the types in it exactly when nothing in it is
written under the tag of strings.
-/

namespace Oplog
open Codes Bson

/-- The types that are written under the tag of strings. -/
def BsonType.asString : BsonType → Bool
  | .string | .javaScriptCode | .symbol | .javaScriptCodeWithScope | .undefined | .minKey | .maxKey | .dbPointer => true
  | _ => false

/-- The same type, and the same scope of code with scope. -/
def SameType (v w : Bson) : Prop :=
  v.typeOf = w.typeOf ∧ ∀ c s d t, v = .javaScriptCodeWithScope c s → w = .javaScriptCodeWithScope d t →
    Same (.document s) (.document t)

/-- The same types and scopes at every place of the two values. -/
def SameTypes : Bson → Bson → Prop := Lift SameType

/-- Nothing in the value is written under the tag of strings. -/
def TextFree (v : Bson) : Prop := v.Everywhere fun v => v.typeOf.asString = false

/-- `doc.insert(key, value)` for a key that the document has. -/
def Document.set (doc : Document) (key : String) (value : Bson) : Document :=
  doc.map fun f => if f.1 = key then (key, value) else f

variable {d : Document} {key s : String} {w v : Bson}

section
variable {display : Bson → String}

theorem keys_set (d : Document) (key : String) (w : Bson) : (d.set key w).map Prod.fst = d.map Prod.fst := by
  rw [Document.set, List.map_map]
  refine List.map_congr_left fun f _ => ?_
  by_cases hf : f.1 = key <;> simp [hf]

theorem mem_set (h : g ∈ d.set key w) :
    g = (key, w) ∨ g ∈ d ∧ g.1 ≠ key := by
  obtain ⟨f, hf, rfl⟩ := List.mem_map.1 h
  by_cases hkey : f.1 = key
  · simp [hkey]
  · simp [hkey, hf]

theorem get_set (d : Document) (key k : String) (w : Bson) :
    (d.set key w).get k = if k = key then (d.get k).map fun _ => w else d.get k := by
  unfold Document.set Document.get
  rw [List.find?_map]
  have hkeys : ((fun f : String × Bson => decide (f.1 = k)) ∘ fun f => if f.1 = key then (key, w) else f) =
      fun f => decide (f.1 = k) := by
    funext f
    by_cases hf : f.1 = key <;> simp [hf]
  rw [hkeys]
  cases hfind : d.find? fun f => f.1 = k with
  | none => simp
  | some f =>
    have hf := List.find?_some hfind
    simp only [decide_eq_true_eq] at hf
    by_cases hk : k = key <;> simp [hf, hk]

theorem wellFormed_set (hd : (Bson.document d).WellFormed display)
    (hw : w.WellFormed display) : (Bson.document (d.set key w)).WellFormed display := by
  obtain ⟨⟨hlen, hnodup, hkeys⟩, hvals⟩ := everywhere_document.1 hd
  refine everywhere_document.2 ⟨⟨by simpa [Document.set] using hlen, by rwa [keys_set], ?_⟩, ?_⟩
  · rw [← List.forall_mem_map (f := Prod.fst) (P := fun k => (utf8 k).length < 2 ^ 32)] at hkeys ⊢
    rwa [keys_set]
  · intro g hg
    rcases mem_set hg with rfl | ⟨hg, _⟩
    · exact hw
    · exact hvals g hg

/-! ## Separated -/

theorem tag_of_not_asString (h : v.atom display = some a) (ht : v.typeOf.asString = false) :
    a.tag ≠ tagString := by
  cases v <;> simp only [Bson.atom, Bson.text, Option.map_some, Option.some.injEq, reduceCtorEq] at h <;> subst h <;>
    simp [BsonType.asString, Bson.typeOf] at ht <;> simp only <;> decide

theorem Alike.sameTypes (hv : TextFree v) (hw : w.WellFormed display) (h : Alike display v w) :
    SameTypes v w := by
  refine Lift.imp (fun v w _ hv _ => ?_) v hv hw h
  rintro ⟨a, ha, hb⟩
  have htag := tag_of_not_asString ha hv
  refine ⟨(typeOf_of_tag ha (.inr htag)).trans (typeOf_of_tag hb (.inr htag)).symm, ?_⟩
  rintro c s d t rfl
  simp [Bson.typeOf, BsonType.asString] at hv

/-! ## Not separated -/

/-- A well-formed value with the same bytes and not the same types. -/
def Clash (display : Bson → String) (v w : Bson) : Prop :=
  w.WellFormed display ∧ canonicalizeBson display v = canonicalizeBson display w ∧ ¬ SameTypes v w

theorem wellFormed_text (hv : v.WellFormed display) (hs : v.text display = some s) :
    (utf8 s).length < 2 ^ 32 := by
  have hatom : v.atom display = some ⟨tagString, [], [utf8 s]⟩ := by
    cases v <;> simp_all [Bson.atom, Bson.text]
  simpa using wellFormed_atom hv hatom

theorem bytes_text (hs : v.text display = some s) :
    canonicalizeBson display v = tagString :: blob (utf8 s) := by
  cases v <;> simp [Bson.text] at hs <;> subst hs <;> simp [canonicalizeBson]

theorem clash_text (hv : v.WellFormed display) (hs : v.text display = some s) :
    ∃ w, Clash display v w := by
  have hlen := wellFormed_text hv hs
  have hatom : Bson.IsAtom v := by
    cases v <;> simp [Bson.text] at hs <;> simp [Bson.IsAtom]
  -- code for a string, a string for everything else
  have hother : ∃ w : Bson, w.WellFormed display ∧ w.text display = some s ∧ v.typeOf ≠ w.typeOf := by
    by_cases hstring : v.typeOf = .string
    · refine ⟨.javaScriptCode s, ?_, rfl, by rw [hstring]; simp [Bson.typeOf]⟩
      simpa [Bson.WellFormed, Everywhere, Bson.Fits, Bson.atom, Bson.text] using hlen
    · refine ⟨.string s, ?_, rfl, hstring⟩
      simpa [Bson.WellFormed, Everywhere, Bson.Fits, Bson.atom, Bson.text] using hlen
  obtain ⟨w, hw, hws, htype⟩ := hother
  refine ⟨w, hw, by rw [bytes_text hs, bytes_text hws], fun h => htype ?_⟩
  exact ((lift_atom hatom).1 h).1

theorem bytes_set (hd : (d.map Prod.fst).Nodup) (hmem : (key, v) ∈ d)
    (hbytes : canonicalizeBson display v = canonicalizeBson display w) :
    canonicalizeBson display (.document (d.set key w)) = canonicalizeBson display (.document d) := by
  have hpairs : canonicalizePairs display (d.set key w) = canonicalizePairs display d := by
    rw [canonicalizePairs_eq, canonicalizePairs_eq, Document.set, List.map_map]
    refine List.map_congr_left fun f hf => ?_
    by_cases hkey : f.1 = key
    · obtain rfl : f = (key, v) := List.inj_on_of_nodup_map hd hf hmem hkey
      simp [hbytes]
    · simp [hkey]
  rw [canonicalizeBson, canonicalizeBson, hpairs, Document.set, List.length_map]

/-- **A clash anywhere in a value** is a clash of the value. -/
theorem exists_clash (v : Bson) : v.WellFormed display → ¬ TextFree v → ∃ w, Clash display v w := by
  induction v using Bson.induction with
  | atom v hatom =>
    intro hv htext
    have htype : v.typeOf.asString = true := by simpa [TextFree, everywhere_atom hatom] using htext
    have hs : ∃ s, v.text display = some s := by
      cases v <;> simp [Bson.typeOf, BsonType.asString] at htype <;> simp [Bson.text]
    obtain ⟨s, hs⟩ := hs
    exact clash_text hv hs
  | array xs ih =>
    intro hv htext
    obtain ⟨hlen, hxs⟩ := everywhere_array.1 hv
    have hsome : ∃ x ∈ xs, ¬ TextFree x := by
      by_contra hno
      push Not at hno
      exact htext (everywhere_array.2 ⟨rfl, hno⟩)
    obtain ⟨x, hx, hxtext⟩ := hsome
    obtain ⟨y, hy, hbytes, htypes⟩ := ih x hx (hxs x hx) hxtext
    obtain ⟨as, bs, rfl⟩ := List.append_of_mem hx
    refine ⟨.array (as ++ y :: bs), everywhere_array.2 ⟨by simpa [Bson.Fits] using hlen, ?_⟩, ?_, fun h => ?_⟩
    · intro z hz
      rcases List.mem_append.1 hz with hz | hz
      · exact hxs z (by simp [hz])
      · rcases List.mem_cons.1 hz with rfl | hz
        · exact hy
        · exact hxs z (by simp [hz])
    · simp [canonicalizeBson_array, hbytes]
    · obtain ⟨ys, hys, hall⟩ := lift_array.1 h
      rw [← Bson.array.inj hys, List.forall₂_iff_get] at hall
      have hat := hall.2 as.length (by simp) (by simp)
      simp at hat
      exact htypes hat
  | document fs ih =>
    intro hv htext
    obtain ⟨⟨_, hnodup, _⟩, hfs⟩ := everywhere_document.1 hv
    have hsome : ∃ f ∈ fs, ¬ TextFree f.2 := by
      by_contra hno
      push Not at hno
      exact htext (everywhere_document.2 ⟨rfl, hno⟩)
    obtain ⟨⟨key, x⟩, hx, hxtext⟩ := hsome
    obtain ⟨y, hy, hbytes, htypes⟩ := ih _ hx (hfs _ hx) hxtext
    refine ⟨.document (Document.set fs key y), wellFormed_set hv hy, (bytes_set hnodup hx hbytes).symm, fun h => ?_⟩
    obtain ⟨gs, gs', hgs, hperm, hall⟩ := lift_document.1 h
    obtain ⟨g, hg, hkey, htype⟩ := Aligned.exists_right hall hx
    rcases mem_set (Bson.document.inj hgs ▸ hperm.mem_iff.2 hg) with rfl | ⟨_, hne⟩
    · exact htypes htype
    · exact hne hkey.symm

theorem canonicalizeOplogEntry_congr (h : ∀ key,
    (e.get key).map (canonicalizeBson display) = (f.get key).map (canonicalizeBson display)) :
    canonicalizeOplogEntry display e = canonicalizeOplogEntry display f := by
  have hpresent : ∀ key, (e.get key).isSome = (f.get key).isSome := fun key => by
    rw [← Option.isSome_map, h key, Option.isSome_map]
  simp only [canonicalizeOplogEntry, hpresent, h]

theorem exists_entry_clash {e : Document} (he : (Bson.document e).WellFormed display) (hv : e.get key = some v) (htext : ¬ TextFree v) : ∃ f : Document, (Bson.document f).WellFormed display ∧
      canonicalizeOplogEntry display e = canonicalizeOplogEntry display f ∧
      ¬ Option.Rel SameTypes (e.get key) (f.get key) := by
  obtain ⟨w, hw, hbytes, htypes⟩ := exists_clash v (everywhere_get he hv) htext
  refine ⟨e.set key w, wellFormed_set he hw, canonicalizeOplogEntry_congr fun k => ?_, ?_⟩
  · rw [get_set]
    by_cases hk : k = key
    · simp [hk, hv, hbytes]
    · simp [hk]
  · rw [get_set, hv]
    simpa using htypes

/-- **When the bytes tell the types.** The bytes of a value determine the types and scopes in it exactly
when nothing in it is written under the tag of strings; those of an entry exactly when nothing in its
projected fields is. -/
theorem types_separated_iff (display : Bson → String) :
    (∀ v : Bson, v.WellFormed display →
      ((∀ w : Bson, w.WellFormed display → canonicalizeBson display v = canonicalizeBson display w → SameTypes v w) ↔
        TextFree v)) ∧
    ∀ e : Document, (Bson.document e).WellFormed display →
      ((∀ f : Document, (Bson.document f).WellFormed display →
          canonicalizeOplogEntry display e = canonicalizeOplogEntry display f →
          ∀ key ∈ canonicalFields, Option.Rel SameTypes (e.get key) (f.get key)) ↔
        ∀ key ∈ canonicalFields, ∀ v ∈ e.get key, TextFree v) := by
  constructor
  · intro v hv
    constructor
    · intro h
      by_contra htext
      obtain ⟨w, hw, hbytes, htypes⟩ := exists_clash v hv htext
      exact htypes (h w hw hbytes)
    · intro htext w hw hbytes
      exact ((alike_iff hv hw).1 hbytes).sameTypes htext hw
  · intro e he
    constructor
    · intro h key hkey v hv
      by_contra htext
      obtain ⟨f, hf, hbytes, htypes⟩ := exists_entry_clash he hv htext
      exact htypes (h f hf hbytes key hkey)
    · intro htext f hf hbytes key hkey
      refine rel_imp (fun v hv w hw h => ?_) ((entry_bytes_iff he hf).1 hbytes key hkey)
      exact h.sameTypes (htext key hkey v hv) (everywhere_get hf hw)

/-- A number is told apart from everything else. -/
theorem int32_separated : ∀ w : Bson, w.WellFormed (fun _ => "") →
    canonicalizeBson (fun _ => "") (.int32 1) = canonicalizeBson (fun _ => "") w → SameTypes (.int32 1) w :=
  ((types_separated_iff fun _ => "").1 (.int32 1)
    (by simp [Bson.WellFormed, Everywhere, Bson.Fits, Bson.atom])).2
    (by simp [TextFree, Everywhere, Bson.typeOf, BsonType.asString])

/-- A string and code with the same text, and code with two scopes, are written as the same bytes. -/
theorem string_and_code_clash :
    canonicalizeOplogEntry (fun _ => "") [("o", .string "x")] =
      canonicalizeOplogEntry (fun _ => "") [("o", .javaScriptCode "x")] ∧
    ¬ SameTypes (.string "x") (.javaScriptCode "x") ∧
    canonicalizeOplogEntry (fun _ => "") [("o", .javaScriptCodeWithScope "f" [("n", .int32 1)])] =
      canonicalizeOplogEntry (fun _ => "") [("o", .javaScriptCodeWithScope "f" [])] ∧
    ¬ SameTypes (.javaScriptCodeWithScope "f" [("n", .int32 1)]) (.javaScriptCodeWithScope "f" []) := by
  refine ⟨canonicalizeOplogEntry_congr fun key => ?_, fun h => ?_, canonicalizeOplogEntry_congr fun key => ?_, fun h => ?_⟩
  · by_cases hkey : "o" = key <;> simp [Document.get, hkey, canonicalizeBson]
  · exact absurd h.1 (by decide)
  · by_cases hkey : "o" = key <;> simp [Document.get, hkey, canonicalizeBson]
  · obtain ⟨gs, gs', hgs, hperm, hall⟩ := lift_document.1 (h.2 _ _ _ _ rfl rfl)
    rw [← Bson.document.inj hgs, List.nil_perm] at hperm
    rw [hperm] at hall
    cases hall

end

end Oplog
