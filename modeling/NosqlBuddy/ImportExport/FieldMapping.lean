import NosqlBuddy.ImportExport.Coercion
import NosqlBuddy.SafeChange.Server

/-!
# Field mappings

The validation compares whole target names, and the values are put at dotted paths. So one target may lie below another one,
and what is put there last wins (`faithful_iff`).
-/

namespace FieldMapping
open ImportExport (AppError)
open Oplog (Bson Document)
open Mongo (splitPath splitPath_ne_nil)
open Text (trim)
open Paths (look SameFields Write setAll Agree setAt)

structure FieldMappingEntry where
  source : String
  target : String
  skip : Bool
  typeOverride : Option TypeOverride

/-! ## Validation -/

/-- The check of the entries from number `i` on, behind the targets that were seen (mapping.rs:328). -/
def validateFrom (i : Nat) (seen : List (List Char)) : List FieldMappingEntry → Except AppError Unit
  | [] => .ok ()
  | e :: entries =>
    if trim e.source.toList = [] then .error (.validation ("field mapping entry " ++ toString i ++ " has an empty source path"))
    else if e.skip = false ∧ trim e.target.toList = [] then
      .error (.validation ("field mapping entry " ++ toString i ++ " has an empty target name"))
    else if e.skip = false ∧ trim e.target.toList ∈ seen then
      .error (.validation ("field mapping has a duplicate target name: \"" ++ String.ofList (trim e.target.toList) ++ "\""))
    else validateFrom (i + 1) (if e.skip then seen else trim e.target.toList :: seen) entries

def validate (entries : List FieldMappingEntry) : Except AppError Unit := validateFrom 0 [] entries

structure FieldMappingTransform where
  entries : List FieldMappingEntry
  valid : validate entries = .ok ()

def FieldMappingTransform.new (entries : List FieldMappingEntry) : Except AppError FieldMappingTransform :=
  match h : validate entries with
  | .error e => .error e
  | .ok () => .ok ⟨entries, h⟩

/-! ## Application -/

/-- The loop over the parts behind the first one. -/
def getParts : Bson → List String → Option Bson
  | current, [] => some current
  | .document d, part :: parts => (d.lookup part).bind fun value => getParts value parts
  | _, _ :: _ => none

/-- `get_bson_path` (mapping.rs:105). -/
def getBsonPath (doc : Document) (path : String) : Option Bson :=
  match splitPath path with
  | [] => none
  | first :: parts => (doc.lookup first).bind fun value => getParts value parts

/-- `insert_dotted` (mapping.rs:119); a value that is no document makes way for one. -/
def insertDotted : List String → Bson → Document → Document
  | [], _, out => out
  | [first], value, out => Fields.put first value out
  | first :: second :: rest, value, out =>
    match out.lookup first with
    | some (.document inner) => Fields.put first (.document (insertDotted (second :: rest) value inner)) out
    | _ => Fields.put first (.document (insertDotted (second :: rest) value [])) out

section
variable (C : MappingCodec)

/-- The value that an entry takes over, coerced if that is asked for. -/
def coerced (e : FieldMappingEntry) (value : Bson) : Except AppError Bson :=
  match e.typeOverride with
  | some t => coerce C value t
  | none => .ok value

/-- One turn of the loop of `apply`. -/
def applyEntry (doc out : Document) (e : FieldMappingEntry) : Except AppError Document :=
  if e.skip then .ok out
  else
    match getBsonPath doc e.source with
    | none => .ok out
    | some value => (coerced C e value).map fun v => insertDotted (splitPath e.target) v out

def FieldMappingTransform.apply (t : FieldMappingTransform) (doc : Document) : Except AppError (Option Document) :=
  (t.entries.foldlM (applyEntry C doc) []).map some

/-! ## What is asked of a mapping -/

/-- The entry is not skipped, and its source is there. -/
def Reads (doc : Document) (e : FieldMappingEntry) (value : Bson) : Prop :=
  e.skip = false ∧ getBsonPath doc e.source = some value

/-- The entry puts this value at its target. -/
def Writes (doc : Document) (e : FieldMappingEntry) (v : Bson) : Prop := ∃ value, Reads doc e value ∧ coerced C e value = .ok v

/-- Errors, or documents that are the same up to the order of their fields. -/
def SameOutcome : Except AppError (Option Document) → Except AppError (Option Document) → Prop
  | .error _, .error _ => True
  | .ok (some d), .ok (some d') => SameFields (.document d : Bson) (.document d')
  | _, _ => False

/-- The order of the entries does not matter, and every value that is there to be taken over can be read at its target. -/
structure Faithful (t : FieldMappingTransform) (doc : Document) : Prop where
  accepted : ∀ entries, t.entries.Perm entries → validate entries = .ok ()
  permuted : ∀ t' : FieldMappingTransform, t.entries.Perm t'.entries → SameOutcome (t.apply C doc) (t'.apply C doc)
  readBack : ∀ out, t.apply C doc = .ok (some out) → ∀ e ∈ t.entries, ∀ value, Reads doc e value →
    ∃ v, coerced C e value = .ok v ∧ getBsonPath out e.target = some v

/-- Some value cannot be coerced, so the row is an error. -/
def Fails (entries : List FieldMappingEntry) (doc : Document) : Prop :=
  ∃ e ∈ entries, ∃ value err, Reads doc e value ∧ coerced C e value = .error err

/-- Where a target is another one with parts behind it, its value stands at these parts in the value of the other. -/
def Agreeing (entries : List FieldMappingEntry) (doc : Document) : Prop :=
  ∀ e ∈ entries, ∀ f ∈ entries, ∀ v w r, Writes C doc e v → Writes C doc f w → splitPath f.target = splitPath e.target ++ r →
    look r v = some w

end

/-! ## The code in terms of paths -/

theorem look_document (k : String) (ks : List String) (d : Document) :
    look (k :: ks) (Bson.document d) = (d.lookup k).bind (look ks) := rfl

theorem getParts_eq : ∀ (parts : List String) (v : Bson), getParts v parts = look parts v
  | [], v => by cases v <;> rfl
  | part :: parts, v => by
    cases v with
    | document d =>
      rw [look_document, getParts]
      exact congrArg _ (funext fun w => getParts_eq parts w)
    | _ => rfl

theorem getBsonPath_eq (doc : Document) (path : String) : getBsonPath doc path = look (splitPath path) (Bson.document doc) := by
  obtain ⟨k, ks, hpath⟩ := List.exists_cons_of_ne_nil (splitPath_ne_nil path)
  rw [getBsonPath, hpath, look_document]
  exact congrArg (fun g => (doc.lookup k).bind g) (funext fun w => getParts_eq ks w)

theorem insertDotted_eq : ∀ (parts : List String) (v : Bson) (out : Document), insertDotted parts v out = setAt parts v out
  | [], _, _ => rfl
  | [_], _, _ => rfl
  | first :: second :: rest, v, out => by
    rw [insertDotted, setAt]
    cases h : out.lookup first with
    | none => simp only [Option.bind_none, Option.getD_none, insertDotted_eq (second :: rest)]; rfl
    | some w =>
      cases w with
      | document inner => simp only [insertDotted_eq (second :: rest)]; rfl
      | _ => simp only [insertDotted_eq (second :: rest)]; rfl

/-! ## Accepted tables -/

def targets (entries : List FieldMappingEntry) : List (List Char) :=
  (entries.filter fun e => e.skip = false).map fun e => trim e.target.toList

variable {e : FieldMappingEntry}

theorem targets_skipped (h : e.skip = true) (entries : List FieldMappingEntry) :
    targets (e :: entries) = targets entries := by
  rw [targets, List.filter_cons_of_neg (by simp [h]), targets]

theorem targets_emitted (h : e.skip = false) (entries : List FieldMappingEntry) :
    targets (e :: entries) = trim e.target.toList :: targets entries := by
  rw [targets, List.filter_cons_of_pos (by simp [h]), List.map_cons, targets]

theorem validateFrom_iff : ∀ (entries : List FieldMappingEntry) (i : Nat) (seen : List (List Char)),
    validateFrom i seen entries = .ok () ↔ (∀ e ∈ entries, trim e.source.toList ≠ []) ∧
      (∀ t ∈ targets entries, t ≠ [] ∧ t ∉ seen) ∧ (targets entries).Nodup
  | [], _, _ => by simp [validateFrom, targets]
  | e :: entries, i, seen => by
    rw [validateFrom, List.forall_mem_cons]
    by_cases hsource : trim e.source.toList = []
    · rw [if_pos hsource]
      exact iff_of_false (by simp) fun h => h.1.1 hsource
    rw [if_neg hsource]
    cases hskip : e.skip with
    | true =>
      rw [if_neg (by simp), if_neg (by simp), if_pos rfl, validateFrom_iff entries, targets_skipped hskip]
      simp only [hsource, ne_eq, not_false_iff, true_and]
    | false =>
      rw [targets_emitted hskip, List.forall_mem_cons, List.nodup_cons]
      by_cases htarget : trim e.target.toList = []
      · rw [if_pos ⟨rfl, htarget⟩]
        exact iff_of_false (by simp) fun h => h.2.1.1.1 htarget
      by_cases hseen : trim e.target.toList ∈ seen
      · rw [if_neg (fun h => htarget h.2), if_pos ⟨rfl, hseen⟩]
        exact iff_of_false (by simp) fun h => h.2.1.1.2 hseen
      · rw [if_neg (fun h => htarget h.2), if_neg (fun h => hseen h.2), if_neg (by simp), validateFrom_iff entries]
        -- a target that was not seen before is seen from here on
        constructor
        · rintro ⟨hsources, htargets, hnodup⟩
          exact ⟨⟨hsource, hsources⟩, ⟨⟨htarget, hseen⟩, fun t ht => ⟨(htargets t ht).1, fun hs => (htargets t ht).2 (List.mem_cons_of_mem _ hs)⟩⟩,
            fun hmem => (htargets _ hmem).2 List.mem_cons_self, hnodup⟩
        · rintro ⟨⟨-, hsources⟩, ⟨-, htargets⟩, hnew, hnodup⟩
          refine ⟨hsources, fun t ht => ⟨(htargets t ht).1, fun hs => ?_⟩, hnodup⟩
          rcases List.mem_cons.1 hs with rfl | hs
          · exact hnew ht
          · exact (htargets t ht).2 hs

variable {entries : List FieldMappingEntry}

theorem validate_perm (hp : entries.Perm entries') (h : validate entries = .ok ()) :
    validate entries' = .ok () := by
  obtain ⟨hsources, htargets, hnodup⟩ := (validateFrom_iff _ _ _).1 h
  have htargetsPerm : (targets entries).Perm (targets entries') := (hp.filter _).map _
  exact (validateFrom_iff _ _ _).2 ⟨fun e he => hsources e (hp.mem_iff.2 he), fun t ht => htargets t (htargetsPerm.mem_iff.2 ht),
    htargetsPerm.nodup_iff.1 hnodup⟩

/-! ## Every table and every document -/

section
variable {C : MappingCodec} {doc : Document}

/-- What the entry puts where. -/
def write? (C : MappingCodec) (doc : Document) (e : FieldMappingEntry) : Option (Write Bson) :=
  if e.skip then none
  else (getBsonPath doc e.source).bind fun value => (coerced C e value).toOption.map fun v => (splitPath e.target, v)

theorem write?_eq_some :
    write? C doc e = some a ↔ a.1 = splitPath e.target ∧ Writes C doc e a.2 := by
  obtain ⟨p, v⟩ := a
  unfold write? Writes Reads
  cases e.skip with
  | true => simp
  | false =>
    cases getBsonPath doc e.source with
    | none => simp
    | some value =>
      cases hv : coerced C e value with
      | error err => simp [hv, Except.toOption]
      | ok w => simp [hv, Except.toOption, eq_comm]

theorem applyEntry_error (h : Reads doc e value)
    (herr : coerced C e value = .error err) (out : Document) : applyEntry C doc out e = .error err := by
  rw [applyEntry, if_neg (by simp [h.1]), h.2]
  simp only [herr]
  rfl

theorem applyEntry_ok (h : ¬ ∃ value err, Reads doc e value ∧ coerced C e value = .error err)
    (out : Document) : applyEntry C doc out e = .ok (setAll (write? C doc e).toList out) := by
  unfold applyEntry write?
  cases hskip : e.skip with
  | true => rfl
  | false =>
    rw [if_neg (by decide), if_neg (by decide)]
    cases hvalue : getBsonPath doc e.source with
    | none => rfl
    | some value =>
      dsimp only
      cases hv : coerced C e value with
      | error err => exact absurd ⟨value, err, ⟨hskip, hvalue⟩, hv⟩ h
      | ok v =>
        rw [Option.bind_some, hv]
        exact congrArg Except.ok (insertDotted_eq _ _ _)

theorem foldlM_ok : ∀ {entries : List FieldMappingEntry} {out : Document}, ¬ Fails C entries doc →
    entries.foldlM (applyEntry C doc) out = .ok (setAll (entries.filterMap (write? C doc)) out)
  | [], _, _ => rfl
  | e :: entries, out, h => by
    have hhead : ¬ ∃ value err, Reads doc e value ∧ coerced C e value = .error err := fun ⟨value, err, hf⟩ =>
      h ⟨e, List.mem_cons_self, value, err, hf⟩
    have htail : ¬ Fails C entries doc := fun ⟨f, hf, hrest⟩ => h ⟨f, List.mem_cons_of_mem e hf, hrest⟩
    have hwrites : (e :: entries).filterMap (write? C doc) = (write? C doc e).toList ++ entries.filterMap (write? C doc) := by
      rw [List.filterMap_cons]
      cases write? C doc e <;> rfl
    rw [List.foldlM_cons, applyEntry_ok hhead, hwrites, Paths.setAll_append]
    exact foldlM_ok htail

theorem foldlM_error : ∀ {entries : List FieldMappingEntry} {out : Document}, Fails C entries doc →
    ∃ err, entries.foldlM (applyEntry C doc) out = .error err
  | [], _, ⟨_, hmem, _⟩ => absurd hmem List.not_mem_nil
  | e :: entries, out, h => by
    rw [List.foldlM_cons]
    by_cases hhead : ∃ value err, Reads doc e value ∧ coerced C e value = .error err
    · obtain ⟨value, err, hreads, herr⟩ := hhead
      exact ⟨err, by rw [applyEntry_error hreads herr]; rfl⟩
    · obtain ⟨f, hf, hrest⟩ := h
      rw [applyEntry_ok hhead]
      rcases List.mem_cons.1 hf with rfl | hf
      · obtain ⟨value, err, hfail⟩ := hrest
        exact absurd ⟨value, err, hfail⟩ hhead
      · exact foldlM_error ⟨f, hf, hrest⟩

theorem apply_ok {t : FieldMappingTransform} (h : ¬ Fails C t.entries doc) :
    t.apply C doc = .ok (some (setAll (t.entries.filterMap (write? C doc)) [])) := by
  rw [FieldMappingTransform.apply, foldlM_ok h]
  rfl

theorem apply_error {t : FieldMappingTransform} (h : Fails C t.entries doc) : ∃ err, t.apply C doc = .error err := by
  obtain ⟨err, herr⟩ : ∃ err, t.entries.foldlM (applyEntry C doc) [] = .error err := foldlM_error h
  exact ⟨err, by rw [FieldMappingTransform.apply, herr]; rfl⟩

theorem fails_perm (hp : entries.Perm entries') (h : Fails C entries doc) :
    Fails C entries' doc := by
  obtain ⟨e, he, hrest⟩ := h
  exact ⟨e, hp.mem_iff.1 he, hrest⟩

theorem writes_ne_nil : ∀ a ∈ entries.filterMap (write? C doc), a.1 ≠ [] := by
  intro a ha
  obtain ⟨e, -, hw⟩ := List.mem_filterMap.1 ha
  rw [(write?_eq_some.1 hw).1]
  exact splitPath_ne_nil _

theorem agree_of_agreeing (h : Agreeing C entries doc) :
    Agree (entries.filterMap (write? C doc)) := by
  intro a ha b hb r hr
  obtain ⟨e, he, hw⟩ := List.mem_filterMap.1 ha
  obtain ⟨f, hf, hw'⟩ := List.mem_filterMap.1 hb
  obtain ⟨hpath, hwrites⟩ := write?_eq_some.1 hw
  obtain ⟨hpath', hwrites'⟩ := write?_eq_some.1 hw'
  exact h e he f hf a.2 b.2 r hwrites hwrites' (by rw [← hpath, ← hpath', hr])

theorem mem_writes (he : e ∈ entries)
    (h : Writes C doc e v) : (splitPath e.target, v) ∈ entries.filterMap (write? C doc) :=
  List.mem_filterMap.2 ⟨e, he, write?_eq_some.2 ⟨rfl, h⟩⟩

theorem coerced_of_not_fails (h : ¬ Fails C entries doc)
    (he : e ∈ entries) (hreads : Reads doc e value) : ∃ v, coerced C e value = .ok v := by
  cases hv : coerced C e value with
  | error err => exact absurd ⟨e, he, value, err, hreads, hv⟩ h
  | ok v => exact ⟨v, rfl⟩

/-- **A mapping does for a document what is asked of it exactly if some value cannot be coerced, or no target lies below
another one but where its value stands in the value of that one.** -/
theorem faithful_iff (t : FieldMappingTransform) (doc : Document) :
    Faithful C t doc ↔ Fails C t.entries doc ∨ Agreeing C t.entries doc := by
  constructor
  · intro h
    by_cases hfails : Fails C t.entries doc
    · exact .inl hfails
    refine .inr fun e he f hf v w r hv hw hr => ?_
    have hread : ∀ g ∈ t.entries, ∀ u, Writes C doc g u →
        look (splitPath g.target) (Bson.document (setAll (t.entries.filterMap (write? C doc)) [])) = some u := by
      rintro g hg u ⟨value, hreads, hu⟩
      obtain ⟨u', hu', hback⟩ := h.readBack _ (apply_ok hfails) g hg value hreads
      rw [← getBsonPath_eq, hback, ← Except.ok.inj (hu.symm.trans hu')]
    have hlong := hread f hf w hw
    rw [hr, Paths.look_append, hread e he v hv] at hlong
    exact hlong
  · intro h
    have haccepted : ∀ entries, t.entries.Perm entries → validate entries = .ok () := fun _ hp => validate_perm hp t.valid
    by_cases hfails : Fails C t.entries doc
    · -- a row that is an error is one in every order
      obtain ⟨err, herr⟩ := apply_error hfails
      refine ⟨haccepted, fun t' hp => ?_, fun out hout => ?_⟩
      · obtain ⟨err', herr'⟩ := apply_error (fails_perm hp hfails)
        rw [herr, herr']
        trivial
      · cases herr.symm.trans hout
    have hagree := agree_of_agreeing (h.resolve_left hfails)
    refine ⟨haccepted, fun t' hp => ?_, fun out hout e he value hreads => ?_⟩
    · rw [apply_ok hfails, apply_ok fun hf => hfails (fails_perm hp.symm hf)]
      exact Paths.sameFields_setAll hagree writes_ne_nil (hp.filterMap _) []
    · obtain ⟨v, hv⟩ := coerced_of_not_fails hfails he hreads
      refine ⟨v, hv, ?_⟩
      rw [apply_ok hfails] at hout
      obtain rfl := Option.some.inj (Except.ok.inj hout)
      rw [getBsonPath_eq]
      exact Paths.look_setAll hagree writes_ne_nil [] (mem_writes he ⟨value, hreads, hv⟩)

end

/-! ### A target below another one -/

def belowTransform : FieldMappingTransform where
  entries := [⟨"a", "x", false, none⟩, ⟨"b", "x.y", false, none⟩]
  valid := by rfl

/-- With `a` for `x` and `b` for `x.y` the value of `a` is lost. -/
theorem target_overwritten : ¬ Faithful plainMapping belowTransform [("a", .int32 1), ("b", .int32 2)] := by
  intro h
  have happly : belowTransform.apply plainMapping [("a", .int32 1), ("b", .int32 2)] =
      .ok (some [("x", .document [("y", .int32 2)])]) := rfl
  obtain ⟨v, hv, hback⟩ := h.readBack _ happly ⟨"a", "x", false, none⟩ List.mem_cons_self (.int32 1) ⟨rfl, rfl⟩
  have hread : getBsonPath [("x", .document [("y", .int32 2)])] "x" = some (.document [("y", .int32 2)]) := rfl
  cases hv
  cases hread.symm.trans hback

end FieldMapping
