import NosqlBuddy.Lib.LinePlaces
import NosqlBuddy.Audit.HonestFile

/-!
# What opening does to the file

Both readers cut `events.jsonl` before the first line that they cannot parse, wherever it stands (mod.rs:513-531, :660-676),
and write what is left as lines that end in `\n`. `onlyTornTail_iff`: a file loses no more than a torn last line exactly when
its unparsable line is the last one that is not blank, no line before it ends in a carriage return, and it does not stand
behind a single empty line.
-/

namespace Audit
open Mutation Text

/-- Neither an event nor metadata, and not blank. -/
def Unparsable (P : Prims) (line : List Char) : Prop :=
  trim line ≠ [] ∧ P.eventFromStr (trim line) = none ∧ (P.valueFromStr (trim line)).bind (·.get "meta") = none

/-- The text of a file, if it is UTF-8. -/
def textOf (bytes : ByteArray) : Option (List Char) := bytes.utf8Decode?.map Array.toList

/-- What an opening that ended in `result` and left the file `after` may have done to it. -/
structure OnlyTornTail (P : Prims) (bytes : ByteArray) (result : Except AuditError Unit) (after : Option ByteArray) : Prop where
  /-- The file is unchanged, or without its final line, which could not be parsed. -/
  tail : after = some bytes ∨ ∃ text before line rest, textOf bytes = some text ∧ LineAt text before line rest ∧
    Unparsable P line ∧ Blank rest ∧ after = some (String.ofList (unlines before)).toByteArray
  /-- Damage before the last line is reported, and the file is unchanged. -/
  damage : ∀ text before line rest, textOf bytes = some text → LineAt text before line rest → Unparsable P line → ¬ Blank rest →
    after = some bytes ∧ ∃ e, result = .error e

/-- No line but the last can be unparsable, and then what is written back is what stood before it. -/
def TornAtEnd (P : Prims) (bytes : ByteArray) : Prop :=
  ∀ text before line rest, textOf bytes = some text → LineAt text before line rest → Unparsable P line →
    Blank rest ∧ before ≠ [[]] ∧ ∀ l ∈ before, l.getLast? ≠ some '\r'

/-! ## The first unparsable line -/

variable {l : List Char} {bytes : ByteArray}

section
variable {P : Prims}

theorem unparsable_congr (h : trim l = trim m) : Unparsable P l ↔ Unparsable P m := by
  rw [Unparsable, Unparsable, h]

theorem scanLines_cons (i : Nat) (l : List Char) (ls : List (List Char)) :
    (Unparsable P l ∧ (scanLines P i (l :: ls)).2 = some i) ∨
      (¬ Unparsable P l ∧ (scanLines P i (l :: ls)).2 = (scanLines P (i + 1) ls).2) := by
  rw [scanLines, Unparsable]
  by_cases hblank : trim l = []
  · rw [if_pos hblank]
    exact .inr ⟨fun h => h.1 hblank, rfl⟩
  rw [if_neg hblank]
  cases hev : P.eventFromStr (trim l) with
  | some ev => exact .inr ⟨fun h => absurd h.2.1 (Option.some_ne_none ev), rfl⟩
  | none =>
    cases hmeta : (P.valueFromStr (trim l)).bind (·.get "meta") with
    | some v => exact .inr ⟨fun h => absurd h.2.2 (Option.some_ne_none v), rfl⟩
    | none => exact .inl ⟨⟨hblank, rfl, rfl⟩, rfl⟩

theorem scanLines_none : ∀ {ls : List (List Char)} {i : Nat}, (scanLines P i ls).2 = none → ∀ l ∈ ls, ¬ Unparsable P l
  | l :: ls, i, h, m, hm => by
    rcases scanLines_cons (P := P) i l ls with ⟨-, heq⟩ | ⟨hl, heq⟩
    · rw [heq] at h
      cases h
    · rw [heq] at h
      rcases List.mem_cons.1 hm with rfl | hm
      · exact hl
      · exact scanLines_none h m hm

theorem scanLines_some : ∀ {ls : List (List Char)} {i j : Nat}, (scanLines P i ls).2 = some j →
    ∃ pre bad after, ls = pre ++ bad :: after ∧ j = i + pre.length ∧ Unparsable P bad
  | [], i, j, h => nomatch h
  | l :: ls, i, j, h => by
    rcases scanLines_cons (P := P) i l ls with ⟨hl, heq⟩ | ⟨-, heq⟩
    · rw [heq] at h
      exact ⟨[], l, ls, rfl, (Option.some.inj h).symm, hl⟩
    · rw [heq] at h
      obtain ⟨pre, bad, after, rfl, rfl, hbad⟩ := scanLines_some h
      exact ⟨l :: pre, bad, after, rfl, by rw [List.length_cons]; omega, hbad⟩

/-! ## The file that is left -/

/-- What opening leaves of the file. -/
def fileAfter (P : Prims) (bytes : ByteArray) : ByteArray :=
  match textOf bytes with
  | none => bytes
  | some text =>
    match (scanLines P 0 (lines text)).2 with
    | none => bytes
    | some i => (String.ofList (cleanText (lines text) i)).toByteArray

theorem readOutcome_events (hd : d.events = some bytes) :
    (readOutcome P {} d).2.events = some (fileAfter P bytes) := by
  unfold fileAfter textOf
  cases hdecode : bytes.utf8Decode? with
  | none =>
    have hread : readText none d = .error (.io "stream did not contain valid UTF-8") := by simp [readText, hd, hdecode]
    simp [readOutcome, hread, hd]
  | some text =>
    have hread : readText none d = .ok text.toList := by simp [readText, hd, hdecode]
    simp only [readOutcome, hread, cutFile, Option.map_some]
    cases hscan : (scanLines P 0 (lines text.toList)).2 with
    | none => simp [hread, hd]
    | some i =>
      simp only
      rw [readText_encoded rfl]

theorem events_after (dir : String) (w : World) (he : (w.disk dir).events = some bytes) :
    ((exec (setPersistenceDir P {} dir) w).2.disk dir).events = some (fileAfter P bytes) := by
  have hev : ((w.opening {} dir).disk dir).events = some bytes := by rw [opening_disk]; exact he
  have houtcome := readOutcome_events (P := P) hev
  rw [exec_setPersistenceDir, exec_readEvents_some hev, World.readThen]
  generalize readOutcome P {} ((w.opening {} dir).disk dir) = r at houtcome
  obtain ⟨_ | ⟨parsed, m⟩, d⟩ := r
  · simp only [World.setDir, Function.update_self]
    exact houtcome
  · simp only
    cases hread : (if (sledTree {} (w.disk dir)).isSome = true then AuditLog.verify P else AuditLog.replay P)
        ((w.opening {} dir).log.setMeta m) parsed with
    | mk result log =>
      cases result with
      | error e =>
        simp only [World.setDir, Except.map, Function.update_self]
        exact houtcome
      | ok _ =>
        simp only [World.setDir, Except.map, World.opened, Dir.withEvents, Function.update_self]
        rw [houtcome]
        rfl

/-! ## What is written back -/

theorem stripCr_eq_self_iff : stripCr l = l ↔ l.getLast? ≠ some '\r' := by
  rw [stripCr]
  split
  · next h =>
    refine iff_of_false (fun heq => ?_) (not_not_intro h)
    have hlen := congrArg List.length heq
    have hne : l ≠ [] := fun hnil => by simp [hnil] at h
    have := List.length_pos_of_ne_nil hne
    rw [List.length_dropLast] at hlen
    omega
  · next h => exact iff_of_true rfl h

theorem newline_notMem_stripCr (h : '\n' ∉ l) : '\n' ∉ stripCr l := by
  rw [stripCr]
  split
  · exact fun hm => h (List.dropLast_subset l hm)
  · exact h

theorem unlines_stripCr_iff : ∀ {before : List (List Char)}, (∀ l ∈ before, '\n' ∉ l) →
    (unlines (before.map stripCr) = unlines before ↔ ∀ l ∈ before, l.getLast? ≠ some '\r')
  | [], _ => iff_of_true rfl fun _ h => absurd h List.not_mem_nil
  | l :: before, h => by
    have hl := h l List.mem_cons_self
    have ih := unlines_stripCr_iff fun m hm => h m (List.mem_cons_of_mem l hm)
    rw [List.map_cons, unlines_cons, unlines_cons, List.forall_mem_cons, ← stripCr_eq_self_iff, ← ih]
    constructor
    · exact Cut.append_cons_inj (newline_notMem_stripCr hl) hl
    · rintro ⟨hstrip, hrest⟩
      rw [hstrip, hrest]

theorem length_unlines_stripCr_le (before : List (List Char)) : (unlines (before.map stripCr)).length ≤ (unlines before).length := by
  induction before with
  | nil => exact Nat.le_refl _
  | cons l before ih =>
    have hstrip : (stripCr l).length ≤ l.length := by
      rw [stripCr]
      split
      · rw [List.length_dropLast]
        exact Nat.sub_le _ _
      · exact Nat.le_refl _
    rw [List.map_cons, unlines_cons, unlines_cons, List.length_append, List.length_append, List.length_cons, List.length_cons]
    omega

theorem take_before (before rest : List (List Char)) : (before.map stripCr ++ rest).take before.length = before.map stripCr := by
  rw [← List.length_map (f := stripCr), List.take_left]

theorem length_cleanText_le (before rest : List (List Char)) :
    (cleanText (before.map stripCr ++ rest) before.length).length ≤ (unlines before).length := by
  unfold cleanText
  rw [take_before]
  by_cases hnil : join (before.map stripCr) = []
  · simp [hnil]
  · have hne : before.map stripCr ≠ [] := fun h => hnil (by rw [h]; rfl)
    simp only [hnil, if_false]
    rw [join_concat_newline hne]
    exact length_unlines_stripCr_le before

/-- What is written back is what stood there when no line ended in a carriage return; a single empty line is lost. -/
theorem cleanText_eq_iff (h : ∀ l ∈ before, '\n' ∉ l) (rest : List (List Char)) :
    cleanText (before.map stripCr ++ rest) before.length = unlines before ↔
      before ≠ [[]] ∧ ∀ l ∈ before, l.getLast? ≠ some '\r' := by
  unfold cleanText
  rw [take_before]
  cases before with
  | nil => exact iff_of_true rfl ⟨(List.cons_ne_nil _ _).symm, fun _ hm => absurd hm List.not_mem_nil⟩
  | cons l before =>
    have hjoin := @join_concat_newline ((l :: before).map stripCr) (List.cons_ne_nil _ _)
    by_cases hnil : join ((l :: before).map stripCr) = []
    · simp only [hnil, if_true]
      rw [hnil, List.nil_append, List.map_cons, unlines_cons] at hjoin
      refine iff_of_false (fun heq => ?_) fun hplain => ?_
      · rw [unlines_cons] at heq
        exact List.append_ne_nil_of_right_ne_nil l (List.cons_ne_nil _ _) heq.symm
      · obtain ⟨hstrip, hrest⟩ := Cut.append_cons_inj (a := []) List.not_mem_nil
          (newline_notMem_stripCr (h l List.mem_cons_self)) hjoin
        have hl := stripCr_eq_self_iff.2 (hplain.2 l List.mem_cons_self)
        rw [← hstrip] at hl
        cases before with
        | nil => exact hplain.1 (by rw [← hl])
        | cons m before =>
          rw [List.map_cons, unlines_cons] at hrest
          exact List.append_ne_nil_of_right_ne_nil _ (List.cons_ne_nil _ _) hrest.symm
    · simp only [hnil, if_false]
      rw [hjoin, unlines_stripCr_iff h]
      refine (and_iff_right fun heq => hnil ?_).symm
      rw [heq]
      rfl

/-! ## Which files lose only a torn tail -/

theorem ofList_toByteArray_inj (h : (String.ofList a).toByteArray = (String.ofList b).toByteArray) : a = b := by
  rw [String.toByteArray_ofList, String.toByteArray_ofList] at h
  have hdecode := List.utf8Decode?_utf8Encode (l := a)
  rw [h, List.utf8Decode?_utf8Encode] at hdecode
  simpa using hdecode.symm

theorem textOf_eq (h : textOf bytes = some text) :
    bytes = (String.ofList text).toByteArray := by
  obtain ⟨arr, hdecode, rfl⟩ := Option.map_eq_some_iff.1 h
  have hencode := ByteArray.utf8Encode_get_utf8Decode? (b := bytes) (h := by rw [hdecode]; rfl)
  simp only [hdecode, Option.get_some] at hencode
  rw [String.toByteArray_ofList, hencode]

theorem fileAfter_cases (h : textOf bytes = some text) :
    (fileAfter P bytes = bytes ∧ ∀ before line rest, LineAt text before line rest → ¬ Unparsable P line) ∨
      ∃ before line rest, LineAt text before line rest ∧ Unparsable P line ∧ fileAfter P bytes ≠ bytes ∧
        (fileAfter P bytes = (String.ofList (unlines before)).toByteArray ↔
          before ≠ [[]] ∧ ∀ l ∈ before, l.getLast? ≠ some '\r') := by
  unfold fileAfter
  rw [h]
  simp only
  cases hscan : (scanLines P 0 (lines text)).2 with
  | none =>
    refine .inl ⟨rfl, fun before line rest hline hbad => ?_⟩
    have hne : line ≠ [] := fun hnil => hbad.1 (by rw [hnil]; rfl)
    obtain ⟨l, after, hlines, htrim⟩ := lines_of_lineAt hline hne
    exact scanLines_none hscan l (hlines ▸ List.mem_append_right _ List.mem_cons_self) ((unparsable_congr htrim).2 hbad)
  | some i =>
    obtain ⟨pre, bad, after, hlines, rfl, hbad⟩ := scanLines_some hscan
    obtain ⟨before, line, rest, hline, rfl, htrim⟩ := lineAt_of_lines hlines
    have hclean := cleanText_eq_iff hline.before (bad :: after)
    have hlen : 0 + (before.map stripCr).length = before.length := by rw [Nat.zero_add, List.length_map]
    simp only [hlines, hlen]
    refine .inr ⟨before, line, rest, hline, (unparsable_congr htrim).2 hbad, fun heq => ?_, ?_⟩
    · rw [textOf_eq h] at heq
      have hlength := congrArg List.length (ofList_toByteArray_inj heq)
      have hle := length_cleanText_le before (bad :: after)
      have hne : line ≠ [] := fun hnil => hbad.1 (by rw [← htrim, hnil]; rfl)
      have hpos := List.length_pos_of_ne_nil hne
      rw [hlength, hline.eq, List.length_append, List.length_append] at hle
      omega
    · rw [← hclean]
      exact ⟨ofList_toByteArray_inj, fun heq => by rw [heq]⟩

/-- The directory with this event file. -/
def World.withFile (w : World) (dir : String) (bytes : ByteArray) : World :=
  w.setDir dir { w.disk dir with events := some bytes }

theorem withFile_events (w : World) (dir : String) (bytes : ByteArray) : ((w.withFile dir bytes).disk dir).events = some bytes := by
  simp [World.withFile, World.setDir]

/-- **Opening drops nothing but a torn last line exactly when only the last line is unparsable and what stands before it is
already as it is written back.** -/
theorem onlyTornTail_iff (P : Prims) (dir : String) (w : World) (bytes : ByteArray) :
    OnlyTornTail P bytes (exec (setPersistenceDir P {} dir) (w.withFile dir bytes)).1
      ((exec (setPersistenceDir P {} dir) (w.withFile dir bytes)).2.disk dir).events ↔ TornAtEnd P bytes := by
  rw [events_after dir _ (withFile_events w dir bytes)]
  generalize (exec (setPersistenceDir P {} dir) (w.withFile dir bytes)).1 = result
  cases htext : textOf bytes with
  | none =>
    have hafter : fileAfter P bytes = bytes := by rw [fileAfter, htext]
    refine iff_of_true ⟨.inl (by rw [hafter]), fun text _ _ _ h => ?_⟩ fun text _ _ _ h => ?_
    · rw [htext] at h
      cases h
    · rw [htext] at h
      cases h
  | some text =>
    rcases fileAfter_cases htext with ⟨hafter, hnone⟩ | ⟨before, line, rest, hline, hbad, hne, hiff⟩
    · refine iff_of_true ⟨.inl (by rw [hafter]), fun text' before line rest h hline hbad => ?_⟩ fun text' before line rest h hline hbad => ?_
      all_goals
        rw [htext] at h
        cases h
        exact absurd hbad (hnone before line rest hline)
    constructor
    · intro h text' before' line' rest' ht hline' hbad'
      rw [htext] at ht
      obtain rfl := Option.some.inj ht
      -- the file has changed, so no damage was reported: nothing visible follows an unparsable line
      have hblank : ∀ before line rest, LineAt text before line rest → Unparsable P line → Blank rest := by
        intro b l r hl hb
        by_contra hnot
        exact hne (Option.some.inj (h.damage text b l r htext hl hb hnot).1)
      have hvisible : ∀ {l}, Unparsable P l → ¬ Blank l := fun hl hnil => hl.1 (trim_eq_nil_iff.2 hnil)
      obtain ⟨rfl, rfl, rfl⟩ := hline.last hline' (hblank _ _ _ hline hbad) (hblank _ _ _ hline' hbad') (hvisible hbad) (hvisible hbad')
      refine ⟨hblank _ _ _ hline hbad, hiff.1 ?_⟩
      rcases h.tail with hsame | ⟨text', before', line', rest', ht, hcut, hbad', hblank', hafter⟩
      · exact absurd (Option.some.inj hsame) hne
      · rw [htext] at ht
        obtain rfl := Option.some.inj ht
        obtain ⟨rfl, -, -⟩ := hline.last hcut (hblank _ _ _ hline hbad) hblank' (hvisible hbad) (hvisible hbad')
        exact Option.some.inj hafter
    · intro h
      obtain ⟨hblank, hplain⟩ := h text before line rest htext hline hbad
      refine ⟨.inr ⟨text, before, line, rest, htext, hline, hbad, hblank, by rw [hiff.2 hplain]⟩, ?_⟩
      intro text' before' line' rest' ht hline' hbad' hnot
      exact absurd (h text' before' line' rest' ht hline' hbad').1 hnot

end

/-- The first event of a log. -/
def firstEvent : PersistedEvent where
  index := 0
  operation := "insert"
  database := "shop"
  collection := "orders"
  deploymentId := "rs:rs0"
  sequence := 0
  payload := "insert|shop|orders|1"
  leafHex := frToHex (leafFromPayload demoPrims "insert" "shop" "orders" "insert|shop|orders|1")
  rootAfter := rootHex demoPrims [leafFromPayload demoPrims "insert" "shop" "orders" "insert|shop|orders|1"]
  timestamp := demoPrims.toRfc3339 ⟨0, 0⟩
  version := 1

/-- A damaged line in front of a complete event. -/
def damagedFirst : List Char := 'x' :: '\n' :: (demoPrims.eventToString firstEvent ++ ['\n'])

/-- The complete event behind a damaged line is deleted: opening cuts the whole file. -/
theorem damagedFirst_cut : ¬ OnlyTornTail demoPrims (String.ofList damagedFirst).toByteArray
    (exec (setPersistenceDir demoPrims {} "data") ((World.start none emptyDisk).withFile "data" (String.ofList damagedFirst).toByteArray)).1
    ((exec (setPersistenceDir demoPrims {} "data")
      ((World.start none emptyDisk).withFile "data" (String.ofList damagedFirst).toByteArray)).2.disk "data").events := by
  intro h
  have htext : textOf (String.ofList damagedFirst).toByteArray = some damagedFirst := by
    rw [textOf, String.toByteArray_ofList, List.utf8Decode?_utf8Encode]
    rfl
  have hline : LineAt damagedFirst [] ['x'] damagedFirst.tail := ⟨rfl, fun _ hm => absurd hm List.not_mem_nil, by decide, .inr ⟨_, rfl⟩⟩
  have hbad : Unparsable demoPrims ['x'] := ⟨by decide, rfl, rfl⟩
  have hvisible : ¬ Blank damagedFirst.tail := fun hblank => by
    obtain ⟨cs, hbraces⟩ := demoPrims_lawful.braces firstEvent
    have hbrace : '\x7b' ∈ demoPrims.eventToString firstEvent := hbraces ▸ List.mem_cons_self
    exact absurd (hblank '\x7b' (List.mem_cons_of_mem _ (List.mem_append_left _ hbrace))) (by decide)
  have hsame := (h.damage _ _ _ _ htext hline hbad hvisible).1
  rw [events_after "data" _ (withFile_events _ "data" _)] at hsame
  rcases fileAfter_cases (P := demoPrims) htext with ⟨-, hnone⟩ | ⟨before, line, rest, -, -, hne, -⟩
  · exact hnone _ _ _ hline hbad
  · exact hne (Option.some.inj hsame)

end Audit
