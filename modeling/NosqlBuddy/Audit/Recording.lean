import NosqlBuddy.Audit.Readers

/-!
# Recording

What `record` and `record_v3` leave in memory and on disk (`recordInner_ok`, `recordInner_failed`), and
the file of a run of them: `recordedEvents` are the lines such a run writes, and the codec laws
(`Prims.Lawful`) make `replay_file` read them back (`readOutcome_file`, `chained_recordedEvents`).
-/

namespace Audit
open Mutation Text

/-! ## Calls -/

/-- A call of `record` or of `record_v3`, with the time at which it is made. -/
inductive RecordCall where
  | record (now : Instant) (deploymentId operation database collection payload : String) (leaf : Fr)
  | recordV3 (now : Instant) (deploymentId operation database collection : String) (canonicalPayload : List UInt8)

section
variable (P : Prims)

def RecordCall.run (io : Io) : RecordCall → AuditM Nat
  | .record now dep op db coll payload leaf => Audit.record P io now dep op db coll payload leaf
  | .recordV3 now dep op db coll canonical => Audit.recordV3 P io now dep op db coll canonical

/-- What the call hands to `record_inner`; `record_v3` needs the leaf key. -/
def RecordCall.entry (leafKey : Option Bytes32) : RecordCall → Option Entry
  | .record now dep op db coll payload leaf => some (recordEntry P leafKey now dep op db coll payload leaf)
  | .recordV3 now dep op db coll canonical => leafKey.map fun key => recordV3Entry P key now dep op db coll canonical

/-- The leaf of the entry is the one replay recomputes from its line. -/
def Entry.Honest (leafKey : Option Bytes32) (e : Entry) : Prop :=
  ∀ index sequence rootAfter, recomputeLeaf P leafKey (e.persisted index sequence rootAfter) = .ok e.leaf

/-- The laws of the encoders: what is written is read back, a line is one JSON object without a line
break, and a line that lost its end is not JSON. -/
structure Prims.Lawful : Prop where
  base64 : ∀ bytes, P.base64Decode (P.base64Encode bytes) = .ok bytes
  rfc3339 : ∀ t, P.parseRfc3339 (P.toRfc3339 t) = .ok t.secs
  event : ∀ ev, P.eventFromStr (P.eventToString ev) = some ev
  braces : ∀ ev, ∃ body, P.eventToString ev = '{' :: (body ++ ['}'])
  oneLine : ∀ ev, '\n' ∉ P.eventToString ev
  notMeta : ∀ ev v, P.valueFromStr (P.eventToString ev) = some v → v.get "meta" = none
  torn : ∀ ev l t, l ++ t = P.eventToString ev → t ≠ [] → P.eventFromStr l = none ∧ P.valueFromStr l = none

end

section
variable {P : Prims} {key : Option Bytes32}

theorem exec_run (c : RecordCall) (io : Io) (w : World) :
    exec (c.run P io) w = match c.entry P w.log.leafKey with
      | some e => exec (recordInner P io e) w
      | none => (.error (.validation "v3 events require a leaf key, but none is configured"), w) := by
  cases c with
  | record now dep op db coll payload leaf =>
    simp only [RecordCall.run, RecordCall.entry, Audit.record]
    rw [exec_bind_ok (exec_get w)]
  | recordV3 now dep op db coll canonical =>
    simp only [RecordCall.run, RecordCall.entry, Audit.recordV3]
    rw [exec_bind_ok (exec_get w)]
    cases w.log.leafKey with
    | none => simp
    | some k => simp

theorem recordV3Entry_honest (hl : P.Lawful) (k : Bytes32) (now : Instant) (dep op db coll : String)
    (canonical : List UInt8) : (recordV3Entry P k now dep op db coll canonical).Honest P (some k) := by
  intro index sequence rootAfter
  refine (recomputeLeaf_v3 rfl).2 ⟨k, canonical, now.secs, rfl, ?_, ?_, rfl⟩
  · exact hl.base64 canonical
  · exact hl.rfc3339 now

/-! ## What stays -/

theorem keeps_check {τ : Type*} {f : World → τ} (fault : Option String) (mk : String → AuditError) :
    Keeps f (check fault mk) := by
  unfold check
  cases fault with
  | none => exact keeps_pure ()
  | some e => exact keeps_throw _

theorem keeps_appendLine {τ : Type*} {f : World → τ} (hf : ∀ w dir d, f (World.setDir w dir d) = f w) (io : Io)
    (dir : String) (line : List Char) : Keeps f (appendLine io dir line) := by
  unfold appendLine
  cases io.write with
  | some fault => exact keeps_bind (keeps_modify fun _ => hf _ _ _) fun _ => keeps_throw _
  | none => exact keeps_bind (keeps_modify fun _ => hf _ _ _) fun _ => keeps_check _ _

theorem log_recordInner (io : Io) (e : Entry) (w : World) :
    (exec (recordInner P io e) w).2.log = (w.log.push P e).1 := by
  unfold recordInner
  rw [exec_bind_ok (exec_get w)]
  generalize w.log.push P e = r
  obtain ⟨log, persisted⟩ := r
  simp only
  rw [exec_bind_ok (exec_set _ _)]
  refine (Keeps.apply (f := World.log) ?_ _).trans rfl
  -- the line, if there is a file, and then the tree store
  cases log.persistence
  case' none => simp only
  case' some dir => refine keeps_bind (keeps_appendLine (fun _ _ _ => rfl) _ _ _) fun _ => ?_
  all_goals
    split
    · exact keeps_bind (keeps_modify fun _ => rfl) fun _ => keeps_pure _
    · exact keeps_pure _

/-- **A record call** leaves the log as it is, or extends it by one entry. -/
theorem log_run (c : RecordCall) (io : Io) (w : World) : (exec (c.run P io) w).2.log = w.log ∨
    ∃ e, c.entry P w.log.leafKey = some e ∧ (exec (c.run P io) w).2.log = (w.log.push P e).1 := by
  rw [exec_run]
  cases c.entry P w.log.leafKey with
  | none => exact .inl rfl
  | some e => exact .inr ⟨e, rfl, log_recordInner io e w⟩

theorem returns_recordInner (io : Io) (e : Entry) (w : World) (hok : (exec (recordInner P io e) w).1 = .ok i) :
    i = w.log.leafCount := by
  unfold recordInner at hok
  rw [exec_bind_ok (exec_get w)] at hok
  have hindex : (w.log.push P e).2.index = w.log.leafCount := rfl
  rw [← hindex]
  generalize w.log.push P e = r at hok ⊢
  obtain ⟨log, persisted⟩ := r
  simp only at hok
  rw [exec_bind_ok (exec_set _ _)] at hok
  refine Returns.apply ?_ hok
  cases log.persistence
  case' none => simp only
  case' some dir => refine returns_bind _ fun _ => ?_
  all_goals
    split
    · exact returns_bind _ fun _ => returns_pure _
    · exact returns_pure _

theorem index_run {c : RecordCall} {io : Io} {w w' : World} {i : Nat} (hok : exec (c.run P io) w = (.ok i, w')) :
    i = w.log.leafCount := by
  rw [exec_run] at hok
  cases he : c.entry P w.log.leafKey with
  | none =>
    rw [he] at hok
    cases hok
  | some e =>
    rw [he] at hok
    exact returns_recordInner (P := P) io e w (congrArg Prod.fst hok)

/-! ## One call -/

/-- The tree store after `n` of the writes of `save_leaf`. -/
def World.saved (w : World) (n index : Nat) (leaf root : Fr) : World :=
  match w.log.sledStore with
  | some dir => w.setDir dir { w.disk dir with
      sled := (w.disk dir).sled.map fun db => db.inserts n index leaf root }
  | none => w

/-- The tree with the entry's leaf. -/
def AuditLog.nextTree (log : AuditLog) (e : Entry) : AuditMerkleTree 20 := (log.tree.insert e.leaf).1

/-- The number of writes of `save_leaf` that happen. -/
def Io.sledWrites (io : Io) : Nat := match io.sledSave with
  | none => 3
  | some (n, _) => n

theorem saveLeaf_fst (io : Io) (index : Nat) (leaf root : Fr) (db : SledTree) :
    (db.saveLeaf io.sledSave index leaf root).1 = db.inserts io.sledWrites index leaf root := by
  unfold SledTree.saveLeaf Io.sledWrites
  cases io.sledSave <;> rfl

theorem exec_appendLine_sync (hw : io.write = none) (dir : String) (line : List Char) (w : World) : exec (appendLine io dir line) w =
    (match io.sync with | none => .ok () | some err => .error (.io err), w.append dir (lineBytes line)) := by
  unfold appendLine
  rw [hw]
  simp only
  rw [exec_bind_ok (exec_modify _ _)]
  cases io.sync <;> rfl

theorem recordInner_ok {io : Io} {e : Entry} {w : World} {dir : String} (hp : w.log.persistence = some dir)
    (hw : io.write = none) (hs : io.sync = none) :
    exec (recordInner P io e) w = (.ok w.log.tree.leaves.length,
      (World.append ⟨(w.log.push P e).1, w.disk⟩ dir (lineBytes (P.eventToString (w.log.push P e).2))).saved
        io.sledWrites w.log.tree.leaves.length e.leaf ((w.log.nextTree e).root P)) := by
  unfold recordInner
  rw [exec_bind_ok (exec_get w)]
  have hp' : (w.log.push P e).1.persistence = some dir := hp
  simp only [hp']
  rw [exec_bind_ok (exec_set _ _)]
  have happ := exec_appendLine_sync hw dir (P.eventToString (w.log.push P e).2) ⟨(w.log.push P e).1, w.disk⟩
  rw [hs] at happ
  have hroot : hexToFr (w.log.push P e).2.rootAfter = .ok ((w.log.nextTree e).root P) := hexToFr_frToHex _
  rw [exec_bind_ok happ, hroot]
  unfold World.saved
  have hst : (World.append ⟨(w.log.push P e).1, w.disk⟩ dir
      (lineBytes (P.eventToString (w.log.push P e).2))).log.sledStore = (w.log.push P e).1.sledStore := rfl
  rw [hst]
  cases (w.log.push P e).1.sledStore with
  | none => rfl
  | some d =>
    simp only
    rw [exec_bind_ok (exec_modify _ _)]
    simp only [saveLeaf_fst]
    rfl

/-- A call whose append fails returns the error, after all four in-memory structures have been written. -/
theorem recordInner_error (hp : w.log.persistence = some dir) (happ : exec (appendLine io dir
      (P.eventToString (w.log.push P e).2)) ⟨(w.log.push P e).1, w.disk⟩ = (.error err, w')) :
    exec (recordInner P io e) w = (.error err, w') := by
  unfold recordInner
  rw [exec_bind_ok (exec_get w)]
  have hp' : (w.log.push P e).1.persistence = some dir := hp
  simp only [hp']
  rw [exec_bind_ok (exec_set _ _), exec_bind_error happ]

/-- Part of the line may be in the file. -/
theorem recordInner_write_failed {io : Io} {e : Entry} {w : World} {dir : String} (hp : w.log.persistence = some dir)
    {k : Nat} {err : String} (hw : io.write = some (k, err)) :
    exec (recordInner P io e) w = (.error (.io err), World.append ⟨(w.log.push P e).1, w.disk⟩ dir
      ((lineBytes (P.eventToString (w.log.push P e).2)).extract 0 k)) := by
  refine recordInner_error hp ?_
  unfold appendLine
  rw [hw]
  rfl

theorem recordInner_failed (hp : w.log.persistence = some dir)
    (hio : io.write ≠ none ∨ io.sync ≠ none) :
    ∃ err disk, exec (recordInner P io e) w = (.error (.io err), ⟨(w.log.push P e).1, disk⟩) := by
  cases hw : io.write with
  | some f => exact ⟨f.2, _, recordInner_write_failed hp hw⟩
  | none =>
    cases hs : io.sync with
    | none => simp [hw, hs] at hio
    | some err =>
      have happ := exec_appendLine_sync hw dir (P.eventToString (w.log.push P e).2) ⟨(w.log.push P e).1, w.disk⟩
      rw [hs] at happ
      exact ⟨err, _, recordInner_error hp happ⟩

end

/-! ## The lines of a run -/

/-- The counters after the entries. -/
def seqsAfter (es : List Entry) (seqs : Finmap fun _ : Domain => Nat) : Finmap fun _ : Domain => Nat :=
  es.foldl (fun seqs e => (nextSequence seqs e.domain).2) seqs

/-- The lines that recording the entries writes, in a log with these leaves and counters. -/
def recordedEvents (P : Prims) : List Entry → List Fr → (Finmap fun _ : Domain => Nat) → List PersistedEvent
  | [], _, _ => []
  | e :: es, leaves, seqs =>
    e.persisted leaves.length (nextSequence seqs e.domain).1 (rootHex P (leaves ++ [e.leaf])) ::
      recordedEvents P es (leaves ++ [e.leaf]) (nextSequence seqs e.domain).2

section
variable {P : Prims} {key : Option Bytes32}

@[simp] theorem length_recordedEvents : ∀ (es : List Entry) (leaves : List Fr) (seqs : Finmap fun _ : Domain => Nat),
    (recordedEvents P es leaves seqs).length = es.length
  | [], _, _ => rfl
  | e :: es, leaves, seqs => by simp [recordedEvents, length_recordedEvents es]

theorem seqsAfter_concat (es : List Entry) (e : Entry) (seqs : Finmap fun _ : Domain => Nat) :
    seqsAfter (es ++ [e]) seqs = (nextSequence (seqsAfter es seqs) e.domain).2 := by
  simp [seqsAfter]

theorem recordedEvents_concat (e : Entry) : ∀ (es : List Entry) (leaves : List Fr)
    (seqs : Finmap fun _ : Domain => Nat), recordedEvents P (es ++ [e]) leaves seqs =
      recordedEvents P es leaves seqs ++ [e.persisted (leaves ++ es.map (·.leaf)).length
        (nextSequence (seqsAfter es seqs) e.domain).1 (rootHex P (leaves ++ es.map (·.leaf) ++ [e.leaf]))]
  | [], leaves, seqs => by simp [recordedEvents, seqsAfter]
  | f :: es, leaves, seqs => by
    simp only [List.cons_append, recordedEvents, recordedEvents_concat e es, List.map_cons, List.append_assoc,
      seqsAfter, List.foldl_cons]
    rfl

theorem Entry.Honest.checkedLeaf {e : Entry} (he : e.Honest P key) (index sequence : Nat) (rootAfter : String) :
    checkedLeaf P key (e.persisted index sequence rootAfter) = some e.leaf :=
  checkedLeaf_eq_some.2 ⟨he index sequence rootAfter, rfl⟩

theorem chained_recordedEvents : ∀ (es : List Entry) (leaves : List Fr) (seqs : Finmap fun _ : Domain => Nat),
    (∀ e ∈ es, e.Honest P key) → Chained P key leaves (recordedEvents P es leaves seqs)
  | [], _, _, _ => trivial
  | e :: es, leaves, seqs, h =>
    ⟨e.leaf, (h e (by simp)).checkedLeaf _ _ _, rfl, rfl,
      chained_recordedEvents es _ _ fun f hf => h f (List.mem_cons_of_mem e hf)⟩

theorem leavesOf_recordedEvents : ∀ (es : List Entry) (leaves : List Fr) (seqs : Finmap fun _ : Domain => Nat),
    (∀ e ∈ es, e.Honest P key) → leavesOf P key (recordedEvents P es leaves seqs) = es.map (·.leaf)
  | [], _, _, _ => rfl
  | e :: es, leaves, seqs, h => by
    rw [recordedEvents, leavesOf_cons_some ((h e (by simp)).checkedLeaf _ _ _),
      leavesOf_recordedEvents es _ _ fun f hf => h f (List.mem_cons_of_mem e hf)]
    rfl

theorem countEvents_recordedEvents : ∀ (es : List Entry) (leaves : List Fr) (seqs : Finmap fun _ : Domain => Nat),
    countEvents (recordedEvents P es leaves seqs) seqs =
      ((recordedEvents P es leaves seqs).map fun ev => ev.toAuditEvent ev.sequence, seqsAfter es seqs)
  | [], _, _ => rfl
  | e :: es, leaves, seqs => by
    simp only [recordedEvents, countEvents, countEvent, List.map_cons, seqsAfter, List.foldl_cons]
    have hd : (e.persisted leaves.length (nextSequence seqs e.domain).1 (rootHex P (leaves ++ [e.leaf]))).domain =
        e.domain := rfl
    rw [hd, countEvents_recordedEvents es]
    rfl

/-! ## The file of a run -/

/-- The file that holds the lines, and after them the text `tail`. -/
def fileBytes (P : Prims) (evs : List PersistedEvent) (tail : List Char) : ByteArray :=
  (String.ofList (unlines (evs.map P.eventToString) ++ tail)).toByteArray

theorem fileBytes_concat (evs : List PersistedEvent) (ev : PersistedEvent) :
    fileBytes P evs [] ++ lineBytes (P.eventToString ev) = fileBytes P (evs ++ [ev]) [] := by
  simp only [fileBytes, lineBytes, String.toByteArray_ofList, List.append_nil, List.map_append, unlines_append,
    List.utf8Encode_append]
  simp [unlines]

/-- `tail` is the beginning of an event line, and not all of it. -/
def Torn (P : Prims) (tail : List Char) : Prop := ∃ ev rest, rest ≠ [] ∧ tail ++ rest = P.eventToString ev

theorem brace_visible : isWhitespace '{' = false ∧ isWhitespace '}' = false := by decide

theorem Prims.Lawful.trim_event (hl : P.Lawful) (ev : PersistedEvent) :
    trim (P.eventToString ev) = P.eventToString ev ∧ P.eventToString ev ≠ [] := by
  obtain ⟨body, hb⟩ := hl.braces ev
  rw [hb]
  exact ⟨trim_of_ends brace_visible.1 brace_visible.2, by simp⟩

theorem Prims.Lawful.plain_event (hl : P.Lawful) (ev : PersistedEvent) : Plain (P.eventToString ev) := by
  refine ⟨hl.oneLine ev, ?_⟩
  obtain ⟨body, hb⟩ := hl.braces ev
  rw [hb]
  simp [List.getLast?_cons]

theorem Prims.Lawful.scan_torn (hl : P.Lawful) (ht : Torn P tail) (hne : tail ≠ []) (i : Nat) :
    scanLines P i [tail] = ([], some i) := by
  obtain ⟨ev, rest, hrest, happ⟩ := ht
  obtain ⟨body, hb⟩ := hl.braces ev
  obtain ⟨c, cs, rfl⟩ := List.exists_cons_of_ne_nil hne
  have hc : c = '{' := by
    rw [hb, List.cons_append] at happ
    exact (List.cons.inj happ).1
  subst hc
  obtain ⟨⟨rest', hpre⟩, hnil⟩ := @trim_head '{' cs brace_visible.1
  have htorn := hl.torn ev (trim ('{' :: cs)) (rest' ++ rest) (by rw [← List.append_assoc, hpre, happ])
    (by simp [hrest])
  simp [scanLines, hnil, htorn.1, htorn.2]

theorem Prims.Lawful.scan_events (hl : P.Lawful) (rest : List (List Char)) : ∀ (evs : List PersistedEvent) (i : Nat),
    scanLines P i (evs.map P.eventToString ++ rest) =
      (evs ++ (scanLines P (i + evs.length) rest).1, (scanLines P (i + evs.length) rest).2)
  | [], i => by simp
  | ev :: evs, i => by
    have hidx : i + 1 + evs.length = i + (ev :: evs).length := by simp; omega
    simp only [List.map_cons, List.cons_append, scanLines, (hl.trim_event ev).1, (hl.trim_event ev).2, if_false,
      hl.event ev, hl.scan_events rest evs (i + 1), hidx]

theorem Prims.Lawful.metadata_events (hl : P.Lawful) (m : Metadata) : ∀ evs : List PersistedEvent,
    (evs.map P.eventToString).foldl (metadataLine P) m = m
  | [] => rfl
  | ev :: evs => by
    have hline : metadataLine P m (P.eventToString ev) = m := by
      unfold metadataLine
      rw [(hl.trim_event ev).1, if_neg (hl.trim_event ev).2]
      cases hv : P.valueFromStr (P.eventToString ev) with
      | none => rfl
      | some v => simp [Json.getStr, hl.notMeta ev v hv]
    rw [List.map_cons, List.foldl_cons, hline]
    exact hl.metadata_events m evs

theorem Prims.Lawful.plain_events (hl : P.Lawful) (evs : List PersistedEvent) :
    ∀ l ∈ evs.map P.eventToString, Plain l := by
  intro l hm
  obtain ⟨ev, _, rfl⟩ := List.mem_map.1 hm
  exact hl.plain_event ev

theorem Prims.Lawful.lines_file (hl : P.Lawful) (evs : List PersistedEvent) (ht : tail = [] ∨ Torn P tail) : lines (unlines (evs.map P.eventToString) ++ tail) =
      evs.map P.eventToString ++ (if tail = [] then [] else [tail]) := by
  refine lines_unlines ?_ (hl.plain_events evs)
  rcases ht with rfl | ⟨ev, rest, _, happ⟩
  · simp
  · exact fun hm => hl.oneLine ev (happ ▸ List.mem_append_left rest hm)

theorem Prims.Lawful.scan_file (hl : P.Lawful) (evs : List PersistedEvent) (ht : tail = [] ∨ Torn P tail) : scanLines P 0 (lines (unlines (evs.map P.eventToString) ++ tail)) =
      (evs, if tail = [] then none else some evs.length) := by
  rw [hl.lines_file evs ht, hl.scan_events _ evs 0, Nat.zero_add]
  by_cases h0 : tail = []
  · simp [h0, scanLines]
  · simp [h0, hl.scan_torn (ht.resolve_left h0) h0]

theorem Prims.Lawful.clean_file (hl : P.Lawful) (evs : List PersistedEvent) (tail : List Char) :
    cleanText (evs.map P.eventToString ++ [tail]) evs.length = unlines (evs.map P.eventToString) := by
  unfold cleanText
  rw [List.take_left' (by simp)]
  by_cases hevs : evs = []
  · subst hevs; rfl
  · have hne : evs.map P.eventToString ≠ [] := by simpa using hevs
    have hj : join (evs.map P.eventToString) ≠ [] := by
      refine fun hj => hne (join_eq_nil (fun l hm => ?_) hj)
      obtain ⟨ev, _, rfl⟩ := List.mem_map.1 hm
      exact (hl.trim_event ev).2
    rw [if_neg hj, join_concat_newline hne]

theorem Prims.Lawful.cut_file (hl : P.Lawful) (ht : tail = [] ∨ Torn P tail) (hd : d.events = some (fileBytes P evs tail)) :
    cutFile P {} d (unlines (evs.map P.eventToString) ++ tail) =
      (.ok (), { d with events := some (fileBytes P evs []) }) := by
  unfold cutFile
  rw [hl.scan_file evs ht]
  by_cases h0 : tail = []
  · subst h0
    cases d
    simp_all
  · have hlines := hl.lines_file evs ht
    rw [if_neg h0] at hlines
    simp only [h0, if_false, hlines, hl.clean_file]
    simp [fileBytes]

/-- **Reading the file of a run**: its events, no metadata, and a file cut back to the whole lines. -/
theorem Prims.Lawful.readOutcome_file (hl : P.Lawful) (ht : tail = [] ∨ Torn P tail) (hd : d.events = some (fileBytes P evs tail)) :
    readOutcome P {} d = (.ok (evs, ⟨∅, ∅⟩), { d with events := some (fileBytes P evs []) }) := by
  have hread' : readText none { d with events := some (fileBytes P evs []) } =
      .ok (unlines (evs.map P.eventToString) ++ []) := readText_encoded rfl
  have hmeta : lines (unlines (evs.map P.eventToString) ++ []) = evs.map P.eventToString := by
    simpa using hl.lines_file evs (.inl rfl)
  unfold readOutcome
  rw [readText_encoded hd]
  simp only
  rw [hl.cut_file ht hd]
  simp only
  rw [hread']
  simp only
  rw [hl.scan_file evs ht, hmeta, metadataLines, hl.metadata_events]

end

end Audit
