import NosqlBuddy.Audit.TamperEvidence

/-!
# Who did what

The header of mod.rs promises tamper evidence "for modification of any event that remains in the file".
A line says more than its leaf binds: versions 1 and 2 hash the payload only, version 3 also the
operation, the database, the collection and the seconds of the timestamp, and no version the deployment
id. So an event can be moved to another audit domain by editing its line (`deployment_not_bound`).

`attribution_bound_iff` says which edits of one field of one line of an accepted file make `replay_file`
fail: those of a field that the leaf of that version binds.
-/

namespace Audit
open Mutation Text Merkle

/-! ## Edits -/

/-- A new value for one of the attribution fields of a line. -/
inductive FieldChange where
  | operation (value : String)
  | database (value : String)
  | collection (value : String)
  | deploymentId (value : String)
  | timestamp (value : String)

def FieldChange.apply (ev : PersistedEvent) : FieldChange → PersistedEvent
  | .operation x => { ev with operation := x }
  | .database x => { ev with database := x }
  | .collection x => { ev with collection := x }
  | .deploymentId x => { ev with deploymentId := x }
  | .timestamp x => { ev with timestamp := x }

/-- The new value is a different one. -/
def FieldChange.Differs (ev : PersistedEvent) : FieldChange → Prop
  | .operation x => x ≠ ev.operation
  | .database x => x ≠ ev.database
  | .collection x => x ≠ ev.collection
  | .deploymentId x => x ≠ ev.deploymentId
  | .timestamp x => x ≠ ev.timestamp

section
variable (P : Prims)

/-- The leaf of the event binds the field: version 3 for a name; for the timestamp, version 3 and a new
value that is no time or another second after 1970. -/
def FieldChange.Bound (ev : PersistedEvent) : FieldChange → Prop
  | .operation _ => ev.version = 3
  | .database _ => ev.version = 3
  | .collection _ => ev.version = 3
  | .deploymentId _ => False
  | .timestamp x => ev.version = 3 ∧ ∀ secs secs', P.parseRfc3339 ev.timestamp = .ok secs →
      P.parseRfc3339 x = .ok secs' → max secs 0 ≠ max secs' 0

/-- The line is read as the event. -/
def EventLine (line : List Char) (ev : PersistedEvent) : Prop :=
  trim line ≠ [] ∧ P.eventFromStr (trim line) = some ev

/-- The texts differ in one line, which is the event `ev` in the first and `ev'` in the second; the lines
before it are read to the end. -/
def EditsLine (text text' : List Char) (ev ev' : PersistedEvent) : Prop :=
  ∃ pre line line' post, lines text = pre ++ line :: post ∧ lines text' = pre ++ line' :: post ∧
    (scanLines P 0 pre).2 = none ∧ EventLine P line ev ∧ EventLine P line' ev'

/-- A directory with the given text as its file. -/
def textDisk (text : List Char) : String → Dir := fun _ => ⟨some (String.ofList text).toByteArray, none⟩

/-- The loop of `domain_root`: the leaves of the events of a domain. -/
def domainLeaves (deploymentId database : String) : List AuditEvent → Except AuditError (List Fr)
  | [] => .ok []
  | ev :: evs =>
    if ev.deploymentId = deploymentId ∧ ev.database = database then do
      let leaf ← hexToFr ev.leafHex
      let leaves ← domainLeaves deploymentId database evs
      return leaf :: leaves
    else domainLeaves deploymentId database evs

/-- `domain_root` (mod.rs:1316): the root and the number of events. -/
def AuditLog.domainRoot (log : AuditLog) (deploymentId database : String) : Except AuditError (String × Nat) := do
  let leaves ← domainLeaves deploymentId database log.events
  match (log.retainedDomainRoots.lookup (deploymentId, database)).bind (·.getLast?) with
  | some r => return if leaves = [] then (r.rootHex, r.eventCount) else (rootHex P leaves, leaves.length)
  | none => return (rootHex P leaves, leaves.length)

/-- A new process replays the file. -/
def Accepts (key : Option Bytes32) (dir : String) (text : List Char) : Prop :=
  ∃ evs w, exec (replayFile P {} dir) (World.start key (textDisk text)) = (.ok evs, w)

end

section
variable {P : Prims} {key : Option Bytes32} {dir : String}

/-! ## Reading an edited file -/

theorem scanLines_append : ∀ {pre : List (List Char)} {i : Nat}, (scanLines P i pre).2 = none →
    scanLines P i (pre ++ rest) = ((scanLines P i pre).1 ++ (scanLines P (i + pre.length) rest).1,
      (scanLines P (i + pre.length) rest).2)
  | [], i, _ => by simp [scanLines]
  | line :: pre, i, h => by
    have hidx : i + 1 + pre.length = i + (line :: pre).length := by simp; omega
    simp only [List.cons_append, scanLines] at h ⊢
    by_cases hb : trim line = []
    · simp only [hb, if_true] at h ⊢
      rw [scanLines_append h, hidx]
    · simp only [hb, if_false] at h ⊢
      cases he : P.eventFromStr (trim line) with
      | some ev =>
        simp only [he] at h ⊢
        rw [scanLines_append h, hidx]
        rfl
      | none =>
        simp only [he] at h ⊢
        cases hm : (P.valueFromStr (trim line)).bind (·.get "meta") with
        | some v =>
          simp only [hm] at h ⊢
          rw [scanLines_append h, hidx]
        | none => simp [hm] at h

theorem EventLine.scan (h : EventLine P line ev) (i : Nat)
    (rest : List (List Char)) : (scanLines P i (line :: rest)).1 = ev :: (scanLines P (i + 1) rest).1 := by
  simp [scanLines, h.1, h.2]

theorem EditsLine.events (h : EditsLine P text text' ev ev') :
    ∃ before after, (scanLines P 0 (lines text)).1 = before ++ ev :: after ∧
      (scanLines P 0 (lines text')).1 = before ++ ev' :: after := by
  obtain ⟨pre, line, line', post, ht, ht', hpre, hl, hl'⟩ := h
  refine ⟨(scanLines P 0 pre).1, (scanLines P (0 + pre.length + 1) post).1, ?_, ?_⟩
  · rw [ht, scanLines_append hpre]
    simp only [hl.scan]
  · rw [ht', scanLines_append hpre]
    simp only [hl'.scan]

theorem accepts_iff : Accepts P key dir text ↔ Chained P key [] (scanLines P 0 (lines text)).1 := by
  have hread : readText none ((World.start key (textDisk text)).disk dir) = .ok text := readText_encoded rfl
  obtain ⟨m, d, hout⟩ := readOutcome_of_readText (P := P) hread
  constructor
  · rintro ⟨evs, w, hexec⟩
    obtain ⟨m', d', hout', hch, _⟩ := (replayFile_ok ⟨⟨rfl, rfl, rfl⟩, rfl⟩).1 hexec
    rw [hout] at hout'
    obtain ⟨rfl, _⟩ : (scanLines P 0 (lines text)).1 = evs ∧ m = m' := by simpa using congrArg Prod.fst hout'
    exact hch
  · intro hch
    exact ⟨_, _, (replayFile_ok ⟨⟨rfl, rfl, rfl⟩, rfl⟩).2 ⟨m, d, hout, hch, rfl⟩⟩

/-- Replacing an event by one with the same index, leaf and root keeps a chained list chained as long as
the new event passes the leaf check. -/
theorem chained_replace (hidx : ev'.index = ev.index)
    (hroot : ev'.rootAfter = ev.rootAfter) (hhex : ev'.leafHex = ev.leafHex) :
    ∀ {before : List PersistedEvent} {leaves : List Fr}, Chained P key leaves (before ++ ev :: after) →
      (Chained P key leaves (before ++ ev' :: after) ↔ (checkedLeaf P key ev').isSome)
  | [], leaves, ⟨leaf, hc, hi, hr, hrest⟩ => by
    constructor
    · rintro ⟨leaf', hc', _⟩
      rw [hc']
      rfl
    · intro hsome
      obtain ⟨leaf', hc'⟩ := Option.isSome_iff_exists.1 hsome
      have hleaf : leaf' = leaf := frToHex_injective
        ((checkedLeaf_eq_some.1 hc').2.trans (hhex.trans (checkedLeaf_eq_some.1 hc).2.symm))
      subst hleaf
      exact ⟨leaf', hc', hidx.trans hi, hroot.trans hr, hrest⟩
  | b :: before, leaves, ⟨leaf, hc, hi, hr, hrest⟩ => by
    rw [← chained_replace hidx hroot hhex hrest]
    constructor
    · rintro ⟨leaf', hc', _, _, hrest'⟩
      obtain rfl : leaf = leaf' := Option.some.inj (hc.symm.trans hc')
      exact hrest'
    · intro hrest'
      exact ⟨leaf, hc, hi, hr, hrest'⟩

theorem chained_mem (h : Chained P key leaves evs)
    (hm : ev ∈ evs) : (checkedLeaf P key ev).isSome := ((chained_iff evs leaves).1 h).1 ev hm

/-! ## What the leaf binds -/

/-- The hash functions have no collision on what the leaves of the two events hash. -/
structure DistinctHashes (P : Prims) (key : Option Bytes32) (ev ev' : PersistedEvent) : Prop where
  strings : CollisionFree (bytesToField P) (hashedStrings P [ev] ++ hashedStrings P [ev'])
  inputs : ∀ k, key = some k → CollisionFree P.poseidon (leafInputs P k [ev] ++ leafInputs P k [ev'])

section
variable {ev : PersistedEvent} {change : FieldChange}

theorem FieldChange.apply_frame (ev : PersistedEvent) (change : FieldChange) :
    (change.apply ev).index = ev.index ∧ (change.apply ev).rootAfter = ev.rootAfter ∧
      (change.apply ev).leafHex = ev.leafHex ∧ (change.apply ev).payload = ev.payload ∧
      (change.apply ev).version = ev.version := by
  cases change <;> exact ⟨rfl, rfl, rfl, rfl, rfl⟩

theorem clamped_change (hv : ev.version = 3) (hc : contentOf P ev = some c)
    (hdiff : change.Differs ev) :
    (∃ c', contentOf P (change.apply ev) = some c' ∧ c.clamped = c'.clamped) ↔ ¬ change.Bound P ev := by
  obtain ⟨h1, h2, h3⟩ := contentOf_eq_some.1 hc
  cases change with
  | operation x =>
    refine iff_of_false ?_ (not_not_intro hv)
    rintro ⟨c', hc', he⟩
    rw [(contentOf_eq_some.1 hc').2.2, h3] at he
    exact hdiff (congrArg Content.operation he).symm
  | database x =>
    refine iff_of_false ?_ (not_not_intro hv)
    rintro ⟨c', hc', he⟩
    rw [(contentOf_eq_some.1 hc').2.2, h3] at he
    exact hdiff (congrArg Content.database he).symm
  | collection x =>
    refine iff_of_false ?_ (not_not_intro hv)
    rintro ⟨c', hc', he⟩
    rw [(contentOf_eq_some.1 hc').2.2, h3] at he
    exact hdiff (congrArg Content.collection he).symm
  | deploymentId x => exact iff_of_true ⟨c, hc, rfl⟩ id
  | timestamp x =>
    simp only [FieldChange.Bound, hv, true_and]
    push Not
    constructor
    · rintro ⟨c', hc', he⟩
      exact ⟨c.secs, c'.secs, h2, (contentOf_eq_some.1 hc').2.1, congrArg Content.secs he⟩
    · rintro ⟨secs, secs', hs, hs', he⟩
      obtain rfl : c.secs = secs := Except.ok.inj (h2.symm.trans hs)
      refine ⟨{ c with secs := secs' }, contentOf_eq_some.2 ⟨h1, hs', ?_⟩, ?_⟩
      · rw [h3]
        rfl
      · simp only [Content.clamped, he]

/-- **A changed event passes the leaf check** exactly when the field is not bound. -/
theorem checkedLeaf_change (hsome : (checkedLeaf P key ev).isSome) (hdiff : change.Differs ev)
    (hfree : DistinctHashes P key ev (change.apply ev)) :
    (checkedLeaf P key (change.apply ev)).isSome ↔ ¬ change.Bound P ev := by
  obtain ⟨hidx, _, hhex, hpay, hver⟩ := change.apply_frame ev
  obtain ⟨leaf, hleaf⟩ := Option.isSome_iff_exists.1 hsome
  by_cases hv : ev.version = 3
  · obtain ⟨k, c, hk, hc, hl, hx⟩ := (checkedLeaf_v3 hv).1 hleaf
    rw [← clamped_change hv hc hdiff, Option.isSome_iff_exists]
    simp only [checkedLeaf_v3 (hver.trans hv)]
    constructor
    · rintro ⟨leaf', k', c', hk', hc', hl', hx'⟩
      obtain rfl : k = k' := Option.some.inj (hk.symm.trans hk')
      have hsame : leaf = leaf' := frToHex_injective (hx.trans (hhex.symm.trans hx'.symm))
      have hcidx : c.index = c'.index := by
        rw [(contentOf_eq_some.1 hc).2.2, (contentOf_eq_some.1 hc').2.2]
        exact hidx.symm
      exact ⟨c', hc', content_eq_of_leaf_eq hfree.strings (hfree.inputs k hk) (List.mem_singleton_self ev)
        (List.mem_singleton_self _) hc hc' hcidx (hl.symm.trans (hsame.trans hl'))⟩
    · rintro ⟨c', hc', he⟩
      refine ⟨leaf, k, c', hk, hc', ?_, hx.trans hhex.symm⟩
      rw [hl, ← opening_clamped k c, ← opening_clamped k c', he]
  · have hnb : ¬ change.Bound P ev := by
      cases change <;> simp [FieldChange.Bound, hv]
    have hsame : checkedLeaf P key (change.apply ev) = checkedLeaf P key ev := by
      unfold checkedLeaf
      rw [recomputeLeaf_congr hv hver hpay hidx, hhex]
    rw [hsame]
    exact iff_of_true hsome hnb

end

/-- **Attribution.** Changing one field of one line of an accepted file makes the replay fail exactly when
the leaf of that line binds the field. -/
theorem attribution_bound_iff (P : Prims) (key : Option Bytes32) (dir : String) {text text' : List Char}
    {ev : PersistedEvent} {change : FieldChange} (hacc : Accepts P key dir text)
    (hedit : EditsLine P text text' ev (change.apply ev)) (hdiff : change.Differs ev)
    (hfree : DistinctHashes P key ev (change.apply ev)) :
    ¬ Accepts P key dir text' ↔ change.Bound P ev := by
  obtain ⟨before, after, hevs, hevs'⟩ := hedit.events
  obtain ⟨hidx, hroot, hhex, _⟩ := change.apply_frame ev
  rw [accepts_iff, hevs] at hacc
  have hsome := chained_mem hacc (List.mem_append_right before (List.mem_cons_self ..))
  rw [accepts_iff, hevs', chained_replace hidx hroot hhex hacc, checkedLeaf_change hsome hdiff hfree, not_not]

/-! ## Files of event lines -/

/-- The text of a file of event lines. -/
def eventsText (P : Prims) (evs : List PersistedEvent) : List Char := unlines (evs.map P.eventToString)

theorem Prims.Lawful.lines_text (hl : P.Lawful) (evs : List PersistedEvent) :
    lines (eventsText P evs) = evs.map P.eventToString := by
  simpa [eventsText] using hl.lines_file evs (.inl rfl)

theorem Prims.Lawful.eventLine (hl : P.Lawful) (ev : PersistedEvent) : EventLine P (P.eventToString ev) ev := by
  unfold EventLine
  rw [(hl.trim_event ev).1]
  exact ⟨(hl.trim_event ev).2, hl.event ev⟩

theorem Prims.Lawful.editsLine (hl : P.Lawful) (before after : List PersistedEvent) (ev ev' : PersistedEvent) :
    EditsLine P (eventsText P (before ++ ev :: after)) (eventsText P (before ++ ev' :: after)) ev ev' := by
  have hpre : (scanLines P 0 (before.map P.eventToString)).2 = none := by
    have h := hl.scan_events [] before 0
    rw [List.append_nil] at h
    rw [h]
    rfl
  refine ⟨before.map P.eventToString, _, _, after.map P.eventToString, ?_, ?_, hpre, hl.eventLine ev, hl.eventLine ev'⟩
  · rw [hl.lines_text, List.map_append, List.map_cons]
  · rw [hl.lines_text, List.map_append, List.map_cons]

theorem Prims.Lawful.replays_text (hl : P.Lawful) {evs : List PersistedEvent} (hch : Chained P key [] evs) :
    ∃ w, exec (replayFile P {} dir) (World.start key (textDisk (eventsText P evs))) = (.ok evs, w) ∧
      w.log.events = (countEvents evs ∅).1 ∧ w.log.retainedDomainRoots = ∅ ∧
      w.log.tree = ⟨leavesOf P key evs⟩ := by
  have hfile : (textDisk (eventsText P evs) dir).events = some (fileBytes P evs []) := by
    simp [textDisk, eventsText, fileBytes]
  refine ⟨_, (replayFile_ok ⟨⟨rfl, rfl, rfl⟩, rfl⟩).2 ⟨_, _, hl.readOutcome_file (.inl rfl) hfile, hch, rfl⟩, ?_, rfl, rfl⟩
  exact applyRetention_empty _

/-! ### An event moved to another deployment -/

/-- The line of a version-3 delete that is alone in its log. -/
def demoLine (operation deploymentId : String) : PersistedEvent :=
  { (demoDelete 0).persisted 0 0 (rootHex demoPrims [(demoDelete 0).leaf]) with
    operation := operation, deploymentId := deploymentId }

theorem demoLine_recompute (deploymentId : String) :
    recomputeLeaf demoPrims (some demoKey) (demoLine "delete" deploymentId) = .ok (demoDelete 0).leaf :=
  (recomputeLeaf_v3 rfl).2 ⟨demoKey, [], 0, rfl, demoPrims_lawful.base64 [], demoPrims_lawful.rfc3339 ⟨0, 0⟩, rfl⟩

theorem demoLine_chained (deploymentId : String) :
    Chained demoPrims (some demoKey) [] [demoLine "delete" deploymentId] :=
  ⟨(demoDelete 0).leaf, checkedLeaf_eq_some.2 ⟨demoLine_recompute deploymentId, rfl⟩, rfl, rfl, trivial⟩

/-- The number of events that the log counts for `shop` on `rs:rs0`. -/
def demoDomainCount (log : AuditLog) : Except AuditError Nat := (log.domainRoot demoPrims "rs:rs0" "shop").map Prod.snd

theorem demoLine_domain (deploymentId : String) : ∃ w, exec (replayFile demoPrims {} "data")
    (World.start (some demoKey) (textDisk (eventsText demoPrims [demoLine "delete" deploymentId]))) =
      (.ok [demoLine "delete" deploymentId], w) ∧
    demoDomainCount w.log = .ok (if deploymentId = "rs:rs0" then 1 else 0) := by
  obtain ⟨w, hexec, hevents, hretained, _⟩ :=
    @Prims.Lawful.replays_text demoPrims (some demoKey) "data" demoPrims_lawful _ (demoLine_chained deploymentId)
  refine ⟨w, hexec, ?_⟩
  have hhex : hexToFr (demoLine "delete" deploymentId).leafHex = .ok (demoDelete 0).leaf := hexToFr_frToHex _
  have hscan : domainLeaves "rs:rs0" "shop" (countEvents [demoLine "delete" deploymentId] ∅).1 =
      .ok (if deploymentId = "rs:rs0" then [(demoDelete 0).leaf] else []) := by
    have hevs : (countEvents [demoLine "delete" deploymentId] ∅).1 = [(demoLine "delete" deploymentId).toAuditEvent
        (nextSequence ∅ (demoLine "delete" deploymentId).domain).1] := rfl
    have hdep : ∀ n, ((demoLine "delete" deploymentId).toAuditEvent n).deploymentId = deploymentId := fun _ => rfl
    have hdb : ∀ n, ((demoLine "delete" deploymentId).toAuditEvent n).database = "shop" := fun _ => rfl
    have hleaf : ∀ n, ((demoLine "delete" deploymentId).toAuditEvent n).leafHex =
        (demoLine "delete" deploymentId).leafHex := fun _ => rfl
    rw [hevs, domainLeaves, hdep, hdb, hleaf, hhex]
    by_cases hd : deploymentId = "rs:rs0" <;> simp [hd, domainLeaves, bind, Except.bind, pure, Except.pure]
  unfold demoDomainCount AuditLog.domainRoot
  rw [hevents, hretained, hscan]
  by_cases hd : deploymentId = "rs:rs0" <;> simp [hd, bind, Except.bind, pure, Except.pure, Except.map]

/-- A delete is moved from the deployment `rs:rs0` to `rs:rs1` by editing its line: the file is accepted as
before, and the domain `rs:rs0/shop` has lost its event. -/
theorem deployment_not_bound : ∃ evs w evs' w',
    exec (replayFile demoPrims {} "data") (World.start (some demoKey)
      (textDisk (eventsText demoPrims [demoLine "delete" "rs:rs0"]))) = (.ok evs, w) ∧
    EditsLine demoPrims (eventsText demoPrims [demoLine "delete" "rs:rs0"])
      (eventsText demoPrims [demoLine "delete" "rs:rs1"]) (demoLine "delete" "rs:rs0")
      (FieldChange.apply (demoLine "delete" "rs:rs0") (.deploymentId "rs:rs1")) ∧
    exec (replayFile demoPrims {} "data") (World.start (some demoKey)
      (textDisk (eventsText demoPrims [demoLine "delete" "rs:rs1"]))) = (.ok evs', w') ∧
    demoDomainCount w.log = .ok 1 ∧ demoDomainCount w'.log = .ok 0 := by
  obtain ⟨w, hw, hcount⟩ := demoLine_domain "rs:rs0"
  obtain ⟨w', hw', hcount'⟩ := demoLine_domain "rs:rs1"
  exact ⟨_, w, _, w', hw, demoPrims_lawful.editsLine [] [] _ _, hw', hcount, hcount'⟩

/-- The theorem on an edit of the operation, which version 3 binds. -/
theorem attribution_bound_demo : ¬ Accepts demoPrims (some demoKey) "data"
    (eventsText demoPrims [FieldChange.apply (demoLine "delete" "rs:rs0") (.operation "insert")]) := by
  have hacc : Accepts demoPrims (some demoKey) "data" (eventsText demoPrims [demoLine "delete" "rs:rs0"]) := by
    obtain ⟨w, hw, _⟩ := demoLine_domain "rs:rs0"
    exact ⟨_, w, hw⟩
  have hdiff : FieldChange.Differs (demoLine "delete" "rs:rs0") (.operation "insert") := by
    simp only [FieldChange.Differs]
    decide
  refine (attribution_bound_iff demoPrims (some demoKey) "data" hacc (demoPrims_lawful.editsLine [] [] _ _) hdiff
    ⟨?_, ?_⟩).2 rfl
  · decide
  · rintro k hk
    obtain rfl : demoKey = k := Option.some.inj hk
    decide

end

end Audit
