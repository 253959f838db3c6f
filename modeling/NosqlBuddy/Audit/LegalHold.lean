import NosqlBuddy.Audit.ConcurrentRecord
import NosqlBuddy.Audit.Retention

/-!
# Legal holds under concurrent calls

`prune_domain` (mod.rs:1446) asks for the hold before it takes the lock of the events, and every call takes its locks on
its own: a hold that is set between the check and the removal is not seen. `legal_hold_kept`: a hold is kept in every run
in which that does not happen and in which a write that fails leaves nothing in the file that the next start reads.

| here | there |
| --- | --- |
| `CustodyStep.takeSequence`, `insertLeaf` | the two sections of `record_inner` |
| `Custody.promised` | the domains held since a call that returned `Ok` |
-/

namespace Audit
open Mutation

/-! ## Sections and restarts -/

/-- The log of a process, the calls that wait for their second lock, and the holds that were promised. -/
structure Custody where
  world : World
  /-- the records that have their sequence number -/
  records : List (Entry × Nat)
  /-- the prunes that found no hold -/
  prunes : List Domain
  promised : Finset Domain

inductive CustodyStep where
  | takeSequence (call : RecordCall)
  | insertLeaf (i : Nat) (io : Io)
  | setLegalHold (deploymentId database : String) (hold : Bool) (io : Io)
  | checkHold (deploymentId database : String)
  | removeEvents (i : Nat) (now : Instant) (io : Io)
  /-- the process ends between two sections, and a new log opens the directory -/
  | restart

/-- What is promised after a call of `set_legal_hold`: lifting a hold ends the promise whatever the call returns. -/
def promise (promised : Finset Domain) (d : Domain) (hold : Bool) (result : Except AuditError Unit) : Finset Domain :=
  if hold then (if result.isOk then insert d promised else promised) else promised.erase d

def stepCustody (P : Prims) (key : Option Bytes32) (dir : String) (c : Custody) : CustodyStep → Custody
  | .takeSequence call =>
    match call.entry P c.world.log.leafKey with
    | some e => { c with world := (takeSequence e c.world).2, records := c.records ++ [(e, (takeSequence e c.world).1)] }
    | none => c
  | .insertLeaf i io =>
    match c.records[i]? with
    | some (e, sequence) => { c with world := (exec (insertLeaf P io e sequence) c.world).2, records := c.records.eraseIdx i }
    | none => c
  | .setLegalHold dep db hold io =>
    { c with
      world := (exec (setLegalHold P io dep db hold) c.world).2
      promised := promise c.promised (dep, db) hold (exec (setLegalHold P io dep db hold) c.world).1 }
  | .checkHold dep db => if (dep, db) ∈ c.world.log.legalHolds then c else { c with prunes := c.prunes ++ [(dep, db)] }
  | .removeEvents i now io =>
    match c.prunes[i]? with
    | some d => { c with world := (exec (pruneLocked P io now d.1 d.2) c.world).2, prunes := c.prunes.eraseIdx i }
    | none => c
  | .restart => ⟨(exec (setPersistenceDir P {} dir) (World.start key c.world.disk)).2, [], [], c.promised⟩

/-- A new log in a new directory. -/
def Custody.start (P : Prims) (key : Option Bytes32) (dir : String) : Custody := ⟨openNew P key dir, [], [], ∅⟩

/-- A failing `writeln!` leaves no bytes. -/
def Io.Clean (io : Io) : Prop := ∀ n e, io.write = some (n, e) → n = 0

/-- Records hand over the leaf that replay recomputes and are stored, a prune removes no domain that is promised, and
what a failing write of a hold or of a prune leaves is not read back. -/
def Careful (P : Prims) (key : Option Bytes32) (c : Custody) : CustodyStep → Prop
  | .takeSequence call => ∀ e ∈ call.entry P key, e.Honest P key
  | .insertLeaf _ io => io.write = none ∧ io.sync = none ∧ io.sledSave = none
  | .setLegalHold _ _ _ io => io.Clean
  | .removeEvents i _ io => (∀ d, c.prunes[i]? = some d → d ∉ c.promised) ∧ io.Clean ∧ (io.write = none → io.sync = none)
  | _ => True

/-- An event but for its sequence number, which a restart counts again. -/
def unnumbered (ev : AuditEvent) : AuditEvent := { ev with sequence := 0 }

/-- The active events of a domain are still there, and the domain is held. -/
def Custody.Keeps (c c' : Custody) (d : Domain) : Prop :=
  (∀ ev ∈ c.world.log.events, ev.domain = d → unnumbered ev ∈ c'.world.log.events.map unnumbered) ∧ d ∈ c'.world.log.legalHolds

section
variable {P : Prims} {key : Option Bytes32} {dir : String}

/-! ## Lines -/

theorem append_empty {w : World} {bytes : ByteArray} (h : (w.disk dir).events = some bytes) :
    w.append dir ByteArray.empty = w := by
  have hdir : { w.disk dir with events := some bytes } = w.disk dir := by
    cases hd : w.disk dir
    rw [hd] at h
    simp_all
  unfold World.append World.setDir
  rw [h, Option.getD_some, ByteArray.append_empty, hdir, Function.update_eq_self]

theorem appendLine_clean (hio : io.Clean) (dir : String) (line : List Char) (w : World) :
    (∃ r, exec (appendLine io dir line) w = (r, w.append dir (lineBytes line)) ∧
        (r = .ok () ∨ io.write = none ∧ io.sync ≠ none)) ∨
      ∃ e, exec (appendLine io dir line) w = (.error e, w.append dir ByteArray.empty) := by
  unfold appendLine
  cases hw : io.write with
  | some fault =>
    obtain ⟨n, e⟩ := fault
    obtain rfl := hio n e hw
    refine .inr ⟨.io e, ?_⟩
    simp only
    rw [exec_bind_ok (exec_modify _ _), exec_throw, ByteArray.extract_same]
  | none =>
    simp only
    rw [exec_bind_ok (exec_modify _ _)]
    cases hs : io.sync with
    | none => exact .inl ⟨_, rfl, .inl rfl⟩
    | some e => exact .inl ⟨_, rfl, .inr ⟨trivial, by simp⟩⟩

theorem insertLeaf_ok {io : Io} {e : Entry} {w : World} (sequence : Nat) (hp : w.log.persistence = some dir)
    (hw : io.write = none) (hs : io.sync = none) :
    (exec (insertLeaf P io e sequence) w).2 =
      (World.append ⟨(w.log.pushAt P e sequence).1, w.disk⟩ dir (lineBytes (P.eventToString (w.log.pushAt P e sequence).2))).saved
        io.sledWrites w.log.tree.leaves.length e.leaf ((w.log.nextTree e).root P) := by
  unfold insertLeaf
  rw [exec_bind_ok (exec_get w)]
  have hp' : (w.log.pushAt P e sequence).1.persistence = some dir := hp
  simp only [hp']
  rw [exec_bind_ok (exec_set _ _)]
  have happ : exec (appendLine io dir (P.eventToString (w.log.pushAt P e sequence).2)) ⟨(w.log.pushAt P e sequence).1, w.disk⟩ =
      (.ok (), World.append ⟨(w.log.pushAt P e sequence).1, w.disk⟩ dir
        (lineBytes (P.eventToString (w.log.pushAt P e sequence).2))) := by
    unfold appendLine
    rw [hw]
    simp only
    rw [exec_bind_ok (exec_modify _ _), hs]
    rfl
  have hroot : hexToFr (w.log.pushAt P e sequence).2.rootAfter = .ok ((w.log.nextTree e).root P) := hexToFr_frToHex _
  rw [exec_bind_ok happ, hroot]
  unfold World.saved
  have hst : (World.append ⟨(w.log.pushAt P e sequence).1, w.disk⟩ dir
      (lineBytes (P.eventToString (w.log.pushAt P e sequence).2))).log.sledStore = (w.log.pushAt P e sequence).1.sledStore := rfl
  rw [hst]
  cases (w.log.pushAt P e sequence).1.sledStore with
  | none => rfl
  | some d =>
    simp only
    rw [exec_bind_ok (exec_modify _ _)]
    simp only [saveLeaf_fst]
    rfl

theorem pruneScan_max (h : pruneScan d events leaves start = .ok (leaves', m)) : m = maxIndexOf (events.filter (·.domain = d)) start := by
  induction events generalizing leaves start with
  | nil =>
    simp only [pruneScan, Except.ok.injEq, Prod.mk.injEq] at h
    exact h.2.symm
  | cons ev events ih =>
    by_cases hev : ev.deploymentId = d.1 ∧ ev.database = d.2
    · rw [pruneScan, if_pos hev] at h
      obtain ⟨leaf, _, h⟩ := Fallible.bind_ok.1 h
      rw [List.filter_cons_of_pos (by simpa [AuditEvent.domain, Prod.ext_iff] using hev), maxIndexOf_cons]
      exact ih h
    · rw [pruneScan, if_neg hev] at h
      rw [List.filter_cons_of_neg (by simpa [AuditEvent.domain, Prod.ext_iff] using hev)]
      exact ih h

/-! ## Events without their numbers -/

theorem unnumbered_countEvents : ∀ (evs : List PersistedEvent) (seqs : Finmap fun _ : Domain => Nat),
    (countEvents evs seqs).1.map unnumbered = evs.map (·.toAuditEvent 0)
  | [], _ => rfl
  | ev :: evs, seqs => by
    rw [countEvents, List.map_cons, unnumbered_countEvents evs]
    rfl

theorem applyRetention_unnumbered (retained : Retained) (events : List AuditEvent) :
    (applyRetention retained events).map unnumbered = applyRetention retained (events.map unnumbered) := by
  rw [applyRetention_eq, applyRetention_eq, List.filter_map]
  rfl

/-! ## The invariant -/

/-- File and memory agree up to the numbers, and a hold that is promised is in both. -/
structure Guarding (P : Prims) (key : Option Bytes32) (dir : String) (c : Custody) (ls : List Line) : Prop
    extends Filed P key dir c.world ls where
  records : ∀ r ∈ c.records, r.1.Honest P key ∧ VersionFits key r.1.version
  retained : c.world.log.retainedDomainRoots = (metadataLines P (ls.map (Line.text P))).retained
  holds : ∀ d ∈ c.promised, d ∈ c.world.log.legalHolds ∧ d ∈ (metadataLines P (ls.map (Line.text P))).legalHolds
  events : c.world.log.events.map unnumbered =
    applyRetention c.world.log.retainedDomainRoots ((eventsOf ls).map (·.toAuditEvent 0))
  bounded : ∀ d, ∀ r ∈ (c.world.log.retainedDomainRoots.lookup d).getD [], r.maxIndex < (eventsOf ls).length

theorem guarding_start : Guarding P key dir (Custody.start P key dir) [] := by
  have h := @restorable_open P key dir
  refine ⟨h.toFiled, fun r hr => absurd hr List.not_mem_nil, ?_, fun d hd => absurd hd (Finset.notMem_empty d), ?_, h.bounded⟩
  · exact (congrArg Metadata.retained h.metadata).symm
  · show (openNew P key dir).log.events.map unnumbered = _
    rw [h.events]
    rfl

theorem Guarding.takeSequence {c : Custody} {ls : List Line} (h : Guarding P key dir c ls) {call : RecordCall} {e : Entry}
    (he : call.entry P key = some e) (hon : e.Honest P key) :
    Guarding P key dir { c with world := (takeSequence e c.world).2, records := c.records ++ [(e, (takeSequence e c.world).1)] }
      ls := by
  refine ⟨⟨h.file, h.written, h.chained, h.versions, h.tree, h.leafKey, h.persistence, h.sledStore, h.sled⟩, ?_, h.retained,
    h.holds, h.events, h.bounded⟩
  intro r hr
  rcases List.mem_append.1 hr with hr | hr
  · exact h.records r hr
  · rw [List.mem_singleton.1 hr]
    exact ⟨hon, version_entry he⟩

theorem Guarding.insertLeaf {sequence : Nat} (hl : P.LawfulLines) (h : Guarding P key dir c ls) (hat : c.records[i]? = some (e, sequence)) (hw : io.write = none)
    (hs : io.sync = none) (hsled : io.sledSave = none) :
    Guarding P key dir { c with world := (exec (insertLeaf P io e sequence) c.world).2, records := c.records.eraseIdx i }
      (ls ++ [.event (c.world.log.pushAt P e sequence).2]) := by
  obtain ⟨hon, hversion⟩ := h.records _ (List.mem_of_getElem? hat)
  generalize hev : (c.world.log.pushAt P e sequence).2 = ev
  have hchecked : checkedLeaf P key ev = some e.leaf := by
    rw [← hev]
    exact hon.checkedLeaf _ _ _
  have hindex : ev.index = (eventsOf ls).length := by
    rw [← hev]
    exact h.leafCount_eq
  have hevs : eventsOf (ls ++ [.event ev]) = eventsOf ls ++ [ev] := by simp [eventsOf_append]
  have hlog := log_insertLeaf (P := P) io e sequence c.world
  have hdisk := @insertLeaf_ok P dir io e c.world sequence h.persistence hw hs
  have htree : (c.world.log.pushAt P e sequence).1.tree = ⟨c.world.log.tree.leaves ++ [e.leaf]⟩ := rfl
  have hfiled : Filed P key dir (exec (Audit.insertLeaf P io e sequence) c.world).2 (ls ++ [.event ev]) := by
    rw [hdisk, hev]
    have hthree : io.sledWrites = 3 := by rw [Io.sledWrites, hsled]
    rw [hthree]
    refine h.toFiled.event hchecked ?_ ?_ ?_ htree rfl rfl rfl _
    · rw [← hev]
      exact hversion
    · rw [← hev]
      rfl
    · rw [← hev]
      rfl
  have hmeta : metadataLines P ((ls ++ [Line.event ev]).map (Line.text P)) = metadataLines P (ls.map (Line.text P)) := by
    rw [List.map_append, List.map_singleton, metadataLines_concat]
    exact metadataLine_event hl _ _
  refine ⟨hfiled, fun r hr => h.records r (List.mem_of_mem_eraseIdx hr), ?_, ?_, ?_, ?_⟩
  · rw [hmeta, hlog]
    exact h.retained
  · rw [hmeta, hlog]
    exact h.holds
  · rw [hlog, hevs, List.map_append, List.map_singleton]
    have hnew : ∀ r ∈ (c.world.log.retainedDomainRoots.lookup (ev.toAuditEvent 0).domain).getD [],
        r.maxIndex < (ev.toAuditEvent 0).index := by
      intro r hr
      show r.maxIndex < ev.index
      rw [hindex]
      exact h.bounded _ r hr
    have hconcat := @applyRetention_concat _ ((eventsOf ls).map (·.toAuditEvent 0)) _ hnew
    rw [← h.events] at hconcat
    refine Eq.trans ?_ hconcat.symm
    rw [← hev]
    show (c.world.log.events ++ [_]).map unnumbered = _
    rw [List.map_append]
    rfl
  · intro d r hr
    rw [hlog] at hr
    rw [hevs, List.length_append]
    have := h.bounded d r hr
    omega

/-- The log after the first half of `set_legal_hold`. -/
def AuditLog.withHold (log : AuditLog) (d : Domain) (hold : Bool) : AuditLog :=
  { log with legalHolds := if hold then insert d log.legalHolds else log.legalHolds.erase d }

theorem exec_setLegalHold (hp : w.log.persistence = some dir) (io : Io) (dep db : String) (hold : Bool) :
    exec (setLegalHold P io dep db hold) w =
      exec (appendLine io dir (P.valueToString (legalHoldMeta dep db hold))) ⟨w.log.withHold (dep, db) hold, w.disk⟩ := by
  have hp' : (w.log.withHold (dep, db) hold).persistence = some dir := hp
  unfold setLegalHold
  rw [exec_bind_ok (exec_modify _ _), exec_bind_ok (exec_get _)]
  split
  · next found hfound =>
    obtain rfl : found = dir := Option.some.inj (hfound.symm.trans hp')
    rfl
  · next hfound => cases hfound.symm.trans hp'

theorem mem_of_promise {promised holds : Finset Domain} {d d' : Domain} {hold : Bool} {result : Except AuditError Unit}
    (hsub : ∀ d ∈ promised, d ∈ holds) (hd : d ∈ promise promised d' hold result) :
    d ∈ if hold then insert d' holds else holds.erase d' := by
  unfold promise at hd
  cases hold
  · obtain ⟨hne, hd⟩ := Finset.mem_erase.1 hd
    exact Finset.mem_erase.2 ⟨hne, hsub d hd⟩
  · simp only [if_true] at hd ⊢
    split at hd
    · rcases Finset.mem_insert.1 hd with rfl | hd
      · exact Finset.mem_insert_self _ _
      · exact Finset.mem_insert_of_mem (hsub d hd)
    · exact Finset.mem_insert_of_mem (hsub d hd)

theorem mem_of_promise_error (hd : d ∈ promise promised d' hold (.error e)) : d ∈ promised := by
  cases hold
  · exact Finset.mem_of_mem_erase hd
  · exact hd

theorem Guarding.setLegalHold (hl : P.LawfulLines) {c : Custody} {ls : List Line} (h : Guarding P key dir c ls) (dep db : String)
    (hold : Bool) {io : Io} (hio : io.Clean) : ∃ ls', Guarding P key dir { c with
      world := (exec (setLegalHold P io dep db hold) c.world).2
      promised := promise c.promised (dep, db) hold (exec (setLegalHold P io dep db hold) c.world).1 } ls' := by
  rw [exec_setLegalHold h.persistence]
  have hmemory := fun d hd => (h.holds d hd).1
  rcases appendLine_clean hio dir (P.valueToString (legalHoldMeta dep db hold)) ⟨c.world.log.withHold (dep, db) hold, c.world.disk⟩
    with ⟨result, happ, _⟩ | ⟨e, happ⟩
  · have hevs : eventsOf (ls ++ [.metadata (legalHoldMeta dep db hold)]) = eventsOf ls := by simp [eventsOf_append]
    have hmeta : metadataLines P ((ls ++ [Line.metadata (legalHoldMeta dep db hold)]).map (Line.text P)) =
        (metadataLines P (ls.map (Line.text P))).hold (dep, db) hold := by
      rw [List.map_append, List.map_singleton, metadataLines_concat]
      exact metadataLine_legalHold hl _ dep db hold
    have hfiled : Filed P key dir (World.append ⟨c.world.log.withHold (dep, db) hold, c.world.disk⟩ dir
        (lineBytes (P.valueToString (legalHoldMeta dep db hold)))) (ls ++ [.metadata (legalHoldMeta dep db hold)]) :=
      h.toFiled.metadata (.legalHold dep db hold) rfl rfl rfl rfl
    rw [happ]
    refine ⟨ls ++ [.metadata (legalHoldMeta dep db hold)], hfiled, h.records, ?_, ?_, ?_, ?_⟩
    · rw [hmeta]
      exact h.retained
    · rw [hmeta]
      exact fun d hd => ⟨mem_of_promise hmemory hd, mem_of_promise (fun d hd => (h.holds d hd).2) hd⟩
    · rw [hevs]
      exact h.events
    · rw [hevs]
      exact h.bounded
  · have hfile : ((⟨c.world.log.withHold (dep, db) hold, c.world.disk⟩ : World).disk dir).events =
        some (String.ofList (fileText P ls)).toByteArray := h.file
    rw [happ, append_empty hfile]
    refine ⟨ls, ⟨h.file, h.written, h.chained, h.versions, h.tree, h.leafKey, h.persistence, h.sledStore, h.sled⟩, h.records,
      h.retained, fun d hd => ⟨mem_of_promise hmemory hd, (h.holds d (mem_of_promise_error hd)).2⟩, h.events, h.bounded⟩

theorem exec_pruneLocked {w : World} {dep db : String} {leaves : List Fr} {maxIndex : Nat} (hp : w.log.persistence = some dir)
    (hscan : pruneScan (dep, db) w.log.events [] none = .ok (leaves, some maxIndex)) (io : Io) (now : Instant)
    {result : Except AuditError Unit} {w' : World}
    (happ : exec (appendLine io dir (P.valueToString (prunedDomainMeta dep db (retainedRoot P now leaves maxIndex)))) w =
      (result, w')) : (exec (pruneLocked P io now dep db) w).2 =
        if result.isOk then ⟨w'.log.pruned (dep, db) (retainedRoot P now leaves maxIndex), w'.disk⟩ else w' := by
  have hfilter : (w'.log.events.filter fun ev => ¬ (ev.deploymentId = dep ∧ ev.database = db)) =
      w'.log.events.filter fun ev => ¬ ev.domain = (dep, db) := by
    refine List.filter_congr fun ev _ => ?_
    simp [AuditEvent.domain]
  unfold pruneLocked
  rw [exec_bind_ok (exec_get _), hscan]
  simp only [hp]
  cases result with
  | error e => exact congrArg Prod.snd (exec_bind_error happ)
  | ok u =>
    refine (congrArg Prod.snd (exec_bind_ok happ)).trans ?_
    rw [exec_bind_ok (exec_modify _ _), exec_pure]
    simp only [AuditLog.pruned, ← hfilter]
    rfl

theorem Guarding.index_lt (h : Guarding P key dir c ls) (hev : ev ∈ c.world.log.events) : ev.index < (eventsOf ls).length ∧
      ∀ r ∈ (c.world.log.retainedDomainRoots.lookup ev.domain).getD [], r.maxIndex < ev.index := by
  have hmem : unnumbered ev ∈ c.world.log.events.map unnumbered := List.mem_map_of_mem hev
  rw [h.events] at hmem
  obtain ⟨hmem, hroots⟩ := mem_applyRetention.1 hmem
  refine ⟨?_, hroots⟩
  obtain ⟨p, hp, hsame⟩ := List.mem_map.1 hmem
  obtain ⟨i, hi⟩ := List.mem_iff_getElem?.1 hp
  have hindex : p.index = ev.index := congrArg AuditEvent.index hsame
  rw [← hindex, h.toFiled.index_eq hi]
  exact (List.getElem?_eq_some_iff.1 hi).1

theorem Guarding.pruned (hl : P.LawfulLines) (h : Guarding P key dir c ls) (i : Nat)
    (hr : r.maxIndex = maxIndex)
    (hmax : some maxIndex = maxIndexOf (c.world.log.events.filter (·.domain = (dep, db))) none) :
    Guarding P key dir { c with
      world := World.append ⟨c.world.log.pruned (dep, db) r, c.world.disk⟩ dir
        (lineBytes (P.valueToString (prunedDomainMeta dep db r)))
      prunes := c.prunes.eraseIdx i } (ls ++ [.metadata (prunedDomainMeta dep db r)]) := by
  have hevs : eventsOf (ls ++ [.metadata (prunedDomainMeta dep db r)]) = eventsOf ls := by simp [eventsOf_append]
  obtain ⟨hat, _, hall⟩ := maxIndexOf_eq_some hmax.symm
  obtain ⟨ev, hev, hevmax⟩ := hat.resolve_left (by simp)
  obtain ⟨hmem, hdom⟩ : ev ∈ c.world.log.events ∧ ev.domain = (dep, db) := by simpa using hev
  obtain ⟨hlt, hroots⟩ := h.index_lt hmem
  rw [hdom] at hroots
  have hfiled : Filed P key dir (World.append ⟨c.world.log.pruned (dep, db) r, c.world.disk⟩ dir
      (lineBytes (P.valueToString (prunedDomainMeta dep db r)))) (ls ++ [.metadata (prunedDomainMeta dep db r)]) :=
    h.toFiled.metadata (.prunedDomain dep db r) rfl rfl rfl rfl
  have hmeta : metadataLines P ((ls ++ [Line.metadata (prunedDomainMeta dep db r)]).map (Line.text P)) =
      (metadataLines P (ls.map (Line.text P))).retain (dep, db) r := by
    rw [List.map_append, List.map_singleton, metadataLines_concat]
    exact metadataLine_prunedDomain hl _ dep db r
  -- the roots retained so far end before the active events, so the line is not taken for one of them
  have hknown : ((c.world.log.retainedDomainRoots.lookup (dep, db)).getD []).any
      (fun r' => r'.maxIndex = r.maxIndex && r'.rootHex = r.rootHex) = false := by
    rw [List.any_eq_false]
    intro r' hr'
    have := hroots r' hr'
    simp
    omega
  have hretain : (metadataLines P (ls.map (Line.text P))).retain (dep, db) r =
      ⟨(metadataLines P (ls.map (Line.text P))).legalHolds, c.world.log.retainedDomainRoots.insert (dep, db)
        ((c.world.log.retainedDomainRoots.lookup (dep, db)).getD [] ++ [r])⟩ := by
    simp only [Metadata.retain, ← h.retained, hknown]
    rfl
  refine ⟨hfiled, h.records, ?_, ?_, ?_, ?_⟩
  · rw [hmeta, hretain]
    rfl
  · rw [hmeta, hretain]
    exact h.holds
  · rw [hevs]
    refine Eq.trans ?_ (applyRetention_insert fun ev' hev' hd' => ?_).symm
    · rw [← h.events, List.filter_map]
      rfl
    · rw [← h.events] at hev'
      obtain ⟨ev'', hmem'', rfl⟩ := List.mem_map.1 hev'
      rw [hr]
      exact hall ev'' (by simpa using ⟨hmem'', hd'⟩)
  · intro d r' hr'
    rw [hevs]
    by_cases hd : d = (dep, db)
    · subst hd
      have hcases : r' ∈ (c.world.log.retainedDomainRoots.lookup (dep, db)).getD [] ∨ r' = r := by
        simpa [World.append, World.setDir, AuditLog.pruned] using hr'
      rcases hcases with hr' | rfl
      · exact h.bounded _ r' hr'
      · omega
    · refine h.bounded d r' ?_
      simpa [World.append, World.setDir, AuditLog.pruned, Finmap.lookup_insert_of_ne _ hd] using hr'

theorem Guarding.removeEvents (hl : P.LawfulLines) (h : Guarding P key dir c ls) (i : Nat)
    (d : Domain) (now : Instant) (hio : io.Clean) (hsync : io.write = none → io.sync = none) : ∃ ls',
      Guarding P key dir { c with world := (exec (pruneLocked P io now d.1 d.2) c.world).2, prunes := c.prunes.eraseIdx i } ls' := by
  have hidle : Guarding P key dir { c with prunes := c.prunes.eraseIdx i } ls :=
    ⟨h.toFiled, h.records, h.retained, h.holds, h.events, h.bounded⟩
  cases hscan : pruneScan d c.world.log.events [] none with
  | error e =>
    have hexec : (exec (pruneLocked P io now d.1 d.2) c.world).2 = c.world := by
      unfold pruneLocked
      rw [exec_bind_ok (exec_get _), hscan]
      rfl
    rw [hexec]
    exact ⟨ls, hidle⟩
  | ok scanned =>
    obtain ⟨leaves, _ | maxIndex⟩ := scanned
    · have hexec : (exec (pruneLocked P io now d.1 d.2) c.world).2 = c.world := by
        unfold pruneLocked
        rw [exec_bind_ok (exec_get _), hscan]
        rfl
      rw [hexec]
      exact ⟨ls, hidle⟩
    · rcases appendLine_clean hio dir (P.valueToString (prunedDomainMeta d.1 d.2 (retainedRoot P now leaves maxIndex))) c.world
        with ⟨result, happ, hresult⟩ | ⟨e, happ⟩
      · obtain rfl : result = .ok () := by
          exact hresult.resolve_right fun hfail => hfail.2 (hsync hfail.1)
        rw [exec_pruneLocked h.persistence hscan io now happ]
        exact ⟨_, h.pruned hl i rfl (pruneScan_max hscan)⟩
      · rw [exec_pruneLocked h.persistence hscan io now happ, append_empty h.file]
        exact ⟨ls, hidle⟩

theorem Guarding.restart (hl : P.LawfulLines) (h : Guarding P key dir c ls) :
    Guarding P key dir ⟨(exec (setPersistenceDir P {} dir) (World.start key c.world.disk)).2, [], [], c.promised⟩ ls ∧
    (exec (setPersistenceDir P {} dir) (World.start key c.world.disk)).2.log.events.map unnumbered =
      c.world.log.events.map unnumbered := by
  have hfiled := h.toFiled.restart hl
  obtain ⟨log, hback, hexec⟩ := h.toFiled.readBack hl
  rw [hexec] at hfiled ⊢
  have hretained : log.retainedDomainRoots = c.world.log.retainedDomainRoots := hback.retained.trans h.retained.symm
  have hevents : log.events.map unnumbered = applyRetention log.retainedDomainRoots ((eventsOf ls).map (·.toAuditEvent 0)) := by
    rw [hback.events, applyRetention_unnumbered, unnumbered_countEvents]
  refine ⟨⟨hfiled, fun r hr => absurd hr List.not_mem_nil, hback.retained, fun d hd => ?_, hevents, ?_⟩, ?_⟩
  · have hfile := (h.holds d hd).2
    exact ⟨hback.legalHolds ▸ hfile, hfile⟩
  · show ∀ d, ∀ r ∈ (log.retainedDomainRoots.lookup d).getD [], _
    rw [hretained]
    exact h.bounded
  · show log.events.map unnumbered = _
    rw [hevents, hretained, h.events]

/-! ## Steps and runs -/

/-- **One step** keeps the invariant. -/
theorem guarding_step (hl : P.LawfulLines) (h : Guarding P key dir c ls) (hok : Careful P key c a) : ∃ ls', Guarding P key dir (stepCustody P key dir c a) ls' := by
  cases a with
  | takeSequence call =>
    simp only [stepCustody]
    rw [h.leafKey]
    cases he : call.entry P key with
    | none => exact ⟨ls, h⟩
    | some e => exact ⟨ls, h.takeSequence he (hok e he)⟩
  | insertLeaf i io =>
    simp only [stepCustody]
    obtain ⟨hw, hs, hsled⟩ := hok
    cases hat : c.records[i]? with
    | none => exact ⟨ls, h⟩
    | some record => exact ⟨_, h.insertLeaf hl hat hw hs hsled⟩
  | setLegalHold dep db hold io => exact h.setLegalHold hl dep db hold hok
  | checkHold dep db =>
    simp only [stepCustody]
    split
    · exact ⟨ls, h⟩
    · exact ⟨ls, h.toFiled, h.records, h.retained, h.holds, h.events, h.bounded⟩
  | removeEvents i now io =>
    simp only [stepCustody]
    cases hat : c.prunes[i]? with
    | none => exact ⟨ls, h⟩
    | some d => exact h.removeEvents hl i d now hok.2.1 hok.2.2
  | restart => exact ⟨ls, (h.restart hl).1⟩

theorem events_step (hl : P.LawfulLines) (h : Guarding P key dir c ls) (hok : Careful P key c a) (hd : d ∈ c.promised) (hdom : ev.domain = d)
    (hev : ev ∈ c.world.log.events.map unnumbered) : ev ∈ (stepCustody P key dir c a).world.log.events.map unnumbered := by
  cases a with
  | takeSequence call =>
    simp only [stepCustody]
    cases call.entry P c.world.log.leafKey with
    | none => exact hev
    | some e => exact hev
  | insertLeaf i io =>
    simp only [stepCustody]
    cases c.records[i]? with
    | none => exact hev
    | some record =>
      show ev ∈ (exec (insertLeaf P io record.1 record.2) c.world).2.log.events.map unnumbered
      rw [log_insertLeaf]
      show ev ∈ (c.world.log.events ++ [_]).map unnumbered
      rw [List.map_append]
      exact List.mem_append_left _ hev
  | setLegalHold dep db hold io =>
    show ev ∈ (exec (setLegalHold P io dep db hold) c.world).2.log.events.map unnumbered
    rw [log_setLegalHold]
    exact hev
  | checkHold dep db =>
    simp only [stepCustody]
    split
    · exact hev
    · exact hev
  | removeEvents i now io =>
    simp only [stepCustody]
    cases hat : c.prunes[i]? with
    | none => exact hev
    | some d' =>
      show ev ∈ (exec (pruneLocked P io now d'.1 d'.2) c.world).2.log.events.map unnumbered
      rcases log_pruneLocked (P := P) io now d'.1 d'.2 c.world with hlog | ⟨leaves, maxIndex, _, hlog⟩
      · rw [hlog]
        exact hev
      · rw [hlog]
        obtain ⟨ev0, hmem, rfl⟩ := List.mem_map.1 hev
        have hother : ev0.domain ≠ d' := by
          intro hsame
          have hdom0 : ev0.domain = d := hdom
          exact hok.1 d' hat (hsame ▸ hdom0 ▸ hd)
        exact List.mem_map_of_mem (List.mem_filter.2 ⟨hmem, by simpa using hother⟩)
  | restart =>
    show ev ∈ (exec (setPersistenceDir P {} dir) (World.start key c.world.disk)).2.log.events.map unnumbered
    rw [(h.restart hl).2]
    exact hev

theorem guarding_run (hl : P.LawfulLines) : ∀ {c : Custody} {ls : List Line},
    Guarding P key dir c ls → Runs.Guarded (stepCustody P key dir) (Careful P key) c steps →
      ∃ ls', Guarding P key dir (Runs.run (stepCustody P key dir) c steps) ls' := by
  induction steps with
  | nil => exact fun h _ => ⟨_, h⟩
  | cons a steps ih =>
    rintro c ls h ⟨hok, hg⟩
    obtain ⟨ls', h'⟩ := guarding_step hl h hok
    exact ih h' hg

end

/-- **A legal hold is never bypassed**, in every run whose prunes find their domain without a promised hold when they take
the lock, and whose failing writes leave nothing that is read back: while the promise lasts, no event of the domain leaves
the list, and the domain is held in every state, also after restarts. -/
theorem legal_hold_kept (P : Prims) (hl : P.LawfulLines) (key : Option Bytes32) (dir : String) (pre mid : List CustodyStep)
    (hg : Runs.Guarded (stepCustody P key dir) (Careful P key) (Custody.start P key dir) (pre ++ mid)) (d : Domain)
    (hd : ∀ part, part <+: mid → d ∈ (Runs.run (stepCustody P key dir) (Custody.start P key dir) (pre ++ part)).promised) :
    (Runs.run (stepCustody P key dir) (Custody.start P key dir) pre).Keeps
      (Runs.run (stepCustody P key dir) (Custody.start P key dir) (pre ++ mid)) d := by
  obtain ⟨ls, h⟩ := guarding_run hl guarding_start hg
  refine ⟨fun ev hev hdom => ?_, (h.holds d (hd mid List.prefix_rfl)).1⟩
  clear h
  induction mid using List.reverseRecOn with
  | nil =>
    rw [List.append_nil]
    exact List.mem_map_of_mem hev
  | append_singleton mid a ih =>
    rw [← List.append_assoc] at hg ⊢
    have hgmid := Runs.guarded_left hg
    obtain ⟨ls', h'⟩ := guarding_run hl guarding_start hgmid
    have hlast := Runs.guarded_at hg
    rw [Runs.run_snoc]
    exact events_step hl h' hlast (hd mid (List.prefix_append _ _)) hdom
      (ih hgmid fun part hpart => hd part (hpart.trans (List.prefix_append _ _)))

/-! ### A hold between the check and the removal -/

section
variable {P : Prims} {key : Option Bytes32} {dir : String} {call : RecordCall} {e : Entry}

/-- One event, a prune of its domain that found no hold, and the hold. -/
def raceSteps (call : RecordCall) (d : Domain) : List CustodyStep :=
  [.takeSequence call, .insertLeaf 0 {}, .checkHold d.1 d.2, .setLegalHold d.1 d.2 true {}]

theorem race_state (hentry : call.entry P key = some e) : ∃ ev : AuditEvent,
    let c := Runs.run (stepCustody P key dir) (Custody.start P key dir) (raceSteps call e.domain)
    c.world.log.events = [ev] ∧ ev.domain = e.domain ∧ ev.leafHex = frToHex e.leaf ∧ c.prunes = [e.domain] ∧
      c.promised = {e.domain} ∧ c.world.log.persistence = some dir := by
  have hopen := @restorable_open P key dir
  have hevents : (openNew P key dir).log.events = [] := hopen.events
  have hholds : (openNew P key dir).log.legalHolds = ∅ := (congrArg Metadata.legalHolds hopen.metadata).symm
  have hp := hopen.persistence
  have hkey := hopen.leafKey
  unfold raceSteps Custody.start
  generalize openNew P key dir = w at hevents hholds hp hkey
  simp only [Runs.run_cons, Runs.run_nil, stepCustody, hkey, hentry, List.nil_append, List.getElem?_cons_zero,
    List.eraseIdx_cons_zero]
  have hlog := log_insertLeaf (P := P) {} e (takeSequence e w).1 (takeSequence e w).2
  generalize (exec (insertLeaf P {} e (takeSequence e w).1) (takeSequence e w).2).2 = w2 at hlog ⊢
  have hfree : (e.domain.1, e.domain.2) ∉ w2.log.legalHolds := by
    rw [hlog]
    show _ ∉ w.log.legalHolds
    rw [hholds]
    exact Finset.notMem_empty _
  have hp2 : w2.log.persistence = some dir := by
    rw [hlog]
    exact hp
  rw [if_neg hfree]
  simp only [exec_setLegalHold hp2, exec_appendLine]
  refine ⟨((takeSequence e w).2.log.pushAt P e (takeSequence e w).1).2.toAuditEvent (takeSequence e w).1, ?_, rfl, rfl, trivial,
    rfl, hp2⟩
  show w2.log.events = [_]
  rw [hlog]
  show w.log.events ++ [_] = [_]
  rw [hevents]
  rfl

theorem race_loses {now : Instant} (hentry : call.entry P key = some e) :
    (Runs.run (stepCustody P key dir) (Custody.start P key dir) (raceSteps call e.domain ++ [.removeEvents 0 now {}])).world.log.events
      = [] := by
  obtain ⟨ev, hevents, hdom, hleaf, hprunes, _, hp⟩ := @race_state _ _ dir _ _ hentry
  rw [Runs.run_snoc]
  generalize Runs.run (stepCustody P key dir) (Custody.start P key dir) (raceSteps call e.domain) = c at *
  have hfilter : c.world.log.events.filter (·.domain = e.domain) = [ev] := by simp [hevents, hdom]
  have hscan : pruneScan e.domain c.world.log.events [] none = .ok ([] ++ [e.leaf], maxIndexOf [ev] none) := by
    rw [← hfilter]
    refine pruneScan_ok [] none ?_
    rw [hfilter]
    simp [hleaf]
  simp only [stepCustody, hprunes, List.getElem?_cons_zero]
  rw [@exec_pruneLocked P dir c.world e.domain.1 e.domain.2 _ _ hp hscan {} now _ _ (exec_appendLine _ _ _)]
  show (c.world.log.events.filter fun ev => ¬ ev.domain = (e.domain.1, e.domain.2)) = []
  simp [hevents, hdom]

end

theorem demoInsert_careful (c : Custody) (payload : String) : Careful demoPrims none c (.takeSequence (demoInsert payload)) := by
  intro e he
  obtain rfl := Option.some.inj ((demoInsert_entry payload).symm.trans he)
  exact demoEntry_honest payload

theorem promised_run (c : Custody)
    (h : ∀ a ∈ steps, ∀ dep db hold io, a ≠ .setLegalHold dep db hold io) :
    (Runs.run (stepCustody P key dir) c steps).promised = c.promised := by
  induction steps generalizing c with
  | nil => rfl
  | cons a steps ih =>
    rw [Runs.run_cons, ih _ fun a ha => h a (List.mem_cons_of_mem _ ha)]
    have hne := h a List.mem_cons_self
    cases a with
    | takeSequence call =>
      simp only [stepCustody]
      cases call.entry P c.world.log.leafKey <;> rfl
    | insertLeaf i io =>
      simp only [stepCustody]
      cases c.records[i]? <;> rfl
    | setLegalHold dep db hold io => exact absurd rfl (hne dep db hold io)
    | checkHold dep db =>
      simp only [stepCustody]
      split <;> rfl
    | removeEvents i now io =>
      simp only [stepCustody]
      cases c.prunes[i]? <;> rfl
    | restart => rfl

/-- A prune that asks for the hold after it was set, and a restart. -/
theorem held_through_restart :
    (Runs.run (stepCustody demoPrims none "data") (Custody.start demoPrims none "data")
      (raceSteps (demoInsert "insert|shop|orders|1") ("rs:rs0", "shop"))).Keeps
    (Runs.run (stepCustody demoPrims none "data") (Custody.start demoPrims none "data")
      (raceSteps (demoInsert "insert|shop|orders|1") ("rs:rs0", "shop") ++ [.checkHold "rs:rs0" "shop", .restart]))
    ("rs:rs0", "shop") := by
  refine legal_hold_kept demoPrims (textPrims_lawfulLines _ _ _) none "data" _ _ ?_ ("rs:rs0", "shop") fun part hpart => ?_
  · exact ⟨demoInsert_careful _ _, ⟨rfl, rfl, rfl⟩, trivial, fun _ _ h => absurd h (by simp), trivial, trivial, trivial⟩
  · obtain ⟨ev, _, _, _, _, hpromised, _⟩ := @race_state demoPrims none "data" _ _ (demoInsert_entry "insert|shop|orders|1")
    have hd : (demoEntry "insert|shop|orders|1").domain = ("rs:rs0", "shop") := rfl
    rw [hd] at hpromised
    rw [Runs.run_append, promised_run, hpromised]
    · exact Finset.mem_singleton_self _
    · intro a ha dep db hold io
      have ha' := hpart.subset ha
      simp only [List.mem_cons, List.not_mem_nil, or_false] at ha'
      rcases ha' with rfl | rfl
      · exact fun h => CustodyStep.noConfusion h
      · exact fun h => CustodyStep.noConfusion h

/-- **The hold is bypassed** by a prune that asked before it was set. -/
theorem hold_bypassed : ∃ d : Domain,
    d ∈ (Runs.run (stepCustody demoPrims none "data") (Custody.start demoPrims none "data")
      (raceSteps (demoInsert "insert|shop|orders|1") d)).promised ∧
    d ∈ (Runs.run (stepCustody demoPrims none "data") (Custody.start demoPrims none "data")
      (raceSteps (demoInsert "insert|shop|orders|1") d ++ [.removeEvents 0 ⟨1, 0⟩ {}])).promised ∧
    ¬ (Runs.run (stepCustody demoPrims none "data") (Custody.start demoPrims none "data")
      (raceSteps (demoInsert "insert|shop|orders|1") d)).Keeps
      (Runs.run (stepCustody demoPrims none "data") (Custody.start demoPrims none "data")
        (raceSteps (demoInsert "insert|shop|orders|1") d ++ [.removeEvents 0 ⟨1, 0⟩ {}])) d := by
  obtain ⟨ev, hevents, hdom, _, _, hpromised, _⟩ :=
    @race_state demoPrims none "data" _ _ (demoInsert_entry "insert|shop|orders|1")
  have hgone := @race_loses demoPrims none "data" _ _ ⟨1, 0⟩ (demoInsert_entry "insert|shop|orders|1")
  refine ⟨(demoEntry "insert|shop|orders|1").domain, ?_, ?_, ?_⟩
  · rw [hpromised]
    exact Finset.mem_singleton_self _
  · rw [Runs.run_append, promised_run, hpromised]
    · exact Finset.mem_singleton_self _
    · intro a ha dep db hold io
      rw [List.mem_singleton.1 ha]
      exact fun h => CustodyStep.noConfusion h
  · rintro ⟨hkept, _⟩
    have hmem := hkept ev (by rw [hevents]; exact List.mem_singleton_self _) hdom
    rw [hgone] at hmem
    exact List.not_mem_nil hmem

end Audit
