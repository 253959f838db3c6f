import Mathlib.Data.Finset.Sort
import Mathlib.Data.Prod.Lex
import Mathlib.Data.String.Basic
import NosqlBuddy.Lib.Segments
import NosqlBuddy.Audit.Attribution
import NosqlBuddy.Audit.HonestFile

/-!
# Retained domains

| here | mod.rs |
|---|---|
| `listDomains` | `list_domains` (1289) |
| `superLeaf` | `super_leaf` (1576) |

A pruned domain keeps the roots of the pruned segments, in memory and as metadata lines of the file.
`Restorable` says that memory is what the file gives back, so a restart changes neither the active events nor
the retained roots nor the holds. `Shelved` says which leaves these are: the log is a log in segments, with
one segment for each prune that took events, and the root of a domain is that of the shown list.
-/

namespace Audit
open Mutation Text

/-! ## The source -/

def AuditEvent.domain (ev : AuditEvent) : Domain := (ev.deploymentId, ev.database)

/-- The order of `BTreeSet<(String, String)>`. -/
def domainLe (a b : Domain) : Prop := toLex a ≤ toLex b

instance : DecidableRel domainLe := fun a b => inferInstanceAs (Decidable (toLex a ≤ toLex b))

instance : IsTrans Domain domainLe := ⟨fun _ b _ hab hbc => le_trans (b := toLex b) hab hbc⟩

instance : Std.Antisymm domainLe := ⟨fun _ _ hab hba => toLex.injective (le_antisymm hab hba)⟩

instance : Std.Total domainLe := ⟨fun a b => le_total (toLex a) (toLex b)⟩

section
variable (P : Prims)

def AuditLog.listDomains (log : AuditLog) : List Domain :=
  ((log.events.map AuditEvent.domain).toFinset ∪ log.retainedDomainRoots.keys).sort domainLe

/-- The text that `super_leaf` hashes. -/
def superPayload (deploymentId database domainRootHex : String) : String := s!"{deploymentId}|{database}|{domainRootHex}"

def superLeaf (deploymentId database domainRootHex : String) : Fr :=
  leafFromPayload P "domain_root" database "" (superPayload deploymentId database domainRootHex)

/-- The super-root and the entries `(deploymentId, database, domainRootHex)` below it. -/
def AuditLog.domainSuperRoot (log : AuditLog) : Except AuditError (String × List (String × String × String)) := do
  let entries ← log.listDomains.mapM fun d => do
    let (rootHex, _count) ← log.domainRoot P d.1 d.2
    return (d.1, d.2, rootHex)
  return (rootHex P (entries.map fun e => superLeaf P e.1 e.2.1 e.2.2), entries)

end

/-! ## Metadata lines -/

section
variable {P : Prims} {key : Option Bytes32} {dir : String}

theorem metadataLines_concat (ts : List (List Char)) (t : List Char) :
    metadataLines P (ts ++ [t]) = metadataLine P (metadataLines P ts) t := by
  simp [metadataLines]

theorem metadataLine_event (hl : P.LawfulLines) (m : Metadata) (ev : PersistedEvent) :
    metadataLine P m (P.eventToString ev) = m := by
  obtain ⟨v, hv, hget⟩ := hl.value (.event ev) trivial
  obtain ⟨_, htrim, hne⟩ := hl.plain (l := .event ev) trivial
  have hmeta : v.getStr "meta" = none := by
    rw [Json.getStr, hget]
    simp [Line.value, eventValue, Json.get]
  simp only [Line.text] at hv htrim hne
  simp only [metadataLine, htrim, hne, if_false, hv, hmeta]

theorem metadataLine_legalHold (hl : P.LawfulLines) (m : Metadata) (dep db : String) (hold : Bool) :
    metadataLine P m (P.valueToString (legalHoldMeta dep db hold)) = m.hold (dep, db) hold := by
  have hw : (Line.metadata (legalHoldMeta dep db hold)).Written := .legalHold dep db hold
  obtain ⟨v, hv, hget⟩ := hl.value _ hw
  obtain ⟨_, htrim, hne⟩ := hl.plain hw
  have hfields : v.getStr "meta" = some "legal_hold" ∧ v.getStr "deployment_id" = some dep ∧
      v.getStr "database" = some db ∧ v.getBool "hold" = some hold := by
    simp only [Json.getStr, Json.getBool, hget]
    simp [Line.value, legalHoldMeta, Json.get, Json.asStr, Json.asBool]
  simp only [Line.text] at hv htrim hne
  simp only [metadataLine, htrim, hne, if_false, hv, hfields]

theorem metadataLine_prunedDomain (hl : P.LawfulLines) (m : Metadata) (dep db : String) (r : DomainRetentionRoot) :
    metadataLine P m (P.valueToString (prunedDomainMeta dep db r)) = m.retain (dep, db) r := by
  have hw : (Line.metadata (prunedDomainMeta dep db r)).Written := .prunedDomain dep db r
  obtain ⟨v, hv, hget⟩ := hl.value _ hw
  obtain ⟨_, htrim, hne⟩ := hl.plain hw
  have hfields : v.getStr "meta" = some "pruned_domain" ∧ v.getStr "deployment_id" = some dep ∧
      v.getStr "database" = some db ∧ v.getStr "root_hex" = some r.rootHex ∧ v.getU64 "event_count" = some r.eventCount ∧
      v.getU64 "max_index" = some r.maxIndex ∧ v.getStr "pruned_at" = some r.prunedAt := by
    simp only [Json.getStr, Json.getU64, hget]
    simp [Line.value, prunedDomainMeta, Json.get, Json.asStr, Json.asU64]
  simp only [Line.text] at hv htrim hne
  simp only [metadataLine, htrim, hne, if_false, hv, hfields]

/-! ## Hidden events -/

abbrev Retained := Finmap fun _ : Domain => List DomainRetentionRoot

theorem applyRetention_eq (retained : Retained) (events : List AuditEvent) : applyRetention retained events =
    events.filter fun ev => ∀ r ∈ (retained.lookup ev.domain).getD [], r.maxIndex < ev.index := by
  refine List.filter_congr fun ev _ => ?_
  rw [show (ev.deploymentId, ev.database) = ev.domain from rfl]
  cases retained.lookup ev.domain with
  | none => simp
  | some roots => simp

theorem mem_applyRetention :
    ev ∈ applyRetention retained events ↔
      ev ∈ events ∧ ∀ r ∈ (retained.lookup ev.domain).getD [], r.maxIndex < ev.index := by
  simp [applyRetention_eq]

theorem applyRetention_concat {retained : Retained} {events : List AuditEvent} {ev : AuditEvent}
    (h : ∀ r ∈ (retained.lookup ev.domain).getD [], r.maxIndex < ev.index) :
    applyRetention retained (events ++ [ev]) = applyRetention retained events ++ [ev] := by
  rw [applyRetention_eq, applyRetention_eq, List.filter_append]
  simpa using h

theorem applyRetention_insert (h : ∀ ev ∈ applyRetention retained events, ev.domain = d → ev.index ≤ r.maxIndex) :
    applyRetention (retained.insert d ((retained.lookup d).getD [] ++ [r])) events =
      (applyRetention retained events).filter fun ev => ¬ ev.domain = d := by
  rw [applyRetention_eq, applyRetention_eq, List.filter_filter]
  refine List.filter_congr fun ev hev => ?_
  by_cases hd : ev.domain = d
  · -- it was hidden before, or it is active and the new root hides it
    subst hd
    have hlast : r.maxIndex < ev.index → ∃ r' ∈ (retained.lookup ev.domain).getD [], ev.index ≤ r'.maxIndex := by
      intro hlt
      by_contra hno
      push Not at hno
      exact absurd (h ev (mem_applyRetention.2 ⟨hev, hno⟩) rfl) (by omega)
    simp only [Finmap.lookup_insert, Option.getD_some, not_true_eq_false, decide_false, Bool.false_and,
      decide_eq_false_iff_not]
    intro hall
    obtain ⟨r', hr', hle⟩ := hlast (hall r (by simp))
    exact absurd (hall r' (List.mem_append_left _ hr')) (by omega)
  · simp [Finmap.lookup_insert_of_ne _ hd, hd]

/-! ## Memory is what the file gives back -/

structure Restorable (P : Prims) (key : Option Bytes32) (dir : String) (w : World) (ls : List Line) : Prop
    extends Filed P key dir w ls where
  metadata : metadataLines P (ls.map (Line.text P)) = ⟨w.log.legalHolds, w.log.retainedDomainRoots⟩
  sequences : w.log.sequences = (countEvents (eventsOf ls) ∅).2
  events : w.log.events = applyRetention w.log.retainedDomainRoots (countEvents (eventsOf ls) ∅).1
  bounded : ∀ d, ∀ r ∈ (w.log.retainedDomainRoots.lookup d).getD [], r.maxIndex < (eventsOf ls).length

theorem countEvents_concat (ev : PersistedEvent) : ∀ (evs : List PersistedEvent) (seqs : Finmap fun _ : Domain => Nat),
    countEvents (evs ++ [ev]) seqs = ((countEvents evs seqs).1 ++ [(countEvent (countEvents evs seqs).2 ev).1],
      (countEvent (countEvents evs seqs).2 ev).2)
  | [], _ => rfl
  | e :: evs, seqs => by
    rw [List.cons_append, countEvents, countEvents_concat ev evs]
    rfl

theorem index_countEvents : ∀ (evs : List PersistedEvent) (seqs : Finmap fun _ : Domain => Nat),
    (countEvents evs seqs).1.map (·.index) = evs.map (·.index)
  | [], _ => rfl
  | ev :: evs, seqs => by
    simp only [countEvents, List.map_cons, index_countEvents evs]
    rfl

theorem Restorable.index_lt (h : Restorable P key dir w ls) (hev : ev ∈ w.log.events) : ev.index < (eventsOf ls).length := by
  rw [h.events] at hev
  have hmem : ev.index ∈ (eventsOf ls).map (·.index) := by
    rw [← index_countEvents _ ∅]
    exact List.mem_map_of_mem (mem_applyRetention.1 hev).1
  obtain ⟨p, hp, hidx⟩ := List.mem_map.1 hmem
  obtain ⟨i, hi⟩ := List.mem_iff_getElem?.1 hp
  have hat := (((chained_iff _ []).1 h.chained).2 i p hi).1
  have hlt := (List.getElem?_eq_some_iff.1 hi).1
  rw [List.length_nil, Nat.zero_add] at hat
  omega

theorem restorable_open : Restorable P key dir (openNew P key dir) [] := by
  have hopen : openNew P key dir = ((World.start key emptyDisk).opening {} dir).opened dir := by
    rw [openNew, exec_open_new rfl]
  refine ⟨filed_open, ?_, ?_, ?_, ?_⟩
  · rw [hopen]
    rfl
  · rw [hopen]
    rfl
  · rw [hopen]
    rfl
  · rw [hopen]
    intro d r hr
    exact absurd hr (by simp [World.opened, World.opening, AuditLog.opening, World.start, AuditLog.new])

/-! ## Steps that keep it -/

theorem Restorable.record (hl : P.LawfulLines) {w : World} {ls : List Line} (h : Restorable P key dir w ls) {call : RecordCall}
    {e : Entry} (he : call.entry P key = some e) (hon : e.Honest P key) :
    Restorable P key dir (exec (call.run P {}) w).2 (ls ++ [.event (w.log.push P e).2]) := by
  have hlog : (exec (call.run P {}) w).2.log = (w.log.push P e).1 := by
    rw [exec_run, h.leafKey, he]
    exact log_recordInner {} e w
  have hevs : eventsOf (ls ++ [.event (w.log.push P e).2]) = eventsOf ls ++ [(w.log.push P e).2] := by
    simp [eventsOf_append]
  have hindex : (w.log.push P e).2.index = (eventsOf ls).length := h.leafCount_eq
  have hseq : countEvent w.log.sequences (w.log.push P e).2 =
      ((w.log.push P e).2.toAuditEvent (nextSequence w.log.sequences e.domain).1, (w.log.push P e).1.sequences) := rfl
  refine ⟨h.toFiled.record he hon, ?_, ?_, ?_, ?_⟩
  · rw [hlog, List.map_append, List.map_singleton, metadataLines_concat, h.metadata]
    exact metadataLine_event hl _ _
  · rw [hlog, hevs, countEvents_concat, ← h.sequences, hseq]
  · rw [hlog, hevs, countEvents_concat, ← h.sequences, hseq]
    have hnew : ∀ r ∈ (w.log.retainedDomainRoots.lookup e.domain).getD [], r.maxIndex < (w.log.push P e).2.index := by
      rw [hindex]
      exact h.bounded e.domain
    have hconcat := @applyRetention_concat w.log.retainedDomainRoots (countEvents (eventsOf ls) ∅).1
      ((w.log.push P e).2.toAuditEvent (nextSequence w.log.sequences e.domain).1) hnew
    rw [← h.events] at hconcat
    exact hconcat.symm
  · intro d r hr
    rw [hlog] at hr
    rw [hevs, List.length_append]
    have := h.bounded d r hr
    omega

theorem Restorable.log_setLegalHold (h : Restorable P key dir w ls) (dep db : String)
    (hold : Bool) : (exec (Audit.setLegalHold P {} dep db hold) w).2.log = { w.log with
      legalHolds := if hold then insert (dep, db) w.log.legalHolds else w.log.legalHolds.erase (dep, db) } := by
  unfold Audit.setLegalHold
  rw [exec_bind_ok (exec_modify _ _), exec_bind_ok (exec_get _)]
  simp only [h.persistence, exec_appendLine]
  rfl

theorem Restorable.setLegalHold (hl : P.LawfulLines) (h : Restorable P key dir w ls)
    (dep db : String) (hold : Bool) : Restorable P key dir (exec (setLegalHold P {} dep db hold) w).2
      (ls ++ [.metadata (legalHoldMeta dep db hold)]) := by
  have hfiled := h.toFiled.setLegalHold dep db hold
  have hevs : eventsOf (ls ++ [.metadata (legalHoldMeta dep db hold)]) = eventsOf ls := by simp [eventsOf_append]
  have hlog := h.log_setLegalHold dep db hold
  refine ⟨hfiled, ?_, ?_, ?_, ?_⟩
  · rw [hlog, List.map_append, List.map_singleton, metadataLines_concat, h.metadata]
    exact metadataLine_legalHold hl _ dep db hold
  · rw [hlog, hevs]
    exact h.sequences
  · rw [hlog, hevs]
    exact h.events
  · rw [hlog, hevs]
    exact h.bounded

/-- The largest index of the events. -/
def maxIndexOf (events : List AuditEvent) (start : Option Nat) : Option Nat :=
  events.foldl (fun m ev => some (m.elim ev.index fun i => max i ev.index)) start

theorem maxIndexOf_cons (ev : AuditEvent) (events : List AuditEvent) (start : Option Nat) :
    maxIndexOf (ev :: events) start = maxIndexOf events (some (start.elim ev.index fun i => max i ev.index)) := rfl

theorem maxIndexOf_ne_none : ∀ {events : List AuditEvent} {i : Nat}, maxIndexOf events (some i) ≠ none
  | [], i => Option.some_ne_none i
  | ev :: events, i => by
    rw [maxIndexOf_cons]
    exact @maxIndexOf_ne_none events _

theorem maxIndexOf_eq_none : maxIndexOf events none = none ↔ events = [] := by
  cases events with
  | nil => simp [maxIndexOf]
  | cons ev events => simp [maxIndexOf_cons, maxIndexOf_ne_none]

theorem maxIndexOf_eq_some : ∀ {events : List AuditEvent} {start : Option Nat} {m : Nat},
    maxIndexOf events start = some m →
      (start = some m ∨ ∃ ev ∈ events, ev.index = m) ∧ (∀ i, start = some i → i ≤ m) ∧ ∀ ev ∈ events, ev.index ≤ m
  | [], start, m, h => by
    obtain rfl : start = some m := h
    simp
  | ev :: events, start, m, h => by
    obtain ⟨hat, hstart, hmax⟩ := maxIndexOf_eq_some (maxIndexOf_cons ev events start ▸ h)
    have hle := hstart _ rfl
    simp only [Option.some.injEq] at hat
    cases start with
    | none =>
      simp only [Option.elim_none] at hat hle
      refine ⟨.inr ?_, by simp, by simpa [hle] using hmax⟩
      rcases hat with rfl | ⟨ev', hev', rfl⟩
      · exact ⟨ev, by simp, rfl⟩
      · exact ⟨ev', by simp [hev'], rfl⟩
    | some i =>
      simp only [Option.elim_some] at hat hle
      refine ⟨?_, by simp; omega, ?_⟩
      · rcases hat with rfl | ⟨ev', hev', rfl⟩
        · rcases Nat.le_total i ev.index with hi | hi
          · exact .inr ⟨ev, by simp, by omega⟩
          · exact .inl (by rw [Nat.max_eq_left hi])
        · exact .inr ⟨ev', by simp [hev'], rfl⟩
      · intro ev' hev'
        rcases List.mem_cons.1 hev' with rfl | hev'
        · omega
        · exact hmax ev' hev'

theorem pruneScan_ok : ∀ {events : List AuditEvent} {leaves : List Fr} (acc : List Fr) (start : Option Nat),
    (events.filter (·.domain = d)).map (·.leafHex) = leaves.map frToHex →
    pruneScan d events acc start = .ok (acc ++ leaves, maxIndexOf (events.filter (·.domain = d)) start)
  | [], leaves, acc, start, h => by
    obtain rfl : leaves = [] := by simpa using h.symm
    simp [pruneScan, maxIndexOf]
  | ev :: events, leaves, acc, start, h => by
    have hd : (ev.deploymentId = d.1 ∧ ev.database = d.2) ↔ ev.domain = d := by
      rw [AuditEvent.domain, Prod.ext_iff]
    by_cases hev : ev.domain = d
    · cases leaves with
      | nil => simp [hev] at h
      | cons leaf leaves =>
        simp only [hev, List.filter_cons_of_pos, decide_true, List.map_cons, List.cons.injEq] at h
        have ih := pruneScan_ok (acc ++ [leaf]) (some (start.elim ev.index fun i => max i ev.index)) h.2
        rw [List.append_assoc, List.singleton_append] at ih
        rw [pruneScan, if_pos (hd.2 hev), h.1, hexToFr_frToHex, List.filter_cons_of_pos (by simpa using hev), maxIndexOf_cons,
          ← ih]
        rfl
    · rw [pruneScan, if_neg (mt hd.1 hev)]
      simp only [hev, decide_false, Bool.false_eq_true, not_false_eq_true, List.filter_cons_of_neg] at h ⊢
      exact pruneScan_ok acc start h

/-- The root that `prune_domain` retains for these leaves. -/
def retainedRoot (P : Prims) (now : Instant) (leaves : List Fr) (maxIndex : Nat) : DomainRetentionRoot :=
  ⟨rootHex P leaves, leaves.length, maxIndex, P.toRfc3339 now⟩

/-- The log without the events of a domain, and with the root for them. -/
def AuditLog.pruned (log : AuditLog) (d : Domain) (r : DomainRetentionRoot) : AuditLog :=
  { log with
    retainedDomainRoots := log.retainedDomainRoots.insert d ((log.retainedDomainRoots.lookup d).getD [] ++ [r])
    events := log.events.filter fun ev => ¬ ev.domain = d }

theorem exec_pruneDomain_idle (hscan : pruneScan (dep, db) w.log.events [] none = .ok (leaves, none)) (now : Instant) :
    (exec (Audit.pruneDomain P {} now dep db) w).2 = w := by
  unfold Audit.pruneDomain
  rw [exec_bind_ok (exec_get _), hscan]
  by_cases hhold : (dep, db) ∈ w.log.legalHolds
  · rw [if_pos hhold]
    rfl
  · rw [if_neg hhold]
    rfl

theorem exec_pruneDomain_held (hhold : (dep, db) ∈ w.log.legalHolds) (now : Instant) :
    (exec (Audit.pruneDomain P {} now dep db) w).2 = w := by
  unfold Audit.pruneDomain
  rw [exec_bind_ok (exec_get _), if_pos hhold]
  rfl

theorem exec_pruneDomain_taken (hp : w.log.persistence = some dir) (hhold : (dep, db) ∉ w.log.legalHolds)
    (hscan : pruneScan (dep, db) w.log.events [] none = .ok (leaves, some maxIndex)) (now : Instant) :
    (exec (Audit.pruneDomain P {} now dep db) w).2 =
      World.append ⟨w.log.pruned (dep, db) (retainedRoot P now leaves maxIndex), w.disk⟩ dir
        (lineBytes (P.valueToString (prunedDomainMeta dep db (retainedRoot P now leaves maxIndex)))) := by
  have hfilter : (w.log.events.filter fun ev => ¬ (ev.deploymentId = dep ∧ ev.database = db)) =
      w.log.events.filter fun ev => ¬ ev.domain = (dep, db) := by
    refine List.filter_congr fun ev _ => ?_
    simp [AuditEvent.domain]
  unfold Audit.pruneDomain
  rw [exec_bind_ok (exec_get _), if_neg hhold, hscan]
  simp only [hp]
  rw [exec_bind_ok (exec_appendLine _ _ _), exec_bind_ok (exec_modify _ _), AuditLog.pruned, ← hfilter]
  rfl

theorem log_setLegalHold (io : Io) (dep db : String) (hold : Bool) (w : World) :
    (exec (setLegalHold P io dep db hold) w).2.log = { w.log with
      legalHolds := if hold then insert (dep, db) w.log.legalHolds else w.log.legalHolds.erase (dep, db) } := by
  unfold setLegalHold
  rw [exec_bind_ok (exec_modify _ _), exec_bind_ok (exec_get _)]
  simp only
  cases w.log.persistence with
  | none => rfl
  | some d => exact (keeps_appendLine (f := World.log) (fun _ _ _ => rfl) io d _).apply _

/-- The part of `prune_domain` under the lock of the events (mod.rs:1455). -/
def pruneLocked (P : Prims) (io : Io) (now : Instant) (deploymentId database : String) : AuditM (Option DomainRetentionRoot) := do
  let w ← get
  match pruneScan (deploymentId, database) w.log.events [] none with
  | .error e => throw e
  | .ok (_, none) => return none
  | .ok (leaves, some maxIndex) =>
    let retainedRoot : DomainRetentionRoot :=
      ⟨frToHex ((⟨leaves⟩ : AuditMerkleTree 20).root P), leaves.length, maxIndex, P.toRfc3339 now⟩
    match w.log.persistence with
    | some dir => appendLine io dir (P.valueToString (prunedDomainMeta deploymentId database retainedRoot))
    | none => pure ()
    modify fun w => { w with log := { w.log with
      retainedDomainRoots := w.log.retainedDomainRoots.insert (deploymentId, database)
        ((w.log.retainedDomainRoots.lookup (deploymentId, database)).getD [] ++ [retainedRoot])
      events := w.log.events.filter fun ev => ¬ (ev.deploymentId = deploymentId ∧ ev.database = database) } }
    return some retainedRoot

theorem pruneDomain_split (io : Io) (now : Instant) (dep db : String) (w : World) :
    (exec (pruneDomain P io now dep db) w).2 =
      if (dep, db) ∈ w.log.legalHolds then w else (exec (pruneLocked P io now dep db) w).2 := by
  unfold pruneDomain pruneLocked
  rw [exec_bind_ok (exec_get _), exec_bind_ok (exec_get _)]
  by_cases hhold : (dep, db) ∈ w.log.legalHolds
  · rw [if_pos hhold, if_pos hhold]
    rfl
  · rw [if_neg hhold]
    exact (if_neg hhold).symm

theorem log_pruneLocked (io : Io) (now : Instant) (dep db : String) (w : World) :
    (exec (pruneLocked P io now dep db) w).2.log = w.log ∨
      ∃ leaves maxIndex, pruneScan (dep, db) w.log.events [] none = .ok (leaves, some maxIndex) ∧
        (exec (pruneLocked P io now dep db) w).2.log = w.log.pruned (dep, db) (retainedRoot P now leaves maxIndex) := by
  have hfilter : (w.log.events.filter fun ev => ¬ (ev.deploymentId = dep ∧ ev.database = db)) =
      w.log.events.filter fun ev => ¬ ev.domain = (dep, db) := by
    refine List.filter_congr fun ev _ => ?_
    simp [AuditEvent.domain]
  unfold pruneLocked
  rw [exec_bind_ok (exec_get _)]
  obtain e | ⟨leaves, _ | maxIndex⟩ := pruneScan (dep, db) w.log.events [] none
  · exact .inl rfl
  · exact .inl rfl
  cases w.log.persistence with
  | none =>
    refine .inr ⟨leaves, maxIndex, rfl, ?_⟩
    rw [AuditLog.pruned, ← hfilter]
    rfl
  | some d =>
    -- the line is written first: a fault there leaves the log as it was
    simp only
    generalize hline : P.valueToString (prunedDomainMeta dep db _) = line
    have hkeep := (keeps_appendLine (f := World.log) (fun _ _ _ => rfl) io d line).apply w
    cases happ : exec (appendLine io d line) w with
    | mk result w' =>
      rw [happ] at hkeep
      cases result with
      | error e =>
        rw [exec_bind_error happ]
        exact .inl hkeep
      | ok u =>
        refine .inr ⟨leaves, maxIndex, rfl, ?_⟩
        have hkeep' : w'.log = w.log := hkeep
        rw [exec_bind_ok happ, exec_bind_ok (exec_modify _ _), exec_pure, AuditLog.pruned, ← hfilter, ← hkeep']
        rfl

theorem log_pruneDomain (io : Io) (now : Instant) (dep db : String) (w : World) :
    (exec (pruneDomain P io now dep db) w).2.log = w.log ∨
      ∃ leaves maxIndex, (dep, db) ∉ w.log.legalHolds ∧ pruneScan (dep, db) w.log.events [] none = .ok (leaves, some maxIndex) ∧
        (exec (pruneDomain P io now dep db) w).2.log = w.log.pruned (dep, db) (retainedRoot P now leaves maxIndex) := by
  rw [pruneDomain_split]
  by_cases hhold : (dep, db) ∈ w.log.legalHolds
  · rw [if_pos hhold]
    exact .inl rfl
  · rw [if_neg hhold]
    rcases log_pruneLocked (P := P) io now dep db w with h | ⟨leaves, maxIndex, hscan, h⟩
    · exact .inl h
    · exact .inr ⟨leaves, maxIndex, hhold, hscan, h⟩

theorem pruneScan_some : ∀ {events : List AuditEvent} {leaves leaves' : List Fr},
    pruneScan d events leaves none = .ok (leaves', some m) → ∃ ev ∈ events, ev.domain = d
  | [], leaves, leaves', h => by simp [pruneScan] at h
  | ev :: events, leaves, leaves', h => by
    by_cases hev : ev.deploymentId = d.1 ∧ ev.database = d.2
    · exact ⟨ev, List.mem_cons_self, Prod.ext hev.1 hev.2⟩
    · rw [pruneScan, if_neg hev] at h
      obtain ⟨ev', hmem, hd⟩ := pruneScan_some h
      exact ⟨ev', List.mem_cons_of_mem _ hmem, hd⟩

theorem Restorable.pruneDomain (hl : P.LawfulLines) (h : Restorable P key dir w ls)
    (hindex : maxIndexOf (w.log.events.filter (·.domain = (dep, db))) none = some maxIndex) (now : Instant) :
    Restorable P key dir (World.append ⟨w.log.pruned (dep, db) (retainedRoot P now leaves maxIndex), w.disk⟩ dir
        (lineBytes (P.valueToString (prunedDomainMeta dep db (retainedRoot P now leaves maxIndex)))))
      (ls ++ [.metadata (prunedDomainMeta dep db (retainedRoot P now leaves maxIndex))]) := by
  generalize hr : retainedRoot P now leaves maxIndex = r
  have hrmax : r.maxIndex = maxIndex := by rw [← hr]; rfl
  have hevs : eventsOf (ls ++ [.metadata (prunedDomainMeta dep db r)]) = eventsOf ls := by simp [eventsOf_append]
  obtain ⟨hat, _, hmax⟩ := maxIndexOf_eq_some hindex
  obtain ⟨ev, hev, hevmax⟩ := hat.resolve_left (by simp)
  obtain ⟨hmem, hdom⟩ : ev ∈ w.log.events ∧ ev.domain = (dep, db) := by simpa using hev
  -- the roots retained so far end before the active events
  have hold : ∀ r' ∈ (w.log.retainedDomainRoots.lookup (dep, db)).getD [], r'.maxIndex < r.maxIndex := by
    intro r' hr'
    rw [hrmax, ← hevmax]
    refine (mem_applyRetention.1 (h.events ▸ hmem)).2 r' ?_
    rwa [hdom]
  refine ⟨h.toFiled.metadata (.prunedDomain dep db r) rfl rfl rfl rfl, ?_, ?_, ?_, ?_⟩
  · rw [List.map_append, List.map_singleton, metadataLines_concat, h.metadata]
    refine (metadataLine_prunedDomain hl _ dep db r).trans ?_
    have hknown : ((w.log.retainedDomainRoots.lookup (dep, db)).getD []).any
        (fun r' => r'.maxIndex = r.maxIndex && r'.rootHex = r.rootHex) = false := by
      rw [List.any_eq_false]
      intro r' hr'
      have := hold r' hr'
      simp
      omega
    simp only [Metadata.retain, hknown]
    rfl
  · rw [hevs]
    exact h.sequences
  · rw [hevs]
    refine Eq.trans ?_ (applyRetention_insert fun ev' hev' hd' => ?_).symm
    · rw [← h.events]
      rfl
    · rw [← h.events] at hev'
      rw [hrmax]
      exact hmax ev' (by simpa using ⟨hev', hd'⟩)
  · intro d r' hr'
    rw [hevs]
    by_cases hd : d = (dep, db)
    · subst hd
      have hcases : r' ∈ (w.log.retainedDomainRoots.lookup (dep, db)).getD [] ∨ r' = r := by
        simpa [World.append, World.setDir, AuditLog.pruned] using hr'
      rcases hcases with hr' | rfl
      · exact h.bounded _ r' hr'
      · rw [hrmax, ← hevmax]
        exact h.index_lt hmem
    · refine h.bounded d r' ?_
      simpa [World.append, World.setDir, AuditLog.pruned, Finmap.lookup_insert_of_ne _ hd] using hr'

theorem Restorable.log_clear (h : Restorable P key dir w ls) :
    (exec (Audit.clear {}) w).2.log = { w.log with
      tree := .empty, events := [], sequences := ∅, legalHolds := ∅, retainedDomainRoots := ∅ } := by
  unfold Audit.clear
  rw [exec_bind_ok (exec_modify _ _), exec_bind_ok (exec_get _)]
  simp only [h.sledStore, h.persistence]
  rw [exec_bind_ok (exec_check_none _ _), exec_bind_ok (exec_modify _ _), exec_bind_ok (exec_check_none _ _),
    exec_bind_ok (exec_modify _ _), exec_check_none]
  rfl

theorem Restorable.clear (h : Restorable P key dir w ls) :
    Restorable P key dir (exec (clear {}) w).2 [] := by
  have hlog := h.log_clear
  refine ⟨h.toFiled.clear, ?_, ?_, ?_, ?_⟩
  · rw [hlog]
    rfl
  · rw [hlog]
    rfl
  · rw [hlog]
    rfl
  · rw [hlog]
    intro d r hr
    exact absurd hr (by simp)

/-- **A restart** gives back the active events, the retained roots and the holds. -/
theorem Restorable.restart (hl : P.LawfulLines) (h : Restorable P key dir w ls) :
    Restorable P key dir (exec (setPersistenceDir P {} dir) (World.start key w.disk)).2 ls ∧
      (exec (setPersistenceDir P {} dir) (World.start key w.disk)).2.log.events = w.log.events ∧
      (exec (setPersistenceDir P {} dir) (World.start key w.disk)).2.log.retainedDomainRoots = w.log.retainedDomainRoots ∧
      (exec (setPersistenceDir P {} dir) (World.start key w.disk)).2.log.legalHolds = w.log.legalHolds := by
  have hfiled := h.toFiled.restart hl
  obtain ⟨log, hback, hexec⟩ := h.toFiled.readBack hl
  rw [hexec] at hfiled ⊢
  have hmeta := h.metadata
  have hholds : log.legalHolds = w.log.legalHolds := by rw [hback.legalHolds, hmeta]
  have hretained : log.retainedDomainRoots = w.log.retainedDomainRoots := by rw [hback.retained, hmeta]
  have hevents : log.events = w.log.events := by rw [hback.events, hretained, h.events]
  refine ⟨⟨hfiled, ?_, hback.sequences, hback.events, ?_⟩, hevents, hretained, hholds⟩
  · rw [hmeta, ← hholds, ← hretained]
    rfl
  · show ∀ d, ∀ r ∈ (log.retainedDomainRoots.lookup d).getD [], _
    rw [hretained]
    exact h.bounded

end

end Audit
