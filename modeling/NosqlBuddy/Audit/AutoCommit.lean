import NosqlBuddy.Audit.EpochSync

/-!
# The auto-commit loop

`auto_commit_loop` (auditd/mod.rs:427) runs beside the change-stream listener of the daemon. It reads
`last_event_count`, synchronises the open epoch, and then polls: it reads `event_count` and feeds the
indices from `last_event_count` on into the epochs. The synchronisation reads `event_count` once more
(epoch.rs:495); what the listener recorded between the two reads is counted by the synchronisation and
fed again by the first poll.

| here | there |
| --- | --- |
| `LoopState` | where the loop is, with its local variables |
| `DaemonStep` | a step of the loop, a record call of the listener, or what `publish_and_commit` (mod.rs:630) does to the epochs while the loop waits for it |

`fed_once_iff`: every leaf is counted once in every state of a run exactly when the synchronisation
finds as many events as the read before it, and as many as there are leaves.
-/

namespace Audit
open Mutation

/-! ## Epochs with the same bounds -/

/-- The part of an epoch that the boundaries depend on. -/
def Epoch.bounds (e : Epoch) : Nat × Nat × Option Nat × Nat := (e.epochNumber, e.startIndex, e.endIndex, e.eventCount)

/-- The lists differ in the commitment and oplog fields only. -/
def EpochList.SameBounds (es es' : EpochList) : Prop :=
  es'.earlier.map Epoch.bounds = es.earlier.map Epoch.bounds ∧ es'.last.bounds = es.last.bounds

namespace EpochList.SameBounds

theorem refl (es : EpochList) : SameBounds es es := ⟨rfl, rfl⟩

theorem boundaries (h : SameBounds es es') (hb : Boundaries es) : Boundaries es' := by
  obtain ⟨hearlier, hlast⟩ := h
  simp only [Epoch.bounds, Prod.mk.injEq] at hlast
  have hlen : es'.earlier.length = es.earlier.length := by simpa using congrArg List.length hearlier
  have hmap : ∀ {β : Type} (f : Nat × Nat × Option Nat × Nat → β),
      es'.earlier.map (f ∘ Epoch.bounds) = es.earlier.map (f ∘ Epoch.bounds) := by
    intro β f
    rw [← List.map_map, hearlier, List.map_map]
  refine ⟨fun e he => ?_, hlast.2.2.1.trans hb.last_open, ?_, ?_⟩
  · have hmem : e.bounds ∈ es.earlier.map Epoch.bounds := hearlier ▸ List.mem_map_of_mem he
    obtain ⟨e0, he0, hbounds⟩ := List.mem_map.1 hmem
    simp only [Epoch.bounds, Prod.mk.injEq] at hbounds
    rw [← hbounds.2.1, ← hbounds.2.2.1, ← hbounds.2.2.2]
    exact hb.closed e0 he0
  · rw [hlast.1, hlen]
    exact ⟨(hmap fun b => b.1).trans hb.numbers.1, hb.numbers.2⟩
  · rw [hlast.2.1]
    have hranges : es'.earlier.map Epoch.leafRange = es.earlier.map Epoch.leafRange :=
      hmap fun b => (b.2.1, (b.2.2.1.map (· + 1)).getD b.2.1)
    rw [hranges]
    exact hb.adjacent

theorem covers (h : SameBounds es es') (hc : Covers n es) : Covers n es' := by
  have hlast := h.2
  simp only [Epoch.bounds, Prod.mk.injEq] at hlast
  refine covers_iff.2 ⟨h.boundaries hc.toBoundaries, ?_⟩
  rw [hlast.2.1, hlast.2.2.2]
  exact hc.counted

theorem updateFirst (hf : ∀ e, (f e).bounds = e.bounds) (n : Nat) : ∀ es : List Epoch,
    (EpochList.updateFirst n f es).map Epoch.bounds = es.map Epoch.bounds
  | [] => rfl
  | e :: es => by
    rw [EpochList.updateFirst]
    split
    · simp [hf]
    · simp [updateFirst hf n es]

theorem update (hf : ∀ e, (f e).bounds = e.bounds) (n : Nat) (es : EpochList) :
    SameBounds es (es.update n f) := by
  unfold EpochList.update
  split
  · exact ⟨updateFirst hf n es.earlier, rfl⟩
  · split
    · exact ⟨rfl, hf es.last⟩
    · exact refl es

end EpochList.SameBounds

theorem sameBounds_attach (s : EpochStore) (io : EpochIo) (n : Nat) (r : OplogRange) :
    s.manager.epochs.SameBounds (exec (attachOplogHash io n r) s).2.manager.epochs := by
  unfold attachOplogHash
  rw [exec_bind_ok (exec_get s)]
  cases s.manager.epochs.find n with
  | none => exact .refl _
  | some e =>
    simp only
    split
    · exact .refl _
    · rw [exec_bind_ok (exec_modify _ _), exec_bind_pure_snd, (keeps_save io).apply]
      exact EpochList.SameBounds.update (f := Epoch.attach r) (fun _ => rfl) n _

theorem sameBounds_markCommitted (s : EpochStore) (io : EpochIo) (n : Nat) (now txHash : String) :
    s.manager.epochs.SameBounds (exec (markCommitted io n now txHash) s).2.manager.epochs := by
  unfold markCommitted
  rw [exec_bind_ok (exec_get s)]
  cases s.manager.epochs.find n with
  | none => exact .refl _
  | some e =>
    simp only
    rw [exec_bind_ok (exec_modify _ _), (keeps_save io).apply]
    exact EpochList.SameBounds.update (f := Epoch.commit now txHash) (fun _ => rfl) n _

/-! ## The daemon -/

inductive LoopState where
  /-- before the first read -/
  | boot
  /-- `last_event_count` is read, the synchronisation comes next -/
  | baseline (last : Nat)
  /-- at the sleep of the poll loop -/
  | waiting (last : Nat)
  /-- in the `for` over the indices below `current`, before `next` -/
  | feeding (next current : Nat)
deriving DecidableEq, Repr

structure Daemon where
  service : Service
  loop : LoopState

namespace Daemon

def epochs (d : Daemon) : EpochList := d.service.epochs

def eventCount (d : Daemon) : Nat := d.service.world.log.eventCount

def leafCount (d : Daemon) : Nat := d.service.world.log.leafCount

end Daemon

inductive DaemonStep where
  | listener (call : RecordCall) (io : Io)
  | loop (io : EpochIo)
  | attachOplogHash (epochNumber : Nat) (r : OplogRange) (io : EpochIo)
  | markCommitted (epochNumber : Nat) (now txHash : String) (io : EpochIo)

/-- The daemon with another state of the epoch manager. -/
def Daemon.withStore (d : Daemon) (store : EpochStore) : Daemon := { d with service := { d.service with store := store } }

/-- The next step of `auto_commit_loop`. Errors of the manager are logged. -/
def stepLoop (d : Daemon) (io : EpochIo) : Daemon :=
  let log := d.service.world.log
  match d.loop with
  | .boot => { d with loop := .baseline log.eventCount }
  | .baseline last =>
    { d.withStore (exec (syncOpenEpochWithAuditLog io log) d.service.store).2 with loop := .waiting last }
  | .waiting last => if log.eventCount = last then d else { d with loop := .feeding last log.eventCount }
  | .feeding next current =>
    if next < current then
      { d.withStore (exec (recordEvent io next log) d.service.store).2 with loop := .feeding (next + 1) current }
    else { d with loop := .waiting current }

def stepDaemon (P : Prims) (d : Daemon) : DaemonStep → Daemon
  | .listener call io => { d with service := { d.service with world := (exec (call.run P io) d.service.world).2 } }
  | .loop io => stepLoop d io
  | .attachOplogHash n r io => d.withStore (exec (attachOplogHash io n r) d.service.store).2
  | .markCommitted n now tx io => d.withStore (exec (markCommitted io n now tx) d.service.store).2

/-- Once the loop is running, every leaf below its position is counted once, and when it finds nothing
new every leaf of the log is. -/
def FedOnce (d : Daemon) : Prop :=
  match d.loop with
  | .boot => True
  | .baseline _ => True
  | .waiting last => Covers last d.epochs ∧ (d.eventCount = last → Covers d.leafCount d.epochs)
  | .feeding next _ => Covers next d.epochs

/-- The synchronisation finds the events of the read before it, and no event is missing from the log. -/
def SyncsAtBaseline (d : Daemon) : DaemonStep → Prop
  | .loop _ =>
    match d.loop with
    | .baseline last => d.eventCount = last ∧ d.eventCount = d.leafCount
    | _ => True
  | _ => True

/-- The state of the daemon, with what the local variables of the loop stand for. -/
def Tracking (d : Daemon) : Prop :=
  match d.loop with
  | .boot => ∃ m ≤ d.leafCount, Covers m d.epochs
  | .baseline last => (∃ m ≤ d.leafCount, Covers m d.epochs) ∧ last ≤ d.eventCount
  | .waiting last => Covers last d.epochs ∧ last ≤ d.eventCount ∧ d.eventCount = d.leafCount
  | .feeding next current => Covers next d.epochs ∧ next ≤ current ∧ current ≤ d.eventCount ∧ d.eventCount = d.leafCount

theorem Tracking.fedOnce (h : Tracking d) : FedOnce d := by
  unfold Tracking at h
  unfold FedOnce
  split at h
  · trivial
  · trivial
  · obtain ⟨hc, _, he⟩ := h
    exact ⟨hc, fun hl => by rw [← he, hl]; exact hc⟩
  · exact h.1

section
variable {P : Prims}

theorem counts_run (call : RecordCall) (io : Io) (w : World) : ∃ k, (exec (call.run P io) w).2.log.eventCount = w.log.eventCount + k ∧
    (exec (call.run P io) w).2.log.leafCount = w.log.leafCount + k := by
  rcases log_run (P := P) call io w with hlog | ⟨e, _, hlog⟩
  · exact ⟨0, by rw [hlog]; rfl, by rw [hlog]; rfl⟩
  · refine ⟨1, ?_, ?_⟩
    · rw [hlog]
      simp [AuditLog.eventCount, AuditLog.push]
    · rw [hlog]
      simp [AuditLog.leafCount, AuditMerkleTree.leafCount, AuditLog.push, AuditMerkleTree.insert]

theorem tracking_listener (h : Tracking d) (call : RecordCall) (io : Io) :
    Tracking (stepDaemon P d (.listener call io)) := by
  obtain ⟨⟨w, store⟩, loop⟩ := d
  obtain ⟨k, hevents, hleaves⟩ := counts_run (P := P) call io w
  unfold Tracking at h ⊢
  simp only [stepDaemon, Daemon.epochs, Daemon.eventCount, Daemon.leafCount, Service.epochs, hevents, hleaves] at h ⊢
  cases loop with
  | boot =>
    obtain ⟨m, hm, hc⟩ := h
    exact ⟨m, by omega, hc⟩
  | baseline last =>
    obtain ⟨⟨m, hm, hc⟩, hle⟩ := h
    exact ⟨⟨m, by omega, hc⟩, by omega⟩
  | waiting last => exact ⟨h.1, by omega, by omega⟩
  | feeding next current => exact ⟨h.1, h.2.1, by omega, by omega⟩

theorem tracking_withStore (h : Tracking d) (hs : d.service.store.manager.epochs.SameBounds store.manager.epochs) : Tracking (d.withStore store) := by
  obtain ⟨⟨w, s⟩, loop⟩ := d
  have hcov : ∀ {n : Nat}, Covers n s.manager.epochs → Covers n store.manager.epochs := fun hc => hs.covers hc
  unfold Tracking at h ⊢
  simp only [Daemon.withStore, Daemon.epochs, Daemon.eventCount, Daemon.leafCount, Service.epochs] at h ⊢
  cases loop with
  | boot =>
    obtain ⟨m, hm, hc⟩ := h
    exact ⟨m, hm, hcov hc⟩
  | baseline last =>
    obtain ⟨⟨m, hm, hc⟩, hle⟩ := h
    exact ⟨⟨m, hm, hcov hc⟩, hle⟩
  | waiting last => exact ⟨hcov h.1, h.2⟩
  | feeding next current => exact ⟨hcov h.1, h.2⟩

/-- **Feeding the next leaf** counts it, also when the epoch cannot be closed. -/
theorem covers_recordEvent (h : Covers n s.manager.epochs) (io : EpochIo) (log : AuditLog) :
    Covers (n + 1) (exec (recordEvent io n log) s).2.manager.epochs := by
  have hnext : (s.manager.epochs.setCount (s.manager.epochs.last.eventCount + 1)).last.startIndex +
      (s.manager.epochs.setCount (s.manager.epochs.last.eventCount + 1)).last.eventCount = n + 1 := by
    show s.manager.epochs.last.startIndex + (s.manager.epochs.last.eventCount + 1) = n + 1
    rw [← Nat.add_assoc, h.counted]
  have hb := boundaries_setCount (n := s.manager.epochs.last.eventCount + 1).2 h.toBoundaries
  rw [epochs_recordEvent h.toBoundaries.isOpen]
  split
  · exact hb.closedAt hnext _
  · exact covers_iff.2 ⟨hb, hnext⟩

theorem fedOnce_sync (hle : last ≤ w.log.eventCount)
    (hm : m ≤ w.log.leafCount) (hc : Covers m store.manager.epochs) (io : EpochIo) :
    (FedOnce (stepLoop ⟨⟨w, store⟩, .baseline last⟩ io) ↔
      w.log.eventCount = last ∧ w.log.eventCount = w.log.leafCount) ∧
    (FedOnce (stepLoop ⟨⟨w, store⟩, .baseline last⟩ io) → Tracking (stepLoop ⟨⟨w, store⟩, .baseline last⟩ io)) := by
  have hsync := covers_sync io w.log hc.toBoundaries
  have hstart := hc.counted
  have hcount : store.manager.epochs.syncCount w.log = w.log.eventCount - store.manager.epochs.last.startIndex := rfl
  have hiff : FedOnce (stepLoop ⟨⟨w, store⟩, .baseline last⟩ io) ↔
      w.log.eventCount = last ∧ w.log.eventCount = w.log.leafCount := by
    constructor
    · rintro ⟨hcov, hall⟩
      have hlast := hsync.unique hcov
      have heq : w.log.eventCount = last := by omega
      have hleaf : _ = w.log.leafCount := hsync.unique (hall heq)
      exact ⟨heq, by omega⟩
    · rintro ⟨rfl, hleaf⟩
      have hpos : store.manager.epochs.last.startIndex + store.manager.epochs.syncCount w.log = w.log.eventCount := by omega
      rw [hpos] at hsync
      exact ⟨hsync, fun _ => hleaf ▸ hsync⟩
  refine ⟨hiff, fun h => ⟨h.1, ?_, (hiff.1 h).2⟩⟩
  show last ≤ w.log.eventCount
  exact (hiff.1 h).1.ge

theorem tracking_loop (h : Tracking d) (hn : ∀ last, d.loop ≠ .baseline last) (io : EpochIo) :
    Tracking (stepLoop d io) := by
  obtain ⟨⟨w, store⟩, loop⟩ := d
  unfold Tracking at h
  cases loop with
  | boot => exact ⟨h, Nat.le_refl _⟩
  | baseline last => exact absurd rfl (hn last)
  | waiting last =>
    by_cases hl : w.log.eventCount = last
    · simp only [stepLoop, hl, if_true]
      exact h
    · simp only [stepLoop, hl, if_false]
      exact ⟨h.1, h.2.1, Nat.le_refl _, h.2.2⟩
  | feeding next current =>
    obtain ⟨hc, hle, hcur, hev⟩ := h
    by_cases hlt : next < current
    · simp only [stepLoop, hlt, if_true]
      exact ⟨covers_recordEvent hc io w.log, hlt, hcur, hev⟩
    · have heq : next = current := by omega
      subst heq
      simp only [stepLoop, Nat.lt_irrefl, if_false]
      exact ⟨hc, hcur, hev⟩

/-- **One step** of the daemon leads to a state in which every leaf is counted once exactly when it meets
its condition. -/
theorem fedOnce_step (h : Tracking d) (a : DaemonStep) :
    (FedOnce (stepDaemon P d a) ↔ SyncsAtBaseline d a) ∧ (SyncsAtBaseline d a → Tracking (stepDaemon P d a)) := by
  have hkeep : Tracking (stepDaemon P d a) → SyncsAtBaseline d a →
      (FedOnce (stepDaemon P d a) ↔ SyncsAtBaseline d a) ∧ (SyncsAtBaseline d a → Tracking (stepDaemon P d a)) :=
    fun ht hs => ⟨⟨fun _ => hs, fun _ => ht.fedOnce⟩, fun _ => ht⟩
  cases a with
  | listener call io => exact hkeep (tracking_listener h call io) trivial
  | attachOplogHash n r io => exact hkeep (tracking_withStore h (sameBounds_attach _ io n r)) trivial
  | markCommitted n now tx io => exact hkeep (tracking_withStore h (sameBounds_markCommitted _ io n now tx)) trivial
  | loop io =>
    obtain ⟨⟨w, store⟩, loop⟩ := d
    cases loop with
    | baseline last =>
      obtain ⟨⟨m, hm, hc⟩, hle⟩ := h
      obtain ⟨hiff, htrack⟩ := fedOnce_sync hle hm hc io
      exact ⟨hiff, fun hs => htrack (hiff.2 hs)⟩
    | boot => exact hkeep (tracking_loop h (fun _ => by simp) io) trivial
    | waiting last => exact hkeep (tracking_loop h (fun _ => by simp) io) trivial
    | feeding next current => exact hkeep (tracking_loop h (fun _ => by simp) io) trivial

/-- **The auto-commit loop feeds each event once**: from epochs that cover some of the leaves, in every
state of every interleaving with the listener, exactly when the synchronisation finds the events of the
read before it and no event is missing from the log. -/
theorem fed_once_iff (P : Prims) (w : World) (store : EpochStore) (m : Nat) (hm : m ≤ w.log.leafCount)
    (hc : Covers m store.manager.epochs) (steps : List DaemonStep) :
    (∀ pre, pre <+: steps → FedOnce (Runs.run (stepDaemon P) ⟨⟨w, store⟩, .boot⟩ pre)) ↔
      Runs.Guarded (stepDaemon P) SyncsAtBaseline ⟨⟨w, store⟩, .boot⟩ steps := by
  have hboot : Tracking ⟨⟨w, store⟩, .boot⟩ := ⟨m, hm, hc⟩
  exact (Runs.guarded_iff_good (I := Tracking) (Q := FedOnce) (fun _ => Tracking.fedOnce)
    (fun _ a h => (fedOnce_step h a).2) (fun _ a h => (fedOnce_step h a).1) hboot).symm

/-! ### Start-up -/

/-- A new log, and a new manager that closes epochs of two events. -/
def demoDaemon : Daemon := ⟨⟨World.start none emptyDisk, ⟨EpochManager.new ⟨2, 0⟩, fun _ => .missing⟩⟩, .boot⟩

/-- An insert before start-up and one after it. -/
theorem started_fed_once : Covers 0 (EpochManager.new ⟨2, 0⟩).epochs ∧ ∀ pre, pre <+:
      [.listener (demoInsert "insert|shop|orders|1") {}, .loop {}, .loop {}, .listener (demoInsert "insert|shop|orders|2") {},
        .loop {}, .loop {}] → FedOnce (Runs.run (stepDaemon demoPrims) demoDaemon pre) := by
  have hnew : Covers 0 (EpochManager.new ⟨2, 0⟩).epochs := covers_iff.2 ⟨boundaries_new, rfl⟩
  refine ⟨hnew, (fed_once_iff demoPrims (World.start none emptyDisk) ⟨EpochManager.new ⟨2, 0⟩, fun _ => .missing⟩ 0
    (Nat.zero_le _) hnew _).2 ?_⟩
  have hlog := @log_demoInsert (World.start none emptyDisk) rfl "insert|shop|orders|1"
  refine ⟨trivial, trivial, ⟨rfl, ?_⟩, trivial, trivial, trivial, trivial⟩
  show List.length _ = List.length _
  exact (congrArg (fun l => l.events.length) hlog).trans (congrArg (fun l => l.tree.leaves.length) hlog).symm

/-- A log with one event that is synchronised after the read of zero, and the first poll: the daemon
after the three steps of the loop. -/
theorem poll_after_sync (hcount : w.log.eventCount = 1)
    (hroot : w.log.rootAfterAt 0 = some root) :
    (stepLoop (stepLoop (stepLoop ⟨⟨w, demoDaemon.service.store⟩, .baseline 0⟩ {}) {}) {}).loop = .feeding 1 1 ∧
    (stepLoop (stepLoop (stepLoop ⟨⟨w, demoDaemon.service.store⟩, .baseline 0⟩ {}) {}) {}).epochs =
      ⟨[((Epoch.new 0 0).setCount 2).freeze 0 root], Epoch.new 1 1⟩ := by
  have hsync : exec (syncOpenEpochWithAuditLog {} w.log) demoDaemon.service.store =
      (.ok none, demoDaemon.service.store.setLast ((Epoch.new 0 0).setCount 1)) := by
    unfold syncOpenEpochWithAuditLog
    rw [exec_bind_ok (exec_get _), hcount]
    rfl
  have hfeed : (exec (recordEvent {} 0 w.log) (demoDaemon.service.store.setLast ((Epoch.new 0 0).setCount 1))).2.manager.epochs =
      ⟨[((Epoch.new 0 0).setCount 2).freeze 0 root], Epoch.new 1 1⟩ := by
    rw [epochs_recordEvent rfl, hroot]
    rfl
  simp only [stepLoop, hsync, Daemon.withStore, hcount]
  exact ⟨rfl, hfeed⟩

/-- An insert that arrives between the first read and the synchronisation is counted by the
synchronisation and once more by the first poll: an epoch of one leaf closes with a count of two. -/
theorem early_insert_fed_twice : (∃ e ∈ (Runs.run (stepDaemon demoPrims) demoDaemon
      [.loop {}, .listener (demoInsert "insert|shop|orders|1") {}, .loop {}, .loop {}, .loop {}]).epochs.earlier,
        e.startIndex = 0 ∧ e.endIndex = some 0 ∧ e.eventCount = 2) ∧
    ¬ FedOnce (Runs.run (stepDaemon demoPrims) demoDaemon
      [.loop {}, .listener (demoInsert "insert|shop|orders|1") {}, .loop {}, .loop {}, .loop {}]) := by
  have hlog := @log_demoInsert (World.start none emptyDisk) rfl "insert|shop|orders|1"
  obtain ⟨hloop, hes⟩ := poll_after_sync
    (w := stepCall demoPrims (World.start none emptyDisk) ⟨demoInsert "insert|shop|orders|1", {}⟩)
    (congrArg (fun l => l.events.length) hlog) (congrArg (fun l => l.rootAfterAt 0) hlog)
  have hrun : Runs.run (stepDaemon demoPrims) demoDaemon
      [.loop {}, .listener (demoInsert "insert|shop|orders|1") {}, .loop {}, .loop {}, .loop {}] =
      stepLoop (stepLoop (stepLoop ⟨⟨stepCall demoPrims (World.start none emptyDisk) ⟨demoInsert "insert|shop|orders|1", {}⟩,
        demoDaemon.service.store⟩, .baseline 0⟩ {}) {}) {} := rfl
  rw [hrun]
  generalize stepLoop (stepLoop (stepLoop _ {}) {}) {} = d at hloop hes ⊢
  refine ⟨hes ▸ ⟨_, List.mem_singleton_self _, rfl, rfl, rfl⟩, fun hfed => ?_⟩
  unfold FedOnce at hfed
  rw [hloop, hes] at hfed
  obtain ⟨i, hi, hcount⟩ := hfed.closed _ (List.mem_singleton_self _)
  obtain rfl : 0 = i := Option.some.inj hi
  simp [Epoch.freeze, Epoch.setCount, Epoch.new] at hcount

end

end Audit
