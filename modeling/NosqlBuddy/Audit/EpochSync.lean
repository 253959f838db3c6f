import NosqlBuddy.Audit.EpochPartition

/-!
# Bringing the open epoch up to date

At start-up `sync_open_epoch_with_audit_log` (epoch.rs:478) sets the count of the open epoch to
`event_count() - start_index` and ends the epoch when that reaches the threshold. `start_index` is a
leaf index; `event_count` (mod.rs:1128) is the number of events in memory, from which `prune_domain`
(mod.rs:1446) and the replay of a pruned log take events away while their leaves stay in the tree.

`Covers n` says that the epochs count each of the first `n` leaves once. `sync_covers_iff`: from epochs
that cover some of the leaves, the synchronisation arrives at all of them exactly when no event is
missing, or the open epoch starts after the last leaf.
-/

namespace Audit
open Mutation Tiling

/-- The epochs count each of the first `n` leaves once: in a closed epoch, or in the open one. -/
structure Covers (n : Nat) (es : EpochList) : Prop extends Boundaries es where
  counted : es.last.startIndex + es.last.eventCount = n
  once : ∀ i < n, es.earlier.countP (Epoch.holds i) + (if es.last.startIndex ≤ i then 1 else 0) = 1

variable {es : EpochList} {n : Nat}

theorem covers_iff :
    Covers n es ↔ Boundaries es ∧ es.last.startIndex + es.last.eventCount = n := by
  constructor
  · intro h
    exact ⟨h.toBoundaries, h.counted⟩
  · rintro ⟨hb, hn⟩
    refine ⟨hb, hn, fun i _ => ?_⟩
    have hcount := hb.adjacent.count i
    rw [List.countP_map] at hcount
    show es.earlier.countP (Range.covers i ∘ Epoch.leafRange) + _ = 1
    rw [hcount]
    by_cases hi : i < es.last.startIndex
    · have hle : ¬ es.last.startIndex ≤ i := by omega
      simp [hi, hle]
    · have hle : es.last.startIndex ≤ i := by omega
      simp [hi, hle]

theorem Covers.unique (hn : Covers n es) (hm : Covers m es) : n = m :=
  hn.counted.symm.trans hm.counted

theorem Boundaries.setCount (h : Boundaries es) (n : Nat) :
    Covers (es.last.startIndex + n) (es.setCount n) := covers_iff.2 ⟨boundaries_setCount.2 h, rfl⟩

theorem Boundaries.closedAt (h : Boundaries es) (hi : es.last.startIndex + es.last.eventCount = i + 1) (root : Option String) : Covers (i + 1) (es.closedAt i root) := by
  cases root with
  | none => exact covers_iff.2 ⟨h, hi⟩
  | some root => exact covers_iff.2 ⟨(boundaries_closedAt h i root).2 hi, rfl⟩

/-! ## The synchronisation -/

section
variable {s : EpochStore} {io : EpochIo} {log : AuditLog}

/-- The count that the synchronisation gives the open epoch. -/
def EpochList.syncCount (es : EpochList) (log : AuditLog) : Nat := log.eventCount - es.last.startIndex

theorem epochs_sync (hopen : s.manager.epochs.last.isOpen = true) :
    (exec (syncOpenEpochWithAuditLog io log) s).2.manager.epochs =
      if s.manager.shouldClose (s.manager.epochs.syncCount log) then
        (s.manager.epochs.setCount (s.manager.epochs.syncCount log)).closedAt
          (s.manager.epochs.last.startIndex + s.manager.epochs.syncCount log - 1)
          (log.rootAfterAt (s.manager.epochs.last.startIndex + s.manager.epochs.syncCount log - 1))
      else s.manager.epochs.setCount (s.manager.epochs.syncCount log) := by
  have hnew : (if log.eventCount > s.manager.epochs.last.startIndex then
      log.eventCount - s.manager.epochs.last.startIndex else 0) = s.manager.epochs.syncCount log := by
    unfold EpochList.syncCount
    split <;> omega
  unfold syncOpenEpochWithAuditLog
  rw [exec_bind_ok (exec_get s)]
  simp only [hopen, not_true_eq_false, if_false, hnew, Epoch.setCount_startIndex]
  rw [exec_bind_ok (exec_modify _ _)]
  by_cases hclose : s.manager.shouldClose (s.manager.epochs.syncCount log) = true
  · simp only [hclose, if_true]
    rw [exec_bind_pure_snd]
    exact epochs_closeAt s _ _
  · simp only [hclose, Bool.false_eq_true, if_false]
    rw [exec_bind_pure_snd, (keeps_save io).apply]
    rfl

theorem shouldClose_pos {m : EpochManager} (h : m.shouldClose n = true) : 0 < n := by
  simp only [EpochManager.shouldClose, decide_eq_true_eq] at h
  omega

/-- Whatever it finds, the synchronisation leaves epochs that cover as many leaves as it saw events, or
those of the closed epochs. -/
theorem covers_sync (io : EpochIo) (log : AuditLog) (h : Boundaries s.manager.epochs) :
    Covers (s.manager.epochs.last.startIndex + s.manager.epochs.syncCount log)
      (exec (syncOpenEpochWithAuditLog io log) s).2.manager.epochs := by
  rw [epochs_sync h.isOpen]
  split
  · next hclose =>
    have hpos := shouldClose_pos hclose
    have hend : s.manager.epochs.last.startIndex + s.manager.epochs.syncCount log - 1 + 1 =
      s.manager.epochs.last.startIndex + s.manager.epochs.syncCount log := by omega
    have hcov := (boundaries_setCount (n := s.manager.epochs.syncCount log).2 h).closedAt hend.symm
      (log.rootAfterAt (s.manager.epochs.last.startIndex + s.manager.epochs.syncCount log - 1))
    rw [hend] at hcov
    exact hcov
  · exact h.setCount _

end

/-- What a synchronisation is meant to arrive at: the open epoch counts up to the last leaf, or it was
closed there and an empty one starts after it. -/
def SyncedTo (leafCount : Nat) (es es' : EpochList) : Prop :=
  Covers leafCount es' ∧
    ((es'.earlier = es.earlier ∧ es'.last.startIndex = es.last.startIndex ∧
        es'.last.eventCount = leafCount - es'.last.startIndex) ∨
      ∃ closed, es'.earlier = es.earlier ++ [closed] ∧ closed.startIndex = es.last.startIndex ∧
        closed.endIndex = some (leafCount - 1) ∧ es'.last.startIndex = leafCount ∧ es'.last.eventCount = 0)

theorem syncedTo_iff {s : EpochStore} (io : EpochIo) (log : AuditLog) (h : Boundaries s.manager.epochs) :
    SyncedTo log.leafCount s.manager.epochs (exec (syncOpenEpochWithAuditLog io log) s).2.manager.epochs ↔
      s.manager.epochs.last.startIndex + s.manager.epochs.syncCount log = log.leafCount := by
  have hcov := covers_sync io log h
  constructor
  · rintro ⟨hc, _⟩
    exact hcov.unique hc
  · intro hn
    rw [hn] at hcov
    refine ⟨hcov, ?_⟩
    rw [epochs_sync h.isOpen]
    split
    · next hclose =>
      have hpos := shouldClose_pos hclose
      rw [hn]
      cases log.rootAfterAt (log.leafCount - 1) with
      | none => exact .inl ⟨rfl, rfl, by rw [← hn]; show _ = _; simp [EpochList.closedAt, EpochList.setCount]⟩
      | some root =>
        refine .inr ⟨_, rfl, rfl, rfl, ?_, rfl⟩
        show log.leafCount - 1 + 1 = log.leafCount
        omega
    · exact .inl ⟨rfl, rfl, by rw [← hn]; simp [EpochList.setCount]⟩

/-- **Restart synchronisation.** From epochs that cover the first `m` leaves of a log, the
synchronisation covers all leaves exactly when no event is missing from the log, or the open epoch
starts after the last leaf. -/
theorem sync_covers_iff (log : AuditLog) (s : EpochStore) (io : EpochIo) (m : Nat) (hm : m ≤ log.leafCount)
    (hc : Covers m s.manager.epochs) :
    SyncedTo log.leafCount s.manager.epochs (exec (syncOpenEpochWithAuditLog io log) s).2.manager.epochs ↔
      log.eventCount = log.leafCount ∨
        (s.manager.epochs.last.startIndex = log.leafCount ∧ log.eventCount ≤ log.leafCount) := by
  rw [syncedTo_iff io log hc.toBoundaries]
  have hstart : s.manager.epochs.last.startIndex ≤ log.leafCount := by
    have := hc.counted
    omega
  unfold EpochList.syncCount
  omega

/-- A log of two inserts and a new manager. -/
theorem twoInserts_synced : Covers 0 (EpochManager.new ⟨2, 0⟩).epochs ∧
    SyncedTo twoInserts.log.leafCount (EpochManager.new ⟨2, 0⟩).epochs
      (exec (syncOpenEpochWithAuditLog {} twoInserts.log) ⟨EpochManager.new ⟨2, 0⟩, fun _ => .missing⟩).2.manager.epochs :=
  ⟨covers_iff.2 ⟨boundaries_new, rfl⟩, (sync_covers_iff twoInserts.log ⟨EpochManager.new ⟨2, 0⟩, fun _ => .missing⟩ {} 0
    (Nat.zero_le _) (covers_iff.2 ⟨boundaries_new, rfl⟩)).2 (.inl (by rw [twoInserts_log]; rfl))⟩

/-! ### A pruned domain -/

theorem events_pruneDomain (hhold : (dep, db) ∉ w.log.legalHolds) (hp : w.log.persistence = none)
    (hscan : pruneScan (dep, db) w.log.events [] none = .ok (leaves, some maxIndex)) (io : Io) (now : Instant) :
    (exec (pruneDomain P io now dep db) w).2.log.events =
      w.log.events.filter fun ev => ¬ (ev.deploymentId = dep ∧ ev.database = db) := by
  unfold pruneDomain
  rw [exec_bind_ok (exec_get w)]
  simp only [hhold, if_false, hscan, hp]
  rw [exec_bind_ok (exec_modify _ _)]
  rfl

/-- One insert is recorded, and its database is pruned. -/
def prunedInsert : World := Runs.run (stepLog demoPrims) (World.start none emptyDisk)
  [.record (demoInsert "insert|shop|orders|1") {}, .pruneDomain ⟨0, 0⟩ "rs:rs0" "shop" {}]

theorem prunedInsert_counts : prunedInsert.log.leafCount = 1 ∧ prunedInsert.log.eventCount = 0 := by
  have hlog : (stepLog demoPrims (World.start none emptyDisk) (.record (demoInsert "insert|shop|orders|1") {})).log = _ :=
    @log_demoInsert (World.start none emptyDisk) rfl "insert|shop|orders|1"
  unfold prunedInsert
  rw [Runs.run_cons, Runs.run_cons, Runs.run_nil]
  generalize stepLog demoPrims (World.start none emptyDisk) (.record (demoInsert "insert|shop|orders|1") {}) = w at hlog
  have hevents : w.log.events = [((demoEntry "insert|shop|orders|1").persisted 0 0
      (frToHex ((⟨[(demoEntry "insert|shop|orders|1").leaf]⟩ : AuditMerkleTree 20).root demoPrims))).toAuditEvent 0] := by
    rw [hlog]
    rfl
  constructor
  · have hroots := keeps_pruneDomain (P := demoPrims) {} ⟨0, 0⟩ "rs:rs0" "shop" w
    have htree := congrArg (fun r => r.1.leaves.length) hroots
    refine htree.trans ?_
    simp only [World.roots, AuditLog.rooted, hlog]
    rfl
  · have hscan : pruneScan ("rs:rs0", "shop") w.log.events [] none =
        .ok ([(demoEntry "insert|shop|orders|1").leaf], some 0) := by
      rw [hevents]
      simp only [pruneScan, PersistedEvent.toAuditEvent, Entry.persisted, hexToFr_frToHex]
      rfl
    have hprune := events_pruneDomain (P := demoPrims) (by rw [hlog]; exact Finset.notMem_empty _) (by rw [hlog]; rfl)
      hscan {} ⟨0, 0⟩
    show List.length _ = 0
    refine (congrArg List.length hprune).trans ?_
    rw [hevents]
    rfl

/-- The open epoch had counted the one leaf; after the synchronisation it counts none. -/
theorem pruned_not_synced : Covers prunedInsert.log.leafCount ⟨[], (Epoch.new 0 0).setCount 1⟩ ∧
    ¬ SyncedTo prunedInsert.log.leafCount ⟨[], (Epoch.new 0 0).setCount 1⟩
      (exec (syncOpenEpochWithAuditLog {} prunedInsert.log)
        ⟨⟨⟨100, 0⟩, ⟨[], (Epoch.new 0 0).setCount 1⟩, none, none⟩, fun _ => .missing⟩).2.manager.epochs := by
  obtain ⟨hleaves, hevents⟩ := prunedInsert_counts
  have hb : Boundaries ⟨[], (Epoch.new 0 0).setCount 1⟩ := boundaries_setCount.2 boundaries_new
  refine ⟨covers_iff.2 ⟨hb, by rw [hleaves]; rfl⟩, fun h => ?_⟩
  have hsync := (syncedTo_iff (s := ⟨⟨⟨100, 0⟩, ⟨[], (Epoch.new 0 0).setCount 1⟩, none, none⟩, fun _ => .missing⟩) {}
    prunedInsert.log hb).1 h
  simp only [EpochList.syncCount, hleaves, hevents] at hsync
  simp [Epoch.new] at hsync

end Audit
