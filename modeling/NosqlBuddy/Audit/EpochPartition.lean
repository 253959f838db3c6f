import NosqlBuddy.Lib.Tiling
import NosqlBuddy.Audit.Epochs
import NosqlBuddy.Audit.HistoricalRoots

/-!
# Epochs as a partition of the log

The epochs of a manager are meant to cut the leaves into consecutive batches: each closed epoch holds
the leaves `start_index..=end_index`, as many as its `event_count`, and the next one starts after it
(epoch.rs:17-41). `close_current_epoch` ends an epoch at the index that its count gives.
`record_event` (epoch.rs:343) ends it at the index of the call that filled it, whatever the calls
before were: with several recorders the last call to arrive need not be the one with the last index.

`partition_iff` says which calls keep the partition: those that end no epoch, and those that end it at
`start_index + event_count`.
-/

namespace Audit
open Mutation Tiling

/-! ## Boundaries -/

namespace Epoch

/-- The leaf indices of a closed epoch, `[start_index, end_index + 1)`. -/
def leafRange (e : Epoch) : Range Nat := (e.startIndex, (e.endIndex.map (· + 1)).getD e.startIndex)

/-- The leaf index is in the closed epoch. -/
def holds (i : Nat) (e : Epoch) : Bool := e.leafRange.covers i

end Epoch

namespace EpochList

def setCount (es : EpochList) (n : Nat) : EpochList := { es with last := es.last.setCount n }

/-- The list after ending the last epoch at `endIndex`; without a root for it the epoch stays open. -/
def closedAt (es : EpochList) (endIndex : Nat) : Option String → EpochList
  | none => es
  | some root => push { es with last := es.last.freeze endIndex root } (Epoch.new (es.last.epochNumber + 1) (endIndex + 1))

end EpochList

/-- The epochs lie one after the other, and only the last one is open. -/
structure Boundaries (es : EpochList) : Prop where
  closed : ∀ e ∈ es.earlier, ∃ i, e.endIndex = some i ∧ e.startIndex + e.eventCount = i + 1
  last_open : es.last.endIndex = none
  numbers : es.earlier.map (·.epochNumber) = List.range es.earlier.length ∧ es.last.epochNumber = es.earlier.length
  adjacent : Tiles 0 (es.earlier.map Epoch.leafRange) es.last.startIndex

/-- Every closed epoch holds the root after its last leaf. -/
def FrozenRoots (P : Prims) (log : AuditLog) (es : EpochList) : Prop :=
  ∀ e ∈ es.earlier, ∀ i, e.endIndex = some i →
    i < log.leafCount ∧ e.rootHex = some (rootHex P (log.tree.leaves.take (i + 1)))

/-- The epochs partition the leaves below the open epoch. -/
structure Partition (P : Prims) (log : AuditLog) (es : EpochList) : Prop extends Boundaries es where
  roots : FrozenRoots P log es
  once : ∀ i < es.last.startIndex, es.earlier.countP (Epoch.holds i) = 1

theorem Boundaries.once (h : Boundaries es) (i : Nat) (hi : i < es.last.startIndex) :
    es.earlier.countP (Epoch.holds i) = 1 := by
  have hcount := h.adjacent.count i
  rw [List.countP_map, if_pos ⟨Nat.zero_le i, hi⟩] at hcount
  exact hcount

theorem Boundaries.isOpen (h : Boundaries es) : es.last.isOpen = true := by
  simp [Epoch.isOpen, h.last_open]

theorem boundaries_new : Boundaries ⟨[], Epoch.new 0 0⟩ where
  closed := fun _ he => absurd he List.not_mem_nil
  last_open := rfl
  numbers := ⟨rfl, rfl⟩
  adjacent := rfl

theorem boundaries_setCount : Boundaries (es.setCount n) ↔ Boundaries es :=
  ⟨fun h => ⟨h.closed, h.last_open, h.numbers, h.adjacent⟩, fun h => ⟨h.closed, h.last_open, h.numbers, h.adjacent⟩⟩

/-- **Ending an epoch** keeps the boundaries exactly when it ends where its count says. -/
theorem boundaries_closedAt (h : Boundaries es) (i : Nat) (root : String) :
    Boundaries (es.closedAt i (some root)) ↔ es.last.startIndex + es.last.eventCount = i + 1 := by
  constructor
  · intro h'
    obtain ⟨j, hj, hcount⟩ := h'.closed (es.last.freeze i root)
      (by simp [EpochList.closedAt, EpochList.push, EpochList.toList])
    obtain rfl : i = j := Option.some.inj hj
    exact hcount
  · intro hcount
    refine ⟨fun e he => ?_, rfl, ?_, ?_⟩
    · simp only [EpochList.closedAt, EpochList.push, EpochList.toList, List.mem_append, List.mem_singleton] at he
      rcases he with he | rfl
      · exact h.closed e he
      · exact ⟨i, rfl, hcount⟩
    · simp [EpochList.closedAt, EpochList.push, EpochList.toList, Epoch.new, Epoch.freeze, h.numbers, List.range_succ]
    · simp only [EpochList.closedAt, EpochList.push, EpochList.toList, List.map_append, List.map_singleton]
      rw [tiles_concat h.adjacent]
      refine ⟨rfl, ?_, rfl⟩
      simp only [Epoch.leafRange, Epoch.freeze, Option.map_some, Option.getD_some]
      omega

theorem frozenRoots_setCount :
    FrozenRoots P log (es.setCount n) ↔ FrozenRoots P log es := Iff.rfl

theorem FrozenRoots.closedAt (h : FrozenRoots P log es)
    (hlog : HistoricalRoots P log) (i : Nat) : FrozenRoots P log (es.closedAt i (log.rootAfterAt i)) := by
  have hroot := hlog i
  by_cases hi : i < log.leafCount
  · rw [if_pos hi] at hroot
    rw [hroot]
    intro e he j hj
    simp only [EpochList.closedAt, EpochList.push, EpochList.toList, List.mem_append, List.mem_singleton] at he
    rcases he with he | rfl
    · exact h e he j hj
    · obtain rfl : i = j := Option.some.inj hj
      exact ⟨hi, rfl⟩
  · rw [if_neg hi] at hroot
    rw [hroot]
    exact h

/-! ## What the operations do to the epochs -/

section
variable {s : EpochStore} {io : EpochIo} {log : AuditLog}

theorem keeps_checkSave (fault : Option String) (what : String) : Keeps EpochStore.manager (checkSave fault what) := by
  unfold checkSave
  cases fault with
  | none => exact keeps_pure ()
  | some e => exact keeps_throw _

theorem keeps_save (io : EpochIo) : Keeps EpochStore.manager (save io) := by
  unfold save
  refine keeps_bind keeps_get fun s => ?_
  cases s.manager.persistencePath with
  | none => exact keeps_pure ()
  | some path =>
    refine keeps_bind (keeps_checkSave _ _) fun _ => keeps_bind (keeps_checkSave _ _) fun _ => ?_
    cases io.write with
    | none => exact keeps_modify fun _ => rfl
    | some e => exact keeps_bind (keeps_modify fun _ => rfl) fun _ => keeps_throw _

theorem epochs_closeAt (s : EpochStore) (current : Epoch) (i : Nat) :
    (exec (closeAt io current i log) (s.setLast current)).2.manager.epochs =
      EpochList.closedAt { s.manager.epochs with last := current } i (log.rootAfterAt i) := by
  unfold closeAt rootFor
  cases log.rootAfterAt i with
  | none =>
    rw [exec_bind_error (exec_throw _ _)]
    rfl
  | some root =>
    rw [exec_bind_ok (exec_pure _ _), exec_bind_ok (exec_modify _ _), exec_bind_ok (exec_modify _ _),
      exec_bind_pure_snd, (keeps_save io).apply]
    rfl

theorem epochs_recordEvent (hopen : s.manager.epochs.last.isOpen = true) (i : Nat) :
    (exec (recordEvent io i log) s).2.manager.epochs =
      if s.manager.shouldClose (s.manager.epochs.last.eventCount + 1) then
        (s.manager.epochs.setCount (s.manager.epochs.last.eventCount + 1)).closedAt i (log.rootAfterAt i)
      else s.manager.epochs.setCount (s.manager.epochs.last.eventCount + 1) := by
  unfold recordEvent
  rw [exec_bind_ok (exec_get s)]
  simp only [hopen, not_true_eq_false, if_false, Epoch.setCount_eventCount]
  rw [exec_bind_ok (exec_modify _ _)]
  by_cases hclose : s.manager.shouldClose (s.manager.epochs.last.eventCount + 1) = true
  · simp only [hclose, if_true]
    rw [exec_bind_pure_snd]
    exact epochs_closeAt s _ i
  · simp only [hclose]
    rfl

theorem epochs_closeCurrentEpoch (hopen : s.manager.epochs.last.isOpen = true) :
    (exec (closeCurrentEpoch io log) s).2.manager.epochs =
      if s.manager.epochs.last.eventCount = 0 then s.manager.epochs
      else s.manager.epochs.closedAt (s.manager.epochs.last.startIndex + s.manager.epochs.last.eventCount - 1)
        (log.rootAfterAt (s.manager.epochs.last.startIndex + s.manager.epochs.last.eventCount - 1)) := by
  unfold closeCurrentEpoch
  rw [exec_bind_ok (exec_get s)]
  simp only [hopen, not_true_eq_false, if_false]
  split
  · rw [exec_bind_error (exec_throw _ _)]
  · exact epochs_closeAt s s.manager.epochs.last _

end

/-! ## Runs -/

/-- An audit log with its epoch manager. -/
structure Service where
  world : World
  store : EpochStore

namespace Service

def epochs (s : Service) : EpochList := s.store.manager.epochs

/-- A log with a new manager, in memory or with a state file. -/
def start (w : World) (config : EpochConfig) (path : Option String) (files : String → EpochFile) : Service :=
  ⟨w, ⟨{ EpochManager.new config with persistencePath := path }, files⟩⟩

end Service

/-- A recorder first calls `record` and then, with the index it got, `record_event`; other calls may
come in between. -/
inductive EpochStep where
  | record (call : RecordCall) (io : Io)
  | recordEvent (index : Nat) (io : EpochIo)
  | closeCurrentEpoch (io : EpochIo)

def stepEpoch (P : Prims) (s : Service) : EpochStep → Service
  | .record call io => { s with world := (exec (call.run P io) s.world).2 }
  | .recordEvent index io => { s with store := (exec (recordEvent io index s.world.log) s.store).2 }
  | .closeCurrentEpoch io => { s with store := (exec (closeCurrentEpoch io s.world.log) s.store).2 }

/-- The leaf indices that `record_event` is called for, in the order of the calls. -/
def eventIndices (steps : List EpochStep) : List Nat := steps.filterMap fun
  | .recordEvent index _ => some index
  | _ => none

/-- A call that fills and so ends the open epoch is for the leaf that comes after the counted ones. -/
def EndsAtCount (s : Service) : EpochStep → Prop
  | .recordEvent index _ => s.store.manager.shouldClose (s.epochs.last.eventCount + 1) = true →
      index < s.world.log.leafCount → index = s.epochs.last.startIndex + s.epochs.last.eventCount
  | _ => True

section
variable {P : Prims}

theorem historicalRoots_run (h : HistoricalRoots P w.log) (call : RecordCall) (io : Io) :
    HistoricalRoots P (exec (call.run P io) w).2.log :=
  aligned_iff.1 ((aligned_step (.record call io) (aligned_iff.2 h)).2 trivial)

theorem FrozenRoots.run {w : World} {es : EpochList} (h : FrozenRoots P w.log es) (call : RecordCall) (io : Io) :
    FrozenRoots P (exec (call.run P io) w).2.log es := by
  rcases log_run (P := P) call io w with hlog | ⟨e, _, hlog⟩
  · rw [hlog]
    exact h
  · intro ep hep i hi
    obtain ⟨hlt, hroot⟩ := h ep hep i hi
    have hlt' : i < w.log.tree.leaves.length := hlt
    have hleaves : (w.log.push P e).1.tree.leaves = w.log.tree.leaves ++ [e.leaf] := rfl
    rw [hlog]
    unfold AuditLog.leafCount AuditMerkleTree.leafCount
    rw [hleaves, List.take_append_of_le_length (by omega), hroot]
    exact ⟨by simp; omega, rfl⟩

/-- The state of a run as far as the partition depends on it. -/
structure Sound (P : Prims) (s : Service) : Prop where
  history : HistoricalRoots P s.world.log
  bounds : Boundaries s.epochs
  roots : FrozenRoots P s.world.log s.epochs

theorem sound_recordEvent (h : Sound P s) (index : Nat) (io : EpochIo) :
    Sound P (stepEpoch P s (.recordEvent index io)) ↔ EndsAtCount s (.recordEvent index io) := by
  have hes : (stepEpoch P s (.recordEvent index io)).epochs = _ := epochs_recordEvent h.bounds.isOpen index
  have hb := boundaries_setCount (n := s.epochs.last.eventCount + 1).2 h.bounds
  have hroots : ∀ es, FrozenRoots P s.world.log es → (stepEpoch P s (.recordEvent index io)).epochs = es →
      (Sound P (stepEpoch P s (.recordEvent index io)) ↔ Boundaries es) := by
    rintro es hr rfl
    exact ⟨fun h' => h'.bounds, fun hb' => ⟨h.history, hb', hr⟩⟩
  have hfrozen : FrozenRoots P s.world.log (s.epochs.setCount (s.epochs.last.eventCount + 1)) := h.roots
  unfold EndsAtCount
  by_cases hfull : s.store.manager.shouldClose (s.epochs.last.eventCount + 1) = true
  · have hfull' : s.store.manager.shouldClose (s.store.manager.epochs.last.eventCount + 1) = true := hfull
    rw [if_pos hfull'] at hes
    rw [hroots _ (hfrozen.closedAt h.history index) hes]
    have hroot := h.history index
    by_cases hi : index < s.world.log.leafCount
    · rw [if_pos hi] at hroot
      rw [hroot, boundaries_closedAt hb]
      simp only [hfull, hi, forall_const]
      show s.epochs.last.startIndex + (s.epochs.last.eventCount + 1) = index + 1 ↔ _
      omega
    · rw [if_neg hi] at hroot
      rw [hroot]
      simp only [hi, false_implies, implies_true, iff_true]
      exact hb
  · have hfull' : ¬ s.store.manager.shouldClose (s.store.manager.epochs.last.eventCount + 1) = true := hfull
    rw [if_neg hfull'] at hes
    rw [hroots _ hfrozen hes]
    exact ⟨fun _ hf => absurd hf hfull, fun _ => hb⟩

theorem sound_closeCurrentEpoch (h : Sound P s) (io : EpochIo) :
    Sound P (stepEpoch P s (.closeCurrentEpoch io)) := by
  have hes : (stepEpoch P s (.closeCurrentEpoch io)).epochs = _ := epochs_closeCurrentEpoch h.bounds.isOpen
  by_cases hz : s.store.manager.epochs.last.eventCount = 0
  · rw [if_pos hz] at hes
    exact ⟨h.history, hes ▸ h.bounds, hes ▸ h.roots⟩
  · rw [if_neg hz] at hes
    refine ⟨h.history, ?_, hes ▸ h.roots.closedAt h.history _⟩
    rw [hes]
    cases s.world.log.rootAfterAt _ with
    | none => exact h.bounds
    | some root =>
      refine (boundaries_closedAt h.bounds _ root).2 ?_
      show s.store.manager.epochs.last.startIndex + s.store.manager.epochs.last.eventCount = _
      omega

/-- **One step** keeps the partition exactly when it meets its condition. -/
theorem sound_step (a : EpochStep) (h : Sound P s) : Sound P (stepEpoch P s a) ↔ EndsAtCount s a := by
  cases a with
  | record call io =>
    simp only [EndsAtCount, iff_true]
    exact ⟨historicalRoots_run h.history call io, h.bounds, h.roots.run call io⟩
  | recordEvent index io => exact sound_recordEvent h index io
  | closeCurrentEpoch io =>
    simp only [EndsAtCount, iff_true]
    exact sound_closeCurrentEpoch h io

theorem Sound.partition (h : Sound P s) : Partition P s.world.log s.epochs :=
  ⟨h.bounds, h.roots, h.bounds.once⟩

theorem historicalRoots_step (h : HistoricalRoots P s.world.log) (a : EpochStep) :
    HistoricalRoots P (stepEpoch P s a).world.log := by
  cases a with
  | record call io => exact historicalRoots_run h call io
  | recordEvent index io => exact h
  | closeCurrentEpoch io => exact h

theorem sound_start (hw : HistoricalRoots P w.log) (config : EpochConfig) (path : Option String)
    (files : String → EpochFile) : Sound P (Service.start w config path files) :=
  ⟨hw, boundaries_new, fun _ he => absurd he List.not_mem_nil⟩

/-- **Epochs partition the log**, in every state of a run over a log with the right historical roots,
exactly when each `record_event` call that ends an epoch is for the leaf after the counted ones. -/
theorem partition_iff (P : Prims) (w : World) (hw : HistoricalRoots P w.log) (config : EpochConfig)
    (path : Option String) (files : String → EpochFile) (steps : List EpochStep) :
    (∀ pre, pre <+: steps →
      Partition P (Runs.run (stepEpoch P) (Service.start w config path files) pre).world.log
        (Runs.run (stepEpoch P) (Service.start w config path files) pre).epochs) ↔
      Runs.Guarded (stepEpoch P) EndsAtCount (Service.start w config path files) steps := by
  refine (Runs.guarded_iff_good (I := Sound P) (Q := fun s => Partition P s.world.log s.epochs)
    (fun _ => Sound.partition) (fun _ a h => (sound_step a h).2) (fun s a h => ?_)
    (sound_start hw config path files)).symm
  rw [← sound_step a h]
  exact ⟨fun hp => ⟨historicalRoots_step h.history a, hp.toBoundaries, hp.roots⟩, Sound.partition⟩

/-! ### Two recorders -/

theorem historicalRoots_new : HistoricalRoots demoPrims (World.start none emptyDisk).log :=
  aligned_iff.1 (show Aligned demoPrims (World.start none emptyDisk) from rfl)

/-- The calls of two recorders that arrive in the order of their indices. -/
def inTurn : List EpochStep :=
  [.record (demoInsert "insert|shop|orders|1") {}, .record (demoInsert "insert|shop|orders|2") {},
    .recordEvent 0 {}, .recordEvent 1 {}]

theorem inTurn_partition : HistoricalRoots demoPrims (World.start none emptyDisk).log ∧ ∀ pre, pre <+: inTurn →
    Partition demoPrims (Runs.run (stepEpoch demoPrims) (Service.start (World.start none emptyDisk) ⟨2, 0⟩ none
        fun _ => .missing) pre).world.log
      (Runs.run (stepEpoch demoPrims) (Service.start (World.start none emptyDisk) ⟨2, 0⟩ none
        fun _ => .missing) pre).epochs :=
  ⟨historicalRoots_new, (partition_iff demoPrims (World.start none emptyDisk) historicalRoots_new ⟨2, 0⟩ none
    (fun _ => .missing) inTurn).2 ⟨trivial, trivial, fun hfull => absurd hfull (by decide), fun _ _ => rfl, trivial⟩⟩

/-- Two inserts are recorded, and the second recorder is the first to call `record_event`. -/
def overtaken : List EpochStep :=
  [.record (demoInsert "insert|shop|orders|1") {}, .record (demoInsert "insert|shop|orders|2") {},
    .recordEvent 1 {}, .recordEvent 0 {}]

/-- The log of the two inserts. -/
def twoInserts : World := Runs.run (stepCall demoPrims) (World.start none emptyDisk)
  [⟨demoInsert "insert|shop|orders|1", {}⟩, ⟨demoInsert "insert|shop|orders|2", {}⟩]

theorem log_demoInsert {w : World} (hk : w.log.leafKey = none) (payload : String) :
    (stepCall demoPrims w ⟨demoInsert payload, {}⟩).log = (w.log.push demoPrims (demoEntry payload)).1 := by
  unfold stepCall
  rw [exec_run, hk, demoInsert_entry]
  exact log_recordInner _ _ _

theorem twoInserts_log : twoInserts.log = (((World.start none emptyDisk).log.push demoPrims
    (demoEntry "insert|shop|orders|1")).1.push demoPrims (demoEntry "insert|shop|orders|2")).1 := by
  have hfirst := @log_demoInsert (World.start none emptyDisk) rfl "insert|shop|orders|1"
  unfold twoInserts
  rw [Runs.run_cons, Runs.run_cons, Runs.run_nil, log_demoInsert ((congrArg AuditLog.leafKey hfirst).trans rfl), hfirst]

theorem twoInserts_leafCount : twoInserts.log.leafCount = 2 := by
  rw [twoInserts_log]
  rfl

/-- The epoch of two events closes at index 0: it counts two leaves and holds one. -/
theorem overtaken_not_partition : (eventIndices overtaken).Perm (List.range 2) ∧
    ¬ Partition demoPrims (Runs.run (stepEpoch demoPrims) (Service.start (World.start none emptyDisk) ⟨2, 0⟩ none
        fun _ => .missing) overtaken).world.log
      (Runs.run (stepEpoch demoPrims) (Service.start (World.start none emptyDisk) ⟨2, 0⟩ none
        fun _ => .missing) overtaken).epochs := by
  refine ⟨List.Perm.swap 0 1 [], fun hpart => ?_⟩
  -- the state after the first three calls: one event is counted
  have hstart := sound_start (P := demoPrims) (historicalRoots_run (historicalRoots_run historicalRoots_new
    (demoInsert "insert|shop|orders|1") {}) (demoInsert "insert|shop|orders|2") {}) ⟨2, 0⟩ none fun _ => .missing
  have hone := (sound_step (.recordEvent 1 {}) hstart).2 fun hfull => absurd hfull (by decide)
  have hlast : EndsAtCount ⟨twoInserts, ⟨{ EpochManager.new ⟨2, 0⟩ with epochs := ⟨[], (Epoch.new 0 0).setCount 1⟩ },
      fun _ => .missing⟩⟩ (.recordEvent 0 {}) := (sound_step (.recordEvent 0 {}) hone).1
    ⟨hone.history, hpart.toBoundaries, hpart.roots⟩
  have hcount := hlast (by decide) (by rw [twoInserts_leafCount]; omega)
  simp [Service.epochs, Epoch.new] at hcount

end

end Audit
