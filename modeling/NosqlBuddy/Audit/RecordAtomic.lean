import NosqlBuddy.Audit.EventText
import NosqlBuddy.Audit.Session

/-!
# A record call that fails

`record_inner` writes the counters, the tree, the roots and the event list before it appends the line
("Persist atomically", mod.rs:990), and does not undo them when the append fails. So every failing call
leaves all four changed (`stepCall_cases`), the next line that reaches the file skips an index, and the
replay of such a file cannot give back what the succeeding calls wrote (`not_replayable_of_gap`).

`record_atomic_iff` is the exact condition: a run is atomic when no write and no sync of it fails.
-/

namespace Audit
open Mutation Text

section
variable (P : Prims)

/-- The tree, the events, the counters and the roots are the same. -/
structure Unchanged (log log' : AuditLog) : Prop where
  tree : log'.tree = log.tree
  events : log'.events = log.events
  sequences : log'.sequences = log.sequences
  roots : log'.rootAfterByIndex = log.rootAfterByIndex

/-- All four are different. -/
structure AllChanged (log log' : AuditLog) : Prop where
  tree : log'.tree ≠ log.tree
  events : log'.events ≠ log.events
  sequences : log'.sequences ≠ log.sequences
  roots : log'.rootAfterByIndex ≠ log.rootAfterByIndex

/-- The world after the steps, in a new data directory. -/
def afterSteps (key : Option Bytes32) (dir : String) (steps : List CallStep) : World :=
  Runs.run (stepCall P) (openNew P key dir) steps

/-- Every call of the run that returns an I/O error leaves the log as it was. -/
def FailuresUnchanged (key : Option Bytes32) (dir : String) (steps : List CallStep) : Prop :=
  ∀ pre s post err, steps = pre ++ s :: post →
    (exec (s.call.run P s.io) (afterSteps P key dir pre)).1 = .error (.io err) →
    Unchanged (afterSteps P key dir pre).log (stepCall P (afterSteps P key dir pre) s).log

/-- A new process replays the file and finds exactly the lines of the calls that returned `Ok`. -/
def Replayable (key : Option Bytes32) (dir : String) (steps : List CallStep) : Prop :=
  ∃ w', exec (replayFile P {} dir) (World.start key (afterSteps P key dir steps).disk) =
    (.ok (okLines P (openNew P key dir) steps), w')

def RecordAtomic (key : Option Bytes32) (dir : String) (steps : List CallStep) : Prop :=
  FailuresUnchanged P key dir steps ∧ Replayable P key dir steps

/-- A call of the run is recorded after an earlier one failed. -/
def Gap (key : Option Bytes32) (steps : List CallStep) : Prop :=
  ∃ pre s mid t post, steps = pre ++ s :: mid ++ t :: post ∧ s.Fails P key ∧
    (t.call.entry P key).isSome ∧ ¬ t.Fails P key

end

variable {w : World} {steps : List CallStep}

section
variable {P : Prims} {key : Option Bytes32} {dir : String}

/-! ## One call -/

theorem push_allChanged (log : AuditLog) (e : Entry) : AllChanged log (log.push P e).1 where
  tree := fun h => by
    have := congrArg (fun t => t.leaves.length) h
    simp [AuditLog.push, AuditMerkleTree.insert] at this
  events := fun h => by
    have := congrArg List.length h
    simp [AuditLog.push] at this
  sequences := fun h => by
    have hseq : (log.push P e).1.sequences.lookup e.domain = some ((log.sequences.lookup e.domain).getD 0 + 1) :=
      Finmap.lookup_insert log.sequences
    rw [h] at hseq
    rw [hseq] at hseq
    simp at hseq
  roots := fun h => by
    have := congrArg List.length h
    simp [AuditLog.push] at this

/-- What a record call does in a log with an open directory: nothing without its leaf key; else it
records, and returns `Ok` exactly when its write and its sync work. -/
theorem stepCall_cases (s : CallStep) (hp : w.log.persistence = some dir) :
    (s.call.entry P w.log.leafKey = none ∧ (∃ m, (exec (s.call.run P s.io) w).1 = .error (.validation m)) ∧
      stepCall P w s = w ∧ okLine P w s = none) ∨
    (∃ e, s.call.entry P w.log.leafKey = some e ∧ ¬ s.Fails P w.log.leafKey ∧
      (exec (s.call.run P s.io) w).1 = .ok w.log.leafCount ∧ (stepCall P w s).log = (w.log.push P e).1 ∧
      okLine P w s = some (w.log.push P e).2) ∨
    ∃ e err, s.call.entry P w.log.leafKey = some e ∧ s.Fails P w.log.leafKey ∧
      (exec (s.call.run P s.io) w).1 = .error (.io err) ∧ (stepCall P w s).log = (w.log.push P e).1 ∧
      okLine P w s = none := by
  unfold stepCall okLine
  rw [exec_run]
  cases he : s.call.entry P w.log.leafKey with
  | none => exact .inl ⟨rfl, ⟨_, rfl⟩, rfl, rfl⟩
  | some e =>
    by_cases hf : s.Fails P w.log.leafKey
    · obtain ⟨err, disk, hexec⟩ := recordInner_failed (P := P) (e := e) hp hf.2
      exact .inr (.inr ⟨e, err, rfl, hf, by simp [hexec], by simp [hexec], by simp [hexec]⟩)
    · have hio : s.io.write = none ∧ s.io.sync = none := by
        simpa [CallStep.Fails, he] using hf
      have hexec := recordInner_ok (P := P) (e := e) hp hio.1 hio.2
      refine .inr (.inl ⟨e, rfl, hf, ?_, ?_, ?_⟩)
      · simp only [hexec]
        rfl
      · simp only [hexec]
        unfold World.saved
        split <;> rfl
      · simp only [hexec]

theorem stepCall_keeps (s : CallStep) (hp : w.log.persistence = some dir) :
    (stepCall P w s).log.persistence = some dir ∧ (stepCall P w s).log.leafKey = w.log.leafKey ∧
      w.log.leafCount + (okLine P w s).toList.length ≤ (stepCall P w s).log.leafCount := by
  have hpush : ∀ e, (w.log.push P e).1.leafCount = w.log.leafCount + 1 := by
    intro e
    simp [AuditLog.push, AuditLog.leafCount, AuditMerkleTree.leafCount, AuditMerkleTree.insert]
  obtain ⟨_, _, hw, hl⟩ | ⟨e, _, _, _, hlog, hl⟩ | ⟨e, _, _, _, _, hlog, hl⟩ := stepCall_cases (P := P) s hp
  · rw [hw, hl]; exact ⟨hp, rfl, Nat.le_refl _⟩
  · rw [hlog, hl, hpush]; exact ⟨hp, rfl, Nat.le_refl _⟩
  · rw [hlog, hl, hpush]; exact ⟨hp, rfl, Nat.le_succ _⟩

theorem failing_allChanged {s : CallStep} (hp : w.log.persistence = some dir)
    (hf : s.Fails P w.log.leafKey) :
    (∃ err, (exec (s.call.run P s.io) w).1 = .error (.io err)) ∧ AllChanged w.log (stepCall P w s).log ∧
      okLine P w s = none ∧ w.log.leafCount < (stepCall P w s).log.leafCount := by
  obtain ⟨he, _⟩ | ⟨_, _, hn, _⟩ | ⟨e, err, _, _, hexec, hlog, hl⟩ := stepCall_cases (P := P) s hp
  · have := hf.1
    rw [he] at this
    cases this
  · exact absurd hf hn
  · refine ⟨⟨err, hexec⟩, hlog ▸ push_allChanged w.log e, hl, ?_⟩
    rw [hlog]
    simp [AuditLog.push, AuditLog.leafCount, AuditMerkleTree.leafCount, AuditMerkleTree.insert]

/-! ## Runs -/

theorem run_keeps : ∀ (steps : List CallStep) {w : World}, w.log.persistence = some dir →
    (Runs.run (stepCall P) w steps).log.persistence = some dir ∧
      (Runs.run (stepCall P) w steps).log.leafKey = w.log.leafKey ∧
      w.log.leafCount + (okLines P w steps).length ≤ (Runs.run (stepCall P) w steps).log.leafCount
  | [], w, hp => ⟨hp, rfl, Nat.le_refl _⟩
  | s :: steps, w, hp => by
    obtain ⟨hp1, hk1, hc1⟩ := stepCall_keeps (P := P) s hp
    obtain ⟨hp2, hk2, hc2⟩ := run_keeps steps hp1
    refine ⟨hp2, hk2.trans hk1, ?_⟩
    unfold okLines at hc2 ⊢
    rw [Runs.outputs, List.length_append]
    exact Nat.le_trans (by omega) hc2

theorem afterSteps_keeps (steps : List CallStep) : (afterSteps P key dir steps).log.persistence = some dir ∧
    (afterSteps P key dir steps).log.leafKey = key ∧
    (okLines P (openNew P key dir) steps).length ≤ (afterSteps P key dir steps).log.leafCount := by
  have hs := (@session_open P key dir).2.1
  obtain ⟨hp, hk, hc⟩ := run_keeps (P := P) steps hs.persistence
  exact ⟨hp, hk.trans hs.leafKey, Nat.le_trans (Nat.le_add_left _ _) hc⟩

theorem length_okLines_lt {pre mid : List CallStep} {s : CallStep} (hf : s.Fails P key) :
    (okLines P (openNew P key dir) (pre ++ s :: mid)).length <
      (afterSteps P key dir (pre ++ s :: mid)).log.leafCount := by
  obtain ⟨hp, hk, hc⟩ := @afterSteps_keeps P key dir pre
  rw [← hk] at hf
  obtain ⟨_, _, hl, hlt⟩ := failing_allChanged hp hf
  obtain ⟨_, _, hc'⟩ := run_keeps (P := P) mid (stepCall_keeps (P := P) s hp).1
  unfold afterSteps okLines at *
  rw [Runs.outputs_append, Runs.run_append, Runs.run_cons, List.length_append, Runs.outputs]
  rw [hl, Option.toList_none, List.nil_append]
  omega

theorem not_replayable_of_gap (hg : Gap P key steps) : ¬ Replayable P key dir steps := by
  obtain ⟨pre, s, mid, t, post, rfl, hf, ht, hnf⟩ := hg
  rintro ⟨w', hrep⟩
  have hlt := @length_okLines_lt P key dir pre mid s hf
  obtain ⟨hp, hk, _⟩ := @afterSteps_keeps P key dir (pre ++ s :: mid)
  -- the line of `t` stands at the number of lines and has the number of leaves as its index
  have hline : ∃ e, okLine P (afterSteps P key dir (pre ++ s :: mid)) t =
      some ((afterSteps P key dir (pre ++ s :: mid)).log.push P e).2 := by
    obtain ⟨he, _⟩ | ⟨e, _, _, _, _, hl⟩ | ⟨_, _, _, hft, _⟩ := stepCall_cases (P := P) t hp
    · rw [hk] at he
      rw [he] at ht
      cases ht
    · exact ⟨e, hl⟩
    · rw [hk] at hft
      exact absurd hft hnf
  obtain ⟨e, hl⟩ := hline
  obtain ⟨m, d, _, hch, _⟩ := (replayFile_ok ⟨⟨rfl, rfl, rfl⟩, rfl⟩).1 hrep
  have hget : (okLines P (openNew P key dir) (pre ++ s :: mid ++ t :: post))[(okLines P (openNew P key dir)
      (pre ++ s :: mid)).length]? = some ((afterSteps P key dir (pre ++ s :: mid)).log.push P e).2 := by
    unfold okLines
    rw [Runs.outputs_append, Runs.outputs]
    change (_ ++ ((okLine P (afterSteps P key dir (pre ++ s :: mid)) t).toList ++ _))[_]? = _
    rw [hl]
    simp
  have hidx := (((chained_iff _ []).1 hch).2 _ _ hget).1
  have hpos : ((afterSteps P key dir (pre ++ s :: mid)).log.push P e).2.index =
      (afterSteps P key dir (pre ++ s :: mid)).log.leafCount := rfl
  rw [hpos, List.length_nil, Nat.zero_add] at hidx
  omega

theorem replayable_of_ok (hl : P.Lawful) (hon : ∀ e ∈ entriesOf P key (steps.map (·.call)), e.Honest P key) (hok : ∀ s ∈ steps, ¬ s.Fails P key) :
    Replayable P key dir steps := by
  obtain ⟨hs, hlines, _⟩ := @session_run P key dir steps hok
  rw [Replayable, hlines]
  exact hs.replays hl hon

theorem failuresUnchanged_iff :
    FailuresUnchanged P key dir steps ↔ ∀ s ∈ steps, ¬ s.Fails P key := by
  constructor
  · intro h s hm hf
    obtain ⟨pre, post, rfl⟩ := List.append_of_mem hm
    obtain ⟨hp, hk, _⟩ := @afterSteps_keeps P key dir pre
    rw [← hk] at hf
    obtain ⟨⟨err, hexec⟩, hch, _⟩ := failing_allChanged hp hf
    exact hch.tree (h pre s post err rfl hexec).tree
  · rintro h pre s post err rfl hexec
    obtain ⟨hp, hk, _⟩ := @afterSteps_keeps P key dir pre
    obtain ⟨_, ⟨m, he⟩, _⟩ | ⟨_, _, _, he, _⟩ | ⟨_, _, _, hf, _⟩ := stepCall_cases (P := P) s hp
    · simp [he] at hexec
    · simp [he] at hexec
    · rw [hk] at hf
      exact absurd hf (h s (by simp))

/-- **Failing record calls.** In every log with an open directory, every call whose write or sync fails
returns the error and changes all four structures. A run of calls is atomic exactly when none fails,
and the file of a run in which a call succeeds after another failed does not replay to the lines of
the succeeding calls. -/
theorem record_atomic_iff (P : Prims) (hl : P.Lawful) (key : Option Bytes32) (dir : String) :
    (∀ (w : World) (s : CallStep), w.log.persistence = some dir → s.Fails P w.log.leafKey →
      (∃ err, (exec (s.call.run P s.io) w).1 = .error (.io err)) ∧ AllChanged w.log (stepCall P w s).log) ∧
    ∀ steps : List CallStep, (∀ e ∈ entriesOf P key (steps.map (·.call)), e.Honest P key) →
      (RecordAtomic P key dir steps ↔ ∀ s ∈ steps, ¬ s.Fails P key) ∧
      (Gap P key steps → ¬ Replayable P key dir steps) := by
  refine ⟨fun w s hp hf => ?_, fun steps hon => ⟨⟨fun h => failuresUnchanged_iff.1 h.1, fun h => ?_⟩,
    not_replayable_of_gap⟩⟩
  · obtain ⟨herr, hch, _⟩ := failing_allChanged hp hf
    exact ⟨herr, hch⟩
  · exact ⟨failuresUnchanged_iff.2 h, replayable_of_ok hl hon h⟩

/-! ### A full disk -/

/-- An insert whose write finds the disk full, before the first byte. -/
def diskFull : CallStep := ⟨demoInsert "insert|shop|orders|2", { write := some (0, "No space left on device (os error 28)") }⟩

/-- Three inserts, the second of which fails. -/
def demoFailing : List CallStep := [⟨demoInsert "insert|shop|orders|1", {}⟩, diskFull, ⟨demoInsert "insert|shop|orders|3", {}⟩]

/-- The second of three inserts fails: it leaves the log changed, and the file, whose two lines carry the
indices 0 and 2, does not replay to the two lines. -/
theorem failed_insert_leaves_gap : ¬ FailuresUnchanged demoPrims none "data" demoFailing ∧
    ¬ Replayable demoPrims none "data" demoFailing := by
  have hf : diskFull.Fails demoPrims none := ⟨rfl, .inl (by simp [diskFull])⟩
  refine ⟨fun h => failuresUnchanged_iff.1 h diskFull (by simp [demoFailing]) hf, ?_⟩
  refine not_replayable_of_gap ⟨[⟨demoInsert "insert|shop|orders|1", {}⟩], diskFull, [],
    ⟨demoInsert "insert|shop|orders|3", {}⟩, [], rfl, hf, rfl, fun h => ?_⟩
  rcases h.2 with h | h <;> exact h rfl

/-- The theorem on the calls that work. -/
theorem record_atomic_demo : RecordAtomic demoPrims none "data" [⟨demoInsert "insert|shop|orders|1", {}⟩] ∧
    AllChanged (openNew demoPrims none "data").log (stepCall demoPrims (openNew demoPrims none "data") diskFull).log := by
  obtain ⟨hfail, hrun⟩ := record_atomic_iff demoPrims demoPrims_lawful none "data"
  have hs := (@session_open demoPrims none "data").2.1
  refine ⟨((hrun _ fun e he => ?_).1).2 fun s hs h => ?_, (hfail _ diskFull hs.persistence ?_).2⟩
  · have he : e = _ := List.mem_singleton.1 he
    rw [he]
    exact fun _ _ _ => rfl
  · rw [List.mem_singleton.1 hs] at h
    rcases h.2 with h | h <;> exact h rfl
  · exact ⟨rfl, .inl (by simp [diskFull])⟩

end

end Audit
