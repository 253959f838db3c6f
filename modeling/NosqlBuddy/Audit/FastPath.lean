import NosqlBuddy.Audit.EventText
import NosqlBuddy.Audit.Session

/-!
# The fast path against the replay

With a complete tree store, `set_persistence_dir` verifies `events.jsonl` instead of replaying it. The
documentation of `verify_against_tree` says that every `root_after` is compared with the root at its
index; the code compares the last one only, and an index only with the number of leaves. So a log
whose middle line was deleted opens (`deleted_line_accepted`), although `replay_file` reports it.

`fast_path_agrees_iff` says for which files the two readers agree: those that fail one of the checks
the fast path does make, and those that are exactly the lines of the saved leaves.
-/

namespace Audit
open Mutation Text

section
variable (P : Prims)

/-- The leaves that the calls save. -/
def savedLeaves (key : Option Bytes32) (calls : List RecordCall) : List Fr := (entriesOf P key calls).map (·.leaf)

/-- A process started on the directory of a run, whose `events.jsonl` has been replaced. -/
def replaced (key : Option Bytes32) (dir : String) (calls : List RecordCall) (content : ByteArray) : World :=
  let w := runCalls P (openNew P key dir) calls
  World.start key (Function.update w.disk dir { w.disk dir with events := some content })

/-- If the file is accepted through the loaded tree, the replay accepts it too and restores the same. -/
def FastPathAgrees (key : Option Bytes32) (dir : String) (calls : List RecordCall) (content : ByteArray) : Prop :=
  ∀ w', (sledTree {} ((replaced P key dir calls content).disk dir)).isSome →
    exec (setPersistenceDir P {} dir) (replaced P key dir calls content) = (.ok (), w') →
    ∃ evs w'', exec (replayFile P {} dir) (replaced P key dir calls content) = (.ok evs, w'') ∧
      w''.log.tree.leaves = w'.log.tree.leaves ∧ w''.log.events = w'.log.events ∧
      w''.log.sequences = w'.log.sequences ∧ w''.log.rootAfterByIndex = w'.log.rootAfterByIndex

/-- The events are those of the leaves: one per leaf, in order, with its index, its hash and the root
after it. -/
def ExactLines (leaves : List Fr) (evs : List PersistedEvent) : Prop :=
  evs.length = leaves.length ∧ ∀ i ev, evs[i]? = some ev →
    ev.index = i ∧ (leaves[i]?).map frToHex = some ev.leafHex ∧ ev.rootAfter = rootHex P (leaves.take (i + 1))

/-- One of the checks of `verify_against_tree` fails. -/
def FailsCheck (key : Option Bytes32) (leaves : List Fr) (evs : List PersistedEvent) : Prop :=
  (∃ ev ∈ evs, checkedLeaf P key ev = none) ∨ (∃ ev ∈ evs, leaves.length ≤ ev.index) ∨
    ∃ last, evs.getLast? = some last ∧ last.rootAfter ≠ rootHex P leaves

end

section
variable {P : Prims} {key : Option Bytes32} {dir : String}

theorem not_failsCheck :
    ¬ FailsCheck P key leaves evs ↔ Verified P key leaves evs := by
  unfold FailsCheck Verified
  constructor
  · intro h
    push Not at h
    exact ⟨fun ev hm => ⟨Option.isSome_iff_ne_none.2 (h.1 ev hm), h.2.1 ev hm⟩, h.2.2⟩
  · rintro ⟨h1, h2⟩ (⟨ev, hm, hn⟩ | ⟨ev, hm, hle⟩ | ⟨last, hl, hne⟩)
    · have := (h1 ev hm).1
      rw [hn] at this
      cases this
    · exact absurd (h1 ev hm).2 (by omega)
    · exact hne (h2 last hl)

theorem exactLines_iff (hall : ∀ ev ∈ evs, (checkedLeaf P key ev).isSome) :
    ExactLines P leaves evs ↔ Chained P key [] evs ∧ leavesOf P key evs = leaves := by
  have hget := getElem?_leavesOf hall
  constructor
  · rintro ⟨hlen, hex⟩
    have hleaves : leavesOf P key evs = leaves := by
      refine List.ext_getElem? fun i => ?_
      rw [hget i]
      cases hi : evs[i]? with
      | none =>
        have : leaves.length ≤ i := hlen ▸ List.getElem?_eq_none_iff.1 hi
        simp [List.getElem?_eq_none this]
      | some ev =>
        obtain ⟨leaf, hc⟩ := Option.isSome_iff_exists.1 (hall ev (List.mem_of_getElem? hi))
        obtain ⟨leaf', hl, hx⟩ := Option.map_eq_some_iff.1 (hex i ev hi).2.1
        have : leaf' = leaf := frToHex_injective (hx.trans (checkedLeaf_eq_some.1 hc).2.symm)
        simp [hc, hl, this]
    refine ⟨(chained_iff evs []).2 ⟨hall, fun i ev hi => ?_⟩, hleaves⟩
    rw [hleaves]
    simpa using ⟨(hex i ev hi).1, (hex i ev hi).2.2⟩
  · rintro ⟨hch, rfl⟩
    refine ⟨(length_leavesOf hall).symm, fun i ev hi => ?_⟩
    obtain ⟨hidx, hroot⟩ := ((chained_iff evs []).1 hch).2 i ev hi
    obtain ⟨leaf, hc⟩ := Option.isSome_iff_exists.1 (hall ev (List.mem_of_getElem? hi))
    refine ⟨by simpa using hidx, ?_, by simpa using hroot⟩
    rw [hget i, hi, Option.bind_some, hc, Option.map_some, (checkedLeaf_eq_some.1 hc).2]

theorem replaced_disk (P : Prims) (key : Option Bytes32) (dir : String) (calls : List RecordCall)
    (content : ByteArray) : ∃ db, (replaced P key dir calls content).disk dir = ⟨some content, some db⟩ ∧
      Stored (savedLeaves P key calls) db := by
  obtain ⟨_, db, hdb, hst⟩ := session_runCalls (P := P) key dir calls
  exact ⟨db, by simp [replaced, World.start, hdb], hst⟩

theorem replaced_fresh (P : Prims) (key : Option Bytes32) (dir : String) (calls : List RecordCall)
    (content : ByteArray) : (replaced P key dir calls content).log.Fresh :=
  ⟨⟨rfl, rfl, rfl⟩, rfl⟩

theorem replaced_open {calls : List RecordCall} {content : ByteArray} {w w' : World}
    (hw : w = replaced P key dir calls content) (h0 : savedLeaves P key calls ≠ []) :
    (sledTree {} (w.disk dir)).isSome ∧ (exec (setPersistenceDir P {} dir) w = (.ok (), w') ↔
      ∃ evs m d, readOutcome P {} (w.disk dir) = (.ok (evs, m), d) ∧ Verified P key (savedLeaves P key calls) evs ∧
        w' = w.restore dir d (((w.log.opening (some ⟨savedLeaves P key calls⟩) dir).setMeta m).restored evs)) := by
  obtain ⟨db, hd, hst⟩ := replaced_disk P key dir calls content
  have hf := replaced_fresh P key dir calls content
  rw [← hw] at hd hf
  have hev : (w.disk dir).events = some content := by rw [hd]
  have hsled : (w.disk dir).withSled = w.disk dir := by rw [hd]; rfl
  have htree := hst.sledTree (d := w.disk dir) (by rw [hd])
  rw [if_neg h0] at htree
  have hkey : w.log.leafKey = key := by rw [hw]; rfl
  have hopen := @open_verified P dir w w' _ hf.toUnused htree _ hev
  rw [hsled, hkey] at hopen
  exact ⟨by rw [htree]; rfl, hopen⟩

theorem agrees_iff_exactLines (h0 : savedLeaves P key calls ≠ []) (hevs : fileEvents P content = some evs)
    (hv : Verified P key (savedLeaves P key calls) evs) :
    FastPathAgrees P key dir calls content ↔ ExactLines P (savedLeaves P key calls) evs := by
  have hf := replaced_fresh P key dir calls content
  have hev : ((replaced P key dir calls content).disk dir).events = some content := by
    obtain ⟨db, hd, _⟩ := replaced_disk P key dir calls content
    rw [hd]
  have hkey : (replaced P key dir calls content).log.leafKey = key := rfl
  have hopen := fun w' => @replaced_open P key dir calls content _ w' rfl h0
  obtain ⟨m, d, hread⟩ := (readOutcome_ok hev).2 hevs
  rw [exactLines_iff fun ev he => (hv.1 ev he).1]
  unfold FastPathAgrees
  generalize replaced P key dir calls content = w at *
  constructor
  · intro h
    obtain ⟨evs', w'', hrep, hleaves, _⟩ := h _ (hopen w).1 ((hopen _).2.2 ⟨evs, m, d, hread, hv, rfl⟩)
    obtain ⟨m', d', hread', hch, rfl⟩ := (replayFile_ok hf).1 hrep
    obtain ⟨rfl, rfl⟩ : evs = evs' ∧ m = m' := by simpa [hread] using congrArg Prod.fst hread'
    rw [hkey] at hch hleaves
    exact ⟨hch, hleaves⟩
  · rintro ⟨hch, hleaves⟩ w' _ hexec
    obtain ⟨evs', m', d', hread', _, rfl⟩ := (hopen w').2.1 hexec
    obtain ⟨⟨rfl, rfl⟩, rfl⟩ : (evs = evs' ∧ m = m') ∧ d = d' := by simpa [hread] using hread'
    refine ⟨evs, _, (replayFile_ok hf).2 ⟨m, d, hread, by rw [hkey]; exact hch, rfl⟩, ?_, rfl, rfl, rfl⟩
    rw [hkey]
    exact hleaves

/-- **The fast path agrees with the replay** exactly on the files that fail one of its own checks and on
the files of the saved leaves. -/
theorem fast_path_agrees_iff (P : Prims) (key : Option Bytes32) (dir : String) (calls : List RecordCall)
    (content : ByteArray) :
    FastPathAgrees P key dir calls content ↔
      (savedLeaves P key calls = [] ∨ ∀ evs, fileEvents P content = some evs →
        FailsCheck P key (savedLeaves P key calls) evs ∨ ExactLines P (savedLeaves P key calls) evs) := by
  obtain ⟨db, hd, hst⟩ := replaced_disk P key dir calls content
  by_cases h0 : savedLeaves P key calls = []
  · -- nothing was saved: the tree store is not loaded and the fast path not taken
    have htree := hst.sledTree (d := (replaced P key dir calls content).disk dir) (by rw [hd])
    rw [if_pos h0] at htree
    simp [FastPathAgrees, htree, h0]
  simp only [h0, false_or]
  constructor
  · intro h evs hevs
    by_cases hc : FailsCheck P key (savedLeaves P key calls) evs
    · exact .inl hc
    · exact .inr ((agrees_iff_exactLines h0 hevs (not_failsCheck.1 hc)).1 h)
  · intro h w' hs hexec
    have hexec' := (replaced_open rfl h0).2.1 hexec
    obtain ⟨evs, m, d, hread, hv, _⟩ := hexec'
    have hevs := (readOutcome_ok (by rw [hd])).1 ⟨m, d, hread⟩
    rcases h evs hevs with hc | hex
    · exact absurd hv (by rw [← not_failsCheck]; exact not_not_intro hc)
    · exact (agrees_iff_exactLines h0 hevs hv).2 hex w' hs hexec

/-! ### A deleted line -/

def demoCalls : List RecordCall := [demoInsert "insert|shop|orders|1", demoInsert "insert|shop|orders|2",
  demoInsert "insert|shop|orders|3"]

/-- The file of three recorded inserts without its second line. -/
def demoDeleted : ByteArray := fileBytes demoPrims ((linesOf demoPrims (entriesOf demoPrims none demoCalls)).eraseIdx 1) []

/-- Three inserts are recorded, the second line of the file is deleted, and the directory opens: the
restored log has two events and three leaves, where the replay would report an index mismatch. -/
theorem deleted_line_accepted : ¬ FastPathAgrees demoPrims none "data" demoCalls demoDeleted := by
  have hevs : fileEvents demoPrims demoDeleted =
      some ((linesOf demoPrims (entriesOf demoPrims none demoCalls)).eraseIdx 1) := by
    refine (readOutcome_ok (d := ⟨some demoDeleted, none⟩) rfl).1 ⟨_, _, demoPrims_lawful.readOutcome_file (.inl rfl) rfl⟩
  have hv : Verified demoPrims none (savedLeaves demoPrims none demoCalls)
      ((linesOf demoPrims (entriesOf demoPrims none demoCalls)).eraseIdx 1) := by
    have hcheck : ∀ payload index sequence root,
        (checkedLeaf demoPrims none ((demoEntry payload).persisted index sequence root)).isSome :=
      fun payload _ _ _ => Option.isSome_iff_exists.2 ⟨_, (demoEntry_honest payload).checkedLeaf _ _ _⟩
    refine ⟨fun ev hm => ?_, fun last hlast => ?_⟩
    · rcases List.mem_cons.1 hm with rfl | hm
      · exact ⟨hcheck _ _ _ _, Nat.succ_pos 2⟩
      · rw [List.mem_singleton.1 hm]
        exact ⟨hcheck _ _ _ _, Nat.lt_succ_self 2⟩
    · cases hlast
      rfl
  rw [agrees_iff_exactLines (by simp [savedLeaves, entriesOf, demoCalls, demoInsert, RecordCall.entry]) hevs hv]
  rintro ⟨hlen, _⟩
  revert hlen
  decide

end

end Audit
