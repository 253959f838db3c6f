import NosqlBuddy.Audit.EventText
import NosqlBuddy.Audit.Session

/-!
# Historical roots

`root_after_at(i)` is meant to be the root after leaf `i` (mod.rs:241), and a new epoch freezes it.
`root_after_by_index` is written beside the tree, by each operation on its own:

* `record` and `record_v3` extend both, also when the write fails;
* `clear` (mod.rs:1210) resets the tree and forgets the roots;
* `set_persistence_dir` takes the tree from the sled store and the roots, when the verification gets as
  far as that, from the lines of the file; a replay that stops at an index or a root has inserted a leaf
  without a root.

`historical_roots_iff` gives the exact condition on the steps of a run: they keep the two together
(`KeepsRoots`) exactly when the historical roots are right in every state of the run.
-/

namespace Audit
open Mutation Text

/-! ## Steps -/

inductive LogStep where
  | record (call : RecordCall) (io : Io)
  | setPersistenceDir (dir : String) (io : Io)
  | clear (io : Io)
  | pruneDomain (now : Instant) (deploymentId database : String) (io : Io)
  | setLegalHold (deploymentId database : String) (hold : Bool) (io : Io)

section
variable (P : Prims)

def stepLog (w : World) : LogStep → World
  | .record call io => (exec (call.run P io) w).2
  | .setPersistenceDir dir io => (exec (setPersistenceDir P io dir) w).2
  | .clear io => (exec (clear io) w).2
  | .pruneDomain now dep db io => (exec (pruneDomain P io now dep db) w).2
  | .setLegalHold dep db hold io => (exec (setLegalHold P io dep db hold) w).2

/-- `root_after_at` is the root of the first leaves, and nothing past the last leaf. -/
def HistoricalRoots (log : AuditLog) : Prop := ∀ i, log.rootAfterAt i =
  if i < log.leafCount then some (rootHex P (log.tree.leaves.take (i + 1))) else none

/-- The first event that replay rejects, if there is one, is rejected by its leaf. -/
def StopsAtLeaf (key : Option Bytes32) : List Fr → List PersistedEvent → Prop
  | _, [] => True
  | leaves, ev :: evs =>
    match checkedLeaf P key ev with
    | none => True
    | some leaf => ev.index = leaves.length ∧ ev.rootAfter = rootHex P (leaves ++ [leaf]) ∧
        StopsAtLeaf key (leaves ++ [leaf]) evs

/-- Opening reads these events, with nothing in memory that stops it. -/
def Reads (w : World) (io : Io) (dir : String) (evs : List PersistedEvent) : Prop :=
  io.sledReopen = none ∧ (∃ m d, readOutcome P io (w.disk dir).withSled = (.ok (evs, m), d)) ∧ evs ≠ [] ∧
    w.log.events = []

/-- The verification passes the leaf and index checks, after which it adopts the `root_after` values. -/
def Adopts (w : World) (io : Io) (dir : String) (tree : AuditMerkleTree 20) (evs : List PersistedEvent) : Prop :=
  Reads P w io dir evs ∧ ∀ ev ∈ evs, (checkedLeaf P w.log.leafKey ev).isSome ∧ ev.index < tree.leafCount

/-- Opening keeps the roots beside the tree. With a tree from the sled store: the file's `root_after`
values, if they are adopted, are the roots of the stored leaves, and otherwise the store has the roots
of the tree in memory. Without: a replay into an empty log stops at no index and at no root. -/
def OpenKeepsRoots (w : World) (io : Io) (dir : String) : Prop :=
  match sledTree io (w.disk dir) with
  | some tree => (∀ evs, Adopts P w io dir tree evs → evs.map (·.rootAfter) = rootHexes P tree.leaves) ∧
      ((∀ evs, ¬ Adopts P w io dir tree evs) → rootHexes P w.log.tree.leaves = rootHexes P tree.leaves)
  | none => ∀ evs, Reads P w io dir evs → w.log.leafCount = 0 → StopsAtLeaf P w.log.leafKey [] evs

/-- The steps that keep the roots beside the tree. -/
def KeepsRoots (w : World) : LogStep → Prop
  | .record _ _ => True
  | .setPersistenceDir dir io => io.createDir = none → OpenKeepsRoots P w io dir
  | .clear _ => w.log.leafCount = 0
  | .pruneDomain _ _ _ _ => True
  | .setLegalHold _ _ _ _ => True

/-- The list of roots is that of the leaves. -/
def Aligned (w : World) : Prop := w.log.rootAfterByIndex = rootHexes P w.log.tree.leaves

/-- The part of the state that is about the roots. -/
def AuditLog.rooted (log : AuditLog) : AuditMerkleTree 20 × List String := (log.tree, log.rootAfterByIndex)

def World.roots (w : World) : AuditMerkleTree 20 × List String := w.log.rooted

end

section
variable {P : Prims}

theorem aligned_iff : Aligned P w ↔ HistoricalRoots P w.log := by
  constructor
  · intro h i
    rw [AuditLog.rootAfterAt, h, getElem?_rootHexes]
    rfl
  · intro h
    refine List.ext_getElem? fun i => ?_
    rw [getElem?_rootHexes]
    exact h i

theorem aligned_of_roots (h : w'.roots = w.roots) : Aligned P w' ↔ Aligned P w := by
  obtain ⟨h1, h2⟩ := Prod.mk.inj h
  unfold Aligned
  rw [h1, h2]

theorem rootHexes_ne_concat (leaves : List Fr) (leaf : Fr) : rootHexes P leaves ≠ rootHexes P (leaves ++ [leaf]) := by
  intro h
  have := congrArg List.length h
  simp at this

/-! ## Frames -/

theorem keeps_setLegalHold (io : Io) (dep db : String) (hold : Bool) :
    Keeps World.roots (setLegalHold P io dep db hold) := by
  unfold setLegalHold
  refine keeps_bind (keeps_modify fun _ => rfl) fun _ => keeps_bind keeps_get fun w => ?_
  cases w.log.persistence with
  | some dir => exact keeps_appendLine (fun _ _ _ => rfl) _ _ _
  | none => exact keeps_pure _

theorem keeps_pruneDomain (io : Io) (now : Instant) (dep db : String) :
    Keeps World.roots (pruneDomain P io now dep db) := by
  unfold pruneDomain
  refine keeps_bind keeps_get fun w => ?_
  refine keeps_guard ?_
  obtain e | ⟨leaves, _ | maxIndex⟩ := pruneScan (dep, db) w.log.events [] none
  · exact keeps_throw _
  · exact keeps_pure _
  · cases w.log.persistence with
    | some dir =>
      exact keeps_bind (keeps_appendLine (fun _ _ _ => rfl) _ _ _) fun _ => keeps_bind (keeps_modify fun _ => rfl) fun _ => keeps_pure _
    | none => exact keeps_bind (keeps_modify fun _ => rfl) fun _ => keeps_pure _

/-! ## Recording and clearing -/

theorem roots_push (log : AuditLog) (e : Entry) (disk : String → Dir) :
    World.roots ⟨(log.push P e).1, disk⟩ =
      (⟨log.tree.leaves ++ [e.leaf]⟩, log.rootAfterByIndex ++ [rootHex P (log.tree.leaves ++ [e.leaf])]) := by
  simp only [World.roots, AuditLog.rooted, AuditLog.push, AuditMerkleTree.insert, rootHex]

theorem roots_recordInner (io : Io) (e : Entry) (w : World) :
    (exec (recordInner P io e) w).2.roots = World.roots ⟨(w.log.push P e).1, w.disk⟩ :=
  congrArg AuditLog.rooted (log_recordInner io e w)

theorem roots_clear (io : Io) (w : World) : (exec (clear io) w).2.roots = (.empty, w.log.rootAfterByIndex) := by
  unfold clear
  rw [exec_bind_ok (exec_modify _ _)]
  refine (Keeps.apply ?_ _).trans rfl
  refine keeps_bind keeps_get fun w => ?_
  -- the tree store, if there is one, and then the file
  cases w.log.sledStore
  case' none => simp only
  case' some dir => refine keeps_bind (keeps_check _ _) fun _ => keeps_bind (keeps_modify fun _ => rfl) fun _ => ?_
  all_goals
    split
    · exact keeps_bind (keeps_check _ _) fun _ => keeps_bind (keeps_modify fun _ => rfl) fun _ => keeps_check _ _
    · exact keeps_pure _

/-! ## Opening a directory -/

theorem roots_open (io : Io) (dir : String) (w : World) (hc : io.createDir = none) :
    (exec (setPersistenceDir P io dir) w).2.roots =
      if io.sledReopen = none then
        (exec (readEvents P io dir (sledTree io (w.disk dir)).isSome) (w.opening io dir)).2.roots
      else ((sledTree io (w.disk dir)).getD w.log.tree, w.log.rootAfterByIndex) := by
  unfold setPersistenceDir
  rw [hc, exec_bind_ok (show exec (check none .io) w = (.ok (), w) from rfl), exec_bind_ok (exec_loadSled io dir w)]
  unfold openSled
  cases hs : io.sledReopen with
  | some e =>
    rw [exec_bind_error (e := .validation s!"open sled tree store: {e}") (by rfl)]
    rfl
  | none =>
    have hopen : exec (check none (fun e => .validation s!"open sled tree store: {e}") >>= fun _ =>
        (modify fun w => { w.setDir dir { w.disk dir with sled := some ((w.disk dir).sled.getD .empty) } with
          log := { w.log with sledStore := some dir } } : AuditM Unit))
        { w with log := { w.log with tree := (sledTree io (w.disk dir)).getD w.log.tree } } =
        (.ok (), w.opening io dir) := rfl
    rw [if_pos rfl, exec_bind_ok hopen, exec_bind]
    generalize exec (readEvents P io dir _) _ = r
    obtain ⟨e | evs, w1⟩ := r
    · rfl
    · refine Keeps.apply ?_ w1
      unfold openAppend
      exact keeps_bind (keeps_check _ _) fun _ => keeps_modify fun _ => rfl

theorem roots_readEvents (io : Io) (dir : String) (w : World) (sledLoaded : Bool) :
    (exec (readEvents P io dir sledLoaded) w).2.roots = match (readOutcome P io (w.disk dir)).1 with
      | .error _ => w.roots
      | .ok (evs, m) => ((if sledLoaded then AuditLog.verify P else AuditLog.replay P) (w.log.setMeta m) evs).2.rooted := by
  cases he : (w.disk dir).events with
  | none =>
    have hread : ∃ e, readText io.read (w.disk dir) = .error e := by
      unfold readText
      cases io.read with
      | some e => exact ⟨_, rfl⟩
      | none => rw [he]; exact ⟨_, rfl⟩
    obtain ⟨e, hread⟩ := hread
    unfold readEvents readOutcome
    rw [exec_bind_ok (exec_get w), he, hread]
    rfl
  | some content =>
    rw [exec_readEvents_some he]
    unfold World.readThen
    generalize readOutcome P io (w.disk dir) = o
    obtain ⟨e | ⟨evs, m⟩, d⟩ := o <;> rfl

theorem rooted_verify {log : AuditLog} {evs : List PersistedEvent} :
    ((evs ≠ [] ∧ log.events = [] ∧ ∀ ev ∈ evs, (checkedLeaf P log.leafKey ev).isSome ∧ ev.index < log.tree.leafCount) →
      (log.verify P evs).2.rooted = (log.tree, evs.map (·.rootAfter))) ∧
    (¬ (evs ≠ [] ∧ log.events = [] ∧
      ∀ ev ∈ evs, (checkedLeaf P log.leafKey ev).isSome ∧ ev.index < log.tree.leafCount) →
      (log.verify P evs).2.rooted = log.rooted) := by
  unfold AuditLog.verify
  by_cases hp : evs = []
  · simp [hp]
  by_cases he : log.events = []
  · rw [if_neg hp, if_neg (not_not_intro he)]
    have hspec := @verifyEvents_ok P log.leafKey log.tree.leafCount evs ∅
    constructor
    · rintro ⟨_, _, hv⟩
      rw [hspec.2 ⟨hv, rfl, rfl⟩]
      simp only
      split
      · split <;> rfl
      · rfl
    · intro hn
      generalize hr : verifyEvents P log.leafKey log.tree.leafCount evs ∅ log.events = r
      obtain ⟨e | seqs, events⟩ := r
      · rfl
      · exact absurd ⟨hp, he, (hspec.1 hr).1⟩ hn
  · rw [if_neg hp, if_pos he]
    exact ⟨fun h => absurd h.2.1 he, fun _ => rfl⟩

/-- The replay loop keeps the roots beside the tree exactly when it stops at no index and at no root. -/
theorem replayEvents_roots {key : Option Bytes32} : ∀ {evs : List PersistedEvent} {st : Replay},
    st.rootAfterByIndex = rootHexes P st.tree.leaves →
    ((replayEvents P key evs st).2.rootAfterByIndex = rootHexes P (replayEvents P key evs st).2.tree.leaves ↔
      StopsAtLeaf P key st.tree.leaves evs)
  | [], st, h => by simp [replayEvents, StopsAtLeaf, h]
  | ev :: evs, st, h => by
    rw [replayEvents, StopsAtLeaf]
    cases hr : recomputeLeaf P key ev with
    | error e =>
      have hn : checkedLeaf P key ev = none := by simp [checkedLeaf, hr]
      simp [hn, h]
    | ok leaf =>
      by_cases hx : frToHex leaf = ev.leafHex
      · have hc : checkedLeaf P key ev = some leaf := checkedLeaf_eq_some.2 ⟨hr, hx⟩
        have hne := rootHexes_ne_concat (P := P) st.tree.leaves leaf
        simp only [hc, hx, ne_eq, not_true_eq_false, if_false, AuditMerkleTree.insert]
        by_cases hi : st.tree.leaves.length = ev.index
        · by_cases hroot : frToHex ((⟨st.tree.leaves ++ [leaf]⟩ : AuditMerkleTree 20).root P) = ev.rootAfter
          · have hroot' : rootHex P (st.tree.leaves ++ [leaf]) = ev.rootAfter := hroot
            simp only [hi, hroot, not_true_eq_false, if_false, hroot', true_and]
            exact replayEvents_roots (by rw [rootHexes_concat, ← h, hroot'])
          · have hroot' : ¬ ev.rootAfter = rootHex P (st.tree.leaves ++ [leaf]) := fun he => hroot he.symm
            simp only [hi, hroot, not_true_eq_false, not_false_eq_true, if_false, if_true, hroot', false_and, and_false,
              iff_false, h]
            exact hne
        · have hi' : ¬ ev.index = st.tree.leaves.length := fun he => hi he.symm
          simp only [hi, not_false_eq_true, if_true, hi', false_and, iff_false, h]
          exact hne
      · have hn : checkedLeaf P key ev = none := by simp [checkedLeaf, hr, hx]
        simp [hx, hn, h]

theorem rooted_replay {log : AuditLog} {evs : List PersistedEvent}
    (hal : log.rootAfterByIndex = rootHexes P log.tree.leaves) :
    ((log.replay P evs).2.rootAfterByIndex = rootHexes P (log.replay P evs).2.tree.leaves ↔
      (evs ≠ [] → log.events = [] → log.leafCount = 0 → StopsAtLeaf P log.leafKey [] evs)) := by
  unfold AuditLog.replay
  by_cases hp : evs = []
  · simp [hp, hal]
  by_cases hg : log.events ≠ [] ∨ log.tree.leafCount ≠ 0
  · rw [if_neg hp, if_pos hg]
    simp only [hal, true_iff]
    exact fun _ he hc => absurd hg (not_or.2 ⟨not_not_intro he, not_not_intro hc⟩)
  · rw [if_neg hp, if_neg hg]
    simp only [not_or, not_not] at hg
    have hnil : log.tree.leaves = [] := List.eq_nil_of_length_eq_zero hg.2
    have hspec := @replayEvents_roots P log.leafKey evs ⟨log.tree, log.rootAfterByIndex, ∅, log.events⟩ hal
    simp only [hnil] at hspec
    have hc : log.leafCount = 0 := hg.2
    simp only [hp, hg.1, hc, ne_eq, not_false_eq_true, forall_const, ← hspec]
    generalize replayEvents P log.leafKey evs _ = r
    obtain ⟨e | u, st⟩ := r <;> exact Iff.rfl

theorem openKeepsRoots_of_unread (hal : Aligned P w)
    (hno : ∀ evs, ¬ Reads P w io dir evs) : OpenKeepsRoots P w io dir ↔
      w.log.rootAfterByIndex = rootHexes P ((sledTree io (w.disk dir)).getD w.log.tree).leaves := by
  unfold OpenKeepsRoots
  cases sledTree io (w.disk dir) with
  | none =>
    simp only [Option.getD_none]
    exact ⟨fun _ => hal, fun _ evs hr => absurd hr (hno evs)⟩
  | some tree =>
    have hna : ∀ evs, ¬ Adopts P w io dir tree evs := fun evs h => hno evs h.1
    have hroots : w.log.rootAfterByIndex = rootHexes P w.log.tree.leaves := hal
    simp only [hna, false_implies, implies_true, not_false_eq_true, true_and, forall_const, Option.getD_some, hroots]

theorem aligned_iff_roots (h : w.roots = (tree, roots)) :
    Aligned P w ↔ roots = rootHexes P tree.leaves := by
  obtain ⟨rfl, rfl⟩ := Prod.mk.inj h
  exact Iff.rfl

/-- **Opening a directory**, whatever fails on the way. -/
theorem aligned_open (hal : Aligned P w) (hc : io.createDir = none) (dir : String) :
    Aligned P (exec (setPersistenceDir P io dir) w).2 ↔ OpenKeepsRoots P w io dir := by
  have hroots := roots_open (P := P) io dir w hc
  by_cases hs : io.sledReopen = none
  · rw [if_pos hs, roots_readEvents, opening_disk] at hroots
    cases ho : (readOutcome P io (w.disk dir).withSled).1 with
    | error e =>
      have hno : ∀ evs, ¬ Reads P w io dir evs := by
        rintro evs ⟨_, ⟨m, d, hread⟩, _⟩
        rw [hread] at ho
        cases ho
      rw [ho] at hroots
      rw [openKeepsRoots_of_unread hal hno]
      exact aligned_iff_roots hroots
    | ok found =>
      obtain ⟨evs, m⟩ := found
      have hreads : ∀ evs', Reads P w io dir evs' ↔ evs' = evs ∧ evs ≠ [] ∧ w.log.events = [] := by
        intro evs'
        constructor
        · rintro ⟨_, ⟨m', d, hread⟩, hne, he⟩
          rw [hread] at ho
          cases ho
          exact ⟨rfl, hne, he⟩
        · rintro ⟨rfl, hne, he⟩
          exact ⟨hs, ⟨m, (readOutcome P io (w.disk dir).withSled).2, by rw [← ho]⟩, hne, he⟩
      rw [ho] at hroots
      unfold OpenKeepsRoots
      cases ht : sledTree io (w.disk dir) with
      | none =>
        rw [ht] at hroots
        have hlog : (w.opening io dir).log.setMeta m = (w.log.opening none dir).setMeta m := by rw [← ht]; rfl
        simp only [Option.isSome_none, Bool.false_eq_true, if_false, hlog] at hroots
        have hspec := @rooted_replay P ((w.log.opening none dir).setMeta m) evs hal
        rw [aligned_iff_roots hroots]
        refine hspec.trans ⟨fun h evs' hr hlc => ?_, fun h hne he hlc => ?_⟩
        · obtain ⟨rfl, hne, he⟩ := (hreads evs').1 hr
          exact h hne he hlc
        · exact h evs ((hreads evs).2 ⟨rfl, hne, he⟩) hlc
      | some tree =>
        rw [ht] at hroots
        have hlog : (w.opening io dir).log.setMeta m = (w.log.opening (some tree) dir).setMeta m := by rw [← ht]; rfl
        simp only [Option.isSome_some, if_true, hlog] at hroots
        obtain ⟨hadopt, hkeep⟩ := @rooted_verify P ((w.log.opening (some tree) dir).setMeta m) evs
        have hadopts : ∀ evs', Adopts P w io dir tree evs' ↔ evs' = evs ∧ (evs ≠ [] ∧ w.log.events = [] ∧
            ∀ ev ∈ evs, (checkedLeaf P w.log.leafKey ev).isSome ∧ ev.index < tree.leafCount) := by
          intro evs'
          unfold Adopts
          rw [hreads]
          constructor
          · rintro ⟨⟨rfl, hne, he⟩, hv⟩
            exact ⟨rfl, hne, he, hv⟩
          · rintro ⟨rfl, hne, he, hv⟩
            exact ⟨⟨rfl, hne, he⟩, hv⟩
        by_cases hv : evs ≠ [] ∧ w.log.events = [] ∧
            ∀ ev ∈ evs, (checkedLeaf P w.log.leafKey ev).isSome ∧ ev.index < tree.leafCount
        · rw [aligned_iff_roots (hroots.trans (hadopt hv))]
          refine ⟨fun h => ⟨fun evs' ha => ?_, fun hna => absurd ((hadopts evs).2 ⟨rfl, hv⟩) (hna evs)⟩, fun h => ?_⟩
          · rw [((hadopts evs').1 ha).1]
            exact h
          · exact h.1 evs ((hadopts evs).2 ⟨rfl, hv⟩)
        · have hna : ∀ evs', ¬ Adopts P w io dir tree evs' := fun evs' ha => hv ((hadopts evs').1 ha).2
          have hmem : w.log.rootAfterByIndex = rootHexes P w.log.tree.leaves := hal
          rw [aligned_iff_roots (hroots.trans (hkeep hv))]
          simp only [hna, false_implies, implies_true, not_false_eq_true, true_and, forall_const, ← hmem]
          exact Iff.rfl
  · rw [if_neg hs] at hroots
    rw [openKeepsRoots_of_unread hal fun evs h => hs h.1]
    exact aligned_iff_roots hroots

/-! ## Runs -/

/-- **One step** from aligned roots leaves them aligned exactly when it meets its condition. -/
theorem aligned_step (s : LogStep) (hal : Aligned P w) : Aligned P (stepLog P w s) ↔ KeepsRoots P w s := by
  cases s with
  | record call io =>
    simp only [KeepsRoots, iff_true, stepLog]
    rw [exec_run]
    cases call.entry P w.log.leafKey with
    | none => exact hal
    | some e =>
      rw [aligned_iff_roots ((roots_recordInner io e w).trans (roots_push _ _ _)), rootHexes_concat]
      have hroots : w.log.rootAfterByIndex = rootHexes P w.log.tree.leaves := hal
      rw [hroots]
  | setPersistenceDir dir io =>
    simp only [KeepsRoots, stepLog]
    cases hc : io.createDir with
    | none =>
      simp only [forall_const]
      exact aligned_open hal hc dir
    | some e =>
      have hsame : (exec (setPersistenceDir P io dir) w).2 = w := by
        unfold setPersistenceDir
        rw [hc]
        rfl
      simp only [hsame, reduceCtorEq, false_implies, iff_true]
      exact hal
  | clear io =>
    simp only [KeepsRoots, stepLog]
    rw [aligned_iff_roots (roots_clear io w), show w.log.rootAfterByIndex = rootHexes P w.log.tree.leaves from hal]
    have hempty : rootHexes P (AuditMerkleTree.empty : AuditMerkleTree 20).leaves = [] := rfl
    rw [hempty, ← List.length_eq_zero_iff, length_rootHexes]
    exact Iff.rfl
  | pruneDomain now dep db io =>
    simp only [KeepsRoots, iff_true, stepLog]
    exact (aligned_of_roots (keeps_pruneDomain io now dep db w)).2 hal
  | setLegalHold dep db hold io =>
    simp only [KeepsRoots, iff_true, stepLog]
    exact (aligned_of_roots (keeps_setLegalHold io dep db hold w)).2 hal

/-- **Historical roots.** From a new log on any disk, `root_after_at` is right in every state of a run of
any operations, with any failures, exactly when every step of the run keeps the roots. -/
theorem historical_roots_iff (P : Prims) (key : Option Bytes32) (disk : String → Dir) (steps : List LogStep) :
    (∀ pre, pre <+: steps → HistoricalRoots P (Runs.run (stepLog P) (World.start key disk) pre).log) ↔
      Runs.Guarded (stepLog P) (KeepsRoots P) (World.start key disk) steps := by
  have hnew : Aligned P (World.start key disk) := rfl
  rw [Runs.guarded_iff (fun w s => aligned_step s) hnew]
  simp only [aligned_iff]

/-! ### A cleared log -/

/-- One insert is recorded and the log is cleared: it has no leaf, and a root after leaf 0. -/
theorem clear_keeps_old_roots : ¬ HistoricalRoots demoPrims (Runs.run (stepLog demoPrims) (World.start none emptyDisk)
    [.record (demoInsert "insert|shop|orders|1") {}, .clear {}]).log := by
  rw [← aligned_iff]
  have hal : Aligned demoPrims (World.start none emptyDisk) := rfl
  have hrec := (aligned_step (.record (demoInsert "insert|shop|orders|1") {}) hal).2 trivial
  rw [Runs.run_cons, Runs.run_cons, Runs.run_nil, aligned_step (.clear {}) hrec]
  have hroots : (stepLog demoPrims (World.start none emptyDisk) (.record (demoInsert "insert|shop|orders|1") {})).roots =
      _ := (congrArg (fun r => r.2.roots) (exec_run _ _ _)).trans
    ((roots_recordInner {} (demoEntry "insert|shop|orders|1") _).trans (roots_push _ _ _))
  intro hcount
  have htree := congrArg (fun r => r.1.leaves.length) hroots
  have hzero : (stepLog demoPrims (World.start none emptyDisk)
    (.record (demoInsert "insert|shop|orders|1") {})).log.tree.leaves.length = 0 := hcount
  simp only [World.roots, AuditLog.rooted, hzero] at htree
  simp at htree

end

end Audit
