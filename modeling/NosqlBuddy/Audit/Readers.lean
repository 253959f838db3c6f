import NosqlBuddy.Audit.Replay

/-!
# What the two readers accept

The specifications of the loops of `replay_file` and `verify_against_tree`, and of the two readers as
operations on the log and the disk. Later modules use these and never unfold the loops again.

* `replayEvents_ok` — the replay loop succeeds exactly on a *chained* list of events (`Chained`): each
  has the leaf it stores, its position as index, and the root of the leaves so far as `root_after`;
* `verifyEvents_ok` — the verification loop succeeds exactly when each event has the leaf it stores
  and an index below the leaf count, in any order and number;
* `exec_replayFile`, `exec_verifyAgainstTree` — both readers in terms of `readOutcome`, what a data
  directory alone says about its file.
-/

namespace Audit
open Mutation Text

section
variable (P : Prims)

/-! ## The loops -/

/-- The leaf of an event that passes the leaf check. -/
def checkedLeaf (leafKey : Option Bytes32) (ev : PersistedEvent) : Option Fr :=
  match recomputeLeaf P leafKey ev with
  | .ok leaf => if frToHex leaf = ev.leafHex then some leaf else none
  | .error _ => none

/-- The leaves of the events, in order. -/
def leavesOf (leafKey : Option Bytes32) (evs : List PersistedEvent) : List Fr :=
  evs.filterMap (checkedLeaf P leafKey)

/-- `fr_to_hex(tree.root())` of a tree with these leaves. -/
def rootHex (leaves : List Fr) : String := frToHex ((⟨leaves⟩ : AuditMerkleTree 20).root P)

/-- The roots after each of the leaves. -/
def rootHexes (leaves : List Fr) : List String :=
  (List.range leaves.length).map fun i => rootHex P (leaves.take (i + 1))

/-- The in-memory events of a list of lines, and the counters after them. -/
def countEvents : List PersistedEvent → (Finmap fun _ : Domain => Nat) →
    List AuditEvent × Finmap fun _ : Domain => Nat
  | [], seqs => ([], seqs)
  | ev :: evs, seqs =>
    let rest := countEvents evs (countEvent seqs ev).2
    ((countEvent seqs ev).1 :: rest.1, rest.2)

/-- Each event has the leaf it stores, its position as index and the root so far as `root_after`, when
the tree starts with `leaves`. -/
def Chained (leafKey : Option Bytes32) : List Fr → List PersistedEvent → Prop
  | _, [] => True
  | leaves, ev :: evs => ∃ leaf, checkedLeaf P leafKey ev = some leaf ∧ ev.index = leaves.length ∧
      ev.rootAfter = rootHex P (leaves ++ [leaf]) ∧ Chained leafKey (leaves ++ [leaf]) evs

end

section
variable {P : Prims} {key : Option Bytes32}

theorem checkedLeaf_eq_some :
    checkedLeaf P key ev = some leaf ↔ recomputeLeaf P key ev = .ok leaf ∧ frToHex leaf = ev.leafHex := by
  unfold checkedLeaf
  split
  · next l hl =>
    rw [hl]
    constructor
    · intro h
      split at h
      · next hx => cases h; exact ⟨rfl, hx⟩
      · cases h
    · rintro ⟨h1, h2⟩
      cases h1
      rw [if_pos h2]
  · next e he => simp [he]

@[simp] theorem rootHexes_nil : rootHexes P [] = [] := rfl

@[simp] theorem length_rootHexes (leaves : List Fr) : (rootHexes P leaves).length = leaves.length := by
  simp [rootHexes]

theorem rootHexes_concat (leaves : List Fr) (leaf : Fr) :
    rootHexes P (leaves ++ [leaf]) = rootHexes P leaves ++ [rootHex P (leaves ++ [leaf])] := by
  have hold : (List.range leaves.length).map (fun i => rootHex P ((leaves ++ [leaf]).take (i + 1))) =
      rootHexes P leaves := by
    refine List.map_congr_left fun i hi => ?_
    rw [List.take_append_of_le_length (Nat.succ_le_of_lt (List.mem_range.1 hi))]
  rw [rootHexes, List.length_append, List.length_singleton, List.range_succ, List.map_append, hold,
    List.map_singleton, List.take_of_length_le (by simp)]

theorem getElem?_rootHexes (leaves : List Fr) (i : Nat) :
    (rootHexes P leaves)[i]? = if i < leaves.length then some (rootHex P (leaves.take (i + 1))) else none := by
  unfold rootHexes
  rw [List.getElem?_map]
  split
  · next h => simp [List.getElem?_range h]
  · next h => simp [List.getElem?_eq_none (by simp; omega : (List.range leaves.length).length ≤ i)]

theorem leavesOf_cons_some (h : checkedLeaf P key ev = some leaf)
    (evs : List PersistedEvent) : leavesOf P key (ev :: evs) = leaf :: leavesOf P key evs := by
  simp [leavesOf, h]

/-- The state of the replay loop after a chained list of events. -/
def Replay.extend (P : Prims) (key : Option Bytes32) (st : Replay) (evs : List PersistedEvent) : Replay :=
  ⟨⟨st.tree.leaves ++ leavesOf P key evs⟩, st.rootAfterByIndex ++ evs.map (·.rootAfter),
    (countEvents evs st.seqCounters).2, st.events ++ (countEvents evs st.seqCounters).1⟩

/-- **The replay loop accepts the chained lists**, and appends what they say. -/
theorem replayEvents_ok : ∀ {evs : List PersistedEvent} {st st' : Replay},
    replayEvents P key evs st = (.ok (), st') ↔ Chained P key st.tree.leaves evs ∧ st' = st.extend P key evs
  | [], st, st' => by
    have he : st.extend P key [] = st := by simp [Replay.extend, leavesOf, countEvents]
    rw [replayEvents, he]
    simp [Chained, eq_comm]
  | ev :: evs, st, st' => by
    rw [replayEvents]
    cases hr : recomputeLeaf P key ev with
    | error e =>
      have hn : checkedLeaf P key ev = none := by simp [checkedLeaf, hr]
      simp [Chained, hn]
    | ok leaf =>
      by_cases hx : frToHex leaf = ev.leafHex
      · have hc : checkedLeaf P key ev = some leaf := checkedLeaf_eq_some.2 ⟨hr, hx⟩
        simp only [hx, ne_eq, not_true_eq_false, if_false, AuditMerkleTree.insert]
        by_cases hi : st.tree.leaves.length = ev.index
        · by_cases hroot : rootHex P (st.tree.leaves ++ [leaf]) = ev.rootAfter
          · have hroot' : frToHex ((⟨st.tree.leaves ++ [leaf]⟩ : AuditMerkleTree 20).root P) = ev.rootAfter := hroot
            simp only [hi, hroot', not_true_eq_false, if_false, replayEvents_ok, Chained, hc,
              Option.some.injEq, exists_eq_left', hroot, true_and]
            refine and_congr_right fun _ => ?_
            rw [Replay.extend, Replay.extend, leavesOf_cons_some hc]
            simp [countEvents]
          · have hroot' : ¬ frToHex ((⟨st.tree.leaves ++ [leaf]⟩ : AuditMerkleTree 20).root P) = ev.rootAfter := hroot
            simp only [hi, hroot', not_true_eq_false, not_false_eq_true, if_false, if_true, Prod.mk.injEq,
              reduceCtorEq, false_and, Chained, hc, Option.some.injEq, exists_eq_left', false_iff, not_and]
            exact fun h _ => absurd h.2.1.symm hroot
        · simp only [hi, not_false_eq_true, if_true, Prod.mk.injEq, reduceCtorEq, false_and, Chained, hc,
            Option.some.injEq, exists_eq_left', false_iff, not_and]
          exact fun h _ => absurd h.1.symm hi
      · have hn : checkedLeaf P key ev = none := by simp [checkedLeaf, hr, hx]
        simp [hx, Chained, hn]

theorem chained_iff : ∀ (evs : List PersistedEvent) (leaves : List Fr), Chained P key leaves evs ↔
    (∀ ev ∈ evs, (checkedLeaf P key ev).isSome) ∧ ∀ i ev, evs[i]? = some ev →
      ev.index = leaves.length + i ∧ ev.rootAfter = rootHex P (leaves ++ (leavesOf P key evs).take (i + 1))
  | [], leaves => by simp [Chained]
  | ev :: evs, leaves => by
    cases hc : checkedLeaf P key ev with
    | none => simp [Chained, hc]
    | some leaf =>
      simp only [Chained, hc, Option.some.injEq, exists_eq_left', chained_iff evs, List.mem_cons,
        forall_eq_or_imp, Option.isSome_some, true_and, leavesOf_cons_some hc]
      constructor
      · rintro ⟨hi, hr, hall, hrest⟩
        refine ⟨hall, fun i ev' he => ?_⟩
        cases i with
        | zero =>
          obtain rfl : ev = ev' := by simpa using he
          simpa using ⟨hi, hr⟩
        | succ i =>
          have := hrest i ev' (by simpa using he)
          simp only [List.length_append, List.length_singleton, List.append_assoc, List.singleton_append] at this
          refine ⟨by omega, ?_⟩
          rw [this.2, List.take_succ_cons]
      · rintro ⟨hall, hrest⟩
        have h0 := hrest 0 ev (by simp)
        refine ⟨by simpa using h0.1, by simpa using h0.2, hall, fun i ev' he => ?_⟩
        have := hrest (i + 1) ev' (by simpa using he)
        simp only [List.length_append, List.length_singleton, List.append_assoc, List.singleton_append]
        refine ⟨by omega, ?_⟩
        rw [this.2, List.take_succ_cons]

theorem chained_rootHexes : ∀ {evs : List PersistedEvent} {leaves : List Fr}, Chained P key leaves evs →
    rootHexes P (leaves ++ leavesOf P key evs) = rootHexes P leaves ++ evs.map (·.rootAfter)
  | [], leaves, _ => by simp [leavesOf]
  | ev :: evs, leaves, ⟨leaf, hc, _, hroot, hrest⟩ => by
    have ih := chained_rootHexes hrest
    rw [rootHexes_concat, List.append_assoc, List.singleton_append] at ih
    rw [leavesOf_cons_some hc, ih, List.map_cons, hroot]
    simp

theorem Chained.take (n : Nat) : ∀ {leaves : List Fr}, Chained P key leaves evs →
    Chained P key leaves (evs.take n) ∧ leavesOf P key (evs.take n) = (leavesOf P key evs).take n := by
  induction n generalizing evs with
  | zero =>
    intro leaves _
    exact ⟨trivial, by simp [leavesOf]⟩
  | succ n ih =>
    cases evs with
    | nil => exact fun _ => ⟨trivial, rfl⟩
    | cons ev evs =>
      rintro leaves ⟨leaf, hc, hindex, hroot, hrest⟩
      obtain ⟨hchained, hleaves⟩ := ih hrest
      rw [List.take_succ_cons, leavesOf_cons_some hc, leavesOf_cons_some hc, hleaves, List.take_succ_cons]
      exact ⟨⟨leaf, hc, hindex, hroot, hchained⟩, rfl⟩

theorem getElem?_leavesOf : ∀ {evs : List PersistedEvent}, (∀ ev ∈ evs, (checkedLeaf P key ev).isSome) → ∀ i : Nat,
    (leavesOf P key evs)[i]? = (evs[i]?).bind (checkedLeaf P key)
  | [], _, i => by simp [leavesOf]
  | ev :: evs, h, i => by
    obtain ⟨leaf, hc⟩ := Option.isSome_iff_exists.1 (h ev (by simp))
    rw [leavesOf_cons_some hc]
    cases i with
    | zero => simp [hc]
    | succ i => simpa using getElem?_leavesOf (fun e he => h e (List.mem_cons_of_mem ev he)) i

theorem length_leavesOf (h : ∀ ev ∈ evs, (checkedLeaf P key ev).isSome) :
    (leavesOf P key evs).length = evs.length := by
  induction evs with
  | nil => rfl
  | cons ev evs ih =>
    obtain ⟨leaf, hc⟩ := Option.isSome_iff_exists.1 (h ev (by simp))
    rw [leavesOf_cons_some hc, List.length_cons, List.length_cons, ih fun e he => h e (List.mem_cons_of_mem ev he)]

/-- **The verification loop accepts** events with their own leaf and an index below the count. -/
theorem verifyEvents_ok {n : Nat} : ∀ {evs : List PersistedEvent} {seqs seqs' : Finmap fun _ : Domain => Nat}
    {events events' : List AuditEvent},
    verifyEvents P key n evs seqs events = (.ok seqs', events') ↔
      (∀ ev ∈ evs, (checkedLeaf P key ev).isSome ∧ ev.index < n) ∧ seqs' = (countEvents evs seqs).2 ∧
        events' = events ++ (countEvents evs seqs).1
  | [], seqs, seqs', events, events' => by
    rw [verifyEvents, countEvents]
    simp only [Prod.mk.injEq, Except.ok.injEq, List.not_mem_nil, false_implies, implies_true, List.append_nil, true_and]
    exact and_congr eq_comm eq_comm
  | ev :: evs, seqs, seqs', events, events' => by
    rw [verifyEvents]
    cases hr : recomputeLeaf P key ev with
    | error e =>
      have hn : checkedLeaf P key ev = none := by simp [checkedLeaf, hr]
      simp [hn]
    | ok leaf =>
      by_cases hx : frToHex leaf = ev.leafHex
      · have hc : checkedLeaf P key ev = some leaf := checkedLeaf_eq_some.2 ⟨hr, hx⟩
        by_cases hi : ev.index < n
        · simp only [hx, ne_eq, not_true_eq_false, if_false, ge_iff_le, Nat.not_le.2 hi, verifyEvents_ok,
            List.mem_cons, forall_eq_or_imp, hc, Option.isSome_some, hi, and_self, true_and, countEvents,
            List.append_assoc, List.singleton_append]
        · simp [hx, Nat.le_of_not_lt hi, hi]
      · have hn : checkedLeaf P key ev = none := by simp [checkedLeaf, hr, hx]
        simp [hx, hn]

end

/-! ## Reading a directory -/

section
variable (P : Prims)

/-- What `read_to_string` gives for the file of a directory. -/
def readText (fault : Option String) (d : Dir) : Except AuditError (List Char) :=
  match fault with
  | some e => .error (.io e)
  | none =>
    match d.events with
    | none => .error (.io "No such file or directory (os error 2)")
    | some bytes =>
      match bytes.utf8Decode? with
      | some text => .ok text.toList
      | none => .error (.io "stream did not contain valid UTF-8")

/-- Cut the file before its first bad line. -/
def cutFile (io : Io) (d : Dir) (text : List Char) : Except AuditError Unit × Dir :=
  match (scanLines P 0 (lines text)).2 with
  | none => (.ok (), d)
  | some badIdx =>
    match io.rewrite with
    | some (content, e) => (.error (.io e), { d with events := some content })
    | none => (.ok (), { d with events := some (String.ofList (cleanText (lines text) badIdx)).toByteArray })

/-- What the first half of a reader finds: the events and the metadata, and the directory it leaves. -/
def readOutcome (io : Io) (d : Dir) : Except AuditError (List PersistedEvent × Metadata) × Dir :=
  match readText io.read d with
  | .error e => (.error e, d)
  | .ok text =>
    match cutFile P io d text with
    | (.error e, d') => (.error e, d')
    | (.ok (), d') =>
      match readText io.reread d' with
      | .error e => (.error e, d')
      | .ok text' => (.ok ((scanLines P 0 (lines text)).1, metadataLines P (lines text')), d')

/-- The events that both readers find in a file: those before the first bad line. -/
def fileEvents (content : ByteArray) : Option (List PersistedEvent) :=
  content.utf8Decode?.map fun text => (scanLines P 0 (lines text.toList)).1

def AuditLog.setMeta (log : AuditLog) (m : Metadata) : AuditLog :=
  { log with legalHolds := m.legalHolds, retainedDomainRoots := m.retained }

end

section
variable {P : Prims}

theorem World.setDir_self (w : World) (dir : String) : w.setDir dir (w.disk dir) = w := by
  simp [World.setDir]

theorem exec_readToString (fault : Option String) (dir : String) (w : World) :
    exec (readToString fault dir) w = (readText fault (w.disk dir), w) := by
  unfold readToString readText
  rw [exec_bind_ok (exec_get w)]
  cases fault with
  | some e => rfl
  | none =>
    cases (w.disk dir).events with
    | none => rfl
    | some bytes =>
      simp only
      cases bytes.utf8Decode? <;> rfl

theorem exec_replayMetadataLines (io : Io) (dir : String) (w : World) :
    exec (replayMetadataLines P io dir) w = match readText io.reread (w.disk dir) with
      | .error e => (.error e, w)
      | .ok text => (.ok (), { w with log := w.log.setMeta (metadataLines P (lines text)) }) := by
  unfold replayMetadataLines
  rw [exec_bind, exec_readToString]
  cases readText io.reread (w.disk dir) <;> rfl

theorem exec_readLog (io : Io) (dir : String) (w : World) :
    exec (readLog P io dir) w = match readOutcome P io (w.disk dir) with
      | (.error e, d) => (.error e, w.setDir dir d)
      | (.ok (parsed, m), d) => (.ok parsed, { w.setDir dir d with log := w.log.setMeta m }) := by
  unfold readLog readOutcome cutFile
  rw [exec_bind, exec_readToString]
  cases readText io.read (w.disk dir) with
  | error e => simp [World.setDir_self]
  | ok text =>
    simp only
    generalize scanLines P 0 (lines text) = scanned
    obtain ⟨parsed, _ | bad⟩ := scanned
    · rw [exec_bind, exec_replayMetadataLines]
      simp only
      cases readText io.reread (w.disk dir) <;> simp [World.setDir_self]
    · cases io.rewrite with
      | some f => simp [exec_bind]
      | none =>
        simp only
        rw [exec_bind_ok (exec_modify _ _), exec_bind, exec_replayMetadataLines]
        have hdir : ∀ d, (w.setDir dir d).disk dir = d := fun d => by simp [World.setDir]
        simp only [hdir]
        cases readText io.reread _ <;> simp [World.setDir]

end

/-! ## The events of a file -/

section
variable {P : Prims}

theorem readText_encoded (h : d.events = some (String.ofList text).toByteArray) :
    readText none d = .ok text := by
  simp [readText, h, String.toByteArray_ofList]

theorem readOutcome_of_readText (h : readText none d = .ok text) :
    ∃ m d', readOutcome P {} d = (.ok ((scanLines P 0 (lines text)).1, m), d') := by
  have hcut : ∃ text' d', cutFile P {} d text = (.ok (), d') ∧ readText none d' = .ok text' := by
    unfold cutFile
    cases (scanLines P 0 (lines text)).2 with
    | none => exact ⟨text, d, rfl, h⟩
    | some bad => exact ⟨_, _, rfl, readText_encoded rfl⟩
  obtain ⟨text', d', hc, hr⟩ := hcut
  refine ⟨metadataLines P (lines text'), d', ?_⟩
  unfold readOutcome
  simp only [h, hc, hr]

/-- **Reading an undamaged disk** succeeds exactly when the file is UTF-8, with the events of the file. -/
theorem readOutcome_ok (hd : d.events = some content) :
    (∃ m d', readOutcome P {} d = (.ok (evs, m), d')) ↔ fileEvents P content = some evs := by
  unfold fileEvents
  cases hdec : content.utf8Decode? with
  | none =>
    have hread : readText none d = .error (.io "stream did not contain valid UTF-8") := by simp [readText, hd, hdec]
    simp [readOutcome, hread]
  | some text =>
    have hread : readText none d = .ok text.toList := by simp [readText, hd, hdec]
    obtain ⟨m, d', h⟩ := readOutcome_of_readText (P := P) hread
    rw [h]
    simp

end

/-! ## The readers as functions of the log -/

section
variable (P : Prims)

/-- The second half of `replay_file`. -/
def AuditLog.replay (log : AuditLog) (parsed : List PersistedEvent) : Except AuditError Unit × AuditLog :=
  if parsed = [] then (.ok (), log)
  else if log.events ≠ [] ∨ log.tree.leafCount ≠ 0 then
    (.error (.zkAudit s!"cannot replay into a non-empty audit log ({log.events.length} event(s) already in memory)"), log)
  else match replayEvents P log.leafKey parsed ⟨log.tree, log.rootAfterByIndex, ∅, log.events⟩ with
    | (.error e, st) => (.error e, { log with
        tree := st.tree, rootAfterByIndex := st.rootAfterByIndex, events := st.events })
    | (.ok (), st) => (.ok (), { log with
        tree := st.tree, rootAfterByIndex := st.rootAfterByIndex, sequences := st.seqCounters
        events := applyRetention log.retainedDomainRoots st.events })

/-- The second half of `verify_against_tree`. -/
def AuditLog.verify (log : AuditLog) (parsed : List PersistedEvent) : Except AuditError Unit × AuditLog :=
  if parsed = [] then (.ok (), log)
  else if log.events ≠ [] then
    (.error (.zkAudit s!"cannot verify into a non-empty audit log ({log.events.length} event(s) already in memory)"), log)
  else match verifyEvents P log.leafKey log.tree.leafCount parsed ∅ log.events with
    | (.error e, events) => (.error e, { log with events := events })
    | (.ok seqCounters, events) =>
      let log := { log with events := events, sequences := seqCounters, rootAfterByIndex := parsed.map (·.rootAfter) }
      match parsed.getLast? with
      | some last =>
        if last.rootAfter ≠ frToHex (log.tree.root P) then
          (.error (.zkAudit
            s!"audit log tamper detected: final root mismatch (stored {last.rootAfter}, tree {frToHex (log.tree.root P)})"),
            log)
        else (.ok (), { log with events := applyRetention log.retainedDomainRoots log.events })
      | none => (.ok (), { log with events := applyRetention log.retainedDomainRoots log.events })

/-- Run the second half of a reader on what the first half found. -/
def World.readThen (w : World) (io : Io) (dir : String)
    (f : AuditLog → List PersistedEvent → Except AuditError Unit × AuditLog) :
    Except AuditError (List PersistedEvent) × World :=
  match readOutcome P io (w.disk dir) with
  | (.error e, d) => (.error e, w.setDir dir d)
  | (.ok (parsed, m), d) =>
    let r := f (w.log.setMeta m) parsed
    (r.1.map fun _ => parsed, { w.setDir dir d with log := r.2 })

end

section
variable {P : Prims}

theorem exec_replayFile (io : Io) (dir : String) (w : World) :
    exec (replayFile P io dir) w = w.readThen P io dir (AuditLog.replay P) := by
  unfold replayFile World.readThen
  rw [exec_bind, exec_readLog]
  obtain ⟨_ | ⟨parsed, m⟩, d⟩ := readOutcome P io (w.disk dir)
  · rfl
  · simp only [AuditLog.replay, List.isEmpty_iff]
    by_cases hp : parsed = []
    · subst hp
      simp [Except.map]
    · simp only [hp, if_false]
      rw [exec_bind_ok (exec_get _)]
      by_cases hg : (w.log.setMeta m).events ≠ [] ∨ (w.log.setMeta m).tree.leafCount ≠ 0
      · simp only [hg, if_true]
        rfl
      · simp only [hg, if_false]
        rw [exec_bind_ok (exec_set _ _)]
        generalize replayEvents P _ parsed _ = r
        obtain ⟨_ | _, st⟩ := r <;> rfl

theorem exec_verifyAgainstTree (io : Io) (dir : String) (w : World) :
    exec (verifyAgainstTree P io dir) w = w.readThen P io dir (AuditLog.verify P) := by
  unfold verifyAgainstTree World.readThen
  rw [exec_bind, exec_readLog]
  obtain ⟨_ | ⟨parsed, m⟩, d⟩ := readOutcome P io (w.disk dir)
  · rfl
  · simp only [AuditLog.verify, List.isEmpty_iff]
    by_cases hp : parsed = []
    · subst hp
      simp [Except.map]
    · simp only [hp, if_false]
      rw [exec_bind_ok (exec_get _)]
      by_cases hg : (w.log.setMeta m).events ≠ []
      · rw [if_pos hg, if_pos hg]
        rfl
      · rw [if_neg hg, if_neg hg, exec_bind_ok (exec_set _ _)]
        generalize verifyEvents P _ _ parsed _ _ = r
        obtain ⟨_ | seqs, events⟩ := r
        · rfl
        · simp only
          rw [exec_bind_ok (exec_modify _ _)]
          cases parsed.getLast? with
          | none => rfl
          | some last =>
            simp only
            by_cases hl : last.rootAfter ≠ frToHex ((w.log.setMeta m).tree.root P)
            · rw [if_pos hl, if_pos hl]
              rfl
            · rw [if_neg hl, if_neg hl]
              rfl

end

/-! ## Restoring a log -/

/-- Nothing is recorded or restored in the log yet. -/
structure AuditLog.Unused (log : AuditLog) : Prop where
  events : log.events = []
  sequences : log.sequences = ∅
  roots : log.rootAfterByIndex = []

/-- What both readers take from the lines besides the tree. -/
def AuditLog.restored (log : AuditLog) (evs : List PersistedEvent) : AuditLog :=
  { log with
    sequences := (countEvents evs ∅).2
    rootAfterByIndex := evs.map (·.rootAfter)
    events := applyRetention log.retainedDomainRoots (countEvents evs ∅).1 }

/-- The checks of `verify_against_tree` for a tree with these leaves. -/
def Verified (P : Prims) (key : Option Bytes32) (leaves : List Fr) (evs : List PersistedEvent) : Prop :=
  (∀ ev ∈ evs, (checkedLeaf P key ev).isSome ∧ ev.index < leaves.length) ∧
    ∀ last, evs.getLast? = some last → last.rootAfter = rootHex P leaves

section
variable {P : Prims} {log log' : AuditLog} {evs : List PersistedEvent}

theorem applyRetention_empty (events : List AuditEvent) : applyRetention ∅ events = events := by
  simp [applyRetention]

theorem AuditLog.Unused.restored_nil (hu : log.Unused) : log.restored [] = log := by
  obtain ⟨h1, h2, h3⟩ := hu
  cases log
  simp_all [AuditLog.restored, countEvents, applyRetention]

/-- **Replay into an unused, empty log** succeeds exactly on the chained lists. -/
theorem replay_ok (hu : log.Unused) (ht : log.tree.leaves = []) :
    log.replay P evs = (.ok (), log') ↔ Chained P log.leafKey [] evs ∧
      log' = { log.restored evs with tree := ⟨leavesOf P log.leafKey evs⟩ } := by
  unfold AuditLog.replay
  by_cases hp : evs = []
  · subst hp
    have hlog : { log.restored [] with tree := ⟨leavesOf P log.leafKey []⟩ } = log := by
      rw [hu.restored_nil]
      obtain ⟨⟨_⟩, _⟩ := log
      simp_all [leavesOf]
    simp [Chained, hlog, eq_comm]
  · have hg : ¬ (log.events ≠ [] ∨ log.tree.leafCount ≠ 0) := by
      simp [hu.events, AuditMerkleTree.leafCount, ht]
    rw [if_neg hp, if_neg hg]
    have hspec := @replayEvents_ok P log.leafKey evs ⟨log.tree, log.rootAfterByIndex, ∅, log.events⟩
    simp only [ht] at hspec
    constructor
    · intro h
      split at h
      · simp at h
      · next st hst =>
        obtain ⟨hc, rfl⟩ := hspec.1 hst
        refine ⟨hc, ?_⟩
        simp only [Prod.mk.injEq, true_and] at h
        rw [← h]
        simp [Replay.extend, AuditLog.restored, ht, hu.events, hu.roots]
    · rintro ⟨hc, rfl⟩
      rw [hspec.2 ⟨hc, rfl⟩]
      simp [Replay.extend, AuditLog.restored, ht, hu.events, hu.roots]

/-- **Verification in an unused log** succeeds exactly when the checks of `Verified` pass. -/
theorem verify_ok (hu : log.Unused) :
    log.verify P evs = (.ok (), log') ↔ Verified P log.leafKey log.tree.leaves evs ∧ log' = log.restored evs := by
  unfold AuditLog.verify
  by_cases hp : evs = []
  · subst hp
    have hv : Verified P log.leafKey log.tree.leaves [] := by simp [Verified]
    simp only [if_true, Prod.mk.injEq, true_and, hv, hu.restored_nil]
    exact eq_comm
  · rw [if_neg hp, if_neg (by simp [hu.events])]
    have hspec := @verifyEvents_ok P log.leafKey log.tree.leafCount evs ∅
    obtain ⟨last, hlast⟩ : ∃ last, evs.getLast? = some last := ⟨_, List.getLast?_eq_some_getLast hp⟩
    have hroot : rootHex P log.tree.leaves = frToHex (log.tree.root P) := rfl
    simp only [Verified, hlast, Option.some.injEq, forall_eq', hroot]
    constructor
    · intro h
      split at h
      · simp at h
      · next seqs events hv =>
        obtain ⟨h1, rfl, rfl⟩ := hspec.1 hv
        split at h
        · simp at h
        · next hl =>
          simp only [Prod.mk.injEq, true_and] at h
          refine ⟨⟨h1, by simpa using hl⟩, ?_⟩
          rw [← h]
          simp [AuditLog.restored, hu.events]
    · rintro ⟨⟨h1, hl⟩, rfl⟩
      rw [hspec.2 ⟨h1, rfl, rfl⟩]
      simp [hl, AuditLog.restored, hu.events]

end

/-! ## Opening a directory -/

/-- The tree that `set_persistence_dir` loads from `tree.sled`. -/
def sledTree (io : Io) (d : Dir) : Option (AuditMerkleTree 20) :=
  match d.sled, io.sledOpen with
  | some db, none =>
    match db.loadTree io.sledGet with
    | .ok (some (tree, _)) => some tree
    | _ => none
  | _, _ => none

/-- The directory with its sled store created, and with its event file created. -/
def Dir.withSled (d : Dir) : Dir := { d with sled := some (d.sled.getD .empty) }

def Dir.withEvents (d : Dir) : Dir := { d with events := some (d.events.getD ByteArray.empty) }

/-- The log when the readers run: the loaded tree, if there is one, and the sled handle. -/
def AuditLog.opening (log : AuditLog) (tree : Option (AuditMerkleTree 20)) (dir : String) : AuditLog :=
  { log with tree := tree.getD log.tree, sledStore := some dir }

section
variable {P : Prims} {dir : String} {w w' : World}

theorem exec_loadSled (io : Io) (dir : String) (w : World) :
    exec (loadSled io dir) w = (.ok (sledTree io (w.disk dir)).isSome,
      { w with log := { w.log with tree := (sledTree io (w.disk dir)).getD w.log.tree } }) := by
  unfold loadSled sledTree
  rw [exec_bind_ok (exec_get w)]
  cases (w.disk dir).sled with
  | none => rfl
  | some db =>
    cases io.sledOpen with
    | some e => rfl
    | none =>
      simp only
      obtain _ | _ | ⟨tree, root⟩ := db.loadTree io.sledGet <;> rfl

/-- The world in which the file is read: tree loaded, sled store open. -/
def World.opening (w : World) (io : Io) (dir : String) : World :=
  { w.setDir dir (w.disk dir).withSled with log := w.log.opening (sledTree io (w.disk dir)) dir }

/-- The world with the event file open for append. -/
def World.opened (w : World) (dir : String) : World :=
  { w.setDir dir (w.disk dir).withEvents with log := { w.log with persistence := some dir } }

theorem exec_setPersistenceDir_sled (P : Prims) (sledOpen : Option String) (dir : String) (w : World) :
    exec (setPersistenceDir P { sledOpen := sledOpen } dir) w =
      match exec (readEvents P { sledOpen := sledOpen } dir (sledTree { sledOpen := sledOpen } (w.disk dir)).isSome)
        (w.opening { sledOpen := sledOpen } dir) with
      | (.error e, w') => (.error e, w')
      | (.ok _, w') => (.ok (), w'.opened dir) := by
  unfold setPersistenceDir
  rw [exec_bind_ok (show exec (check none .io) w = (.ok (), w) from rfl),
    exec_bind_ok (exec_loadSled { sledOpen := sledOpen } dir w)]
  have hopen : exec (openSled { sledOpen := sledOpen } dir)
      { w with log := { w.log with tree := (sledTree { sledOpen := sledOpen } (w.disk dir)).getD w.log.tree } } =
      (.ok (), w.opening { sledOpen := sledOpen } dir) := rfl
  rw [exec_bind_ok hopen, exec_bind]
  generalize exec (readEvents P { sledOpen := sledOpen } dir _) _ = r
  obtain ⟨_ | _, w1⟩ := r <;> rfl

theorem exec_setPersistenceDir (P : Prims) (dir : String) (w : World) :
    exec (setPersistenceDir P {} dir) w =
      match exec (readEvents P {} dir (sledTree {} (w.disk dir)).isSome) (w.opening {} dir) with
      | (.error e, w') => (.error e, w')
      | (.ok _, w') => (.ok (), w'.opened dir) := exec_setPersistenceDir_sled P none dir w

theorem readThen_ok : w.readThen P io dir f = (.ok evs, w') ↔
      ∃ m d log', readOutcome P io (w.disk dir) = (.ok (evs, m), d) ∧ f (w.log.setMeta m) evs = (.ok (), log') ∧
        w' = { w.setDir dir d with log := log' } := by
  unfold World.readThen
  obtain ⟨_ | ⟨parsed, m⟩, d⟩ := readOutcome P io (w.disk dir)
  · simp
  · simp only
    generalize hr : f (w.log.setMeta m) parsed = r
    constructor
    · intro h
      obtain ⟨_ | _, log'⟩ := r
      · simp [Except.map] at h
      · simp only [Except.map, Prod.mk.injEq, Except.ok.injEq] at h
        obtain ⟨rfl, rfl⟩ := h
        exact ⟨m, d, log', rfl, hr, rfl⟩
    · rintro ⟨m', d', log', h1, h2, rfl⟩
      simp only [Prod.mk.injEq, Except.ok.injEq] at h1
      obtain ⟨⟨rfl, rfl⟩, rfl⟩ := h1
      rw [hr] at h2
      subst h2
      rfl

/-- A log that has just been created, whatever its key. -/
structure AuditLog.Fresh (log : AuditLog) : Prop extends log.Unused where
  leaves : log.tree.leaves = []

theorem open_ok : exec (setPersistenceDir P {} dir) w = (.ok (), w') ↔
    ∃ evs w1, exec (readEvents P {} dir (sledTree {} (w.disk dir)).isSome) (w.opening {} dir) = (.ok evs, w1) ∧
      w' = w1.opened dir := by
  rw [exec_setPersistenceDir]
  generalize exec (readEvents P {} dir _) _ = r
  obtain ⟨_ | evs, w1⟩ := r
  · simp
  · simp only [Prod.mk.injEq, true_and, Except.ok.injEq]
    constructor
    · rintro rfl
      exact ⟨evs, w1, ⟨rfl, rfl⟩, rfl⟩
    · rintro ⟨_, _, ⟨_, rfl⟩, rfl⟩
      rfl

theorem opening_disk (io : Io) : (w.opening io dir).disk dir = (w.disk dir).withSled := by
  simp [World.opening, World.setDir]

theorem exec_readEvents_some (he : (w.disk dir).events = some content)
    (sledLoaded : Bool) : exec (readEvents P io dir sledLoaded) w =
      w.readThen P io dir (if sledLoaded then AuditLog.verify P else AuditLog.replay P) := by
  unfold readEvents
  rw [exec_bind_ok (exec_get w), he]
  cases sledLoaded with
  | false => exact exec_replayFile io dir w
  | true => exact exec_verifyAgainstTree io dir w

/-- The world after a reader restored `log` from a directory that it left as `d`. -/
def World.restore (w : World) (dir : String) (d : Dir) (log : AuditLog) : World :=
  World.opened { w.setDir dir d with log := log } dir

theorem opening_setDir (d : Dir) (log : AuditLog) :
    World.opened { (w.opening {} dir).setDir dir d with log := log } dir = w.restore dir d log := by
  simp [World.opened, World.restore, World.opening, World.setDir]

/-- **Opening through the sled store.** -/
theorem open_verified {tree : AuditMerkleTree 20} (hu : w.log.Unused) (hs : sledTree {} (w.disk dir) = some tree)
    {content : ByteArray} (he : (w.disk dir).events = some content) :
    exec (setPersistenceDir P {} dir) w = (.ok (), w') ↔
      ∃ evs m d, readOutcome P {} (w.disk dir).withSled = (.ok (evs, m), d) ∧
        Verified P w.log.leafKey tree.leaves evs ∧
        w' = w.restore dir d (((w.log.opening (some tree) dir).setMeta m).restored evs) := by
  have hev : ((w.opening {} dir).disk dir).events = some content := by rw [opening_disk]; exact he
  have hu' : ∀ m, ((w.log.opening (some tree) dir).setMeta m).Unused := fun m => ⟨hu.events, hu.sequences, hu.roots⟩
  have hlog : (w.opening {} dir).log = w.log.opening (some tree) dir := by rw [← hs]; rfl
  simp only [open_ok, exec_readEvents_some hev, hs, Option.isSome_some, if_true, readThen_ok, opening_disk, hlog,
    verify_ok (hu' _)]
  constructor
  · rintro ⟨evs, w1, ⟨m, d, log', h1, ⟨h2, rfl⟩, rfl⟩, rfl⟩
    exact ⟨evs, m, d, h1, h2, opening_setDir _ _⟩
  · rintro ⟨evs, m, d, h1, h2, rfl⟩
    exact ⟨evs, _, ⟨m, d, _, h1, ⟨h2, rfl⟩, rfl⟩, (opening_setDir _ _).symm⟩

/-- **Opening by replay.** -/
theorem open_replayed (hf : w.log.Fresh) (hs : sledTree {} (w.disk dir) = none)
    (he : (w.disk dir).events = some content) :
    exec (setPersistenceDir P {} dir) w = (.ok (), w') ↔
      ∃ evs m d, readOutcome P {} (w.disk dir).withSled = (.ok (evs, m), d) ∧ Chained P w.log.leafKey [] evs ∧
        w' = w.restore dir d { ((w.log.opening none dir).setMeta m).restored evs with
          tree := ⟨leavesOf P w.log.leafKey evs⟩ } := by
  have hev : ((w.opening {} dir).disk dir).events = some content := by rw [opening_disk]; exact he
  have hu' : ∀ m, ((w.log.opening none dir).setMeta m).Unused := fun m => ⟨hf.events, hf.sequences, hf.roots⟩
  have hlog : (w.opening {} dir).log = w.log.opening none dir := by rw [← hs]; rfl
  have hspec : ∀ m evs log', ((w.log.opening none dir).setMeta m).replay P evs = (.ok (), log') ↔
      Chained P w.log.leafKey [] evs ∧ log' = { ((w.log.opening none dir).setMeta m).restored evs with
        tree := ⟨leavesOf P w.log.leafKey evs⟩ } := fun m evs log' => replay_ok (hu' m) hf.leaves
  simp only [open_ok, exec_readEvents_some hev, hs, Option.isSome_none, Bool.false_eq_true, if_false, readThen_ok,
    opening_disk, hlog, hspec]
  constructor
  · rintro ⟨evs, w1, ⟨m, d, log', h1, ⟨h2, rfl⟩, rfl⟩, rfl⟩
    exact ⟨evs, m, d, h1, h2, opening_setDir _ _⟩
  · rintro ⟨evs, m, d, h1, h2, rfl⟩
    exact ⟨evs, _, ⟨m, d, _, h1, ⟨h2, rfl⟩, rfl⟩, (opening_setDir _ _).symm⟩

theorem replayFile_ok (hf : w.log.Fresh) :
    exec (replayFile P io dir) w = (.ok evs, w') ↔
      ∃ m d, readOutcome P io (w.disk dir) = (.ok (evs, m), d) ∧ Chained P w.log.leafKey [] evs ∧
        w' = { w.setDir dir d with log := { (w.log.setMeta m).restored evs with
          tree := ⟨leavesOf P w.log.leafKey evs⟩ } } := by
  have hu' : ∀ m, (w.log.setMeta m).Unused := fun m => ⟨hf.events, hf.sequences, hf.roots⟩
  have hspec : ∀ m evs log', (w.log.setMeta m).replay P evs = (.ok (), log') ↔
      Chained P w.log.leafKey [] evs ∧ log' = { (w.log.setMeta m).restored evs with
        tree := ⟨leavesOf P w.log.leafKey evs⟩ } := fun m evs log' => replay_ok (hu' m) hf.leaves
  simp only [exec_replayFile, readThen_ok, hspec]
  constructor
  · rintro ⟨m, d, log', h1, ⟨h2, rfl⟩, rfl⟩
    exact ⟨m, d, h1, h2, rfl⟩
  · rintro ⟨m, d, h1, h2, rfl⟩
    exact ⟨m, d, _, h1, ⟨h2, rfl⟩, rfl⟩

end

end Audit
