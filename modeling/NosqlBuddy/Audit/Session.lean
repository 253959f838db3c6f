import NosqlBuddy.Lib.Runs
import NosqlBuddy.Audit.Recording

/-!
# Sessions

A session is a log with a data directory open in which a list of entries has been recorded
(`Session`): memory holds what the entries say and the file holds their lines. Opening a new directory
starts a session (`session_open`), a `record` call whose write and sync work extends it
(`Session.record`), and so does every run of such calls (`session_run`), which leaves a complete tree
store when no write to the store fails.
-/

namespace Audit
open Mutation Text

section
variable (P : Prims)

/-- The lines that recording the entries writes into a new log. -/
def linesOf (es : List Entry) : List PersistedEvent := recordedEvents P es [] ∅

/-- A new log with a leaf key, on a disk. -/
def World.start (key : Option Bytes32) (disk : String → Dir) : World := ⟨{ AuditLog.new with leafKey := key }, disk⟩

/-- A disk without any audit directory. -/
def emptyDisk : String → Dir := fun _ => ⟨none, none⟩

/-- The world after opening a new data directory. -/
def openNew (key : Option Bytes32) (dir : String) : World :=
  (exec (setPersistenceDir P {} dir) (World.start key emptyDisk)).2

/-- A record call and what happens to its outside calls. -/
structure CallStep where
  call : RecordCall
  io : Io

def stepCall (w : World) (s : CallStep) : World := (exec (s.call.run P s.io) w).2

/-- The call reaches the file, and its write or its sync fails. -/
def CallStep.Fails (key : Option Bytes32) (s : CallStep) : Prop :=
  (s.call.entry P key).isSome ∧ (s.io.write ≠ none ∨ s.io.sync ≠ none)

/-- Record calls, one after the other, without failing outside calls. -/
def runCalls (w : World) (calls : List RecordCall) : World :=
  Runs.run (stepCall P) w (calls.map fun c => ⟨c, {}⟩)

/-- The entries that the calls record. -/
def entriesOf (key : Option Bytes32) (calls : List RecordCall) : List Entry := calls.filterMap (RecordCall.entry P key)

/-- The line that a call writes, when it returns `Ok`. -/
def okLine (w : World) (s : CallStep) : Option PersistedEvent :=
  match s.call.entry P w.log.leafKey, (exec (s.call.run P s.io) w).1 with
  | some e, .ok _ => some (w.log.push P e).2
  | _, _ => none

/-- The lines that the calls returning `Ok` write. -/
def okLines (w : World) (steps : List CallStep) : List PersistedEvent := Runs.outputs (stepCall P) (okLine P) w steps

/-- The log in memory after recording the entries in the open directory `dir`. -/
structure InMemory (key : Option Bytes32) (dir : String) (log : AuditLog) (es : List Entry) : Prop where
  tree : log.tree = ⟨es.map (·.leaf)⟩
  sequences : log.sequences = seqsAfter es ∅
  events : log.events = (linesOf P es).map fun ev => ev.toAuditEvent ev.sequence
  roots : log.rootAfterByIndex = rootHexes P (es.map (·.leaf))
  leafKey : log.leafKey = key
  persistence : log.persistence = some dir
  sledStore : log.sledStore = some dir

/-- Memory and file after recording the entries. -/
structure Session (key : Option Bytes32) (dir : String) (w : World) (es : List Entry) : Prop
    extends InMemory P key dir w.log es where
  file : (w.disk dir).events = some (fileBytes P (linesOf P es) [])

end

section
variable {P : Prims} {key : Option Bytes32} {dir : String}

theorem linesOf_concat (es : List Entry) (e : Entry) :
    linesOf P (es ++ [e]) = linesOf P es ++ [e.persisted es.length (nextSequence (seqsAfter es ∅) e.domain).1
      (rootHex P (es.map (·.leaf) ++ [e.leaf]))] := by
  simp [linesOf, recordedEvents_concat]

theorem InMemory.push_snd (hm : InMemory P key dir log es) (e : Entry) :
    linesOf P (es ++ [e]) = linesOf P es ++ [(log.push P e).2] := by
  rw [linesOf_concat]
  simp only [AuditLog.push, hm.tree, hm.sequences, AuditMerkleTree.insert, List.length_map]
  rfl

theorem InMemory.push_fst (hm : InMemory P key dir log es) (e : Entry) :
    InMemory P key dir (log.push P e).1 (es ++ [e]) where
  tree := by simp [AuditLog.push, AuditMerkleTree.insert, hm.tree]
  sequences := by rw [seqsAfter_concat, ← hm.sequences]; rfl
  events := by
    rw [hm.push_snd, List.map_append, ← hm.events]
    rfl
  roots := by
    rw [List.map_append, List.map_singleton, rootHexes_concat, ← hm.roots]
    simp only [AuditLog.push, hm.tree, AuditMerkleTree.insert]
    rfl
  leafKey := hm.leafKey
  persistence := hm.persistence
  sledStore := hm.sledStore

/-- **One record call** extends the session, whatever the tree store does. -/
theorem Session.record {w : World} {es : List Entry} (hs : Session P key dir w es) {io : Io} {e : Entry}
    (hw : io.write = none) (hsync : io.sync = none) :
    ∃ w', exec (recordInner P io e) w = (.ok es.length, w') ∧ Session P key dir w' (es ++ [e]) ∧
      (w'.disk dir).sled = (w.disk dir).sled.map fun db =>
        db.inserts io.sledWrites es.length e.leaf ((⟨es.map (·.leaf) ++ [e.leaf]⟩ : AuditMerkleTree 20).root P) := by
  have hlen : w.log.tree.leaves.length = es.length := by rw [hs.tree]; simp
  have htree : w.log.nextTree e = ⟨es.map (·.leaf) ++ [e.leaf]⟩ := by
    simp [AuditLog.nextTree, AuditMerkleTree.insert, hs.tree]
  have hm := hs.toInMemory.push_fst e
  have hst : (World.append ⟨(w.log.push P e).1, w.disk⟩ dir
      (lineBytes (P.eventToString (w.log.push P e).2))).log.sledStore = some dir := hs.sledStore
  refine ⟨_, by rw [recordInner_ok hs.persistence hw hsync, hlen, htree], ⟨?_, ?_⟩, ?_⟩
  · unfold World.saved
    rw [hst]
    exact hm
  · unfold World.saved
    rw [hst, hs.push_snd, ← fileBytes_concat, ← Option.some.injEq]
    simp [World.append, World.setDir, hs.file]
  · unfold World.saved
    rw [hst]
    simp [World.append, World.setDir]

theorem exec_open_new (hd : disk dir = ⟨none, none⟩) :
    exec (setPersistenceDir P {} dir) (World.start key disk) =
      (.ok (), ((World.start key disk).opening {} dir).opened dir) := by
  have hnone : (((World.start key disk).opening {} dir).disk dir).events = none := by
    rw [opening_disk]
    simp [World.start, hd, Dir.withSled]
  rw [exec_setPersistenceDir]
  unfold readEvents
  rw [exec_bind_ok (exec_get _), hnone]
  rfl

theorem open_new {disk : String → Dir} (hd : disk dir = ⟨none, none⟩) :
    ∃ w, exec (setPersistenceDir P {} dir) (World.start key disk) = (.ok (), w) ∧ Session P key dir w [] ∧
      (w.disk dir).sled = some .empty := by
  have htree : sledTree {} (disk dir) = none := by rw [hd]; rfl
  refine ⟨_, exec_open_new hd, ⟨⟨?_, rfl, rfl, rfl, rfl, rfl, rfl⟩, ?_⟩, ?_⟩
  · simp [World.opened, World.opening, World.start, AuditLog.opening, htree, AuditLog.new, AuditMerkleTree.empty]
  · simp [World.opened, World.opening, World.setDir, Dir.withEvents, Dir.withSled, World.start, hd, fileBytes, linesOf,
      recordedEvents, unlines]
  · simp [World.opened, World.opening, World.setDir, Dir.withEvents, Dir.withSled, World.start, hd]

theorem session_open : exec (setPersistenceDir P {} dir) (World.start key emptyDisk) = (.ok (), openNew P key dir) ∧
    Session P key dir (openNew P key dir) [] ∧ ((openNew P key dir).disk dir).sled = some .empty := by
  obtain ⟨w, hexec, hs, hsled⟩ := @open_new P key dir emptyDisk rfl
  have hw : openNew P key dir = w := by rw [openNew, hexec]
  rw [hw]
  exact ⟨hexec, hs, hsled⟩

theorem replayFile_accepted (h : exec (replayFile P io dir) (World.start key disk) = (.ok evs, w)) :
    Chained P key [] evs ∧ w.log.tree = ⟨leavesOf P key evs⟩ := by
  obtain ⟨m, d, _, hch, rfl⟩ := (replayFile_ok ⟨⟨rfl, rfl, rfl⟩, rfl⟩).1 h
  exact ⟨hch, rfl⟩

theorem replays_file {es : List Entry} {disk : String → Dir} (hl : P.Lawful) (hon : ∀ e ∈ es, e.Honest P key)
    (hfile : (disk dir).events = some (fileBytes P (linesOf P es) [])) :
    ∃ w', exec (replayFile P {} dir) (World.start key disk) = (.ok (linesOf P es), w') ∧
      w'.log.tree = ⟨es.map (·.leaf)⟩ := by
  have hread := hl.readOutcome_file (.inl rfl) hfile
  refine ⟨_, (replayFile_ok ⟨⟨rfl, rfl, rfl⟩, rfl⟩).2 ⟨_, _, hread, chained_recordedEvents _ _ _ hon, rfl⟩, ?_⟩
  exact congrArg AuditMerkleTree.mk (leavesOf_recordedEvents es [] ∅ hon)

theorem Session.replays (hs : Session P key dir w es) (hl : P.Lawful)
    (hon : ∀ e ∈ es, e.Honest P key) :
    ∃ w', exec (replayFile P {} dir) (World.start key w.disk) = (.ok (linesOf P es), w') := by
  obtain ⟨w', hexec, _⟩ := @replays_file P key dir es w.disk hl hon hs.file
  exact ⟨w', hexec⟩

/-! ## The tree store of a run -/

/-- The tree store holds exactly these leaves. -/
structure Stored (leaves : List Fr) (db : SledTree) : Prop where
  leaf : ∀ i, db.leaf i = (leaves[i]?).map toBytesBe
  count : db.leafCount = if leaves = [] then none else some leaves.length

theorem stored_empty : Stored [] .empty := ⟨fun _ => rfl, rfl⟩

theorem Stored.inserts (h : Stored leaves db) (leaf root : Fr) :
    Stored (leaves ++ [leaf]) (db.inserts 3 leaves.length leaf root) where
  leaf := by
    intro i
    simp only [SledTree.inserts, Nat.zero_lt_succ, Nat.one_lt_succ_succ, Nat.lt_add_one, if_true, Function.update_apply]
    split
    · next hi => subst hi; simp
    · next hi =>
      rw [h.leaf i]
      rcases Nat.lt_or_ge i leaves.length with hl | hl
      · rw [List.getElem?_append_left hl]
      · rw [List.getElem?_eq_none hl, List.getElem?_eq_none (by simp; omega)]
  count := by simp [SledTree.inserts]

theorem loadLeaves_of_leaf {db : SledTree} {leaves : List Fr} : ∀ n ≤ leaves.length,
    (∀ i < n, db.leaf i = (leaves[i]?).map toBytesBe) → db.loadLeaves n = .ok (leaves.take n)
  | 0, _, _ => by simp [SledTree.loadLeaves]
  | n + 1, hn, h => by
    have hlt : n < leaves.length := hn
    rw [SledTree.loadLeaves, loadLeaves_of_leaf n (by omega) fun i hi => h i (by omega), h n (by omega),
      List.getElem?_eq_getElem hlt]
    simp only [Option.map_some, bind, Except.bind, pure, Except.pure, fromBeBytesModOrder_toBytesBe]
    rw [List.take_add_one, List.getElem?_eq_getElem hlt]
    rfl

theorem Stored.sledTree {leaves : List Fr} {db : SledTree} (h : Stored leaves db) {d : Dir} (hd : d.sled = some db) :
    sledTree {} d = if leaves = [] then none else some ⟨leaves⟩ := by
  unfold Audit.sledTree
  rw [hd]
  simp only [SledTree.loadTree, h.count]
  by_cases h0 : leaves = []
  · simp [h0]
  · simp only [h0, if_false]
    rw [loadLeaves_of_leaf leaves.length (Nat.le_refl _) fun i _ => h.leaf i, List.take_length]
    rfl

/-! ## Runs -/

theorem entriesOf_append (calls more : List RecordCall) :
    entriesOf P key (calls ++ more) = entriesOf P key calls ++ entriesOf P key more := by
  simp [entriesOf]

/-- **Runs of record calls** without a failing write or sync: memory and file hold the entries, and a
tree store whose writes all worked holds the leaves. -/
theorem session_run (steps : List CallStep) (hok : ∀ s ∈ steps, ¬ s.Fails P key) :
    Session P key dir (Runs.run (stepCall P) (openNew P key dir) steps) (entriesOf P key (steps.map (·.call))) ∧
      okLines P (openNew P key dir) steps = linesOf P (entriesOf P key (steps.map (·.call))) ∧
      ∃ db, ((Runs.run (stepCall P) (openNew P key dir) steps).disk dir).sled = some db ∧
        ((∀ s ∈ steps, s.io.sledSave = none) → Stored ((entriesOf P key (steps.map (·.call))).map (·.leaf)) db) := by
  induction steps using List.reverseRecOn with
  | nil => exact ⟨session_open.2.1, rfl, _, session_open.2.2, fun _ => stored_empty⟩
  | append_singleton steps s ih =>
    obtain ⟨hs, hlines, db, hdb, hst⟩ := ih fun t ht => hok t (List.mem_append_left _ ht)
    unfold okLines at hlines ⊢
    rw [Runs.run_snoc, Runs.outputs_append, hlines, List.map_append, entriesOf_append, stepCall]
    simp only [Runs.outputs, okLine, List.append_nil, exec_run, hs.leafKey, List.map_singleton, entriesOf, List.filterMap_cons,
      List.filterMap_nil]
    cases he : s.call.entry P key with
    | none =>
      simp only [Option.toList_none, List.append_nil, true_and]
      exact ⟨hs, db, hdb, fun h => hst fun t ht => h t (List.mem_append_left _ ht)⟩
    | some e =>
      have hnf : ¬ (s.io.write ≠ none ∨ s.io.sync ≠ none) := fun h => hok s (by simp) ⟨by simp [he], h⟩
      simp only [not_or, not_not] at hnf
      obtain ⟨w', hw', hs', hsled⟩ := @Session.record P key dir _ _ hs s.io e hnf.1 hnf.2
      simp only [hw']
      refine ⟨hs', (hs.push_snd e).symm, _, by rw [hsled, hdb]; rfl, fun h => ?_⟩
      have hstored := (hst fun t ht => h t (List.mem_append_left _ ht)).inserts e.leaf
        ((⟨(entriesOf P key (steps.map (·.call))).map (·.leaf) ++ [e.leaf]⟩ : AuditMerkleTree 20).root P)
      simpa [Io.sledWrites, h s (by simp), entriesOf] using hstored

theorem session_runCalls (key : Option Bytes32) (dir : String) (calls : List RecordCall) :
    Session P key dir (runCalls P (openNew P key dir) calls) (entriesOf P key calls) ∧
      ∃ db, ((runCalls P (openNew P key dir) calls).disk dir).sled = some db ∧
        Stored ((entriesOf P key calls).map (·.leaf)) db := by
  have hno : ∀ s ∈ calls.map (fun c => (⟨c, {}⟩ : CallStep)), s.io = {} := by
    intro s hs
    obtain ⟨c, _, rfl⟩ := List.mem_map.1 hs
    rfl
  have hrun := @session_run P key dir (calls.map fun c => ⟨c, {}⟩)
    fun s hs => by simp [CallStep.Fails, hno s hs]
  rw [List.map_map, show ((fun s : CallStep => s.call) ∘ fun c => (⟨c, {}⟩ : CallStep)) = id from rfl, List.map_id]
    at hrun
  obtain ⟨hs, _, db, hdb, hst⟩ := hrun
  exact ⟨hs, db, hdb, hst fun s hs => by simp [hno s hs]⟩

end

end Audit
