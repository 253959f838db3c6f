import NosqlBuddy.Audit.EventText
import NosqlBuddy.Audit.Session

/-!
# The file of a run

`events.jsonl` holds event lines and, between them, the metadata lines of `set_legal_hold` (mod.rs:451)
and `prune_domain` (mod.rs:1435). `Filed` is what every run keeps in which no outside call fails: the file
is made of such lines, its events are chained, and the tree in memory and the tree store hold their
leaves. `filed_run` covers records, holds, prunings, resets and restarts in any order.
-/

namespace Audit
open Mutation Text

/-! ## Lines -/

inductive Line where
  | event (ev : PersistedEvent)
  | metadata (m : Json)

/-- The metadata objects that the log writes. -/
inductive IsMetadata : Json → Prop where
  | legalHold (deploymentId database : String) (hold : Bool) : IsMetadata (legalHoldMeta deploymentId database hold)
  | prunedDomain (deploymentId database : String) (r : DomainRetentionRoot) :
      IsMetadata (prunedDomainMeta deploymentId database r)

/-- The JSON object of an event. -/
def eventValue (ev : PersistedEvent) : Json :=
  .obj [("index", .num (some ev.index)), ("operation", .str ev.operation), ("database", .str ev.database),
    ("collection", .str ev.collection), ("deployment_id", .str ev.deploymentId), ("sequence", .num (some ev.sequence)),
    ("payload", .str ev.payload), ("leaf_hex", .str ev.leafHex), ("root_after", .str ev.rootAfter),
    ("timestamp", .str ev.timestamp), ("version", .num (some ev.version))]

def Line.value : Line → Json
  | .event ev => eventValue ev
  | .metadata m => m

/-- The line is one that the log writes. -/
def Line.Written : Line → Prop
  | .event _ => True
  | .metadata m => IsMetadata m

def eventsOf (ls : List Line) : List PersistedEvent := ls.filterMap fun l => match l with
  | .event ev => some ev
  | .metadata _ => none

section
variable (P : Prims)

def Line.text : Line → List Char
  | .event ev => P.eventToString ev
  | .metadata m => P.valueToString m

def fileText (ls : List Line) : List Char := unlines (ls.map (Line.text P))

/-- The laws of the encoders for lines that are read as JSON values: one JSON object without a line
break, which has the fields that were written. -/
structure Prims.LawfulLines : Prop extends P.Lawful where
  object : ∀ l : Line, l.Written → ∃ body, l.text P = '{' :: (body ++ ['}'])
  noBreak : ∀ l : Line, l.Written → '\n' ∉ l.text P
  value : ∀ l : Line, l.Written → ∃ v, P.valueFromStr (l.text P) = some v ∧ ∀ key, v.get key = l.value.get key
  notEvent : ∀ m, IsMetadata m → P.eventFromStr (P.valueToString m) = none

end

@[simp] theorem eventsOf_nil : eventsOf [] = [] := rfl

@[simp] theorem eventsOf_event (ev : PersistedEvent) (ls : List Line) : eventsOf (.event ev :: ls) = ev :: eventsOf ls := rfl

@[simp] theorem eventsOf_metadata (m : Json) (ls : List Line) : eventsOf (.metadata m :: ls) = eventsOf ls := rfl

theorem eventsOf_append (ls ms : List Line) : eventsOf (ls ++ ms) = eventsOf ls ++ eventsOf ms := List.filterMap_append

variable {ls : List Line} {w : World} {ev : PersistedEvent}

section
variable {P : Prims} {key : Option Bytes32} {dir : String}

theorem IsMetadata.get_meta (h : IsMetadata m) : (m.get "meta").isSome := by
  cases h <;> simp [legalHoldMeta, prunedDomainMeta, Json.get]

/-! ## Reading the lines -/

theorem Prims.LawfulLines.plain (hl : P.LawfulLines) {l : Line} (hw : l.Written) :
    Plain (l.text P) ∧ trim (l.text P) = l.text P ∧ l.text P ≠ [] := by
  obtain ⟨body, hbody⟩ := hl.object l hw
  refine ⟨⟨hl.noBreak l hw, ?_⟩, ?_⟩
  · rw [hbody]
    simp [List.getLast?_cons]
  · rw [hbody]
    exact ⟨trim_of_ends brace_visible.1 brace_visible.2, by simp⟩

theorem Prims.LawfulLines.lines_text (hl : P.LawfulLines) (hw : ∀ l ∈ ls, l.Written) :
    lines (fileText P ls) = ls.map (Line.text P) := by
  have hplain : ∀ t ∈ ls.map (Line.text P), Plain t := by
    intro t ht
    obtain ⟨l, hl', rfl⟩ := List.mem_map.1 ht
    exact (hl.plain (hw l hl')).1
  simpa [fileText] using @lines_unlines [] (by simp) _ hplain

theorem Prims.LawfulLines.scan (hl : P.LawfulLines) : ∀ {ls : List Line} (i : Nat), (∀ l ∈ ls, l.Written) →
    scanLines P i (ls.map (Line.text P)) = (eventsOf ls, none)
  | [], _, _ => rfl
  | l :: ls, i, hw => by
    have hrest := hl.scan (i + 1) fun m hm => hw m (List.mem_cons_of_mem l hm)
    obtain ⟨_, htrim, hne⟩ := hl.plain (hw l List.mem_cons_self)
    rw [List.map_cons, scanLines, htrim, if_neg hne]
    cases l with
    | event ev =>
      have hev : P.eventFromStr (Line.text P (.event ev)) = some ev := hl.event ev
      rw [hev, hrest]
      rfl
    | metadata m =>
      have hm : IsMetadata m := hw _ List.mem_cons_self
      have hev : P.eventFromStr (Line.text P (.metadata m)) = none := hl.notEvent m hm
      obtain ⟨v, hv, hget⟩ := hl.value (.metadata m) hm
      obtain ⟨x, hx⟩ := Option.isSome_iff_exists.1 hm.get_meta
      have hmeta : (P.valueFromStr (Line.text P (.metadata m))).bind (·.get "meta") = some x := by
        rw [hv, Option.bind_some, hget]
        exact hx
      rw [hev, hmeta, hrest]
      rfl

theorem readOutcome_text (hl : P.LawfulLines) (hw : ∀ l ∈ ls, l.Written) (hd : d.events = some (String.ofList (fileText P ls)).toByteArray) :
    readOutcome P {} d = (.ok (eventsOf ls, metadataLines P (ls.map (Line.text P))), d) := by
  have hcut : cutFile P {} d (fileText P ls) = (.ok (), d) := by
    unfold cutFile
    rw [hl.lines_text hw, hl.scan 0 hw]
  unfold readOutcome
  simp only [readText_encoded hd, hcut]
  rw [hl.lines_text hw, hl.scan 0 hw]

/-! ## The invariant -/

/-- The versions that `record` and `record_v3` write. -/
def VersionFits (key : Option Bytes32) (version : Nat) : Prop :=
  if key.isSome then version = 2 ∨ version = 3 else version = 1

/-- The file holds the lines, and memory and tree store hold their leaves. -/
structure Filed (P : Prims) (key : Option Bytes32) (dir : String) (w : World) (ls : List Line) : Prop where
  file : (w.disk dir).events = some (String.ofList (fileText P ls)).toByteArray
  written : ∀ l ∈ ls, l.Written
  chained : Chained P key [] (eventsOf ls)
  versions : ∀ ev ∈ eventsOf ls, VersionFits key ev.version
  tree : w.log.tree = ⟨leavesOf P key (eventsOf ls)⟩
  leafKey : w.log.leafKey = key
  persistence : w.log.persistence = some dir
  sledStore : w.log.sledStore = some dir
  sled : ∃ db, (w.disk dir).sled = some db ∧ Stored (leavesOf P key (eventsOf ls)) db

theorem Filed.leafCount_eq (h : Filed P key dir w ls) :
    w.log.leafCount = (eventsOf ls).length := by
  rw [AuditLog.leafCount, AuditMerkleTree.leafCount, h.tree]
  exact length_leavesOf ((chained_iff _ []).1 h.chained).1

theorem Filed.index_eq (hf : Filed P key dir w ls) (hev : (eventsOf ls)[i]? = some ev) : ev.index = i := by
  have hat := (((chained_iff _ []).1 hf.chained).2 i ev hev).1
  rwa [List.length_nil, Nat.zero_add] at hat

theorem chained_concat (hleaf : checkedLeaf P key ev = some leaf)
    : ∀ {leaves : List Fr}, Chained P key leaves evs →
      ev.index = (leaves ++ leavesOf P key evs).length →
      ev.rootAfter = rootHex P (leaves ++ leavesOf P key evs ++ [leaf]) → Chained P key leaves (evs ++ [ev]) := by
  induction evs with
  | nil =>
    intro leaves _ hidx hroot
    simp only [leavesOf, List.filterMap_nil, List.append_nil] at hidx hroot
    exact ⟨leaf, hleaf, hidx, hroot, trivial⟩
  | cons e evs ih =>
    rintro leaves ⟨leaf', hleaf', hidx', hroot', hrest⟩ hidx hroot
    rw [leavesOf_cons_some hleaf', List.append_cons leaves leaf'] at hidx hroot
    rw [List.cons_append]
    exact ⟨leaf', hleaf', hidx', hroot', ih hrest hidx hroot⟩

theorem fileText_concat (ls : List Line) (l : Line) :
    (String.ofList (fileText P ls)).toByteArray ++ lineBytes (l.text P) =
      (String.ofList (fileText P (ls ++ [l]))).toByteArray := by
  simp only [fileText, lineBytes, String.toByteArray_ofList, List.map_append, unlines_append, List.utf8Encode_append]
  simp [unlines]

/-! ## Steps -/

/-- What a run does; `restart` is a new log on the same directory. -/
inductive FileStep where
  | record (call : RecordCall)
  | setLegalHold (deploymentId database : String) (hold : Bool)
  | pruneDomain (now : Instant) (deploymentId database : String)
  | clear
  | restart

def stepFile (P : Prims) (key : Option Bytes32) (dir : String) (w : World) : FileStep → World
  | .record call => (exec (call.run P {}) w).2
  | .setLegalHold dep db hold => (exec (setLegalHold P {} dep db hold) w).2
  | .pruneDomain now dep db => (exec (pruneDomain P {} now dep db) w).2
  | .clear => (exec (clear {}) w).2
  | .restart => (exec (setPersistenceDir P {} dir) (World.start key w.disk)).2

/-- The steps from a new directory on. -/
def runFile (P : Prims) (key : Option Bytes32) (dir : String) (steps : List FileStep) : World :=
  Runs.run (stepFile P key dir) (openNew P key dir) steps

/-- A record call hands over the leaf that replay recomputes, as the documentation of `record` asks. -/
def FileStep.Honest (P : Prims) (key : Option Bytes32) : FileStep → Prop
  | .record call => ∀ e ∈ call.entry P key, e.Honest P key
  | _ => True

theorem exec_appendLine (dir : String) (line : List Char) (w : World) :
    exec (appendLine {} dir line) w = (.ok (), w.append dir (lineBytes line)) :=
  exec_appendLine_sync rfl dir line w

theorem version_entry {call : RecordCall} {e : Entry} (h : call.entry P key = some e) : VersionFits key e.version := by
  cases call with
  | record now dep op db coll payload leaf =>
    obtain rfl := Option.some.inj h
    cases key <;> simp [VersionFits, recordEntry]
  | recordV3 now dep op db coll canonical =>
    obtain ⟨k, rfl, rfl⟩ := Option.map_eq_some_iff.1 h
    simp [VersionFits, recordV3Entry]

theorem Filed.metadata (h : Filed P key dir w ls) (hm : IsMetadata m)
    (htree : log.tree = w.log.tree) (hkey : log.leafKey = w.log.leafKey)
    (hp : log.persistence = w.log.persistence) (hst : log.sledStore = w.log.sledStore) :
    Filed P key dir (World.append ⟨log, w.disk⟩ dir (lineBytes (P.valueToString m))) (ls ++ [.metadata m]) := by
  have hevs : eventsOf (ls ++ [.metadata m]) = eventsOf ls := by simp [eventsOf_append]
  obtain ⟨db, hdb, hstored⟩ := h.sled
  refine ⟨?_, ?_, by rw [hevs]; exact h.chained, by rw [hevs]; exact h.versions, by rw [hevs]; exact htree.trans h.tree,
    hkey.trans h.leafKey, hp.trans h.persistence, hst.trans h.sledStore, db, ?_, by rw [hevs]; exact hstored⟩
  · rw [← fileText_concat]
    simp [World.append, World.setDir, h.file, Line.text]
  · intro l hl
    rcases List.mem_append.1 hl with hl | hl
    · exact h.written l hl
    · rw [List.mem_singleton.1 hl]
      exact hm
  · simpa [World.append, World.setDir] using hdb

theorem Filed.setLegalHold (h : Filed P key dir w ls) (dep db : String) (hold : Bool) :
    Filed P key dir (exec (setLegalHold P {} dep db hold) w).2 (ls ++ [.metadata (legalHoldMeta dep db hold)]) := by
  unfold Audit.setLegalHold
  rw [exec_bind_ok (exec_modify _ _), exec_bind_ok (exec_get _)]
  simp only [h.persistence, exec_appendLine]
  exact h.metadata (.legalHold dep db hold) rfl rfl h.persistence.symm rfl

theorem Filed.pruneDomain (h : Filed P key dir w ls) (now : Instant) (dep db : String) :
    Filed P key dir (exec (pruneDomain P {} now dep db) w).2 ls ∨
      ∃ r, Filed P key dir (exec (pruneDomain P {} now dep db) w).2 (ls ++ [.metadata (prunedDomainMeta dep db r)]) := by
  unfold Audit.pruneDomain
  rw [exec_bind_ok (exec_get _)]
  by_cases hhold : (dep, db) ∈ w.log.legalHolds
  · rw [if_pos hhold]
    exact .inl h
  · rw [if_neg hhold]
    obtain e | ⟨leaves, _ | maxIndex⟩ := pruneScan (dep, db) w.log.events [] none
    · exact .inl h
    · exact .inl h
    · simp only [h.persistence]
      rw [exec_bind_ok (exec_appendLine _ _ _), exec_bind_ok (exec_modify _ _)]
      exact .inr ⟨⟨frToHex ((⟨leaves⟩ : AuditMerkleTree 20).root P), leaves.length, maxIndex, P.toRfc3339 now⟩,
        h.metadata (.prunedDomain dep db _) rfl rfl rfl rfl⟩

theorem Filed.event (h : Filed P key dir w ls) (hchecked : checkedLeaf P key ev = some leaf) (hversion : VersionFits key ev.version)
    (hindex : ev.index = w.log.tree.leaves.length) (hroot : ev.rootAfter = rootHex P (w.log.tree.leaves ++ [leaf]))
    (htree : log.tree = ⟨w.log.tree.leaves ++ [leaf]⟩) (hkey : log.leafKey = w.log.leafKey)
    (hp : log.persistence = w.log.persistence) (hst : log.sledStore = w.log.sledStore) (root : Fr) :
    Filed P key dir ((World.append ⟨log, w.disk⟩ dir (lineBytes (P.eventToString ev))).saved 3 w.log.tree.leaves.length leaf root)
      (ls ++ [.event ev]) := by
  have hleaves : w.log.tree.leaves = leavesOf P key (eventsOf ls) := by rw [h.tree]
  have hevs : eventsOf (ls ++ [.event ev]) = eventsOf ls ++ [ev] := by simp [eventsOf_append]
  have hleaves' : leavesOf P key (eventsOf ls ++ [ev]) = leavesOf P key (eventsOf ls) ++ [leaf] := by
    simp [leavesOf, hchecked]
  have hst' : (World.append ⟨log, w.disk⟩ dir (lineBytes (P.eventToString ev))).log.sledStore = some dir :=
    hst.trans h.sledStore
  obtain ⟨db, hdb, hstored⟩ := h.sled
  unfold World.saved
  rw [hst']
  refine ⟨?_, ?_, ?_, ?_, ?_, hkey.trans h.leafKey, hp.trans h.persistence, hst', ?_⟩
  · rw [← fileText_concat]
    simp [World.append, World.setDir, h.file, Line.text]
  · intro l hl
    rcases List.mem_append.1 hl with hl | hl
    · exact h.written l hl
    · rw [List.mem_singleton.1 hl]
      trivial
  · rw [hevs]
    refine chained_concat hchecked h.chained ?_ ?_
    · rw [List.nil_append, ← hleaves, hindex]
    · rw [List.nil_append, ← hleaves, hroot]
  · intro ev' hev
    rw [hevs] at hev
    rcases List.mem_append.1 hev with hev | hev
    · exact h.versions ev' hev
    · rw [List.mem_singleton.1 hev]
      exact hversion
  · rw [hevs, hleaves', ← hleaves]
    exact htree
  · rw [hevs, hleaves']
    refine ⟨_, by simp [World.append, World.setDir, hdb]; rfl, ?_⟩
    rw [hleaves]
    exact hstored.inserts leaf _

theorem Filed.record (h : Filed P key dir w ls) {call : RecordCall} {e : Entry}
    (he : call.entry P key = some e) (hon : e.Honest P key) :
    Filed P key dir (exec (call.run P {}) w).2 (ls ++ [.event (w.log.push P e).2]) := by
  rw [exec_run, h.leafKey, he]
  simp only [@recordInner_ok P {} e w dir h.persistence rfl rfl]
  have hchecked : checkedLeaf P key (w.log.push P e).2 = some e.leaf := hon.checkedLeaf _ _ _
  have htree : (w.log.push P e).1.tree = ⟨w.log.tree.leaves ++ [e.leaf]⟩ := rfl
  exact h.event hchecked (version_entry he) rfl rfl htree rfl rfl rfl _

theorem exec_check_none (mk : String → AuditError) (w : World) : exec (check none mk) w = (.ok (), w) := rfl

theorem Filed.clear (h : Filed P key dir w ls) : Filed P key dir (exec (clear {}) w).2 [] := by
  unfold Audit.clear
  rw [exec_bind_ok (exec_modify _ _), exec_bind_ok (exec_get _)]
  simp only [h.sledStore, h.persistence]
  rw [exec_bind_ok (exec_check_none _ _), exec_bind_ok (exec_modify _ _), exec_bind_ok (exec_check_none _ _),
    exec_bind_ok (exec_modify _ _), exec_check_none]
  refine ⟨?_, by simp, trivial, by simp, rfl, h.leafKey, rfl, rfl, .empty, ?_, stored_empty⟩
  · simp [World.setDir, fileText, unlines]
  · simp [World.setDir]

theorem Chained.verified (h : Chained P key [] evs) : Verified P key (leavesOf P key evs) evs := by
  obtain ⟨hchecked, hat⟩ := (chained_iff evs []).1 h
  have hlen := length_leavesOf hchecked
  refine ⟨fun ev hev => ⟨hchecked ev hev, ?_⟩, fun last hlast => ?_⟩
  · obtain ⟨i, hi⟩ := List.mem_iff_getElem?.1 hev
    have hlt := (List.getElem?_eq_some_iff.1 hi).1
    rw [(hat i ev hi).1, List.length_nil, Nat.zero_add, hlen]
    exact hlt
  · rw [List.getLast?_eq_getElem?] at hlast
    rw [(hat _ last hlast).2, List.nil_append, List.take_of_length_le]
    omega

/-- The log that is read back from the lines. -/
structure ReadBack (P : Prims) (key : Option Bytes32) (dir : String) (ls : List Line) (log : AuditLog) : Prop where
  tree : log.tree = ⟨leavesOf P key (eventsOf ls)⟩
  leafKey : log.leafKey = key
  sledStore : log.sledStore = some dir
  legalHolds : log.legalHolds = (metadataLines P (ls.map (Line.text P))).legalHolds
  retained : log.retainedDomainRoots = (metadataLines P (ls.map (Line.text P))).retained
  sequences : log.sequences = (countEvents (eventsOf ls) ∅).2
  roots : log.rootAfterByIndex = (eventsOf ls).map (·.rootAfter)
  events : log.events = applyRetention log.retainedDomainRoots (countEvents (eventsOf ls) ∅).1

/-- Both readers read the lines back, from a directory whose tree store, if it gives a tree, has their leaves. -/
theorem readBack_file (hl : P.LawfulLines) (hw : ∀ l ∈ ls, l.Written) (hc : Chained P key [] (eventsOf ls))
    (hfile : (disk dir).events = some (String.ofList (fileText P ls)).toByteArray)
    (htree : ∀ tree, sledTree {} (disk dir) = some tree → tree = ⟨leavesOf P key (eventsOf ls)⟩) :
    ∃ log, ReadBack P key dir ls log ∧ exec (setPersistenceDir P {} dir) (World.start key disk) =
      (.ok (), (World.start key disk).restore dir (disk dir).withSled log) := by
  have hf : (World.start key disk).log.Fresh := ⟨⟨rfl, rfl, rfl⟩, rfl⟩
  have hread : readOutcome P {} ((World.start key disk).disk dir).withSled =
      (.ok (eventsOf ls, metadataLines P (ls.map (Line.text P))), (disk dir).withSled) := readOutcome_text hl hw hfile
  have hfile' : ((World.start key disk).disk dir).events = some (String.ofList (fileText P ls)).toByteArray := hfile
  cases ht : sledTree {} (disk dir) with
  | none => exact ⟨_, ⟨rfl, rfl, rfl, rfl, rfl, rfl, rfl, rfl⟩, (open_replayed hf ht hfile').2 ⟨_, _, _, hread, hc, rfl⟩⟩
  | some tree =>
    have hleaves := htree tree ht
    exact ⟨_, ⟨hleaves, rfl, rfl, rfl, rfl, rfl, rfl, rfl⟩,
      (open_verified hf.toUnused ht hfile').2 ⟨_, _, _, hread, by rw [hleaves]; exact hc.verified, rfl⟩⟩

theorem Filed.sledTree_eq (h : Filed P key dir w ls) {tree : AuditMerkleTree 20}
    (ht : sledTree {} (w.disk dir) = some tree) : tree = ⟨leavesOf P key (eventsOf ls)⟩ := by
  obtain ⟨db, hdb, hstored⟩ := h.sled
  have hst := hstored.sledTree hdb
  rw [ht] at hst
  split at hst
  · cases hst
  · exact Option.some.inj hst

theorem Filed.withSled_eq (h : Filed P key dir w ls) : (w.disk dir).withSled = w.disk dir := by
  obtain ⟨db, hdb, _⟩ := h.sled
  rw [Dir.withSled, hdb]
  cases hdir : w.disk dir
  simp_all

theorem Filed.readBack (h : Filed P key dir w ls) (hl : P.LawfulLines) :
    ∃ log, ReadBack P key dir ls log ∧ exec (setPersistenceDir P {} dir) (World.start key w.disk) =
      (.ok (), (World.start key w.disk).restore dir (w.disk dir) log) := by
  have hback := readBack_file hl h.written h.chained h.file fun _ => h.sledTree_eq
  rwa [h.withSled_eq] at hback

theorem Filed.restart (h : Filed P key dir w ls) (hl : P.LawfulLines) :
    Filed P key dir (exec (setPersistenceDir P {} dir) (World.start key w.disk)).2 ls := by
  obtain ⟨log, hback, hexec⟩ := h.readBack hl
  obtain ⟨db, hdb, hstored⟩ := h.sled
  rw [hexec]
  refine ⟨?_, h.written, h.chained, h.versions, hback.tree, hback.leafKey, rfl, hback.sledStore, db, ?_, hstored⟩
  · simp [World.restore, World.opened, World.setDir, Dir.withEvents, h.file]
  · simp [World.restore, World.opened, World.setDir, Dir.withEvents, hdb]

/-! ## Runs -/

theorem filed_open : Filed P key dir (openNew P key dir) [] := by
  obtain ⟨_, hs, hsled⟩ := @session_open P key dir
  refine ⟨hs.file, by simp, trivial, by simp, hs.tree, hs.leafKey, hs.persistence, hs.sledStore, _, hsled, stored_empty⟩

theorem Filed.step (h : Filed P key dir w ls) (hl : P.LawfulLines) {s : FileStep}
    (hs : s.Honest P key) : ∃ ls', Filed P key dir (stepFile P key dir w s) ls' := by
  cases s with
  | record call =>
    cases he : call.entry P key with
    | none =>
      refine ⟨ls, ?_⟩
      rw [stepFile, exec_run, h.leafKey, he]
      exact h
    | some e => exact ⟨_, h.record he (hs e he)⟩
  | setLegalHold dep db hold => exact ⟨_, h.setLegalHold dep db hold⟩
  | pruneDomain now dep db =>
    rcases h.pruneDomain now dep db with h' | ⟨r, h'⟩
    · exact ⟨_, h'⟩
    · exact ⟨_, h'⟩
  | clear => exact ⟨_, h.clear⟩
  | restart => exact ⟨_, h.restart hl⟩

/-- **Runs without failing outside calls** keep file, memory and tree store together. -/
theorem filed_run (hl : P.LawfulLines) (steps : List FileStep) (hon : ∀ s ∈ steps, s.Honest P key) :
    ∃ ls, Filed P key dir (runFile P key dir steps) ls := by
  induction steps using List.reverseRecOn with
  | nil => exact ⟨[], filed_open⟩
  | append_singleton steps s ih =>
    obtain ⟨ls, h⟩ := ih fun t ht => hon t (List.mem_append_left _ ht)
    rw [runFile, Runs.run_snoc]
    exact h.step hl (hon s (by simp))

end

/-! ## The codec -/

open JsonText in
theorem textPrims_lawfulLines (sha256 : List UInt8 → Bytes32) (hmacSha256 : Bytes32 → List UInt8 → Bytes32)
    (poseidon : List Fr → Fr) : (textPrims sha256 hmacSha256 poseidon).LawfulLines where
  toLawful := textPrims_lawful sha256 hmacSha256 poseidon
  object := by
    intro l _
    cases l with
    | event ev => exact print_ends _
    | metadata m => exact print_ends _
  noBreak := by
    intro l _
    cases l with
    | event ev => exact newline_notMem_print _
    | metadata m => exact newline_notMem_print _
  value := by
    intro l hw
    cases l with
    | event ev =>
      refine ⟨fieldsValue (eventFields ev), ?_, fun key => ?_⟩
      · simp [textPrims, Line.text, parse_print (show eventFields ev ≠ [] by simp [eventFields])]
      · simp [Line.value, eventValue, fieldsValue, eventFields, scalarValue]
    | metadata m =>
      refine ⟨fieldsValue (valueFields m), ?_, fun key => ?_⟩
      · have hne : valueFields m ≠ [] := by
          cases hw <;> simp [valueFields, legalHoldMeta, prunedDomainMeta]
        simp [textPrims, Line.text, parse_print hne]
      · cases hw <;> simp [Line.value, valueFields, legalHoldMeta, prunedDomainMeta, fieldsValue, scalarValue]
  notEvent := by
    intro m hm
    have hne : valueFields m ≠ [] := by
      cases hm <;> simp [valueFields, legalHoldMeta, prunedDomainMeta]
    have hindex : fieldNat (valueFields m) "index" = none := by
      cases hm <;> simp [valueFields, legalHoldMeta, prunedDomainMeta, fieldNat]
    simp [textPrims, parse_print hne, eventOfFields, hindex]

end Audit
