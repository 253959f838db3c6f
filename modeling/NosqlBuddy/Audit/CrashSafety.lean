import NosqlBuddy.Audit.EventText
import NosqlBuddy.Audit.Session

/-!
# Crashes

`record_inner` makes its effects durable one after the other: the line, then the three keys of the tree
store. A machine (`Machine`) is the disk and the memory of the process; it restarts, records, or dies
inside a record call (`Action`). A crash is the call run up to the crash point, of which only the disk
is left.

The tree store is written after the file, and on the next start it is trusted over the file: a process
that dies between the two does not start again (`crash_before_leaf_count`), although the source calls
the store "just a startup optimization" (mod.rs:1015). `crash_safe` says what holds otherwise: while a
tree store that loads is in step with the file, and no write is torn inside a character or right before
its newline, every restart succeeds and restores the confirmed events in order, with at most those that
were in flight at a crash.
-/

namespace Audit
open Mutation Text
open scoped List

/-! ## The machine -/

/-- Where a process dies in a record call: after `k` bytes of the line, or after the sync and `n` of the
writes to the tree store. -/
inductive CrashPoint where
  | torn (k : Nat)
  | saved (n : Nat)

/-- The call up to the crash. -/
def CrashPoint.io : CrashPoint → Io
  | .torn k => { write := some (k, "crash") }
  | .saved n => { sledSave := some (n, "crash") }

/-- The durable disk, and the log of the process while it runs. -/
structure Machine where
  log : Option AuditLog
  disk : String → Dir

inductive Action where
  | restart
  | record (call : RecordCall) (sledSave : Option (Nat × String))
  | crash (call : RecordCall) (point : CrashPoint)

/-- No process, and no data directory yet. -/
def Machine.new : Machine := ⟨none, emptyDisk⟩

section
variable (P : Prims) (key : Option Bytes32) (dir : String)

def Machine.step (m : Machine) : Action → Machine
  | .restart =>
    match exec (setPersistenceDir P {} dir) (World.start key m.disk) with
    | (.ok (), w) => ⟨some w.log, w.disk⟩
    | (.error _, w) => ⟨none, w.disk⟩
  | .record call sledSave =>
    match m.log with
    | some log =>
      let w := stepCall P ⟨log, m.disk⟩ ⟨call, { sledSave := sledSave }⟩
      ⟨some w.log, w.disk⟩
    | none => m
  | .crash call point =>
    match m.log with
    | some log => ⟨none, (stepCall P ⟨log, m.disk⟩ ⟨call, point.io⟩).disk⟩
    | none => m

/-- The entry of a record call that returns `Ok`. -/
def Machine.confirms (m : Machine) : Action → Option Entry
  | .record call sledSave =>
    match m.log with
    | some log =>
      match call.entry P log.leafKey, (exec (call.run P { sledSave := sledSave }) ⟨log, m.disk⟩).1 with
      | some e, .ok _ => some e
      | _, _ => none
    | none => none
  | _ => none

/-- The entry of a call that returns `Ok`, or that is in flight at a crash. -/
def Machine.attempts (m : Machine) : Action → Option Entry
  | .crash call _ => m.log.bind fun log => call.entry P log.leafKey
  | a => m.confirms P a

/-- The bytes that reach the disk are a text, and this is not the line without its newline. -/
def CleanTear (line : List Char) (k : Nat) : Prop :=
  ∃ text, (lineBytes line).extract 0 k = (String.ofList text).toByteArray ∧ text ≠ line

/-- A tree store that loads has a leaf for each event of the file. -/
def InStep (d : Dir) : Prop := ∀ tree content evs, sledTree {} d = some tree → d.events = some content →
  fileEvents P content = some evs → tree.leafCount = evs.length

/-- The steps that the code is safe for. -/
def Machine.Safe (m : Machine) : Action → Prop
  | .restart => InStep P (m.disk dir)
  | .record _ _ => True
  | .crash call (.torn k) => ∀ log e, m.log = some log → call.entry P log.leafKey = some e →
      CleanTear (P.eventToString (log.push P e).2) k
  | .crash _ (.saved _) => True

/-- The leaf of the call's entry is the one replay recomputes. -/
def Action.Honest : Action → Prop
  | .restart => True
  | .record call _ => ∀ e, call.entry P key = some e → e.Honest P key
  | .crash call _ => ∀ e, call.entry P key = some e → e.Honest P key

end

/-! ## What is durable -/

/-- The tree store holds leaves of the log only, and counts no more than there are. -/
structure SledSound (leaves : List Fr) (db : SledTree) : Prop where
  leaf : ∀ i bytes, db.leaf i = some bytes → (leaves[i]?).map toBytesBe = some bytes
  count : ∀ c, db.leafCount = some c → c ≤ leaves.length

/-- The entries `es` are on disk, up to a torn line at the end, and in memory while the process runs. -/
structure Durable (P : Prims) (key : Option Bytes32) (dir : String) (m : Machine) (es : List Entry) : Prop where
  file : (m.disk dir = ⟨none, none⟩ ∧ es = []) ∨
    ∃ tail, (tail = [] ∨ Torn P tail) ∧ (m.disk dir).events = some (fileBytes P (linesOf P es) tail)
  sled : ∀ db, (m.disk dir).sled = some db → SledSound (es.map (·.leaf)) db
  memory : ∀ log, m.log = some log → Session P key dir ⟨log, m.disk⟩ es

section
variable {P : Prims} {key : Option Bytes32} {dir : String}

theorem sledSound_empty (leaves : List Fr) : SledSound leaves .empty :=
  ⟨fun _ _ h => (nomatch h), fun _ h => by cases h⟩

theorem SledSound.append (h : SledSound leaves db) (leaf : Fr) :
    SledSound (leaves ++ [leaf]) db where
  leaf := by
    intro i bytes hi
    have hget := h.leaf i bytes hi
    rw [List.getElem?_append_left]
    · exact hget
    · by_contra hge
      simp [List.getElem?_eq_none (Nat.le_of_not_lt hge)] at hget
  count := fun c hc => by
    have := h.count c hc
    simp only [List.length_append, List.length_singleton]
    omega

theorem SledSound.inserts (h : SledSound leaves db) (n : Nat) (leaf root : Fr) :
    SledSound (leaves ++ [leaf]) (db.inserts n leaves.length leaf root) where
  leaf := by
    intro i bytes hi
    have hcases : (i = leaves.length ∧ some bytes = some (toBytesBe leaf)) ∨ db.leaf i = some bytes := by
      unfold SledTree.inserts at hi
      simp only [apply_ite SledTree.leaf, ite_self] at hi
      split at hi
      · by_cases hil : i = leaves.length
        · subst hil
          rw [Function.update_self] at hi
          exact .inl ⟨rfl, hi.symm⟩
        · rw [Function.update_of_ne hil] at hi
          exact .inr hi
      · exact .inr hi
    rcases hcases with ⟨rfl, hb⟩ | hold
    · rw [hb, List.getElem?_concat_length, Option.map_some]
    · exact (h.append leaf).leaf i bytes hold
  count := by
    intro c hc
    have hcases : c = leaves.length + 1 ∨ db.leafCount = some c := by
      unfold SledTree.inserts at hc
      simp only [apply_ite SledTree.leafCount, ite_self] at hc
      split at hc
      · simp only [Option.some.injEq] at hc
        exact .inl hc.symm
      · exact .inr hc
    rcases hcases with rfl | hold
    · simp
    · exact (h.append leaf).count c hold

theorem SledSound.loadLeaves (h : SledSound leaves db) : ∀ {n : Nat} {ls : List Fr},
    db.loadLeaves n = .ok ls → ls.length = n ∧ ls = leaves.take n
  | 0, ls, hls => by
    simp only [SledTree.loadLeaves, Except.ok.injEq] at hls
    subst hls
    simp
  | n + 1, ls, hls => by
    rw [SledTree.loadLeaves] at hls
    cases hn : db.loadLeaves n with
    | error e => simp [hn, bind, Except.bind] at hls
    | ok ls' =>
      obtain ⟨hlen, htake⟩ := h.loadLeaves hn
      simp only [hn, bind, Except.bind] at hls
      cases hb : db.leaf n with
      | none => simp [hb, throw, throwThe, MonadExceptOf.throw] at hls
      | some bytes =>
        obtain ⟨leaf, hget, rfl⟩ := Option.map_eq_some_iff.1 (h.leaf n bytes hb)
        simp only [hb, fromBeBytesModOrder_toBytesBe, pure, Except.pure, Except.ok.injEq] at hls
        subst hls
        refine ⟨by simp [hlen], ?_⟩
        rw [List.take_add_one, hget, ← htake]
        rfl

theorem SledSound.sledTree (h : SledSound leaves db) (hd : d.sled = some db) (ht : sledTree {} d = some tree) :
    tree.leaves = leaves.take tree.leafCount ∧ tree.leafCount ≤ leaves.length := by
  unfold Audit.sledTree at ht
  rw [hd] at ht
  simp only [SledTree.loadTree] at ht
  cases hc : db.leafCount with
  | none => simp [hc] at ht
  | some c =>
    cases hls : db.loadLeaves c with
    | error e => simp [hc, hls, bind, Except.bind] at ht
    | ok ls =>
      simp only [hc, hls, bind, Except.bind, pure, Except.pure, Option.some.injEq] at ht
      subst ht
      obtain ⟨hlen, htake⟩ := h.loadLeaves hls
      have hle := h.count c hc
      simp only [AuditMerkleTree.leafCount]
      exact ⟨by rw [hlen]; exact htake, by omega⟩

/-! ## Restarting -/

/-- The log that a reader restores from the lines of the entries. -/
def restoredLog (P : Prims) (key : Option Bytes32) (dir : String) (es : List Entry) : AuditLog :=
  AuditLog.restored { AuditLog.new with leafKey := key, tree := ⟨es.map (·.leaf)⟩, sledStore := some dir } (linesOf P es)

theorem restored_session {es : List Entry} (hon : ∀ e ∈ es, e.Honest P key) {w : World} {d : Dir}
    (hd : d.events = some (fileBytes P (linesOf P es) [])) :
    Session P key dir (w.restore dir d (restoredLog P key dir es)) es := by
  have hcount := countEvents_recordedEvents (P := P) es [] ∅
  have hroots := chained_rootHexes (chained_recordedEvents (P := P) es [] ∅ hon)
  rw [leavesOf_recordedEvents es [] ∅ hon, List.nil_append, rootHexes_nil, List.nil_append] at hroots
  refine ⟨⟨rfl, ?_, ?_, hroots.symm, rfl, rfl, rfl⟩, ?_⟩
  · simp only [World.restore, World.opened, restoredLog, AuditLog.restored, linesOf, hcount]
  · simp only [World.restore, World.opened, restoredLog, AuditLog.restored, linesOf, hcount]
    exact applyRetention_empty _
  · simp [World.restore, World.opened, World.setDir, Dir.withEvents, hd]

theorem Durable.readOutcome (h : Durable P key dir m es) (hl : P.Lawful)
    (he : (m.disk dir).events = some content) :
    readOutcome P {} (m.disk dir).withSled = (.ok (linesOf P es, ⟨∅, ∅⟩),
      { (m.disk dir).withSled with events := some (fileBytes P (linesOf P es) []) }) ∧
      fileEvents P content = some (linesOf P es) := by
  rcases h.file with ⟨hd, _⟩ | ⟨tail, htail, hfile⟩
  · rw [hd] at he
    cases he
  · refine ⟨hl.readOutcome_file htail hfile, ?_⟩
    exact (readOutcome_ok he).1 ⟨_, _, hl.readOutcome_file htail hfile⟩

theorem Durable.sledTree_leaves (h : Durable P key dir m es)
    (ht : sledTree {} (m.disk dir) = some tree) :
    tree.leafCount ≤ es.length ∧ (tree.leafCount = es.length → tree = ⟨es.map (·.leaf)⟩) := by
  cases hs : (m.disk dir).sled with
  | none => simp [sledTree, hs] at ht
  | some db =>
    obtain ⟨htake, hle⟩ := (h.sled db hs).sledTree hs ht
    rw [List.length_map] at hle
    refine ⟨hle, fun hlen => ?_⟩
    rw [hlen, List.take_of_length_le (by simp)] at htake
    cases tree
    simpa using htake

/-- **Restart.** With a tree store that is in step, the next process restores the entries. -/
theorem Durable.restart (h : Durable P key dir m es) (hl : P.Lawful)
    (hon : ∀ e ∈ es, e.Honest P key) (hstep : InStep P (m.disk dir)) :
    ∃ w, exec (setPersistenceDir P {} dir) (World.start key m.disk) = (.ok (), w) ∧ Session P key dir w es ∧
      ∀ db, (w.disk dir).sled = some db → SledSound (es.map (·.leaf)) db := by
  have hf : (World.start key m.disk).log.Fresh := ⟨⟨rfl, rfl, rfl⟩, rfl⟩
  rcases h.file with ⟨hd, rfl⟩ | ⟨tail, htail, hfile⟩
  · obtain ⟨w, hexec, hs, hsled⟩ := @open_new P key dir m.disk hd
    refine ⟨w, hexec, hs, fun db hdb => ?_⟩
    rw [hsled] at hdb
    cases hdb
    exact sledSound_empty _
  obtain ⟨hread, hevs⟩ := h.readOutcome hl hfile
  have hch := chained_recordedEvents (P := P) es [] ∅ hon
  have hsled : ∀ log db, (((World.start key m.disk).restore dir
      { (m.disk dir).withSled with events := some (fileBytes P (linesOf P es) []) } log).disk dir).sled = some db →
      SledSound (es.map (·.leaf)) db := by
    intro log db hdb
    simp only [World.restore, World.opened, World.setDir, Function.update_self, Dir.withEvents, Dir.withSled,
      Option.some.injEq] at hdb
    cases hs : (m.disk dir).sled with
    | none =>
      rw [hs] at hdb
      rw [← hdb]
      exact sledSound_empty _
    | some db' =>
      rw [hs] at hdb
      rw [← hdb]
      exact h.sled db' hs
  cases ht : sledTree {} (m.disk dir) with
  | none =>
    refine ⟨_, (open_replayed hf ht hfile).2 ⟨_, _, _, hread, hch, rfl⟩, ?_, hsled _⟩
    have hleaves : leavesOf P key (linesOf P es) = es.map (·.leaf) := leavesOf_recordedEvents es [] ∅ hon
    have hkey : (World.start key m.disk).log.leafKey = key := rfl
    rw [hkey, hleaves]
    exact restored_session hon rfl
  | some tree =>
    have hlen : tree.leafCount = es.length := by
      rw [hstep tree _ _ ht hfile hevs]
      simp [linesOf]
    have htree := (h.sledTree_leaves ht).2 hlen
    have hall := (chained_iff _ []).1 hch
    have hleaves : leavesOf P key (recordedEvents P es [] ∅) = es.map (·.leaf) := leavesOf_recordedEvents es [] ∅ hon
    have hv : Verified P key tree.leaves (linesOf P es) := by
      refine ⟨fun ev hm => ⟨hall.1 ev hm, ?_⟩, fun last hlast => ?_⟩
      · obtain ⟨i, hi⟩ := List.mem_iff_getElem?.1 hm
        have hlt := (List.getElem?_eq_some_iff.1 hi).1
        rw [(hall.2 i ev hi).1]
        simp only [List.length_nil, Nat.zero_add, linesOf, length_recordedEvents] at hlt ⊢
        exact Nat.lt_of_lt_of_eq hlt hlen.symm
      · rw [List.getLast?_eq_getElem?] at hlast
        rw [(hall.2 _ last hlast).2, hleaves, htree, List.nil_append, List.take_of_length_le]
        simp [linesOf]
        omega
    refine ⟨_, (open_verified hf.toUnused ht hfile).2 ⟨_, _, _, hread, hv, rfl⟩, ?_, hsled _⟩
    rw [htree]
    exact restored_session hon rfl

theorem Durable.refused (h : Durable P key dir m es) (hl : P.Lawful)
    (ht : sledTree {} (m.disk dir) = some tree) (hlt : tree.leafCount < es.length)
    (w : World) : exec (setPersistenceDir P {} dir) (World.start key m.disk) ≠ (.ok (), w) := by
  intro hexec
  rcases h.file with ⟨_, rfl⟩ | ⟨tail, htail, hfile⟩
  · exact absurd hlt (Nat.not_lt_zero _)
  obtain ⟨evs, _, _, hread, hv, _⟩ := (@open_verified P dir _ w tree ⟨rfl, rfl, rfl⟩ ht _ hfile).1 hexec
  have hdisk : (World.start key m.disk).disk dir = m.disk dir := rfl
  rw [hdisk, (h.readOutcome hl hfile).1] at hread
  obtain ⟨rfl, _⟩ : linesOf P es = evs ∧ _ := by simpa using congrArg Prod.fst hread
  -- the last line has the largest index
  obtain ⟨es', e, rfl⟩ := List.eq_nil_or_concat es |>.resolve_left fun h0 => by simp [h0] at hlt
  rw [List.concat_eq_append] at hv hlt
  rw [linesOf_concat] at hv
  have hidx := (hv.1 _ (List.mem_append_right _ (List.mem_singleton_self _))).2
  have hval : tree.leaves.length = tree.leafCount := rfl
  simp only [Entry.persisted, List.length_append, List.length_singleton] at hidx hlt
  omega

theorem Durable.restart_iff (h : Durable P key dir m es) (hl : P.Lawful)
    (hon : ∀ e ∈ es, e.Honest P key) :
    (∃ w, exec (setPersistenceDir P {} dir) (World.start key m.disk) = (.ok (), w)) ↔ InStep P (m.disk dir) := by
  constructor
  · rintro ⟨w, hexec⟩ tree content evs ht hfile hevs
    have hlines : evs = linesOf P es := by
      rw [(h.readOutcome hl hfile).2] at hevs
      exact (Option.some.inj hevs).symm
    have hlen : evs.length = es.length := by rw [hlines]; simp [linesOf]
    rw [hlen]
    refine Nat.le_antisymm (h.sledTree_leaves ht).1 (Nat.le_of_not_lt fun hlt => ?_)
    exact h.refused hl ht hlt w hexec
  · intro hstep
    obtain ⟨w, hexec, _⟩ := h.restart hl hon hstep
    exact ⟨w, hexec⟩

/-! ## Steps -/

theorem Durable.down (h : Durable P key dir ⟨log, disk⟩ es) : Durable P key dir ⟨none, disk⟩ es :=
  ⟨h.file, h.sled, fun _ h => by cases h⟩

theorem Durable.record {log : AuditLog} {disk : String → Dir} {es : List Entry}
    (h : Durable P key dir ⟨some log, disk⟩ es) {io : Io} (hw : io.write = none) (hsync : io.sync = none) (e : Entry) :
    ∃ w, exec (recordInner P io e) ⟨log, disk⟩ = (.ok es.length, w) ∧
      Durable P key dir ⟨some w.log, w.disk⟩ (es ++ [e]) := by
  obtain ⟨w, hexec, hs, hsled⟩ := (h.memory log rfl).record (e := e) hw hsync
  refine ⟨w, hexec, .inr ⟨[], .inl rfl, hs.file⟩, fun db hdb => ?_, fun log' hlog => ?_⟩
  · have hmap := hsled.symm.trans hdb
    obtain ⟨db', hdb', rfl⟩ := Option.map_eq_some_iff.1 hmap
    have hsound := (h.sled db' hdb').inserts io.sledWrites e.leaf
      ((⟨es.map (·.leaf) ++ [e.leaf]⟩ : AuditMerkleTree 20).root P)
    simpa using hsound
  · cases hlog
    exact hs

theorem cleanTear_cases (h : CleanTear line k) :
    (∃ tail rest, rest ≠ [] ∧ tail ++ rest = line ∧ (lineBytes line).extract 0 k = (String.ofList tail).toByteArray) ∨
      (lineBytes line).extract 0 k = lineBytes line := by
  obtain ⟨text, hk, hne⟩ := h
  have hsplit : text.utf8Encode ++ (lineBytes line).extract k (max k (lineBytes line).size) =
      (line ++ ['\n']).utf8Encode := by
    rw [← String.toByteArray_ofList, ← hk, ← ByteArray.extract_eq_extract_append_extract k (Nat.zero_le k) (by omega),
      ByteArray.extract_zero_max_size]
    exact String.toByteArray_ofList
  obtain ⟨rest, hrest⟩ := List.isPrefix_of_utf8Encode_append_eq_utf8Encode _ hsplit
  rcases List.eq_nil_or_concat rest with rfl | ⟨rest', c, rfl⟩
  · rw [List.append_nil] at hrest
    exact .inr (by rw [hk, hrest]; rfl)
  · rw [List.concat_eq_append, ← List.append_assoc] at hrest
    have hline : text ++ rest' = line := (List.append_inj' hrest rfl).1
    refine .inl ⟨text, rest', fun h0 => hne ?_, hline, hk⟩
    rw [← hline, h0, List.append_nil]

theorem fileBytes_tail (evs : List PersistedEvent) (tail : List Char) :
    fileBytes P evs [] ++ (String.ofList tail).toByteArray = fileBytes P evs tail := by
  simp [fileBytes, String.toByteArray_ofList]

/-- A crash inside the write keeps what was durable, and the entry too if its whole line was written. -/
theorem Durable.torn (h : Durable P key dir ⟨some log, disk⟩ es) (hk : CleanTear (P.eventToString (log.push P e).2) k) :
    ∃ more w err, (more = [] ∨ more = [e]) ∧ exec (recordInner P (CrashPoint.torn k).io e) ⟨log, disk⟩ = (.error err, w) ∧
      Durable P key dir ⟨none, w.disk⟩ (es ++ more) := by
  have hs := h.memory log rfl
  have hexec := @recordInner_write_failed P (CrashPoint.torn k).io e _ _ hs.persistence _ _ rfl
  have hfile : (disk dir).events = some (fileBytes P (linesOf P es) []) := hs.file
  have hsled : ((World.append ⟨(log.push P e).1, disk⟩ dir
      ((lineBytes (P.eventToString (log.push P e).2)).extract 0 k)).disk dir).sled = (disk dir).sled := by
    simp [World.append, World.setDir]
  have hevents : ((World.append ⟨(log.push P e).1, disk⟩ dir
      ((lineBytes (P.eventToString (log.push P e).2)).extract 0 k)).disk dir).events =
      some (fileBytes P (linesOf P es) [] ++ (lineBytes (P.eventToString (log.push P e).2)).extract 0 k) := by
    simp [World.append, World.setDir, hfile]
  rcases cleanTear_cases hk with ⟨tail, rest, hrest, happ, hbytes⟩ | hbytes
  · refine ⟨[], _, _, .inl rfl, hexec, .inr ⟨tail, .inr ⟨_, rest, hrest, happ⟩, ?_⟩, fun db hdb => ?_,
      fun _ h => by cases h⟩
    · rw [hevents, hbytes, fileBytes_tail, List.append_nil]
    · rw [hsled] at hdb
      rw [List.append_nil]
      exact h.sled db hdb
  · refine ⟨[e], _, _, .inr rfl, hexec, .inr ⟨[], .inl rfl, ?_⟩, fun db hdb => ?_, fun _ h => by cases h⟩
    · rw [hevents, hbytes, fileBytes_concat]
      exact congrArg (fun evs => some (fileBytes P evs [])) (hs.push_snd e).symm
    · rw [hsled] at hdb
      simpa using (h.sled db hdb).append e.leaf

/-- **One step.** What was durable stays durable; a confirmed entry is added, one in flight may be. -/
theorem Durable.step {m : Machine} {es : List Entry} (h : Durable P key dir m es) (hl : P.Lawful)
    (hon : ∀ e ∈ es, e.Honest P key) {a : Action} (ha : a.Honest P key) (hsafe : m.Safe P dir a) :
    ∃ more, Durable P key dir (m.step P key dir a) (es ++ more) ∧ (m.confirms P a).toList <+ more ∧
      more <+ (m.attempts P a).toList ∧ ∀ e ∈ more, e.Honest P key := by
  cases a with
  | restart =>
    obtain ⟨w, hexec, hs, hsled⟩ := h.restart hl hon hsafe
    refine ⟨[], ?_, List.Sublist.refl _, List.nil_sublist _, by simp⟩
    rw [List.append_nil, Machine.step, hexec]
    refine ⟨.inr ⟨[], .inl rfl, hs.file⟩, hsled, fun log hlog => ?_⟩
    cases hlog
    exact hs
  | record call sledSave =>
    obtain ⟨_ | log, disk⟩ := m
    · exact ⟨[], by simpa [Machine.step] using h, by simp [Machine.confirms], by simp, by simp⟩
    · have hk : log.leafKey = key := (h.memory log rfl).leafKey
      simp only [Machine.step, Machine.attempts, Machine.confirms, stepCall, exec_run, hk]
      cases he : call.entry P key with
      | none => exact ⟨[], by simpa using h, by simp, by simp, by simp⟩
      | some e =>
        obtain ⟨w, hexec, hd⟩ := @Durable.record P key dir _ _ _ h { sledSave := sledSave } rfl rfl e
        simp only [hexec]
        refine ⟨[e], hd, List.Sublist.refl _, List.Sublist.refl _, fun f hf => ?_⟩
        rw [List.mem_singleton.1 hf]
        exact ha e he
  | crash call point =>
    obtain ⟨_ | log, disk⟩ := m
    · exact ⟨[], by simpa [Machine.step] using h, by simp [Machine.confirms], by simp, by simp⟩
    · have hk : log.leafKey = key := (h.memory log rfl).leafKey
      simp only [Machine.step, Machine.attempts, Machine.confirms, stepCall, exec_run, hk, Option.bind_some]
      cases he : call.entry P key with
      | none => exact ⟨[], by simpa using h.down, by simp, by simp, by simp⟩
      | some e =>
        have hone : ∀ f ∈ [e], f.Honest P key := fun f hf => by
          rw [List.mem_singleton.1 hf]
          exact ha e he
        cases point with
        | torn k =>
          obtain ⟨more, w, err, hmore, hexec, hd⟩ := h.torn (hsafe log e rfl (by rw [hk]; exact he))
          simp only [hexec]
          rcases hmore with rfl | rfl
          · exact ⟨[], hd, by simp, by simp, by simp⟩
          · exact ⟨[e], hd, by simp, by simp, hone⟩
        | saved n =>
          obtain ⟨w, hexec, hd⟩ := @Durable.record P key dir _ _ _ h (CrashPoint.saved n).io rfl rfl e
          simp only [hexec]
          exact ⟨[e], hd.down, by simp, by simp, hone⟩

/-! ## Runs -/

/-- **Safe runs.** -/
theorem Durable.run (hl : P.Lawful) : ∀ {acts : List Action} {m : Machine} {es : List Entry},
    Durable P key dir m es → (∀ e ∈ es, e.Honest P key) → (∀ a ∈ acts, a.Honest P key) →
    Runs.Guarded (Machine.step P key dir) (Machine.Safe P dir) m acts →
    ∃ more, Durable P key dir (Runs.run (Machine.step P key dir) m acts) (es ++ more) ∧
      Runs.outputs (Machine.step P key dir) (Machine.confirms P) m acts <+ more ∧
      more <+ Runs.outputs (Machine.step P key dir) (Machine.attempts P) m acts ∧ ∀ e ∈ more, e.Honest P key
  | [], m, es, h, _, _, _ => ⟨[], by simpa using h, by simp [Runs.outputs], by simp, by simp⟩
  | a :: acts, m, es, h, hon, ha, ⟨hsafe, hrest⟩ => by
    obtain ⟨more, h1, hc1, ha1, ho1⟩ := h.step hl hon (ha a (by simp)) hsafe
    have hon' : ∀ e ∈ es ++ more, e.Honest P key := fun e he =>
      (List.mem_append.1 he).elim (hon e) (ho1 e)
    obtain ⟨more', h2, hc2, ha2, ho2⟩ := Durable.run hl h1 hon' (fun b hb => ha b (List.mem_cons_of_mem a hb)) hrest
    refine ⟨more ++ more', ?_, hc1.append hc2, ha1.append ha2, fun e he => ?_⟩
    · rw [← List.append_assoc]
      exact h2
    · exact (List.mem_append.1 he).elim (ho1 e) (ho2 e)

theorem durable_new : Durable P key dir .new [] :=
  ⟨.inl ⟨rfl, rfl⟩, fun _ h => (nomatch h), fun _ h => (nomatch h)⟩

/-- **Crash safety.** After every run of safe steps, over any number of sessions, the next process starts
exactly when the tree store is in step with the file. It then holds, in order, every entry whose call
returned `Ok` and at most those in flight at a crash; further calls return `Ok`, and the file with their
lines replays. -/
theorem crash_safe (P : Prims) (hl : P.Lawful) (key : Option Bytes32) (dir : String) (acts : List Action)
    (hon : ∀ a ∈ acts, a.Honest P key)
    (hg : Runs.Guarded (Machine.step P key dir) (Machine.Safe P dir) .new acts) :
    ∃ es, Runs.outputs (Machine.step P key dir) (Machine.confirms P) .new acts <+ es ∧
      es <+ Runs.outputs (Machine.step P key dir) (Machine.attempts P) .new acts ∧
      let disk := (Runs.run (Machine.step P key dir) .new acts).disk
      ((∃ w, exec (setPersistenceDir P {} dir) (World.start key disk) = (.ok (), w)) ↔ InStep P (disk dir)) ∧
      ∀ w, exec (setPersistenceDir P {} dir) (World.start key disk) = (.ok (), w) → InMemory P key dir w.log es ∧
        ∀ (call : RecordCall) (sledSave : Option (Nat × String)) (e : Entry), call.entry P key = some e →
          e.Honest P key → ∃ w', exec (call.run P { sledSave := sledSave }) w = (.ok es.length, w') ∧
            ∃ w'', exec (replayFile P {} dir) (World.start key w'.disk) = (.ok (linesOf P (es ++ [e])), w'') := by
  obtain ⟨es, hd, hc, ha, ho⟩ := Durable.run hl (@durable_new P key dir) (by simp) hon hg
  rw [List.nil_append] at hd
  refine ⟨es, hc, ha, hd.restart_iff hl ho, fun w hexec => ?_⟩
  obtain ⟨w1, hexec1, hs, hsled⟩ := hd.restart hl ho ((hd.restart_iff hl ho).1 ⟨w, hexec⟩)
  obtain rfl : w1 = w := by
    rw [hexec] at hexec1
    exact (Prod.mk.inj hexec1).2.symm
  refine ⟨hs.toInMemory, fun call sledSave e he hone => ?_⟩
  obtain ⟨w', hexec', hs', _⟩ := @Session.record P key dir _ _ hs { sledSave := sledSave } e rfl rfl
  have hrun : exec (call.run P { sledSave := sledSave }) w1 = (.ok es.length, w') := by
    rw [exec_run, hs.leafKey, he]
    exact hexec'
  have hall : ∀ f ∈ es ++ [e], f.Honest P key := fun f hf => by
    rcases List.mem_append.1 hf with hf | hf
    · exact ho f hf
    · rw [List.mem_singleton.1 hf]
      exact hone
  exact ⟨w', hrun, hs'.replays hl hall⟩

/-! ### A crash between the file and the tree store -/

/-- One insert, and a second one that dies after the sync, before its first write to the tree store. -/
def demoCrash : List Action := [.restart, .record (demoInsert "insert|shop|orders|1") none] ++
  [.crash (demoInsert "insert|shop|orders|2") (.saved 0)]

theorem demo_inserted (sledSave : Option (Nat × String)) : ∃ w db,
    Runs.run (Machine.step demoPrims none "data") .new
      [.restart, .record (demoInsert "insert|shop|orders|1") sledSave] = ⟨some w.log, w.disk⟩ ∧
    Session demoPrims none "data" w [demoEntry "insert|shop|orders|1"] ∧ (w.disk "data").sled = some db ∧
    (sledSave = none → Stored [(demoEntry "insert|shop|orders|1").leaf] db) ∧
    (∀ err, sledSave = some (0, err) → db = .empty) := by
  obtain ⟨hopen, hs0, hsled0⟩ := @session_open demoPrims none "data"
  obtain ⟨w, hexec, hs, hsled⟩ := @Session.record demoPrims none "data" _ _ hs0 { sledSave := sledSave }
    (demoEntry "insert|shop|orders|1") rfl rfl
  have hentry : (demoInsert "insert|shop|orders|1").entry demoPrims (openNew demoPrims none "data").log.leafKey =
      some (demoEntry "insert|shop|orders|1") := by rw [hs0.leafKey, demoInsert_entry]
  rw [hsled0] at hsled
  refine ⟨w, _, ?_, hs, hsled, fun h => ?_, fun err h => ?_⟩
  · have hnew : (Machine.new).disk = emptyDisk := rfl
    simp only [Runs.run_cons, Runs.run_nil, Machine.step, hnew, hopen, stepCall, exec_run, hentry, hexec]
  · subst h
    exact stored_empty.inserts _ _
  · subst h
    rfl

/-- The second process does not start: its file has two events and its tree store one leaf. -/
theorem crash_before_leaf_count : ¬ ∃ w, exec (setPersistenceDir demoPrims {} "data")
    (World.start none (Runs.run (Machine.step demoPrims none "data") .new demoCrash).disk) = (.ok (), w) := by
  obtain ⟨w1, db, hrun, hs1, hdb, hst, _⟩ := demo_inserted none
  obtain ⟨w2, hexec, hs2, hsled⟩ := @Session.record demoPrims none "data" _ _ hs1 (CrashPoint.saved 0).io
    (demoEntry "insert|shop|orders|2") rfl rfl
  have hentry : (demoInsert "insert|shop|orders|2").entry demoPrims w1.log.leafKey =
      some (demoEntry "insert|shop|orders|2") := by rw [hs1.leafKey, demoInsert_entry]
  have hdisk : (Runs.run (Machine.step demoPrims none "data") .new demoCrash).disk = w2.disk := by
    rw [demoCrash, Runs.run_snoc, hrun]
    simp only [Machine.step, stepCall, exec_run, hentry, hexec]
  rw [hdisk]
  -- the store has not changed, the file has
  have hdb2 : (w2.disk "data").sled = some db := by rw [hsled, hdb]; rfl
  have hsound : SledSound ([demoEntry "insert|shop|orders|1"].map (·.leaf)) db :=
    ⟨fun i bytes h => by rw [← h, (hst rfl).leaf]; rfl, fun c h => by
      rw [(hst rfl).count] at h
      cases h
      exact Nat.le_refl _⟩
  have hd : Durable demoPrims none "data" ⟨none, w2.disk⟩
      [demoEntry "insert|shop|orders|1", demoEntry "insert|shop|orders|2"] := by
    refine ⟨.inr ⟨[], .inl rfl, hs2.file⟩, fun db' h => ?_, fun _ h => by cases h⟩
    obtain rfl : db = db' := Option.some.inj (hdb2.symm.trans h)
    exact hsound.append _
  rintro ⟨w, hw⟩
  exact hd.refused demoPrims_lawful ((hst rfl).sledTree hdb2) (Nat.lt_succ_self 1) w hw

/-- The tree store rejects every write of the first insert: the next process replays it from the file. -/
theorem crash_safe_demo : ∃ es w, Runs.outputs (Machine.step demoPrims none "data") (Machine.confirms demoPrims) .new
      [.restart, .record (demoInsert "insert|shop|orders|1") (some (0, "IO error"))] <+ es ∧
    exec (setPersistenceDir demoPrims {} "data") (World.start none (Runs.run (Machine.step demoPrims none "data") .new
      [.restart, .record (demoInsert "insert|shop|orders|1") (some (0, "IO error"))]).disk) = (.ok (), w) ∧
    InMemory demoPrims none "data" w.log es := by
  obtain ⟨w1, db, hrun, hs1, hdb, _, hempty⟩ := demo_inserted (some (0, "IO error"))
  have hnew : sledTree {} (Machine.new.disk "data") = none := rfl
  obtain ⟨es, hc, _, hiff, hall⟩ := crash_safe demoPrims demoPrims_lawful none "data"
    [.restart, .record (demoInsert "insert|shop|orders|1") (some (0, "IO error"))]
    (by
      intro a ha
      simp only [List.mem_cons, List.not_mem_nil, or_false] at ha
      rcases ha with rfl | rfl
      · trivial
      · intro e he
        rw [demoInsert_entry] at he
        cases he
        exact demoEntry_honest _)
    ⟨fun _ _ _ ht _ _ => (nomatch hnew.symm.trans ht), trivial, trivial⟩
  have hnone : sledTree {} (w1.disk "data") = none := by
    unfold sledTree
    rw [hdb, hempty _ rfl]
    rfl
  obtain ⟨w, hw⟩ := hiff.2 (by
    rw [hrun]
    exact fun _ _ _ ht _ _ => (nomatch hnone.symm.trans ht))
  exact ⟨es, w, hc, hw, (hall w hw).1⟩

end

end Audit
