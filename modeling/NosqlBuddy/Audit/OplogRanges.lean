import NosqlBuddy.Oplog.Canonical
import NosqlBuddy.Audit.AutoCommit

/-!
# Oplog ranges

`compute_and_attach_oplog_hash` (auditd/mod.rs:785) hashes the oplog from `next_oplog_start_ts` to the
majority commit point and attaches the range to an epoch. The `close_epoch` handler (publisher.rs:24) and
the auto-commit loop (mod.rs:638) call it beside each other.

| here | there |
| --- | --- |
| `hashOplogEntry`, `merkleRoot` | oplog_canon.rs:247, `OplogMerkleTree::from_leaves` (oplog.rs:144) |
| `OplogReplies` | what the server answers: the majority commit point, asked for twice, and the entries |
| `OplogDaemon`, `stepOplog` | the manager with the calls in flight; the read of the start and the rest of a call are steps of their own |

The end is written back as the new `next_oplog_start_ts` without another look at it (epoch.rs:308-313).
`ranges_tile_iff`: the attached ranges tile the oplog in every state of a run exactly when each call that
attaches continues the ranges attached before it and starts at no later point than the server's answers.
-/

namespace Audit
open Mutation Tiling

/-- `#[error(..)]` of `AuditError` (error.rs:12). -/
def AuditError.display : AuditError → String
  | .io message => s!"io error: {message}"
  | .notFound message => s!"not found: {message}"
  | .validation message => s!"validation error: {message}"
  | .internal message => s!"internal error: {message}"
  | .mongo message => s!"mongo error: {message}"
  | .credential message => s!"credential error: {message}"
  | .timeout message => s!"timeout: {message}"
  | .zkAudit message => s!"zk audit error: {message}"

/-! ## Hashing a range -/

section
variable (P : Prims) (display : Oplog.Bson → String)

def hashOplogEntry (entry : Oplog.Document) : Bytes32 := P.sha256 (Oplog.canonicalizeOplogEntry display entry)

/-- The parents of a level; an odd last node is hashed with itself. -/
def parents : List Bytes32 → List Bytes32
  | [] => []
  | [x] => [P.sha256 (x.val ++ x.val)]
  | x :: y :: rest => P.sha256 (x.val ++ y.val) :: parents rest

theorem length_parents : ∀ level : List Bytes32, (parents P level).length = (level.length + 1) / 2
  | [] => rfl
  | [_] => by simp [parents]
  | _ :: _ :: rest => by
    simp only [parents, List.length_cons, length_parents rest]
    omega

def merkleRoot : List Bytes32 → Bytes32
  | [] => P.sha256 (strBytes "empty_oplog_tree")
  | [x] => x
  | x :: y :: rest => merkleRoot (parents P (x :: y :: rest))
termination_by level => level.length
decreasing_by
  simp only [length_parents, List.length_cons]
  omega

structure OplogReplies where
  majority : Except AuditError OplogTimestamp
  majorityAgain : Except AuditError OplogTimestamp
  entries : Except AuditError (List Oplog.Document)

/-- `OplogRange` (oplog.rs:113). -/
structure EpochOplogRange extends OplogRange where
  epochNumber : Nat

def computeOplogRangeHash (replies : OplogReplies) (epochNumber : Nat) (startTs endTs : OplogTimestamp) :
    Except AuditError EpochOplogRange := do
  let majorityTs ← replies.majorityAgain
  let safeEndTs := if endTs > majorityTs then majorityTs else endTs
  let entries ← replies.entries
  let root := merkleRoot P (entries.map (hashOplogEntry P display))
  return ⟨⟨startTs, safeEndTs, entries.length, String.ofList (Bytes.hexEncode root.val), majorityTs⟩, epochNumber⟩

/-- `compute_and_attach_oplog_hash` from the read of its start to the attachment. -/
def hashRange (replies : OplogReplies) (epochNumber : Nat) (startTs : OplogTimestamp) : Except String EpochOplogRange :=
  match replies.majority with
  | .error e => .error s!"get_majority_commit_ts: {e.display}"
  | .ok majorityTs =>
    match computeOplogRangeHash P display replies epochNumber startTs majorityTs with
    | .error e => .error s!"compute_oplog_range_hash: {e.display}"
    | .ok range => .ok range

/-- The rest of `compute_and_attach_oplog_hash`. -/
def computeAndAttach (replies : OplogReplies) (io : EpochIo) (epochNumber : Nat) (startTs : OplogTimestamp)
    (s : EpochStore) : Except String (EpochOplogRange × Epoch) × EpochStore :=
  match hashRange P display replies epochNumber startTs with
  | .error e => (.error e, s)
  | .ok range =>
    match exec (attachOplogHash io epochNumber range.toOplogRange) s with
    | (.error e, s') => (.error s!"attach_oplog_hash: {e.display}", s')
    | (.ok epoch, s') => (.ok (range, epoch), s')

end

/-! ## Calls beside each other -/

/-- The range of an epoch. -/
def Epoch.oplogRange (e : Epoch) : Option (Range OplogTimestamp) :=
  match e.oplogStartTs, e.oplogEndTs with
  | some startTs, some endTs => some (startTs, endTs)
  | _, _ => none

/-- The range attached to the epoch of that number. -/
def EpochList.rangeOf (es : EpochList) (n : Nat) : Option (Range OplogTimestamp) := (es.find n).bind Epoch.oplogRange

structure OplogDaemon where
  store : EpochStore
  /-- the calls that wait for the server: epoch number and start -/
  calls : List (Nat × OplogTimestamp)
  /-- the epochs that have a range, by the time of the attachment -/
  order : List Nat

namespace OplogDaemon

def epochs (s : OplogDaemon) : EpochList := s.store.manager.epochs

def next (s : OplogDaemon) : OplogTimestamp := s.store.manager.oplogStart

/-- A new manager, in memory or with a state file. -/
def start (config : EpochConfig) (path : Option String) (files : String → EpochFile) : OplogDaemon :=
  ⟨⟨{ EpochManager.new config with persistencePath := path }, files⟩, [], []⟩

/-- The attached ranges in the order of the attachment. -/
def ranges (s : OplogDaemon) : List (Range OplogTimestamp) := s.order.filterMap s.epochs.rangeOf

end OplogDaemon

/-- What happens to the manager. Errors are logged or returned to the caller. -/
inductive OplogStep where
  | begin (epochNumber : Nat)
  | finish (call : Nat) (replies : OplogReplies) (io : EpochIo)
  | recordEvent (index : Nat) (log : AuditLog) (io : EpochIo)
  | closeCurrentEpoch (log : AuditLog) (io : EpochIo)
  | syncOpenEpoch (log : AuditLog) (io : EpochIo)
  | markCommitted (epochNumber : Nat) (now txHash : String) (io : EpochIo)

/-- The server answered all three questions. -/
def OplogReplies.complete (replies : OplogReplies) : Bool :=
  replies.majority.isOk && replies.majorityAgain.isOk && replies.entries.isOk

/-- The epoch is there and closed, and the server answered. -/
def attaches (s : OplogDaemon) (n : Nat) (replies : OplogReplies) : Bool :=
  (s.epochs.find n).any (fun e => !e.isOpen) && replies.complete

section
variable (P : Prims) (display : Oplog.Bson → String)

def finishCall (s : OplogDaemon) (call n : Nat) (startTs : OplogTimestamp) (replies : OplogReplies) (io : EpochIo) :
    OplogDaemon where
  store := (computeAndAttach P display replies io n startTs s.store).2
  calls := s.calls.eraseIdx call
  order := if attaches s n replies then s.order.filter (· ≠ n) ++ [n] else s.order

def stepOplog (s : OplogDaemon) : OplogStep → OplogDaemon
  | .begin n => { s with calls := s.calls ++ [(n, s.next)] }
  | .finish call replies io =>
    match s.calls[call]? with
    | some (n, startTs) => finishCall P display s call n startTs replies io
    | none => s
  | .recordEvent index log io => { s with store := (exec (recordEvent io index log) s.store).2 }
  | .closeCurrentEpoch log io => { s with store := (exec (closeCurrentEpoch io log) s.store).2 }
  | .syncOpenEpoch log io => { s with store := (exec (syncOpenEpochWithAuditLog io log) s.store).2 }
  | .markCommitted n now tx io => { s with store := (exec (markCommitted io n now tx) s.store).2 }

end

/-- The attached ranges are laid end to end from zero to the next start. -/
structure TilesOplog (s : OplogDaemon) : Prop where
  listed : ∀ n, n ∈ s.order ↔ (s.epochs.rangeOf n).isSome
  nodup : s.order.Nodup
  tiles : Tiles .zero s.ranges s.next

/-- Every timestamp below the next start lies in the range of exactly one epoch. -/
structure CoversOplog (s : OplogDaemon) : Prop extends TilesOplog s where
  once : ∀ ts < s.next, ∃! n, ∃ r, s.epochs.rangeOf n = some r ∧ r.covers ts = true

/-- A range from `startTs` for epoch `n` comes after the other ranges: the epoch has no range or an empty
one and the start is still the next one, or its range is the last and begins there too. -/
def Continues (s : OplogDaemon) (n : Nat) (startTs : OplogTimestamp) : Prop :=
  match s.epochs.rangeOf n with
  | none => startTs = s.next
  | some r => (r.1 = r.2 ∧ startTs = s.next) ∨ (s.order.getLast? = some n ∧ startTs = r.1)

/-- A call that attaches starts where it continues the other ranges, and at no later point than the
answers of the server. -/
def Chains (s : OplogDaemon) : OplogStep → Prop
  | .finish call replies _ => ∀ n startTs majority again, s.calls[call]? = some (n, startTs) → attaches s n replies →
      replies.majority = .ok majority → replies.majorityAgain = .ok again →
      Continues s n startTs ∧ startTs ≤ majority ∧ startTs ≤ again
  | _ => True

/-! ## What the operations do to the ranges -/

namespace EpochList

theorem find_updateFirst (hf : ∀ e, (f e).epochNumber = e.epochNumber) (n m : Nat) : ∀ es : List Epoch,
    (updateFirst n f es).find? (·.epochNumber = m) =
      if m = n then (es.find? (·.epochNumber = n)).map f else es.find? (·.epochNumber = m)
  | [] => by simp [updateFirst]
  | e :: es => by
    have ih := find_updateFirst hf n m es
    by_cases hm : m = n
    · subst hm
      rw [if_pos rfl] at ih ⊢
      by_cases he : e.epochNumber = m
      · simp [updateFirst, he, hf]
      · simp only [updateFirst, he, if_false, List.find?_cons, decide_false, ih]
    · rw [if_neg hm] at ih ⊢
      by_cases he : e.epochNumber = n
      · have hem : ¬ e.epochNumber = m := fun h => hm (h.symm.trans he)
        simp [updateFirst, he, hf, Ne.symm hm]
      · simp only [updateFirst, he, if_false, List.find?_cons, ih]

theorem updateFirst_append (n : Nat) (f : Epoch → Epoch) : ∀ es es' : List Epoch,
    updateFirst n f (es ++ es') =
      if es.any (·.epochNumber = n) then updateFirst n f es ++ es' else es ++ updateFirst n f es'
  | [], es' => by simp
  | e :: es, es' => by
    by_cases he : e.epochNumber = n
    · simp [updateFirst, he]
    · simp only [List.cons_append, updateFirst, he, if_false, updateFirst_append n f es es', List.any_cons, decide_false,
        Bool.false_or]
      split <;> rfl

theorem toList_update (es : EpochList) (n : Nat) (f : Epoch → Epoch) : (es.update n f).toList = updateFirst n f es.toList := by
  unfold update toList
  rw [updateFirst_append]
  split
  · rfl
  · by_cases hl : es.last.epochNumber = n
    · simp [hl, updateFirst]
    · simp [hl, updateFirst]

theorem find_update (es : EpochList) (n m : Nat) (f : Epoch → Epoch) (hf : ∀ e, (f e).epochNumber = e.epochNumber) :
    (es.update n f).find m = if m = n then (es.find n).map f else es.find m := by
  unfold find
  rw [toList_update, find_updateFirst hf]

theorem rangeOf_setLast (es : EpochList) (e : Epoch) (hn : e.epochNumber = es.last.epochNumber)
    (hr : e.oplogRange = es.last.oplogRange) (m : Nat) : rangeOf { es with last := e } m = es.rangeOf m := by
  unfold rangeOf find toList
  rw [List.find?_append, List.find?_append]
  cases es.earlier.find? _ with
  | some e' => rfl
  | none =>
    by_cases hm : es.last.epochNumber = m
    · simp [hn, hm, hr]
    · simp [hn, hm]

theorem rangeOf_push (es : EpochList) (k i m : Nat) : (es.push (Epoch.new k i)).rangeOf m = es.rangeOf m := by
  unfold rangeOf find push
  rw [toList, List.find?_append]
  cases es.toList.find? _ with
  | some e' => rfl
  | none =>
    by_cases hm : k = m
    · simp [Epoch.new, hm, Epoch.oplogRange]
    · simp [Epoch.new, hm]

theorem rangeOf_new (k i m : Nat) : rangeOf ⟨[], Epoch.new k i⟩ m = none := by
  unfold rangeOf find toList
  by_cases hm : k = m
  · simp [Epoch.new, hm, Epoch.oplogRange]
  · simp [Epoch.new, hm]

theorem rangeOf_closedAt (es : EpochList) (i : Nat) (root : Option String) (m : Nat) :
    (es.closedAt i root).rangeOf m = es.rangeOf m := by
  cases root with
  | none => rfl
  | some root =>
    rw [closedAt, rangeOf_push]
    exact rangeOf_setLast es (es.last.freeze i root) rfl rfl m

theorem rangeOf_setCount (es : EpochList) (k m : Nat) : (es.setCount k).rangeOf m = es.rangeOf m :=
  rangeOf_setLast es (es.last.setCount k) rfl rfl m

theorem rangeOf_commit (es : EpochList) (n : Nat) (now tx : String) (m : Nat) :
    (es.update n (Epoch.commit now tx)).rangeOf m = es.rangeOf m := by
  unfold rangeOf
  rw [find_update es n m (Epoch.commit now tx) fun _ => rfl]
  by_cases hm : m = n
  · subst hm
    rw [if_pos rfl]
    cases es.find m <;> rfl
  · rw [if_neg hm]

theorem rangeOf_attach {es : EpochList} {n : Nat} {e : Epoch} (h : es.find n = some e) (r : OplogRange) (m : Nat) :
    (es.update n (Epoch.attach r)).rangeOf m = if m = n then some (r.startTs, r.endTs) else es.rangeOf m := by
  unfold rangeOf
  rw [find_update es n m (Epoch.attach r) fun _ => rfl]
  by_cases hm : m = n
  · rw [if_pos hm, if_pos hm, h]
    rfl
  · rw [if_neg hm, if_neg hm]

end EpochList

section
variable {s : EpochStore} {io : EpochIo} {log : AuditLog}

/-- What the attached ranges depend on. -/
def EpochStore.oplogView (s : EpochStore) : OplogTimestamp × (Nat → Option (Range OplogTimestamp)) :=
  (s.manager.oplogStart, s.manager.epochs.rangeOf)

theorem oplogView_eq {s' : EpochStore} (hnext : s'.manager.nextOplogStartTs = s.manager.nextOplogStartTs)
    (hranges : ∀ m, s'.manager.epochs.rangeOf m = s.manager.epochs.rangeOf m) : s'.oplogView = s.oplogView := by
  unfold EpochStore.oplogView EpochManager.oplogStart
  rw [hnext, funext hranges]

theorem keeps_closeAt {α : Type} {f : EpochManager → α} (hf : ∀ (m : EpochManager) es, f { m with epochs := es } = f m)
    (current : Epoch) (i : Nat) : Keeps (fun s => f s.manager) (closeAt io current i log) := by
  unfold closeAt rootFor
  refine keeps_bind ?_ fun root => keeps_bind (keeps_modify fun _ => hf _ _) fun _ => keeps_bind (keeps_modify fun _ => hf _ _)
    fun _ => keeps_bind (fun s => congrArg f (keeps_save io s)) fun _ => keeps_pure _
  cases log.rootAfterAt i with
  | none => exact keeps_throw _
  | some root => exact keeps_pure root

theorem keeps_recordEvent {α : Type} {f : EpochManager → α} (hf : ∀ (m : EpochManager) es, f { m with epochs := es } = f m)
    (i : Nat) : Keeps (fun s => f s.manager) (recordEvent io i log) := by
  unfold recordEvent
  refine keeps_bind keeps_get fun s => keeps_guard (keeps_bind (keeps_modify fun _ => hf _ _) fun _ => ?_)
  split
  · exact keeps_bind (keeps_closeAt hf _ i) fun _ => keeps_pure _
  · exact keeps_pure _

theorem keeps_next_closeAt (current : Epoch) (i : Nat) :
    Keeps (fun s => s.manager.nextOplogStartTs) (closeAt io current i log) :=
  keeps_closeAt (f := EpochManager.nextOplogStartTs) (fun _ _ => rfl) current i

theorem keeps_next_recordEvent (i : Nat) : Keeps (fun s => s.manager.nextOplogStartTs) (recordEvent io i log) :=
  keeps_recordEvent (f := EpochManager.nextOplogStartTs) (fun _ _ => rfl) i

theorem keeps_next_closeCurrentEpoch : Keeps (fun s => s.manager.nextOplogStartTs) (closeCurrentEpoch io log) := by
  unfold closeCurrentEpoch
  exact keeps_bind keeps_get fun s => keeps_guard (keeps_guard (keeps_next_closeAt _ _))

theorem keeps_next_sync : Keeps (fun s => s.manager.nextOplogStartTs) (syncOpenEpochWithAuditLog io log) := by
  unfold syncOpenEpochWithAuditLog
  refine keeps_bind keeps_get fun s => ?_
  dsimp only
  generalize (if log.eventCount > s.manager.epochs.last.startIndex then _ else 0) = newCount
  split
  · exact keeps_pure _
  · refine keeps_bind (keeps_modify fun _ => rfl) fun _ => ?_
    split
    · exact keeps_bind (keeps_next_closeAt _ _) fun _ => keeps_pure _
    · exact keeps_bind (fun s => congrArg EpochManager.nextOplogStartTs (keeps_save io s)) fun _ => keeps_pure _

theorem oplogView_recordEvent (i : Nat) : (exec (recordEvent io i log) s).2.oplogView = s.oplogView := by
  refine oplogView_eq (keeps_next_recordEvent i s) fun m => ?_
  by_cases hopen : s.manager.epochs.last.isOpen = true
  · rw [epochs_recordEvent hopen]
    split
    · rw [EpochList.rangeOf_closedAt, EpochList.rangeOf_setCount]
    · rw [EpochList.rangeOf_setCount]
  · unfold recordEvent
    rw [exec_bind_ok (exec_get s)]
    simp only [hopen, Bool.false_eq_true, not_false_eq_true, if_true]
    rw [exec_bind_error (exec_throw _ _)]

theorem oplogView_closeCurrentEpoch : (exec (closeCurrentEpoch io log) s).2.oplogView = s.oplogView := by
  refine oplogView_eq (keeps_next_closeCurrentEpoch s) fun m => ?_
  by_cases hopen : s.manager.epochs.last.isOpen = true
  · rw [epochs_closeCurrentEpoch hopen]
    split
    · rfl
    · rw [EpochList.rangeOf_closedAt]
  · unfold closeCurrentEpoch
    rw [exec_bind_ok (exec_get s)]
    simp only [hopen, Bool.false_eq_true, not_false_eq_true, if_true]
    rw [exec_bind_error (exec_throw _ _)]

theorem oplogView_sync : (exec (syncOpenEpochWithAuditLog io log) s).2.oplogView = s.oplogView := by
  refine oplogView_eq (keeps_next_sync s) fun m => ?_
  by_cases hopen : s.manager.epochs.last.isOpen = true
  · rw [epochs_sync hopen]
    split
    · rw [EpochList.rangeOf_closedAt, EpochList.rangeOf_setCount]
    · rw [EpochList.rangeOf_setCount]
  · unfold syncOpenEpochWithAuditLog
    rw [exec_bind_ok (exec_get s)]
    simp only [hopen, Bool.false_eq_true, not_false_eq_true, if_true, exec_pure]

theorem oplogView_markCommitted (n : Nat) (now tx : String) :
    (exec (markCommitted io n now tx) s).2.oplogView = s.oplogView := by
  unfold markCommitted
  rw [exec_bind_ok (exec_get s)]
  cases s.manager.epochs.find n with
  | none => rfl
  | some e =>
    simp only
    rw [exec_bind_ok (exec_modify _ _)]
    have hsave := keeps_save io { s with manager := { s.manager with
      epochs := s.manager.epochs.update n (Epoch.commit now tx) } }
    refine oplogView_eq ?_ fun m => ?_
    · rw [hsave]
    · rw [hsave]
      exact EpochList.rangeOf_commit _ n now tx m

/-- **Attaching a range** to a closed epoch, also when the save fails; to another epoch it is refused. -/
theorem oplogView_attach (n : Nat) (r : OplogRange) : (exec (attachOplogHash io n r) s).2.oplogView =
    if (s.manager.epochs.find n).any (fun e => !e.isOpen) then
      (r.endTs, fun m => if m = n then some (r.startTs, r.endTs) else s.manager.epochs.rangeOf m)
    else s.oplogView := by
  unfold attachOplogHash
  rw [exec_bind_ok (exec_get s)]
  cases hfind : s.manager.epochs.find n with
  | none => rfl
  | some e =>
    by_cases hopen : e.isOpen = true
    · simp only [hopen, if_true, Option.any_some, Bool.not_true, Bool.false_eq_true, if_false]
      rw [exec_bind_error (exec_throw _ _)]
    · simp only [hopen, Bool.false_eq_true, if_false, Option.any_some, Bool.not_false, if_true]
      rw [exec_bind_ok (exec_modify _ _), exec_bind_pure_snd]
      unfold EpochStore.oplogView
      rw [keeps_save io]
      refine Prod.ext rfl (funext fun m => ?_)
      exact EpochList.rangeOf_attach hfind r m

end

/-! ## One step -/

section
variable {P : Prims} {display : Oplog.Bson → String} {s : OplogDaemon} {replies : OplogReplies}

theorem tilesOplog_congr (horder : s'.order = s.order) (hview : s'.store.oplogView = s.store.oplogView) :
    TilesOplog s' ↔ TilesOplog s := by
  obtain ⟨hnext, hranges⟩ := Prod.mk.inj hview
  have hnext' : s'.next = s.next := hnext
  have hranges' : s'.epochs.rangeOf = s.epochs.rangeOf := hranges
  have heq : s'.ranges = s.ranges := by
    unfold OplogDaemon.ranges
    rw [horder, hranges']
  constructor
  · rintro ⟨h1, h2, h3⟩
    exact ⟨by rwa [horder, hranges'] at h1, horder ▸ h2, by rwa [heq, hnext'] at h3⟩
  · rintro ⟨h1, h2, h3⟩
    exact ⟨by rwa [horder, hranges'], horder ▸ h2, by rwa [heq, hnext']⟩

theorem hashRange_ok {majority again : OplogTimestamp} (hc : replies.complete = true) (hm : replies.majority = .ok majority)
    (ha : replies.majorityAgain = .ok again) (n : Nat) (startTs : OplogTimestamp) :
    ∃ range, hashRange P display replies n startTs = .ok range ∧ range.startTs = startTs ∧
      range.endTs = min majority again := by
  obtain ⟨_, _, entries⟩ := replies
  subst hm ha
  cases entries with
  | error e => exact absurd hc (by simp [OplogReplies.complete, Except.isOk, Except.toBool])
  | ok entries =>
    refine ⟨_, rfl, rfl, ?_⟩
    show (if majority > again then again else majority) = min majority again
    rcases lt_or_ge again majority with h | h
    · rw [if_pos h, min_eq_right h.le]
    · rw [if_neg (not_lt.2 h), min_eq_left h]

theorem hashRange_error (hc : replies.complete = false) (n : Nat) (startTs : OplogTimestamp) :
    ∃ e, hashRange P display replies n startTs = .error e := by
  obtain ⟨majority, again, entries⟩ := replies
  cases majority with
  | error e => exact ⟨_, rfl⟩
  | ok majority =>
    cases again with
    | error e => exact ⟨_, rfl⟩
    | ok again =>
      cases entries with
      | error e => exact ⟨_, rfl⟩
      | ok entries => exact absurd hc (by simp [OplogReplies.complete, Except.isOk, Except.toBool])

theorem oplogView_refused (h : attaches s n replies = false) (io : EpochIo) (startTs : OplogTimestamp) :
    (computeAndAttach P display replies io n startTs s.store).2.oplogView = s.store.oplogView := by
  unfold computeAndAttach
  by_cases hc : replies.complete = true
  · have hopen : (s.store.manager.epochs.find n).any (fun e => !e.isOpen) = false := by
      rw [attaches, hc, Bool.and_true] at h
      exact h
    cases hashRange P display replies n startTs with
    | error e => rfl
    | ok range =>
      have hview := @oplogView_attach s.store io n range.toOplogRange
      rw [hopen, if_neg Bool.false_ne_true] at hview
      simp only
      split
      · next heq => rw [heq] at hview; exact hview
      · next heq => rw [heq] at hview; exact hview
  · obtain ⟨e, he⟩ := @hashRange_error P display replies (Bool.eq_false_iff.2 hc) n startTs
    rw [he]

/-- A call that attaches gives the epoch the range from the start it read to the earlier of the two
answers, and makes that the next start. -/
theorem oplogView_attached {n : Nat} {majority again : OplogTimestamp} (h : attaches s n replies = true)
    (hm : replies.majority = .ok majority) (ha : replies.majorityAgain = .ok again) (io : EpochIo) (startTs : OplogTimestamp) :
    (computeAndAttach P display replies io n startTs s.store).2.oplogView =
      (min majority again, fun m => if m = n then some (startTs, min majority again) else s.epochs.rangeOf m) := by
  obtain ⟨hclosed, hc⟩ := Bool.and_eq_true_iff.1 h
  obtain ⟨range, hrange, hstart, hend⟩ := @hashRange_ok P display replies majority again hc hm ha n startTs
  have hview := @oplogView_attach s.store io n range.toOplogRange
  have hclosed' : (s.store.manager.epochs.find n).any (fun e => !e.isOpen) = true := hclosed
  rw [if_pos hclosed', hstart, hend] at hview
  unfold computeAndAttach
  rw [hrange]
  simp only
  split
  · next heq => rw [heq] at hview; exact hview
  · next heq => rw [heq] at hview; exact hview

theorem filterMap_rangeOf_eq_nil (h : ∀ n ∈ ns, (s.epochs.rangeOf n).isSome) :
    ns.filterMap s.epochs.rangeOf = [] ↔ ns = [] := by
  cases ns with
  | nil => simp
  | cons n ns =>
    obtain ⟨r, hr⟩ := Option.isSome_iff_exists.1 (h n List.mem_cons_self)
    simp [hr]

/-- Without the range of epoch `n` the other ranges tile up to a start exactly when a new range from there
continues them. -/
theorem tiles_others (h : TilesOplog s) (n : Nat) (startTs : OplogTimestamp) :
    Tiles .zero ((s.order.filter (· ≠ n)).filterMap s.epochs.rangeOf) startTs ↔ Continues s n startTs := by
  unfold Continues
  cases hr : s.epochs.rangeOf n with
  | none =>
    have hn : n ∉ s.order := fun hmem => by simpa [hr] using (h.listed n).1 hmem
    have hfilter : s.order.filter (· ≠ n) = s.order := by
      refine List.filter_eq_self.2 fun m hm => ?_
      simp only [ne_eq, decide_eq_true_eq]
      rintro rfl
      exact hn hm
    rw [hfilter]
    constructor
    · intro ht
      exact ht.end_eq h.tiles
    · rintro rfl
      exact h.tiles
  | some r =>
    obtain ⟨before, after, horder⟩ := List.append_of_mem ((h.listed n).2 (by simp [hr]))
    have hnodup := h.nodup
    rw [horder, List.nodup_middle, List.nodup_cons, List.mem_append, not_or] at hnodup
    have hfilter : s.order.filter (· ≠ n) = before ++ after := by
      have hkeep : ∀ ns : List Nat, n ∉ ns → ns.filter (· ≠ n) = ns := fun ns hns =>
        List.filter_eq_self.2 fun m hm => by
          simp only [ne_eq, decide_eq_true_eq]
          rintro rfl
          exact hns hm
      rw [horder, List.filter_append, List.filter_cons_of_neg (by simp), hkeep _ hnodup.1.1, hkeep _ hnodup.1.2]
    have htiles := h.tiles
    unfold OplogDaemon.ranges at htiles
    rw [horder, List.filterMap_append, List.filterMap_cons_some hr] at htiles
    have hlast : after.filterMap s.epochs.rangeOf = [] ↔ s.order.getLast? = some n := by
      rw [filterMap_rangeOf_eq_nil fun m hm => (h.listed m).1 (by simp [horder, hm]), horder]
      cases hafter : after.getLast? with
      | none => simp [List.getLast?_eq_none_iff.1 hafter]
      | some m =>
        have hm := List.mem_of_getLast? hafter
        have hne : m ≠ n := fun heq => hnodup.1.2 (heq ▸ hm)
        have hnil : after ≠ [] := List.ne_nil_of_mem hm
        simp [List.getLast?_append, List.getLast?_cons, hafter, hne, hnil]
    rw [hfilter, List.filterMap_append, htiles.remove, hlast]

/-- **One attachment** keeps the ranges laid end to end exactly when it continues them and does not end
before its start. -/
theorem tilesOplog_attached (h : TilesOplog s) (hatt : attaches s n replies = true) (hm : replies.majority = .ok majority) (ha : replies.majorityAgain = .ok again)
    (call : Nat) (io : EpochIo) (startTs : OplogTimestamp) :
    TilesOplog (finishCall P display s call n startTs replies io) ↔
      Continues s n startTs ∧ startTs ≤ majority ∧ startTs ≤ again := by
  obtain ⟨hnext, hranges⟩ := Prod.mk.inj (@oplogView_attached P display s replies n _ _ hatt hm ha io startTs)
  generalize hs' : finishCall P display s call n startTs replies io = s'
  have hnext' : s'.next = min majority again := hs' ▸ hnext
  have hranges' : s'.epochs.rangeOf = fun m => if m = n then some (startTs, min majority again) else s.epochs.rangeOf m :=
    hs' ▸ hranges
  have horder : s'.order = s.order.filter (· ≠ n) ++ [n] := by
    rw [← hs']
    show (if attaches s n replies then _ else _) = _
    rw [if_pos hatt]
  have heq : s'.ranges = (s.order.filter (· ≠ n)).filterMap s.epochs.rangeOf ++ [(startTs, min majority again)] := by
    unfold OplogDaemon.ranges
    rw [horder, List.filterMap_append, hranges']
    congr 1
    · refine List.filterMap_congr fun m hmem => ?_
      have hne : m ≠ n := by simpa using (List.mem_filter.1 hmem).2
      rw [if_neg hne]
    · simp
  have hlisted : ∀ m, m ∈ s'.order ↔ (s'.epochs.rangeOf m).isSome := by
    intro m
    rw [horder, hranges', List.mem_append, List.mem_filter, List.mem_singleton, h.listed m]
    by_cases hmn : m = n
    · simp [hmn]
    · simp [hmn]
  have hnodup : s'.order.Nodup := by
    rw [horder]
    refine List.Nodup.append (h.nodup.filter _) (List.nodup_singleton n) fun m hmem hmn => ?_
    have hne : m ≠ n := by simpa using (List.mem_filter.1 hmem).2
    exact hne (List.mem_singleton.1 hmn)
  have htiles : Tiles .zero s'.ranges s'.next ↔ Continues s n startTs ∧ startTs ≤ majority ∧ startTs ≤ again := by
    rw [heq, hnext', tiles_append, ← tiles_others h, ← le_min_iff]
    constructor
    · rintro ⟨m, h1, rfl, h2, _⟩
      exact ⟨h1, h2⟩
    · rintro ⟨h1, h2⟩
      exact ⟨startTs, h1, rfl, h2, rfl⟩
  rw [← htiles]
  exact ⟨TilesOplog.tiles, fun ht => ⟨hlisted, hnodup, ht⟩⟩

/-- **One step** keeps the ranges laid end to end exactly when it meets its condition. -/
theorem tilesOplog_step (h : TilesOplog s) (a : OplogStep) : TilesOplog (stepOplog P display s a) ↔ Chains s a := by
  have hkeep : ∀ {s' : OplogDaemon}, s'.order = s.order → s'.store.oplogView = s.store.oplogView → TilesOplog s' :=
    fun horder hview => (tilesOplog_congr horder hview).2 h
  cases a with
  | begin n => exact iff_of_true (hkeep rfl rfl) trivial
  | recordEvent index log io => exact iff_of_true (hkeep rfl (oplogView_recordEvent index)) trivial
  | closeCurrentEpoch log io => exact iff_of_true (hkeep rfl oplogView_closeCurrentEpoch) trivial
  | syncOpenEpoch log io => exact iff_of_true (hkeep rfl oplogView_sync) trivial
  | markCommitted n now tx io => exact iff_of_true (hkeep rfl (oplogView_markCommitted n now tx)) trivial
  | finish call replies io =>
    simp only [stepOplog, Chains]
    cases hcall : s.calls[call]? with
    | none => simpa using h
    | some c =>
      obtain ⟨n, startTs⟩ := c
      simp only
      by_cases hatt : attaches s n replies = true
      · obtain ⟨majority, hm⟩ : ∃ majority, replies.majority = .ok majority := by
          cases hr : replies.majority with
          | ok majority => exact ⟨majority, rfl⟩
          | error e => simp [attaches, OplogReplies.complete, hr, Except.isOk, Except.toBool] at hatt
        obtain ⟨again, ha⟩ : ∃ again, replies.majorityAgain = .ok again := by
          cases hr : replies.majorityAgain with
          | ok again => exact ⟨again, rfl⟩
          | error e => simp [attaches, OplogReplies.complete, hr, Except.isOk, Except.toBool] at hatt
        rw [tilesOplog_attached h hatt hm ha]
        constructor
        · rintro hc n' start' majority' again' heq _ hm' ha'
          obtain ⟨rfl, rfl⟩ := Prod.mk.inj (Option.some.inj heq)
          obtain rfl := Except.ok.inj (hm.symm.trans hm')
          obtain rfl := Except.ok.inj (ha.symm.trans ha')
          exact hc
        · intro hc
          exact hc n startTs majority again rfl hatt hm ha
      · have hatt' : attaches s n replies = false := Bool.eq_false_iff.2 hatt
        refine iff_of_true (hkeep ?_ (oplogView_refused hatt' io startTs)) ?_
        · show (if attaches s n replies then _ else _) = _
          rw [if_neg hatt]
        · rintro n' start' majority' again' heq hatt''
          obtain ⟨rfl, rfl⟩ := Prod.mk.inj (Option.some.inj heq)
          exact absurd hatt'' hatt

/-! ## Runs -/

theorem TilesOplog.covers (h : TilesOplog s) : CoversOplog s := by
  refine ⟨h, fun ts hts => ?_⟩
  have hcount := h.tiles.count ts
  rw [if_pos ⟨ts.zero_le, hts⟩, OplogDaemon.ranges, List.countP_filterMap, List.countP_eq_length_filter,
    List.length_eq_one_iff] at hcount
  obtain ⟨n, hn⟩ := hcount
  -- the epochs whose range has the timestamp are those of the list `[n]`
  have hmem : ∀ m, (∃ r, s.epochs.rangeOf m = some r ∧ r.covers ts = true) ↔ m = n := by
    intro m
    rw [← List.mem_singleton, ← hn, List.mem_filter, h.listed m]
    cases s.epochs.rangeOf m <;> simp
  exact ⟨n, (hmem n).2 rfl, fun m hm => (hmem m).1 hm⟩

theorem tilesOplog_start (config : EpochConfig) (path : Option String) (files : String → EpochFile) :
    TilesOplog (OplogDaemon.start config path files) where
  listed := fun n => by
    show n ∈ [] ↔ (EpochList.rangeOf ⟨[], Epoch.new 0 0⟩ n).isSome
    rw [EpochList.rangeOf_new]
    simp
  nodup := List.nodup_nil
  tiles := rfl

/-- **The ranges tile the oplog** in every state of every interleaving, exactly when each call that
attaches starts where it continues the ranges attached before, and at no later point than both answers
of the server. -/
theorem ranges_tile_iff (P : Prims) (display : Oplog.Bson → String) (config : EpochConfig) (path : Option String)
    (files : String → EpochFile) (steps : List OplogStep) :
    (∀ pre, pre <+: steps → CoversOplog (Runs.run (stepOplog P display) (OplogDaemon.start config path files) pre)) ↔
      Runs.Guarded (stepOplog P display) Chains (OplogDaemon.start config path files) steps :=
  (Runs.guarded_iff_good (I := TilesOplog) (Q := CoversOplog) (fun _ => TilesOplog.covers)
    (fun _ a h => (tilesOplog_step h a).2)
    (fun _ a h => Iff.trans ⟨CoversOplog.toTilesOplog, TilesOplog.covers⟩ (tilesOplog_step h a))
    (tilesOplog_start config path files)).symm

/-! ### Two calls beside each other -/

/-- The server answers with this majority commit point and no entries. -/
def answers (majority : OplogTimestamp) : OplogReplies := ⟨.ok majority, .ok majority, .ok []⟩

/-- Two inserts close the epochs 0 and 1, and the calls for both read their start before either of them
attaches. -/
def sideBySide : List OplogStep :=
  [.recordEvent 0 (((World.start none emptyDisk).log.push demoPrims (demoEntry "insert|shop|orders|1")).1) {},
    .recordEvent 1 ((((World.start none emptyDisk).log.push demoPrims (demoEntry "insert|shop|orders|1")).1.push demoPrims
      (demoEntry "insert|shop|orders|2")).1) {},
    .begin 0, .begin 1, .finish 0 (answers ⟨10, 0⟩) {}, .finish 0 (answers ⟨12, 0⟩) {}]

def sideBySideEnd : OplogDaemon :=
  Runs.run (stepOplog demoPrims fun _ => "") (OplogDaemon.start ⟨1, 0⟩ none fun _ => .missing) sideBySide

/-- Both epochs get a range that starts at zero. -/
theorem sideBySide_overlap : sideBySideEnd.epochs.rangeOf 0 = some (.zero, ⟨10, 0⟩) ∧
    sideBySideEnd.epochs.rangeOf 1 = some (.zero, ⟨12, 0⟩) ∧ ¬ CoversOplog sideBySideEnd := by
  have hfirst : sideBySideEnd.epochs.rangeOf 0 = some (.zero, ⟨10, 0⟩) := rfl
  have hsecond : sideBySideEnd.epochs.rangeOf 1 = some (.zero, ⟨12, 0⟩) := rfl
  have hnext : sideBySideEnd.next = ⟨12, 0⟩ := rfl
  refine ⟨hfirst, hsecond, fun h => ?_⟩
  obtain ⟨n, _, hunique⟩ := h.once .zero (by rw [hnext]; decide)
  have h0 := hunique 0 ⟨_, hfirst, by decide⟩
  have h1 := hunique 1 ⟨_, hsecond, by decide⟩
  omega

end

end Audit
