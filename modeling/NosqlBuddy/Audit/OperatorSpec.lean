import NosqlBuddy.Audit.Operator

/-!
# What each call of the daemon does

One lemma per function of the operator's daemon: what `process_event` adds to the log, what the calls of the
epoch manager keep of the epochs, and what `publish_and_commit` attaches and commits.
-/

namespace Audit
open Contract
open ReaderMode (OnChainRoot)
open Mutation

/-! ## Events of a write -/

section
variable (P : Prims) (J : Serde) (key : Option Bytes32)

/-- The call of the interceptor for a write of the document with this text. -/
def writeCall (c : Capture) (op : OperationType) (db coll json updateJson : String) : Option RecordCall :=
  match op with
  | .insert => some (recordInsert P c db coll json)
  | .update => some (recordUpdate P J c db coll json updateJson)
  | .delete => some (recordDelete P c db coll json)
  | _ => none

/-- The entry records a write of the document. -/
def MadeFor (op : OperationType) (db coll : String) (doc : Oplog.Document) (y : Entry) : Prop :=
  ∃ c json updateJson call, J.document doc = some json ∧ writeCall P J c op db coll json updateJson = some call ∧
    call.entry P key = some y

end

/-! ## Epochs -/

/-- A property of epochs that counting, closing at a recorded root and starting an epoch keep. -/
structure EpochLaws (log : AuditLog) (Q : Epoch → Prop) : Prop where
  count : ∀ e n, Q e → Q (e.setCount n)
  freeze : ∀ e i root, log.rootAfterAt i = some root → Q e → Q (e.freeze i root)
  new : ∀ n i, Q (Epoch.new n i)

def EpochList.All (Q : Epoch → Prop) (es : EpochList) : Prop := ∀ e ∈ es.toList, Q e

namespace EpochList.All
variable {Q : Epoch → Prop} {es : EpochList} {log : AuditLog}

theorem setCount (hQ : EpochLaws log Q) (h : es.All Q) (n : Nat) : (es.setCount n).All Q := by
  intro e he
  rcases List.mem_append.1 he with he | he
  · exact h e (List.mem_append_left _ he)
  · obtain rfl := List.mem_singleton.1 he
    exact hQ.count _ n (h es.last (by simp [EpochList.toList]))

theorem closedAt (hQ : EpochLaws log Q) (h : es.All Q) (i : Nat) : (es.closedAt i (log.rootAfterAt i)).All Q := by
  cases hroot : log.rootAfterAt i with
  | none => exact h
  | some root =>
    intro e he
    simp only [EpochList.closedAt, EpochList.push, EpochList.toList, List.mem_append, List.mem_singleton] at he
    rcases he with (he | rfl) | rfl
    · exact h e (List.mem_append_left _ he)
    · exact hQ.freeze _ i root hroot (h es.last (by simp [EpochList.toList]))
    · exact hQ.new _ _

theorem update (hf : ∀ e, Q e → Q (f e)) (h : es.All Q) (n : Nat) : (es.update n f).All Q := by
  have hfirst : ∀ l : List Epoch, (∀ e ∈ l, Q e) → ∀ e ∈ EpochList.updateFirst n f l, Q e := by
    intro l
    induction l with
    | nil => exact fun h => h
    | cons a l ih =>
      intro hl e he
      rw [EpochList.updateFirst] at he
      split at he
      · rcases List.mem_cons.1 he with rfl | he
        · exact hf a (hl a List.mem_cons_self)
        · exact hl e (List.mem_cons_of_mem a he)
      · rcases List.mem_cons.1 he with rfl | he
        · exact hl e List.mem_cons_self
        · exact ih (fun e he => hl e (List.mem_cons_of_mem a he)) e he
  intro e he
  unfold EpochList.All EpochList.toList at h
  unfold EpochList.update at he
  split at he
  · rcases List.mem_append.1 he with he | he
    · exact hfirst es.earlier (fun e he => h e (List.mem_append_left _ he)) e he
    · exact h e (List.mem_append_right _ he)
  · split at he
    · rcases List.mem_append.1 he with he | he
      · exact h e (List.mem_append_left _ he)
      · obtain rfl := List.mem_singleton.1 he
        exact hf es.last (h es.last (by simp))
    · exact h e he

end EpochList.All

section
variable {Q : Epoch → Prop} {s : EpochStore} {log : AuditLog}

theorem all_recordEvent (hQ : EpochLaws log Q) (h : s.manager.epochs.All Q) (i : Nat) (io : EpochIo) :
    (exec (recordEvent io i log) s).2.manager.epochs.All Q := by
  by_cases hopen : s.manager.epochs.last.isOpen = true
  · rw [epochs_recordEvent hopen]
    split
    · exact (h.setCount hQ _).closedAt hQ i
    · exact h.setCount hQ _
  · unfold recordEvent
    rw [exec_bind_ok (exec_get s)]
    simp only [hopen, Bool.false_eq_true, not_false_eq_true, if_true]
    rw [exec_bind_error (exec_throw _ _)]
    exact h

theorem all_closeCurrentEpoch (hQ : EpochLaws log Q) (h : s.manager.epochs.All Q) (io : EpochIo) :
    (exec (closeCurrentEpoch io log) s).2.manager.epochs.All Q := by
  by_cases hopen : s.manager.epochs.last.isOpen = true
  · rw [epochs_closeCurrentEpoch hopen]
    split
    · exact h
    · exact h.closedAt hQ _
  · unfold closeCurrentEpoch
    rw [exec_bind_ok (exec_get s)]
    simp only [hopen, Bool.false_eq_true, not_false_eq_true, if_true]
    rw [exec_bind_error (exec_throw _ _)]
    exact h

theorem all_sync (hQ : EpochLaws log Q) (h : s.manager.epochs.All Q) (io : EpochIo) :
    (exec (syncOpenEpochWithAuditLog io log) s).2.manager.epochs.All Q := by
  by_cases hopen : s.manager.epochs.last.isOpen = true
  · rw [epochs_sync hopen]
    split
    · exact (h.setCount hQ _).closedAt hQ _
    · exact h.setCount hQ _
  · unfold syncOpenEpochWithAuditLog
    rw [exec_bind_ok (exec_get s)]
    simp only [hopen, Bool.false_eq_true, not_false_eq_true, if_true, exec_pure]
    exact h

theorem all_markCommitted (hf : ∀ e now tx, Q e → Q (Epoch.commit now tx e)) (h : s.manager.epochs.All Q) (n : Nat)
    (now tx : String) (io : EpochIo) : (exec (markCommitted io n now tx) s).2.manager.epochs.All Q := by
  unfold markCommitted
  rw [exec_bind_ok (exec_get s)]
  cases s.manager.epochs.find n with
  | none => exact h
  | some e =>
    simp only
    rw [exec_bind_ok (exec_modify _ _), (keeps_save io).apply]
    exact h.update (fun e => hf e now tx) n

theorem all_attach (hf : ∀ e, Q e → Q (e.attach r)) (h : s.manager.epochs.All Q) (n : Nat) (io : EpochIo) :
    (exec (attachOplogHash io n r) s).2.manager.epochs.All Q := by
  unfold attachOplogHash
  rw [exec_bind_ok (exec_get s)]
  cases s.manager.epochs.find n with
  | none => exact h
  | some e =>
    simp only
    split
    · exact h
    · rw [exec_bind_ok (exec_modify _ _), exec_bind_pure_snd, (keeps_save io).apply]
      exact h.update hf n

end

/-! ## Recording a write -/

section
variable {P : Prims} {J : Serde} {key : Option Bytes32} {dir deploymentId : String}

theorem writeCall_intercept (h : writeCall P J c op db coll json updateJson = some call) :
    ∃ operation canonical payload, call = intercept P c operation db coll canonical payload := by
  unfold writeCall at h
  split at h
  · obtain rfl := Option.some.inj h
    exact ⟨_, _, _, rfl⟩
  · obtain rfl := Option.some.inj h
    exact ⟨_, _, _, rfl⟩
  · obtain rfl := Option.some.inj h
    exact ⟨_, _, _, rfl⟩
  · cases h

theorem MadeFor.namespace {op : OperationType} {db coll : String} {doc : Oplog.Document} {y : Entry}
    (h : MadeFor P J key op db coll doc y) : y.database = db ∧ y.collection = coll := by
  obtain ⟨c, json, updateJson, call, _, hcall, hy⟩ := h
  obtain ⟨operation, canonical, payload, rfl⟩ := writeCall_intercept hcall
  unfold intercept at hy
  split at hy
  · obtain ⟨k, _, rfl⟩ := Option.map_eq_some_iff.1 hy
    exact ⟨rfl, rfl⟩
  · obtain rfl := Option.some.inj hy
    exact ⟨rfl, rfl⟩

theorem writeCall_entry {c : Capture} (hc : c.hasLeafKey = key.isSome) {op : OperationType} {db coll json updateJson : String}
    {call : RecordCall} (h : writeCall P J c op db coll json updateJson = some call) : ∃ y, call.entry P key = some y := by
  obtain ⟨operation, canonical, payload, rfl⟩ := writeCall_intercept h
  unfold intercept
  rw [hc]
  cases key with
  | none => exact ⟨_, rfl⟩
  | some k => exact ⟨_, rfl⟩

theorem eventCall_crud {stream : Oplog.Document → ChangeEvent} (hs : StreamSpec stream) {e : Oplog.Document} {op : OperationType}
    {db coll : String} {doc : Oplog.Document} (he : Crud e op db coll doc) {json : String} (hjson : J.document doc = some json)
    (c : Capture) : ∃ call updateJson, eventCall P J c (stream e) = some call ∧
      writeCall P J c op db coll json updateJson = some call := by
  have hns := hs.ns he
  rcases he.2.2 with ⟨rfl, _⟩ | ⟨rfl, _⟩ | ⟨rfl, _⟩
  · obtain ⟨hop, hdoc⟩ := hs.insert he
    refine ⟨recordInsert P c db coll json, "", ?_, rfl⟩
    simp [eventCall, hns, hop, hdoc, hjson]
  · obtain ⟨hop, hdoc⟩ := hs.update he
    refine ⟨recordUpdate P J c db coll json ((stream e).updateJson J), (stream e).updateJson J, ?_, rfl⟩
    rcases hop with hop | hop
    · simp [eventCall, hns, hop, ChangeEvent.filterJson, hdoc, hjson]
    · simp [eventCall, hns, hop, ChangeEvent.filterJson, hdoc, hjson]
  · obtain ⟨hop, hdoc⟩ := hs.delete he
    refine ⟨recordDelete P c db coll json, "", ?_, rfl⟩
    simp [eventCall, hns, hop, ChangeEvent.filterJson, hdoc, hjson]

/-- The entries of the log after an event are those before it and perhaps one more: the one of the write, if
the event is of a write. -/
theorem processEvent_entries {w : World} {es : List Entry} (hm : InMemory P key dir w.log es) (io : Io) (now : Instant)
    (ev : ChangeEvent) : ∃ more, InMemory P key dir (processEvent P J deploymentId io now ev w).log (es ++ more) ∧
      ∀ call y, eventCall P J ⟨deploymentId, key.isSome, now⟩ ev = some call → call.entry P key = some y → y ∈ more := by
  unfold processEvent
  rw [hm.leafKey]
  cases hcall : eventCall P J ⟨deploymentId, key.isSome, now⟩ ev with
  | none => exact ⟨[], by simpa using hm, fun _ _ h => by cases h⟩
  | some call =>
    simp only
    rw [exec_run, hm.leafKey]
    cases hy : call.entry P key with
    | none =>
      refine ⟨[], by simpa using hm, fun call' y h hy' => ?_⟩
      obtain rfl := Option.some.inj h
      rw [hy] at hy'
      cases hy'
    | some y =>
      refine ⟨[y], ?_, fun call' y' h hy' => ?_⟩
      · simp only
        rw [log_recordInner]
        exact hm.push_fst y
      · obtain rfl := Option.some.inj h
        rw [hy] at hy'
        exact List.mem_singleton.2 (Option.some.inj hy').symm

theorem length_linesOf (es : List Entry) : (linesOf P es).length = es.length := by
  induction es using List.reverseRecOn with
  | nil => rfl
  | append_singleton es e ih => rw [linesOf_concat, List.length_append, ih, List.length_append]; rfl

theorem linesOf_getElem? {es : List Entry} {j : Nat} {y : Entry} (h : es[j]? = some y) :
    ∃ sequence rootAfter, (linesOf P es)[j]? = some (y.persisted j sequence rootAfter) := by
  induction es using List.reverseRecOn with
  | nil => simp at h
  | append_singleton es e ih =>
    rw [linesOf_concat]
    rcases Nat.lt_trichotomy j es.length with hj | hj | hj
    · rw [List.getElem?_append_left hj] at h
      rw [List.getElem?_append_left (by rw [length_linesOf]; exact hj)]
      exact ih h
    · rw [List.getElem?_append_right hj.ge, hj, Nat.sub_self] at h
      obtain rfl : e = y := by simpa using h
      refine ⟨(nextSequence (seqsAfter es ∅) e.domain).1, rootHex P (es.map (·.leaf) ++ [e.leaf]), ?_⟩
      rw [List.getElem?_append_right (by rw [length_linesOf, hj]), length_linesOf, hj, Nat.sub_self]
      rfl
    · rw [List.getElem?_eq_none (by rw [List.length_append]; exact hj)] at h
      cases h

theorem InMemory.event {log : AuditLog} {es : List Entry} (hm : InMemory P key dir log es) {j : Nat} {y : Entry}
    (h : es[j]? = some y) : ∃ x ∈ log.events, x.index = j ∧ x.database = y.database ∧ x.collection = y.collection ∧
      x.leafHex = frToHex y.leaf := by
  obtain ⟨sequence, rootAfter, hline⟩ := @linesOf_getElem? P es j y h
  refine ⟨(y.persisted j sequence rootAfter).toAuditEvent sequence, ?_, rfl, rfl, rfl, rfl⟩
  rw [hm.events, List.mem_map]
  exact ⟨_, List.mem_of_getElem? hline, rfl⟩

theorem InMemory.rootAfterAt (hm : InMemory P key dir log es) (h : log.rootAfterAt i = some root) : i < es.length ∧ root = rootHex P ((es.map (·.leaf)).take (i + 1)) := by
  unfold AuditLog.rootAfterAt at h
  rw [hm.roots, rootHexes, List.getElem?_map] at h
  obtain ⟨j, hj, rfl⟩ := Option.map_eq_some_iff.1 h
  obtain ⟨hlt, rfl⟩ := List.getElem?_eq_some_iff.1 hj
  simp only [List.length_range, List.length_map] at hlt
  simp [hlt]

end

/-! ## Committing -/

/-- What a call of the contract by `publish_and_commit` leaves. -/
inductive Commits (epoch : Epoch) (rootHex : String) (chain : Storage) : Storage → Prop
  | refused : Commits epoch rootHex chain chain
  | root {inv : Invocation} {e : RootEntry} {ev : Event} :
      Bytes.hexDecode rootHex.toList = some e.root → NextEntry chain inv e →
      Commits epoch rootHex chain ((chain.pushRoot e).publish ev)
  | both {inv : Invocation} {e : RootEntry} {c : OplogCommitment} {ev ev' : Event} :
      Bytes.hexDecode rootHex.toList = some e.root → NextEntry chain inv e →
      c.oplogEndTs = (epoch.oplogEndTs.map OplogTimestamp.packU64).getD 0 →
      Commits epoch rootHex chain ((((chain.pushRoot e).setOplog e.sequence c).publish ev).publish ev')

section
variable {h : Host}

theorem submitInvoke_chain (call : UInt64 → Invocation) (submission : Submission) (chain : Storage) :
    (submitInvoke h call submission chain).2 = chain ∨
      ∃ timestamp, invoke h (call timestamp) chain = .ok (submitInvoke h call submission chain).2 := by
  cases submission with
  | failed e => exact .inl rfl
  | answered timestamp refusal =>
    simp only [submitInvoke]
    cases hinv : invoke h (call timestamp) chain with
    | ok chain' => exact .inr ⟨timestamp, hinv⟩
    | error f => exact .inl rfl
  | unconfirmed timestamp e =>
    simp only [submitInvoke, step]
    cases hinv : invoke h (call timestamp) chain with
    | ok chain' => exact .inr ⟨timestamp, hinv⟩
    | error f => exact .inl rfl

section
variable {epoch : Epoch} {rootHex metadata : String} {ctx : Ctx} {root : List UInt8} {chain chain' : Storage}

theorem commits_root (hroot : Bytes.hexDecode rootHex.toList = some root)
    (hinv : invoke h ⟨ctx, .commitRoot root metadata⟩ chain = .ok chain') : Commits epoch rootHex chain chain' := by
  simp only [invoke, commitRoot, Fallible.map_ok, Fallible.bind_ok, Fallible.pure_ok, Prod.exists] at hinv
  obtain ⟨_, _, ⟨_, _, _, _, s, e, happend, heq⟩, rfl⟩ := hinv
  obtain ⟨rfl, _⟩ := Prod.mk.inj heq
  obtain ⟨hnext, hr, _, rfl⟩ := (@Contract.appendRoot_ok ⟨ctx, .commitRoot root metadata⟩ _ _ _ _ _).1 happend
  exact .root (by rw [hr]; exact hroot) hnext

theorem commits_both (hroot : Bytes.hexDecode rootHex.toList = some root)
    (hc : c.oplogEndTs = (epoch.oplogEndTs.map OplogTimestamp.packU64).getD 0)
    (hinv : invoke h ⟨ctx, .commitRootWithOplog root c metadata⟩ chain = .ok chain') :
    Commits epoch rootHex chain chain' := by
  simp only [invoke, commitRootWithOplog, Fallible.map_ok, Fallible.bind_ok, Fallible.guard_ok, Fallible.pure_ok,
    Prod.exists] at hinv
  obtain ⟨_, _, ⟨_, _, s, e, happend, heq⟩, rfl⟩ := hinv
  obtain ⟨rfl, _⟩ := Prod.mk.inj heq
  obtain ⟨hnext, hr, _, rfl⟩ := (@Contract.appendRoot_ok ⟨ctx, .commitRootWithOplog root c metadata⟩ _ _ _ _ _).1 happend
  exact .both (by rw [hr]; exact hroot) hnext hc

end

/-- **The commit of an epoch**, whatever the network does with it. -/
theorem commits_commitEpoch (epoch : Epoch) (rootHex metadata : String) (kp : Address) (submission : Submission)
    (chain : Storage) : Commits epoch rootHex chain (commitEpoch h epoch rootHex metadata kp submission chain).2 := by
  unfold commitEpoch
  cases hoplog : epoch.oplogMerkleRootHex with
  | none =>
    have hcommits : Commits epoch rootHex chain (commitRootNative h rootHex metadata kp submission chain).2 := by
      unfold commitRootNative
      cases hroot : Bytes.hexDecode rootHex.toList with
      | none => exact .refused
      | some root =>
        rcases @submitInvoke_chain h (fun timestamp => ⟨⟨[kp], timestamp⟩, .commitRoot root metadata⟩) submission chain with
          hsame | ⟨timestamp, hinv⟩
        · simp only [hsame]
          exact .refused
        · exact commits_root hroot hinv
    simp only
    split
    · next heq => rw [heq] at hcommits; exact hcommits
    · next heq => rw [heq] at hcommits; exact hcommits
  | some oplogRootHex =>
    have hcommits : Commits epoch rootHex chain (commitRootWithOplogNative h rootHex oplogRootHex
        ((epoch.oplogStartTs.map OplogTimestamp.packU64).getD 0) ((epoch.oplogEndTs.map OplogTimestamp.packU64).getD 0)
        (UInt64.ofNat (epoch.oplogEntryCount.getD 0)) metadata kp submission chain).2 := by
      unfold commitRootWithOplogNative
      cases hroot : Bytes.hexDecode rootHex.toList with
      | none => exact .refused
      | some root =>
        cases Bytes.hexDecode oplogRootHex.toList with
        | none => exact .refused
        | some oplogRoot =>
          rcases @submitInvoke_chain h (fun timestamp => ⟨⟨[kp], timestamp⟩, .commitRootWithOplog root ⟨oplogRoot,
            (epoch.oplogStartTs.map OplogTimestamp.packU64).getD 0, (epoch.oplogEndTs.map OplogTimestamp.packU64).getD 0,
            UInt64.ofNat (epoch.oplogEntryCount.getD 0)⟩ metadata⟩) submission chain with hsame | ⟨timestamp, hinv⟩
          · simp only [hsame]
            exact .refused
          · exact commits_both hroot rfl hinv
    simp only
    split
    · next heq => rw [heq] at hcommits; exact hcommits
    · next heq => rw [heq] at hcommits; exact hcommits

end

/-! ## Publishing -/

section
variable {P : Prims} {display : Oplog.Bson → String}

theorem EpochList.find_number {es : EpochList} {n : Nat} {epoch : Epoch} (h : es.find n = some epoch) :
    epoch.epochNumber = n := by
  unfold EpochList.find at h
  simpa using List.find?_some h

theorem find_attachOplogHash {io : EpochIo} {n : Nat} {r : OplogRange} {epoch : Epoch} {store : EpochStore}
    (hfind : store.manager.epochs.find n = some epoch) : (exec (attachOplogHash io n r) store).2.manager.epochs.find n =
      some (if epoch.isOpen then epoch else epoch.attach r) := by
  unfold attachOplogHash
  rw [exec_bind_ok (exec_get store), hfind]
  by_cases hopen : epoch.isOpen = true
  · simp only [hopen, if_true]
    rw [exec_bind_error (exec_throw _ _)]
    exact hfind
  · simp only [hopen, Bool.false_eq_true, if_false]
    rw [exec_bind_ok (exec_modify _ _), exec_bind_pure_snd, (keeps_save io).apply]
    show (store.manager.epochs.update n (Epoch.attach r)).find n = _
    rw [EpochList.find_update _ n n (Epoch.attach r) fun _ => rfl, if_pos rfl, hfind]
    rfl

theorem find_computeAndAttach {replies : OplogReplies} {io : EpochIo} {n : Nat} {startTs : OplogTimestamp} {range : EpochOplogRange}
    {epoch : Epoch} {store : EpochStore} (hrange : hashRange P display replies n startTs = .ok range)
    (hfind : store.manager.epochs.find n = some epoch) :
    (computeAndAttach P display replies io n startTs store).2.manager.epochs.find n =
      some (if epoch.isOpen then epoch else epoch.attach range.toOplogRange) := by
  have hattach := @find_attachOplogHash io n range.toOplogRange epoch store hfind
  simp only [computeAndAttach, hrange]
  split
  · next heq => rw [heq] at hattach; exact hattach
  · next heq => rw [heq] at hattach; exact hattach

theorem find_attachStep {replies : PublishReplies} {n : Nat} {epoch : Epoch} {store : EpochStore}
    (hfind : store.manager.epochs.find n = some epoch) :
    ∃ epoch', (attachStep P display replies n store).manager.epochs.find n = some epoch' ∧
      epoch'.endIndex = epoch.endIndex ∧ epoch'.rootHex = epoch.rootHex := by
  unfold attachStep
  cases replies.mongoClient with
  | none => exact ⟨epoch, hfind, rfl, rfl⟩
  | some r =>
    cases hrange : hashRange P display (r.hashReplies store.manager.oplogStart) n store.manager.oplogStart with
    | error e =>
      simp only [computeAndAttach, hrange]
      exact ⟨epoch, hfind, rfl, rfl⟩
    | ok range =>
      refine ⟨_, find_computeAndAttach hrange hfind, ?_⟩
      split
      · exact ⟨rfl, rfl⟩
      · exact ⟨rfl, rfl⟩

theorem commitEpoch_ok {h : Host} {epoch : Epoch} {rootHex oplogRootHex metadata : String} {kp : Address}
    {timestamp : UInt64} {refusal : AuditError} {chain chain' : Storage} {root oplogRoot : List UInt8}
    (hroot : Bytes.hexDecode rootHex.toList = some root) (hoplog : epoch.oplogMerkleRootHex = some oplogRootHex)
    (hoplogRoot : Bytes.hexDecode oplogRootHex.toList = some oplogRoot) {c : OplogCommitment}
    (hc : ⟨oplogRoot, (epoch.oplogStartTs.map OplogTimestamp.packU64).getD 0, (epoch.oplogEndTs.map OplogTimestamp.packU64).getD 0,
      UInt64.ofNat (epoch.oplogEntryCount.getD 0)⟩ = c)
    (hok : invoke h ⟨⟨[kp], timestamp⟩, .commitRootWithOplog root c metadata⟩ chain = .ok chain') :
    (commitEpoch h epoch rootHex metadata kp (.answered timestamp refusal) chain).2 = chain' := by
  simp only [commitEpoch, hoplog, commitRootWithOplogNative, hroot, hoplogRoot, hc, submitInvoke, hok]

/-- A publication that goes through: the range of the epoch is attached, and both roots are committed. -/
theorem publishAndCommit_chain {h : Host} {kp : Address} {s : Operator} {n i : Nat} {epoch : Epoch}
    {replies : PublishReplies} {r : Replica} {range : EpochOplogRange}
    (hfind : s.epochs.find n = some epoch) (hend : epoch.endIndex = some i) (hclient : replies.mongoClient = some r)
    (hread : replies.readEvents = none)
    (hrange : hashRange P display (r.hashReplies s.service.store.manager.oplogStart) n s.service.store.manager.oplogStart = .ok range) :
    (publishAndCommit P display h (some kp) replies epoch s).2.chain =
      (commitEpoch h (epoch.attach range.toOplogRange) (epoch.rootHex.getD (rootHex P s.log.tree.leaves))
        (epochMetadata n replies.cid) kp replies.submission s.chain).2 ∧
    (publishAndCommit P display h (some kp) replies epoch s).2.history = s.history ∧
    (publishAndCommit P display h (some kp) replies epoch s).2.log = s.log := by
  have hn : epoch.epochNumber = n := EpochList.find_number hfind
  have hstore : (attachStep P display replies n s.service.store).manager.epochs.find n = some (epoch.attach range.toOplogRange) := by
    have hopen : epoch.isOpen = false := by simp [Epoch.isOpen, hend]
    have hattach := @find_computeAndAttach P display _ replies.attachIo n _ range epoch s.service.store hrange hfind
    rw [hopen] at hattach
    simp only [attachStep, hclient]
    exact hattach
  unfold publishAndCommit
  simp only [hend, hn, hstore, hread, Option.getD_some]
  have hsame : commitEpoch h (epoch.attach range.toOplogRange) ((epoch.attach range.toOplogRange).rootHex.getD
      (rootHex P (Operator.log { s with service := ⟨s.service.world, attachStep P display replies n s.service.store⟩ }).tree.leaves))
      (epochMetadata (epoch.attach range.toOplogRange).epochNumber replies.cid) kp replies.submission s.chain =
      commitEpoch h (epoch.attach range.toOplogRange) (epoch.rootHex.getD (rootHex P s.log.tree.leaves))
        (epochMetadata n replies.cid) kp replies.submission s.chain := by
    rw [← hn]
    rfl
  rw [hsame]
  generalize commitEpoch h (epoch.attach range.toOplogRange) (epoch.rootHex.getD (rootHex P s.log.tree.leaves))
    (epochMetadata n replies.cid) kp replies.submission s.chain = committed
  obtain ⟨e | u, chain⟩ := committed
  · exact ⟨rfl, rfl, rfl⟩
  · simp only
    split
    · exact ⟨rfl, rfl, rfl⟩
    · exact ⟨rfl, rfl, rfl⟩

end

end Audit
