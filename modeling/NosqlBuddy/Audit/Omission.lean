import NosqlBuddy.Audit.OperatorSpec

/-!
# What a complete verdict says about the audit log

"If they match, the audit log is complete" (README.md:994), "it proves that no writes were omitted from the
audit log" (auditd/mod.rs:628): but `publish_and_commit` hashes the oplog of the server and puts the root of
the log beside it, and no reader compares the two. `complete_means_recorded` says when the verdict means what
it is documented to mean: no write is dropped, and a range is hashed only when the listener has got to the
majority point and the epoch ends with the log. `dropped_write_complete` is a dropped write under a verdict
"complete".
-/

namespace Audit
open Contract Oplog
open ReaderMode (OnChainRoot)
open Mutation

section
variable (P : Prims) (J : Serde) (display : Bson → String) (key : Option Bytes32)

/-! ## Events of a write -/

/-- The event has the namespace and the document of a write. -/
def RecordedFor (op : OperationType) (db coll : String) (doc : Document) (x : AuditEvent) : Prop :=
  x.database = db ∧ x.collection = coll ∧ ∃ y, MadeFor P J key op db coll doc y ∧ x.leafHex = frToHex y.leaf

/-- The leaf `i` is among those whose root is committed under `q`. -/
def CommittedUnder (s : Operator) (q i : Nat) : Prop :=
  ∃ entry k, s.chain.rootEntry q = some entry ∧ i < k ∧ k ≤ s.log.leafCount ∧
    Bytes.hexDecode (rootHex P (s.log.tree.leaves.take k)).toList = some entry.root

/-- A verdict "complete" about the latest sequence: every write of a document in the range has its event
among those whose root is committed. -/
def CompleteMeansRecorded (s : Operator) : Prop :=
  ∀ (r : Replica) (root : OnChainRoot) report c, root.sequence = s.chain.seqOr0 →
    s.chain.oplogCommitment root.sequence = some c →
    verifyOplog P display (.ok (some root)) (.ok (some c)) (some r) = .ok report → report.verdict = .complete →
    ∀ e ∈ c.writes s.history, ∀ op db coll doc, Crud e op db coll doc → ∃ q x, 1 ≤ q ∧ q ≤ root.sequence ∧
      x ∈ s.log.events ∧ RecordedFor P J key op db coll doc x ∧ CommittedUnder P s q x.index

/-- No write of a document is dropped, and its text can be made. A range is hashed only when every write below
the majority point has been delivered and the epoch ends with the log; the member that is asked does not
answer a point the majority has not reached. -/
def LeavesNoneOut (s : Operator) : OperatorStep → Prop
  | .record _ _ => ∀ e op db coll doc, s.pending = some e → Crud e op db coll doc → (J.document doc).isSome
  | .skip => ∀ e op db coll doc, s.pending = some e → ¬ Crud e op db coll doc
  | .publish n replies =>
      (∀ r majorityTs, replies.mongoClient = some r → r.majority = .ok majorityTs → majorityTs ≤ s.majority) ∧
      (∀ i e ts, s.history[i]? = some e → entryTs e = some ts → ts < s.majority → i < s.position) ∧
      ∀ epoch i, s.epochs.find n = some epoch → epoch.endIndex = some i → i + 1 = s.log.leafCount
  | _ => True

end

/-! ## The invariant -/

/-- A closed epoch holds the root after its last leaf, and its range ends at or below the majority point. -/
structure EpochOk (P : Prims) (es : List Entry) (majorityTs : OplogTimestamp) (e : Epoch) : Prop where
  root : ∀ i, e.endIndex = some i → i < es.length ∧ e.rootHex = some (rootHex P ((es.map (·.leaf)).take (i + 1)))
  ends : ∀ ts, e.oplogEndTs = some ts → ts ≤ majorityTs

/-- The writes below the end of the commitment under `q` are among the first `k` entries, whose root is
committed under `q`. -/
structure CommitmentOk (P : Prims) (J : Serde) (key : Option Bytes32) (s : Operator) (es : List Entry) (q : Nat)
    (c : OplogCommitment) (entry : RootEntry) (k : Nat) : Prop where
  ends : c.endTs ≤ s.majority
  found : s.chain.rootEntry q = some entry
  bound : k ≤ es.length
  root : Bytes.hexDecode (rootHex P ((es.map (·.leaf)).take k)).toList = some entry.root
  writes : ∀ e ∈ s.history, ∀ ts, entryTs e = some ts → ts < c.endTs → ∀ op db coll doc, Crud e op db coll doc →
    ∃ y ∈ es.take k, MadeFor P J key op db coll doc y

/-- The entries `es` of the log are those of the delivered writes, and the commitments are to them. -/
structure Tracks (P : Prims) (J : Serde) (key : Option Bytes32) (dir : String) (s : Operator) (es : List Entry) : Prop where
  memory : InMemory P key dir s.log es
  epochs : s.epochs.All (EpochOk P es s.majority)
  position : s.position ≤ s.history.length
  captured : ∀ i e, i < s.position → s.history[i]? = some e → ∀ op db coll doc, Crud e op db coll doc →
    ∃ y ∈ es, MadeFor P J key op db coll doc y
  given : ∀ q, (s.chain.oplogCommitment q).isSome → 1 ≤ q ∧ q ≤ s.chain.seqOr0
  committed : ∀ q c, s.chain.oplogCommitment q = some c → ∃ entry k, CommitmentOk P J key s es q c entry k

section
variable {P : Prims} {J : Serde} {display : Bson → String} {key : Option Bytes32} {dir deploymentId : String} {s : Operator}
  {es : List Entry}

theorem EpochOk.mono {majorityTs majorityTs' : OplogTimestamp} {e : Epoch} (h : EpochOk P es majorityTs e) (more : List Entry)
    (hle : majorityTs ≤ majorityTs') : EpochOk P (es ++ more) majorityTs' e where
  root := fun i hi => by
    obtain ⟨hlt, hroot⟩ := h.root i hi
    refine ⟨by rw [List.length_append]; omega, ?_⟩
    rw [hroot, List.map_append, List.take_append_of_le_length (by rw [List.length_map]; omega)]
  ends := fun ts hts => le_trans (h.ends ts hts) hle

theorem epochLaws_ok (hm : InMemory P key dir log es) (majorityTs : OplogTimestamp) :
    EpochLaws log (EpochOk P es majorityTs) where
  count := fun _ _ h => ⟨h.root, h.ends⟩
  freeze := fun e i root hroot h => by
    refine ⟨fun j hj => ?_, h.ends⟩
    obtain rfl : i = j := Option.some.inj hj
    obtain ⟨hlt, rfl⟩ := hm.rootAfterAt hroot
    exact ⟨hlt, rfl⟩
  new := fun _ _ => ⟨fun _ hi => (by cases hi), fun _ hts => (by cases hts)⟩

theorem CommitmentOk.mono {s' : Operator} {q : Nat} {c : OplogCommitment} {entry : RootEntry} {k : Nat}
    (h : CommitmentOk P J key s es q c entry k) (more : List Entry) (hle : s.majority ≤ s'.majority)
    (hentry : s'.chain.rootEntry q = s.chain.rootEntry q)
    (hnew : ∀ e ∈ s'.history, e ∈ s.history ∨ ∀ ts, entryTs e = some ts → s.majority ≤ ts) :
    CommitmentOk P J key s' (es ++ more) q c entry k where
  ends := le_trans h.ends hle
  found := hentry.trans h.found
  bound := by
    have hbound := h.bound
    rw [List.length_append]
    omega
  root := by
    rw [List.map_append, List.take_append_of_le_length (by rw [List.length_map]; exact h.bound)]
    exact h.root
  writes := fun e he ts hts hlt => by
    rw [List.take_append_of_le_length h.bound]
    rcases hnew e he with he | hlate
    · exact h.writes e he ts hts hlt
    · exact absurd (lt_of_lt_of_le hlt h.ends) (not_lt.2 (hlate ts hts))

/-! ## Steps -/

theorem Tracks.write (h : Tracks P J key dir s es) (hacc : s.accepts entry = true) :
    Tracks P J key dir { s with history := s.history ++ [entry] } es := by
  obtain ⟨ts, hts, hle⟩ := Option.any_eq_true _ _ |>.1 hacc
  have hmaj : s.majority ≤ ts := (of_decide_eq_true hle).1
  refine ⟨h.memory, h.epochs, ?_, fun i e hi he => ?_, h.given, fun q c hc => ?_⟩
  · have hpos := h.position
    simp only [List.length_append]
    omega
  · have hpos := h.position
    have hlt : i < s.position := hi
    rw [List.getElem?_append_left (by omega)] at he
    exact h.captured i e hi he
  · obtain ⟨root, k, hk⟩ := h.committed q c hc
    have hmono := @CommitmentOk.mono P J key s es { s with history := s.history ++ [entry] } q c root k hk [] (le_refl _) rfl
    rw [List.append_nil] at hmono
    refine ⟨root, k, hmono fun e he => ?_⟩
    rcases List.mem_append.1 he with he | he
    · exact .inl he
    · obtain rfl := List.mem_singleton.1 he
      refine .inr fun t ht => ?_
      obtain rfl : ts = t := Option.some.inj (hts.symm.trans ht)
      exact hmaj

theorem Tracks.advance (h : Tracks P J key dir s es) (hle : s.majority ≤ majorityTs) :
    Tracks P J key dir { s with majority := majorityTs } es := by
  refine ⟨h.memory, fun e he => ?_, h.position, h.captured, h.given, fun q c hc => ?_⟩
  · have hok := (h.epochs e he).mono [] hle
    rw [List.append_nil] at hok
    exact hok
  · obtain ⟨root, k, hk⟩ := h.committed q c hc
    have hmono := @CommitmentOk.mono P J key s es { s with majority := majorityTs } q c root k hk [] hle rfl
    rw [List.append_nil] at hmono
    exact ⟨root, k, hmono fun e he => .inl he⟩

theorem Tracks.deliver (h : Tracks P J key dir s es) (hp : s.pending = some e) (more : List Entry)
    (hm : InMemory P key dir w.log (es ++ more))
    (he : ∀ op db coll doc, Crud e op db coll doc → ∃ y ∈ es ++ more, MadeFor P J key op db coll doc y) :
    Tracks P J key dir { s with position := s.position + 1, service := { s.service with world := w } } (es ++ more) := by
  have hlt : s.position < s.history.length := (List.getElem?_eq_some_iff.1 hp).1
  refine ⟨hm, fun ep hep => (h.epochs ep hep).mono more (le_refl _), hlt, fun i e' hi he' => ?_, h.given, fun q c hc => ?_⟩
  · rcases Nat.lt_or_ge i s.position with hbefore | hat
    · intro op db coll doc hcrud
      obtain ⟨y, hy, hmade⟩ := h.captured i e' hbefore he' op db coll doc hcrud
      exact ⟨y, List.mem_append_left _ hy, hmade⟩
    · obtain rfl : i = s.position := Nat.le_antisymm (Nat.lt_succ_iff.1 hi) hat
      obtain rfl : e = e' := Option.some.inj (hp.symm.trans he')
      exact he
  · obtain ⟨root, k, hk⟩ := h.committed q c hc
    exact ⟨root, k, hk.mono more (le_refl _) rfl fun e he => .inl he⟩

theorem Tracks.store (h : Tracks P J key dir s es) {store : EpochStore} (hall : store.manager.epochs.All (EpochOk P es s.majority)) :
    Tracks P J key dir { s with service := { s.service with store := store } } es := by
  refine ⟨h.memory, hall, h.position, h.captured, h.given, fun q c hc => ?_⟩
  obtain ⟨root, k, hk⟩ := h.committed q c hc
  exact ⟨root, k, hk.ends, hk.found, hk.bound, hk.root, hk.writes⟩

theorem all_attachStep (hall : s.epochs.All (EpochOk P es s.majority)) {replies : PublishReplies} (n : Nat)
    (hmaj : ∀ r majorityTs, replies.mongoClient = some r → r.majority = .ok majorityTs → majorityTs ≤ s.majority) :
    (attachStep P display replies n s.service.store).manager.epochs.All (EpochOk P es s.majority) := by
  unfold attachStep
  cases hr : replies.mongoClient with
  | none => exact hall
  | some r =>
    simp only [computeAndAttach]
    cases hrange : hashRange P display (r.hashReplies s.service.store.manager.oplogStart) n s.service.store.manager.oplogStart with
    | error e => exact hall
    | ok range =>
      have hend : range.endTs ≤ s.majority := by
        cases hm : r.majority with
        | error e => simp [hashRange, Replica.hashReplies, hm] at hrange
        | ok majorityTs =>
          refine le_trans ?_ (hmaj r majorityTs hr hm)
          simp only [hashRange, Replica.hashReplies, Replica.replies, computeOplogRangeHash, hm, bind, Except.bind] at hrange
          cases hread : r.read s.service.store.manager.oplogStart (safeEnd majorityTs majorityTs) with
          | error e => simp [hread] at hrange
          | ok entries =>
            simp only [hread, pure, Except.pure, lt_irrefl, if_false, Except.ok.injEq] at hrange
            rw [← hrange]
      have hattach : (exec (attachOplogHash replies.attachIo n range.toOplogRange) s.service.store).2.manager.epochs.All
          (EpochOk P es s.majority) := by
        refine all_attach (fun e he => ⟨he.root, fun ts hts => ?_⟩) hall n replies.attachIo
        obtain rfl : range.endTs = ts := Option.some.inj hts
        exact hend
      simp only
      split
      · next heq => rw [heq] at hattach; exact hattach
      · next heq => rw [heq] at hattach; exact hattach

theorem Tracks.commits (h : Tracks P J key dir s es) (hc : Commits epoch (rootHex P (es.map (·.leaf))) s.chain chain)
    (hends : ∀ ts, epoch.oplogEndTs = some ts → ts ≤ s.majority)
    (hall : ∀ i e ts, s.history[i]? = some e → entryTs e = some ts → ts < s.majority → i < s.position) :
    Tracks P J key dir { s with chain := chain } es := by
  -- the sequences given out before keep their entries
  have hold : ∀ q c, s.chain.oplogCommitment q = some c → chain.rootEntry q = s.chain.rootEntry q →
      ∃ entry k, CommitmentOk P J key { s with chain := chain } es q c entry k := by
    intro q c hq hsame
    obtain ⟨root, k, hk⟩ := h.committed q c hq
    have hmono := @CommitmentOk.mono P J key s es { s with chain := chain } q c root k hk [] (le_refl _) hsame
    rw [List.append_nil] at hmono
    exact ⟨root, k, hmono fun e he => .inl he⟩
  cases hc with
  | refused => exact h
  | @root inv e ev hroot hnext =>
    refine ⟨h.memory, h.epochs, h.position, h.captured, fun q hq => ?_, fun q c hq => ?_⟩
    · have hgiven := h.given q hq
      show 1 ≤ q ∧ q ≤ e.sequence
      rw [hnext.seq]
      omega
    · have hgiven := h.given q (by rw [show s.chain.oplogCommitment q = some c from hq]; rfl)
      refine hold q c hq ?_
      show Function.update s.chain.rootEntry e.sequence (some e) q = _
      rw [Function.update_of_ne]
      rw [hnext.seq]
      omega
  | @both inv e c ev ev' hroot hnext hend =>
    have hupd : ∀ q, ((((s.chain.pushRoot e).setOplog e.sequence c).publish ev).publish ev').oplogCommitment q =
        if q = e.sequence then some c else s.chain.oplogCommitment q := fun q => Function.update_apply _ _ _ q
    have hroots : ∀ q, ((((s.chain.pushRoot e).setOplog e.sequence c).publish ev).publish ev').rootEntry q =
        if q = e.sequence then some e else s.chain.rootEntry q := fun q => Function.update_apply _ _ _ q
    refine ⟨h.memory, h.epochs, h.position, h.captured, fun q hq => ?_, fun q c' hq => ?_⟩
    · show 1 ≤ q ∧ q ≤ e.sequence
      have hseq := hnext.seq
      have hq' : (if q = e.sequence then some c else s.chain.oplogCommitment q).isSome := hupd q ▸ hq
      split at hq'
      · omega
      · have hgiven := h.given q hq'
        omega
    · have hq' : (if q = e.sequence then some c else s.chain.oplogCommitment q) = some c' := (hupd q).symm.trans hq
      split at hq'
      · next heq =>
        obtain rfl := Option.some.inj hq'
        have hle : c.endTs ≤ s.majority := by
          unfold OplogCommitment.endTs
          rw [hend]
          cases hts : epoch.oplogEndTs with
          | none => exact OplogTimestamp.zero_le _
          | some ts =>
            rw [Option.map_some, Option.getD_some, OplogTimestamp.unpack_pack]
            exact hends ts hts
        refine ⟨e, es.length, hle, ?_, Nat.le_refl _, ?_, fun x hx ts hts hlt => ?_⟩
        · rw [hroots, if_pos heq]
        · rw [List.take_of_length_le (by rw [List.length_map])]
          exact hroot
        · rw [List.take_of_length_le (Nat.le_refl _)]
          obtain ⟨i, hi⟩ := List.mem_iff_getElem?.1 hx
          exact h.captured i x (hall i x ts hi hts (lt_of_lt_of_le hlt hle)) hi
      · next hne => exact hold q c' hq' (by rw [hroots, if_neg hne])

/-- **Publishing an epoch** that ends with the log, when every write below the majority point is delivered. -/
theorem Tracks.publish (h : Tracks P J key dir s es) (hfind : s.epochs.find n = some epoch)
    (hg : LeavesNoneOut J s (.publish n replies)) :
    Tracks P J key dir (publishAndCommit P display hst signingKeypair replies epoch s).2 es := by
  obtain ⟨hmaj, hall, hlast⟩ := hg
  have hn : epoch.epochNumber = n := EpochList.find_number hfind
  unfold publishAndCommit
  cases hend : epoch.endIndex with
  | none => exact h
  | some i =>
    obtain ⟨epoch', hfind', hend', _⟩ := @find_attachStep P display replies n epoch s.service.store hfind
    have hstore := @all_attachStep P display s es h.epochs replies n hmaj
    have hok : EpochOk P es s.majority epoch' := hstore epoch' (List.mem_of_find?_eq_some hfind')
    have hroot : epoch'.rootHex.getD (rootHex P s.log.tree.leaves) = rootHex P (es.map (·.leaf)) := by
      obtain ⟨_, hroot⟩ := hok.root i (hend'.trans hend)
      rw [hroot, Option.getD_some, List.take_of_length_le]
      have hlen := hlast epoch i hfind hend
      rw [AuditLog.leafCount, h.memory.tree] at hlen
      exact hlen.symm.le
    have h1 := h.store hstore
    simp only [hn, hfind', Option.getD_some]
    cases replies.readEvents with
    | some e => exact h1
    | none =>
      simp only
      cases signingKeypair with
      | none => exact h1
      | some kp =>
        have hn' : epoch'.epochNumber = n := EpochList.find_number hfind'
        simp only [hn']
        generalize epochMetadata n replies.cid = metadata
        have hroot' : epoch'.rootHex.getD (rootHex P (Operator.log { s with service := { s.service with
            store := attachStep P display replies n s.service.store } }).tree.leaves) = rootHex P (es.map (·.leaf)) := hroot
        rw [hroot']
        have hcommits := @commits_commitEpoch hst epoch' (rootHex P (es.map (·.leaf))) metadata kp replies.submission s.chain
        have h2 := h1.commits hcommits hok.ends hall
        generalize commitEpoch hst epoch' (rootHex P (es.map (·.leaf))) metadata kp replies.submission s.chain = committed at h2 ⊢
        obtain ⟨e | u, chain⟩ := committed
        · exact h2
        · have hmark := @all_markCommitted (EpochOk P es s.majority) (attachStep P display replies n s.service.store)
            (fun _ _ _ he => ⟨he.root, he.ends⟩) hstore n replies.now replies.txHash replies.markIo
          simp only
          split
          · next heq => rw [heq] at hmark; exact h2.store hmark
          · next heq => rw [heq] at hmark; exact h2.store hmark

/-- **One step** that leaves no write out. -/
theorem Tracks.step (h : Tracks P J key dir s es) {stream : Document → ChangeEvent} (hstream : StreamSpec stream)
    {hst : Host} {signingKeypair : Option Address} {a : OperatorStep} (hg : LeavesNoneOut J s a) :
    ∃ es', Tracks P J key dir (stepOperator P J display hst stream deploymentId signingKeypair s a) es' := by
  cases a with
  | write entry =>
    refine ⟨es, ?_⟩
    simp only [stepOperator]
    split
    · next hacc => exact h.write hacc
    · exact h
  | advance majorityTs =>
    refine ⟨es, ?_⟩
    simp only [stepOperator]
    split
    · next hle => exact h.advance hle
    · exact h
  | record now io =>
    simp only [stepOperator]
    cases hp : s.pending with
    | none => exact ⟨es, h⟩
    | some e =>
      obtain ⟨more, hm, hmore⟩ := @processEvent_entries P J key dir deploymentId s.service.world es h.memory io now (stream e)
      refine ⟨es ++ more, h.deliver hp more hm fun op db coll doc hcrud => ?_⟩
      obtain ⟨json, hjson⟩ := Option.isSome_iff_exists.1 (hg e op db coll doc hp hcrud)
      obtain ⟨call, updateJson, hcall, hwrite⟩ := @eventCall_crud P J stream hstream e op db coll doc hcrud json hjson
        ⟨deploymentId, key.isSome, now⟩
      obtain ⟨y, hy⟩ := writeCall_entry rfl hwrite
      exact ⟨y, List.mem_append_right _ (hmore call y hcall hy), _, json, updateJson, call, hjson, hwrite, hy⟩
  | skip =>
    refine ⟨es, ?_⟩
    simp only [stepOperator]
    cases hp : s.pending with
    | none => exact h
    | some e =>
      have hm : InMemory P key dir s.service.world.log (es ++ []) := by
        rw [List.append_nil]
        exact h.memory
      have hskip := h.deliver hp [] hm fun op db coll doc hcrud => absurd hcrud (hg e op db coll doc hp)
      rw [List.append_nil] at hskip
      exact hskip
  | recordEvent index io => exact ⟨es, h.store (all_recordEvent (epochLaws_ok h.memory _) h.epochs index io)⟩
  | closeCurrentEpoch io => exact ⟨es, h.store (all_closeCurrentEpoch (epochLaws_ok h.memory _) h.epochs io)⟩
  | syncOpenEpoch io => exact ⟨es, h.store (all_sync (epochLaws_ok h.memory _) h.epochs io)⟩
  | publish n replies =>
    refine ⟨es, ?_⟩
    simp only [stepOperator]
    cases hfind : s.epochs.find n with
    | none => exact h
    | some epoch => exact h.publish hfind hg

theorem Tracks.completeMeansRecorded (h : Tracks P J key dir s es) : CompleteMeansRecorded P J display key s := by
  intro r root report c _ hc _ _ e he op db coll doc hcrud
  obtain ⟨entry, k, hk⟩ := h.committed root.sequence c hc
  obtain ⟨hmem, _, ts, hts, _, hlt⟩ := mem_writesIn.1 he
  obtain ⟨y, hy, hmade⟩ := hk.writes e hmem ts hts hlt op db coll doc hcrud
  obtain ⟨j, hj⟩ := List.mem_iff_getElem?.1 hy
  have hjk : j < k := by
    have hlen := (List.getElem?_eq_some_iff.1 hj).1
    rw [List.length_take] at hlen
    omega
  rw [List.getElem?_take_of_lt hjk] at hj
  obtain ⟨x, hx, rfl, hdb, hcoll, hleaf⟩ := h.memory.event hj
  obtain ⟨hydb, hycoll⟩ := hmade.namespace
  refine ⟨root.sequence, x, (h.given _ (by rw [hc]; rfl)).1, Nat.le_refl _, hx,
    ⟨hdb.trans hydb, hcoll.trans hycoll, y, hmade, hleaf⟩, entry, k, hk.found, hjk, ?_, ?_⟩
  · rw [AuditLog.leafCount, h.memory.tree]
    simpa [AuditMerkleTree.leafCount] using hk.bound
  · rw [h.memory.tree]
    exact hk.root

end

/-- The daemon starts on an empty directory and a contract that has just been initialized. -/
def Operator.start (P : Prims) (key : Option Bytes32) (dir : String) (config : EpochConfig) (path : Option String)
    (files : String → EpochFile) (h : Host) (admin : Address) (vk : VerifyingKey) (timestamp : UInt64) :
    Operator :=
  ⟨[], .zero, 0, Service.start (openNew P key dir) config path files,
    after h [⟨⟨[admin], timestamp⟩, .initializeContract admin vk⟩]⟩

theorem initialized_commitments (h : Host) (admin : Address) (vk : VerifyingKey) (timestamp : UInt64)
    (q : Nat) : (after h [⟨⟨[admin], timestamp⟩, .initializeContract admin vk⟩]).oplogCommitment q = none := by
  show (step h .empty _).oplogCommitment q = none
  refine step_lift (P := fun s => s.oplogCommitment q = none) rfl fun s' hw => ?_
  cases hw with
  | commitOplog hcall => cases hcall
  | init | setAdmin | setThreshold | commitRoot | authorize | revoke | attest | registerVk | disclose => rfl

theorem tracks_start :
    Tracks P J key dir (.start P key dir config path files h admin vk timestamp) [] where
  memory := (@session_open P key dir).2.1.toInMemory
  epochs := by
    intro e he
    obtain rfl : e = Epoch.new 0 0 := List.mem_singleton.1 he
    exact ⟨fun _ hi => (by cases hi), fun _ hts => (by cases hts)⟩
  position := Nat.le_refl 0
  captured := fun i e hi => absurd hi (Nat.not_lt_zero i)
  given := fun q hq => by
    rw [show (Operator.start P key dir config path files h admin vk timestamp).chain.oplogCommitment q = none from
      initialized_commitments h admin vk timestamp q] at hq
    cases hq
  committed := fun q c hc => by
    cases (initialized_commitments h admin vk timestamp q).symm.trans hc

/-- **A complete verdict means a complete log**, in every state of every run of the daemon in which no write
of a document is dropped and ranges are hashed only when the log has caught up. -/
theorem complete_means_recorded (P : Prims) (J : Serde) (display : Oplog.Bson → String) (key : Option Bytes32)
    (dir deploymentId : String) (stream : Oplog.Document → ChangeEvent) (hstream : StreamSpec stream) (h : Contract.Host)
    (signingKeypair : Option Contract.Address) (config : EpochConfig) (path : Option String) (files : String → EpochFile)
    (admin : Contract.Address) (vk : Contract.VerifyingKey) (timestamp : UInt64) (steps : List OperatorStep)
    (hg : Runs.Guarded (stepOperator P J display h stream deploymentId signingKeypair) (LeavesNoneOut J)
      (.start P key dir config path files h admin vk timestamp) steps) :
    ∀ pre, pre <+: steps → CompleteMeansRecorded P J display key
      (Runs.run (stepOperator P J display h stream deploymentId signingKeypair)
        (.start P key dir config path files h admin vk timestamp) pre) := by
  rintro pre ⟨post, rfl⟩
  obtain ⟨es, htracks⟩ := Runs.run_inv (I := fun s => ∃ es, Tracks P J key dir s es)
    (fun s a hok ⟨es, hs⟩ => @Tracks.step P J display key dir deploymentId s es hs stream hstream h signingKeypair a hok)
    (Runs.guarded_left hg) ⟨[], tracks_start⟩
  exact htracks.completeMeansRecorded

/-! ## A dropped write -/

def asDocument : Option Bson → Option Document
  | some (.document doc) => some doc
  | _ => none

/-- The event that a change stream gives for the write of a document. -/
def demoStream (e : Document) : ChangeEvent where
  operationType := match e.get "op" with
    | some (.string op) => if op = "i" then .insert else if op = "u" then .update else if op = "d" then .delete else .unknown
    | _ => .unknown
  ns := match e.get "ns" with
    | some (.string ns) => some ⟨String.ofList (ns.toList.takeWhile (· ≠ '.')),
        some (String.ofList ((ns.toList.dropWhile (· ≠ '.')).drop 1))⟩
    | _ => none
  fullDocument := asDocument (e.get "o")
  documentKey := if e.get "op" matches some (.string "u") then asDocument (e.get "o2") else asDocument (e.get "o")

theorem demoStream_spec : StreamSpec demoStream where
  ns := by
    rintro e op db coll doc ⟨hdot, hns, _⟩
    have hall : ∀ c ∈ db.toList, decide (c ≠ '.') = true := fun c hc => decide_eq_true fun heq => hdot (heq ▸ hc)
    simp only [demoStream, hns, String.toList_append]
    rw [List.append_assoc, List.takeWhile_append_of_pos hall, List.dropWhile_append_of_pos hall]
    simp
  insert := by
    rintro e db coll doc ⟨_, _, h⟩
    rcases h with ⟨_, hop, hdoc⟩ | ⟨h, _⟩ | ⟨h, _⟩
    · simp [demoStream, hop, hdoc, asDocument]
    · cases h
    · cases h
  update := by
    rintro e db coll doc ⟨_, _, h⟩
    rcases h with ⟨h, _⟩ | ⟨_, hop, hdoc⟩ | ⟨h, _⟩
    · cases h
    · simp [demoStream, hop, hdoc, asDocument]
    · cases h
  delete := by
    rintro e db coll doc ⟨_, _, h⟩
    rcases h with ⟨h, _⟩ | ⟨h, _⟩ | ⟨_, hop, hdoc⟩
    · cases h
    · cases h
    · simp [demoStream, hop, hdoc, asDocument]

/-- An insert into `shop`. -/
def shopInsert (time : UInt32) (coll : String) : Document :=
  [("ts", .timestamp time 0), ("op", .string "i"), ("ns", .string ("shop" ++ "." ++ coll)), ("o", .document [])]

theorem shopInsert_crud (time : UInt32) (coll : String) : Crud (shopInsert time coll) .insert "shop" coll [] :=
  ⟨by decide, rfl, .inl ⟨rfl, rfl, rfl⟩⟩

/-- Both inserts. -/
def shopEntries : List Document := [shopInsert 1 "orders", shopInsert 2 "customers"]

/-- The member of the operator, and of the reader. -/
def shopMember (entries : List Document) : Replica := ⟨entries, .ok ⟨3, 0⟩, none⟩

def shopReplies (entries : List Document) : PublishReplies where
  mongoClient := some (shopMember entries)
  attachIo := {}
  readEvents := none
  cid := none
  submission := .answered 200 (.validation "refused")
  txHash := "tx"
  now := "now"
  markIo := {}

abbrev stepShop : Operator → OperatorStep → Operator :=
  stepOperator demoPrims demoSerde (fun _ => "") demoHost demoStream "rs:rs0" (some demoAdmin)

/-- One event closes an epoch. -/
abbrev startShop : Operator :=
  .start demoPrims none "data" ⟨1, 0⟩ none (fun _ => .missing) demoHost demoAdmin demoVk 100

theorem startShop_tracks : Tracks demoPrims demoSerde none "data" startShop [] := tracks_start

/-- The insert into `orders` is recorded, and the epoch is closed. -/
def recordedHead : List OperatorStep :=
  [.write (shopInsert 1 "orders"), .advance ⟨3, 0⟩, .record ⟨0, 0⟩ {}, .recordEvent 0 {}]

/-- The insert into `customers` comes before the epoch is closed, and is dropped. -/
def droppedHead : List OperatorStep := [.write (shopInsert 1 "orders"), .write (shopInsert 2 "customers"), .advance ⟨3, 0⟩,
  .record ⟨0, 0⟩ {}, .skip, .recordEvent 0 {}]

section
variable {service : Service} {chain : Storage}

/-- The world in which the insert into `orders` is recorded. -/
def withOrder (w : World) : World := processEvent demoPrims demoSerde "rs:rs0" {} ⟨0, 0⟩ (demoStream (shopInsert 1 "orders")) w

/-- The service after that, with the epoch closed. -/
def orderService (service : Service) : Service :=
  ⟨withOrder service.world, (exec (recordEvent {} 0 (withOrder service.world).log) service.store).2⟩

theorem run_recordedHead : Runs.run stepShop ⟨[], .zero, 0, service, chain⟩ recordedHead =
    ⟨[shopInsert 1 "orders"], ⟨3, 0⟩, 1, orderService service, chain⟩ := by
  have hacc : Operator.accepts ⟨[], .zero, 0, service, chain⟩ (shopInsert 1 "orders") = true := rfl
  simp only [recordedHead, Runs.run_cons, Runs.run_nil, stepShop, stepOperator, hacc, if_true]
  rfl

theorem run_droppedHead : Runs.run stepShop ⟨[], .zero, 0, service, chain⟩ droppedHead =
    ⟨shopEntries, ⟨3, 0⟩, 2, orderService service, chain⟩ := by
  have hacc : Operator.accepts ⟨[], .zero, 0, service, chain⟩ (shopInsert 1 "orders") = true := rfl
  have hacc' : Operator.accepts ⟨[shopInsert 1 "orders"], .zero, 0, service, chain⟩ (shopInsert 2 "customers") = true := rfl
  simp only [droppedHead, Runs.run_cons, Runs.run_nil, stepShop, stepOperator, hacc, if_true, List.nil_append, hacc']
  rfl

theorem recordedHead_guarded : Runs.Guarded stepShop (LeavesNoneOut demoSerde) ⟨[], .zero, 0, service, chain⟩ recordedHead :=
  ⟨trivial, trivial, fun _ _ _ _ _ _ _ => rfl, trivial, trivial⟩

theorem withOrder_log (hm : InMemory demoPrims none "data" w.log []) :
    ∃ y, InMemory demoPrims none "data" (withOrder w).log [y] ∧ y.collection = "orders" := by
  obtain ⟨call, updateJson, hcall, hwrite⟩ := @eventCall_crud demoPrims demoSerde demoStream demoStream_spec _ _ _ _ _
    (shopInsert_crud 1 "orders") "\x7b\x7d" rfl ⟨"rs:rs0", false, ⟨0, 0⟩⟩
  obtain ⟨y, hy⟩ := @writeCall_entry demoPrims demoSerde none _ rfl _ _ _ _ _ _ hwrite
  refine ⟨y, ?_, (@MadeFor.namespace _ demoSerde _ _ _ _ [] _ ⟨_, _, _, call, rfl, hwrite, hy⟩).2⟩
  unfold withOrder processEvent
  rw [hm.leafKey, Option.isSome_none, hcall]
  simp only
  rw [exec_run, hm.leafKey, hy]
  simp only
  rw [log_recordInner]
  exact hm.push_fst y

def droppedInsert : List OperatorStep := droppedHead ++ [.publish 0 (shopReplies shopEntries)]

def recordedInsert : List OperatorStep := recordedHead ++ [.publish 0 (shopReplies [shopInsert 1 "orders"])]

theorem recordedInsert_guarded (hs : Tracks demoPrims demoSerde none "data" ⟨[], .zero, 0, service, chain⟩ []) :
    Runs.Guarded stepShop (LeavesNoneOut demoSerde) ⟨[], .zero, 0, service, chain⟩ recordedInsert := by
  obtain ⟨es, ht⟩ := Runs.run_inv (I := fun s => ∃ es, Tracks demoPrims demoSerde none "data" s es)
    (fun s a hok ⟨es, hs⟩ => hs.step demoStream_spec hok) recordedHead_guarded ⟨[], hs⟩
  obtain ⟨y, hm, _⟩ := withOrder_log hs.memory
  refine (Runs.guarded_append _ recordedHead _).2 ⟨recordedHead_guarded, ?_⟩
  rw [run_recordedHead] at ht ⊢
  refine ⟨⟨fun r majorityTs hr hm => ?_, fun i e ts hi _ _ => ?_, fun epoch i hfind hend => ?_⟩, trivial⟩
  · obtain rfl := Option.some.inj hr
    obtain rfl := Except.ok.inj hm
    exact le_refl _
  · exact (List.getElem?_eq_some_iff.1 hi).1
  · have hlt := ((ht.epochs epoch (List.mem_of_find?_eq_some hfind)).root i hend).1
    have hes : es.map (·.leaf) = [y.leaf] := by
      have htree := ht.memory.tree.symm.trans hm.tree
      simpa using htree
    have hlen : es.length = 1 := by simpa using congrArg List.length hes
    have hcount : (withOrder service.world).log.leafCount = 1 := by
      rw [AuditLog.leafCount, hm.tree]
      rfl
    show i + 1 = (withOrder service.world).log.leafCount
    omega

end

/-- The insert is recorded before its range is hashed: a verdict "complete" is right. -/
theorem recorded_insert_complete : Runs.Guarded stepShop (LeavesNoneOut demoSerde) startShop recordedInsert ∧
    ∀ pre, pre <+: recordedInsert →
      CompleteMeansRecorded demoPrims demoSerde (fun _ => "") none (Runs.run stepShop startShop pre) :=
  ⟨recordedInsert_guarded startShop_tracks, complete_means_recorded demoPrims demoSerde (fun _ => "") none "data" "rs:rs0"
    demoStream demoStream_spec demoHost (some demoAdmin) ⟨1, 0⟩ none (fun _ => .missing) demoAdmin
    demoVk 100 recordedInsert (recordedInsert_guarded startShop_tracks)⟩

theorem shopInsert_wellFormed (time : UInt32) (hcoll : "shop.".utf8ByteSize + coll.utf8ByteSize < 4294967296) :
    (Bson.document (shopInsert time coll)).WellFormed fun _ => "" := by
  have hsize : "ts".utf8ByteSize < 4294967296 ∧ "op".utf8ByteSize < 4294967296 ∧ "ns".utf8ByteSize < 4294967296 ∧
      "o".utf8ByteSize < 4294967296 ∧ "i".utf8ByteSize < 4294967296 := by decide
  simp only [shopInsert, Bson.WellFormed, Bson.Everywhere, Bson.EverywhereFields, Bson.Fits,
    Bson.atom, Bson.text, utf8]
  simp [hsize, hcoll]

def shopHistory : History fun _ => "" where
  entries := shopEntries
  timed := by decide
  increasing := by
    unfold shopEntries
    rw [List.pairwise_pair]
    rintro _ _ ⟨⟩ ⟨⟩
    decide
  wellFormed := by
    intro e he
    simp only [shopEntries, List.mem_cons, List.not_mem_nil, or_false] at he
    rcases he with rfl | rfl
    · exact shopInsert_wellFormed 1 (by decide)
    · exact shopInsert_wellFormed 2 (by decide)

/-- What the operator commits to: both inserts. -/
def shopCommitment : OplogCommitment :=
  ⟨(entriesRoot demoPrims (fun _ => "") shopEntries).val, OplogTimestamp.zero.packU64, OplogTimestamp.packU64 ⟨3, 0⟩, 2⟩

theorem shopCommitment_range : shopCommitment.startTs = .zero ∧ shopCommitment.endTs = ⟨3, 0⟩ :=
  ⟨OplogTimestamp.unpack_pack _, OplogTimestamp.unpack_pack _⟩

theorem shopCommitment_writes : shopCommitment.writes shopEntries = shopEntries ∧
    shopCommitment.seen (shopMember shopEntries) ⟨3, 0⟩ = shopEntries := by
  unfold OplogCommitment.writes OplogCommitment.seen
  rw [shopCommitment_range.1, shopCommitment_range.2]
  exact ⟨rfl, rfl⟩

theorem shopCommitment_complete : ∃ report, verifyOplog demoPrims (fun _ => "") (.ok (some ⟨1, "", 0, ""⟩))
    (.ok (some shopCommitment)) (some (shopMember shopEntries)) = .ok report ∧ report.verdict = .complete := by
  refine ⟨_, rfl, ?_⟩
  rcases @checkCommitment_cases demoPrims (fun _ => "") shopHistory (shopMember shopEntries) shopCommitment 1 (List.infix_refl _) with
    ⟨_, hall⟩ | ⟨m, hm, _, _, hv⟩
  · have hnil := (hall ⟨3, 0⟩ rfl rfl).1
    rw [shopCommitment_writes.2] at hnil
    cases hnil
  · obtain rfl : ⟨3, 0⟩ = m := Except.ok.inj hm
    refine hv.elim And.left fun hv => absurd ?_ hv.2
    exact ⟨rfl, rfl, by rw [shopCommitment_writes.2]; rfl⟩

section
variable {service : Service} {chain : Storage}

/-- The range of the epoch, as it is attached. -/
def shopRange : OplogRange :=
  ⟨.zero, ⟨3, 0⟩, 2, String.ofList (Bytes.hexEncode (entriesRoot demoPrims (fun _ => "") shopEntries).val), ⟨3, 0⟩⟩

theorem shop_hashRange {store : EpochStore} (hstart : store.manager.oplogStart = .zero) :
    hashRange demoPrims (fun _ => "") ((shopMember shopEntries).hashReplies store.manager.oplogStart) 0 store.manager.oplogStart =
      .ok ⟨shopRange, 0⟩ := by
  have hok := @compute_ok (fun _ => "") shopHistory ⟨3, 0⟩ .zero ⟨3, 0⟩ demoPrims (shopMember shopEntries) 0
    (List.infix_refl _) rfl rfl
  have hseen : seenRange (shopMember shopEntries).oplog ⟨3, 0⟩ .zero ⟨3, 0⟩ = shopEntries := rfl
  rw [hseen] at hok
  rw [hstart]
  have hmaj : ((shopMember shopEntries).replies .zero ⟨3, 0⟩).majority = .ok ⟨3, 0⟩ := rfl
  have hreplies : (shopMember shopEntries).hashReplies .zero = (shopMember shopEntries).replies .zero ⟨3, 0⟩ := rfl
  unfold hashRange
  rw [hreplies, hmaj]
  simp only
  rw [hok]
  rfl

theorem orderService_epoch (hm : InMemory demoPrims none "data" service.world.log [])
    (hmanager : service.store.manager = .new ⟨1, 0⟩) :
    (orderService service).store.manager.oplogStart = .zero ∧
    ∃ epoch leaf, (orderService service).epochs.find 0 = some epoch ∧ epoch.endIndex = some 0 ∧
      epoch.rootHex = some (frToHex leaf) := by
  have hnext : (orderService service).store.manager.nextOplogStartTs = service.store.manager.nextOplogStartTs :=
    (keeps_next_recordEvent 0).apply _
  refine ⟨by rw [EpochManager.oplogStart, hnext, hmanager]; rfl, ?_⟩
  obtain ⟨y, hlog, _⟩ := withOrder_log hm
  have hroot : (withOrder service.world).log.rootAfterAt 0 = some (rootHex demoPrims [y.leaf]) := by
    rw [AuditLog.rootAfterAt, hlog.roots]
    rfl
  have hepochs : (orderService service).epochs = _ := epochs_recordEvent (by rw [hmanager]; rfl) 0
  rw [hroot, hmanager] at hepochs
  rw [hepochs]
  exact ⟨_, (⟨[y.leaf]⟩ : AuditMerkleTree 20).root demoPrims, rfl, rfl, rfl⟩

theorem shop_publish {s : Operator} (hstart : s.service.store.manager.oplogStart = .zero)
    {epoch : Epoch} {leaf : Fr} (hfind : s.epochs.find 0 = some epoch) (hend : epoch.endIndex = some 0)
    (hroot : epoch.rootHex = some (frToHex leaf)) (hchain : s.chain = after demoHost [demoInit]) :
    (stepShop s (.publish 0 (shopReplies shopEntries))).chain.seqOr0 = 1 ∧
    (stepShop s (.publish 0 (shopReplies shopEntries))).chain.oplogCommitment 1 = some shopCommitment ∧
    (stepShop s (.publish 0 (shopReplies shopEntries))).history = s.history ∧
    (stepShop s (.publish 0 (shopReplies shopEntries))).log = s.log := by
  obtain ⟨chain', hok, hc, _, hseq⟩ := @first_commit_accepted shopCommitment (entriesRoot demoPrims (fun _ => "") shopEntries).2
    (by decide) (toBytesBe leaf) 200 (epochMetadata 0 none)
  obtain ⟨h1, h2, h3⟩ := @publishAndCommit_chain demoPrims (fun _ => "") demoHost demoAdmin s 0 0 epoch
    (shopReplies shopEntries) (shopMember shopEntries) _ hfind hend rfl rfl (shop_hashRange hstart)
  have hcommit : ∀ range : OplogRange, range = shopRange → (commitEpoch demoHost (epoch.attach range) (frToHex leaf)
      (epochMetadata 0 none) demoAdmin (.answered 200 (.validation "refused"))
      (after demoHost [demoInit])).2 = chain' := by
    rintro _ rfl
    refine commitEpoch_ok ?_ rfl ?_ rfl hok
    · rw [frToHex, String.toList_ofList, Bytes.hexDecode_hexEncode]
    · rw [shopRange, String.toList_ofList, Bytes.hexDecode_hexEncode]
  rw [hroot, hchain, Option.getD_some] at h1
  have hchain' := h1.trans (hcommit _ rfl)
  simp only [stepShop, stepOperator, hfind]
  exact ⟨by rw [hchain', hseq], by rw [hchain', hc], h2, h3⟩

theorem droppedInsert_complete (hm : InMemory demoPrims none "data" service.world.log [])
    (hmanager : service.store.manager = .new ⟨1, 0⟩) (hchain : chain = after demoHost [demoInit]) :
    ¬ CompleteMeansRecorded demoPrims demoSerde (fun _ => "") none
      (Runs.run stepShop ⟨[], .zero, 0, service, chain⟩ droppedInsert) := by
  intro hall
  obtain ⟨hstart, epoch, leaf, hfind, hend, hroot⟩ := orderService_epoch hm hmanager
  obtain ⟨y, hlog, hcoll⟩ := withOrder_log hm
  rw [droppedInsert, Runs.run_append, run_droppedHead, Runs.run_cons, Runs.run_nil] at hall
  obtain ⟨hseq, hc, hhistory, hlog'⟩ := @shop_publish ⟨shopEntries, ⟨3, 0⟩, 2, orderService service, chain⟩ hstart epoch leaf
    hfind hend hroot hchain
  obtain ⟨report, hreport, hverdict⟩ := shopCommitment_complete
  obtain ⟨q, x, _, _, hx, ⟨_, hxcoll, _⟩, _⟩ := hall (shopMember shopEntries) ⟨1, "", 0, ""⟩ report shopCommitment hseq.symm hc
    hreport hverdict
    (shopInsert 2 "customers") (by rw [show _ = shopEntries from hhistory, shopCommitment_writes.1]; simp [shopEntries])
    .insert "shop" "customers" [] (shopInsert_crud 2 "customers")
  have hevents : x ∈ (withOrder service.world).log.events := by
    rw [← show _ = (withOrder service.world).log from hlog']
    exact hx
  rw [hlog.events] at hevents
  obtain rfl := List.mem_singleton.1 hevents
  exact absurd (hcoll.symm.trans hxcoll) (by decide)

end

/-- The insert into `customers` is dropped, the epoch is committed over both, and the reader's verdict is
"complete". -/
theorem dropped_write_complete : ¬ CompleteMeansRecorded demoPrims demoSerde (fun _ => "") none
    (Runs.run stepShop startShop droppedInsert) :=
  droppedInsert_complete startShop_tracks.memory rfl rfl

end Audit
