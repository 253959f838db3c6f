import NosqlBuddy.Audit.NoFalseAlarm
import NosqlBuddy.Audit.OperatorSpec

/-!
# Published batches

The other half of `publish_and_commit` (auditd/mod.rs:629): the lines of a closed epoch are taken from
`events.jsonl`, put on IPFS and named by their CID in the metadata of the commit.

| here | there |
| --- | --- |
| `extractEpochBatch` | auditd/mod.rs:758, commands.rs:2560, the same text |
| `Publication` | the log with its epoch manager, the contract and what is on IPFS |

`encode` gives what is stored for a batch: its bytes, or their encryption for the auditors. `publishing_run`: in
every run, each entry of the root log has the root of its epoch and names the lines of its epoch.
-/

namespace Audit
open Mutation Text Contract

/-! ## The source -/

section
variable (P : Prims)

def extractEpochBatch (jsonl : List Char) (startIndex endIndex : Nat) : List Char :=
  join ((lines jsonl).filterMap fun line =>
    if trim line = [] then none
    else match (P.valueFromStr (trim line)).bind (·.getU64 "index") with
      | some index => if startIndex ≤ index ∧ index ≤ endIndex then some (trim line) else none
      | none => none)

/-- The first word that starts with `cid=`, without that. -/
def extractCidFromMetadata (metadata : String) : Option String :=
  (words metadata.toList).findSome? fun part =>
    if "cid=".toList.isPrefixOf part then some (String.ofList (part.drop 4)) else none

structure Publication where
  service : Service
  chain : Storage
  /-- the content of each CID -/
  ipfs : String → Option ByteArray

def Publication.epochs (s : Publication) : EpochList := s.service.epochs

variable (dir : String) (h : Host) (kp : Address) (encode : List Char → ByteArray)

/-- The batch goes to IPFS, unless it is empty, and the root is committed under the CID. -/
def publishEpoch (epoch : Epoch) (endIndex : Nat) (cid : String) (submission : Submission) (jsonl : List Char) (s : Publication) :
    Publication :=
  let batch := extractEpochBatch P jsonl epoch.startIndex endIndex
  let saved := if batch = [] then none else some cid
  let ipfs := match saved with
    | some cid => Function.update s.ipfs cid (some (encode batch))
    | none => s.ipfs
  let root := epoch.rootHex.getD (rootHex P s.service.world.log.tree.leaves)
  { s with
    chain := (commitEpoch h epoch root (epochMetadata epoch.epochNumber saved) kp submission s.chain).2
    ipfs := ipfs }

inductive PublicationStep where
  | log (step : FileStep)
  | recordEvent (index : Nat) (io : EpochIo)
  | closeCurrentEpoch (io : EpochIo)
  | publish (epochNumber : Nat) (range : Option OplogRange) (cid : String) (submission : Submission)

def stepPublication (key : Option Bytes32) (s : Publication) : PublicationStep → Publication
  | .log st => { s with service := { s.service with world := stepFile P key dir s.service.world st } }
  | .recordEvent index io => { s with service := stepEpoch P s.service (.recordEvent index io) }
  | .closeCurrentEpoch io => { s with service := stepEpoch P s.service (.closeCurrentEpoch io) }
  | .publish n range cid submission =>
    match s.epochs.find n, readText none (s.service.world.disk dir) with
    | some epoch, .ok jsonl =>
      match epoch.endIndex with
      | some endIndex => publishEpoch P h kp encode (range.elim epoch epoch.attach) endIndex cid submission jsonl s
      | none => s
    | _, _ => s

/-- The steps of a run that the epochs of the log can be rebuilt from: the log is not reset, epochs end where
their count says, and they are published in order, each under a CID of its own. -/
def PublicationStep.Regular (key : Option Bytes32) (s : Publication) : PublicationStep → Prop
  | .log st => st ≠ .clear ∧ st.Honest P key
  | .recordEvent index io => EndsAtCount s.service (.recordEvent index io)
  | .closeCurrentEpoch _ => True
  | .publish n _ cid _ => n = s.chain.seqOr0 ∧ s.ipfs cid = none ∧ ∀ c ∈ cid.toList, isWhitespace c = false

/-- The events of the indices `a ..= b`. -/
def eventsBetween (a b : Nat) (evs : List PersistedEvent) : List PersistedEvent :=
  evs.filter fun ev => a ≤ ev.index ∧ ev.index ≤ b

/-- The text of the batch of the epoch. -/
def batchText (evs : List PersistedEvent) (epoch : Epoch) (endIndex : Nat) : List Char :=
  join ((eventsBetween epoch.startIndex endIndex evs).map P.eventToString)

/-- The entry has the root of the epoch and names its batch. -/
structure Published (evs : List PersistedEvent) (ipfs : String → Option ByteArray) (epoch : Epoch)
    (entry : RootEntry) : Prop where
  root : epoch.rootHex = some (String.ofList (Bytes.hexEncode entry.root))
  batch : ∃ cid, extractCidFromMetadata entry.metadata = some cid ∧
    ∀ endIndex, epoch.endIndex = some endIndex → ipfs cid = some (encode (batchText P evs epoch endIndex))

/-- The state of a regular run. -/
structure Publishing (key : Option Bytes32) (s : Publication) (ls : List Line) (l : RootLog) : Prop where
  filed : Filed P key dir s.service.world ls
  sound : Sound P s.service
  represents : Represents s.chain l
  nonempty : ∀ e ∈ s.epochs.earlier, 0 < e.eventCount
  count : l.entries.length ≤ s.epochs.earlier.length
  published : ∀ (k : Nat) entry epoch, l.entries[k]? = some entry → s.epochs.earlier[k]? = some epoch →
    Published P encode (eventsOf ls) s.ipfs epoch entry

end

variable {ls : List Line} {es : EpochList} {l : RootLog} {s : Publication} {epoch : Epoch}

section
variable {P : Prims} {key : Option Bytes32} {dir : String} {h : Host} {kp : Address}
  {encode : List Char → ByteArray}

/-! ## Texts -/

theorem extractCid_epochMetadata (n : Nat) (hcid : ∀ c ∈ cid.toList, isWhitespace c = false) :
    extractCidFromMetadata (epochMetadata n (some cid)) = some cid := by
  have hepoch : ∀ c ∈ "epoch=".toList, isWhitespace c = false := by simp [isWhitespace]
  have hlabel : ∀ c ∈ "cid=".toList, isWhitespace c = false := by simp [isWhitespace]
  have hfirst : ∀ c ∈ "epoch=".toList ++ Nat.toDigits 10 n, isWhitespace c = false := by
    intro c hc
    rcases List.mem_append.1 hc with hc | hc
    · exact hepoch c hc
    · exact visible_of_isDigit (Nat.isDigit_of_mem_toDigits (by omega) (by omega) hc)
  have hsecond : ∀ c ∈ "cid=".toList ++ cid.toList, isWhitespace c = false := by
    intro c hc
    rcases List.mem_append.1 hc with hc | hc
    · exact hlabel c hc
    · exact hcid c hc
  have htext : (epochMetadata n (some cid)).toList =
      ("epoch=".toList ++ Nat.toDigits 10 n) ++ ' ' :: ("cid=".toList ++ cid.toList) := by
    simp [epochMetadata, toString, Nat.repr]
  rw [extractCidFromMetadata, htext, words_append hfirst (by simp) (by decide), words_of_visible hsecond (by simp)]
  simp

theorem extractEpochBatch_file (hl : P.LawfulLines) (hw : ∀ l ∈ ls, l.Written) (a b : Nat) :
    extractEpochBatch P (fileText P ls) a b = join ((eventsBetween a b (eventsOf ls)).map P.eventToString) := by
  rw [extractEpochBatch, hl.lines_text hw]
  refine congrArg join ?_
  induction ls with
  | nil => rfl
  | cons l ls ih =>
    have ih' := ih fun m hm => hw m (List.mem_cons_of_mem l hm)
    obtain ⟨_, htrim, hne⟩ := hl.plain (hw l List.mem_cons_self)
    obtain ⟨v, hv, hget⟩ := hl.value l (hw l List.mem_cons_self)
    rw [List.map_cons, List.filterMap_cons, htrim, if_neg hne, hv, Option.bind_some]
    cases l with
    | event ev =>
      rw [(ReaderMode.event_fields hget).1, eventsOf_event, eventsBetween, List.filter_cons]
      by_cases hin : a ≤ ev.index ∧ ev.index ≤ b
      · simp only [hin, and_self, if_true, decide_true, List.map_cons]
        exact congrArg _ ih'
      · simp only [hin, if_false, decide_false]
        exact ih'
    | metadata m =>
      rw [(ReaderMode.metadata_fields (hw (.metadata m) List.mem_cons_self) hget).1]
      exact ih'

/-! ## Steps of the log -/

theorem Filed.step_extends (hl : P.LawfulLines) (hf : Filed P key dir w ls)
    (hh : HistoricalRoots P w.log) (hon : st.Honest P key) (hclear : st ≠ .clear) :
    ∃ ls', Filed P key dir (stepFile P key dir w st) ls' ∧ HistoricalRoots P (stepFile P key dir w st).log ∧
      eventsOf ls <+: eventsOf ls' := by
  have hroots : ∀ w' : World, w'.roots = w.roots → HistoricalRoots P w'.log :=
    fun w' hw' => aligned_iff.1 ((aligned_of_roots hw').2 (aligned_iff.2 hh))
  cases st with
  | record call =>
    cases he : call.entry P key with
    | none =>
      refine ⟨ls, ?_, historicalRoots_run hh call {}, List.prefix_rfl⟩
      rw [stepFile, exec_run, hf.leafKey, he]
      exact hf
    | some e =>
      refine ⟨_, hf.record he (hon e he), historicalRoots_run hh call {}, ?_⟩
      rw [eventsOf_append]
      exact List.prefix_append _ _
  | setLegalHold dep db hold =>
    refine ⟨_, hf.setLegalHold dep db hold, hroots _ ((keeps_setLegalHold {} dep db hold).apply w), ?_⟩
    rw [eventsOf_append]
    exact List.prefix_append _ _
  | pruneDomain now dep db =>
    have hh' := hroots _ ((keeps_pruneDomain (P := P) {} now dep db).apply w)
    rcases hf.pruneDomain now dep db with hf' | ⟨r, hf'⟩
    · exact ⟨_, hf', hh', List.prefix_rfl⟩
    · refine ⟨_, hf', hh', ?_⟩
      rw [eventsOf_append]
      exact List.prefix_append _ _
  | clear => exact absurd rfl hclear
  | restart =>
    refine ⟨ls, hf.restart hl, ?_, List.prefix_rfl⟩
    obtain ⟨log, hback, hexec⟩ := hf.readBack hl
    have hlog : (stepFile P key dir w .restart).log = { log with persistence := some dir } := by
      rw [stepFile, hexec]
      rfl
    have hchained := chained_rootHexes hf.chained
    rw [List.nil_append] at hchained
    rw [hlog]
    refine (aligned_iff (w := ⟨_, w.disk⟩)).1 ?_
    show log.rootAfterByIndex = rootHexes P log.tree.leaves
    rw [hback.roots, hback.tree, hchained]
    rfl

theorem FrozenRoots.mono {log log' : AuditLog} (hr : FrozenRoots P log es)
    (hp : log.tree.leaves <+: log'.tree.leaves) : FrozenRoots P log' es := by
  obtain ⟨more, hmore⟩ := hp
  intro e he i hi
  obtain ⟨hlt, hroot⟩ := hr e he i hi
  have hlt' : i < log.tree.leaves.length := hlt
  rw [AuditLog.leafCount, AuditMerkleTree.leafCount, ← hmore, List.take_append_of_le_length (by omega), List.length_append]
  exact ⟨by omega, hroot⟩

theorem eventsBetween_mono (hf' : Filed P key dir w' ls')
    (hp : eventsOf ls <+: eventsOf ls') (a : Nat) (hb : b < (eventsOf ls).length) :
    eventsBetween a b (eventsOf ls') = eventsBetween a b (eventsOf ls) := by
  obtain ⟨more, hmore⟩ := hp
  have hnone : eventsBetween a b more = [] := by
    rw [eventsBetween, List.filter_eq_nil_iff]
    intro ev hev
    obtain ⟨i, hi⟩ := List.mem_iff_getElem?.1 hev
    have hindex : ev.index = (eventsOf ls).length + i := by
      refine hf'.index_eq ?_
      rw [← hmore, List.getElem?_append_right (by omega), Nat.add_sub_cancel_left]
      exact hi
    simp
    omega
  rw [← hmore, eventsBetween, List.filter_append]
  exact (congrArg _ hnone).trans (List.append_nil _)

theorem Publishing.log (hl : P.LawfulLines) (hs : Publishing P dir encode key s ls l) (hst : PublicationStep.Regular P key s (.log st)) :
    ∃ ls', Publishing P dir encode key (stepPublication P dir h kp encode key s (.log st)) ls' l := by
  obtain ⟨ls', hf', hh', hp⟩ := hs.filed.step_extends hl hs.sound.history hst.2 hst.1
  have hleaves : s.service.world.log.tree.leaves <+: (stepFile P key dir s.service.world st).log.tree.leaves := by
    rw [hs.filed.tree, hf'.tree]
    exact hp.filterMap _
  refine ⟨ls', hf', ⟨hh', hs.sound.bounds, hs.sound.roots.mono hleaves⟩, hs.represents, hs.nonempty, hs.count, ?_⟩
  intro k entry epoch hk hepoch
  obtain ⟨hroot, cid, hcid, hbatch⟩ := hs.published k entry epoch hk hepoch
  refine ⟨hroot, cid, hcid, fun endIndex hend => ?_⟩
  have hlt := (hs.sound.roots epoch (List.mem_of_getElem? hepoch) endIndex hend).1
  rw [hs.filed.leafCount_eq] at hlt
  rw [batchText, eventsBetween_mono hf' hp _ hlt]
  exact hbatch endIndex hend

/-! ## Steps of the epochs -/

/-- A call of the epoch manager ends at most one epoch, which is not empty. -/
def EndsOne (es es' : EpochList) : Prop := es'.earlier = es.earlier ∨ ∃ e, es'.earlier = es.earlier ++ [e] ∧ 0 < e.eventCount

theorem endsOne_closedAt (hc : 0 < es.last.eventCount) (i : Nat) (root : Option String) :
    EndsOne es (es.closedAt i root) := by
  cases root with
  | none => exact .inl rfl
  | some root => exact .inr ⟨es.last.freeze i root, rfl, hc⟩

theorem endsOne_recordEvent {s : EpochStore} (hopen : s.manager.epochs.last.isOpen = true) (io : EpochIo) (i : Nat)
    (log : AuditLog) : EndsOne s.manager.epochs (exec (recordEvent io i log) s).2.manager.epochs := by
  rw [epochs_recordEvent hopen]
  split
  · exact @endsOne_closedAt (s.manager.epochs.setCount _) (Nat.succ_pos _) i _
  · exact .inl rfl

theorem endsOne_closeCurrentEpoch {s : EpochStore} (hopen : s.manager.epochs.last.isOpen = true) (io : EpochIo)
    (log : AuditLog) : EndsOne s.manager.epochs (exec (closeCurrentEpoch io log) s).2.manager.epochs := by
  rw [epochs_closeCurrentEpoch hopen]
  split
  · exact .inl rfl
  · next hne => exact endsOne_closedAt (Nat.pos_of_ne_zero hne) _ _

theorem Publishing.epochs (hs : Publishing P dir encode key s ls l) (hworld : service.world = s.service.world)
    (hsound : Sound P service) (hends : EndsOne s.epochs service.epochs) :
    Publishing P dir encode key { s with service := service } ls l := by
  have hkept : ∀ k < l.entries.length, service.epochs.earlier[k]? = s.epochs.earlier[k]? := by
    intro k hk
    have hcount := hs.count
    rcases hends with heq | ⟨e, heq, _⟩
    · rw [heq]
    · rw [heq, List.getElem?_append_left (by omega)]
  refine ⟨by rw [hworld]; exact hs.filed, hsound, hs.represents, ?_, ?_, ?_⟩
  · intro e he
    rcases hends with heq | ⟨e', heq, hpos⟩
    · exact hs.nonempty e (heq ▸ he)
    · have he' : e ∈ s.epochs.earlier ++ [e'] := heq ▸ he
      rcases List.mem_append.1 he' with he' | he'
      · exact hs.nonempty e he'
      · rw [List.mem_singleton.1 he']
        exact hpos
  · have hcount := hs.count
    show _ ≤ service.epochs.earlier.length
    rcases hends with heq | ⟨e, heq, _⟩
    · rw [heq]
      exact hcount
    · rw [heq, List.length_append]
      omega
  · intro k entry epoch hk hepoch
    have hlt := (List.getElem?_eq_some_iff.1 hk).1
    exact hs.published k entry epoch hk ((hkept k hlt).symm.trans hepoch)

/-! ## Publishing an epoch -/

theorem commitEpoch_represents {rootHex metadata : String} {root : List UInt8} {submission : Submission}
    {chain : Storage} (hr : Represents chain l)
    (hroot : Bytes.hexDecode rootHex.toList = some root) :
    Represents (commitEpoch h epoch rootHex metadata kp submission chain).2 l ∨
      ∃ e l', e.root = root ∧ e.metadata = metadata ∧ l'.entries = l.entries ++ [e] ∧
        Represents (commitEpoch h epoch rootHex metadata kp submission chain).2 l' := by
  have hcommit : ∀ (call : Call), (call = .commitRoot root metadata ∨ ∃ oplog, call = .commitRootWithOplog root oplog metadata) →
      ∀ chain', (chain' = chain ∨ ∃ timestamp, invoke h ⟨⟨[kp], timestamp⟩, call⟩ chain = .ok chain') →
      Represents chain' l ∨ ∃ e l', e.root = root ∧ e.metadata = metadata ∧ l'.entries = l.entries ++ [e] ∧
        Represents chain' l' := by
    rintro call hcall chain' (rfl | ⟨timestamp, hok⟩)
    · exact .inl hr
    · exact .inr (hr.commit hcall hok)
  unfold commitEpoch
  cases hoplog : epoch.oplogMerkleRootHex with
  | none =>
    have hchain := @submitInvoke_chain h (fun timestamp => ⟨⟨[kp], timestamp⟩, .commitRoot root metadata⟩) submission chain
    simp only [commitRootNative, hroot]
    generalize submitInvoke h _ submission chain = r at hchain ⊢
    obtain ⟨_ | _, chain'⟩ := r
    · exact hcommit _ (.inl rfl) chain' hchain
    · exact hcommit _ (.inl rfl) chain' hchain
  | some oplogRootHex =>
    simp only [commitRootWithOplogNative, hroot]
    cases Bytes.hexDecode oplogRootHex.toList with
    | none => exact .inl hr
    | some oplogRoot =>
      simp only
      generalize hc : OplogCommitment.mk oplogRoot _ _ _ = c
      have hchain := @submitInvoke_chain h (fun timestamp => ⟨⟨[kp], timestamp⟩, .commitRootWithOplog root c metadata⟩)
        submission chain
      generalize submitInvoke h _ submission chain = r at hchain ⊢
      obtain ⟨_ | _, chain'⟩ := r
      · exact hcommit _ (.inr ⟨c, rfl⟩) chain' hchain
      · exact hcommit _ (.inr ⟨c, rfl⟩) chain' hchain

theorem find_closed (hb : Boundaries es) (hfind : es.find n = some epoch)
    (hend : epoch.endIndex = some i) : es.earlier[n]? = some epoch := by
  have hmem : epoch ∈ es.earlier := by
    rcases List.mem_append.1 (List.mem_of_find?_eq_some hfind) with hmem | hmem
    · exact hmem
    · rw [List.mem_singleton.1 hmem, hb.last_open] at hend
      cases hend
  obtain ⟨k, hk⟩ := List.mem_iff_getElem?.1 hmem
  have hnumber : epoch.epochNumber = n := by simpa using List.find?_some hfind
  have hlt := (List.getElem?_eq_some_iff.1 hk).1
  have hrange := congrArg (fun l => l[k]?) hb.numbers.1
  simp only [List.getElem?_map, hk, Option.map_some, List.getElem?_range hlt, Option.some.injEq] at hrange
  rw [← hnumber, hrange]
  exact hk

theorem Publishing.batch_ne_nil (hl : P.LawfulLines) (hs : Publishing P dir encode key s ls l) (hmem : epoch ∈ s.epochs.earlier)
    (hend : epoch.endIndex = some i) : batchText P (eventsOf ls) epoch i ≠ [] := by
  obtain ⟨j, hj, hcount⟩ := hs.sound.bounds.closed epoch hmem
  obtain rfl : i = j := Option.some.inj (hend.symm.trans hj)
  have hpos := hs.nonempty epoch hmem
  have hlt := (hs.sound.roots epoch hmem i hend).1
  rw [hs.filed.leafCount_eq] at hlt
  have hget := List.getElem?_eq_getElem hlt
  have hindex := hs.filed.index_eq hget
  intro hnil
  have hempty := join_eq_nil (fun t ht => ?_) hnil
  · have hin : (eventsOf ls)[i] ∈ eventsBetween epoch.startIndex i (eventsOf ls) := by
      rw [eventsBetween, List.mem_filter]
      exact ⟨List.getElem_mem hlt, by simp; omega⟩
    rw [List.map_eq_nil_iff] at hempty
    rw [hempty] at hin
    cases hin
  · obtain ⟨ev, _, rfl⟩ := List.mem_map.1 ht
    exact (hl.plain (l := .event ev) trivial).2.2

theorem Publishing.publish (hl : P.LawfulLines) (hs : Publishing P dir encode key s ls l) {n : Nat} {range : Option OplogRange} {cid : String} {submission : Submission}
    (hst : PublicationStep.Regular P key s (.publish n range cid submission)) :
    ∃ l', Publishing P dir encode key (stepPublication P dir h kp encode key s (.publish n range cid submission)) ls l' := by
  obtain ⟨hn, hfresh, hvisible⟩ := hst
  simp only [stepPublication, readText_encoded hs.filed.file]
  cases hfind : s.epochs.find n with
  | none => exact ⟨l, hs⟩
  | some epoch =>
    simp only
    cases hend : epoch.endIndex with
    | none => exact ⟨l, hs⟩
    | some i =>
      have hat := find_closed hs.sound.bounds hfind hend
      have hmem := List.mem_of_getElem? hat
      have hnumber : epoch.epochNumber = n := by simpa using List.find?_some hfind
      obtain ⟨_, hroot⟩ := hs.sound.roots epoch hmem i hend
      have hlen : l.entries.length = n := by rw [hn, hs.represents.count]
      -- the attached oplog fields are no part of what is published
      have hattach : ∀ (e : Epoch), (range.elim e e.attach).startIndex = e.startIndex ∧
          (range.elim e e.attach).rootHex = e.rootHex ∧ (range.elim e e.attach).epochNumber = e.epochNumber := by
        intro e
        cases range <;> exact ⟨rfl, rfl, rfl⟩
      obtain ⟨hstart, hroot', hnumber'⟩ := hattach epoch
      have hbatch : extractEpochBatch P (fileText P ls) epoch.startIndex i = batchText P (eventsOf ls) epoch i :=
        extractEpochBatch_file hl hs.filed.written _ _
      have hne := hs.batch_ne_nil hl hmem hend
      simp only [publishEpoch, hstart, hroot', hnumber', hbatch, hne, if_false, hroot, Option.getD_some, hnumber]
      have hold : ∀ (k : Nat) entry epoch', l.entries[k]? = some entry → s.epochs.earlier[k]? = some epoch' →
          Published P encode (eventsOf ls) (Function.update s.ipfs cid (some (encode (batchText P (eventsOf ls) epoch i))))
            epoch' entry := by
        intro k entry epoch' hk hk'
        obtain ⟨hr, cid', hcid', hb'⟩ := hs.published k entry epoch' hk hk'
        refine ⟨hr, cid', hcid', fun j hj => ?_⟩
        have hne' : cid' ≠ cid := by
          rintro rfl
          rw [hb' j hj] at hfresh
          cases hfresh
        rw [Function.update_of_ne hne']
        exact hb' j hj
      have hdecode : Bytes.hexDecode (rootHex P (s.service.world.log.tree.leaves.take (i + 1))).toList = some
          (toBytesBe ((⟨s.service.world.log.tree.leaves.take (i + 1)⟩ : AuditMerkleTree 20).root P)) := by
        simp [rootHex, frToHex, Bytes.hexDecode_hexEncode]
      rcases commitEpoch_represents hs.represents hdecode with hrep | ⟨e, l', heroot, hemeta, hentries, hrep⟩
      · exact ⟨l, hs.filed, hs.sound, hrep, hs.nonempty, hs.count, hold⟩
      · refine ⟨l', hs.filed, hs.sound, hrep, hs.nonempty, ?_, ?_⟩
        · have hlt := (List.getElem?_eq_some_iff.1 hat).1
          rw [hentries, List.length_append, hlen]
          exact hlt
        · intro k entry epoch' hk hk'
          rw [hentries] at hk
          rcases CounterLog.getElem?_concat.1 hk with hk | ⟨rfl, rfl⟩
          · exact hold k entry epoch' hk hk'
          · rw [hlen] at hk'
            obtain rfl : epoch = epoch' := Option.some.inj (hat.symm.trans hk')
            refine ⟨?_, cid, ?_, fun j hj => ?_⟩
            · rw [hroot, heroot]
              rfl
            · rw [hemeta]
              exact extractCid_epochMetadata n hvisible
            · obtain rfl : i = j := Option.some.inj (hend.symm.trans hj)
              simp

/-! ## Runs -/

theorem Publishing.step (hl : P.LawfulLines) (hs : Publishing P dir encode key s ls l) {st : PublicationStep} (hst : st.Regular P key s) :
    ∃ ls' l', Publishing P dir encode key (stepPublication P dir h kp encode key s st) ls' l' := by
  cases st with
  | log st =>
    obtain ⟨ls', hs'⟩ := hs.log hl hst
    exact ⟨ls', l, hs'⟩
  | recordEvent index io =>
    exact ⟨ls, l, hs.epochs rfl ((sound_step (.recordEvent index io) hs.sound).2 hst)
      (endsOne_recordEvent hs.sound.bounds.isOpen io index _)⟩
  | closeCurrentEpoch io =>
    exact ⟨ls, l, hs.epochs rfl ((sound_step (.closeCurrentEpoch io) hs.sound).2 trivial)
      (endsOne_closeCurrentEpoch hs.sound.bounds.isOpen io _)⟩
  | publish n range cid submission =>
    obtain ⟨l', hs'⟩ := hs.publish hl hst
    exact ⟨ls, l', hs'⟩

/-- A new log with a new epoch manager, over a contract without roots. -/
def Publication.start (P : Prims) (key : Option Bytes32) (dir : String) (config : EpochConfig) (path : Option String)
    (files : String → EpochFile) (chain : Storage) (ipfs : String → Option ByteArray) : Publication :=
  ⟨Service.start (openNew P key dir) config path files, chain, ipfs⟩

theorem publishing_start (hchain : Represents chain .nil) :
    Publishing P dir encode key (Publication.start P key dir config path files chain ipfs) [] .nil := by
  have hopen : openNew P key dir = ((World.start key emptyDisk).opening {} dir).opened dir := by
    rw [openNew, exec_open_new rfl]
  have hh : HistoricalRoots P (openNew P key dir).log := by
    refine aligned_iff.1 ?_
    rw [hopen]
    rfl
  exact ⟨filed_open, sound_start hh config path files, hchain, fun e he => absurd he List.not_mem_nil, Nat.le_refl _,
    fun k entry epoch hk => absurd hk (by simp [RootLog.nil])⟩

/-- **Regular runs**: each entry of the root log has the root of its epoch and names its batch. -/
theorem publishing_run (hl : P.LawfulLines) (hs : Publishing P dir encode key s ls l) (hg : Runs.Guarded (stepPublication P dir h kp encode key) (PublicationStep.Regular P key) s steps) :
    ∃ ls' l', Publishing P dir encode key (Runs.run (stepPublication P dir h kp encode key) s steps) ls' l' := by
  refine Runs.run_inv (I := fun s => ∃ ls l, Publishing P dir encode key s ls l) ?_ hg ⟨ls, l, hs⟩
  rintro s st hst ⟨ls, l, hs⟩
  exact hs.step hl hst

end

end Audit
