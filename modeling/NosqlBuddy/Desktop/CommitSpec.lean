import NosqlBuddy.Audit.OperatorSpec
import NosqlBuddy.Audit.Transparency
import NosqlBuddy.Desktop.Commits

/-!
# What a commit does

`commitLatest_outcome`: a call of `commit_latest_epoch_root` appends one entry to the root log or none, also where it
submits twice, because the contract refuses a root it has; a call that returns appended one.
`Anchoring` is the state of every run of the desktop app: the epochs lie end to end, each holds the root after its last
leaf, and the marked ones carry the hash of the transaction that committed their root.
-/

namespace Desktop
open Audit Mutation Tiling Contract

/-! ## Outcomes -/

/-- The contract has one entry more, with the root and some metadata of `M`. -/
structure Appended (l : RootLog) (root : String) (M : String → Prop) (entry : RootEntry)
    (chain : Storage) : Prop where
  root : Bytes.hexDecode root.toList = some entry.root
  metadata : M entry.metadata
  represents : ∃ l' : RootLog, l'.entries = l.entries ++ [entry] ∧ Represents chain l'

/-- How a commit ends. -/
inductive CommitOutcome (txHash : Nat → String) (l : RootLog) (root : String) (M : String → Prop) :
    Except AppError CommitResult → Storage → Prop
  | unchanged {e : AppError} {chain : Storage} (hr : Represents chain l) :
    CommitOutcome txHash l root M (.error e) chain
  /-- the ledger has the transaction, the caller does not know it -/
  | unconfirmed {e : AppError} {chain : Storage} {entry : RootEntry} (ha : Appended l root M entry chain) :
    CommitOutcome txHash l root M (.error e) chain
  | confirmed {r : CommitResult} {chain : Storage} {entry : RootEntry} (ha : Appended l root M entry chain)
    (htx : r.txHash = txHash (l.entries.length + 1)) : CommitOutcome txHash l root M (.ok r) chain

section
variable {P : Prims} {display : Oplog.Bson → String} {h : Host} {txHash : Nat → String} {signer : Signer}
  {cfg : ChainConfig} {replies : CommitReplies} {root : String} {M : String → Prop}

theorem submitInvoke_ok {call : UInt64 → Invocation} {submission : Submission} {chain : Storage}
    (hok : (submitInvoke h call submission chain).1 = .ok ()) :
    ∃ timestamp, invoke h (call timestamp) chain = .ok (submitInvoke h call submission chain).2 := by
  cases submission with
  | failed e => cases hok
  | unconfirmed timestamp e => cases hok
  | answered timestamp refusal =>
    simp only [submitInvoke] at hok ⊢
    cases hinv : invoke h (call timestamp) chain with
    | ok chain' => exact ⟨timestamp, hinv⟩
    | error f => rw [hinv] at hok; cases hok

/-- A submitted call that commits the root appends its entry or does nothing; the first is certain when it returns. -/
theorem submitInvoke_appends {l : RootLog} {chain : Storage} (hr : Represents chain l)
    {bytes : List UInt8} (hroot : Bytes.hexDecode root.toList = some bytes) {metadata : String} (hm : M metadata)
    {call : Call}
    (hcall : call = .commitRoot bytes metadata ∨ ∃ oplog, call = .commitRootWithOplog bytes oplog metadata)
    (submission : Submission) :
    let out := submitInvoke h (fun timestamp => ⟨⟨[signer.address], timestamp⟩, call⟩) submission chain
    (Represents out.2 l ∧ out.1 ≠ .ok ()) ∨ ∃ entry, Appended l root M entry out.2 := by
  intro out
  have happends : ∀ {timestamp : UInt64} {chain' : Storage},
      invoke h ⟨⟨[signer.address], timestamp⟩, call⟩ chain = .ok chain' → ∃ entry, Appended l root M entry chain' := by
    intro timestamp chain' hok
    obtain ⟨entry, l', he, hmeta, hl', hr'⟩ := hr.commit hcall hok
    exact ⟨entry, by rw [he]; exact hroot, by rw [hmeta]; exact hm, l', hl', hr'⟩
  by_cases hok : out.1 = .ok ()
  · obtain ⟨timestamp, hinv⟩ := submitInvoke_ok hok
    exact .inr (happends hinv)
  · rcases submitInvoke_chain (h := h) (fun timestamp => ⟨⟨[signer.address], timestamp⟩, call⟩) submission chain with
      hsame | ⟨timestamp, hinv⟩
    · exact .inl ⟨by rw [hsame]; exact hr, hok⟩
    · exact .inr (happends hinv)

theorem commitRootOnly_outcome {s : Desk} {l : RootLog} (hr : Represents s.chain l) {metadata : String}
    (hm : M metadata) : CommitOutcome txHash l root M (commitRootOnly h txHash signer replies root metadata s).1
      (commitRootOnly h txHash signer replies root metadata s).2.chain := by
  unfold commitRootOnly commitRootNative
  cases hroot : Bytes.hexDecode root.toList with
  | none => exact .unchanged hr
  | some bytes =>
    simp only
    have happ := @submitInvoke_appends h signer root M l s.chain hr bytes hroot metadata hm _ (.inl rfl) replies.rootOnly
    generalize submitInvoke h _ replies.rootOnly s.chain = out at happ ⊢
    obtain ⟨e | ⟨⟩, chain'⟩ := out
    · rcases happ with ⟨hr', _⟩ | ⟨entry, ha⟩
      · exact .unchanged hr'
      · exact .unconfirmed ha
    · rcases happ with ⟨_, hne⟩ | ⟨entry, ha⟩
      · exact absurd rfl hne
      · exact .confirmed ha (by rw [hr.count])

/-- The contract has the root once: the second submission of a call cannot append after the first did. -/
theorem commitRootOnly_after {s : Desk} {l : RootLog} {entry : RootEntry}
    (ha : Appended l root M entry s.chain) {metadata : String} (hm : M metadata) :
    CommitOutcome txHash l root M (commitRootOnly h txHash signer replies root metadata s).1
      (commitRootOnly h txHash signer replies root metadata s).2.chain := by
  obtain ⟨l', hl', hr'⟩ := ha.represents
  have hout := @commitRootOnly_outcome h txHash signer replies root M s l' hr' metadata hm
  have htwice : ∀ {chain : Storage} {entry' : RootEntry}, ¬ Appended l' root M entry' chain := by
    rintro chain entry' ⟨hroot', _, l'', hl'', _⟩
    have hsame : entry.root = entry'.root := Option.some.inj (ha.root.symm.trans hroot')
    have hfirst : l''.entries[l.entries.length]? = some entry := by simp [hl'', hl']
    have hsecond : l''.entries[l.entries.length + 1]? = some entry' := by simp [hl'', hl']
    have := l''.distinct _ _ _ _ hfirst hsecond hsame
    omega
  revert hout
  generalize (commitRootOnly h txHash signer replies root metadata s).1 = r
  generalize (commitRootOnly h txHash signer replies root metadata s).2.chain = chain
  intro hout
  cases hout with
  | unchanged hr => exact .unconfirmed ⟨ha.root, ha.metadata, l', hl', hr⟩
  | unconfirmed ha' => exact absurd ha' htwice
  | confirmed ha' => exact absurd ha' htwice

theorem commitWithOplog_outcome {s : Desk} {l : RootLog} (hr : Represents s.chain l) {metadata : String}
    (hm : M metadata) (epoch : Epoch) :
    CommitOutcome txHash l root M (commitWithOplog h txHash signer replies epoch root metadata s).1
      (commitWithOplog h txHash signer replies epoch root metadata s).2.chain := by
  unfold commitWithOplog commitRootWithOplogNative
  cases hroot : Bytes.hexDecode root.toList with
  | none =>
    simp only
    split
    · exact commitRootOnly_outcome hr hm
    · exact .unchanged hr
  | some bytes =>
    cases Bytes.hexDecode (epoch.oplogMerkleRootHex.getD "").toList with
    | none =>
      simp only
      split
      · exact commitRootOnly_outcome hr hm
      · exact .unchanged hr
    | some oplogRoot =>
      simp only
      have happ := @submitInvoke_appends h signer root M l s.chain hr bytes hroot metadata hm _
        (.inr ⟨⟨oplogRoot, ((epoch.oplogStartTs.map OplogTimestamp.packU64).getD 0),
          ((epoch.oplogEndTs.map OplogTimestamp.packU64).getD 0), (UInt64.ofNat (epoch.oplogEntryCount.getD 0))⟩, rfl⟩)
        replies.withOplog
      generalize submitInvoke h _ replies.withOplog s.chain = out at happ ⊢
      obtain ⟨e | ⟨⟩, chain'⟩ := out
      · simp only
        rcases happ with ⟨hr', _⟩ | ⟨entry, ha⟩
        · split
          · exact @commitRootOnly_outcome h txHash signer replies root M { s with chain := chain' } l hr' metadata hm
          · exact .unchanged hr'
        · split
          · exact @commitRootOnly_after h txHash signer replies root M { s with chain := chain' } l entry ha metadata hm
          · exact .unconfirmed ha
      · rcases happ with ⟨_, hne⟩ | ⟨entry, ha⟩
        · exact absurd rfl hne
        · exact .confirmed ha (by rw [hr.count])

/-- **The outcome of a call**: what is appended has the root of the target and the metadata made before the submission. -/
theorem commitLatest_outcome {s : Desk} {l : RootLog} (hr : Represents s.chain l)
    (metadata connectionId : Option String) :
    CommitOutcome txHash l (rootToCommit P s.log (targetEpoch s.epochs))
      (fun m => prepareCommit P signer cfg replies metadata s.log (rootToCommit P s.log (targetEpoch s.epochs)) = .ok m)
      (commitLatestEpochRoot P display h txHash signer cfg metadata connectionId replies s).1
      (commitLatestEpochRoot P display h txHash signer cfg metadata connectionId replies s).2.chain := by
  unfold commitLatestEpochRoot
  simp only
  generalize rootToCommit P s.log (targetEpoch s.epochs) = root
  generalize prepareCommit P signer cfg replies metadata s.log root = prepared
  cases prepared with
  | error e => exact .unchanged hr
  | ok m =>
    simp only
    cases targetEpoch s.epochs with
    | none => exact commitRootOnly_outcome hr rfl
    | some epoch =>
      cases connectionId with
      | none => exact commitRootOnly_outcome hr rfl
      | some id =>
        simp only
        generalize epochWithOplog P display replies epoch s.service.store = out
        obtain ⟨e | epoch', store⟩ := out
        · exact .unchanged hr
        · simp only
          exact commitWithOplog_outcome (M := fun m' => Except.ok m = .ok m') (s := s.withStore store) hr rfl epoch'

theorem commitRootOnly_service (metadata : String) (s : Desk) :
    (commitRootOnly h txHash signer replies root metadata s).2.service = s.service := by
  unfold commitRootOnly
  split <;> rfl

theorem commitWithOplog_service (epoch : Epoch) (metadata : String) (s : Desk) :
    (commitWithOplog h txHash signer replies epoch root metadata s).2.service = s.service := by
  unfold commitWithOplog
  split
  · rfl
  · split
    · exact commitRootOnly_service metadata _
    · rfl

end

/-! ## Changed epochs -/

/-- What the operations after the sealing leave alone. -/
def Epoch.frame (e : Epoch) : Nat × Nat × Option Nat × Option String := (e.epochNumber, e.startIndex, e.endIndex, e.rootHex)

/-- The root, and what only `mark_committed` changes. -/
def Epoch.mark (e : Epoch) : Option String × Bool × Option String := (e.rootHex, e.committed, e.txHash)

/-- Two lists that show the same. -/
def SameUnder {α : Type} (g : Epoch → α) (es es' : EpochList) : Prop :=
  es'.earlier.map g = es.earlier.map g ∧ g es'.last = g es.last

theorem SameUnder.refl {α : Type} (g : Epoch → α) (es : EpochList) : SameUnder g es es := ⟨rfl, rfl⟩

theorem SameUnder.length_eq {α : Type} {g : Epoch → α} {es es' : EpochList} (h : SameUnder g es es') :
    es'.earlier.length = es.earlier.length := by
  simpa using congrArg List.length h.1

theorem SameUnder.comp {α β : Type} {g : Epoch → α} {es es' : EpochList} (h : SameUnder g es es') (f : α → β) :
    es'.earlier.map (fun e => f (g e)) = es.earlier.map fun e => f (g e) := by
  have hmap := congrArg (List.map f) h.1
  rwa [List.map_map, List.map_map] at hmap

theorem SameUnder.getElem {α : Type} {g : Epoch → α} {es es' : EpochList} (h : SameUnder g es es') {k : Nat} {e : Epoch}
    (he : es.earlier[k]? = some e) : ∃ e', es'.earlier[k]? = some e' ∧ g e' = g e := by
  have hk := congrArg (fun l => l[k]?) h.1
  simp only [List.getElem?_map, he, Option.map_some] at hk
  exact Option.map_eq_some_iff.1 hk

theorem SameUnder.at {α : Type} {g : Epoch → α} {es es' : EpochList} (h : SameUnder g es es') {k : Nat} {e' : Epoch}
    (he' : es'.earlier[k]? = some e') : ∃ e, es.earlier[k]? = some e ∧ g e' = g e := by
  have hk := congrArg (fun l => l[k]?) h.1
  simp only [List.getElem?_map, he', Option.map_some] at hk
  obtain ⟨e, he, hg⟩ := Option.map_eq_some_iff.1 hk.symm
  exact ⟨e, he, hg.symm⟩

theorem map_updateFirst {α : Type} {g : Epoch → α} {f : Epoch → Epoch} (hf : ∀ e, g (f e) = g e) (n : Nat) :
    ∀ es : List Epoch, (EpochList.updateFirst n f es).map g = es.map g
  | [] => rfl
  | e :: es => by
    rw [EpochList.updateFirst]
    split
    · simp [hf]
    · simp [map_updateFirst hf n es]

theorem sameUnder_update {α : Type} {g : Epoch → α} {f : Epoch → Epoch} (hf : ∀ e, g (f e) = g e) (n : Nat)
    (es : EpochList) : SameUnder g es (es.update n f) := by
  unfold EpochList.update
  split
  · exact ⟨map_updateFirst hf n es.earlier, rfl⟩
  · split
    · exact ⟨rfl, hf es.last⟩
    · exact .refl g es

theorem sameUnder_attach {α : Type} {g : Epoch → α} (hg : ∀ r e, g (Epoch.attach r e) = g e) (s : EpochStore) (io : EpochIo)
    (n : Nat) (r : OplogRange) : SameUnder g s.manager.epochs (exec (attachOplogHash io n r) s).2.manager.epochs := by
  unfold attachOplogHash
  rw [exec_bind_ok (exec_get s)]
  cases s.manager.epochs.find n with
  | none => exact .refl _ _
  | some e =>
    simp only
    split
    · exact .refl _ _
    · rw [exec_bind_ok (exec_modify _ _), exec_bind_pure_snd, (keeps_save io).apply]
      exact sameUnder_update (hg r) n _

theorem epochs_markCommitted (s : EpochStore) (io : EpochIo) (n : Nat) (now tx : String) :
    (exec (markCommitted io n now tx) s).2.manager.epochs = s.manager.epochs ∨
      (exec (markCommitted io n now tx) s).2.manager.epochs = s.manager.epochs.update n (Epoch.commit now tx) := by
  unfold markCommitted
  rw [exec_bind_ok (exec_get s)]
  cases s.manager.epochs.find n with
  | none => exact .inl rfl
  | some e =>
    simp only
    rw [exec_bind_ok (exec_modify _ _), (keeps_save io).apply]
    exact .inr rfl

section
variable {P : Prims} {display : Oplog.Bson → String} {h : Host} {txHash : Nat → String} {signer : Signer}
  {cfg : ChainConfig} {replies : CommitReplies}

theorem epochWithOplog_sameUnder {α : Type} {g : Epoch → α} (hg : ∀ r e, g (Epoch.attach r e) = g e) (epoch : Epoch)
    (store : EpochStore) :
    SameUnder g store.manager.epochs (epochWithOplog P display replies epoch store).2.manager.epochs := by
  unfold epochWithOplog
  split
  · exact .refl _ _
  · split
    · exact .refl _ _
    · split
      · exact .refl _ _
      · split
        · exact .refl _ _
        · next range _ =>
          have hattach := sameUnder_attach hg store replies.attachIo epoch.epochNumber range.toOplogRange
          generalize exec (attachOplogHash replies.attachIo epoch.epochNumber range.toOplogRange) store = out at hattach ⊢
          obtain ⟨_ | _, store'⟩ := out
          · exact hattach
          · exact hattach

theorem commitLatest_service {α : Type} {g : Epoch → α} (hg : ∀ r e, g (Epoch.attach r e) = g e)
    (metadata connectionId : Option String) (s : Desk) :
    (commitLatestEpochRoot P display h txHash signer cfg metadata connectionId replies s).2.service.world = s.service.world ∧
      SameUnder g s.epochs (commitLatestEpochRoot P display h txHash signer cfg metadata connectionId replies s).2.epochs := by
  unfold commitLatestEpochRoot
  simp only
  generalize prepareCommit P signer cfg replies metadata s.log _ = prepared
  generalize rootToCommit P s.log _ = root
  cases prepared with
  | error e => exact ⟨rfl, .refl _ _⟩
  | ok m =>
    simp only
    cases targetEpoch s.epochs with
    | none =>
      simp only [Desk.epochs, commitRootOnly_service]
      exact ⟨trivial, .refl _ _⟩
    | some epoch =>
      cases connectionId with
      | none =>
        simp only [Desk.epochs, commitRootOnly_service]
        exact ⟨trivial, .refl _ _⟩
      | some id =>
        simp only
        have hsame := @epochWithOplog_sameUnder P display replies α g hg epoch s.service.store
        generalize epochWithOplog P display replies epoch s.service.store = out at hsame ⊢
        obtain ⟨e | epoch', store⟩ := out
        · exact ⟨rfl, hsame⟩
        · simp only [Desk.epochs, commitWithOplog_service]
          exact ⟨rfl, hsame⟩

end

/-! ## Epochs end to end -/

/-- The closed epochs lie end to end below the first `n` leaves, numbered from 0, and only the last epoch is open. -/
structure Laid (es : EpochList) (n : Nat) : Prop where
  closed : ∀ e ∈ es.earlier, ∃ i, e.endIndex = some i ∧ e.startIndex ≤ i
  last_open : es.last.endIndex = none
  numbers : es.earlier.map (·.epochNumber) = List.range es.earlier.length ∧ es.last.epochNumber = es.earlier.length
  adjacent : Tiles 0 (es.earlier.map Epoch.leafRange) es.last.startIndex
  bounded : es.last.startIndex ≤ n

theorem Laid.isOpen {es : EpochList} {n : Nat} (h : Laid es n) : es.last.isOpen = true := by
  simp [Epoch.isOpen, h.last_open]

theorem Laid.mono {es : EpochList} {n m : Nat} (h : Laid es n) (hle : n ≤ m) : Laid es m :=
  ⟨h.closed, h.last_open, h.numbers, h.adjacent, Nat.le_trans h.bounded hle⟩

theorem Laid.setCount {es : EpochList} {n : Nat} (h : Laid es n) (k : Nat) : Laid (es.setCount k) n :=
  ⟨h.closed, h.last_open, h.numbers, h.adjacent, h.bounded⟩

theorem Laid.closedAt {es : EpochList} {n i : Nat} (h : Laid es n) (hi : es.last.startIndex ≤ i) {root : Option String}
    (hn : ∀ r, root = some r → i < n) : Laid (es.closedAt i root) n := by
  cases root with
  | none => exact h
  | some root =>
    refine ⟨fun e he => ?_, rfl, ?_, ?_, hn root rfl⟩
    · simp only [EpochList.closedAt, EpochList.push, EpochList.toList, List.mem_append, List.mem_singleton] at he
      rcases he with he | rfl
      · exact h.closed e he
      · exact ⟨i, rfl, hi⟩
    · simp [EpochList.closedAt, EpochList.push, EpochList.toList, Epoch.new, Epoch.freeze, h.numbers, List.range_succ]
    · simp only [EpochList.closedAt, EpochList.push, EpochList.toList, List.map_append, List.map_singleton]
      rw [tiles_concat h.adjacent]
      refine ⟨rfl, ?_, rfl⟩
      simp only [Epoch.leafRange, Epoch.freeze, Option.map_some, Option.getD_some]
      omega

theorem Laid.congr {es es' : EpochList} {n : Nat} (h : Laid es n) (hs : SameUnder Epoch.frame es es') : Laid es' n := by
  have hlen := hs.length_eq
  obtain ⟨hnumber, hstart, hend, _⟩ : es'.last.epochNumber = es.last.epochNumber ∧ es'.last.startIndex = es.last.startIndex ∧
      es'.last.endIndex = es.last.endIndex ∧ es'.last.rootHex = es.last.rootHex := by
    simpa [Epoch.frame] using hs.2
  refine ⟨fun e' he' => ?_, hend.trans h.last_open, ⟨?_, by rw [hnumber, hlen]; exact h.numbers.2⟩, ?_, by rw [hstart]; exact h.bounded⟩
  · obtain ⟨k, hk⟩ := List.mem_iff_getElem?.1 he'
    obtain ⟨e, he, hframe⟩ := hs.at hk
    simp only [Epoch.frame, Prod.mk.injEq] at hframe
    rw [hframe.2.1, hframe.2.2.1]
    exact h.closed e (List.mem_of_getElem? he)
  · rw [hlen, ← h.numbers.1]
    exact hs.comp Prod.fst
  · have hranges := hs.comp fun f => ((f.2.1, (f.2.2.1.map (· + 1)).getD f.2.1) : Range Nat)
    rw [hstart]
    exact hranges ▸ h.adjacent

theorem frozenRoots_congr {P : Prims} {log : AuditLog} {es es' : EpochList} (h : FrozenRoots P log es)
    (hs : SameUnder Epoch.frame es es') : FrozenRoots P log es' := by
  intro e' he' i hi
  obtain ⟨k, hk⟩ := List.mem_iff_getElem?.1 he'
  obtain ⟨e, he, hframe⟩ := hs.at hk
  simp only [Epoch.frame, Prod.mk.injEq] at hframe
  rw [hframe.2.2.2]
  exact h e (List.mem_of_getElem? he) i (hframe.2.2.1 ▸ hi)

theorem Laid.number_eq {es : EpochList} {n k : Nat} (h : Laid es n) {e : Epoch} (he : es.earlier[k]? = some e) :
    e.epochNumber = k := by
  have hlt := (List.getElem?_eq_some_iff.1 he).1
  have hrange := congrArg (fun l => l[k]?) h.numbers.1
  simpa [List.getElem?_map, he, List.getElem?_range hlt] using hrange

theorem mem_maxByNumber : ∀ {es : List Epoch} {e : Epoch}, maxByNumber es = some e →
    e ∈ es ∧ ∀ e' ∈ es, e'.epochNumber ≤ e.epochNumber
  | [], _, he => by cases he
  | a :: es, e, he => by
    rw [maxByNumber] at he
    cases hm : maxByNumber es with
    | none =>
      rw [hm] at he
      obtain rfl := Option.some.inj he
      have hnil : es = [] := by
        cases es with
        | nil => rfl
        | cons b bs =>
          rw [maxByNumber] at hm
          split at hm
          · split at hm <;> cases hm
          · cases hm
      simp [hnil]
    | some m =>
      rw [hm] at he
      obtain ⟨hmem, hmax⟩ := mem_maxByNumber hm
      simp only at he
      split at he
      · next hlt =>
        obtain rfl := Option.some.inj he
        refine ⟨List.mem_cons_self, fun e' he' => ?_⟩
        rcases List.mem_cons.1 he' with rfl | he'
        · exact Nat.le_refl _
        · exact Nat.le_trans (hmax e' he') (Nat.le_of_lt hlt)
      · next hlt =>
        obtain rfl := Option.some.inj he
        refine ⟨List.mem_cons_of_mem _ hmem, fun e' he' => ?_⟩
        rcases List.mem_cons.1 he' with rfl | he'
        · omega
        · exact hmax e' he'

theorem Laid.target {es : EpochList} {n : Nat} (h : Laid es n) {e : Epoch} (he : targetEpoch es = some e) :
    es.earlier[e.epochNumber]? = some e ∧ e.committed = false ∧
      ∀ e' ∈ es.earlier, Epoch.waiting e' = true → e'.epochNumber ≤ e.epochNumber := by
  obtain ⟨hmem, hmax⟩ := mem_maxByNumber he
  obtain ⟨hlist, hwaiting⟩ := List.mem_filter.1 hmem
  have hend : e.committed = false ∧ e.endIndex.isSome = true := by
    simp only [Epoch.waiting, Bool.and_eq_true, Bool.not_eq_true'] at hwaiting
    exact hwaiting.1
  have hearlier : e ∈ es.earlier := by
    rcases List.mem_append.1 hlist with hin | hin
    · exact hin
    · rw [List.mem_singleton.1 hin, h.last_open] at hend
      cases hend.2
  obtain ⟨k, hk⟩ := List.mem_iff_getElem?.1 hearlier
  refine ⟨by rw [h.number_eq hk]; exact hk, hend.1, fun e' he' hw => hmax e' ?_⟩
  exact List.mem_filter.2 ⟨List.mem_append_left _ he', hw⟩

/-! ## Marks -/

/-- A root as the epochs spell it. -/
def hexText (bytes : List UInt8) : String := String.ofList (Bytes.hexEncode bytes)

/-- A marked epoch carries the hash of the transaction that committed its root, the others carry none. -/
structure Marked (txHash : Nat → String) (es : EpochList) (l : RootLog) : Prop where
  committed : ∀ e ∈ es.earlier, e.committed = true → ∃ (k : Nat) (entry : RootEntry), l.entries[k]? = some entry ∧
    e.rootHex = some (hexText entry.root) ∧ e.txHash = some (txHash (k + 1))
  waiting : ∀ e ∈ es.earlier, e.committed = false → e.txHash = none
  last : es.last.committed = false ∧ es.last.txHash = none

section
variable {txHash : Nat → String} {es es' : EpochList} {l l' : RootLog}

theorem Marked.mono (h : Marked txHash es l) (hl : l.entries <+: l'.entries) : Marked txHash es l' := by
  refine ⟨fun e he hc => ?_, h.waiting, h.last⟩
  obtain ⟨k, entry, hk, hroot, htx⟩ := h.committed e he hc
  obtain ⟨more, hmore⟩ := hl
  have hlt := (List.getElem?_eq_some_iff.1 hk).1
  exact ⟨k, entry, by rw [← hmore, List.getElem?_append_left hlt]; exact hk, hroot, htx⟩

theorem Marked.congr (h : Marked txHash es l) (hs : SameUnder Epoch.mark es es') : Marked txHash es' l := by
  have hat : ∀ e' ∈ es'.earlier, ∃ e ∈ es.earlier, e'.rootHex = e.rootHex ∧ e'.committed = e.committed ∧ e'.txHash = e.txHash := by
    intro e' he'
    obtain ⟨k, hk⟩ := List.mem_iff_getElem?.1 he'
    obtain ⟨e, he, hmark⟩ := hs.at hk
    simp only [Epoch.mark, Prod.mk.injEq] at hmark
    exact ⟨e, List.mem_of_getElem? he, hmark⟩
  have hlast := hs.2
  simp only [Epoch.mark, Prod.mk.injEq] at hlast
  refine ⟨fun e' he' hc => ?_, fun e' he' hc => ?_, by rw [hlast.2.1, hlast.2.2]; exact h.last⟩
  · obtain ⟨e, he, hroot, hcommitted, htx⟩ := hat e' he'
    rw [hroot, htx]
    exact h.committed e he (hcommitted ▸ hc)
  · obtain ⟨e, he, _, hcommitted, htx⟩ := hat e' he'
    rw [htx]
    exact h.waiting e he (hcommitted ▸ hc)

theorem Marked.closedAt (h : Marked txHash es l) (i : Nat) (root : Option String) : Marked txHash (es.closedAt i root) l := by
  cases root with
  | none => exact h
  | some root =>
    refine ⟨fun e he hc => ?_, fun e he hc => ?_, rfl, rfl⟩
    · simp only [EpochList.closedAt, EpochList.push, EpochList.toList, List.mem_append, List.mem_singleton] at he
      rcases he with he | rfl
      · exact h.committed e he hc
      · exact absurd (h.last.1.symm.trans hc) (by decide)
    · simp only [EpochList.closedAt, EpochList.push, EpochList.toList, List.mem_append, List.mem_singleton] at he
      rcases he with he | rfl
      · exact h.waiting e he hc
      · exact h.last.2

theorem mem_updateFirst {n : Nat} {f : Epoch → Epoch} : ∀ {es : List Epoch} {e' : Epoch}, e' ∈ EpochList.updateFirst n f es →
    e' ∈ es ∨ ∃ e ∈ es, e.epochNumber = n ∧ e' = f e
  | [], _, h => by cases h
  | a :: es, e', h => by
    rw [EpochList.updateFirst] at h
    split at h
    · next ha =>
      rcases List.mem_cons.1 h with rfl | h
      · exact .inr ⟨a, List.mem_cons_self, ha, rfl⟩
      · exact .inl (List.mem_cons_of_mem _ h)
    · rcases List.mem_cons.1 h with rfl | h
      · exact .inl List.mem_cons_self
      · rcases mem_updateFirst h with h | ⟨e, he, hn, rfl⟩
        · exact .inl (List.mem_cons_of_mem _ h)
        · exact .inr ⟨e, List.mem_cons_of_mem _ he, hn, rfl⟩

/-- **A mark** of the epoch whose root entry `k` has. -/
theorem Marked.update (h : Marked txHash es l) {n m : Nat} (hlaid : Laid es m) {e : Epoch} (he : es.earlier[n]? = some e)
    {k : Nat} {entry : RootEntry} (hk : l.entries[k]? = some entry) (hroot : e.rootHex = some (hexText entry.root))
    (hne : txHash (k + 1) ≠ "") (now : String) : Marked txHash (es.update n (Epoch.commit now (txHash (k + 1)))) l := by
  have hany : es.earlier.any (·.epochNumber = n) = true := by
    rw [List.any_eq_true]
    exact ⟨e, List.mem_of_getElem? he, by simpa using hlaid.number_eq he⟩
  have honly : ∀ e' ∈ es.earlier, e'.epochNumber = n → e' = e := by
    intro e' he' hn
    obtain ⟨j, hj⟩ := List.mem_iff_getElem?.1 he'
    obtain rfl : j = n := (hlaid.number_eq hj).symm.trans hn
    exact Option.some.inj (hj.symm.trans he)
  have hempty : (txHash (k + 1)).isEmpty = false := by simpa [String.isEmpty_iff] using hne
  unfold EpochList.update
  rw [if_pos hany]
  refine ⟨fun e' he' hc => ?_, fun e' he' hc => ?_, h.last⟩
  · rcases mem_updateFirst he' with he' | ⟨e0, he0, hn, rfl⟩
    · exact h.committed e' he' hc
    · obtain rfl := honly e0 he0 hn
      exact ⟨k, entry, hk, hroot, by simp [Epoch.commit, hempty]⟩
  · rcases mem_updateFirst he' with he' | ⟨e0, he0, hn, rfl⟩
    · exact h.waiting e' he' hc
    · exact absurd hc (by simp [Epoch.commit])

end

/-! ## The state of a run -/

structure Anchoring (P : Prims) (txHash : Nat → String) (s : Desk) (l : RootLog) : Prop where
  history : HistoricalRoots P s.log
  laid : Laid s.epochs s.log.leafCount
  roots : FrozenRoots P s.log s.epochs
  marked : Marked txHash s.epochs l
  represents : Represents s.chain l

section
variable {P : Prims} {display : Oplog.Bson → String} {h : Host} {txHash : Nat → String} {signer : Signer}
  {cfg : ChainConfig} {s : Desk} {l : RootLog}

theorem Anchoring.withWorld (hs : Anchoring P txHash s l) {w : World} (hw : HistoricalRoots P w.log)
    (hle : s.log.leafCount ≤ w.log.leafCount) (hroots : FrozenRoots P w.log s.epochs) :
    Anchoring P txHash (s.withWorld w) l := ⟨hw, hs.laid.mono hle, hroots, hs.marked, hs.represents⟩

theorem Anchoring.sameRoots (hs : Anchoring P txHash s l) {w : World} (hw : w.roots = s.service.world.roots) :
    Anchoring P txHash (s.withWorld w) l := by
  have hlog : w.log.tree = s.log.tree := congrArg Prod.fst hw
  refine hs.withWorld (aligned_iff.1 ((aligned_of_roots hw).2 (aligned_iff.2 hs.history))) ?_ ?_
  · rw [AuditLog.leafCount, AuditLog.leafCount, hlog]
  · intro e he i hi
    rw [AuditLog.leafCount, hlog]
    exact hs.roots e he i hi

theorem Anchoring.closedAt (hs : Anchoring P txHash s l) {store : EpochStore} {k i : Nat}
    (hi : s.epochs.last.startIndex ≤ i)
    (hes : store.manager.epochs = (s.epochs.setCount k).closedAt i (s.log.rootAfterAt i)) :
    Anchoring P txHash (s.withStore store) l := by
  have hes' : (s.withStore store).epochs = (s.epochs.setCount k).closedAt i (s.log.rootAfterAt i) := hes
  refine ⟨hs.history, ?_, ?_, ?_, hs.represents⟩
  · rw [hes']
    refine (hs.laid.setCount k).closedAt hi fun r hr => ?_
    have hroot := hs.history i
    rw [hr] at hroot
    by_contra hge
    rw [if_neg hge] at hroot
    cases hroot
  · rw [hes']
    exact FrozenRoots.closedAt (frozenRoots_setCount.2 hs.roots) hs.history i
  · rw [hes']
    have hcount : Marked txHash (s.epochs.setCount k) l := ⟨hs.marked.committed, hs.marked.waiting, hs.marked.last⟩
    exact hcount.closedAt i _

theorem Anchoring.setCount (hs : Anchoring P txHash s l) {store : EpochStore} {k : Nat}
    (hes : store.manager.epochs = s.epochs.setCount k) : Anchoring P txHash (s.withStore store) l := by
  have hes' : (s.withStore store).epochs = s.epochs.setCount k := hes
  refine ⟨hs.history, ?_, ?_, ?_, hs.represents⟩
  · rw [hes']
    exact hs.laid.setCount k
  · rw [hes']
    exact hs.roots
  · rw [hes']
    exact ⟨hs.marked.committed, hs.marked.waiting, hs.marked.last⟩

theorem Anchoring.recordEvent (hs : Anchoring P txHash s l) (io : EpochIo) {i : Nat} (hi : s.epochs.last.startIndex ≤ i) :
    Anchoring P txHash (s.withStore (exec (recordEvent io i s.log) s.service.store).2) l := by
  have hes := @epochs_recordEvent s.service.store io s.log hs.laid.isOpen i
  split at hes
  · exact hs.closedAt hi hes
  · exact hs.setCount hes

theorem Anchoring.closeCurrentEpoch (hs : Anchoring P txHash s l) (io : EpochIo) :
    Anchoring P txHash (s.withStore (exec (closeCurrentEpoch io s.log) s.service.store).2) l := by
  have hes := @epochs_closeCurrentEpoch s.service.store io s.log hs.laid.isOpen
  split at hes
  · exact hs.setCount (k := s.epochs.last.eventCount) hes
  · refine hs.closedAt (k := s.epochs.last.eventCount) ?_ hes
    show s.epochs.last.startIndex ≤ s.epochs.last.startIndex + s.epochs.last.eventCount - 1
    have : s.epochs.last.eventCount ≠ 0 := by assumption
    omega

/-- **A record call**, counted in the open epoch where it returns. -/
theorem Anchoring.record (hs : Anchoring P txHash s l) (call : RecordCall) (io : Io) (epochIo : EpochIo) :
    Anchoring P txHash (recordEventCmd P call io epochIo s) l := by
  have hworld : Anchoring P txHash (s.withWorld (exec (call.run P io) s.service.world).2) l := by
    obtain ⟨k, _, hleaves⟩ := counts_run (P := P) call io s.service.world
    refine hs.withWorld (historicalRoots_run hs.history call io) ?_ (hs.roots.run call io)
    show s.service.world.log.leafCount ≤ _
    omega
  unfold recordEventCmd
  cases hrun : exec (call.run P io) s.service.world with
  | mk result w =>
    rw [hrun] at hworld
    cases result with
    | error e => exact hworld
    | ok i =>
      refine hworld.recordEvent epochIo ?_
      rw [index_run hrun]
      exact hs.laid.bounded

theorem hexText_of_decode {f : Fr} {bytes : List UInt8} (hd : Bytes.hexDecode (frToHex f).toList = some bytes) :
    hexText bytes = frToHex f := by
  rw [frToHex, String.toList_ofList, Bytes.hexDecode_hexEncode] at hd
  rw [hexText, frToHex, Option.some.inj hd]

theorem Anchoring.target_root (hs : Anchoring P txHash s l) {epoch : Epoch} (htarget : targetEpoch s.epochs = some epoch)
    {bytes : List UInt8} (hd : Bytes.hexDecode (rootToCommit P s.log (targetEpoch s.epochs)).toList = some bytes) :
    epoch.rootHex = some (hexText bytes) := by
  obtain ⟨hat, _⟩ := hs.laid.target htarget
  have hmem := List.mem_of_getElem? hat
  obtain ⟨i, hi, _⟩ := hs.laid.closed epoch hmem
  obtain ⟨_, hroot⟩ := hs.roots epoch hmem i hi
  rw [htarget, rootToCommit, Option.bind_some, hroot, Option.getD_some] at hd
  rw [hroot, hexText_of_decode hd]
  rfl

theorem Anchoring.markCommitted (hs : Anchoring P txHash s l) {n k : Nat} {e : Epoch} (he : s.epochs.earlier[n]? = some e)
    {entry : RootEntry} (hk : l.entries[k]? = some entry) (hroot : e.rootHex = some (hexText entry.root))
    (hne : txHash (k + 1) ≠ "") (io : EpochIo) (now : String) :
    Anchoring P txHash (s.withStore (exec (markCommitted io n now (txHash (k + 1))) s.service.store).2) l := by
  have hmarks := epochs_markCommitted s.service.store io n now (txHash (k + 1))
  generalize (exec (Audit.markCommitted io n now (txHash (k + 1))) s.service.store).2 = store at hmarks
  have hes : (s.withStore store).epochs = s.epochs ∨ (s.withStore store).epochs = s.epochs.update n (Epoch.commit now (txHash (k + 1))) :=
    hmarks
  rcases hes with hes | hes
  · exact ⟨hs.history, by rw [hes]; exact hs.laid, by rw [hes]; exact hs.roots, by rw [hes]; exact hs.marked, hs.represents⟩
  · have hframe : SameUnder Epoch.frame s.epochs (s.epochs.update n (Epoch.commit now (txHash (k + 1)))) :=
      sameUnder_update (g := Epoch.frame) (f := Epoch.commit now (txHash (k + 1))) (fun _ => rfl) n s.epochs
    refine ⟨hs.history, ?_, ?_, ?_, hs.represents⟩
    · rw [hes]
      exact hs.laid.congr hframe
    · rw [hes]
      exact frozenRoots_congr hs.roots hframe
    · rw [hes]
      exact hs.marked.update hs.laid he hk hroot hne now

/-- **A commit**, and the mark after it. -/
theorem Anchoring.commit (hs : Anchoring P txHash s l) (hne : ∀ n, txHash n ≠ "") (metadata connectionId : Option String)
    (replies : CommitReplies) (mark : Option MarkReply) : ∃ l' : RootLog, l.entries <+: l'.entries ∧
      Anchoring P txHash (commitCmd P display h txHash signer cfg metadata connectionId replies mark s) l' := by
  have hout := @commitLatest_outcome P display h txHash signer cfg replies s l hs.represents metadata connectionId
  obtain ⟨hworld, hframe⟩ := @commitLatest_service P display h txHash signer cfg replies _ Epoch.frame (fun _ _ => rfl)
    metadata connectionId s
  obtain ⟨_, hmark⟩ := @commitLatest_service P display h txHash signer cfg replies _ Epoch.mark (fun _ _ => rfl)
    metadata connectionId s
  unfold commitCmd
  generalize commitLatestEpochRoot P display h txHash signer cfg metadata connectionId replies s = out at hout hworld hframe hmark ⊢
  obtain ⟨result, s'⟩ := out
  simp only at hout hworld hframe hmark
  have hlog : s'.log = s.log := congrArg World.log hworld
  have hstate : ∀ {l' : RootLog}, l.entries <+: l'.entries → Represents s'.chain l' →
      Anchoring P txHash s' l' := by
    intro l' hl' hr'
    exact ⟨by rw [hlog]; exact hs.history, by rw [hlog]; exact hs.laid.congr hframe,
      by rw [hlog]; exact frozenRoots_congr hs.roots hframe, (hs.marked.mono hl').congr hmark, hr'⟩
  have hext : ∀ {entry : RootEntry} {l' : RootLog}, l'.entries = l.entries ++ [entry] →
      l.entries <+: l'.entries := fun hl' => hl' ▸ List.prefix_append _ _
  cases hout with
  | unchanged hr' => exact ⟨l, List.prefix_rfl, hstate List.prefix_rfl hr'⟩
  | unconfirmed ha =>
    obtain ⟨l', hl', hr'⟩ := ha.represents
    exact ⟨l', hext hl', hstate (hext hl') hr'⟩
  | @confirmed r chain entry ha htx =>
    obtain ⟨l', hl', hr'⟩ := ha.represents
    have hs' := hstate (hext hl') hr'
    refine ⟨l', hext hl', ?_⟩
    cases htarget : targetEpoch s.epochs with
    | none => exact hs'
    | some epoch =>
      cases mark with
      | none => exact hs'
      | some m =>
        simp only [htx]
        obtain ⟨hat, _⟩ := hs.laid.target htarget
        have hentry : l'.entries[l.entries.length]? = some entry := by simp [hl']
        obtain ⟨e', he', hframe'⟩ := hframe.getElem hat
        have hroot : e'.rootHex = some (hexText entry.root) := by
          simp only [Epoch.frame, Prod.mk.injEq] at hframe'
          rw [hframe'.2.2.2]
          exact hs.target_root htarget ha.root
        exact hs'.markCommitted he' hentry hroot (hne _) m.io m.now

/-- **One step** of the desktop app. -/
theorem Anchoring.step (hs : Anchoring P txHash s l) (hne : ∀ n, txHash n ≠ "") (a : DeskStep) :
    ∃ l' : RootLog, l.entries <+: l'.entries ∧ Anchoring P txHash (stepDesk P display h txHash signer cfg s a) l' := by
  cases a with
  | record call io epochIo => exact ⟨l, List.prefix_rfl, hs.record call io epochIo⟩
  | setLegalHold dep db hold io => exact ⟨l, List.prefix_rfl, hs.sameRoots (keeps_setLegalHold io dep db hold _)⟩
  | pruneDomain now dep db io => exact ⟨l, List.prefix_rfl, hs.sameRoots (keeps_pruneDomain io now dep db _)⟩
  | closeEpoch io => exact ⟨l, List.prefix_rfl, hs.closeCurrentEpoch io⟩
  | commit metadata connectionId replies mark => exact hs.commit hne metadata connectionId replies mark

/-- A new log and a new manager, beside a contract. -/
def Desk.start (P : Prims) (key : Option Bytes32) (dir : String) (config : EpochConfig) (path : Option String)
    (files : String → EpochFile) (chain : Storage) : Desk :=
  ⟨Service.start (openNew P key dir) config path files, chain⟩

theorem anchoring_start {key : Option Bytes32} {dir : String} {config : EpochConfig} {path : Option String}
    {files : String → EpochFile} {chain : Storage} (hr : Represents chain l) :
    Anchoring P txHash (Desk.start P key dir config path files chain) l where
  history := aligned_iff.1 aligned_openNew
  laid := ⟨fun _ he => absurd he List.not_mem_nil, rfl, ⟨rfl, rfl⟩, rfl, Nat.zero_le _⟩
  roots := fun _ he => absurd he List.not_mem_nil
  marked := ⟨fun _ he => absurd he List.not_mem_nil, fun _ he => absurd he List.not_mem_nil, rfl, rfl⟩
  represents := hr

/-- **The state of every run.** -/
theorem anchoring_run (hne : ∀ n, txHash n ≠ "") {key : Option Bytes32} {dir : String} {config : EpochConfig}
    {path : Option String} {files : String → EpochFile} {chain : Storage} (hr : Represents chain l)
    (steps : List DeskStep) : ∃ l' : RootLog, l.entries <+: l'.entries ∧ Anchoring P txHash
      (Runs.run (stepDesk P display h txHash signer cfg) (Desk.start P key dir config path files chain) steps) l' := by
  induction steps using List.reverseRecOn with
  | nil => exact ⟨l, List.prefix_rfl, anchoring_start hr⟩
  | append_singleton steps a ih =>
    obtain ⟨l1, hl1, hs⟩ := ih
    obtain ⟨l2, hl2, hs'⟩ := @Anchoring.step P display h txHash signer cfg _ _ hs hne a
    rw [Runs.run_snoc]
    exact ⟨l2, hl1.trans hl2, hs'⟩

/-! ## Steps that go through -/

theorem recordEventCmd_ok {call : RecordCall} {e : Entry} {dir : String} (hp : s.log.persistence = some dir)
    (hentry : call.entry P s.log.leafKey = some e) :
    (recordEventCmd P call {} {} s).log = (s.log.push P e).1 ∧ (recordEventCmd P call {} {} s).chain = s.chain ∧
      (recordEventCmd P call {} {} s).epochs =
        (exec (recordEvent {} s.log.leafCount (s.log.push P e).1) s.service.store).2.manager.epochs := by
  have hrun : exec (call.run P {}) s.service.world = exec (recordInner P {} e) s.service.world := by
    have hentry' : call.entry P s.service.world.log.leafKey = some e := hentry
    rw [exec_run, hentry']
  have hlog : (exec (call.run P {}) s.service.world).2.log = (s.log.push P e).1 := by
    rw [hrun]
    exact log_recordInner {} e s.service.world
  have hok : (exec (call.run P {}) s.service.world).1 = .ok s.log.leafCount := by
    rw [hrun, @recordInner_ok P {} e s.service.world dir hp rfl rfl]
    rfl
  unfold recordEventCmd
  generalize exec (call.run P {}) s.service.world = out at hlog hok
  obtain ⟨result, w⟩ := out
  simp only at hlog hok
  subst hok
  simp only
  refine ⟨hlog, rfl, ?_⟩
  rw [← hlog]
  rfl

/-- The settings of a commit that nothing outside refuses. -/
structure Accepted (replies : CommitReplies) (signer : Signer) (chain : Storage) (timestamp : UInt64) : Prop where
  preflight : replies.admin = .ok none
  guard : replies.currentRoot = .ok none
  answered : ∃ refusal, replies.rootOnly = .answered timestamp refusal
  admin : chain.admin = some signer.address
  bound : chain.seqOr0 + 1 < 2 ^ 64

/-- **A commit that goes through** appends the root of the target with the metadata of the log, and marks the target. -/
theorem Anchoring.commit_accepted (hs : Anchoring P txHash s l) {replies : CommitReplies} {timestamp : UInt64}
    (hok : Accepted replies signer s.chain timestamp) {epoch : Epoch} (htarget : targetEpoch s.epochs = some epoch)
    (hfresh : ∀ bytes, epoch.rootHex = some (hexText bytes) → bytes ∉ s.chain.index) {superRoot : String}
    {domains : List (String × String × String)} (hsuper : AuditLog.domainSuperRoot P s.log = .ok (superRoot, domains))
    (metadata : Option String) (mark : Option MarkReply) :
    ∃ (entry : RootEntry) (l' : RootLog) (s' : Desk),
      commitCmd P display h txHash signer cfg metadata none replies mark s = (mark.elim s' fun m => s'.withStore
        (exec (Audit.markCommitted m.io epoch.epochNumber m.now (txHash (l.entries.length + 1))) s.service.store).2) ∧
      s'.service = s.service ∧ Represents s'.chain l' ∧ l'.entries = l.entries ++ [entry] ∧
      epoch.rootHex = some (hexText entry.root) ∧
      entry.metadata = composeCommitMetadata metadata s.log.eventCount s.log.leafCount cfg.network superRoot := by
  obtain ⟨hat, _⟩ := hs.laid.target htarget
  have hmem := List.mem_of_getElem? hat
  obtain ⟨i, hi, _⟩ := hs.laid.closed epoch hmem
  obtain ⟨_, hroot⟩ := hs.roots epoch hmem i hi
  obtain ⟨refusal, hanswered⟩ := hok.answered
  generalize hf : (⟨s.log.tree.leaves.take (i + 1)⟩ : AuditMerkleTree 20).root P = f
  have hhex : epoch.rootHex = some (hexText (toBytesBe f)) := by
    rw [hroot, rootHex, hf]
    rfl
  have hdecode : Bytes.hexDecode (hexText (toBytesBe f)).toList = some (toBytesBe f) := by
    rw [hexText, String.toList_ofList, Bytes.hexDecode_hexEncode]
  obtain ⟨chain', hinvoke, _, _⟩ := @Contract.commitRoot_accepted h ⟨[signer.address], timestamp⟩ _ _ _ hok.admin
    (List.mem_singleton_self _) (hfresh _ hhex) hok.bound
    (composeCommitMetadata metadata s.log.eventCount s.log.leafCount cfg.network superRoot)
  obtain ⟨entry, l', he, hmeta, hl', hr'⟩ := hs.represents.commit (.inl rfl) hinvoke
  refine ⟨entry, l', { s with chain := chain' }, ?_, rfl, hr', hl', by rw [he]; exact hhex, hmeta⟩
  have hprep : prepareCommit P signer cfg replies metadata s.log (hexText (toBytesBe f)) =
      .ok (composeCommitMetadata metadata s.log.eventCount s.log.leafCount cfg.network superRoot) := by
    simp only [prepareCommit, checkAdmin, checkCurrentRoot, hok.preflight, hok.guard, hsuper, liftAudit]
    rfl
  have hcommit : commitLatestEpochRoot P display h txHash signer cfg metadata none replies s =
      (.ok ⟨replies.simulated, txHash (s.chain.seqOr0 + 1), hexText (toBytesBe f)⟩, { s with chain := chain' }) := by
    unfold commitLatestEpochRoot
    simp only [htarget, rootToCommit, Option.bind_some, hhex, Option.getD_some, hprep, commitRootOnly, commitRootNative, hdecode,
      hanswered, submitInvoke, hinvoke]
  unfold commitCmd
  rw [hcommit, htarget, hs.represents.count]
  cases mark <;> rfl

theorem epochs_markCommitted_found {store : EpochStore} {n : Nat} {e : Epoch} (hfind : store.manager.epochs.find n = some e)
    (io : EpochIo) (now tx : String) :
    (exec (Audit.markCommitted io n now tx) store).2.manager.epochs = store.manager.epochs.update n (Epoch.commit now tx) := by
  unfold Audit.markCommitted
  rw [exec_bind_ok (exec_get store)]
  simp only [hfind]
  rw [exec_bind_ok (exec_modify _ _), (keeps_save io).apply]

theorem represents_unique {chain : Storage} {l l' : RootLog} (hr : Represents chain l)
    (hr' : Represents chain l') : l.entries = l'.entries := by
  refine List.ext_getElem? fun k => ?_
  have hiff : ∀ entry, l.entries[k]? = some entry ↔ l'.entries[k]? = some entry := by
    intro entry
    have h1 : chain.rootEntry (k + 1) = some entry ↔ l.entries[k]? = some entry := by
      simpa using CounterLog.stores_some (n := k + 1) (a := entry) hr.stores
    have h2 : chain.rootEntry (k + 1) = some entry ↔ l'.entries[k]? = some entry := by
      simpa using CounterLog.stores_some (n := k + 1) (a := entry) hr'.stores
    exact h1.symm.trans h2
  cases hk : l.entries[k]? with
  | none =>
    cases hk' : l'.entries[k]? with
    | none => rfl
    | some entry => exact absurd ((hiff entry).2 hk') (by simp [hk])
  | some entry => exact ((hiff entry).1 hk).symm

/-! ## A batch of one event -/

/-- The epoch of the first event, where one event fills an epoch. -/
def firstEpoch (P : Prims) (e : Entry) : Epoch := ((Epoch.new 0 0).setCount 1).freeze 0 (rootHex P [e.leaf])

section
variable {key : Option Bytes32} {dir : String} {files : String → EpochFile} {chain : Storage} {call : RecordCall}
  {e : Entry}

theorem first_record (hentry : call.entry P key = some e) :
    (recordEventCmd P call {} {} (Desk.start P key dir ⟨1, 0⟩ none files chain)).log = ((openNew P key dir).log.push P e).1 ∧
    (recordEventCmd P call {} {} (Desk.start P key dir ⟨1, 0⟩ none files chain)).chain = chain ∧
    (recordEventCmd P call {} {} (Desk.start P key dir ⟨1, 0⟩ none files chain)).epochs =
      ⟨[firstEpoch P e], Epoch.new 1 1⟩ := by
  have hfiled := @filed_open P key dir
  have hlog : (Desk.start P key dir ⟨1, 0⟩ none files chain).log = (openNew P key dir).log := rfl
  have hcount : (openNew P key dir).log.leafCount = 0 := hfiled.leafCount_eq
  have hleaves : (openNew P key dir).log.tree.leaves = [] := by
    rw [hfiled.tree]
    rfl
  obtain ⟨h1, h2, h3⟩ := @recordEventCmd_ok P (Desk.start P key dir ⟨1, 0⟩ none files chain) call e dir
    hfiled.persistence (hfiled.leafKey.symm ▸ hentry)
  refine ⟨h1, h2, h3.trans ?_⟩
  rw [hlog, hcount, epochs_recordEvent rfl]
  have hfull : (Desk.start P key dir ⟨1, 0⟩ none files chain).service.store.manager.shouldClose
      ((Desk.start P key dir ⟨1, 0⟩ none files chain).service.store.manager.epochs.last.eventCount + 1) = true := rfl
  have hroot : ((openNew P key dir).log.push P e).1.rootAfterAt 0 = some (rootHex P [e.leaf]) := by
    have haligned : (openNew P key dir).log.rootAfterByIndex = [] := by
      have := @aligned_openNew P key dir
      rw [Aligned, hleaves] at this
      exact this
    rw [AuditLog.rootAfterAt]
    show ((openNew P key dir).log.rootAfterByIndex ++ _)[0]? = _
    rw [haligned]
    show some (rootHex P ((openNew P key dir).log.tree.leaves ++ [e.leaf])) = _
    rw [hleaves]
    rfl
  rw [if_pos hfull, hroot]
  rfl

theorem first_superRoot : ∃ superRoot domains,
    AuditLog.domainSuperRoot P ((openNew P key dir).log.push P e).1 = .ok (superRoot, domains) := by
  obtain ⟨domains, hsuper⟩ := ((@shelved_open P key dir).push e).domainSuperRoot
    (Segments.keyed_empty.step _)
  exact ⟨_, domains, hsuper⟩

theorem first_commit {s : Desk} {l : RootLog} (hs : Anchoring P txHash s l) (hempty : l.entries = [])
    (hes : s.epochs = ⟨[firstEpoch P e], Epoch.new 1 1⟩) {replies : CommitReplies} {timestamp : UInt64}
    (hok : Accepted replies signer s.chain timestamp) {superRoot : String} {domains : List (String × String × String)}
    (hsuper : AuditLog.domainSuperRoot P s.log = .ok (superRoot, domains)) (metadata : Option String) (mark : Option MarkReply) :
    targetEpoch s.epochs = some (firstEpoch P e) ∧
    ∃ (entry : RootEntry) (l' : RootLog) (s' : Desk),
      commitCmd P display h txHash signer cfg metadata none replies mark s = (mark.elim s' fun m => s'.withStore
        (exec (Audit.markCommitted m.io (firstEpoch P e).epochNumber m.now (txHash 1)) s.service.store).2) ∧
      s'.service = s.service ∧ Represents s'.chain l' ∧ l'.entries = [entry] ∧
      (firstEpoch P e).rootHex = some (hexText entry.root) ∧
      entry.metadata = composeCommitMetadata metadata s.log.eventCount s.log.leafCount cfg.network superRoot := by
  have htarget : targetEpoch s.epochs = some (firstEpoch P e) := by
    rw [hes]
    rfl
  have hfresh : ∀ bytes, (firstEpoch P e).rootHex = some (hexText bytes) → bytes ∉ s.chain.index := by
    intro bytes _ hmem
    rw [← Finmap.lookup_isSome, Option.isSome_iff_exists] at hmem
    obtain ⟨n, hn⟩ := hmem
    obtain ⟨entry, hentry, _⟩ := (hs.represents.index bytes n).1 hn
    obtain ⟨k, _, hk⟩ := (CounterLog.stores_some hs.represents.stores).1 hentry
    exact absurd hk (by simp [hempty])
  refine ⟨htarget, ?_⟩
  obtain ⟨entry, l', s', hcmd, hservice, hr', hl', hrest⟩ := @Anchoring.commit_accepted P display h txHash signer cfg
    _ _ hs _ _ hok _ htarget hfresh _ _ hsuper metadata mark
  rw [hempty] at hcmd hl'
  exact ⟨entry, l', s', hcmd, hservice, hr', hl', hrest⟩

/-- **The first batch**, sealed, committed and marked. -/
theorem first_batch (hne : ∀ n, txHash n ≠ "") (hentry : call.entry P key = some e) {replies : CommitReplies}
    {timestamp : UInt64} (hok : Accepted replies signer chain timestamp) (hr : Represents chain .nil) (m : MarkReply) :
    ∃ (entry : RootEntry) (l : RootLog),
      Anchoring P txHash (commitCmd P display h txHash signer cfg none none replies (some m)
        (recordEventCmd P call {} {} (Desk.start P key dir ⟨1, 0⟩ none files chain))) l ∧ l.entries = [entry] ∧
      hexText entry.root = rootHex P [e.leaf] ∧
      (commitCmd P display h txHash signer cfg none none replies (some m)
        (recordEventCmd P call {} {} (Desk.start P key dir ⟨1, 0⟩ none files chain))).log = ((openNew P key dir).log.push P e).1 ∧
      (commitCmd P display h txHash signer cfg none none replies (some m)
        (recordEventCmd P call {} {} (Desk.start P key dir ⟨1, 0⟩ none files chain))).epochs =
          ⟨[Epoch.commit m.now (txHash 1) (firstEpoch P e)], Epoch.new 1 1⟩ := by
  obtain ⟨hlog, hchain, hes⟩ := @first_record P key dir files chain call e hentry
  have hs := (@anchoring_start P txHash _ key dir ⟨1, 0⟩ none files chain hr).record call {} {}
  generalize recordEventCmd P call {} {} (Desk.start P key dir ⟨1, 0⟩ none files chain) = s1 at hlog hchain hes hs
  obtain ⟨superRoot, domains, hsuper⟩ := @first_superRoot P key dir e
  rw [← hlog] at hsuper
  rw [← hchain] at hok
  obtain ⟨_, entry, l', s', hcmd, hservice, hr', hl', hroot, _⟩ := @first_commit P display h txHash signer cfg e s1 _ hs rfl hes
    _ _ hok _ _ hsuper none (some m)
  obtain ⟨l2, _, hs2⟩ := @Anchoring.commit P display h txHash signer cfg _ _ hs hne none none replies (some m)
  have hcmd' : commitCmd P display h txHash signer cfg none none replies (some m) s1 = s'.withStore
      (exec (Audit.markCommitted m.io (firstEpoch P e).epochNumber m.now (txHash 1)) s1.service.store).2 := hcmd
  have hstore : (commitCmd P display h txHash signer cfg none none replies (some m) s1).chain = s'.chain := by rw [hcmd']; rfl
  have hentries : l2.entries = [entry] := (represents_unique hs2.represents (hstore ▸ hr')).trans hl'
  refine ⟨entry, l2, hs2, hentries, ?_, ?_, ?_⟩
  · exact (Option.some.inj hroot).symm
  · rw [hcmd', ← hlog]
    exact congrArg (fun sv => sv.world.log) hservice
  · rw [hcmd']
    have hfind : s1.service.store.manager.epochs.find (firstEpoch P e).epochNumber = some (firstEpoch P e) := by
      have hes' : s1.service.store.manager.epochs = _ := hes
      rw [hes']
      rfl
    have hmark := epochs_markCommitted_found hfind m.io m.now (txHash 1)
    have hes' : s1.service.store.manager.epochs = _ := hes
    rw [hes'] at hmark
    exact hmark

end

theorem recordEventCmd_earlier {call : RecordCall} {e : Entry} {dir : String} (hp : s.log.persistence = some dir)
    (hentry : call.entry P s.log.leafKey = some e) (hopen : s.epochs.last.isOpen = true) :
    s.epochs.earlier <+: (recordEventCmd P call {} {} s).epochs.earlier := by
  obtain ⟨_, _, hes⟩ := recordEventCmd_ok hp hentry
  rw [hes, epochs_recordEvent hopen]
  split
  · cases (s.log.push P e).1.rootAfterAt s.log.leafCount with
    | none => exact List.prefix_rfl
    | some root => exact ⟨_, rfl⟩
  · exact List.prefix_rfl

end

/-! ## A network that answers -/

/-- A new contract with an owner. -/
def ownedChain : Storage := { Storage.empty with admin := some demoAdmin }

theorem represents_ownedChain : Represents ownedChain .nil :=
  represents_empty.congr rfl rfl rfl rfl rfl

def demoSigner : Signer := ⟨demoAdmin, "GADMIN"⟩

def demoConfig : ChainConfig := ⟨"testnet", "CONTRACT"⟩

/-- No connection, and a node that takes the transaction. -/
def demoReplies : CommitReplies where
  admin := .ok none
  currentRoot := .ok none
  client := .error (.validation "not connected")
  attachIo := {}
  withOplog := .failed (.validation "not sent")
  rootOnly := .answered 100 (.validation "refused")
  simulated := 1

def demoMark : MarkReply := ⟨"2026-01-01T00:00:00+00:00", {}⟩

def demoTxHash (n : Nat) : String := String.ofList (List.replicate (n + 1) 'a')

theorem demoTxHash_injective : Function.Injective demoTxHash := by
  intro n m h
  have hlen := congrArg List.length (String.ofList_injective h)
  simpa using hlen

theorem demoTxHash_ne (n : Nat) : demoTxHash n ≠ "" := by
  intro h
  have hlen := congrArg (fun t => t.toList.length) h
  simp [demoTxHash] at hlen

theorem demo_accepted : Accepted demoReplies demoSigner ownedChain 100 where
  preflight := rfl
  guard := rfl
  answered := ⟨_, rfl⟩
  admin := rfl
  bound := by decide

/-- A record with a leaf of its own. -/
def demoRecord (leaf : Fr) : RecordCall := .record ⟨0, 0⟩ "rs:rs0" "insert" "shop" "orders" "cGF5bG9hZA==" leaf

def demoCommit : DeskStep := .commit none none demoReplies (some demoMark)

/-- A new log that closes an epoch at each event, beside the new contract. -/
@[irreducible] def demoDesk : Desk := Desk.start demoPrims none "data" ⟨1, 0⟩ none (fun _ => .missing) ownedChain

def demoEntry (leaf : Fr) : Entry :=
  recordEntry demoPrims none ⟨0, 0⟩ "rs:rs0" "insert" "shop" "orders" "cGF5bG9hZA==" leaf

def stepDemo : Desk → DeskStep → Desk :=
  stepDesk demoPrims (fun _ => "") demoHost demoTxHash demoSigner demoConfig

theorem demoDesk_eq : demoDesk = Desk.start demoPrims none "data" ⟨1, 0⟩ none (fun _ => .missing) ownedChain := by
  rw [demoDesk]

end Desktop
