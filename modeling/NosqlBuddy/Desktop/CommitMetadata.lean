import NosqlBuddy.Desktop.CommitSpec

/-!
# What a commit says of the log

The root of a commit was frozen when its epoch ended (epoch.rs:411); the counts and the super-root of its metadata are
those of the log as it is (commands.rs:1930). `commit_metadata_iff`: they describe the log of the events whose root is
committed exactly when nothing was recorded or pruned in between.
-/

namespace Desktop
open Audit Mutation Fallible Contract

/-! ## The log at the end of an epoch -/

/-- The log in the first state of a run in which epoch `n` is closed. -/
def sealedLog (step : Desk → DeskStep → Desk) (n : Nat) : Desk → List DeskStep → Option AuditLog
  | s, [] => if n < s.epochs.earlier.length then some s.log else none
  | s, a :: steps => if n < s.epochs.earlier.length then some s.log else sealedLog step n (step s a) steps

theorem sealedLog_append {step : Desk → DeskStep → Desk} {n : Nat} {log : AuditLog} {as bs : List DeskStep} {s : Desk}
    (h : sealedLog step n s as = some log) : sealedLog step n s (as ++ bs) = some log := by
  induction as generalizing s with
  | nil =>
    by_cases hclosed : n < s.epochs.earlier.length
    · rw [sealedLog, if_pos hclosed] at h
      cases bs with
      | nil => exact (if_pos hclosed).trans h
      | cons b bs => exact (if_pos hclosed).trans h
    · rw [sealedLog, if_neg hclosed] at h
      cases h
  | cons a as ih =>
    rw [List.cons_append, sealedLog]
    rw [sealedLog] at h
    by_cases hclosed : n < s.epochs.earlier.length
    · rw [if_pos hclosed] at h ⊢
      exact h
    · rw [if_neg hclosed] at h ⊢
      exact ih h

/-- The log of the events `0..last` alone. -/
def logUpTo (last : Nat) (log : AuditLog) : AuditLog :=
  { log with
    tree := ⟨log.tree.leaves.take (last + 1)⟩
    rootAfterByIndex := log.rootAfterByIndex.take (last + 1)
    events := log.events.filter (·.index ≤ last) }

/-- The metadata that the command composes for a log. -/
def Describes (P : Prims) (network metadata : String) (log : AuditLog) : Prop :=
  ∃ superRoot domains, AuditLog.domainSuperRoot P log = .ok (superRoot, domains) ∧
    metadata = composeCommitMetadata none log.eventCount log.leafCount network superRoot

/-- The caller supplies no metadata. -/
def Blank (metadata : Option String) : Prop :=
  ((metadata.map fun m => String.ofList (Text.trim m.toList)).filter fun m => ¬ m.isEmpty) = none

theorem compose_blank {metadata : Option String} (hm : Blank metadata) (events leaves : Nat) (network superRoot : String) :
    composeCommitMetadata metadata events leaves network superRoot =
      composeCommitMetadata none events leaves network superRoot := by
  unfold Blank at hm
  unfold composeCommitMetadata
  simp only [hm]
  rfl

theorem digits_append_inj {n m : Nat} {cs ds : List Char} (h : Nat.toDigits 10 n ++ ' ' :: cs = Nat.toDigits 10 m ++ ' ' :: ds) :
    n = m ∧ cs = ds := by
  have hread := congrArg JsonText.readNat h
  rw [JsonText.readNat_print n (by decide), JsonText.readNat_print m (by decide)] at hread
  simpa using hread

theorem compose_inj {events leaves events' leaves' : Nat} {network superRoot superRoot' : String}
    (h : composeCommitMetadata none events leaves network superRoot = composeCommitMetadata none events' leaves' network superRoot') :
    events = events' ∧ leaves = leaves' := by
  have htext : ∀ (a b : Nat) (r : String), (composeCommitMetadata none a b network r).toList = "events=".toList ++
      (Nat.toDigits 10 a ++ ' ' :: ("leaves=".toList ++ (Nat.toDigits 10 b ++ ' ' :: ("network=".toList ++ network.toList ++
        " domainSuperRoot=".toList ++ r.toList)))) := by
    intro a b r
    simp [composeCommitMetadata, toString, Nat.repr]
  have hl := congrArg String.toList h
  rw [htext, htext] at hl
  obtain ⟨rfl, hrest⟩ := digits_append_inj (List.append_cancel_left hl)
  obtain ⟨rfl, _⟩ := digits_append_inj (List.append_cancel_left hrest)
  exact ⟨rfl, rfl⟩

/-! ## What the calls do to the log -/

/-- Calls add leaves and take events: of a log with as many leaves as before, events were taken or nothing changed that
the metadata shows. -/
structure Worn (log log' : AuditLog) : Prop where
  leaves : log.tree.leaves <+: log'.tree.leaves
  fewer : log'.leafCount = log.leafCount → log'.eventCount ≤ log.eventCount
  intact : log'.leafCount = log.leafCount → log'.eventCount = log.eventCount →
    log'.events = log.events ∧ log'.retainedDomainRoots = log.retainedDomainRoots

theorem Worn.leafCount_le {log log' : AuditLog} (h : Worn log log') : log.leafCount ≤ log'.leafCount := h.leaves.length_le

theorem Worn.refl (log : AuditLog) : Worn log log := ⟨List.prefix_rfl, fun _ => Nat.le_refl _, fun _ _ => ⟨rfl, rfl⟩⟩

theorem Worn.trans {a b c : AuditLog} (hab : Worn a b) (hbc : Worn b c) : Worn a c := by
  have hle := hab.leafCount_le
  have hle' := hbc.leafCount_le
  refine ⟨hab.leaves.trans hbc.leaves, fun hleaves => ?_, fun hleaves hevents => ?_⟩
  · exact Nat.le_trans (hbc.fewer (by omega)) (hab.fewer (by omega))
  · have h1 := hab.fewer (by omega)
    have h2 := hbc.fewer (by omega)
    obtain ⟨he, hr⟩ := hab.intact (by omega) (by omega)
    obtain ⟨he', hr'⟩ := hbc.intact (by omega) (by omega)
    exact ⟨he'.trans he, hr'.trans hr⟩

/-- Every event is of a leaf. -/
def Indexed (log : AuditLog) : Prop := ∀ ev ∈ log.events, ev.index < log.leafCount

section
variable {P : Prims}

theorem leafCount_push (log : AuditLog) (e : Entry) : (log.push P e).1.leafCount = log.leafCount + 1 := by
  simp [AuditLog.leafCount, AuditMerkleTree.leafCount, AuditLog.push, AuditMerkleTree.insert]

theorem worn_push (log : AuditLog) (e : Entry) : Worn log (log.push P e).1 := by
  have hcount := leafCount_push (P := P) log e
  exact ⟨List.prefix_append _ _, fun h => by omega, fun h => by omega⟩

theorem worn_pruned {log : AuditLog} {d : Domain} (hd : ∃ ev ∈ log.events, ev.domain = d) (r : DomainRetentionRoot) :
    Worn log (log.pruned d r) := by
  have hlt : (log.pruned d r).eventCount < log.eventCount := by
    obtain ⟨ev, hev, rfl⟩ := hd
    exact List.length_filter_lt_length_iff_exists.2 ⟨ev, hev, by simp⟩
  exact ⟨List.prefix_rfl, fun _ => Nat.le_of_lt hlt, fun _ h => by omega⟩

theorem worn_run (call : RecordCall) (io : Io) (w : World) : Worn w.log (exec (call.run P io) w).2.log := by
  rcases log_run (P := P) call io w with h | ⟨e, _, h⟩
  · rw [h]
    exact .refl _
  · rw [h]
    exact worn_push _ _

theorem worn_pruneDomain (io : Io) (now : Instant) (dep db : String) (w : World) :
    Worn w.log (exec (pruneDomain P io now dep db) w).2.log := by
  rcases log_pruneDomain (P := P) io now dep db w with h | ⟨leaves, maxIndex, _, hscan, h⟩
  · rw [h]
    exact .refl _
  · rw [h]
    exact worn_pruned (pruneScan_some hscan) _

theorem indexed_push {log : AuditLog} (h : Indexed log) (e : Entry) : Indexed (log.push P e).1 := by
  intro ev hev
  rw [leafCount_push]
  rcases List.mem_append.1 hev with hev | hev
  · exact Nat.lt_succ_of_lt (h ev hev)
  · rw [List.mem_singleton.1 hev]
    exact Nat.lt_succ_self _

theorem indexed_open {key : Option Bytes32} {dir : String} : Indexed (openNew P key dir).log := by
  have hevents : (openNew P key dir).log.events = [] := (@restorable_open P key dir).events
  intro ev hev
  rw [hevents] at hev
  exact absurd hev List.not_mem_nil

theorem indexed_run {w : World} (h : Indexed w.log) (call : RecordCall) (io : Io) :
    Indexed (exec (call.run P io) w).2.log := by
  rcases log_run (P := P) call io w with hlog | ⟨e, _, hlog⟩
  · rw [hlog]
    exact h
  · rw [hlog]
    exact indexed_push h e

theorem indexed_pruneDomain {w : World} (h : Indexed w.log) (io : Io) (now : Instant) (dep db : String) :
    Indexed (exec (pruneDomain P io now dep db) w).2.log := by
  rcases log_pruneDomain (P := P) io now dep db w with hlog | ⟨leaves, maxIndex, _, _, hlog⟩
  · rw [hlog]
    exact h
  · rw [hlog]
    exact fun ev hev => h ev (List.mem_filter.1 hev).1

theorem domainSuperRoot_congr {log log' : AuditLog} (hevents : log'.events = log.events)
    (hretained : log'.retainedDomainRoots = log.retainedDomainRoots) :
    AuditLog.domainSuperRoot P log' = AuditLog.domainSuperRoot P log := by
  obtain ⟨tree, events, sequences, persistence, sledStore, holds, retained, leafKey, roots⟩ := log
  obtain ⟨tree', events', sequences', persistence', sledStore', holds', retained', leafKey', roots'⟩ := log'
  obtain rfl : events' = events := hevents
  obtain rfl : retained' = retained := hretained
  rfl

end

/-! ## What the steps do to the state -/

theorem SameUnder.trans {α : Type} {g : Epoch → α} {a b c : EpochList} (hab : SameUnder g a b) (hbc : SameUnder g b c) :
    SameUnder g a c := ⟨hbc.1.trans hab.1, hbc.2.trans hab.2⟩

section
variable {P : Prims} {display : Oplog.Bson → String} {h : Host} {txHash : Nat → String} {signer : Signer}
  {cfg : ChainConfig} {s : Desk}

/-- A commit and its mark leave the log alone, and of the epochs all but the mark and the oplog part. -/
theorem commitCmd_service {α : Type} {g : Epoch → α} (hg : ∀ r e, g (Epoch.attach r e) = g e)
    (hg' : ∀ now tx e, g (Epoch.commit now tx e) = g e) (metadata connectionId : Option String) (replies : CommitReplies)
    (mark : Option MarkReply) (s : Desk) :
    (commitCmd P display h txHash signer cfg metadata connectionId replies mark s).service.world = s.service.world ∧
      SameUnder g s.epochs (commitCmd P display h txHash signer cfg metadata connectionId replies mark s).epochs := by
  obtain ⟨hworld, hsame⟩ := @commitLatest_service P display h txHash signer cfg replies _ g hg metadata connectionId s
  unfold commitCmd
  generalize commitLatestEpochRoot P display h txHash signer cfg metadata connectionId replies s = out at hworld hsame ⊢
  obtain ⟨e | r, s'⟩ := out
  · exact ⟨hworld, hsame⟩
  cases targetEpoch s.epochs with
  | none => exact ⟨hworld, hsame⟩
  | some epoch =>
    cases mark with
    | none => exact ⟨hworld, hsame⟩
    | some m =>
      refine ⟨hworld, hsame.trans ?_⟩
      show SameUnder g s'.service.store.manager.epochs
        (exec (markCommitted m.io epoch.epochNumber m.now r.txHash) s'.service.store).2.manager.epochs
      rcases epochs_markCommitted s'.service.store m.io epoch.epochNumber m.now r.txHash with hes | hes
      · rw [hes]
        exact .refl _ _
      · rw [hes]
        exact sameUnder_update (hg' m.now r.txHash) _ _

theorem worn_step (s : Desk) (a : DeskStep) : Worn s.log (stepDesk P display h txHash signer cfg s a).log := by
  cases a with
  | record call io epochIo =>
    have hrun := worn_run (P := P) call io s.service.world
    show Worn s.log (recordEventCmd P call io epochIo s).log
    unfold recordEventCmd
    generalize exec (call.run P io) s.service.world = out at hrun ⊢
    obtain ⟨e | i, w⟩ := out
    · exact hrun
    · exact hrun
  | setLegalHold dep db hold io =>
    show Worn s.service.world.log (exec (setLegalHold P io dep db hold) s.service.world).2.log
    rw [log_setLegalHold]
    exact ⟨List.prefix_rfl, fun _ => Nat.le_refl _, fun _ _ => ⟨rfl, rfl⟩⟩
  | pruneDomain now dep db io => exact worn_pruneDomain io now dep db s.service.world
  | closeEpoch io => exact .refl _
  | commit metadata connectionId replies mark =>
    have hsame := (@commitCmd_service P display h txHash signer cfg _ (fun _ => ()) (fun _ _ => rfl) (fun _ _ _ => rfl)
      metadata connectionId replies mark s).1
    show Worn s.service.world.log (commitCmd P display h txHash signer cfg metadata connectionId replies mark s).service.world.log
    rw [hsame]
    exact .refl _

theorem indexed_step (hs : Indexed s.log) (a : DeskStep) : Indexed (stepDesk P display h txHash signer cfg s a).log := by
  cases a with
  | record call io epochIo =>
    have hrun := indexed_run (P := P) hs call io
    show Indexed (recordEventCmd P call io epochIo s).log
    unfold recordEventCmd
    generalize exec (call.run P io) s.service.world = out at hrun ⊢
    obtain ⟨e | i, w⟩ := out
    · exact hrun
    · exact hrun
  | setLegalHold dep db hold io =>
    show Indexed (exec (setLegalHold P io dep db hold) s.service.world).2.log
    rw [log_setLegalHold]
    exact hs
  | pruneDomain now dep db io => exact indexed_pruneDomain hs io now dep db
  | closeEpoch io => exact hs
  | commit metadata connectionId replies mark =>
    have hsame := (@commitCmd_service P display h txHash signer cfg _ (fun _ => ()) (fun _ _ => rfl) (fun _ _ _ => rfl)
      metadata connectionId replies mark s).1
    show Indexed (commitCmd P display h txHash signer cfg metadata connectionId replies mark s).service.world.log
    rw [hsame]
    exact hs

theorem frames_closedAt (es : EpochList) (i : Nat) (root : Option String) :
    es.earlier.map Epoch.frame <+: (es.closedAt i root).earlier.map Epoch.frame := by
  cases root with
  | none => exact List.prefix_rfl
  | some root =>
    show es.earlier.map Epoch.frame <+: (es.earlier ++ [_]).map Epoch.frame
    rw [List.map_append]
    exact List.prefix_append _ _

theorem frames_step (hopen : s.epochs.last.isOpen = true) (a : DeskStep) :
    s.epochs.earlier.map Epoch.frame <+: (stepDesk P display h txHash signer cfg s a).epochs.earlier.map Epoch.frame := by
  cases a with
  | record call io epochIo =>
    show _ <+: (recordEventCmd P call io epochIo s).epochs.earlier.map Epoch.frame
    unfold recordEventCmd
    generalize exec (call.run P io) s.service.world = out
    obtain ⟨e | i, w⟩ := out
    · exact List.prefix_rfl
    · show _ <+: (exec (recordEvent epochIo i w.log) s.service.store).2.manager.epochs.earlier.map Epoch.frame
      rw [epochs_recordEvent hopen]
      split
      · exact frames_closedAt (s.service.store.manager.epochs.setCount (s.service.store.manager.epochs.last.eventCount + 1)) i _
      · exact List.prefix_rfl
  | setLegalHold dep db hold io => exact List.prefix_rfl
  | pruneDomain now dep db io => exact List.prefix_rfl
  | closeEpoch io =>
    show _ <+: (exec (closeCurrentEpoch io s.log) s.service.store).2.manager.epochs.earlier.map Epoch.frame
    rw [epochs_closeCurrentEpoch hopen]
    split
    · exact List.prefix_rfl
    · exact frames_closedAt _ _ _
  | commit metadata connectionId replies mark =>
    have hsame := (@commitCmd_service P display h txHash signer cfg _ Epoch.frame (fun _ _ => rfl) (fun _ _ _ => rfl)
      metadata connectionId replies mark s).2
    show _ <+: (commitCmd P display h txHash signer cfg metadata connectionId replies mark s).epochs.earlier.map Epoch.frame
    rw [hsame.1]

/-- What every state of a run has. -/
structure Kept (P : Prims) (txHash : Nat → String) (s : Desk) : Prop where
  anchoring : ∃ l, Anchoring P txHash s l
  indexed : Indexed s.log

/-- How a later state of a run continues an earlier one. -/
structure Continues (s s' : Desk) : Prop where
  worn : Worn s.log s'.log
  frames : s.epochs.earlier.map Epoch.frame <+: s'.epochs.earlier.map Epoch.frame

theorem kept_step (hne : ∀ n, txHash n ≠ "") (hs : Kept P txHash s) (a : DeskStep) :
    Kept P txHash (stepDesk P display h txHash signer cfg s a) := by
  obtain ⟨⟨l, hl⟩, hi⟩ := hs
  obtain ⟨l', _, hl'⟩ := @Anchoring.step P display h txHash signer cfg _ _ hl hne a
  exact ⟨⟨l', hl'⟩, indexed_step hi a⟩

theorem continues_run (hne : ∀ n, txHash n ≠ "") (hs : Kept P txHash s) (steps : List DeskStep) :
    Continues s (Runs.run (stepDesk P display h txHash signer cfg) s steps) := by
  refine Runs.run_rel (I := Kept P txHash) (R := Continues) (fun s => ⟨.refl _, List.prefix_rfl⟩)
    (fun hab hbc => ⟨hab.worn.trans hbc.worn, hab.frames.trans hbc.frames⟩) (fun s a _ hs => kept_step hne hs a)
    (fun s a _ hs => ?_) (Runs.guarded_true s steps) hs
  obtain ⟨l, hl⟩ := hs.anchoring
  exact ⟨worn_step s a, frames_step hl.laid.isOpen a⟩

theorem exists_sealed (hne : ∀ n, txHash n ≠ "") {n : Nat} {steps : List DeskStep} (hs : Kept P txHash s)
    (hn : n < (Runs.run (stepDesk P display h txHash signer cfg) s steps).epochs.earlier.length) :
    ∃ s1, sealedLog (stepDesk P display h txHash signer cfg) n s steps = some s1.log ∧ Kept P txHash s1 ∧
      n < s1.epochs.earlier.length ∧ Continues s1 (Runs.run (stepDesk P display h txHash signer cfg) s steps) := by
  induction steps generalizing s with
  | nil => exact ⟨s, if_pos hn, hs, hn, ⟨.refl _, List.prefix_rfl⟩⟩
  | cons a steps ih =>
    by_cases hclosed : n < s.epochs.earlier.length
    · exact ⟨s, if_pos hclosed, hs, hclosed, continues_run hne hs (a :: steps)⟩
    · obtain ⟨s1, hseal, hrest⟩ := ih (kept_step hne hs a) hn
      exact ⟨s1, (if_neg hclosed).trans hseal, hrest⟩

theorem events_logUpTo {log : AuditLog} (hi : Indexed log) {last : Nat} (hlast : log.leafCount = last + 1) :
    (logUpTo last log).events = log.events := by
  refine List.filter_eq_self.2 fun ev hev => ?_
  have := hi ev hev
  simp
  omega

theorem leafCount_logUpTo {log : AuditLog} {last : Nat} (hlast : last < log.leafCount) :
    (logUpTo last log).leafCount = last + 1 := by
  have hlen : last < log.tree.leaves.length := hlast
  simp only [AuditLog.leafCount, AuditMerkleTree.leafCount, logUpTo, List.length_take]
  omega

/-- **One commit**: the metadata describes the events `0..last` of the log at the sealing exactly when there are as many
leaves and events now. -/
theorem describes_iff {log now : AuditLog} (hworn : Worn log now) (hi : Indexed log) {last : Nat}
    (hlast : last < log.leafCount) {network superRoot : String} {domains : List (String × String × String)}
    (hsuper : AuditLog.domainSuperRoot P now = .ok (superRoot, domains)) :
    Describes P network (composeCommitMetadata none now.eventCount now.leafCount network superRoot) (logUpTo last log) ↔
      now.leafCount = last + 1 ∧ now.eventCount = (logUpTo last log).eventCount := by
  constructor
  · rintro ⟨superRoot', _, _, htext⟩
    obtain ⟨hevents, hleaves⟩ := compose_inj htext
    exact ⟨hleaves.trans (leafCount_logUpTo hlast), hevents⟩
  · rintro ⟨hleaves, hevents⟩
    have hfull : log.leafCount = last + 1 := by
      have := hworn.leafCount_le
      omega
    have hsame := events_logUpTo hi hfull
    have hcount : (logUpTo last log).eventCount = log.eventCount := congrArg List.length hsame
    obtain ⟨he, hr⟩ := hworn.intact (by omega) (by omega)
    refine ⟨superRoot, domains, ?_, ?_⟩
    · rw [← hsuper]
      exact (domainSuperRoot_congr (he.trans hsame.symm) hr).symm
    · rw [hevents, hleaves, leafCount_logUpTo hlast]

theorem prepareCommit_ok {replies : CommitReplies} {metadata : Option String} {log : AuditLog} {root m : String}
    (hok : prepareCommit P signer cfg replies metadata log root = .ok m) : ∃ superRoot domains,
      AuditLog.domainSuperRoot P log = .ok (superRoot, domains) ∧
      m = composeCommitMetadata metadata log.eventCount log.leafCount cfg.network superRoot := by
  simp only [prepareCommit, bind_ok, liftAudit_ok, pure_ok, Prod.exists] at hok
  obtain ⟨_, _, _, _, superRoot, domains, hsuper, rfl⟩ := hok
  exact ⟨superRoot, domains, hsuper, rfl⟩

theorem Anchoring.appended {l l' : RootLog} (hs : Anchoring P txHash s l) {metadata connectionId : Option String}
    {replies : CommitReplies} {entry : RootEntry}
    (hr' : Represents (commitLatestEpochRoot P display h txHash signer cfg metadata connectionId replies s).2.chain l')
    (hl' : l'.entries = l.entries ++ [entry]) :
    Bytes.hexDecode (rootToCommit P s.log (targetEpoch s.epochs)).toList = some entry.root ∧ ∃ superRoot domains,
      AuditLog.domainSuperRoot P s.log = .ok (superRoot, domains) ∧
      entry.metadata = composeCommitMetadata metadata s.log.eventCount s.log.leafCount cfg.network superRoot := by
  have hout := @commitLatest_outcome P display h txHash signer cfg replies s l hs.represents metadata connectionId
  generalize (commitLatestEpochRoot P display h txHash signer cfg metadata connectionId replies s).1 = r at hout
  generalize (commitLatestEpochRoot P display h txHash signer cfg metadata connectionId replies s).2.chain = chain at hout hr'
  have happ : ∀ {entry1 : RootEntry}, Appended l (rootToCommit P s.log (targetEpoch s.epochs))
      (fun m => prepareCommit P signer cfg replies metadata s.log (rootToCommit P s.log (targetEpoch s.epochs)) = .ok m)
      entry1 chain → entry1 = entry := by
    intro entry1 ha
    obtain ⟨l1, hl1, hr1⟩ := ha.represents
    have hsame := represents_unique hr1 hr'
    rw [hl1, hl'] at hsame
    simpa using hsame
  cases hout with
  | unchanged hr =>
    have hsame := represents_unique hr hr'
    rw [hl'] at hsame
    simp at hsame
  | unconfirmed ha =>
    obtain rfl := happ ha
    exact ⟨ha.root, prepareCommit_ok ha.metadata⟩
  | confirmed ha =>
    obtain rfl := happ ha
    exact ⟨ha.root, prepareCommit_ok ha.metadata⟩

end

/-- **Commit metadata describes the committed events** of every commit of every run exactly when, since the sealing of
the epoch, no leaf was added and no event was pruned. Without a sealed epoch the log as it is gets committed. -/
theorem commit_metadata_iff (P : Prims) (display : Oplog.Bson → String) (h : Contract.Host) (signer : Signer)
    (cfg : ChainConfig) (key : Option Bytes32) (dir : String) (config : EpochConfig) (path : Option String)
    (files : String → EpochFile) (txHash : Nat → String) (hne : ∀ n, txHash n ≠ "") (chain : Contract.Storage)
    (l₀ : Contract.RootLog) (hr : Contract.Represents chain l₀) (steps : List DeskStep) (metadata : Option String)
    (hm : Blank metadata) (connectionId : Option String) (replies : CommitReplies) (l l' : Contract.RootLog)
    (entry : Contract.RootEntry) :
    let start := Desk.start P key dir config path files chain
    let step := stepDesk P display h txHash signer cfg
    let s := Runs.run step start steps
    let s' := (commitLatestEpochRoot P display h txHash signer cfg metadata connectionId replies s).2
    Represents s.chain l → Represents s'.chain l' → l'.entries = l.entries ++ [entry] →
      (targetEpoch s.epochs = none → Describes P cfg.network entry.metadata s.log) ∧
      ∀ e last, targetEpoch s.epochs = some e → e.endIndex = some last → ∃ log,
        sealedLog step e.epochNumber start steps = some log ∧
        hexText entry.root = rootHex P (logUpTo last log).tree.leaves ∧
        (Describes P cfg.network entry.metadata (logUpTo last log) ↔
          s.log.leafCount = last + 1 ∧ s.log.eventCount = (logUpTo last log).eventCount) := by
  intro start step s s' hrl hr' hl'
  have hkept : Kept P txHash start :=
    ⟨⟨l₀, anchoring_start hr⟩, indexed_open⟩
  obtain ⟨l1, _, hs⟩ := @anchoring_run P display h txHash signer cfg l₀ hne key dir config path files chain hr steps
  have hl1 : l'.entries = l1.entries ++ [entry] := by rw [hl', represents_unique hrl hs.represents]
  obtain ⟨hroot, superRoot, domains, hsuper, hmeta⟩ := hs.appended hr' hl1
  rw [compose_blank hm] at hmeta
  refine ⟨fun _ => ⟨superRoot, domains, hsuper, hmeta⟩, fun e last htarget hlast => ?_⟩
  obtain ⟨hat, _⟩ := hs.laid.target htarget
  obtain ⟨s1, hseal, hk1, hclosed, hcont⟩ := @exists_sealed P display h txHash signer cfg start hne e.epochNumber steps hkept
    (List.getElem?_eq_some_iff.1 hat).1
  obtain ⟨l2, hs1⟩ := hk1.anchoring
  -- the epoch as it was sealed
  obtain ⟨e1, he1⟩ : ∃ e1, s1.epochs.earlier[e.epochNumber]? = some e1 := ⟨_, List.getElem?_eq_getElem hclosed⟩
  have hframe : Epoch.frame e1 = Epoch.frame e := by
    have h1 : (s1.epochs.earlier.map Epoch.frame)[e.epochNumber]? = some (Epoch.frame e1) := by simp [he1]
    have h2 := List.prefix_iff_getElem?.1 hcont.frames e.epochNumber (List.getElem?_eq_some_iff.1 h1).1
    rw [(List.getElem?_eq_some_iff.1 h1).2] at h2
    have h3 : (s.epochs.earlier.map Epoch.frame)[e.epochNumber]? = some (Epoch.frame e) := by
      have hat' : s.epochs.earlier[e.epochNumber]? = some e := hat
      simp [hat']
    exact Option.some.inj (h2.symm.trans h3)
  have hlast1 : e1.endIndex = some last := by
    simp only [Epoch.frame, Prod.mk.injEq] at hframe
    rw [hframe.2.2.1, hlast]
  obtain ⟨hlt, hroot1⟩ := hs1.roots e1 (List.mem_of_getElem? he1) last hlast1
  refine ⟨s1.log, hseal, ?_, ?_⟩
  · have hshown := hs.target_root htarget hroot
    simp only [Epoch.frame, Prod.mk.injEq] at hframe
    rw [← hframe.2.2.2, hroot1] at hshown
    exact (Option.some.inj hshown).symm
  · rw [hmeta]
    exact describes_iff hcont.worn hk1.indexed hlt hsuper

/-! ### One event, and a prune -/

section
variable {P : Prims} {display : Oplog.Bson → String} {h : Host} {txHash : Nat → String} {signer : Signer}
  {cfg : ChainConfig} {s : Desk}

theorem commitCmd_unmarked (metadata connectionId : Option String) (replies : CommitReplies) :
    commitCmd P display h txHash signer cfg metadata connectionId replies none s =
      (commitLatestEpochRoot P display h txHash signer cfg metadata connectionId replies s).2 := by
  unfold commitCmd
  generalize commitLatestEpochRoot P display h txHash signer cfg metadata connectionId replies s = out
  obtain ⟨e | r, s'⟩ := out
  · rfl
  · cases targetEpoch s.epochs <;> rfl

theorem first_leafCount {key : Option Bytes32} {dir : String} {e : Entry} :
    ((openNew P key dir).log.push P e).1.leafCount = 0 + 1 := by
  rw [leafCount_push, (@filed_open P key dir).leafCount_eq]
  rfl

theorem first_pruned {key : Option Bytes32} {dir : String} {e : Entry} {w : World}
    (hlog : w.log = ((openNew P key dir).log.push P e).1) (now : Instant) :
    (exec (pruneDomain P {} now e.deploymentId e.database) w).2.log.eventCount = 0 ∧ ∃ superRoot domains,
      AuditLog.domainSuperRoot P (exec (pruneDomain P {} now e.deploymentId e.database) w).2.log = .ok (superRoot, domains) := by
  have hshelved := (@shelved_open P key dir).push e
  rw [← hlog] at hshelved
  have hkeyed := (Segments.keyed_empty (κ := Domain) (α := Fr)).step (.add e.domain e.leaf)
  have hcut : (Segments.step (.empty : Segments.State Domain Fr) (.add e.domain e.leaf)).Cuts e.domain :=
    ⟨Finset.notMem_empty _, by simp [Segments.step, Segments.State.empty]⟩
  have hp : w.log.persistence = some dir := by
    rw [hlog]
    exact (@filed_open P key dir).persistence
  have hscan := hshelved.scan e.domain
  cases hmax : maxIndexOf (w.log.events.filter (·.domain = e.domain)) none with
  | none => exact absurd ((hshelved.filter_eq_nil _).1 (maxIndexOf_eq_none.1 hmax)) hcut.2
  | some maxIndex =>
    rw [hmax] at hscan
    have hfree : e.domain ∉ w.log.legalHolds := by
      rw [hshelved.held]
      exact hcut.1
    rw [exec_pruneDomain_taken hp hfree hscan now]
    have hpruned := hshelved.pruned hcut now maxIndex
    obtain ⟨domains, hsuper⟩ := hpruned.domainSuperRoot (hkeyed.step _)
    refine ⟨?_, _, domains, hsuper⟩
    have hall : ∀ r, (w.log.pruned e.domain r).events = [] := by
      intro r
      refine List.eq_nil_iff_forall_not_mem.2 fun ev hev => ?_
      obtain ⟨hev, hd⟩ := List.mem_filter.1 hev
      rw [hlog] at hev
      rcases List.mem_append.1 hev with hev | hev
      · have hnone : (openNew P key dir).log.events = [] := (@restorable_open P key dir).events
        rw [hnone] at hev
        exact List.not_mem_nil hev
      · rw [List.mem_singleton.1 hev] at hd
        exact (of_decide_eq_true hd) rfl
    exact congrArg List.length (hall _)

end

theorem demo_recorded : ∃ l, Anchoring demoPrims demoTxHash (Runs.run stepDemo demoDesk [.record (demoRecord 5) {} {}]) l ∧
    l.entries = [] ∧
    (Runs.run stepDemo demoDesk [.record (demoRecord 5) {} {}]).log =
      ((openNew demoPrims none "data").log.push demoPrims (demoEntry 5)).1 ∧
    (Runs.run stepDemo demoDesk [.record (demoRecord 5) {} {}]).chain = ownedChain ∧
    (Runs.run stepDemo demoDesk [.record (demoRecord 5) {} {}]).epochs = ⟨[firstEpoch demoPrims (demoEntry 5)], Epoch.new 1 1⟩ ∧
    sealedLog stepDemo 0 demoDesk [.record (demoRecord 5) {} {}] =
      some (Runs.run stepDemo demoDesk [.record (demoRecord 5) {} {}]).log := by
  have hentry : (demoRecord 5).entry demoPrims none = some (demoEntry 5) := rfl
  obtain ⟨hlog, hchain, hes⟩ := @first_record demoPrims none "data" (fun _ => .missing) ownedChain _ _ hentry
  have hs := (@anchoring_start demoPrims demoTxHash _ none "data" ⟨1, 0⟩ none (fun _ => .missing) ownedChain
    represents_ownedChain).record (demoRecord 5) {} {}
  have hopen : ¬ 0 < demoDesk.epochs.earlier.length := by
    rw [demoDesk_eq]
    exact Nat.lt_irrefl 0
  rw [← demoDesk_eq] at hlog hchain hes hs
  have hrun : Runs.run stepDemo demoDesk [.record (demoRecord 5) {} {}] = recordEventCmd demoPrims (demoRecord 5) {} {} demoDesk :=
    rfl
  have hseal : sealedLog stepDemo 0 demoDesk [.record (demoRecord 5) {} {}] =
      sealedLog stepDemo 0 (recordEventCmd demoPrims (demoRecord 5) {} {} demoDesk) [] := if_neg hopen
  rw [hrun, hseal]
  generalize recordEventCmd demoPrims (demoRecord 5) {} {} demoDesk = s at hlog hchain hes hs ⊢
  refine ⟨_, hs, rfl, hlog, hchain, hes, if_pos ?_⟩
  rw [hes]
  exact Nat.zero_lt_one

/-- Right after the event, the metadata describes it. -/
theorem first_described : ∃ entry l' log,
    Contract.Represents (commitLatestEpochRoot demoPrims (fun _ => "") Contract.demoHost demoTxHash demoSigner demoConfig none none
      demoReplies (Runs.run stepDemo demoDesk [.record (demoRecord 5) {} {}])).2.chain l' ∧ l'.entries = [entry] ∧
    sealedLog stepDemo 0 demoDesk [.record (demoRecord 5) {} {}] = some log ∧
    Describes demoPrims "testnet" entry.metadata (logUpTo 0 log) := by
  obtain ⟨l, hs, hempty, hlog, hchain, hes, hseal⟩ := demo_recorded
  have hiff := commit_metadata_iff demoPrims (fun _ => "") demoHost demoSigner demoConfig none "data" ⟨1, 0⟩ none
    (fun _ => .missing) demoTxHash demoTxHash_ne ownedChain .nil represents_ownedChain [.record (demoRecord 5) {} {}] none rfl
    none demoReplies l
  rw [← demoDesk_eq] at hiff
  unfold stepDemo at hs hlog hchain hes hseal ⊢
  obtain ⟨superRoot, domains, hsuper⟩ := @first_superRoot demoPrims none "data" (demoEntry 5)
  rw [← hlog] at hsuper
  obtain ⟨htarget, entry, l', s', hcmd, _, hr', hl', _⟩ := @first_commit demoPrims (fun _ => "") demoHost demoTxHash
    demoSigner demoConfig (demoEntry 5) _ l hs hempty hes _ _ (hchain ▸ demo_accepted) _ _ hsuper none none
  rw [commitCmd_unmarked] at hcmd
  rw [← show _ = s' from hcmd] at hr'
  obtain ⟨_, hdesc⟩ := hiff l' entry hs.represents hr' (by rw [hempty]; exact hl')
  obtain ⟨log, hseal', _, hwhen⟩ := hdesc _ 0 htarget rfl
  obtain rfl : (_ : AuditLog) = log := Option.some.inj (hseal.symm.trans hseal')
  refine ⟨entry, l', _, hr', hl', hseal, hwhen.2 ?_⟩
  rw [hlog]
  exact ⟨first_leafCount, congrArg List.length (events_logUpTo (indexed_push indexed_open _) first_leafCount).symm⟩

/-- After a prune, the metadata counts no event and has the super-root of none, beside the root of one. -/
theorem pruned_not_described : ∃ entry l' log,
    Contract.Represents (commitLatestEpochRoot demoPrims (fun _ => "") Contract.demoHost demoTxHash demoSigner demoConfig none none
      demoReplies (Runs.run stepDemo demoDesk [.record (demoRecord 5) {} {}, .pruneDomain ⟨1, 0⟩ "rs:rs0" "shop" {}])).2.chain l' ∧
    l'.entries = [entry] ∧
    sealedLog stepDemo 0 demoDesk [.record (demoRecord 5) {} {}, .pruneDomain ⟨1, 0⟩ "rs:rs0" "shop" {}] = some log ∧
    hexText entry.root = rootHex demoPrims (logUpTo 0 log).tree.leaves ∧
    ¬ Describes demoPrims "testnet" entry.metadata (logUpTo 0 log) := by
  obtain ⟨l, hs, hempty, hlog, hchain, hes, hseal⟩ := demo_recorded
  have hrun : ∀ s, Runs.run stepDemo s [.record (demoRecord 5) {} {}, .pruneDomain ⟨1, 0⟩ "rs:rs0" "shop" {}] =
      (Runs.run stepDemo s [.record (demoRecord 5) {} {}]).withWorld (exec (pruneDomain demoPrims {} ⟨1, 0⟩ "rs:rs0" "shop")
        (Runs.run stepDemo s [.record (demoRecord 5) {} {}]).service.world).2 := fun _ => rfl
  have hseal' := @sealedLog_append _ _ _ _ [.pruneDomain ⟨1, 0⟩ "rs:rs0" "shop" {}] _ hseal
  rw [List.singleton_append] at hseal'
  rw [hrun, hseal']
  generalize Runs.run stepDemo demoDesk [.record (demoRecord 5) {} {}] = s at hs hlog hchain hes ⊢
  obtain ⟨hnone, superRoot, domains, hsuper⟩ := @first_pruned demoPrims none "data" (demoEntry 5) s.service.world hlog ⟨1, 0⟩
  have hs2 := hs.sameRoots (@keeps_pruneDomain demoPrims {} ⟨1, 0⟩ "rs:rs0" "shop" s.service.world)
  have hworn : Worn s.log _ := @worn_pruneDomain demoPrims {} ⟨1, 0⟩ "rs:rs0" "shop" s.service.world
  have hdom : (demoEntry 5).deploymentId = "rs:rs0" ∧ (demoEntry 5).database = "shop" := ⟨rfl, rfl⟩
  rw [hdom.1, hdom.2] at hnone hsuper
  generalize (exec (pruneDomain demoPrims {} ⟨1, 0⟩ "rs:rs0" "shop") s.service.world).2 = w at hnone hsuper hs2 hworn ⊢
  obtain ⟨_, entry, l', s', hcmd, _, hr', hl', hroot, hmeta⟩ := @first_commit demoPrims (fun _ => "") demoHost demoTxHash
    demoSigner demoConfig (demoEntry 5) (s.withWorld w) l hs2 hempty hes _ _ (hchain ▸ demo_accepted) _ _ hsuper none none
  rw [commitCmd_unmarked] at hcmd
  rw [← show _ = s' from hcmd] at hr'
  have hindexed : Indexed s.log := by
    rw [hlog]
    exact indexed_push indexed_open _
  have hone : s.log.leafCount = 0 + 1 := by
    rw [hlog]
    exact first_leafCount
  refine ⟨entry, l', s.log, hr', hl', rfl, ?_, ?_⟩
  · have hleaves : (logUpTo 0 s.log).tree.leaves = [5] := by
      rw [hlog]
      show ((openNew demoPrims none "data").log.tree.leaves ++ [5]).take 1 = [5]
      rw [(@filed_open demoPrims none "data").tree]
      rfl
    rw [hleaves]
    exact (Option.some.inj hroot).symm
  · rw [hmeta]
    intro hdesc
    obtain ⟨_, hcounts⟩ := (describes_iff hworn hindexed (show 0 < s.log.leafCount by omega) hsuper).1 hdesc
    have hpresent : (logUpTo 0 s.log).eventCount = s.log.eventCount := congrArg List.length (events_logUpTo hindexed hone)
    have hpos : s.log.eventCount = (openNew demoPrims none "data").log.eventCount + 1 := by
      rw [hlog]
      simp [AuditLog.eventCount, AuditLog.push]
    rw [hpresent, hpos] at hcounts
    exact absurd (hnone.symm.trans hcounts) (Nat.succ_ne_zero _).symm

end Desktop
