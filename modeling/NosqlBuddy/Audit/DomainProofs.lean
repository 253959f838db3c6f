import NosqlBuddy.Audit.SuperRoot
import NosqlBuddy.Desktop.ProofCommands

/-!
# Domain proofs and super-root proofs

Both rebuild a tree that `domain_root` and `domain_super_root` build too, in the order of the events in memory.
`DomainProofs` is what the two return: proofs that verify, of the right leaves, against the right roots. The
documentation counts the positions of a domain "in global index order". Memory is in that order after any steps
(`eventsInOrder_step`) but one: `verify_against_tree` takes the lines as they stand, where `replay_file` checks each
index, and a log that opens through `tree.sled` can show its events in another order
(`cleared_log_out_of_order`).
-/

namespace Audit
open Mutation Text Merkle
open Desktop (zkAuditText)

/-! ## The source -/

section
variable (P : Prims)

/-- `prove_inclusion_in_domain` (mod.rs:1344). -/
def AuditLog.proveInclusionInDomain (log : AuditLog) (deploymentId database : String) (position : Nat) :
    Except AuditError (InclusionProof × String) := do
  let leaves ← domainLeaves deploymentId database log.events
  let count := leaves.length
  if position ≥ count then
    throw (.validation s!"domain proof position {position} out of range (domain has {count} leaf/leaves)")
  match (⟨leaves⟩ : AuditMerkleTree 20).proveInclusion P position with
  | .ok proof => return (proof, frToHex proof.root)
  | .error e => throw (.zkAudit (zkAuditText e))

/-- `prove_domain_in_super` (mod.rs:1397). -/
def AuditLog.proveDomainInSuper (log : AuditLog) (deploymentId database : String) :
    Except AuditError (InclusionProof × String × String) := do
  let domains := log.listDomains
  match domains.findIdx? fun d => d.1 = deploymentId ∧ d.2 = database with
  | none => throw (.validation s!"unknown audit domain {deploymentId}/{database}: no events or retained root")
  | some position =>
    let entries ← domains.mapM fun d => do
      let (rootHex, _count) ← log.domainRoot P d.1 d.2
      return (d.1, d.2, rootHex)
    let domainRootHex := (entries.map (·.2.2)).getD position ""
    match (⟨entries.map fun e => superLeaf P e.1 e.2.1 e.2.2⟩ : AuditMerkleTree 20).proveInclusion P position with
    | .ok proof => return (proof, frToHex proof.root, domainRootHex)
    | .error e => throw (.zkAudit (zkAuditText e))

end

/-! ## The statements -/

/-- The active events of a domain, in index order. -/
def AuditLog.inIndexOrder (log : AuditLog) (d : Domain) : List AuditEvent :=
  (log.events.filter (·.domain = d)).insertionSort fun a b => a.index ≤ b.index

/-- What both provers return, in a log within the capacity of the trees. -/
def DomainProofs (P : Prims) (log : AuditLog) : Prop :=
  log.events.length ≤ 2 ^ 20 → log.listDomains.length ≤ 2 ^ 20 →
  (∀ d p ev, (log.inIndexOrder d)[p]? = some ev → ∃ proof root,
    log.proveInclusionInDomain P d.1 d.2 p = .ok (proof, root) ∧ proof.verify P = .ok true ∧ proof.leafIndex = p ∧
      hexToFr ev.leafHex = .ok proof.leaf ∧ root = frToHex proof.root ∧
      log.domainRoot P d.1 d.2 = .ok (root, (log.inIndexOrder d).length)) ∧
  ∀ d ∈ log.listDomains, ∃ proof superRoot domainRoot count entries,
    log.proveDomainInSuper P d.1 d.2 = .ok (proof, superRoot, domainRoot) ∧ proof.verify P = .ok true ∧
      log.domainRoot P d.1 d.2 = .ok (domainRoot, count) ∧ proof.leaf = superLeaf P d.1 d.2 domainRoot ∧
      log.listDomains[proof.leafIndex]? = some d ∧ superRoot = frToHex proof.root ∧
      log.domainSuperRoot P = .ok (superRoot, entries)

/-- The operations on a log, each with what fails in it, and what others do to the disk. -/
inductive ServiceStep where
  /-- every `record_*` function ends in `record_inner` -/
  | record (io : Io) (e : Entry)
  | setLegalHold (io : Io) (deploymentId database : String) (hold : Bool)
  | pruneDomain (io : Io) (now : Instant) (deploymentId database : String)
  | clear (io : Io)
  | setLeafKey (key : Option Bytes32)
  | setPersistenceDir (io : Io) (dir : String)
  /-- a new process -/
  | start
  /-- other programs change the files -/
  | rewritten (disk : String → Dir)

section
variable (P : Prims)

def stepService (w : World) : ServiceStep → World
  | .record io e => (exec (recordInner P io e) w).2
  | .setLegalHold io dep db hold => (exec (setLegalHold P io dep db hold) w).2
  | .pruneDomain io now dep db => (exec (pruneDomain P io now dep db) w).2
  | .clear io => (exec (clear io) w).2
  | .setLeafKey key => { w with log := { w.log with leafKey := key } }
  | .setPersistenceDir io dir => (exec (setPersistenceDir P io dir) w).2
  | .start => World.start none w.disk
  | .rewritten disk => { w with disk := disk }

/-- A directory that opens through `tree.sled` is opened before any event is in memory, as the documentation of
`set_persistence_dir` asks, and its event lines stand in index order. -/
def ServiceStep.InOrder (w : World) : ServiceStep → Prop
  | .setPersistenceDir io dir => (sledTree io (w.disk dir)).isSome → w.log.events = [] ∧
      ∀ evs m d, readOutcome P io (w.disk dir).withSled = (.ok (evs, m), d) → (evs.map (·.index)).Pairwise (· < ·)
  | _ => True

/-- The events in memory carry leaves, increasing indices, and indices of the tree. -/
structure EventsInOrder (log : AuditLog) : Prop where
  leaf : ∀ ev ∈ log.events, ∃ leaf, ev.leafHex = frToHex leaf
  ordered : (log.events.map (·.index)).Pairwise (· < ·)
  below : ∀ ev ∈ log.events, ev.index < log.tree.leaves.length

end

section
variable {P : Prims} {key : Option Bytes32} {log log' : AuditLog}

/-! ## Memory in index order -/

theorem EventsInOrder.of_empty (h : log.events = []) : EventsInOrder log :=
  ⟨by simp [h], by simp [h], by simp [h]⟩

theorem EventsInOrder.sublist (h : EventsInOrder log) (hsub : log'.events.Sublist log.events)
    (hle : log.tree.leaves.length ≤ log'.tree.leaves.length) : EventsInOrder log' where
  leaf := fun ev hev => h.leaf ev (hsub.subset hev)
  ordered := h.ordered.sublist (hsub.map _)
  below := fun ev hev => Nat.lt_of_lt_of_le (h.below ev (hsub.subset hev)) hle

theorem EventsInOrder.push (h : EventsInOrder log) (e : Entry) : EventsInOrder (log.push P e).1 := by
  have htree : (log.push P e).1.tree.leaves.length = log.tree.leaves.length + 1 := by
    simp [AuditLog.push, AuditMerkleTree.insert]
  obtain ⟨ev, hevents, hindex, hleaf⟩ : ∃ ev, (log.push P e).1.events = log.events ++ [ev] ∧
      ev.index = log.tree.leaves.length ∧ ev.leafHex = frToHex e.leaf := ⟨_, rfl, rfl, rfl⟩
  refine ⟨?_, ?_, ?_⟩
  · rw [hevents]
    intro ev' hev'
    rcases List.mem_append.1 hev' with hev' | hev'
    · exact h.leaf ev' hev'
    · exact ⟨e.leaf, by rw [List.mem_singleton.1 hev', hleaf]⟩
  · rw [hevents, List.map_append, List.pairwise_append]
    refine ⟨h.ordered, by simp, fun i hi j hj => ?_⟩
    obtain ⟨ev', hev', rfl⟩ := List.mem_map.1 hi
    rw [List.map_singleton, List.mem_singleton] at hj
    rw [hj, hindex]
    exact h.below ev' hev'
  · rw [hevents, htree]
    intro ev' hev'
    rcases List.mem_append.1 hev' with hev' | hev'
    · exact Nat.lt_succ_of_lt (h.below ev' hev')
    · rw [List.mem_singleton.1 hev', hindex]
      exact Nat.lt_succ_self _

theorem leafHex_countEvents : ∀ (evs : List PersistedEvent) (seqs : Finmap fun _ : Domain => Nat),
    (countEvents evs seqs).1.map (·.leafHex) = evs.map (·.leafHex)
  | [], _ => rfl
  | ev :: evs, seqs => by
    simp only [countEvents, List.map_cons, leafHex_countEvents evs]
    rfl

theorem EventsInOrder.of_lines {evs : List PersistedEvent} (hevents : log.events = (countEvents evs ∅).1)
    (hcheck : ∀ ev ∈ evs, (checkedLeaf P key ev).isSome ∧ ev.index < log.tree.leaves.length)
    (hordered : (evs.map (·.index)).Pairwise (· < ·)) : EventsInOrder log where
  leaf := by
    intro ev hev
    have hmem : ev.leafHex ∈ evs.map (·.leafHex) := by
      rw [← leafHex_countEvents evs ∅, ← hevents]
      exact List.mem_map_of_mem hev
    obtain ⟨line, hline, hhex⟩ := List.mem_map.1 hmem
    obtain ⟨leaf, hleaf⟩ := Option.isSome_iff_exists.1 (hcheck line hline).1
    exact ⟨leaf, by rw [← hhex, (checkedLeaf_eq_some.1 hleaf).2]⟩
  ordered := by rwa [hevents, index_countEvents]
  below := by
    intro ev hev
    have hmem : ev.index ∈ evs.map (·.index) := by
      rw [← index_countEvents evs ∅, ← hevents]
      exact List.mem_map_of_mem hev
    obtain ⟨line, hline, hindex⟩ := List.mem_map.1 hmem
    rw [← hindex]
    exact (hcheck line hline).2

/-! ### What the readers leave, also when they stop -/

theorem verifyEvents_read {n : Nat} : ∀ (evs : List PersistedEvent) (seqs : Finmap fun _ : Domain => Nat) (events : List AuditEvent),
    ∃ pre, pre <+: evs ∧ (∀ ev ∈ pre, (checkedLeaf P key ev).isSome ∧ ev.index < n) ∧
      (verifyEvents P key n evs seqs events).2 = events ++ (countEvents pre seqs).1
  | [], seqs, events => ⟨[], List.prefix_rfl, by simp, by simp [verifyEvents, countEvents]⟩
  | ev :: evs, seqs, events => by
    rw [verifyEvents]
    cases hr : recomputeLeaf P key ev with
    | error e => exact ⟨[], List.nil_prefix, by simp, by simp [countEvents]⟩
    | ok leaf =>
      by_cases hhex : frToHex leaf = ev.leafHex
      · by_cases hn : ev.index ≥ n
        · exact ⟨[], List.nil_prefix, by simp, by simp [hhex, hn, countEvents]⟩
        · obtain ⟨pre, hpre, hcheck, hread⟩ := verifyEvents_read evs (countEvent seqs ev).2 (events ++ [(countEvent seqs ev).1])
          refine ⟨ev :: pre, List.cons_prefix_cons.2 ⟨rfl, hpre⟩, ?_, ?_⟩
          · rw [List.forall_mem_cons]
            exact ⟨⟨Option.isSome_iff_exists.2 ⟨leaf, checkedLeaf_eq_some.2 ⟨hr, hhex⟩⟩, Nat.lt_of_not_le hn⟩, hcheck⟩
          · simp only [hhex, ne_eq, not_true_eq_false, if_false, hn]
            rw [hread, countEvents, List.append_assoc, List.singleton_append]
      · exact ⟨[], List.nil_prefix, by simp, by simp [hhex, countEvents]⟩

theorem replayEvents_read : ∀ (evs : List PersistedEvent) (st : Replay),
    ∃ pre, Chained P key st.tree.leaves pre ∧
      (replayEvents P key evs st).2.events = st.events ++ (countEvents pre st.seqCounters).1 ∧
      st.tree.leaves.length + pre.length ≤ (replayEvents P key evs st).2.tree.leaves.length
  | [], st => ⟨[], trivial, by simp [replayEvents, countEvents], by simp [replayEvents]⟩
  | ev :: evs, st => by
    have hstop : ∃ pre : List PersistedEvent, Chained P key st.tree.leaves pre ∧
        st.events = st.events ++ (countEvents pre st.seqCounters).1 ∧
        st.tree.leaves.length + pre.length ≤ st.tree.leaves.length := ⟨[], trivial, by simp [countEvents], by simp⟩
    have hstop' : ∀ leaf, ∃ pre : List PersistedEvent, Chained P key st.tree.leaves pre ∧
        st.events = st.events ++ (countEvents pre st.seqCounters).1 ∧
        st.tree.leaves.length + pre.length ≤ (st.tree.insert leaf).1.leaves.length :=
      fun leaf => ⟨[], trivial, by simp [countEvents], by simp [AuditMerkleTree.insert]⟩
    rw [replayEvents]
    cases hr : recomputeLeaf P key ev with
    | error e => exact hstop
    | ok leaf =>
      by_cases hhex : frToHex leaf = ev.leafHex
      · by_cases hindex : (st.tree.insert leaf).2 = ev.index
        · by_cases hroot : frToHex ((st.tree.insert leaf).1.root P) = ev.rootAfter
          · simp only [hhex, ne_eq, not_true_eq_false, if_false, hindex, hroot]
            obtain ⟨pre, hchained, hread, hlen⟩ := replayEvents_read evs ⟨(st.tree.insert leaf).1,
              st.rootAfterByIndex ++ [frToHex ((st.tree.insert leaf).1.root P)], (countEvent st.seqCounters ev).2,
              st.events ++ [(countEvent st.seqCounters ev).1]⟩
            rw [hroot] at hread hlen
            refine ⟨ev :: pre, ⟨leaf, checkedLeaf_eq_some.2 ⟨hr, hhex⟩, hindex.symm, hroot.symm, hchained⟩, ?_, ?_⟩
            · rw [hread, countEvents, List.append_assoc, List.singleton_append]
            · simp only [AuditMerkleTree.insert, List.length_append, List.length_cons] at hlen ⊢
              omega
          · simp only [hhex, ne_eq, not_true_eq_false, if_false, hindex, hroot, not_false_eq_true, if_true]
            exact hstop' leaf
        · simp only [hhex, ne_eq, not_true_eq_false, if_false, hindex, not_false_eq_true, if_true]
          exact hstop' leaf
      · simp only [hhex, ne_eq, not_false_eq_true, if_true]
        exact hstop

theorem EventsInOrder.verify {evs : List PersistedEvent} (hnone : log.events = []) (hordered : (evs.map (·.index)).Pairwise (· < ·)) :
    EventsInOrder (log.verify P evs).2 := by
  unfold AuditLog.verify
  by_cases hnil : evs = []
  · rw [if_pos hnil]
    exact .of_empty hnone
  rw [if_neg hnil, if_neg (not_not_intro hnone)]
  obtain ⟨pre, hpre, hcheck, hread⟩ := @verifyEvents_read P log.leafKey log.tree.leafCount evs ∅ log.events
  rw [hnone, List.nil_append] at hread
  rw [hnone]
  generalize verifyEvents P log.leafKey log.tree.leafCount evs ∅ [] = r at hread
  obtain ⟨res, events⟩ := r
  subst hread
  have hbase : EventsInOrder { log with events := (countEvents pre ∅).1 } :=
    .of_lines rfl hcheck (hordered.sublist (hpre.sublist.map _))
  cases res with
  | error e => exact hbase
  | ok seqs =>
    simp only
    split
    · split
      · exact hbase.sublist (List.Sublist.refl _) (Nat.le_refl _)
      · exact hbase.sublist List.filter_sublist (Nat.le_refl _)
    · exact hbase.sublist List.filter_sublist (Nat.le_refl _)

theorem EventsInOrder.replay (h : EventsInOrder log) (evs : List PersistedEvent) : EventsInOrder (log.replay P evs).2 := by
  unfold AuditLog.replay
  by_cases hnil : evs = []
  · rw [if_pos hnil]
    exact h
  rw [if_neg hnil]
  by_cases hused : log.events ≠ [] ∨ log.tree.leafCount ≠ 0
  · rw [if_pos hused]
    exact h
  rw [if_neg hused]
  simp only [not_or, not_not] at hused
  obtain ⟨hnone, hcount⟩ := hused
  have hleaves : log.tree.leaves = [] := List.eq_nil_of_length_eq_zero hcount
  obtain ⟨pre, hchained, hread, hlen⟩ := @replayEvents_read P log.leafKey evs ⟨log.tree, log.rootAfterByIndex, ∅, log.events⟩
  simp only [hleaves, hnone, List.nil_append, List.length_nil, Nat.zero_add] at hchained hread hlen
  rw [hnone]
  generalize replayEvents P log.leafKey evs ⟨log.tree, log.rootAfterByIndex, ∅, []⟩ = r at hread hlen
  obtain ⟨res, st⟩ := r
  obtain ⟨hchecked, hplace⟩ := (chained_iff pre []).1 hchained
  have hindex : pre.map (·.index) = List.range pre.length := by
    refine List.ext_getElem? fun i => ?_
    rw [List.getElem?_map]
    cases hi : pre[i]? with
    | none => simp [List.getElem?_eq_none_iff.1 hi]
    | some ev =>
      obtain ⟨hlt, _⟩ := List.getElem?_eq_some_iff.1 hi
      simp [hlt, (hplace i ev hi).1]
  have hbelow : ∀ ev ∈ pre, ev.index < pre.length := by
    intro ev hev
    rw [← List.mem_range, ← hindex]
    exact List.mem_map_of_mem hev
  have hbase : EventsInOrder { log with tree := st.tree, rootAfterByIndex := st.rootAfterByIndex, events := st.events } :=
    .of_lines hread (fun ev hev => ⟨hchecked ev hev, Nat.lt_of_lt_of_le (hbelow ev hev) hlen⟩)
      (by rw [hindex]; exact List.pairwise_lt_range)
  cases res with
  | error e => exact hbase
  | ok _ => exact hbase.sublist List.filter_sublist (Nat.le_refl _)

/-! ### Steps -/

theorem bind_keeps_order {α β : Type} {x : AuditM α} {f : α → AuditM β} {w : World} (hx : EventsInOrder (exec x w).2.log)
    (hf : ∀ a w', exec x w = (.ok a, w') → EventsInOrder (exec (f a) w').2.log) : EventsInOrder (exec (x >>= f) w).2.log := by
  rw [exec_bind]
  generalize exec x w = r at hx hf
  obtain ⟨_ | a, w'⟩ := r
  · exact hx
  · exact hf a w' rfl

theorem EventsInOrder.kept {α : Type} {x : AuditM α} {w : World} (h : EventsInOrder w.log)
    (hx : Keeps (fun w : World => (w.log.events, w.log.tree)) x) : EventsInOrder (exec x w).2.log := by
  have hkept := hx.apply w
  simp only [Prod.mk.injEq] at hkept
  exact h.sublist (by rw [hkept.1]) (by rw [hkept.2])

theorem EventsInOrder.readThen {io : Io} {dir : String} {w : World}
    {f : AuditLog → List PersistedEvent → Except AuditError Unit × AuditLog} (h : EventsInOrder w.log)
    (hf : ∀ evs m d, readOutcome P io (w.disk dir) = (.ok (evs, m), d) → EventsInOrder (f (w.log.setMeta m) evs).2) :
    EventsInOrder (w.readThen P io dir f).2.log := by
  unfold World.readThen
  generalize readOutcome P io (w.disk dir) = r at hf
  obtain ⟨_ | ⟨evs, m⟩, d⟩ := r
  · exact h
  · exact hf evs m d rfl

theorem EventsInOrder.setPersistenceDir {io : Io} {dir : String} {w : World} (h : EventsInOrder w.log)
    (hok : ServiceStep.InOrder P w (.setPersistenceDir io dir)) : EventsInOrder (exec (setPersistenceDir P io dir) w).2.log := by
  have hcheck : ∀ (fault : Option String) (mk : String → AuditError) (w : World), (exec (check fault mk) w).2 = w := by
    intro fault mk w
    cases fault <;> rfl
  unfold Audit.setPersistenceDir
  refine bind_keeps_order (by rw [hcheck]; exact h) fun _ w' hw => ?_
  obtain rfl : w' = w := by rw [← hcheck io.createDir .io w, hw]
  clear hw
  rw [exec_bind_ok (exec_loadSled io dir w')]
  have hloaded : EventsInOrder { w'.log with tree := (sledTree io (w'.disk dir)).getD w'.log.tree } := by
    cases hsled : sledTree io (w'.disk dir) with
    | none => exact h.sublist (List.Sublist.refl _) (Nat.le_refl _)
    | some tree => exact .of_empty (hok (by rw [hsled]; rfl)).1
  have hopen : io.sledReopen = none →
      exec (openSled io dir) { w' with log := { w'.log with tree := (sledTree io (w'.disk dir)).getD w'.log.tree } } =
        (.ok (), w'.opening io dir) := by
    intro hre
    unfold openSled
    rw [hre]
    rfl
  have hfault : ∀ e, io.sledReopen = some e →
      exec (openSled io dir) { w' with log := { w'.log with tree := (sledTree io (w'.disk dir)).getD w'.log.tree } } =
        (.error (.validation s!"open sled tree store: {e}"),
          { w' with log := { w'.log with tree := (sledTree io (w'.disk dir)).getD w'.log.tree } }) := by
    intro e hre
    unfold openSled
    rw [hre]
    rfl
  have hopening : EventsInOrder (w'.opening io dir).log := hloaded.sublist (List.Sublist.refl _) (Nat.le_refl _)
  refine bind_keeps_order ?_ fun _ w1 hw1 => ?_
  · cases hre : io.sledReopen with
    | none =>
      rw [hopen hre]
      exact hopening
    | some e =>
      rw [hfault e hre]
      exact hloaded
  obtain rfl : w1 = w'.opening io dir := by
    cases hre : io.sledReopen with
    | none =>
      rw [hopen hre] at hw1
      exact (congrArg Prod.snd hw1).symm
    | some e =>
      rw [hfault e hre] at hw1
      cases congrArg Prod.fst hw1
  have hread : EventsInOrder (exec (readEvents P io dir (sledTree io (w'.disk dir)).isSome) (w'.opening io dir)).2.log := by
    cases hevents : ((w'.opening io dir).disk dir).events with
    | none =>
      unfold readEvents
      rw [exec_bind_ok (exec_get _), hevents]
      exact hopening
    | some content =>
      rw [exec_readEvents_some hevents]
      refine hopening.readThen fun evs m d hout => ?_
      rw [opening_disk] at hout
      cases hsled : sledTree io (w'.disk dir) with
      | none =>
        simp only [Option.isSome_none, Bool.false_eq_true, if_false]
        have hmeta : EventsInOrder ((w'.opening io dir).log.setMeta m) := hopening.sublist (List.Sublist.refl _) (Nat.le_refl _)
        exact hmeta.replay evs
      | some tree =>
        obtain ⟨hnone, hordered⟩ := hok (by rw [hsled]; rfl)
        simp only [Option.isSome_some, if_true]
        exact EventsInOrder.verify hnone (hordered evs m d hout)
  refine bind_keeps_order hread fun _ w2 hw2 => ?_
  have h2 : EventsInOrder w2.log := by
    rw [hw2] at hread
    exact hread
  refine h2.kept ?_
  unfold openAppend
  refine keeps_bind ?_ fun _ => keeps_modify fun _ => rfl
  intro w3
  rw [hcheck]

theorem eventsInOrder_step {w : World} {s : ServiceStep} (hok : s.InOrder P w) (h : EventsInOrder w.log) : EventsInOrder (stepService P w s).log := by
  cases s with
  | record io e =>
    simp only [stepService, log_recordInner]
    exact h.push e
  | setLegalHold io dep db hold =>
    simp only [stepService, log_setLegalHold]
    exact h.sublist (List.Sublist.refl _) (Nat.le_refl _)
  | pruneDomain io now dep db =>
    simp only [stepService]
    rcases @log_pruneDomain P io now dep db w with hsame | ⟨leaves, maxIndex, _, _, hpruned⟩
    · rw [hsame]
      exact h
    · rw [hpruned]
      exact h.sublist List.filter_sublist (Nat.le_refl _)
  | clear io =>
    simp only [stepService]
    unfold Audit.clear
    rw [exec_bind_ok (exec_modify _ _), exec_bind_ok (exec_get _)]
    have hcheck : ∀ (fault : Option String) (mk : String → AuditError),
        Keeps (fun w : World => (w.log.events, w.log.tree)) (check fault mk) := by
      intro fault mk w
      cases fault <;> rfl
    refine EventsInOrder.kept (.of_empty rfl) ?_
    have htruncate : ∀ dir : String, Keeps (fun w : World => (w.log.events, w.log.tree)) (do
          check io.truncate .io
          modify fun w => w.setDir dir { w.disk dir with events := some ByteArray.empty }
          check io.reopen .io) := by
      intro dir
      exact keeps_bind (hcheck _ _) fun _ => keeps_bind (keeps_modify fun _ => rfl) fun _ => hcheck _ _
    cases w.log.sledStore with
    | none =>
      cases w.log.persistence with
      | none => exact keeps_pure _
      | some dir => exact htruncate dir
    | some sled =>
      refine keeps_bind (hcheck _ _) fun _ => keeps_bind (keeps_modify fun _ => rfl) fun _ => ?_
      cases w.log.persistence with
      | none => exact keeps_pure _
      | some dir => exact htruncate dir
  | setLeafKey key => exact h.sublist (List.Sublist.refl _) (Nat.le_refl _)
  | setPersistenceDir io dir => exact h.setPersistenceDir hok
  | start => exact .of_empty rfl
  | rewritten disk => exact h

/-! ## The provers -/

theorem EventsInOrder.inIndexOrder (h : EventsInOrder log) (d : Domain) :
    log.inIndexOrder d = log.events.filter (·.domain = d) := by
  refine List.Pairwise.insertionSort_eq ?_
  have hsub : (log.events.filter (·.domain = d)).Sublist log.events := List.filter_sublist
  have hordered := List.pairwise_map.1 (h.ordered.sublist (hsub.map _))
  exact hordered.imp Nat.le_of_lt

theorem EventsInOrder.domainLeaves (h : EventsInOrder log) (d : Domain) : ∃ leaves, domainLeaves d.1 d.2 log.events = .ok leaves ∧
    (log.events.filter (·.domain = d)).map (·.leafHex) = leaves.map frToHex := by
  have hrange : (log.events.filter (·.domain = d)).map (·.leafHex) ∈ Set.range (List.map frToHex) := by
    rw [Set.range_list_map]
    intro hex hhex
    obtain ⟨ev, hev, rfl⟩ := List.mem_map.1 hhex
    obtain ⟨leaf, hleaf⟩ := h.leaf ev (List.mem_of_mem_filter hev)
    exact ⟨leaf, hleaf.symm⟩
  obtain ⟨leaves, hleaves⟩ := hrange
  exact ⟨leaves, domainLeaves_ok hleaves.symm, hleaves.symm⟩

theorem EventsInOrder.proveInclusionInDomain (h : EventsInOrder log) (hlen : log.events.length ≤ 2 ^ 20) {d : Domain} {p : Nat}
    {ev : AuditEvent} (hev : (log.inIndexOrder d)[p]? = some ev) : ∃ proof root,
      log.proveInclusionInDomain P d.1 d.2 p = .ok (proof, root) ∧ proof.verify P = .ok true ∧ proof.leafIndex = p ∧
      hexToFr ev.leafHex = .ok proof.leaf ∧ root = frToHex proof.root ∧
      log.domainRoot P d.1 d.2 = .ok (root, (log.inIndexOrder d).length) := by
  obtain ⟨leaves, hscan, hleaves⟩ := h.domainLeaves d
  rw [h.inIndexOrder d] at hev ⊢
  have hcount : (log.events.filter (·.domain = d)).length = leaves.length := by
    simpa using congrArg List.length hleaves
  obtain ⟨hp, _⟩ := List.getElem?_eq_some_iff.1 hev
  have hplt : p < leaves.length := by rwa [← hcount]
  have hp20 : p < 2 ^ 20 := by
    have hfilter := List.length_filter_le (fun ev : AuditEvent => decide (ev.domain = d)) log.events
    omega
  have hleaf := congrArg (·[p]?) hleaves
  simp only [List.getElem?_map, hev, List.getElem?_eq_getElem hplt, Option.map_some, Option.some.injEq] at hleaf
  obtain ⟨proof, hproof, hpleaf, hindex, hroot, _, _, hverify⟩ := @proveInclusion_ok P 20 ⟨leaves⟩ p _
    (List.getElem?_eq_getElem hplt) hp20
  refine ⟨proof, frToHex proof.root, ?_, hverify, hindex, ?_, rfl, ?_⟩
  · unfold AuditLog.proveInclusionInDomain
    rw [hscan]
    simp only [bind, Except.bind, ge_iff_le, Nat.not_le.2 hplt, if_false, hproof]
    rfl
  · rw [hleaf, hexToFr_frToHex, hpleaf]
  · have hnil : leaves ≠ [] := List.ne_nil_of_length_pos (Nat.zero_lt_of_lt hplt)
    unfold AuditLog.domainRoot
    rw [hscan, hroot, hcount]
    cases (log.retainedDomainRoots.lookup (d.1, d.2)).bind (·.getLast?) with
    | none => rfl
    | some r => simp [bind, Except.bind, hnil, pure, Except.pure, rootHex]

theorem EventsInOrder.domainRoot (h : EventsInOrder log) (d : Domain) : ∃ r : String × Nat, log.domainRoot P d.1 d.2 = .ok r := by
  obtain ⟨leaves, hscan, _⟩ := h.domainLeaves d
  unfold AuditLog.domainRoot
  rw [hscan]
  cases (log.retainedDomainRoots.lookup (d.1, d.2)).bind (·.getLast?) with
  | none => exact ⟨_, rfl⟩
  | some r => exact ⟨_, rfl⟩

theorem EventsInOrder.proveDomainInSuper (h : EventsInOrder log) (hlen : log.listDomains.length ≤ 2 ^ 20) {d : Domain}
    (hd : d ∈ log.listDomains) : ∃ proof superRoot domainRoot count entries,
      log.proveDomainInSuper P d.1 d.2 = .ok (proof, superRoot, domainRoot) ∧ proof.verify P = .ok true ∧
      log.domainRoot P d.1 d.2 = .ok (domainRoot, count) ∧ proof.leaf = superLeaf P d.1 d.2 domainRoot ∧
      log.listDomains[proof.leafIndex]? = some d ∧ superRoot = frToHex proof.root ∧
      log.domainSuperRoot P = .ok (superRoot, entries) := by
  choose root hroot using fun d => @EventsInOrder.domainRoot P log h d
  have hloop : (log.listDomains.mapM fun d => do
      let (rootHex, _count) ← log.domainRoot P d.1 d.2
      return (d.1, d.2, rootHex) : Except AuditError (List (String × String × String))) =
      .ok (log.listDomains.map fun d => (d.1, d.2, (root d).1)) := by
    refine Fallible.mapM_ok (g := fun d => (d.1, d.2, (root d).1)) fun d _ => ?_
    rw [hroot]
    rfl
  obtain ⟨position, hposition⟩ : ∃ position, log.listDomains.findIdx? (fun e => e.1 = d.1 ∧ e.2 = d.2) = some position := by
    rw [← Option.isSome_iff_exists, List.findIdx?_isSome, List.any_eq_true]
    exact ⟨d, hd, by simp⟩
  obtain ⟨hlt, hat, _⟩ := List.findIdx?_eq_some_iff_getElem.1 hposition
  have hdomain : log.listDomains[position]? = some d := by
    rw [List.getElem?_eq_getElem hlt, Option.some.injEq, Prod.ext_iff]
    simpa using hat
  obtain ⟨proof, hproof, hpleaf, hindex, hproot, _, _, hverify⟩ := @proveInclusion_ok P 20
    ⟨(log.listDomains.map fun d => (d.1, d.2, (root d).1)).map fun e => superLeaf P e.1 e.2.1 e.2.2⟩ position
    (superLeaf P d.1 d.2 (root d).1) (by simp [hdomain]) (by omega)
  refine ⟨proof, frToHex proof.root, (root d).1, (root d).2, log.listDomains.map fun d => (d.1, d.2, (root d).1), ?_, hverify, hroot d, hpleaf, ?_, rfl, ?_⟩
  · unfold AuditLog.proveDomainInSuper
    simp only [hposition]
    rw [hloop]
    simp only [bind, Except.bind, hproof]
    simp [hdomain, pure, Except.pure]
  · rw [hindex, hdomain]
  · unfold AuditLog.domainSuperRoot
    rw [hloop, hproot]
    rfl

theorem EventsInOrder.domainProofs (h : EventsInOrder log) : DomainProofs P log :=
  fun hlen hdomains => ⟨fun _ _ _ hev => h.proveInclusionInDomain hlen hev, fun _ hd => h.proveDomainInSuper hdomains hd⟩

/-- **Domain proofs and super-root proofs** hold in every state of every run that opens only directories in index
order. -/
theorem domain_proofs_hold (P : Prims) (disk : String → Dir) {steps : List ServiceStep}
    (hok : Runs.Guarded (stepService P) (ServiceStep.InOrder P) (World.start none disk) steps) :
    ∀ pre, pre <+: steps → DomainProofs P (Runs.run (stepService P) (World.start none disk) pre).log := by
  rintro pre ⟨post, rfl⟩
  exact (Runs.run_inv (I := fun w => EventsInOrder w.log) (fun w s hs hi => eventsInOrder_step hs hi) (Runs.guarded_left hok)
    (.of_empty rfl)).domainProofs

end

/-! ### A reset that the file outlives -/

/-- An open directory: the file has these lines, and the tree store has the leaves of the tree. -/
structure Appending (P : Prims) (dir : String) (leaves : List Fr) (lines : List PersistedEvent) (w : World) : Prop where
  tree : w.log.tree = ⟨leaves⟩
  persistence : w.log.persistence = some dir
  sledStore : w.log.sledStore = some dir
  file : (w.disk dir).events = some (fileBytes P lines [])
  stored : ∃ db, (w.disk dir).sled = some db ∧ Stored leaves db

section
variable {P : Prims} {key : Option Bytes32} {dir : String} {leaves : List Fr} {lines : List PersistedEvent} {w : World}

theorem appending_open : Appending P dir [] [] (openNew P key dir) := by
  obtain ⟨_, hs, hsled⟩ := @session_open P key dir
  exact ⟨by rw [hs.tree]; rfl, hs.persistence, hs.sledStore, hs.file, _, hsled, stored_empty⟩

theorem Appending.record (h : Appending P dir leaves lines w) (e : Entry) : ∃ sequence,
    Appending P dir (leaves ++ [e.leaf]) (lines ++ [e.persisted leaves.length sequence (rootHex P (leaves ++ [e.leaf]))])
      (stepService P w (.record {} e)) := by
  obtain ⟨db, hdb, hst⟩ := h.stored
  have hline : ∃ sequence, (w.log.push P e).2 = e.persisted leaves.length sequence (rootHex P (leaves ++ [e.leaf])) := by
    refine ⟨(nextSequence w.log.sequences e.domain).1, ?_⟩
    simp only [AuditLog.push, h.tree, AuditMerkleTree.insert]
    rfl
  obtain ⟨sequence, hline⟩ := hline
  have hstore : (World.append ⟨(w.log.push P e).1, w.disk⟩ dir (lineBytes (P.eventToString (w.log.push P e).2))).log.sledStore =
      some dir := h.sledStore
  refine ⟨sequence, ?_⟩
  simp only [stepService, @recordInner_ok P {} e w dir h.persistence rfl rfl]
  unfold World.saved
  rw [hstore]
  refine ⟨by simp [World.setDir, World.append, AuditLog.push, AuditMerkleTree.insert, h.tree], h.persistence, h.sledStore, ?_, ?_⟩
  · rw [hline, ← fileBytes_concat]
    simp [World.append, World.setDir, h.file]
  · refine ⟨_, by simp [World.append, World.setDir, hdb]; rfl, ?_⟩
    have hnext := hst.inserts e.leaf ((w.log.nextTree e).root P)
    rwa [show leaves = w.log.tree.leaves by rw [h.tree]] at hnext ⊢

theorem Appending.clear (h : Appending P dir leaves lines w) (e : String) :
    Appending P dir [] lines (stepService P w (.clear { truncate := some e })) := by
  have hexec : (exec (Audit.clear { truncate := some e }) w).2 = World.setDir ⟨{ w.log with
      tree := .empty, events := [], sequences := ∅, legalHolds := ∅, retainedDomainRoots := ∅ }, w.disk⟩ dir
      { w.disk dir with sled := some .empty } := by
    unfold Audit.clear
    rw [exec_bind_ok (exec_modify _ _), exec_bind_ok (exec_get _)]
    simp only [h.sledStore, h.persistence]
    rfl
  simp only [stepService, hexec]
  refine ⟨rfl, h.persistence, h.sledStore, ?_, .empty, ?_, stored_empty⟩
  · simp [World.setDir, h.file]
  · simp [World.setDir]

/-- Two events, a reset whose truncation fails, and two more events. -/
def resetCalls (dir error : String) (a b c d : Entry) : List ServiceStep :=
  [.setPersistenceDir {} dir, .record {} a, .record {} b, .clear { truncate := some error }, .record {} c, .record {} d]

theorem appending_resetCalls (error : String) (a b c d : Entry) : ∃ s1 s2 s3 s4, Appending P dir [c.leaf, d.leaf]
    [a.persisted 0 s1 (rootHex P [a.leaf]), b.persisted 1 s2 (rootHex P [a.leaf, b.leaf]),
      c.persisted 0 s3 (rootHex P [c.leaf]), d.persisted 1 s4 (rootHex P [c.leaf, d.leaf])]
    (Runs.run (stepService P) (World.start key emptyDisk) (resetCalls dir error a b c d)) := by
  have hopen : stepService P (World.start key emptyDisk) (.setPersistenceDir {} dir) = openNew P key dir := rfl
  simp only [resetCalls, Runs.run_cons, Runs.run_nil, hopen]
  obtain ⟨s1, h1⟩ := (@appending_open P key dir).record a
  obtain ⟨s2, h2⟩ := h1.record b
  obtain ⟨s3, h3⟩ := (h2.clear error).record c
  obtain ⟨s4, h4⟩ := h3.record d
  exact ⟨s1, s2, s3, s4, h4⟩

theorem reopened_resetCalls (hl : P.Lawful) {error : String} {a b c d : Entry} (hon : ∀ e ∈ [a, b, c, d], e.Honest P none) :
    ∃ s1 s2 s3 s4 log, (Runs.run (stepService P) (World.start none emptyDisk)
        (resetCalls dir error a b c d ++ [.start, .setPersistenceDir {} dir])).log = log ∧
      log.events = (countEvents [a.persisted 0 s1 (rootHex P [a.leaf]), b.persisted 1 s2 (rootHex P [a.leaf, b.leaf]),
        c.persisted 0 s3 (rootHex P [c.leaf]), d.persisted 1 s4 (rootHex P [c.leaf, d.leaf])] ∅).1 ∧
      log.retainedDomainRoots = ∅ := by
  obtain ⟨s1, s2, s3, s4, h⟩ := @appending_resetCalls P none dir error a b c d
  obtain ⟨db, hdb, hst⟩ := h.stored
  obtain ⟨w, hw⟩ : ∃ w, w = Runs.run (stepService P) (World.start none emptyDisk) (resetCalls dir error a b c d) := ⟨_, rfl⟩
  rw [← hw] at h hdb
  have hsled : sledTree {} ((World.start none w.disk).disk dir) = some ⟨[c.leaf, d.leaf]⟩ := hst.sledTree hdb
  have hfile : ((World.start none w.disk).disk dir).withSled.events = some (fileBytes P _ []) := h.file
  have hcheck : ∀ e ∈ [a, b, c, d], ∀ index sequence root, (checkedLeaf P none (e.persisted index sequence root)).isSome :=
    fun e he _ _ _ => Option.isSome_iff_exists.2 ⟨_, (hon e he).checkedLeaf _ _ _⟩
  have hverified : Verified P none [c.leaf, d.leaf] [a.persisted 0 s1 (rootHex P [a.leaf]),
      b.persisted 1 s2 (rootHex P [a.leaf, b.leaf]), c.persisted 0 s3 (rootHex P [c.leaf]),
      d.persisted 1 s4 (rootHex P [c.leaf, d.leaf])] := by
    refine ⟨?_, ?_⟩
    · simp only [List.forall_mem_cons, List.not_mem_nil, false_implies, implies_true, and_true]
      exact ⟨⟨hcheck a (by simp) _ _ _, Nat.zero_lt_two⟩, ⟨hcheck b (by simp) _ _ _, Nat.one_lt_two⟩,
        ⟨hcheck c (by simp) _ _ _, Nat.zero_lt_two⟩, hcheck d (by simp) _ _ _, Nat.one_lt_two⟩
    · intro last hlast
      cases hlast
      rfl
  have hopen := (@open_verified P dir (World.start none w.disk) _ _ ⟨rfl, rfl, rfl⟩ hsled _ h.file).2
    ⟨_, _, _, hl.readOutcome_file (.inl rfl) hfile, hverified, rfl⟩
  refine ⟨s1, s2, s3, s4, _, rfl, ?_, ?_⟩
  · rw [Runs.run_append, ← hw]
    simp only [Runs.run_cons, Runs.run_nil, stepService, hopen]
    exact applyRetention_empty _
  · rw [Runs.run_append, ← hw]
    simp only [Runs.run_cons, Runs.run_nil, stepService, hopen]
    rfl

/-- Four events of a domain with the indices 0, 1, 0, 1: the proof for position 1 is not that of the second event with
index 0. -/
theorem not_domainProofs {log : AuditLog} {d : Domain} {a b c e : AuditEvent} {la lb lc le : Fr} (hevents : log.events = [a, b, c, e])
    (hretained : log.retainedDomainRoots = ∅) (hdomain : ∀ ev ∈ log.events, ev.domain = d)
    (hindex : [a, b, c, e].map (·.index) = [0, 1, 0, 1]) (hleaves : [a, b, c, e].map (·.leafHex) = [la, lb, lc, le].map frToHex)
    (hne : lb ≠ lc) : ¬ DomainProofs P log := by
  intro h
  have hfilter : log.events.filter (·.domain = d) = [a, b, c, e] := by
    rw [← hevents, List.filter_eq_self]
    exact fun ev hev => decide_eq_true (hdomain ev hev)
  have hscan : domainLeaves d.1 d.2 log.events = .ok [la, lb, lc, le] := domainLeaves_ok (by rw [← hleaves, ← hfilter])
  simp only [List.map_cons, List.map_nil, List.cons.injEq, and_true] at hindex hleaves
  obtain ⟨ha, hb, hc, he⟩ := hindex
  have horder : log.inIndexOrder d = [a, c, b, e] := by
    rw [AuditLog.inIndexOrder, hfilter]
    simp [ha, hb, hc, he]
  have hdomains : log.listDomains.length ≤ 2 ^ 20 := by
    rw [AuditLog.listDomains, Finset.length_sort, hretained]
    have hcard := List.toFinset_card_le (log.events.map AuditEvent.domain)
    rw [hevents] at hcard ⊢
    simp only [Finmap.keys_empty, Finset.union_empty]
    exact hcard.trans (by simp)
  obtain ⟨proof, root, hprove, _, _, hleaf, _⟩ := (h (by rw [hevents]; simp) hdomains).1 d 1 c (by rw [horder]; rfl)
  unfold AuditLog.proveInclusionInDomain at hprove
  rw [hscan] at hprove
  simp only [bind, Except.bind, AuditMerkleTree.proveInclusion] at hprove
  obtain ⟨rfl, _⟩ := Prod.mk.inj (Except.ok.inj hprove)
  rw [hleaves.2.2.1, hexToFr_frToHex] at hleaf
  exact hne (Except.ok.inj hleaf).symm

end

/-- Two inserts, a reset that cannot truncate the file, two inserts, and a restart. -/
def clearedRun : List ServiceStep :=
  resetCalls "data" "Permission denied (os error 13)" (demoEntry "insert|shop|orders|1") (demoEntry "insert|shop|orders|2")
    (demoEntry "insert|shop|orders|3") (demoEntry "insert|shop|orders|4") ++ [.start, .setPersistenceDir {} "data"]

/-- The restarted log shows the indices 0, 1, 0, 1. -/
theorem cleared_log_out_of_order : ¬ ∀ pre, pre <+: clearedRun →
    DomainProofs demoPrims (Runs.run (stepService demoPrims) (World.start none emptyDisk) pre).log := by
  intro hall
  have hend := hall clearedRun List.prefix_rfl
  obtain ⟨s1, s2, s3, s4, log, hlog, hevents, hretained⟩ := @reopened_resetCalls demoPrims "data" demoPrims_lawful
    "Permission denied (os error 13)" (demoEntry "insert|shop|orders|1") (demoEntry "insert|shop|orders|2")
    (demoEntry "insert|shop|orders|3") (demoEntry "insert|shop|orders|4") (by
      intro e he
      simp only [List.mem_cons, List.not_mem_nil, or_false] at he
      rcases he with rfl | rfl | rfl | rfl
      all_goals exact demoEntry_honest _)
  rw [clearedRun, hlog] at hend
  refine @not_domainProofs demoPrims log ("rs:rs0", "shop") _ _ _ _ (demoEntry "insert|shop|orders|1").leaf
    (demoEntry "insert|shop|orders|2").leaf (demoEntry "insert|shop|orders|3").leaf (demoEntry "insert|shop|orders|4").leaf
    hevents hretained ?_ rfl rfl ?_ hend
  · rw [hevents]
    intro ev hev
    simp only [countEvents, List.mem_cons, List.not_mem_nil, or_false] at hev
    rcases hev with rfl | rfl | rfl | rfl
    all_goals rfl
  · decide +kernel

/-- A run of `domain_proofs_hold`: an insert into a new directory. -/
theorem one_insert_proved : DomainProofs demoPrims (Runs.run (stepService demoPrims) (World.start none emptyDisk)
    [.setPersistenceDir {} "data", .record {} (demoEntry "insert|shop|orders|1")]).log :=
  @domain_proofs_hold demoPrims emptyDisk [.setPersistenceDir {} "data", .record {} (demoEntry "insert|shop|orders|1")]
    ⟨fun h => absurd h (by decide), trivial, trivial⟩ _ List.prefix_rfl

end Audit
