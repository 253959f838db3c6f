import NosqlBuddy.Audit.AttestationSound

/-!
# False alarms about an honest commitment

An honest commitment is what `compute_oplog_range_hash` gives on a member that holds the whole range. A
member that has lost the oldest entries of the range, or has not got the newest ones, hashes another list:
the attesters alert and the readers answer "mismatch", unless nothing at all of the range is left
(reader.rs:418, commands.rs:2456). `honest_commitment_iff`: there is no false alarm exactly when a member that
answers sees the whole range, or (for the readers) nothing of it; and the loop goes past no honest commitment
that is not attested when in addition it leaves none behind.
-/

namespace Contract.OplogCommitment
open Audit

/-- A member that holds the whole range computed the commitment, which ends at or below its majority point. -/
structure ComputedBy (P : Prims) (display : Oplog.Bson → String) (entries : List Oplog.Document) (c : OplogCommitment)
    (r : Replica) (majorityTs : OplogTimestamp) (range : EpochOplogRange) : Prop where
  window : r.oplog <:+: entries
  holds : ∀ e ∈ c.writes entries, e ∈ r.oplog
  majority : r.majority = .ok majorityTs
  below : c.endTs ≤ majorityTs
  computed : computeOplogRangeHash P display (r.replies c.startTs c.endTs) range.epochNumber c.startTs c.endTs = .ok range
  root : String.ofList (Bytes.hexEncode c.oplogRoot) = range.merkleRootHex
  count : c.oplogEntryCount.toNat = range.entryCount

def Honest (P : Prims) (display : Oplog.Bson → String) (entries : List Oplog.Document) (c : OplogCommitment) : Prop :=
  ∃ r majorityTs range, c.ComputedBy P display entries r majorityTs range

end Contract.OplogCommitment

namespace Audit
open ReaderMode (OnChainRoot)

/-- A member that answers sees the whole range of the commitment. -/
def Replica.SeesAll (r : Replica) (entries : List Oplog.Document) (c : Contract.OplogCommitment) : Prop :=
  ∀ majorityTs, r.majority = .ok majorityTs → r.readError = none → SeesRange entries r.oplog majorityTs c.startTs c.endTs

/-- It sees the whole range, or nothing of it. -/
def Replica.SeesAllOrNone (r : Replica) (entries : List Oplog.Document) (c : Contract.OplogCommitment) : Prop :=
  ∀ majorityTs, r.majority = .ok majorityTs → r.readError = none →
    SeesRange entries r.oplog majorityTs c.startTs c.endTs ∨ c.seen r majorityTs = []

section
variable {P : Prims} {display : Oplog.Bson → String} {H : History display} {r : Replica} {c : Contract.OplogCommitment}
  {cfg : AttesterConfig} {submission : Submission} {sequence : Nat} {majorityTs : OplogTimestamp}

/-! ## One commitment -/

theorem honest_exact (h : c.Honest P display H.entries) : c.Exact P display H.entries := by
  obtain ⟨r, majorityTs, range, hc⟩ := h
  have hsees : SeesRange H.entries r.oplog majorityTs c.startTs c.endTs := by
    intro e he
    obtain ⟨ts, hts, _, hlt⟩ := (mem_writesIn.1 he).2.2
    exact ⟨hc.holds e he, ts, hts, lt_of_lt_of_le hlt hc.below⟩
  have hseen : seenRange r.oplog majorityTs c.startTs c.endTs = c.writes H.entries := (seenRange_eq_iff hc.window).2 hsees
  cases hr : r.readError with
  | some e =>
    have herr := hc.computed
    rw [compute_read_error hc.majority hr] at herr
    cases herr
  | none =>
    have hok := hc.computed
    rw [compute_ok hc.window hc.majority hr, hseen] at hok
    obtain ⟨hroot, hcount⟩ := And.intro hc.root hc.count
    rw [← Except.ok.inj hok] at hroot hcount
    exact ⟨hex_eq_iff.1 hroot, hcount⟩

theorem findsRoot_of_sees (h : c.Exact P display H.entries) (hw : r.oplog <:+: H.entries) (hm : r.majority = .ok majorityTs)
    (hr : r.readError = none) (hsees : SeesRange H.entries r.oplog majorityTs c.startTs c.endTs) :
    FindsRoot P display r c majorityTs := by
  have hseen : c.seen r majorityTs = c.writes H.entries := (seenRange_eq_iff hw).2 hsees
  exact ⟨hm, hr, hseen ▸ h.1⟩

theorem sees_of_findsRoot (h : c.Exact P display H.entries) (hw : r.oplog <:+: H.entries)
    (hideal : EntriesIdealised P display (c.seen r majorityTs) (c.writes H.entries)) (hf : FindsRoot P display r c majorityTs) :
    SeesRange H.entries r.oplog majorityTs c.startTs c.endTs :=
  ((hf.exact_iff hw hideal).1 h).1

theorem no_mismatch (h : c.Exact P display H.entries) (hw : r.oplog <:+: H.entries)
    (hsees : cfg.stellarKeypair.isSome → r.SeesAll H.entries c) :
    compareEpoch P display cfg (r.attestReplies c submission) sequence ≠ .ok .mismatch := by
  rw [ne_eq, compareEpoch_mismatch_iff hw]
  rintro ⟨hkp, majorityTs, hf⟩
  exact hf.2.2 (findsRoot_of_sees h hw hf.1 hf.2.1 (hsees hkp majorityTs hf.1 hf.2.1)).2.2

theorem mismatch_iff (h : c.Exact P display H.entries) (hw : r.oplog <:+: H.entries)
    (hideal : ∀ majorityTs, r.majority = .ok majorityTs → EntriesIdealised P display (c.seen r majorityTs) (c.writes H.entries)) :
    compareEpoch P display cfg (r.attestReplies c submission) sequence ≠ .ok .mismatch ↔
      (cfg.stellarKeypair.isSome → r.SeesAll H.entries c) := by
  refine ⟨fun hno hkp majorityTs hm hr => ?_, no_mismatch h hw⟩
  rw [ne_eq, compareEpoch_mismatch_iff hw] at hno
  refine sees_of_findsRoot h hw (hideal majorityTs hm) (not_not.1 fun hf => hno ⟨hkp, majorityTs, ?_⟩)
  exact (findsOther_iff hm hr).2 hf

theorem verdict_iff (h : c.Exact P display H.entries) (hw : r.oplog <:+: H.entries)
    (hideal : ∀ majorityTs, r.majority = .ok majorityTs → EntriesIdealised P display (c.seen r majorityTs) (c.writes H.entries)) :
    (checkCommitment P display r sequence c).verdict ∈ [OplogVerdict.complete, .stale, .error] ↔ r.SeesAllOrNone H.entries c := by
  rcases @checkCommitment_cases P display H r c sequence hw with ⟨hv, hall⟩ | ⟨m, hm, hr, hseen, hv⟩
  · refine iff_of_true (by rcases hv with hv | hv <;> simp [hv]) fun majorityTs hm hr => .inr (hall majorityTs hm hr).1
  · have honly : r.SeesAllOrNone H.entries c ↔ SeesRange H.entries r.oplog m c.startTs c.endTs := by
      constructor
      · intro hsees
        rcases hsees m hm hr with hsees | hnil
        · exact hsees
        · -- nothing is counted, so that there is nothing to see
          have hzero : c.oplogEntryCount = 0 := hseen.resolve_left (fun hne => hne hnil)
          have hempty : c.writes H.entries = [] := by
            rw [← List.length_eq_zero_iff, ← h.2, hzero]
            rfl
          intro e he
          have hmem : e ∈ c.writes H.entries := he
          rw [hempty] at hmem
          cases hmem
      · intro hsees m' hm' _
        obtain rfl : m' = m := Except.ok.inj (hm'.symm.trans hm)
        exact .inl hsees
    rw [honly]
    rcases hv with ⟨hv, hf⟩ | ⟨hv, hf⟩
    · exact iff_of_true (by simp [hv]) (sees_of_findsRoot h hw (hideal m hm) hf)
    · exact iff_of_false (by simp [hv]) fun hsees => hf (findsRoot_of_sees h hw hm hr hsees)

end

/-! ## The loop -/

section
variable (P : Prims) (display : Oplog.Bson → String) (h : Contract.Host) (cfg : AttesterConfig)
  (entries : List Oplog.Document)

/-- A round on an honest commitment reads from a member whose oplog is a window of the history, and which sees
the whole range if it answers; a transaction replaces no commitment. -/
def RoundSees (w : AttestWorld) : AttestStep → Prop
  | .transaction inv => ∀ q c, w.chain.oplogCommitment q = some c → (Contract.step h w.chain inv).oplogCommitment q = some c
  | .poll _ => True
  | .attest replies => ∀ seq currentSeq c, w.loop = .scanning seq currentSeq → replies.commitment = .ok (some c) →
      c.Honest P display entries → ∃ r : Replica, r.oplog <:+: entries ∧ replies = r.attestReplies c replies.submission ∧
        (cfg.stellarKeypair.isSome → r.SeesAll entries c)

/-- The honest commitments up to the cursor are attested, and there is no alert about one. -/
structure NoFalseAlert (w : AttestWorld) : Prop where
  attested : ∀ q c, 1 ≤ q → q ≤ w.lastAttestedSeq → w.chain.oplogCommitment q = some c → c.Honest P display entries →
    ∃ attester, cfg.stellarKeypair = some attester ∧ w.chain.attestedBy attester q
  alerts : ∀ q c, q ∈ w.alerts → w.chain.oplogCommitment q = some c → ¬ c.Honest P display entries

end

section
variable {P : Prims} {display : Oplog.Bson → String} {H : History display} {h : Contract.Host} {cfg : AttesterConfig}
  {w : AttestWorld}

theorem compareEpoch_mismatch {sequence : Nat} (hc : compareEpoch P display cfg replies sequence = .ok .mismatch) : ∃ c, replies.commitment = .ok (some c) := by
  simp only [compareEpoch, Fallible.bind_ok, required_ok, labelled_ok] at hc
  obtain ⟨kp, _, onChain, hon, hc⟩ := hc
  cases onChain with
  | none => cases hc
  | some c => exact ⟨c, hon⟩

/-- What the loop keeps. -/
structure HonestSound (cfg : AttesterConfig) (H : History display) (P : Prims) (w : AttestWorld) : Prop extends
    AttestSound cfg w where
  alerts : ∀ q ∈ w.alerts, ∃ c, w.chain.oplogCommitment q = some c ∧ ¬ c.Honest P display H.entries

theorem HonestSound.noFalseAlert (hw : HonestSound cfg H P w) : NoFalseAlert P display cfg H.entries w := by
  have halerts : ∀ q c, q ∈ w.alerts → w.chain.oplogCommitment q = some c → ¬ c.Honest P display H.entries := by
    intro q c hq hcommit
    obtain ⟨c', hcommit', hno⟩ := hw.alerts q hq
    obtain rfl : c' = c := Option.some.inj (hcommit'.symm.trans hcommit)
    exact hno
  refine ⟨fun q c h1 h2 hcommit hc => ?_, halerts⟩
  rcases hw.escapes q h1 h2 with hatt | hnone | halert
  · exact hatt
  · rw [hnone] at hcommit
    cases hcommit
  · exact absurd hc (halerts q c halert hcommit)

theorem honestSound_attest (hw : HonestSound cfg H P w) (htrue : Truthful w (.attest replies))
    (hl : LeavesNoneBehind P display h cfg w (.attest replies))
    (hsees : RoundSees P display h cfg H.entries w (.attest replies)) :
    HonestSound cfg H P (stepAttest P display h cfg w (.attest replies)) := by
  refine ⟨(attestSound_attest hw.toAttestSound htrue).2 hl, ?_⟩
  cases hloop : w.loop with
  | sleeping =>
    have hsame : stepAttest P display h cfg w (.attest replies) = w := by simp only [stepAttest, hloop]
    rw [hsame]
    exact hw.alerts
  | scanning seq currentSeq =>
    cases hc : compareEpoch P display cfg replies seq with
    | error e =>
      have hstep : stepAttest P display h cfg w (.attest replies) = w.advance seq currentSeq (.error e) := by
        simp only [stepAttest, hloop, attestEpochInternal, hc]
      rw [hstep]
      exact hw.alerts
    | ok compared =>
      obtain ⟨b, w', hround, hr⟩ := @attestEpochInternal_ok P display h cfg w replies seq compared hc
      have hstep : stepAttest P display h cfg w (.attest replies) = w'.advance seq currentSeq (.ok b) := by
        simp only [stepAttest, hloop, hround]
      rw [hstep]
      intro q hq
      show ∃ c, w'.chain.oplogCommitment q = some c ∧ _
      rw [hr.commitments]
      rcases (hr.alerts q).1 hq with hq | ⟨rfl, rfl⟩
      · exact hw.alerts q hq
      · -- a new alert: the member that was asked would have seen an honest range
        obtain ⟨c, hon⟩ := compareEpoch_mismatch hc
        refine ⟨c, htrue q currentSeq (some c) hloop hon, fun hhonest => ?_⟩
        obtain ⟨r, hwin, hreplies, hall⟩ := hsees q currentSeq c hloop hon hhonest
        rw [hreplies] at hc
        exact no_mismatch (honest_exact hhonest) hwin hall hc

/-- **One step** keeps it. -/
theorem honestSound_step (hw : HonestSound cfg H P w) (htrue : Truthful w a)
    (hl : LeavesNoneBehind P display h cfg w a) (hsees : RoundSees P display h cfg H.entries w a) :
    HonestSound cfg H P (stepAttest P display h cfg w a) := by
  cases a with
  | transaction inv =>
    refine ⟨attestSound_transaction hw.toAttestSound inv, fun q hq => ?_⟩
    obtain ⟨c, hcommit, hno⟩ := hw.alerts q hq
    exact ⟨c, hsees q c hcommit, hno⟩
  | poll currentRoot =>
    refine ⟨attestSound_poll hw.toAttestSound htrue, ?_⟩
    have hsame : (stepAttest P display h cfg w (.poll currentRoot)).alerts = w.alerts ∧
        (stepAttest P display h cfg w (.poll currentRoot)).chain = w.chain := by
      simp only [stepAttest]
      split
      · split <;> exact ⟨rfl, rfl⟩
      · exact ⟨rfl, rfl⟩
    rw [hsame.1, hsame.2]
    exact hw.alerts
  | attest replies => exact honestSound_attest hw htrue hl hsees

theorem noFalseAlert_run (hg : Runs.Guarded (stepAttest P display h cfg) (fun w a => Truthful w a ∧ LeavesNoneBehind P display h cfg w a ∧
      RoundSees P display h cfg H.entries w a) (.start (Contract.after h invs)) steps) :
    NoFalseAlert P display cfg H.entries (Runs.run (stepAttest P display h cfg) (.start (Contract.after h invs)) steps) := by
  have hstart : HonestSound cfg H P (.start (Contract.after h invs)) :=
    ⟨attestSound_start h invs, fun _ hq => absurd hq List.not_mem_nil⟩
  have hstep : ∀ w a, (Truthful w a ∧ LeavesNoneBehind P display h cfg w a ∧ RoundSees P display h cfg H.entries w a) →
      HonestSound cfg H P w → HonestSound cfg H P (stepAttest P display h cfg w a) :=
    fun w a hok hw => honestSound_step hw hok.1 hok.2.1 hok.2.2
  exact (Runs.run_inv hstep hg hstart).noFalseAlert

end

/-- **Honest commitments.** On a member whose oplog is a window of the history: the attesters do not alert
exactly when they have no account or the member, if it answers, sees the whole range; the readers do not
answer "mismatch" exactly when it sees the whole range or nothing of it. In every run of the loop whose
rounds see the honest ranges and leave none behind, the honest commitments up to the cursor are attested. -/
theorem honest_commitment_iff (P : Prims) (display : Oplog.Bson → String) (H : History display) (c : Contract.OplogCommitment)
    (hc : c.Honest P display H.entries) (r : Replica) (hw : r.oplog <:+: H.entries)
    (hideal : ∀ majorityTs, r.majority = .ok majorityTs → EntriesIdealised P display (c.seen r majorityTs) (c.writes H.entries))
    (h : Contract.Host) (cfg : AttesterConfig) (submission : Submission) (now : String) (chain : Contract.Storage)
    (root : OnChainRoot) (contractId : String) :
    (compareEpoch P display cfg (r.attestReplies c submission) root.sequence ≠ .ok .mismatch ↔
      (cfg.stellarKeypair.isSome → r.SeesAll H.entries c)) ∧
    ((∀ result, (attestEpoch P display h cfg (r.attestReplies c submission) now root.sequence chain).1 = .ok result →
        result.alert = none) ↔ (cfg.stellarKeypair.isSome → r.SeesAll H.entries c)) ∧
    ((∀ report, verifyOplog P display (.ok (some root)) (.ok (some c)) (some r) = .ok report →
        report.verdict ∈ [OplogVerdict.complete, .stale, .error]) ↔ r.SeesAllOrNone H.entries c) ∧
    ((∀ report, auditVerifyOplogIntegrity P display contractId (.ok r) (.ok (some root)) (.ok (some c)) = .ok report →
        report.verdict ∈ [OplogVerdict.complete, .stale, .error]) ↔ r.SeesAllOrNone H.entries c) ∧
    ∀ invs steps, Runs.Guarded (stepAttest P display h cfg) (fun w a => Truthful w a ∧ LeavesNoneBehind P display h cfg w a ∧
        RoundSees P display h cfg H.entries w a) (.start (Contract.after h invs)) steps →
      ∀ pre, pre <+: steps → NoFalseAlert P display cfg H.entries
        (Runs.run (stepAttest P display h cfg) (.start (Contract.after h invs)) pre) := by
  have hexact := honest_exact hc
  have hverdict := @verdict_iff P display H r c root.sequence hexact hw hideal
  refine ⟨mismatch_iff hexact hw hideal, ?_, ?_, ?_, ?_⟩
  · rw [← @mismatch_iff P display H r c cfg submission root.sequence hexact hw hideal, ne_eq,
      ← (attestEpoch_compare h (r.attestReplies c submission) now chain).2]
    constructor
    · rintro hall ⟨result, hok, hsome⟩
      rw [hall result hok] at hsome
      cases hsome
    · intro hno result hok
      exact Option.not_isSome_iff_eq_none.1 fun hsome => hno ⟨result, hok, hsome⟩
  · rw [← hverdict]
    exact ⟨fun hall => hall _ rfl, fun hv report hok => by obtain rfl := Except.ok.inj hok; exact hv⟩
  · rw [← hverdict]
    exact ⟨fun hall => hall _ rfl, fun hv report hok => by obtain rfl := Except.ok.inj hok; exact hv⟩
  · rintro invs steps hg pre ⟨post, rfl⟩
    exact noFalseAlert_run (Runs.guarded_left hg)

/-! ### A member that has lost the first entry -/

theorem demoCommitted_honest : (demoCommitted demoHistory.entries).Honest demoPrims (fun _ => "") demoHistory.entries := by
  have hseen : seenRange (demoMember 20).oplog ⟨20, 0⟩ (demoCommitted demoHistory.entries).startTs
      (demoCommitted demoHistory.entries).endTs = demoHistory.entries := by
    rw [(demoCommitted_range _).1, (demoCommitted_range _).2]
    rfl
  refine ⟨demoMember 20, ⟨20, 0⟩, ⟨⟨_, _, _, _, _⟩, 1⟩, List.infix_refl _, fun e he => ?_, rfl, ?_,
    compute_ok (List.infix_refl _) rfl rfl, ?_, ?_⟩
  · rw [demoCommitted_writes] at he
    exact he
  · rw [(demoCommitted_range _).2]
    decide
  · simp only [hseen]
    rfl
  · simp only [hseen]
    rfl

/-- The history in which nothing is written. -/
def quietHistory : History fun _ => "" := ⟨[], by simp, by simp, by simp⟩

def quietMember : Replica := ⟨[], .ok ⟨10, 0⟩, none⟩

theorem emptyOplog_honest : emptyOplog.Honest hostPrims (fun _ => "") quietHistory.entries := by
  have hroot : merkleRoot hostPrims [] = hostPrims.sha256 (strBytes "empty_oplog_tree") := by rw [merkleRoot]
  refine ⟨quietMember, ⟨10, 0⟩, ⟨⟨_, _, _, _, _⟩, 1⟩, List.infix_refl _, fun e he => (by cases he), rfl, by decide,
    @compute_ok _ quietHistory _ _ _ _ _ _ (List.infix_refl _) rfl rfl, ?_, rfl⟩
  show _ = String.ofList (Bytes.hexEncode (merkleRoot hostPrims []).val)
  rw [hroot]
  rfl

theorem attestOnce_sees : Runs.Guarded stepTwo
    (fun w a => Truthful w a ∧ LeavesNoneBehind hostPrims (fun _ => "") Contract.demoHost attesterTwo w a ∧
      RoundSees hostPrims (fun _ => "") Contract.demoHost attesterTwo quietHistory.entries w a)
    startTwo (attestOnce (.answered 300 (.validation "refused"))) := by
  have htrue := attestOnce_truthful (.answered 300 (.validation "refused"))
  have hl := attestOnce_answered
  refine ⟨⟨htrue.1, hl.1, trivial⟩, ⟨htrue.2.1, hl.2.1, fun seq currentSeq c _ hc _ => ?_⟩, trivial⟩
  obtain rfl : emptyOplog = c := Option.some.inj (Except.ok.inj hc)
  exact ⟨quietMember, List.infix_refl _, rfl, fun _ _ _ _ e he => by cases he⟩

/-- The members of two deployments see all of their ranges: no alert about the one, and the loop attests the
other. -/
theorem seen_commitments_pass :
    compareEpoch demoPrims (fun _ => "") attesterTwo
      ((demoMember 3).attestReplies (demoCommitted demoHistory.entries) (.failed (.timeout ""))) 1 ≠ .ok .mismatch ∧
    ∀ pre, pre <+: attestOnce (.answered 300 (.validation "refused")) →
      NoFalseAlert hostPrims (fun _ => "") attesterTwo quietHistory.entries (Runs.run stepTwo startTwo pre) := by
  have hseen : (demoCommitted demoHistory.entries).seen (demoMember 3) ⟨3, 0⟩ = demoHistory.entries := (demoCommitted_seen _).2
  constructor
  · refine (honest_commitment_iff demoPrims (fun _ => "") demoHistory _ demoCommitted_honest (demoMember 3) (List.infix_refl _)
      (fun majorityTs hm => ?_) Contract.demoHost attesterTwo (.failed (.timeout "")) "" .empty ⟨1, "", 0, ""⟩ "").1.2
      fun _ majorityTs hm _ => ?_
    · obtain rfl : ⟨3, 0⟩ = majorityTs := Except.ok.inj hm
      rw [hseen, demoCommitted_writes]
      exact demoRanges_idealised.2
    · obtain rfl : ⟨3, 0⟩ = majorityTs := Except.ok.inj hm
      exact (seenRange_eq_iff (List.infix_refl _)).1 hseen
  · refine (honest_commitment_iff hostPrims (fun _ => "") quietHistory emptyOplog ?_ quietMember (List.infix_refl _)
      (fun majorityTs hm => ?_) Contract.demoHost attesterTwo (.failed (.timeout "")) "" .empty ⟨1, "", 0, ""⟩ "").2.2.2.2
      committedOnce _ ?_
    · exact emptyOplog_honest
    · exact ⟨by simp [quietMember, quietHistory, Contract.OplogCommitment.seen, Contract.OplogCommitment.writes, seenRange,
        writesIn, treeInputs, Merkle.CollisionFree], fun e he => by cases he⟩
    · exact attestOnce_sees

/-- The member whose oplog begins after the first entry. -/
def rolledMember : Replica := ⟨[demoOplogEntry 2], .ok ⟨20, 0⟩, none⟩

theorem first_commit_accepted {c : Contract.OplogCommitment} (hlen : c.oplogRoot.length = 32)
    (hts : ¬ c.oplogEndTs < c.oplogStartTs) (root : List UInt8) (timestamp : UInt64) (metadata : String) :
    ∃ s, Contract.invoke Contract.demoHost ⟨⟨[Contract.demoAdmin], timestamp⟩, .commitRootWithOplog root c metadata⟩
      (Contract.after Contract.demoHost [Contract.demoInit]) = .ok s ∧ s.oplogCommitment 1 = some c ∧ s.attestations 1 = [] ∧
      s.seqOr0 = 1 := by
  obtain ⟨s, hs⟩ : ∃ s, s = Contract.after Contract.demoHost [Contract.demoInit] := ⟨_, rfl⟩
  have hfacts : s.seqOr0 = 0 ∧ s.index = ∅ ∧ s.oplogAttestations 1 = none := by
    subst hs
    exact ⟨rfl, rfl, rfl⟩
  rw [← hs]
  obtain ⟨hseq, hindex, hnone⟩ := hfacts
  have happend := (@Contract.appendRoot_ok ⟨⟨[Contract.demoAdmin], timestamp⟩, .commitRootWithOplog root c metadata⟩ root metadata s _
    ⟨1, root, timestamp, metadata⟩).2 ⟨⟨by rw [hindex]; exact Finmap.notMem_empty, by simp [hseq], by rw [hseq]; decide, rfl⟩,
      rfl, rfl, rfl⟩
  simp only [Contract.invoke, Contract.commitRootWithOplog, happend, hlen, hts]
  refine ⟨_, rfl, ?_, ?_, rfl⟩
  · simp [Contract.Storage.setOplog, Contract.Storage.publish]
  · show (s.oplogAttestations 1).getD [] = []
    rw [hnone]
    rfl

/-- A range is committed under sequence 1. -/
def commitOnce (c : Contract.OplogCommitment) : List Contract.Invocation :=
  [Contract.demoInit, ⟨⟨[Contract.demoAdmin], 200⟩, .commitRootWithOplog (List.replicate 32 0xaa) c "epoch=0"⟩]

theorem commitOnce_accepted {c : Contract.OplogCommitment} (hlen : c.oplogRoot.length = 32) (hts : ¬ c.oplogEndTs < c.oplogStartTs) :
    (Contract.after Contract.demoHost (commitOnce c)).oplogCommitment 1 = some c ∧
      (Contract.after Contract.demoHost (commitOnce c)).attestations 1 = [] := by
  obtain ⟨s, hok, hc, hnone, _⟩ := first_commit_accepted hlen hts (List.replicate 32 0xaa) 200 "epoch=0"
  have hstep : Contract.after Contract.demoHost (commitOnce c) = s := Contract.step_of_ok hok
  rw [hstep]
  exact ⟨hc, hnone⟩

theorem stepAttest_mismatch (hc : compareEpoch P display cfg replies seq = .ok .mismatch) :
    stepAttest P display h cfg ⟨chain, 0, .scanning seq seq, []⟩ (.attest replies) = ⟨chain, seq, .sleeping, [seq]⟩ := by
  simp only [stepAttest, attestEpochInternal, hc, AttestWorld.advance, Nat.lt_irrefl, if_false, List.nil_append]

/-- The oldest entry of an honest range has rolled over: the attesters alert, the readers answer "mismatch",
and the loop goes past the sequence without an attestation. -/
theorem partial_rollover_alarms :
    (demoCommitted demoHistory.entries).Honest demoPrims (fun _ => "") demoHistory.entries ∧
    rolledMember.oplog <:+: demoHistory.entries ∧
    compareEpoch demoPrims (fun _ => "") attesterTwo
      (rolledMember.attestReplies (demoCommitted demoHistory.entries) (.failed (.timeout ""))) 1 = .ok .mismatch ∧
    (∃ result, (attestEpoch demoPrims (fun _ => "") Contract.demoHost attesterTwo
      (rolledMember.attestReplies (demoCommitted demoHistory.entries) (.failed (.timeout ""))) "" 1 .empty).1 = .ok result ∧
      result.alert.isSome) ∧
    (∃ report, verifyOplog demoPrims (fun _ => "") (.ok (some ⟨1, "", 0, ""⟩)) (.ok (some (demoCommitted demoHistory.entries)))
      (some rolledMember) = .ok report ∧ report.verdict = .mismatch) ∧
    (∃ report, auditVerifyOplogIntegrity demoPrims (fun _ => "") "" (.ok rolledMember) (.ok (some ⟨1, "", 0, ""⟩))
      (.ok (some (demoCommitted demoHistory.entries))) = .ok report ∧ report.verdict = .mismatch) ∧
    (Contract.after Contract.demoHost (commitOnce (demoCommitted demoHistory.entries))).oplogCommitment 1 = some (demoCommitted demoHistory.entries) ∧
    Runs.run (stepAttest demoPrims (fun _ => "") Contract.demoHost attesterTwo) (.start (Contract.after Contract.demoHost (commitOnce (demoCommitted demoHistory.entries))))
      [.poll (.ok (some 1)), .attest (rolledMember.attestReplies (demoCommitted demoHistory.entries) (.failed (.timeout "")))] =
      ⟨Contract.after Contract.demoHost (commitOnce (demoCommitted demoHistory.entries)), 1, .sleeping, [1]⟩ ∧
    (Contract.after Contract.demoHost (commitOnce (demoCommitted demoHistory.entries))).attestations 1 = [] := by
  have hwin : rolledMember.oplog <:+: demoHistory.entries := ⟨[demoOplogEntry 1], [], rfl⟩
  have hseen : (demoCommitted demoHistory.entries).seen rolledMember ⟨20, 0⟩ = [demoOplogEntry 2] := by
    rw [Contract.OplogCommitment.seen, (demoCommitted_range _).1, (demoCommitted_range _).2]
    rfl
  have hexact := honest_exact demoCommitted_honest
  have hideal : ∀ majorityTs, rolledMember.majority = .ok majorityTs → EntriesIdealised demoPrims (fun _ => "")
      ((demoCommitted demoHistory.entries).seen rolledMember majorityTs) ((demoCommitted demoHistory.entries).writes demoHistory.entries) := by
    intro majorityTs hm
    obtain rfl : ⟨20, 0⟩ = majorityTs := Except.ok.inj hm
    rw [hseen, demoCommitted_writes]
    exact demoEntries_idealised.symm
  have hnot : ¬ SeesRange demoHistory.entries rolledMember.oplog ⟨20, 0⟩ (demoCommitted demoHistory.entries).startTs
      (demoCommitted demoHistory.entries).endTs := by
    intro hsees
    have hall := (seenRange_eq_iff hwin).2 hsees
    have hlen := congrArg List.length (hseen.symm.trans (hall.trans (demoCommitted_writes _)))
    cases hlen
  have hfinds : ¬ FindsRoot demoPrims (fun _ => "") rolledMember (demoCommitted demoHistory.entries) ⟨20, 0⟩ :=
    fun hf => hnot (sees_of_findsRoot hexact hwin (hideal _ rfl) hf)
  have hmismatch : compareEpoch demoPrims (fun _ => "") attesterTwo
      (rolledMember.attestReplies (demoCommitted demoHistory.entries) (.failed (.timeout ""))) 1 = .ok .mismatch :=
    (compareEpoch_mismatch_iff hwin).2 ⟨rfl, ⟨20, 0⟩, (findsOther_iff rfl rfl).2 hfinds⟩
  have hverdict : (checkCommitment demoPrims (fun _ => "") rolledMember 1 (demoCommitted demoHistory.entries)).verdict =
      .mismatch := by
    rcases @checkCommitment_cases demoPrims (fun _ => "") demoHistory rolledMember (demoCommitted demoHistory.entries) 1 hwin with
      ⟨_, hall⟩ | ⟨m, hm, _, _, hv⟩
    · have hnil := (hall ⟨20, 0⟩ rfl rfl).1
      rw [hseen] at hnil
      cases hnil
    · obtain rfl : ⟨20, 0⟩ = m := Except.ok.inj hm
      exact hv.elim (fun hv => absurd hv.2 hfinds) And.left
  obtain ⟨hcommit, hnone⟩ := @commitOnce_accepted (demoCommitted demoHistory.entries) (entriesRoot _ _ _).2 (by decide)
  exact ⟨demoCommitted_honest, hwin, hmismatch, (attestEpoch_compare _ _ _ _).2.2 hmismatch, ⟨_, rfl, hverdict⟩,
    ⟨_, rfl, hverdict⟩, hcommit, stepAttest_mismatch hmismatch, hnone⟩

end Audit
