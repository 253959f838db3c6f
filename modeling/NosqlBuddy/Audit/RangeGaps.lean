import NosqlBuddy.Audit.HonestCommitment

/-!
# Gaps between attested ranges

The contract checks of a commitment only that its range is not reversed (lib.rs:430), the attester and the
reader look at one commitment at a time. The epoch manager of the daemon starts each range where the last one
ended (`next_oplog_start_ts`), but nothing makes an operator do so. `ranges_leave_no_gap`: in every run of the
contract in which each range starts at or below an end that is committed already, every write below the end
of a sequence is in a range; `gap_verified` is a write between two ranges that both verify.
-/

namespace Contract
open Audit (OplogTimestamp)

/-- The range of the commitment under `q`. -/
def Storage.covers (s : Storage) (q : Nat) (ts : OplogTimestamp) : Prop :=
  ∃ c, s.oplogCommitment q = some c ∧ c.startTs ≤ ts ∧ ts < c.endTs

/-- A range starts at zero or at or below the end of a committed one; the contract is initialized before the
first sequence is given out. -/
def Adjoins (s : Storage) (inv : Invocation) : Prop :=
  match inv.call with
  | .commitRootWithOplog _ oplog _ => oplog.startTs = ⟨0, 0⟩ ∨
      ∃ q c, 1 ≤ q ∧ q ≤ s.seqOr0 ∧ s.oplogCommitment q = some c ∧ oplog.startTs ≤ c.endTs
  | .initializeContract _ _ => s.seqOr0 = 0
  | _ => True

structure GapFree (s : Storage) : Prop where
  given : ∀ q, (s.oplogCommitment q).isSome → 1 ≤ q ∧ q ≤ s.seqOr0
  covered : ∀ n c, s.oplogCommitment n = some c → (∀ q, 1 ≤ q → q ≤ n → (s.oplogCommitment q).isSome) →
    ∀ ts, ts < c.endTs → ∃ q, 1 ≤ q ∧ q ≤ n ∧ s.covers q ts

theorem gapFree_empty : GapFree Storage.empty where
  given := fun q hq => by cases hq
  covered := fun n c hc => by cases hc

theorem GapFree.of_commitments (hs : GapFree s) (hc : s'.oplogCommitment = s.oplogCommitment)
    (hle : s.seqOr0 ≤ s'.seqOr0) : GapFree s' := by
  refine ⟨fun q hq => ?_, fun n c hn hall ts hts => ?_⟩
  · rw [hc] at hq
    have h := hs.given q hq
    omega
  · unfold Storage.covers
    rw [hc] at hn hall ⊢
    exact hs.covered n c hn hall ts hts

theorem GapFree.commit {s : Storage} {inv : Invocation} {e : RootEntry} {oplog : OplogCommitment} {ev ev' : Event} (hs : GapFree s)
    (hnext : NextEntry s inv e) (hadj : oplog.startTs = ⟨0, 0⟩ ∨
      ∃ q c, 1 ≤ q ∧ q ≤ s.seqOr0 ∧ s.oplogCommitment q = some c ∧ oplog.startTs ≤ c.endTs) :
    GapFree ((((s.pushRoot e).setOplog e.sequence oplog).publish ev).publish ev') := by
  have hupd : ∀ q, ((((s.pushRoot e).setOplog e.sequence oplog).publish ev).publish ev').oplogCommitment q =
      if q = e.sequence then some oplog else s.oplogCommitment q := fun q => Function.update_apply _ _ _ q
  have hseq : ((((s.pushRoot e).setOplog e.sequence oplog).publish ev).publish ev').seqOr0 = e.sequence := rfl
  have hnew := hnext.seq
  -- the sequences given out before keep what they cover
  have hkeep : ∀ q ts, q ≤ s.seqOr0 → s.covers q ts →
      ((((s.pushRoot e).setOplog e.sequence oplog).publish ev).publish ev').covers q ts := by
    rintro q ts hq ⟨c, hc, hin⟩
    exact ⟨c, by rw [hupd, if_neg (by omega)]; exact hc, hin⟩
  have hold : ∀ n c, n ≤ s.seqOr0 → s.oplogCommitment n = some c →
      (∀ q, 1 ≤ q → q ≤ n → (((((s.pushRoot e).setOplog e.sequence oplog).publish ev).publish ev').oplogCommitment q).isSome) →
      ∀ ts, ts < c.endTs → ∃ q, 1 ≤ q ∧ q ≤ n ∧ ((((s.pushRoot e).setOplog e.sequence oplog).publish ev).publish ev').covers q ts := by
    intro n c hn hc hall ts hts
    have hbefore : ∀ q, 1 ≤ q → q ≤ n → (s.oplogCommitment q).isSome := by
      intro q h1 h2
      have hsome := hall q h1 h2
      rw [hupd, if_neg (by omega)] at hsome
      exact hsome
    obtain ⟨q, h1, h2, hq⟩ := hs.covered n c hc hbefore ts hts
    exact ⟨q, h1, h2, hkeep q ts (by omega) hq⟩
  refine ⟨fun q hq => ?_, fun n c hn hall ts hts => ?_⟩
  · rw [hseq]
    rw [hupd] at hq
    split at hq
    · omega
    · have h := hs.given q hq
      omega
  · rw [hupd] at hn
    split at hn
    · next heq =>
      obtain rfl := Option.some.inj hn
      by_cases hstart : oplog.startTs ≤ ts
      · exact ⟨n, by omega, Nat.le_refl n, oplog, by rw [hupd, if_pos heq], hstart, hts⟩
      · -- below the new range: at or below an end that was committed before
        rcases hadj with hzero | ⟨q', c', h1, h2, hc', hle⟩
        · exact absurd (hzero ▸ OplogTimestamp.zero_le ts) hstart
        · obtain ⟨q, hq1, hq2, hq⟩ := hold q' c' h2 hc' (fun q hq1 hq2 => hall q hq1 (by omega)) ts
            (lt_of_lt_of_le (not_le.1 hstart) hle)
          exact ⟨q, hq1, by omega, hq⟩
    · have h := hs.given n (by rw [hn]; rfl)
      exact hold n c h.2 hn hall ts hts

/-- **One call** leaves no gap. -/
theorem gapFree_step (hadj : Adjoins s inv) (hs : GapFree s) : GapFree (step h s inv) := by
  refine step_lift hs fun s' hw => ?_
  cases hw with
  | @init admin vk hcall hn _ =>
    have hzero : s.seqOr0 = 0 := by
      simp only [Adjoins, hcall] at hadj
      exact hadj
    exact hs.of_commitments rfl hzero.le
  | @commitRoot e _ hadm hnext =>
    refine hs.of_commitments rfl ?_
    show s.seqOr0 ≤ e.sequence
    rw [hnext.seq]
    omega
  | @commitOplog e oplog ev ev' hcall _ _ hnext =>
    refine hs.commit hnext ?_
    simp only [Adjoins, hcall] at hadj
    exact hadj
  | setAdmin | setThreshold | authorize | revoke | attest | registerVk | disclose =>
    exact hs.of_commitments rfl (Nat.le_refl _)

end Contract

namespace Audit

/-- The contract answers "verified". -/
def VerifiedAt (s : Contract.Storage) (q : Nat) : Prop :=
  ∃ v, Contract.verifyAttestation q s = .ok v ∧ v.verdict = "verified"

theorem verifiedAt_isSome (h : VerifiedAt s q) : (s.oplogCommitment q).isSome := by
  obtain ⟨v, hv, _⟩ := h
  unfold Contract.verifyAttestation at hv
  obtain ⟨c, hc, _⟩ := Fallible.bind_ok.1 hv
  rw [Contract.okOr_ok.1 hc]
  rfl

/-- **Ranges without gaps.** In every state of every run of the contract whose ranges adjoin: when the
sequences up to `n` all verify, every write below the end of `n` is in the range of one of them. -/
theorem ranges_leave_no_gap (display : Oplog.Bson → String) (H : History display) (h : Contract.Host)
    (invs : List Contract.Invocation) (hg : Runs.Guarded (Contract.step h) Contract.Adjoins .empty invs) :
    ∀ pre, pre <+: invs → ∀ n c, (Contract.after h pre).oplogCommitment n = some c →
      (∀ q, 1 ≤ q → q ≤ n → VerifiedAt (Contract.after h pre) q) →
      ∀ e ∈ H.entries, isWrite e = true → ∀ ts, entryTs e = some ts → ts < c.endTs →
        ∃ q, 1 ≤ q ∧ q ≤ n ∧ (Contract.after h pre).covers q ts := by
  rintro pre ⟨post, rfl⟩ n c hc hall e _ _ ts _ hts
  have hfree : Contract.GapFree (Contract.after h pre) :=
    Runs.run_inv (fun _ _ hok hs => Contract.gapFree_step hok hs) (Runs.guarded_left hg) Contract.gapFree_empty
  exact hfree.covered n c hc (fun q h1 h2 => verifiedAt_isSome (hall q h1 h2)) ts hts

/-! ### A write between two ranges -/

def seconds (time : UInt64) : UInt64 := time <<< 32

/-- A commitment to a range without writes. -/
def quietRange (startTs endTs : UInt64) : Contract.OplogCommitment :=
  ⟨(hostPrims.sha256 (strBytes "empty_oplog_tree")).val, startTs, endTs, 0⟩

/-- What attester 2 submits for it. -/
def quietSignature (c : Contract.OplogCommitment) : List UInt8 :=
  Contract.demoKey.1 ++ (hostPrims.sha256 (c.oplogRoot ++ Contract.toBeBytes c.oplogEndTs)).val

/-- Two ranges, the second from `startTs` on, each attested. -/
def twoRanges (startTs : UInt64) : List Contract.Invocation :=
  [Contract.demoInit, ⟨⟨[Contract.demoAdmin], 110⟩, .authorizeAttester ⟨2⟩ Contract.demoKey⟩,
    ⟨⟨[Contract.demoAdmin], 200⟩, .commitRootWithOplog (List.replicate 32 0xaa) (quietRange 0 (seconds 10)) "epoch=0 oplog=true"⟩,
    attestCall ⟨2⟩ 1 (quietSignature (quietRange 0 (seconds 10))) 210,
    ⟨⟨[Contract.demoAdmin], 300⟩, .commitRootWithOplog (List.replicate 32 0xbb) (quietRange startTs (seconds 30)) "epoch=1 oplog=true"⟩,
    attestCall ⟨2⟩ 2 (quietSignature (quietRange startTs (seconds 30))) 310]

/-- One insert, at second 15. -/
def midHistory : History fun _ => "" := ⟨[demoOplogEntry 15], by decide, by simp, by simp [demoOplogEntry_wellFormed]⟩

/-- The second range starts where the first ends: the insert is in one of them. -/
theorem adjoining_ranges_cover :
    ∃ q, 1 ≤ q ∧ q ≤ 2 ∧ (Contract.after Contract.demoHost (twoRanges (seconds 10))).covers q ⟨15, 0⟩ := by
  refine ranges_leave_no_gap _ midHistory Contract.demoHost (twoRanges (seconds 10)) ⟨rfl, trivial, .inl (by decide), trivial,
    .inr ⟨1, quietRange 0 (seconds 10), by decide, by decide, rfl, by decide⟩, trivial, trivial⟩ (twoRanges (seconds 10)) (List.prefix_refl _) 2
    (quietRange (seconds 10) (seconds 30)) rfl (fun q h1 h2 => ?_) (demoOplogEntry 15) (List.mem_singleton_self _) (by decide) ⟨15, 0⟩ rfl (by decide)
  obtain rfl | rfl : q = 1 ∨ q = 2 := by omega
  · exact ⟨_, rfl, by decide⟩
  · exact ⟨_, rfl, by decide⟩

/-- A member with the whole history. -/
def midMember : Replica := ⟨midHistory.entries, .ok ⟨40, 0⟩, none⟩

/-- The second range starts at second 20: honest attesters sign both, both verify, and the insert is in neither. -/
theorem gap_verified :
    (∀ c ∈ [quietRange 0 (seconds 10), quietRange (seconds 20) (seconds 30)], c.Exact hostPrims (fun _ => "") midHistory.entries ∧
      ∃ attester sig, compareEpoch hostPrims (fun _ => "") attesterTwo (midMember.attestReplies c (.failed (.timeout ""))) 1 =
        .ok (.matched attester sig)) ∧
    VerifiedAt (Contract.after Contract.demoHost (twoRanges (seconds 20))) 1 ∧
    VerifiedAt (Contract.after Contract.demoHost (twoRanges (seconds 20))) 2 ∧
    (Contract.after Contract.demoHost (twoRanges (seconds 20))).oplogCommitment 2 = some (quietRange (seconds 20) (seconds 30)) ∧
    demoOplogEntry 15 ∈ midHistory.entries ∧ isWrite (demoOplogEntry 15) = true ∧ entryTs (demoOplogEntry 15) = some ⟨15, 0⟩ ∧
    (⟨15, 0⟩ : OplogTimestamp) < (quietRange (seconds 20) (seconds 30)).endTs ∧
    ¬ ∃ q, 1 ≤ q ∧ q ≤ 2 ∧ (Contract.after Contract.demoHost (twoRanges (seconds 20))).covers q ⟨15, 0⟩ := by
  have hroot : entriesRoot hostPrims (fun _ => "") [] = hostPrims.sha256 (strBytes "empty_oplog_tree") := by
    rw [entriesRoot, List.map_nil, merkleRoot]
  refine ⟨fun c hc => ?_, ⟨_, rfl, by decide⟩, ⟨_, rfl, by decide⟩, rfl, List.mem_singleton_self _, by decide, rfl, by decide, ?_⟩
  · have hnil : c.writes midHistory.entries = [] ∧ c.seen midMember ⟨40, 0⟩ = [] ∧
        c.oplogRoot = (hostPrims.sha256 (strBytes "empty_oplog_tree")).val ∧ c.oplogEntryCount = 0 := by
      simp only [List.mem_cons, List.not_mem_nil, or_false] at hc
      rcases hc with rfl | rfl
      · exact ⟨rfl, rfl, rfl, rfl⟩
      · exact ⟨rfl, rfl, rfl, rfl⟩
    obtain ⟨hwrites, hseen, hc, hcount⟩ := hnil
    refine ⟨⟨by rw [hwrites, hroot, hc], by rw [hwrites, hcount]; rfl⟩, ?_⟩
    refine (@compareEpoch_matched_iff _ _ midHistory _ _ _ _ _ (List.infix_refl _)).2 ⟨⟨rfl, rfl⟩, ⟨40, 0⟩, rfl, rfl, ?_⟩
    rw [hseen, hroot, hc]
  · rintro ⟨q, h1, h2, c, hc, hstart, hend⟩
    obtain rfl | rfl : q = 1 ∨ q = 2 := by omega
    · obtain rfl : quietRange 0 (seconds 10) = c := Option.some.inj hc
      exact absurd hend (by decide)
    · obtain rfl : quietRange (seconds 20) (seconds 30) = c := Option.some.inj hc
      exact absurd hstart (by decide)

end Audit
