import NosqlBuddy.Audit.OplogVerify

/-!
# What an attestation says under replication lag

A commitment is `Exact` when its root and its count are those of the writes of the history in its range.
`compute_oplog_range_hash` shortens the range to the member's majority point (oplog.rs:361-370), and its
callers compare the root only: a member that lags attests to a commitment that leaves out what it has not
seen yet, and no caller looks at the count. `attestation_sound_iff`: the attesters sign, and the reader
calls complete, only exact commitments exactly when a member that finds the root of what it sees sees the
whole range, and the count is right.
-/

namespace Audit
open ReaderMode (OnChainRoot)

/-! ## Commitments -/

section
variable (P : Prims) (display : Oplog.Bson → String)

/-- The root over the entries. -/
def entriesRoot (entries : List Oplog.Document) : Bytes32 := merkleRoot P (entries.map (hashOplogEntry P display))

end

end Audit

namespace Contract.OplogCommitment
open Audit

def startTs (c : OplogCommitment) : OplogTimestamp := .unpackU64 c.oplogStartTs

def endTs (c : OplogCommitment) : OplogTimestamp := .unpackU64 c.oplogEndTs

/-- The writes in the range of the commitment. -/
def writes (c : OplogCommitment) (entries : List Oplog.Document) : List Oplog.Document := writesIn entries c.startTs c.endTs

/-- What a member reads of the range. -/
def seen (c : OplogCommitment) (r : Replica) (majorityTs : OplogTimestamp) : List Oplog.Document :=
  seenRange r.oplog majorityTs c.startTs c.endTs

/-- Root and count are those of the writes in the range. -/
def Exact (P : Prims) (display : Oplog.Bson → String) (entries : List Oplog.Document) (c : OplogCommitment) : Prop :=
  c.oplogRoot = (entriesRoot P display (c.writes entries)).val ∧ c.oplogEntryCount.toNat = (c.writes entries).length

/-- The member sees the whole range, and the commitment counts it. -/
def FullySeen (c : OplogCommitment) (entries : List Oplog.Document) (r : Replica) (majorityTs : OplogTimestamp) : Prop :=
  SeesRange entries r.oplog majorityTs c.startTs c.endTs ∧ c.oplogEntryCount.toNat = (c.writes entries).length

end Contract.OplogCommitment

namespace Audit
open ReaderMode (OnChainRoot)

/-- What the attester is told about a commitment, when the node answers. -/
def Replica.attestReplies (r : Replica) (c : Contract.OplogCommitment) (submission : Submission) : AttestReplies :=
  ⟨.ok (some c), r.majority, (r.replies c.startTs c.endTs).entries, submission⟩

/-- Both keys of the attester are there. -/
def AttesterConfig.signs (cfg : AttesterConfig) : Prop := cfg.stellarKeypair.isSome ∧ cfg.attesterKey.isSome

section
variable (P : Prims) (display : Oplog.Bson → String)

/-- The member answers, and the committed root is that of what it sees. -/
def FindsRoot (r : Replica) (c : Contract.OplogCommitment) (majorityTs : OplogTimestamp) : Prop :=
  r.majority = .ok majorityTs ∧ r.readError = none ∧ c.oplogRoot = (entriesRoot P display (c.seen r majorityTs)).val

/-- The member answers, and the committed root is another one. -/
def FindsOther (r : Replica) (c : Contract.OplogCommitment) (majorityTs : OplogTimestamp) : Prop :=
  r.majority = .ok majorityTs ∧ r.readError = none ∧ c.oplogRoot ≠ (entriesRoot P display (c.seen r majorityTs)).val

end

section
variable {P : Prims} {display : Oplog.Bson → String} {H : History display} {r : Replica} {c : Contract.OplogCommitment}
  {cfg : AttesterConfig} {submission : Submission} {sequence : Nat} {majorityTs : OplogTimestamp}

theorem hex_eq_iff : String.ofList (Bytes.hexEncode a) = String.ofList (Bytes.hexEncode b) ↔ a = b := by
  rw [String.ofList_inj]
  exact ⟨fun h => Bytes.hexEncode_injective h, fun h => h ▸ rfl⟩

theorem compute_cases (hw : r.oplog <:+: H.entries) (sequence : Nat) :
    (∃ e, computeOplogRangeHash P display (r.replies c.startTs c.endTs) sequence c.startTs c.endTs = .error e ∧
      ¬ ∃ majorityTs, r.majority = .ok majorityTs ∧ r.readError = none) ∨
    ∃ majorityTs range, r.majority = .ok majorityTs ∧ r.readError = none ∧
      computeOplogRangeHash P display (r.replies c.startTs c.endTs) sequence c.startTs c.endTs = .ok range ∧
      range.entryCount = (c.seen r majorityTs).length ∧
      (range.merkleRootHex = String.ofList (Bytes.hexEncode c.oplogRoot) ↔ FindsRoot P display r c majorityTs) := by
  cases hm : r.majority with
  | error e => exact .inl ⟨e, compute_majority_error hm, by simp⟩
  | ok majorityTs =>
    cases hr : r.readError with
    | some e => exact .inl ⟨e, compute_read_error hm hr, by simp⟩
    | none =>
      refine .inr ⟨majorityTs, _, rfl, rfl, compute_ok hw hm hr, rfl, ?_⟩
      simp only [hex_eq_iff, FindsRoot, hm, hr, true_and]
      exact eq_comm

theorem signOplogAttestation_ok {P : Prims} (root : Bytes32) (key : List UInt8 → List UInt8) (ts : UInt64) :
    ∃ sig, signOplogAttestation P key (String.ofList (Bytes.hexEncode root.val)) ts = .ok sig := by
  simp [signOplogAttestation, Bytes.hexDecode_hexEncode, root.2]

theorem findsOther_iff (hm : r.majority = .ok majorityTs) (hr : r.readError = none) :
    FindsOther P display r c majorityTs ↔ ¬ FindsRoot P display r c majorityTs := by
  simp [FindsOther, FindsRoot, hm, hr]

theorem exists_findsRoot_iff (hm : r.majority = .ok majorityTs) :
    (∃ majorityTs, FindsRoot P display r c majorityTs) ↔ FindsRoot P display r c majorityTs := by
  constructor
  · rintro ⟨m, hfinds⟩
    obtain rfl : m = majorityTs := Except.ok.inj (hfinds.1.symm.trans hm)
    exact hfinds
  · exact fun hfinds => ⟨majorityTs, hfinds⟩

/-- **The decision of the attester** about a commitment. -/
theorem compareEpoch_ok_iff (hc : replies.commitment = .ok (some c)) :
    compareEpoch P display cfg replies sequence = .ok compared ↔ ∃ attester range, cfg.stellarKeypair = some attester ∧
      computeOplogRangeHash P display ⟨replies.majority, replies.majority, replies.entries⟩ sequence c.startTs c.endTs = .ok range ∧
      ((range.merkleRootHex = String.ofList (Bytes.hexEncode c.oplogRoot) ∧ ∃ key sig, cfg.attesterKey = some key ∧
          signOplogAttestation P key (String.ofList (Bytes.hexEncode c.oplogRoot)) c.oplogEndTs = .ok sig ∧
          compared = .matched attester sig) ∨
        (range.merkleRootHex ≠ String.ofList (Bytes.hexEncode c.oplogRoot) ∧ compared = .mismatch)) := by
  simp only [compareEpoch, hc, Fallible.bind_ok, required_ok, labelled_ok, Except.ok.injEq, exists_eq_left']
  constructor
  · rintro ⟨attester, hkp, range, hrange, h⟩
    refine ⟨attester, range, hkp, hrange, ?_⟩
    split at h
    · next heq =>
      simp only [Fallible.bind_ok, required_ok, Fallible.pure_ok] at h
      obtain ⟨key, hkey, sig, hsig, rfl⟩ := h
      exact .inl ⟨heq, key, sig, hkey, hsig, rfl⟩
    · next hne => exact .inr ⟨hne, (Except.ok.inj h).symm⟩
  · rintro ⟨attester, range, hkp, hrange, h⟩
    refine ⟨attester, hkp, range, hrange, ?_⟩
    rcases h with ⟨heq, key, sig, hkey, hsig, rfl⟩ | ⟨hne, rfl⟩
    · simp only [heq, if_true, Fallible.bind_ok, required_ok, Fallible.pure_ok]
      exact ⟨key, hkey, sig, hsig, rfl⟩
    · simp only [hne, if_false]
      rfl

theorem compareEpoch_matched_iff (hw : r.oplog <:+: H.entries) :
    (∃ attester sig, compareEpoch P display cfg (r.attestReplies c submission) sequence = .ok (.matched attester sig)) ↔
      cfg.signs ∧ ∃ majorityTs, FindsRoot P display r c majorityTs := by
  rcases @compute_cases P display H r c hw sequence with ⟨e, he, hno⟩ | ⟨majorityTs, range, hm, hr, hok, _, hroot⟩
  · constructor
    · rintro ⟨attester, sig, h⟩
      obtain ⟨_, range, _, hrange, _⟩ := (compareEpoch_ok_iff rfl).1 h
      cases he.symm.trans hrange
    · rintro ⟨_, majorityTs, hfinds⟩
      exact absurd ⟨majorityTs, hfinds.1, hfinds.2.1⟩ hno
  · rw [exists_findsRoot_iff hm, ← hroot]
    constructor
    · rintro ⟨attester, sig, h⟩
      obtain ⟨a, range', hkp, hrange, h⟩ := (compareEpoch_ok_iff rfl).1 h
      obtain rfl : range = range' := Except.ok.inj (hok.symm.trans hrange)
      rcases h with ⟨heq, key, _, hkey, _⟩ | ⟨_, h⟩
      · exact ⟨⟨by rw [hkp]; rfl, by rw [hkey]; rfl⟩, heq⟩
      · cases h
    · rintro ⟨⟨hkp, hkey⟩, heq⟩
      obtain ⟨attester, hkp⟩ := Option.isSome_iff_exists.1 hkp
      obtain ⟨key, hkey⟩ := Option.isSome_iff_exists.1 hkey
      have hbytes := (hroot.1 heq).2.2
      obtain ⟨sig, hsig⟩ := @signOplogAttestation_ok P (entriesRoot P display (c.seen r majorityTs)) key c.oplogEndTs
      rw [← hbytes] at hsig
      exact ⟨attester, sig, (compareEpoch_ok_iff rfl).2 ⟨attester, range, hkp, hok, .inl ⟨heq, key, sig, hkey, hsig, rfl⟩⟩⟩

theorem compareEpoch_mismatch_iff (hw : r.oplog <:+: H.entries) :
    compareEpoch P display cfg (r.attestReplies c submission) sequence = .ok .mismatch ↔
      cfg.stellarKeypair.isSome ∧ ∃ majorityTs, FindsOther P display r c majorityTs := by
  rw [compareEpoch_ok_iff rfl]
  rcases @compute_cases P display H r c hw sequence with ⟨e, he, hno⟩ | ⟨majorityTs, range, hm, hr, hok, _, hroot⟩
  · constructor
    · rintro ⟨_, range, _, hrange, _⟩
      cases he.symm.trans hrange
    · rintro ⟨_, majorityTs, hfinds⟩
      exact absurd ⟨majorityTs, hfinds.1, hfinds.2.1⟩ hno
  · constructor
    · rintro ⟨attester, range', hkp, hrange, h⟩
      obtain rfl : range = range' := Except.ok.inj (hok.symm.trans hrange)
      rcases h with ⟨_, _, _, _, _, h⟩ | ⟨hne, _⟩
      · cases h
      · exact ⟨by rw [hkp]; rfl, majorityTs, (findsOther_iff hm hr).2 fun hfinds => hne (hroot.2 hfinds)⟩
    · rintro ⟨hkp, m, hfinds⟩
      obtain rfl : m = majorityTs := Except.ok.inj (hfinds.1.symm.trans hm)
      obtain ⟨attester, hkp⟩ := Option.isSome_iff_exists.1 hkp
      exact ⟨attester, range, hkp, hok, .inr ⟨fun heq => (findsOther_iff hm hr).1 hfinds (hroot.1 heq), rfl⟩⟩

theorem attestEpoch_compare (h : Contract.Host) (replies : AttestReplies) (now : String) (chain : Contract.Storage) :
    ((∃ result, (attestEpoch P display h cfg replies now sequence chain).1 = .ok result ∧ result.matched = true) ↔
      ∃ attester sig, compareEpoch P display cfg replies sequence = .ok (.matched attester sig)) ∧
    ((∃ result, (attestEpoch P display h cfg replies now sequence chain).1 = .ok result ∧ result.alert.isSome) ↔
      compareEpoch P display cfg replies sequence = .ok .mismatch) := by
  unfold attestEpoch compareEpoch
  cases cfg.stellarKeypair with
  | none => simp [required, bind, Except.bind]
  | some attester =>
    cases replies.commitment with
    | error e => simp [required, labelled, bind, Except.bind]
    | ok onChain =>
      cases onChain with
      | none => simp [required, labelled, bind, Except.bind, pure, Except.pure]
      | some c =>
        simp only [required, labelled, bind, Except.bind]
        cases computeOplogRangeHash P display ⟨replies.majority, replies.majority, replies.entries⟩ sequence
            (.unpackU64 c.oplogStartTs) (.unpackU64 c.oplogEndTs) with
        | error e => simp
        | ok range =>
          by_cases hroot : range.merkleRootHex = String.ofList (Bytes.hexEncode c.oplogRoot)
          · simp only [hroot, if_true]
            cases cfg.attesterKey with
            | none => simp
            | some key =>
              simp only
              cases signOplogAttestation P key (String.ofList (Bytes.hexEncode c.oplogRoot)) c.oplogEndTs with
              | error e => simp
              | ok sig =>
                simp only
                rcases attestOplogNative h attester sequence sig replies.submission chain with ⟨e | u, chain'⟩
                · simp [pure, Except.pure]
                · simp [pure, Except.pure]
          · simp [hroot, pure, Except.pure]

theorem hashFailedReport_verdict (root : String) (e : AuditError) :
    (hashFailedReport sequence root e).verdict = .stale ∨ (hashFailedReport sequence root e).verdict = .error := by
  simp only [hashFailedReport, OplogIntegrityReport.without]
  split
  · exact .inl rfl
  · exact .inr rfl

/-- **The verdict of the readers.** -/
theorem checkCommitment_cases (hw : r.oplog <:+: H.entries) :
    (((checkCommitment P display r sequence c).verdict = .stale ∨ (checkCommitment P display r sequence c).verdict = .error) ∧
      ∀ majorityTs, r.majority = .ok majorityTs → r.readError = none → c.seen r majorityTs = [] ∧ c.oplogEntryCount > 0) ∨
    ∃ majorityTs, r.majority = .ok majorityTs ∧ r.readError = none ∧ (c.seen r majorityTs ≠ [] ∨ c.oplogEntryCount = 0) ∧
      (((checkCommitment P display r sequence c).verdict = .complete ∧ FindsRoot P display r c majorityTs) ∨
        ((checkCommitment P display r sequence c).verdict = .mismatch ∧ ¬ FindsRoot P display r c majorityTs)) := by
  rcases @compute_cases P display H r c hw sequence with ⟨e, he, hno⟩ | ⟨majorityTs, range, hm, hr, hok, hcount, hroot⟩
  · left
    have hcheck : checkCommitment P display r sequence c =
        hashFailedReport sequence (String.ofList (Bytes.hexEncode c.oplogRoot)) e := by
      unfold Contract.OplogCommitment.startTs Contract.OplogCommitment.endTs at he
      simp only [checkCommitment, he]
    rw [hcheck]
    exact ⟨hashFailedReport_verdict _ e, fun m hm hr => absurd ⟨m, hm, hr⟩ hno⟩
  · unfold Contract.OplogCommitment.startTs Contract.OplogCommitment.endTs at hok
    by_cases hrolled : range.entryCount = 0 ∧ c.oplogEntryCount > 0
    · left
      have hcheck : checkCommitment P display r sequence c =
          rolledOverReport sequence (String.ofList (Bytes.hexEncode c.oplogRoot)) c.oplogEntryCount.toNat := by
        simp only [checkCommitment, hok, if_pos hrolled]
      rw [hcheck]
      refine ⟨.inl rfl, fun m hm' _ => ?_⟩
      obtain rfl : m = majorityTs := Except.ok.inj (hm'.symm.trans hm)
      exact ⟨List.length_eq_zero_iff.1 (hcount ▸ hrolled.1), hrolled.2⟩
    · right
      have hcheck : checkCommitment P display r sequence c =
          comparedReport sequence (String.ofList (Bytes.hexEncode c.oplogRoot)) range.merkleRootHex range.entryCount := by
        simp only [checkCommitment, hok, if_neg hrolled]
      have hseen : c.seen r majorityTs ≠ [] ∨ c.oplogEntryCount = 0 := by
        by_cases hzero : c.oplogEntryCount = 0
        · exact .inr hzero
        · refine .inl fun hnil => hrolled ⟨by rw [hcount, hnil]; rfl, ?_⟩
          exact UInt64.pos_iff_ne_zero.2 hzero
      refine ⟨majorityTs, hm, hr, hseen, ?_⟩
      rw [hcheck, ← hroot]
      by_cases heq : range.merkleRootHex = String.ofList (Bytes.hexEncode c.oplogRoot)
      · exact .inl ⟨by simp [comparedReport, heq], heq⟩
      · exact .inr ⟨by simp [comparedReport, heq], heq⟩

theorem seen_sublist (hw : r.oplog <:+: H.entries) : (c.seen r majorityTs).Sublist H.entries :=
  (seenRange_sublist hw).trans List.filter_sublist

theorem seen_root_iff (hw : r.oplog <:+: H.entries)
    (hideal : EntriesIdealised P display (c.seen r majorityTs) (c.writes H.entries)) :
    entriesRoot P display (c.seen r majorityTs) = entriesRoot P display (c.writes H.entries) ↔
      SeesRange H.entries r.oplog majorityTs c.startTs c.endTs :=
  (History.root_eq_iff (seen_sublist hw) List.filter_sublist hideal).trans (seenRange_eq_iff hw)

theorem FindsRoot.exact_iff (hf : FindsRoot P display r c majorityTs) (hw : r.oplog <:+: H.entries)
    (hideal : EntriesIdealised P display (c.seen r majorityTs) (c.writes H.entries)) :
    c.Exact P display H.entries ↔ c.FullySeen H.entries r majorityTs := by
  unfold Contract.OplogCommitment.Exact Contract.OplogCommitment.FullySeen
  rw [hf.2.2, Subtype.val_inj, seen_root_iff hw hideal]

/-- A decision that is taken exactly when some majority point meets `taken` is right exactly when each of them
comes with a commitment that is fully seen. -/
theorem right_iff (hw : r.oplog <:+: H.entries)
    (hideal : ∀ majorityTs, r.majority = .ok majorityTs → EntriesIdealised P display (c.seen r majorityTs) (c.writes H.entries))
    (taken : OplogTimestamp → Prop) :
    ((∃ majorityTs, FindsRoot P display r c majorityTs ∧ taken majorityTs) → c.Exact P display H.entries) ↔
      ∀ majorityTs, FindsRoot P display r c majorityTs → taken majorityTs → c.FullySeen H.entries r majorityTs := by
  constructor
  · intro h m hf ht
    exact (hf.exact_iff hw (hideal m hf.1)).1 (h ⟨m, hf, ht⟩)
  · rintro h ⟨m, hf, ht⟩
    exact (hf.exact_iff hw (hideal m hf.1)).2 (h m hf ht)

end

/-- **Attestation under replication lag.** For a member whose oplog is a window of the history: each of the
attesters signs exact commitments only, exactly when it has no keys or a member that finds the committed
root sees the whole range, and the count is right; and so for the verdict "complete", which the reader
also withholds when entries are counted and none is seen. -/
theorem attestation_sound_iff (P : Prims) (display : Oplog.Bson → String) (H : History display) (r : Replica)
    (hw : r.oplog <:+: H.entries) (c : Contract.OplogCommitment)
    (hideal : ∀ majorityTs, r.majority = .ok majorityTs → EntriesIdealised P display (c.seen r majorityTs) (c.writes H.entries))
    (h : Contract.Host) (cfg : AttesterConfig) (submission : Submission) (now : String) (chain : Contract.Storage)
    (root : OnChainRoot) :
    ((∀ attester sig, compareEpoch P display cfg (r.attestReplies c submission) root.sequence = .ok (.matched attester sig) →
        c.Exact P display H.entries) ↔
      (cfg.signs → ∀ majorityTs, FindsRoot P display r c majorityTs → c.FullySeen H.entries r majorityTs)) ∧
    ((∀ result, (attestEpoch P display h cfg (r.attestReplies c submission) now root.sequence chain).1 = .ok result →
        result.matched = true → c.Exact P display H.entries) ↔
      (cfg.signs → ∀ majorityTs, FindsRoot P display r c majorityTs → c.FullySeen H.entries r majorityTs)) ∧
    ((∀ report, verifyOplog P display (.ok (some root)) (.ok (some c)) (some r) = .ok report → report.verdict = .complete →
        c.Exact P display H.entries) ↔
      ∀ majorityTs, FindsRoot P display r c majorityTs → c.seen r majorityTs ≠ [] ∨ c.oplogEntryCount = 0 →
        c.FullySeen H.entries r majorityTs) := by
  have hmatched : ((∃ attester sig, compareEpoch P display cfg (r.attestReplies c submission) root.sequence =
      .ok (.matched attester sig)) → c.Exact P display H.entries) ↔
      (cfg.signs → ∀ majorityTs, FindsRoot P display r c majorityTs → c.FullySeen H.entries r majorityTs) := by
    rw [compareEpoch_matched_iff hw, and_imp]
    refine imp_congr_right fun _ => ?_
    simpa using right_iff hw hideal fun _ => True
  refine ⟨?_, ?_, ?_⟩
  · rw [← hmatched]
    exact ⟨fun hall ⟨attester, sig, hok⟩ => hall attester sig hok, fun hex attester sig hok => hex ⟨attester, sig, hok⟩⟩
  · rw [← hmatched, ← (attestEpoch_compare h (r.attestReplies c submission) now chain).1]
    exact ⟨fun hall ⟨result, hok, hm⟩ => hall result hok hm, fun hex result hok hm => hex ⟨result, hok, hm⟩⟩
  · rw [← right_iff hw hideal]
    have hcomplete : (checkCommitment P display r root.sequence c).verdict = .complete ↔
        ∃ majorityTs, FindsRoot P display r c majorityTs ∧ (c.seen r majorityTs ≠ [] ∨ c.oplogEntryCount = 0) := by
      rcases @checkCommitment_cases P display H r c root.sequence hw with ⟨hv, hall⟩ | ⟨m, hm, hr, hseen, hv⟩
      · refine iff_of_false (by rcases hv with hv | hv <;> simp [hv]) ?_
        rintro ⟨m, hf, hseen⟩
        obtain ⟨hnil, hpos⟩ := hall m hf.1 hf.2.1
        rcases hseen with hseen | hzero
        · exact hseen hnil
        · rw [hzero] at hpos
          exact absurd hpos (by decide)
      · rcases hv with ⟨hv, hf⟩ | ⟨hv, hf⟩
        · exact iff_of_true hv ⟨m, hf, hseen⟩
        · refine iff_of_false (by simp [hv]) ?_
          rintro ⟨m', hf', _⟩
          obtain rfl : m' = m := Except.ok.inj (hf'.1.symm.trans hm)
          exact hf hf'
    rw [← hcomplete]
    exact ⟨fun hall hv => hall _ rfl hv, fun hex report hok hv => hex (by obtain rfl := Except.ok.inj hok; exact hv)⟩

/-! ### A member that lags -/

theorem demoOplogEntry_wellFormed (time : UInt32) :
    (Oplog.Bson.document (demoOplogEntry time)).WellFormed fun _ => "" := by
  have hsize : "ts".utf8ByteSize < 4294967296 ∧ "op".utf8ByteSize < 4294967296 ∧ "i".utf8ByteSize < 4294967296 := by decide
  simp only [demoOplogEntry, Oplog.Bson.WellFormed, Oplog.Bson.Everywhere, Oplog.Bson.EverywhereFields, Oplog.Bson.Fits,
    Oplog.Bson.atom, Oplog.Bson.text, Oplog.utf8]
  simp [hsize]

/-- Inserts at seconds 1 and 2. -/
def demoHistory : History fun _ => "" where
  entries := [demoOplogEntry 1, demoOplogEntry 2]
  timed := by decide
  increasing := by
    rw [List.pairwise_pair]
    rintro _ _ ⟨⟩ ⟨⟩
    decide
  wellFormed := by simp [demoOplogEntry_wellFormed]

/-- A member that holds both, with this majority point. -/
def demoMember (majorityTime : UInt32) : Replica := ⟨demoHistory.entries, .ok ⟨majorityTime, 0⟩, none⟩

/-- A commitment to these entries, for the seconds up to 10. -/
def demoCommitted (es : List Oplog.Document) : Contract.OplogCommitment :=
  ⟨(entriesRoot demoPrims (fun _ => "") es).val, 0, 42949672960, UInt64.ofNat es.length⟩

theorem demoCommitted_range (es : List Oplog.Document) :
    (demoCommitted es).startTs = ⟨0, 0⟩ ∧ (demoCommitted es).endTs = ⟨10, 0⟩ := by
  constructor
  · show OplogTimestamp.unpackU64 0 = ⟨0, 0⟩
    decide
  · show OplogTimestamp.unpackU64 42949672960 = ⟨10, 0⟩
    decide

theorem demoCommitted_writes (es : List Oplog.Document) : (demoCommitted es).writes demoHistory.entries = demoHistory.entries := by
  rw [Contract.OplogCommitment.writes, (demoCommitted_range es).1, (demoCommitted_range es).2]
  exact List.filter_eq_self.2 (by decide)

theorem demoCommitted_seen (es : List Oplog.Document) :
    (demoCommitted es).seen (demoMember 2) ⟨2, 0⟩ = [demoOplogEntry 1] ∧
      (demoCommitted es).seen (demoMember 3) ⟨3, 0⟩ = demoHistory.entries := by
  unfold Contract.OplogCommitment.seen
  rw [(demoCommitted_range es).1, (demoCommitted_range es).2]
  exact ⟨rfl, rfl⟩

theorem demoRanges_idealised : EntriesIdealised demoPrims (fun _ => "") [demoOplogEntry 1] demoHistory.entries ∧
    EntriesIdealised demoPrims (fun _ => "") demoHistory.entries demoHistory.entries := by
  have h2 : nodeInputs demoPrims [demoEntryHash 1, demoEntryHash 2] = [nodeInput (demoEntryHash 1, demoEntryHash 2)] := by
    simp [nodeInputs, PairTree.hashed, PairTree.pairs, PairTree.parents]
  have h1 : nodeInputs demoPrims [demoEntryHash 1] = [] := by simp [nodeInputs, PairTree.hashed]
  constructor
  · constructor
    · simp only [demoHistory, List.map_cons, List.map_nil, treeInputs, List.cons_ne_nil, if_false, h2, h1]
      decide +kernel
    · simp only [demoHistory, List.map_cons, List.map_nil, h2, h1]
      decide +kernel
  · constructor
    · simp only [demoHistory, List.map_cons, List.map_nil, treeInputs, List.cons_ne_nil, if_false, h2]
      decide +kernel
    · simp only [demoHistory, List.map_cons, List.map_nil, h2]
      decide +kernel

/-- The member that sees both signs the commitment to both, and the commitment is exact. -/
theorem seen_commitment_attested :
    (∃ attester sig, compareEpoch demoPrims (fun _ => "") attesterTwo
      ((demoMember 3).attestReplies (demoCommitted demoHistory.entries) (.failed (.timeout ""))) 1 = .ok (.matched attester sig)) ∧
    (demoCommitted demoHistory.entries).Exact demoPrims (fun _ => "") demoHistory.entries := by
  have hseen : (demoCommitted demoHistory.entries).seen (demoMember 3) ⟨3, 0⟩ = demoHistory.entries := (demoCommitted_seen _).2
  have hmatched : ∃ attester sig, compareEpoch demoPrims (fun _ => "") attesterTwo
      ((demoMember 3).attestReplies (demoCommitted demoHistory.entries) (.failed (.timeout ""))) 1 = .ok (.matched attester sig) :=
    (compareEpoch_matched_iff (List.infix_refl _)).2 ⟨⟨rfl, rfl⟩, ⟨3, 0⟩, rfl, rfl, by rw [hseen]; rfl⟩
  refine ⟨hmatched, ?_⟩
  obtain ⟨attester, sig, hok⟩ := hmatched
  refine (attestation_sound_iff demoPrims (fun _ => "") demoHistory (demoMember 3) (List.infix_refl _)
    (demoCommitted demoHistory.entries) (fun majorityTs hm => ?_) Contract.demoHost attesterTwo _ "" .empty ⟨1, "", 0, ""⟩).1.2
    (fun _ majorityTs hf => ?_) attester sig hok
  · obtain rfl : ⟨3, 0⟩ = majorityTs := Except.ok.inj hm
    rw [hseen, demoCommitted_writes]
    exact demoRanges_idealised.2
  · obtain rfl : ⟨3, 0⟩ = majorityTs := Except.ok.inj hf.1
    exact ⟨(seenRange_eq_iff (List.infix_refl _)).1 hseen, rfl⟩

/-- A member whose majority point is between the two signs a commitment that leaves the second out, and its
reader calls it complete. -/
theorem short_commitment_attested :
    EntriesIdealised demoPrims (fun _ => "") [demoOplogEntry 1] demoHistory.entries ∧
    (∃ attester sig, compareEpoch demoPrims (fun _ => "") attesterTwo
      ((demoMember 2).attestReplies (demoCommitted [demoOplogEntry 1]) (.failed (.timeout ""))) 1 = .ok (.matched attester sig)) ∧
    (∃ result, (attestEpoch demoPrims (fun _ => "") Contract.demoHost attesterTwo
      ((demoMember 2).attestReplies (demoCommitted [demoOplogEntry 1]) (.failed (.timeout ""))) "" 1 .empty).1 = .ok result ∧
      result.matched = true) ∧
    (∃ report, verifyOplog demoPrims (fun _ => "") (.ok (some ⟨1, "", 0, ""⟩)) (.ok (some (demoCommitted [demoOplogEntry 1])))
      (some (demoMember 2)) = .ok report ∧ report.verdict = .complete) ∧
    ¬ (demoCommitted [demoOplogEntry 1]).Exact demoPrims (fun _ => "") demoHistory.entries := by
  have hfinds : FindsRoot demoPrims (fun _ => "") (demoMember 2) (demoCommitted [demoOplogEntry 1]) ⟨2, 0⟩ :=
    ⟨rfl, rfl, by rw [(demoCommitted_seen _).1]; rfl⟩
  have hmatched : ∃ attester sig, compareEpoch demoPrims (fun _ => "") attesterTwo
      ((demoMember 2).attestReplies (demoCommitted [demoOplogEntry 1]) (.failed (.timeout ""))) 1 = .ok (.matched attester sig) :=
    (compareEpoch_matched_iff (List.infix_refl _)).2 ⟨⟨rfl, rfl⟩, ⟨2, 0⟩, hfinds⟩
  refine ⟨demoRanges_idealised.1, hmatched, (attestEpoch_compare _ _ _ _).1.2 hmatched, ⟨_, rfl, ?_⟩, fun h => ?_⟩
  · rcases @checkCommitment_cases demoPrims (fun _ => "") demoHistory (demoMember 2) (demoCommitted [demoOplogEntry 1]) 1
      (List.infix_refl _) with ⟨_, hall⟩ | ⟨m, hm, _, _, hv⟩
    · have hnil := (hall ⟨2, 0⟩ rfl rfl).1
      rw [(demoCommitted_seen _).1] at hnil
      cases hnil
    · obtain rfl : ⟨2, 0⟩ = m := Except.ok.inj hm
      exact hv.elim And.left fun hv => absurd hfinds hv.2
  · exact absurd h.2 (by decide)

end Audit
