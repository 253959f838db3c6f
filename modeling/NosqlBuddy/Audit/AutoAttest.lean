import NosqlBuddy.Audit.OplogRanges
import NosqlBuddy.Contract.Attestation

/-!
# The auto-attest loop

`auto_attest_loop` (auditd/mod.rs:495) scans the sequences after `last_attested_seq`, compares each oplog
commitment with the local oplog and submits an attestation where they agree. Here it runs beside the
contract: anybody's transactions come in between its steps.

| here | there |
| --- | --- |
| `AttestReplies`, `Submission` | what the RPC node and the replica answer for one sequence |
| `compareEpoch` | `attest_epoch_internal` (mod.rs:545) up to the submission |
| `attestOplogNative` | stellar_native.rs:1090; the contract call is `Contract.invoke` |
| `AttestLoop`, `stepAttest` | where the loop is; one poll or one round of its `for` |
| `alerts` | the sequences of the logged mismatches |

A failed submission gives `Ok(false)` like a mismatch (mod.rs:604-610), and a sequence that ends with
`Err` is left behind when a later one of the scan ends with `Ok` (mod.rs:526-537).
`none_escapes_iff`: no sequence escapes in a run exactly when neither happens to a sequence that is
committed and not yet attested.
-/

namespace Contract

/-! ## Sequences without an oplog commitment -/

/-- The sequences up to `n` have been given out: a commitment will not be added to one that has none. -/
structure Frontier (n : Nat) (s : Storage) : Prop where
  given : ∀ q, 1 ≤ q → q ≤ n → s.oplogCommitment q = none → q ≤ s.seqOr0
  /-- without an admin only `commit_root_with_oplog` can have given out a sequence -/
  uninitialized : s.admin = none → ∀ q, 1 ≤ q → q ≤ n ∨ q ≤ s.seqOr0 → (s.oplogCommitment q).isSome

theorem frontier_empty : Frontier 0 Storage.empty where
  given := fun q h1 h2 _ => by omega
  uninitialized := fun _ q h1 h2 => by
    have h0 : Storage.empty.seqOr0 = 0 := rfl
    omega

theorem Frontier.raise (h : Frontier n s) (hm : m ≤ n ∨ m ≤ s.seqOr0) : Frontier m s where
  given := fun q h1 h2 hq => by
    by_cases hs : q ≤ s.seqOr0
    · exact hs
    · exact h.given q h1 (by omega) hq
  uninitialized := fun ha q h1 h2 => h.uninitialized ha q h1 (by omega)

theorem write_frontier (hw : Write h inv s s') (hf : Frontier n s) :
    Frontier n s' ∧ ∀ q, 1 ≤ q → q ≤ n → s.oplogCommitment q = none → s'.oplogCommitment q = none := by
  cases hw with
  | init _ hn _ =>
    refine ⟨⟨fun q h1 h2 hq => ?_, fun ha => by cases ha⟩, fun _ _ _ hq => hq⟩
    have hsome := hf.uninitialized hn q h1 (.inl h2)
    have hnone : s.oplogCommitment q = none := hq
    rw [hnone] at hsome
    cases hsome
  | @commitRoot e _ hadm hnext =>
    refine ⟨⟨fun q h1 h2 hq => ?_, fun ha => ?_⟩, fun _ _ _ hq => hq⟩
    · have hle := hf.given q h1 h2 hq
      show q ≤ e.sequence
      rw [hnext.seq]
      omega
    · obtain ⟨a, hsome, _⟩ := hadm
      have hnone : s.admin = none := ha
      rw [hsome] at hnone
      cases hnone
  | @commitOplog e oplog ev ev' _ _ _ hnext =>
    have hupd : ∀ q, ((((s.pushRoot e).setOplog e.sequence oplog).publish ev).publish ev').oplogCommitment q =
        if q = e.sequence then some oplog else s.oplogCommitment q := fun q => Function.update_apply _ _ _ q
    have hkeep : ∀ q, 1 ≤ q → q ≤ n → s.oplogCommitment q = none → q ≠ e.sequence := fun q h1 h2 hq heq => by
      have hle := hf.given q h1 h2 hq
      rw [heq, hnext.seq] at hle
      omega
    refine ⟨⟨fun q h1 h2 hq => ?_, fun ha q h1 h2 => ?_⟩, fun q h1 h2 hq => ?_⟩
    · rw [hupd] at hq
      split at hq
      · cases hq
      · have hle := hf.given q h1 h2 hq
        show q ≤ e.sequence
        rw [hnext.seq]
        omega
    · rw [hupd]
      split
      · rfl
      · next hne =>
        refine hf.uninitialized ha q h1 ?_
        have hseq : q ≤ n ∨ q ≤ e.sequence := h2
        rw [hnext.seq] at hseq hne
        omega
    · rw [hupd, if_neg (hkeep q h1 h2 hq)]
      exact hq
  | setAdmin =>
    exact ⟨⟨hf.given, fun ha => by cases ha⟩, fun _ _ _ hq => hq⟩
  | setThreshold | authorize | revoke | attest | registerVk | disclose =>
    exact ⟨⟨hf.given, hf.uninitialized⟩, fun _ _ _ hq => hq⟩

theorem step_frontier (h : Host) (inv : Invocation) (hf : Frontier n s) :
    Frontier n (step h s inv) ∧ ∀ q, 1 ≤ q → q ≤ n → s.oplogCommitment q = none → (step h s inv).oplogCommitment q = none :=
  step_lift ⟨hf, fun _ _ _ hq => hq⟩ fun _ hw => write_frontier hw hf

theorem after_frontier (h : Host) (invs : List Invocation) : Frontier 0 (after h invs) :=
  Runs.run_inv (I := Frontier 0) (fun _ inv _ hf => (step_frontier h inv hf).1) (Runs.guarded_true _ _) frontier_empty

/-! ## Attested sequences -/

/-- The attester's signature is on the sequence. -/
def Storage.attestedBy (s : Storage) (attester : Address) (q : Nat) : Prop :=
  ∃ a ∈ s.attestations q, a.attester = attester

theorem attestedBy_step (hatt : s.attestedBy attester q)
    (inv : Invocation) : (step h s inv).attestedBy attester q := by
  obtain ⟨a, ha, hattester⟩ := hatt
  have hgrows : Grows s (step h s inv) := step_lift (Grows.refl s) fun _ hw => write_grows hw
  exact ⟨a, (hgrows q).subset ha, hattester⟩

/-- An accepted `attest_oplog` call puts the signature on its sequence; the commitments and the other
sequences are left alone. -/
theorem attestOplog_accepted (hok : invoke h ⟨ctx, .attestOplog attester q signature⟩ s = .ok s') :
    s'.attestedBy attester q ∧ s'.oplogCommitment = s.oplogCommitment ∧
      ∀ q', q' ≠ q → s'.attestations q' = s.attestations q' := by
  simp only [invoke, attestOplog, Fallible.bind_ok, okOr_ok, requireAuth_ok, Fallible.guard_ok, Fallible.pure_ok] at hok
  obtain ⟨_, _, c, _, pk, _, _, _, _, rfl⟩ := hok
  refine ⟨⟨⟨attester, signature, ctx.timestamp⟩, ?_, rfl⟩, rfl, fun q' hq' => ?_⟩
  · rw [attestations_set, if_pos rfl]
    exact List.mem_append_right _ (List.mem_singleton_self _)
  · rw [attestations_set, if_neg hq']

theorem step_of_ok (hok : invoke h inv s = .ok s') : step h s inv = s' := by
  rw [step, hok]

end Contract

namespace Audit

/-! ## One sequence -/

/-- `unpack_u64` (oplog.rs:96). -/
def OplogTimestamp.unpackU64 (packed : UInt64) : OplogTimestamp := ⟨(packed >>> 32).toUInt32, packed.toUInt32⟩

structure AttesterConfig where
  /-- `attester_stellar_keypair`, by the address of its account -/
  stellarKeypair : Option Contract.Address
  /-- `attester_key`, by the signature it makes of a message -/
  attesterKey : Option (List UInt8 → List UInt8)
  /-- `mongo_client` is there -/
  mongoClient : Bool

/-- How `submit_invoke_with_retry` (stellar_native.rs:719) ends. -/
inductive Submission where
  /-- nothing was applied to the ledger -/
  | failed (e : AuditError)
  /-- the ledger's answer came back; `refusal` is the text when the contract refuses the call -/
  | answered (timestamp : UInt64) (refusal : AuditError)
  /-- applied, but `wait_for_transaction` failed -/
  | unconfirmed (timestamp : UInt64) (e : AuditError)

structure AttestReplies where
  /-- `get_oplog_commitment_native` -/
  commitment : Except AuditError (Option Contract.OplogCommitment)
  majority : Except AuditError OplogTimestamp
  entries : Except AuditError (List Oplog.Document)
  submission : Submission

/-- What `attest_epoch_internal` does after the comparison. -/
inductive Compared where
  | noCommitment
  | mismatch
  | matched (attester : Contract.Address) (signatureHex : String)

section
variable (P : Prims) (display : Oplog.Bson → String) (h : Contract.Host) (cfg : AttesterConfig)

/-- attester.rs:117 -/
def signOplogAttestation (signingKey : List UInt8 → List UInt8) (oplogRootHex : String) (oplogEndTs : UInt64) :
    Except String String :=
  match Bytes.hexDecode oplogRootHex.toList with
  | none => .error s!"invalid oplog root hex: {fromHexError oplogRootHex.toList}"
  | some oplogRoot =>
    if oplogRoot.length ≠ 32 then .error s!"oplog root must be 32 bytes, got {oplogRoot.length}"
    else .ok (String.ofList (Bytes.hexEncode (signingKey (P.sha256 (oplogRoot ++ Contract.toBeBytes oplogEndTs)).val)))

/-- `ok_or_else(..)?`. -/
def required {α : Type} (o : Option α) (message : String) : Except String α :=
  match o with
  | some a => .ok a
  | none => .error message

/-- `map_err(|e| format!("{what}: {e}"))?`. -/
def labelled {α : Type} (what : String) (x : Except AuditError α) : Except String α :=
  match x with
  | .ok a => .ok a
  | .error e => .error s!"{what}: {e.display}"

def compareEpoch (replies : AttestReplies) (sequence : Nat) : Except String Compared := do
  let stellarKp ← required cfg.stellarKeypair
    "no attester Stellar keypair configured — use --attester-secret-key or ATTESTER_SECRET_KEY env var"
  let onChain ← labelled s!"get_oplog_commitment_native({sequence})" replies.commitment
  match onChain with
  | none => return .noCommitment
  | some onChainOplog =>
    let oplogRootHex := String.ofList (Bytes.hexEncode onChainOplog.oplogRoot)
    let computed ← labelled "compute_oplog_range_hash"
      (computeOplogRangeHash P display ⟨replies.majority, replies.majority, replies.entries⟩ sequence
        (.unpackU64 onChainOplog.oplogStartTs) (.unpackU64 onChainOplog.oplogEndTs))
    if computed.merkleRootHex = oplogRootHex then
      let attesterKey ← required cfg.attesterKey "attester ed25519 key not configured — use --attester-key-file"
      let signatureHex ← signOplogAttestation P attesterKey oplogRootHex onChainOplog.oplogEndTs
      return .matched stellarKp signatureHex
    else return .mismatch

/-- The call that is submitted. -/
def attestCall (attester : Contract.Address) (sequence : Nat) (signature : List UInt8) (timestamp : UInt64) : Contract.Invocation :=
  ⟨⟨[attester], timestamp⟩, .attestOplog attester sequence signature⟩

def attestOplogNative (attester : Contract.Address) (sequence : Nat) (signatureHex : String) (submission : Submission)
    (chain : Contract.Storage) : Except AuditError Unit × Contract.Storage :=
  match Bytes.hexDecode signatureHex.toList with
  | none => (.error (.validation s!"invalid signature hex: {fromHexError signatureHex.toList}"), chain)
  | some signature =>
    match submission with
    | .failed e => (.error e, chain)
    | .answered timestamp refusal =>
      match Contract.invoke h (attestCall attester sequence signature timestamp) chain with
      | .ok chain' => (.ok (), chain')
      | .error _ => (.error refusal, chain)
    | .unconfirmed timestamp e => (.error e, Contract.step h chain (attestCall attester sequence signature timestamp))

/-! ## The loop -/

inductive AttestLoop where
  | sleeping
  /-- in the `for` up to `currentSeq`, before `seq` -/
  | scanning (seq currentSeq : Nat)
deriving DecidableEq, Repr

structure AttestWorld where
  chain : Contract.Storage
  lastAttestedSeq : Nat
  loop : AttestLoop
  alerts : List Nat

/-- The loop starts on a contract that is in use. -/
def AttestWorld.start (chain : Contract.Storage) : AttestWorld := ⟨chain, 0, .sleeping, []⟩

inductive AttestStep where
  | transaction (inv : Contract.Invocation)
  /-- the sequence of `get_current_root` -/
  | poll (currentRoot : Except AuditError (Option Nat))
  | attest (replies : AttestReplies)

def attestEpochInternal (replies : AttestReplies) (sequence : Nat) (w : AttestWorld) : Except String Bool × AttestWorld :=
  match compareEpoch P display cfg replies sequence with
  | .error e => (.error e, w)
  | .ok .noCommitment => (.ok false, w)
  | .ok .mismatch => (.ok false, { w with alerts := w.alerts ++ [sequence] })
  | .ok (.matched attester signatureHex) =>
    match attestOplogNative h attester sequence signatureHex replies.submission w.chain with
    | (.ok (), chain) => (.ok true, { w with chain := chain })
    | (.error _, chain) => (.ok false, { w with chain := chain })

/-- The rest of the round: the cursor stays where it is after an error only. -/
def AttestWorld.advance (w : AttestWorld) (seq currentSeq : Nat) (result : Except String Bool) : AttestWorld :=
  { w with
    lastAttestedSeq := match result with
      | .ok true => seq
      | .ok false => seq
      | .error _ => w.lastAttestedSeq
    loop := if seq < currentSeq then .scanning (seq + 1) currentSeq else .sleeping }

def stepAttest (w : AttestWorld) : AttestStep → AttestWorld
  | .transaction inv => { w with chain := Contract.step h w.chain inv }
  | .poll currentRoot =>
    match w.loop, cfg.mongoClient, currentRoot with
    | .sleeping, true, .ok (some currentSeq) =>
      if currentSeq ≤ w.lastAttestedSeq then w else { w with loop := .scanning (w.lastAttestedSeq + 1) currentSeq }
    | _, _, _ => w
  | .attest replies =>
    match w.loop with
    | .sleeping => w
    | .scanning seq currentSeq =>
      match attestEpochInternal P display h cfg replies seq w with
      | (result, w') => w'.advance seq currentSeq result

/-! ## What must not happen -/

/-- The sequence is attested by this daemon, has no oplog commitment, or was found to mismatch. -/
def Settled (w : AttestWorld) (q : Nat) : Prop :=
  (∃ attester, cfg.stellarKeypair = some attester ∧ w.chain.attestedBy attester q) ∨
    w.chain.oplogCommitment q = none ∨ q ∈ w.alerts

def NoneEscapes (w : AttestWorld) : Prop := ∀ q, 1 ≤ q → q ≤ w.lastAttestedSeq → Settled cfg w q

/-- What the RPC node reports is on the ledger. -/
def Truthful (w : AttestWorld) : AttestStep → Prop
  | .poll (.ok (some currentSeq)) => currentSeq ≤ w.chain.seqOr0
  | .attest replies => ∀ seq currentSeq onChain, w.loop = .scanning seq currentSeq → replies.commitment = .ok onChain →
      w.chain.oplogCommitment seq = onChain
  | _ => True

/-- The attestation gets on the ledger, or is there already. -/
def Lands (w : AttestWorld) (attester : Contract.Address) (sequence : Nat) (signatureHex : String) : Submission → Prop
  | .failed _ => w.chain.attestedBy attester sequence
  | .answered timestamp _ | .unconfirmed timestamp _ => w.chain.attestedBy attester sequence ∨
      ∃ signature chain', Bytes.hexDecode signatureHex.toList = some signature ∧
        Contract.invoke h (attestCall attester sequence signature timestamp) w.chain = .ok chain'

/-- A round that does not end with an error leaves no open sequence behind, and its own attestation
lands. -/
def LeavesNoneBehind (w : AttestWorld) : AttestStep → Prop
  | .attest replies => ∀ seq currentSeq compared, w.loop = .scanning seq currentSeq →
      compareEpoch P display cfg replies seq = .ok compared →
      (∀ q, w.lastAttestedSeq < q → q < seq → Settled cfg w q) ∧
      ∀ attester signatureHex, compared = .matched attester signatureHex → Lands h w attester seq signatureHex replies.submission
  | _ => True

end

/-! ## One round -/

section
variable {P : Prims} {display : Oplog.Bson → String} {h : Contract.Host} {cfg : AttesterConfig} {w : AttestWorld}

theorem required_ok {α : Type} {o : Option α} {message : String} {a : α} : required o message = .ok a ↔ o = some a := by
  cases o <;> simp [required]

theorem labelled_ok {α : Type} {what : String} {x : Except AuditError α} {a : α} : labelled what x = .ok a ↔ x = .ok a := by
  cases x <;> simp [labelled]

theorem compareEpoch_noCommitment {replies : AttestReplies} {sequence : Nat}
    (hc : compareEpoch P display cfg replies sequence = .ok .noCommitment) : replies.commitment = .ok none := by
  simp only [compareEpoch, Fallible.bind_ok, required_ok, labelled_ok] at hc
  obtain ⟨kp, _, onChain, hon, hc⟩ := hc
  cases onChain with
  | none => exact hon
  | some c =>
    simp only [Fallible.bind_ok] at hc
    obtain ⟨computed, _, hc⟩ := hc
    split at hc
    · simp only [Fallible.bind_ok, Fallible.pure_ok] at hc
      obtain ⟨key, _, sig, _, hc⟩ := hc
      cases hc
    · cases hc

theorem compareEpoch_matched {replies : AttestReplies} {sequence : Nat} {attester : Contract.Address} {signatureHex : String}
    (hc : compareEpoch P display cfg replies sequence = .ok (.matched attester signatureHex)) :
    cfg.stellarKeypair = some attester ∧ ∃ c, replies.commitment = .ok (some c) := by
  simp only [compareEpoch, Fallible.bind_ok, required_ok, labelled_ok] at hc
  obtain ⟨kp, hkp, onChain, hon, hc⟩ := hc
  cases onChain with
  | none => cases hc
  | some c =>
    simp only [Fallible.bind_ok] at hc
    obtain ⟨computed, _, hc⟩ := hc
    split at hc
    · simp only [Fallible.bind_ok, Fallible.pure_ok, Compared.matched.injEq] at hc
      obtain ⟨key, _, sig, _, rfl, _⟩ := hc
      exact ⟨hkp, c, hon⟩
    · cases hc

theorem attestOplogNative_cases (attester : Contract.Address) (sequence : Nat) (signatureHex : String)
    (submission : Submission) (w : AttestWorld) :
    ((attestOplogNative h attester sequence signatureHex submission w.chain).2 = w.chain ∧
      (Lands h w attester sequence signatureHex submission ↔ w.chain.attestedBy attester sequence)) ∨
    (∃ signature timestamp, Contract.invoke h (attestCall attester sequence signature timestamp) w.chain =
        .ok (attestOplogNative h attester sequence signatureHex submission w.chain).2 ∧
      Lands h w attester sequence signatureHex submission) := by
  unfold attestOplogNative
  cases hdec : Bytes.hexDecode signatureHex.toList with
  | none =>
    refine .inl ⟨rfl, ?_⟩
    cases submission <;> simp [Lands, hdec]
  | some signature =>
    cases submission with
    | failed e => exact .inl ⟨rfl, Iff.rfl⟩
    | answered timestamp refusal =>
      cases hinv : Contract.invoke h (attestCall attester sequence signature timestamp) w.chain with
      | ok chain' => exact .inr ⟨signature, timestamp, by simp [hinv], .inr ⟨signature, chain', hdec, hinv⟩⟩
      | error f => exact .inl ⟨by simp [hinv], by simp [Lands, hdec, hinv]⟩
    | unconfirmed timestamp e =>
      cases hinv : Contract.invoke h (attestCall attester sequence signature timestamp) w.chain with
      | ok chain' =>
        exact .inr ⟨signature, timestamp, by simp [Contract.step_of_ok hinv, hinv], .inr ⟨signature, chain', hdec, hinv⟩⟩
      | error f => exact .inl ⟨by simp [Contract.step, hinv], by simp [Lands, hdec, hinv]⟩

/-- What a round for `seq` that ends with `Ok` does to the ledger and the alerts. -/
structure RoundOf (h : Contract.Host) (w w' : AttestWorld) (replies : AttestReplies) (seq : Nat) (compared : Compared) : Prop where
  cursor : w'.lastAttestedSeq = w.lastAttestedSeq
  commitments : w'.chain.oplogCommitment = w.chain.oplogCommitment
  others : ∀ q, q ≠ seq → w'.chain.attestations q = w.chain.attestations q
  frontier : ∀ n, Contract.Frontier n w.chain → Contract.Frontier n w'.chain
  alerts : ∀ q, q ∈ w'.alerts ↔ q ∈ w.alerts ∨ (q = seq ∧ compared = .mismatch)
  own : ∀ attester signatureHex, compared = .matched attester signatureHex →
    (w'.chain.attestedBy attester seq ↔ Lands h w attester seq signatureHex replies.submission)

theorem attestEpochInternal_ok {replies : AttestReplies} {seq : Nat} {compared : Compared}
    (hc : compareEpoch P display cfg replies seq = .ok compared) :
    ∃ b w', attestEpochInternal P display h cfg replies seq w = (.ok b, w') ∧ RoundOf h w w' replies seq compared := by
  unfold attestEpochInternal
  rw [hc]
  cases compared with
  | noCommitment =>
    exact ⟨false, w, rfl, rfl, rfl, fun _ _ => rfl, fun _ hf => hf, by simp, fun _ _ heq => by cases heq⟩
  | mismatch =>
    exact ⟨false, _, rfl, rfl, rfl, fun _ _ => rfl, fun _ hf => hf, by simp, fun _ _ heq => by cases heq⟩
  | matched attester signatureHex =>
    have hround : RoundOf h w
        { w with chain := (attestOplogNative h attester seq signatureHex replies.submission w.chain).2 } replies seq
        (.matched attester signatureHex) := by
      rcases attestOplogNative_cases (h := h) attester seq signatureHex replies.submission w with
        ⟨hsame, hlands⟩ | ⟨signature, timestamp, hinv, hlands⟩
      · rw [hsame]
        refine ⟨rfl, rfl, fun _ _ => rfl, fun _ hf => hf, by simp, fun a sig heq => ?_⟩
        obtain ⟨rfl, rfl⟩ := Compared.matched.inj heq
        exact hlands.symm
      · obtain ⟨hatt, hcommit, hothers⟩ := Contract.attestOplog_accepted hinv
        refine ⟨rfl, hcommit, hothers, fun n hf => ?_, by simp, fun a sig heq => ?_⟩
        · have hstep := (Contract.step_frontier h (attestCall attester seq signature timestamp) hf).1
          rw [Contract.step_of_ok hinv] at hstep
          exact hstep
        · obtain ⟨rfl, rfl⟩ := Compared.matched.inj heq
          exact iff_of_true hatt hlands
    simp only
    generalize attestOplogNative h attester seq signatureHex replies.submission w.chain = r at hround ⊢
    obtain ⟨e | u, chain'⟩ := r
    · exact ⟨false, _, rfl, hround⟩
    · exact ⟨true, _, rfl, hround⟩

/-! ## Runs -/

/-- The sequence up to which the loop has seen the ledger. -/
def AttestWorld.seen (w : AttestWorld) : Nat :=
  match w.loop with
  | .sleeping => w.lastAttestedSeq
  | .scanning _ currentSeq => currentSeq

structure AttestSound (cfg : AttesterConfig) (w : AttestWorld) : Prop where
  escapes : NoneEscapes cfg w
  alerted : ∀ q ∈ w.alerts, q ≤ w.lastAttestedSeq
  ahead : ∀ seq currentSeq, w.loop = .scanning seq currentSeq → w.lastAttestedSeq < seq ∧ seq ≤ currentSeq
  frontier : Contract.Frontier w.seen w.chain

theorem AttestSound.le_seen (hw : AttestSound cfg w) : w.lastAttestedSeq ≤ w.seen := by
  unfold AttestWorld.seen
  cases hloop : w.loop with
  | sleeping => exact Nat.le_refl _
  | scanning seq currentSeq =>
    have h := hw.ahead seq currentSeq hloop
    show w.lastAttestedSeq ≤ currentSeq
    omega

theorem attestSound_start (h : Contract.Host) (invs : List Contract.Invocation) :
    AttestSound cfg (.start (Contract.after h invs)) :=
  ⟨fun q h1 h2 => absurd h2 (Nat.not_le.2 h1), fun _ hq => absurd hq List.not_mem_nil, fun _ _ heq => (by cases heq),
    Contract.after_frontier h invs⟩

theorem attestSound_transaction (hw : AttestSound cfg w) (inv : Contract.Invocation) :
    AttestSound cfg (stepAttest P display h cfg w (.transaction inv)) := by
  obtain ⟨hfront, hnone⟩ := Contract.step_frontier h inv hw.frontier
  refine ⟨fun q h1 h2 => ?_, hw.alerted, hw.ahead, hfront⟩
  rcases hw.escapes q h1 h2 with ⟨attester, hkp, hatt⟩ | hq | hq
  · exact .inl ⟨attester, hkp, Contract.attestedBy_step hatt inv⟩
  · exact .inr (.inl (hnone q h1 (Nat.le_trans h2 hw.le_seen) hq))
  · exact .inr (.inr hq)

theorem attestSound_poll (hw : AttestSound cfg w) {currentRoot : Except AuditError (Option Nat)}
    (htrue : Truthful w (.poll currentRoot)) : AttestSound cfg (stepAttest P display h cfg w (.poll currentRoot)) := by
  unfold stepAttest
  simp only
  split
  · next currentSeq hloop hmongo =>
    split
    · exact hw
    · next hlt =>
      refine ⟨hw.escapes, hw.alerted, fun seq current heq => ?_, hw.frontier.raise (.inr htrue)⟩
      obtain ⟨rfl, rfl⟩ := AttestLoop.scanning.inj heq
      exact ⟨Nat.lt_succ_self _, by omega⟩
  · exact hw

theorem RoundOf.settled_iff (hr : RoundOf h w w' replies seq compared) (hq : q ≠ seq) : Settled cfg w' q ↔ Settled cfg w q := by
  unfold Settled Contract.Storage.attestedBy
  rw [hr.commitments, hr.others q hq, hr.alerts q]
  simp [hq]

theorem RoundOf.settled_own (hr : RoundOf h w w' replies seq compared) (hw : AttestSound cfg w) (hloop : w.loop = .scanning seq currentSeq)
    (hc : compareEpoch P display cfg replies seq = .ok compared) (htrue : Truthful w (.attest replies)) :
    Settled cfg w' seq ↔ ∀ attester signatureHex, compared = .matched attester signatureHex →
      Lands h w attester seq signatureHex replies.submission := by
  cases compared with
  | noCommitment =>
    have hnone := htrue seq currentSeq none hloop (compareEpoch_noCommitment hc)
    refine iff_of_true (.inr (.inl ?_)) fun _ _ heq => by cases heq
    rw [hr.commitments]
    exact hnone
  | mismatch =>
    exact iff_of_true (.inr (.inr ((hr.alerts seq).2 (.inr ⟨rfl, rfl⟩)))) fun _ _ heq => by cases heq
  | matched attester signatureHex =>
    obtain ⟨hkp, c, hcommit⟩ := compareEpoch_matched hc
    have hsome := htrue seq currentSeq (some c) hloop hcommit
    constructor
    · intro hs a sig heq
      obtain ⟨rfl, rfl⟩ := Compared.matched.inj heq
      rcases hs with ⟨a', hkp', hatt⟩ | hnone | halert
      · obtain rfl : attester = a' := Option.some.inj (hkp.symm.trans hkp')
        exact (hr.own attester signatureHex rfl).1 hatt
      · rw [hr.commitments, hsome] at hnone
        cases hnone
      · rcases (hr.alerts seq).1 halert with halert | ⟨_, hm⟩
        · have hle := hw.alerted seq halert
          have hlt := (hw.ahead seq currentSeq hloop).1
          omega
        · cases hm
    · intro hl
      exact .inl ⟨attester, hkp, (hr.own attester signatureHex rfl).2 (hl attester signatureHex rfl)⟩

theorem advance_scanning (heq : (w.advance seq currentSeq result).loop = .scanning seq' currentSeq') :
    seq' = seq + 1 ∧ seq' ≤ currentSeq' ∧ currentSeq' = currentSeq := by
  by_cases hlt : seq < currentSeq
  · simp only [AttestWorld.advance, hlt, if_true, AttestLoop.scanning.injEq] at heq
    omega
  · simp only [AttestWorld.advance, hlt, if_false] at heq
    cases heq

theorem attestSound_advance (hn : NoneEscapes cfg (w.advance seq currentSeq result)) (hle : seq ≤ currentSeq)
    (hcursor : (w.advance seq currentSeq result).lastAttestedSeq ≤ seq)
    (halerts : ∀ q ∈ w.alerts, q ≤ (w.advance seq currentSeq result).lastAttestedSeq)
    (hfront : Contract.Frontier currentSeq w.chain) : AttestSound cfg (w.advance seq currentSeq result) := by
  refine ⟨hn, halerts, fun seq' currentSeq' heq => ?_, hfront.raise (.inl ?_)⟩
  · have h := advance_scanning heq
    omega
  · unfold AttestWorld.seen
    cases hloop : (w.advance seq currentSeq result).loop with
    | sleeping => exact Nat.le_trans hcursor hle
    | scanning seq' currentSeq' => exact (advance_scanning hloop).2.2.le

theorem noneEscapes_advance_iff (b : Bool)
    (hr : RoundOf h w w' replies seq compared) (hw : AttestSound cfg w) (hloop : w.loop = .scanning seq currentSeq)
    (hc : compareEpoch P display cfg replies seq = .ok compared) (htrue : Truthful w (.attest replies)) :
    NoneEscapes cfg (w'.advance seq currentSeq (.ok b)) ↔ LeavesNoneBehind P display h cfg w (.attest replies) := by
  have hlast := (hw.ahead seq currentSeq hloop).1
  have hown := hr.settled_own hw hloop hc htrue
  have hcur : (w'.advance seq currentSeq (.ok b)).lastAttestedSeq = seq := by cases b <;> rfl
  constructor
  · intro hn seq' current' compared' heq hc'
    obtain ⟨rfl, rfl⟩ := AttestLoop.scanning.inj (hloop.symm.trans heq)
    obtain rfl := Except.ok.inj (hc.symm.trans hc')
    refine ⟨fun q h1 h2 => ?_, hown.1 (hn seq (by omega) hcur.ge)⟩
    exact (hr.settled_iff (by omega)).1 (hn q (by omega) (by rw [hcur]; omega))
  · intro hl q h1 h2
    obtain ⟨hbehind, hlands⟩ := hl seq currentSeq compared hloop hc
    rw [hcur] at h2
    rcases Nat.lt_or_ge q seq with hq | hq
    · refine (hr.settled_iff (by omega)).2 ?_
      rcases Nat.lt_or_ge w.lastAttestedSeq q with hq' | hq'
      · exact hbehind q hq' hq
      · exact hw.escapes q h1 hq'
    · obtain rfl : q = seq := by omega
      exact hown.2 hlands

/-- **One round** lets no sequence escape exactly when it leaves none behind. -/
theorem attestSound_attest (hw : AttestSound cfg w) (htrue : Truthful w (.attest replies)) :
    (NoneEscapes cfg (stepAttest P display h cfg w (.attest replies)) ↔ LeavesNoneBehind P display h cfg w (.attest replies)) ∧
    (LeavesNoneBehind P display h cfg w (.attest replies) →
      AttestSound cfg (stepAttest P display h cfg w (.attest replies))) := by
  cases hloop : w.loop with
  | sleeping =>
    have hsame : stepAttest P display h cfg w (.attest replies) = w := by simp only [stepAttest, hloop]
    have hvac : LeavesNoneBehind P display h cfg w (.attest replies) := fun seq current _ heq => by
      rw [hloop] at heq
      cases heq
    rw [hsame]
    exact ⟨iff_of_true hw.escapes hvac, fun _ => hw⟩
  | scanning seq currentSeq =>
    obtain ⟨hlast, hle⟩ := hw.ahead seq currentSeq hloop
    have hseen : w.seen = currentSeq := by simp only [AttestWorld.seen, hloop]
    have hfront := hw.frontier
    rw [hseen] at hfront
    cases hc : compareEpoch P display cfg replies seq with
    | error e =>
      have hstep : stepAttest P display h cfg w (.attest replies) = w.advance seq currentSeq (.error e) := by
        simp only [stepAttest, hloop, attestEpochInternal, hc]
      have hvac : LeavesNoneBehind P display h cfg w (.attest replies) := by
        intro seq' current' compared heq hc'
        obtain ⟨rfl, rfl⟩ := AttestLoop.scanning.inj (hloop.symm.trans heq)
        rw [hc] at hc'
        cases hc'
      rw [hstep]
      exact ⟨iff_of_true hw.escapes hvac, fun _ => attestSound_advance hw.escapes hle (Nat.le_of_lt hlast) hw.alerted hfront⟩
    | ok compared =>
      obtain ⟨b, w', hround, hr⟩ := attestEpochInternal_ok (h := h) (w := w) hc
      have hstep : stepAttest P display h cfg w (.attest replies) = w'.advance seq currentSeq (.ok b) := by
        simp only [stepAttest, hloop, hround]
      have hcur : (w'.advance seq currentSeq (.ok b)).lastAttestedSeq = seq := by cases b <;> rfl
      have hiff := noneEscapes_advance_iff b hr hw hloop hc htrue
      rw [hstep]
      refine ⟨hiff, fun hl => attestSound_advance (hiff.2 hl) hle hcur.le (fun q hq => ?_) (hr.frontier _ hfront)⟩
      rw [hcur]
      rcases (hr.alerts q).1 hq with hq | ⟨rfl, _⟩
      · exact Nat.le_trans (hw.alerted q hq) (Nat.le_of_lt hlast)
      · exact Nat.le_refl _

/-- **No committed epoch escapes attestation**, in every state of every run of the loop beside a contract
in use, exactly when every round that does not end with an error leaves no open sequence behind and
its own attestation lands. -/
theorem none_escapes_iff (P : Prims) (display : Oplog.Bson → String) (h : Contract.Host) (cfg : AttesterConfig)
    (invs : List Contract.Invocation) (steps : List AttestStep)
    (htrue : Runs.Guarded (stepAttest P display h cfg) Truthful (.start (Contract.after h invs)) steps) :
    (∀ pre, pre <+: steps → NoneEscapes cfg (Runs.run (stepAttest P display h cfg) (.start (Contract.after h invs)) pre)) ↔
      Runs.Guarded (stepAttest P display h cfg) (LeavesNoneBehind P display h cfg) (.start (Contract.after h invs)) steps := by
  have hstep : ∀ w a, Truthful w a → AttestSound cfg w →
      (NoneEscapes cfg (stepAttest P display h cfg w a) ↔ LeavesNoneBehind P display h cfg w a) ∧
      (LeavesNoneBehind P display h cfg w a → AttestSound cfg (stepAttest P display h cfg w a)) := by
    intro w a ht hw
    cases a with
    | transaction inv =>
      have hs := @attestSound_transaction P display h cfg w hw inv
      exact ⟨iff_of_true hs.escapes trivial, fun _ => hs⟩
    | poll currentRoot =>
      have hs := @attestSound_poll P display h cfg w hw currentRoot ht
      exact ⟨iff_of_true hs.escapes trivial, fun _ => hs⟩
    | attest replies => exact attestSound_attest hw ht
  exact (Runs.guarded_iff_good_under (fun _ hw => hw.escapes) (fun w a ht hw => (hstep w a ht hw).2)
    (fun w a ht hw => (hstep w a ht hw).1) htrue (attestSound_start h invs)).symm

end

/-! ### A submission that fails -/

/-- The hash functions of the demo host. -/
def hostPrims : Prims := { demoPrims with sha256 := Contract.demoHost.sha256 }

/-- A commitment to an empty range of the oplog. -/
def emptyOplog : Contract.OplogCommitment := ⟨(hostPrims.sha256 (strBytes "empty_oplog_tree")).val, 0, 1000, 0⟩

/-- Attester 2 is registered, and the range is committed under sequence 1. -/
def committedOnce : List Contract.Invocation :=
  [Contract.demoInit, ⟨⟨[Contract.demoAdmin], 110⟩, .authorizeAttester ⟨2⟩ Contract.demoKey⟩,
    ⟨⟨[Contract.demoAdmin], 200⟩, .commitRootWithOplog (List.replicate 32 0xaa) emptyOplog "epoch=0 oplog=true"⟩]

def attesterTwo : AttesterConfig := ⟨some ⟨2⟩, some fun message => Contract.demoKey.1 ++ message, true⟩

/-- The node and the replica answer, and the submission ends so. -/
def emptyReplies (submission : Submission) : AttestReplies := ⟨.ok (some emptyOplog), .ok ⟨10, 0⟩, .ok [], submission⟩

def emptySignature : List UInt8 :=
  Contract.demoKey.1 ++ (hostPrims.sha256 (emptyOplog.oplogRoot ++ Contract.toBeBytes emptyOplog.oplogEndTs)).val

theorem compareEpoch_empty (submission : Submission) : compareEpoch hostPrims (fun _ => "") attesterTwo (emptyReplies submission) 1 =
    .ok (.matched ⟨2⟩ (String.ofList (Bytes.hexEncode emptySignature))) := by
  have hroot : merkleRoot hostPrims ([].map (hashOplogEntry hostPrims fun _ => "")) = hostPrims.sha256 (strBytes "empty_oplog_tree") := by
    rw [List.map_nil, merkleRoot]
  obtain ⟨range, hhash, hrange⟩ : ∃ range, computeOplogRangeHash hostPrims (fun _ => "") ⟨.ok ⟨10, 0⟩, .ok ⟨10, 0⟩, .ok []⟩ 1
      (.unpackU64 emptyOplog.oplogStartTs) (.unpackU64 emptyOplog.oplogEndTs) = .ok range ∧
      range.merkleRootHex = String.ofList (Bytes.hexEncode emptyOplog.oplogRoot) := by
    refine ⟨_, rfl, ?_⟩
    simp only [hroot]
    rfl
  have hsign : signOplogAttestation hostPrims (fun message => Contract.demoKey.1 ++ message)
      (String.ofList (Bytes.hexEncode emptyOplog.oplogRoot)) emptyOplog.oplogEndTs =
      .ok (String.ofList (Bytes.hexEncode emptySignature)) := by
    have hlen : emptyOplog.oplogRoot.length = 32 := (hostPrims.sha256 (strBytes "empty_oplog_tree")).2
    simp [signOplogAttestation, Bytes.hexDecode_hexEncode, hlen, emptySignature]
  unfold compareEpoch
  simp only [attesterTwo, emptyReplies, required, labelled, hhash, hsign, hrange, bind, Except.bind, if_true]
  rfl

/-- The daemon of attester 2 beside that contract. -/
abbrev stepTwo : AttestWorld → AttestStep → AttestWorld := stepAttest hostPrims (fun _ => "") Contract.demoHost attesterTwo

abbrev startTwo : AttestWorld := .start (Contract.after Contract.demoHost committedOnce)

/-- The loop finds sequence 1 and processes it. -/
def attestOnce (submission : Submission) : List AttestStep := [.poll (.ok (some 1)), .attest (emptyReplies submission)]

theorem attestOnce_truthful (submission : Submission) : Runs.Guarded stepTwo Truthful startTwo (attestOnce submission) := by
  refine ⟨?_, fun seq currentSeq onChain heq hc => ?_, trivial⟩
  · show 1 ≤ (Contract.after Contract.demoHost committedOnce).seqOr0
    decide
  · obtain ⟨rfl, rfl⟩ := AttestLoop.scanning.inj heq
    obtain rfl := Except.ok.inj hc
    rfl

theorem attestOnce_answered : Runs.Guarded stepTwo (LeavesNoneBehind hostPrims (fun _ => "") Contract.demoHost attesterTwo) startTwo
    (attestOnce (.answered 300 (.validation "refused"))) := by
  refine ⟨trivial, fun seq currentSeq compared heq hc => ?_, trivial⟩
  obtain ⟨rfl, rfl⟩ := AttestLoop.scanning.inj heq
  refine ⟨fun q h1 h2 => absurd h2 (Nat.not_lt.2 h1), fun attester signatureHex hm => ?_⟩
  obtain ⟨rfl, rfl⟩ := Compared.matched.inj (hm.symm.trans (Except.ok.inj (hc.symm.trans (compareEpoch_empty _))))
  have hok : (Contract.invoke Contract.demoHost (attestCall ⟨2⟩ 1 emptySignature 300) startTwo.chain).isOk = true := by decide
  refine .inr ⟨emptySignature, ?_⟩
  show ∃ chain', _ ∧ Contract.invoke Contract.demoHost (attestCall ⟨2⟩ 1 emptySignature 300) startTwo.chain = .ok chain'
  cases hinv : Contract.invoke Contract.demoHost (attestCall ⟨2⟩ 1 emptySignature 300) startTwo.chain with
  | ok chain' => exact ⟨chain', by rw [String.toList_ofList]; exact Bytes.hexDecode_hexEncode _, rfl⟩
  | error f =>
    rw [hinv] at hok
    cases hok

/-- The submission is answered: the attestation is on the ledger. -/
theorem answered_none_escapes :
    Runs.Guarded stepTwo Truthful startTwo (attestOnce (.answered 300 (.validation "refused"))) ∧
    ∀ pre, pre <+: attestOnce (.answered 300 (.validation "refused")) → NoneEscapes attesterTwo (Runs.run stepTwo startTwo pre) :=
  ⟨attestOnce_truthful _, (none_escapes_iff _ _ _ _ _ _ (attestOnce_truthful _)).2 attestOnce_answered⟩

theorem run_failed_submission (hclient : cfg.mongoClient = true)
    (hmatch : compareEpoch P display cfg replies 1 = .ok (.matched attester (String.ofList (Bytes.hexEncode signature))))
    (hfailed : replies.submission = .failed e) (chain : Contract.Storage) :
    Runs.run (stepAttest P display h cfg) (.start chain) [.poll (.ok (some 1)), .attest replies] =
      { AttestWorld.start chain with lastAttestedSeq := 1 } := by
  have hround : ∀ w : AttestWorld, attestEpochInternal P display h cfg replies 1 w = (.ok false, w) := by
    intro w
    unfold attestEpochInternal
    rw [hmatch]
    simp only [attestOplogNative, String.toList_ofList, Bytes.hexDecode_hexEncode, hfailed]
  have hpoll : stepAttest P display h cfg (.start chain) (.poll (.ok (some 1))) =
      { AttestWorld.start chain with loop := .scanning 1 1 } := by
    simp [stepAttest, AttestWorld.start, hclient]
  rw [Runs.run_cons, hpoll, Runs.run_cons, Runs.run_nil]
  simp only [stepAttest, hround]
  rfl

/-- The submission times out: the cursor moves past sequence 1, which is committed and not attested. -/
theorem timed_out_escapes : Runs.Guarded stepTwo Truthful startTwo (attestOnce (.failed (.timeout "sendTransaction"))) ∧
    (Runs.run stepTwo startTwo (attestOnce (.failed (.timeout "sendTransaction")))).lastAttestedSeq = 1 ∧
    ¬ NoneEscapes attesterTwo (Runs.run stepTwo startTwo (attestOnce (.failed (.timeout "sendTransaction")))) := by
  have hrun : Runs.run stepTwo startTwo (attestOnce (.failed (.timeout "sendTransaction"))) =
      { startTwo with lastAttestedSeq := 1 } :=
    run_failed_submission rfl (compareEpoch_empty _) rfl _
  rw [hrun]
  refine ⟨attestOnce_truthful _, rfl, fun h => ?_⟩
  rcases h 1 (Nat.le_refl 1) (Nat.le_refl 1) with ⟨attester, _, a, ha, _⟩ | hnone | halert
  · have hempty : startTwo.chain.attestations 1 = [] := rfl
    rw [hempty] at ha
    cases ha
  · have hsome : startTwo.chain.oplogCommitment 1 = some emptyOplog := rfl
    rw [hsome] at hnone
    cases hnone
  · cases halert

end Audit
