import NosqlBuddy.Contract.RootLog

/-!
# K-of-N oplog attestation

`attest_oplog` (lib.rs:555) appends to the list of a sequence number after checking, in this order,
the attester's signature on the transaction, the commitment, the registered key, the signature's
length, that the attester is not in the list yet, and the ed25519 signature over
`sha256(oplog_root || oplog_end_ts)`. `verify_attestation` (lib.rs:654) judges the list against the
attesters registered *now*.

The history of a list is its own evidence: `attestation_provenance` finds, for every element, the
call that appended it, in every run of an initialized contract whatever is called in between.
-/

namespace Contract
open Runs

/-! ## One transaction -/

/-- The attester lists are extended, never rewritten. -/
def Grows (s s' : Storage) : Prop := ∀ q, s.attestations q <+: s'.attestations q

theorem Grows.refl (s : Storage) : Grows s s := fun _ => List.prefix_rfl

theorem Grows.trans (h : Grows a b) (h' : Grows b c) : Grows a c :=
  fun q => (h q).trans (h' q)

theorem attestations_set (s : Storage) (q n : Nat) (as : List OplogAttestation) (ev : Event) :
    ((s.setAttestations n as).publish ev).attestations q = if q = n then as else s.attestations q := by
  simp only [Storage.publish, Storage.setAttestations, Storage.attestations, Function.update_apply]
  split <;> rfl

variable {h : Host} {inv : Invocation} {s s' : Storage}

theorem write_grows (hw : Write h inv s s') : Grows s s' := by
  cases hw with
  | attest =>
    intro q
    rw [attestations_set]
    split
    · next hq => subst hq; exact List.prefix_append _ _
    · exact List.prefix_rfl
  | init | setAdmin | setThreshold | commitRoot | commitOplog | authorize | revoke | registerVk
  | disclose => exact Grows.refl s

structure AttestInv (s : Storage) : Prop where
  distinct : ∀ q, ((s.attestations q).map (·.attester)).Nodup
  committed : ∀ q, s.attestations q ≠ [] → (s.oplogCommitment q).isSome
  threshold : 1 ≤ getThreshold s

theorem attestInv_empty : AttestInv Storage.empty :=
  ⟨fun _ => by simp [Storage.empty, Storage.attestations], fun _ h => absurd rfl h, Nat.le_refl 1⟩

theorem write_attestInv (hw : Write h inv s s')
    (hi : AttestInv s) : AttestInv s' := by
  cases hw with
  | setThreshold _ ht => exact ⟨hi.distinct, hi.committed, ht⟩
  | init => exact ⟨hi.distinct, hi.committed, Nat.le_refl 1⟩
  | commitOplog _ _ _ hn =>
    refine ⟨hi.distinct, fun q hq => ?_, hi.threshold⟩
    simp only [Storage.publish, Storage.setOplog, Storage.pushRoot, Function.update_apply]
    split
    · rfl
    · exact hi.committed q hq
  | @attest attester n signature c pk att ev hc ha hcm hpk hl hfresh hv hatt =>
    refine ⟨fun q => ?_, fun q hq => ?_, hi.threshold⟩
    · rw [attestations_set]
      split
      · next hq =>
        subst hq hatt
        rw [List.map_append, List.nodup_append]
        refine ⟨hi.distinct q, by simp, ?_⟩
        simp only [List.mem_map, List.map_cons, List.map_nil, List.mem_singleton]
        rintro _ ⟨a, hm, rfl⟩ _ rfl
        exact hfresh a hm
      · exact hi.distinct q
    · rw [attestations_set] at hq
      show (s.oplogCommitment q).isSome
      split at hq
      · next hqn => subst hqn; simp [hcm]
      · exact hi.committed q hq
  | setAdmin | commitRoot | authorize | revoke | registerVk | disclose =>
    exact ⟨hi.distinct, hi.committed, hi.threshold⟩

theorem write_attests (hw : Write h inv s s') (hn : ¬ i < (s.attestations q).length) (hs : i < (s'.attestations q).length) :
    ∃ att c pk, inv.call = .attestOplog att.attester q att.signature ∧ att.attester ∈ inv.ctx.auths ∧
      s.attesters.lookup att.attester = some pk ∧ att.signature.length = 64 ∧ s.oplogCommitment q = some c ∧
      h.ed25519Verify pk (h.sha256 (attestationMessage c)).1 att.signature = true ∧
      (s.attestations q).length = i ∧ s'.attestations q = s.attestations q ++ [att] := by
  cases hw with
  | @attest attester n signature c pk att ev hc ha hcm hpk hl hfresh hv hatt =>
    rw [attestations_set] at hs ⊢
    split at hs
    · next hq =>
      subst hq hatt
      simp only [List.length_append, List.length_cons, List.length_nil] at hs
      exact ⟨⟨attester, signature, inv.ctx.timestamp⟩, c, pk, hc, ha, hpk, hl, hcm, hv, by omega, by simp⟩
    · exact absurd hs hn
  | init | setAdmin | setThreshold | commitRoot | commitOplog | authorize | revoke | registerVk
  | disclose => exact absurd hs hn

/-! ## Runs of an initialized contract -/

theorem after_attestInv (h : Host) (invs : List Invocation) : AttestInv (after h invs) :=
  run_inv (fun _ _ _ hi => step_lift hi fun _ hw => write_attestInv hw hi) (guarded_true _ _) attestInv_empty

theorem after_grows (h : Host) (pre post : List Invocation) : Grows (after h pre) (after h (pre ++ post)) := by
  rw [after_append]
  exact run_rel Grows.refl Grows.trans (fun _ _ _ (hi : True) => hi)
    (fun s _ _ _ => step_lift (Grows.refl s) fun _ hw => write_grows hw) (guarded_true _ _) trivial

theorem write_admin (hw : Write h inv s s')
    (hs : s.admin.isSome) : s'.admin.isSome := by
  cases hw with
  | init | setAdmin => rfl
  | setThreshold | commitRoot | commitOplog | authorize | revoke | attest | registerVk | disclose => exact hs

theorem guarded_initialized (h : Host) (hc : init.call = .initializeContract admin vk) (ha : admin ∈ init.ctx.auths) (invs : List Invocation) :
    Guarded (step h) InitFirst Storage.empty (init :: invs) := by
  have hadm : (step h Storage.empty init).admin.isSome := by
    simp [step, invoke, hc, initializeContract, requireAuth, ha, Storage.empty, bind, Except.bind, pure, Except.pure]
  refine ⟨fun _ _ _ _ _ => rfl, ?_⟩
  generalize step h Storage.empty init = s at hadm
  induction invs generalizing s with
  | nil => trivial
  | cons inv invs ih =>
    refine ⟨fun _ _ _ hn _ => ?_, ih _ (step_lift hadm fun _ hw => write_admin hw hadm)⟩
    rw [hn] at hadm
    cases hadm

/-! ## The verdict -/

theorem verdict_verified (q : Nat) (s : Storage) (hs : s = after h invs) :
    (∃ v, verifyAttestation q s = .ok v ∧ v.verdict = "verified") ↔
      s.attestations q ≠ [] ∧ (∀ a ∈ s.attestations q, a.attester ∈ s.attesters) ∧
        getThreshold s ≤ (s.attestations q).length := by
  have hi : AttestInv s := hs ▸ after_attestInv h invs
  cases hcm : s.oplogCommitment q with
  | none =>
    have hnil : s.attestations q = [] := by
      by_contra hne
      have := hi.committed q hne
      rw [hcm] at this
      cases this
    simp [verifyAttestation, hcm, okOr, bind, Except.bind, hnil]
  | some c =>
    have hall := List.countP_eq_length (p := fun a : OplogAttestation => decide (a.attester ∈ s.attesters))
      (l := s.attestations q)
    have hle := List.countP_le_length (p := fun a : OplogAttestation => decide (a.attester ∈ s.attesters))
      (l := s.attestations q)
    simp only [verifyAttestation, hcm, okOr, bind, Except.bind, pure, Except.pure, Except.ok.injEq,
      exists_eq_left']
    split
    · next h0 =>
      have hnil : s.attestations q = [] := List.eq_nil_of_length_eq_zero h0
      simp [hnil]
    · next h0 =>
      have hne : s.attestations q ≠ [] := fun hnil => h0 (by simp [hnil])
      split
      · next hlt =>
        have : ¬ ∀ a ∈ s.attestations q, decide (a.attester ∈ s.attesters) = true := fun hx => by
          have := hall.2 hx; omega
        simp only [decide_eq_true_eq] at this
        simp [this]
      · next hlt =>
        have heq := Nat.le_antisymm hle (Nat.le_of_not_lt hlt)
        have hmem := hall.1 heq
        simp only [decide_eq_true_eq] at hmem
        split
        · next hge => exact ⟨fun _ => ⟨hne, hmem, by omega⟩, fun _ => rfl⟩
        · next hge =>
          refine ⟨fun hv => absurd hv (by decide), fun hr => ?_⟩
          omega

/-! ## The protocol -/

/-- Element `i` of the list of `q` was appended by the attester's own call, made while it was
registered, with a signature that verified under the key registered then over the commitment of `q`
(which is the commitment of `q` at the end of the run). -/
def AppendedByAttester (h : Host) (invs : List Invocation) (q i : Nat) (att : OplogAttestation) : Prop :=
  ∃ pre inv post c pk, invs = pre ++ inv :: post ∧
    inv.call = .attestOplog att.attester q att.signature ∧ att.attester ∈ inv.ctx.auths ∧
    (after h pre).attesters.lookup att.attester = some pk ∧ att.signature.length = 64 ∧
    (after h pre).oplogCommitment q = some c ∧ (after h invs).oplogCommitment q = some c ∧
    h.ed25519Verify pk (h.sha256 (c.oplogRoot ++ toBeBytes c.oplogEndTs)).1 att.signature = true ∧
    (after h pre).attestations q = ((after h invs).attestations q).take i ∧
    (after h (pre ++ [inv])).attestations q = (after h pre).attestations q ++ [att]

theorem attestation_provenance (hg : Guarded (step h) InitFirst Storage.empty invs) (hi : ((after h invs).attestations q)[i]? = some att) : AppendedByAttester h invs q i att := by
  obtain ⟨hlt, hget⟩ := List.getElem?_eq_some_iff.1 hi
  -- the step at which the list got its element `i`
  obtain ⟨pre, inv, post, rfl, hn, hs⟩ := exists_step_of_change (s := Storage.empty)
    (P := fun s => i < (s.attestations q).length) (by simp [Storage.empty, Storage.attestations]) hlt
  have hw := step_lift (s := after h pre) (P := fun s' => i < (s'.attestations q).length → _)
    (fun hc => absurd hc hn) (fun _ hw hs => write_attests hw hn hs) hs
  obtain ⟨att', c, pk, hc, ha, hpk, hl, hcm, hv, hlen, happ⟩ := hw
  have hkept := (guarded_run_kept hg).2
  -- the list after that step is a prefix of the list at the end
  have hpre : (after h pre).attestations q ++ [att'] <+: (after h (pre ++ inv :: post)).attestations q := by
    rw [← happ, ← after_snoc]
    simpa using after_grows h (pre ++ [inv]) post q
  obtain ⟨rest, hrest⟩ := hpre
  have hatt : att' = att := by
    rw [← hrest, List.append_assoc, List.getElem?_append_right (by omega), hlen] at hi
    simpa using hi
  subst hatt
  refine ⟨pre, inv, post, c, pk, rfl, hc, ha, hpk, hl, hcm, hkept.oplogCommitment q c hcm, hv, ?_, ?_⟩
  · rw [← hrest, List.append_assoc, List.take_left' hlen]
  · rw [after_snoc]; exact happ

/-- **Attestation protocol.** In every run of an initialized contract each attester list has distinct
attesters, only grows, and consists of checked attestations; the verdict is "verified" exactly for a
non-empty list of currently authorized attesters that meets the threshold, which is at least 1. -/
theorem oplog_attestation_protocol (h : Host) (init : Invocation) (admin : Address) (vk : VerifyingKey)
    (hc : init.call = .initializeContract admin vk) (ha : admin ∈ init.ctx.auths) (invs : List Invocation)
    (s : Storage) (hs : s = after h (init :: invs)) :
    (∀ q, ((s.attestations q).map (·.attester)).Nodup) ∧
    (∀ pre post, init :: invs = pre ++ post → ∀ q, (after h pre).attestations q <+: s.attestations q) ∧
    (∀ q i att, (s.attestations q)[i]? = some att → AppendedByAttester h (init :: invs) q i att) ∧
    (∀ q, (∃ v, verifyAttestation q s = .ok v ∧ v.verdict = "verified") ↔
      s.attestations q ≠ [] ∧ (∀ a ∈ s.attestations q, a.attester ∈ s.attesters) ∧
        getThreshold s ≤ (s.attestations q).length) ∧
    1 ≤ getThreshold s := by
  have hi := after_attestInv h (init :: invs)
  have hg := guarded_initialized h hc ha invs
  refine ⟨hs ▸ hi.distinct, fun pre post hp q => ?_, fun q i att hq => ?_, fun q => verdict_verified q s hs,
    hs ▸ hi.threshold⟩
  · rw [hs, hp]
    exact after_grows h pre post q
  · exact attestation_provenance hg (hs ▸ hq)

/-- The 64-byte signature `demoHost` accepts under `key` for the commitment `demoOplog`. -/
def demoSignature (key : BytesN 32) : Bytes := key.1 ++ (demoHost.sha256 (attestationMessage demoOplog)).1

def demoKey : BytesN 32 := ⟨List.replicate 32 7, by simp⟩

/-- Register attester 2, commit an oplog root, attest it. -/
def demoAttest : List Invocation :=
  [⟨⟨[demoAdmin], 110⟩, .authorizeAttester ⟨2⟩ demoKey⟩, demoOplogCommit [demoAdmin],
   ⟨⟨[⟨2⟩], 210⟩, .attestOplog ⟨2⟩ 1 (demoSignature demoKey)⟩]

theorem oplog_attestation_protocol_demo :
    (∃ v, verifyAttestation 1 (after demoHost (demoInit :: demoAttest)) = .ok v ∧ v.verdict = "verified") ∧
      AppendedByAttester demoHost (demoInit :: demoAttest) 1 0 ⟨⟨2⟩, demoSignature demoKey, 210⟩ := by
  have hp := oplog_attestation_protocol demoHost demoInit demoAdmin demoVk rfl (by decide) demoAttest _ rfl
  refine ⟨(hp.2.2.2.1 1).2 ⟨by decide, by decide, by decide⟩, hp.2.2.1 1 0 _ (by decide)⟩

/-- `oplog_end_ts.to_be_bytes()` puts the most significant byte first. -/
example : toBeBytes 0x0102030405060708 = [1, 2, 3, 4, 5, 6, 7, 8] := by decide

end Contract
