import NosqlBuddy.Lib.Fallible
import NosqlBuddy.Lib.Runs
import NosqlBuddy.Contract.Entrypoints

/-!
# Sequences of contract calls

`Call` has one constructor per public entrypoint. `step` is one transaction: the entrypoint runs on
the stored state and its writes are kept exactly when it returns `Ok`. `Write` lists what a
transaction can change and under which checks; `step_cases` says that a transaction changes nothing
or makes one such write, so every invariant of the contract is a case analysis on `Write`.
-/

namespace Contract
open Fallible

inductive Call where
  | initializeContract (admin : Address) (vk : VerifyingKey)
  | getVerifyingKey
  | setAdmin (newAdmin : Address)
  | getAdmin
  | setThreshold (threshold : Nat)
  | getThreshold
  | commitRoot (root : Bytes) (metadata : String)
  | commitRootWithOplog (root : Bytes) (oplog : OplogCommitment) (metadata : String)
  | getOplogCommitment (sequence : Nat)
  | authorizeAttester (attester : Address) (publicKey : BytesN 32)
  | revokeAttester (attester : Address)
  | attestOplog (attester : Address) (sequence : Nat) (signature : Bytes)
  | getOplogAttestations (sequence : Nat)
  | verifyAttestation (sequence : Nat)
  | verifyInclusion (root leaf : Bytes) (proof : Proof)
  | registerDisclosureVk (vk : VerifyingKey)
  | getDisclosureVk
  | verifyDisclosure (claim : Claim) (proof : Proof)
  | verifyAndRecordDisclosure (verifier : Address) (claim : Claim) (proof : Proof)
  | getDisclosureRecords (limit : Nat)
  | getCurrentRoot
  | getRootHistory (limit : Nat)

/-- One transaction: the call and what the host knows about it. -/
structure Invocation where
  ctx : Ctx
  call : Call

/-- The storage an entrypoint leaves; the reads leave what they found. -/
def invoke (h : Host) (inv : Invocation) (s : Storage) : Except Failure Storage :=
  match inv.call with
  | .initializeContract admin vk => initializeContract inv.ctx admin vk s
  | .setAdmin newAdmin => setAdmin inv.ctx newAdmin s
  | .setThreshold threshold => setThreshold inv.ctx threshold s
  | .commitRoot root metadata => Prod.fst <$> commitRoot inv.ctx root metadata s
  | .commitRootWithOplog root oplog metadata => Prod.fst <$> commitRootWithOplog inv.ctx root oplog metadata s
  | .authorizeAttester attester publicKey => authorizeAttester inv.ctx attester publicKey s
  | .revokeAttester attester => revokeAttester inv.ctx attester s
  | .attestOplog attester sequence signature => attestOplog h inv.ctx attester sequence signature s
  | .registerDisclosureVk vk => registerDisclosureVk inv.ctx vk s
  | .verifyAndRecordDisclosure verifier claim proof =>
    Prod.fst <$> verifyAndRecordDisclosure h inv.ctx verifier claim proof s
  | .getVerifyingKey => (fun _ => s) <$> getVerifyingKey s
  | .getAdmin => (fun _ => s) <$> getAdmin s
  | .getOplogCommitment sequence => (fun _ => s) <$> getOplogCommitment sequence s
  | .verifyAttestation sequence => (fun _ => s) <$> verifyAttestation sequence s
  | .verifyInclusion root leaf proof => (fun _ => s) <$> verifyInclusion h root leaf proof s
  | .getDisclosureVk => (fun _ => s) <$> getDisclosureVk s
  | .verifyDisclosure claim proof => (fun _ => s) <$> verifyDisclosure h claim proof s
  | .getDisclosureRecords limit => (fun _ => s) <$> getDisclosureRecords limit s
  | .getRootHistory limit => (fun _ => s) <$> getRootHistory limit s
  | .getThreshold | .getOplogAttestations _ | .getCurrentRoot => .ok s

/-- A transaction: an invocation that fails leaves the storage as it was. -/
def step (h : Host) (s : Storage) (inv : Invocation) : Storage :=
  match invoke h inv s with
  | .ok s' => s'
  | .error _ => s

/-- The storage after a sequence of transactions on a fresh contract. -/
abbrev after (h : Host) (invs : List Invocation) : Storage := Runs.run (step h) Storage.empty invs

theorem after_snoc (h : Host) (invs : List Invocation) (inv : Invocation) :
    after h (invs ++ [inv]) = step h (after h invs) inv :=
  Runs.run_snoc _ _ _

theorem after_append (h : Host) (pre post : List Invocation) :
    after h (pre ++ post) = Runs.run (step h) (after h pre) post :=
  Runs.run_append _ _ _

/-! ## Specifications of the checks -/

theorem requireAuth_ok {ctx : Ctx} {a : Address} {u : Unit} : requireAuth ctx a = .ok u ↔ a ∈ ctx.auths := by
  unfold requireAuth; split <;> simp_all

theorem okOr_ok {α : Type} {o : Option α} {e : CommitmentError} {a : α} : okOr o e = .ok a ↔ o = some a := by
  cases o <;> simp [okOr]

theorem orTrap_ok {α : Type} {o : Option α} {a : α} : orTrap o = .ok a ↔ o = some a := by
  cases o <;> simp [orTrap]

theorem checkedSucc_ok {n m : Nat} : checkedSucc n = .ok m ↔ n + 1 < 2 ^ 64 ∧ m = n + 1 := by
  unfold checkedSucc; split <;> simp_all [eq_comm]

/-- The stored admin signed the invocation: its `require_auth` succeeds. -/
def AdminSigned (s : Storage) (inv : Invocation) : Prop := ∃ a, s.admin = some a ∧ a ∈ inv.ctx.auths

/-- `entry` is the entry a commit of a new root appends in storage `s`. -/
structure NextEntry (s : Storage) (inv : Invocation) (entry : RootEntry) : Prop where
  fresh : entry.root ∉ s.index
  seq : entry.sequence = s.seqOr0 + 1
  bound : s.seqOr0 + 1 < 2 ^ 64
  time : entry.timestamp = inv.ctx.timestamp

theorem appendRoot_ok {inv : Invocation} {root : Bytes} {metadata : String} {s s' : Storage} {entry : RootEntry} :
    appendRoot inv.ctx root metadata s = .ok (s', entry) ↔
      NextEntry s inv entry ∧ entry.root = root ∧ entry.metadata = metadata ∧ s' = s.pushRoot entry := by
  obtain ⟨q, r, t, m⟩ := entry
  simp only [appendRoot, guard_ok, bind_ok, checkedSucc_ok, pure_ok, Prod.mk.injEq, RootEntry.mk.injEq]
  constructor
  · rintro ⟨hf, n, ⟨hb, rfl⟩, rfl, rfl, rfl, rfl, rfl⟩
    exact ⟨⟨hf, rfl, hb, rfl⟩, rfl, rfl, rfl⟩
  · rintro ⟨⟨hf, hq, hb, ht⟩, rfl, rfl, rfl⟩
    exact ⟨hf, _, ⟨hb, rfl⟩, by simp [← hq, ← ht], hq.symm, rfl, ht.symm, rfl⟩

theorem commitRoot_accepted {h : Host} {ctx : Ctx} {admin : Address} {root : Bytes} {s : Storage} (hadmin : s.admin = some admin)
    (hauth : admin ∈ ctx.auths) (hroot : root ∉ s.index) (hbound : s.seqOr0 + 1 < 2 ^ 64) (metadata : String) :
    ∃ s', invoke h ⟨ctx, .commitRoot root metadata⟩ s = .ok s' ∧ s'.seqOr0 = s.seqOr0 + 1 ∧ s'.admin = s.admin := by
  have happend := (@appendRoot_ok ⟨ctx, .commitRoot root metadata⟩ root metadata s _
    ⟨s.seqOr0 + 1, root, ctx.timestamp, metadata⟩).2 ⟨⟨hroot, rfl, hbound, rfl⟩, rfl, rfl, rfl⟩
  have hget : getAdminOrErr s = .ok admin := by simp [getAdminOrErr, okOr, hadmin]
  have hsigned : requireAuth ctx admin = .ok () := by simp [requireAuth, hauth]
  refine ⟨(s.pushRoot ⟨s.seqOr0 + 1, root, ctx.timestamp, metadata⟩).publish
    (.commitRoot (s.seqOr0 + 1) root ctx.timestamp metadata), ?_, rfl, rfl⟩
  simp only [invoke, commitRoot, hget]
  simp only [bind, Except.bind, hsigned, happend]
  rfl

/-! ## What a transaction can write -/

inductive Write (h : Host) (inv : Invocation) (s : Storage) : Storage → Prop
  | init {admin : Address} {vk : VerifyingKey} :
      inv.call = .initializeContract admin vk → s.admin = none → admin ∈ inv.ctx.auths →
      Write h inv s { s with
        admin := some admin, sequence := some 0, threshold := some 1, verifyingKey := some vk }
  | setAdmin {newAdmin : Address} : AdminSigned s inv → Write h inv s { s with admin := some newAdmin }
  | setThreshold {threshold : Nat} : AdminSigned s inv → 1 ≤ threshold →
      Write h inv s { s with threshold := some threshold }
  | commitRoot {entry : RootEntry} {ev : Event} : AdminSigned s inv → NextEntry s inv entry →
      Write h inv s ((s.pushRoot entry).publish ev)
  | commitOplog {entry : RootEntry} {oplog : OplogCommitment} {ev ev' : Event} :
      inv.call = .commitRootWithOplog entry.root oplog entry.metadata → oplog.oplogRoot.length = 32 →
      ¬ oplog.oplogEndTs < oplog.oplogStartTs → NextEntry s inv entry →
      Write h inv s ((((s.pushRoot entry).setOplog entry.sequence oplog).publish ev).publish ev')
  | authorize {attester : Address} {publicKey : BytesN 32} : AdminSigned s inv →
      Write h inv s { s with authorizedAttesters := some (s.attesters.insert attester publicKey) }
  | revoke {attester : Address} : AdminSigned s inv →
      Write h inv s { s with authorizedAttesters := s.authorizedAttesters.map (·.erase attester) }
  | attest {attester : Address} {sequence : Nat} {signature : Bytes} {c : OplogCommitment}
      {publicKey : BytesN 32} {att : OplogAttestation} {ev : Event} :
      inv.call = .attestOplog attester sequence signature → attester ∈ inv.ctx.auths →
      s.oplogCommitment sequence = some c → s.attesters.lookup attester = some publicKey →
      signature.length = 64 → (∀ a ∈ s.attestations sequence, a.attester ≠ attester) →
      h.ed25519Verify publicKey (h.sha256 (attestationMessage c)).1 signature = true →
      att = ⟨attester, signature, inv.ctx.timestamp⟩ →
      Write h inv s ((s.setAttestations sequence (s.attestations sequence ++ [att])).publish ev)
  | registerVk {vk : VerifyingKey} : AdminSigned s inv → s.disclosureVk = none →
      Write h inv s { s with disclosureVk := some vk }
  | disclose {record : DisclosureRecord} {proof : Proof} {ev : Event} :
      record.verifier ∈ inv.ctx.auths → checkDisclosure h record.claim proof s = .ok () →
      s.recordCount + 1 < 2 ^ 64 → record.recordId = s.recordCount + 1 →
      Write h inv s ((s.pushRecord record).publish ev)

theorem read_ok {α : Type} {x : Except Failure α} {s s' : Storage} (hx : (fun _ => s) <$> x = .ok s') : s' = s := by
  obtain ⟨_, _, rfl⟩ := map_ok.1 hx
  rfl

theorem invoke_cases {h : Host} {inv : Invocation} {s s' : Storage} (hok : invoke h inv s = .ok s') :
    s' = s ∨ Write h inv s s' := by
  unfold invoke at hok
  split at hok
  case h_1 admin vk hc =>
    simp only [initializeContract, guard_ok, bind_ok, requireAuth_ok, pure_ok] at hok
    obtain ⟨hn, _, ha, rfl⟩ := hok
    exact .inr (.init hc (by simpa using hn) ha)
  case h_2 newAdmin hc =>
    simp only [setAdmin, getAdminOrPanic, bind_ok, orTrap_ok, requireAuth_ok, pure_ok] at hok
    obtain ⟨a, ha, _, hs, rfl⟩ := hok
    exact .inr (.setAdmin ⟨a, ha, hs⟩)
  case h_3 threshold hc =>
    simp only [setThreshold, getAdminOrErr, bind_ok, okOr_ok, requireAuth_ok, guard_ok, pure_ok] at hok
    obtain ⟨a, ha, _, hs, ht, rfl⟩ := hok
    exact .inr (.setThreshold ⟨a, ha, hs⟩ (by omega))
  case h_4 root metadata hc =>
    obtain ⟨⟨s1, n⟩, hr, rfl⟩ := map_ok.1 hok
    simp only [commitRoot, getAdminOrErr, bind_ok, okOr_ok, requireAuth_ok, pure_ok, Prod.exists,
      appendRoot_ok, Prod.mk.injEq] at hr
    obtain ⟨a, ha, _, hs, s2, entry, ⟨hn, rfl, rfl, rfl⟩, rfl, rfl⟩ := hr
    exact .inr (.commitRoot ⟨a, ha, hs⟩ hn)
  case h_5 root oplog metadata hc =>
    obtain ⟨⟨s1, n⟩, hr, rfl⟩ := map_ok.1 hok
    simp only [commitRootWithOplog, guard_ok, bind_ok, pure_ok, Prod.exists, appendRoot_ok,
      Prod.mk.injEq] at hr
    obtain ⟨hl, ht, s2, entry, ⟨hn, rfl, rfl, rfl⟩, rfl, rfl⟩ := hr
    exact .inr (.commitOplog hc (by simpa using hl) ht hn)
  case h_6 attester publicKey hc =>
    simp only [authorizeAttester, getAdminOrPanic, bind_ok, orTrap_ok, requireAuth_ok, pure_ok] at hok
    obtain ⟨a, ha, _, hs, rfl⟩ := hok
    exact .inr (.authorize ⟨a, ha, hs⟩)
  case h_7 attester hc =>
    simp only [revokeAttester, getAdminOrPanic, bind_ok, orTrap_ok, requireAuth_ok, pure_ok] at hok
    obtain ⟨a, ha, _, hs, rfl⟩ := hok
    exact .inr (.revoke ⟨a, ha, hs⟩)
  case h_8 attester sequence signature hc =>
    simp only [attestOplog, bind_ok, okOr_ok, requireAuth_ok, guard_ok, pure_ok] at hok
    obtain ⟨_, ha, c, hcm, pk, hpk, hl, hd, hv, rfl⟩ := hok
    refine .inr (.attest hc ha hcm hpk (by simpa using hl) ?_ (by simpa using hv) rfl)
    intro a hm he
    exact hd ⟨a, hm, he⟩
  case h_9 vk hc =>
    simp only [registerDisclosureVk, getAdminOrErr, bind_ok, okOr_ok, requireAuth_ok, guard_ok, pure_ok] at hok
    obtain ⟨a, ha, _, hs, hv, rfl⟩ := hok
    exact .inr (.registerVk ⟨a, ha, hs⟩ (by simpa using hv))
  case h_10 verifier claim proof hc =>
    obtain ⟨⟨s1, n⟩, hr, rfl⟩ := map_ok.1 hok
    simp only [verifyAndRecordDisclosure, bind_ok, requireAuth_ok, checkedSucc_ok, pure_ok, Prod.mk.injEq] at hr
    obtain ⟨_, ha, _, hd, id, ⟨hb, rfl⟩, rfl, rfl⟩ := hr
    exact .inr (.disclose ha hd hb rfl)
  -- the reads
  all_goals first
    | exact .inl (read_ok hok)
    | exact .inl (Except.ok.inj hok).symm

/-- **What one transaction does**: nothing, or one of the writes of `Write` with its checks passed. -/
theorem step_cases (h : Host) (s : Storage) (inv : Invocation) :
    step h s inv = s ∨ Write h inv s (step h s inv) := by
  unfold step
  split
  · next s' hok => exact invoke_cases hok
  · exact .inl rfl

theorem step_lift {h : Host} {s : Storage} {inv : Invocation} {P : Storage → Prop} (hsame : P s)
    (hwrite : ∀ s', Write h inv s s' → P s') : P (step h s inv) := by
  rcases step_cases h s inv with he | hw
  · rw [he]; exact hsame
  · exact hwrite _ hw

/-! ## A concrete host and two transactions -/

/-- A host whose signatures are the key followed by the message; its curve accepts every proof. -/
def demoHost : Host where
  sha256 := fun b => ⟨(b ++ List.replicate 32 0).take 32, by simp⟩
  ed25519Verify := fun key message signature => decide (signature = key.1 ++ message)
  Fr := BytesN 32
  G1 := BytesN 64
  G2 := BytesN 128
  frFromBytes := id
  g1FromBytes := id
  g2FromBytes := id
  g1Neg := id
  g1Mul := fun p _ => some p
  g1Add := fun p _ => some p
  pairingCheck := fun _ _ => some true

def demoAdmin : Address := ⟨1⟩

def demoVk : VerifyingKey where
  alpha := List.replicate 64 0
  beta := List.replicate 128 0
  gamma := List.replicate 128 0
  delta := List.replicate 128 0
  ic := List.replicate 3 (List.replicate 64 0)

/-- The admin's deployment transaction. -/
def demoInit : Invocation := ⟨⟨[demoAdmin], 100⟩, .initializeContract demoAdmin demoVk⟩

def demoOplog : OplogCommitment := ⟨List.replicate 32 0xbb, 0, 1000, 42⟩

/-- An oplog commit signed by the addresses `auths`. -/
def demoOplogCommit (auths : List Address) : Invocation :=
  ⟨⟨auths, 200⟩, .commitRootWithOplog (List.replicate 32 0xaa) demoOplog "epoch=0 oplog=true"⟩

end Contract

/-!
## Who writes the root log

`commit_root` requires the admin's signature; `commit_root_with_oplog` contains the same commit
text without the two lines that load the admin and call `require_auth` (lib.rs:343-344 against
lib.rs:419-427). So anybody can append a root and an oplog commitment
(`anonymous_oplog_commit_accepted`), although the README calls `commit_root*` admin-gated.

Every other transaction that adds a root, an oplog commitment or a sequence number is signed by the
admin stored at that moment: `root_log_admin_signed`, for every run whose oplog commits the admin
signed.
-/

namespace Contract
open Runs

/-- The step from `s` to `s'` added a root entry, an index key or an oplog commitment, or advanced
the sequence counter. -/
def AddsCommitment (s s' : Storage) : Prop :=
  (∃ n e, s'.rootEntry n = some e ∧ s.rootEntry n ≠ some e) ∨ (∃ r, r ∈ s'.index ∧ r ∉ s.index) ∨
  (∃ n c, s'.oplogCommitment n = some c ∧ s.oplogCommitment n ≠ some c) ∨ s.seqOr0 < s'.seqOr0

/-- The fact `P` about the storage was made true by a transaction the then stored admin signed. -/
def WrittenSigned (h : Host) (invs : List Invocation) (P : Storage → Prop) : Prop :=
  ∃ pre inv post, invs = pre ++ inv :: post ∧ ¬ P (after h pre) ∧ P (after h (pre ++ [inv])) ∧
    AdminSigned (after h pre) inv

/-- Every entry of the root log, every key of the index and every oplog commitment was written by an
admin-signed transaction, and no other transaction adds one. -/
def RootLogSigned (h : Host) (invs : List Invocation) : Prop :=
  (∀ n e, (after h invs).rootEntry n = some e → WrittenSigned h invs fun s => s.rootEntry n = some e) ∧
  (∀ r, r ∈ (after h invs).index → WrittenSigned h invs fun s => r ∈ s.index) ∧
  (∀ n c, (after h invs).oplogCommitment n = some c →
    WrittenSigned h invs fun s => s.oplogCommitment n = some c) ∧
  (∀ pre inv post, invs = pre ++ inv :: post → AddsCommitment (after h pre) (after h (pre ++ [inv])) →
    AdminSigned (after h pre) inv)

/-- An oplog commit whose arguments the contract accepts carries the stored admin's signature. -/
def OplogCommitSigned (s : Storage) (inv : Invocation) : Prop :=
  ∀ root oplog metadata, inv.call = .commitRootWithOplog root oplog metadata →
    oplog.oplogRoot.length = 32 → ¬ oplog.oplogEndTs < oplog.oplogStartTs → root ∉ s.index →
    AdminSigned s inv

theorem not_adds (h1 : s'.rootEntry = s.rootEntry) (h2 : s'.rootIndex = s.rootIndex)
    (h3 : s'.oplogCommitment = s.oplogCommitment) (h4 : s'.seqOr0 ≤ s.seqOr0) : ¬ AddsCommitment s s' := by
  rintro (⟨n, e, hn, hs⟩ | ⟨r, hr, hs⟩ | ⟨n, c, hn, hs⟩ | hs)
  · exact hs (h1 ▸ hn)
  · exact hs (by simpa [Storage.index, h2] using hr)
  · exact hs (h3 ▸ hn)
  · omega

theorem write_adds_signed (hw : Write h inv s s')
    (hg : OplogCommitSigned s inv) (ha : AddsCommitment s s') : AdminSigned s inv := by
  cases hw with
  | init _ _ _ => exact absurd ha (not_adds rfl rfl rfl (Nat.zero_le _))
  | setAdmin hs => exact hs
  | setThreshold hs _ => exact hs
  | commitRoot hs _ => exact hs
  | commitOplog hc hl ht hn => exact hg _ _ _ hc hl ht hn.fresh
  | authorize hs => exact hs
  | revoke hs => exact hs
  | attest => exact absurd ha (not_adds rfl rfl rfl (Nat.le_refl _))
  | registerVk hs _ => exact hs
  | disclose => exact absurd ha (not_adds rfl rfl rfl (Nat.le_refl _))

theorem step_adds_signed (hg : OplogCommitSigned s inv)
    (ha : AddsCommitment s (step h s inv)) : AdminSigned s inv :=
  step_lift (P := fun s' => AddsCommitment s s' → AdminSigned s inv)
    (fun ha => absurd ha (not_adds rfl rfl rfl (Nat.le_refl _))) (fun _ hw => write_adds_signed hw hg) ha

/-- What is in the storage after a run and was not in the fresh contract was written by one step, and
that step was signed. -/
theorem written_signed (hg : Guarded (step h) OplogCommitSigned Storage.empty invs) (h0 : ¬ P Storage.empty) (hP : P (after h invs))
    (hadds : ∀ s s', ¬ P s → P s' → AddsCommitment s s') : WrittenSigned h invs P := by
  obtain ⟨pre, inv, post, rfl, hn, hs⟩ := exists_step_of_change h0 hP
  refine ⟨pre, inv, post, rfl, hn, by rwa [after_snoc], ?_⟩
  exact step_adds_signed (guarded_at hg) (hadds _ _ hn hs)

/-- **The root log is admin-signed** in every run whose oplog commits the admin signed. -/
theorem root_log_admin_signed (h : Host) (invs : List Invocation)
    (hg : Guarded (step h) OplogCommitSigned Storage.empty invs) : RootLogSigned h invs := by
  refine ⟨fun n e he => ?_, fun r hr => ?_, fun n c hc => ?_, ?_⟩
  · refine written_signed hg (by simp [Storage.empty]) he fun s s' hn hs => ?_
    exact .inl ⟨n, e, hs, hn⟩
  · refine written_signed hg Finmap.notMem_empty hr fun s s' hn hs => ?_
    exact .inr (.inl ⟨r, hs, hn⟩)
  · refine written_signed hg (by simp [Storage.empty]) hc fun s s' hn hs => ?_
    exact .inr (.inr (.inl ⟨n, c, hs, hn⟩))
  · rintro pre inv post rfl ha
    rw [after_snoc] at ha
    exact step_adds_signed (guarded_at hg) ha

/-- The hypothesis of `root_log_admin_signed` on a run in which the admin signs the oplog commit. -/
theorem root_log_admin_signed_demo :
    Guarded (step demoHost) OplogCommitSigned Storage.empty [demoInit, demoOplogCommit [demoAdmin]] ∧
      RootLogSigned demoHost [demoInit, demoOplogCommit [demoAdmin]] := by
  have hg : Guarded (step demoHost) OplogCommitSigned Storage.empty [demoInit, demoOplogCommit [demoAdmin]] := by
    refine ⟨?_, fun _ _ _ _ _ _ _ => ⟨demoAdmin, rfl, by decide⟩, trivial⟩
    intro _ _ _ hc
    simp [demoInit] at hc
  exact ⟨hg, root_log_admin_signed _ _ hg⟩

/-- Nobody signed the oplog commit, and it is in the root log. -/
theorem anonymous_oplog_commit_accepted : ¬ RootLogSigned demoHost [demoInit, demoOplogCommit []] := by
  intro hr
  have ha : AddsCommitment (after demoHost [demoInit]) (after demoHost ([demoInit] ++ [demoOplogCommit []])) :=
    .inr (.inr (.inr (by decide)))
  obtain ⟨a, _, hs⟩ := hr.2.2.2 [demoInit] (demoOplogCommit []) [] rfl ha
  simp [demoOplogCommit] at hs

end Contract
