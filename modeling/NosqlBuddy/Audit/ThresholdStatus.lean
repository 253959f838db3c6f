import NosqlBuddy.Audit.AttestationManager
import NosqlBuddy.Lib.Runs

/-!
# What "threshold met" counts

`get_status` counts the attestations that are stored for the epoch. It does not look at the root they are for, and
`add_publisher` tells keys apart by their text, so one key in two spellings attests twice; a publisher that is
removed leaves its attestations behind. `threshold_counts_signatures` says when the count is a count of keys:
in runs in which no key attests an epoch under two spellings and no publisher is removed with attestations on
file, exactly the queries for the root of enough attestations. `two_spellings_counted` is one key that makes
two out of two.
-/

namespace Audit
open SortedMap Fallible

/-- Two texts of one key. -/
def SameKey (a b : String) : Prop := Bytes.hexDecode a.toList = Bytes.hexDecode b.toList

instance (a b : String) : Decidable (SameKey a b) := inferInstanceAs (Decidable (_ = _))

def Record.attestationOf (epochNumber : UInt64) : Record → Option Attestation
  | .attestation a => if a.epochNumber = epochNumber then some a else none
  | .publisher _ => none

namespace AttestationManager

def records (m : AttestationManager) : List Record :=
  match m.store with
  | none => []
  | some t => t.entries.map Prod.snd

/-- The key is registered, and its signature over the bytes of the root is stored for the epoch. -/
def SignedBy (C : Crates) (m : AttestationManager) (epochNumber : UInt64) (rootHex : String) (key : List UInt8) : Prop :=
  (∃ p, .publisher p ∈ m.records ∧ Bytes.hexDecode p.publicKey.toList = some key) ∧
  ∃ a root sig, .attestation a ∈ m.records ∧ a.epochNumber = epochNumber ∧
    Bytes.hexDecode a.publisherPublicKey.toList = some key ∧ Bytes.hexDecode a.rootHex.toList = some root ∧
    Bytes.hexDecode rootHex.toList = some root ∧ Bytes.hexDecode a.signature.toList = some sig ∧ key.length = 32 ∧
    C.keyError key = none ∧ C.verifyError key root sig = none

/-- A met threshold is met by as many keys. -/
def CountsSignatures (C : Crates) (m : AttestationManager) (epochNumber : UInt64) (rootHex : String)
    (status : AttestationStatus) : Prop :=
  status.thresholdMet = true → ∃ keys : List (List UInt8), keys.Nodup ∧ m.threshold ≤ keys.length ∧
    ∀ key ∈ keys, m.SignedBy C epochNumber rootHex key

/-- The stored attestations of the epoch. -/
def attestations (m : AttestationManager) (epochNumber : UInt64) : List Attestation :=
  m.records.filterMap (Record.attestationOf epochNumber)

/-- Those for the bytes of the root. -/
def attestationsFor (m : AttestationManager) (epochNumber : UInt64) (rootHex : String) : List Attestation :=
  (m.attestations epochNumber).filter fun a => Bytes.hexDecode a.rootHex.toList = Bytes.hexDecode rootHex.toList

end AttestationManager

/-- A key does not attest an epoch under a second spelling, and a publisher is not removed when its key has
attested, unless the key stays registered under another spelling. -/
def KeepsKeys (m : AttestationManager) : ManagerStep → Prop
  | .submitAttestation _ _ epochNumber _ publisherPublicKey _ => ∀ a, .attestation a ∈ m.records → a.epochNumber = epochNumber →
      SameKey a.publisherPublicKey publisherPublicKey → a.publisherPublicKey = publisherPublicKey
  | .removePublisher _ publicKey => ∀ a, .attestation a ∈ m.records → SameKey a.publisherPublicKey publicKey →
      ∃ p, .publisher p ∈ m.records ∧ p.publicKey ≠ publicKey ∧ SameKey p.publicKey publicKey
  | _ => True

/-! ## Keys -/

theorem publisherKey_injective : Function.Injective publisherKey := by
  intro a b h
  have hbytes := congrArg SledKey.bytes h
  exact Oplog.utf8_injective (List.append_cancel_left hbytes)

theorem toBe_injective {a b : UInt64} (h : Bytes.toBe 8 a.toNat = Bytes.toBe 8 b.toNat) : a = b := by
  have hval := congrArg Bytes.ofBe h
  rw [Bytes.ofBe_toBe, Bytes.ofBe_toBe] at hval
  have ha := a.toNat_lt
  have hb := b.toNat_lt
  exact UInt64.toNat_inj.1 (by omega)

theorem attestationPrefix_iff (e e' : UInt64) (publicKey : String) :
    (attestationPrefix e).isPrefixOf (attestationKey e' publicKey).bytes = true ↔ e' = e := by
  rw [List.isPrefixOf_iff_prefix]
  constructor
  · intro h
    have heq := (List.prefix_append_right_inj _).1 (by simpa only [attestationKey, attestationPrefix, List.append_assoc] using h)
    have htake := List.prefix_of_prefix_length_le ((List.prefix_append _ _).trans heq) (List.prefix_append (Bytes.toBe 8 e'.toNat) _)
      (by simp)
    exact (toBe_injective (List.IsPrefix.eq_of_length htake (by simp))).symm
  · rintro rfl
    exact List.prefix_append _ _

theorem attestationKey_injective (h : attestationKey e a = attestationKey e b) : a = b := by
  have hbytes := congrArg SledKey.bytes h
  exact Oplog.utf8_injective (List.append_cancel_left hbytes)

theorem attestationPrefix_publisher (e : UInt64) (publicKey : String) :
    (attestationPrefix e).isPrefixOf (publisherKey publicKey).bytes = false := rfl

theorem attestationKey_ne_publisherKey (e : UInt64) (a b : String) : attestationKey e a ≠ publisherKey b := by
  intro h
  have hpre := (attestationPrefix_iff e e a).2 rfl
  rw [h, attestationPrefix_publisher] at hpre
  cases hpre

/-! ## Writes -/

/-- The key a record is stored under. -/
def Record.key : Record → SledKey
  | .publisher p => publisherKey p.publicKey
  | .attestation a => attestationKey a.epochNumber a.publisherPublicKey

/-- What a call that writes does to the tree. -/
inductive Writes (C : Crates) (t : RecordTree) : ManagerStep → RecordTree → Prop
  | add {io : SledIo} {now name : String} {p : Publisher} : t.get (publisherKey p.publicKey) = none →
      Writes C t (.addPublisher io now p.publicKey name) (t.insert (publisherKey p.publicKey) (.publisher p))
  | remove {io : SledIo} {publicKey : String} :
      Writes C t (.removePublisher io publicKey) (t.remove (publisherKey publicKey))
  | submit {io : SledIo} {now : String} {a : Attestation} {p : Publisher} :
      t.get (publisherKey a.publisherPublicKey) = some (.publisher p) →
      verifySignature C p.publicKey a.rootHex a.signature = .ok () →
      t.get (attestationKey a.epochNumber a.publisherPublicKey) = none →
      Writes C t (.submitAttestation io now a.epochNumber a.rootHex a.publisherPublicKey a.signature)
        (t.insert (attestationKey a.epochNumber a.publisherPublicKey) (.attestation a))

section
variable {C : Crates} {io : SledIo} {m : AttestationManager} {t : RecordTree}

theorem Record.asPublisher_ok {what : String} {r : Record} {p : Publisher} : r.asPublisher C what = .ok p ↔ r = .publisher p := by
  cases r with
  | publisher q => simp [Record.asPublisher]
  | attestation a => simp [Record.asPublisher]

theorem Record.asAttestation_ok {what : String} {r : Record} {a : Attestation} :
    r.asAttestation C what = .ok a ↔ r = .attestation a := by
  cases r with
  | publisher q => simp [Record.asAttestation]
  | attestation b => simp [Record.asAttestation]

theorem getPublisher_ok {publicKey : String} {known : Option Publisher} (ht : m.store = some t)
    (h : m.getPublisher C io publicKey = .ok known) : t.get (publisherKey publicKey) = known.map .publisher := by
  unfold AttestationManager.getPublisher at h
  rw [ht] at h
  simp only [bind_ok] at h
  obtain ⟨_, _, h⟩ := h
  cases hget : t.get (publisherKey publicKey) with
  | none =>
    rw [hget] at h
    obtain rfl := pure_ok.1 h
    rfl
  | some r =>
    rw [hget] at h
    simp only [bind_ok, pure_ok, Record.asPublisher_ok] at h
    obtain ⟨p, rfl, rfl⟩ := h
    rfl

theorem getAttestation_ok {epochNumber : UInt64} {publicKey : String} {known : Option Attestation} (ht : m.store = some t)
    (h : m.getAttestation C io epochNumber publicKey = .ok known) :
    t.get (attestationKey epochNumber publicKey) = known.map .attestation := by
  unfold AttestationManager.getAttestation at h
  rw [ht] at h
  simp only [bind_ok] at h
  obtain ⟨_, _, h⟩ := h
  cases hget : t.get (attestationKey epochNumber publicKey) with
  | none =>
    rw [hget] at h
    obtain rfl := pure_ok.1 h
    rfl
  | some r =>
    rw [hget] at h
    simp only [bind_ok, pure_ok, Record.asAttestation_ok] at h
    obtain ⟨a, rfl, rfl⟩ := h
    rfl

theorem insertRaw_store (key : SledKey) (r : Record) : (m.insertRaw io key r).2.store = m.store ∨
    ∃ t, m.store = some t ∧ (m.insertRaw io key r).2.store = some (t.insert key r) := by
  unfold AttestationManager.insertRaw
  cases ht : m.store with
  | none => exact .inl ht
  | some t =>
    simp only
    split
    · exact .inl ht
    · exact .inr ⟨t, rfl, rfl⟩

/-- **One step**: the tree stays, or the call writes. -/
theorem step_writes (m : AttestationManager) (a : ManagerStep) : (stepManager C m a).store = m.store ∨
    ∃ t t', m.store = some t ∧ (stepManager C m a).store = some t' ∧ Writes C t a t' := by
  cases a with
  | setThreshold threshold => exact .inl rfl
  | removePublisher io publicKey =>
    simp only [stepManager, AttestationManager.removePublisher]
    cases ht : m.store with
    | none => exact .inl ht
    | some t =>
      simp only
      split
      · exact .inl ht
      · exact .inr ⟨t, _, rfl, rfl, .remove⟩
  | addPublisher io now publicKey name =>
    have hsnd : ∀ p, m.newPublisher C io now publicKey name = .ok p → (m.addPublisher C io now publicKey name).2 =
        (m.insertRaw io (publisherKey p.publicKey) (.publisher p)).2 := by
      intro p hp
      simp only [AttestationManager.addPublisher, hp]
      generalize m.insertRaw io (publisherKey p.publicKey) (.publisher p) = r
      obtain ⟨e | u, m'⟩ := r
      · rfl
      · rfl
    simp only [stepManager]
    cases hp : m.newPublisher C io now publicKey name with
    | error e => exact .inl (by simp only [AttestationManager.addPublisher, hp])
    | ok p =>
      rw [hsnd p hp]
      refine (insertRaw_store _ _).imp_right fun ⟨t, ht, hstore⟩ => ⟨t, _, ht, hstore, ?_⟩
      simp only [AttestationManager.newPublisher, bind_ok, guard_ok, pure_ok] at hp
      obtain ⟨_, _, _, _, _, known, hknown, hnone, rfl⟩ := hp
      obtain rfl : known = none := by simpa using hnone
      exact .add (p := ⟨publicKey, name, now⟩) (getPublisher_ok ht hknown)
  | submitAttestation io now epochNumber rootHex publisherPublicKey signatureHex =>
    have hsnd : ∀ a, m.newAttestation C io now epochNumber rootHex publisherPublicKey signatureHex = .ok a →
        (m.submitAttestation C io now epochNumber rootHex publisherPublicKey signatureHex).2 =
        (m.insertRaw io (attestationKey a.epochNumber a.publisherPublicKey) (.attestation a)).2 := by
      intro a ha
      simp only [AttestationManager.submitAttestation, ha]
      generalize m.insertRaw io (attestationKey a.epochNumber a.publisherPublicKey) (.attestation a) = r
      obtain ⟨e | u, m'⟩ := r
      · rfl
      · rfl
    simp only [stepManager]
    cases ha : m.newAttestation C io now epochNumber rootHex publisherPublicKey signatureHex with
    | error e => exact .inl (by simp only [AttestationManager.submitAttestation, ha])
    | ok a =>
      rw [hsnd a ha]
      refine (insertRaw_store _ _).imp_right fun ⟨t, ht, hstore⟩ => ⟨t, _, ht, hstore, ?_⟩
      simp only [AttestationManager.newAttestation, bind_ok] at ha
      obtain ⟨known, hknown, ha⟩ := ha
      cases known with
      | none => cases ha
      | some p =>
        simp only [bind_ok, guard_ok, pure_ok] at ha
        obtain ⟨_, hverify, earlier, hearlier, hnone, rfl⟩ := ha
        obtain rfl : earlier = none := by simpa using hnone
        exact .submit (a := ⟨epochNumber, rootHex, publisherPublicKey, signatureHex, now⟩) (getPublisher_ok ht hknown) hverify
          (getAttestation_ok ht hearlier)

/-! ## The invariant -/

/-- Records are under their keys. -/
def UnderOwnKeys (t : RecordTree) : Prop := ∀ k r, (k, r) ∈ t.entries → k = r.key

/-- Signatures are verified, attesting keys are registered, and attest an epoch under one spelling. -/
structure RecordsSound (C : Crates) (t : RecordTree) : Prop where
  filed : UnderOwnKeys t
  verified : ∀ k a, (k, .attestation a) ∈ t.entries → verifySignature C a.publisherPublicKey a.rootHex a.signature = .ok ()
  registered : ∀ k a, (k, .attestation a) ∈ t.entries →
    ∃ k' p, (k', .publisher p) ∈ t.entries ∧ SameKey p.publicKey a.publisherPublicKey
  spelling : ∀ k a k' a', (k, .attestation a) ∈ t.entries → (k', .attestation a') ∈ t.entries → a.epochNumber = a'.epochNumber →
    SameKey a.publisherPublicKey a'.publisherPublicKey → a.publisherPublicKey = a'.publisherPublicKey

theorem mem_records (ht : m.store = some t) : r ∈ m.records ↔ ∃ k, (k, r) ∈ t.entries := by
  simp [AttestationManager.records, ht]

theorem mem_insert_new (hnew : t.get k = none) :
    x ∈ (t.insert k r).entries ↔ x = (k, r) ∨ x ∈ t.entries := by
  rw [mem_insert]
  refine or_congr_right ⟨And.left, fun hx => ⟨hx, ?_⟩⟩
  rintro rfl
  exact get_none.1 hnew x.2 hx

theorem UnderOwnKeys.insert (h : UnderOwnKeys t) (hk : k = r.key) : UnderOwnKeys (insert t k r) := by
  intro k' r' hx
  rcases mem_insert.1 hx with heq | ⟨hx, _⟩
  · obtain ⟨rfl, rfl⟩ := Prod.mk.inj heq
    exact hk
  · exact h k' r' hx

theorem RecordsSound.add (h : RecordsSound C t) (hnew : t.get (publisherKey p.publicKey) = none) :
    RecordsSound C (t.insert (publisherKey p.publicKey) (.publisher p)) := by
  have hold : ∀ {k a}, (k, Record.attestation a) ∈ (t.insert (publisherKey p.publicKey) (.publisher p)).entries →
      (k, .attestation a) ∈ t.entries := by
    intro k a hx
    rcases (mem_insert_new hnew).1 hx with heq | hx
    · cases heq
    · exact hx
  refine ⟨h.filed.insert rfl, fun k a hx => h.verified k a (hold hx), fun k a hx => ?_,
    fun k a k' a' hx hx' => h.spelling k a k' a' (hold hx) (hold hx')⟩
  obtain ⟨k', q, hq, hsame⟩ := h.registered k a (hold hx)
  exact ⟨k', q, (mem_insert_new hnew).2 (.inr hq), hsame⟩

theorem RecordsSound.remove (h : RecordsSound C t) (ht : m.store = some t) (hg : KeepsKeys m (.removePublisher io publicKey)) : RecordsSound C (t.remove (publisherKey publicKey)) := by
  have hold : ∀ {x}, x ∈ (t.remove (publisherKey publicKey)).entries → x ∈ t.entries := fun hx => (mem_remove.1 hx).1
  -- a publisher under another text keeps its record
  have hkept : ∀ {k p}, (k, Record.publisher p) ∈ t.entries → p.publicKey ≠ publicKey →
      (k, .publisher p) ∈ (t.remove (publisherKey publicKey)).entries := by
    intro k p hp hne
    refine mem_remove.2 ⟨hp, fun hk => hne (publisherKey_injective ?_)⟩
    exact (h.filed k _ hp).symm.trans hk
  refine ⟨fun k r hx => h.filed k r (hold hx), fun k a hx => h.verified k a (hold hx), fun k a hx => ?_,
    fun k a k' a' hx hx' => h.spelling k a k' a' (hold hx) (hold hx')⟩
  obtain ⟨k', p, hp, hsame⟩ := h.registered k a (hold hx)
  by_cases hpk : p.publicKey = publicKey
  · subst hpk
    obtain ⟨q, hq, hne, hsame'⟩ := hg a ((mem_records ht).2 ⟨k, hold hx⟩) hsame.symm
    obtain ⟨k'', hq⟩ := (mem_records ht).1 hq
    exact ⟨k'', q, hkept hq hne, hsame'.trans hsame⟩
  · exact ⟨k', p, hkept hp hpk, hsame⟩

theorem RecordsSound.submit (h : RecordsSound C t) (ht : m.store = some t) (hp : t.get (publisherKey a.publisherPublicKey) = some (.publisher p))
    (hverify : verifySignature C p.publicKey a.rootHex a.signature = .ok ())
    (hnew : t.get (attestationKey a.epochNumber a.publisherPublicKey) = none)
    (hg : KeepsKeys m (.submitAttestation io now a.epochNumber a.rootHex a.publisherPublicKey a.signature)) :
    RecordsSound C (t.insert (attestationKey a.epochNumber a.publisherPublicKey) (.attestation a)) := by
  have hmem := get_iff.1 hp
  have hpk : a.publisherPublicKey = p.publicKey := publisherKey_injective (h.filed _ _ hmem)
  have hcases : ∀ {k b}, (k, Record.attestation b) ∈
      (t.insert (attestationKey a.epochNumber a.publisherPublicKey) (.attestation a)).entries →
      b = a ∨ (k, .attestation b) ∈ t.entries := by
    intro k b hx
    refine ((mem_insert_new hnew).1 hx).imp_left fun heq => ?_
    exact Record.attestation.inj (Prod.mk.inj heq).2
  refine ⟨h.filed.insert rfl, fun k b hx => ?_, fun k b hx => ?_, fun k b k' b' hx hx' hepoch hsame => ?_⟩
  · rcases hcases hx with rfl | hx
    · rw [hpk]
      exact hverify
    · exact h.verified k b hx
  · rcases hcases hx with rfl | hx
    · exact ⟨_, p, (mem_insert_new hnew).2 (.inr hmem), by rw [hpk]; rfl⟩
    · obtain ⟨k', q, hq, hsame⟩ := h.registered k b hx
      exact ⟨k', q, (mem_insert_new hnew).2 (.inr hq), hsame⟩
  · rcases hcases hx with rfl | hold
    · rcases hcases hx' with rfl | hold'
      · rfl
      · exact (hg b' ((mem_records ht).2 ⟨k', hold'⟩) hepoch.symm hsame.symm).symm
    · rcases hcases hx' with rfl | hold'
      · exact hg b ((mem_records ht).2 ⟨k, hold⟩) hepoch hsame
      · exact h.spelling k b k' b' hold hold' hepoch hsame

theorem recordsSound_step (hg : KeepsKeys m a) (h : ∀ t, m.store = some t → RecordsSound C t) :
    ∀ t, (stepManager C m a).store = some t → RecordsSound C t := by
  intro t' ht'
  rcases @step_writes C m a with hsame | ⟨t, t'', ht, hstore, hw⟩
  · exact h t' (hsame.symm.trans ht')
  · obtain rfl : t'' = t' := Option.some.inj (hstore.symm.trans ht')
    have hs := h t ht
    cases hw with
    | add hnew => exact hs.add hnew
    | remove => exact hs.remove ht hg
    | submit hp hverify hnew => exact hs.submit ht hp hverify hnew hg

/-! ## Counting -/

theorem mapM_asAttestation {what : String} : ∀ {rs : List Record} {l : List Attestation},
    rs.mapM (Record.asAttestation C what) = .ok l → l.map .attestation = rs
  | [], l, h => by
    obtain rfl : [] = l := by simpa [pure, Except.pure] using h
    rfl
  | r :: rs, l, h => by
    simp only [List.mapM_cons, bind_ok, pure_ok, Record.asAttestation_ok] at h
    obtain ⟨a, rfl, l', hl', rfl⟩ := h
    rw [List.map_cons, mapM_asAttestation hl']

theorem UnderOwnKeys.scan (h : UnderOwnKeys t) (ht : m.store = some t) (epochNumber : UInt64) :
    t.scanPrefix (attestationPrefix epochNumber) = (m.attestations epochNumber).map .attestation := by
  have hentries : ∀ xs : List (SledKey × Record), (∀ x ∈ xs, x.1 = x.2.key) →
      (xs.filter fun x => (attestationPrefix epochNumber).isPrefixOf x.1.bytes).map Prod.snd =
        ((xs.map Prod.snd).filterMap (Record.attestationOf epochNumber)).map .attestation := by
    intro xs
    induction xs with
    | nil => exact fun _ => rfl
    | cons x xs ih =>
      intro hxs
      have hx := hxs x List.mem_cons_self
      have ih := ih fun y hy => hxs y (List.mem_cons_of_mem x hy)
      obtain ⟨k, p | a⟩ := x
      · obtain rfl : k = publisherKey p.publicKey := hx
        have hpre := attestationPrefix_publisher epochNumber p.publicKey
        rw [List.filter_cons_of_neg (by simp [hpre]), ih]
        rfl
      · obtain rfl : k = attestationKey a.epochNumber a.publisherPublicKey := hx
        have hpre := attestationPrefix_iff epochNumber a.epochNumber a.publisherPublicKey
        by_cases hepoch : a.epochNumber = epochNumber
        · rw [List.filter_cons_of_pos (by exact hpre.2 hepoch), List.map_cons, ih]
          simp [Record.attestationOf, hepoch]
        · rw [List.filter_cons_of_neg (by exact fun hp => hepoch (hpre.1 hp)), ih]
          simp [Record.attestationOf, hepoch]
  have heq := hentries t.entries fun x hx => h x.1 x.2 hx
  simp only [AttestationManager.attestations, AttestationManager.records, ht]
  exact heq

theorem listAttestations_ok (h : ∀ t, m.store = some t → UnderOwnKeys t) (hl : m.listAttestations C io epochNumber = .ok l) : l = m.attestations epochNumber := by
  unfold AttestationManager.listAttestations at hl
  cases ht : m.store with
  | none =>
    rw [ht] at hl
    obtain rfl := Except.ok.inj hl
    simp [AttestationManager.attestations, AttestationManager.records, ht]
  | some t =>
    rw [ht] at hl
    simp only [bind_ok] at hl
    obtain ⟨_, _, hl⟩ := hl
    have hmap := mapM_asAttestation hl
    rw [(h t ht).scan ht] at hmap
    exact List.map_injective_iff.2 (fun _ _ heq => Record.attestation.inj heq) hmap

theorem getStatus_ok {rootHex : String} (h : ∀ t, m.store = some t → UnderOwnKeys t) (hs : m.getStatus C io epochNumber rootHex = .ok status) :
    status.thresholdMet = true ↔ m.threshold ≤ (m.attestations epochNumber).length ∧ 0 < m.threshold := by
  simp only [AttestationManager.getStatus, bind_ok, pure_ok] at hs
  obtain ⟨publishers, _, l, hl, rfl⟩ := hs
  rw [listAttestations_ok h hl]
  simp

theorem verifySignature_ok {rootHex : String} :
    verifySignature C publicKeyHex rootHex signatureHex = .ok () ↔ ∃ key root sig, Bytes.hexDecode publicKeyHex.toList = some key ∧
      Bytes.hexDecode rootHex.toList = some root ∧ Bytes.hexDecode signatureHex.toList = some sig ∧ key.length = 32 ∧
      sig.length = 64 ∧ C.keyError key = none ∧ C.verifyError key root sig = none := by
  have hdecode : ∀ {text what bytes}, decodeHex text what = .ok bytes ↔ Bytes.hexDecode text.toList = some bytes := by
    intro text what bytes
    unfold decodeHex
    cases Bytes.hexDecode text.toList with
    | none => simp
    | some bs => simp
  have hfault : ∀ {fault what}, orInvalid fault what = .ok () ↔ fault = none := by
    intro fault what
    cases fault with
    | none => simp [orInvalid]
    | some e => simp [orInvalid]
  simp only [verifySignature, bind_ok, guard_ok, hdecode, hfault, ne_eq, not_not, exists_const]
  constructor
  · rintro ⟨key, hkey, sig, hsig, root, hroot, hk, hs, hvalid, hverify⟩
    exact ⟨key, root, sig, hkey, hroot, hsig, hk, hs, hvalid, hverify⟩
  · rintro ⟨key, root, sig, hkey, hroot, hsig, hk, hs, hvalid, hverify⟩
    exact ⟨key, hkey, sig, hsig, root, hroot, hk, hs, hvalid, hverify⟩

theorem mem_attestations :
    a ∈ m.attestations epochNumber ↔ .attestation a ∈ m.records ∧ a.epochNumber = epochNumber := by
  simp only [AttestationManager.attestations, List.mem_filterMap]
  constructor
  · rintro ⟨p | b, hr, hb⟩
    · cases hb
    · simp only [Record.attestationOf, Option.ite_none_right_eq_some, Option.some.injEq] at hb
      obtain ⟨hepoch, rfl⟩ := hb
      exact ⟨hr, hepoch⟩
  · rintro ⟨hr, hepoch⟩
    exact ⟨.attestation a, hr, by simp [Record.attestationOf, hepoch]⟩

theorem RecordsSound.nodup (h : RecordsSound C t) (ht : m.store = some t) (epochNumber : UInt64) : (m.attestations epochNumber).Nodup := by
  have hscan : (t.scanPrefix (attestationPrefix epochNumber)).Nodup :=
    nodup_scan (f := Record.key) fun x hx _ => (h.filed x.1 x.2 hx).symm
  rw [h.filed.scan ht] at hscan
  exact hscan.of_map _

theorem RecordsSound.attestation_unique (h : RecordsSound C t) (ht : m.store = some t) (ha : a ∈ m.attestations epochNumber) (hb : b ∈ m.attestations epochNumber)
    (hsame : SameKey a.publisherPublicKey b.publisherPublicKey) : a = b := by
  obtain ⟨ha, hea⟩ := mem_attestations.1 ha
  obtain ⟨hb, heb⟩ := mem_attestations.1 hb
  obtain ⟨k, ha⟩ := (mem_records ht).1 ha
  obtain ⟨k', hb⟩ := (mem_records ht).1 hb
  have hpk := h.spelling k a k' b ha hb (hea.trans heb.symm) hsame
  have hkey : k = k' := by
    rw [h.filed k _ ha, h.filed k' _ hb]
    simp only [Record.key, hpk, hea, heb]
  exact Record.attestation.inj (Prod.mk.inj (entry_unique ha hb hkey)).2

/-- The bytes of the attesting key. -/
def Attestation.keyBytes (a : Attestation) : List UInt8 := (Bytes.hexDecode a.publisherPublicKey.toList).getD []

/-- **The keys behind a count**: as many as there are attestations for the root. -/
theorem RecordsSound.signers (h : RecordsSound C t) (ht : m.store = some t) (epochNumber : UInt64) (rootHex : String) :
    ((m.attestationsFor epochNumber rootHex).map Attestation.keyBytes).Nodup ∧
    ∀ key ∈ (m.attestationsFor epochNumber rootHex).map Attestation.keyBytes, m.SignedBy C epochNumber rootHex key := by
  -- the texts of stored keys are those of keys
  have hkey : ∀ {a}, a ∈ m.attestations epochNumber → ∃ key root sig, Bytes.hexDecode a.publisherPublicKey.toList = some key ∧
      Bytes.hexDecode a.rootHex.toList = some root ∧ Bytes.hexDecode a.signature.toList = some sig ∧ key.length = 32 ∧
      sig.length = 64 ∧ C.keyError key = none ∧ C.verifyError key root sig = none := by
    intro a ha
    obtain ⟨k, hk⟩ := (mem_records ht).1 (mem_attestations.1 ha).1
    exact verifySignature_ok.1 (h.verified k a hk)
  constructor
  · refine ((h.nodup ht epochNumber).filter _).map_on fun a ha b hb heq => ?_
    have ha := (List.mem_filter.1 ha).1
    have hb := (List.mem_filter.1 hb).1
    obtain ⟨ka, _, _, hka, _⟩ := hkey ha
    obtain ⟨kb, _, _, hkb, _⟩ := hkey hb
    refine h.attestation_unique ht ha hb ?_
    unfold Attestation.keyBytes at heq
    rw [hka, hkb] at heq
    rw [SameKey, hka, hkb]
    exact congrArg some heq
  · intro key hmem
    obtain ⟨a, ha, rfl⟩ := List.mem_map.1 hmem
    obtain ⟨ha, hroot⟩ := List.mem_filter.1 ha
    obtain ⟨hrec, hepoch⟩ := mem_attestations.1 ha
    obtain ⟨key, root, sig, hk, hr, hs, hlen, _, hvalid, hverify⟩ := hkey ha
    obtain ⟨k, hentry⟩ := (mem_records ht).1 hrec
    obtain ⟨k', p, hp, hsame⟩ := h.registered k a hentry
    have hbytes : a.keyBytes = key := by rw [Attestation.keyBytes, hk]; rfl
    rw [hbytes]
    refine ⟨⟨p, (mem_records ht).2 ⟨k', hp⟩, hsame.trans hk⟩, a, root, sig, hrec, hepoch, hk, hr, ?_, hs, hlen, hvalid, hverify⟩
    exact (of_decide_eq_true hroot).symm.trans hr

theorem countsSignatures_iff {rootHex : String} (h : ∀ t, m.store = some t → RecordsSound C t) (hs : m.getStatus C io epochNumber rootHex = .ok status) :
    m.CountsSignatures C epochNumber rootHex status ↔
      (m.threshold ≤ (m.attestations epochNumber).length → m.threshold ≤ (m.attestationsFor epochNumber rootHex).length) := by
  unfold AttestationManager.CountsSignatures
  rw [getStatus_ok (fun t ht => (h t ht).filed) hs]
  constructor
  · intro hcount hmet
    rcases Nat.eq_zero_or_pos m.threshold with hzero | hpos
    · omega
    obtain ⟨keys, hnodup, hlen, hall⟩ := hcount ⟨hmet, hpos⟩
    have hsub : keys ⊆ (m.attestationsFor epochNumber rootHex).map Attestation.keyBytes := by
      intro key hkey
      obtain ⟨_, a, root, sig, hrec, hepoch, hk, hr, hq, _⟩ := hall key hkey
      refine List.mem_map.2 ⟨a, List.mem_filter.2 ⟨mem_attestations.2 ⟨hrec, hepoch⟩, ?_⟩, ?_⟩
      · exact decide_eq_true (hr.trans hq.symm)
      · rw [Attestation.keyBytes, hk]
        rfl
    have hle := (List.subperm_of_subset hnodup hsub).length_le
    rw [List.length_map] at hle
    exact hlen.trans hle
  · rintro henough ⟨hmet, hpos⟩
    cases ht : m.store with
    | none =>
      have hnil : m.attestations epochNumber = [] := by simp [AttestationManager.attestations, AttestationManager.records, ht]
      rw [hnil, List.length_nil] at hmet
      omega
    | some t =>
      obtain ⟨hnodup, hall⟩ := (h t ht).signers ht epochNumber rootHex
      refine ⟨_, hnodup, ?_, hall⟩
      rw [List.length_map]
      exact henough hmet

/-! ## Calls that succeed -/

theorem addPublisher_store (ht : m.store = some t) {publicKey : String} {key : List UInt8}
    (hkey : Bytes.hexDecode publicKey.toList = some key) (hlen : key.length = 32) (hvalid : C.keyError key = none)
    (hnew : t.get (publisherKey publicKey) = none) (now name : String) :
    stepManager C m (.addPublisher {} now publicKey name) =
      { m with store := some (t.insert (publisherKey publicKey) (.publisher ⟨publicKey, name, now⟩)) } := by
  have hknown : m.getPublisher C {} publicKey = .ok none := by
    simp only [AttestationManager.getPublisher, ht, hnew]
    rfl
  have hp : m.newPublisher C {} now publicKey name = .ok ⟨publicKey, name, now⟩ := by
    simp [AttestationManager.newPublisher, decodeHex, hkey, hlen, orInvalid, hvalid, hknown, bind, Except.bind, pure, Except.pure]
  simp only [stepManager, AttestationManager.addPublisher, hp, AttestationManager.insertRaw, ht, orInvalid]

theorem submitAttestation_store {rootHex : String} (ht : m.store = some t) (hp : t.get (publisherKey publicKey) = some (.publisher p))
    (hverify : verifySignature C p.publicKey rootHex signatureHex = .ok ())
    (hnew : t.get (attestationKey epochNumber publicKey) = none) (now : String) :
    stepManager C m (.submitAttestation {} now epochNumber rootHex publicKey signatureHex) =
      { m with store := some (t.insert (attestationKey epochNumber publicKey)
        (.attestation ⟨epochNumber, rootHex, publicKey, signatureHex, now⟩)) } := by
  have hknown : m.getPublisher C {} publicKey = .ok (some p) := by
    simp only [AttestationManager.getPublisher, ht, hp]
    rfl
  have hearlier : m.getAttestation C {} epochNumber publicKey = .ok none := by
    simp only [AttestationManager.getAttestation, ht, hnew]
    rfl
  have ha : m.newAttestation C {} now epochNumber rootHex publicKey signatureHex =
      .ok ⟨epochNumber, rootHex, publicKey, signatureHex, now⟩ := by
    simp [AttestationManager.newAttestation, hknown, hverify, hearlier, bind, Except.bind, pure, Except.pure]
  simp only [stepManager, AttestationManager.submitAttestation, ha, AttestationManager.insertRaw, ht, orInvalid]

theorem getStatus_answers (ht : m.store = some t) (h : UnderOwnKeys t) (epochNumber : UInt64) (rootHex : String) :
    ∃ status, m.getStatus C {} epochNumber rootHex = .ok status := by
  have hscan : ∀ {α : Type} (f : Record → Except AuditError α) (rs : List Record), (∀ r ∈ rs, ∃ x, f r = .ok x) →
      ∃ xs, rs.mapM f = .ok xs := by
    intro α f rs
    induction rs with
    | nil => exact fun _ => ⟨[], rfl⟩
    | cons r rs ih =>
      intro hall
      obtain ⟨x, hx⟩ := hall r List.mem_cons_self
      obtain ⟨xs, hxs⟩ := ih fun r hr => hall r (List.mem_cons_of_mem _ hr)
      exact ⟨x :: xs, by simp [List.mapM_cons, hx, hxs, bind, Except.bind, pure, Except.pure]⟩
  obtain ⟨publishers, hp⟩ := hscan (Record.asPublisher C "deserialize scan result") (t.scanPrefix (Oplog.utf8 "publisher:")) <| by
    intro r hr
    obtain ⟨k, hpre, hmem⟩ := mem_scan.1 hr
    cases r with
    | publisher p => exact ⟨p, rfl⟩
    | attestation a =>
      rw [h k _ hmem] at hpre
      cases hpre
  obtain ⟨attestations, ha⟩ := hscan (Record.asAttestation C "deserialize scan result")
      (t.scanPrefix (attestationPrefix epochNumber)) <| by
    intro r hr
    rw [h.scan ht] at hr
    obtain ⟨a, _, rfl⟩ := List.mem_map.1 hr
    exact ⟨a, rfl⟩
  have hpublishers : m.listPublishers C {} = .ok publishers := by
    rw [← hp, AttestationManager.listPublishers, ht]
    rfl
  have hattestations : m.listAttestations C {} epochNumber = .ok attestations := by
    rw [← ha, AttestationManager.listAttestations, ht]
    rfl
  simp only [AttestationManager.getStatus, hpublishers, hattestations]
  exact ⟨_, rfl⟩

end

/-- **"Threshold met" counts keys**, in every state of every run in which keys stay registered and apart: for
exactly the queries about the root of at least as many of the stored attestations. -/
theorem threshold_counts_signatures (C : Crates) (threshold : Nat) (persistent : Bool) (steps : List ManagerStep)
    (hg : Runs.Guarded (stepManager C) KeepsKeys (.start threshold persistent) steps) :
    ∀ pre, pre <+: steps → ∀ io epochNumber rootHex status,
      (Runs.run (stepManager C) (.start threshold persistent) pre).getStatus C io epochNumber rootHex = .ok status →
      ((Runs.run (stepManager C) (.start threshold persistent) pre).CountsSignatures C epochNumber rootHex status ↔
        ((Runs.run (stepManager C) (.start threshold persistent) pre).threshold ≤
            ((Runs.run (stepManager C) (.start threshold persistent) pre).attestations epochNumber).length →
          (Runs.run (stepManager C) (.start threshold persistent) pre).threshold ≤
            ((Runs.run (stepManager C) (.start threshold persistent) pre).attestationsFor epochNumber rootHex).length)) := by
  rintro pre ⟨post, rfl⟩ io epochNumber rootHex status hs
  have hstart : ∀ t, (AttestationManager.start threshold persistent).store = some t → RecordsSound C t := by
    intro t ht
    cases persistent with
    | false => cases ht
    | true =>
      obtain rfl := Option.some.inj ht
      exact ⟨fun _ _ hx => absurd hx mem_empty, fun _ _ hx => absurd hx mem_empty,
        fun _ _ hx => absurd hx mem_empty, fun _ _ _ _ hx => absurd hx mem_empty⟩
  have hsound := Runs.run_inv (I := fun m => ∀ t, m.store = some t → RecordsSound C t) (fun m a hok hm => recordsSound_step hok hm)
    (Runs.guarded_left hg) hstart
  exact countsSignatures_iff hsound hs

/-! ## One key in two spellings -/

def aliceBytes : List UInt8 :=
  [0x8a, 0x88, 0xe3, 0xdd, 0x74, 0x09, 0xf1, 0x95, 0xfd, 0x52, 0xdb, 0x2d, 0x3c, 0xba, 0x5d, 0x72,
   0xca, 0x67, 0x09, 0xbf, 0x1d, 0x94, 0x12, 0x1b, 0xf3, 0x74, 0x88, 0x01, 0xb4, 0x0f, 0x6f, 0x5c]

def bobBytes : List UInt8 :=
  [0x81, 0x39, 0x77, 0x0e, 0xa8, 0x7d, 0x17, 0x5f, 0x56, 0xa3, 0x54, 0x66, 0xc3, 0x4c, 0x7e, 0xcc,
   0xcb, 0x8d, 0x8a, 0x91, 0xb4, 0xee, 0x37, 0xa2, 0x5d, 0xf6, 0x0f, 0x5b, 0x8f, 0xc9, 0xb3, 0x94]

def aliceSignature : List UInt8 :=
  [0xb5, 0xcb, 0x8d, 0x5f, 0x58, 0xcd, 0x3a, 0xea, 0x4e, 0x44, 0xd1, 0xeb, 0xbe, 0xbb, 0x38, 0x6b,
   0xda, 0x26, 0xe5, 0xa3, 0x99, 0x6f, 0xc0, 0xf1, 0x31, 0x93, 0xc8, 0x4e, 0xc6, 0x89, 0xd1, 0xfd,
   0x61, 0xc5, 0x9e, 0x70, 0x56, 0xd6, 0xb3, 0xa1, 0xe7, 0x89, 0xff, 0xf8, 0xeb, 0x95, 0x20, 0x2b,
   0x83, 0x23, 0xde, 0x5c, 0x32, 0xe6, 0x14, 0x87, 0xf4, 0x11, 0x19, 0xce, 0xce, 0x42, 0xec, 0x01]

def bobSignature : List UInt8 :=
  [0xbc, 0x66, 0x2b, 0xdf, 0x87, 0xe6, 0xa1, 0x89, 0x5b, 0xce, 0x0d, 0x0a, 0x82, 0xdf, 0xd4, 0xd4,
   0x16, 0x49, 0x67, 0xc7, 0xf8, 0x87, 0x1c, 0xdf, 0x15, 0x24, 0xaf, 0x31, 0x93, 0x0e, 0x58, 0x64,
   0x3f, 0x86, 0xed, 0x51, 0xdb, 0xac, 0xe6, 0xc7, 0x33, 0x31, 0x70, 0x96, 0xd2, 0x45, 0x66, 0x94,
   0xea, 0xa0, 0x00, 0x01, 0x6f, 0x87, 0xb8, 0x53, 0xcb, 0x47, 0xc3, 0x4b, 0xb3, 0xd0, 0x24, 0x01]

def hexText (bytes : List UInt8) : String := String.ofList (Bytes.hexEncode bytes)

def hexTextUpper (bytes : List UInt8) : String := String.ofList ((Bytes.hexEncode bytes).map Char.toUpper)

theorem hexText_decode (bytes : List UInt8) : Bytes.hexDecode (hexText bytes).toList = some bytes := by
  rw [hexText, String.toList_ofList, Bytes.hexDecode_hexEncode]

theorem hexTextUpper_decode (bytes : List UInt8) : Bytes.hexDecode (hexTextUpper bytes).toList = some bytes := by
  rw [hexTextUpper, String.toList_ofList, Bytes.hexDecode_toUpper, Bytes.hexDecode_hexEncode]

/-- The root that both sign. -/
def attestedRoot : List UInt8 := List.replicate 32 0xab

/-- Both keys are keys, and the signatures are theirs. -/
def demoCrates : Crates where
  keyError := fun _ => none
  verifyError := fun key root sig => if root = attestedRoot ∧ ((key = aliceBytes ∧ sig = aliceSignature) ∨
    (key = bobBytes ∧ sig = bobSignature)) then none else some "signature error"
  serdeError := "missing field"

/-- A second publisher beside Alice; both attest epoch 0. -/
def attestWith (second : String) (signature : List UInt8) : List ManagerStep :=
  [.addPublisher {} "" (hexText aliceBytes) "first", .addPublisher {} "" second "second",
    .submitAttestation {} "" 0 (hexText attestedRoot) (hexText aliceBytes) (hexText aliceSignature),
    .submitAttestation {} "" 0 (hexText attestedRoot) second (hexText signature)]

def firstAttestation : Attestation := ⟨0, hexText attestedRoot, hexText aliceBytes, hexText aliceSignature, ""⟩

def secondAttestation (second : String) (signature : List UInt8) : Attestation :=
  ⟨0, hexText attestedRoot, second, hexText signature, ""⟩

def bothPublishers (second : String) : RecordTree :=
  ((empty : RecordTree).insert (publisherKey (hexText aliceBytes)) (.publisher ⟨hexText aliceBytes, "first", ""⟩)).insert
    (publisherKey second) (.publisher ⟨second, "second", ""⟩)

def oneAttested (second : String) : RecordTree :=
  (bothPublishers second).insert (attestationKey 0 (hexText aliceBytes)) (.attestation firstAttestation)

def bothAttested (second : String) (signature : List UInt8) : RecordTree :=
  (oneAttested second).insert (attestationKey 0 second) (.attestation (secondAttestation second signature))

section
variable {second : String} {key signature : List UInt8}

theorem run_attestWith (hne : second ≠ hexText aliceBytes) (hkey : Bytes.hexDecode second.toList = some key) (hlen : key.length = 32)
    (hverify : verifySignature demoCrates second (hexText attestedRoot) (hexText signature) = .ok ()) :
    stepManager demoCrates (stepManager demoCrates (.start 2 true) (.addPublisher {} "" (hexText aliceBytes) "first"))
      (.addPublisher {} "" second "second") = ⟨2, some (bothPublishers second)⟩ ∧
    stepManager demoCrates ⟨2, some (bothPublishers second)⟩ (.submitAttestation {} "" 0 (hexText attestedRoot)
      (hexText aliceBytes) (hexText aliceSignature)) = ⟨2, some (oneAttested second)⟩ ∧
    stepManager demoCrates ⟨2, some (oneAttested second)⟩ (.submitAttestation {} "" 0 (hexText attestedRoot) second
      (hexText signature)) = ⟨2, some (bothAttested second signature)⟩ := by
  have hne' : publisherKey second ≠ publisherKey (hexText aliceBytes) := fun h => hne (publisherKey_injective h)
  have hne'' : attestationKey 0 second ≠ attestationKey 0 (hexText aliceBytes) := fun h => hne (attestationKey_injective h)
  refine ⟨?_, ?_, ?_⟩
  · rw [@addPublisher_store demoCrates _ _ rfl _ _ (hexText_decode aliceBytes) rfl rfl rfl]
    refine addPublisher_store rfl hkey hlen rfl ?_ _ _
    rw [get_insert, if_neg hne', get_empty]
  · refine submitAttestation_store rfl (p := ⟨hexText aliceBytes, "first", ""⟩) ?_ ?_ ?_ _
    · rw [bothPublishers, get_insert, if_neg hne'.symm, get_insert, if_pos rfl]
    · exact verifySignature_ok.2 ⟨_, _, _, hexText_decode _, hexText_decode _, hexText_decode _, rfl, rfl, rfl, by decide⟩
    · rw [bothPublishers, get_insert, if_neg (attestationKey_ne_publisherKey _ _ _), get_insert,
        if_neg (attestationKey_ne_publisherKey _ _ _), get_empty]
  · refine submitAttestation_store rfl (p := ⟨second, "second", ""⟩) ?_ hverify ?_ _
    · rw [oneAttested, get_insert, if_neg (attestationKey_ne_publisherKey _ _ _).symm, bothPublishers,
        get_insert, if_pos rfl]
    · rw [oneAttested, get_insert, if_neg hne'', bothPublishers, get_insert,
        if_neg (attestationKey_ne_publisherKey _ _ _), get_insert, if_neg (attestationKey_ne_publisherKey _ _ _),
        get_empty]

theorem mem_bothAttested (hne : second ≠ hexText aliceBytes) :
    firstAttestation ∈ (⟨2, some (bothAttested second signature)⟩ : AttestationManager).attestations 0 ∧
    secondAttestation second signature ∈ (⟨2, some (bothAttested second signature)⟩ : AttestationManager).attestations 0 := by
  have hne' : attestationKey 0 (hexText aliceBytes) ≠ attestationKey 0 second := fun h => hne (attestationKey_injective h).symm
  refine ⟨mem_attestations.2 ⟨(mem_records rfl).2 ⟨attestationKey 0 (hexText aliceBytes), ?_⟩, rfl⟩,
    mem_attestations.2 ⟨(mem_records rfl).2 ⟨attestationKey 0 second, ?_⟩, rfl⟩⟩
  · exact mem_insert.2 (.inr ⟨mem_insert.2 (.inl rfl), hne'⟩)
  · exact mem_insert.2 (.inl rfl)

theorem bothAttested_filed : UnderOwnKeys (bothAttested second signature) := by
  have hempty : UnderOwnKeys .empty := fun _ _ hx => absurd hx mem_empty
  refine UnderOwnKeys.insert ?_ rfl
  refine UnderOwnKeys.insert ?_ rfl
  refine UnderOwnKeys.insert ?_ rfl
  exact UnderOwnKeys.insert hempty rfl

theorem bothAttested_met (hne : second ≠ hexText aliceBytes) :
    ∃ status, (⟨2, some (bothAttested second signature)⟩ : AttestationManager).getStatus demoCrates {} 0 (hexText attestedRoot) =
      .ok status ∧ status.thresholdMet = true := by
  obtain ⟨status, hs⟩ := @getStatus_answers demoCrates ⟨2, some (bothAttested second signature)⟩ _ rfl bothAttested_filed 0
    (hexText attestedRoot)
  refine ⟨status, hs, (getStatus_ok ?_ hs).2 ⟨?_, Nat.two_pos⟩⟩
  · intro t ht
    obtain rfl := Option.some.inj ht
    exact bothAttested_filed
  · obtain ⟨h1, h2⟩ := @mem_bothAttested second signature hne
    have hnodup : [firstAttestation, secondAttestation second signature].Nodup := by
      simp only [List.nodup_cons, List.mem_singleton, List.not_mem_nil, not_false_eq_true, List.nodup_nil, and_true]
      exact fun h => hne (congrArg Attestation.publisherPublicKey h).symm
    exact (List.subperm_of_subset hnodup (by simp [h1, h2])).length_le

theorem bothAttested_cases (h : (k, .attestation a) ∈ (bothAttested second signature).entries) :
    a = secondAttestation second signature ∨ (k, .attestation a) ∈ (oneAttested second).entries := by
  rcases mem_insert.1 h with heq | ⟨h, _⟩
  · exact .inl (Record.attestation.inj (Prod.mk.inj heq).2)
  · exact .inr h

theorem oneAttested_cases (h : (k, .attestation a) ∈ (oneAttested second).entries) :
    a = firstAttestation := by
  rcases mem_insert.1 h with heq | ⟨h, _⟩
  · exact Record.attestation.inj (Prod.mk.inj heq).2
  · rcases mem_insert.1 h with heq | ⟨h, _⟩
    · cases heq
    · rcases mem_insert.1 h with heq | ⟨h, _⟩
      · cases heq
      · cases h

end

/-- A second publisher with a key of its own. -/
def bobAttests : List ManagerStep := attestWith (hexText bobBytes) bobSignature

theorem hexText_bob_ne : hexText bobBytes ≠ hexText aliceBytes := by
  intro h
  have hdecode := hexText_decode bobBytes
  rw [h, hexText_decode] at hdecode
  exact absurd hdecode (by decide)

theorem bob_verifies : verifySignature demoCrates (hexText bobBytes) (hexText attestedRoot) (hexText bobSignature) = .ok () :=
  verifySignature_ok.2 ⟨_, _, _, hexText_decode _, hexText_decode _, hexText_decode _, rfl, rfl, rfl, by decide⟩

theorem bobAttests_run : Runs.run (stepManager demoCrates) (.start 2 true) bobAttests =
    ⟨2, some (bothAttested (hexText bobBytes) bobSignature)⟩ := by
  obtain ⟨h1, h2, h3⟩ := run_attestWith hexText_bob_ne (hexText_decode bobBytes) rfl bob_verifies
  simp only [bobAttests, attestWith, Runs.run_cons, Runs.run_nil, h1, h2, h3]

theorem bobAttests_guarded : Runs.Guarded (stepManager demoCrates) KeepsKeys (.start 2 true) bobAttests := by
  obtain ⟨h1, h2, _⟩ := run_attestWith hexText_bob_ne (hexText_decode bobBytes) rfl bob_verifies
  refine ⟨trivial, trivial, ?_, ?_, trivial⟩
  · rw [h1]
    intro a ha
    obtain ⟨k, hk⟩ := (mem_records rfl).1 ha
    rcases mem_insert.1 hk with heq | ⟨hk, _⟩
    · cases heq
    · rcases mem_insert.1 hk with heq | ⟨hk, _⟩
      · cases heq
      · cases hk
  · rw [h1, h2]
    intro a ha _ hsame
    obtain ⟨k, hk⟩ := (mem_records rfl).1 ha
    obtain rfl := oneAttested_cases hk
    have hdecode := (hexText_decode aliceBytes).symm.trans (hsame.trans (hexText_decode bobBytes))
    exact absurd hdecode (by decide)

/-- Two publishers with two keys: the threshold of two is met, and the count is right. -/
theorem two_keys_counted : ∃ status,
    (Runs.run (stepManager demoCrates) (.start 2 true) bobAttests).getStatus demoCrates {} 0 (hexText attestedRoot) = .ok status ∧
    status.thresholdMet = true ∧
    (Runs.run (stepManager demoCrates) (.start 2 true) bobAttests).CountsSignatures demoCrates 0 (hexText attestedRoot) status := by
  obtain ⟨status, hs, hmet⟩ := @bothAttested_met (hexText bobBytes) bobSignature hexText_bob_ne
  rw [← bobAttests_run] at hs
  refine ⟨status, hs, hmet, (threshold_counts_signatures demoCrates 2 true bobAttests bobAttests_guarded _ (List.prefix_refl _) {} 0
    (hexText attestedRoot) status hs).2 fun hlen => ?_⟩
  rw [bobAttests_run] at hlen ⊢
  have hall : (AttestationManager.attestationsFor ⟨2, some (bothAttested (hexText bobBytes) bobSignature)⟩ 0
      (hexText attestedRoot)) = AttestationManager.attestations ⟨2, some (bothAttested (hexText bobBytes) bobSignature)⟩ 0 := by
    refine List.filter_eq_self.2 fun a ha => decide_eq_true ?_
    obtain ⟨k, hk⟩ := (mem_records rfl).1 (mem_attestations.1 ha).1
    rcases bothAttested_cases hk with rfl | hk
    · rfl
    · obtain rfl := oneAttested_cases hk
      rfl
  rw [hall]
  exact hlen

/-- Alice again, in upper case. -/
def aliceAttestsTwice : List ManagerStep := attestWith (hexTextUpper aliceBytes) aliceSignature

theorem hexTextUpper_ne : hexTextUpper aliceBytes ≠ hexText aliceBytes := by
  intro h
  exact absurd (String.ofList_injective h) (by decide)

theorem aliceAttestsTwice_run : Runs.run (stepManager demoCrates) (.start 2 true) aliceAttestsTwice =
    ⟨2, some (bothAttested (hexTextUpper aliceBytes) aliceSignature)⟩ := by
  obtain ⟨h1, h2, h3⟩ := @run_attestWith (hexTextUpper aliceBytes) aliceBytes aliceSignature hexTextUpper_ne
    (hexTextUpper_decode aliceBytes) rfl (verifySignature_ok.2 ⟨_, _, _, hexTextUpper_decode _, hexText_decode _,
      hexText_decode _, rfl, rfl, rfl, by decide⟩)
  simp only [aliceAttestsTwice, attestWith, Runs.run_cons, Runs.run_nil, h1, h2, h3]

/-- One key under two spellings: the threshold of two is met by one key. -/
theorem two_spellings_counted : ∃ status,
    (Runs.run (stepManager demoCrates) (.start 2 true) aliceAttestsTwice).getStatus demoCrates {} 0 (hexText attestedRoot) =
      .ok status ∧
    ¬ (Runs.run (stepManager demoCrates) (.start 2 true) aliceAttestsTwice).CountsSignatures demoCrates 0 (hexText attestedRoot)
      status := by
  rw [aliceAttestsTwice_run]
  obtain ⟨status, hs, hmet⟩ := @bothAttested_met (hexTextUpper aliceBytes) aliceSignature hexTextUpper_ne
  refine ⟨status, hs, fun hcounts => ?_⟩
  obtain ⟨keys, hnodup, hlen, hall⟩ := hcounts hmet
  have hsub : keys ⊆ [aliceBytes] := by
    intro key hkey
    obtain ⟨_, a, _, _, ha, _, hk, _⟩ := hall key hkey
    obtain ⟨k, hentry⟩ := (mem_records rfl).1 ha
    rcases bothAttested_cases hentry with rfl | hentry
    · exact List.mem_singleton.2 (Option.some.inj (hk.symm.trans (hexTextUpper_decode aliceBytes)))
    · obtain rfl := oneAttested_cases hentry
      exact List.mem_singleton.2 (Option.some.inj (hk.symm.trans (hexText_decode aliceBytes)))
  have hle := (List.subperm_of_subset hnodup hsub).length_le
  have htwo : 2 ≤ keys.length := hlen
  simp only [List.length_singleton] at hle
  omega

end Audit
