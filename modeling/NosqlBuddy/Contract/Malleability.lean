import NosqlBuddy.Audit.Types
import NosqlBuddy.Contract.RootLog

/-!
# One proof, several claims

`check_disclosure` (lib.rs:937) looks the root up by its bytes, but hands the proof system field
elements: `fr_from_bytes32` (lib.rs:1048) reads 32 bytes as an integer modulo the scalar order and
accepts integers at or above it. The signal vector therefore binds a claim whose four byte fields are
canonical, and no other (`canonical_claims_bound`): every claim shares its vector with another one
that has the same root bytes, so that each proof of the first is a proof of the second, although
the documentation says that a proof "is bound to this exact claim" (lib.rs:790-794).

The two time bounds and the three flags go through `fr_from_u64`, which is injective.
-/

/-!
## The disclosure record log

`verify_and_record_disclosure` (lib.rs:836) appends a record after `check_disclosure` passed: the root
is committed, the disclosure key is pinned, and the Groth16 check holds for the claim's public
signals. The log is counter-backed like the root log, but nothing resets its counter, so the
invariant `DisclosureInv` holds in every reachable state without a guard: the keys of the root index
are never removed and the disclosure key is written once.

`get_disclosure_records` refuses a page size of 0 or above 100 (`oversized_page_refused`).
-/

namespace Contract
open Runs CounterLog Fallible

/-- The claim's root is committed and a proof of the claim passes against the pinned key. -/
def Proven (h : Host) (s : Storage) (claim : Claim) : Prop :=
  claim.root ∈ s.index ∧ ∃ vk proof pubSignals, s.disclosureVk = some vk ∧
    publicSignals h claim = .ok pubSignals ∧ groth16Verify h vk proof pubSignals = .ok ()

theorem checkDisclosure_ok (hok : checkDisclosure h claim proof s = .ok ()) : Proven h s claim := by
  simp only [checkDisclosure, guard_ok, bind_ok, okOr_ok] at hok
  obtain ⟨hm, vk, hvk, sig, hsig, hv⟩ := hok
  exact ⟨by simpa using hm, vk, proof, sig, hvk, hsig, hv⟩

theorem write_index_mono (hw : Write h inv s s') (hr : r ∈ s.index) : r ∈ s'.index := by
  cases hw with
  | commitRoot | commitOplog => exact Finmap.mem_insert.2 (.inr hr)
  | init | setAdmin | setThreshold | authorize | revoke | attest | registerVk | disclose => exact hr

theorem write_disclosureVk (hw : Write h inv s s')
    (hv : s.disclosureVk = some vk) : s'.disclosureVk = some vk := by
  cases hw with
  | registerVk _ hn => rw [hn] at hv; cases hv
  | init | setAdmin | setThreshold | commitRoot | commitOplog | authorize | revoke | attest
  | disclose => exact hv

theorem write_proven (hw : Write h inv s s') (hp : Proven h s claim) : Proven h s' claim := by
  obtain ⟨hr, vk, proof, sig, hvk, hsig, hv⟩ := hp
  exact ⟨write_index_mono hw hr, vk, proof, sig, write_disclosureVk hw hvk, hsig, hv⟩

/-- The storage holds the record log `rs`. -/
structure RecordsAre (h : Host) (s : Storage) (rs : List DisclosureRecord) : Prop where
  count : s.recordCount = rs.length
  stores : Stores s.disclosureRecord rs
  numbered : ∀ (i : Nat) (r : DisclosureRecord), rs[i]? = some r → r.recordId = i + 1
  proven : ∀ r ∈ rs, Proven h s r.claim

theorem recordsAre_empty (h : Host) : RecordsAre h Storage.empty [] :=
  ⟨rfl, stores_nil, by simp, by simp⟩

theorem write_records (hw : Write h inv s s') (hr : RecordsAre h s rs) : ∃ rs', RecordsAre h s' rs' ∧ rs <+: rs' := by
  have hproven : ∀ r ∈ rs, Proven h s' r.claim := fun r hm => write_proven hw (hr.proven r hm)
  cases hw with
  | @disclose record proof ev hv hd hb hid =>
    have hid' : record.recordId = rs.length + 1 := hr.count ▸ hid
    have hp : Proven h s record.claim := checkDisclosure_ok hd
    refine ⟨rs ++ [record], ⟨?_, ?_, ?_, ?_⟩, List.prefix_append _ _⟩
    · simp [Storage.publish, Storage.pushRecord, Storage.recordCount, hid']
    · show Stores (Function.update s.disclosureRecord record.recordId (some record)) _
      rw [hid']
      exact stores_push hr.stores record
    · intro i r hi
      rcases getElem?_concat.1 hi with hi | ⟨rfl, rfl⟩
      · exact hr.numbered i r hi
      · exact hid'
    · intro r hm
      rcases List.mem_append.1 hm with hm | hm
      · exact hproven r hm
      · rw [List.mem_singleton.1 hm]
        exact hp
  | init | setAdmin | setThreshold | commitRoot | commitOplog | authorize | revoke | attest
  | registerVk => exact ⟨rs, ⟨hr.count, hr.stores, hr.numbered, hproven⟩, List.prefix_rfl⟩

theorem run_records : ∀ (invs : List Invocation) {s : Storage} {rs : List DisclosureRecord},
    RecordsAre h s rs → ∃ rs', RecordsAre h (run (step h) s invs) rs' ∧ rs <+: rs'
  | [], _, rs, hr => ⟨rs, hr, List.prefix_rfl⟩
  | inv :: invs, s, rs, hr => by
    have hstep : ∃ rs', RecordsAre h (step h s inv) rs' ∧ rs <+: rs' :=
      step_lift ⟨rs, hr, List.prefix_rfl⟩ (fun _ hw => write_records hw hr)
    obtain ⟨rs1, hr1, hp1⟩ := hstep
    obtain ⟨rs2, hr2, hp2⟩ := run_records invs hr1
    exact ⟨rs2, hr2, hp1.trans hp2⟩

/-- What the storage promises about the disclosure log. -/
structure DisclosureLogOk (h : Host) (s : Storage) : Prop where
  records : ∀ id, (s.disclosureRecord id).isSome ↔ 1 ≤ id ∧ id ≤ s.recordCount
  numbered : ∀ id r, s.disclosureRecord id = some r → r.recordId = id
  proven : ∀ id r, s.disclosureRecord id = some r → Proven h s r.claim
  pages : ∀ limit, 1 ≤ limit → limit ≤ 100 → ∃ page, getDisclosureRecords limit s = .ok page ∧
    NewestFirst s.disclosureRecord s.recordCount limit page ∧
    page.Pairwise fun a b => b.recordId < a.recordId
  refused : ∀ limit, limit = 0 ∨ 100 < limit → getDisclosureRecords limit s = .error (.err .invalidPageSize)

theorem RecordsAre.ok {h : Host} {s : Storage} {rs : List DisclosureRecord} (hr : RecordsAre h s rs) :
    DisclosureLogOk h s where
  records := by rw [hr.count]; exact stores_isSome hr.stores
  numbered := by
    intro id r hid
    obtain ⟨i, rfl, hi⟩ := (stores_some hr.stores).1 hid
    exact hr.numbered i r hi
  proven := by
    intro id r hid
    obtain ⟨i, rfl, hi⟩ := (stores_some hr.stores).1 hid
    exact hr.proven r (List.mem_of_getElem? hi)
  pages := by
    intro limit h1 h2
    have hn := newestFirst_take hr.stores limit
    rw [← hr.count] at hn
    exact ⟨rs.reverse.take limit, by rw [getDisclosureRecords, hr.count]; exact page_eq hr.stores h1 h2, hn,
      newest_descending DisclosureRecord.recordId hr.numbered limit⟩
  refused := by
    intro limit hl
    have hl' : limit = 0 ∨ limit > 100 := hl
    simp only [getDisclosureRecords, page, hl', if_true]
    rfl

theorem failed_disclosure_unchanged (h : Host) (s : Storage) (ctx : Ctx) (verifier : Address) (claim : Claim)
    (proof : Proof) (hf : checkDisclosure h claim proof s ≠ .ok ()) :
    step h s ⟨ctx, .verifyAndRecordDisclosure verifier claim proof⟩ = s := by
  unfold step
  split
  · next s' hok =>
    obtain ⟨r, hr, _⟩ := map_ok.1 (show Prod.fst <$> verifyAndRecordDisclosure h ctx verifier claim proof s = .ok s'
      from hok)
    simp only [verifyAndRecordDisclosure, bind_ok] at hr
    obtain ⟨_, _, _, hc, _⟩ := hr
    exact absurd hc hf
  · rfl

/-- **The disclosure log** in every run: records are numbered without a gap, proven against the key
that is still pinned and a root that is still indexed, and kept unchanged to the end of the run; a
failed verification writes nothing. -/
theorem disclosure_log_sound (h : Host) (invs : List Invocation) :
    (∀ pre post, invs = pre ++ post → DisclosureLogOk h (after h pre) ∧
      ∀ id r, (after h pre).disclosureRecord id = some r → (after h invs).disclosureRecord id = some r) ∧
    (∀ ctx verifier claim proof, checkDisclosure h claim proof (after h invs) ≠ .ok () →
      step h (after h invs) ⟨ctx, .verifyAndRecordDisclosure verifier claim proof⟩ = after h invs) := by
  refine ⟨?_, fun ctx verifier claim proof hf => failed_disclosure_unchanged h _ ctx verifier claim proof hf⟩
  rintro pre post rfl
  obtain ⟨rs, hr, _⟩ := run_records pre (recordsAre_empty h)
  obtain ⟨rs', hr', hp⟩ := run_records post hr
  refine ⟨hr.ok, fun id r hid => ?_⟩
  rw [after_append]
  exact stores_mono hr.stores hr'.stores hp hid

/-! #### A page that is too large -/

/-- A disclosure key has one point per public signal and one more. -/
def demoDisclosureVk : VerifyingKey := { demoVk with ic := List.replicate 10 (List.replicate 64 0) }

def demoClaim : Claim where
  root := List.replicate 32 0xaa
  leaf := List.replicate 32 1
  opPred := List.replicate 32 2
  collPred := List.replicate 32 3
  tsMin := 10
  tsMax := 20
  checkOp := true
  checkColl := false
  checkTs := true

def demoProof : Proof := ⟨List.replicate 64 0, List.replicate 128 0, List.replicate 64 0⟩

/-- Deploy, commit a root, pin the disclosure key, record one disclosure. -/
def demoDisclosure : List Invocation :=
  [demoInit, demoOplogCommit [demoAdmin], ⟨⟨[demoAdmin], 220⟩, .registerDisclosureVk demoDisclosureVk⟩,
   ⟨⟨[⟨3⟩], 230⟩, .verifyAndRecordDisclosure ⟨3⟩ demoClaim demoProof⟩]

/-- One record is stored, and asking for 101 returns an error, not that record. -/
theorem oversized_page_refused :
    (after demoHost demoDisclosure).recordCount = 1 ∧
      ¬ ∃ page, getDisclosureRecords 101 (after demoHost demoDisclosure) = .ok page ∧
        NewestFirst (after demoHost demoDisclosure).disclosureRecord
          (after demoHost demoDisclosure).recordCount 101 page := by
  refine ⟨by decide, ?_⟩
  rintro ⟨page, hp, _⟩
  simp [getDisclosureRecords, Contract.page, throw, throwThe, MonadExceptOf.throw, bind, Except.bind] at hp

end Contract

namespace Contract
open Fallible Bytes
open Audit (frModulus)

/-- `Fr::from_bytes` reads 32 big-endian bytes as an integer modulo the scalar order. -/
def ReadsModOrder (h : Host) : Prop :=
  ∀ b b' : BytesN 32, h.frFromBytes b = h.frFromBytes b' ↔ ofBe b.1 % frModulus = ofBe b'.1 % frModulus

/-- The bytes of a field element in its canonical encoding. -/
def CanonicalBytes (b : Bytes) : Prop := ofBe b < frModulus

instance (b : Bytes) : Decidable (CanonicalBytes b) := inferInstanceAs (Decidable (_ < _))

/-- The four byte fields of a claim are 32 bytes long. -/
structure Claim.Wide (c : Claim) : Prop where
  root : c.root.length = 32
  leaf : c.leaf.length = 32
  opPred : c.opPred.length = 32
  collPred : c.collPred.length = 32

/-- The four byte fields of a claim are canonical. -/
structure Claim.Canonical (c : Claim) : Prop where
  root : CanonicalBytes c.root
  leaf : CanonicalBytes c.leaf
  opPred : CanonicalBytes c.opPred
  collPred : CanonicalBytes c.collPred

/-! ## Bytes and field elements -/

theorem toBeBytes_eq (x : UInt64) : toBeBytes x = toBe 8 x.toNat := by
  have hx : x.toNat < 2 ^ 64 := x.toNat_lt
  simp only [toBeBytes, List.range, List.range.loop, List.map_cons, List.map_nil, toBe, List.nil_append,
    List.cons_append, List.cons.injEq, and_true]
  refine ⟨?_, ?_, ?_, ?_, ?_, ?_, ?_, ?_⟩
  all_goals
    apply UInt8.toNat.inj
    simp [Nat.shiftRight_eq_div_pow]
    try omega

theorem ofBe_u64ToBytes32 (x : UInt64) : ofBe (u64ToBytes32 x).1 = x.toNat := by
  have hx : x.toNat < 256 ^ 8 := x.toNat_lt
  rw [u64ToBytes32, ofBe_replicate_zero, toBeBytes_eq, ofBe_toBe, Nat.mod_eq_of_lt hx]

/-- Two byte strings that stand for one field element. -/
def SameElement (b b' : Bytes) : Prop := ofBe b % frModulus = ofBe b' % frModulus

theorem SameElement.refl (b : Bytes) : SameElement b b := rfl

/-- A 32-byte string other than `b` that reads as the same integer modulo the order: one order above
`b` where `b` is canonical, one order below it otherwise. -/
@[irreducible] def twin (b : Bytes) : Bytes :=
  toBe 32 (if ofBe b < frModulus then ofBe b + frModulus else ofBe b - frModulus)

/-- The canonical 32-byte string of the field element that `b` reads as. -/
@[irreducible] def canonicalForm (b : Bytes) : Bytes := toBe 32 (ofBe b % frModulus)

theorem length_twin (b : Bytes) : (twin b).length = 32 := by
  rw [twin, length_toBe]

theorem length_canonicalForm (b : Bytes) : (canonicalForm b).length = 32 := by
  rw [canonicalForm, length_toBe]

theorem two_orders_fit : 2 * frModulus < 256 ^ 32 := by decide

theorem ofBe_twin (hb : b.length = 32) :
    ofBe (twin b) = if ofBe b < frModulus then ofBe b + frModulus else ofBe b - frModulus := by
  have hlt := ofBe_lt b
  rw [hb] at hlt
  have hfit := two_orders_fit
  rw [twin, ofBe_toBe, Nat.mod_eq_of_lt]
  split <;> omega

theorem twin_ne (hb : b.length = 32) : twin b ≠ b := by
  intro heq
  have hval := ofBe_twin hb
  rw [heq] at hval
  have hpos : 0 < frModulus := by decide
  split at hval <;> omega

theorem twin_same (hb : b.length = 32) : SameElement (twin b) b := by
  rw [SameElement, ofBe_twin hb]
  split
  · exact Nat.add_mod_right _ _
  · next hge => exact (Nat.mod_eq_sub_mod (Nat.le_of_not_lt hge)).symm

theorem ofBe_canonicalForm (b : Bytes) : ofBe (canonicalForm b) = ofBe b % frModulus := by
  have hlt : ofBe b % frModulus < frModulus := Nat.mod_lt _ (by decide)
  have hfit := two_orders_fit
  rw [canonicalForm, ofBe_toBe, Nat.mod_eq_of_lt (by omega)]

theorem canonicalForm_same (b : Bytes) : SameElement (canonicalForm b) b := by
  rw [SameElement, ofBe_canonicalForm, Nat.mod_mod]

theorem canonicalForm_canonical (b : Bytes) : CanonicalBytes (canonicalForm b) := by
  rw [CanonicalBytes, ofBe_canonicalForm]
  exact Nat.mod_lt _ (by decide)

theorem canonical_eq (hb : b.length = 32) (hb' : b'.length = 32) (hc : CanonicalBytes b)
    (hc' : CanonicalBytes b') (h : SameElement b b') : b = b' := by
  rw [SameElement, Nat.mod_eq_of_lt hc, Nat.mod_eq_of_lt hc'] at h
  exact ofBe_injective (hb.trans hb'.symm) h

/-! ## The signal vectors -/

theorem frFromBytes32_eq (h : Host) (hb : b.length = 32) :
    frFromBytes32 h b = .ok (h.frFromBytes ⟨b, hb⟩) := by
  simp only [frFromBytes32, toBytesN, hb, dif_pos, okOr]
  rfl

/-- The vector that `verify_inclusion` hands to the proof check (lib.rs:748-751). -/
def inclusionSignals (h : Host) (root leaf : Bytes) : Except Failure (List h.Fr) := do
  let rootFr ← frFromBytes32 h root
  let leafFr ← frFromBytes32 h leaf
  return [rootFr, leafFr]

/-- A claim with another string in place of the leaf. -/
def Claim.withLeaf (c : Claim) (leaf : Bytes) : Claim := { c with leaf := leaf }

/-- The claim with its four byte fields in canonical form. -/
def Claim.canonicalForm (c : Claim) : Claim :=
  { c with
    root := Contract.canonicalForm c.root
    leaf := Contract.canonicalForm c.leaf
    opPred := Contract.canonicalForm c.opPred
    collPred := Contract.canonicalForm c.collPred }

theorem Claim.canonicalForm_wide (c : Claim) : c.canonicalForm.Wide :=
  ⟨length_canonicalForm _, length_canonicalForm _, length_canonicalForm _, length_canonicalForm _⟩

theorem Claim.canonicalForm_canonical (c : Claim) : c.canonicalForm.Canonical :=
  ⟨Contract.canonicalForm_canonical _, Contract.canonicalForm_canonical _, Contract.canonicalForm_canonical _,
    Contract.canonicalForm_canonical _⟩

theorem publicSignals_eq (h : Host) (hw : c.Wide) : publicSignals h c =
    .ok [h.frFromBytes ⟨c.root, hw.root⟩, h.frFromBytes ⟨c.leaf, hw.leaf⟩, h.frFromBytes ⟨c.opPred, hw.opPred⟩,
      h.frFromBytes ⟨c.collPred, hw.collPred⟩, frFromU64 h c.tsMin, frFromU64 h c.tsMax,
      frFromU64 h c.checkOp.toUInt64, frFromU64 h c.checkColl.toUInt64, frFromU64 h c.checkTs.toUInt64] := by
  simp only [publicSignals, frFromBytes32_eq h hw.root, frFromBytes32_eq h hw.leaf, frFromBytes32_eq h hw.opPred,
    frFromBytes32_eq h hw.collPred]
  rfl

theorem inclusionSignals_eq (h : Host) (hr : root.length = 32) (hl : leaf.length = 32) :
    inclusionSignals h root leaf = .ok [h.frFromBytes ⟨root, hr⟩, h.frFromBytes ⟨leaf, hl⟩] := by
  simp only [inclusionSignals, frFromBytes32_eq h hr, frFromBytes32_eq h hl]
  rfl

theorem toUInt64_inj {x y : Bool} : x.toUInt64 = y.toUInt64 ↔ x = y := by
  cases x <;> cases y <;> decide

theorem checkDisclosure_congr (hroot : c'.root = c.root)
    (hsig : publicSignals h c' = publicSignals h c) (proof : Proof) (s : Storage) :
    checkDisclosure h c' proof s = checkDisclosure h c proof s := by
  simp only [checkDisclosure, hroot, hsig]

section
variable {h : Host} (hread : ReadsModOrder h)
include hread

theorem frFromU64_iff : frFromU64 h x = frFromU64 h y ↔ x = y := by
  constructor
  · intro hxy
    have hval := (hread _ _).1 hxy
    rw [ofBe_u64ToBytes32, ofBe_u64ToBytes32] at hval
    have hbig : 2 ^ 64 < frModulus := by decide
    have hx := x.toNat_lt
    have hy := y.toNat_lt
    rw [Nat.mod_eq_of_lt (by omega), Nat.mod_eq_of_lt (by omega)] at hval
    exact UInt64.toNat.inj hval
  · rintro rfl
    rfl

/-- **The signal vector** of a claim: four field elements, and the bounds and flags themselves. -/
theorem publicSignals_iff {c c' : Claim} (hw : c.Wide) (hw' : c'.Wide) :
    publicSignals h c = publicSignals h c' ↔
      (SameElement c.root c'.root ∧ SameElement c.leaf c'.leaf ∧ SameElement c.opPred c'.opPred ∧
        SameElement c.collPred c'.collPred) ∧
      c.tsMin = c'.tsMin ∧ c.tsMax = c'.tsMax ∧ c.checkOp = c'.checkOp ∧ c.checkColl = c'.checkColl ∧
        c.checkTs = c'.checkTs := by
  rw [publicSignals_eq h hw, publicSignals_eq h hw']
  simp only [Except.ok.injEq, List.cons.injEq, and_true, hread _ _, frFromU64_iff hread, toUInt64_inj, SameElement,
    and_assoc]

theorem inclusionSignals_iff (hr : root.length = 32) (hl : leaf.length = 32)
    (hr' : root'.length = 32) (hl' : leaf'.length = 32) :
    inclusionSignals h root leaf = inclusionSignals h root' leaf' ↔ SameElement root root' ∧ SameElement leaf leaf' := by
  rw [inclusionSignals_eq h hr hl, inclusionSignals_eq h hr' hl']
  simp only [Except.ok.injEq, List.cons.injEq, and_true, hread _ _, SameElement]

theorem canonical_claims_eq (hw : c.Wide) (hw' : c'.Wide) (hc : c.Canonical) (hc' : c'.Canonical)
    (hsig : publicSignals h c = publicSignals h c') : c = c' := by
  obtain ⟨⟨hroot, hleaf, hop, hcoll⟩, h1, h2, h3, h4, h5⟩ := (publicSignals_iff hread hw hw').1 hsig
  have e1 := canonical_eq hw.root hw'.root hc.root hc'.root hroot
  have e2 := canonical_eq hw.leaf hw'.leaf hc.leaf hc'.leaf hleaf
  have e3 := canonical_eq hw.opPred hw'.opPred hc.opPred hc'.opPred hop
  have e4 := canonical_eq hw.collPred hw'.collPred hc.collPred hc'.collPred hcoll
  cases c
  cases c'
  simp_all

theorem canonicalForm_signals (hw : c.Wide) : publicSignals h c.canonicalForm = publicSignals h c := by
  rw [publicSignals_iff hread c.canonicalForm_wide hw]
  simp only [Claim.canonicalForm, canonicalForm_same, and_self]

theorem twin_signals (hw : c.Wide) :
    (c.withLeaf (twin c.leaf)).Wide ∧ publicSignals h (c.withLeaf (twin c.leaf)) = publicSignals h c := by
  have hwide : (c.withLeaf (twin c.leaf)).Wide := ⟨hw.root, length_twin c.leaf, hw.opPred, hw.collPred⟩
  refine ⟨hwide, ?_⟩
  rw [publicSignals_iff hread hwide hw]
  simp only [Claim.withLeaf, twin_same hw.leaf, SameElement.refl, and_self]

theorem claim_canonical_iff (hw : c.Wide) :
    (∀ c' : Claim, c'.Wide → c'.Canonical → publicSignals h c' = publicSignals h c → c' = c) ↔ c.Canonical := by
  constructor
  · intro honly
    rw [← honly c.canonicalForm c.canonicalForm_wide c.canonicalForm_canonical (canonicalForm_signals hread hw)]
    exact c.canonicalForm_canonical
  · intro hc c' hw' hc' hsig
    exact canonical_claims_eq hread hw' hw hc' hc hsig

theorem inclusion_canonical_iff (hr : root.length = 32) (hl : leaf.length = 32) :
    (∀ root' leaf', root'.length = 32 → leaf'.length = 32 → CanonicalBytes root' → CanonicalBytes leaf' →
      inclusionSignals h root' leaf' = inclusionSignals h root leaf → root' = root ∧ leaf' = leaf) ↔
    CanonicalBytes root ∧ CanonicalBytes leaf := by
  constructor
  · intro honly
    have hsig : inclusionSignals h (canonicalForm root) (canonicalForm leaf) = inclusionSignals h root leaf := by
      rw [inclusionSignals_iff hread (length_canonicalForm root) (length_canonicalForm leaf) hr hl]
      exact ⟨canonicalForm_same root, canonicalForm_same leaf⟩
    obtain ⟨hroot, hleaf⟩ := honly _ _ (length_canonicalForm root) (length_canonicalForm leaf)
      (canonicalForm_canonical root) (canonicalForm_canonical leaf) hsig
    rw [← hroot, ← hleaf]
    exact ⟨canonicalForm_canonical root, canonicalForm_canonical leaf⟩
  · rintro ⟨hcr, hcl⟩ root' leaf' hr' hl' hcr' hcl' hsig
    obtain ⟨hroot, hleaf⟩ := (inclusionSignals_iff hread hr' hl' hr hl).1 hsig
    exact ⟨canonical_eq hr' hr hcr' hcr hroot, canonical_eq hl' hl hcl' hcl hleaf⟩

end

/-- **What a proof is bound to.** Among canonical claims the signal vector determines the claim, and a
claim that is not canonical shares its vector with a canonical one; the same holds of the two arguments
of `verify_inclusion`. Without the restriction to canonical claims no claim is bound: each has another
one under the same root bytes that every proof decides alike. -/
theorem canonical_claims_bound (h : Host) (hread : ReadsModOrder h) :
    (∀ c : Claim, c.Wide →
      ((∀ c' : Claim, c'.Wide → c'.Canonical → publicSignals h c' = publicSignals h c → c' = c) ↔ c.Canonical)) ∧
    (∀ root leaf : Bytes, root.length = 32 → leaf.length = 32 →
      ((∀ root' leaf', root'.length = 32 → leaf'.length = 32 → CanonicalBytes root' → CanonicalBytes leaf' →
        inclusionSignals h root' leaf' = inclusionSignals h root leaf → root' = root ∧ leaf' = leaf) ↔
      CanonicalBytes root ∧ CanonicalBytes leaf)) ∧
    (∀ c : Claim, c.Wide → ∃ c' : Claim, c'.Wide ∧ c' ≠ c ∧ publicSignals h c' = publicSignals h c ∧
      ∀ proof s, checkDisclosure h c' proof s = checkDisclosure h c proof s) := by
  refine ⟨fun c hw => claim_canonical_iff hread hw, fun root leaf hr hl => inclusion_canonical_iff hread hr hl, ?_⟩
  intro c hw
  obtain ⟨hwide, hsig⟩ := twin_signals hread hw
  have hroot : (c.withLeaf (twin c.leaf)).root = c.root := rfl
  refine ⟨c.withLeaf (twin c.leaf), hwide, ?_, hsig, fun proof s => checkDisclosure_congr hroot hsig proof s⟩
  intro heq
  exact twin_ne hw.leaf (congrArg Claim.leaf heq)

/-! ### A host that reads modulo the order -/

/-- `demoHost` with the scalar field of BN254. -/
def scalarHost : Host where
  sha256 := demoHost.sha256
  ed25519Verify := demoHost.ed25519Verify
  Fr := Audit.Fr
  G1 := BytesN 64
  G2 := BytesN 128
  frFromBytes := fun b => Audit.fromBeBytesModOrder b.1
  g1FromBytes := id
  g2FromBytes := id
  g1Neg := id
  g1Mul := fun p _ => some p
  g1Add := fun p _ => some p
  pairingCheck := fun _ _ => some true

theorem scalarHost_reads : ReadsModOrder scalarHost := by
  intro b b'
  exact Fin.ext_iff

/-- The demo claim under a root below the order. -/
def canonicalDemo : Claim := { demoClaim with root := List.replicate 32 0x11 }

/-- No other canonical claim shares its signals. -/
theorem canonicalDemo_bound : ReadsModOrder scalarHost ∧ canonicalDemo.Canonical ∧
    ∀ c' : Claim, c'.Wide → c'.Canonical → publicSignals scalarHost c' = publicSignals scalarHost canonicalDemo →
      c' = canonicalDemo := by
  have hw : canonicalDemo.Wide := ⟨by decide, by decide, by decide, by decide⟩
  have hc : canonicalDemo.Canonical := ⟨by decide, by decide, by decide, by decide⟩
  exact ⟨scalarHost_reads, hc, ((canonical_claims_bound scalarHost scalarHost_reads).1 canonicalDemo hw).2 hc⟩

/-- The demo claim with the scalar order added to its leaf. -/
def shiftedClaim : Claim := { demoClaim with leaf := toBe 32 (ofBe demoClaim.leaf + frModulus) }

/-- The second claim is recorded with the proof of the first. -/
def demoReplay : List Invocation :=
  demoDisclosure ++ [⟨⟨[⟨4⟩], 240⟩, .verifyAndRecordDisclosure ⟨4⟩ shiftedClaim demoProof⟩]

/-- Two 32-byte leaves, one signal vector: the contract holds two different records of one proof. -/
theorem one_proof_two_records : demoClaim.Wide ∧ shiftedClaim.Wide ∧
    publicSignals scalarHost demoClaim = publicSignals scalarHost shiftedClaim ∧ demoClaim ≠ shiftedClaim ∧
    ((after scalarHost demoReplay).disclosureRecord 1).map DisclosureRecord.claim = some demoClaim ∧
    ((after scalarHost demoReplay).disclosureRecord 2).map DisclosureRecord.claim = some shiftedClaim := by
  have hw : demoClaim.Wide := ⟨by decide, by decide, by decide, by decide⟩
  have hw' : shiftedClaim.Wide := ⟨by decide, length_toBe _ _, by decide, by decide⟩
  refine ⟨hw, hw', ?_, by decide, by decide, by decide⟩
  rw [publicSignals_iff scalarHost_reads hw hw']
  exact ⟨⟨.refl _, by unfold SameElement; decide, .refl _, .refl _⟩, rfl, rfl, rfl, rfl, rfl⟩

end Contract
