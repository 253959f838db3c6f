import NosqlBuddy.Audit.SuperRoot
import NosqlBuddy.Circuits.AuditedAction
import NosqlBuddy.Desktop.ProofCommands

/-!
# What a disclosure publishes

`audit_generate_disclosure_proof` takes the parameters of its claim from the event itself
(commands.rs:457-467): `op_pred` and `coll_pred` are the event's own operation and collection also
where their check is off, a bound that is not given is that of the event's UTC day, and the range
check (commands.rs:468) is made with `check_ts` off as well. `Shows` says that a log holds an event;
`generate_inside` and `generate_outside` compute the command from the shown event alone, and `disclosure_agrees_iff` compares two
logs: versions that agree on the enabled aspects give the same answer exactly when they also agree on
what is published of the disabled ones.
-/

namespace Desktop
open Audit Text Fallible

section
variable (P : Prims)

/-- The Unix seconds that a disclosure uses for an event. -/
def eventTs (ev : PersistedEvent) : UInt64 :=
  match P.parseRfc3339 ev.timestamp with
  | .ok secs => clampSecs secs
  | .error _ => 0

/-- The log holds the v3 event `ev` at its index: as a line of its file, as a visible event with the same operation
and collection, and as the leaf of the tree that the line commits to. -/
structure Shows (w : World) (ev : PersistedEvent) : Prop where
  version : ev.version = 3
  file : ∃ dir text, w.log.persistence = some dir ∧ readText none (w.disk dir) = .ok text ∧
    findPersisted P text ev.index = some ev
  visible : ∃ a, w.log.events.find? (·.index = ev.index) = some a ∧ a.operation = ev.operation ∧
    a.collection = ev.collection
  leaf : ∃ leaf, checkedLeaf P w.log.leafKey ev = some leaf ∧ w.log.tree.leaves[ev.index]? = some leaf

/-- What the disclosure circuit asks of its inputs; the root is an output. -/
structure Provable (opening : LeafOpening) (inclusion : InclusionProof) (statement : DisclosureStatement) : Prop where
  leaf : inclusion.leaf = P.poseidon opening.toInputs
  operation : statement.checkOp = true → statement.opPred = opening.opH
  collection : statement.checkColl = true → statement.collPred = opening.collH
  timestamp : statement.checkTs = true → statement.tsMin ≤ opening.ts ∧ opening.ts ≤ statement.tsMax
  height : inclusion.pathElements.length = 20 ∧ inclusion.pathIndices.length = 20
  bits : ∀ d ∈ inclusion.pathIndices, d = 0 ∨ d = 1

/-- The settings are readable and the prover proves what the circuit accepts. -/
structure ProofEnv.Ready (env : ProofEnv) : Prop where
  chain : ∃ network contractId, env.chainConfig = .ok (network, contractId)
  complete : ∀ opening inclusion statement, Provable P opening inclusion statement →
    ∃ proof, env.proveDisclosure opening inclusion statement = .ok proof

/-- Two answers that agree on success, claim and text. -/
def Agree : Except AppError DisclosureProofResult → Except AppError DisclosureProofResult → Prop
  | .ok r, .ok r' => r.claim = r'.claim ∧ r.claimText = r'.claimText
  | .error _, .error _ => True
  | _, _ => False

/-- The timestamp is within the bounds that are given. -/
def DisclosureArgs.Contains (args : DisclosureArgs) (ts : UInt64) : Prop :=
  (∀ m ∈ args.tsMin, m ≤ ts) ∧ ∀ m ∈ args.tsMax, ts ≤ m

/-- Where a bound is not given, the two timestamps are of one UTC day. -/
def DisclosureArgs.SameDefaults (args : DisclosureArgs) (ts ts' : UInt64) : Prop :=
  args.tsMin = none ∨ args.tsMax = none → dayStart ts = dayStart ts'

/-- Two versions of an event agree on every enabled aspect. -/
structure EnabledAgree (args : DisclosureArgs) (ev ev' : PersistedEvent) : Prop where
  operation : args.checkOp = true → ev.operation = ev'.operation
  collection : args.checkColl = true → ev.collection = ev'.collection
  timestamp : args.checkTs = true → args.Contains (eventTs P ev) ∧ args.Contains (eventTs P ev') ∧
    args.SameDefaults (eventTs P ev) (eventTs P ev')

/-- Two versions of an event agree on everything that a claim publishes, or both are outside the given bounds. -/
def PublishedAgree (args : DisclosureArgs) (ev ev' : PersistedEvent) : Prop :=
  (args.Contains (eventTs P ev) ↔ args.Contains (eventTs P ev')) ∧
  (args.Contains (eventTs P ev) → strToField P ev.operation = strToField P ev'.operation ∧
    strToField P ev.collection = strToField P ev'.collection ∧ args.SameDefaults (eventTs P ev) (eventTs P ev'))

end

/-! ## Days -/

theorem clampSecs_lt (secs : Int64) : (clampSecs secs).toNat < 2 ^ 63 := by
  by_cases h : secs ≤ 0
  · have hmax : max secs 0 = 0 := if_pos h
    rw [clampSecs, hmax]
    decide
  · have hmax : max secs 0 = secs := if_neg h
    have hpos : 0 ≤ secs := by
      rw [Int64.le_iff_toInt_le] at h ⊢
      omega
    rw [clampSecs, hmax, Int64.toNat_toUInt64_of_le hpos]
    exact secs.toNatClampNeg_lt

theorem toNat_dayStart (ts : UInt64) : (dayStart ts).toNat = ts.toNat - ts.toNat % 86400 := by
  have hle : ts % 86400 ≤ ts := by
    rw [UInt64.le_iff_toNat_le, UInt64.toNat_mod]
    exact Nat.mod_le _ _
  rw [dayStart, UInt64.toNat_sub_of_le _ _ hle, UInt64.toNat_mod]
  rfl

theorem dayStart_le (ts : UInt64) : dayStart ts ≤ ts := by
  rw [UInt64.le_iff_toNat_le, toNat_dayStart]
  omega

variable {ts : UInt64}

theorem le_dayEnd (hts : ts.toNat < 2 ^ 63) : ts ≤ dayStart ts + 86399 := by
  have hsum : (dayStart ts + 86399).toNat = (dayStart ts).toNat + 86399 := by
    have hsecs : (86399 : UInt64).toNat = 86399 := rfl
    rw [UInt64.toNat_add, toNat_dayStart, hsecs, Nat.mod_eq_of_lt (by omega)]
  rw [UInt64.le_iff_toNat_le, hsum, toNat_dayStart]
  omega

variable {args : DisclosureArgs} {w : World} {ev : PersistedEvent} {ls : List Line} {dir : String} {key : Option Bytes32}

section
variable {P : Prims}

theorem inRange_iff (hts : ts.toNat < 2 ^ 63) (op coll : String) :
    ¬ ((disclosureStatement P args op coll ts).tsMin > ts ∨ (disclosureStatement P args op coll ts).tsMax < ts) ↔
      args.Contains ts := by
  have hmin : ¬ args.tsMin.getD (dayStart ts) > ts ↔ ∀ m ∈ args.tsMin, m ≤ ts := by
    cases args.tsMin with
    | none => simpa using dayStart_le ts
    | some m => simp
  have hmax : ¬ args.tsMax.getD (dayStart ts + 86399) < ts ↔ ∀ m ∈ args.tsMax, ts ≤ m := by
    cases args.tsMax with
    | none => simpa using le_dayEnd hts
    | some m => simp
  rw [not_or]
  exact and_congr hmin hmax

/-! ## The command on a shown event -/

theorem okOrElse_ok {α ε : Type} {o : Option α} {e : ε} {a : α} : okOrElse o e = .ok a ↔ o = some a := by
  cases o <;> simp [okOrElse]

/-- **What a successful disclosure checked**, and what it returns. -/
theorem generate_ok {env : ProofEnv} {r : DisclosureProofResult} :
    auditGenerateDisclosureProof P env w args = .ok r ↔ ∃ opening leaf event inclusion proof network contractId,
      disclosureOpening P w args.index = .ok (opening, leaf) ∧
      w.log.events.find? (·.index = args.index) = some event ∧
      AuditLog.proveInclusion P w.log args.index = .ok inclusion ∧ inclusion.leaf = leaf ∧
      ¬ ((disclosureStatement P args event.operation event.collection opening.ts).tsMin > opening.ts ∨
        (disclosureStatement P args event.operation event.collection opening.ts).tsMax < opening.ts) ∧
      env.proveDisclosure opening inclusion (disclosureStatement P args event.operation event.collection opening.ts) =
        .ok proof ∧
      env.chainConfig = .ok (network, contractId) ∧
      r = ⟨frToHex proof.publicRoot, frToHex leaf, args.index,
        (disclosureStatement P args event.operation event.collection opening.ts).claim,
        claimText (disclosureStatement P args event.operation event.collection opening.ts) event.operation event.collection,
        proof.proof, network, contractId⟩ := by
  simp only [auditGenerateDisclosureProof, bind_ok, liftAudit_ok, okOrElse_ok, guard_ok, pure_ok, Prod.exists, not_not]
  constructor
  · rintro ⟨opening, leaf, hopen, event, hfind, inclusion, hinc, hleaf, hrange, proof, hproof, network, contractId, hchain, hr⟩
    exact ⟨opening, leaf, event, inclusion, proof, network, contractId, hopen, hfind, hinc, hleaf, hrange, hproof, hchain,
      hr.symm⟩
  · rintro ⟨opening, leaf, event, inclusion, proof, network, contractId, hopen, hfind, hinc, hleaf, hrange, hproof, hchain, hr⟩
    exact ⟨opening, leaf, hopen, event, hfind, inclusion, hinc, hleaf, hrange, proof, hproof, network, contractId, hchain,
      hr.symm⟩

theorem provePath_length (leaves zeroHashes : List Fr) : ∀ (levels level idx : Nat) (hash : Fr),
    (provePath P leaves zeroHashes levels level idx hash).1.length = levels ∧
    (provePath P leaves zeroHashes levels level idx hash).2.1.length = levels ∧
    ∀ d ∈ (provePath P leaves zeroHashes levels level idx hash).2.1, d = 0 ∨ d = 1
  | 0, _, _, _ => by simp [provePath]
  | levels + 1, level, idx, hash => by
    simp only [provePath, List.length_cons, List.forall_mem_cons]
    obtain ⟨h1, h2, h3⟩ := provePath_length leaves zeroHashes levels (level + 1) (idx / 2) _
    refine ⟨congrArg (· + 1) h1, congrArg (· + 1) h2, ?_, h3⟩
    split
    · exact .inl rfl
    · exact .inr rfl

/-- A recorded leaf has an inclusion proof with a path of full height, also above the capacity of the tree. -/
theorem proveInclusion_shape (hleaf : log.tree.leaves[i]? = some leaf) :
    ∃ p, AuditLog.proveInclusion P log i = .ok p ∧ p.leaf = leaf ∧
      p.pathElements.length = 20 ∧ p.pathIndices.length = 20 ∧ ∀ d ∈ p.pathIndices, d = 0 ∨ d = 1 := by
  obtain ⟨h1, h2, h3⟩ := provePath_length (P := P) log.tree.leaves (computeZeroHashes P 20) 20 0 i leaf
  generalize hpath : provePath P log.tree.leaves (computeZeroHashes P 20) 20 0 i leaf = path at h1 h2 h3
  obtain ⟨elements, indices, root⟩ := path
  refine ⟨⟨leaf, i, elements, indices, root⟩, ?_, rfl, h1, h2, h3⟩
  simp only [AuditLog.proveInclusion, AuditMerkleTree.proveInclusion, hleaf, hpath]

theorem Shows.opening (h : Shows P w ev) : ∃ opening leaf,
    disclosureOpening P w ev.index = .ok (opening, leaf) ∧ leaf = P.poseidon opening.toInputs ∧
    opening.opH = strToField P ev.operation ∧ opening.collH = strToField P ev.collection ∧ opening.ts = eventTs P ev ∧
    opening.ts.toNat < 2 ^ 63 ∧ w.log.tree.leaves[ev.index]? = some leaf := by
  obtain ⟨dir, text, hdir, htext, hfind⟩ := h.file
  obtain ⟨leaf, hchecked, htree⟩ := h.leaf
  obtain ⟨hrec, hhex⟩ := checkedLeaf_eq_some.1 hchecked
  obtain ⟨key, canonical, secs, hkey, hbase, htime, hleaf⟩ := (recomputeLeaf_v3 h.version).1 hrec
  have hts : eventTs P ev = clampSecs secs := by rw [eventTs, htime]
  refine ⟨leafOpening P key ev.operation ev.database ev.collection (clampSecs secs) canonical, leaf, ?_, hleaf, rfl, rfl,
    hts.symm, clampSecs_lt secs, htree⟩
  have hposeidon : P.poseidon (leafOpening P key ev.operation ev.database ev.collection (clampSecs secs) canonical).toInputs =
      leaf := hleaf.symm
  simp only [disclosureOpening, bind_ok, guard_ok, pure_ok, okOrElse_ok, decodeOr_ok]
  exact ⟨key, hkey, dir, hdir, text, htext, ev, hfind, not_not.2 h.version, canonical, hbase, secs, htime,
    by rw [hposeidon]; exact not_not.2 hhex, by rw [hposeidon]⟩

theorem generate_outside (env : ProofEnv) (h : Shows P w ev) (hi : args.index = ev.index) (hout : ¬ args.Contains (eventTs P ev)) :
    ∃ e, auditGenerateDisclosureProof P env w args = .error e := by
  obtain ⟨opening, leaf, hopen, _, _, _, hts, hlt, _⟩ := h.opening
  rw [← hts] at hout
  cases hr : auditGenerateDisclosureProof P env w args with
  | error e => exact ⟨e, rfl⟩
  | ok r =>
    obtain ⟨opening', leaf', event, _, _, _, _, hopen', _, _, _, hrange, _⟩ := generate_ok.1 hr
    rw [hi, hopen] at hopen'
    cases hopen'
    exact absurd ((inRange_iff hlt _ _).1 hrange) hout

theorem generate_inside (henv : env.Ready P) (h : Shows P w ev)
    (hi : args.index = ev.index) (hin : args.Contains (eventTs P ev)) :
    ∃ r, auditGenerateDisclosureProof P env w args = .ok r ∧
      r.claim = (disclosureStatement P args ev.operation ev.collection (eventTs P ev)).claim ∧
      r.claimText = claimText (disclosureStatement P args ev.operation ev.collection (eventTs P ev)) ev.operation
        ev.collection := by
  obtain ⟨opening, leaf, hopen, hleaf, hop, hcoll, hts, hlt, htree⟩ := h.opening
  obtain ⟨a, hfind, hopeq, hcolleq⟩ := h.visible
  obtain ⟨p, hp, hpleaf, hlen, hlen', hbits⟩ := proveInclusion_shape (P := P) htree
  obtain ⟨network, contractId, hchain⟩ := henv.chain
  rw [← hts] at hin ⊢
  have hrange := (inRange_iff (P := P) hlt ev.operation ev.collection).2 hin
  obtain ⟨hmin, hmax⟩ := not_or.1 hrange
  have hprovable : Provable P opening p (disclosureStatement P args ev.operation ev.collection opening.ts) :=
    ⟨hpleaf.trans hleaf, fun _ => hop.symm, fun _ => hcoll.symm,
      fun _ => ⟨UInt64.not_lt.1 hmin, UInt64.not_lt.1 hmax⟩, ⟨hlen, hlen'⟩, hbits⟩
  obtain ⟨proof, hproof⟩ := henv.complete _ _ _ hprovable
  refine ⟨_, generate_ok.2 ⟨opening, leaf, a, p, proof, network, contractId, hi ▸ hopen, hi ▸ hfind, hi ▸ hp, hpleaf, ?_, ?_,
    hchain, rfl⟩, ?_, ?_⟩
  · rw [hopeq, hcolleq]
    exact hrange
  · rw [hopeq, hcolleq]
    exact hproof
  · rw [hopeq, hcolleq]
  · rw [hopeq, hcolleq]

/-! ## The circuit -/

/-- The public signals of a statement, in circuit order: the root is computed from the path. -/
def circuitSignals (P : Prims) (inclusion : InclusionProof) (statement : DisclosureStatement) : Circuits.PublicSignals where
  root := Merkle.climb (poseidon2 P) inclusion.leaf (pathOf inclusion.pathElements inclusion.pathIndices)
  leaf := inclusion.leaf
  opPred := statement.opPred
  collPred := statement.collPred
  tsMin := frOfU64 statement.tsMin
  tsMax := frOfU64 statement.tsMax
  checkOp := frOfU64 statement.checkOp.toUInt64
  checkColl := frOfU64 statement.checkColl.toUInt64
  checkTs := frOfU64 statement.checkTs.toUInt64

theorem val_frOfU64 (x : UInt64) : (frOfU64 x).val = x.toNat := by
  have hbig : 2 ^ 64 < frModulus := by decide
  exact Nat.mod_eq_of_lt (Nat.lt_trans x.toNat_lt hbig)

theorem flag_bit (b : Bool) : frOfU64 b.toUInt64 = 0 ∨ frOfU64 b.toUInt64 = 1 := by
  cases b
  · exact .inl rfl
  · exact .inr rfl

theorem flag_one (h : frOfU64 b.toUInt64 = 1) : b = true := by
  cases b
  · exact absurd h (by decide)
  · rfl

theorem Provable.satisfiable (h : Provable P o inclusion statement) : ∃ v, Circuits.AuditedAction P 20 (circuitSignals P inclusion statement) v := by
  have hmin : (circuitSignals P inclusion statement).tsMin.val < 2 ^ 64 := by
    rw [circuitSignals, val_frOfU64]
    exact statement.tsMin.toNat_lt
  have hmax : (circuitSignals P inclusion statement).tsMax.val < 2 ^ 64 := by
    rw [circuitSignals, val_frOfU64]
    exact statement.tsMax.toNat_lt
  refine Circuits.exists_auditedAction hmin hmax ⟨flag_bit _, flag_bit _, flag_bit _⟩ ?_ (o := o) ?_
  · exact ⟨inclusion.pathElements, inclusion.pathIndices, 0, h.height.1, h.height.2,
      verify_iff.2 ⟨h.height.1.trans h.height.2.symm, h.bits, rfl⟩⟩
  · refine ⟨h.leaf.symm, fun hc => (h.operation (flag_one hc)).symm, fun hc => (h.collection (flag_one hc)).symm, fun hc => ?_⟩
    obtain ⟨h1, h2⟩ := h.timestamp (flag_one hc)
    simp only [circuitSignals, val_frOfU64]
    exact ⟨UInt64.le_iff_toNat_le.1 h1, UInt64.le_iff_toNat_le.1 h2⟩

/-- **What the command asks its prover for can be proved**: for a shown event within the given bounds, the signals have a
witness in the circuit, and their root is the root of the log. -/
theorem disclosure_satisfiable (h : Shows P w ev) (hi : ev.index < 2 ^ 20) (hin : args.Contains (eventTs P ev)) :
    ∃ inclusion signals, AuditLog.proveInclusion P w.log ev.index = .ok inclusion ∧ signals.root = w.log.tree.root P ∧
      signals = circuitSignals P inclusion (disclosureStatement P args ev.operation ev.collection (eventTs P ev)) ∧
      ∃ v, Circuits.AuditedAction P 20 signals v := by
  obtain ⟨opening, leaf, -, hleaf, hop, hcoll, hts, hlt, htree⟩ := h.opening
  obtain ⟨p, hp, hpleaf, -, hroot, hlen, hlen', hverify⟩ := proveInclusion_ok (P := P) htree hi
  obtain ⟨-, hbits, hclimb⟩ := verify_iff.1 hverify
  rw [← hts] at hin ⊢
  obtain ⟨hmin, hmax⟩ := not_or.1 ((inRange_iff (P := P) hlt ev.operation ev.collection).2 hin)
  have hprovable : Provable P opening p (disclosureStatement P args ev.operation ev.collection opening.ts) :=
    ⟨hpleaf.trans hleaf, fun _ => hop.symm, fun _ => hcoll.symm,
      fun _ => ⟨UInt64.not_lt.1 hmin, UInt64.not_lt.1 hmax⟩, ⟨hlen, hlen'⟩, hbits⟩
  exact ⟨p, _, by simp only [AuditLog.proveInclusion, hp], hclimb.trans hroot, rfl, hprovable.satisfiable⟩

/-! ## Recorded events are shown -/

theorem findPersisted_file (hl : P.LawfulLines) (hw : ∀ l ∈ ls, l.Written) (i : Nat) :
    findPersisted P (fileText P ls) i = (eventsOf ls).find? (·.index = i) := by
  have hkept : (ls.map (Line.text P)).filter (fun l => trim l ≠ []) = ls.map (Line.text P) := by
    rw [List.filter_eq_self]
    intro t ht
    obtain ⟨l, hl', rfl⟩ := List.mem_map.1 ht
    obtain ⟨_, htrim, hne⟩ := hl.plain (hw l hl')
    simpa [htrim] using hne
  have hevents : (ls.map (Line.text P)).filterMap P.eventFromStr = eventsOf ls := by
    rw [List.filterMap_map]
    refine List.filterMap_congr fun l hl' => ?_
    cases l with
    | event ev => exact hl.event ev
    | metadata m => exact hl.notEvent m (hw _ hl')
  rw [findPersisted, hl.lines_text hw, hkept, hevents]

theorem mem_countEvents : ∀ {evs : List PersistedEvent} {seqs : Finmap fun _ : Domain => Nat} {a : AuditEvent},
    a ∈ (countEvents evs seqs).1 → ∃ ev ∈ evs, a = ev.toAuditEvent a.sequence
  | [], _, a, h => by simp [countEvents] at h
  | ev :: evs, seqs, a, h => by
    rw [countEvents] at h
    rcases List.mem_cons.1 h with rfl | h
    · exact ⟨ev, by simp, rfl⟩
    · obtain ⟨ev', hev', ha⟩ := mem_countEvents h
      exact ⟨ev', List.mem_cons_of_mem ev hev', ha⟩

/-- **A visible v3 event of a log without failed writes is shown.** -/
theorem Restorable.shows (hl : P.LawfulLines) (h : Restorable P key dir w ls) (hev : (eventsOf ls)[i]? = some ev)
    (hv : ev.version = 3) (hvis : ∃ a ∈ w.log.events, a.index = i) : Shows P w ev := by
  have hindex : ∀ {j : Nat} {ev' : PersistedEvent}, (eventsOf ls)[j]? = some ev' → ev'.index = j := h.toFiled.index_eq
  have hi := hindex hev
  have honly : ∀ ev' ∈ eventsOf ls, ev'.index = i → ev' = ev := by
    intro ev' hmem hi'
    obtain ⟨j, hj⟩ := List.mem_iff_getElem?.1 hmem
    obtain rfl : j = i := (hindex hj).symm.trans hi'
    exact Option.some.inj (hj.symm.trans hev)
  have hchecked := ((chained_iff _ []).1 h.chained).1
  refine ⟨hv, ⟨dir, fileText P ls, h.persistence, readText_encoded h.file, ?_⟩, ?_, ?_⟩
  · rw [findPersisted_file hl h.written]
    obtain ⟨ev', hfind⟩ : ∃ ev', (eventsOf ls).find? (·.index = ev.index) = some ev' := by
      rw [← Option.isSome_iff_exists, List.find?_isSome]
      exact ⟨ev, List.mem_of_getElem? hev, by simp⟩
    rw [hfind, honly ev' (List.mem_of_find?_eq_some hfind) (by simpa [hi] using List.find?_some hfind)]
  · obtain ⟨a, ha, hai⟩ := hvis
    obtain ⟨a', hfind⟩ : ∃ a', w.log.events.find? (·.index = ev.index) = some a' := by
      rw [← Option.isSome_iff_exists, List.find?_isSome]
      exact ⟨a, ha, by simp [hai, hi]⟩
    have hmem : a' ∈ (countEvents (eventsOf ls) ∅).1 :=
      (mem_applyRetention.1 (h.events ▸ List.mem_of_find?_eq_some hfind)).1
    obtain ⟨ev', hev', ha'⟩ := mem_countEvents hmem
    have hai' : a'.index = i := by simpa [hi] using List.find?_some hfind
    obtain rfl : ev' = ev := honly ev' hev' (by rw [← hai', ha']; rfl)
    exact ⟨a', hfind, by rw [ha']; rfl, by rw [ha']; rfl⟩
  · obtain ⟨leaf, hleaf⟩ := Option.isSome_iff_exists.1 (hchecked ev (List.mem_of_getElem? hev))
    refine ⟨leaf, by rw [h.leafKey]; exact hleaf, ?_⟩
    rw [h.tree, hi]
    exact (getElem?_leavesOf hchecked i).trans (by rw [hev]; exact hleaf)

theorem Restorable.push_index (h : Restorable P key dir w ls) (e : Entry) : (w.log.push P e).2.index = (eventsOf ls).length := h.leafCount_eq

theorem Restorable.shows_record (hl : P.LawfulLines) (h : Restorable P key dir w ls) {call : RecordCall} {e : Entry} (he : call.entry P key = some e) (hon : e.Honest P key)
    (hv : e.version = 3) : Shows P (Mutation.exec (call.run P {}) w).2 (w.log.push P e).2 := by
  have hline : (eventsOf (ls ++ [Line.event (w.log.push P e).2]))[(eventsOf ls).length]? = some (w.log.push P e).2 := by
    simp [eventsOf_append]
  have hlog : (Mutation.exec (call.run P {}) w).2.log = (w.log.push P e).1 := by
    rw [exec_run, h.leafKey, he]
    exact log_recordInner {} e w
  refine Restorable.shows hl (h.record hl he hon) hline hv ?_
  rw [hlog]
  exact ⟨_, List.mem_append_right _ (List.mem_singleton_self _), Restorable.push_index h e⟩

/-! ## Two versions of an event -/

/-- Two statements of one request are equal when the operation, the collection and the day of a missing bound are. -/
theorem statement_iff :
    disclosureStatement P args op coll ts = disclosureStatement P args op' coll' ts' ↔
      strToField P op = strToField P op' ∧ strToField P coll = strToField P coll' ∧ args.SameDefaults ts ts' := by
  simp only [disclosureStatement, DisclosureStatement.mk.injEq, and_true, DisclosureArgs.SameDefaults]
  cases args.tsMin <;> cases args.tsMax <;> simp

theorem claim_injective : Function.Injective DisclosureStatement.claim := by
  rintro ⟨op, coll, tsMin, tsMax, c1, c2, c3⟩ ⟨op', coll', tsMin', tsMax', c1', c2', c3'⟩ h
  simp only [DisclosureStatement.claim, DisclosureClaim.mk.injEq] at h
  obtain ⟨h1, h2, h3⟩ := h
  obtain rfl := frToHex_injective h1
  obtain rfl := frToHex_injective h2
  simpa using h3

theorem claimText_congr (hop : s.checkOp = true → op = op')
    (hcoll : s.checkColl = true → coll = coll') : claimText s op coll = claimText s op' coll' := by
  have hclauses : claimClauses s op coll = claimClauses s op' coll' := by
    unfold claimClauses
    by_cases h1 : s.checkOp = true
    · by_cases h2 : s.checkColl = true
      · rw [hop h1, hcoll h2]
      · simp [h2, hop h1]
    · by_cases h2 : s.checkColl = true
      · simp [h1, hcoll h2]
      · simp [h1, h2]
  rw [claimText, claimText, hclauses]

/-- **Disclosure reveals what it publishes.** Of two logs that show two versions of an event, agreeing on the enabled
aspects, one request gives answers that agree exactly when the versions agree on everything published. -/
theorem disclosure_agrees_iff (P : Prims) (env : ProofEnv) (henv : env.Ready P) (args : DisclosureArgs) (w w' : World)
    (ev ev' : PersistedEvent) (hw : Shows P w ev) (hw' : Shows P w' ev') (hi : args.index = ev.index)
    (hi' : args.index = ev'.index) (hen : EnabledAgree P args ev ev') :
    Agree (auditGenerateDisclosureProof P env w args) (auditGenerateDisclosureProof P env w' args) ↔
      PublishedAgree P args ev ev' := by
  by_cases hin : args.Contains (eventTs P ev)
  · obtain ⟨r, hr, hclaim, htext⟩ := generate_inside henv hw hi hin
    by_cases hin' : args.Contains (eventTs P ev')
    · obtain ⟨r', hr', hclaim', htext'⟩ := generate_inside henv hw' hi' hin'
      rw [hr, hr']
      show r.claim = r'.claim ∧ r.claimText = r'.claimText ↔ _
      rw [hclaim, hclaim', htext, htext', claim_injective.eq_iff]
      constructor
      · rintro ⟨hst, _⟩
        exact ⟨iff_of_true hin hin', fun _ => statement_iff.1 hst⟩
      · rintro ⟨_, hpub⟩
        have hst := statement_iff.2 (hpub hin)
        exact ⟨hst, hst ▸ claimText_congr hen.operation hen.collection⟩
    · obtain ⟨e, he⟩ := generate_outside env hw' hi' hin'
      rw [hr, he]
      exact iff_of_false not_false fun hpub => hin' (hpub.1.1 hin)
  · obtain ⟨e, he⟩ := generate_outside env hw hi hin
    by_cases hin' : args.Contains (eventTs P ev')
    · obtain ⟨r', hr', _⟩ := generate_inside henv hw' hi' hin'
      rw [he, hr']
      exact iff_of_false not_false fun hpub => hin (hpub.1.2 hin')
    · obtain ⟨e', he'⟩ := generate_outside env hw' hi' hin'
      rw [he, he']
      exact iff_of_true trivial ⟨iff_of_false hin hin', fun h => absurd h hin⟩

/-! ### Two logs of one event -/

/-- A prover that hands back the root of the path. -/
def demoEnv : ProofEnv where
  prove := fun inclusion => .ok ⟨⟨"", "", ""⟩, inclusion.root, [inclusion.leaf]⟩
  proveDisclosure := fun _ inclusion _ => .ok ⟨⟨"", "", ""⟩, inclusion.root, [inclusion.leaf]⟩
  chainConfig := .ok ("testnet", "contract")

theorem demoEnv_ready : demoEnv.Ready demoPrims := ⟨⟨_, _, rfl⟩, fun _ _ _ _ => ⟨_, rfl⟩⟩

def demoLeafKey : Bytes32 := ⟨List.replicate 32 7, rfl⟩

/-- A new log with one keyed record. -/
@[irreducible] def v3World (op db : String) (doc : List UInt8) : World :=
  runFile demoPrims (some demoLeafKey) "data" [.record (.recordV3 ⟨0, 0⟩ "rs:rs0" op db "orders" doc)]

theorem exists_shown (hl : P.LawfulLines) (key : Bytes32) (dir : String) (now : Instant) (dep op db coll : String)
    (doc : List UInt8) : ∃ ev, Shows P (runFile P (some key) dir [.record (.recordV3 now dep op db coll doc)]) ev ∧
      ev.index = 0 ∧ ev.operation = op ∧ ev.collection = coll ∧ eventTs P ev = clampSecs now.secs := by
  have hopen := @restorable_open P (some key) dir
  have hentry : (RecordCall.recordV3 now dep op db coll doc).entry P (some key) =
      some (recordV3Entry P key now dep op db coll doc) := rfl
  have hshows := Restorable.shows_record hl hopen hentry
    (recordV3Entry_honest hl.toLawful key now dep op db coll doc) rfl
  refine ⟨_, hshows, Restorable.push_index hopen _, rfl, rfl, ?_⟩
  have htime : P.parseRfc3339 (P.toRfc3339 now) = .ok now.secs := hl.rfc3339 now
  simp only [eventTs, AuditLog.push, Entry.persisted, recordV3Entry, htime]

theorem v3World_shows (op db : String) (doc : List UInt8) : ∃ ev, Shows demoPrims (v3World op db doc) ev ∧
    0 = ev.index ∧ ev.operation = op ∧ ev.collection = "orders" ∧ eventTs demoPrims ev = clampSecs 0 := by
  obtain ⟨ev, hw, hi, hev⟩ := exists_shown (P := demoPrims) (textPrims_lawfulLines _ _ _) demoLeafKey "data" ⟨0, 0⟩ "rs:rs0"
    op db "orders" doc
  refine ⟨ev, ?_, hi.symm, hev⟩
  rw [v3World]
  exact hw

/-- The collection and the day are disclosed. -/
def demoArgs : DisclosureArgs := ⟨0, false, true, true, none, none⟩

theorem demoArgs_contains (ts : UInt64) : demoArgs.Contains ts := ⟨by simp [demoArgs], by simp [demoArgs]⟩

theorem v3World_satisfiable : ∃ ev inclusion signals,
    AuditLog.proveInclusion demoPrims (v3World "insert" "shop" [1]).log ev.index = .ok inclusion ∧
      signals = circuitSignals demoPrims inclusion
        (disclosureStatement demoPrims demoArgs ev.operation ev.collection (eventTs demoPrims ev)) ∧
      ∃ v, Circuits.AuditedAction demoPrims 20 signals v := by
  obtain ⟨ev, hw, hi, -⟩ := v3World_shows "insert" "shop" [1]
  obtain ⟨inclusion, signals, hproof, -, hsignals, hv⟩ := disclosure_satisfiable hw (by omega) (demoArgs_contains _)
  exact ⟨ev, inclusion, signals, hproof, hsignals, hv⟩

theorem demo_enabledAgree (hcoll : ev.collection = ev'.collection)
    (hts : eventTs P ev = eventTs P ev') : EnabledAgree P demoArgs ev ev' :=
  ⟨fun h => absurd h (by decide), fun _ => hcoll,
    fun _ => ⟨demoArgs_contains _, demoArgs_contains _, fun _ => by rw [hts]⟩⟩

/-- The document and the database stay private. -/
theorem database_not_disclosed : ∃ ev ev', Shows demoPrims (v3World "insert" "shop" [1]) ev ∧
    Shows demoPrims (v3World "insert" "bank" [2]) ev' ∧
    Agree (auditGenerateDisclosureProof demoPrims demoEnv (v3World "insert" "shop" [1]) demoArgs)
      (auditGenerateDisclosureProof demoPrims demoEnv (v3World "insert" "bank" [2]) demoArgs) := by
  obtain ⟨ev, hw, hi, hop, hcoll, hts⟩ := v3World_shows "insert" "shop" [1]
  obtain ⟨ev', hw', hi', hop', hcoll', hts'⟩ := v3World_shows "insert" "bank" [2]
  have hday : eventTs demoPrims ev = eventTs demoPrims ev' := hts.trans hts'.symm
  refine ⟨ev, ev', hw, hw', (disclosure_agrees_iff demoPrims demoEnv demoEnv_ready demoArgs _ _ ev ev' hw hw' hi hi'
    (demo_enabledAgree (hcoll.trans hcoll'.symm) hday)).2 ⟨by rw [hday], fun _ => ⟨?_, ?_, fun _ => by rw [hday]⟩⟩⟩
  · rw [hop, hop']
  · rw [hcoll, hcoll']

/-- The operation is not: with `check_op` off, the claims of an insert and of a delete differ. -/
theorem operation_disclosed : ∃ ev ev', Shows demoPrims (v3World "insert" "shop" [1]) ev ∧
    Shows demoPrims (v3World "delete" "shop" [1]) ev' ∧ EnabledAgree demoPrims demoArgs ev ev' ∧
    ¬ Agree (auditGenerateDisclosureProof demoPrims demoEnv (v3World "insert" "shop" [1]) demoArgs)
      (auditGenerateDisclosureProof demoPrims demoEnv (v3World "delete" "shop" [1]) demoArgs) := by
  obtain ⟨ev, hw, hi, hop, hcoll, hts⟩ := v3World_shows "insert" "shop" [1]
  obtain ⟨ev', hw', hi', hop', hcoll', hts'⟩ := v3World_shows "delete" "shop" [1]
  refine ⟨ev, ev', hw, hw', demo_enabledAgree (hcoll.trans hcoll'.symm) (hts.trans hts'.symm), ?_⟩
  have hi0 : demoArgs.index = ev.index := hi
  have hi0' : demoArgs.index = ev'.index := hi'
  obtain ⟨r, hr, hclaim, _⟩ := generate_inside demoEnv_ready hw hi0 (demoArgs_contains _)
  obtain ⟨r', hr', hclaim', _⟩ := generate_inside demoEnv_ready hw' hi0' (demoArgs_contains _)
  rw [hr, hr']
  rintro ⟨hsame, _⟩
  rw [hclaim, hclaim'] at hsame
  have hfield := (statement_iff.1 (claim_injective hsame)).1
  rw [hop, hop'] at hfield
  exact absurd hfield (by decide)

end

end Desktop
