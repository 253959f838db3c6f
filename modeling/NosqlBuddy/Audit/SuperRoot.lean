import NosqlBuddy.Audit.Retention

/-!
# What the super-root commits to

The README promises for pruning that "the pruned domain still participates in the super-root via its
retained root". `domain_root` (mod.rs:1316) takes the active events of the domain and turns to the last
retained root only when there are none, so the super-root commits to one segment of each domain: the events
since the last prune that took any, or else the events that this prune took.

`Shelved` is the simulation: the log of a run is the log in segments of its steps. `super_root_differs_iff`
compares two runs with the same steps whose record calls differ.
-/

namespace Audit
open Mutation Text Merkle Segments

/-! ## Runs as logs in segments -/

section
variable (P : Prims) (key : Option Bytes32)

/-- The leaf that the step records. -/
def FileStep.leaf : FileStep → Fr
  | .record call => ((call.entry P key).map (·.leaf)).getD 0
  | _ => 0

/-- The step for the domains, with `a` in the place of a recorded leaf. -/
def FileStep.op {α : Type} (a : α) : FileStep → Op Domain α
  | .record call =>
    match call.entry P key with
    | some e => .add e.domain a
    | none => .idle
  | .setLegalHold dep db hold => .hold (dep, db) hold
  | .pruneDomain _ dep db => .cut (dep, db)
  | .clear => .reset
  | .restart => .idle

/-- The log in segments of the leaves that the steps record. -/
def shelves (steps : List FileStep) : State Domain Fr := run (steps.map fun s => s.op P key (s.leaf P key))

/-- Active leaves, retained roots and holds of the log. -/
structure Shelved (log : AuditLog) (s : State Domain Fr) : Prop where
  active : ∀ d, (log.events.filter (·.domain = d)).map (·.leafHex) = (s.active d).map frToHex
  closed : ∀ d, ((log.retainedDomainRoots.lookup d).getD []).map (·.rootHex) = (s.closed d).map (rootHex P)
  nonempty : ∀ d, log.retainedDomainRoots.lookup d ≠ some []
  held : log.legalHolds = s.held

end

variable {log : AuditLog} {s : State Domain Fr} {d : Domain}

section
variable {P : Prims} {key : Option Bytes32} {dir : String}

theorem shelved_open : Shelved P (openNew P key dir).log .empty := by
  have hopen : openNew P key dir = ((World.start key emptyDisk).opening {} dir).opened dir := by
    rw [openNew, exec_open_new rfl]
  rw [hopen]
  exact ⟨fun d => rfl, fun d => by simp [World.opened, World.opening, AuditLog.opening, World.start, AuditLog.new, State.empty],
    fun d => by simp [World.opened, World.opening, AuditLog.opening, World.start, AuditLog.new], rfl⟩

theorem Shelved.congr (h : Shelved P log s) (hevents : log'.events = log.events)
    (hretained : log'.retainedDomainRoots = log.retainedDomainRoots) (hheld : log'.legalHolds = log.legalHolds) :
    Shelved P log' s :=
  ⟨by rw [hevents]; exact h.active, by rw [hretained]; exact h.closed, by rw [hretained]; exact h.nonempty,
    hheld.trans h.held⟩

theorem Shelved.push (h : Shelved P log s) (e : Entry) :
    Shelved P (log.push P e).1 (step s (.add e.domain e.leaf)) := by
  refine ⟨fun d => ?_, h.closed, h.nonempty, h.held⟩
  have hevents : (log.push P e).1.events = log.events ++ [(log.push P e).2.toAuditEvent (nextSequence log.sequences e.domain).1] :=
    rfl
  have hdom : ((log.push P e).2.toAuditEvent (nextSequence log.sequences e.domain).1).domain = e.domain := rfl
  rw [hevents, List.filter_append, List.map_append, h.active d]
  by_cases hd : d = e.domain
  · subst hd
    simp [step, hdom]
    rfl
  · simp [step, hdom, hd, Ne.symm hd]

theorem Shelved.pruned (h : Shelved P log s) (hcut : s.Cuts d)
    (now : Instant) (maxIndex : Nat) :
    Shelved P (log.pruned d (retainedRoot P now (s.active d) maxIndex)) (step s (.cut d)) := by
  rw [step, if_pos hcut]
  refine ⟨fun d' => ?_, fun d' => ?_, fun d' => ?_, h.held⟩
  · by_cases hd : d' = d
    · subst hd
      simp [AuditLog.pruned, List.filter_filter]
    · have hkeep : ∀ ev : AuditEvent, (decide (ev.domain = d') && !decide (ev.domain = d)) = decide (ev.domain = d') := by
        intro ev
        by_cases hev : ev.domain = d'
        · simp [hev, hd]
        · simp [hev]
      simpa [AuditLog.pruned, List.filter_filter, hkeep, hd] using h.active d'
  · by_cases hd : d' = d
    · subst hd
      simp [AuditLog.pruned, h.closed, retainedRoot]
    · simpa [AuditLog.pruned, hd, Finmap.lookup_insert_of_ne _ hd] using h.closed d'
  · by_cases hd : d' = d
    · subst hd
      simp [AuditLog.pruned]
    · simpa [AuditLog.pruned, Finmap.lookup_insert_of_ne _ hd] using h.nonempty d'

theorem Shelved.scan (h : Shelved P log s) (d : Domain) :
    pruneScan d log.events [] none = .ok (s.active d, maxIndexOf (log.events.filter (·.domain = d)) none) :=
  pruneScan_ok [] none (h.active d)

theorem Shelved.filter_eq_nil (h : Shelved P log s) (d : Domain) :
    log.events.filter (·.domain = d) = [] ↔ s.active d = [] := by
  have hlen := congrArg List.length (h.active d)
  simp only [List.length_map] at hlen
  rw [← List.length_eq_zero_iff, hlen, List.length_eq_zero_iff]

theorem shelved_step (hl : P.LawfulLines) (h : Restorable P key dir w ls)
    (hs : Shelved P w.log s) (hon : st.Honest P key) :
    ∃ ls', Restorable P key dir (stepFile P key dir w st) ls' ∧
      Shelved P (stepFile P key dir w st).log (step s (st.op P key (st.leaf P key))) := by
  cases st with
  | record call =>
    simp only [stepFile, FileStep.op, FileStep.leaf]
    cases he : call.entry P key with
    | none =>
      rw [exec_run, h.leafKey, he]
      exact ⟨ls, h, hs⟩
    | some e =>
      refine ⟨_, h.record hl he (hon e he), ?_⟩
      have hlog : (exec (call.run P {}) w).2.log = (w.log.push P e).1 := by
        rw [exec_run, h.leafKey, he]
        exact log_recordInner {} e w
      rw [hlog]
      exact hs.push e
  | setLegalHold dep db hold =>
    refine ⟨_, h.setLegalHold hl dep db hold, ?_⟩
    rw [stepFile, h.log_setLegalHold]
    exact ⟨hs.active, hs.closed, hs.nonempty, by simp only [FileStep.op, step, hs.held]⟩
  | pruneDomain now dep db =>
    simp only [stepFile, FileStep.op]
    have hscan := hs.scan (dep, db)
    by_cases hcut : s.Cuts (dep, db)
    · cases hmax : maxIndexOf (w.log.events.filter (·.domain = (dep, db))) none with
      | none => exact absurd ((hs.filter_eq_nil _).1 (maxIndexOf_eq_none.1 hmax)) hcut.2
      | some maxIndex =>
        rw [hmax] at hscan
        rw [exec_pruneDomain_taken h.persistence (by rw [hs.held]; exact hcut.1) hscan now]
        exact ⟨_, h.pruneDomain hl hmax now, hs.pruned hcut now maxIndex⟩
    · have hidle : (exec (pruneDomain P {} now dep db) w).2 = w := by
        by_cases hheld : (dep, db) ∈ w.log.legalHolds
        · exact exec_pruneDomain_held hheld now
        · have hactive : s.active (dep, db) = [] := by
            by_contra hne
            exact hcut ⟨by rwa [← hs.held], hne⟩
          rw [maxIndexOf_eq_none.2 ((hs.filter_eq_nil _).2 hactive)] at hscan
          exact exec_pruneDomain_idle hscan now
      rw [hidle, step, if_neg hcut]
      exact ⟨ls, h, hs⟩
  | clear =>
    refine ⟨_, h.clear, ?_⟩
    rw [stepFile, h.log_clear]
    exact ⟨fun d => rfl, fun d => by simp [FileStep.op, step, State.empty], fun d => by simp, rfl⟩
  | restart =>
    obtain ⟨hr, hevents, hretained, hheld⟩ := h.restart hl
    exact ⟨ls, hr, hs.congr hevents hretained hheld⟩

/-- **Simulation.** The log of a run is the log in segments of its steps, restarts included. -/
theorem shelved_run (hl : P.LawfulLines) (steps : List FileStep) (hon : ∀ s ∈ steps, s.Honest P key) :
    ∃ ls, Restorable P key dir (runFile P key dir steps) ls ∧
      Shelved P (runFile P key dir steps).log (shelves P key steps) := by
  induction steps using List.reverseRecOn with
  | nil => exact ⟨[], restorable_open, shelved_open⟩
  | append_singleton steps st ih =>
    obtain ⟨ls, h, hs⟩ := ih fun t ht => hon t (List.mem_append_left _ ht)
    rw [runFile, shelves, run, List.map_append, List.map_singleton, Runs.run_snoc, Runs.run_snoc]
    exact shelved_step hl h hs (hon st (by simp))

/-! ## The roots of a log in segments -/

theorem domainLeaves_ok : ∀ {events : List AuditEvent} {leaves : List Fr},
    (events.filter (·.domain = (dep, db))).map (·.leafHex) = leaves.map frToHex → domainLeaves dep db events = .ok leaves
  | [], leaves, h => by
    obtain rfl : leaves = [] := by simpa using h.symm
    rfl
  | ev :: events, leaves, h => by
    have hd : (ev.deploymentId = dep ∧ ev.database = db) ↔ ev.domain = (dep, db) := by
      rw [AuditEvent.domain, Prod.mk.injEq]
    by_cases hev : ev.domain = (dep, db)
    · cases leaves with
      | nil => simp [hev] at h
      | cons leaf leaves =>
        simp only [hev, List.filter_cons_of_pos, decide_true, List.map_cons, List.cons.injEq] at h
        rw [domainLeaves, if_pos (hd.2 hev), h.1, hexToFr_frToHex, domainLeaves_ok h.2]
        rfl
    · rw [domainLeaves, if_neg (mt hd.1 hev)]
      simp only [hev, decide_false, Bool.false_eq_true, not_false_eq_true, List.filter_cons_of_neg] at h
      exact domainLeaves_ok h

theorem Shelved.domainRoot (h : Shelved P log s) (d : Domain) :
    ∃ n, log.domainRoot P d.1 d.2 = .ok (rootHex P (s.shown d), n) := by
  have hleaves : domainLeaves d.1 d.2 log.events = .ok (s.active d) := domainLeaves_ok (h.active d)
  have hlast : ((log.retainedDomainRoots.lookup d).bind (·.getLast?)).map (·.rootHex) =
      (s.closed d).getLast?.map (rootHex P) := by
    rw [← List.getLast?_map, ← h.closed d, List.getLast?_map]
    cases log.retainedDomainRoots.lookup d <;> rfl
  unfold AuditLog.domainRoot
  rw [hleaves]
  simp only [State.shown]
  cases hr : (log.retainedDomainRoots.lookup d).bind (·.getLast?) with
  | none =>
    rw [hr] at hlast
    have hclosed : (s.closed d).getLast? = none := by simpa using hlast.symm
    cases hactive : s.active d with
    | nil => exact ⟨_, by rw [hclosed]; rfl⟩
    | cons leaf leaves => exact ⟨_, rfl⟩
  | some r =>
    rw [hr] at hlast
    obtain ⟨seg, hseg, hroot⟩ := Option.map_eq_some_iff.1 hlast.symm
    cases hactive : s.active d with
    | nil => exact ⟨_, by rw [hseg, Option.getD_some, hroot]; rfl⟩
    | cons leaf leaves => exact ⟨_, rfl⟩

theorem Shelved.listDomains (h : Shelved P log s) (hk : s.Keyed) :
    log.listDomains = s.keys.sort domainLe := by
  unfold AuditLog.listDomains
  congr 1
  ext d
  have hactive : d ∈ log.events.map AuditEvent.domain ↔ s.active d ≠ [] := by
    rw [Ne, ← h.filter_eq_nil d]
    simp [List.filter_eq_nil_iff]
  have hclosed : d ∈ log.retainedDomainRoots.keys ↔ s.closed d ≠ [] := by
    have hmap := h.closed d
    have hne := h.nonempty d
    rw [Finmap.mem_keys, ← Finmap.lookup_isSome]
    cases hroots : log.retainedDomainRoots.lookup d with
    | none =>
      rw [hroots] at hmap
      simpa using hmap.symm
    | some roots =>
      rw [hroots] at hmap hne
      have hlen := congrArg List.length hmap
      simp only [Option.getD_some, List.length_map] at hlen
      have hpos : roots ≠ [] := fun hnil => hne (by rw [hnil])
      simp only [Option.isSome_some, true_iff]
      intro hnil
      rw [hnil, List.length_nil] at hlen
      exact hpos (List.length_eq_zero_iff.1 hlen)
  rw [Finset.mem_union, List.mem_toFinset, hactive, hclosed, (hk d).1]

end

section
variable (P : Prims)

/-- The leaves of the super-tree. -/
def superLeaves (s : State Domain Fr) : List Fr :=
  (s.keys.sort domainLe).map fun d => superLeaf P d.1 d.2 (rootHex P (s.shown d))

/-- The texts that these leaves are the hashes of. -/
def superPayloads (s : State Domain Fr) : List String :=
  (s.keys.sort domainLe).map fun d => superPayload d.1 d.2 (rootHex P (s.shown d))

/-- No two different inputs of the hash calls for two super-roots collide: those of the super-trees, of the
payloads below them, and of the trees of each domain. -/
structure NoCollisions (s s' : State Domain Fr) : Prop where
  super : CollisionFree (fun p : Fr × Fr => poseidon2 P p.1 p.2)
    ((⟨superLeaves P s⟩ : AuditMerkleTree 20).hashedPairs P ++ (⟨superLeaves P s'⟩ : AuditMerkleTree 20).hashedPairs P)
  payloads : CollisionFree (leafFromPayload P "domain_root" "" "") (superPayloads P s ++ superPayloads P s')
  domains : ∀ d ∈ s.keys, CollisionFree (fun p : Fr × Fr => poseidon2 P p.1 p.2)
    ((⟨s.shown d⟩ : AuditMerkleTree 20).hashedPairs P ++ (⟨s'.shown d⟩ : AuditMerkleTree 20).hashedPairs P)

end

section
variable {P : Prims} {key : Option Bytes32} {dir : String}

theorem Shelved.domainSuperRoot (h : Shelved P log s) (hk : s.Keyed) :
    ∃ entries, log.domainSuperRoot P = .ok (rootHex P (superLeaves P s), entries) := by
  unfold AuditLog.domainSuperRoot
  rw [h.listDomains hk, Fallible.mapM_ok (g := fun d => (d.1, d.2, rootHex P (s.shown d))) (fun d _ => ?_)]
  have hleaves : ((s.keys.sort domainLe).map fun d => (d.1, d.2, rootHex P (s.shown d))).map
      (fun e => superLeaf P e.1 e.2.1 e.2.2) = superLeaves P s := by
    rw [superLeaves, List.map_map]
    rfl
  · rw [← hleaves]
    exact ⟨_, rfl⟩
  · obtain ⟨n, hn⟩ := h.domainRoot d
    rw [hn]
    rfl

theorem rootHex_congr (h : xs.take (2 ^ 20) = ys.take (2 ^ 20)) : rootHex P xs = rootHex P ys := by
  refine congrArg frToHex (root_congr fun j hj => ?_)
  have hj' := congrArg (fun zs => zs[j]?) h
  simp only [List.getElem?_take, hj, if_true] at hj'
  simp only [List.getD, hj']

theorem take_eq_of_rootHex_eq (hfree : CollisionFree (fun p : Fr × Fr => poseidon2 P p.1 p.2)
      ((⟨xs⟩ : AuditMerkleTree 20).hashedPairs P ++ (⟨ys⟩ : AuditMerkleTree 20).hashedPairs P))
    (hlen : xs.length = ys.length) (h : rootHex P xs = rootHex P ys) : xs.take (2 ^ 20) = ys.take (2 ^ 20) := by
  have hget := getD_eq_of_root_eq hfree (frToHex_injective h)
  refine List.ext_getElem (by simp [hlen]) fun j hj hj' => ?_
  rw [List.length_take] at hj hj'
  have := hget j (by omega)
  simp only [List.getD, List.getElem?_eq_getElem (show j < xs.length by omega),
    List.getElem?_eq_getElem (show j < ys.length by omega), Option.getD_some] at this
  simpa using this

theorem superRoot_congr {s : State Domain Nat} {f g : Nat → Fr} (h : ∀ d ∈ (s.keys.sort domainLe).take (2 ^ 20),
      ∀ i ∈ (s.shown d).take (2 ^ 20), f i = g i) :
    rootHex P (superLeaves P (s.map f)) = rootHex P (superLeaves P (s.map g)) := by
  refine rootHex_congr ?_
  have hkeys : ∀ f : Nat → Fr, (s.map f).keys = s.keys := fun _ => rfl
  rw [superLeaves, superLeaves, hkeys, hkeys, ← List.map_take, ← List.map_take]
  refine List.map_congr_left fun d hd => ?_
  have hroot : rootHex P ((s.map f).shown d) = rootHex P ((s.map g).shown d) := by
    refine rootHex_congr ?_
    rw [shown_map, shown_map, ← List.map_take, ← List.map_take]
    exact List.map_congr_left (h d hd)
  rw [hroot]

theorem superPayload_inj (h : superPayload dep db root = superPayload dep db root') :
    root = root' := by
  have htext : root.toList = root'.toList := by
    have hlist := congrArg String.toList h
    simp only [superPayload, String.toList_append] at hlist
    exact List.append_cancel_left hlist
  exact String.toList_inj.1 htext

theorem agree_of_superRoot_eq {s : State Domain Nat} {f g : Nat → Fr} (hfree : NoCollisions P (s.map f) (s.map g))
    (h : rootHex P (superLeaves P (s.map f)) = rootHex P (superLeaves P (s.map g))) (hd : d ∈ (s.keys.sort domainLe).take (2 ^ 20)) {i : Nat} (hi : i ∈ (s.shown d).take (2 ^ 20)) : f i = g i := by
  have hkeys : ∀ f : Nat → Fr, (s.map f).keys = s.keys := fun _ => rfl
  have hmem := List.mem_of_mem_take hd
  have hleaf := take_eq_of_rootHex_eq hfree.super (by simp [superLeaves, hkeys]) h
  rw [superLeaves, superLeaves, hkeys, hkeys, ← List.map_take, ← List.map_take] at hleaf
  have hpayload := hfree.payloads _ (List.mem_append_left _ (List.mem_map_of_mem hmem)) _
    (List.mem_append_right _ (List.mem_map_of_mem hmem)) (List.map_inj_left.1 hleaf d hd)
  have hshown := take_eq_of_rootHex_eq (hfree.domains d ((Finset.mem_sort _).1 hmem)) (by simp [shown_map])
    (superPayload_inj hpayload)
  rw [shown_map, shown_map, ← List.map_take, ← List.map_take] at hshown
  exact List.map_inj_left.1 hshown i hi

/-! ## Two runs -/

end

section
variable (P : Prims) (key : Option Bytes32)

/-- The steps are the same but for what a record call says about one domain, and for the time of a prune. -/
inductive SameBut : FileStep → FileStep → Prop where
  | same (s : FileStep) : SameBut s s
  | record {call call' : RecordCall} {e e' : Entry} (he : call.entry P key = some e) (he' : call'.entry P key = some e')
      (hd : e.domain = e'.domain) : SameBut (.record call) (.record call')
  | pruneDomain (now now' : Instant) (dep db : String) : SameBut (.pruneDomain now dep db) (.pruneDomain now' dep db)

/-- The leaf that step `i` records. -/
def leafAt (steps : List FileStep) (i : Nat) : Fr := ((steps[i]?).map (FileStep.leaf P key)).getD 0

/-- The log in segments of the numbers of the steps that record. -/
def numbered (steps : List FileStep) : State Domain Nat := run (steps.zipIdx.map fun si => si.1.op P key si.2)

/-- Step `i` recorded an event that its domain still shows: it came after the last prune that took events of
the domain, or that prune took it and none came after. Trees hold `2 ^ 20` leaves. -/
def Committed (steps : List FileStep) (i : Nat) : Prop :=
  ∃ d ∈ ((numbered P key steps).keys.sort domainLe).take (2 ^ 20), i ∈ ((numbered P key steps).shown d).take (2 ^ 20)

end

section
variable {P : Prims} {key : Option Bytes32} {dir : String}

theorem op_map {α β : Type} (f : α → β) (a : α) (s : FileStep) : (s.op P key a).map f = s.op P key (f a) := by
  cases s with
  | record call =>
    simp only [FileStep.op]
    cases call.entry P key <;> rfl
  | _ => rfl

theorem shelves_eq_map (steps : List FileStep) :
    shelves P key steps = (numbered P key steps).map (leafAt P key steps) := by
  have hleaf : ∀ si ∈ steps.zipIdx, leafAt P key steps si.2 = si.1.leaf P key := by
    intro si hsi
    rw [leafAt, List.mem_zipIdx_iff_getElem?.1 hsi]
    rfl
  rw [shelves, numbered, ← run_map, List.map_map]
  refine congrArg run ?_
  rw [← List.zipIdx_map_fst 0 steps, List.map_map, List.zipIdx_map_fst]
  refine List.map_congr_left fun si hsi => ?_
  simp [op_map, hleaf si hsi]

theorem SameBut.op_eq {s s' : FileStep} (h : SameBut P key s s') {α : Type} (a : α) : s.op P key a = s'.op P key a := by
  cases h with
  | same => rfl
  | record he he' hd => simp only [FileStep.op, he, he', hd]
  | pruneDomain => rfl

theorem numbered_congr {steps steps' : List FileStep} (h : List.Forall₂ (SameBut P key) steps steps') :
    numbered P key steps = numbered P key steps' := by
  have hmap : ∀ n, (steps.zipIdx n).map (fun si => si.1.op P key si.2) = (steps'.zipIdx n).map fun si => si.1.op P key si.2 := by
    induction h with
    | nil => exact fun n => rfl
    | cons hs _ ih =>
      intro n
      rw [List.zipIdx_cons, List.zipIdx_cons, List.map_cons, List.map_cons, hs.op_eq, ih]
  exact congrArg run (hmap 0)

/-- **What the super-root commits to.** Two runs of the same steps that record different events end with
different super-roots exactly when the leaves of a committed event differ. -/
theorem super_root_differs_iff (hl : P.LawfulLines) {steps steps' : List FileStep} (hon : ∀ s ∈ steps, s.Honest P key)
    (hon' : ∀ s ∈ steps', s.Honest P key) (hsame : List.Forall₂ (SameBut P key) steps steps')
    (hfree : NoCollisions P (shelves P key steps) (shelves P key steps')) :
    ∃ root root' entries entries', (runFile P key dir steps).log.domainSuperRoot P = .ok (root, entries) ∧
      (runFile P key dir steps').log.domainSuperRoot P = .ok (root', entries') ∧
      (root ≠ root' ↔ ∃ i, Committed P key steps i ∧ leafAt P key steps i ≠ leafAt P key steps' i) := by
  obtain ⟨_, _, hs⟩ := @shelved_run P key dir hl steps hon
  obtain ⟨_, _, hs'⟩ := @shelved_run P key dir hl steps' hon'
  obtain ⟨entries, hroot⟩ := hs.domainSuperRoot (keyed_run _)
  obtain ⟨entries', hroot'⟩ := hs'.domainSuperRoot (keyed_run _)
  refine ⟨_, _, entries, entries', hroot, hroot', ?_⟩
  rw [shelves_eq_map, shelves_eq_map, ← numbered_congr hsame] at hfree ⊢
  constructor
  · intro hne
    by_contra hall
    push Not at hall
    exact hne (superRoot_congr fun d hd i hi => hall i ⟨d, hd, hi⟩)
  · rintro ⟨i, ⟨d, hd, hi⟩, hne⟩ heq
    exact hne (agree_of_superRoot_eq hfree heq hd hi)

/-! ### A prune and a new event -/

/-- An insert, and, when `cut`, the prune of its database and another insert. -/
def insertRun (payload : String) (cut : Bool) : List FileStep :=
  .record (demoInsert payload) ::
    if cut then [.pruneDomain ⟨0, 0⟩ "rs:rs0" "shop", .record (demoInsert "insert|shop|orders|3")] else []

theorem insertRun_honest (payload : String) (cut : Bool) : ∀ s ∈ insertRun payload cut, s.Honest demoPrims none := by
  have hinsert : ∀ payload, (FileStep.record (demoInsert payload)).Honest demoPrims none := by
    intro payload e he
    obtain rfl := Option.some.inj ((demoInsert_entry payload).symm.trans he)
    exact demoEntry_honest payload
  intro s hs
  rcases List.mem_cons.1 hs with rfl | hs
  · exact hinsert payload
  · cases cut with
    | false => cases hs
    | true =>
      simp only [if_true, List.mem_cons, List.not_mem_nil, or_false] at hs
      rcases hs with rfl | rfl
      · trivial
      · exact hinsert _

theorem insertRun_same (payload payload' : String) (cut : Bool) :
    List.Forall₂ (SameBut demoPrims none) (insertRun payload cut) (insertRun payload' cut) := by
  refine .cons (.record (demoInsert_entry payload) (demoInsert_entry payload') rfl) ?_
  exact List.forall₂_same.2 fun s _ => .same s

theorem numbered_insertRun (payload : String) (cut : Bool) :
    (numbered demoPrims none (insertRun payload cut)).keys = {("rs:rs0", "shop")} ∧
      (numbered demoPrims none (insertRun payload cut)).shown ("rs:rs0", "shop") = [if cut then 2 else 0] := by
  cases cut with
  | false => exact ⟨rfl, rfl⟩
  | true => exact ⟨rfl, rfl⟩

theorem superLeaves_singleton (hk : s.keys = {d}) :
    superLeaves P s = [superLeaf P d.1 d.2 (rootHex P (s.shown d))] ∧
      superPayloads P s = [superPayload d.1 d.2 (rootHex P (s.shown d))] := by
  simp [superLeaves, superPayloads, hk]

/-- The payload of the event that the domain shows. -/
def shownPayload (payload : String) (cut : Bool) : String := if cut then "insert|shop|orders|3" else payload

theorem shelves_insertRun (payload : String) (cut : Bool) :
    (shelves demoPrims none (insertRun payload cut)).keys = {("rs:rs0", "shop")} ∧
      (shelves demoPrims none (insertRun payload cut)).shown ("rs:rs0", "shop") =
        [(demoEntry (shownPayload payload cut)).leaf] := by
  obtain ⟨hkeys, hshown⟩ := numbered_insertRun payload cut
  rw [shelves_eq_map]
  refine ⟨hkeys, ?_⟩
  rw [shown_map, hshown]
  cases cut <;> rfl

theorem insertRun_noCollisions (cut : Bool) :
    NoCollisions demoPrims (shelves demoPrims none (insertRun "insert|shop|orders|1" cut))
      (shelves demoPrims none (insertRun "insert|shop|orders|2" cut)) := by
  obtain ⟨hkeys, hshown⟩ := shelves_insertRun "insert|shop|orders|1" cut
  obtain ⟨hkeys', hshown'⟩ := shelves_insertRun "insert|shop|orders|2" cut
  obtain ⟨hleaves, hpayloads⟩ := superLeaves_singleton (P := demoPrims) hkeys
  obtain ⟨hleaves', hpayloads'⟩ := superLeaves_singleton (P := demoPrims) hkeys'
  rw [hshown] at hleaves hpayloads
  rw [hshown'] at hleaves' hpayloads'
  refine ⟨?_, ?_, ?_⟩
  · rw [hleaves, hleaves']
    cases cut <;> decide +kernel
  · rw [hpayloads, hpayloads']
    cases cut <;> decide +kernel
  · intro d hd
    rw [hkeys, Finset.mem_singleton] at hd
    rw [hd, hshown, hshown']
    cases cut <;> decide +kernel

/-- Two runs of one insert each. -/
theorem inserts_committed : ∃ root root' entries entries',
    (runFile demoPrims none "data" (insertRun "insert|shop|orders|1" false)).log.domainSuperRoot demoPrims = .ok (root, entries) ∧
    (runFile demoPrims none "data" (insertRun "insert|shop|orders|2" false)).log.domainSuperRoot demoPrims =
      .ok (root', entries') ∧ root ≠ root' := by
  obtain ⟨root, root', entries, entries', h, h', hiff⟩ := @super_root_differs_iff demoPrims none "data"
    (textPrims_lawfulLines _ _ _) _ _ (insertRun_honest "insert|shop|orders|1" false)
    (insertRun_honest "insert|shop|orders|2" false) (insertRun_same _ _ _) (insertRun_noCollisions false)
  obtain ⟨hkeys, hshown⟩ := numbered_insertRun "insert|shop|orders|1" false
  refine ⟨root, root', entries, entries', h, h', hiff.2 ⟨0, ⟨("rs:rs0", "shop"), ?_, ?_⟩, by decide +kernel⟩⟩
  · rw [hkeys]
    simp
  · rw [hshown]
    simp

/-- After the prune and a new event the pruned event is in no root any more. -/
theorem pruned_event_lost : ∃ steps steps', List.Forall₂ (SameBut demoPrims none) steps steps' ∧
    (∀ s ∈ steps ++ steps', s.Honest demoPrims none) ∧
    NoCollisions demoPrims (shelves demoPrims none steps) (shelves demoPrims none steps') ∧
    leafAt demoPrims none steps 0 ≠ leafAt demoPrims none steps' 0 ∧
    ∃ root entries entries', (runFile demoPrims none "data" steps).log.domainSuperRoot demoPrims = .ok (root, entries) ∧
      (runFile demoPrims none "data" steps').log.domainSuperRoot demoPrims = .ok (root, entries') := by
  have hsame := insertRun_same "insert|shop|orders|1" "insert|shop|orders|2" true
  have hon := insertRun_honest "insert|shop|orders|1" true
  have hon' := insertRun_honest "insert|shop|orders|2" true
  refine ⟨_, _, hsame, ?_, insertRun_noCollisions true, by decide +kernel, ?_⟩
  · intro s hs
    exact (List.mem_append.1 hs).elim (hon s) (hon' s)
  · obtain ⟨_, _, hs⟩ := @shelved_run demoPrims none "data" (textPrims_lawfulLines _ _ _) _ hon
    obtain ⟨_, _, hs'⟩ := @shelved_run demoPrims none "data" (textPrims_lawfulLines _ _ _) _ hon'
    obtain ⟨entries, hroot⟩ := hs.domainSuperRoot (keyed_run _)
    obtain ⟨entries', hroot'⟩ := hs'.domainSuperRoot (keyed_run _)
    obtain ⟨hkeys, hshown⟩ := numbered_insertRun "insert|shop|orders|1" true
    -- the domain shows step 2, which is the same in both runs
    have heq : rootHex demoPrims (superLeaves demoPrims (shelves demoPrims none (insertRun "insert|shop|orders|1" true))) =
        rootHex demoPrims (superLeaves demoPrims (shelves demoPrims none (insertRun "insert|shop|orders|2" true))) := by
      rw [shelves_eq_map, shelves_eq_map, ← numbered_congr hsame]
      refine superRoot_congr fun d hd i hi => ?_
      rw [hkeys, Finset.sort_singleton] at hd
      obtain rfl := List.mem_singleton.1 (List.mem_of_mem_take hd)
      rw [hshown] at hi
      obtain rfl := List.mem_singleton.1 (List.mem_of_mem_take hi)
      rfl
    rw [← heq] at hroot'
    exact ⟨_, entries, entries', hroot, hroot'⟩

end

end Audit
