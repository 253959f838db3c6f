import NosqlBuddy.Audit.EventText
import NosqlBuddy.Audit.Session
import NosqlBuddy.Lib.Tickets

/-!
# Concurrent calls of `record_inner`

`record_inner` (mod.rs:936) takes its sequence number under the lock of the counters, gives that lock back, and
inserts the leaf and the event under the lock of the tree. Between the two, other calls run: the numbers are
tickets (`Tickets`), and the events of a domain carry 0, 1, 2, … in list order exactly when the calls of the
domain get the tree in the order in which they got their numbers (`sequences_in_order_iff`). `replay_file` counts
again (mod.rs:736), so after two calls that overtake each other (`overtaken_call_misnumbered`) a restart changes
the numbers.

| here | there |
| --- | --- |
| `insertLeaf` | mod.rs:964-1033, all of it under the lock of the tree |
| `Racing.pending` | the calls between the two |
-/

namespace Audit
open Mutation Tickets

section
variable (P : Prims)

/-! ## The two critical sections -/

/-- The sequence number of a call, and the counters after it. -/
def takeSequence (e : Entry) (w : World) : Nat × World :=
  let (sequence, sequences) := nextSequence w.log.sequences e.domain
  (sequence, { w with log := { w.log with sequences := sequences } })

/-- The writes of the second section to the tree, the roots and the events, and the line to persist. -/
def AuditLog.pushAt (log : AuditLog) (e : Entry) (sequence : Nat) : AuditLog × PersistedEvent :=
  let (tree, index) := log.tree.insert e.leaf
  let rootAfter := frToHex (tree.root P)
  let persisted := e.persisted index sequence rootAfter
  ({ log with
      tree := tree
      rootAfterByIndex := log.rootAfterByIndex ++ [rootAfter]
      events := log.events ++ [persisted.toAuditEvent sequence] }, persisted)

def insertLeaf (io : Io) (e : Entry) (sequence : Nat) : AuditM Nat := do
  let w ← get
  let (log, persisted) := w.log.pushAt P e sequence
  set { w with log := log }
  match log.persistence with
  | some dir => appendLine io dir (P.eventToString persisted)
  | none => pure ()
  -- the tree store: a failure is only logged
  match log.sledStore, hexToFr persisted.rootAfter with
  | some dir, .ok root => modify fun w => w.setDir dir { w.disk dir with
      sled := (w.disk dir).sled.map fun db => (db.saveLeaf io.sledSave persisted.index e.leaf root).1 }
  | _, _ => pure ()
  return persisted.index

/-! ## Interleavings -/

/-- A log, and the calls that hold a number and wait for the tree. -/
structure Racing where
  world : World
  pending : List (Entry × Nat)

inductive RaceStep where
  | take (e : Entry)
  | insert (i : Nat) (io : Io)

/-- A call takes its number, or one that holds a number gets the tree. -/
def stepRace (s : Racing) : RaceStep → Racing
  | .take e => ⟨(takeSequence e s.world).2, s.pending ++ [(e, (takeSequence e s.world).1)]⟩
  | .insert i io =>
    match s.pending[i]? with
    | some (e, sequence) => ⟨(exec (insertLeaf P io e sequence) s.world).2, s.pending.eraseIdx i⟩
    | none => s

/-- Calls of a domain get the tree in the order of their numbers. -/
def InsertsInTurn (s : Racing) : RaceStep → Prop
  | .take _ => True
  | .insert i _ => ∀ e n, s.pending[i]? = some (e, n) → ∀ e' n', (e', n') ∈ s.pending → e'.domain = e.domain → n ≤ n'

/-- The sequence numbers of a domain, in list order. -/
def sequencesOf (domain : Domain) (events : List AuditEvent) : List Nat :=
  (events.filter fun ev => (ev.deploymentId, ev.database) = domain).map (·.sequence)

/-- The sequences of each domain are 0, 1, 2, …, and a replay of lines with these events gives the same
events, sequences included. -/
def SequencesRight (events : List AuditEvent) : Prop :=
  (∀ domain, sequencesOf domain events = List.range (sequencesOf domain events).length) ∧
  ∀ leafKey lines st, lines.map (fun ev => ev.toAuditEvent ev.sequence) = events →
    replayEvents P leafKey lines ⟨.empty, [], ∅, []⟩ = (.ok (), st) → st.events = events

end

/-! ## Tickets -/

section
variable {P : Prims}

/-- What the tickets see of the log. -/
def Racing.tickets (s : Racing) : State Domain where
  counter := fun domain => (s.world.log.sequences.lookup domain).getD 0
  pending := s.pending.map fun x => (x.1.domain, x.2)
  placed := s.world.log.events.map fun ev => ((ev.deploymentId, ev.database), ev.sequence)

def RaceStep.ticket : RaceStep → Step Domain
  | .take e => .take e.domain
  | .insert i _ => .place i

theorem log_insertLeaf (io : Io) (e : Entry) (sequence : Nat) (w : World) :
    (exec (insertLeaf P io e sequence) w).2.log = (w.log.pushAt P e sequence).1 := by
  unfold insertLeaf
  rw [exec_bind_ok (exec_get w)]
  generalize w.log.pushAt P e sequence = r
  obtain ⟨log, persisted⟩ := r
  simp only
  rw [exec_bind_ok (exec_set _ _)]
  refine (Keeps.apply (f := World.log) ?_ _).trans rfl
  cases log.persistence
  case' none => simp only
  case' some dir => refine keeps_bind (keeps_appendLine (fun _ _ _ => rfl) _ _ _) fun _ => ?_
  all_goals
    split
    · exact keeps_bind (keeps_modify fun _ => rfl) fun _ => keeps_pure _
    · exact keeps_pure _

/-- **A step of the calls** is a step of their tickets. -/
theorem tickets_step (s : Racing) (a : RaceStep) : (stepRace P s a).tickets = step s.tickets a.ticket := by
  cases a with
  | take e =>
    simp only [stepRace, Racing.tickets, RaceStep.ticket, step, takeSequence, nextSequence, List.map_append,
      List.map_cons, List.map_nil, State.mk.injEq, and_true]
    ext domain
    by_cases hd : domain = e.domain
    · subst hd
      rw [Finmap.lookup_insert, Function.update_self]
      rfl
    · rw [Finmap.lookup_insert_of_ne _ hd, Function.update_of_ne hd]
  | insert i io =>
    have hpending : s.tickets.pending[i]? = (s.pending[i]?).map fun x => (x.1.domain, x.2) := List.getElem?_map
    simp only [stepRace, RaceStep.ticket, step, hpending]
    cases s.pending[i]? with
    | none => rfl
    | some x =>
      obtain ⟨e, n⟩ := x
      simp only [Option.map_some, Racing.tickets, log_insertLeaf, State.mk.injEq]
      refine ⟨rfl, ?_, ?_⟩
      · rw [List.eraseIdx_map]
      · simp only [AuditLog.pushAt, List.map_append, List.map_cons, List.map_nil]
        rfl

theorem inTurn_ticket (s : Racing) (a : RaceStep) : InTurn s.tickets a.ticket ↔ InsertsInTurn s a := by
  cases a with
  | take e => exact Iff.rfl
  | insert i io =>
    have hpending : s.tickets.pending[i]? = (s.pending[i]?).map fun x => (x.1.domain, x.2) := List.getElem?_map
    simp only [RaceStep.ticket, InTurn, InsertsInTurn, hpending]
    cases s.pending[i]? with
    | none => simp
    | some x =>
      obtain ⟨e, n⟩ := x
      simp only [Option.map_some, Option.some.injEq, forall_eq', Prod.mk.injEq, and_imp, Racing.tickets]
      constructor
      · rintro h e₁ n₁ rfl rfl e' n' hmem hd
        exact h (e'.domain, n') (List.mem_map.2 ⟨(e', n'), hmem, rfl⟩) hd
      · intro h y hy hd
        obtain ⟨⟨e', n'⟩, hmem, rfl⟩ := List.mem_map.1 hy
        exact h e n rfl rfl e' n' hmem hd

theorem sequencesOf_numbersOf (domain : Domain) (events : List AuditEvent) :
    sequencesOf domain events = numbersOf domain (events.map fun ev => ((ev.deploymentId, ev.database), ev.sequence)) := by
  simp only [sequencesOf, numbersOf, List.filter_map, List.map_map]
  rfl

/-! ## Counting again -/

theorem sequencesOf_cons (domain : Domain) (ev : AuditEvent) (events : List AuditEvent) : sequencesOf domain (ev :: events) =
    if (ev.deploymentId, ev.database) = domain then ev.sequence :: sequencesOf domain events else sequencesOf domain events := by
  unfold sequencesOf
  rw [List.filter_cons]
  split
  · next h => simp_all
  · next h => simp_all

theorem countEvents_of_inOrder : ∀ (lines : List PersistedEvent) (seqs : Finmap fun _ : Domain => Nat),
    (∀ domain, ∃ n, sequencesOf domain (lines.map fun ev => ev.toAuditEvent ev.sequence) =
      List.range' ((seqs.lookup domain).getD 0) n) →
    (countEvents lines seqs).1 = lines.map fun ev => ev.toAuditEvent ev.sequence
  | [], _, _ => rfl
  | ev :: evs, seqs, h => by
    have hsequence : ev.sequence = (seqs.lookup ev.domain).getD 0 := by
      obtain ⟨n, hn⟩ := h ev.domain
      rw [List.map_cons, sequencesOf_cons, if_pos (by rfl)] at hn
      cases n with
      | zero => cases hn
      | succ n => exact (List.cons.inj hn).1
    have hrest : ∀ domain, ∃ n, sequencesOf domain (evs.map fun ev => ev.toAuditEvent ev.sequence) =
        List.range' (((countEvent seqs ev).2.lookup domain).getD 0) n := by
      intro domain
      obtain ⟨n, hn⟩ := h domain
      rw [List.map_cons, sequencesOf_cons] at hn
      by_cases hd : domain = ev.domain
      · subst hd
        rw [if_pos (by rfl)] at hn
        cases n with
        | zero => cases hn
        | succ n =>
          refine ⟨n, (List.cons.inj hn).2.trans ?_⟩
          show _ = List.range' (((seqs.insert ev.domain _).lookup ev.domain).getD 0) n
          rw [Finmap.lookup_insert]
          rfl
      · rw [if_neg fun heq => hd heq.symm] at hn
        refine ⟨n, hn.trans ?_⟩
        show _ = List.range' (((seqs.insert ev.domain _).lookup domain).getD 0) n
        rw [Finmap.lookup_insert_of_ne _ hd]
    rw [countEvents, List.map_cons, countEvents_of_inOrder evs _ hrest]
    show ev.toAuditEvent ((seqs.lookup ev.domain).getD 0) :: _ = _
    rw [← hsequence]

theorem sequencesRight_iff (s : Racing) : SequencesRight P s.world.log.events ↔ InOrder s.tickets.placed := by
  have hplaced : s.tickets.placed = s.world.log.events.map fun ev => ((ev.deploymentId, ev.database), ev.sequence) := rfl
  rw [hplaced]
  generalize s.world.log.events = events
  constructor
  · rintro ⟨h, _⟩ domain
    rw [← sequencesOf_numbersOf]
    exact h domain
  · intro h
    have horder : ∀ domain, sequencesOf domain events = List.range (sequencesOf domain events).length := by
      intro domain
      rw [sequencesOf_numbersOf]
      exact h domain
    refine ⟨horder, fun leafKey lines st hlines hreplay => ?_⟩
    obtain ⟨_, rfl⟩ := replayEvents_ok.1 hreplay
    subst hlines
    refine (List.nil_append _).trans (countEvents_of_inOrder lines ∅ fun domain => ?_)
    rw [Finmap.lookup_empty, Option.getD_none]
    exact ⟨_, (horder domain).trans List.range_eq_range'⟩

theorem issued_start (key : Option Bytes32) (dir : String) : Issued (Racing.tickets ⟨openNew P key dir, []⟩) ∧
    InOrder (Racing.tickets ⟨openNew P key dir, []⟩).placed := by
  have hsession := (@session_open P key dir).2.1
  have hevents : (openNew P key dir).log.events = [] := hsession.events
  have hsequences : (openNew P key dir).log.sequences = ∅ := hsession.sequences
  refine ⟨fun domain => ?_, fun domain => ?_⟩
  · simp only [Racing.tickets, hevents, hsequences]
    exact List.Perm.refl []
  · simp only [Racing.tickets, hevents]
    rfl

end

/-- **Sequence numbers under concurrency**: in the events that any interleaving of calls leaves, each domain is
numbered 0, 1, 2, … and a replay counts the same numbers exactly when the calls of each domain insert in the
order in which they took their numbers. -/
theorem sequences_in_order_iff (P : Prims) (key : Option Bytes32) (dir : String) (steps : List RaceStep) :
    SequencesRight P (Runs.run (stepRace P) ⟨openNew P key dir, []⟩ steps).world.log.events ↔
      Runs.Guarded (stepRace P) InsertsInTurn ⟨openNew P key dir, []⟩ steps := by
  obtain ⟨hissued, horder⟩ := @issued_start P key dir
  have hguard := @Runs.guarded_sim _ _ _ _ _ _ _ _ (@tickets_step P) InTurn ⟨openNew P key dir, []⟩ steps
  simp only [inTurn_ticket] at hguard
  rw [sequencesRight_iff, hguard, Runs.run_sim (@tickets_step P), inOrder_iff hissued horder]

/-! ## No call is lost, none is recorded twice -/

/-- The calls that the steps begin. -/
def callsOf : List RaceStep → List Entry
  | [] => []
  | .take e :: steps => e :: callsOf steps
  | .insert _ _ :: steps => callsOf steps

/-- The event of a call that holds a number and gets the tree after `index` others; an event has no root. -/
def eventAt (index : Nat) (call : Entry × Nat) : AuditEvent := (call.1.persisted index call.2 "").toAuditEvent call.2

/-- Of the calls, those of `done` have had the tree, in that order, and the others hold their numbers. -/
structure Accounted (P : Prims) (calls : List Entry) (done : List (Entry × Nat)) (s : Racing) : Prop where
  all : ((done ++ s.pending).map Prod.fst).Perm calls
  tree : s.world.log.tree = ⟨done.map (·.1.leaf)⟩
  roots : s.world.log.rootAfterByIndex = rootHexes P (done.map (·.1.leaf))
  events : s.world.log.events = done.mapIdx eventAt

theorem accounted_step (h : Accounted P calls done s) (a : RaceStep) :
    ∃ done', Accounted P (calls ++ callsOf [a]) done' (stepRace P s a) := by
  cases a with
  | take e =>
    refine ⟨done, ⟨?_, h.tree, h.roots, h.events⟩⟩
    simp only [stepRace, callsOf]
    rw [← List.append_assoc, List.map_append]
    exact h.all.append_right [e]
  | insert i io =>
    simp only [callsOf, List.append_nil, stepRace]
    cases hcall : s.pending[i]? with
    | none => exact ⟨done, h⟩
    | some call =>
      obtain ⟨hi, hget⟩ := List.getElem?_eq_some_iff.1 hcall
      have hmoved : (done ++ [call] ++ s.pending.eraseIdx i).Perm (done ++ s.pending) := by
        rw [List.append_assoc, ← hget]
        exact (List.getElem_cons_eraseIdx_perm hi).append_left done
      refine ⟨done ++ [call], ⟨(hmoved.map _).trans h.all, ?_, ?_, ?_⟩⟩
      · simp [log_insertLeaf, AuditLog.pushAt, AuditMerkleTree.insert, h.tree]
      · rw [List.map_append, List.map_singleton, rootHexes_concat, ← h.roots]
        simp only [log_insertLeaf, AuditLog.pushAt, AuditMerkleTree.insert, h.tree]
        rfl
      · rw [List.mapIdx_concat, ← h.events]
        simp only [log_insertLeaf, AuditLog.pushAt, AuditMerkleTree.insert, h.tree, List.length_map, eventAt, Entry.persisted,
          PersistedEvent.toAuditEvent]

theorem accounted_run : ∀ (steps : List RaceStep) {calls : List Entry} {done : List (Entry × Nat)} {s : Racing},
    Accounted P calls done s → ∃ done', Accounted P (calls ++ callsOf steps) done' (Runs.run (stepRace P) s steps)
  | [], calls, done, s, h => ⟨done, by rwa [callsOf, List.append_nil]⟩
  | a :: steps, calls, done, s, h => by
    obtain ⟨done', h'⟩ := accounted_step h a
    obtain ⟨done'', h''⟩ := accounted_run steps h'
    refine ⟨done'', ?_⟩
    have hcalls : callsOf (a :: steps) = callsOf [a] ++ callsOf steps := by cases a <;> rfl
    rwa [Runs.run_cons, hcalls, ← List.append_assoc]

/-- The numbers that were handed out are those of the calls. -/
theorem Accounted.issued (h : Accounted P calls done s) (hissued : Issued s.tickets) (domain : Domain) :
    (numbersOf domain ((done ++ s.pending).map fun call => (call.1.domain, call.2))).Perm
      (List.range (calls.countP fun e => e.domain = domain)) := by
  have hplaced : s.tickets.placed = done.map fun call => (call.1.domain, call.2) := by
    refine List.ext_getElem? fun i => ?_
    simp only [Racing.tickets, h.events, List.getElem?_map, List.getElem?_mapIdx, Option.map_map]
    rfl
  have hperm := hissued domain
  rw [hplaced, ← numbersOf_append, Racing.tickets, ← List.map_append] at hperm
  have hcount := hperm.length_eq
  rw [List.length_range] at hcount
  rw [← h.all.countP_eq, List.countP_map]
  refine hperm.trans (List.Perm.of_eq (congrArg List.range (hcount.symm.trans ?_)))
  rw [numbersOf, List.length_map, ← List.countP_eq_length_filter, List.countP_map]
  rfl

/-- **No call is lost, and none is recorded twice**: whatever the interleaving, the leaves, roots and events of the log are those
of the calls that have had the tree, in that order, and they and the waiting calls are the calls made. The numbers of the calls
of a domain are 0, 1, 2, …, each held once. -/
theorem calls_accounted (P : Prims) (key : Option Bytes32) (dir : String) (steps : List RaceStep) :
    let s := Runs.run (stepRace P) ⟨openNew P key dir, []⟩ steps
    ∃ done, Accounted P (callsOf steps) done s ∧ ∀ domain,
      (numbersOf domain ((done ++ s.pending).map fun call => (call.1.domain, call.2))).Perm
        (List.range ((callsOf steps).countP fun e => e.domain = domain)) := by
  have hsession := (@session_open P key dir).2.1
  have hstart : Accounted P [] [] ⟨openNew P key dir, []⟩ :=
    ⟨List.Perm.refl [], hsession.tree, hsession.roots, hsession.events⟩
  obtain ⟨done, h⟩ := accounted_run steps hstart
  have hissued := issued_run (@issued_start P key dir).1 (steps.map RaceStep.ticket)
  rw [← Runs.run_sim (@tickets_step P)] at hissued
  exact ⟨done, h, h.issued hissued⟩

/-! ## Two calls of one domain -/

/-- An entry of the domain `rs:rs0`/`shop`. -/
def racingEntry (operation : String) : Entry := ⟨"rs:rs0", operation, "shop", "orders", "", 1, 1, ""⟩

/-- The second call overtakes the first on the way to the tree. -/
def overtaking : List RaceStep := [.take (racingEntry "insert"), .take (racingEntry "delete"), .insert 1 {}, .insert 0 {}]

theorem overtaken_call_misnumbered :
    ¬ SequencesRight demoPrims (Runs.run (stepRace demoPrims) ⟨openNew demoPrims none "data", []⟩ overtaking).world.log.events := by
  have hstart : Racing.tickets ⟨openNew demoPrims none "data", []⟩ = ⟨fun _ => 0, [], []⟩ := by
    have hsession := (@session_open demoPrims none "data").2.1
    have hevents : (openNew demoPrims none "data").log.events = [] := hsession.events
    have hsequences : (openNew demoPrims none "data").log.sequences = ∅ := hsession.sequences
    simp only [Racing.tickets, hevents, hsequences]
    rfl
  rw [sequencesRight_iff, Runs.run_sim (@tickets_step demoPrims), hstart]
  intro horder
  exact absurd (horder ("rs:rs0", "shop")) (by decide)

end Audit
