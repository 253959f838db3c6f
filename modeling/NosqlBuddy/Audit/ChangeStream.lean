import NosqlBuddy.Audit.CrashSafety
import NosqlBuddy.Audit.HonestFile
import NosqlBuddy.Audit.Interceptor

/-!
# The change stream listener

`run_listener` and `watch_once` (change_stream.rs:201, :261): the listener delivers the events of a
deployment to `process_event` and saves the resume token after each of them. A new process, or a new
connection, resumes after the saved token; without one the stream begins at the present.

| here | there |
| --- | --- |
| `Listener.server` | the events of the deployment since the stream was first opened |
| `Listener.token`, `stream` | a position in them: the saved token, and the open stream |
| `ListenerStep` | a write of a client, the opening and the end of a stream, an event, the death of the process inside one, a new process |

"This ensures no writes are missed while the app was offline" (change_stream.rs:28): but the token is
saved whether or not the event was recorded (change_stream.rs:290-298). `gapless_run` says what holds
when every delivered event is.
-/

namespace Audit
open Mutation Text

structure Listener where
  machine : Machine
  token : Option Nat
  server : List ChangeEvent
  stream : Option Nat

inductive ListenerStep where
  | write (ev : ChangeEvent)
  /-- `load_resume_token` may fail, which counts as no token -/
  | openStream (loads : Bool)
  | closeStream
  /-- `saves`: `save_resume_token` reaches the tree store -/
  | deliver (now : Instant) (io : Io) (saves : Bool)
  | crash (now : Instant) (point : CrashPoint)
  | restart (io : Io)

section
variable (P : Prims) (J : Serde) (key : Option Bytes32) (dir deploymentId : String)

/-- Errors are dropped. -/
def processEvent (io : Io) (now : Instant) (ev : ChangeEvent) (w : World) : World :=
  match eventCall P J ⟨deploymentId, w.log.leafKey.isSome, now⟩ ev with
  | some call => (exec (call.run P io) w).2
  | none => w

/-- The first process has opened a new directory and, without a token, the stream. -/
def Listener.start : Listener := ⟨⟨some (openNew P key dir).log, (openNew P key dir).disk⟩, none, [], some 0⟩

/-- The log, the position and the event of the next delivery. -/
def Listener.pending (s : Listener) : Option (AuditLog × Nat × ChangeEvent) :=
  match s.machine.log, s.stream with
  | some log, some i => (s.server[i]?).map fun ev => (log, i, ev)
  | _, _ => none

def stepListener (s : Listener) : ListenerStep → Listener
  | .write ev => { s with server := s.server ++ [ev] }
  | .openStream loads =>
    match s.machine.log, loads, s.token with
    | some _, true, some k => { s with stream := some k }
    | some _, _, _ => { s with stream := some s.server.length }
    | none, _, _ => s
  | .closeStream => { s with stream := none }
  | .deliver now io saves =>
    match s.pending with
    | some (log, i, ev) =>
      let w := processEvent P J deploymentId io now ev ⟨log, s.machine.disk⟩
      { s with
        machine := ⟨some w.log, w.disk⟩
        stream := some (i + 1)
        token := if saves ∧ w.log.sledStore.isSome then some (i + 1) else s.token }
    | none => s
  | .crash now point =>
    match s.pending with
    | some (log, _, ev) =>
      { s with
        machine := ⟨none, (processEvent P J deploymentId point.io now ev ⟨log, s.machine.disk⟩).disk⟩
        stream := none }
    | none => s
  | .restart io =>
    -- the app goes on with the log that a failing opening leaves (src-tauri/src/lib.rs:366)
    let w := (exec (setPersistenceDir P io dir) (World.start key s.machine.disk)).2
    { s with machine := ⟨some w.log, w.disk⟩, stream := none }

/-! ## What must not happen -/

/-- The leaf is one that recording the event gives, at some time. -/
def LeafOf (ev : ChangeEvent) (leaf : Fr) : Prop :=
  ∃ now call e, eventCall P J ⟨deploymentId, key.isSome, now⟩ ev = some call ∧ call.entry P key = some e ∧ e.leaf = leaf

/-- The auditable events have leaves, in their order; there may be others. -/
def Captured (events : List ChangeEvent) (leaves : List Fr) : Prop :=
  List.SublistForall₂ (LeafOf P J key deploymentId) (events.filter ChangeEvent.auditable) leaves

/-- The saved token is past no auditable event without a leaf. -/
def Gapless (s : Listener) : Prop := ∀ log k, s.machine.log = some log → s.token = some k →
  Captured P J key deploymentId (s.server.take k) log.tree.leaves

/-- A delivered auditable event is recorded, an opening passes over no event without a leaf, and a new
process finds what the last one had. -/
def LosesNone (s : Listener) : ListenerStep → Prop
  | .openStream loads => ∀ log, s.machine.log = some log →
      (loads = true ∧ s.token.isSome) ∨ Captured P J key deploymentId s.server log.tree.leaves
  | .deliver _ io _ => ∀ log i ev, s.pending = some (log, i, ev) → ev.auditable = true →
      io.write = none ∧ io.sync = none ∧ (ev.operationType = .insert → (ev.fullDocument.bind J.document).isSome)
  | .crash now point => ∀ log i ev call, s.pending = some (log, i, ev) →
      eventCall P J ⟨deploymentId, log.leafKey.isSome, now⟩ ev = some call → s.machine.Safe P dir (.crash call point)
  | .restart io => io = {} ∧ InStep P (s.machine.disk dir)
  | _ => True

end

section
variable {P : Prims} {J : Serde} {key : Option Bytes32} {dir deploymentId : String} {s : Listener}

theorem Captured.append (h : Captured P J key deploymentId events leaves)
    (more : List Fr) : Captured P J key deploymentId events (leaves ++ more) := by
  obtain ⟨l, hl, hsub⟩ := List.sublistForall₂_iff.1 h
  exact List.sublistForall₂_iff.2 ⟨l, hl, hsub.trans (List.sublist_append_left leaves more)⟩

theorem Captured.skip (h : Captured P J key deploymentId events leaves)
    (hev : ¬ ev.auditable = true) : Captured P J key deploymentId (events ++ [ev]) leaves := by
  unfold Captured at h ⊢
  rw [List.filter_append, List.filter_cons_of_neg hev, List.filter_nil, List.append_nil]
  exact h

theorem Captured.concat (h : Captured P J key deploymentId events leaves)
    (hev : ev.auditable = true) (hleaf : LeafOf P J key deploymentId ev leaf) :
    Captured P J key deploymentId (events ++ [ev]) (leaves ++ [leaf]) := by
  obtain ⟨l, hl, hsub⟩ := List.sublistForall₂_iff.1 h
  unfold Captured
  rw [List.filter_append, List.filter_cons_of_pos hev, List.filter_nil]
  exact List.sublistForall₂_iff.2 ⟨l ++ [leaf], List.rel_append hl (.cons hleaf .nil), hsub.append (List.Sublist.refl _)⟩

theorem captured_nil (leaves : List Fr) : Captured P J key deploymentId [] leaves := List.SublistForall₂.nil

theorem pending_some (h : s.pending = some (log, i, ev)) :
    s.machine.log = some log ∧ s.stream = some i ∧ s.server[i]? = some ev := by
  unfold Listener.pending at h
  split at h
  · next hlog hstream =>
    obtain ⟨ev', hev, heq⟩ := Option.map_eq_some_iff.1 h
    cases heq
    exact ⟨hlog, hstream, hev⟩
  · cases h

/-! ## The invariant -/

/-- The entries `es` are durable, and the events before the token and before the stream are among
them. -/
structure Tracked (P : Prims) (J : Serde) (key : Option Bytes32) (dir deploymentId : String) (s : Listener)
    (es : List Entry) : Prop where
  durable : Durable P key dir s.machine es
  honest : ∀ e ∈ es, e.Honest P key
  token : ∀ k, s.token = some k → k ≤ s.server.length ∧
    Captured P J key deploymentId (s.server.take k) (es.map (·.leaf))
  stream : ∀ i, s.stream = some i → i ≤ s.server.length ∧
    Captured P J key deploymentId (s.server.take i) (es.map (·.leaf))

theorem Tracked.leaves (h : Tracked P J key dir deploymentId s es) (hlog : s.machine.log = some log) : log.tree.leaves = es.map (·.leaf) := by
  have hs := h.durable.memory log hlog
  rw [hs.tree]

theorem Tracked.gapless (h : Tracked P J key dir deploymentId s es) : Gapless P J key deploymentId s := by
  intro log k hlog hk
  rw [h.leaves hlog]
  exact (h.token k hk).2

theorem tracked_start : Tracked P J key dir deploymentId (.start P key dir) [] where
  durable := by
    obtain ⟨_, hs, hsled⟩ := @session_open P key dir
    refine ⟨.inr ⟨[], .inl rfl, hs.file⟩, fun db hdb => ?_, fun log hlog => ?_⟩
    · have hdb' : ((openNew P key dir).disk dir).sled = some db := hdb
      rw [hsled] at hdb'
      cases hdb'
      exact sledSound_empty _
    · cases hlog
      exact hs
  honest := by simp
  token := fun k hk => by cases hk
  stream := fun i hi => by
    obtain rfl : 0 = i := Option.some.inj hi
    exact ⟨Nat.le_refl 0, captured_nil _⟩

theorem Tracked.write (h : Tracked P J key dir deploymentId s es) (ev : ChangeEvent) :
    Tracked P J key dir deploymentId { s with server := s.server ++ [ev] } es := by
  refine ⟨h.durable, h.honest, fun k hk => ?_, fun i hi => ?_⟩
  · obtain ⟨hle, hcap⟩ := h.token k hk
    refine ⟨by simp; omega, ?_⟩
    rw [List.take_append_of_le_length hle]
    exact hcap
  · obtain ⟨hle, hcap⟩ := h.stream i hi
    refine ⟨by simp; omega, ?_⟩
    rw [List.take_append_of_le_length hle]
    exact hcap

theorem Tracked.setStream (h : Tracked P J key dir deploymentId s es) (hi : i ≤ s.server.length)
    (hcap : Captured P J key deploymentId (s.server.take i) (es.map (·.leaf))) :
    Tracked P J key dir deploymentId { s with stream := some i } es := by
  refine ⟨h.durable, h.honest, h.token, fun j hj => ?_⟩
  obtain rfl : i = j := Option.some.inj hj
  exact ⟨hi, hcap⟩

theorem Tracked.openStream (h : Tracked P J key dir deploymentId s es) (hg : LosesNone P J key dir deploymentId s (.openStream loads)) :
    Tracked P J key dir deploymentId (stepListener P J key dir deploymentId s (.openStream loads)) es := by
  cases hlog : s.machine.log with
  | none =>
    simp only [stepListener, hlog]
    exact h
  | some log =>
    -- without a token the stream begins behind the last event
    have hend : ¬ (loads = true ∧ s.token.isSome) →
        Tracked P J key dir deploymentId { s with stream := some s.server.length } es := by
      intro hno
      refine h.setStream (Nat.le_refl _) ?_
      rw [List.take_length, ← h.leaves hlog]
      exact (hg log hlog).resolve_left hno
    cases loads with
    | false =>
      simp only [stepListener, hlog]
      exact hend (by simp)
    | true =>
      cases htoken : s.token with
      | none =>
        simp only [stepListener, hlog, htoken]
        rw [htoken] at hend
        exact hend (by simp)
      | some k =>
        simp only [stepListener, hlog, htoken]
        exact htoken ▸ h.setStream (h.token k htoken).1 (h.token k htoken).2

theorem processEvent_recorded (hl : P.Lawful) {log : AuditLog} {disk : String → Dir} {es : List Entry}
    (h : Durable P key dir ⟨some log, disk⟩ es) {io : Io} (now : Instant) {ev : ChangeEvent}
    (hg : ev.auditable = true → io.write = none ∧ io.sync = none ∧
      (ev.operationType = .insert → (ev.fullDocument.bind J.document).isSome)) :
    ∃ more, (∀ e ∈ more, e.Honest P key) ∧
      Durable P key dir ⟨some (processEvent P J deploymentId io now ev ⟨log, disk⟩).log,
        (processEvent P J deploymentId io now ev ⟨log, disk⟩).disk⟩ (es ++ more) ∧
      ∀ {events : List ChangeEvent}, Captured P J key deploymentId events (es.map (·.leaf)) →
        Captured P J key deploymentId (events ++ [ev]) ((es ++ more).map (·.leaf)) := by
  have hkey : log.leafKey = key := (h.memory log rfl).leafKey
  unfold processEvent
  simp only [hkey]
  by_cases ha : ev.auditable = true
  · obtain ⟨hw, hsync, hdoc⟩ := hg ha
    obtain ⟨call, hcall⟩ := Option.isSome_iff_exists.1
      (eventCall_isSome (P := P) ⟨deploymentId, key.isSome, now⟩ ha hdoc)
    obtain ⟨e, he, hon⟩ := eventCall_entry hl rfl hcall
    obtain ⟨w, hexec, hd⟩ := h.record hw hsync e
    rw [hcall]
    simp only [exec_run, hkey, he, hexec]
    refine ⟨[e], fun f hf => ?_, hd, fun hcap => ?_⟩
    · rw [List.mem_singleton.1 hf]
      exact hon
    · rw [List.map_append, List.map_singleton]
      exact hcap.concat ha ⟨now, call, e, hcall, he, rfl⟩
  · have hnone : eventCall P J ⟨deploymentId, key.isSome, now⟩ ev = none := by
      cases hcall : eventCall P J ⟨deploymentId, key.isSome, now⟩ ev with
      | none => rfl
      | some call => exact absurd (auditable_of_eventCall hcall) ha
    rw [hnone]
    refine ⟨[], by simp, by simpa using h, fun hcap => ?_⟩
    rw [List.append_nil]
    exact hcap.skip ha

theorem Tracked.deliver (hl : P.Lawful) (h : Tracked P J key dir deploymentId s es) (hg : LosesNone P J key dir deploymentId s (.deliver now io saves)) :
    ∃ es', Tracked P J key dir deploymentId (stepListener P J key dir deploymentId s (.deliver now io saves)) es' := by
  cases hp : s.pending with
  | none =>
    simp only [stepListener, hp]
    exact ⟨es, h⟩
  | some p =>
    obtain ⟨log, i, ev⟩ := p
    obtain ⟨hlog, hstream, hev⟩ := pending_some hp
    obtain ⟨hle, hcap⟩ := h.stream i hstream
    have hdur : Durable P key dir ⟨some log, s.machine.disk⟩ es := by
      rw [← hlog]
      exact h.durable
    obtain ⟨more, hhon, hd, hnext⟩ := @processEvent_recorded P J key dir deploymentId hl _ _ _ hdur io now ev (hg log i ev hp)
    have hlt : i < s.server.length := (List.getElem?_eq_some_iff.1 hev).1
    have htake : s.server.take (i + 1) = s.server.take i ++ [ev] := by rw [List.take_add_one, hev, Option.toList_some]
    have hcap' : Captured P J key deploymentId (s.server.take (i + 1)) ((es ++ more).map (·.leaf)) := by
      rw [htake]
      exact hnext hcap
    simp only [stepListener, hp]
    refine ⟨es ++ more, hd, fun e he => (List.mem_append.1 he).elim (h.honest e) (hhon e), fun k hk => ?_, fun j hj => ?_⟩
    · split at hk
      · obtain rfl : i + 1 = k := Option.some.inj hk
        exact ⟨hlt, hcap'⟩
      · obtain ⟨hle', hcap''⟩ := h.token k hk
        refine ⟨hle', ?_⟩
        rw [List.map_append]
        exact hcap''.append _
    · obtain rfl : i + 1 = j := Option.some.inj hj
      exact ⟨hlt, hcap'⟩

theorem Tracked.token_deliver (hl : P.Lawful) (h : Tracked P J key dir deploymentId s es) (hg : LosesNone P J key dir deploymentId s (.deliver now io true)) (hp : s.pending = some (log, i, ev)) :
    (stepListener P J key dir deploymentId s (.deliver now io true)).token = some (i + 1) := by
  have hdur : Durable P key dir ⟨some log, s.machine.disk⟩ es := by
    rw [← (pending_some hp).1]
    exact h.durable
  obtain ⟨_, _, hd, _⟩ := @processEvent_recorded P J key dir deploymentId hl _ _ _ hdur io now ev (hg log i ev hp)
  have hstore : (processEvent P J deploymentId io now ev ⟨log, s.machine.disk⟩).log.sledStore = some dir :=
    (hd.memory _ rfl).sledStore
  simp only [stepListener, hp, hstore, Option.isSome_some, and_self, if_true]

/-- A write that fails after `k` bytes: the leaf is in memory only, and the token is saved all the same. -/
theorem deliver_write_failed {now : Instant} {io : Io} {log : AuditLog} {i k : Nat} {ev : ChangeEvent} {call : RecordCall}
    {e : Entry} {err : String} (hp : s.pending = some (log, i, ev))
    (hcall : eventCall P J ⟨deploymentId, log.leafKey.isSome, now⟩ ev = some call) (he : call.entry P log.leafKey = some e)
    (hdir : log.persistence = some dir) (hstore : log.sledStore = some dir) (hw : io.write = some (k, err)) :
    stepListener P J key dir deploymentId s (.deliver now io true) =
      { s with
        machine := ⟨some (log.push P e).1, (World.append ⟨(log.push P e).1, s.machine.disk⟩ dir
          ((lineBytes (P.eventToString (log.push P e).2)).extract 0 k)).disk⟩
        stream := some (i + 1)
        token := some (i + 1) } := by
  have hrun : processEvent P J deploymentId io now ev ⟨log, s.machine.disk⟩ =
      World.append ⟨(log.push P e).1, s.machine.disk⟩ dir
        ((lineBytes (P.eventToString (log.push P e).2)).extract 0 k) := by
    simp only [processEvent, hcall, exec_run, he, @recordInner_write_failed P io e ⟨log, s.machine.disk⟩ dir hdir k err hw]
  have hstore' : (World.append ⟨(log.push P e).1, s.machine.disk⟩ dir
      ((lineBytes (P.eventToString (log.push P e).2)).extract 0 k)).log.sledStore = some dir := hstore
  simp only [stepListener, hp, hrun, hstore', Option.isSome_some, and_self, if_true]
  rfl

theorem Tracked.down (h : Tracked P J key dir deploymentId s es) (hd : Durable P key dir machine (es ++ more)) (hon : ∀ e ∈ more, e.Honest P key) :
    Tracked P J key dir deploymentId { s with machine := machine, stream := none } (es ++ more) := by
  refine ⟨hd, fun e he => (List.mem_append.1 he).elim (h.honest e) (hon e), fun k hk => ?_, fun i hi => by cases hi⟩
  obtain ⟨hle, hcap⟩ := h.token k hk
  refine ⟨hle, ?_⟩
  rw [List.map_append]
  exact hcap.append _

theorem Tracked.crash (hl : P.Lawful) (h : Tracked P J key dir deploymentId s es) (hg : LosesNone P J key dir deploymentId s (.crash now point)) :
    ∃ es', Tracked P J key dir deploymentId (stepListener P J key dir deploymentId s (.crash now point)) es' := by
  cases hp : s.pending with
  | none =>
    simp only [stepListener, hp]
    exact ⟨es, h⟩
  | some p =>
    obtain ⟨log, i, ev⟩ := p
    have hlog := (pending_some hp).1
    have hkey : log.leafKey = key := (h.durable.memory log hlog).leafKey
    simp only [stepListener, hp, processEvent]
    cases hcall : eventCall P J ⟨deploymentId, log.leafKey.isSome, now⟩ ev with
    | none =>
      refine ⟨es ++ [], h.down ?_ (by simp)⟩
      rw [List.append_nil]
      exact h.durable.down
    | some call =>
      have hon : (Action.crash call point).Honest P key := by
        rw [hkey] at hcall
        obtain ⟨e, he, hone⟩ := eventCall_entry hl rfl hcall
        intro f hf
        obtain rfl : e = f := Option.some.inj (he.symm.trans hf)
        exact hone
      obtain ⟨more, hd, _, _, hmore⟩ := h.durable.step hl h.honest hon (hg log i ev call hp hcall)
      simp only [Machine.step, hlog] at hd
      exact ⟨es ++ more, h.down hd hmore⟩

theorem Tracked.restart (hl : P.Lawful) (h : Tracked P J key dir deploymentId s es) (hg : LosesNone P J key dir deploymentId s (.restart io)) :
    Tracked P J key dir deploymentId (stepListener P J key dir deploymentId s (.restart io)) es := by
  obtain ⟨rfl, hstep⟩ := hg
  obtain ⟨w, hexec, hs, hsled⟩ := h.durable.restart hl h.honest hstep
  simp only [stepListener, hexec]
  refine ⟨⟨.inr ⟨[], .inl rfl, hs.file⟩, hsled, fun log hlog => ?_⟩, h.honest, h.token, fun i hi => by cases hi⟩
  cases hlog
  exact hs

/-- **One step** that loses no event. -/
theorem Tracked.step (hl : P.Lawful) {es : List Entry} (h : Tracked P J key dir deploymentId s es) {a : ListenerStep}
    (hg : LosesNone P J key dir deploymentId s a) :
    ∃ es', Tracked P J key dir deploymentId (stepListener P J key dir deploymentId s a) es' := by
  cases a with
  | write ev => exact ⟨es, h.write ev⟩
  | openStream loads => exact ⟨es, h.openStream hg⟩
  | closeStream => exact ⟨es, h.durable, h.honest, h.token, fun i hi => by cases hi⟩
  | deliver now io saves => exact h.deliver hl hg
  | crash now point => exact h.crash hl hg
  | restart io => exact ⟨es, h.restart hl hg⟩

/-- **Gapless capture.** In every state of a run in which every delivered auditable event is recorded, no
opening of the stream passes over an event without a leaf, and every new process finds what the last
one had, the saved token is past no auditable event without a leaf. -/
theorem gapless_run (P : Prims) (hl : P.Lawful) (J : Serde) (key : Option Bytes32) (dir deploymentId : String)
    (steps : List ListenerStep)
    (hg : Runs.Guarded (stepListener P J key dir deploymentId) (LosesNone P J key dir deploymentId) (.start P key dir) steps) :
    ∀ pre, pre <+: steps →
      Gapless P J key deploymentId (Runs.run (stepListener P J key dir deploymentId) (.start P key dir) pre) := by
  rintro pre ⟨post, rfl⟩
  obtain ⟨es, h⟩ : ∃ es, Tracked P J key dir deploymentId
      (Runs.run (stepListener P J key dir deploymentId) (.start P key dir) pre) es :=
    Runs.run_inv (I := fun s => ∃ es, Tracked P J key dir deploymentId s es) (fun s a hok ⟨es, h⟩ => h.step hl hok)
      (Runs.guarded_left hg) ⟨[], tracked_start⟩
  exact h.gapless

end

/-! ### A full disk -/

/-- A serializer that gives every document the same text. -/
def demoSerde : Serde := ⟨fun _ => some "\x7b\x7d", fun _ => some "\x7b\x7d", fun _ => some "[]", fun a b => some (a ++ b)⟩

/-- An insert into `shop.orders`. -/
def insertEvent : ChangeEvent := { operationType := .insert, ns := some ⟨"shop", some "orders"⟩, fullDocument := some [] }

abbrev demoListener : Listener → ListenerStep → Listener := stepListener demoPrims demoSerde none "data" "rs:rs0"

abbrev demoStart : Listener := .start demoPrims none "data"

/-- The insert is there and not yet delivered. -/
def insertPending : Listener := { demoStart with server := [insertEvent] }

/-- The insert is recorded, its token is saved, and the stream is opened again. -/
def resumed : List ListenerStep := [.write insertEvent, .deliver ⟨0, 0⟩ {} true, .closeStream, .openStream true]

theorem resumed_guarded : Runs.Guarded demoListener (LosesNone demoPrims demoSerde none "data" "rs:rs0") demoStart resumed := by
  have htracked : Tracked demoPrims demoSerde none "data" "rs:rs0" insertPending [] := tracked_start.write insertEvent
  have hdeliver : LosesNone demoPrims demoSerde none "data" "rs:rs0" insertPending (.deliver ⟨0, 0⟩ {} true) := by
    intro log i ev hp _
    cases hp
    exact ⟨rfl, rfl, fun _ => rfl⟩
  have htoken := htracked.token_deliver demoPrims_lawful hdeliver rfl
  have hwrite : demoListener demoStart (.write insertEvent) = insertPending := rfl
  have hend : ∀ s : Listener, s.token = some 1 →
      Runs.Guarded demoListener (LosesNone demoPrims demoSerde none "data" "rs:rs0") s [.closeStream, .openStream true] := by
    intro s hs
    refine ⟨trivial, fun _ _ => .inl ⟨rfl, ?_⟩, trivial⟩
    simp only [stepListener, hs, Option.isSome_some]
  refine ⟨trivial, ?_⟩
  rw [hwrite]
  exact ⟨hdeliver, hend _ htoken⟩

theorem resumed_gapless : Runs.Guarded demoListener (LosesNone demoPrims demoSerde none "data" "rs:rs0") demoStart resumed ∧
    ∀ pre, pre <+: resumed → Gapless demoPrims demoSerde none "rs:rs0" (Runs.run demoListener demoStart pre) :=
  ⟨resumed_guarded, gapless_run demoPrims demoPrims_lawful demoSerde none "data" "rs:rs0" resumed resumed_guarded⟩

/-- A write to a full disk. -/
def fullDiskIo : Io := { write := some (0, "No space left on device (os error 28)") }

/-- The disk is full when the insert is recorded; a new process comes up later. -/
def fullDisk : List ListenerStep := [.write insertEvent, .deliver ⟨0, 0⟩ fullDiskIo true, .restart {}]

theorem restart_unwritten {w : World} (h : Filed demoPrims none "data" w []) {log : AuditLog} {line : ByteArray} :
    (exec (setPersistenceDir demoPrims {} "data")
      (World.start none (World.append ⟨log, w.disk⟩ "data" (line.extract 0 0)).disk)).2.log.tree.leaves = [] := by
  have hfiled : Filed demoPrims none "data" ⟨w.log, (World.append ⟨log, w.disk⟩ "data" (line.extract 0 0)).disk⟩ [] := by
    obtain ⟨db, hdb, hstored⟩ := h.sled
    refine ⟨?_, h.written, h.chained, h.versions, h.tree, h.leafKey, h.persistence, h.sledStore, db, ?_, hstored⟩
    · simp [World.append, World.setDir, h.file]
    · simpa [World.append, World.setDir] using hdb
  have hrestart := hfiled.restart (textPrims_lawfulLines (demoDigest 1) (fun _ => demoDigest 2) demoPoseidon)
  exact congrArg AuditMerkleTree.leaves hrestart.tree

/-- The token is saved past the insert, and the new process has no leaf for it. -/
theorem fullDisk_gap : (Runs.run demoListener demoStart fullDisk).token = some 1 ∧
    (∃ log, (Runs.run demoListener demoStart fullDisk).machine.log = some log ∧ log.tree.leaves = []) ∧
    ¬ Gapless demoPrims demoSerde none "rs:rs0" (Runs.run demoListener demoStart fullDisk) := by
  have hopen := @filed_open demoPrims none "data"
  have hpending : insertPending.pending = some ((openNew demoPrims none "data").log, 0, insertEvent) := rfl
  obtain ⟨call, hcall⟩ : ∃ call, eventCall demoPrims demoSerde ⟨"rs:rs0", (none : Option Bytes32).isSome, ⟨0, 0⟩⟩ insertEvent =
      some call := ⟨_, rfl⟩
  obtain ⟨e, he, _⟩ := @eventCall_entry demoPrims demoSerde demoPrims_lawful none _ rfl _ _ hcall
  rw [← hopen.leafKey] at hcall he
  have hdeliver := @deliver_write_failed demoPrims demoSerde none "data" "rs:rs0" insertPending ⟨0, 0⟩ fullDiskIo _ 0 0 _ _ _ _
    hpending hcall he hopen.persistence hopen.sledStore rfl
  have hleaves := @restart_unwritten _ hopen ((openNew demoPrims none "data").log.push demoPrims e).1
    (lineBytes (demoPrims.eventToString ((openNew demoPrims none "data").log.push demoPrims e).2))
  have hwrite : demoListener demoStart (.write insertEvent) = insertPending := rfl
  have hrun : Runs.run demoListener demoStart fullDisk =
      demoListener (demoListener insertPending (.deliver ⟨0, 0⟩ fullDiskIo true)) (.restart {}) := by
    rw [← hwrite]
    simp only [fullDisk, Runs.run_cons, Runs.run_nil]
  have hdisk : insertPending.machine.disk = (openNew demoPrims none "data").disk := rfl
  rw [hrun, demoListener, hdeliver, hdisk]
  simp only [stepListener]
  generalize exec (setPersistenceDir demoPrims {} "data") _ = r at hleaves ⊢
  refine ⟨trivial, ⟨r.2.log, rfl, hleaves⟩, fun hgap => ?_⟩
  have hcap : Captured demoPrims demoSerde none "rs:rs0" [insertEvent] r.2.log.tree.leaves := hgap r.2.log 1 rfl rfl
  rw [hleaves] at hcap
  cases hcap

end Audit
