import Mathlib.Data.List.Dedup
import Mathlib.Data.List.Sort
import NosqlBuddy.Lib.Postings
import NosqlBuddy.Lib.Runs

/-!
# The timeline store

| here | there |
| --- | --- |
| `TimelineEntry`, `TimelineFilter`, `TimelineStore` | `timeline_store.rs:78`, `:365`, `:379` |
| `Step`, `stepShared` | the critical sections of these operations, one lock at a time |

The entries and the index have a lock each. `append_batch` pushes its entries under the first and enters their positions
under the second; `delete` and `prune` take the entries out, read all that is left, and install an index of it, under three
locks one after the other (`Pending`). The comment on the index says that it is kept in sync on mutation
(timeline_store.rs:382). It is when the operations do not overlap (`index_agrees`), and an overlap can leave positions of
another profile for good (`overlapping_delete_leaks`).
-/

namespace Timeline
open Postings Runs

/-! ## Entries -/

inductive OperationKind where
  | find | aggregate | sql | explain
  | insertOne | insertMany | updateOne | updateMany | deleteOne | deleteMany | replaceOne | aggregationWrite
  | indexCreate | indexDrop | collectionCreate | collectionDrop | collectionRename
  | import | export | dump | restore
deriving DecidableEq, Repr

/-- `TimelineEntry` (timeline_store.rs:78), the fields that the store reads or writes. -/
structure TimelineEntry where
  id : String
  profileId : String
  kind : OperationKind
  database : String := ""
  collection : String := ""
  notes : Option String := none
  createdAt : String
  errored : Bool := false
deriving DecidableEq, Repr

/-- `TimelineFilter` (timeline_store.rs:365). -/
structure TimelineFilter where
  profileId : Option String := none
  database : Option String := none
  collection : Option String := none
  kind : Option OperationKind := none
  from' : Option String := none
  to' : Option String := none
  limit : Option Nat := none
  errored : Option Bool := none
deriving DecidableEq, Repr

/-- The criteria that `list` checks on each candidate. -/
def TimelineFilter.accepts (filter : TimelineFilter) (e : TimelineEntry) : Bool :=
  filter.database.all (e.database = ·) && filter.collection.all (e.collection = ·) && filter.kind.all (e.kind = ·) &&
    filter.errored.all (e.errored = ·) && filter.from'.all (· ≤ e.createdAt) && filter.to'.all (e.createdAt ≤ ·)

/-- `b.created_at.cmp(&a.created_at)`. -/
def NewestFirst (a b : TimelineEntry) : Prop := b.createdAt ≤ a.createdAt

instance : DecidableRel NewestFirst := fun a b => inferInstanceAs (Decidable (b.createdAt ≤ a.createdAt))

/-- The end of `list`: the accepted candidates, newest first, up to the limit. -/
def TimelineFilter.report (filter : TimelineFilter) (candidates : List TimelineEntry) : List TimelineEntry :=
  let out := (candidates.filter filter.accepts).insertionSort NewestFirst
  match filter.limit with
  | some limit => out.take limit
  | none => out

/-! ## The store -/

abbrev Index := Postings.Index String

/-- `build_index` (timeline_store.rs:584). -/
def buildIndex (entries : List TimelineEntry) : Index := build TimelineEntry.profileId entries

structure TimelineStore where
  entries : List TimelineEntry
  index : Index

/-- `with_path` (timeline_store.rs:392), after the lines of the file are read. -/
def TimelineStore.load (entries : List TimelineEntry) : TimelineStore := ⟨entries, buildIndex entries⟩

/-- `list` (timeline_store.rs:460). It holds the lock of the entries while it reads the index. -/
def TimelineStore.list (s : TimelineStore) (filter : TimelineFilter) : List TimelineEntry :=
  let candidateIndices := match filter.profileId with
    | some pid => s.index.get pid
    | none => List.range s.entries.length
  filter.report (candidateIndices.filterMap fun idx => s.entries[idx]?)

/-- The entries that `delete` leaves. -/
def retained (id : String) (entries : List TimelineEntry) : List TimelineEntry := entries.filter fun e => e.id ≠ id

/-- The ids of the most recent entries of each profile. -/
def keepIds (retentionCount : Nat) (entries : List TimelineEntry) : List String :=
  (entries.map (·.profileId)).dedup.flatMap fun pid =>
    (((entries.filter fun e => e.profileId = pid).insertionSort NewestFirst).take retentionCount).map (·.id)

/-- The entries that `prune` leaves. -/
def pruned (cutoff : String) (retentionCount : Nat) (entries : List TimelineEntry) : List TimelineEntry :=
  entries.filter fun e => cutoff ≤ e.createdAt || e.id ∈ keepIds retentionCount entries

/-- The entries after `update_notes`: the first with the id gets the notes. -/
def withNotes (id notes : String) : List TimelineEntry → List TimelineEntry
  | [] => []
  | e :: es => if e.id = id then { e with notes := some notes } :: es else e :: withNotes id notes es

/-! ## Critical sections -/

/-- An operation between two of its critical sections. -/
inductive Pending where
  /-- An append that has pushed its entries, the first of them to `startIdx`. -/
  | publish (startIdx : Nat) (entries : List TimelineEntry)
  /-- A deletion that has taken its entries out. -/
  | rebuild
  /-- A deletion that has built the new index. -/
  | install (newIndex : Index)

structure Shared where
  store : TimelineStore
  pending : List Pending

def Shared.load (entries : List TimelineEntry) : Shared := ⟨.load entries, []⟩

inductive Step where
  | appendBatch (entries : List TimelineEntry)
  | list (filter : TimelineFilter)
  | updateNotes (id notes : String)
  | delete (id : String)
  | prune (cutoff : String) (retentionCount : Nat)
  /-- The next section of the operation that is pending at `i`. -/
  | resume (i : Nat)

/-- Entries are taken out, and the indices shift. -/
def Shared.remove (s : Shared) (left : List TimelineEntry) : Shared :=
  if left.length < s.store.entries.length then ⟨{ s.store with entries := left }, s.pending ++ [.rebuild]⟩
  else { s with store := { s.store with entries := left } }

def stepShared (s : Shared) : Step → Shared
  | .appendBatch entries =>
    if entries = [] then s
    else ⟨{ s.store with entries := s.store.entries ++ entries }, s.pending ++ [.publish s.store.entries.length entries]⟩
  | .list _ => s
  | .updateNotes id notes => { s with store := { s.store with entries := withNotes id notes s.store.entries } }
  | .delete id => s.remove (retained id s.store.entries)
  | .prune cutoff retentionCount => s.remove (pruned cutoff retentionCount s.store.entries)
  | .resume i =>
    match s.pending[i]? with
    | some (.publish startIdx entries) =>
      ⟨{ s.store with index := post TimelineEntry.profileId s.store.index startIdx entries }, s.pending.eraseIdx i⟩
    | some .rebuild => { s with pending := s.pending.set i (.install (buildIndex s.store.entries)) }
    | some (.install newIndex) => ⟨{ s.store with index := newIndex }, s.pending.eraseIdx i⟩
    | none => s

/-! ## The statement -/

/-- What `list` is to return: all entries of the profile that meet the criteria. -/
def selected (entries : List TimelineEntry) (filter : TimelineFilter) : List TimelineEntry :=
  filter.report (entries.filter fun e => filter.profileId.all (e.profileId = ·))

/-- Each `list` of the run returns the entries it is asked for, and between the operations the index is that of the
entries. -/
def IndexAgrees (loaded : List TimelineEntry) (steps : List Step) : Prop :=
  (∀ pre filter post, steps = pre ++ Step.list filter :: post →
    (run stepShared (.load loaded) pre).store.list filter = selected (run stepShared (.load loaded) pre).store.entries filter) ∧
  ∀ pre, pre <+: steps → (run stepShared (.load loaded) pre).pending = [] →
    (run stepShared (.load loaded) pre).store.index = buildIndex (run stepShared (.load loaded) pre).store.entries

/-- An append that has not published entries of the profile yet. -/
def Pending.publishes (pid : String) : Pending → Prop
  | .publish _ entries => ∃ e ∈ entries, e.profileId = pid
  | _ => False

/-- An append, whatever its entries. -/
def Pending.isPublish : Pending → Prop
  | .publish _ _ => True
  | _ => False

/-- When the sections of the operations do not get into each other's way: entries are taken out when no operation is
pending; appends begin when no deletion is, and publish the entries of a profile in the order in which they pushed them;
and a profile is listed when no deletion and no append to it is pending. -/
def InTurn (s : Shared) : Step → Prop
  | .appendBatch entries => entries ≠ [] → ∀ op ∈ s.pending, op.isPublish
  | .list filter => ∀ pid, filter.profileId = some pid → ∀ op ∈ s.pending, op.isPublish ∧ ¬ op.publishes pid
  | .updateNotes _ _ => True
  | .delete id => (retained id s.store.entries).length < s.store.entries.length → s.pending = []
  | .prune cutoff retentionCount =>
    (pruned cutoff retentionCount s.store.entries).length < s.store.entries.length → s.pending = []
  | .resume i => ∀ op, s.pending[i]? = some op → ∀ pid, op.publishes pid → ∀ op' ∈ s.pending.take i, ¬ op'.publishes pid

/-! ## One step -/

/-- The positions of a profile that an operation is to publish. -/
def Pending.positions (pid : String) : Pending → List Nat
  | .publish startIdx entries => Postings.positions TimelineEntry.profileId pid startIdx entries
  | _ => []

/-- With the positions that the pending appends are to publish, the index is that of the entries. -/
structure Coherent (s : Shared) : Prop where
  publishes : ∀ op ∈ s.pending, op.isPublish
  proper : s.store.index.Proper
  positions : ∀ pid, s.store.index.get pid ++ s.pending.flatMap (Pending.positions pid) =
    Postings.positions TimelineEntry.profileId pid 0 s.store.entries

/-- A deletion is at work on its own, and installs the index of the entries. -/
def Rebuilding (s : Shared) : Prop := s.pending = [.rebuild] ∨ s.pending = [.install (buildIndex s.store.entries)]

variable {s : Shared}

theorem Rebuilding.pending (h : Rebuilding s) : ∃ op ∈ s.pending, ¬ op.isPublish := by
  rcases h with h | h
  · exact ⟨.rebuild, by rw [h]; exact List.mem_singleton.2 rfl, id⟩
  · exact ⟨.install (buildIndex s.store.entries), by rw [h]; exact List.mem_singleton.2 rfl, id⟩

theorem inTurn_of_idle (h : s.pending = []) (a : Step) : InTurn s a := by
  cases a with
  | appendBatch entries =>
    intro _ op hop
    rw [h] at hop
    cases hop
  | list filter =>
    intro pid _ op hop
    rw [h] at hop
    cases hop
  | updateNotes id notes => trivial
  | delete id => exact fun _ => h
  | prune cutoff retentionCount => exact fun _ => h
  | resume i =>
    intro op hop
    rw [h] at hop
    cases hop

theorem inTurn_resume_zero (s : Shared) : InTurn s (.resume 0) := fun _ _ _ _ _ hop => nomatch hop

theorem positions_eq_nil_of_not_publishes : ∀ {op : Pending}, ¬ op.publishes pid → op.positions pid = []
  | .publish _ _, h => Postings.positions_eq_nil fun e he heq => h ⟨e, he, heq⟩
  | .rebuild, _ => rfl
  | .install _, _ => rfl

theorem flatMap_positions_eq_nil {pid : String} {ops : List Pending} (h : ∀ op ∈ ops, ¬ op.publishes pid) :
    ops.flatMap (Pending.positions pid) = [] :=
  List.flatMap_eq_nil_iff.2 fun op hop => positions_eq_nil_of_not_publishes (h op hop)

theorem Coherent.index_eq (h : Coherent s) (hidle : s.pending = []) : s.store.index = buildIndex s.store.entries := by
  refine eq_build h.proper fun pid => ?_
  have hpos := h.positions pid
  rwa [hidle, List.flatMap_nil, List.append_nil] at hpos

theorem coherent_of_index (hidle : s.pending = []) (h : s.store.index = buildIndex s.store.entries) : Coherent s where
  publishes := by simp [hidle]
  proper := by
    rw [h]
    exact proper_build _
  positions pid := by rw [h, hidle, List.flatMap_nil, List.append_nil, buildIndex, get_build]

theorem map_profileId_withNotes (id notes : String) : ∀ entries : List TimelineEntry,
    (withNotes id notes entries).map TimelineEntry.profileId = entries.map TimelineEntry.profileId
  | [] => rfl
  | e :: es => by
    rw [withNotes]
    split
    · rfl
    · rw [List.map_cons, List.map_cons, map_profileId_withNotes id notes es]

theorem Coherent.appendBatch (h : Coherent s) (entries : List TimelineEntry) :
    Coherent (stepShared s (.appendBatch entries)) := by
  simp only [stepShared]
  split
  · exact h
  · refine ⟨?_, h.proper, fun pid => ?_⟩
    · intro op hop
      rcases List.mem_append.1 hop with hold | hnew
      · exact h.publishes op hold
      · rw [List.mem_singleton.1 hnew]
        trivial
    · rw [positions_append, Nat.zero_add, ← h.positions pid, List.flatMap_append, List.append_assoc]
      simp [Pending.positions]

theorem Coherent.updateNotes (h : Coherent s) (id notes : String) :
    Coherent (stepShared s (.updateNotes id notes)) where
  publishes := h.publishes
  proper := h.proper
  positions pid := (h.positions pid).trans (positions_congr pid (map_profileId_withNotes id notes _).symm)

theorem Coherent.publish (h : Coherent s) {front back : List Pending} {startIdx : Nat} {entries : List TimelineEntry}
    (hpending : s.pending = front ++ .publish startIdx entries :: back)
    (hturn : ∀ pid, (Pending.publish startIdx entries).publishes pid → ∀ op ∈ front, ¬ op.publishes pid) :
    Coherent ⟨{ s.store with index := post TimelineEntry.profileId s.store.index startIdx entries }, front ++ back⟩ where
  publishes op hop := by
    refine h.publishes op ?_
    rw [hpending]
    rcases List.mem_append.1 hop with hfront | hback
    · exact List.mem_append_left _ hfront
    · exact List.mem_append_right _ (List.mem_cons_of_mem _ hback)
  proper := proper_post _ _ h.proper
  positions pid := by
    have hpos := h.positions pid
    rw [hpending, List.flatMap_append, List.flatMap_cons] at hpos
    rw [← hpos, get_post, List.flatMap_append]
    by_cases hpid : (Pending.publish startIdx entries).publishes pid
    · rw [flatMap_positions_eq_nil (hturn pid hpid), List.nil_append, List.nil_append, List.append_assoc]
      rfl
    · have hnil : Postings.positions TimelineEntry.profileId pid startIdx entries = [] := positions_eq_nil_of_not_publishes hpid
      rw [positions_eq_nil_of_not_publishes hpid, hnil, List.append_nil, List.nil_append]

theorem remove_inv (h : Coherent s ∨ Rebuilding s)
    (hturn : (s.store.entries.filter p).length < s.store.entries.length → s.pending = []) :
    Coherent (s.remove (s.store.entries.filter p)) ∨ Rebuilding (s.remove (s.store.entries.filter p)) := by
  unfold Shared.remove
  split
  · next hlt => exact .inr (.inl (by rw [hturn hlt]; rfl))
  · next hge =>
    have hall : s.store.entries.filter p = s.store.entries :=
      List.filter_eq_self.2 (List.length_filter_eq_length_iff.1
        (Nat.le_antisymm (List.length_filter_le _ _) (Nat.le_of_not_lt hge)))
    rw [hall]
    exact h

variable {i : Nat}

theorem stepShared_publish (h : s.pending[i]? = some (.publish startIdx entries)) : stepShared s (.resume i) =
      ⟨{ s.store with index := post TimelineEntry.profileId s.store.index startIdx entries }, s.pending.eraseIdx i⟩ := by
  simp only [stepShared, h]

theorem stepShared_rebuild (h : s.pending[i]? = some .rebuild) :
    stepShared s (.resume i) = { s with pending := s.pending.set i (.install (buildIndex s.store.entries)) } := by
  simp only [stepShared, h]

theorem stepShared_install (h : s.pending[i]? = some (.install newIndex)) :
    stepShared s (.resume i) = ⟨{ s.store with index := newIndex }, s.pending.eraseIdx i⟩ := by
  simp only [stepShared, h]

theorem stepShared_none (h : s.pending[i]? = none) : stepShared s (.resume i) = s := by
  simp only [stepShared, h]

theorem resume_inv (hturn : InTurn s (.resume i)) (h : Coherent s ∨ Rebuilding s) :
    Coherent (stepShared s (.resume i)) ∨ Rebuilding (stepShared s (.resume i)) := by
  rcases h with h | h | h
  · cases hop : s.pending[i]? with
    | none =>
      rw [stepShared_none hop]
      exact .inl h
    | some op =>
      obtain ⟨hi, hget⟩ := List.getElem?_eq_some_iff.1 hop
      have hpublish := h.publishes op (hget ▸ List.getElem_mem hi)
      cases op with
      | publish startIdx entries =>
        have hsplit : s.pending = s.pending.take i ++ .publish startIdx entries :: s.pending.drop (i + 1) := by
          rw [← hget, List.getElem_cons_drop, List.take_append_drop]
        rw [stepShared_publish hop, List.eraseIdx_eq_take_drop_succ]
        exact .inl (h.publish hsplit (hturn _ hop))
      | rebuild => exact False.elim hpublish
      | install newIndex => exact False.elim hpublish
  · cases i with
    | zero =>
      rw [stepShared_rebuild (by rw [h]; rfl)]
      exact .inr (.inr (by rw [h]; rfl))
    | succ i =>
      rw [stepShared_none (by rw [h]; rfl)]
      exact .inr (.inl h)
  · cases i with
    | zero =>
      rw [stepShared_install (by rw [h]; rfl)]
      exact .inl (coherent_of_index (by rw [h]; rfl) rfl)
    | succ i =>
      rw [stepShared_none (by rw [h]; rfl)]
      exact .inr (.inr h)

theorem step_inv (hturn : InTurn s a) (h : Coherent s ∨ Rebuilding s) :
    Coherent (stepShared s a) ∨ Rebuilding (stepShared s a) := by
  cases a with
  | list filter => exact h
  | appendBatch entries =>
    rcases h with h | h
    · exact .inl (h.appendBatch entries)
    · by_cases hnil : entries = []
      · rw [stepShared, if_pos hnil]
        exact .inr h
      · obtain ⟨op, hop, hnot⟩ := h.pending
        exact absurd (hturn hnil op hop) hnot
  | updateNotes id notes =>
    rcases h with h | h | h
    · exact .inl (h.updateNotes id notes)
    · exact .inr (.inl h)
    · have hindex : buildIndex (withNotes id notes s.store.entries) = buildIndex s.store.entries :=
        build_congr (map_profileId_withNotes id notes _)
      refine .inr (.inr ?_)
      simp only [stepShared, hindex]
      exact h
  | delete id => exact remove_inv h hturn
  | prune cutoff retentionCount => exact remove_inv h hturn
  | resume i => exact resume_inv hturn h

theorem list_eq_selected (h : Coherent s ∨ Rebuilding s) {filter : TimelineFilter} (hturn : InTurn s (.list filter)) :
    s.store.list filter = selected s.store.entries filter := by
  unfold TimelineStore.list selected
  cases hpid : filter.profileId with
  | none =>
    have hrange : (List.range s.store.entries.length).filterMap (fun idx => s.store.entries[idx]?) = s.store.entries := by
      rw [List.range_eq_range']
      exact filterMap_range' [] s.store.entries
    simp [hrange]
  | some pid =>
    have hidle := hturn pid hpid
    rcases h with h | h
    · have hget : s.store.index.get pid = Postings.positions TimelineEntry.profileId pid 0 s.store.entries := by
        have hpos := h.positions pid
        rwa [flatMap_positions_eq_nil fun op hop => (hidle op hop).2, List.append_nil] at hpos
      simp only [hget, filterMap_positions_zero, Option.all_some]
    · obtain ⟨op, hop, hnot⟩ := h.pending
      exact absurd (hidle op hop).1 hnot

/-! ## Runs -/

/-- **The index of the timeline.** In every run in turn, each `list` returns the entries it is asked for, and between the
operations the index is that of the entries. -/
theorem index_agrees (loaded : List TimelineEntry) (steps : List Step) (h : Guarded stepShared InTurn (.load loaded) steps) :
    IndexAgrees loaded steps := by
  have hinv : ∀ pre, Guarded stepShared InTurn (.load loaded) pre →
      Coherent (run stepShared (.load loaded) pre) ∨ Rebuilding (run stepShared (.load loaded) pre) := fun pre hpre =>
    run_inv (I := fun s => Coherent s ∨ Rebuilding s) (fun _ _ => step_inv) hpre (.inl (coherent_of_index rfl rfl))
  constructor
  · rintro pre filter post rfl
    exact list_eq_selected (hinv pre (guarded_left h)) (guarded_at h)
  · rintro pre ⟨post, rfl⟩ hidle
    rcases hinv pre (guarded_left h) with hcoherent | hrebuilding
    · exact hcoherent.index_eq hidle
    · obtain ⟨op, hop, _⟩ := hrebuilding.pending
      rw [hidle] at hop
      cases hop

def sampleEntry (id profileId : String) : TimelineEntry := { id := id, profileId := profileId, kind := .find, createdAt := "" }

/-- A profile is listed while an append to another is pending, and then an entry of it is deleted. -/
theorem turns_agree : IndexAgrees [sampleEntry "a" "p"] [.appendBatch [sampleEntry "b" "q"], .list { profileId := some "p" },
    .resume 0, .delete "a", .resume 0, .resume 0, .list { profileId := some "q" }] := by
  refine index_agrees _ _ ⟨inTurn_of_idle rfl _, fun pid hpid op hop => ?_, inTurn_resume_zero _, inTurn_of_idle rfl _,
    inTurn_resume_zero _, inTurn_resume_zero _, inTurn_of_idle rfl _, trivial⟩
  obtain rfl := Option.some.inj hpid
  obtain rfl := List.mem_singleton.1 hop
  refine ⟨trivial, ?_⟩
  rintro ⟨e, he, heq⟩
  obtain rfl := List.mem_singleton.1 he
  exact absurd heq (by decide)

/-- The append of `c` is between its two sections when `a` is deleted, and publishes a position that has shifted. The next
entry, of another profile, comes to stand there, and is listed from then on. -/
theorem overlapping_delete_leaks : ¬ ∀ loaded steps, IndexAgrees loaded steps := by
  intro h
  have hlist := (h [sampleEntry "a" "p", sampleEntry "b" "p"] _).1 [.appendBatch [sampleEntry "c" "p"], .delete "a", .resume 1,
    .resume 1, .resume 0, .appendBatch [sampleEntry "d" "q"], .resume 0] { profileId := some "p" } [] rfl
  exact absurd (congrArg (List.map TimelineEntry.id) hlist) (by decide)

end Timeline
