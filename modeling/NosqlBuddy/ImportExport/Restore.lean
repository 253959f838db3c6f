import NosqlBuddy.ImportExport.CollectionSink

/-!
# Restoring a database

| here | there |
| --- | --- |
| `Directory.sourcePath` | the file of a collection: plain, gzip or zstd (restore.rs:156) |
| `Directory.fromPath` | `BsonSource::from_path`; the reader delivers what is decompressed |

A collection is dropped before its archive is opened, and a job that is cancelled during its last collection ends as done.
-/

namespace ImportExport
open Oplog (Bson Document)

/-! ## The command -/

inductive ConflictStrategy where
  | drop
  | skip
  | upsert
deriving DecidableEq, Repr

structure CollectionMapping where
  source : String
  target : String
  enabled : Bool
deriving DecidableEq, Repr

structure RestoreRequest where
  jobId : String
  collectionMap : List CollectionMapping
  conflictStrategy : ConflictStrategy

/-- The directory of the dump. -/
structure Directory where
  isFile : String → Bool
  fromPath : String → Except AppError Reader

def Directory.sourcePath (dir : Directory) (source : String) : Option String :=
  if dir.isFile (source ++ ".bson") then some (source ++ ".bson")
  else if dir.isFile (source ++ ".bson.gz") then some (source ++ ".bson.gz")
  else if dir.isFile (source ++ ".bson.zst") then some (source ++ ".bson.zst")
  else none

/-- What happens around the job, by the position of a mapping: the answer to the drop, the error of the count, and the load of
the flag that finds it set, from the one before the mapping on; and the answers to the writes. -/
structure Circumstances where
  replies : Nat → Reply
  drops : Nat → Reply
  countFault : Nat → Option String
  cancelAt : Nat → Option Nat

structure RestoreResult where
  jobId : String
  processed : Nat
  inserted : Nat
  errors : Nat
  cancelled : Bool
deriving DecidableEq, Repr

/-- The collections by their names, and the totals of the job. -/
structure Restoring where
  db : String → List Document
  calls : Nat
  /-- The flag is set. -/
  flagged : Bool
  processed : Nat
  inserted : Nat
  errors : Nat
  cancelled : Bool

/-- How the body of the loop ends: `continue`, `break`, or an early return. -/
inductive Turn where
  | next
  | stop
  | fail (e : AppError)

section
variable (M : MongoServer) (C : BsonCodec Document) (dir : Directory) (env : Circumstances) (request : RestoreRequest)

def Restoring.withDocs (s : Restoring) (target : String) (docs : List Document) : Restoring :=
  { s with db := Function.update s.db target docs }

@[simp] theorem Restoring.withDocs_errors (s : Restoring) (target : String) (docs : List Document) :
    (s.withDocs target docs).errors = s.errors := rfl

/-- The strategy is applied (restore.rs:176); `none` goes on with the archive. -/
def prepare (i : Nat) (m : CollectionMapping) (s : Restoring) : Option Turn × Restoring :=
  match request.conflictStrategy with
  | .drop =>
    match env.drops i with
    | .refused _ => (none, s)
    | _ => (none, s.withDocs m.target [])
  | .skip =>
    match env.countFault i with
    | some e => (some (.fail (.mongo e)), s)
    | none => if 0 < M.estimatedDocumentCount (s.db m.target) then (some .next, s) else (none, s)
  | .upsert => (none, s)

def insertMode : InsertMode := if request.conflictStrategy = .upsert then .upsert else .insert

/-- What the pipeline gets; the loads of the flag are those after the one before the mapping. -/
def restoreJob (i : Nat) (reader : Reader) : Job where
  transforms := []
  rows := (readAll C reader).1.map .doc
  sourceFault := match (readAll C reader).2 with
    | .error e => some e
    | .ok () => none
  ctx := ⟨request.jobId, (env.cancelAt i).map (· - 1), 10000, 100⟩

/-- The archive is restored (restore.rs:196). -/
def restoreArchive (i : Nat) (m : CollectionMapping) (reader : Reader) (s : Restoring) : Restoring :=
  let r := runPipeline (collectionSink M env.replies (insertMode request) 1000) (restoreJob C env request i reader)
    ⟨s.db m.target, [], 0, s.calls⟩
  let s := { s.withDocs m.target r.2.docs with calls := r.2.calls, flagged := s.flagged || (env.cancelAt i).isSome }
  match r.1 with
  | .ok report => { s with
      processed := s.processed + report.processed
      inserted := s.inserted + r.2.inserted
      errors := s.errors + report.errors }
  | .error _ => { s with errors := s.errors + 1 }

/-- The body of the loop, for the mapping at a position. -/
def restoreTurn (i : Nat) (m : CollectionMapping) (s : Restoring) : Turn × Restoring :=
  if !m.enabled then (.next, s)
  else if s.flagged || env.cancelAt i = some 0 then (.stop, { s with flagged := true, cancelled := true })
  else
    match dir.sourcePath m.source with
    | none => (.next, s)
    | some path =>
      match prepare M env request i m s with
      | (some turn, s) => (turn, s)
      | (none, s) =>
        match dir.fromPath path with
        | .error e => (.fail e, s)
        | .ok reader => (.next, restoreArchive M C env request i m reader s)

def restoreLoop : Nat → List CollectionMapping → Restoring → Option AppError × Restoring
  | _, [], s => (none, s)
  | i, m :: ms, s =>
    match restoreTurn M C dir env request i m s with
    | (.next, s) => restoreLoop (i + 1) ms s
    | (.stop, s) => (none, s)
    | (.fail e, s) => (some e, s)

/-- `restore_database` (restore.rs:103), but for the job and timeline records. -/
def restoreDatabase (db : String → List Document) : Except AppError RestoreResult × (String → List Document) :=
  match restoreLoop M C dir env request 0 request.collectionMap ⟨db, 0, false, 0, 0, 0, false⟩ with
  | (some e, s) => (.error e, s.db)
  | (none, s) => (.ok ⟨request.jobId, s.processed, s.inserted, s.errors, s.cancelled⟩, s.db)

/-! ## What a restore is to spare -/

/-- The documents of an archive, up to its first error; none if it is missing or cannot be opened. -/
def archived (m : CollectionMapping) : List Document :=
  match (dir.sourcePath m.source).map dir.fromPath with
  | some (.ok reader) => (readAll C reader).1
  | _ => []

/-- The archive is there, and cannot be opened, or its first document cannot be decoded. -/
def Unreadable (m : CollectionMapping) : Prop :=
  match (dir.sourcePath m.source).map dir.fromPath with
  | some (.ok reader) => (readAll C reader).1 = [] ∧ ∃ e, (readAll C reader).2 = .error e
  | some (.error _) => True
  | none => False

/-- All documents that are restored into a collection. -/
def archivedInto (target : String) (ms : List CollectionMapping) : List Document :=
  (ms.filter fun m => m.enabled && m.target = target).flatMap (archived C dir)

/-- The documents are held; those without `_id` as new ones, each with an `_id` of its own. -/
structure Held (docs before after : List Document) : Prop where
  withIds : ∀ doc ∈ docs, doc.lookup "_id" ≠ none → doc ∈ after
  inserted : ∃ ids : List Bson, ids.length = (docs.filter fun doc => doc.lookup "_id" = none).length ∧
    ids.Pairwise (fun id id' => M.sameId id id' = false) ∧ (∀ id ∈ ids, ∀ d ∈ before ++ docs, ¬ SameId M d (withId id [])) ∧
    ∀ p ∈ (docs.filter fun doc => doc.lookup "_id" = none).zip ids, withId p.2 p.1 ∈ after

/-- The flag is not set while the last archive is restored. -/
def Attended : Nat → List CollectionMapping → Prop
  | _, [] => True
  | i, m :: ms => (m.enabled → (∀ m' ∈ ms, m'.enabled = false) →
      ∀ k, env.cancelAt i = some k → k = 0 ∨ (archived C dir m).length + 2 < k) ∧ Attended (i + 1) ms

/-- The condition on the archives, the collections before, and the circumstances. -/
structure Suited (before : String → List Document) : Prop where
  writable : request.conflictStrategy = .upsert → ∀ target, Writable (before target) (archivedInto C dir target request.collectionMap)
  distinct : request.conflictStrategy = .upsert → ∀ target, ∀ doc ∈ archivedInto C dir target request.collectionMap,
    ∀ doc' ∈ archivedInto C dir target request.collectionMap, SameId M doc' (asStored M doc) → doc' = doc
  attended : request.conflictStrategy = .upsert → Attended C dir env 0 request.collectionMap
  readable : request.conflictStrategy = .drop → ∀ m ∈ request.collectionMap, m.enabled → Unreadable C dir m →
    ∀ i m', request.collectionMap[i]? = some m' → m'.enabled → m'.target = m.target → (dir.sourcePath m'.source).isSome →
      Unreadable C dir m' ∧ (before m.target = [] ∨ ∃ e, env.drops i = .refused e)

/-- A restore does not destroy what it is not about. -/
structure Spares (before : String → List Document) (outcome : Except AppError RestoreResult × (String → List Document)) : Prop where
  unrelated : request.conflictStrategy = .upsert → ∀ target, ∀ d ∈ before target, d.lookup "_id" ≠ none →
    (∀ doc ∈ archivedInto C dir target request.collectionMap, ¬ SameId M doc d) → d ∈ outcome.2 target
  held : request.conflictStrategy = .upsert → ∀ result, outcome.1 = .ok result → result.errors = 0 → result.cancelled = false →
    ∀ target, Held M (archivedInto C dir target request.collectionMap) (before target) (outcome.2 target)
  skipped : request.conflictStrategy = .skip → ∀ target, before target ≠ [] → outcome.2 target = before target
  kept : request.conflictStrategy = .drop → ∀ m ∈ request.collectionMap, m.enabled → Unreadable C dir m →
    outcome.2 m.target = before m.target

end

/-! ## One turn of the loop -/

section
variable (M : MongoServer) (C : BsonCodec Document) (dir : Directory) (env : Circumstances) (request : RestoreRequest)

/-- What the body of the loop does. -/
inductive TurnEnds (i : Nat) (m : CollectionMapping) (s : Restoring) : Turn × Restoring → Prop where
  | disabled (off : m.enabled = false) : TurnEnds i m s (.next, s)
  | cancelled (on : m.enabled) : TurnEnds i m s (.stop, { s with flagged := true, cancelled := true })
  | missing (on : m.enabled) (flag : s.flagged = false) (path : dir.sourcePath m.source = none) : TurnEnds i m s (.next, s)
  | prepared {file turn s₁} (on : m.enabled) (flag : s.flagged = false) (path : dir.sourcePath m.source = some file)
      (prepare : prepare M env request i m s = (some turn, s₁)) : TurnEnds i m s (turn, s₁)
  | unopened {file e s₁} (on : m.enabled) (flag : s.flagged = false) (path : dir.sourcePath m.source = some file)
      (prepare : prepare M env request i m s = (none, s₁)) (open' : dir.fromPath file = .error e) : TurnEnds i m s (.fail e, s₁)
  | restored {file reader s₁} (on : m.enabled) (flag : s.flagged = false) (first : env.cancelAt i ≠ some 0)
      (path : dir.sourcePath m.source = some file)
      (prepare : prepare M env request i m s = (none, s₁)) (open' : dir.fromPath file = .ok reader) :
      TurnEnds i m s (.next, restoreArchive M C env request i m reader s₁)

theorem restoreTurn_ends (i : Nat) (m : CollectionMapping) (s : Restoring) :
    TurnEnds M C dir env request i m s (restoreTurn M C dir env request i m s) := by
  unfold restoreTurn
  cases hon : m.enabled with
  | false => exact .disabled hon
  | true =>
    simp only [Bool.not_true, Bool.false_eq_true, if_false]
    split
    · exact .cancelled hon
    · next hflag =>
      simp only [Bool.or_eq_true, decide_eq_true_eq, not_or, Bool.not_eq_true] at hflag
      cases hpath : dir.sourcePath m.source with
      | none => exact .missing hon hflag.1 hpath
      | some path =>
        cases hprepare : prepare M env request i m s with
        | mk turn s₁ =>
          cases turn with
          | some turn => exact .prepared hon hflag.1 hpath hprepare
          | none =>
            cases hopen : dir.fromPath path with
            | error e => simpa only [hopen] using TurnEnds.unopened hon hflag.1 hpath hprepare hopen
            | ok reader => simpa only [hopen] using TurnEnds.restored hon hflag.1 hflag.2 hpath hprepare hopen

theorem restoreArchive_other (i : Nat) (m : CollectionMapping) (reader : Reader) (s : Restoring) (h : target ≠ m.target) : (restoreArchive M C env request i m reader s).db target = s.db target := by
  simp only [restoreArchive]
  split <;> exact Function.update_of_ne h _ _

theorem restoreArchive_target (i : Nat) (m : CollectionMapping) (reader : Reader) (s : Restoring) :
    (restoreArchive M C env request i m reader s).db m.target =
      (runPipeline (collectionSink M env.replies (insertMode request) 1000) (restoreJob C env request i reader)
        ⟨s.db m.target, [], 0, s.calls⟩).2.docs := by
  simp only [restoreArchive]
  split <;> exact Function.update_self _ _ _

theorem restoreArchive_errors (i : Nat) (m : CollectionMapping) (reader : Reader) (s : Restoring) :
    s.errors ≤ (restoreArchive M C env request i m reader s).errors := by
  simp only [restoreArchive]
  split <;> simp

theorem restoreArchive_flagged (i : Nat) (m : CollectionMapping) (reader : Reader) (s : Restoring) :
    (restoreArchive M C env request i m reader s).flagged = (s.flagged || (env.cancelAt i).isSome) := by
  simp only [restoreArchive]
  split <;> rfl

theorem restoreArchive_empty (i : Nat) (m : CollectionMapping) (s : Restoring) (h : (readAll C reader).1 = []) :
    (restoreArchive M C env request i m reader s).db = s.db := by
  funext target
  by_cases htarget : target = m.target
  · subst htarget
    rw [restoreArchive_target]
    have hrows : (restoreJob C env request i reader).rows = [] := by simp [restoreJob, h]
    have hflush : flush M env.replies (insertMode request) ⟨s.db m.target, [], 0, s.calls⟩ = (none, ⟨s.db m.target, [], 0, s.calls⟩) :=
      flush_nil M env.replies _ rfl
    simp only [runPipeline, collectionSink, hrows, pipelineLoop]
    by_cases hflag : CancelledAt (restoreJob C env request i reader) 0
    · simp only [hflag, hflag.mono (Nat.le_succ 0), if_true]
    · simp only [hflag, if_false]
      cases (restoreJob C env request i reader).sourceFault with
      | some e => rfl
      | none =>
        simp only [hflush]
        split <;> rfl
  · exact restoreArchive_other M C env request i m reader s htarget

theorem restoreArchive_upsert (hs : request.conflictStrategy = .upsert) (i : Nat) (m : CollectionMapping) (s : Restoring) (hw : Writable (s.db m.target) (readAll C reader).1) :
    (∀ d, Untouched M (readAll C reader).1 d → d ∈ s.db m.target → d ∈ (restoreArchive M C env request i m reader s).db m.target) ∧
      ((restoreArchive M C env request i m reader s).errors = s.errors →
        (∃ k, env.cancelAt i = some k ∧ k ≤ (readAll C reader).1.length + 2) ∨
          ∀ doc ∈ (readAll C reader).1, Untouched M (readAll C reader).1 (asStored M doc) →
            asStored M doc ∈ (restoreArchive M C env request i m reader s).db m.target) := by
  have hmode : insertMode request = .upsert := if_pos hs
  obtain ⟨hkeep, hok⟩ := upsert_pipeline M env.replies 1000 (J := restoreJob C env request i reader) rfl rfl hw s.calls
  rw [restoreArchive_target, hmode]
  refine ⟨hkeep, fun herrors => ?_⟩
  have hreport : ∃ report, (runPipeline (collectionSink M env.replies .upsert 1000) (restoreJob C env request i reader)
      ⟨s.db m.target, [], 0, s.calls⟩).1 = .ok report := by
    simp only [restoreArchive, hmode] at herrors
    split at herrors
    · next report hr => exact ⟨report, hr⟩
    · simp at herrors
  obtain ⟨report, hr⟩ := hreport
  rcases hok report hr with ⟨k, hk, hle⟩ | hstored
  · obtain ⟨k', hk', rfl⟩ := Option.map_eq_some_iff.1 (by exact hk)
    exact .inl ⟨k', hk', by omega⟩
  · exact .inr hstored

/-! ## The loop -/

theorem archivedInto_cons (target : String) (m : CollectionMapping) (ms : List CollectionMapping) :
    archivedInto C dir target (m :: ms) =
      (if m.enabled && m.target = target then archived C dir m else []) ++ archivedInto C dir target ms := by
  unfold archivedInto
  rw [List.filter_cons]
  split <;> simp

theorem archived_of_open (hpath : dir.sourcePath m.source = some file)
    (hopen : dir.fromPath file = .ok reader) : archived C dir m = (readAll C reader).1 := by
  simp [archived, hpath, hopen]

theorem archived_of_missing (hpath : dir.sourcePath m.source = none) : archived C dir m = [] := by
  simp [archived, hpath]

theorem prepare_upsert (hs : request.conflictStrategy = .upsert) (i : Nat) (m : CollectionMapping) (s : Restoring) :
    prepare M env request i m s = (none, s) := by
  simp only [prepare, hs]

theorem restoreLoop_flagged (ms : List CollectionMapping) : ∀ (i : Nat) {s : Restoring}, s.flagged →
    (∃ m ∈ ms, m.enabled) → (restoreLoop M C dir env request i ms s).2.cancelled := by
  induction ms with
  | nil => exact fun _ _ _ h => by simp at h
  | cons m ms ih =>
    intro i s hflag hon
    simp only [restoreLoop]
    by_cases hm : m.enabled
    · simp [restoreTurn, hm, hflag]
    · have hrest : ∃ m ∈ ms, m.enabled := by simpa [hm] using hon
      simpa [restoreTurn, hm] using ih (i + 1) hflag hrest

theorem restoreLoop_errors (ms : List CollectionMapping) (hs : request.conflictStrategy = .upsert) : ∀ (i : Nat) (s : Restoring),
    s.errors ≤ (restoreLoop M C dir env request i ms s).2.errors := by
  induction ms with
  | nil => exact fun _ _ => Nat.le_refl _
  | cons m ms ih =>
    intro i s
    have hturn := restoreTurn_ends M C dir env request i m s
    simp only [restoreLoop]
    generalize restoreTurn M C dir env request i m s = r at hturn ⊢
    cases hturn with
    | disabled off => exact ih (i + 1) s
    | cancelled on => exact Nat.le_refl _
    | missing on flag path => exact ih (i + 1) s
    | prepared on flag path hprepare =>
      rw [prepare_upsert M env request hs] at hprepare
      cases hprepare
    | unopened on flag path hprepare hopen =>
      rw [prepare_upsert M env request hs] at hprepare
      cases hprepare
      exact Nat.le_refl _
    | restored on flag first path hprepare hopen =>
      rw [prepare_upsert M env request hs] at hprepare
      cases hprepare
      exact Nat.le_trans (restoreArchive_errors M C env request i m _ s) (ih (i + 1) _)

theorem writable_rest {s s' : Restoring} {target : String} {docs rest : List Document} (hw : Writable (s.db target) (docs ++ rest))
    (hsame : docs = [] → s'.db target = s.db target) : Writable (s'.db target) rest := by
  rcases hw.append.2 with rfl | hids
  · rw [hsame rfl]
    exact hw
  · exact writable_of_allIds hids

theorem upsert_restoreLoop (hs : request.conflictStrategy = .upsert) (target : String) (ms : List CollectionMapping) :
    ∀ (i : Nat) {s : Restoring}, Writable (s.db target) (archivedInto C dir target ms) → Attended C dir env i ms →
      let r := restoreLoop M C dir env request i ms s
      (∀ d, Untouched M (archivedInto C dir target ms) d → d ∈ s.db target → d ∈ r.2.db target) ∧
        (r.1 = none → r.2.errors = s.errors → r.2.cancelled = false → ∀ doc ∈ archivedInto C dir target ms,
          Untouched M (archivedInto C dir target ms) (asStored M doc) → asStored M doc ∈ r.2.db target) := by
  induction ms with
  | nil => exact fun _ _ _ _ => ⟨fun _ _ hmem => hmem, fun _ _ _ _ hdoc => absurd hdoc (by simp [archivedInto])⟩
  | cons m ms ih =>
    intro i s hw hattended
    have hcons := archivedInto_cons C dir target m ms
    have hturn := restoreTurn_ends M C dir env request i m s
    simp only [restoreLoop]
    generalize restoreTurn M C dir env request i m s = r at hturn ⊢
    cases hturn with
    | disabled off =>
      have hrest : archivedInto C dir target (m :: ms) = archivedInto C dir target ms := by simp [hcons, off]
      rw [hrest] at hw ⊢
      exact ih (i + 1) hw hattended.2
    | cancelled on => exact ⟨fun _ _ hmem => hmem, fun _ _ hnot => by simp at hnot⟩
    | missing on flag path =>
      have hrest : archivedInto C dir target (m :: ms) = archivedInto C dir target ms := by
        simp [hcons, archived_of_missing C dir path]
      rw [hrest] at hw ⊢
      exact ih (i + 1) hw hattended.2
    | prepared on flag path hprepare =>
      rw [prepare_upsert M env request hs] at hprepare
      cases hprepare
    | unopened on flag path hprepare hopen =>
      rw [prepare_upsert M env request hs] at hprepare
      cases hprepare
      exact ⟨fun _ _ hmem => hmem, fun hnone => by cases hnone⟩
    | @restored _ reader s₁ on flag first path hprepare hopen =>
      rw [prepare_upsert M env request hs] at hprepare
      obtain rfl : s = s₁ := (Prod.mk.inj hprepare).2
      dsimp only
      have harchived := archived_of_open C dir path hopen
      have herrors := restoreArchive_errors M C env request i m reader s
      have hloop := restoreLoop_errors M C dir env request ms hs (i + 1) (restoreArchive M C env request i m reader s)
      by_cases htarget : m.target = target
      · subst htarget
        rw [if_pos (by simp [on]), harchived] at hcons
        rw [hcons] at hw ⊢
        obtain ⟨hkeep, hstored⟩ := restoreArchive_upsert M C env request hs i m s hw.append.1
        have hnext := ih (i + 1) (writable_rest hw fun hnil => by rw [restoreArchive_empty M C env request i m s hnil]) hattended.2
        have hleft {d : Document} (h : Untouched M ((readAll C reader).1 ++ archivedInto C dir m.target ms) d) :=
          h.mono M fun _ hd => List.mem_append_left (archivedInto C dir m.target ms) hd
        have hright {d : Document} (h : Untouched M ((readAll C reader).1 ++ archivedInto C dir m.target ms) d) :=
          h.mono M fun _ hd => List.mem_append_right (readAll C reader).1 hd
        refine ⟨fun d hd hmem => hnext.1 d (hright hd) (hkeep d (hleft hd) hmem), fun hnone heq hnot doc hdoc hd => ?_⟩
        rcases List.mem_append.1 hdoc with hdoc | hdoc
        · refine hnext.1 _ (hright hd) ?_
          rcases hstored (by omega) with ⟨k, hk, hle⟩ | hstored
          · -- the flag was set while the archive was restored: another mapping would have found it
            have hlast : ∀ m' ∈ ms, m'.enabled = false := by
              intro m' hm'
              by_contra hon
              have := restoreLoop_flagged M C dir env request ms (i + 1)
                (s := restoreArchive M C env request i m reader s) (by simp [restoreArchive_flagged, hk]) ⟨m', hm', by simpa using hon⟩
              simp [hnot] at this
            rcases hattended.1 on hlast k hk with rfl | hlt
            · exact absurd hk first
            · rw [harchived] at hlt
              omega
          · exact hstored doc hdoc (hleft hd)
        · exact hnext.2 hnone (by omega) hnot doc hdoc (hright hd)
      · have hother := restoreArchive_other M C env request i m reader s (Ne.symm htarget)
        have hrest : archivedInto C dir target (m :: ms) = archivedInto C dir target ms := by simp [hcons, htarget]
        rw [hrest] at hw ⊢
        have hnext := ih (i + 1) (s := restoreArchive M C env request i m reader s) (by rwa [hother]) hattended.2
        rw [hother] at hnext
        exact ⟨hnext.1, fun hnone heq => hnext.2 hnone (by omega)⟩

theorem prepare_skip (hs : request.conflictStrategy = .skip) (i : Nat) (m : CollectionMapping) (s : Restoring) :
    (prepare M env request i m s).2 = s ∧ (s.db m.target ≠ [] → (prepare M env request i m s).1 ≠ none) := by
  simp only [prepare, hs]
  cases env.countFault i with
  | some e => simp
  | none =>
    by_cases hpos : 0 < M.estimatedDocumentCount (s.db m.target)
    · simp [hpos]
    · simp only [hpos, if_false, true_and]
      exact fun hne => absurd (M.estimated_pos _ hne) hpos

theorem prepare_drop (hs : request.conflictStrategy = .drop) (i : Nat) (m : CollectionMapping) (s : Restoring) :
    (prepare M env request i m s).1 = none ∧ ∀ target, (m.target = target → s.db target = [] ∨ ∃ e, env.drops i = .refused e) →
      (prepare M env request i m s).2.db target = s.db target := by
  have hdropped (target : String) (h : m.target = target → s.db target = []) : (s.withDocs m.target []).db target = s.db target := by
    by_cases htarget : target = m.target
    · subst htarget
      simp [Restoring.withDocs, h rfl]
    · exact Function.update_of_ne htarget _ _
  simp only [prepare, hs]
  cases env.drops i with
  | refused e => exact ⟨rfl, fun _ _ => rfl⟩
  | lost e => exact ⟨rfl, fun target h => hdropped target fun heq => (h heq).resolve_right (by simp)⟩
  | done => exact ⟨rfl, fun target h => hdropped target fun heq => (h heq).resolve_right (by simp)⟩

theorem skip_restoreLoop (hs : request.conflictStrategy = .skip) (target : String) (ms : List CollectionMapping) :
    ∀ (i : Nat) {s : Restoring}, s.db target ≠ [] → (restoreLoop M C dir env request i ms s).2.db target = s.db target := by
  induction ms with
  | nil => exact fun _ _ _ => rfl
  | cons m ms ih =>
    intro i s hne
    have hturn := restoreTurn_ends M C dir env request i m s
    obtain ⟨hprepared, hskip⟩ := prepare_skip M env request hs i m s
    simp only [restoreLoop]
    generalize restoreTurn M C dir env request i m s = r at hturn ⊢
    cases hturn with
    | disabled off => exact ih (i + 1) hne
    | cancelled on => rfl
    | missing on flag path => exact ih (i + 1) hne
    | @prepared _ turn s₁ on flag path hprepare =>
      rw [hprepare] at hprepared
      obtain rfl : s₁ = s := hprepared
      cases turn with
      | next => exact ih (i + 1) hne
      | stop => rfl
      | fail e => rfl
    | unopened on flag path hprepare hopen =>
      rw [hprepare] at hprepared
      obtain rfl := hprepared
      rfl
    | @restored _ reader s₁ on flag first path hprepare hopen =>
      rw [hprepare] at hprepared hskip
      obtain rfl : s₁ = s := hprepared
      have hne' : target ≠ m.target := fun heq => hskip (by rwa [← heq]) rfl
      have hother := restoreArchive_other M C env request i m reader s₁ hne'
      exact (ih (i + 1) (by rwa [hother])).trans hother

/-- Where no archive that is there can be read, the target stays as it was, if it was empty or is not dropped. -/
theorem drop_restoreLoop (hs : request.conflictStrategy = .drop) (target : String) (ms : List CollectionMapping) :
    ∀ (i : Nat) {s : Restoring}, (∀ j m, ms[j]? = some m → m.enabled → m.target = target → (dir.sourcePath m.source).isSome →
      Unreadable C dir m ∧ (s.db target = [] ∨ ∃ e, env.drops (i + j) = .refused e)) →
      (restoreLoop M C dir env request i ms s).2.db target = s.db target := by
  induction ms with
  | nil => exact fun _ _ _ => rfl
  | cons m ms ih =>
    intro i s h
    have hrest {s' : Restoring} (heq : s'.db target = s.db target) :
        (restoreLoop M C dir env request (i + 1) ms s').2.db target = s.db target := by
      refine (ih (i + 1) fun j m' hm' hon htarget hpath => ?_).trans heq
      have := h (j + 1) m' (by simpa using hm') hon htarget hpath
      rwa [heq, Nat.add_assoc, Nat.add_comm 1 j]
    have hturn := restoreTurn_ends M C dir env request i m s
    simp only [restoreLoop]
    -- the drop leaves the collection as it is
    have hprepared (hon : m.enabled) (hpath : (dir.sourcePath m.source).isSome) :=
      (prepare_drop M env request hs i m s).2 target fun htarget => (h 0 m rfl hon htarget hpath).2
    have hgoesOn := (prepare_drop M env request hs i m s).1
    generalize restoreTurn M C dir env request i m s = r at hturn ⊢
    cases hturn with
    | disabled off => exact hrest rfl
    | cancelled on => rfl
    | missing on flag path => exact hrest rfl
    | prepared on flag path hprepare =>
      simp [hprepare] at hgoesOn
    | unopened on flag path hprepare hopen =>
      have := hprepared on (by rw [path]; rfl)
      rwa [hprepare] at this
    | @restored _ reader s₁ on flag first path hprepare hopen =>
      have hdb := hprepared on (by rw [path]; rfl)
      rw [hprepare] at hdb
      refine hrest ?_
      by_cases htarget : m.target = target
      · have hunreadable := (h 0 m rfl on htarget (by rw [path]; rfl)).1
        simp only [Unreadable, path, Option.map_some, hopen] at hunreadable
        rw [restoreArchive_empty M C env request i m s₁ hunreadable.1]
        exact hdb
      · exact (restoreArchive_other M C env request i m reader s₁ (Ne.symm htarget)).trans hdb

/-! ## The whole restore -/

theorem sameId_withId (id : Bson) (doc doc' d : Document) : SameId M d (withId id doc) ↔ SameId M d (withId id doc') := by
  simp [SameId, withId]

theorem untouched_stored (h : ∀ doc' ∈ docs, SameId M doc' (asStored M doc) → doc' = doc) :
    Untouched M docs (asStored M doc) where
  hasId := lookup_stored M doc
  safe doc' hdoc' hsame := by
    obtain rfl := h doc' hdoc' hsame
    obtain ⟨_, _, id, hid, _⟩ := hsame
    simp [asStored, hid]

theorem held_of_stored (hw : Writable before docs)
    (hdistinct : ∀ doc ∈ docs, ∀ doc' ∈ docs, SameId M doc' (asStored M doc) → doc' = doc) (h : ∀ doc ∈ docs, asStored M doc ∈ after) :
    Held M docs before after where
  withIds doc hdoc hid := by
    have := h doc hdoc
    rwa [asStored, if_neg hid] at this
  inserted := by
    have hnone {ds : List Document} (hids : AllIds ds) : (ds.filter fun doc => doc.lookup "_id" = none) = [] :=
      List.filter_eq_nil_iff.2 fun doc hdoc => by simpa using hids doc hdoc
    cases docs with
    | nil => exact ⟨[], rfl, List.Pairwise.nil, by simp, by simp⟩
    | cons doc rest =>
      by_cases hid : doc.lookup "_id" = none
      · -- the first document, inserted into the empty collection
        obtain rfl := hw.1 hid
        have hfilter : ((doc :: rest).filter fun doc => doc.lookup "_id" = none) = [doc] := by
          rw [List.filter_cons, if_pos (by simpa using hid), hnone hw.2]
        have hstored : asStored M doc = withId (M.newId []) doc := if_pos hid
        refine ⟨[M.newId []], by rw [hfilter]; rfl, List.pairwise_singleton _ _, fun id hmem d hd hsame => ?_, ?_⟩
        · obtain rfl := List.mem_singleton.1 hmem
          rw [sameId_withId M _ [] doc, ← hstored] at hsame
          obtain rfl := hdistinct doc List.mem_cons_self d hd hsame
          obtain ⟨_, _, id, hid', _⟩ := hsame
          rw [hid] at hid'
          cases hid'
        · have := h doc List.mem_cons_self
          rw [hstored] at this
          simpa [hfilter] using this
      · have hall : AllIds (doc :: rest) := fun d hd => by
          rcases List.mem_cons.1 hd with rfl | hd
          · exact hid
          · exact hw.2 d hd
        exact ⟨[], by rw [hnone hall]; rfl, List.Pairwise.nil, by simp, by simp⟩

theorem restoreDatabase_db (before : String → List Document) : (restoreDatabase M C dir env request before).2 =
    (restoreLoop M C dir env request 0 request.collectionMap ⟨before, 0, false, 0, 0, 0, false⟩).2.db := by
  unfold restoreDatabase
  cases restoreLoop M C dir env request 0 request.collectionMap ⟨before, 0, false, 0, 0, 0, false⟩ with
  | mk error s => cases error <;> rfl

theorem restoreDatabase_ok (h : (restoreDatabase M C dir env request before).1 = .ok result) :
    let r := restoreLoop M C dir env request 0 request.collectionMap ⟨before, 0, false, 0, 0, 0, false⟩
    r.1 = none ∧ r.2.errors = result.errors ∧ r.2.cancelled = result.cancelled := by
  unfold restoreDatabase at h
  cases hr : restoreLoop M C dir env request 0 request.collectionMap ⟨before, 0, false, 0, 0, 0, false⟩ with
  | mk error s =>
    cases error with
    | some e => simp [hr] at h
    | none =>
      simp only [hr, Except.ok.injEq] at h
      simp [← h]

end

/-! ## A document without `_id` -/

/-- A server that compares the `_id`s that are 32-bit integers. -/
def plainServer : MongoServer where
  selects filter d := filter.all fun f => match f.2, d.lookup f.1 with
    | .int32 n, some (.int32 n') => n = n'
    | _, _ => false
  sameId
    | .int32 n, .int32 n' => n = n'
    | _, _ => false
  newId _ := .objectId ⟨List.replicate 12 0, rfl⟩
  estimatedDocumentCount docs := docs.length
  selects_all _ := rfl
  estimated_pos _ h := List.length_pos_iff.2 h

/-- One empty document is imported. -/
def emptyImport : Job := ⟨[], [.doc []], none, ⟨"job-1", none, 0, 0⟩⟩

theorem emptyImport_replaces : ∃ x, (runPipeline (collectionSink plainServer (fun _ => .done) .upsert 1000) emptyImport
      ⟨[[("_id", .int32 1)]], [], 0, 0⟩).2.docs = [x] ∧
    x.lookup "_id" = some (.int32 1) ∧ (x = [("_id", .int32 1)] ∨ ∃ doc, Written emptyImport doc ∧ x = withId (.int32 1) doc) := by
  refine upsert_without_ids plainServer _ 1000 0 emptyImport ?_ rfl []
  rintro doc ⟨row, hrow, htransforms⟩
  cases List.mem_singleton.1 hrow
  cases htransforms
  rfl

/-- The codec of the empty document, `05 00 00 00 00`. -/
def emptyDocument : BsonCodec Document where
  toVec _ := .ok [5, 0, 0, 0, 0]
  fromSlice bytes := if bytes = [5, 0, 0, 0, 0] then .ok [] else .error "expected an empty document"

/-- A dump of one collection, which holds one document, and that one is empty. -/
def emptyDump : Directory where
  isFile name := name = "users.bson"
  fromPath _ := .ok ⟨[5, 0, 0, 0, 0], none⟩

/-- Nothing fails, and nobody cancels. -/
def calm : Circumstances := ⟨fun _ => .done, fun _ => .done, fun _ => none, fun _ => none⟩

def upsertUsers : RestoreRequest := ⟨"job-1", [⟨"users", "users", true⟩], .upsert⟩

theorem readAll_emptyDump : readAll emptyDocument ⟨[5, 0, 0, 0, 0], none⟩ = ([[]], .ok ()) := by
  have hfirst : nextDoc emptyDocument ⟨[5, 0, 0, 0, 0], none⟩ = (.ok (some []), ⟨[], none⟩) := by rfl
  have hend : nextDoc emptyDocument ⟨[], none⟩ = (.ok none, ⟨[], none⟩) := by rfl
  have hnil : readAll emptyDocument ⟨[], none⟩ = ([], .ok ()) := by
    rw [readAll]
    split
    · rfl
    · next heq => simp [hend] at heq
    · next heq => simp [hend] at heq
  rw [readAll]
  split
  · next heq => simp [hfirst] at heq
  · next heq => simp [hfirst] at heq
  · next heq =>
    rw [hfirst] at heq
    obtain ⟨h1, rfl⟩ := Prod.mk.inj heq
    obtain rfl := Option.some.inj (Except.ok.inj h1)
    rw [hnil]

theorem archivedInto_emptyDump (target : String) :
    archivedInto emptyDocument emptyDump target upsertUsers.collectionMap = if target = "users" then [[]] else [] := by
  by_cases h : target = "users"
  · subst h
    simp [archivedInto, upsertUsers, archived, emptyDump, Directory.sourcePath, readAll_emptyDump]
  · simp [archivedInto, upsertUsers, h, Ne.symm h]

theorem restoreJob_emptyDump : restoreJob emptyDocument calm upsertUsers 0 ⟨[5, 0, 0, 0, 0], none⟩ =
    ⟨[], [.doc []], none, ⟨"job-1", none, 10000, 100⟩⟩ := by
  simp [restoreJob, readAll_emptyDump, calm, upsertUsers]

/-- The collection before: one user, whom the dump does not mention. -/
def oneUser (target : String) : List Document :=
  if target = "users" then [[("_id", .int32 1), ("name", .string "Ada")]] else []

theorem restored_users :
    (restoreDatabase plainServer emptyDocument emptyDump calm upsertUsers oneUser).2 "users" = [[("_id", .int32 1)]] := by
  rw [restoreDatabase_db]
  have hloop : (restoreLoop plainServer emptyDocument emptyDump calm upsertUsers 0 upsertUsers.collectionMap
      ⟨oneUser, 0, false, 0, 0, 0, false⟩).2.db = (restoreArchive plainServer emptyDocument calm upsertUsers 0
        ⟨"users", "users", true⟩ ⟨[5, 0, 0, 0, 0], none⟩ ⟨oneUser, 0, false, 0, 0, 0, false⟩).db := rfl
  have htarget := restoreArchive_target plainServer emptyDocument calm upsertUsers 0 ⟨"users", "users", true⟩ ⟨[5, 0, 0, 0, 0], none⟩
    ⟨oneUser, 0, false, 0, 0, 0, false⟩
  rw [hloop, htarget, restoreJob_emptyDump]
  rfl

end ImportExport
