import NosqlBuddy.Jobs.Store
import NosqlBuddy.Lib.Newest
import NosqlBuddy.Timeline.Store

/-!
# Texts for instants

| here | there |
| --- | --- |
| `instant`, `readRfc3339` | `DateTime::parse_from_rfc3339` of `chrono`, in nanoseconds; the texts are those of `to_rfc3339` |
| `listJobs`, `cleanupRetention` | `job_store.rs:305`, `:392` |
| `TimelineStore.list`, `pruned` | `timeline_store.rs:460`, `:543` |

`due_jobs` reads the time of a schedule before it compares it (job_store.rs:367). These four compare texts, and a text holds
the local time before the offset: when the clock goes back, what is written later sorts as earlier (`clock_back`).
-/

namespace Instants
open Jobs Timeline Newest

/-! ## RFC 3339 -/

/-- The digits that a text begins with, as many as asked for. -/
def readDigits : Nat → Nat → List Char → Option (Nat × List Char)
  | 0, acc, cs => some (acc, cs)
  | _ + 1, _, [] => none
  | n + 1, acc, c :: cs => if c.isDigit then readDigits n (10 * acc + (c.toNat - '0'.toNat)) cs else none

def readChar (allowed : List Char) : List Char → Option (Char × List Char)
  | [] => none
  | c :: cs => if c ∈ allowed then some (c, cs) else none

/-- A number between two bounds. -/
def readField (digits lo hi : Nat) (cs : List Char) : Option (Nat × List Char) :=
  (readDigits digits 0 cs).filter fun r => lo ≤ r.1 && r.1 ≤ hi

/-- The fraction of a second in nanoseconds; what is smaller is dropped. -/
def readFraction : List Char → Option (Nat × List Char)
  | '.' :: cs =>
    let digits := cs.takeWhile Char.isDigit
    if digits = [] then none
    else (readDigits 9 0 ((digits ++ List.replicate 9 '0').take 9)).map fun r => (r.1, cs.dropWhile Char.isDigit)
  | cs => some (0, cs)

/-- The offset from UTC in minutes, at the end of the text. -/
def readOffset (cs : List Char) : Option Int := do
  let (c, cs) ← readChar ['Z', 'z', '+', '-'] cs
  if c = 'Z' ∨ c = 'z' then guard (cs = []) *> pure 0
  else
    let (hours, cs) ← readField 2 0 23 cs
    let (_, cs) ← readChar [':'] cs
    let (minutes, cs) ← readField 2 0 59 cs
    guard (cs = [])
    pure (if c = '+' then 60 * hours + minutes else -(60 * hours + minutes : Int))

def isLeapYear (year : Nat) : Bool := year % 4 = 0 && (year % 100 ≠ 0 || year % 400 = 0)

def daysInMonth (year month : Nat) : Nat :=
  if month = 2 then if isLeapYear year then 29 else 28
  else if month = 4 ∨ month = 6 ∨ month = 9 ∨ month = 11 then 30 else 31

/-- The days from the first of January of the year 0 to the first of the month. -/
def daysBefore (year month : Nat) : Nat :=
  365 * year + (year + 3) / 4 - (year + 99) / 100 + (year + 399) / 400 +
    ((List.range' 1 (month - 1)).map (daysInMonth year)).sum

def readRfc3339 (text : String) : Option Int := do
  let (year, cs) ← readField 4 0 9999 text.toList
  let (_, cs) ← readChar ['-'] cs
  let (month, cs) ← readField 2 1 12 cs
  let (_, cs) ← readChar ['-'] cs
  let (day, cs) ← readField 2 1 (daysInMonth year month) cs
  let (_, cs) ← readChar ['T', 't', ' '] cs
  let (hour, cs) ← readField 2 0 23 cs
  let (_, cs) ← readChar [':'] cs
  let (minute, cs) ← readField 2 0 59 cs
  let (_, cs) ← readChar [':'] cs
  let (second, cs) ← readField 2 0 60 cs
  let (nanos, cs) ← readFraction cs
  let offset ← readOffset cs
  let minutes : Int := ((daysBefore year month + (day - 1)) * 24 + hour) * 60 + minute - offset
  pure ((minutes * 60 + second) * 1000000000 + nanos)

/-- The instant that a text stands for, from the beginning of the year 0. -/
def instant (text : String) : Int := (readRfc3339 text).getD 0

/-! ## The statement -/

/-- The records of both stores. -/
structure Records where
  jobs : List JobMeta
  entries : List TimelineEntry
  jobIds : (jobs.map (·.jobId)).Nodup
  entryIds : (entries.map (·.id)).Nodup

/-- A finished run of a template. -/
def isFinishedRun (templateJobId : String) (j : JobMeta) : Bool :=
  j.parentJobId = some templateJobId && j.status ≠ .running && j.status ≠ .queued

/-- The entries that a filter is to select: the criteria, and an instant in the closed interval. -/
def wanted (filter : TimelineFilter) (e : TimelineEntry) : Bool :=
  filter.profileId.all (e.profileId = ·) && filter.database.all (e.database = ·) && filter.collection.all (e.collection = ·) &&
    filter.kind.all (e.kind = ·) && filter.errored.all (e.errored = ·) &&
    filter.from'.all (fun t => instant t ≤ instant e.createdAt) && filter.to'.all (fun t => instant e.createdAt ≤ instant t)

abbrev NewestJobs := NewestOf fun j : JobMeta => instant j.createdAt

abbrev NewestEntries := NewestOf fun e : TimelineEntry => instant e.createdAt

/-- The stores go by instants, for the bounds of a filter and the cutoff that are given, and for every other criterion, limit
and number to retain. -/
structure TimeOrder (records : Records) (from' to' cutoff : String) : Prop where
  /-- `JobStore::list` returns the newest jobs of those that meet the criteria. -/
  jobs : ∀ filter : JobFilter, NewestJobs (filter.limit.getD (records.jobs.filter filter.accepts).length)
    (records.jobs.filter filter.accepts) (listJobs filter records.jobs)
  /-- `cleanup_retention` leaves the newest finished runs, and all other jobs. -/
  retention : ∀ templateJobId retentionCount, ∃ newest,
    NewestJobs retentionCount (records.jobs.filter (isFinishedRun templateJobId)) newest ∧
      cleanupRetention templateJobId retentionCount records.jobs =
        records.jobs.filter fun j => !isFinishedRun templateJobId j || j ∈ newest
  /-- `TimelineStore::list` returns the newest entries of those that are wanted. -/
  entries : ∀ filter : TimelineFilter, (∀ t ∈ filter.from', t = from') → (∀ t ∈ filter.to', t = to') →
    NewestEntries (filter.limit.getD (records.entries.filter (wanted filter)).length)
      (records.entries.filter (wanted filter)) ((TimelineStore.load records.entries).list filter)
  /-- `prune` removes what is older than the cutoff and not among the newest of its profile. -/
  prune : ∀ retentionCount, ∃ newest : String → List TimelineEntry,
    (∀ pid, NewestEntries retentionCount (records.entries.filter fun e => e.profileId = pid) (newest pid)) ∧
      pruned cutoff retentionCount records.entries =
        records.entries.filter fun e => instant cutoff ≤ instant e.createdAt || e ∈ newest e.profileId

/-- The texts are in the order of the instants. -/
structure TextOrder (records : Records) (from' to' cutoff : String) : Prop where
  jobs : Agree JobMeta.createdAt instant records.jobs
  entries : Agree TimelineEntry.createdAt instant records.entries
  from' : ∀ e ∈ records.entries, from' ≤ e.createdAt ↔ instant from' ≤ instant e.createdAt
  to' : ∀ e ∈ records.entries, e.createdAt ≤ to' ↔ instant e.createdAt ≤ instant to'
  cutoff : ∀ e ∈ records.entries, cutoff ≤ e.createdAt ↔ instant cutoff ≤ instant e.createdAt

variable {records : Records} {from' to' cutoff : String}

/-! ## Jobs -/

theorem listJobs_newest (h : Agree JobMeta.createdAt instant records.jobs) (filter : JobFilter) :
    NewestJobs (filter.limit.getD (records.jobs.filter filter.accepts).length) (records.jobs.filter filter.accepts)
      (listJobs filter records.jobs) := by
  have hperm := List.perm_insertionSort (fun a b : JobMeta => b.createdAt ≤ a.createdAt) (records.jobs.filter filter.accepts)
  have hsorted := List.pairwise_insertionSort (fun a b : JobMeta => b.createdAt ≤ a.createdAt) (records.jobs.filter filter.accepts)
  unfold listJobs
  cases filter.limit with
  | none => exact (newestOf_iff hperm hsorted).2 (h.filter _)
  | some limit => exact newestOf_take hperm hsorted (h.filter _) limit

theorem mem_map_iff_of_nodup {α β : Type} {id : α → β} {xs ys : List α} (h : (xs.map id).Nodup) (hsub : ∀ b ∈ ys, b ∈ xs) {a : α}
    (ha : a ∈ xs) : id a ∈ ys.map id ↔ a ∈ ys := by
  constructor
  · intro hmem
    obtain ⟨b, hb, heq⟩ := List.mem_map.1 hmem
    rwa [← List.inj_on_of_nodup_map h (hsub b hb) ha heq]
  · exact List.mem_map_of_mem

theorem not_mem_drop_iff {α : Type} {xs : List α} (h : xs.Nodup) (n : Nat) {a : α} (ha : a ∈ xs) :
    a ∉ xs.drop n ↔ a ∈ xs.take n := by
  rw [← List.take_append_drop n xs] at h ha
  constructor
  · exact fun hnot => (List.mem_append.1 ha).resolve_right hnot
  · exact fun htake hdrop => (List.nodup_append.1 h).2.2 a htake a hdrop rfl

theorem cleanupRetention_newest (h : Agree JobMeta.createdAt instant records.jobs) (templateJobId : String) (retentionCount : Nat) :
    ∃ newest, NewestJobs retentionCount (records.jobs.filter (isFinishedRun templateJobId)) newest ∧
      cleanupRetention templateJobId retentionCount records.jobs =
        records.jobs.filter fun j => !isFinishedRun templateJobId j || j ∈ newest := by
  have hperm := List.perm_insertionSort (fun a b : JobMeta => b.createdAt ≤ a.createdAt)
    (records.jobs.filter (isFinishedRun templateJobId))
  have hsorted := List.pairwise_insertionSort (fun a b : JobMeta => b.createdAt ≤ a.createdAt)
    (records.jobs.filter (isFinishedRun templateJobId))
  refine ⟨_, newestOf_take hperm hsorted (h.filter _) retentionCount, List.filter_congr fun j hj => ?_⟩
  have hruns : ∀ k ∈ (records.jobs.filter (isFinishedRun templateJobId)).insertionSort fun a b => b.createdAt ≤ a.createdAt,
      k ∈ records.jobs ∧ isFinishedRun templateJobId k := fun k hk => List.mem_filter.1 (hperm.mem_iff.1 hk)
  have hnodup := hperm.nodup_iff.2 ((List.Nodup.of_map _ records.jobIds).filter (isFinishedRun templateJobId))
  have hout : j.jobId ∈ outdatedRuns templateJobId retentionCount records.jobs ↔
      j ∈ ((records.jobs.filter (isFinishedRun templateJobId)).insertionSort
        fun a b => b.createdAt ≤ a.createdAt).drop retentionCount :=
    mem_map_iff_of_nodup records.jobIds (fun k hk => (hruns k (List.mem_of_mem_drop hk)).1) hj
  simp only [hout, decide_not]
  cases hrun : isFinishedRun templateJobId j with
  | false =>
    have hnot : j ∉ ((records.jobs.filter (isFinishedRun templateJobId)).insertionSort
        fun a b => b.createdAt ≤ a.createdAt).drop retentionCount := by
      intro hdrop
      have := (hruns j (List.mem_of_mem_drop hdrop)).2
      simp [hrun] at this
    simp [hnot]
  | true =>
    have hiff := not_mem_drop_iff hnodup retentionCount (hperm.mem_iff.2 (List.mem_filter.2 ⟨hj, hrun⟩))
    simp [← hiff]

/-! ## Entries -/

theorem list_load (entries : List TimelineEntry) (filter : TimelineFilter) :
    (TimelineStore.load entries).list filter = selected entries filter :=
  list_eq_selected (s := .load entries) (.inl (coherent_of_index rfl rfl)) (inTurn_of_idle rfl _)

instance : Std.Total NewestFirst := ⟨fun a b => le_total b.createdAt a.createdAt⟩

instance : IsTrans TimelineEntry NewestFirst := ⟨fun _ _ _ hab hbc => le_trans hbc hab⟩

theorem selected_eq (entries : List TimelineEntry) (filter : TimelineFilter) : selected entries filter =
    (((entries.filter fun e => filter.profileId.all (e.profileId = ·)).filter filter.accepts).insertionSort NewestFirst).take
      (filter.limit.getD ((entries.filter fun e => filter.profileId.all (e.profileId = ·)).filter filter.accepts).length) := by
  unfold selected TimelineFilter.report
  cases filter.limit with
  | none => exact (List.take_of_length_le (Nat.le_of_eq (List.length_insertionSort _ _))).symm
  | some limit => rfl

theorem accepts_eq_wanted (h : TextOrder records from' to' cutoff) (hfrom : ∀ t ∈ filter.from', t = from')
    (hto : ∀ t ∈ filter.to', t = to') : (records.entries.filter fun e => filter.profileId.all (e.profileId = ·)).filter filter.accepts =
      records.entries.filter (wanted filter) := by
  rw [List.filter_filter]
  refine List.filter_congr fun e he => ?_
  have hf : filter.from'.all (fun t => decide (t ≤ e.createdAt)) = filter.from'.all fun t => decide (instant t ≤ instant e.createdAt) := by
    cases hv : filter.from' with
    | none => rfl
    | some t =>
      obtain rfl := hfrom t hv
      simp only [Option.all_some, h.from' e he]
  have ht : filter.to'.all (fun t => decide (e.createdAt ≤ t)) = filter.to'.all fun t => decide (instant e.createdAt ≤ instant t) := by
    cases hv : filter.to' with
    | none => rfl
    | some t =>
      obtain rfl := hto t hv
      simp only [Option.all_some, h.to' e he]
  simp only [TimelineFilter.accepts, wanted, hf, ht]
  ac_rfl

theorem list_newest (h : TextOrder records from' to' cutoff) (filter : TimelineFilter) (hfrom : ∀ t ∈ filter.from', t = from')
    (hto : ∀ t ∈ filter.to', t = to') : NewestEntries (filter.limit.getD (records.entries.filter (wanted filter)).length)
      (records.entries.filter (wanted filter)) ((TimelineStore.load records.entries).list filter) := by
  rw [list_load, selected_eq, accepts_eq_wanted h hfrom hto]
  exact newestOf_take (List.perm_insertionSort _ _) (List.pairwise_insertionSort NewestFirst _) (h.entries.filter _) _

/-- The most recent entries of a profile, as `prune` sorts them. -/
def recent (entries : List TimelineEntry) (retentionCount : Nat) (pid : String) : List TimelineEntry :=
  ((entries.filter fun e => e.profileId = pid).insertionSort NewestFirst).take retentionCount

theorem mem_recent (h : e ∈ recent entries retentionCount pid) : e ∈ entries ∧ e.profileId = pid := by
  have := List.mem_filter.1 ((List.perm_insertionSort _ _).mem_iff.1 (List.mem_of_mem_take h))
  exact ⟨this.1, by simpa using this.2⟩

theorem mem_keepIds_iff (records : Records) (retentionCount : Nat) {e : TimelineEntry} (he : e ∈ records.entries) :
    e.id ∈ keepIds retentionCount records.entries ↔ e ∈ recent records.entries retentionCount e.profileId := by
  have hid (pid : String) : e.id ∈ (recent records.entries retentionCount pid).map TimelineEntry.id ↔
      e ∈ recent records.entries retentionCount pid :=
    mem_map_iff_of_nodup records.entryIds (fun k hk => (mem_recent hk).1) he
  unfold keepIds
  rw [List.mem_flatMap]
  constructor
  · rintro ⟨pid, -, hmem⟩
    have hrecent := (hid pid).1 hmem
    rwa [(mem_recent hrecent).2]
  · exact fun hmem => ⟨e.profileId, List.mem_dedup.2 (List.mem_map_of_mem he), (hid e.profileId).2 hmem⟩

theorem pruned_newest (h : TextOrder records from' to' cutoff) (retentionCount : Nat) : ∃ newest : String → List TimelineEntry,
    (∀ pid, NewestEntries retentionCount (records.entries.filter fun e => e.profileId = pid) (newest pid)) ∧
      pruned cutoff retentionCount records.entries =
        records.entries.filter fun e => instant cutoff ≤ instant e.createdAt || e ∈ newest e.profileId := by
  refine ⟨recent records.entries retentionCount, fun pid => ?_, List.filter_congr fun e he => ?_⟩
  · exact newestOf_take (List.perm_insertionSort _ _) (List.pairwise_insertionSort NewestFirst _) (h.entries.filter _) retentionCount
  · simp only [h.cutoff e he, mem_keepIds_iff records retentionCount he]

/-! ## The other direction -/

theorem accepts_iff_wanted (h : TimeOrder records from' to' cutoff) {filter : TimelineFilter} (hfrom : ∀ t ∈ filter.from', t = from')
    (hto : ∀ t ∈ filter.to', t = to') (hlimit : filter.limit = none) {e : TimelineEntry} (he : e ∈ records.entries) :
    (filter.accepts e && filter.profileId.all (e.profileId = ·)) = wanted filter e := by
  have hnewest := h.entries filter hfrom hto
  rw [hlimit, list_load, selected_eq, hlimit, Option.getD_none, Option.getD_none, List.filter_filter] at hnewest
  have hmem := hnewest.perm.mem_iff (a := e)
  rw [List.take_of_length_le (Nat.le_of_eq (List.length_insertionSort _ _)), (List.perm_insertionSort _ _).mem_iff, List.mem_filter,
    List.mem_filter] at hmem
  exact Bool.eq_iff_iff.2 ((and_iff_right_of_imp fun _ => he).symm.trans (hmem.trans (and_iff_right_of_imp fun _ => he)))

theorem TimeOrder.agree_jobs (h : TimeOrder records from' to' cutoff) : Agree JobMeta.createdAt instant records.jobs := by
  have hall : records.jobs.filter (JobFilter.accepts {}) = records.jobs := List.filter_eq_self.2 fun _ _ => rfl
  have hnewest := h.jobs {}
  rw [hall] at hnewest
  have hperm := List.perm_insertionSort (fun a b : JobMeta => b.createdAt ≤ a.createdAt) records.jobs
  refine (newestOf_iff hperm (List.pairwise_insertionSort (fun a b : JobMeta => b.createdAt ≤ a.createdAt) _)).1 ?_
  simpa [listJobs, hall] using hnewest

theorem TimeOrder.agree_entries (h : TimeOrder records from' to' cutoff) : Agree TimelineEntry.createdAt instant records.entries := by
  have hwanted : records.entries.filter (wanted {}) = records.entries := List.filter_eq_self.2 fun _ _ => rfl
  have haccepts : (records.entries.filter fun _ => true).filter (TimelineFilter.accepts {}) = records.entries := by
    rw [List.filter_filter]
    exact List.filter_eq_self.2 fun _ _ => rfl
  have hnewest := h.entries {} (by simp) (by simp)
  rw [hwanted, list_load, selected_eq] at hnewest
  simp only [Option.all_none, haccepts, Option.getD_none] at hnewest
  have hperm := List.perm_insertionSort NewestFirst records.entries
  rw [← hperm.length_eq, List.take_length, hperm.length_eq] at hnewest
  exact (newestOf_iff hperm (List.pairwise_insertionSort NewestFirst _)).1 hnewest

theorem TimeOrder.textOrder (h : TimeOrder records from' to' cutoff) : TextOrder records from' to' cutoff where
  jobs := h.agree_jobs
  entries := h.agree_entries
  from' e he := by
    have := @accepts_iff_wanted _ _ _ _ h { from' := some from' } (by simp) (by simp) rfl e he
    simpa [TimelineFilter.accepts, wanted] using this
  to' e he := by
    have := @accepts_iff_wanted _ _ _ _ h { to' := some to' } (by simp) (by simp) rfl e he
    simpa [TimelineFilter.accepts, wanted] using this
  cutoff e he := by
    obtain ⟨newest, hnewest, hpruned⟩ := h.prune 0
    have hnone : newest e.profileId = [] := List.eq_nil_of_length_eq_zero (by rw [(hnewest e.profileId).length, Nat.zero_min])
    have hkeep : keepIds 0 records.entries = [] := by simp [keepIds]
    have hmem := congrArg (e ∈ ·) hpruned
    simpa [pruned, hkeep, hnone, he] using hmem

/-- **Time order means instants exactly when the texts are in their order**: those of all jobs, those of all entries, and the
texts of the entries as compared with the bounds and the cutoff. -/
theorem timeOrder_iff (records : Records) (from' to' cutoff : String) :
    TimeOrder records from' to' cutoff ↔ TextOrder records from' to' cutoff := by
  constructor
  · exact TimeOrder.textOrder
  · exact fun h => ⟨listJobs_newest h.jobs, cleanupRetention_newest h.jobs, list_newest h, pruned_newest h⟩

/-! ## The clock goes back -/

/-- Two entries on both sides of the end of daylight saving time, twenty minutes apart. -/
def beforeAndAfter : Records where
  jobs := []
  entries := [{ id := "a", profileId := "p", kind := .find, createdAt := "2024-11-03T01:50:00.5-04:00" },
    { id := "b", profileId := "p", kind := .find, createdAt := "2024-11-03T01:10:00.5-05:00" }]
  jobIds := List.nodup_nil
  entryIds := by decide

/-- `b` was written later, and is listed after `a`. -/
theorem clock_back : ¬ TimeOrder beforeAndAfter "2024-11-01T00:00:00-04:00" "2024-11-30T00:00:00-05:00" "2024-10-01T00:00:00-04:00" := by
  intro h
  have hagree := h.agree_entries beforeAndAfter.entries[1] (by decide) beforeAndAfter.entries[0] (by decide)
  exact absurd (hagree (by decide)) (by decide)

end Instants
