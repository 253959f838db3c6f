import NosqlBuddy.Audit.OplogRoot

/-!
# Replicas

The majority-committed history of a deployment, and a member whose oplog is a window of it: its oldest
entries may have rolled over, its newest may not have arrived, and its majority point may lag.

| here | there |
| --- | --- |
| `readOplogRange` | oplog.rs:308: the writes of a range, in the order of `ts` |
| `Replica.replies` | what `compute_oplog_range_hash` is told, with its `end_ts` cut at the majority point (oplog.rs:361-370) |

A member reads exactly the writes of the range that are in its window and below its majority point
(`seenRange_eq_iff`).
-/

namespace Audit
open Oplog

/-! ## Entries -/

/-- The `ts` of an entry. -/
def entryTs (entry : Document) : Option OplogTimestamp :=
  match entry.get "ts" with
  | some (.timestamp time increment) => some ⟨time, increment⟩
  | _ => none

/-- `op` is `i`, `u`, `d` or `c`. -/
def isWrite (entry : Document) : Bool :=
  match entry.get "op" with
  | some (.string op) => ["i", "u", "d", "c"].contains op
  | _ => false

def inRange (startTs endTs : OplogTimestamp) (entry : Document) : Bool :=
  (entryTs entry).any fun ts => startTs ≤ ts ∧ ts < endTs

/-- The writes of a range. -/
def writesIn (oplog : List Document) (startTs endTs : OplogTimestamp) : List Document :=
  oplog.filter fun entry => inRange startTs endTs entry && isWrite entry

/-- An entry without a timestamp comes before all others. -/
def tsLe (a b : Document) : Prop :=
  match entryTs a, entryTs b with
  | none, _ => True
  | some _, none => False
  | some s, some t => s ≤ t

instance (a b : Document) : Decidable (tsLe a b) := by
  unfold tsLe
  split <;> infer_instance

def readOplogRange (oplog : List Document) (startTs endTs : OplogTimestamp) : List Document :=
  (writesIn oplog startTs endTs).insertionSort tsLe

/-- The entries of the deployment, as the majority has them. -/
structure History (display : Bson → String) where
  entries : List Document
  timed : ∀ e ∈ entries, (entryTs e).isSome
  increasing : entries.Pairwise fun a b => ∀ s t, entryTs a = some s → entryTs b = some t → s < t
  wellFormed : ∀ e ∈ entries, (Bson.document e).WellFormed display

/-- A member of the replica set. -/
structure Replica where
  oplog : List Document
  /-- `get_majority_commit_ts` -/
  majority : Except AuditError OplogTimestamp
  /-- the query of the oplog fails -/
  readError : Option AuditError

/-- The end of a range, cut at the majority point. -/
def safeEnd (endTs majorityTs : OplogTimestamp) : OplogTimestamp := if endTs > majorityTs then majorityTs else endTs

namespace Replica

def read (r : Replica) (startTs endTs : OplogTimestamp) : Except AuditError (List Document) :=
  match r.readError with
  | some e => .error e
  | none => .ok (readOplogRange r.oplog startTs endTs)

def replies (r : Replica) (startTs endTs : OplogTimestamp) : OplogReplies where
  majority := r.majority
  majorityAgain := r.majority
  entries := do
    let majorityTs ← r.majority
    r.read startTs (safeEnd endTs majorityTs)

end Replica

/-! ## Windows -/

section
variable {display : Bson → String}

theorem inRange_iff :
    inRange startTs endTs e = true ↔ ∃ ts, entryTs e = some ts ∧ startTs ≤ ts ∧ ts < endTs := by
  simp [inRange, Option.any_eq_true]

theorem mem_writesIn :
    e ∈ writesIn oplog startTs endTs ↔
      e ∈ oplog ∧ isWrite e = true ∧ ∃ ts, entryTs e = some ts ∧ startTs ≤ ts ∧ ts < endTs := by
  rw [writesIn, List.mem_filter, Bool.and_eq_true, inRange_iff, and_comm (a := ∃ _, _)]

theorem lt_safeEnd : ts < safeEnd endTs majorityTs ↔ ts < endTs ∧ ts < majorityTs := by
  unfold safeEnd
  split
  · next h => exact ⟨fun hlt => ⟨hlt.trans h, hlt⟩, And.right⟩
  · next h => exact ⟨fun hlt => ⟨hlt, hlt.trans_le (not_lt.1 h)⟩, And.left⟩

namespace History

theorem read_window (H : History display) (hw : oplog <:+: H.entries)
    (startTs endTs : OplogTimestamp) : readOplogRange oplog startTs endTs = writesIn oplog startTs endTs := by
  have hsub : (writesIn oplog startTs endTs).Sublist H.entries := List.filter_sublist.trans hw.sublist
  refine List.Pairwise.insertionSort_eq ((H.increasing.sublist hsub).imp_of_mem fun {a b} ha hb hab => ?_)
  obtain ⟨s, hs⟩ := Option.isSome_iff_exists.1 (H.timed a (hsub.subset ha))
  obtain ⟨t, ht⟩ := Option.isSome_iff_exists.1 (H.timed b (hsub.subset hb))
  simp only [tsLe, hs, ht]
  exact le_of_lt (hab s t hs ht)

theorem nodup_ts (H : History display) : (H.entries.map entryTs).Nodup := by
  refine List.pairwise_map.2 (H.increasing.imp_of_mem fun {a b} ha _ hab heq => ?_)
  obtain ⟨s, hs⟩ := Option.isSome_iff_exists.1 (H.timed a ha)
  exact lt_irrefl s (hab s s hs (heq ▸ hs))

theorem eq_of_bytes (H : History display) (ha : a ∈ H.entries) (hb : b ∈ H.entries)
    (h : canonicalizeOplogEntry display a = canonicalizeOplogEntry display b) : a = b := by
  refine List.inj_on_of_nodup_map H.nodup_ts ha hb ?_
  have hrel := (entry_bytes_iff (H.wellFormed a ha) (H.wellFormed b hb)).1 h "ts" (by decide)
  have hta := H.timed a ha
  have htb := H.timed b hb
  unfold entryTs at hta htb ⊢
  cases hga : a.get "ts" with
  | none => simp [hga] at hta
  | some v =>
    cases hgb : b.get "ts" with
    | none => simp [hgb] at htb
    | some w =>
      rw [hga, hgb] at hrel
      cases hrel with
      | some halike =>
        have hbytes := halike.bytes_eq _ (everywhere_get (H.wellFormed a ha) hga)
          (everywhere_get (H.wellFormed b hb) hgb)
        rw [hga] at hta
        rw [hgb] at htb
        cases v <;> simp at hta
        cases w <;> simp at htb
        simp only [canonicalizeBson, List.cons.injEq, true_and] at hbytes
        obtain ⟨htime, hinc⟩ := List.append_inj hbytes (by simp)
        rw [toLe_uint32_inj htime, toLe_uint32_inj hinc]

end History

/-! ## What a member sees -/

/-- What a member with this majority point reads of a range. -/
def seenRange (oplog : List Document) (majorityTs startTs endTs : OplogTimestamp) : List Document :=
  writesIn oplog startTs (safeEnd endTs majorityTs)

/-- Every write of the range is in the window and below the majority point. -/
def SeesRange (entries oplog : List Document) (majorityTs startTs endTs : OplogTimestamp) : Prop :=
  ∀ e ∈ writesIn entries startTs endTs, e ∈ oplog ∧ ∃ ts, entryTs e = some ts ∧ ts < majorityTs

section
variable {H : History display} {oplog : List Document} {majorityTs startTs endTs : OplogTimestamp}

theorem mem_seenRange : e ∈ seenRange oplog majorityTs startTs endTs ↔
    e ∈ writesIn oplog startTs endTs ∧ ∃ ts, entryTs e = some ts ∧ ts < majorityTs := by
  rw [seenRange, mem_writesIn, mem_writesIn]
  constructor
  · rintro ⟨hmem, hwrite, ts, hts, hstart, hlt⟩
    obtain ⟨hend, hmaj⟩ := lt_safeEnd.1 hlt
    exact ⟨⟨hmem, hwrite, ts, hts, hstart, hend⟩, ts, hts, hmaj⟩
  · rintro ⟨⟨hmem, hwrite, ts, hts, hstart, hend⟩, ts', hts', hmaj⟩
    obtain rfl : ts = ts' := Option.some.inj (hts.symm.trans hts')
    exact ⟨hmem, hwrite, ts, hts, hstart, lt_safeEnd.2 ⟨hend, hmaj⟩⟩

theorem seenRange_sublist (hw : oplog <:+: H.entries) :
    (seenRange oplog majorityTs startTs endTs).Sublist (writesIn H.entries startTs endTs) := by
  -- the shorter range of the window, as a part of the whole range of the window
  have hfilter : seenRange oplog majorityTs startTs endTs =
      (writesIn oplog startTs endTs).filter fun e => (entryTs e).any (· < majorityTs) := by
    rw [seenRange, writesIn, writesIn, List.filter_filter]
    refine List.filter_congr fun e _ => ?_
    rw [Bool.eq_iff_iff]
    simp only [Bool.and_eq_true, inRange_iff, Option.any_eq_true, decide_eq_true_eq]
    constructor
    · rintro ⟨⟨ts, hts, hstart, hlt⟩, hwrite⟩
      obtain ⟨hend, hmaj⟩ := lt_safeEnd.1 hlt
      exact ⟨⟨ts, hts, hmaj⟩, ⟨ts, hts, hstart, hend⟩, hwrite⟩
    · rintro ⟨⟨ts, hts, hmaj⟩, ⟨ts', hts', hstart, hend⟩, hwrite⟩
      obtain rfl : ts = ts' := Option.some.inj (hts.symm.trans hts')
      exact ⟨⟨ts, hts, hstart, lt_safeEnd.2 ⟨hend, hmaj⟩⟩, hwrite⟩
  rw [hfilter]
  exact List.filter_sublist.trans (hw.sublist.filter _)

/-- **What a member sees** of a range is all of it exactly when every write of the range is in its window
and below its majority point. -/
theorem seenRange_eq_iff (hw : oplog <:+: H.entries) :
    seenRange oplog majorityTs startTs endTs = writesIn H.entries startTs endTs ↔
      SeesRange H.entries oplog majorityTs startTs endTs := by
  constructor
  · intro h e he
    rw [← h, mem_seenRange] at he
    exact ⟨(mem_writesIn.1 he.1).1, he.2⟩
  · intro h
    refine (seenRange_sublist hw).eq_of_length_le ?_
    refine (List.Nodup.subperm ?_ fun e he => ?_).length_le
    · exact (List.Nodup.of_map entryTs H.nodup_ts).filter _
    · obtain ⟨hmem, hlt⟩ := h e he
      rw [mem_seenRange, mem_writesIn]
      exact ⟨⟨hmem, (mem_writesIn.1 he).2⟩, hlt⟩

/-! ## Hashing on a member -/

variable {P : Prims} {r : Replica} {epochNumber : Nat}

theorem compute_majority_error (h : r.majority = .error e) :
    computeOplogRangeHash P display (r.replies startTs endTs) epochNumber startTs endTs = .error e := by
  simp only [computeOplogRangeHash, Replica.replies, h, bind, Except.bind]

theorem compute_read_error (hm : r.majority = .ok majorityTs) (h : r.readError = some e) :
    computeOplogRangeHash P display (r.replies startTs endTs) epochNumber startTs endTs = .error e := by
  simp only [computeOplogRangeHash, Replica.replies, Replica.read, hm, h, bind, Except.bind]

theorem compute_ok (hw : r.oplog <:+: H.entries) (hm : r.majority = .ok majorityTs) (h : r.readError = none) :
    computeOplogRangeHash P display (r.replies startTs endTs) epochNumber startTs endTs =
      .ok ⟨⟨startTs, safeEnd endTs majorityTs, (seenRange r.oplog majorityTs startTs endTs).length,
        String.ofList (Bytes.hexEncode (merkleRoot P ((seenRange r.oplog majorityTs startTs endTs).map
          (hashOplogEntry P display))).val), majorityTs⟩, epochNumber⟩ := by
  simp only [computeOplogRangeHash, Replica.replies, Replica.read, hm, h, bind, Except.bind, pure, Except.pure,
    H.read_window hw]
  rfl

theorem History.root_eq_iff (hes : es.Sublist H.entries) (hes' : es'.Sublist H.entries)
    (h : EntriesIdealised P display es es') :
    merkleRoot P (es.map (hashOplogEntry P display)) = merkleRoot P (es'.map (hashOplogEntry P display)) ↔ es = es' := by
  have hnodup : H.entries.Nodup := List.Nodup.of_map entryTs H.nodup_ts
  have hinj : ∀ a ∈ es ++ es', ∀ b ∈ es ++ es', hashOplogEntry P display a = hashOplogEntry P display b → a = b := by
    intro a ha b hb hab
    have hbytes := h.collisionFree _ (List.mem_append_left _ (List.mem_map_of_mem ha)) _
      (List.mem_append_left _ (List.mem_map_of_mem hb)) hab
    exact H.eq_of_bytes ((List.mem_append.1 ha).elim (hes.subset ·) (hes'.subset ·))
      ((List.mem_append.1 hb).elim (hes.subset ·) (hes'.subset ·)) hbytes
  constructor
  · intro hroot
    have hleft : (es.map (hashOplogEntry P display)).Nodup := (hnodup.sublist hes).map_on fun a ha b hb =>
      hinj a (List.mem_append_left _ ha) b (List.mem_append_left _ hb)
    have hright : (es'.map (hashOplogEntry P display)).Nodup := (hnodup.sublist hes').map_on fun a ha b hb =>
      hinj a (List.mem_append_right _ ha) b (List.mem_append_right _ hb)
    have hfree : Merkle.CollisionFree (hashOplogEntry P display) (es ++ es') := hinj
    exact hfree.map_inj (fun a ha => List.mem_append_left _ ha) (fun a ha => List.mem_append_right _ ha)
      (h.idealised.root_inj hleft hright hroot)
  · rintro rfl
    rfl

end

end

end Audit
