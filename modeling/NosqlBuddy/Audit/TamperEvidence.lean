import NosqlBuddy.Audit.EventText
import NosqlBuddy.Audit.Session

/-!
# Tamper evidence of version-3 logs

Two files of version-3 events that `replay_file` accepts with the same root hold the same events, as far
as the hash functions had no collision on what the two replays hashed (`NoCollision`): the root fixes the
leaves (`leaves_eq_of_root_eq`), a leaf fixes what was committed to (`content_eq_of_leaf_eq`), and the
replay loop fixes the positions.

What is committed to is the number of seconds since 1970 with `.max(0)` (mod.rs:330): times before 1970
are one and the same (`times_before_epoch_agree`), so the theorem is about the clamped time.
-/

namespace Audit
open Mutation Merkle

/-! ## Contents -/

/-- What a version-3 event says, besides the fields that are recomputed from it. -/
structure Content where
  index : Nat
  operation : String
  database : String
  collection : String
  secs : Int64
  canonical : List UInt8
deriving DecidableEq

/-- With the time that the leaf commits to. -/
def Content.clamped (c : Content) : Content := { c with secs := max c.secs 0 }

section
variable (P : Prims)

/-- The content of an event whose payload and timestamp can be read. -/
def contentOf (ev : PersistedEvent) : Option Content :=
  match P.base64Decode ev.payload, P.parseRfc3339 ev.timestamp with
  | .ok canonical, .ok secs => some ⟨ev.index, ev.operation, ev.database, ev.collection, secs, canonical⟩
  | _, _ => none

def Content.opening (k : Bytes32) (c : Content) : LeafOpening :=
  leafOpening P k c.operation c.database c.collection (clampSecs c.secs) c.canonical

/-- The byte strings that the replay of the events maps into the field. -/
def hashedStrings (evs : List PersistedEvent) : List (List UInt8) :=
  (evs.filterMap (contentOf P)).flatMap fun c =>
    [strBytes c.operation, strBytes c.database, strBytes c.collection, c.canonical]

/-- The inputs of its seven-element Poseidon calls. -/
def leafInputs (k : Bytes32) (evs : List PersistedEvent) : List (List Fr) :=
  (evs.filterMap (contentOf P)).map fun c => (c.opening P k).toInputs

/-- The hash functions have no collision on what two replays hash, and no leaf is the padding. SHA-256 is
meant with the truncation into the field (`bytesToField`). -/
structure NoCollision (k : Bytes32) (evs evs' : List PersistedEvent) (t t' : AuditMerkleTree 20) : Prop where
  strings : CollisionFree (bytesToField P) (hashedStrings P evs ++ hashedStrings P evs')
  inputs : CollisionFree P.poseidon (leafInputs P k evs ++ leafInputs P k evs')
  pairs : CollisionFree (fun p : Fr × Fr => poseidon2 P p.1 p.2) (t.hashedPairs P ++ t'.hashedPairs P)
  leaves : (0 : Fr) ∉ t.leaves ∧ (0 : Fr) ∉ t'.leaves

end

variable {c : Content} {ev : PersistedEvent} {evs : List PersistedEvent} {k : Bytes32}

section
variable {P : Prims}

theorem clampSecs_inj (h : clampSecs a = clampSecs b) : max a 0 = max b 0 :=
  congrArg Int64.ofUInt64 h

theorem opening_clamped (k : Bytes32) (c : Content) : c.clamped.opening P k = c.opening P k := by
  have hmax : (max (max c.secs 0) 0 : Int64) = max c.secs 0 := by
    by_cases h : c.secs ≤ 0 <;> simp [h, max]
  simp only [Content.opening, Content.clamped, clampSecs, hmax]

theorem contentOf_eq_some :
    contentOf P ev = some c ↔ P.base64Decode ev.payload = .ok c.canonical ∧ P.parseRfc3339 ev.timestamp = .ok c.secs ∧
      c = ⟨ev.index, ev.operation, ev.database, ev.collection, c.secs, c.canonical⟩ := by
  unfold contentOf
  constructor
  · intro h
    split at h
    · next canonical secs h1 h2 =>
      cases h
      exact ⟨h1, h2, rfl⟩
    · cases h
  · rintro ⟨h1, h2, h3⟩
    rw [h1, h2]
    exact congrArg some h3.symm

theorem checkedLeaf_v3 (hv : ev.version = 3) :
    checkedLeaf P key ev = some leaf ↔ ∃ k c, key = some k ∧ contentOf P ev = some c ∧
      leaf = P.poseidon (c.opening P k).toInputs ∧ frToHex leaf = ev.leafHex := by
  rw [checkedLeaf_eq_some, recomputeLeaf_v3 hv]
  constructor
  · rintro ⟨⟨k, canonical, secs, hk, hc, hs, rfl⟩, hx⟩
    exact ⟨k, ⟨ev.index, ev.operation, ev.database, ev.collection, secs, canonical⟩, hk,
      contentOf_eq_some.2 ⟨hc, hs, rfl⟩, rfl, hx⟩
  · rintro ⟨k, c, hk, hc, hleaf, hx⟩
    obtain ⟨h1, h2, h3⟩ := contentOf_eq_some.1 hc
    refine ⟨⟨k, c.canonical, c.secs, hk, h1, h2, ?_⟩, hx⟩
    rw [hleaf, h3]
    rfl

theorem mem_hashedStrings (hm : ev ∈ evs)
    (hc : contentOf P ev = some c) : ∀ b ∈ [strBytes c.operation, strBytes c.database, strBytes c.collection, c.canonical],
      b ∈ hashedStrings P evs := by
  intro b hb
  exact List.mem_flatMap.2 ⟨c, List.mem_filterMap.2 ⟨ev, hm, hc⟩, hb⟩

theorem mem_leafInputs (hm : ev ∈ evs)
    (hc : contentOf P ev = some c) : (c.opening P k).toInputs ∈ leafInputs P k evs :=
  List.mem_map.2 ⟨c, List.mem_filterMap.2 ⟨ev, hm, hc⟩, rfl⟩

/-- **Equal leaves have equal contents**, up to the clamped time. -/
theorem content_eq_of_leaf_eq (hstr : CollisionFree (bytesToField P) (hashedStrings P evs ++ hashedStrings P evs'))
    (hin : CollisionFree P.poseidon (leafInputs P k evs ++ leafInputs P k evs'))
    (hm : ev ∈ evs) (hm' : ev' ∈ evs') (hc : contentOf P ev = some c)
    (hc' : contentOf P ev' = some c') (hidx : c.index = c'.index)
    (hleaf : P.poseidon (c.opening P k).toInputs = P.poseidon (c'.opening P k).toInputs) : c.clamped = c'.clamped := by
  have hinputs := hin _ (List.mem_append_left _ (mem_leafInputs hm hc)) _
    (List.mem_append_right _ (mem_leafInputs hm' hc')) hleaf
  obtain ⟨h1, h2, h3, h4, h5⟩ := leafOpening_inj hstr (by
    intro b hb
    rcases List.mem_append.1 (show b ∈ [strBytes c.operation, strBytes c.database, strBytes c.collection, c.canonical] ++
      [strBytes c'.operation, strBytes c'.database, strBytes c'.collection, c'.canonical] from hb) with hb | hb
    · exact List.mem_append_left _ (mem_hashedStrings hm hc b hb)
    · exact List.mem_append_right _ (mem_hashedStrings hm' hc' b hb)) hinputs
  cases c
  cases c'
  simp only at h1 h2 h3 h4 h5 hidx
  simp only [Content.clamped, Content.mk.injEq]
  exact ⟨hidx, h1, h2, h3, clampSecs_inj h4, h5⟩

theorem contents_eq_of_leaves_eq (hch : Chained P (some k) [] evs)
    (hch' : Chained P (some k) [] evs') (hv : ∀ ev ∈ evs, ev.version = 3) (hv' : ∀ ev ∈ evs', ev.version = 3)
    (hstr : CollisionFree (bytesToField P) (hashedStrings P evs ++ hashedStrings P evs'))
    (hin : CollisionFree P.poseidon (leafInputs P k evs ++ leafInputs P k evs'))
    (hleaves : leavesOf P (some k) evs = leavesOf P (some k) evs') :
    evs.map (fun ev => (contentOf P ev).map Content.clamped) =
      evs'.map (fun ev => (contentOf P ev).map Content.clamped) := by
  obtain ⟨hall, hpos⟩ := (chained_iff evs []).1 hch
  obtain ⟨hall', hpos'⟩ := (chained_iff evs' []).1 hch'
  have hlen : evs.length = evs'.length := by
    rw [← length_leavesOf hall, hleaves, length_leavesOf hall']
  refine List.ext_getElem? fun i => ?_
  rw [List.getElem?_map, List.getElem?_map]
  rcases Nat.lt_or_ge i evs.length with hi | hi
  · -- the events at position `i` have the same leaf and the same index
    obtain ⟨ev, hev⟩ : ∃ ev, evs[i]? = some ev := ⟨_, List.getElem?_eq_getElem hi⟩
    obtain ⟨ev', hev'⟩ : ∃ ev', evs'[i]? = some ev' := ⟨_, List.getElem?_eq_getElem (hlen ▸ hi)⟩
    have hm := List.mem_of_getElem? hev
    have hm' := List.mem_of_getElem? hev'
    obtain ⟨leaf, hc⟩ := Option.isSome_iff_exists.1 (hall ev hm)
    have hc' : checkedLeaf P (some k) ev' = some leaf := by
      have hget := congrArg (fun ls => ls[i]?) hleaves
      simp only [getElem?_leavesOf hall, getElem?_leavesOf hall', hev, hev', Option.bind_some] at hget
      rw [← hget, hc]
    obtain ⟨_, c, hk, hcont, hleaf, _⟩ := (checkedLeaf_v3 (hv ev hm)).1 hc
    obtain ⟨_, c', hk', hcont', hleaf', _⟩ := (checkedLeaf_v3 (hv' ev' hm')).1 hc'
    cases hk
    cases hk'
    have hindex : c.index = c'.index := by
      rw [(contentOf_eq_some.1 hcont).2.2, (contentOf_eq_some.1 hcont').2.2]
      exact (hpos i ev hev).1.trans (hpos' i ev' hev').1.symm
    rw [hev, hev', Option.map_some, Option.map_some, hcont, hcont', Option.map_some, Option.map_some,
      content_eq_of_leaf_eq hstr hin hm hm' hcont hcont' hindex (hleaf.symm.trans hleaf')]
  · rw [List.getElem?_eq_none hi, List.getElem?_eq_none (hlen ▸ hi)]

/-- **Tamper evidence.** Two files of at most `2 ^ 20` version-3 events each that replay with the same root
hold the same contents in the same order. -/
theorem tamper_evident (P : Prims) (k : Bytes32) {io io' : Io} {dir dir' : String} {disk disk' : String → Dir}
    {evs evs' : List PersistedEvent} {w w' : World}
    (hrep : exec (replayFile P io dir) (World.start (some k) disk) = (.ok evs, w))
    (hrep' : exec (replayFile P io' dir') (World.start (some k) disk') = (.ok evs', w'))
    (hv : ∀ ev ∈ evs, ev.version = 3) (hv' : ∀ ev ∈ evs', ev.version = 3)
    (hn : evs.length ≤ 2 ^ 20) (hn' : evs'.length ≤ 2 ^ 20)
    (hfree : NoCollision P k evs evs' w.log.tree w'.log.tree) (hroot : w.log.tree.root P = w'.log.tree.root P) :
    (∀ ev ∈ evs, (contentOf P ev).isSome) ∧ evs.map (fun ev => (contentOf P ev).map Content.clamped) =
      evs'.map (fun ev => (contentOf P ev).map Content.clamped) := by
  obtain ⟨hch, htree⟩ := replayFile_accepted hrep
  obtain ⟨hch', htree'⟩ := replayFile_accepted hrep'
  have hall := ((chained_iff evs []).1 hch).1
  have hall' := ((chained_iff evs' []).1 hch').1
  have hleaves := leaves_eq_of_root_eq hfree.pairs hfree.leaves.1 hfree.leaves.2
    (by rw [htree, length_leavesOf hall]; exact hn) (by rw [htree', length_leavesOf hall']; exact hn') hroot
  rw [htree, htree'] at hleaves
  refine ⟨fun ev hm => ?_, contents_eq_of_leaves_eq hch hch' hv hv' hfree.strings hfree.inputs hleaves⟩
  obtain ⟨leaf, hc⟩ := Option.isSome_iff_exists.1 (hall ev hm)
  obtain ⟨_, c, _, hcont, _⟩ := (checkedLeaf_v3 (hv ev hm)).1 hc
  rw [hcont]
  rfl

/-! ### Two times before 1970 -/

def demoKey : Bytes32 := demoDigest 7 []

/-- A delete with an empty canonical payload, recorded at the given second. -/
def demoDelete (secs : Int64) : Entry :=
  recordV3Entry demoPrims demoKey ⟨secs, 0⟩ "rs:rs0" "delete" "shop" "orders" []

/-- The file of that delete, in every directory. -/
def demoDeleteDisk (secs : Int64) : String → Dir :=
  fun _ => ⟨some (fileBytes demoPrims (linesOf demoPrims [demoDelete secs]) []), none⟩

theorem demoDelete_leaf : (demoDelete (-1)).leaf = (demoDelete 0).leaf := by decide

theorem demoDelete_replays (secs : Int64) : ∃ w, exec (replayFile demoPrims {} "data")
    (World.start (some demoKey) (demoDeleteDisk secs)) = (.ok (linesOf demoPrims [demoDelete secs]), w) ∧
    w.log.tree = ⟨[(demoDelete secs).leaf]⟩ := by
  refine replays_file demoPrims_lawful (fun e he => ?_) rfl
  rw [List.mem_singleton.1 he]
  exact recordV3Entry_honest demoPrims_lawful _ _ _ _ _ _ _

theorem demoDelete_noCollision : NoCollision demoPrims demoKey (linesOf demoPrims [demoDelete 0])
    (linesOf demoPrims [demoDelete (-1)]) ⟨[(demoDelete 0).leaf]⟩ ⟨[(demoDelete 0).leaf]⟩ where
  strings := by decide
  inputs := by decide
  pairs := by
    have hone : CollisionFree (fun p : Fr × Fr => poseidon2 demoPrims p.1 p.2)
        ((⟨[(demoDelete 0).leaf]⟩ : AuditMerkleTree 20).hashedPairs demoPrims) := by decide +kernel
    intro p hp q hq
    exact hone p ((List.mem_append.1 hp).elim id id) q ((List.mem_append.1 hq).elim id id)
  leaves := by decide

/-- The same delete at 1969-12-31T23:59:59 and at 1970-01-01T00:00:00: both files replay, with one root, and
their seconds differ. -/
theorem times_before_epoch_agree : ∃ w w',
    exec (replayFile demoPrims {} "data") (World.start (some demoKey) (demoDeleteDisk 0)) =
      (.ok (linesOf demoPrims [demoDelete 0]), w) ∧
    exec (replayFile demoPrims {} "data") (World.start (some demoKey) (demoDeleteDisk (-1))) =
      (.ok (linesOf demoPrims [demoDelete (-1)]), w') ∧
    NoCollision demoPrims demoKey (linesOf demoPrims [demoDelete 0]) (linesOf demoPrims [demoDelete (-1)])
      w.log.tree w'.log.tree ∧
    w.log.tree.root demoPrims = w'.log.tree.root demoPrims ∧
    (linesOf demoPrims [demoDelete 0]).map (contentOf demoPrims) ≠
      (linesOf demoPrims [demoDelete (-1)]).map (contentOf demoPrims) := by
  obtain ⟨w, hw, htree⟩ := demoDelete_replays 0
  obtain ⟨w', hw', htree'⟩ := demoDelete_replays (-1)
  rw [demoDelete_leaf] at htree'
  refine ⟨w, w', hw, hw', ?_, ?_, by decide⟩
  · rw [htree, htree']
    exact demoDelete_noCollision
  · rw [htree, htree']

/-- The theorem on these two files. -/
theorem tamper_evident_demo : (linesOf demoPrims [demoDelete 0]).map (fun ev => (contentOf demoPrims ev).map Content.clamped) =
    (linesOf demoPrims [demoDelete (-1)]).map (fun ev => (contentOf demoPrims ev).map Content.clamped) := by
  obtain ⟨w, hw, htree⟩ := demoDelete_replays 0
  obtain ⟨w', hw', htree'⟩ := demoDelete_replays (-1)
  rw [demoDelete_leaf] at htree'
  have hv : ∀ secs, ∀ ev ∈ linesOf demoPrims [demoDelete secs], ev.version = 3 := by
    intro secs ev hm
    rw [List.mem_singleton.1 hm]
    rfl
  refine (tamper_evident demoPrims demoKey hw hw' (hv 0) (hv (-1)) (by decide) (by decide) ?_ ?_).2
  · rw [htree, htree']
    exact demoDelete_noCollision
  · rw [htree, htree']

end

end Audit
