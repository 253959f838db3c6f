import NosqlBuddy.Audit.Batches
import NosqlBuddy.Audit.Retention

/-!
# Rebuilding the log from the chain

Two procedures rebuild a log from the roots on chain and the batches on IPFS, the daemon's and the desktop's.

| here | there |
| --- | --- |
| `gatherBatches`, `openBatch` | the loop over the history, in both |

Both promise to compare with "the latest on-chain commitment" and take `history.last()`, but the history
comes newest first. The desktop sorts the lines by index before it replays them (commands.rs:1278); the
daemon does not.

A daemon opens its log at the start and keeps it open, tree store included; what sled answers when
`rebuild` opens the store a second time is a parameter.
-/

namespace Audit
open Mutation Text Tiling Contract Runs
open ReaderMode (OnChainRoot VerificationReport)

/-! ## Both -/

def onChainRoot (e : RootEntry) : OnChainRoot :=
  ⟨e.sequence, String.ofList (Bytes.hexEncode e.root), e.timestamp.toNat, e.metadata⟩

/-- A refused page arrives as an empty list, and an entry without a root is skipped. -/
def getRootHistoryNative (limit : Nat) (chain : Storage) : List OnChainRoot :=
  match getRootHistory limit chain with
  | .ok page => (page.map onChainRoot).filter (·.rootHex ≠ "")
  | .error _ => []

/-- `String::from_utf8`. -/
def fromUtf8 (bytes : ByteArray) : Option (List Char) := bytes.utf8Decode?.map (·.toList)

/-- The text of a fetched batch. Bytes that the age identity does not decrypt are taken as they are; without
an identity, bytes that are no text are an empty text. -/
def openBatch (decrypt : Option (ByteArray → Option String)) (raw : ByteArray) : Option (List Char) :=
  match decrypt with
  | some decrypt =>
    match decrypt raw with
    | some plaintext => some plaintext.toList
    | none => fromUtf8 raw
  | none => some ((fromUtf8 raw).getD [])

structure Gathered where
  lines : List (List Char)
  fetched : Nat
  failed : Nat
deriving DecidableEq

section
variable (fetch : String → Option ByteArray) (decrypt : Option (ByteArray → Option String))

/-- One entry of the history; `none` of `fetch` is a failed request. -/
def gatherBatch (g : Gathered) (root : OnChainRoot) : Gathered :=
  match extractCidFromMetadata root.metadata with
  | none => g
  | some cid =>
    match (fetch cid).bind (openBatch decrypt) with
    | none => { g with failed := g.failed + 1 }
    | some text => { g with lines := g.lines ++ ((lines text).map trim).filter (· ≠ []), fetched := g.fetched + 1 }

def gatherBatches (history : List OnChainRoot) : Gathered := history.foldl (gatherBatch fetch decrypt) ⟨[], 0, 0⟩

end

def emptyReport (onchainRoot : Option OnChainRoot) (localRootHex summary : String) : VerificationReport where
  onchainRootFound := false
  onchainRoot := onchainRoot
  localRootHex := localRootHex
  commitmentEventIndex := none
  totalEvents := 0
  verifiedEvents := 0
  eventsAfterCommitment := 0
  chainIntact := true
  tamperDetected := false
  summary := summary

def rebuildSummary (latestOnchain : Option OnChainRoot) (rebuiltRootHex : String) (totalEvents fetched failed : Nat)
    (rootMatches : Bool) : String :=
  let sequence := latestOnchain.elim 0 (·.sequence)
  if rootMatches then
    s!"Rebuilt {totalEvents} event(s) from {fetched} batch(es). Final root matches on-chain commitment (seq {sequence})."
  else
    let start := String.ofList (rebuiltRootHex.toList.take 16)
    let latest := latestOnchain.elim "?" (·.rootHex)
    s!"Rebuilt {totalEvents} event(s) from {fetched} batch(es). Root mismatch: local {start} vs on-chain {latest} (seq {sequence}). {failed} batch(es) failed to fetch."

/-- The report on a log that was replayed. -/
def rebuildReport (history : List OnChainRoot) (rebuiltRootHex : String) (totalEvents fetched failed : Nat) :
    VerificationReport :=
  let latestOnchain := history.getLast?
  let rootMatches := latestOnchain.any (·.rootHex = rebuiltRootHex)
  { onchainRootFound := true
    onchainRoot := latestOnchain
    localRootHex := rebuiltRootHex
    commitmentEventIndex := some (totalEvents - 1)
    totalEvents := totalEvents
    verifiedEvents := totalEvents
    eventsAfterCommitment := 0
    chainIntact := rootMatches
    tamperDetected := !rootMatches
    summary := rebuildSummary latestOnchain rebuiltRootHex totalEvents fetched failed rootMatches }

def noRootsSummary : String := "No on-chain roots committed yet. Nothing to rebuild."

def noBatchesSummary (n : Nat) : String := s!"Found {n} on-chain root(s), but no batches could be fetched/decrypted."

/-- `std::fs::write` of the lines. -/
def writeLines (fault : Option String) (dir : String) (ls : List (List Char)) : AuditM Unit := do
  check fault fun e => .io s!"write events.jsonl: {e}"
  modify fun w => w.setDir dir { w.disk dir with events := some (String.ofList (join ls ++ ['\n'])).toByteArray }

/-! ## The daemon -/

section
variable (P : Prims)

def rebuild (io : Io) (writeFault : Option String) (dir : String) (history : List OnChainRoot)
    (fetch : String → Option ByteArray) (decrypt : Option (ByteArray → Option String)) : AuditM VerificationReport := do
  let w ← get
  let localRootHex := rootHex P w.log.tree.leaves
  if history = [] then
    return emptyReport none localRootHex noRootsSummary
  else
    let g := gatherBatches fetch decrypt history
    if g.lines = [] then
      return emptyReport history.getLast? localRootHex (noBatchesSummary history.length)
    else
      clear io
      writeLines writeFault dir g.lines
      setPersistenceDir P io dir
      let w ← get
      return rebuildReport history (rootHex P w.log.tree.leaves) w.log.eventCount g.fetched g.failed

/-! ## The desktop -/

/-- The sort key of a line: its index, or `u64::MAX`. -/
def lineIndex (line : List Char) : Nat := ((P.valueFromStr line).bind (·.getU64 "index")).getD (2 ^ 64 - 1)

/-- `sort_by_key`, which is stable. -/
def sortLines (ls : List (List Char)) : List (List Char) := ls.mergeSort fun a b => lineIndex P a ≤ lineIndex P b

/-- The leaf key of the request, `None` or empty for none. -/
def parseLeafKey (auditLeafKeyHex : Option String) : Except AuditError (Option Bytes32) :=
  match auditLeafKeyHex.filter (· ≠ "") with
  | none => .ok none
  | some text =>
    match Bytes.hexDecode (trim text.toList) with
    | none => .error (.validation s!"invalid audit_leaf_key_hex: {fromHexError (trim text.toList)}")
    | some bytes =>
      if h : bytes.length = 32 then .ok (some ⟨bytes, h⟩)
      else .error (.validation "audit_leaf_key_hex must be exactly 64 hex chars (32 bytes)")

/-- The arguments of a request, and the configured contract. -/
structure RebuildRequest where
  ageIdentity : String
  contractId : String
  auditLeafKeyHex : Option String

/-- The isolated log lives in the directory `dir` of the disk; `decrypt` is `decrypt_batch` by identity. -/
def auditRebuildFromChain (request : RebuildRequest) (dir : String) (disk : String → Dir) (history : List OnChainRoot)
    (fetch : String → Option ByteArray) (decrypt : String → ByteArray → Option String) :
    Except AuditError VerificationReport × World :=
  let w := World.start none disk
  let newRootHex := rootHex P w.log.tree.leaves
  if trim request.ageIdentity.toList = [] then (.error (.validation "age_identity is required for decryption"), w)
  else if request.contractId = "" then
    (.error (.validation "No Soroban contract ID configured. Run Dev Mode setup first."), w)
  else if history = [] then (.ok (emptyReport none newRootHex noRootsSummary), w)
  else
    let g := gatherBatches fetch (some (decrypt request.ageIdentity)) history
    let allLines := sortLines P g.lines
    if allLines = [] then (.ok (emptyReport history.getLast? newRootHex (noBatchesSummary history.length)), w)
    else
      let w := (exec (writeLines none dir allLines) w).2
      match parseLeafKey request.auditLeafKeyHex with
      | .error e => (.error e, w)
      | .ok key =>
        match exec (setPersistenceDir P {} dir) (World.start key w.disk) with
        | (.error e, w) => (.error (.internal s!"replay events: {e.display}"), w)
        | (.ok (), w) => (.ok (rebuildReport history (rootHex P w.log.tree.leaves) w.log.eventCount g.fetched g.failed), w)

end

/-! ## The lines of the batches -/

section
variable {P : Prims} {key : Option Bytes32} {dir : String} {encode : List Char → ByteArray}

theorem eventsBetween_from (a b : Nat) : ∀ (o : Nat) (evs : List PersistedEvent),
    (∀ i ev, evs[i]? = some ev → ev.index = o + i) →
    eventsBetween a b evs = (evs.drop (a - o)).take (b + 1 - max a o)
  | _, [], _ => by simp [eventsBetween]
  | o, ev :: evs, hat => by
    have hindex : ev.index = o := hat 0 ev rfl
    have ih := eventsBetween_from a b (o + 1) evs fun i e he => by
      rw [hat (i + 1) e (by simpa using he)]
      omega
    rw [eventsBetween] at ih
    rw [eventsBetween, List.filter_cons, hindex, ih]
    by_cases hlow : a ≤ o
    · by_cases hhigh : o ≤ b
      · have hlen : b + 1 - max a o = (b + 1 - max a (o + 1)) + 1 := by omega
        simp only [hlow, hhigh, and_self, decide_true, if_true, show a - o = 0 by omega, show a - (o + 1) = 0 by omega,
          hlen, List.drop_zero, List.take_succ_cons]
      · have hlen : b + 1 - max a o = 0 := by omega
        have hlen' : b + 1 - max a (o + 1) = 0 := by omega
        simp [hhigh, hlen, hlen']
    · have hstart : a - o = (a - (o + 1)) + 1 := by omega
      have hmax : max a o = max a (o + 1) := by omega
      simp [hlow, hstart, hmax]

theorem Filed.eventsBetween_eq {w : World} {ls : List Line} (hf : Filed P key dir w ls) {epoch : Epoch} {i : Nat}
    (hend : epoch.endIndex = some i) :
    eventsBetween epoch.startIndex i (eventsOf ls) = Range.slice (eventsOf ls) epoch.leafRange := by
  rw [eventsBetween_from epoch.startIndex i 0 _ fun j ev hev => by rw [hf.index_eq hev, Nat.zero_add]]
  simp [Range.slice, Epoch.leafRange, hend]

theorem lines_batchText (hl : P.LawfulLines) (evs : List PersistedEvent) :
    ((lines (join (evs.map P.eventToString))).map trim).filter (· ≠ []) = evs.map P.eventToString := by
  have hplain : ∀ t ∈ evs.map P.eventToString, Plain t ∧ trim t = t ∧ t ≠ [] := by
    intro t ht
    obtain ⟨ev, _, rfl⟩ := List.mem_map.1 ht
    exact hl.plain (l := .event ev) trivial
  rw [lines_join fun t ht => ⟨(hplain t ht).1, (hplain t ht).2.2⟩, List.map_congr_left fun t ht => (hplain t ht).2.1,
    List.map_id', List.filter_eq_self]
  intro t ht
  simpa using (hplain t ht).2.2

section
variable {fetch : String → Option ByteArray} {decrypt : Option (ByteArray → Option String)}

/-- The batch that the entry names can be fetched and opened, and has these lines. -/
def Offers (fetch : String → Option ByteArray) (decrypt : Option (ByteArray → Option String)) (root : OnChainRoot)
    (ls : List (List Char)) : Prop :=
  ∃ cid text, extractCidFromMetadata root.metadata = some cid ∧ (fetch cid).bind (openBatch decrypt) = some text ∧
    ((lines text).map trim).filter (· ≠ []) = ls

theorem foldl_gatherBatch (h : List.Forall₂ (Offers fetch decrypt) history batches) : ∀ g : Gathered,
    history.foldl (gatherBatch fetch decrypt) g = ⟨g.lines ++ batches.flatten, g.fetched + history.length, g.failed⟩ := by
  induction h with
  | nil => simp
  | @cons root ls history batches hoffer _ ih =>
    intro g
    obtain ⟨cid, text, hcid, hopen, hlines⟩ := hoffer
    have hstep : gatherBatch fetch decrypt g root = { g with lines := g.lines ++ ls, fetched := g.fetched + 1 } := by
      rw [gatherBatch, hcid]
      simp only [hopen, hlines]
    rw [List.foldl_cons, hstep, ih]
    simp only [List.flatten_cons, List.append_assoc, List.length_cons]
    rw [Nat.add_assoc, Nat.add_comm 1]

theorem gatherBatches_eq (h : List.Forall₂ (Offers fetch decrypt) history batches) :
    gatherBatches fetch decrypt history = ⟨batches.flatten, history.length, 0⟩ := by
  rw [gatherBatches, foldl_gatherBatch h]
  simp

end

/-- The lines of an epoch. -/
def epochLines (P : Prims) (evs : List PersistedEvent) (epoch : Epoch) : List (List Char) :=
  (Range.slice evs epoch.leafRange).map P.eventToString

section
variable {s : Publication} {ls : List Line} {l : RootLog}

theorem Publishing.offers (hl : P.LawfulLines) (hs : Publishing P dir encode key s ls l)
    (hopen : ∀ text, openBatch decrypt (encode text) = some text) (hmem : epoch ∈ s.epochs.earlier) (hp : Published P encode (eventsOf ls) s.ipfs epoch entry) :
    Offers s.ipfs decrypt (onChainRoot entry) (epochLines P (eventsOf ls) epoch) := by
  obtain ⟨i, hend, _⟩ := hs.sound.bounds.closed epoch hmem
  obtain ⟨cid, hcid, hbatch⟩ := hp.batch
  refine ⟨cid, batchText P (eventsOf ls) epoch i, hcid, ?_, ?_⟩
  · rw [hbatch i hend, Option.bind_some, hopen]
  · rw [batchText, lines_batchText hl, hs.filed.eventsBetween_eq hend]
    rfl

theorem Publishing.history (hs : Publishing P dir encode key s ls l) (hall : l.entries.length = s.epochs.earlier.length)
    (hmany : l.entries.length ≤ 100) : getRootHistoryNative 100 s.chain = l.entries.reverse.map onChainRoot := by
  have hcur : s.chain.currentRoot.getD 0 = l.entries.length := by
    rw [hs.represents.current]
    split
    · next h0 => simp [h0]
    · simp
  have hpage : getRootHistory 100 s.chain = .ok l.entries.reverse := by
    rw [getRootHistory, hcur, page_eq hs.represents.stores (by omega) (by omega), List.take_of_length_le]
    simpa using hmany
  rw [getRootHistoryNative, hpage]
  simp only
  rw [List.filter_eq_self]
  intro root hroot
  obtain ⟨entry, hentry, rfl⟩ := List.mem_map.1 hroot
  obtain ⟨k, hk⟩ := List.mem_iff_getElem?.1 (List.mem_reverse.1 hentry)
  have hlt := (List.getElem?_eq_some_iff.1 hk).1
  have hepoch := List.getElem?_eq_getElem (show k < s.epochs.earlier.length by omega)
  have hmem := List.mem_of_getElem? hepoch
  obtain ⟨i, hend, _⟩ := hs.sound.bounds.closed _ hmem
  have hfrozen := (hs.sound.roots _ hmem i hend).2
  rw [(hs.published k entry _ hk hepoch).root, Option.some.injEq] at hfrozen
  simp only [onChainRoot, hfrozen, decide_eq_true_eq]
  exact ReaderMode.frToHex_ne_empty _

theorem Publishing.gathered (hl : P.LawfulLines) (hs : Publishing P dir encode key s ls l)
    (hall : l.entries.length = s.epochs.earlier.length) (hopen : ∀ text, openBatch decrypt (encode text) = some text) :
    gatherBatches s.ipfs decrypt (l.entries.reverse.map onChainRoot) =
      ⟨s.epochs.earlier.reverse.flatMap (epochLines P (eventsOf ls)), l.entries.length, 0⟩ := by
  have hoffers : List.Forall₂ (Offers s.ipfs decrypt) (l.entries.reverse.map onChainRoot)
      (s.epochs.earlier.reverse.map (epochLines P (eventsOf ls))) := by
    rw [List.forall₂_map_left_iff, List.forall₂_map_right_iff, List.forall₂_reverse_iff]
    refine List.forall₂_iff_get.2 ⟨hall, fun k hk hk' => hs.offers hl hopen (List.getElem_mem hk') ?_⟩
    exact hs.published k _ _ (List.getElem?_eq_getElem hk) (List.getElem?_eq_getElem hk')
  rw [gatherBatches_eq hoffers]
  simp [List.flatMap_def]

theorem Publishing.flatMap_epochLines (hs : Publishing P dir encode key s ls l) :
    s.epochs.earlier.flatMap (epochLines P (eventsOf ls)) =
      ((eventsOf ls).take s.epochs.last.startIndex).map P.eventToString := by
  have hslices := hs.sound.bounds.adjacent.flatMap_slice (eventsOf ls)
  rw [List.flatMap_map] at hslices
  simp only [Range.slice, List.drop_zero, Nat.sub_zero] at hslices
  rw [Publication.epochs, ← hslices, List.map_flatMap]
  rfl

theorem lineIndex_event (hl : P.LawfulLines) (ev : PersistedEvent) : lineIndex P (P.eventToString ev) = ev.index := by
  obtain ⟨v, hv, hget⟩ := hl.value (.event ev) trivial
  have hv' : P.valueFromStr (P.eventToString ev) = some v := hv
  rw [lineIndex, hv', Option.bind_some, (ReaderMode.event_fields hget).1, Option.getD_some]

theorem sortLines_eq (hl : P.LawfulLines) {evs : List PersistedEvent}
    (hat : ∀ (i : Nat) ev, evs[i]? = some ev → ev.index = i) {batch : List (List Char)}
    (hp : batch.Perm (evs.map P.eventToString)) : sortLines P batch = evs.map P.eventToString := by
  have hinj : ∀ a ∈ evs.map P.eventToString, ∀ b ∈ evs.map P.eventToString, lineIndex P a = lineIndex P b → a = b := by
    intro a ha b hb hab
    obtain ⟨ea, hea, rfl⟩ := List.mem_map.1 ha
    obtain ⟨eb, heb, rfl⟩ := List.mem_map.1 hb
    obtain ⟨i, hi⟩ := List.mem_iff_getElem?.1 hea
    obtain ⟨j, hj⟩ := List.mem_iff_getElem?.1 heb
    rw [lineIndex_event hl, lineIndex_event hl, hat i ea hi, hat j eb hj] at hab
    subst hab
    rw [Option.some.inj (hi.symm.trans hj)]
  have hsorted : (evs.map P.eventToString).Pairwise fun a b => decide (lineIndex P a ≤ lineIndex P b) = true := by
    rw [List.pairwise_iff_getElem]
    intro i j hi hj hij
    simp only [List.length_map] at hi hj
    have hi' := hat i _ (List.getElem?_eq_getElem hi)
    have hj' := hat j _ (List.getElem?_eq_getElem hj)
    simp only [List.getElem_map, lineIndex_event hl, hi', hj', decide_eq_true_eq]
    omega
  have hmerge := @List.pairwise_mergeSort _ (fun a b => decide (lineIndex P a ≤ lineIndex P b))
    (fun a b c hab hbc => by simp only [decide_eq_true_eq] at hab hbc ⊢; omega)
    (fun a b => by simp only [Bool.or_eq_true, decide_eq_true_eq]; omega) batch
  have hperm := (List.mergeSort_perm batch fun a b => decide (lineIndex P a ≤ lineIndex P b)).trans hp
  refine List.Perm.eq_of_pairwise (fun a b ha hb hab hba => ?_) hmerge hsorted hperm
  simp only [decide_eq_true_eq] at hab hba
  exact hinj a (hperm.mem_iff.1 ha) b hb (by omega)

end

/-! ## Replaying the lines -/

/-- The log holds exactly these events, in its file, in its tree and in memory. -/
structure Holds (P : Prims) (key : Option Bytes32) (dir : String) (w : World) (evs : List PersistedEvent) : Prop where
  file : (w.disk dir).events = some (fileBytes P evs [])
  tree : w.log.tree = ⟨leavesOf P key evs⟩
  events : w.log.events = (countEvents evs ∅).1

theorem replay_emptied {log : AuditLog} (he : log.events = []) (ht : log.tree.leaves = []) {evs : List PersistedEvent}
    (hne : evs ≠ []) (hc : Chained P log.leafKey [] evs) :
    ∃ log', log.replay P evs = (.ok (), log') ∧ log'.tree = ⟨leavesOf P log.leafKey evs⟩ ∧
      log'.events = applyRetention log.retainedDomainRoots (countEvents evs ∅).1 := by
  have hg : ¬ (log.events ≠ [] ∨ log.tree.leafCount ≠ 0) := by simp [he, AuditMerkleTree.leafCount, ht]
  have hspec := @replayEvents_ok P log.leafKey evs ⟨log.tree, log.rootAfterByIndex, ∅, log.events⟩
  simp only [ht] at hspec
  unfold AuditLog.replay
  rw [if_neg hne, if_neg hg, hspec.2 ⟨hc, rfl⟩]
  exact ⟨_, rfl, by simp [Replay.extend, ht], by simp [Replay.extend, he]⟩

theorem open_emptied (hl : P.Lawful) {w : World} {sledOpen : Option String} {evs : List PersistedEvent}
    (he : w.log.events = []) (ht : w.log.tree.leaves = []) (hsled : sledTree { sledOpen := sledOpen } (w.disk dir) = none)
    (hfile : (w.disk dir).events = some (fileBytes P evs [])) (hne : evs ≠ []) (hc : Chained P w.log.leafKey [] evs) :
    ∃ w', exec (setPersistenceDir P { sledOpen := sledOpen } dir) w = (.ok (), w') ∧ Holds P w.log.leafKey dir w' evs := by
  have hdir : ((w.opening { sledOpen := sledOpen } dir).disk dir).events = some (fileBytes P evs []) := by
    rw [opening_disk]
    exact hfile
  have hread : readOutcome P { sledOpen := sledOpen } ((w.opening { sledOpen := sledOpen } dir).disk dir) = (.ok (evs, ⟨∅, ∅⟩),
      { (w.opening { sledOpen := sledOpen } dir).disk dir with events := some (fileBytes P evs []) }) :=
    hl.readOutcome_file (.inl rfl) hdir
  have hlog : (w.opening { sledOpen := sledOpen } dir).log = w.log.opening none dir := by
    rw [← hsled]
    rfl
  obtain ⟨log', hreplay, htree, hevents⟩ := @replay_emptied P ((w.log.opening none dir).setMeta ⟨∅, ∅⟩) he ht evs hne hc
  rw [exec_setPersistenceDir_sled, hsled, exec_readEvents_some hdir]
  simp only [Option.isSome_none, Bool.false_eq_true, if_false, World.readThen, hread, hlog, hreplay, Except.map]
  refine ⟨_, rfl, ?_, htree, ?_⟩
  · simp [World.opened, World.setDir, Dir.withEvents]
  · refine hevents.trans ?_
    exact applyRetention_empty _

theorem Holds.eventCount (h : Holds P key dir w evs) : w.log.eventCount = evs.length := by
  have hindex := congrArg List.length (index_countEvents evs ∅)
  rw [AuditLog.eventCount, h.events]
  simpa using hindex

theorem written_eq (hne : evs ≠ []) :
    (String.ofList (join (evs.map P.eventToString) ++ ['\n'])).toByteArray = fileBytes P evs [] := by
  rw [join_concat_newline (by simpa using hne), fileBytes, List.append_nil]

section
variable {fetch : String → Option ByteArray} {history : List OnChainRoot} {evs : List PersistedEvent}

/-! ## The daemon's answer -/

/-- The world after `clear` and the write of the lines. -/
def World.refilled (w : World) (dir : String) (ls : List (List Char)) : World where
  log := { w.log with tree := .empty, events := [], sequences := ∅, legalHolds := ∅, retainedDomainRoots := ∅ }
  disk := Function.update w.disk dir ⟨some (String.ofList (join ls ++ ['\n'])).toByteArray, some .empty⟩

section
variable {decrypt : Option (ByteArray → Option String)} {w : World} {sledOpen sledReopen : Option String}

theorem exec_rebuild (hp : w.log.persistence = some dir) (hs : w.log.sledStore = some dir) (hh : history ≠ [])
    (hg : (gatherBatches fetch decrypt history).lines ≠ []) :
    exec (rebuild P { sledOpen := sledOpen, sledReopen := sledReopen } none dir history fetch decrypt) w =
      match exec (setPersistenceDir P { sledOpen := sledOpen, sledReopen := sledReopen } dir)
        (w.refilled dir (gatherBatches fetch decrypt history).lines) with
      | (.error e, w') => (.error e, w')
      | (.ok (), w') => (.ok (rebuildReport history (rootHex P w'.log.tree.leaves) w'.log.eventCount
          (gatherBatches fetch decrypt history).fetched (gatherBatches fetch decrypt history).failed), w') := by
  have hclear : exec (clear { sledOpen := sledOpen, sledReopen := sledReopen }) w =
      (.ok (), (World.setDir ⟨{ w.log with tree := .empty, events := [], sequences := ∅, legalHolds := ∅, retainedDomainRoots := ∅ },
        w.disk⟩ dir ⟨some ByteArray.empty, some .empty⟩)) := by
    unfold clear
    rw [exec_bind_ok (exec_modify _ _), exec_bind_ok (exec_get _)]
    simp only [hs, hp]
    rw [exec_bind_ok (exec_check_none _ _), exec_bind_ok (exec_modify _ _), exec_bind_ok (exec_check_none _ _),
      exec_bind_ok (exec_modify _ _), exec_check_none]
    simp [World.setDir]
  unfold rebuild
  rw [exec_bind_ok (exec_get _), if_neg hh]
  simp only [hg, if_false]
  rw [exec_bind_ok hclear, writeLines, bind_assoc, exec_bind_ok (exec_check_none _ _), exec_bind_ok (exec_modify _ _), exec_bind]
  simp only [World.setDir, Function.update_self, Function.update_idem]
  rw [World.refilled]
  generalize exec (setPersistenceDir P _ dir) _ = r
  obtain ⟨_ | _, w'⟩ := r <;> rfl

theorem rebuild_locked {e : String} (hp : w.log.persistence = some dir) (hs : w.log.sledStore = some dir) (hh : history ≠ [])
    (hg : (gatherBatches fetch decrypt history).lines ≠ []) :
    (exec (rebuild P { sledOpen := sledOpen, sledReopen := some e } none dir history fetch decrypt) w).1 =
      .error (.validation s!"open sled tree store: {e}") := by
  have hfail : ∀ w1 : World, exec (openSled { sledOpen := sledOpen, sledReopen := some e } dir) w1 =
      (.error (.validation s!"open sled tree store: {e}"), w1) := fun _ => rfl
  rw [exec_rebuild hp hs hh hg, setPersistenceDir, exec_bind_ok (exec_check_none _ _), exec_bind_ok (exec_loadSled _ _ _),
    exec_bind_error (hfail _)]

theorem rebuild_answers (hl : P.Lawful) (hp : w.log.persistence = some dir) (hs : w.log.sledStore = some dir)
    (hkey : w.log.leafKey = key) (hh : history ≠ []) (hne : evs ≠ []) (hc : Chained P key [] evs)
    (hg : (gatherBatches fetch decrypt history).lines = evs.map P.eventToString) :
    ∃ w', exec (rebuild P { sledOpen := sledOpen } none dir history fetch decrypt) w =
        (.ok (rebuildReport history (rootHex P (leavesOf P key evs)) evs.length
          (gatherBatches fetch decrypt history).fetched (gatherBatches fetch decrypt history).failed), w') ∧
      Holds P key dir w' evs := by
  have hg' : (gatherBatches fetch decrypt history).lines ≠ [] := by
    rw [hg]
    simpa using hne
  have hsled : sledTree { sledOpen := sledOpen } ((w.refilled dir (evs.map P.eventToString)).disk dir) = none := by
    simp only [World.refilled, Function.update_self]
    cases sledOpen <;> rfl
  have hfile : ((w.refilled dir (evs.map P.eventToString)).disk dir).events = some (fileBytes P evs []) := by
    simp only [World.refilled, Function.update_self, written_eq hne]
  subst hkey
  obtain ⟨w', hopen, hholds⟩ := @open_emptied P dir hl (w.refilled dir (evs.map P.eventToString)) sledOpen evs rfl rfl hsled hfile
    hne hc
  have hexec := @exec_rebuild P dir fetch history decrypt w sledOpen none hp hs hh hg'
  rw [hg, hopen] at hexec
  refine ⟨w', hexec.trans ?_, hholds⟩
  simp only [hholds.eventCount, hholds.tree]
  rfl

end

/-! ## The desktop's answer -/

/-- The request names an identity, a contract and the leaf key. -/
structure RebuildRequest.Fits (request : RebuildRequest) (key : Option Bytes32) : Prop where
  identity : trim request.ageIdentity.toList ≠ []
  contract : request.contractId ≠ ""
  leafKey : parseLeafKey request.auditLeafKeyHex = .ok key

section
variable {request : RebuildRequest} {disk : String → Dir} {decrypt : String → ByteArray → Option String}

theorem desktop_onchainRoot (h : (auditRebuildFromChain P request dir disk history fetch decrypt).1 = .ok r) :
    r.onchainRoot = history.getLast? := by
  unfold auditRebuildFromChain at h
  simp only at h
  split at h
  · cases h
  split at h
  · cases h
  split at h
  · next hh =>
    obtain rfl := Except.ok.inj h
    rw [hh]
    rfl
  split at h
  · obtain rfl := Except.ok.inj h
    rfl
  split at h
  · cases h
  split at h
  · cases h
  · obtain rfl := Except.ok.inj h
    rfl

theorem desktop_answers (hl : P.Lawful) (hr : request.Fits key) (hsled : sledTree {} (disk dir) = none) (hh : history ≠ [])
    (hne : evs ≠ []) (hc : Chained P key [] evs)
    (hg : sortLines P (gatherBatches fetch (some (decrypt request.ageIdentity)) history).lines = evs.map P.eventToString) :
    ∃ w', auditRebuildFromChain P request dir disk history fetch decrypt =
        (.ok (rebuildReport history (rootHex P (leavesOf P key evs)) evs.length
          (gatherBatches fetch (some (decrypt request.ageIdentity)) history).fetched
          (gatherBatches fetch (some (decrypt request.ageIdentity)) history).failed), w') ∧
      Holds P key dir w' evs := by
  have hg' : evs.map P.eventToString ≠ [] := by simpa using hne
  have hwrite : (exec (writeLines none dir (evs.map P.eventToString)) (World.start none disk)).2.disk =
      Function.update disk dir { disk dir with events := some (fileBytes P evs []) } := by
    rw [writeLines, exec_bind_ok (exec_check_none _ _), exec_modify, ← written_eq hne]
    rfl
  have hsled' : sledTree {} (Function.update disk dir { disk dir with events := some (fileBytes P evs []) } dir) = none := by
    rw [Function.update_self]
    exact hsled
  obtain ⟨w', hopen, hholds⟩ := @open_emptied P dir hl (World.start key
    (Function.update disk dir { disk dir with events := some (fileBytes P evs []) })) none evs rfl rfl hsled'
    (by simp [World.start]) hne hc
  unfold auditRebuildFromChain
  simp only [hr.identity, hr.contract, hh, hg, hg', if_false, hr.leafKey, hwrite]
  rw [hopen]
  refine ⟨w', ?_, hholds⟩
  simp only [hholds.eventCount, hholds.tree]
  rfl

end

end

/-! ## Both answers -/

/-- The events in the file of the log that is published. -/
def Publication.events (P : Prims) (dir : String) (s : Publication) : List PersistedEvent :=
  ((s.service.world.disk dir).events.bind (fileEvents P)).getD []

/-- The log is open on the directory, with its tree store. -/
structure World.OpenAt (w : World) (dir : String) (key : Option Bytes32) : Prop where
  persistence : w.log.persistence = some dir
  sledStore : w.log.sledStore = some dir
  leafKey : w.log.leafKey = key

/-- What a rebuild promises: the log holds the events up to the end of the last closed epoch, and the report compares
its root with the newest commitment and finds them equal. -/
structure Rebuilds (P : Prims) (key : Option Bytes32) (dir : String) (s : Publication) (rebuiltDir : String)
    (answer : Except AuditError VerificationReport × World) (report : VerificationReport) : Prop where
  answered : answer.1 = .ok report
  newest : report.onchainRoot = (getCurrentRoot s.chain).map onChainRoot
  intact : report.chainIntact = true ∧ report.tamperDetected = false
  events : ∀ epoch endIndex, s.epochs.earlier.getLast? = some epoch → epoch.endIndex = some endIndex →
    Holds P key rebuiltDir answer.2 (eventsBetween 0 endIndex (s.events P dir))

section
variable {s : Publication} {ls : List Line} {l : RootLog}

theorem Filed.events_eq (hl : P.LawfulLines) (hf : Filed P key dir s.service.world ls) : s.events P dir = eventsOf ls := by
  have hscan : fileEvents P (String.ofList (fileText P ls)).toByteArray = some (eventsOf ls) := by
    simp [fileEvents, String.toByteArray_ofList, hl.lines_text hf.written, hl.scan 0 hf.written]
  rw [Publication.events, hf.file, Option.bind_some, hscan, Option.getD_some]

theorem Publishing.upToLast (hl : P.LawfulLines) (hs : Publishing P dir encode key s ls l) (hlast : s.epochs.earlier.getLast? = some epoch) (hend : epoch.endIndex = some i) :
    s.epochs.last.startIndex = i + 1 ∧ eventsBetween 0 i (s.events P dir) = (eventsOf ls).take s.epochs.last.startIndex := by
  obtain ⟨before, hbefore⟩ := List.getLast?_eq_some_iff.1 hlast
  have htiles := hs.sound.bounds.adjacent
  have hsplit : s.service.epochs.earlier = before ++ [epoch] := hbefore
  rw [hsplit, List.map_append, tiles_append] at htiles
  obtain ⟨m, _, _, _, hstop⟩ := htiles
  have hstart : s.epochs.last.startIndex = i + 1 := by
    have hstop' : epoch.leafRange.2 = s.service.epochs.last.startIndex := hstop
    rw [Publication.epochs, ← hstop']
    simp [Epoch.leafRange, hend]
  refine ⟨hstart, ?_⟩
  rw [hs.filed.events_eq hl, hstart,
    eventsBetween_from 0 i 0 _ fun j ev hev => by rw [hs.filed.index_eq hev, Nat.zero_add]]
  simp

theorem Publishing.events_take (hs : Publishing P dir encode key s ls l) (hone : s.epochs.earlier ≠ []) :
    (eventsOf ls).take s.epochs.last.startIndex ≠ [] ∧ Chained P key [] ((eventsOf ls).take s.epochs.last.startIndex) ∧
      ∀ (i : Nat) ev, ((eventsOf ls).take s.epochs.last.startIndex)[i]? = some ev → ev.index = i := by
  refine ⟨?_, (hs.filed.chained.take _).1, ?_⟩
  · obtain ⟨epoch, before, hbefore⟩ := List.exists_cons_of_ne_nil hone
    have hmem : epoch ∈ s.epochs.earlier := by simp [hbefore]
    obtain ⟨i, hend, hcount⟩ := hs.sound.bounds.closed epoch hmem
    have hpos := hs.nonempty epoch hmem
    have hlt := (hs.sound.roots epoch hmem i hend).1
    rw [hs.filed.leafCount_eq] at hlt
    have htiles := hs.sound.bounds.adjacent
    have hsplit : s.service.epochs.earlier = epoch :: before := hbefore
    rw [hsplit, List.map_cons] at htiles
    have hle := htiles.2.2.le
    have hstop : epoch.leafRange.2 = i + 1 := by simp [Epoch.leafRange, hend]
    rw [hstop] at hle
    have hle' : i + 1 ≤ s.epochs.last.startIndex := hle
    intro hnil
    have hlength := congrArg List.length hnil
    simp only [List.length_take, List.length_nil] at hlength
    omega
  · intro i ev hev
    rw [List.getElem?_take] at hev
    split at hev
    · exact hs.filed.index_eq hev
    · cases hev

/-- **The desktop rebuilds the events** of any number of epochs, though its report is about the oldest root. -/
theorem desktop_reconstructs (hl : P.LawfulLines) (hs : Publishing P dir encode key s ls l)
    (hall : l.entries.length = s.epochs.earlier.length) (hone : s.epochs.earlier ≠ []) (hmany : l.entries.length ≤ 100)
    {request : RebuildRequest} (hr : request.Fits key) {disk : String → Dir} {rebuiltDir : String}
    (hsled : sledTree {} (disk rebuiltDir) = none) {decrypt : String → ByteArray → Option String}
    (hopen : ∀ text, openBatch (some (decrypt request.ageIdentity)) (encode text) = some text) :
    ∃ w', auditRebuildFromChain P request rebuiltDir disk (getRootHistoryNative 100 s.chain) s.ipfs decrypt =
        (.ok (rebuildReport (l.entries.reverse.map onChainRoot)
          (rootHex P (leavesOf P key ((eventsOf ls).take s.epochs.last.startIndex)))
          ((eventsOf ls).take s.epochs.last.startIndex).length l.entries.length 0), w') ∧
      Holds P key rebuiltDir w' ((eventsOf ls).take s.epochs.last.startIndex) := by
  obtain ⟨hne, hchained, hat⟩ := hs.events_take hone
  have hgather := hs.gathered hl hall hopen
  have hh : l.entries.reverse.map onChainRoot ≠ [] := by
    intro hnil
    simp only [List.map_eq_nil_iff, List.reverse_eq_nil_iff] at hnil
    rw [hnil] at hall
    exact hone (List.length_eq_zero_iff.1 hall.symm)
  have hsorted : sortLines P (gatherBatches s.ipfs (some (decrypt request.ageIdentity)) (l.entries.reverse.map onChainRoot)).lines =
      ((eventsOf ls).take s.epochs.last.startIndex).map P.eventToString := by
    rw [hgather]
    refine sortLines_eq hl hat ?_
    rw [← hs.flatMap_epochLines]
    exact (List.reverse_perm _).flatMap_right _
  rw [hs.history hall hmany]
  have hanswer := @desktop_answers P key rebuiltDir s.ipfs _ _ request disk decrypt hl.toLawful hr hsled hh hne hchained hsorted
  rw [hgather] at hanswer
  exact hanswer

theorem Publishing.newest (hs : Publishing P dir encode key s ls l) : getCurrentRoot s.chain = l.entries.getLast? := by
  rw [getCurrentRoot, hs.represents.current, List.getLast?_eq_getElem?]
  by_cases hzero : l.entries.length = 0
  · simp [List.length_eq_zero_iff.1 hzero]
  · obtain ⟨n, hn⟩ := Nat.exists_eq_succ_of_ne_zero hzero
    rw [if_neg hzero, Option.bind_some, hn, hs.represents.stores.2]
    rfl

theorem length_eq_one_of_oldest (hne : l.entries ≠ [])
    (h : l.entries.head?.map onChainRoot = l.entries.getLast?.map onChainRoot) : l.entries.length = 1 := by
  have hpos := List.length_pos_of_ne_nil hne
  have hfirst := List.getElem?_eq_getElem hpos
  have hlast := List.getElem?_eq_getElem (show l.entries.length - 1 < l.entries.length by omega)
  rw [List.head?_eq_getElem?, List.getLast?_eq_getElem?, hfirst, hlast, Option.map_some, Option.map_some,
    Option.some.injEq] at h
  have hsequence := congrArg OnChainRoot.sequence h
  simp only [onChainRoot, l.numbered _ _ hfirst, l.numbered _ _ hlast] at hsequence
  omega

theorem Publishing.single (hs : Publishing P dir encode key s ls l) (hall : l.entries.length = s.epochs.earlier.length)
    (hone : s.epochs.earlier.length = 1) (fetched failed : Nat) :
    s.epochs.earlier.reverse.flatMap (epochLines P (eventsOf ls)) =
        ((eventsOf ls).take s.epochs.last.startIndex).map P.eventToString ∧
      (rebuildReport (l.entries.reverse.map onChainRoot)
        (rootHex P (leavesOf P key ((eventsOf ls).take s.epochs.last.startIndex)))
        ((eventsOf ls).take s.epochs.last.startIndex).length fetched failed).onchainRoot = l.entries.getLast?.map onChainRoot ∧
      (rebuildReport (l.entries.reverse.map onChainRoot)
        (rootHex P (leavesOf P key ((eventsOf ls).take s.epochs.last.startIndex)))
        ((eventsOf ls).take s.epochs.last.startIndex).length fetched failed).chainIntact = true ∧
      (rebuildReport (l.entries.reverse.map onChainRoot)
        (rootHex P (leavesOf P key ((eventsOf ls).take s.epochs.last.startIndex)))
        ((eventsOf ls).take s.epochs.last.startIndex).length fetched failed).tamperDetected = false := by
  obtain ⟨epoch, hepoch⟩ := List.length_eq_one_iff.1 hone
  obtain ⟨entry, hentry⟩ := List.length_eq_one_iff.1 (hall.trans hone)
  have hmem : epoch ∈ s.epochs.earlier := by simp [hepoch]
  obtain ⟨i, hend, _⟩ := hs.sound.bounds.closed epoch hmem
  have hstart : s.epochs.last.startIndex = i + 1 := by
    have htiles := hs.sound.bounds.adjacent
    have hsplit : s.service.epochs.earlier = [epoch] := hepoch
    rw [hsplit] at htiles
    have hstop : epoch.leafRange.2 = s.epochs.last.startIndex := htiles.2.2
    rw [← hstop]
    simp [Epoch.leafRange, hend]
  have hroot := (hs.published 0 entry epoch (by simp [hentry]) (by simp [hepoch])).root
  rw [(hs.sound.roots epoch hmem i hend).2, Option.some.injEq] at hroot
  have hsame : (onChainRoot entry).rootHex =
      rootHex P (leavesOf P key ((eventsOf ls).take s.epochs.last.startIndex)) := by
    rw [hstart, (hs.filed.chained.take _).2]
    rw [hs.filed.tree] at hroot
    exact hroot.symm
  have hlines := hs.flatMap_epochLines
  rw [hepoch] at hlines
  refine ⟨by rw [hepoch]; exact hlines, ?_, ?_, ?_⟩
  · simp [rebuildReport, hentry]
  · simp [rebuildReport, hentry, hsame]
  · simp [rebuildReport, hentry, hsame]

/-- **Both rebuilds** give the report that is promised, one and the same, exactly when there is one epoch and the
daemon can open its tree store a second time. -/
theorem Publishing.rebuilds_iff (hl : P.LawfulLines) (hs : Publishing P dir encode key s ls l)
    (hall : s.chain.seqOr0 = s.epochs.earlier.length) (hone : 1 ≤ s.epochs.earlier.length)
    (hmany : s.epochs.earlier.length ≤ 100)
    (hw : w.OpenAt daemonDir key) (hopen : ∀ text, openBatch decryptBatch (encode text) = some text)
    (hr : request.Fits key) (hsled : (disk desktopDir).sled = none ∨ (disk desktopDir).sled = some .empty)
    (hopen' : ∀ text, openBatch (some (decrypt request.ageIdentity)) (encode text) = some text)
    (sledOpen sledReopen : Option String) :
    (∃ report, Rebuilds P key dir s daemonDir (exec (rebuild P { sledOpen := sledOpen, sledReopen := sledReopen } none daemonDir
          (getRootHistoryNative 100 s.chain) s.ipfs decryptBatch) w) report ∧
        Rebuilds P key dir s desktopDir (auditRebuildFromChain P request desktopDir disk
          (getRootHistoryNative 100 s.chain) s.ipfs decrypt) report) ↔
      s.epochs.earlier.length = 1 ∧ sledReopen = none := by
  have hcount : l.entries.length = s.epochs.earlier.length := by rw [← hs.represents.count, hall]
  have hne : s.epochs.earlier ≠ [] := List.ne_nil_of_length_pos hone
  have hne' : l.entries ≠ [] := List.ne_nil_of_length_pos (by omega)
  have hhistory := hs.history hcount (by omega)
  have hgather := hs.gathered hl hcount hopen
  have hh : l.entries.reverse.map onChainRoot ≠ [] := by simpa using hne'
  have hsled' : sledTree {} (disk desktopDir) = none := by
    rcases hsled with hsled | hsled
    · simp [sledTree, hsled]
    · rw [stored_empty.sledTree hsled, if_pos rfl]
  obtain ⟨hevents, hchained, _⟩ := hs.events_take hne
  constructor
  · rintro ⟨report, hdaemon, hdesktop⟩
    have hlength : s.epochs.earlier.length = 1 := by
      -- the report is about the last entry of the history, the oldest one
      have hroot := (desktop_onchainRoot hdesktop.answered).symm.trans hdesktop.newest
      rw [hhistory, hs.newest, List.getLast?_map, List.getLast?_reverse] at hroot
      rw [← hcount]
      exact length_eq_one_of_oldest hne' hroot
    refine ⟨hlength, ?_⟩
    cases hreopen : sledReopen with
    | none => rfl
    | some e =>
      have hlines : (gatherBatches s.ipfs decryptBatch (getRootHistoryNative 100 s.chain)).lines ≠ [] := by
        rw [hhistory, hgather, (hs.single hcount hlength 0 0).1]
        simpa using hevents
      have hlocked := @rebuild_locked P daemonDir s.ipfs _ decryptBatch w sledOpen e hw.persistence hw.sledStore
        (by rw [hhistory]; exact hh) hlines
      rw [← hreopen, hdaemon.answered] at hlocked
      cases hlocked
  · rintro ⟨hlength, rfl⟩
    obtain ⟨hlines, hroot, hreport⟩ := hs.single hcount hlength l.entries.length 0
    obtain ⟨w1, hdaemon, hholds1⟩ := @rebuild_answers P key daemonDir s.ipfs (l.entries.reverse.map onChainRoot) _ decryptBatch w
      sledOpen hl.toLawful hw.persistence hw.sledStore hw.leafKey hh hevents hchained (by rw [hgather, hlines])
    obtain ⟨w2, hdesktop, hholds2⟩ := desktop_reconstructs hl hs hcount hne (by omega) hr hsled' hopen'
    rw [hgather] at hdaemon
    refine ⟨_, ⟨by rw [hhistory, hdaemon], by rw [hroot, hs.newest], hreport, ?_⟩,
      by rw [hdesktop], by rw [hroot, hs.newest], hreport, ?_⟩
    · intro epoch endIndex hlast hend
      rw [hhistory, hdaemon, (hs.upToLast hl hlast hend).2]
      exact hholds1
    · intro epoch endIndex hlast hend
      rw [hdesktop, (hs.upToLast hl hlast hend).2]
      exact hholds2

end

/-! ## Runs -/

/-- The publication is reached by a regular run from a new log, over a contract without roots. -/
def RegularRun (P : Prims) (dir : String) (h : Host) (kp : Address) (encode : List Char → ByteArray)
    (key : Option Bytes32) (s : Publication) : Prop :=
  ∃ config path files chain ipfs steps, Represents chain .nil ∧
    Guarded (stepPublication P dir h kp encode key) (PublicationStep.Regular P key)
      (Publication.start P key dir config path files chain ipfs) steps ∧
    s = run (stepPublication P dir h kp encode key) (Publication.start P key dir config path files chain ipfs) steps

theorem RegularRun.publishing (hl : P.LawfulLines) (hrun : RegularRun P dir h kp encode key s) : ∃ ls l, Publishing P dir encode key s ls l := by
  obtain ⟨config, path, files, chain, ipfs, steps, hchain, hg, rfl⟩ := hrun
  exact publishing_run hl (publishing_start hchain) hg

/-- **Rebuilding from the chain**: when every closed epoch has been published and committed in order, the daemon and the
desktop both rebuild the log and confirm it by one report exactly when there is one epoch and the daemon can open its
tree store a second time. -/
theorem rebuilds_agree_iff (hl : P.LawfulLines) {h : Contract.Host} {kp : Contract.Address} {s : Publication}
    (hrun : RegularRun P dir h kp encode key s) (hall : s.chain.seqOr0 = s.epochs.earlier.length)
    (hone : 1 ≤ s.epochs.earlier.length) (hmany : s.epochs.earlier.length ≤ 100)
    {w : World} {daemonDir : String} (hw : w.OpenAt daemonDir key) {decryptBatch : Option (ByteArray → Option String)}
    (hopen : ∀ text, openBatch decryptBatch (encode text) = some text)
    {request : RebuildRequest} (hr : request.Fits key) {disk : String → Dir} {desktopDir : String}
    (hsled : (disk desktopDir).sled = none ∨ (disk desktopDir).sled = some .empty)
    {decrypt : String → ByteArray → Option String}
    (hopen' : ∀ text, openBatch (some (decrypt request.ageIdentity)) (encode text) = some text)
    (sledOpen sledReopen : Option String) :
    (∃ report, Rebuilds P key dir s daemonDir (exec (rebuild P { sledOpen := sledOpen, sledReopen := sledReopen } none daemonDir
          (getRootHistoryNative 100 s.chain) s.ipfs decryptBatch) w) report ∧
        Rebuilds P key dir s desktopDir (auditRebuildFromChain P request desktopDir disk
          (getRootHistoryNative 100 s.chain) s.ipfs decrypt) report) ↔
      s.epochs.earlier.length = 1 ∧ sledReopen = none := by
  obtain ⟨ls, l, hs⟩ := hrun.publishing hl
  exact hs.rebuilds_iff hl hall hone hmany hw hopen hr hsled hopen' sledOpen sledReopen

end

/-! ### Epochs of one insert -/

section
variable {encode : List Char → ByteArray} {s : Publication} {ls : List Line} {l : RootLog}

/-- An insert is recorded, closes its epoch and is published. -/
def insertEpoch (n : Nat) (payload : String) (cid : String) : List PublicationStep :=
  [.log (.record (demoInsert payload)), .recordEvent n {}, .publish n none cid (.answered 200 (.validation "refused"))]

/-- The state before the `n`-th of these epochs. -/
structure Ready (n : Nat) (s : Publication) : Prop where
  threshold : s.service.store.manager.config.eventThreshold = 1
  earlier : s.epochs.earlier.length = n
  last : s.epochs.last = Epoch.new n n
  leafCount : s.service.world.log.leafCount = n
  seq : s.chain.seqOr0 = n
  admin : s.chain.admin = some demoAdmin

/-- The steps of these runs. -/
abbrev stepInserts (encode : List Char → ByteArray) : Publication → PublicationStep → Publication :=
  stepPublication demoPrims "data" demoHost demoAdmin encode none

/-- The leaf of the insert. -/
def insertLeafOf (payload : String) : Fr := leafFromPayload demoPrims "insert" "shop" "orders" payload

theorem insertEpoch_log (hk : s.service.world.log.leafKey = none) (payload : String) :
    (stepInserts encode s (.log (.record (demoInsert payload)))).service.world.log.tree.leaves =
        s.service.world.log.tree.leaves ++ [insertLeafOf payload] := by
  have hlog := @log_demoInsert s.service.world hk payload
  have hleaves := congrArg (fun log : AuditLog => log.tree.leaves) hlog
  exact hleaves

theorem insertEpoch_closed {n : Nat} (hthreshold : s.service.store.manager.config.eventThreshold = 1)
    (hlast : s.epochs.last = Epoch.new n n) (hh : HistoricalRoots demoPrims s.service.world.log)
    (hcount : s.service.world.log.leafCount = n + 1) :
    (stepInserts encode s (.recordEvent n {})).epochs =
      ⟨s.epochs.earlier ++ [((Epoch.new n n).setCount 1).freeze n (rootHex demoPrims s.service.world.log.tree.leaves)],
        Epoch.new (n + 1) (n + 1)⟩ := by
  have hlast' : s.service.store.manager.epochs.last = Epoch.new n n := hlast
  have hroot : s.service.world.log.rootAfterAt n = some (rootHex demoPrims s.service.world.log.tree.leaves) := by
    have hlen : s.service.world.log.tree.leaves.length = n + 1 := hcount
    rw [hh n, if_pos (by omega), List.take_of_length_le (by omega)]
  have hepochs := @epochs_recordEvent s.service.store {} s.service.world.log (by rw [hlast']; rfl) n
  have hclose : s.service.store.manager.shouldClose (s.service.store.manager.epochs.last.eventCount + 1) = true := by
    rw [hlast', EpochManager.shouldClose, hthreshold]
    rfl
  rw [hclose, if_pos rfl, hroot] at hepochs
  have hclosed : ∀ (es : EpochList) root, es.last = Epoch.new n n → (es.setCount (es.last.eventCount + 1)).closedAt n (some root) =
      ⟨es.earlier ++ [((Epoch.new n n).setCount 1).freeze n root], Epoch.new (n + 1) (n + 1)⟩ := by
    rintro ⟨earlier, last⟩ root rfl
    rfl
  exact hepochs.trans (hclosed _ _ hlast')

theorem insertEpoch_published (hs : Publishing demoPrims "data" encode none s ls l)
    (hat : s.epochs.find n = some epoch) (hend : epoch.endIndex = some n) (hroot : epoch.rootHex = some (rootHex demoPrims leaves))
    (hoplog : epoch.oplogMerkleRootHex = none) (hadmin : s.chain.admin = some demoAdmin) (hn : s.chain.seqOr0 + 1 < 2 ^ 64)
    (hnew : ∀ e ∈ l.entries, String.ofList (Bytes.hexEncode e.root) ≠ rootHex demoPrims leaves) (cid : String) :
    (stepInserts encode s (.publish n none cid (.answered 200 (.validation "refused")))).chain.seqOr0 = s.chain.seqOr0 + 1 ∧
      (stepInserts encode s (.publish n none cid (.answered 200 (.validation "refused")))).chain.admin = s.chain.admin ∧
      (stepInserts encode s (.publish n none cid (.answered 200 (.validation "refused")))).service = s.service ∧
      ∀ other, other ≠ cid →
        (stepInserts encode s (.publish n none cid (.answered 200 (.validation "refused")))).ipfs other = s.ipfs other := by
  have hfresh : toBytesBe ((⟨leaves⟩ : AuditMerkleTree 20).root demoPrims) ∉ s.chain.index := by
    intro hmem
    obtain ⟨k, hk⟩ := Finmap.mem_iff.1 hmem
    obtain ⟨e, he, heroot⟩ := (hs.represents.index _ k).1 hk
    obtain ⟨i, _, hi⟩ := (CounterLog.stores_some hs.represents.stores).1 he
    refine hnew e (List.mem_of_getElem? hi) ?_
    rw [heroot]
    rfl
  have hdecode : Bytes.hexDecode (rootHex demoPrims leaves).toList =
      some (toBytesBe ((⟨leaves⟩ : AuditMerkleTree 20).root demoPrims)) := by
    simp [rootHex, frToHex, Bytes.hexDecode_hexEncode]
  have hcommit : ∀ metadata, (commitEpoch demoHost epoch (rootHex demoPrims leaves) metadata demoAdmin
        (.answered 200 (.validation "refused")) s.chain).2.seqOr0 = s.chain.seqOr0 + 1 ∧
      (commitEpoch demoHost epoch (rootHex demoPrims leaves) metadata demoAdmin
        (.answered 200 (.validation "refused")) s.chain).2.admin = s.chain.admin := by
    intro metadata
    obtain ⟨chain', hok, hseq, hadm⟩ := @Contract.commitRoot_accepted demoHost ⟨[demoAdmin], 200⟩
      demoAdmin _ s.chain hadmin (by simp) hfresh hn metadata
    simp only [commitEpoch, hoplog, commitRootNative, hdecode, submitInvoke, hok]
    exact ⟨hseq, hadm⟩
  simp only [stepPublication, hat, readText_encoded hs.filed.file, hend, Option.elim_none, publishEpoch, hroot, Option.getD_some]
  refine ⟨(hcommit _).1, (hcommit _).2, trivial, ?_⟩
  · intro other hne
    by_cases hbatch : extractEpochBatch demoPrims (fileText demoPrims ls) epoch.startIndex n = []
    · simp [hbatch]
    · simp [hbatch, hne]

theorem find_concat {es es' : EpochList} {n : Nat} {epoch next : Epoch} (hb : Boundaries es) (hlen : es.earlier.length = n)
    (hes : es' = ⟨es.earlier ++ [epoch], next⟩) (hepoch : epoch.epochNumber = n) : es'.find n = some epoch := by
  have hnone : es.earlier.find? (·.epochNumber = n) = none := by
    rw [List.find?_eq_none]
    intro e he
    have hmem : e.epochNumber ∈ List.range es.earlier.length := by
      rw [← hb.numbers.1]
      exact List.mem_map_of_mem he
    have hlt := List.mem_range.1 hmem
    simp only [decide_eq_true_eq]
    omega
  rw [hes, EpochList.find, EpochList.toList, List.append_assoc, List.find?_append, hnone]
  simp [hepoch]

theorem Ready.insertEpoch {n : Nat} (hr : Ready n s) (hs : Publishing demoPrims "data" encode none s ls l) (payload : String)
    {cid : String} (hfree : s.ipfs cid = none) (hcid : ∀ c ∈ cid.toList, isWhitespace c = false) (hn : n + 1 < 2 ^ 64)
    (hnew : ∀ e ∈ l.entries, String.ofList (Bytes.hexEncode e.root) ≠
      rootHex demoPrims (s.service.world.log.tree.leaves ++ [insertLeafOf payload])) :
    Guarded (stepInserts encode) (PublicationStep.Regular demoPrims none) s (insertEpoch n payload cid) ∧
      Ready (n + 1) (run (stepInserts encode) s (insertEpoch n payload cid)) ∧
      (run (stepInserts encode) s (insertEpoch n payload cid)).service.world.log.tree.leaves =
        s.service.world.log.tree.leaves ++ [insertLeafOf payload] ∧
      ∀ other, other ≠ cid → (run (stepInserts encode) s (insertEpoch n payload cid)).ipfs other = s.ipfs other := by
  have hregular : PublicationStep.Regular demoPrims none s (.log (.record (demoInsert payload))) := by
    refine ⟨by simp, fun e he => ?_⟩
    rw [demoInsert_entry] at he
    obtain rfl := Option.some.inj he
    exact demoEntry_honest payload
  obtain ⟨ls1, hs1⟩ : ∃ ls1, Publishing demoPrims "data" encode none
      (stepInserts encode s (.log (.record (demoInsert payload)))) ls1 l :=
    hs.log ReaderMode.demoPrims_lawfulLines hregular
  have hleaves := @insertEpoch_log encode s hs.filed.leafKey payload
  obtain ⟨s1, hs1eq⟩ : ∃ s1, s1 = stepInserts encode s (.log (.record (demoInsert payload))) := ⟨_, rfl⟩
  have hstore : s1.service.store = s.service.store ∧ s1.chain = s.chain ∧ s1.ipfs = s.ipfs := by
    subst hs1eq
    exact ⟨rfl, rfl, rfl⟩
  rw [← hs1eq] at hs1 hleaves
  have hcount : s1.service.world.log.leafCount = n + 1 := by
    have hlen := congrArg List.length hleaves
    rw [List.length_append] at hlen
    exact hlen.trans (congrArg (· + 1) hr.leafCount)
  have hlast1 : s1.epochs.last = Epoch.new n n := by
    rw [Publication.epochs, Service.epochs, hstore.1]
    exact hr.last
  have hthreshold1 : s1.service.store.manager.config.eventThreshold = 1 := by rw [hstore.1]; exact hr.threshold
  have hearlier1 : s1.epochs.earlier = s.epochs.earlier := by
    rw [Publication.epochs, Service.epochs, hstore.1]
    rfl
  have hearlier1' : s1.service.epochs.earlier.length = n := (congrArg List.length hearlier1).trans hr.earlier
  have hends : PublicationStep.Regular demoPrims none s1 (.recordEvent n {}) := by
    intro _ _
    rw [show s1.service.epochs.last = Epoch.new n n from hlast1]
    rfl
  have hclosed := @insertEpoch_closed encode s1 n hthreshold1 hlast1 hs1.sound.history hcount
  have hconfig : (stepInserts encode s1 (.recordEvent n {})).service.store.manager.config = s1.service.store.manager.config :=
    (keeps_recordEvent (f := EpochManager.config) (fun _ _ => rfl) n).apply s1.service.store
  obtain ⟨s2, hs2eq⟩ : ∃ s2, s2 = stepInserts encode s1 (.recordEvent n {}) := ⟨_, rfl⟩
  have hs2 : Publishing demoPrims "data" encode none s2 ls1 l := by
    subst hs2eq
    exact hs1.epochs rfl ((sound_step (.recordEvent n {}) hs1.sound).2 hends)
      (endsOne_recordEvent hs1.sound.bounds.isOpen {} n _)
  have hstore2 : s2.service.world = s1.service.world ∧ s2.chain = s1.chain ∧ s2.ipfs = s1.ipfs := by
    subst hs2eq
    exact ⟨rfl, rfl, rfl⟩
  rw [← hs2eq] at hclosed hconfig
  have hchain2 : s2.chain = s.chain := hstore2.2.1.trans hstore.2.1
  have hipfs2 : s2.ipfs = s.ipfs := hstore2.2.2.trans hstore.2.2
  obtain ⟨hseq, hadmin, hservice, hother⟩ := insertEpoch_published hs2
    (find_concat hs1.sound.bounds hearlier1' hclosed rfl) rfl rfl rfl
    (by rw [hchain2]; exact hr.admin) (by rw [hchain2, hr.seq]; exact hn) (by rw [hleaves]; exact hnew) cid
  have hrun : run (stepInserts encode) s (Audit.insertEpoch n payload cid) =
      stepInserts encode s2 (.publish n none cid (.answered 200 (.validation "refused"))) := by
    rw [hs2eq, hs1eq]
    rfl
  rw [hrun]
  refine ⟨⟨hregular, ?_⟩, ⟨?_, ?_, ?_, ?_, ?_, ?_⟩, ?_, ?_⟩
  · rw [← hs1eq]
    refine ⟨hends, ?_⟩
    rw [← hs2eq]
    exact ⟨⟨by rw [hchain2, hr.seq], by rw [hipfs2]; exact hfree, hcid⟩, trivial⟩
  · rw [hservice, hconfig]
    exact hthreshold1
  · rw [Publication.epochs, hservice, show s2.service.epochs = _ from hclosed, List.length_append, hearlier1, hr.earlier]
    rfl
  · rw [Publication.epochs, hservice, show s2.service.epochs = _ from hclosed]
  · rw [hservice, hstore2.1]
    exact hcount
  · rw [hseq, hchain2, hr.seq]
  · rw [hadmin, hchain2]
    exact hr.admin
  · rw [hservice, hstore2.1, hleaves]
  · intro other hne
    rw [hother other hne, hipfs2]

end

/-! ### One epoch and two -/

/-- A batch that is stored as it is. -/
def plainBatch (text : List Char) : ByteArray := (String.ofList text).toByteArray

theorem fromUtf8_plainBatch (text : List Char) : fromUtf8 (plainBatch text) = some text := by
  simp [fromUtf8, plainBatch, String.toByteArray_ofList]

/-- A new log that closes an epoch at each event, over a new contract. -/
def startInserts : Publication :=
  .start demoPrims none "data" ⟨1, 0⟩ none (fun _ => .missing) (after demoHost [demoInit]) fun _ => none

theorem represents_demoInit : Represents (after demoHost [demoInit]) .nil where
  count := rfl
  current := rfl
  stores := CounterLog.stores_nil
  index := by
    intro r n
    rw [show (after demoHost [demoInit]).index = ∅ from rfl]
    rw [show (after demoHost [demoInit]).rootEntry n = none from rfl]
    simp
  oplog := by
    intro n c hc
    rw [show (after demoHost [demoInit]).oplogCommitment n = none from rfl] at hc
    cases hc

theorem ready_startInserts : Ready 0 startInserts := by
  obtain ⟨_, hsession, _⟩ := @session_open demoPrims none "data"
  refine ⟨rfl, rfl, rfl, ?_, rfl, rfl⟩
  show (openNew demoPrims none "data").log.tree.leafCount = 0
  rw [AuditMerkleTree.leafCount, hsession.tree]
  rfl

def oneEpoch : List PublicationStep := insertEpoch 0 "insert|shop|orders|1" "a"

def twoEpochs : List PublicationStep := oneEpoch ++ insertEpoch 1 "insert|shop|orders|2" "b"

/-- The identity is left out of the request's checks: the batches are plain. -/
def plainRequest : RebuildRequest := ⟨"AGE-SECRET-KEY-1", "CONTRACT", none⟩

theorem plainRequest_fits : plainRequest.Fits none := ⟨by decide, by decide, rfl⟩

theorem oneEpoch_ready : Guarded (stepInserts plainBatch) (PublicationStep.Regular demoPrims none) startInserts oneEpoch ∧
    Ready 1 (run (stepInserts plainBatch) startInserts oneEpoch) ∧
    (run (stepInserts plainBatch) startInserts oneEpoch).service.world.log.tree.leaves = [insertLeafOf "insert|shop|orders|1"] ∧
    (run (stepInserts plainBatch) startInserts oneEpoch).ipfs "b" = none := by
  have hs : Publishing demoPrims "data" plainBatch none startInserts [] .nil := publishing_start represents_demoInit
  obtain ⟨hg, hr, hleaves, hother⟩ := @Ready.insertEpoch plainBatch startInserts [] .nil 0 ready_startInserts hs
    "insert|shop|orders|1" "a" rfl (by simp [isWhitespace]) (by decide) (fun e he => absurd he List.not_mem_nil)
  rw [hs.filed.tree] at hleaves
  unfold oneEpoch
  exact ⟨hg, hr, hleaves, hother "b" (by decide)⟩

theorem insert_roots_ne : rootHex demoPrims [insertLeafOf "insert|shop|orders|1"] ≠
    rootHex demoPrims [insertLeafOf "insert|shop|orders|1", insertLeafOf "insert|shop|orders|2"] := by
  have hne : (⟨[insertLeafOf "insert|shop|orders|1"]⟩ : AuditMerkleTree 20).root demoPrims ≠
      (⟨[insertLeafOf "insert|shop|orders|1", insertLeafOf "insert|shop|orders|2"]⟩ : AuditMerkleTree 20).root demoPrims := by
    decide +kernel
  exact frToHex_injective.ne hne

theorem regularRun_inserts (hg : Guarded (stepInserts plainBatch) (PublicationStep.Regular demoPrims none) startInserts steps) :
    RegularRun demoPrims "data" demoHost demoAdmin plainBatch none
      (run (stepInserts plainBatch) startInserts steps) :=
  ⟨_, _, _, _, _, steps, represents_demoInit, hg, rfl⟩

theorem openAt_inserts (hg : Guarded (stepInserts plainBatch) (PublicationStep.Regular demoPrims none) startInserts steps) :
    (run (stepInserts plainBatch) startInserts steps).service.world.OpenAt "data" none := by
  obtain ⟨ls, l, hs⟩ := (regularRun_inserts hg).publishing ReaderMode.demoPrims_lawfulLines
  exact ⟨hs.filed.persistence, hs.filed.sledStore, hs.filed.leafKey⟩

theorem twoEpochs_ready : Guarded (stepInserts plainBatch) (PublicationStep.Regular demoPrims none) startInserts twoEpochs ∧
    Ready 2 (run (stepInserts plainBatch) startInserts twoEpochs) := by
  obtain ⟨hg, hr, hleaves, hfree⟩ := oneEpoch_ready
  obtain ⟨ls, l, hs⟩ := (regularRun_inserts hg).publishing ReaderMode.demoPrims_lawfulLines
  have hnew : ∀ e ∈ l.entries, String.ofList (Bytes.hexEncode e.root) ≠
      rootHex demoPrims ([insertLeafOf "insert|shop|orders|1"] ++ [insertLeafOf "insert|shop|orders|2"]) := by
    intro e he
    obtain ⟨k, hk⟩ := List.mem_iff_getElem?.1 he
    -- the only entry has the root of the only leaf
    have hlen : l.entries.length = 1 := hs.represents.count.symm.trans hr.seq
    obtain rfl : k = 0 := by have hlt := (List.getElem?_eq_some_iff.1 hk).1; omega
    have hepoch := List.getElem?_eq_getElem (show 0 < (run (stepInserts plainBatch) startInserts oneEpoch).epochs.earlier.length by
      rw [hr.earlier]; omega)
    have hmem := List.mem_of_getElem? hepoch
    obtain ⟨i, hend, _⟩ := hs.sound.bounds.closed _ hmem
    obtain ⟨hlt, hroot⟩ := hs.sound.roots _ hmem i hend
    have hcount : (run (stepInserts plainBatch) startInserts oneEpoch).service.world.log.leafCount = 1 := hr.leafCount
    obtain rfl : i = 0 := by
      rw [hcount] at hlt
      omega
    rw [(hs.published 0 e _ hk hepoch).root, Option.some.injEq, hleaves] at hroot
    rw [hroot]
    exact insert_roots_ne
  rw [← hleaves] at hnew
  obtain ⟨hg', hr', _, _⟩ := hr.insertEpoch hs "insert|shop|orders|2" hfree (by simp [isWhitespace]) (by decide) hnew
  unfold twoEpochs
  rw [guarded_append, run_append]
  exact ⟨⟨hg, hg'⟩, hr'⟩

/-- Of two epochs that are published and committed in order, the two procedures do not give the report that is
promised, even where the tree store can be opened again. -/
theorem two_epochs_not_rebuilt :
    RegularRun demoPrims "data" Contract.demoHost Contract.demoAdmin plainBatch none
        (Runs.run (stepInserts plainBatch) startInserts twoEpochs) ∧
      (Runs.run (stepInserts plainBatch) startInserts twoEpochs).chain.seqOr0 = 2 ∧
      (Runs.run (stepInserts plainBatch) startInserts twoEpochs).epochs.earlier.length = 2 ∧
      ¬ ∃ report,
        Rebuilds demoPrims none "data" (Runs.run (stepInserts plainBatch) startInserts twoEpochs) "data"
          (exec (rebuild demoPrims {} none "data"
            (getRootHistoryNative 100 (Runs.run (stepInserts plainBatch) startInserts twoEpochs).chain)
            (Runs.run (stepInserts plainBatch) startInserts twoEpochs).ipfs none)
            (Runs.run (stepInserts plainBatch) startInserts twoEpochs).service.world) report ∧
        Rebuilds demoPrims none "data" (Runs.run (stepInserts plainBatch) startInserts twoEpochs) "rebuild"
          (auditRebuildFromChain demoPrims plainRequest "rebuild" emptyDisk
            (getRootHistoryNative 100 (Runs.run (stepInserts plainBatch) startInserts twoEpochs).chain)
            (Runs.run (stepInserts plainBatch) startInserts twoEpochs).ipfs fun _ _ => none) report := by
  obtain ⟨hg, hr⟩ := twoEpochs_ready
  refine ⟨regularRun_inserts hg, hr.seq, hr.earlier, fun hall => ?_⟩
  obtain ⟨ls, l, hs⟩ := (regularRun_inserts hg).publishing ReaderMode.demoPrims_lawfulLines
  have hone := ((hs.rebuilds_iff ReaderMode.demoPrims_lawfulLines (hr.seq.trans hr.earlier.symm) (by rw [hr.earlier]; omega)
    (by rw [hr.earlier]; omega) (openAt_inserts hg) (fun text => by rw [openBatch, fromUtf8_plainBatch, Option.getD_some])
    plainRequest_fits (.inl rfl) (fun text => by rw [openBatch]; exact fromUtf8_plainBatch text) none none).1 hall).1
  rw [hr.earlier] at hone
  omega

/-- One epoch is rebuilt by both, where the tree store can be opened again. -/
theorem one_epoch_rebuilt : ∃ report,
    Rebuilds demoPrims none "data" (Runs.run (stepInserts plainBatch) startInserts oneEpoch) "data"
      (exec (rebuild demoPrims {} none "data"
        (getRootHistoryNative 100 (Runs.run (stepInserts plainBatch) startInserts oneEpoch).chain)
        (Runs.run (stepInserts plainBatch) startInserts oneEpoch).ipfs none)
        (Runs.run (stepInserts plainBatch) startInserts oneEpoch).service.world) report ∧
    Rebuilds demoPrims none "data" (Runs.run (stepInserts plainBatch) startInserts oneEpoch) "rebuild"
      (auditRebuildFromChain demoPrims plainRequest "rebuild" emptyDisk
        (getRootHistoryNative 100 (Runs.run (stepInserts plainBatch) startInserts oneEpoch).chain)
        (Runs.run (stepInserts plainBatch) startInserts oneEpoch).ipfs fun _ _ => none) report := by
  obtain ⟨hg, hr, _, _⟩ := oneEpoch_ready
  exact (rebuilds_agree_iff ReaderMode.demoPrims_lawfulLines (regularRun_inserts hg) (hr.seq.trans hr.earlier.symm)
    (by rw [hr.earlier]) (by rw [hr.earlier]; omega) (openAt_inserts hg)
    (fun text => by rw [openBatch, fromUtf8_plainBatch, Option.getD_some]) plainRequest_fits (.inl rfl)
    (fun text => by rw [openBatch]; exact fromUtf8_plainBatch text) none none).2 ⟨hr.earlier, rfl⟩

end Audit
