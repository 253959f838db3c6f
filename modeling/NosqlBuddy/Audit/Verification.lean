import Mathlib.Data.List.ReduceOption
import NosqlBuddy.Audit.EventText

/-!
# Reader mode

`audit-service/src/audit/reader.rs`: a log file checked against a root that was committed on chain.

The commitment point is found by one scan and the chain is checked by another one, which ends with
success at the first line whose index is above the commitment point, wherever that line stands
(reader.rs:297). `verification_sound_iff`: a report without tampering is right exactly when no such line
stands before the commitment point.

`index + 1` does not overflow for the indices of a vector. A root is hexadecimal text, so its first 16
bytes are its first 16 characters.
-/

namespace Audit
namespace ReaderMode
open Text

structure OnChainRoot where
  sequence : Nat
  rootHex : String
  timestamp : Nat
  metadata : String
deriving DecidableEq

structure VerificationReport where
  onchainRootFound : Bool
  onchainRoot : Option OnChainRoot
  localRootHex : String
  commitmentEventIndex : Option Nat
  totalEvents : Nat
  verifiedEvents : Nat
  eventsAfterCommitment : Nat
  chainIntact : Bool
  tamperDetected : Bool
  summary : String

section
variable (P : Prims)

/-- The lines that are not blank; `none` is a line that is not JSON. -/
def parsedLines (jsonl : List Char) : List (Option Json) :=
  (((lines jsonl).map trim).filter (· ≠ [])).map P.valueFromStr

def countEvents (jsonl : List Char) : Nat := (parsedLines P jsonl).countP Option.isSome

/-- `event_str` (reader.rs:225): the snake-case key before the camel-case key. -/
def eventStr (ev : Json) (snake camel : String) : Option String := ((ev.get snake).or (ev.get camel)).bind Json.asStr

def rootAfter (ev : Json) : Option String := eventStr ev "root_after" "rootAfter"

/-- The loop of `find_root_in_log`: the index of the first line with the root, if it has one. -/
def findRoot (rootHex : String) : List (Option Json) → Option Nat
  | [] => none
  | none :: rest => findRoot rootHex rest
  | some ev :: rest => if rootAfter ev = some rootHex then ev.getU64 "index" else findRoot rootHex rest

def findRootInLog (jsonl : List Char) (rootHex : String) : Option Nat := findRoot rootHex (parsedLines P jsonl)

/-- `leaf_from_payload` of the fields of a line. -/
def payloadLeaf (ev : Json) : Fr :=
  leafFromPayload P ((ev.getStr "operation").getD "") ((ev.getStr "database").getD "")
    ((ev.getStr "collection").getD "") ((ev.getStr "payload").getD "")

/-- The recomputed leaf, when `version as u32` is 0 or 1; every other version is refused. -/
def readerLeaf (ev : Json) : Option Fr :=
  match (ev.getU64 "version").getD 0 % 2 ^ 32 with
  | 1 | 0 => some (payloadLeaf P ev)
  | _ => none

/-- The loop of `verify_root_chain`. -/
def verifyLines (upToIndex : Nat) : AuditMerkleTree 20 → List (Option Json) → Bool
  | _, [] => true
  | _, none :: _ => false
  | tree, some ev :: rest =>
    match ev.getU64 "index" with
    | none => if (ev.get "meta").isSome then verifyLines upToIndex tree rest else false
    | some index =>
      if index > upToIndex then true
      else
        match readerLeaf P ev with
        | none => false
        | some leaf =>
          if frToHex leaf ≠ (eventStr ev "leaf_hex" "leafHex").getD "" then false
          else if (tree.insert leaf).2 ≠ index then false
          else if frToHex ((tree.insert leaf).1.root P) ≠ (rootAfter ev).getD "" then false
          else verifyLines upToIndex (tree.insert leaf).1 rest

def verifyRootChain (jsonl : List Char) (upToIndex : Nat) : Bool :=
  verifyLines P upToIndex .empty (parsedLines P jsonl)

def verifiedSummary (chainOk : Bool) (index eventsAfter totalEvents : Nat) : String :=
  if chainOk then
    if eventsAfter = 0 then
      s!"✅ Verified: on-chain root matches local log at event {index}. All {totalEvents} events verified. Log is fully committed."
    else
      s!"✅ Verified: on-chain root matches local log at event {index}. {index + 1} events verified, {eventsAfter} new event(s) since commitment."
  else
    s!"❌ Tamper detected: root chain broken before event {index} (on-chain root match point). Events may have been modified or reordered."

def notFoundSummary (rootHex : String) (totalEvents : Nat) : String :=
  if totalEvents = 0 then "⚠️ Local log is empty. No events to verify against on-chain root."
  else
    let start := String.ofList (rootHex.toList.take 16)
    s!"❌ On-chain root {start} not found in local log ({totalEvents} events). The log may have been truncated, or the on-chain root belongs to a different audit log."

def uncommittedSummary (totalEvents : Nat) : String :=
  if totalEvents = 0 then "Local log is empty and no on-chain root has been committed."
  else s!"No on-chain root has been committed yet. Local log has {totalEvents} event(s) awaiting commitment."

/-- `verify_with_onchain_root` (reader.rs:87). -/
def verifyWithOnchainRoot (onchainRoot : Option OnChainRoot) (jsonl : List Char) (localRootHex : String) :
    VerificationReport :=
  let totalEvents := countEvents P jsonl
  match onchainRoot with
  | some root =>
    match findRootInLog P jsonl root.rootHex with
    | some index =>
      let chainOk := verifyRootChain P jsonl index
      let eventsAfter := totalEvents - (index + 1)
      { onchainRootFound := true, onchainRoot := some root, localRootHex := localRootHex
        commitmentEventIndex := some index, totalEvents := totalEvents, verifiedEvents := index + 1
        eventsAfterCommitment := eventsAfter, chainIntact := chainOk, tamperDetected := !chainOk
        summary := verifiedSummary chainOk index eventsAfter totalEvents }
    | none =>
      { onchainRootFound := false, onchainRoot := some root, localRootHex := localRootHex
        commitmentEventIndex := none, totalEvents := totalEvents, verifiedEvents := 0
        eventsAfterCommitment := totalEvents, chainIntact := false, tamperDetected := decide (totalEvents > 0)
        summary := notFoundSummary root.rootHex totalEvents }
  | none =>
    { onchainRootFound := false, onchainRoot := none, localRootHex := localRootHex
      commitmentEventIndex := none, totalEvents := totalEvents, verifiedEvents := 0
      eventsAfterCommitment := totalEvents, chainIntact := true, tamperDetected := false
      summary := uncommittedSummary totalEvents }

/-! ## What a verified log is -/

/-- The events have their positions as indices, and inserting their leaves one after the other gives the
roots they store, when the tree starts with `leaves`. -/
def Rebuilds : List Fr → List Json → Prop
  | _, [] => True
  | leaves, ev :: evs => ev.getU64 "index" = some leaves.length ∧
      rootAfter ev = some (rootHex P (leaves ++ [payloadLeaf P ev])) ∧ Rebuilds (leaves ++ [payloadLeaf P ev]) evs

/-- The lines of the log that carry an index. -/
def eventLines (ls : List (Option Json)) : List Json := ls.reduceOption.filter fun ev => (ev.getU64 "index").isSome

/-- The log contains, in order, events with the indices up to `i` that rebuild the roots up to `r`. -/
def Contains (jsonl : List Char) (i : Nat) (r : String) : Prop :=
  ∃ evs : List Json, evs.Sublist (parsedLines P jsonl).reduceOption ∧ evs.length = i + 1 ∧ Rebuilds P [] evs ∧
    (evs.getLast?).bind rootAfter = some r

/-- The events up to and including the first one with the root. -/
def upToRoot (r : String) : List Json → List Json
  | [] => []
  | ev :: evs => if rootAfter ev = some r then [ev] else ev :: upToRoot r evs

/-- The events up to the commitment point are the events `0 .. i`, and they rebuild the roots up to `r`. -/
def VerifiedTo (jsonl : List Char) (i : Nat) (r : String) : Prop :=
  (upToRoot r (eventLines (parsedLines P jsonl))).length = i + 1 ∧
    Rebuilds P [] (upToRoot r (eventLines (parsedLines P jsonl)))

/-- No line with a larger index stands before the commitment point. -/
def ReachesRoot (jsonl : List Char) (i : Nat) (r : String) : Prop :=
  ∀ ev ∈ upToRoot r (eventLines (parsedLines P jsonl)), ∀ index ∈ ev.getU64 "index", index ≤ i

end

section
variable {P : Prims}

theorem frToHex_ne_empty (f : Fr) : frToHex f ≠ "" := by
  intro h
  have hchars := congrArg String.toList h
  simp [frToHex, toBytesBe, Bytes.toBe, Bytes.hexEncode] at hchars

theorem readerLeaf_some (h : readerLeaf P ev = some leaf) : leaf = payloadLeaf P ev := by
  unfold readerLeaf at h
  split at h
  · exact (Option.some.inj h).symm
  · exact (Option.some.inj h).symm
  · cases h

/-! ## The scans -/

@[simp] theorem eventLines_nil : eventLines [] = [] := rfl

@[simp] theorem eventLines_none (ls : List (Option Json)) : eventLines (none :: ls) = eventLines ls := by
  simp [eventLines]

theorem eventLines_some (ev : Json) (ls : List (Option Json)) : eventLines (some ev :: ls) =
    if (ev.getU64 "index").isSome then ev :: eventLines ls else eventLines ls := by
  by_cases h : (ev.getU64 "index").isSome <;> simp [eventLines, h]

theorem findRoot_some : ∀ {ls : List (Option Json)}, findRoot r ls = some i →
    ∃ front ev, upToRoot r (eventLines ls) = front ++ [ev] ∧ rootAfter ev = some r ∧ ev.getU64 "index" = some i
  | none :: ls, h => by
    rw [eventLines_none]
    exact findRoot_some h
  | some ev :: ls, h => by
    rw [findRoot] at h
    by_cases hr : rootAfter ev = some r
    · rw [if_pos hr] at h
      refine ⟨[], ev, ?_, hr, h⟩
      rw [eventLines_some, h, Option.isSome_some, if_pos rfl, upToRoot, if_pos hr, List.nil_append]
    · rw [if_neg hr] at h
      obtain ⟨front, last, hup, hlast⟩ := findRoot_some h
      rw [eventLines_some]
      by_cases hidx : (ev.getU64 "index").isSome
      · refine ⟨ev :: front, last, ?_, hlast⟩
        rw [if_pos hidx, upToRoot, if_neg hr, hup, List.cons_append]
      · exact ⟨front, last, by rw [if_neg hidx, hup], hlast⟩

theorem verifyLines_event (hidx : ev.getU64 "index" = some index) (hle : index ≤ upTo) :
    verifyLines P upTo ⟨leaves⟩ (some ev :: ls) = true ↔
      ∃ leaf, readerLeaf P ev = some leaf ∧ frToHex leaf = (eventStr ev "leaf_hex" "leafHex").getD "" ∧
        leaves.length = index ∧ rootAfter ev = some (rootHex P (leaves ++ [leaf])) ∧
        verifyLines P upTo ⟨leaves ++ [leaf]⟩ ls = true := by
  simp only [verifyLines, hidx, if_neg (Nat.not_lt.2 hle)]
  cases readerLeaf P ev with
  | none => simp
  | some leaf =>
    have hroot : rootHex P (leaves ++ [leaf]) = (rootAfter ev).getD "" ↔
        rootAfter ev = some (rootHex P (leaves ++ [leaf])) := by
      cases rootAfter ev with
      | none => simpa [rootHex] using frToHex_ne_empty _
      | some s => simpa using eq_comm
    have hhex : ∀ ls : List Fr, frToHex (AuditMerkleTree.root P (⟨ls⟩ : AuditMerkleTree 20)) = rootHex P ls := fun _ => rfl
    simp only [AuditMerkleTree.insert, Option.some.injEq, exists_eq_left', hhex, ← hroot]
    by_cases h1 : frToHex leaf = (eventStr ev "leaf_hex" "leafHex").getD ""
    · by_cases h2 : leaves.length = index
      · by_cases h3 : rootHex P (leaves ++ [leaf]) = (rootAfter ev).getD "" <;> simp [h1, h2, h3]
      · simp [h1, h2]
    · simp [h1]

/-- **The chain check** on the lines up to the root, when it does not stop before. -/
theorem rebuilds_of_verifyLines : ∀ {ls : List (Option Json)} {leaves : List Fr},
    verifyLines P upTo ⟨leaves⟩ ls = true →
    (∀ ev ∈ upToRoot r (eventLines ls), ∀ index ∈ ev.getU64 "index", index ≤ upTo) →
    Rebuilds P leaves (upToRoot r (eventLines ls))
  | [], _, _, _ => trivial
  | none :: _, _, h, _ => by simp [verifyLines] at h
  | some ev :: ls, leaves, h, hle => by
    rw [eventLines_some] at hle ⊢
    cases hidx : ev.getU64 "index" with
    | none =>
      simp only [verifyLines, hidx, Option.isSome_none, Bool.false_eq_true, if_false] at h hle ⊢
      split at h
      · exact rebuilds_of_verifyLines h hle
      · cases h
    | some index =>
      simp only [hidx, Option.isSome_some, if_true, upToRoot] at hle ⊢
      have hup : index ≤ upTo := by
        have hev : ∀ index ∈ ev.getU64 "index", index ≤ upTo := by
          by_cases hr : rootAfter ev = some r
          · exact hle ev (by simp [hr])
          · exact hle ev (by simp [hr])
        exact hev index hidx
      obtain ⟨leaf, hleaf, _, hlen, hroot, hrest⟩ := (verifyLines_event hidx hup).1 h
      obtain rfl := readerLeaf_some hleaf
      have hindex : ev.getU64 "index" = some leaves.length := by rw [hidx, hlen]
      by_cases hr : rootAfter ev = some r
      · rw [if_pos hr]
        exact ⟨hindex, hroot, trivial⟩
      · rw [if_neg hr] at hle ⊢
        exact ⟨hindex, hroot, rebuilds_of_verifyLines hrest fun e he => hle e (List.mem_cons_of_mem _ he)⟩

/-! ## Rebuilt events -/

theorem Rebuilds.index_eq : ∀ {evs : List Json} {leaves : List Fr}, Rebuilds P leaves evs → ∀ k ev, evs[k]? = some ev →
    ev.getU64 "index" = some (leaves.length + k)
  | [], _, _, _, _, h => by simp at h
  | ev :: evs, leaves, hb, 0, e, h => by
    obtain rfl := Option.some.inj h
    exact hb.1
  | ev :: evs, leaves, hb, k + 1, e, h => by
    have hrest := hb.2.2.index_eq k e (by simpa using h)
    rw [hrest, List.length_append, List.length_singleton]
    congr 1
    omega

theorem upToRoot_initial (r : String) : ∀ evs : List Json, upToRoot r evs <+: evs
  | [] => List.prefix_rfl
  | ev :: evs => by
    rw [upToRoot]
    split
    · exact ⟨evs, rfl⟩
    · exact List.cons_prefix_cons.2 ⟨rfl, upToRoot_initial r evs⟩

theorem eventLines_sublist (ls : List (Option Json)) : (eventLines ls).Sublist ls.reduceOption := List.filter_sublist

theorem VerifiedTo.reachesRoot (h : VerifiedTo P jsonl i r) :
    ReachesRoot P jsonl i r := by
  intro ev hev index hidx
  obtain ⟨k, hk⟩ := List.mem_iff_getElem?.1 hev
  have hlt : k < i + 1 := h.1 ▸ (List.getElem?_eq_some_iff.1 hk).1
  have hpos := h.2.index_eq k ev hk
  rw [hidx, List.length_nil, Nat.zero_add, Option.some.injEq] at hpos
  omega

theorem VerifiedTo.contains (hfound : findRootInLog P jsonl r = some i)
    (h : VerifiedTo P jsonl i r) : Contains P jsonl i r := by
  obtain ⟨front, ev, hup, hroot, _⟩ := findRoot_some hfound
  refine ⟨_, (upToRoot_initial r _).sublist.trans (eventLines_sublist _), h.1, h.2, ?_⟩
  rw [hup, List.getLast?_concat]
  exact hroot

theorem verifiedTo_of_reachesRoot (hfound : findRootInLog P jsonl r = some i)
    (hok : verifyRootChain P jsonl i = true) (h : ReachesRoot P jsonl i r) : VerifiedTo P jsonl i r := by
  have hrebuilds : Rebuilds P [] (upToRoot r (eventLines (parsedLines P jsonl))) := rebuilds_of_verifyLines hok h
  refine ⟨?_, hrebuilds⟩
  obtain ⟨front, ev, hup, _, hidx⟩ := findRoot_some hfound
  have hpos := hrebuilds.index_eq front.length ev (by simp [hup])
  rw [hidx, List.length_nil, Nat.zero_add, Option.some.injEq] at hpos
  rw [hup, hpos, List.length_append, List.length_singleton]

theorem report_some (h : (verifyWithOnchainRoot P (some root) jsonl localRootHex).commitmentEventIndex = some i) :
    findRootInLog P jsonl root.rootHex = some i ∧
      (verifyWithOnchainRoot P (some root) jsonl localRootHex).chainIntact = verifyRootChain P jsonl i := by
  unfold verifyWithOnchainRoot at h ⊢
  cases hfind : findRootInLog P jsonl root.rootHex with
  | none => simp [hfind] at h
  | some j =>
    simp only [hfind, Option.some.injEq] at h ⊢
    subst h
    exact ⟨rfl, rfl⟩

/-- **When a clean report is right.** For a report without tampering, the events up to the commitment
point are the events `0 .. i` and rebuild the stored roots up to the committed one exactly when no line
with an index above `i` stands before the commitment point; then the log contains them in order. -/
theorem verification_sound_iff (P : Prims) (root : OnChainRoot) (jsonl : List Char) (localRootHex : String) (i : Nat)
    (hintact : (verifyWithOnchainRoot P (some root) jsonl localRootHex).chainIntact = true)
    (_htamper : (verifyWithOnchainRoot P (some root) jsonl localRootHex).tamperDetected = false)
    (hindex : (verifyWithOnchainRoot P (some root) jsonl localRootHex).commitmentEventIndex = some i) :
    (VerifiedTo P jsonl i root.rootHex ↔ ReachesRoot P jsonl i root.rootHex) ∧
      (ReachesRoot P jsonl i root.rootHex → Contains P jsonl i root.rootHex) := by
  obtain ⟨hfound, hchain⟩ := report_some hindex
  have hok : verifyRootChain P jsonl i = true := hchain ▸ hintact
  refine ⟨⟨VerifiedTo.reachesRoot, verifiedTo_of_reachesRoot hfound hok⟩, fun h => ?_⟩
  exact (verifiedTo_of_reachesRoot hfound hok h).contains hfound

end

/-! ## A forged log -/

section
open JsonText

theorem parsedLines_print {fss : List (List Field)} (h : ∀ fs ∈ fss, fs ≠ []) :
    parsedLines demoPrims (unlines (fss.map print)) = fss.map fun fs => some (fieldsValue fs) := by
  have hplain : ∀ l ∈ fss.map print, Plain l ∧ trim l = l ∧ l ≠ [] := by
    intro l hl
    obtain ⟨fs, _, rfl⟩ := List.mem_map.1 hl
    obtain ⟨body, hbody⟩ := print_ends fs
    refine ⟨⟨newline_notMem_print fs, ?_⟩, ?_⟩
    · rw [hbody]
      simp [List.getLast?_cons]
    · rw [hbody]
      exact ⟨trim_of_ends brace_visible.1 brace_visible.2, by simp⟩
  have hlines : lines (unlines (fss.map print)) = fss.map print := by
    simpa using @lines_unlines [] (by simp) (fss.map print) fun l hl => (hplain l hl).1
  have htrim : (fss.map print).map trim = fss.map print := by
    rw [← List.map_id (fss.map print), List.map_map]
    exact List.map_congr_left fun l hl => (hplain l hl).2.1
  rw [parsedLines, hlines, htrim, List.filter_eq_self.2 fun l hl => by simpa using (hplain l hl).2.2, List.map_map]
  refine List.map_congr_left fun fs hfs => ?_
  simp [demoPrims, textPrims, parse_print (h fs hfs)]

/-- The root after the insert of a payload into a new log. -/
def rootOf (payload : String) : String := rootHex demoPrims [leafFromPayload demoPrims "insert" "shop" "orders" payload]

def demoRoot : OnChainRoot := ⟨1, rootOf "insert|shop|orders|1", 0, "events=1"⟩

/-- The line of an insert with the root of another one, behind a line with a larger index. -/
def editedLines : List (List Field) :=
  [[("index".toList, .nat 1)],
   [("index".toList, .nat 0), ("payload".toList, .str "insert|shop|orders|2".toList),
    ("root_after".toList, .str (rootOf "insert|shop|orders|1").toList)]]

def editedLog : List Char := unlines (editedLines.map print)

theorem parsed_editedLog : parsedLines demoPrims editedLog =
    [some (.obj [("index", .num (some 1))]),
     some (.obj [("index", .num (some 0)), ("payload", .str "insert|shop|orders|2"),
      ("root_after", .str (rootOf "insert|shop|orders|1"))])] := by
  rw [editedLog, parsedLines_print (by simp [editedLines])]
  simp [editedLines, fieldsValue, scalarValue]

/-- The payload of the only event is edited, and the report is clean. -/
theorem edited_log_accepted :
    (verifyWithOnchainRoot demoPrims (some demoRoot) editedLog "").chainIntact = true ∧
    (verifyWithOnchainRoot demoPrims (some demoRoot) editedLog "").tamperDetected = false ∧
    (verifyWithOnchainRoot demoPrims (some demoRoot) editedLog "").commitmentEventIndex = some 0 ∧
    ¬ Contains demoPrims editedLog 0 demoRoot.rootHex := by
  have hfind : findRootInLog demoPrims editedLog demoRoot.rootHex = some 0 := by
    rw [findRootInLog, parsed_editedLog]
    simp [findRoot, rootAfter, eventStr, Json.get, Json.asStr, Json.getU64, Json.asU64, demoRoot]
  have hchain : verifyRootChain demoPrims editedLog 0 = true := by
    rw [verifyRootChain, parsed_editedLog]
    simp [verifyLines, Json.get, Json.getU64, Json.asU64]
  refine ⟨?_, ?_, ?_, ?_⟩
  · simp [verifyWithOnchainRoot, hfind, hchain]
  · simp [verifyWithOnchainRoot, hfind, hchain]
  · simp [verifyWithOnchainRoot, hfind]
  · rintro ⟨evs, hsub, hlen, hrebuilds, _⟩
    rw [parsed_editedLog] at hsub
    obtain ⟨ev, rfl⟩ := List.length_eq_one_iff.1 hlen
    have hev := hsub.subset (List.mem_singleton_self ev)
    obtain ⟨hidx, hroot, _⟩ := hrebuilds
    simp only [List.reduceOption_cons_of_some, List.reduceOption_nil, List.mem_cons, List.not_mem_nil, or_false] at hev
    rcases hev with rfl | rfl
    · simp [Json.get, Json.getU64, Json.asU64] at hidx
    · have hne : rootOf "insert|shop|orders|1" ≠ rootOf "insert|shop|orders|2" := by decide +kernel
      simp [rootAfter, eventStr, Json.get, Json.asStr, payloadLeaf, Json.getStr] at hroot
      exact hne hroot

/-- The log of one insert. -/
def insertedLog : List Char := unlines <| List.map print
  [eventFields ((demoEntry "insert|shop|orders|1").persisted 0 0 (rootOf "insert|shop|orders|1"))]

/-- A clean report on an honest log, and what it says. -/
theorem inserted_log_verified : Contains demoPrims insertedLog 0 demoRoot.rootHex := by
  have hparsed : parsedLines demoPrims insertedLog =
      [some (fieldsValue (eventFields ((demoEntry "insert|shop|orders|1").persisted 0 0 (rootOf "insert|shop|orders|1"))))] := by
    rw [insertedLog, parsedLines_print (by simp [eventFields])]
    rfl
  have hfind : findRootInLog demoPrims insertedLog demoRoot.rootHex = some 0 := by
    rw [findRootInLog, hparsed]
    simp [findRoot, rootAfter, eventStr, fieldsValue, eventFields, scalarValue, Json.get, Json.asStr, Json.getU64,
      Json.asU64, demoRoot, Entry.persisted]
  have hchain : verifyRootChain demoPrims insertedLog 0 = true := by
    rw [verifyRootChain, hparsed, AuditMerkleTree.empty]
    have hidx : (fieldsValue (eventFields ((demoEntry "insert|shop|orders|1").persisted 0 0
        (rootOf "insert|shop|orders|1")))).getU64 "index" = some 0 := by
      simp [fieldsValue, eventFields, scalarValue, Json.get, Json.getU64, Json.asU64, Entry.persisted]
    refine (verifyLines_event hidx (Nat.le_refl 0)).2
      ⟨leafFromPayload demoPrims "insert" "shop" "orders" "insert|shop|orders|1", ?_, ?_, rfl, ?_, rfl⟩
    · simp [readerLeaf, payloadLeaf, fieldsValue, eventFields, scalarValue, Json.get, Json.getU64, Json.asU64, Json.getStr,
        Json.asStr, Entry.persisted, demoEntry, recordEntry]
    · simp [eventStr, fieldsValue, eventFields, scalarValue, Json.get, Json.asStr, Entry.persisted, demoEntry, recordEntry]
    · simp [rootAfter, eventStr, fieldsValue, eventFields, scalarValue, Json.get, Json.asStr, Entry.persisted, rootOf]
  refine (verification_sound_iff demoPrims demoRoot insertedLog "" 0 ?_ ?_ ?_).2 ?_
  · simp [verifyWithOnchainRoot, hfind, hchain]
  · simp [verifyWithOnchainRoot, hfind, hchain]
  · simp [verifyWithOnchainRoot, hfind]
  · intro ev hev index hidx
    rw [hparsed, eventLines_some] at hev
    have hmem := (upToRoot_initial _ _).subset hev
    simp [fieldsValue, eventFields, scalarValue, Json.get, Json.getU64, Json.asU64, Entry.persisted] at hmem
    subst hmem
    simp [Json.get, Json.getU64, Json.asU64] at hidx
    omega

end

end ReaderMode
end Audit
