import NosqlBuddy.Audit.HonestFile
import NosqlBuddy.Audit.Verification

/-!
# Reader mode on honest files

`verify_root_chain` recomputes leaves of versions 0 and 1 only (reader.rs:315-323), which are the ones a log
without a leaf key writes, while `replay_file` knows every version; `count_events` (reader.rs:209) counts
metadata lines as events, while `verify_root_chain` skips them. `no_false_alarm_iff`: on the file of a run,
verification against the root after event `i` says what it should exactly when the log has no leaf key,
the file has no metadata line, and no earlier event has the same root.
-/

namespace Audit
namespace ReaderMode
open Text

/-- What the report should say for the root after event `i` of `n`. -/
def NoAlarm (report : VerificationReport) (i n : Nat) : Prop :=
  report.onchainRootFound = true ∧ report.chainIntact = true ∧ report.tamperDetected = false ∧
    report.verifiedEvents = i + 1 ∧ report.totalEvents = n

/-- No line of the file is a metadata line. -/
def NoMetadata (P : Prims) (jsonl : List Char) : Prop := ∀ v ∈ (parsedLines P jsonl).reduceOption, v.get "meta" = none

section
variable {P : Prims} {key : Option Bytes32}

/-! ## Lines as the reader sees them -/

/-- The line was read as an object with its fields. -/
def ReadAs (l : Line) (x : Option Json) : Prop := ∃ v, x = some v ∧ ∀ key, v.get key = l.value.get key

theorem readAs_parsedLines (hl : P.LawfulLines) (hw : ∀ l ∈ ls, l.Written) :
    List.Forall₂ ReadAs ls (parsedLines P (fileText P ls)) := by
  have htrim : (ls.map (Line.text P)).map trim = ls.map (Line.text P) := by
    rw [List.map_map]
    exact List.map_congr_left fun l hl' => (hl.plain (hw l hl')).2.1
  have hne : ∀ t ∈ ls.map (Line.text P), t ≠ [] := by
    intro t ht
    obtain ⟨l, hl', rfl⟩ := List.mem_map.1 ht
    exact (hl.plain (hw l hl')).2.2
  rw [parsedLines, hl.lines_text hw, htrim, List.filter_eq_self.2 fun t ht => by simpa using hne t ht, List.map_map,
    List.forall₂_map_right_iff, List.forall₂_same]
  intro l hl'
  exact hl.value l (hw l hl')

section
variable {v : Json}

theorem getStr_of_get {l : Line} (h : ∀ key, v.get key = l.value.get key) (k : String) :
    v.getStr k = l.value.getStr k := by
  rw [Json.getStr, h, Json.getStr]

theorem getU64_of_get {l : Line} (h : ∀ key, v.get key = l.value.get key) (k : String) :
    v.getU64 k = l.value.getU64 k := by
  rw [Json.getU64, h, Json.getU64]

theorem eventStr_of_get {l : Line} (h : ∀ key, v.get key = l.value.get key) (snake camel : String) :
    eventStr v snake camel = eventStr l.value snake camel := by
  rw [eventStr, h, h, eventStr]

theorem event_fields (h : ∀ key, v.get key = (Line.event ev).value.get key) :
    v.getU64 "index" = some ev.index ∧ rootAfter v = some ev.rootAfter ∧
      (eventStr v "leaf_hex" "leafHex").getD "" = ev.leafHex ∧ v.getU64 "version" = some ev.version := by
  rw [rootAfter, getU64_of_get h, getU64_of_get h, eventStr_of_get h, eventStr_of_get h]
  simp [Line.value, eventValue, Json.get, Json.getU64, Json.asU64, Json.asStr, eventStr]

theorem payloadLeaf_event (h : ∀ key, v.get key = (Line.event ev).value.get key) :
    payloadLeaf P v = leafFromPayload P ev.operation ev.database ev.collection ev.payload := by
  rw [payloadLeaf, getStr_of_get h, getStr_of_get h, getStr_of_get h, getStr_of_get h]
  simp [Line.value, eventValue, Json.get, Json.getStr, Json.asStr]

theorem metadata_fields (hm : IsMetadata m) (h : ∀ key, v.get key = (Line.metadata m).value.get key) :
    v.getU64 "index" = none ∧ rootAfter v = none ∧ (v.get "meta").isSome := by
  rw [rootAfter, getU64_of_get h, eventStr_of_get h, h]
  refine ⟨?_, ?_, hm.get_meta⟩
  · cases hm <;> simp [Line.value, legalHoldMeta, prunedDomainMeta, Json.get, Json.getU64]
  · cases hm <;> simp [Line.value, legalHoldMeta, prunedDomainMeta, Json.get, eventStr]

end

/-! ## The scans on the lines of a run -/

theorem count_readAs (h : List.Forall₂ ReadAs ls xs) :
    xs.countP Option.isSome = ls.length := by
  induction h with
  | nil => rfl
  | cons hx _ ih =>
    obtain ⟨v, rfl, _⟩ := hx
    simp [ih]

theorem findRoot_readAs (h : List.Forall₂ ReadAs ls xs)
    (hw : ∀ l ∈ ls, l.Written) : findRoot r xs = ((eventsOf ls).find? fun ev => ev.rootAfter = r).map (·.index) := by
  induction h with
  | nil => rfl
  | @cons l x ls xs hx _ ih =>
    obtain ⟨v, rfl, hv⟩ := hx
    have ih' := ih fun m hm => hw m (List.mem_cons_of_mem l hm)
    rw [findRoot]
    cases l with
    | event ev =>
      obtain ⟨hidx, hroot, _⟩ := event_fields hv
      rw [hidx, hroot, eventsOf_event, List.find?_cons]
      by_cases hr : ev.rootAfter = r <;> simp [hr, ih']
    | metadata m =>
      obtain ⟨_, hroot, _⟩ := metadata_fields (hw (.metadata m) List.mem_cons_self) hv
      rw [hroot, eventsOf_metadata, if_neg (by simp), ih']

/-- **Version 1** passes the chain check up to every index. -/
theorem verifyLines_readAs (h : List.Forall₂ ReadAs ls xs) :
    ∀ {leaves : List Fr}, (∀ l ∈ ls, l.Written) → (∀ ev ∈ eventsOf ls, ev.version = 1) →
      Chained P key leaves (eventsOf ls) → verifyLines P upTo ⟨leaves⟩ xs = true := by
  induction h with
  | nil =>
    intros
    rfl
  | @cons l x ls xs hx _ ih =>
    intro leaves hw hver hchained
    obtain ⟨v, rfl, hv⟩ := hx
    have hw' : ∀ m ∈ ls, m.Written := fun m hm => hw m (List.mem_cons_of_mem l hm)
    cases l with
    | metadata m =>
      obtain ⟨hidx, _, hmeta⟩ := metadata_fields (hw (.metadata m) List.mem_cons_self) hv
      simp only [verifyLines, hidx, hmeta, if_true]
      exact ih hw' hver hchained
    | event ev =>
      obtain ⟨hidx, hroot, hleaf, hversion⟩ := event_fields hv
      rw [eventsOf_event] at hver hchained
      obtain ⟨leaf, hchecked, hindex, hrootAfter, hrest⟩ := hchained
      have hv1 : ev.version = 1 := hver ev List.mem_cons_self
      obtain ⟨hrecomputed, hhex⟩ := checkedLeaf_eq_some.1 hchecked
      have hleaf1 : leafFromPayload P ev.operation ev.database ev.collection ev.payload = leaf := by
        simpa [recomputeLeaf, hv1] using hrecomputed
      by_cases hle : ev.index ≤ upTo
      · refine (verifyLines_event hidx hle).2 ⟨leaf, ?_, ?_, hindex.symm, ?_, ?_⟩
        · simp [readerLeaf, hversion, hv1, payloadLeaf_event hv, hleaf1]
        · rw [hleaf, hhex]
        · rw [hroot, hrootAfter]
        · exact ih hw' (fun e he => hver e (List.mem_cons_of_mem _ he)) hrest
      · simp only [verifyLines, hidx, if_pos (Nat.lt_of_not_le hle)]

/-- **Versions 2 and 3** do not pass it. -/
theorem verifyLines_refused (h : List.Forall₂ ReadAs ls xs)
    (hw : ∀ l ∈ ls, l.Written) (hver : ∀ ev ∈ eventsOf ls, ev.version = 2 ∨ ev.version = 3)
    (hchained : Chained P key leaves (eventsOf ls)) (hne : eventsOf ls ≠ []) (hle : leaves.length ≤ upTo) :
    verifyLines P upTo ⟨leaves⟩ xs = false := by
  induction h with
  | nil => exact absurd rfl hne
  | @cons l x ls xs hx _ ih =>
    obtain ⟨v, rfl, hv⟩ := hx
    cases l with
    | metadata m =>
      obtain ⟨hidx, _, hmeta⟩ := metadata_fields (hw (.metadata m) List.mem_cons_self) hv
      simp only [verifyLines, hidx, hmeta, if_true]
      exact ih (fun m hm => hw m (List.mem_cons_of_mem _ hm)) hver hchained hne
    | event ev =>
      obtain ⟨hidx, _, _, hversion⟩ := event_fields hv
      obtain ⟨leaf, _, hindex, _⟩ := hchained
      have hup : ev.index ≤ upTo := hindex ▸ hle
      have hrefused : readerLeaf P v = none := by
        rcases hver ev List.mem_cons_self with h2 | h3
        · simp [readerLeaf, hversion, h2]
        · simp [readerLeaf, hversion, h3]
      simp only [verifyLines, hidx, if_neg (Nat.not_lt.2 hup), hrefused]

theorem noMetadata_iff (h : List.Forall₂ ReadAs ls xs)
    (hw : ∀ l ∈ ls, l.Written) : (∀ v ∈ xs.reduceOption, v.get "meta" = none) ↔ ls.length = (eventsOf ls).length := by
  induction h with
  | nil => simp
  | @cons l x ls xs hx _ ih =>
    obtain ⟨v, rfl, hv⟩ := hx
    have ih' := ih fun m hm => hw m (List.mem_cons_of_mem l hm)
    rw [List.reduceOption_cons_of_some, List.forall_mem_cons, ih']
    cases l with
    | event ev =>
      have hmeta : v.get "meta" = none := by rw [hv]; simp [Line.value, eventValue, Json.get]
      simp [hmeta]
    | metadata m =>
      obtain ⟨_, _, hmeta⟩ := metadata_fields (hw (.metadata m) List.mem_cons_self) hv
      have hsome : v.get "meta" ≠ none := Option.isSome_iff_ne_none.1 hmeta
      have hle : (eventsOf ls).length ≤ ls.length := List.length_filterMap_le _ _
      simp only [hsome, false_and, eventsOf_metadata, List.length_cons, false_iff]
      omega

theorem find_root (hchained : Chained P key [] evs) (hi : i < evs.length) :
    ∃ j ev, evs.find? (fun ev => ev.rootAfter = rootHex P ((leavesOf P key evs).take (i + 1))) = some ev ∧ ev.index = j ∧
      (j = i ↔ ∀ k < i, rootHex P ((leavesOf P key evs).take (k + 1)) ≠ rootHex P ((leavesOf P key evs).take (i + 1))) := by
  have hat := ((chained_iff evs []).1 hchained).2
  simp only [List.length_nil, Nat.zero_add, List.nil_append] at hat
  have hsome : (evs.find? fun ev => ev.rootAfter = rootHex P ((leavesOf P key evs).take (i + 1))).isSome := by
    rw [List.find?_isSome]
    exact ⟨evs[i], List.getElem_mem hi, by simpa using (hat i evs[i] (List.getElem?_eq_getElem hi)).2⟩
  obtain ⟨ev, hev⟩ := Option.isSome_iff_exists.1 hsome
  obtain ⟨hroot, j, hj, rfl, hfirst⟩ := List.find?_eq_some_iff_getElem.1 hev
  have hat' : ∀ k (hk : k < evs.length), evs[k].index = k ∧ evs[k].rootAfter = rootHex P ((leavesOf P key evs).take (k + 1)) :=
    fun k hk => hat k evs[k] (List.getElem?_eq_getElem hk)
  refine ⟨j, evs[j], hev, (hat' j hj).1, ?_⟩
  simp only [decide_eq_true_eq, (hat' j hj).2] at hroot
  constructor
  · rintro rfl k hk
    have hk' := hfirst k hk
    rw [(hat' k (by omega)).2] at hk'
    simpa using hk'
  · intro h
    rcases Nat.lt_trichotomy j i with hlt | heq | hgt
    · exact absurd hroot (h j hlt)
    · exact heq
    · have hi' := hfirst i hgt
      rw [(hat' i hi).2] at hi'
      simp at hi'

theorem noAlarm_iff (hl : P.LawfulLines) (h : Filed P key dir w ls)
    (localRootHex : String) (hi : i < w.log.leafCount)
    (hr : root.rootHex = rootHex P (w.log.tree.leaves.take (i + 1))) :
    NoAlarm (verifyWithOnchainRoot P (some root) (fileText P ls) localRootHex) i w.log.leafCount ↔
      key = none ∧ NoMetadata P (fileText P ls) ∧
        ∀ k < i, rootHex P (w.log.tree.leaves.take (k + 1)) ≠ rootHex P (w.log.tree.leaves.take (i + 1)) := by
  have hlen := h.leafCount_eq
  have hleaves : w.log.tree.leaves = leavesOf P key (eventsOf ls) := by rw [h.tree]
  have hread := readAs_parsedLines hl h.written
  have hi' : i < (eventsOf ls).length := hlen ▸ hi
  obtain ⟨j, ev, hfind, hidx, hfirst⟩ := find_root h.chained hi'
  have hfound : findRootInLog P (fileText P ls) root.rootHex = some j := by
    rw [findRootInLog, findRoot_readAs hread h.written, hr, hleaves, hfind, Option.map_some, hidx]
  have htotal : countEvents P (fileText P ls) = ls.length := count_readAs hread
  have hne : eventsOf ls ≠ [] := List.ne_nil_of_length_pos (by omega)
  have hchain : verifyRootChain P (fileText P ls) j = true ↔ key = none := by
    rw [verifyRootChain, AuditMerkleTree.empty]
    cases hkey : key with
    | none =>
      subst hkey
      have hver : ∀ ev ∈ eventsOf ls, ev.version = 1 := fun ev hev => by simpa [VersionFits] using h.versions ev hev
      simpa using verifyLines_readAs hread h.written hver h.chained
    | some k =>
      subst hkey
      have hver : ∀ ev ∈ eventsOf ls, ev.version = 2 ∨ ev.version = 3 := fun ev hev => by
        simpa [VersionFits] using h.versions ev hev
      simpa using verifyLines_refused hread h.written hver h.chained hne (Nat.zero_le j)
  have hmeta : NoMetadata P (fileText P ls) ↔ ls.length = (eventsOf ls).length := noMetadata_iff hread h.written
  rw [hleaves, ← hfirst, hmeta, ← hchain, hlen]
  simp only [NoAlarm, verifyWithOnchainRoot, hfound, htotal, true_and, Bool.not_eq_false', Nat.add_right_cancel_iff]
  constructor
  · rintro ⟨hok, _, hj, hn⟩
    exact ⟨hok, hn, hj⟩
  · rintro ⟨hok, hn, hj⟩
    exact ⟨hok, hok, hj, hn⟩

theorem alarm_of_one (hl : P.LawfulLines) (h : Filed P key dir w ls)
    (localRootHex : String) (hcount : (eventsOf ls).length = 1)
    (hr : root.rootHex = rootHex P (w.log.tree.leaves.take 1)) (hbad : key ≠ none ∨ ls.length ≠ 1) :
    ¬ NoAlarm (verifyWithOnchainRoot P (some root) (fileText P ls) localRootHex) 0 w.log.leafCount := by
  intro halarm
  have hleaf := h.leafCount_eq
  obtain ⟨hkey, hmeta, _⟩ := (noAlarm_iff hl h localRootHex (by omega) hr).1 halarm
  have hlen := (noMetadata_iff (readAs_parsedLines hl h.written) h.written).1 hmeta
  rcases hbad with hbad | hbad
  · exact hbad hkey
  · omega

/-- **When reader mode raises no false alarm.** On the file of a run without failing outside calls, the
verification against the root after event `i` finds it, says that the chain is intact and counts the
events exactly when the log has no leaf key, the file has no metadata line, and no earlier event has the
same root. -/
theorem no_false_alarm_iff (P : Prims) (hl : P.LawfulLines) (key : Option Bytes32) (dir : String) (steps : List FileStep)
    (hon : ∀ s ∈ steps, s.Honest P key) :
    ∃ jsonl, readText none ((runFile P key dir steps).disk dir) = .ok jsonl ∧
      ∀ (root : OnChainRoot) (localRootHex : String) (i : Nat),
        i < (runFile P key dir steps).log.leafCount →
        root.rootHex = rootHex P ((runFile P key dir steps).log.tree.leaves.take (i + 1)) →
        (NoAlarm (verifyWithOnchainRoot P (some root) jsonl localRootHex) i
            (runFile P key dir steps).log.leafCount ↔
          key = none ∧ NoMetadata P jsonl ∧
            ∀ k < i, rootHex P ((runFile P key dir steps).log.tree.leaves.take (k + 1)) ≠
              rootHex P ((runFile P key dir steps).log.tree.leaves.take (i + 1))) := by
  obtain ⟨ls, h⟩ := @filed_run P key dir hl steps hon
  refine ⟨fileText P ls, readText_encoded h.file, fun root localRootHex i hi hr => ?_⟩
  exact noAlarm_iff hl h localRootHex hi hr

end

/-! ## Two logs -/

theorem demoPrims_lawfulLines : demoPrims.LawfulLines := textPrims_lawfulLines _ _ _

def oneInsert : List FileStep := [.record (demoInsert "insert|shop|orders|1")]

/-- The line of that insert. -/
def insertLine : Line := .event ((openNew demoPrims none "data").log.push demoPrims (demoEntry "insert|shop|orders|1")).2

theorem filed_oneInsert : Filed demoPrims none "data" (runFile demoPrims none "data" oneInsert) [insertLine] :=
  filed_open.record (demoInsert_entry _) (demoEntry_honest _)

theorem oneInsert_leaves : (runFile demoPrims none "data" oneInsert).log.tree.leaves =
    [leafFromPayload demoPrims "insert" "shop" "orders" "insert|shop|orders|1"] := by
  have hleaf : checkedLeaf demoPrims none
      ((openNew demoPrims none "data").log.push demoPrims (demoEntry "insert|shop|orders|1")).2 =
      some (demoEntry "insert|shop|orders|1").leaf := (demoEntry_honest _).checkedLeaf _ _ _
  rw [filed_oneInsert.tree, insertLine, eventsOf_event, eventsOf_nil, leavesOf_cons_some hleaf]
  rfl

theorem oneInsert_honest : ∀ s ∈ oneInsert, s.Honest demoPrims none := by
  intro s hs
  obtain rfl := List.mem_singleton.1 hs
  intro e he
  obtain rfl := Option.some.inj he
  exact demoEntry_honest _

/-- Without a leaf key and without metadata the report is right. -/
theorem inserted_no_alarm : ∃ jsonl, readText none ((runFile demoPrims none "data" oneInsert).disk "data") = .ok jsonl ∧
    NoAlarm (verifyWithOnchainRoot demoPrims (some demoRoot) jsonl "") 0
      (runFile demoPrims none "data" oneInsert).log.leafCount := by
  obtain ⟨jsonl, hread, h⟩ := no_false_alarm_iff demoPrims demoPrims_lawfulLines none "data" oneInsert oneInsert_honest
  have hfiled := filed_oneInsert
  have htext : jsonl = fileText demoPrims [insertLine] := by
    rw [readText_encoded hfiled.file] at hread
    exact (Except.ok.inj hread).symm
  refine ⟨jsonl, hread, (h demoRoot "" 0 ?_ ?_).2 ⟨rfl, ?_, ?_⟩⟩
  · simp [AuditLog.leafCount, AuditMerkleTree.leafCount, oneInsert_leaves]
  · simp [oneInsert_leaves, demoRoot, rootOf]
  · rw [htext]
    exact (noMetadata_iff (readAs_parsedLines demoPrims_lawfulLines hfiled.written) hfiled.written).2 rfl
  · intro k hk
    omega

def readerKey : Bytes32 := demoDigest 7 []

/-- A delete as the interceptor records it with a leaf key. -/
def oneDelete : List FileStep := [.record (.recordV3 ⟨0, 0⟩ "rs:rs0" "delete" "shop" "orders" [])]

/-- An insert and a legal hold. -/
def insertAndHold : List FileStep := oneInsert ++ [.setLegalHold "rs:rs0" "shop" true]

theorem filed_oneDelete : ∃ ev, Filed demoPrims (some readerKey) "data"
    (runFile demoPrims (some readerKey) "data" oneDelete) [.event ev] :=
  ⟨_, filed_open.record rfl (recordV3Entry_honest demoPrims_lawful _ _ _ _ _ _ _)⟩

theorem filed_insertAndHold : Filed demoPrims none "data" (runFile demoPrims none "data" insertAndHold)
    [insertLine, .metadata (legalHoldMeta "rs:rs0" "shop" true)] :=
  filed_oneInsert.setLegalHold "rs:rs0" "shop" true

/-- A log with a leaf key is reported as tampered with, and a legal hold is counted as an event. -/
theorem honest_logs_alarm :
    (∃ jsonl, readText none ((runFile demoPrims (some readerKey) "data" oneDelete).disk "data") = .ok jsonl ∧
      ∃ root : OnChainRoot, root.rootHex =
          rootHex demoPrims ((runFile demoPrims (some readerKey) "data" oneDelete).log.tree.leaves.take 1) ∧
        0 < (runFile demoPrims (some readerKey) "data" oneDelete).log.leafCount ∧
        ¬ NoAlarm (verifyWithOnchainRoot demoPrims (some root) jsonl "") 0
          (runFile demoPrims (some readerKey) "data" oneDelete).log.leafCount) ∧
    ∃ jsonl, readText none ((runFile demoPrims none "data" insertAndHold).disk "data") = .ok jsonl ∧
      ∃ root : OnChainRoot, root.rootHex =
          rootHex demoPrims ((runFile demoPrims none "data" insertAndHold).log.tree.leaves.take 1) ∧
        0 < (runFile demoPrims none "data" insertAndHold).log.leafCount ∧
        ¬ NoAlarm (verifyWithOnchainRoot demoPrims (some root) jsonl "") 0
          (runFile demoPrims none "data" insertAndHold).log.leafCount := by
  constructor
  · obtain ⟨ev, hfiled⟩ := filed_oneDelete
    refine ⟨_, readText_encoded hfiled.file, ⟨1, _, 0, ""⟩, rfl, ?_, ?_⟩
    · rw [hfiled.leafCount_eq]
      exact Nat.zero_lt_one
    · exact alarm_of_one demoPrims_lawfulLines hfiled "" rfl rfl (.inl (by simp))
  · have hfiled := filed_insertAndHold
    refine ⟨_, readText_encoded hfiled.file, ⟨1, _, 0, ""⟩, rfl, ?_, ?_⟩
    · rw [hfiled.leafCount_eq]
      exact Nat.zero_lt_one
    · exact alarm_of_one demoPrims_lawfulLines hfiled "" rfl rfl (.inr (by simp))

end ReaderMode
end Audit
