import NosqlBuddy.Lib.CounterLog
import NosqlBuddy.Contract.Calls

/-!
# The append-only root log

What the four storage locations of the root log are for: a list of entries, numbered from 1, with
pairwise distinct roots (`RootLog`). `Represents s l` says that the storage `s` holds the log `l`;
`write_simulates` is the refinement: every transaction leaves the log alone or appends one entry.
The properties of the storage (`RootLogOk`, `Kept`) are read off the abstract log.

One transaction breaks the representation: `initialize` sets the counter to 0
(lib.rs:286) without looking at the log, and `commit_root_with_oplog` may have run before it,
because it does not ask for an admin. `initialize_resets_counter` is that run; the guard `InitFirst`
excludes exactly it.
-/

namespace Contract
open Runs CounterLog Fallible

/-! ## The abstract log -/

structure RootLog where
  entries : List RootEntry
  numbered : ∀ (i : Nat) (e : RootEntry), entries[i]? = some e → e.sequence = i + 1
  distinct : ∀ (i j : Nat) (e f : RootEntry),
    entries[i]? = some e → entries[j]? = some f → e.root = f.root → i = j

namespace RootLog

def nil : RootLog := ⟨[], by simp, by simp⟩

/-- Append an entry with the next number and a new root. -/
def push (l : RootLog) (e : RootEntry) (hs : e.sequence = l.entries.length + 1)
    (hf : ∀ (i : Nat) (f : RootEntry), l.entries[i]? = some f → f.root ≠ e.root) : RootLog where
  entries := l.entries ++ [e]
  numbered := by
    intro i f hi
    rcases getElem?_concat.1 hi with hi | ⟨rfl, rfl⟩
    · exact l.numbered i f hi
    · exact hs
  distinct := by
    intro i j f g hi hj hr
    rcases getElem?_concat.1 hi with hi | ⟨rfl, rfl⟩ <;> rcases getElem?_concat.1 hj with hj | ⟨rfl, rfl⟩
    · exact l.distinct i j f g hi hj hr
    · exact absurd hr (hf i f hi)
    · exact absurd hr.symm (hf j g hj)
    · rfl

end RootLog

/-! ## The storage represents a log -/

structure Represents (s : Storage) (l : RootLog) : Prop where
  count : s.seqOr0 = l.entries.length
  current : s.currentRoot = if l.entries.length = 0 then none else some l.entries.length
  stores : Stores s.rootEntry l.entries
  index : ∀ r n, s.index.lookup r = some n ↔ ∃ e, s.rootEntry n = some e ∧ e.root = r
  oplog : ∀ n c, s.oplogCommitment n = some c → n ≤ l.entries.length

theorem represents_empty : Represents Storage.empty RootLog.nil where
  count := rfl
  current := rfl
  stores := stores_nil
  index := by simp [Storage.empty, Storage.index]
  oplog := by simp [Storage.empty]

theorem Represents.congr (hr : Represents s l) (h1 : s'.sequence = s.sequence)
    (h2 : s'.currentRoot = s.currentRoot) (h3 : s'.rootEntry = s.rootEntry)
    (h4 : s'.rootIndex = s.rootIndex) (h5 : s'.oplogCommitment = s.oplogCommitment) : Represents s' l where
  count := by simpa [Storage.seqOr0, h1] using hr.count
  current := h2 ▸ hr.current
  stores := h3 ▸ hr.stores
  index := by simpa [Storage.index, h3, h4] using hr.index
  oplog := by simpa [h5] using hr.oplog

theorem Represents.fresh (hr : Represents s l) (hf : r ∉ s.index)
    (i : Nat) (f : RootEntry) (hi : l.entries[i]? = some f) : f.root ≠ r := by
  rintro rfl
  have := (hr.index f.root (i + 1)).2 ⟨f, (stores_some hr.stores).2 ⟨i, rfl, hi⟩, rfl⟩
  exact hf (Finmap.mem_of_lookup_eq_some this)

theorem Represents.push (hr : Represents s l) (hn : NextEntry s inv e) :
    Represents (s.pushRoot e) (l.push e (hr.count ▸ hn.seq) (hr.fresh hn.fresh)) := by
  have hseq : e.sequence = l.entries.length + 1 := hr.count ▸ hn.seq
  have hst : Stores (s.pushRoot e).rootEntry (l.entries ++ [e]) := by
    show Stores (Function.update s.rootEntry e.sequence (some e)) _
    rw [hseq]
    exact stores_push hr.stores e
  refine ⟨by simp [Storage.pushRoot, Storage.seqOr0, RootLog.push, hseq],
    by simp [Storage.pushRoot, RootLog.push, hseq], hst, fun r n => ?_, fun n c hc => ?_⟩
  · show (s.index.insert e.root e.sequence).lookup r = some n ↔ _
    by_cases hre : r = e.root
    · subst hre
      rw [Finmap.lookup_insert, Option.some.injEq]
      constructor
      · rintro rfl
        exact ⟨e, by simp [Storage.pushRoot], rfl⟩
      · rintro ⟨f, hf, hroot⟩
        obtain ⟨i, rfl, hi⟩ := (stores_some hst).1 hf
        rcases getElem?_concat.1 hi with hi | ⟨rfl, rfl⟩
        · exact absurd hroot (hr.fresh hn.fresh i f hi)
        · exact hseq
    · rw [Finmap.lookup_insert_of_ne _ hre, hr.index]
      constructor
      · rintro ⟨f, hf, rfl⟩
        exact ⟨f, stores_mono hr.stores hst ⟨[e], rfl⟩ hf, rfl⟩
      · rintro ⟨f, hf, rfl⟩
        obtain ⟨i, rfl, hi⟩ := (stores_some hst).1 hf
        rcases getElem?_concat.1 hi with hi | ⟨rfl, rfl⟩
        · exact ⟨f, (stores_some hr.stores).2 ⟨i, rfl, hi⟩, rfl⟩
        · exact absurd rfl hre
  · exact Nat.le_trans (hr.oplog n c hc) (by simp [RootLog.push])

theorem Represents.pushOplog (hr : Represents s l) (hn : NextEntry s inv e) (oplog : OplogCommitment) (ev ev' : Event) :
    Represents ((((s.pushRoot e).setOplog e.sequence oplog).publish ev).publish ev')
      (l.push e (hr.count ▸ hn.seq) (hr.fresh hn.fresh)) := by
  have hp := hr.push hn
  refine ⟨hp.count, hp.current, hp.stores, hp.index, fun n c hc => ?_⟩
  have hcase : n = e.sequence ∨ s.oplogCommitment n = some c := by
    by_cases hne : n = e.sequence
    · exact .inl hne
    · exact .inr (by simpa [Storage.publish, Storage.setOplog, Storage.pushRoot, hne] using hc)
  rcases hcase with rfl | hc
  · simp [RootLog.push, hn.seq, hr.count]
  · exact hp.oplog n c hc

/-- `initialize`, when it succeeds, finds no committed root. -/
def InitFirst (s : Storage) (inv : Invocation) : Prop :=
  ∀ admin vk, inv.call = .initializeContract admin vk → s.admin = none → admin ∈ inv.ctx.auths →
    s.seqOr0 = 0

/-- **Refinement**: a transaction leaves the represented log alone or extends it. -/
theorem write_simulates (hw : Write h inv s s')
    (hg : InitFirst s inv) (hr : Represents s l) : ∃ l', Represents s' l' ∧ l.entries <+: l'.entries := by
  cases hw with
  | init hc hn ha =>
    have h0 : s.seqOr0 = 0 := hg _ _ hc hn ha
    exact ⟨l, ⟨by rw [← hr.count, h0]; rfl, hr.current, hr.stores, hr.index, hr.oplog⟩, List.prefix_rfl⟩
  | commitRoot _ hn => exact ⟨_, (hr.push hn).congr rfl rfl rfl rfl rfl, List.prefix_append _ _⟩
  | commitOplog _ _ _ hn => exact ⟨_, hr.pushOplog hn _ _ _, List.prefix_append _ _⟩
  | setAdmin | setThreshold | authorize | revoke | attest | registerVk | disclose =>
    exact ⟨l, hr.congr rfl rfl rfl rfl rfl, List.prefix_rfl⟩

theorem Represents.commit {h : Host} {ctx : Ctx} {call : Call} {root : Bytes} {metadata : String} {s s' : Storage} {l : RootLog}
    (hr : Represents s l)
    (hcall : call = .commitRoot root metadata ∨ ∃ oplog, call = .commitRootWithOplog root oplog metadata)
    (hok : invoke h ⟨ctx, call⟩ s = .ok s') :
    ∃ e l', e.root = root ∧ e.metadata = metadata ∧ l'.entries = l.entries ++ [e] ∧ Represents s' l' := by
  rcases hcall with rfl | ⟨oplog, rfl⟩
  · obtain ⟨⟨s1, n⟩, hc, rfl⟩ := map_ok.1 hok
    simp only [commitRoot, getAdminOrErr, bind_ok, okOr_ok, requireAuth_ok, pure_ok, Prod.exists, Prod.mk.injEq] at hc
    obtain ⟨a, ha, _, hs, s2, entry, happend, rfl, rfl⟩ := hc
    obtain ⟨hn, hroot, hmeta, rfl⟩ := (@appendRoot_ok ⟨ctx, .commitRoot root metadata⟩ _ _ _ _ _).1 happend
    exact ⟨entry, _, hroot, hmeta, rfl, (hr.push hn).congr rfl rfl rfl rfl rfl⟩
  · obtain ⟨⟨s1, n⟩, hc, rfl⟩ := map_ok.1 hok
    simp only [commitRootWithOplog, guard_ok, bind_ok, pure_ok, Prod.exists, Prod.mk.injEq] at hc
    obtain ⟨hl, ht, s2, entry, happend, rfl, rfl⟩ := hc
    obtain ⟨hn, hroot, hmeta, rfl⟩ := (@appendRoot_ok ⟨ctx, .commitRootWithOplog root oplog metadata⟩ _ _ _ _ _).1 happend
    exact ⟨entry, _, hroot, hmeta, rfl, hr.pushOplog hn _ _ _⟩

/-! ## What the storage promises -/

structure RootLogOk (s : Storage) : Prop where
  current : s.currentRoot = if s.seqOr0 = 0 then none else some s.seqOr0
  entries : ∀ n, (s.rootEntry n).isSome ↔ 1 ≤ n ∧ n ≤ s.seqOr0
  numbered : ∀ n e, s.rootEntry n = some e → e.sequence = n
  /-- `RootIndex` is the inverse map of the log -/
  inverse : ∀ r n, s.index.lookup r = some n ↔ ∃ e, s.rootEntry n = some e ∧ e.root = r
  distinct : ∀ n m e f, s.rootEntry n = some e → s.rootEntry m = some f → e.root = f.root → n = m
  oplog : ∀ n, (s.oplogCommitment n).isSome → n ≤ s.seqOr0
  history : ∀ limit, 1 ≤ limit → limit ≤ 100 → ∃ page, getRootHistory limit s = .ok page ∧
    NewestFirst s.rootEntry s.seqOr0 limit page ∧ page.Pairwise fun a b => b.sequence < a.sequence

/-- What was written in `s` is still there, unchanged, in `s'`. -/
structure Kept (s s' : Storage) : Prop where
  rootEntry : ∀ n e, s.rootEntry n = some e → s'.rootEntry n = some e
  rootIndex : ∀ r n, s.index.lookup r = some n → s'.index.lookup r = some n
  oplogCommitment : ∀ n c, s.oplogCommitment n = some c → s'.oplogCommitment n = some c
  verifyingKey : ∀ vk, s.verifyingKey = some vk → s'.verifyingKey = some vk
  disclosureVk : ∀ vk, s.disclosureVk = some vk → s'.disclosureVk = some vk

theorem page_eq {α : Type} {read : Nat → Option α} {xs : List α} (h : Stores read xs) {limit : Nat}
    (h1 : 1 ≤ limit) (h2 : limit ≤ 100) : page read xs.length limit = .ok (xs.reverse.take limit) := by
  have hl : ¬ (limit = 0 ∨ limit > 100) := by omega
  simp only [page, hl, if_false, pageRange]
  split
  · next h0 =>
    rw [List.eq_nil_of_length_eq_zero h0]
    simp [pure, Except.pure]
  · have hdown : ∀ k, k ≤ xs.length → xs.length + 1 - (xs.length - k + 1) = k := by intro k hk; omega
    split
    · next hge => rw [hdown limit hge, filterMap_down h limit hge]; rfl
    · next hlt =>
      have hd := filterMap_down h xs.length (Nat.le_refl _)
      rw [Nat.sub_self, Nat.zero_add, List.take_of_length_le (by simp)] at hd
      rw [Nat.add_sub_cancel, hd, List.take_of_length_le (by simp; omega)]; rfl

theorem Represents.ok {s : Storage} {l : RootLog} (hr : Represents s l) : RootLogOk s where
  current := by rw [hr.count]; exact hr.current
  entries := by rw [hr.count]; exact stores_isSome hr.stores
  numbered := by
    intro n e hn
    obtain ⟨i, rfl, hi⟩ := (stores_some hr.stores).1 hn
    exact l.numbered i e hi
  inverse := hr.index
  distinct := by
    intro n m e f hn hm hroot
    obtain ⟨i, rfl, hi⟩ := (stores_some hr.stores).1 hn
    obtain ⟨j, rfl, hj⟩ := (stores_some hr.stores).1 hm
    rw [l.distinct i j e f hi hj hroot]
  oplog := by
    intro n hn
    obtain ⟨c, hc⟩ := Option.isSome_iff_exists.1 hn
    exact hr.count ▸ hr.oplog n c hc
  history := by
    intro limit h1 h2
    have hcur : s.currentRoot.getD 0 = l.entries.length := by
      rw [hr.current]
      split
      · next h0 => simp [h0]
      · simp
    refine ⟨_, by rw [getRootHistory, hcur]; exact page_eq hr.stores h1 h2, ?_,
      newest_descending RootEntry.sequence l.numbered limit⟩
    rw [hr.count]
    exact newestFirst_take hr.stores limit

/-! ## Nothing written ever changes -/

/-- The inclusion key is written only together with the admin. -/
def VkWithAdmin (s : Storage) : Prop := s.admin = none → s.verifyingKey = none

theorem write_vkWithAdmin (hw : Write h inv s s')
    (hv : VkWithAdmin s) : VkWithAdmin s' := by
  cases hw with
  | init | setAdmin => intro hn; simp at hn
  | setThreshold | commitRoot | commitOplog | authorize | revoke | attest | registerVk | disclose => exact hv

theorem Kept.refl (s : Storage) : Kept s s :=
  ⟨fun _ _ h => h, fun _ _ h => h, fun _ _ h => h, fun _ h => h, fun _ h => h⟩

theorem Kept.trans (h : Kept a b) (h' : Kept b c) : Kept a c :=
  ⟨fun n e he => h'.1 n e (h.1 n e he), fun r n hr => h'.2 r n (h.2 r n hr),
   fun n c hc => h'.3 n c (h.3 n c hc), fun vk hv => h'.4 vk (h.4 vk hv), fun vk hv => h'.5 vk (h.5 vk hv)⟩

theorem kept_of_extends (hr : Represents s l) (hr' : Represents s' l')
    (hp : l.entries <+: l'.entries)
    (h3 : ∀ n c, s.oplogCommitment n = some c → s'.oplogCommitment n = some c)
    (h4 : ∀ vk, s.verifyingKey = some vk → s'.verifyingKey = some vk)
    (h5 : ∀ vk, s.disclosureVk = some vk → s'.disclosureVk = some vk) : Kept s s' where
  rootEntry := fun _ _ hn => stores_mono hr.stores hr'.stores hp hn
  rootIndex := by
    intro r n hn
    obtain ⟨e, he, hroot⟩ := (hr.index r n).1 hn
    exact (hr'.index r n).2 ⟨e, stores_mono hr.stores hr'.stores hp he, hroot⟩
  oplogCommitment := h3
  verifyingKey := h4
  disclosureVk := h5

theorem write_kept (hw : Write h inv s s')
    (hg : InitFirst s inv) (hr : Represents s l) (hv : VkWithAdmin s) : Kept s s' := by
  obtain ⟨l', hr', hp⟩ := write_simulates hw hg hr
  refine kept_of_extends hr hr' hp ?_ ?_ ?_
  · -- a commitment is written under the next number, where the invariant has none
    intro n c hc
    have hle := hr.oplog n c hc
    cases hw with
    | commitOplog _ _ _ hn =>
      have hne : n ≠ s.seqOr0 + 1 := by rw [hr.count]; omega
      simpa [Storage.publish, Storage.setOplog, Storage.pushRoot, hn.seq, hne] using hc
    | init | setAdmin | setThreshold | commitRoot | authorize | revoke | attest | registerVk | disclose =>
      exact hc
  · intro vk hvk
    cases hw with
    | init _ hn _ => rw [hv hn] at hvk; cases hvk
    | setAdmin | setThreshold | commitRoot | commitOplog | authorize | revoke | attest | registerVk
    | disclose => exact hvk
  · intro vk hvk
    cases hw with
    | registerVk _ hn => rw [hn] at hvk; cases hvk
    | init | setAdmin | setThreshold | commitRoot | commitOplog | authorize | revoke | attest
    | disclose => exact hvk

/-! ## Runs -/

/-- The invariant of the guarded runs. -/
def RootLogInv (s : Storage) : Prop := (∃ l, Represents s l) ∧ VkWithAdmin s

theorem step_rootLogInv (h : Host) (s : Storage) (inv : Invocation) (hg : InitFirst s inv)
    (hi : RootLogInv s) : RootLogInv (step h s inv) := by
  refine step_lift hi fun s' hw => ?_
  obtain ⟨⟨l, hr⟩, hv⟩ := hi
  obtain ⟨l', hr', _⟩ := write_simulates hw hg hr
  exact ⟨⟨l', hr'⟩, write_vkWithAdmin hw hv⟩

theorem step_kept (h : Host) (s : Storage) (inv : Invocation) (hg : InitFirst s inv)
    (hi : RootLogInv s) : Kept s (step h s inv) := by
  obtain ⟨⟨l, hr⟩, hv⟩ := hi
  exact step_lift (Kept.refl s) fun _ hw => write_kept hw hg hr hv

theorem rootLogInv_empty : RootLogInv Storage.empty := ⟨⟨_, represents_empty⟩, fun _ => rfl⟩

theorem guarded_run_kept (hg : Guarded (step h) InitFirst Storage.empty (pre ++ post)) :
    RootLogInv (after h pre) ∧ Kept (after h pre) (after h (pre ++ post)) := by
  have hpre : RootLogInv (after h pre) := run_inv (step_rootLogInv h) (guarded_left hg) rootLogInv_empty
  refine ⟨hpre, ?_⟩
  rw [after_append]
  exact run_rel Kept.refl Kept.trans (step_rootLogInv h) (step_kept h) ((guarded_append _ _ _).1 hg).2 hpre

/-- **The root log is well formed and append-only** in every run that initializes the contract before
a root is committed: after every prefix of the run, and what it then holds is kept to the end. -/
theorem root_log_append_only (h : Host) (invs : List Invocation)
    (hg : Guarded (step h) InitFirst Storage.empty invs) :
    ∀ pre post, invs = pre ++ post → RootLogOk (after h pre) ∧ Kept (after h pre) (after h invs) := by
  rintro pre post rfl
  obtain ⟨⟨⟨l, hr⟩, _⟩, hkept⟩ := guarded_run_kept hg
  exact ⟨hr.ok, hkept⟩

theorem root_log_append_only_demo :
    Guarded (step demoHost) InitFirst Storage.empty [demoInit, demoOplogCommit []] ∧
      RootLogOk (after demoHost [demoInit, demoOplogCommit []]) := by
  have hg : Guarded (step demoHost) InitFirst Storage.empty [demoInit, demoOplogCommit []] := by
    refine ⟨fun _ _ _ _ _ => rfl, ?_, trivial⟩
    intro _ _ hc
    simp [demoOplogCommit] at hc
  exact ⟨hg, (root_log_append_only _ _ hg _ [] (by simp)).1⟩

/-- A root committed before `initialize` survives it, but the counter restarts at 0: entry 1 exists
although no sequence number has been given out. -/
theorem initialize_resets_counter : ¬ RootLogOk (after demoHost [demoOplogCommit [], demoInit]) := by
  intro hok
  have h1 := (hok.entries 1).1 (by decide)
  have h2 : (after demoHost [demoOplogCommit [], demoInit]).seqOr0 = 0 := by decide
  omega

end Contract
