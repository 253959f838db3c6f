import NosqlBuddy.ImportExport.Pipeline

/-!
# The sink of a collection

| here | there |
| --- | --- |
| `CollectionSink`, `collectionSink` | `CollectionSink` (collection_sink.rs:23); a batch is sent when it is full, and at the end |
| `flush`, `upsertAll` | `flush` (collection_sink.rs:50), and its loop |

The filter for a document without `_id` is empty, so `replace_one` replaces the first document there is; the comment beside it
says that such a document is always inserted (collection_sink.rs:61).
-/

namespace ImportExport
open Oplog (Bson Document)

/-! ## The server -/

/-- A collection is the list of its documents in the order in which the server visits them. -/
structure MongoServer where
  selects : Document → Document → Bool
  sameId : Bson → Bson → Bool
  /-- The `_id` of a document that is inserted without one. -/
  newId : List Document → Bson
  estimatedDocumentCount : List Document → Nat
  selects_all : ∀ d, selects [] d = true
  estimated_pos : ∀ docs, docs ≠ [] → 0 < estimatedDocumentCount docs

/-- The answer to a write. -/
inductive Reply where
  | done
  | refused (message : String)
  /-- It is carried out, and the answer does not arrive. -/
  | lost (message : String)
deriving DecidableEq, Repr

def withId (id : Bson) (doc : Document) : Document := ("_id", id) :: doc

section
variable (M : MongoServer)

/-- The `_id` of the document is that one. -/
def HasId (id : Bson) (doc : Document) : Prop := ∃ id', doc.lookup "_id" = some id' ∧ M.sameId id' id

/-- Two documents with one `_id`. -/
def SameId (doc doc' : Document) : Prop := ∃ id, doc'.lookup "_id" = some id ∧ HasId M id doc

instance (id : Bson) (doc : Document) : Decidable (HasId M id doc) :=
  decidable_of_iff ((doc.lookup "_id").any fun id' => M.sameId id' id) (by simp [HasId, Option.any_eq_true])

instance (doc doc' : Document) : Decidable (SameId M doc doc') :=
  decidable_of_iff ((doc'.lookup "_id").any fun id => decide (HasId M id doc)) (by simp [SameId, Option.any_eq_true])

/-- What the replaced document becomes. Its `_id` stays. -/
def replacement (old doc : Document) : Except String Document :=
  match old.lookup "_id" with
  | none => .ok doc
  | some id =>
    if doc.lookup "_id" = none then .ok (withId id doc)
    else if SameId M doc old then .ok doc
    else .error "the (immutable) field '_id' was found to have been altered"

/-- The first selected document is replaced; none if nothing is selected. -/
def replaceFirst (filter doc : Document) : List Document → Option (Except String (List Document))
  | [] => none
  | d :: ds =>
    if M.selects filter d then some ((replacement M d doc).map fun d' => d' :: ds)
    else (replaceFirst filter doc ds).map fun r => r.map fun ds' => d :: ds'

def insertOne (doc : Document) (docs : List Document) : Except String (List Document) :=
  let doc := if doc.lookup "_id" = none then withId (M.newId docs) doc else doc
  if ∃ d ∈ docs, SameId M doc d then .error "E11000 duplicate key error" else .ok (docs ++ [doc])

/-- `replace_one` with `upsert`. -/
def replaceOne (filter doc : Document) (docs : List Document) : Except String (List Document) :=
  (replaceFirst M filter doc docs).getD (insertOne M doc docs)

/-- `insert_many`, in order; it ends with the first document that is not inserted. -/
def insertMany : List Document → List Document → Option String × List Document
  | [], docs => (none, docs)
  | doc :: rest, docs =>
    match insertOne M doc docs with
    | .error e => (some e, docs)
    | .ok docs => insertMany rest docs

/-- What the driver returns for a write that would end in that way, and what it leaves. -/
def answer (reply : Reply) (docs : List Document) (result : Option String × List Document) : Option AppError × List Document :=
  match reply with
  | .refused e => (some (.mongo e), docs)
  | .lost e => (some (.mongo e), result.2)
  | .done => (result.1.map .mongo, result.2)

/-! ## The sink -/

inductive InsertMode where
  | insert
  | upsert
deriving DecidableEq, Repr

/-- The sink, and the collection it writes to. -/
structure CollectionSink where
  docs : List Document
  batch : List Document
  inserted : Nat
  /-- How many writes were sent. -/
  calls : Nat

def upsertFilter (doc : Document) : Document :=
  match doc.lookup "_id" with
  | some id => [("_id", id)]
  | none => []

variable (replies : Nat → Reply)

/-- One `replace_one` (collection_sink.rs:66). -/
def upsertOne (doc : Document) (s : CollectionSink) : Option AppError × CollectionSink :=
  let result := match replaceOne M (upsertFilter doc) doc s.docs with
    | .ok docs => (none, docs)
    | .error e => (some e, s.docs)
  let r := answer (replies s.calls) s.docs result
  (r.1, { s with docs := r.2, calls := s.calls + 1, inserted := if r.1 = none then s.inserted + 1 else s.inserted })

def upsertAll : List Document → CollectionSink → Option AppError × CollectionSink
  | [], s => (none, s)
  | doc :: docs, s =>
    match upsertOne M replies doc s with
    | (some e, s) => (some e, s)
    | (none, s) => upsertAll docs s

/-- `flush` (collection_sink.rs:50). -/
def flush (mode : InsertMode) (s : CollectionSink) : Option AppError × CollectionSink :=
  if s.batch = [] then (none, s)
  else
    match mode with
    | .insert =>
      let r := answer (replies s.calls) s.docs (insertMany M s.batch s.docs)
      (r.1, { docs := r.2, batch := [], calls := s.calls + 1,
              inserted := if r.1 = none then s.inserted + s.batch.length else s.inserted })
    | .upsert => upsertAll M replies s.batch { s with batch := [] }

def collectionSink (mode : InsertMode) (batchSize : Nat) : DocumentSink CollectionSink where
  start s := (none, s)
  write _ doc s :=
    let s := { s with batch := s.batch ++ [doc] }
    if max batchSize 1 ≤ s.batch.length then flush M replies mode s else (none, s)
  finish s := flush M replies mode s
  abort s := s

end

/-! ## What the upserts keep -/

section
variable (M : MongoServer)

/-- The document as it is inserted into an empty collection. -/
def asStored (doc : Document) : Document := if doc.lookup "_id" = none then withId (M.newId []) doc else doc

def AllIds (docs : List Document) : Prop := ∀ doc ∈ docs, doc.lookup "_id" ≠ none

/-- Only the first document may have no `_id`, and only for an empty collection. -/
def Writable (docs : List Document) : List Document → Prop
  | [] => True
  | doc :: rest => (doc.lookup "_id" = none → docs = []) ∧ AllIds rest

end

/-! ## One write -/

variable {docs ds all flushed start taken : List Document} {doc d : Document} {s : CollectionSink}

section
variable (M : MongoServer)

theorem writable_of_allIds (h : AllIds ds) : Writable docs ds := by
  cases ds with
  | nil => trivial
  | cons doc rest => exact ⟨fun hnone => absurd hnone (h doc List.mem_cons_self), fun d hd => h d (List.mem_cons_of_mem _ hd)⟩

theorem Writable.tail (h : Writable docs (doc :: rest)) : AllIds rest :=
  h.2

theorem Writable.append (h : Writable docs (ds ++ ds')) :
    Writable docs ds ∧ (ds = [] ∨ AllIds ds') := by
  cases ds with
  | nil => exact ⟨trivial, .inl rfl⟩
  | cons doc rest =>
    exact ⟨⟨h.1, fun d hd => h.2 d (List.mem_append_left _ hd)⟩, .inr fun d hd => h.2 d (List.mem_append_right _ hd)⟩

theorem replaceFirst_keeps (hid : doc.lookup "_id" ≠ none) (hd : d.lookup "_id" ≠ none)
    (hsafe : SameId M doc d → doc = d) : ∀ {docs docs' : List Document}, replaceFirst M filter doc docs = some (.ok docs') →
      doc ∈ docs' ∧ (d ∈ docs → d ∈ docs') := by
  intro docs
  induction docs with
  | nil => intro docs' h; cases h
  | cons x xs ih =>
    intro docs' h
    rw [replaceFirst] at h
    split at h
    · -- the document that is replaced: it has another `_id` than `d`, or becomes `d`
      simp only [Option.some.injEq] at h
      unfold replacement at h
      cases hx : x.lookup "_id" with
      | none =>
        simp only [hx, Except.map, Except.ok.injEq] at h
        subst h
        refine ⟨List.mem_cons_self, fun hmem => ?_⟩
        rcases List.mem_cons.1 hmem with rfl | hmem
        · exact absurd hx hd
        · exact List.mem_cons_of_mem _ hmem
      | some id =>
        simp only [hx, if_neg hid] at h
        split at h
        · next hsame =>
          simp only [Except.map, Except.ok.injEq] at h
          subst h
          refine ⟨List.mem_cons_self, fun hmem => ?_⟩
          rcases List.mem_cons.1 hmem with rfl | hmem
          · rw [hsafe hsame]
            exact List.mem_cons_self
          · exact List.mem_cons_of_mem _ hmem
        · cases h
    · cases hr : replaceFirst M filter doc xs with
      | none => simp [hr] at h
      | some r =>
        cases r with
        | error e => simp [hr, Except.map] at h
        | ok ys =>
          simp only [hr, Option.map_some, Except.map, Option.some.injEq, Except.ok.injEq] at h
          subst h
          obtain ⟨hdoc, hkeep⟩ := ih hr
          refine ⟨List.mem_cons_of_mem _ hdoc, fun hmem => ?_⟩
          rcases List.mem_cons.1 hmem with rfl | hmem
          · exact List.mem_cons_self
          · exact List.mem_cons_of_mem _ (hkeep hmem)

theorem insertOne_ok (h : insertOne M doc docs = .ok docs') :
    docs' = docs ++ [if doc.lookup "_id" = none then withId (M.newId docs) doc else doc] := by
  unfold insertOne at h
  generalize (if doc.lookup "_id" = none then withId (M.newId docs) doc else doc) = doc' at h ⊢
  simp only at h
  split at h
  · cases h
  · exact (Except.ok.inj h).symm

theorem replaceOne_keeps (hw : doc.lookup "_id" = none → docs = [])
    (h : replaceOne M filter doc docs = .ok docs') (hd : d.lookup "_id" ≠ none) (hsafe : SameId M doc d → doc = d) :
    asStored M doc ∈ docs' ∧ (d ∈ docs → d ∈ docs') := by
  unfold replaceOne at h
  by_cases hid : doc.lookup "_id" = none
  · obtain rfl := hw hid
    have hinsert : insertOne M doc [] = .ok docs' := h
    simp [insertOne_ok M hinsert, asStored, hid]
  · simp only [asStored, if_neg hid]
    cases hr : replaceFirst M filter doc docs with
    | none =>
      rw [hr] at h
      have := insertOne_ok M h
      simp only [if_neg hid] at this
      subst this
      exact ⟨List.mem_append_right _ (List.mem_singleton.2 rfl), fun hmem => List.mem_append_left _ hmem⟩
    | some r =>
      rw [hr] at h
      simp only [Option.getD_some] at h
      subst h
      exact replaceFirst_keeps M hid hd hsafe hr

/-- Unless the collection is empty, a document without `_id` takes the place of the first one there is. -/
theorem replaceOne_without_id {id : Bson} (h : doc.lookup "_id" = none) (hd : d.lookup "_id" = some id)
    (ds : List Document) : replaceOne M (upsertFilter doc) doc (d :: ds) = .ok (withId id doc :: ds) := by
  have hfilter : upsertFilter doc = [] := by simp only [upsertFilter, h]
  simp only [replaceOne, replaceFirst, hfilter, M.selects_all, if_true, replacement, hd, h, Except.map, Option.getD_some]

variable (replies : Nat → Reply)

/-- No write of the documents changes it. -/
structure Untouched (ds : List Document) (d : Document) : Prop where
  hasId : d.lookup "_id" ≠ none
  safe : ∀ doc ∈ ds, SameId M doc d → doc = d

theorem Untouched.mono {ds' : List Document} (h : Untouched M ds d) (hsub : ∀ doc ∈ ds', doc ∈ ds) :
    Untouched M ds' d :=
  ⟨h.hasId, fun doc hdoc => h.safe doc (hsub doc hdoc)⟩

theorem upsertOne_keeps (hw : doc.lookup "_id" = none → s.docs = [])
    (hd : Untouched M [doc] d) (hmem : d ∈ s.docs) : d ∈ (upsertOne M replies doc s).2.docs := by
  unfold upsertOne
  cases hr : replaceOne M (upsertFilter doc) doc s.docs with
  | error e => cases replies s.calls <;> exact hmem
  | ok docs =>
    have hkeep := (replaceOne_keeps M hw hr hd.hasId (hd.safe doc (List.mem_singleton.2 rfl))).2 hmem
    cases replies s.calls with
    | refused e => exact hmem
    | lost e => exact hkeep
    | done => exact hkeep

theorem lookup_stored (doc : Document) : (asStored M doc).lookup "_id" ≠ none := by
  unfold asStored
  split
  · simp [withId]
  · assumption

theorem upsertOne_stored (hw : doc.lookup "_id" = none → s.docs = [])
    (h : (upsertOne M replies doc s).1 = none) : asStored M doc ∈ (upsertOne M replies doc s).2.docs := by
  have hself (hsame : SameId M doc (asStored M doc)) : doc = asStored M doc := by
    unfold asStored
    split
    · next hnone =>
      obtain ⟨_, _, id, hid, _⟩ := hsame
      rw [hnone] at hid
      cases hid
    · rfl
  unfold upsertOne at h ⊢
  cases hr : replaceOne M (upsertFilter doc) doc s.docs with
  | error e => cases hreply : replies s.calls <;> simp [hr, hreply, answer] at h
  | ok docs =>
    have hstored := (replaceOne_keeps M hw hr (lookup_stored M doc) hself).1
    cases hreply : replies s.calls with
    | refused e => simp [hreply, answer] at h
    | lost e => simp [hr, hreply, answer] at h
    | done => exact hstored

theorem upsertAll_keeps (ds : List Document) : ∀ {s : CollectionSink}, Writable s.docs ds → Untouched M ds d →
    d ∈ s.docs → d ∈ (upsertAll M replies ds s).2.docs := by
  induction ds with
  | nil => exact fun _ _ hmem => hmem
  | cons doc ds ih =>
    intro s hw hd hmem
    have hkeep := upsertOne_keeps M replies hw.1 (hd.mono M fun d hd => List.mem_singleton.1 hd ▸ List.mem_cons_self) hmem
    simp only [upsertAll]
    cases hr : upsertOne M replies doc s with
    | mk error s' =>
      rw [hr] at hkeep
      cases error with
      | some e => exact hkeep
      | none => exact ih (writable_of_allIds hw.tail) (hd.mono M fun d hd => List.mem_cons_of_mem _ hd) hkeep

theorem upsertAll_stored (ds : List Document) : ∀ {s : CollectionSink}, Writable s.docs ds → doc ∈ ds →
    Untouched M ds (asStored M doc) → (upsertAll M replies ds s).1 = none → asStored M doc ∈ (upsertAll M replies ds s).2.docs := by
  induction ds with
  | nil => exact fun _ hmem => absurd hmem List.not_mem_nil
  | cons first ds ih =>
    intro s hw hmem hd hok
    have hstored := upsertOne_stored M replies hw.1 (s := s)
    simp only [upsertAll] at hok ⊢
    cases hr : upsertOne M replies first s with
    | mk error s' =>
      rw [hr] at hstored
      cases error with
      | some e => simp [hr] at hok
      | none =>
        simp only [hr] at hok
        have hrest : Untouched M ds (asStored M doc) := hd.mono M fun d hd => List.mem_cons_of_mem _ hd
        rcases List.mem_cons.1 hmem with rfl | hmem
        · exact upsertAll_keeps M replies ds (writable_of_allIds hw.tail) hrest (hstored rfl)
        · exact ih (writable_of_allIds hw.tail) hmem hrest hok

@[simp] theorem upsertOne_batch (doc : Document) (s : CollectionSink) : (upsertOne M replies doc s).2.batch = s.batch := rfl

@[simp] theorem upsertAll_batch (ds : List Document) : ∀ s : CollectionSink, (upsertAll M replies ds s).2.batch = s.batch := by
  induction ds with
  | nil => exact fun _ => rfl
  | cons doc ds ih =>
    intro s
    simp only [upsertAll]
    cases hr : upsertOne M replies doc s with
    | mk error s' =>
      have hbatch := upsertOne_batch M replies doc s
      rw [hr] at hbatch
      cases error with
      | some e => exact hbatch
      | none => exact (ih s').trans hbatch

/-! ## One archive -/

/-- The documents of `flushed` were written to the collection that was `start`. -/
structure Underway (start flushed all : List Document) (s : CollectionSink) : Prop where
  kept : ∀ d, Untouched M all d → d ∈ start ∨ (∃ doc ∈ flushed, asStored M doc = d) → d ∈ s.docs
  fresh : flushed = [] → s.docs = start

theorem flush_nil (mode : InsertMode) (h : s.batch = []) : flush M replies mode s = (none, s) := if_pos h

theorem flush_upsert (h : s.batch ≠ []) :
    flush M replies .upsert s = upsertAll M replies s.batch { s with batch := [] } := if_neg h

theorem Underway.writable (h : Underway M start flushed all s)
    (hw : Writable start (flushed ++ s.batch)) : Writable s.docs s.batch := by
  rcases hw.append.2 with rfl | hids
  · rw [h.fresh rfl]
    exact hw
  · exact writable_of_allIds hids

theorem flush_keeps (h : Underway M start flushed all s)
    (hw : Writable start (flushed ++ s.batch)) (hsub : ∀ doc ∈ s.batch, doc ∈ all) (hd : Untouched M all d)
    (hmem : d ∈ start ∨ ∃ doc ∈ flushed, asStored M doc = d) : d ∈ (flush M replies .upsert s).2.docs := by
  by_cases hnil : s.batch = []
  · rw [flush_nil M replies .upsert hnil]
    exact h.kept d hd hmem
  · rw [flush_upsert M replies hnil]
    exact upsertAll_keeps M replies s.batch (h.writable M hw) (hd.mono M hsub) (h.kept d hd hmem)

theorem flush_underway (h : Underway M start flushed all s)
    (hw : Writable start (flushed ++ s.batch)) (hsub : ∀ doc ∈ s.batch, doc ∈ all) (hok : (flush M replies .upsert s).1 = none) :
    Underway M start (flushed ++ s.batch) all (flush M replies .upsert s).2 ∧ (flush M replies .upsert s).2.batch = [] := by
  by_cases hnil : s.batch = []
  · rw [flush_nil M replies .upsert hnil, hnil, List.append_nil]
    exact ⟨h, rfl⟩
  · refine ⟨⟨fun d hd hmem => ?_, fun hnone => absurd (List.append_eq_nil_iff.1 hnone).2 hnil⟩, ?_⟩
    · rcases hmem with hstart | ⟨doc, hdoc, rfl⟩
      · exact flush_keeps M replies h hw hsub hd (.inl hstart)
      · rcases List.mem_append.1 hdoc with hdoc | hdoc
        · exact flush_keeps M replies h hw hsub hd (.inr ⟨doc, hdoc, rfl⟩)
        · rw [flush_upsert M replies hnil] at hok ⊢
          exact upsertAll_stored M replies s.batch (s := { s with batch := [] }) (h.writable M hw) hdoc (hd.mono M hsub) hok
    · rw [flush_upsert M replies hnil]
      exact upsertAll_batch M replies s.batch _

/-- The documents of `taken` were written or wait in the batch. -/
def Taking (start all taken : List Document) (s : CollectionSink) : Prop :=
  ∃ flushed, Underway M start flushed all s ∧ taken = flushed ++ s.batch

theorem Taking.kept (h : Taking M start all taken s) (hd : Untouched M all d) (hmem : d ∈ start) : d ∈ s.docs := by
  obtain ⟨flushed, hunder, -⟩ := h
  exact hunder.kept d hd (.inl hmem)

theorem taking_flush (h : Taking M start all taken s)
    (hw : Writable start taken) (hsub : ∀ doc ∈ taken, doc ∈ all) :
    (∀ d, Untouched M all d → d ∈ start → d ∈ (flush M replies .upsert s).2.docs) ∧
      ((flush M replies .upsert s).1 = none → Taking M start all taken (flush M replies .upsert s).2 ∧
        (flush M replies .upsert s).2.batch = []) := by
  obtain ⟨flushed, hunder, rfl⟩ := h
  have hbatch : ∀ doc ∈ s.batch, doc ∈ all := fun doc hdoc => hsub doc (List.mem_append_right _ hdoc)
  refine ⟨fun d hd hmem => flush_keeps M replies hunder hw hbatch hd (.inl hmem), fun hok => ?_⟩
  obtain ⟨hunder', hnil⟩ := flush_underway M replies hunder hw hbatch hok
  exact ⟨⟨_, hunder', by rw [hnil, List.append_nil]⟩, hnil⟩

variable (batchSize : Nat)

theorem taking_write (n : Nat)
    (h : Taking M start all taken s) (hw : Writable start (taken ++ [doc])) (hsub : ∀ d ∈ taken ++ [doc], d ∈ all) :
    (∀ d, Untouched M all d → d ∈ start → d ∈ ((collectionSink M replies .upsert batchSize).write n doc s).2.docs) ∧
      (((collectionSink M replies .upsert batchSize).write n doc s).1 = none →
        Taking M start all (taken ++ [doc]) ((collectionSink M replies .upsert batchSize).write n doc s).2) := by
  obtain ⟨flushed, hunder, rfl⟩ := h
  have htaking : Taking M start all (flushed ++ s.batch ++ [doc]) { s with batch := s.batch ++ [doc] } :=
    ⟨flushed, ⟨hunder.kept, hunder.fresh⟩, List.append_assoc _ _ _⟩
  simp only [collectionSink]
  split
  · obtain ⟨hkeep, hok⟩ := taking_flush M replies htaking hw hsub
    exact ⟨hkeep, fun h => (hok h).1⟩
  · exact ⟨fun d hd hmem => htaking.kept M hd hmem, fun _ => htaking⟩

theorem upsert_loop (hJ : J.transforms = []) (rest : List Document) :
    ∀ {taken : List Document} {c : Counts} {s : CollectionSink}, Taking M start all taken s → Writable start (taken ++ rest) →
      (∀ doc ∈ taken ++ rest, doc ∈ all) → c.errors = 0 →
      let r := pipelineLoop (collectionSink M replies .upsert batchSize) J (rest.map .doc) c s
      (∀ d, Untouched M all d → d ∈ start → d ∈ r.2.2.docs) ∧
        (r.1 = none → CancelledAt J r.2.1.processed ∧ r.2.1.processed ≤ c.processed + rest.length ∨
          Taking M start all (taken ++ rest) r.2.2 ∧ J.sourceFault = none ∧ r.2.1.processed = c.processed + rest.length) := by
  induction rest with
  | nil =>
    intro taken c s h hw hsub hc
    simp only [List.map_nil, pipelineLoop, List.append_nil]
    split
    · next hflag => exact ⟨fun d hd hmem => h.kept M hd hmem, fun _ => .inl ⟨hflag, Nat.le_refl _⟩⟩
    · cases hf : J.sourceFault with
      | some e => exact ⟨fun d hd hmem => h.kept M hd hmem, fun hnone => by cases hnone⟩
      | none => exact ⟨fun d hd hmem => h.kept M hd hmem, fun _ => .inr ⟨h, rfl, rfl⟩⟩
  | cons doc rest ih =>
    intro taken c s h hw hsub hc
    rw [List.append_cons] at hw hsub
    obtain ⟨hkeep, hok⟩ := taking_write M replies batchSize c.processed h hw.append.1
      fun d hd => hsub d (List.mem_append_left _ hd)
    simp only [List.map_cons, pipelineLoop, handleRow, hJ, applyTransforms]
    split
    · next hflag => exact ⟨fun d hd hmem => h.kept M hd hmem, fun _ => .inl ⟨hflag, Nat.le_add_right _ _⟩⟩
    · cases hr : (collectionSink M replies .upsert batchSize).write c.processed doc s with
      | mk error s' =>
        rw [hr] at hkeep hok
        cases error with
        | some e => exact ⟨hkeep, fun hnone => by cases hnone⟩
        | none =>
          have hmax : ¬ J.ctx.maxErrors < c.errors := by omega
          simp only [hmax, if_false]
          have hnext := ih (c := { c with processed := c.processed + 1 }) (hok rfl) hw hsub hc
          refine ⟨hnext.1, fun hnone => ?_⟩
          simp only [List.length_cons]
          rcases hnext.2 hnone with ⟨hflag, hle⟩ | ⟨htaking, hfault, hcount⟩
          · refine .inl ⟨hflag, ?_⟩
            simp only at hle
            omega
          · refine .inr ⟨by rwa [List.append_cons], hfault, ?_⟩
            simp only at hcount
            omega

/-- The pipeline keeps what the documents do not touch; when it ends well and is not cancelled, they are all stored. -/
theorem upsert_pipeline (hJ : J.transforms = []) (hrows : J.rows = docs.map .doc)
    (hw : Writable start docs) (calls : Nat) :
    let r := runPipeline (collectionSink M replies .upsert batchSize) J ⟨start, [], 0, calls⟩
    (∀ d, Untouched M docs d → d ∈ start → d ∈ r.2.docs) ∧
      (∀ report, r.1 = .ok report → CancelledAt J (docs.length + 1) ∨
        ∀ doc ∈ docs, Untouched M docs (asStored M doc) → asStored M doc ∈ r.2.docs) := by
  have htaking : Taking M start docs [] ⟨start, [], 0, calls⟩ :=
    ⟨[], ⟨fun d _ hmem => hmem.resolve_right (by simp), fun _ => rfl⟩, rfl⟩
  have hloop := upsert_loop M replies batchSize hJ docs (c := ⟨0, 0, []⟩) htaking (by simpa using hw) (by simp) rfl
  simp only [runPipeline, collectionSink, hrows]
  simp only [collectionSink] at hloop
  cases hr : pipelineLoop (collectionSink M replies .upsert batchSize) J (docs.map .doc) ⟨0, 0, []⟩ ⟨start, [], 0, calls⟩ with
  | mk error rest =>
    obtain ⟨c, s⟩ := rest
    simp only [collectionSink] at hr
    rw [hr] at hloop
    simp only [hr]
    cases error with
    | some e => exact ⟨hloop.1, fun report hok => by cases hok⟩
    | none =>
      have hend := hloop.2 rfl
      simp only [Nat.zero_add, List.nil_append] at hend
      by_cases hflag : CancelledAt J (c.processed + 1)
      · simp only [hflag, if_true]
        refine ⟨hloop.1, fun _ _ => .inl (hflag.mono ?_)⟩
        rcases hend with ⟨-, hle⟩ | ⟨-, -, hcount⟩ <;> omega
      · simp only [hflag, if_false]
        obtain ⟨hflagged, -⟩ | ⟨htaken, -, -⟩ := hend
        · exact absurd (hflagged.mono (Nat.le_succ _)) hflag
        · obtain ⟨hkeep, hok⟩ := taking_flush M replies htaken hw fun _ hd => hd
          cases hf : flush M replies .upsert s with
          | mk error s' =>
            rw [hf] at hkeep hok
            cases error with
            | some e => exact ⟨hkeep, fun report hok => by cases hok⟩
            | none =>
              refine ⟨hkeep, fun _ _ => .inr fun doc hdoc hd => ?_⟩
              obtain ⟨⟨flushed, hunder, heq⟩, hnil⟩ := hok rfl
              simp only at hnil
              simp only [hnil, List.append_nil] at heq
              exact hunder.kept _ hd (.inr ⟨doc, heq ▸ hdoc, rfl⟩)

/-! ## Documents without `_id` -/

/-- The collection is the first document, as it was or with the contents of a written one, and the rest; what waits was written. -/
structure OnlyFirst (J : Job) (d : Document) (id : Bson) (ds : List Document) (s : CollectionSink) : Prop where
  docs : ∃ x, s.docs = x :: ds ∧ x.lookup "_id" = some id ∧ (x = d ∨ ∃ doc, Written J doc ∧ x = withId id doc)
  batch : ∀ doc ∈ s.batch, Written J doc

variable {J : Job} {id : Bson}

theorem upsertAll_onlyFirst (hJ : ∀ doc, Written J doc → doc.lookup "_id" = none) : ∀ {docs : List Document} {s : CollectionSink},
    (∀ doc ∈ docs, Written J doc) → OnlyFirst J d id ds s → OnlyFirst J d id ds (upsertAll M replies docs s).2
  | [], s, _, h => h
  | doc :: docs, s, hdocs, h => by
    have hwritten := hdocs doc List.mem_cons_self
    obtain ⟨⟨x, hx, hid, hfirst⟩, hbatch⟩ := h
    have hone : OnlyFirst J d id ds (upsertOne M replies doc s).2 := by
      refine ⟨?_, hbatch⟩
      simp only [upsertOne, hx, replaceOne_without_id M (hJ doc hwritten) hid]
      cases replies s.calls with
      | refused e => exact ⟨x, rfl, hid, hfirst⟩
      | lost e => exact ⟨withId id doc, rfl, rfl, .inr ⟨doc, hwritten, rfl⟩⟩
      | done => exact ⟨withId id doc, rfl, rfl, .inr ⟨doc, hwritten, rfl⟩⟩
    rw [upsertAll]
    rcases hr : upsertOne M replies doc s with ⟨_ | e, s'⟩
    · rw [hr] at hone
      exact upsertAll_onlyFirst hJ (fun e he => hdocs e (List.mem_cons_of_mem _ he)) hone
    · rwa [hr] at hone

theorem flush_onlyFirst (hJ : ∀ doc, Written J doc → doc.lookup "_id" = none) (h : OnlyFirst J d id ds s) :
    OnlyFirst J d id ds (flush M replies .upsert s).2 := by
  unfold flush
  split
  · exact h
  · exact upsertAll_onlyFirst M replies hJ h.batch ⟨h.docs, fun _ he => absurd he List.not_mem_nil⟩

theorem write_onlyFirst (hJ : ∀ doc, Written J doc → doc.lookup "_id" = none) (n : Nat) (hdoc : Written J doc)
    (h : OnlyFirst J d id ds s) : OnlyFirst J d id ds ((collectionSink M replies .upsert batchSize).write n doc s).2 := by
  have htaken : OnlyFirst J d id ds { s with batch := s.batch ++ [doc] } :=
    ⟨h.docs, fun e he => (List.mem_append.1 he).elim (h.batch e) fun he => List.mem_singleton.1 he ▸ hdoc⟩
  simp only [collectionSink]
  split
  · exact flush_onlyFirst M replies hJ htaken
  · exact htaken

end

/-- **An upsert import of documents without `_id`** into a collection that is not empty adds none of them, whatever the batches,
the answers and the moment of a cancellation: each takes the place of the first document, and of the one before. -/
theorem upsert_without_ids (M : MongoServer) (replies : Nat → Reply) (batchSize calls : Nat) (J : Job) {id : Bson}
    (hJ : ∀ doc, Written J doc → doc.lookup "_id" = none) (hd : d.lookup "_id" = some id) (ds : List Document) :
    ∃ x, (runPipeline (collectionSink M replies .upsert batchSize) J ⟨d :: ds, [], 0, calls⟩).2.docs = x :: ds ∧
      x.lookup "_id" = some id ∧ (x = d ∨ ∃ doc, Written J doc ∧ x = withId id doc) := by
  have hstart : OnlyFirst J d id ds ⟨d :: ds, [], 0, calls⟩ := ⟨⟨d, rfl, hd, .inl rfl⟩, fun _ he => absurd he List.not_mem_nil⟩
  exact (runPipeline_inv (fun _ h => h) (fun n doc s hdoc h => write_onlyFirst M replies batchSize hJ n hdoc h)
    (fun s h => flush_onlyFirst M replies hJ h) (fun _ h => h) hstart).docs

end ImportExport
