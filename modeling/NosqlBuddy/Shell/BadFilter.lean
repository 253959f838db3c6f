import NosqlBuddy.Shell.Dispatch

/-!
# A bad filter in a write

`write_safe_iff` says for which calls a bad filter stops the write. A filter argument that is missing, `null`,
no object or does not convert to a document is read as the empty filter (`unwrap_or_default`), so the
only calls that a bad filter stops are those that something else stops as well: an argument that does
not convert at all, a missing update or replacement, an operation of `bulkWrite` that ends the loop before it.
-/

namespace Shell
open Fallible
open Oplog (Bson Document)

/-! ## The filter the script passed -/

def JsValue.isObject : JsValue → Bool
  | .array _ | .object _ | .throws _ => true
  | _ => false

/-- The kinds of operation of `bulkWrite` that take a filter. -/
def TakesFilter (kind : String) : Prop :=
  kind ∈ ["updateOne", "updateMany", "replaceOne", "deleteOne", "deleteMany"]

instance (kind : String) : Decidable (TakesFilter kind) := inferInstanceAs (Decidable (kind ∈ _))

/-- The filter argument of an operation of `bulkWrite`, where the operation takes one. -/
def opFilter : JsValue → Option (Option JsValue)
  | .object own =>
    match own.head?.map Prod.fst with
    | some kind =>
      if TakesFilter kind then
        match getOwn own kind with
        | some (.object payload) => some (getOwn payload "filter")
        | _ => some none
      else none
    | none => none
  | _ => none

section
variable (parseRfc3339 : String → Option Int64)

/-- Missing, not an object, or not to be converted to a document. -/
def BadFilter : Option JsValue → Prop
  | none => True
  | some v => v.isObject = false ∨ ∀ d, jsvalueToBson parseRfc3339 v ≠ .ok (.document d)

/-- The call fails and nothing was sent. -/
def Refused (r : Outcome) : Prop := r.1 = [] ∧ ∃ e, r.2 = .error e

/-- A bad filter is refused, and an empty filter is one that the script passed. In `bulkWrite` an operation
with a bad filter ends the call before anything is sent for it or for a later one. -/
def SafeCall (method : WriteMethod) (args : List JsValue) (r : Outcome) : Prop :=
  if method = .bulkWrite then
    ∀ ops, args.head? = some (.array ops) →
      (∀ i op f, ops[i]? = some op → opFilter op = some f → BadFilter parseRfc3339 f →
        (∀ s ∈ r.1, s.1 < i) ∧ ∃ e, r.2 = .error e) ∧
      ∀ s ∈ r.1, s.2.filter = some [] → ∃ op, ops[s.1]? = some op ∧ opFilter op = some (some (.object []))
  else
    (BadFilter parseRfc3339 args.head? → Refused r) ∧
      ∀ s ∈ r.1, s.2.filter = some [] → args.head? = some (.object [])

end

/-! ## Which calls are guarded -/

def UpdateValue (v : Bson) : Prop := (∃ d, v = .document d) ∨ ∃ xs, v = .array xs

/-- The arguments beside the filter are those the method asks for. -/
def Complete : WriteMethod → List Bson → Prop
  | .updateOne, args | .updateMany, args | .replaceOne, args | .findOneAndReplace, args =>
    ∃ d, args[1]? = some (.document d)
  | .findOneAndUpdate, args => ∃ v, args[1]? = some v ∧ UpdateValue v
  | .deleteOne, _ | .deleteMany, _ | .findOneAndDelete, _ => True
  | .bulkWrite, _ => False

def PayloadComplete (kind : String) (payload : Document) : Prop :=
  if kind = "insertOne" then ∃ d, payload.lookup "document" = some (.document d)
  else if kind = "updateOne" ∨ kind = "updateMany" then ∃ v, payload.lookup "update" = some v ∧ UpdateValue v
  else if kind = "replaceOne" then ∃ d, payload.lookup "replacement" = some (.document d)
  else kind = "deleteOne" ∨ kind = "deleteMany"

/-- The operation does not end the loop, its filter apart. -/
def OpComplete : Bson → Prop
  | .document ((kind, .document payload) :: _) => PayloadComplete kind payload
  | .document (_ :: _) => False
  | _ => True

/-- The filter of an operation, where it takes one. -/
def bulkFilter : Bson → Option (Option Bson)
  | .document ((kind, v) :: _) =>
    if TakesFilter kind then some ((documentOf v).bind fun payload => payload.lookup "filter") else none
  | _ => none

def FilterGiven (op : Bson) : Prop := ∀ f, bulkFilter op = some f → ∃ d, f = some (.document d)

/-- Up to the first operation that ends the loop, every filter is a document. -/
def GuardedOps : List Bson → Prop
  | [] => True
  | op :: ops => OpComplete op → FilterGiven op ∧ GuardedOps ops

/-- Some argument does not convert, or another argument is missing, or the filter is a document. -/
def Guarded (parseRfc3339 : String → Option Int64) (method : WriteMethod) (args : List JsValue) : Prop :=
  ∀ bs, listToBson parseRfc3339 args = .ok bs →
    (method = .bulkWrite → ∀ ops, bs.head? = some (.array ops) → GuardedOps ops) ∧
    (method ≠ .bulkWrite → Complete method bs → ∃ d, bs.head? = some (.document d))

section
variable {debug : Bson → String} {accessError : Document → String → String}

/-! ## What is sent -/

theorem documentOf_eq : documentOf v = some d ↔ v = .document d := by
  cases v <;> simp [documentOf]

theorem docArg_eq :
    docArg args i = some d ↔ args[i]? = some (.document d) := by
  rw [docArg, Option.bind_eq_some_iff]
  simp only [documentOf_eq]
  exact ⟨fun ⟨v, hv, hd⟩ => hd ▸ hv, fun h => ⟨_, h, rfl⟩⟩

theorem bsonToUpdateMods_ok (debug : Bson → String) : (∃ m, bsonToUpdateMods debug v = .ok m) ↔ UpdateValue v := by
  cases v <;> simp [bsonToUpdateMods, UpdateValue]

theorem bind_pure_succeeds {α β : Type} {x : Except String α} {g : α → β} :
    (∃ r, (x >>= fun a => pure (g a)) = .ok r) ↔ ∃ a, x = .ok a := by
  simp only [bind_ok, pure_ok]
  exact ⟨fun ⟨_, a, ha, _⟩ => ⟨a, ha⟩, fun ⟨a, ha⟩ => ⟨_, a, ha, rfl⟩⟩

theorem request_ok (debug : Bson → String) (coll : String) {method : WriteMethod} {args : List Bson} :
    (∃ c, request debug coll method args = .ok c) ↔ Complete method args := by
  cases method with
  | updateOne | updateMany | replaceOne | findOneAndReplace =>
    simp only [request, Complete, bind_pure_succeeds, okOrElse_ok, docArg_eq]
  | deleteOne | deleteMany | findOneAndDelete => simp [request, Complete, pure_ok]
  | bulkWrite => simp [request, Complete]
  | findOneAndUpdate =>
    simp only [request, Complete, bind_ok, okOrElse_ok, ← bsonToUpdateMods_ok debug]
    constructor
    · rintro ⟨c, v, hv, m, hm, -⟩
      exact ⟨v, hv, m, hm⟩
    · rintro ⟨v, hv, m, hm⟩
      exact ⟨_, v, hv, m, hm, rfl⟩

theorem request_filter (h : request debug coll method args = .ok c) : c.filter = some (filterArg args) := by
  cases method with
  | updateOne | updateMany | replaceOne | findOneAndReplace =>
    simp only [request, bind_ok, pure_ok] at h
    obtain ⟨_, _, rfl⟩ := h
    rfl
  | deleteOne | deleteMany | findOneAndDelete =>
    rw [request, pure_ok] at h
    rw [← h]
    rfl
  | bulkWrite => exact absurd h (by simp [request])
  | findOneAndUpdate =>
    simp only [request, bind_ok, pure_ok] at h
    obtain ⟨_, _, _, _, rfl⟩ := h
    rfl

theorem getDocument_eq :
    getDocument p key = some d ↔ p.lookup key = some (.document d) := by
  rw [getDocument, Option.bind_eq_some_iff]
  simp only [documentOf_eq]
  exact ⟨fun ⟨v, hv, hd⟩ => hd ▸ hv, fun h => ⟨_, h, rfl⟩⟩

theorem bulkCommand_ok (debug : Bson → String) (accessError : Document → String → String) {kind : String} {payload : Document} :
    (∃ c, bulkCommand debug accessError kind payload = .ok c) ↔ PayloadComplete kind payload := by
  unfold bulkCommand PayloadComplete
  split_ifs with _ hupdate _ hdelete
  · simp only [bind_pure_succeeds, okOrElse_ok, getDocument_eq]
  · simp only [bind_ok, okOrElse_ok, ← bsonToUpdateMods_ok debug]
    constructor
    · rintro ⟨c, v, hv, m, hm, -⟩
      exact ⟨v, hv, m, hm⟩
    · rintro ⟨v, hv, m, hm⟩
      exact ⟨_, v, hv, m, hm, rfl⟩
  · simp only [bind_pure_succeeds, okOrElse_ok, getDocument_eq]
  · simp [pure_ok, hdelete]
  · simp [hdelete]

theorem bulkCommand_filter (h : bulkCommand debug accessError kind payload = .ok c) :
    c.filter = if TakesFilter kind then some ((getDocument payload "filter").getD []) else none := by
  unfold bulkCommand at h
  split_ifs at h with hinsert hupdate hreplace hdelete
  · simp only [bind_ok, pure_ok] at h
    obtain ⟨_, _, rfl⟩ := h
    simp [Command.filter, TakesFilter, hinsert]
  · simp only [bind_ok, pure_ok] at h
    obtain ⟨_, _, _, _, rfl⟩ := h
    rcases hupdate with rfl | rfl <;> rfl
  · simp only [bind_ok, pure_ok] at h
    obtain ⟨_, _, rfl⟩ := h
    subst hreplace
    rfl
  · rw [pure_ok] at h
    subst h
    rcases hdelete with rfl | rfl <;> rfl

theorem bulkOp_ok (debug : Bson → String) (accessError : Document → String → String) {op : Bson} :
    (∃ r, bulkOp debug accessError op = .ok r) ↔ OpComplete op := by
  cases op with
  | document fields =>
    cases fields with
    | nil => simp [bulkOp, OpComplete]
    | cons f rest =>
      obtain ⟨kind, v⟩ := f
      cases v with
      | document payload =>
        simp only [bulkOp, OpComplete, map_ok, ← bulkCommand_ok debug accessError]
        exact ⟨fun ⟨_, c, hc, _⟩ => ⟨c, hc⟩, fun ⟨c, hc⟩ => ⟨_, c, hc, rfl⟩⟩
      | _ => simp [bulkOp, OpComplete]
  | _ => simp [bulkOp, OpComplete]

/-- Without a filter to take, nothing with a filter is sent; a filter that is no document is sent as the empty one. -/
theorem bulkOp_filter (h : bulkOp debug accessError op = .ok (some c)) :
    c.filter = (bulkFilter op).map fun f => (f.bind documentOf).getD [] := by
  unfold bulkOp at h
  split at h
  · next kind payload _ =>
    obtain ⟨c', hc, hcc⟩ := map_ok.1 h
    rw [← Option.some.inj hcc, bulkCommand_filter hc, bulkFilter]
    split <;> rfl
  · exact absurd h (by simp)
  · exact absurd h (by simp)

theorem bulkFilter_of_skipped (h : bulkOp debug accessError op = .ok none) : bulkFilter op = none := by
  unfold bulkOp at h
  split at h
  · obtain ⟨c, -, hc⟩ := map_ok.1 h
    cases hc
  · cases h
  · next hdoc hcons =>
    cases op with
    | document fields =>
      cases fields with
      | nil => rfl
      | cons f rest => exact absurd rfl (hcons f.1 f.2 rest)
    | _ => rfl

/-! ## The loop -/

variable {server : List (Nat × Command) → Command → Except String Unit}

variable (debug accessError server) in
theorem bulkLoop_cons (i : Nat) (sent : List (Nat × Command)) (op : Bson) (ops : List Bson) :
    let r := bulkLoop debug accessError server i sent (op :: ops)
    (¬ OpComplete op ∧ r.1 = sent ∧ ∃ e, r.2 = .error e) ∨
    (bulkOp debug accessError op = .ok none ∧ r = bulkLoop debug accessError server (i + 1) sent ops) ∨
    ∃ c, bulkOp debug accessError op = .ok (some c) ∧
      ((∃ e, server sent c = .error e ∧ r = (sent ++ [(i, c)], .error e)) ∨
        server sent c = .ok () ∧ r = bulkLoop debug accessError server (i + 1) (sent ++ [(i, c)]) ops) := by
  simp only [bulkLoop]
  cases hop : bulkOp debug accessError op with
  | error e =>
    refine .inl ⟨fun hcomplete => ?_, rfl, e, rfl⟩
    obtain ⟨r, hr⟩ := (bulkOp_ok debug accessError).2 hcomplete
    rw [hop] at hr
    cases hr
  | ok x =>
    cases x with
    | none => exact .inr (.inl ⟨rfl, rfl⟩)
    | some c =>
      refine .inr (.inr ⟨c, rfl, ?_⟩)
      cases hs : server sent c with
      | error e => exact .inl ⟨e, rfl, by simp only [hs]⟩
      | ok u => exact .inr ⟨rfl, by simp only [hs]⟩

theorem sent_subset : ∀ (ops : List Bson) (i : Nat) (sent : List (Nat × Command)),
    sent ⊆ (bulkLoop debug accessError server i sent ops).1
  | [], _, sent => List.Subset.refl sent
  | op :: ops, i, sent => by
    rcases bulkLoop_cons debug accessError server i sent op ops with ⟨-, h, -⟩ | ⟨-, h⟩ | ⟨c, -, ⟨e, -, h⟩ | ⟨-, h⟩⟩
    · rw [h]
      exact List.Subset.refl sent
    · rw [h]
      exact sent_subset ops (i + 1) sent
    · rw [h]
      exact List.subset_append_left sent _
    · rw [h]
      exact List.Subset.trans (List.subset_append_left sent _) (sent_subset ops (i + 1) _)

theorem sent_from {s : Nat × Command} : ∀ (ops : List Bson) (i : Nat) (sent : List (Nat × Command)),
    s ∈ (bulkLoop debug accessError server i sent ops).1 →
      s ∈ sent ∨ ∃ j op, s.1 = i + j ∧ ops[j]? = some op ∧ bulkOp debug accessError op = .ok (some s.2)
  | [], _, _, h => .inl h
  | op :: ops, i, sent, hs => by
    have later : ∀ {sent'}, s ∈ (bulkLoop debug accessError server (i + 1) sent' ops).1 → s ∈ sent' ∨
        ∃ j op', s.1 = i + j ∧ (op :: ops)[j]? = some op' ∧ bulkOp debug accessError op' = .ok (some s.2) := by
      intro sent' h
      rcases sent_from ops (i + 1) sent' h with h | ⟨j, op', hj, hop, hc⟩
      · exact .inl h
      · exact .inr ⟨j + 1, op', by omega, hop, hc⟩
    have here : ∀ {c}, bulkOp debug accessError op = .ok (some c) → s ∈ sent ++ [(i, c)] → s ∈ sent ∨
        ∃ j op', s.1 = i + j ∧ (op :: ops)[j]? = some op' ∧ bulkOp debug accessError op' = .ok (some s.2) := by
      intro c hc h
      rcases List.mem_append.1 h with h | h
      · exact .inl h
      · obtain rfl := List.mem_singleton.1 h
        exact .inr ⟨0, op, rfl, rfl, hc⟩
    rcases bulkLoop_cons debug accessError server i sent op ops with ⟨-, h, -⟩ | ⟨-, h⟩ | ⟨c, hc, ⟨e, -, h⟩ | ⟨-, h⟩⟩
    · exact .inl (h ▸ hs)
    · exact later (h ▸ hs)
    · exact here hc (by simpa only [h] using hs)
    · rcases later (h ▸ hs) with h' | h'
      · exact here hc h'
      · exact .inr h'

theorem stops_at {op : Bson} (hop : ¬ OpComplete op) :
    ∀ (ops : List Bson) (i j : Nat) (sent : List (Nat × Command)), ops[j]? = some op →
      (∃ e, (bulkLoop debug accessError server i sent ops).2 = .error e) ∧
        ∀ s ∈ (bulkLoop debug accessError server i sent ops).1, s ∈ sent ∨ s.1 < i + j
  | [], _, j, _, h => absurd h (by simp)
  | op' :: ops, i, 0, sent, h => by
    obtain rfl : op' = op := by simpa using h
    have incomplete : ∀ {r}, bulkOp debug accessError op' ≠ .ok r := fun hr => hop ((bulkOp_ok debug accessError).1 ⟨_, hr⟩)
    rcases bulkLoop_cons debug accessError server i sent op' ops with ⟨-, h1, h2⟩ | ⟨hc, -⟩ | ⟨c, hc, -⟩
    · exact ⟨h2, fun s hs => .inl (h1 ▸ hs)⟩
    · exact absurd hc incomplete
    · exact absurd hc incomplete
  | op' :: ops, i, j + 1, sent, h => by
    have ih := fun sent' => stops_at hop ops (i + 1) j sent' (by simpa using h)
    rcases bulkLoop_cons debug accessError server i sent op' ops with ⟨-, h1, h2⟩ | ⟨-, h⟩ | ⟨c, hc, ⟨e, -, h⟩ | ⟨-, h⟩⟩
    · exact ⟨h2, fun s hs => .inl (h1 ▸ hs)⟩
    · rw [h]
      exact ⟨(ih sent).1, fun s hs => ((ih sent).2 s hs).imp_right fun h => by omega⟩
    · rw [h]
      refine ⟨⟨e, rfl⟩, fun s hs => ?_⟩
      rcases List.mem_append.1 hs with hs | hs
      · exact .inl hs
      · obtain rfl := List.mem_singleton.1 hs
        exact .inr (by simp)
    · rw [h]
      refine ⟨(ih _).1, fun s hs => ?_⟩
      rcases (ih _).2 s hs with hs | hs
      · rcases List.mem_append.1 hs with hs | hs
        · exact .inl hs
        · obtain rfl := List.mem_singleton.1 hs
          exact .inr (by simp)
      · exact .inr (by omega)

theorem accepted_sent (hc : bulkOp debug accessError op = .ok (some c)) :
    ∀ (ops : List Bson) (i j : Nat) (sent : List (Nat × Command)), ops[j]? = some op →
      (∀ op' ∈ ops.take j, OpComplete op') →
      (i + j, c) ∈ (bulkLoop debug accessError (fun _ _ => .ok ()) i sent ops).1
  | [], _, _, _, h, _ => absurd h (by simp)
  | op' :: ops, i, 0, sent, h, _ => by
    obtain rfl : op' = op := by simpa using h
    rw [bulkLoop, hc]
    exact sent_subset ops (i + 1) _ (by simp)
  | op' :: ops, i, j + 1, sent, h, hall => by
    have ih := fun sent' => accepted_sent hc ops (i + 1) j sent' (by simpa using h)
      fun o ho => hall o (by rw [List.take_succ_cons]; exact List.mem_cons_of_mem _ ho)
    rw [show i + (j + 1) = i + 1 + j by omega]
    rcases bulkLoop_cons debug accessError (fun _ _ => .ok ()) i sent op' ops with ⟨hop, -⟩ | ⟨-, h⟩ | ⟨c', -, ⟨e, he, -⟩ | ⟨-, h⟩⟩
    · exact absurd (hall op' (by simp)) hop
    · rw [h]
      exact ih _
    · cases he
    · rw [h]
      exact ih _

end

/-! ## Guarded operations -/

theorem GuardedOps.ended {op : Bson} (hf : ¬ FilterGiven op) : ∀ {ops : List Bson} {i : Nat}, GuardedOps ops →
    ops[i]? = some op → ∃ j op', j ≤ i ∧ ops[j]? = some op' ∧ ¬ OpComplete op'
  | [], _, _, h => absurd h (by simp)
  | op' :: ops, i, hg, h => by
    by_cases hop : OpComplete op'
    · obtain ⟨hgiven, hrest⟩ := hg hop
      cases i with
      | zero =>
        obtain rfl : op' = op := by simpa using h
        exact absurd hgiven hf
      | succ i =>
        obtain ⟨j, op'', hj, hat, hend⟩ := ended hf hrest (by simpa using h)
        exact ⟨j + 1, op'', by omega, by simpa using hat, hend⟩
    · exact ⟨0, op', Nat.zero_le i, rfl, hop⟩

theorem GuardedOps.reached : ∀ {ops : List Bson}, ¬ GuardedOps ops →
    ∃ j op, ops[j]? = some op ∧ (∀ op' ∈ ops.take j, OpComplete op') ∧ OpComplete op ∧ ¬ FilterGiven op
  | [], h => absurd trivial h
  | op :: ops, h => by
    rw [GuardedOps, Classical.not_imp, not_and] at h
    obtain ⟨hop, hrest⟩ := h
    by_cases hf : FilterGiven op
    · obtain ⟨j, op', hat, hbefore, hcomplete, hend⟩ := reached (hrest hf)
      refine ⟨j + 1, op', by simpa using hat, ?_, hcomplete, hend⟩
      rw [List.take_succ_cons, List.forall_mem_cons]
      exact ⟨hop, hbefore⟩
    · exact ⟨0, op, rfl, by simp, hop, hf⟩

/-! ## Before and after the conversion -/

section
variable {parseRfc3339 : String → Option Int64}

theorem rel_some_left {α β : Type} {r : α → β → Prop} {a : α} {y : Option β} (h : Option.Rel r (some a) y) :
    ∃ b, y = some b ∧ r a b := by
  cases h with
  | some hab => exact ⟨_, rfl, hab⟩

theorem rel_some_right {α β : Type} {r : α → β → Prop} {x : Option α} {b : β} (h : Option.Rel r x (some b)) :
    ∃ a, x = some a ∧ r a b := by
  cases h with
  | some hab => exact ⟨_, rfl, hab⟩

/-- The value after the conversion, where there is one. -/
abbrev Converted (parseRfc3339 : String → Option Int64) : Option JsValue → Option Bson → Prop :=
  Option.Rel fun v b => jsvalueToBson parseRfc3339 v = .ok b

theorem badFilter_iff {f : Option JsValue} {g : Option Bson} (h : Converted parseRfc3339 f g) :
    BadFilter parseRfc3339 f ↔ ¬ ∃ d, g = some (.document d) := by
  cases h with
  | none => simp [BadFilter]
  | @some v b hv =>
    simp only [BadFilter, hv, Option.some.injEq, not_exists]
    constructor
    · rintro (hobj | hnone) d rfl
      · obtain ⟨own, _, rfl, -⟩ := object_of_document hv
        exact absurd hobj (by simp [JsValue.isObject])
      · exact hnone d rfl
    · exact fun hb => .inr fun d hd => hb d (Except.ok.inj hd)

theorem passed_empty {f : Option JsValue} {g : Option Bson} (h : Converted parseRfc3339 f g)
    (hg : g = some (.document [])) : f = some (.object []) := by
  cases h with
  | none => exact absurd hg (by simp)
  | @some v b hv =>
    obtain rfl := Option.some.inj hg
    exact congrArg some (empty_document.1 hv)

theorem converted_head {args : List JsValue} {bs : List Bson} (h : listToBson parseRfc3339 args = .ok bs) :
    Converted parseRfc3339 args.head? bs.head? := by
  cases listToBson_ok.1 h with
  | nil => exact .none
  | cons hv _ => exact .some hv

theorem converted_get {args : List JsValue} {bs : List Bson} (h : listToBson parseRfc3339 args = .ok bs) (i : Nat) :
    Converted parseRfc3339 args[i]? bs[i]? := by
  have hall := listToBson_ok.1 h
  by_cases hi : i < args.length
  · rw [List.getElem?_eq_getElem hi, List.getElem?_eq_getElem (hall.length_eq ▸ hi)]
    exact .some (hall.get hi (hall.length_eq ▸ hi))
  · rw [List.getElem?_eq_none (by omega), List.getElem?_eq_none (hall.length_eq ▸ by omega)]
    exact .none

theorem bulkFilter_document (d : Document) : bulkFilter (.document d) = (d.head?.map Prod.fst).bind fun kind =>
    if TakesFilter kind then some (((d.lookup kind).bind documentOf).bind fun payload => payload.lookup "filter")
    else none := by
  cases d with
  | nil => rfl
  | cons f rest =>
    obtain ⟨kind, v⟩ := f
    simp [bulkFilter, Fields.lookup_cons]

theorem converted_payload (kind : String)
    (h : fieldsToBson parseRfc3339 own = .ok fields) :
    Option.Rel (Converted parseRfc3339)
      (match getOwn own kind with
        | some (.object payload) => some (getOwn payload "filter")
        | _ => some none)
      (some ((((Fields.putAll fields []).lookup kind).bind documentOf).bind fun payload =>
        payload.lookup "filter")) := by
  have hrel := lookup_document kind h
  generalize getOwn own kind = f, (Fields.putAll fields []).lookup kind = g at hrel
  cases hrel with
  | none => exact .some .none
  | @some v b hv =>
    cases hd : documentOf b with
    | none =>
      cases v with
      | object payload =>
        obtain ⟨_, -, rfl⟩ := jsvalueToBson_object.1 hv
        exact absurd hd (by simp [documentOf])
      | _ => simp [hd]
    | some d =>
      rw [documentOf_eq.1 hd] at hv
      obtain ⟨payload, fields', rfl, hf, rfl⟩ := object_of_document hv
      rw [Option.bind_some, hd, Option.bind_some]
      exact .some (lookup_document "filter" hf)

theorem converted_filter {op : JsValue} {b : Bson} (h : jsvalueToBson parseRfc3339 op = .ok b) :
    Option.Rel (Converted parseRfc3339) (opFilter op) (bulkFilter b) := by
  by_cases hd : ∃ d, b = .document d
  · obtain ⟨d, rfl⟩ := hd
    obtain ⟨own, fields, rfl, hf, rfl⟩ := object_of_document h
    rw [bulkFilter_document, head_document hf, opFilter]
    cases own.head?.map Prod.fst with
    | none => exact .none
    | some kind =>
      rw [Option.bind_some]
      by_cases htakes : TakesFilter kind
      · simp only [if_pos htakes]
        exact converted_payload kind hf
      · simp only [if_neg htakes]
        exact .none
  · have hop : opFilter op = none := by
      cases op with
      | object own =>
        obtain ⟨_, -, rfl⟩ := jsvalueToBson_object.1 h
        exact absurd ⟨_, rfl⟩ hd
      | _ => rfl
    have hb : bulkFilter b = none := by
      cases b with
      | document d => exact absurd ⟨d, rfl⟩ hd
      | _ => rfl
    rw [hop, hb]
    exact .none

/-! ## Which writes are safe -/

variable {debug : Bson → String} {accessError : Document → String → String}

theorem sent_filter {op : Bson} {c : Command} (hc : bulkOp debug accessError op = .ok (some c))
    (hgiven : FilterGiven op) (hempty : c.filter = some []) : bulkFilter op = some (some (.document [])) := by
  rw [bulkOp_filter hc] at hempty
  obtain ⟨f, hf, hd⟩ := Option.map_eq_some_iff.1 hempty
  obtain ⟨d, rfl⟩ := hgiven f hf
  rw [hf, ← hd]
  rfl

theorem bulk_safe {server : List (Nat × Command) → Command → Except String Unit} {ops : List JsValue} {bops : List Bson}
    (hconv : listToBson parseRfc3339 ops = .ok bops) (hg : GuardedOps bops) :
    let r := bulkLoop debug accessError server 0 [] bops
    (∀ i op f, ops[i]? = some op → opFilter op = some f → BadFilter parseRfc3339 f →
      (∀ s ∈ r.1, s.1 < i) ∧ ∃ e, r.2 = .error e) ∧
    ∀ s ∈ r.1, s.2.filter = some [] → ∃ op, ops[s.1]? = some op ∧ opFilter op = some (some (.object [])) := by
  intro r
  -- An operation without its filter is not got to.
  have ended : ∀ {i b}, bops[i]? = some b → ¬ FilterGiven b → (∀ s ∈ r.1, s.1 < i) ∧ ∃ e, r.2 = .error e := by
    intro i b hb hf
    obtain ⟨j, b', hj, hat, hend⟩ := GuardedOps.ended hf hg hb
    obtain ⟨herr, hsent⟩ := @stops_at debug accessError server b' hend bops 0 j [] hat
    refine ⟨fun s hs => ?_, herr⟩
    rcases hsent s hs with h | h
    · cases h
    · omega
  constructor
  · intro i op f hop hf hbad
    obtain ⟨b, hb, hbop⟩ := rel_some_left (hop ▸ converted_get hconv i)
    refine ended hb fun hgiven => ?_
    obtain ⟨g, hg', hfg⟩ := rel_some_left (hf ▸ converted_filter hbop)
    exact (badFilter_iff hfg).1 hbad (hgiven g hg')
  · intro s hs hempty
    rcases sent_from bops 0 [] hs with h | ⟨j, b, hj, hb, hc⟩
    · cases h
    · have hpos : s.1 = j := by omega
      by_cases hgiven : FilterGiven b
      · obtain ⟨op, hop, hbop⟩ := rel_some_right (hb ▸ converted_get hconv j)
        obtain ⟨f, hf, hfg⟩ := rel_some_right (sent_filter hc hgiven hempty ▸ converted_filter hbop)
        exact ⟨op, hpos ▸ hop, hf ▸ congrArg some (passed_empty hfg rfl)⟩
      · have := (ended hb hgiven).1 s hs
        omega

theorem bulk_unsafe {ops : List JsValue} {bops : List Bson} (hconv : listToBson parseRfc3339 ops = .ok bops)
    (hsafe : ∀ i op f, ops[i]? = some op → opFilter op = some f → BadFilter parseRfc3339 f →
      ∀ s ∈ (bulkLoop debug accessError (fun _ _ => .ok ()) 0 [] bops).1, s.1 < i) : GuardedOps bops := by
  by_contra hg
  obtain ⟨j, b, hb, hbefore, hcomplete, hnot⟩ := GuardedOps.reached hg
  obtain ⟨op, hop, hbop⟩ := rel_some_right (hb ▸ converted_get hconv j)
  rw [FilterGiven] at hnot
  push Not at hnot
  obtain ⟨g, hg', hnone⟩ := hnot
  obtain ⟨f, hf, hfg⟩ := rel_some_right (hg' ▸ converted_filter hbop)
  have hbad : BadFilter parseRfc3339 f := (badFilter_iff hfg).2 (not_exists.2 hnone)
  obtain ⟨r, hr⟩ := (bulkOp_ok debug accessError).2 hcomplete
  cases r with
  | none => exact absurd hg' (by rw [bulkFilter_of_skipped hr]; simp)
  | some c =>
    have hlt := hsafe j op f hop hf hbad _ (accepted_sent hr bops 0 j [] hb hbefore)
    simp at hlt

theorem dispatchSync_request (hm : method ≠ .bulkWrite) :
    dispatchSync debug accessError server coll method args =
      match request debug coll method args with
      | .error e => ([], .error e)
      | .ok c => ([(0, c)], server [] c) := by
  unfold dispatchSync
  split
  · exact absurd rfl hm
  · rfl

theorem dispatchSync_bulk {server : List (Nat × Command) → Command → Except String Unit} {coll : String}
    {args ops : List Bson} (h : args.head? = some (.array ops)) :
    dispatchSync debug accessError server coll .bulkWrite args = bulkLoop debug accessError server 0 [] ops := by
  unfold dispatchSync
  rw [h]

theorem single_safe_iff (hm : method ≠ .bulkWrite)
    (hconv : listToBson parseRfc3339 args = .ok bs) :
    SafeCall parseRfc3339 method args (dispatchSync debug accessError server coll method bs) ↔
      (Complete method bs → ∃ d, bs.head? = some (.document d)) := by
  have hbad := badFilter_iff (converted_head hconv)
  rw [SafeCall, if_neg hm, dispatchSync_request hm, ← request_ok debug coll]
  cases hr : request debug coll method bs with
  | error e => simp [Refused]
  | ok c =>
    constructor
    · rintro ⟨hrefused, -⟩ -
      by_contra hnone
      exact absurd (hrefused (hbad.2 hnone)).1 (by simp)
    · intro hdoc
      obtain ⟨d, hd⟩ := hdoc ⟨c, rfl⟩
      refine ⟨fun h => absurd ⟨d, hd⟩ (hbad.1 h), fun s hs hempty => ?_⟩
      obtain rfl := List.mem_singleton.1 hs
      rw [request_filter hr, filterArg, docArg_eq.2 (by rwa [← List.head?_eq_getElem?])] at hempty
      obtain rfl : d = [] := by simpa using hempty
      exact passed_empty (converted_head hconv) hd

/-- **A bad filter stops the write exactly in the guarded calls.** -/
theorem write_safe_iff (debug : Bson → String) (accessError : Document → String → String)
    (parseRfc3339 : String → Option Int64) (coll : String) (method : WriteMethod) (args : List JsValue) :
    (∀ server, SafeCall parseRfc3339 method args (callDb debug accessError server parseRfc3339 coll method args)) ↔
      Guarded parseRfc3339 method args := by
  cases hconv : listToBson parseRfc3339 args with
  | error e => simp [callDb, hconv, Guarded, SafeCall, Refused]
  | ok bs =>
    simp only [callDb, hconv, Guarded, Except.ok.injEq, forall_eq']
    by_cases hm : method = .bulkWrite
    · subst hm
      simp only [forall_const, ne_eq, not_true, false_implies, and_true]
      constructor
      · intro hsafe ops hops
        obtain ⟨v, hv, hconv'⟩ := rel_some_right (hops ▸ converted_head hconv)
        obtain ⟨elems, rfl, helems⟩ := array_of_array hconv'
        have hrun := (hsafe fun _ _ => .ok ()) elems hv
        rw [dispatchSync_bulk hops] at hrun
        exact bulk_unsafe helems fun i op f hop hf hbad => (hrun.1 i op f hop hf hbad).1
      · intro hg server elems helems
        obtain ⟨b, hb, hconv'⟩ := rel_some_left (helems ▸ converted_head hconv)
        obtain ⟨ops, hops, rfl⟩ := jsvalueToBson_array.1 hconv'
        rw [dispatchSync_bulk hb]
        exact bulk_safe hops (hg ops hb)
    · simp only [single_safe_iff hm hconv, forall_const]
      simp [hm]

/-- `db.users.deleteMany(undefined)` deletes everything. -/
theorem undefined_filter_deletes_all : ¬ SafeCall (fun _ => none) .deleteMany [.undefined]
    (callDb (fun _ => "") (fun _ _ => "") (fun _ _ => .ok ()) (fun _ => none) "users" .deleteMany [.undefined]) := by
  rintro ⟨h, -⟩
  exact absurd (h (.inl rfl)).1 (by decide)

end

end Shell
