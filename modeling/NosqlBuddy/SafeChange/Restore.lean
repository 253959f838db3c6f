import NosqlBuddy.Lib.Aligned
import NosqlBuddy.SafeChange.PlanJson

/-!
# Rolling back a whole operation

`rollback_restores`: for an operation all of whose documents were captured, the plan takes the collection back to
its documents, where the plan can say so (`Invertible`, `Carried`).

| kept out by `Invertible` | what the plan does there |
| --- | --- |
| another operator than `$set` and `$unset` | writes `__rollback_note` |
| a path to unset that a captured document does not have | sets it to null |
| a path to set below documents that are not there | leaves the empty documents |
| a path through an array | unsets the element, which becomes null |
| deleteOne of one of several documents | inserts documents that are still there |
-/

namespace SafeChange
open Oplog (Bson Document)
open Mongo (splitPath)
open Paths (look view act Rooted Apart SameFields)

/-! ## What the operation leaves -/

/-- Every path the update unsets is there. -/
def UnsetPresent (update d : Document) : Prop :=
  ∀ u ∈ fieldUpdates update, u.2 = none → (look (splitPath u.1) (Bson.document d)).isSome

/-- No array stands above a path that is not there. -/
def MissingClear (update d : Document) : Prop :=
  ∀ u ∈ fieldUpdates update, look (splitPath u.1) (Bson.document d) = none → Clear d (splitPath u.1)

/-- Above every path the update sets there are documents. -/
def SetRooted (update d : Document) : Prop := ∀ u ∈ fieldUpdates update, u.2.isSome → Rooted d (splitPath u.1)

theorem undoable_self (hunset : UnsetPresent update d) (hclear : MissingClear update d) :
    Undoable update d d := ⟨fun _ _ => rfl, hunset, hclear, rfl⟩

theorem SetRooted.missingClear (h : SetRooted update d) (hunset : UnsetPresent update d) :
    MissingClear update d := by
  intro u hu hnone
  cases hval : u.2 with
  | some v => exact clear_of_rooted (h u hu (by rw [hval]; rfl))
  | none =>
    have := hunset u hu hval
    rw [hnone] at this
    cases this

theorem applyUpdate_some (hset : SetOrUnset update)
    (h : applyUpdate server update d = some d') : update ≠ [] ∧ Acceptable (fieldUpdates update) ∧
      (fieldUpdates update).foldlM updateField d = some d' ∧ d'.lookup "_id" = d.lookup "_id" := by
  rw [applyUpdate, runUpdate, if_pos hset] at h
  obtain ⟨x, hx, hkeeps⟩ := Option.bind_eq_some_iff.1 h
  split at hx
  · next hok =>
    split at hkeeps
    · next hid =>
      obtain rfl := Option.some.inj hkeeps
      exact ⟨hok.1, hok.2, hx, server.keepsId_iff.1 hid⟩
    · cases hkeeps
  · cases hx

theorem undoable_updated (hset : SetOrUnset update)
    (hunset : UnsetPresent update d) (hroot : SetRooted update d) (h : applyUpdate server update d = some d') :
    Undoable update d d' := by
  obtain ⟨-, hok, hrun, hid⟩ := applyUpdate_some hset h
  have hwritable : ∀ u ∈ fieldUpdates update, Writable d u := by
    intro u hu
    unfold Writable
    split
    · next hsome => exact hroot u hu hsome
    · next hnone =>
      obtain ⟨v, hv⟩ := Option.isSome_iff_exists.1 (hunset u hu (by simpa using hnone))
      exact clear_of_rooted (rooted_of_look hv)
  rw [foldlM_updateField hwritable hok.2] at hrun
  refine ⟨fun q hq => ?_, hunset, hroot.missingClear hunset, hid⟩
  have happart : ((fieldUpdates update).map FieldUpdate.action).Pairwise fun a b => Apart a.1 b.1 :=
    List.pairwise_map.2 hok.2
  rw [← Option.some.inj hrun]
  refine (Paths.view_runActions ((fieldUpdates update).map FieldUpdate.action) d ?_ happart ?_ q).2 ?_
  · exact List.forall_mem_map.2 fun u _ => Mongo.splitPath_ne_nil u.1
  · exact List.forall_mem_map.2 fun u hu hsome => hroot u hu hsome
  · exact List.forall_mem_map.2 fun u hu => hq u hu

/-! ## One document of the collection -/

theorem changeFirst_only {R R' : Document → Document → Prop} {p : Document → Bool} {f : Document → Option Document}
    {d₀ : Document} {c cur : Collection} (hall : List.Forall₂ R c cur) (hnodup : c.Nodup) (hmem : d₀ ∈ c)
    (hp : ∀ d ∈ c, ∀ e, R d e → (p e = true ↔ d = d₀)) (hf : ∀ e, R d₀ e → ∃ r, f e = some r ∧ R' d₀ r)
    (hkeep : ∀ d ∈ c, ∀ e, d ≠ d₀ → R d e → R' d e) :
    ∃ cur', changeFirst p f cur = some cur' ∧ List.Forall₂ R' c cur' := by
  induction hall with
  | nil => cases hmem
  | @cons d e c cur hde hall ih =>
    rw [List.nodup_cons] at hnodup
    by_cases hd : d = d₀
    · subst hd
      obtain ⟨r, hr, hr'⟩ := hf e hde
      refine ⟨r :: cur, ?_, .cons hr' ?_⟩
      · rw [changeFirst, if_pos ((hp d List.mem_cons_self e hde).2 rfl), hr, Option.map_some]
      · exact Aligned.imp_mem hall fun d' hd' e' => hkeep d' (List.mem_cons_of_mem d hd') e' fun h => hnodup.1 (h ▸ hd')
    · obtain ⟨cur', hcur', hall'⟩ := ih hnodup.2 (List.mem_of_ne_of_mem (Ne.symm hd) hmem)
        (fun d' hd' => hp d' (List.mem_cons_of_mem d hd')) (fun d' hd' => hkeep d' (List.mem_cons_of_mem d hd'))
      have hnot : p e = false := by
        rw [Bool.eq_false_iff]
        exact fun h => hd ((hp d List.mem_cons_self e hde).1 h)
      refine ⟨e :: cur', ?_, .cons (hkeep d List.mem_cons_self e hd hde) hall'⟩
      rw [changeFirst, if_neg (by simp [hnot]), hcur', Option.map_some]

theorem changeFirst_some : ∀ {c c' : Collection},
    changeFirst p f c = some c' → List.Forall₂ (fun d e => e = d ∨ p d = true ∧ c.find? p = some d ∧ f d = some e) c c'
  | [], c', h => by
    obtain rfl := Option.some.inj h
    exact .nil
  | d :: c, c', h => by
    rw [changeFirst] at h
    by_cases hd : p d = true
    · rw [if_pos hd] at h
      obtain ⟨e, he, rfl⟩ := Option.map_eq_some_iff.1 h
      exact .cons (.inr ⟨hd, by rw [List.find?_cons, hd], he⟩) (List.forall₂_same.2 fun x _ => .inl rfl)
    · rw [if_neg hd] at h
      obtain ⟨c'', hc, rfl⟩ := Option.map_eq_some_iff.1 h
      refine .cons (.inl rfl) ((changeFirst_some hc).imp fun x y hxy => ?_)
      rw [List.find?_cons_of_neg hd]
      exact hxy

theorem changeFirst_accepted :
    ∀ {c c' : Collection}, changeFirst p f c = some c' → c.find? p = some d → ∃ e, f d = some e
  | [], _, _, hd => by cases hd
  | x :: c, c', h, hd => by
    rw [changeFirst] at h
    by_cases hx : p x = true
    · rw [if_pos hx] at h
      rw [List.find?_cons_of_pos hx] at hd
      obtain ⟨e, he, -⟩ := Option.map_eq_some_iff.1 h
      exact ⟨e, Option.some.inj hd ▸ he⟩
    · rw [if_neg hx] at h
      rw [List.find?_cons_of_neg hx] at hd
      obtain ⟨c'', hc, -⟩ := Option.map_eq_some_iff.1 h
      exact changeFirst_accepted hc hd

theorem changeAll_some : ∀ {c c' : Collection},
    changeAll p f c = some c' → List.Forall₂ (fun d e => if p d then f d = some e else e = d) c c'
  | [], c', h => by
    obtain rfl : [] = c' := by simpa [changeAll] using h
    exact .nil
  | d :: c, c', h => by
    rw [changeAll, List.mapM_cons] at h
    obtain ⟨e, he, h⟩ := Option.bind_eq_some_iff.1 h
    obtain ⟨c'', hc, h⟩ := Option.bind_eq_some_iff.1 h
    obtain rfl := Option.some.inj h
    refine .cons ?_ (changeAll_some hc)
    split at he
    · next hp => rwa [if_pos hp]
    · next hp =>
      rw [if_neg hp]
      exact (Option.some.inj he).symm

/-! ## Rolling back an update -/

section
variable {server : Server} {codec : PlanCodec} {c : Collection}

theorem selects_id_iff (hunique : UniqueIds server c) {d₀ d e : Document} {id : Bson} (h₀ : d₀ ∈ c) (hd : d ∈ c)
    (hid : d₀.lookup "_id" = some id) (hsame : e.lookup "_id" = d.lookup "_id") :
    server.selects [("_id", id)] e = true ↔ d = d₀ := by
  rw [server.selects_id hsame]
  exact ⟨hunique.eq_of_selects d₀ h₀ d hd id hid, fun h => h ▸ hunique.selects_self d₀ h₀ id hid⟩

/-- Restored documents, and those still to be restored. -/
def Restoring (update : Document) (todo : Document → Prop) (d e : Document) : Prop :=
  e.lookup "_id" = d.lookup "_id" ∧ (todo d → Undoable update d e) ∧ (¬ todo d → SameDocument e d)

theorem restore_one (hunique : UniqueIds server c) (hset : SetOrUnset update) (hok : Acceptable (fieldUpdates update)) (hsome : fieldUpdates update ≠ [])
    (hcarry : codec.Carries (.document d₀)) (h₀ : d₀ ∈ c) (htodo : todo d₀)
    (hall : List.Forall₂ (Restoring update todo) c cur) :
    ∃ op cur', inverseOf codec.write update d₀ = some op ∧ runOperation server codec.read cur op = some cur' ∧
      List.Forall₂ (Restoring update fun d => todo d ∧ d ≠ d₀) c cur' := by
  obtain ⟨id, hid⟩ := hunique.has_id d₀ h₀
  obtain ⟨hinvset, hperm⟩ := @inverse_spec update d₀ hset hok
  have hne : applyInverseUpdate d₀ update ≠ [] := by
    intro hnil
    rw [hnil] at hperm
    exact hsome (List.map_eq_nil_iff.1 hperm.symm.eq_nil)
  have hundo : ∃ e, Undoable update d₀ e := by
    obtain ⟨i, hi, rfl⟩ := List.getElem_of_mem h₀
    exact ⟨_, (hall.get hi (hall.length_eq ▸ hi)).2.1 htodo⟩
  obtain ⟨e₀, he₀⟩ := hundo
  have hread := codec.read_write (carries_inverse codec hset hok he₀ hcarry)
  have hreadId := codec.read_write (carries_id codec (carries_lookup codec hcarry hid))
  obtain ⟨cur', hrun, hall'⟩ := @changeFirst_only (Restoring update todo)
    (Restoring update fun d => todo d ∧ d ≠ d₀) (server.selects [("_id", id)])
    (applyUpdate server (applyInverseUpdate d₀ update)) d₀ c cur hall hunique.nodup h₀
    (fun d hd e hde => selects_id_iff hunique h₀ hd hid hde.1)
    (fun e he => by
      obtain ⟨r, hr, hsame, hrid⟩ := @inverse_restores server update d₀ e hset hok hsome (he.2.1 htodo)
      exact ⟨r, hr, hrid, fun h => absurd rfl h.2, fun _ => hsame⟩)
    (fun d _ e hd hde => ⟨hde.1, fun h => hde.2.1 h.1, fun h => hde.2.2 fun ht => h ⟨ht, hd⟩⟩)
  refine ⟨_, cur', by rw [inverseOf, hid]; exact if_neg hne, ?_, hall'⟩
  rw [runOperation, hreadId, hread]
  exact hrun

theorem restore_all (hunique : UniqueIds server c) {update : Document} (hset : SetOrUnset update)
    (hok : Acceptable (fieldUpdates update)) (hsome : fieldUpdates update ≠ []) :
    ∀ {docs : List Document} {todo : Document → Prop} {cur : Collection}, docs.Nodup →
      (∀ d ∈ docs, d ∈ c ∧ todo d ∧ codec.Carries (.document d)) →
      List.Forall₂ (Restoring update todo) c cur →
      ∃ ops cur', docs.filterMap (inverseOf codec.write update) = ops ∧ ops.length = docs.length ∧
        ops.foldlM (runOperation server codec.read) cur = some cur' ∧
        List.Forall₂ (Restoring update fun d => todo d ∧ d ∉ docs) c cur'
  | [], todo, cur, _, _, hall => ⟨[], cur, rfl, rfl, rfl, hall.imp fun d e h =>
      ⟨h.1, fun ht => h.2.1 ht.1, fun ht => h.2.2 fun htodo => ht ⟨htodo, List.not_mem_nil⟩⟩⟩
  | d₀ :: docs, todo, cur, hnodup, hdocs, hall => by
    rw [List.nodup_cons] at hnodup
    obtain ⟨h₀, htodo, hcarry⟩ := hdocs d₀ List.mem_cons_self
    obtain ⟨op, cur₁, hop, hrun, hall₁⟩ := restore_one hunique hset hok hsome hcarry h₀ htodo hall
    obtain ⟨ops, cur', hops, hlen, hruns, hall'⟩ := restore_all hunique hset hok hsome hnodup.2
      (fun d hd => by
        obtain ⟨hmem, ht, hc⟩ := hdocs d (List.mem_cons_of_mem d₀ hd)
        exact ⟨hmem, ⟨ht, fun h => hnodup.1 (h ▸ hd)⟩, hc⟩) hall₁
    refine ⟨op :: ops, cur', by rw [List.filterMap_cons_some hop, hops], by simp [hlen], ?_, ?_⟩
    · rw [List.foldlM_cons, hrun]
      exact hruns
    · refine hall'.imp fun d e h => ⟨h.1, fun ht => h.2.1 ?_, fun ht => h.2.2 fun hnot => ht ?_⟩
      · exact ⟨⟨ht.1, fun heq => ht.2 (heq ▸ List.mem_cons_self)⟩, fun hd => ht.2 (List.mem_cons_of_mem d₀ hd)⟩
      · exact ⟨hnot.1.1, fun hd => (List.mem_cons.1 hd).elim hnot.1.2 hnot.2⟩

/-! ## Updates without a path -/

/-- Only operators without fields. -/
def EmptyUpdate (update : Document) : Prop := ∀ f ∈ update, (f.1 = "$set" ∨ f.1 = "$unset") ∧ f.2 = .document []

theorem emptyUpdate_of_none (hset : SetOrUnset update) (h : fieldUpdates update = []) :
    EmptyUpdate update := by
  induction update with
  | nil => exact fun f hf => by cases hf
  | cons f us ih =>
    rw [fieldUpdates_cons, List.append_eq_nil_iff] at h
    have hus := ih (fun g hg => hset g (List.mem_cons_of_mem f hg)) h.2
    intro g hg
    rcases List.mem_cons.1 hg with rfl | hg
    · obtain ⟨hop, hdoc⟩ := hset g List.mem_cons_self
      obtain ⟨fields, hfields⟩ := Option.isSome_iff_exists.1 hdoc
      refine ⟨hop, ?_⟩
      obtain ⟨op, v⟩ := g
      obtain rfl := asDocument_eq.1 hfields
      have hnil : fieldUpdates [(op, .document fields)] = [] := h.1
      rcases hop with hop | hop
      · obtain rfl : op = "$set" := hop
        rw [fieldUpdates_set, List.map_eq_nil_iff] at hnil
        rw [hnil]
      · obtain rfl : op = "$unset" := hop
        rw [fieldUpdates_unset, List.map_eq_nil_iff] at hnil
        rw [hnil]
    · exact hus g hg

theorem EmptyUpdate.setOrUnset (h : EmptyUpdate update) : SetOrUnset update :=
  fun f hf => ⟨(h f hf).1, by rw [(h f hf).2]; rfl⟩

theorem EmptyUpdate.fieldUpdates (h : EmptyUpdate update) : fieldUpdates update = [] := by
  induction update with
  | nil => rfl
  | cons f us ih =>
    obtain ⟨op, v⟩ := f
    obtain ⟨hop, rfl⟩ : (op = "$set" ∨ op = "$unset") ∧ v = .document [] := h (op, v) List.mem_cons_self
    rw [fieldUpdates_cons, ih fun g hg => h g (List.mem_cons_of_mem _ hg), List.append_nil]
    rcases hop with rfl | rfl
    · exact fieldUpdates_set []
    · exact fieldUpdates_unset []

theorem EmptyUpdate.carries (h : EmptyUpdate update) : codec.Carries (.document update) := by
  refine codec.carries_document.2 fun f hf => ?_
  obtain ⟨hop, hv⟩ := h f hf
  refine ⟨?_, hv ▸ codec.carries_document.2 fun g hg => by cases hg⟩
  rcases hop with hop | hop <;> rw [hop] <;> decide

theorem emptyUpdate_entry (hop : op = "$set" ∨ op = "$unset")
    (h : EmptyUpdate inverse) : EmptyUpdate (entryUnder op inverse) ∧ entryUnder op inverse ≠ [] := by
  rw [entryUnder]
  split
  · next v hv =>
    exact ⟨h, fun hnil => by rw [hnil] at hv; cases hv⟩
  · refine ⟨fun f hf => ?_, Fields.put_ne_nil _ _ _⟩
    rcases Fields.mem_put hf with rfl | hf
    · exact ⟨hop, rfl⟩
    · exact h f hf

theorem invertUpdateMetadata_empty (h : EmptyUpdate update) (hne : update ≠ []) :
    EmptyUpdate (invertUpdateMetadata update) ∧ invertUpdateMetadata update ≠ [] := by
  have hstep : ∀ {inverse : Document} {f : String × Bson}, EmptyUpdate inverse → f ∈ update →
      EmptyUpdate (metadataOperator inverse f.1 f.2) ∧ metadataOperator inverse f.1 f.2 ≠ [] := by
    intro inverse f hinv hf
    obtain ⟨hop, hv⟩ := h f hf
    rw [hv]
    rcases hop with hop | hop
    · rw [hop, metadataOperator, if_pos rfl]
      exact emptyUpdate_entry (.inr rfl) hinv
    · rw [hop, metadataOperator, if_neg (by decide), if_pos rfl]
      exact emptyUpdate_entry (.inl rfl) hinv
  have hfold : ∀ (us : Document) (inverse : Document), us ⊆ update → EmptyUpdate inverse →
      (us ≠ [] ∨ inverse ≠ []) →
      EmptyUpdate (us.foldl (fun inverse f => metadataOperator inverse f.1 f.2) inverse) ∧
        us.foldl (fun inverse f => metadataOperator inverse f.1 f.2) inverse ≠ [] := by
    intro us
    induction us with
    | nil => exact fun inverse _ hinv hor => ⟨hinv, hor.resolve_left fun h => h rfl⟩
    | cons f us ih =>
      intro inverse hsub hinv _
      obtain ⟨hempty, hnonempty⟩ := hstep hinv (hsub List.mem_cons_self)
      exact ih _ (fun g hg => hsub (List.mem_cons_of_mem f hg)) hempty (.inr hnonempty)
  exact hfold update [] (List.Subset.refl _) (fun f hf => by cases hf) (.inl hne)

theorem applyUpdate_empty (h : EmptyUpdate update) (hne : update ≠ []) :
    applyUpdate server update d = some d := by
  have hok : Acceptable [] := ⟨fun u hu => (by cases hu), List.Pairwise.nil⟩
  rw [applyUpdate, runUpdate, if_pos h.setOrUnset, h.fieldUpdates, if_pos ⟨hne, hok⟩]
  exact if_pos (server.keepsId_iff.2 rfl)

theorem changeAll_self {p : Document → Bool} {f : Document → Option Document} (h : ∀ d, f d = some d) :
    ∀ c : Collection, changeAll p f c = some c
  | [] => rfl
  | d :: c => by
    have := @changeAll_self p f h c
    rw [changeAll] at this ⊢
    rw [List.mapM_cons, this, h d, ite_self]
    rfl

theorem empty_plan_run (hset : SetOrUnset update) (hne : update ≠ []) (hnone : fieldUpdates update = [])
    (hfilter : codec.Carries (.document filter)) :
    runPlan server codec.read (updatePlan codec.write filter docs update) cur = some cur := by
  have hempty := emptyUpdate_of_none hset hnone
  obtain ⟨hinv, hinvne⟩ := invertUpdateMetadata_empty hempty hne
  have hops : docs.filterMap (inverseOf codec.write update) = [] := by
    refine List.filterMap_eq_nil_iff.2 fun d _ => ?_
    rw [inverseOf, applyInverseUpdate_eq hset, hnone]
    split <;> rfl
  rw [updatePlan, hops, runPlan, Plan.operations, List.foldlM_cons, runOperation, codec.read_write hfilter,
    codec.read_write (hinv.carries)]
  change (changeAll _ _ cur).bind _ = _
  rw [changeAll_self (fun d => applyUpdate_empty hinv hinvne) cur]
  rfl

/-! ## Rolling back a delete and a replacement -/

theorem sameDocument_refl (d : Document) : SameDocument d d := fun _ => rfl

theorem insertMany_run (hunique : UniqueIds server c) : ∀ {docs cur : Collection}, (cur ++ docs).Nodup →
    (∀ d ∈ cur ++ docs, d ∈ c) → docs.foldlM (insertOne server) cur = some (cur ++ docs)
  | [], cur, _, _ => by
    rw [List.append_nil]
    rfl
  | d :: docs, cur, hnodup, hsub => by
    have hd : d ∈ c := hsub d (by simp)
    obtain ⟨id, hid⟩ := hunique.has_id d hd
    have hfree : cur.any (server.selects [("_id", id)]) = false := by
      rw [List.any_eq_false]
      intro e he hsel
      have heq := hunique.eq_of_selects d hd e (hsub e (by simp [he])) id hid hsel
      exact (List.nodup_append.1 hnodup).2.2 e he d List.mem_cons_self heq
    have hins : insertOne server cur d = some (cur ++ [d]) := by
      rw [insertOne, hid]
      simp [hfree]
    rw [List.foldlM_cons, hins]
    change docs.foldlM (insertOne server) (cur ++ [d]) = _
    rw [insertMany_run hunique (by simpa using hnodup) (fun e he => hsub e (by simpa using he)), List.append_assoc]
    rfl

theorem mapM_read {docs : List Document} (h : ∀ d ∈ docs, codec.Carries (.document d)) :
    (docs.map codec.write).mapM codec.read = some docs := by
  induction docs with
  | nil => rfl
  | cons d docs ih =>
    rw [List.map_cons, List.mapM_cons, codec.read_write (h d List.mem_cons_self),
      ih fun e he => h e (List.mem_cons_of_mem d he)]
    rfl

theorem delete_restored (hunique : UniqueIds server c) (hperm : (rest ++ docs).Perm c)
    (hcarry : ∀ d ∈ docs, codec.Carries (.document d)) :
    ∃ c'', runPlan server codec.read (deletePlan codec.write docs) rest = some c'' ∧ SameDocuments c'' c := by
  have hrun : docs.foldlM (insertOne server) rest = some (rest ++ docs) :=
    insertMany_run hunique (hperm.nodup_iff.2 hunique.nodup) fun d hd => hperm.mem_iff.1 hd
  refine ⟨rest ++ docs, ?_, c, hperm, List.forall₂_same.2 fun d _ => sameDocument_refl d⟩
  cases docs with
  | nil =>
    rw [List.append_nil]
    rfl
  | cons d docs =>
    have hread := @mapM_read codec (d :: docs) hcarry
    rw [deletePlan, runPlan, Plan.operations, List.foldlM_cons, runOperation, hread]
    · change ((d :: docs).foldlM (insertOne server) rest).bind _ = _
      rw [hrun]
      rfl
    · exact List.cons_ne_nil d docs

theorem sameDocument_replaced {d : Document} {id : Bson} (hid : d.lookup "_id" = some id) :
    SameDocument (("_id", id) :: Fields.erase "_id" d) d := by
  intro q
  cases q with
  | nil => rfl
  | cons k ks =>
    rw [view_document, view_document, Fields.lookup_cons, Fields.lookup_erase]
    by_cases hk : k = "_id"
    · rw [if_pos hk, hk, hid]
    · rw [if_neg hk, if_neg hk]

theorem replace_restored (hunique : UniqueIds server c) {filter replacement : Document} {c' : Collection}
    (happly : changeFirst (server.selects filter) (replaceDocument server replacement) c = some c')
    {d₀ : Document} {docs : List Document} (hcaptured : c.filter (server.selects filter) = d₀ :: docs)
    (hcarry : codec.Carries (.document d₀)) :
    ∃ c'', runPlan server codec.read (replacePlan codec.write filter (d₀ :: docs)) c' = some c'' ∧
      SameDocuments c'' c := by
  have hfind : c.find? (server.selects filter) = some d₀ := by
    rw [← List.head?_filter, hcaptured, List.head?_cons]
  have h₀ : d₀ ∈ c := List.mem_of_find?_eq_some hfind
  obtain ⟨id, hid⟩ := hunique.has_id d₀ h₀
  -- Every document has its `_id` still, and only the replaced one has changed.
  have hall : List.Forall₂ (fun d e => e.lookup "_id" = d.lookup "_id" ∧ (d ≠ d₀ → e = d)) c c' := by
    refine (changeFirst_some happly).imp fun d e h => ?_
    rcases h with rfl | ⟨-, hd, he⟩
    · exact ⟨rfl, fun _ => rfl⟩
    · obtain rfl := Option.some.inj (hfind.symm.trans hd)
      simp only [replaceDocument, hid, Option.ite_none_right_eq_some, Option.some.injEq] at he
      obtain ⟨-, rfl⟩ := he
      exact ⟨by rw [Fields.lookup_cons, if_pos rfl, hid], fun h => absurd rfl h⟩
  obtain ⟨c'', hrun, hsame⟩ := @changeFirst_only _ (fun d e => SameDocument e d) (server.selects [("_id", id)])
    (replaceDocument server d₀) d₀ c c' hall hunique.nodup h₀
    (fun d hd e hde => selects_id_iff hunique h₀ hd hid hde.1)
    (fun e he => by
      have heid : e.lookup "_id" = some id := he.1.trans hid
      refine ⟨("_id", id) :: Fields.erase "_id" d₀, ?_, sameDocument_replaced hid⟩
      rw [replaceDocument, heid]
      exact if_pos (.inr (server.keepsId_iff.2 (hid.trans heid.symm))))
    (fun d _ e hd hde => by
      rw [hde.2 hd]
      exact sameDocument_refl d)
  refine ⟨c'', ?_, c'', List.Perm.refl _, ?_⟩
  · rw [replacePlan, hid, runPlan, Plan.operations, List.foldlM_cons, runOperation,
      codec.read_write (carries_id codec (carries_lookup codec hcarry hid)), codec.read_write hcarry]
    change (changeFirst _ _ c').bind _ = _
    rw [hrun]
    rfl
  · exact hsame.flip

/-! ## Every operation -/

variable (server) in
/-- The documents a filter selects. -/
def selected (c : Collection) (filter : Document) : List Document := c.filter (server.selects filter)

variable (server) in
/-- The operations whose plan can take them back. -/
def Invertible (c : Collection) : WriteOperation → Prop
  | .updateOne filter update => SetOrUnset update ∧
      (∀ d ∈ selected server c filter, UnsetPresent update d ∧ MissingClear update d) ∧
      ∀ d, (selected server c filter).head? = some d → SetRooted update d
  | .updateMany filter update => SetOrUnset update ∧
      ∀ d ∈ selected server c filter, UnsetPresent update d ∧ SetRooted update d
  | .deleteOne filter => (selected server c filter).length = 1
  | .deleteMany _ => True
  | .replaceOne _ _ => True

variable (server codec) in
/-- JSON carries the values of the captured documents, and the filter where an update has no path. -/
def Carried (c : Collection) (op : WriteOperation) : Prop :=
  (∀ d ∈ selected server c op.filter, codec.Carries (.document d)) ∧
    ∀ update, op.change = some update → fieldUpdates update = [] → codec.Carries (.document op.filter)

theorem mem_selected : d ∈ selected server c filter ↔ d ∈ c ∧ server.selects filter d = true :=
  List.mem_filter

theorem update_restored (hunique : UniqueIds server c) (hset : SetOrUnset update) (hne : update ≠ []) (hok : Acceptable (fieldUpdates update))
    (hcaptured : selected server c filter ≠ [])
    (hcarry : ∀ d ∈ selected server c filter, codec.Carries (.document d))
    (hfilter : fieldUpdates update = [] → codec.Carries (.document filter))
    (hall : List.Forall₂ (Restoring update fun d => server.selects filter d = true) c c') :
    ∃ c'', runPlan server codec.read (updatePlan codec.write filter (selected server c filter) update) c' = some c'' ∧
      SameDocuments c'' c := by
  by_cases hnone : fieldUpdates update = []
  · refine ⟨c', empty_plan_run hset hne hnone (hfilter hnone), c', List.Perm.refl _, List.Forall₂.flip ?_⟩
    refine hall.imp fun d e h => ?_
    by_cases hsel : server.selects filter d = true
    · exact fun q => (h.2.1 hsel).same_elsewhere q (by rw [hnone]; exact fun u hu => by cases hu)
    · exact h.2.2 hsel
  · obtain ⟨ops, c'', hops, hlen, hrun, hall'⟩ := @restore_all server codec c hunique update hset hok hnone
      (selected server c filter) _ c' (hunique.nodup.filter _)
      (fun d hd => ⟨(mem_selected.1 hd).1, (mem_selected.1 hd).2, hcarry d hd⟩) hall
    refine ⟨c'', ?_, c'', List.Perm.refl _, List.Forall₂.flip ?_⟩
    · rw [updatePlan, hops]
      cases ops with
      | nil => exact absurd (List.length_eq_zero_iff.1 hlen.symm) hcaptured
      | cons op ops => exact hrun
    · exact Aligned.imp_mem hall' fun d hd e h => h.2.2 fun hnot => hnot.2 (mem_selected.2 ⟨hd, hnot.1⟩)

theorem restoring_updateMany (hset : SetOrUnset update)
    (hdocs : ∀ d ∈ selected server c filter, UnsetPresent update d ∧ SetRooted update d)
    (happly : changeAll (server.selects filter) (applyUpdate server update) c = some c') :
    List.Forall₂ (Restoring update fun d => server.selects filter d = true) c c' := by
  refine Aligned.imp_mem (changeAll_some happly) fun d hd e h => ?_
  by_cases hsel : server.selects filter d = true
  · rw [if_pos hsel] at h
    obtain ⟨hunset, hroot⟩ := hdocs d (mem_selected.2 ⟨hd, hsel⟩)
    have hundo := undoable_updated hset hunset hroot h
    exact ⟨hundo.same_id, fun _ => hundo, fun hnot => absurd hsel hnot⟩
  · rw [if_neg hsel] at h
    rw [h]
    exact ⟨rfl, fun h => absurd h hsel, fun _ => sameDocument_refl d⟩

theorem restoring_updateOne (hset : SetOrUnset update)
    (hdocs : ∀ d ∈ selected server c filter, UnsetPresent update d ∧ MissingClear update d)
    (hfirst : ∀ d, (selected server c filter).head? = some d → SetRooted update d)
    (happly : changeFirst (server.selects filter) (applyUpdate server update) c = some c') :
    List.Forall₂ (Restoring update fun d => server.selects filter d = true) c c' := by
  refine Aligned.imp_mem (changeFirst_some happly) fun d hd e h => ?_
  rcases h with heq | ⟨hsel, hfind, he⟩
  · rw [heq]
    refine ⟨rfl, fun hsel => ?_, fun _ => sameDocument_refl d⟩
    obtain ⟨hunset, hclear⟩ := hdocs d (mem_selected.2 ⟨hd, hsel⟩)
    exact undoable_self hunset hclear
  · have hroot := hfirst d (by rw [selected, List.head?_filter, hfind])
    have hundo := undoable_updated hset (hdocs d (mem_selected.2 ⟨hd, hsel⟩)).1 hroot he
    exact ⟨hundo.same_id, fun _ => hundo, fun hnot => absurd hsel hnot⟩

theorem perm_eraseP : ∀ {c : Collection}, c.find? p = some d →
    c.Perm (d :: c.eraseP p)
  | [], h => by cases h
  | x :: c, h => by
    by_cases hx : p x = true
    · rw [List.find?_cons_of_pos hx] at h
      rw [List.eraseP_cons_of_pos hx, Option.some.inj h]
    · rw [List.find?_cons_of_neg hx] at h
      rw [List.eraseP_cons_of_neg hx]
      exact ((perm_eraseP h).cons x).trans (List.Perm.swap d x _)

/-- **The plan takes the operation back.** -/
theorem plan_restores (hunique : UniqueIds server c) (happly : op.apply server c = some c') (hcaptured : selected server c op.filter ≠ [])
    (hinv : Invertible server c op) (hcarried : Carried server codec c op) (hplan : rollbackPlan codec.write op.kind op.filter (selected server c op.filter) op.change = some plan) :
    ∃ c'', runPlan server codec.read plan c' = some c'' ∧ SameDocuments c'' c := by
  obtain ⟨hcarry, hfilter⟩ := hcarried
  obtain ⟨d₀, docs, hdocs⟩ := List.exists_cons_of_ne_nil hcaptured
  have hfind : c.find? (server.selects op.filter) = some d₀ := by
    rw [← List.head?_filter]
    exact congrArg List.head? hdocs
  cases op with
  | updateOne filter update =>
    obtain rfl := Option.some.inj hplan
    obtain ⟨hset, hall, hfirst⟩ := hinv
    obtain ⟨e, he⟩ := changeFirst_accepted happly hfind
    obtain ⟨hne, hok, -⟩ := applyUpdate_some hset he
    exact update_restored hunique hset hne hok hcaptured hcarry (hfilter update rfl)
      (restoring_updateOne hset hall hfirst happly)
  | updateMany filter update =>
    obtain rfl := Option.some.inj hplan
    obtain ⟨hset, hall⟩ := hinv
    have h₀ := mem_selected.1 (hdocs ▸ List.mem_cons_self : d₀ ∈ selected server c filter)
    obtain ⟨e, -, he⟩ := Aligned.exists_right (changeAll_some happly) h₀.1
    have hsel : server.selects filter d₀ = true := h₀.2
    rw [if_pos hsel] at he
    obtain ⟨hne, hok, -⟩ := applyUpdate_some hset he
    exact update_restored hunique hset hne hok hcaptured hcarry (hfilter update rfl)
      (restoring_updateMany hset hall happly)
  | deleteOne filter =>
    obtain rfl := Option.some.inj hplan
    obtain rfl := Option.some.inj happly
    refine delete_restored hunique ?_ hcarry
    have hone : selected server c filter = [d₀] := by
      have hlen : (selected server c filter).length = 1 := hinv
      rw [show selected server c filter = d₀ :: docs from hdocs] at hlen ⊢
      obtain rfl : docs = [] := by simpa using hlen
      rfl
    change ((c.eraseP (server.selects filter)) ++ selected server c filter).Perm c
    rw [hone]
    exact (List.perm_append_singleton d₀ _).trans (perm_eraseP hfind).symm
  | deleteMany filter =>
    obtain rfl := Option.some.inj hplan
    obtain rfl := Option.some.inj happly
    refine delete_restored hunique ?_ hcarry
    exact List.perm_append_comm.trans (List.filter_append_perm (server.selects filter) c)
  | replaceOne filter replacement =>
    obtain rfl := Option.some.inj hplan
    change ∃ c'', runPlan server codec.read (replacePlan codec.write filter (selected server c filter)) c' = some c'' ∧ _
    have hd : d₀ ∈ selected server c filter := hdocs ▸ List.mem_cons_self
    rw [show selected server c filter = d₀ :: docs from hdocs]
    exact replace_restored hunique happly hdocs (hcarry d₀ hd)

/-! ## From the preview -/

/-- The preview asks this server about this collection. -/
structure Previews (env : PreviewEnv) (server : Server) (codec : PlanCodec) (c : Collection) : Prop where
  count : ∀ filter, env.countDocuments filter = .ok (selected server c filter).length
  find : ∀ filter limit, env.find filter limit =
    .ok (if limit = 0 then selected server c filter else (selected server c filter).take limit)
  write : env.bsonDocToJson = codec.write

/-- The request is for the operation. -/
structure Requests (env : PreviewEnv) (req : SafeChangePreviewRequest) (op : WriteOperation) : Prop where
  kind : req.kind = op.kind
  filter : ∀ parsed, parseOptionalDoc env (some req.filterJson) = .ok parsed → parsed.getD [] = op.filter
  change : ∀ updateDoc replacementDoc, parseOptionalDoc env req.updateJson = .ok updateDoc →
    parseOptionalDoc env req.replacementJson = .ok replacementDoc → op.change.isSome →
      updateDoc.or replacementDoc = op.change

theorem preview_plan (henv : Previews env server codec c) (hreq : Requests env req op)
    (hpreview : previewOperation env req = .ok preview) (hfull : preview.rollbackLevel = .full) :
    selected server c op.filter ≠ [] ∧ ∃ plan, preview.rollbackScript = plan.toJson.pretty 0 ∧
      rollbackPlan codec.write op.kind op.filter (selected server c op.filter) op.change = some plan := by
  simp only [previewOperation, Fallible.bind_ok, Fallible.pure_ok] at hpreview
  obtain ⟨parsed, hparsed, count, hcount, docs, hdocs, updateDoc, hupdate, replacementDoc, hreplacement, _, hshow,
    rfl⟩ := hpreview
  rw [hreq.filter parsed hparsed] at hcount hdocs ⊢
  obtain rfl := Except.ok.inj ((henv.count op.filter).symm.trans hcount)
  have hlevel : rollbackLevelOf (selected server c op.filter).length = .full := hfull
  obtain ⟨hpos, hlimit⟩ : (selected server c op.filter).length ≠ 0 ∧ (selected server c op.filter).length ≤ 100 := by
    rw [rollbackLevelOf, rollbackCaptureLimit] at hlevel
    by_cases h0 : (selected server c op.filter).length = 0
    · simp [h0] at hlevel
    · by_cases h100 : (selected server c op.filter).length ≤ 100
      · exact ⟨h0, h100⟩
      · simp [h0, h100] at hlevel
  obtain rfl : selected server c op.filter = docs := by
    rw [henv.find, rollbackCaptureLimit, if_neg (by omega), List.take_of_length_le (by omega)] at hdocs
    exact Except.ok.inj hdocs
  obtain ⟨plan, -, hplan⟩ := plan_of_shown op.filter (selected server c op.filter) hshow
  refine ⟨fun h => hpos (by rw [h]; rfl), plan, ?_, ?_⟩
  · rw [generateRollbackScript, hplan]
  · rw [hreq.kind, henv.write] at hplan
    rw [← hplan]
    have hchange := hreq.change updateDoc replacementDoc hupdate hreplacement
    cases op with
    | deleteOne | deleteMany => rfl
    | updateOne | updateMany | replaceOne => rw [hchange rfl]

end

/-! ## Two users -/

/-- What the demo writes as it is. -/
def plainValue : Bson → Prop
  | .null | .boolean _ | .string _ => True
  | .document fields => ∀ f ∈ fields, f.1 ∉ reservedKeys
  | _ => False

mutual

def writeValue : Bson → Json
  | .boolean b => .bool b
  | .string s => .string s
  | .document fields => .object (writeFields fields)
  | _ => .null

def writeFields : List (String × Bson) → List (String × Json)
  | [] => []
  | (k, v) :: fs => (k, writeValue v) :: writeFields fs

end

mutual

def readValue : Json → Bson
  | .bool b => .boolean b
  | .string s => .string s
  | .object members => .document (readMembers members)
  | _ => .null

def readMembers : List (String × Json) → List (String × Bson)
  | [] => []
  | (k, v) :: fs => (k, readValue v) :: readMembers fs

end

mutual

theorem readValue_write : ∀ {v : Bson}, v.Everywhere plainValue → readValue (writeValue v) = v
  | .null, _ => rfl
  | .boolean _, _ => rfl
  | .string _, _ => rfl
  | .document fields, h => by
    rw [writeValue, readValue, readMembers_write (Bson.everywhere_document.1 h).2]

theorem readMembers_write : ∀ {fs : List (String × Bson)}, (∀ f ∈ fs, f.2.Everywhere plainValue) →
    readMembers (writeFields fs) = fs
  | [], _ => rfl
  | (k, v) :: fs, h => by
    rw [writeFields, readMembers, readValue_write (h (k, v) List.mem_cons_self),
      readMembers_write fun f hf => h f (List.mem_cons_of_mem _ hf)]

end

def demoCodec : PlanCodec where
  write := fun d => .object (writeFields d)
  read := fun j => asDocument? (readValue j)
  Carries := Bson.Everywhere plainValue
  carries_document := by
    intro fields
    rw [Bson.everywhere_document]
    exact ⟨fun h f hf => ⟨h.1 f hf, h.2 f hf⟩, fun h => ⟨fun f hf => (h f hf).1, fun f hf => (h f hf).2⟩⟩
  carries_string := fun s => trivial
  read_write := by
    intro fields h
    exact asDocument_eq.2 (readValue_write h)

/-- A filter is empty or for the `_id`. -/
def demoSelects (filter d : Document) : Bool :=
  match filter with
  | [] => true
  | (_, id) :: _ =>
    match id, d.lookup "_id" with
    | .string s, some (.string t) => s == t
    | _, _ => false

open Classical in
noncomputable def demoServer : Server where
  selects := demoSelects
  keepsId := fun d d' => decide (d'.lookup "_id" = d.lookup "_id")
  otherUpdate := fun _ _ => none
  keepsId_iff := decide_eq_true_iff
  selects_id := by
    intro id d e h
    change (match id, d.lookup "_id" with | .string s, some (.string t) => s == t | _, _ => false) = _
    rw [h]
    rfl

def userNamed (id : String) : Document := [("_id", .string id), ("status", .string "active")]

def demoUsers : Collection := [userNamed "u1", userNamed "u2"]

theorem demo_unique : UniqueIds demoServer demoUsers where
  nodup := by
    have hne : userNamed "u1" ≠ userNamed "u2" := fun h => absurd (congrArg (List.lookup "_id") h) (by
      simp [userNamed])
    simp [demoUsers, hne]
  has_id := by
    intro d hd
    rcases List.mem_pair.1 hd with rfl | rfl
    · exact ⟨_, rfl⟩
    · exact ⟨_, rfl⟩
  selects_self := by
    intro d hd id hid
    rcases List.mem_pair.1 hd with rfl | rfl
    · obtain rfl := Option.some.inj hid
      decide
    · obtain rfl := Option.some.inj hid
      decide
  eq_of_selects := by
    intro d hd e he id hid hsel
    rcases List.mem_pair.1 hd with rfl | rfl <;> rcases List.mem_pair.1 he with rfl | rfl <;>
      obtain rfl := Option.some.inj hid
    · rfl
    · exact absurd hsel (by decide)
    · exact absurd hsel (by decide)
    · rfl

def demoFilter : Document := [("_id", .string "u1")]

def demoUpdate : Document := [("$set", .document [("status", .string "trial")])]

noncomputable def demoPreviewEnv : PreviewEnv where
  parseFilter := fun s => if s = "filter" then .ok demoFilter else .ok demoUpdate
  isBlank := fun _ => false
  bsonDocToJson := demoCodec.write
  countDocuments := fun filter => .ok (selected demoServer demoUsers filter).length
  find := fun filter limit =>
    .ok (if limit = 0 then selected demoServer demoUsers filter else (selected demoServer demoUsers filter).take limit)
  showDocuments := fun _ => .ok ()
  showUpdate := fun _ _ => .ok ()

def trialRequest : SafeChangePreviewRequest :=
  ⟨"shop", "users", .updateOne, "filter", some "update", none, none⟩

noncomputable def trialPreview : SafeChangePreview :=
  ⟨.updateOne, 1, generateRollbackScript demoCodec.write .updateOne demoFilter [userNamed "u1"] (some demoUpdate), .full⟩

theorem trial_paths : fieldUpdates demoUpdate = [("status", some (.string "trial"))] := fieldUpdates_set _

theorem trial_path : splitPath "status" = ["status"] := by decide

theorem trial_setOrUnset : SetOrUnset demoUpdate := by
  intro f hf
  obtain rfl := List.mem_singleton.1 hf
  exact ⟨.inl rfl, rfl⟩

theorem trial_acceptable : Acceptable (fieldUpdates demoUpdate) := by
  rw [trial_paths]
  refine ⟨fun u hu => ?_, List.pairwise_singleton _ _⟩
  obtain rfl := List.mem_singleton.1 hu
  rw [trial_path]
  decide

theorem trial_applied : (WriteOperation.updateOne demoFilter demoUpdate).apply demoServer demoUsers =
    some [[("_id", .string "u1"), ("status", .string "trial")], userNamed "u2"] := by
  have hone : applyUpdate demoServer demoUpdate (userNamed "u1") =
      some [("_id", .string "u1"), ("status", .string "trial")] := by
    have hfield : (fieldUpdates demoUpdate).foldlM updateField (userNamed "u1") =
        some [("_id", .string "u1"), ("status", .string "trial")] := by
      rw [trial_paths, List.foldlM_cons, updateField, trial_path]
      rfl
    rw [applyUpdate, runUpdate, if_pos trial_setOrUnset, if_pos ⟨List.cons_ne_nil _ _, trial_acceptable⟩, hfield]
    exact if_pos (demoServer.keepsId_iff.2 rfl)
  change (applyUpdate demoServer demoUpdate (userNamed "u1")).map (· :: [userNamed "u2"]) = _
  rw [hone]
  rfl

theorem trial_invertible : Invertible demoServer demoUsers (.updateOne demoFilter demoUpdate) := by
  have hroot : ∀ d, SetRooted demoUpdate d := by
    intro d u hu _
    rw [trial_paths] at hu
    obtain rfl := List.mem_singleton.1 hu
    intro q hq hne
    rw [trial_path] at hq hne
    rcases List.prefix_cons_iff.1 hq with rfl | ⟨r, rfl, hr⟩
    · exact Paths.view_nil d
    · rw [List.prefix_nil.1 hr] at hne
      exact absurd rfl hne
  have hunset : ∀ d, UnsetPresent demoUpdate d := by
    intro d u hu hnone
    rw [trial_paths] at hu
    obtain rfl := List.mem_singleton.1 hu
    cases hnone
  exact ⟨trial_setOrUnset, fun d _ => ⟨hunset d, (hroot d).missingClear (hunset d)⟩, fun d _ => hroot d⟩

theorem trial_carried : Carried demoServer demoCodec demoUsers (.updateOne demoFilter demoUpdate) := by
  constructor
  · intro d hd
    obtain rfl : d = userNamed "u1" := List.mem_singleton.1 hd
    refine demoCodec.carries_document.2 fun f hf => ?_
    rcases List.mem_pair.1 hf with rfl | rfl
    · exact ⟨(by decide : "_id" ∉ reservedKeys), trivial⟩
    · exact ⟨(by decide : "status" ∉ reservedKeys), trivial⟩
  · intro update hupdate hnone
    obtain rfl := Option.some.inj hupdate
    rw [trial_paths] at hnone
    cases hnone

theorem trial_requests : Requests demoPreviewEnv trialRequest (.updateOne demoFilter demoUpdate) where
  kind := rfl
  filter := by
    rintro parsed h
    obtain rfl := Except.ok.inj h
    rfl
  change := by
    rintro updateDoc replacementDoc h h' -
    obtain rfl := Except.ok.inj h
    obtain rfl := Except.ok.inj h'
    rfl

theorem trial_preview : previewOperation demoPreviewEnv trialRequest = .ok trialPreview := rfl

end SafeChange
