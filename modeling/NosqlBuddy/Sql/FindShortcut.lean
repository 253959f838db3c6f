import NosqlBuddy.Mongo.Pipeline
import NosqlBuddy.Sql.Translate
import NosqlBuddy.Sql.Where

/-!
# The find shortcut against the pipeline

Next to the pipeline `translate_select` builds a find from the same clauses. A find filters, sorts, skips, limits and
projects; the pipeline projects before `HAVING` and the sort, and takes `LIMIT n OFFSET m` in that order.
-/

namespace Sql
open Mongo
open Mongo.Value
open Warned

variable {sv : Server} {db : Collections} {today : ℤ}

/-! ## Pages -/

theorem take_drop_eq_iff {α : Type} {l : List α} {n m : ℕ} (hn : 0 < n) :
    (l.take n).drop m = (l.drop m).take n ↔ m = 0 ∨ l.length ≤ n ∨ l.length ≤ m := by
  constructor
  · intro h
    have hlen := congrArg List.length h
    simp only [List.length_drop, List.length_take] at hlen
    omega
  · rintro (rfl | h | h)
    · simp
    · rw [List.take_of_length_le h, List.take_of_length_le (by rw [List.length_drop]; omega)]
    · rw [List.drop_eq_nil_of_le h, List.drop_eq_nil_of_le (by rw [List.length_take]; omega), List.take_nil]

theorem countOf_natCast (n : ℕ) : countOf (.num ((n : ℤ) : ℚ)) = some n := by
  simp [countOf]

theorem countOf_neg {n : ℤ} (h : n < 0) : countOf (.num (n : ℚ)) = none := by
  simp [countOf, h]

theorem intOf_intCast (n : ℤ) : intOf (.num (n : ℚ)) = some n := by
  simp [intOf]

theorem run_limit (n : ℤ) (docs : List Doc) :
    runStage sv db "$limit" (.num (n : ℚ)) docs = if 1 ≤ n then some (docs.take n.toNat) else none := by
  rw [runStage_limit]
  rcases lt_or_ge n 0 with h | h
  · rw [countOf_neg h, if_neg (by omega)]
    rfl
  · obtain ⟨k, rfl⟩ := Int.eq_ofNat_of_zero_le h
    rw [countOf_natCast, Option.bind_some]
    rcases Nat.eq_zero_or_pos k with rfl | hk
    · rfl
    · rw [if_neg (by omega), if_pos (by omega), Int.toNat_natCast]

theorem run_skip {m : ℤ} (h : 0 ≤ m) (docs : List Doc) :
    runStage sv db "$skip" (.num (m : ℚ)) docs = some (docs.drop m.toNat) := by
  obtain ⟨k, rfl⟩ := Int.eq_ofNat_of_zero_le h
  rw [runStage_skip, countOf_natCast, Int.toNat_natCast]
  rfl

/-- What the limits of a page have to be for the find and the pipeline to give the same documents: a positive count,
and in `LIMIT n OFFSET m` one of the two without effect. -/
def PageFits (clause : Option LimitClause) (page : Paging) (count : ℕ) : Prop :=
  (∀ n, page.limit = some n → 1 ≤ n) ∧
  match clause with
  | some (.limitOffset _ _ _) => ∀ n m, page.limit = some n → page.skip = some m → m = 0 ∨ count ≤ n ∨ count ≤ m
  | _ => True

theorem optionally_returns {α β : Type} {f : α → Warned β} {a : Option α} {r : Option β}
    (h : Returns (optionally f a) r) : (r = none ∧ a = none) ∨ ∃ x y, a = some x ∧ r = some y ∧ Returns (f x) y := by
  cases a with
  | none => exact .inl ⟨(pure_returns.1 h).symm, rfl⟩
  | some x =>
    obtain ⟨y, hy, h⟩ := bind_returns.1 h
    exact .inr ⟨x, y, rfl, (pure_returns.1 h).symm, hy⟩

theorem exprToU64_nonneg {e : SqlExpr} {m : ℤ} (h : Returns (exprToU64 today e) m) : 0 ≤ m := by
  obtain ⟨v, -, h⟩ := bind_returns.1 h
  split at h
  · rw [← pure_returns.1 h]
    exact le_max_left _ _
  · exact absurd h fail_returns

/-- The stages of a page, by the clause it comes from. -/
def pageStages (clause : Option LimitClause) (limit skip : Option ℤ) : List Value :=
  let limits := limit.toList.map fun (n : ℤ) => stage "$limit" (.num n)
  let skips := skip.toList.map fun (m : ℤ) => stage "$skip" (.num m)
  match clause with
  | some (.limitOffset _ _ _) => limits ++ skips
  | _ => skips ++ limits

theorem paging_returns {clause : Option LimitClause} {page : Paging} (h : Returns (paging today clause) page) :
    page.stages = pageStages clause page.limit page.skip ∧ ∀ m, page.skip = some m → 0 ≤ m := by
  cases clause with
  | none =>
    rw [← pure_returns.1 h]
    exact ⟨rfl, fun m hm => absurd hm (by simp)⟩
  | some c =>
    cases c with
    | limitOffset limit offset limitBy =>
      obtain ⟨-, -, h⟩ := bind_returns.1 h
      obtain ⟨n, -, h⟩ := bind_returns.1 h
      obtain ⟨m, hm, h⟩ := bind_returns.1 h
      rw [← pure_returns.1 h]
      refine ⟨rfl, fun k hk => ?_⟩
      rcases optionally_returns hm with ⟨rfl, -⟩ | ⟨x, y, -, rfl, hy⟩
      · exact absurd hk (by simp)
      · exact Option.some.inj hk ▸ exprToU64_nonneg hy
    | offsetCommaLimit offset limit =>
      obtain ⟨m, hm, h⟩ := bind_returns.1 h
      obtain ⟨n, -, h⟩ := bind_returns.1 h
      rw [← pure_returns.1 h]
      exact ⟨rfl, fun k hk => Option.some.inj hk ▸ exprToU64_nonneg hm⟩

/-- The documents left by an optional limit. -/
def limitTo (limit : Option ℤ) (docs : List Doc) : List Doc :=
  match limit with
  | none => docs
  | some n => docs.take n.toNat

/-- The documents of a page, limited before or after they are skipped. -/
def pageOf (clause : Option LimitClause) (limit skip : Option ℤ) (docs : List Doc) : List Doc :=
  match clause with
  | some (.limitOffset _ _ _) => (limitTo limit docs).drop (skip.getD 0).toNat
  | _ => limitTo limit (docs.drop (skip.getD 0).toNat)

theorem run_limits (limit : Option ℤ) (docs : List Doc) :
    runPipeline sv db (limit.toList.map fun (n : ℤ) => stage "$limit" (.num n)) docs =
      if ∀ n, limit = some n → 1 ≤ n then some (limitTo limit docs) else none := by
  cases limit with
  | none => rw [if_pos (by simp)]; rfl
  | some n =>
    show (runStage sv db "$limit" (.num (n : ℚ)) docs).bind _ = _
    rw [run_limit]
    by_cases h : 1 ≤ n
    · rw [if_pos h, if_pos (by simpa using h)]
      rfl
    · rw [if_neg h, if_neg (by simpa using h)]
      rfl

theorem run_skips {skip : Option ℤ} (hskip : ∀ m, skip = some m → 0 ≤ m) (docs : List Doc) :
    runPipeline sv db (skip.toList.map fun (m : ℤ) => stage "$skip" (.num m)) docs =
      some (docs.drop (skip.getD 0).toNat) := by
  cases skip with
  | none => rfl
  | some m =>
    show (runStage sv db "$skip" (.num (m : ℚ)) docs).bind _ = _
    rw [run_skip (hskip m rfl)]
    rfl

theorem run_pageStages (hskip : ∀ m, skip = some m → 0 ≤ m)
    (docs : List Doc) :
    runPipeline sv db (pageStages clause limit skip) docs =
      if ∀ n, limit = some n → 1 ≤ n then some (pageOf clause limit skip docs) else none := by
  unfold pageStages pageOf
  split
  · rw [runPipeline_append, run_limits]
    split
    · rw [Option.bind_some, run_skips hskip]
    · rfl
  · rw [runPipeline_append, run_skips hskip, Option.bind_some, run_limits]

/-- The documents of a page of a find. -/
def findPage (limit skip : Option ℤ) (docs : List Doc) : List Doc :=
  match limit with
  | none => docs.drop (skip.getD 0).toNat
  | some n => limitDocs n (docs.drop (skip.getD 0).toNat)

theorem findPage_eq_iff {clause : Option LimitClause} {page : Paging} {docs : List Doc}
    (hpos : ∀ n, page.limit = some n → 1 ≤ n) (hskip : ∀ m, page.skip = some m → 0 ≤ m) :
    findPage page.limit page.skip docs = pageOf clause page.limit page.skip docs ↔
      PageFits clause page docs.length := by
  have limited : ∀ (n : ℤ) (docs : List Doc), page.limit = some n → limitDocs n docs = docs.take n.toNat := by
    intro n docs hn
    have := hpos n hn
    rw [limitDocs, if_neg (by omega)]
    congr 1
    omega
  have plain : findPage page.limit page.skip docs = limitTo page.limit (docs.drop (page.skip.getD 0).toNat) := by
    unfold findPage limitTo
    split
    · rfl
    · next n hn => exact limited n _ hn
  rw [plain]
  unfold pageOf PageFits
  split
  · rw [and_iff_right hpos]
    cases hl : page.limit with
    | none => simp [limitTo]
    | some n =>
      have hn := hpos n hl
      rw [eq_comm, show (limitTo (some n) docs).drop (page.skip.getD 0).toNat =
        (docs.take n.toNat).drop (page.skip.getD 0).toNat from rfl,
        show limitTo (some n) (docs.drop (page.skip.getD 0).toNat) =
        (docs.drop (page.skip.getD 0).toNat).take n.toNat from rfl, take_drop_eq_iff (by omega)]
      cases hs : page.skip with
      | none => simp
      | some m =>
        have hm := hskip m hs
        rw [Option.getD_some]
        constructor
        · rintro h _ _ ⟨⟩ ⟨⟩
          omega
        · intro h
          have := h n m rfl rfl
          omega
  · exact ⟨fun _ => ⟨hpos, trivial⟩, fun _ => rfl⟩

/-! ## The shortcut -/

/-- The sort keys of the pipeline and of the find. -/
def sortBy (p : SelectParts) (docs : List Doc) : Option (List Doc) := sortOption p.sort docs

/-- The projection of one document. -/
def projectBy (sv : Server) (p : SelectParts) (d : Doc) : Option Doc :=
  match p.shape.2 with
  | some (.doc spec) => projectDoc sv spec d
  | _ => some d

/-- `HAVING` on one projected document. -/
def havingHolds (sv : Server) (p : SelectParts) (d : Doc) : Prop :=
  ∀ f, stage "$match" f ∈ p.having → satisfies sv f d = some true

/-- What the pipeline does between `WHERE` and the page leaves the documents and their order alone: every document has a
projection, `HAVING` is true on it, and it sorts as the document does. -/
structure Transparent (sv : Server) (p : SelectParts) (docs : List Doc) : Prop where
  projected : ∀ d ∈ docs, ∃ e, projectBy sv p d = some e ∧ havingHolds sv p e
  sorted : ∀ spec, p.sort = some (.doc spec) → validSort spec = true ∧
    ∀ a ∈ docs, ∀ b ∈ docs, ∀ a' b', projectBy sv p a = some a' → projectBy sv p b = some b' →
      ((compareBy spec a b).isLE ↔ (compareBy spec a' b').isLE)

theorem mapDocs_eq (h : ∀ d ∈ docs, f d = some (g d)) :
    mapDocs f docs = some (docs.map g) := by
  induction docs with
  | nil => rfl
  | cons d ds ih =>
    rw [mapDocs, h d List.mem_cons_self, ih fun x hx => h x (List.mem_cons_of_mem d hx)]
    rfl

theorem filterDocs_all (h : ∀ d ∈ docs, test d = some true) :
    filterDocs test docs = some docs := by
  induction docs with
  | nil => rfl
  | cons d ds ih =>
    rw [filterDocs, h d List.mem_cons_self, ih fun x hx => h x (List.mem_cons_of_mem d hx)]
    rfl

theorem shapeStages_returns (h : Returns (shapeStages today distinct keys projection) shape) :
    shape = ([], none) ∨ (∃ spec, spec ≠ [] ∧ shape = ([stage "$project" (.doc spec)], some (.doc spec))) ∨
    ∃ g rest, shape = (stage "$group" g :: rest, none) := by
  unfold shapeStages at h
  split at h
  · obtain ⟨key, -, h⟩ := bind_returns.1 h
    exact .inr (.inr ⟨_, _, (pure_returns.1 h).symm⟩)
  · split at h
    · obtain ⟨g, -, h⟩ := bind_returns.1 h
      exact .inr (.inr ⟨_, _, (pure_returns.1 h).symm⟩)
    · obtain ⟨project, -, h⟩ := bind_returns.1 h
      split at h
      · exact .inl (pure_returns.1 h).symm
      · next hne => exact .inr (.inl ⟨project, by simpa using hne, (pure_returns.1 h).symm⟩)

theorem havingStages_returns (h : Returns (havingStages today having) stages) : stages = [] ∨ ∃ f, stages = [stage "$match" f] := by
  cases having with
  | none => exact .inl (pure_returns.1 h).symm
  | some e =>
    obtain ⟨v, -, h⟩ := bind_returns.1 h
    exact .inr ⟨_, (pure_returns.1 h).symm⟩

theorem queryParts_returns (h : Returns (queryParts today q) p) :
    (∃ select twj projection distinct keys, Returns (unwrapQueryBody q.body) select ∧ Returns (fromTable select.from_) twj ∧
      Returns (tableFactorName twj.relation) p.collection ∧ Returns (buildJoins twj.joins) p.joins ∧
      Returns (convertProjection select.projection) projection ∧ Returns (whereFilter today select.selection) p.filter ∧
      Returns (groupByExprs select.groupBy) keys ∧ Returns (shapeStages today distinct keys projection) p.shape ∧
      Returns (isDistinct select.distinct) distinct ∧
      Returns (havingStages today select.having) p.having) ∧
    Returns (orderItems q.orderBy) p.order ∧ Returns (paging today q.limitClause) p.page := by
  obtain ⟨-, -, h⟩ := bind_returns.1 h
  obtain ⟨select, hsel, h⟩ := bind_returns.1 h
  obtain ⟨twj, htwj, h⟩ := bind_returns.1 h
  obtain ⟨collection, hcol, h⟩ := bind_returns.1 h
  obtain ⟨js, hjs, h⟩ := bind_returns.1 h
  obtain ⟨projection, hproj, h⟩ := bind_returns.1 h
  obtain ⟨filter, hfil, h⟩ := bind_returns.1 h
  obtain ⟨distinct, hdis, h⟩ := bind_returns.1 h
  obtain ⟨keys, hkeys, h⟩ := bind_returns.1 h
  obtain ⟨shape, hshape, h⟩ := bind_returns.1 h
  obtain ⟨having, hhav, h⟩ := bind_returns.1 h
  obtain ⟨order, hord, h⟩ := bind_returns.1 h
  obtain ⟨page, hpage, h⟩ := bind_returns.1 h
  obtain rfl := pure_returns.1 h
  exact ⟨⟨select, twj, projection, distinct, keys, hsel, htwj, hcol, hjs, hproj, hfil, hkeys, hshape, hdis, hhav⟩, hord,
    hpage⟩

/-- A query with a shortcut has a filter and no joins, and is not grouped. -/
structure FindShape (p : SelectParts) (filter : Value) : Prop where
  filter_eq : p.filter = some filter
  joins_eq : p.joins = []
  shape_eq : p.shape = ([], none) ∨ ∃ spec, spec ≠ [] ∧ p.shape = ([stage "$project" (.doc spec)], some (.doc spec))
  having_eq : p.having = [] ∨ ∃ f, p.having = [stage "$match" f]

theorem findShape (h : Returns (queryParts today q) p) (hf : p.find = some f) :
    ∃ filter, FindShape p filter ∧ f = findDocument filter p.shape.2 p.sort p.page := by
  obtain ⟨⟨select, twj, projection, distinct, keys, -, -, -, -, -, -, -, hshape, -, hhav⟩, -, -⟩ := queryParts_returns h
  unfold SelectParts.find at hf
  split at hf
  · next filter hfil =>
    split at hf
    · next hall =>
      rw [List.all_eq_true] at hall
      refine ⟨filter, ⟨hfil, ?_, ?_, havingStages_returns hhav⟩, (Option.some.inj hf).symm⟩
      · cases hj : p.joins with
        | nil => rfl
        | cons j js =>
          have hmem : stage "$lookup" (.doc [("from", .str j.collection), ("localField", .str j.localField),
              ("foreignField", .str j.foreignField), ("as", .str j.asName)]) ∈ p.stages := by
            unfold SelectParts.stages
            rw [hj]
            have hin : stage "$lookup" (.doc [("from", .str j.collection), ("localField", .str j.localField),
                ("foreignField", .str j.foreignField), ("as", .str j.asName)]) ∈ joinToLookup j := by
              unfold joinToLookup
              cases j.kind <;> exact List.mem_cons_self
            simp [hin]
          exact absurd (hall _ hmem) (by simp [looksLikeFind, stage, List.lookup_cons])
      · rcases shapeStages_returns hshape with hs | hs | ⟨g, rest, hs⟩
        · exact .inl hs
        · exact .inr hs
        · have hmem : stage "$group" g ∈ p.stages := by
            unfold SelectParts.stages
            rw [hs]
            simp
          exact absurd (hall _ hmem) (by simp [looksLikeFind, stage, List.lookup_cons])
    · exact absurd hf (by simp)
  · exact absurd hf (by simp)

/-- The stages between `WHERE` and the page, when they are transparent: the sorted documents, projected. -/
theorem run_middle {p : SelectParts} {filter : Value} {sel : List Doc} (hp : FindShape p filter)
    (ht : Transparent sv p sel) :
    ∃ (g : Doc → Doc) (ranked : List Doc), (∀ d ∈ sel, projectBy sv p d = some (g d)) ∧ ranked.Perm sel ∧
      sortBy p sel = some ranked ∧
      runPipeline sv db (p.shape.1 ++ p.having ++ p.sort.toList.map (stage "$sort")) sel = some (ranked.map g) := by
  have hg : ∀ d ∈ sel, projectBy sv p d = some ((projectBy sv p d).getD []) := by
    intro d hd
    obtain ⟨e, he, -⟩ := ht.projected d hd
    rw [he]
    rfl
  generalize hgdef : (fun d => (projectBy sv p d).getD []) = g
  have hg : ∀ d ∈ sel, projectBy sv p d = some (g d) := by
    rw [← hgdef]
    exact hg
  have hproj : runPipeline sv db p.shape.1 sel = some (sel.map g) := by
    rcases hp.shape_eq with h | ⟨spec, -, h⟩
    · have hid : ∀ d ∈ sel, g d = d := by
        intro d hd
        have := hg d hd
        simp only [projectBy, h] at this
        exact (Option.some.inj this).symm
      rw [h, List.map_congr_left hid, List.map_id'' (fun _ => rfl)]
      rfl
    · rw [h]
      have hd : ∀ d ∈ sel, projectDoc sv spec d = some (g d) := by
        intro d hd
        have := hg d hd
        simp only [projectBy, h] at this
        exact this
      show (mapDocs (projectDoc sv spec) sel).bind _ = _
      rw [mapDocs_eq hd]
      rfl
  have hhav : runPipeline sv db p.having (sel.map g) = some (sel.map g) := by
    rcases hp.having_eq with h | ⟨f, h⟩
    · rw [h]
      rfl
    · rw [h]
      have hall : ∀ d ∈ sel.map g, satisfies sv f d = some true := by
        intro d hd
        obtain ⟨a, ha, rfl⟩ := List.mem_map.1 hd
        obtain ⟨e, he, hh⟩ := ht.projected a ha
        rw [hg a ha] at he
        rw [Option.some.inj he]
        exact hh f (by rw [h]; exact List.mem_singleton_self _)
      show (filterDocs (satisfies sv f) (sel.map g)).bind _ = _
      rw [filterDocs_all hall]
      rfl
  cases hs : p.sort with
  | none =>
    refine ⟨g, sel, hg, .refl _, by simp [sortBy, hs, sortOption], ?_⟩
    rw [runPipeline_append, runPipeline_append, hproj, Option.bind_some, hhav]
    rfl
  | some v =>
    obtain ⟨spec, hspec⟩ : ∃ spec, v = .doc spec := by
      unfold SelectParts.sort at hs
      split at hs
      · exact absurd hs (by simp)
      · exact ⟨_, (Option.some.inj hs).symm⟩
    subst hspec
    obtain ⟨hvalid, hord⟩ := ht.sorted spec hs
    have hne : spec ≠ [] := by
      rintro rfl
      exact absurd hvalid (by decide)
    have hsort : sortOption (some (.doc spec)) = sortDocs spec := by
      funext docs
      cases spec with
      | nil => exact absurd rfl hne
      | cons f fs => rfl
    refine ⟨g, sel.insertionSort fun a b => (compareBy spec a b).isLE, hg, List.perm_insertionSort _ _, ?_, ?_⟩
    · rw [sortBy, hs, hsort, sortDocs, if_pos hvalid]
    · rw [runPipeline_append, runPipeline_append, hproj, Option.bind_some, hhav, Option.bind_some]
      show (sortDocs spec (sel.map g)).bind _ = _
      have hmap : (sel.insertionSort fun a b => (compareBy spec a b).isLE).map g =
          (sel.map g).insertionSort fun a b => (compareBy spec a b).isLE :=
        List.map_insertionSort _ _ g sel fun a ha b hb => hord a ha b hb (g a) (g b) (hg a ha) (hg b hb)
      rw [sortDocs, if_pos hvalid, hmap]
      rfl

theorem findDocument_lookups (filter : Value) (projection sort limit skip : Option Value) :
    let opts : Doc := [("filter", filter)] ++ optionEntry "projection" projection ++ optionEntry "sort" sort ++
      optionEntry "limit" limit ++ optionEntry "skip" skip
    opts.lookup "filter" = some filter ∧ opts.lookup "projection" = projection ∧ opts.lookup "sort" = sort ∧
      opts.lookup "limit" = limit ∧ opts.lookup "skip" = skip := by
  cases projection <;> cases sort <;> cases limit <;> cases skip <;> exact ⟨rfl, rfl, rfl, rfl, rfl⟩

theorem run_findDocument {p : SelectParts} {filter : Value} {docs : List Doc} (hp : FindShape p filter)
    (hskip : ∀ m, p.page.skip = some m → 0 ≤ m) :
    ∃ opts, findDocument filter p.shape.2 p.sort p.page = .doc opts ∧
      runFind sv opts docs = (filterDocs (satisfies sv filter) docs).bind fun sel =>
        (sortBy p sel).bind fun ranked =>
          mapDocs (projectBy sv p) (findPage p.page.limit p.page.skip ranked) := by
  refine ⟨_, rfl, ?_⟩
  generalize hl : p.page.limit.map (fun (n : ℤ) => Value.num n) = limit
  generalize hm : p.page.skip.map (fun (m : ℤ) => Value.num m) = skip
  obtain ⟨h1, h2, h3, h4, h5⟩ := findDocument_lookups filter p.shape.2 p.sort limit skip
  have hlim : ∀ ds, limitOption limit ds = some (match p.page.limit with
      | none => ds
      | some n => limitDocs n ds) := by
    intro ds
    rw [← hl]
    cases p.page.limit with
    | none => rfl
    | some n => simp [limitOption, intOf_intCast]
  have hsk : ∀ ds, skipOption skip ds = some (ds.drop (p.page.skip.getD 0).toNat) := by
    intro ds
    rw [← hm]
    cases hs : p.page.skip with
    | none => rfl
    | some m =>
      obtain ⟨k, rfl⟩ := Int.eq_ofNat_of_zero_le (hskip m hs)
      have hk : skipOption (some (.num ((k : ℤ) : ℚ))) ds = (countOf (.num ((k : ℤ) : ℚ))).map (ds.drop ·) := rfl
      exact hk.trans (by rw [countOf_natCast]; rfl)
  have hpr : ∀ ds, projectOption sv p.shape.2 ds = mapDocs (projectBy sv p) ds := by
    intro ds
    rcases hp.shape_eq with h | ⟨spec, hne, h⟩
    · have hall : mapDocs (projectBy sv p) ds = some (ds.map id) := mapDocs_eq fun d _ => by simp [projectBy, h]
      rw [hall, h, List.map_id]
      rfl
    · have hf : projectBy sv p = projectDoc sv spec := by
        funext d
        simp [projectBy, h]
      rw [hf, h]
      cases spec with
      | nil => exact absurd rfl hne
      | cons f fs => rfl
  unfold runFind
  rw [h1, h2, h3, h4, h5]
  simp only [Option.getD_some, hsk, hlim, hpr, Option.bind_some]
  rfl

/-- **The find shortcut.** When what happens between `WHERE` and the page is transparent on the selected documents, the
find gives what the pipeline gives iff the limits of the page fit the number of selected documents. -/
theorem find_agrees_iff {database : String} {q : Query} {t : SqlTranslation} {p : SelectParts} {opts : Doc}
    (ht : Returns (translateSelect today database q) t) (hf : t.find = some (.doc opts))
    (hp : Returns (queryParts today q) p) (docs : List Doc)
    (hA : ∀ filter sel, p.filter = some filter → filterDocs (satisfies sv filter) docs = some sel →
      Transparent sv p sel) :
    Mongo.runFind sv opts docs = runPipeline sv db t.pipeline docs ↔
      ∀ filter sel, p.filter = some filter → filterDocs (satisfies sv filter) docs = some sel →
        PageFits q.limitClause p.page sel.length := by
  obtain ⟨p', hp', ht⟩ := bind_returns.1 ht
  obtain rfl := hp'.unique hp
  obtain rfl := pure_returns.1 ht
  obtain ⟨filter, hshape, hdoc⟩ := findShape hp hf
  obtain ⟨-, -, hpage⟩ := queryParts_returns hp
  obtain ⟨hstages, hskip⟩ := paging_returns hpage
  obtain ⟨opts', hopts, hrun⟩ := @run_findDocument sv _ _ docs hshape hskip
  rw [hopts] at hdoc
  injection hdoc with hdoc
  subst hdoc
  have hpipe : runPipeline sv db p'.stages docs = (filterDocs (satisfies sv filter) docs).bind fun sel =>
      (runPipeline sv db (p'.shape.1 ++ p'.having ++ p'.sort.toList.map (stage "$sort")) sel).bind
        (runPipeline sv db p'.page.stages) := by
    have hst : p'.stages = stage "$match" filter ::
        (p'.shape.1 ++ p'.having ++ p'.sort.toList.map (stage "$sort") ++ p'.page.stages) := by
      simp [SelectParts.stages, hshape.filter_eq, hshape.joins_eq]
    rw [hst]
    show (filterDocs (satisfies sv filter) docs).bind _ = _
    congr 1
    funext sel
    exact runPipeline_append _ _ _ _ _
  rw [hrun]
  show _ = runPipeline sv db p'.stages docs ↔ _
  rw [hpipe]
  cases hsel : filterDocs (satisfies sv filter) docs with
  | none =>
    simp only [Option.bind_none, true_iff]
    intro f sel hf' hs
    rw [hshape.filter_eq] at hf'
    rw [← Option.some.inj hf', hsel] at hs
    exact absurd hs (by simp)
  | some sel =>
    obtain ⟨g, ranked, hg, hperm, hsort, hmid⟩ := @run_middle _ db _ _ _ hshape (hA filter sel hshape.filter_eq hsel)
    have hmap : ∀ ds, (∀ d ∈ ds, d ∈ ranked) → mapDocs (projectBy sv p') ds = some (ds.map g) :=
      fun ds hds => mapDocs_eq fun d hd => hg d (hperm.mem_iff.1 (hds d hd))
    have hsub : ∀ d ∈ findPage p'.page.limit p'.page.skip ranked, d ∈ ranked := by
      intro d hd
      unfold findPage at hd
      split at hd
      · exact List.mem_of_mem_drop hd
      · unfold limitDocs at hd
        split at hd
        · exact List.mem_of_mem_drop hd
        · exact List.mem_of_mem_drop (List.mem_of_mem_take hd)
    have hfm : ∀ ds : List Doc, (findPage p'.page.limit p'.page.skip ds).map g =
        findPage p'.page.limit p'.page.skip (ds.map g) := by
      intro ds
      unfold findPage limitDocs
      split
      · rw [List.map_drop]
      · split
        · rw [List.map_drop]
        · rw [List.map_take, List.map_drop]
    simp only [Option.bind_some]
    rw [hsort, Option.bind_some, hmap _ hsub, hmid, Option.bind_some, hstages, run_pageStages hskip, hfm]
    have hlen : (ranked.map g).length = sel.length := by rw [List.length_map, hperm.length_eq]
    have hgoal : (∀ f s, p'.filter = some f → filterDocs (satisfies sv f) docs = some s →
        PageFits q.limitClause p'.page s.length) ↔ PageFits q.limitClause p'.page sel.length := by
      constructor
      · exact fun h => h filter sel hshape.filter_eq hsel
      · intro h f s hf' hs
        rw [hshape.filter_eq] at hf'
        rw [← Option.some.inj hf', hsel] at hs
        rwa [← Option.some.inj hs]
    rw [hgoal, ← hlen]
    by_cases hpos : ∀ n, p'.page.limit = some n → 1 ≤ n
    · rw [if_pos hpos, Option.some.injEq, findPage_eq_iff hpos hskip]
    · rw [if_neg hpos]
      exact ⟨fun h => absurd h (by simp), fun h => absurd h.1 hpos⟩

/-! ## Two queries -/

def fromNamed (t : String) : List TableWithJoins := [{ relation := .table [{ value := t }] none [] }]

/-- `SELECT name FROM products WHERE kind = 'ale' ORDER BY name`. -/
def namesQuery : Query where
  body := .select { projection := [.unnamedExpr (nameOf "name")], from_ := fromNamed "products",
                    selection := some (.binaryOp (nameOf "kind") .eq (textOf "ale")) }
  orderBy := some (.expressions [{ expr := nameOf "name" }])

def namesParts : SelectParts where
  collection := "products"
  joins := []
  filter := some (.doc [("kind", .str "ale")])
  shape := ([stage "$project" (.doc [("name", .str "$name")])], some (.doc [("name", .str "$name")]))
  having := []
  order := [⟨nameOf "name", false⟩]
  page := {}

def namesTranslation : SqlTranslation where
  database := "shop"
  collection := "products"
  operation := .find
  pipeline := namesParts.stages
  find := some (.doc [("filter", .doc [("kind", .str "ale")]), ("projection", .doc [("name", .str "$name")]),
    ("sort", .doc [("name", .num 1)])])

def paleAle : Doc := [("kind", .str "ale"), ("name", .str "pale")]

def amberAle : Doc := [("kind", .str "ale"), ("name", .str "amber")]

theorem names_transparent : Transparent bareServer namesParts [paleAle, amberAle] := by
  have hproj : ∀ d ∈ [paleAle, amberAle], ∃ s, d = [("kind", .str "ale"), ("name", .str s)] := by
    intro d hd
    simp only [List.mem_cons, List.not_mem_nil, or_false] at hd
    rcases hd with rfl | rfl <;> exact ⟨_, rfl⟩
  have hout : ∀ s, projectBy bareServer namesParts [("kind", .str "ale"), ("name", .str s)] =
      some [("name", .str s)] := fun s => rfl
  refine ⟨?_, ?_⟩
  · intro d hd
    obtain ⟨s, rfl⟩ := hproj d hd
    exact ⟨_, hout s, fun f hf => absurd hf List.not_mem_nil⟩
  · intro spec hspec
    have hspec : some (Value.doc [("name", .num 1)]) = some (.doc spec) := hspec
    injection hspec with hspec
    injection hspec with hspec
    subst hspec
    refine ⟨by decide, ?_⟩
    intro a ha b hb a' b' ha' hb'
    obtain ⟨s, rfl⟩ := hproj a ha
    obtain ⟨t, rfl⟩ := hproj b hb
    rw [hout] at ha' hb'
    rw [← Option.some.inj ha', ← Option.some.inj hb']
    rfl

/-- The names of the ales, sorted: the find and the pipeline agree. -/
theorem names_agree :
    Mongo.runFind bareServer [("filter", .doc [("kind", .str "ale")]), ("projection", .doc [("name", .str "$name")]),
      ("sort", .doc [("name", .num 1)])] [paleAle, amberAle] =
    runPipeline bareServer (fun _ => []) namesTranslation.pipeline [paleAle, amberAle] := by
  refine (@find_agrees_iff bareServer (fun _ => []) 0 "shop" namesQuery namesTranslation namesParts _
    ⟨[], rfl⟩ rfl ⟨[], rfl⟩ _ ?_).2 ?_
  · intro filter sel hf hs
    rw [← Option.some.inj hf, show filterDocs (satisfies bareServer _) [paleAle, amberAle] =
      some [paleAle, amberAle] by decide +kernel] at hs
    exact Option.some.inj hs ▸ names_transparent
  · exact fun _ _ _ _ => ⟨fun n hn => absurd hn (by simp [namesParts]), trivial⟩

/-- `SELECT name FROM products WHERE kind = 'ale' LIMIT 1 OFFSET 1`: the pipeline keeps one document and skips it. -/
theorem offset_skips_limited :
    ∃ (q : Query) (t : SqlTranslation) (opts : Doc) (docs : List Doc),
      Returns (translateSelect 0 "shop" q) t ∧ t.find = some (.doc opts) ∧
      Mongo.runFind bareServer opts docs = some [amberAle] ∧
      runPipeline bareServer (fun _ => []) t.pipeline docs = some [] := by
  refine ⟨{ namesQuery with body := .select { projection := [.wildcard []], from_ := fromNamed "products",
                                              selection := some (.binaryOp (nameOf "kind") .eq (textOf "ale")) },
                            orderBy := none, limitClause := some (.limitOffset (some (numberOf 1)) (some (numberOf 1)) []) },
    ⟨"shop", "products", .find, [stage "$match" (.doc [("kind", .str "ale")]), stage "$limit" (.num 1),
      stage "$skip" (.num 1)], some (.doc [("filter", .doc [("kind", .str "ale")]), ("limit", .num 1), ("skip", .num 1)])⟩,
    _, [paleAle, amberAle], Clean.returns (by decide +kernel), rfl, by decide +kernel, by decide +kernel⟩

end Sql
