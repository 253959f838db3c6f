import NosqlBuddy.ImportExport.DumpPaths

/-!
# Path templates

A template is split from the left into characters and groups (`splits_exists`). The loop walks bytes: it writes every byte
of a literal character as a character of its own. So the path is what the pieces stand for exactly when the literals are
ASCII, and a name is kept out of the components `..` exactly when it is not, alone or next to a dot, such a component itself
(`template_iff`).
-/

namespace ImportExport
open Cut Text

/-! ## Pieces -/

inductive Piece where
  | literal (c : Char)
  | group (token : List Char)
deriving DecidableEq, Repr

/-- How the piece is written in a template. -/
def Piece.source : Piece → List Char
  | .literal c => [c]
  | .group token => '$' :: '\x7b' :: token ++ ['\x7d']

/-- The split from the left: a group wherever one begins and is closed, a character elsewhere. -/
inductive Splits : List Char → List Piece → Prop where
  | nil : Splits [] []
  | group {token rest : List Char} {ps : List Piece} : '\x7d' ∉ token → Splits rest ps →
      Splits ((Piece.group token).source ++ rest) (.group token :: ps)
  | literal {c : Char} {cs : List Char} {ps : List Piece} :
      (∀ token rest, '\x7d' ∉ token → c :: cs ≠ (Piece.group token).source ++ rest) → Splits cs ps →
      Splits (c :: cs) (.literal c :: ps)

theorem source_group_append (token rest : List Char) :
    (Piece.group token).source ++ rest = '$' :: '\x7b' :: (token ++ '\x7d' :: rest) := by
  simp [Piece.source]

theorem group_or_literal (c : Char) (cs : List Char) :
    (∃ token rest, '\x7d' ∉ token ∧ c :: cs = (Piece.group token).source ++ rest) ∨
      ∀ token rest, '\x7d' ∉ token → c :: cs ≠ (Piece.group token).source ++ rest := by
  by_cases h : ∃ token rest, '\x7d' ∉ token ∧ c :: cs = (Piece.group token).source ++ rest
  · exact .inl h
  · exact .inr fun token rest htoken he => h ⟨token, rest, htoken, he⟩

theorem splits_exists (path : List Char) : ∃ ps, Splits path ps := by
  induction hn : path.length using Nat.strong_induction_on generalizing path with
  | _ n ih =>
    subst hn
    cases path with
    | nil => exact ⟨[], .nil⟩
    | cons c cs =>
      rcases group_or_literal c cs with ⟨token, rest, htoken, he⟩ | hliteral
      · rw [he] at ih ⊢
        have hlen : rest.length < ((Piece.group token).source ++ rest).length := by
          rw [source_group_append]
          simp only [List.length_cons, List.length_append]
          omega
        obtain ⟨ps, hps⟩ := ih _ hlen rest rfl
        exact ⟨_, .group htoken hps⟩
      · obtain ⟨ps, hps⟩ := ih cs.length (Nat.lt_succ_self _) cs rfl
        exact ⟨_, .literal hliteral hps⟩

/-! ## The resolved path -/

/-- A date and a time as `format` writes them: digits and dashes, and a sign before a year of five digits. -/
structure Clock where
  date : List Char
  time : List Char
  written : ∀ c ∈ date ++ time, c.isDigit ∨ c = '-' ∨ c = '+'
  date_ne : date ≠ []
  time_ne : time ≠ []

/-- `resolve_path` (placeholders.rs:36). -/
def resolvePath (path : List Char) (ctx : PlaceholderContext) (now : Clock) : List Char :=
  resolveWithValues ctx now.date now.time path

/-- The names that come from outside. -/
def PlaceholderContext.name (ctx : PlaceholderContext) (token : List Char) : Option (List Char) :=
  if token = "db".toList then some ctx.database
  else if token = "collection".toList then some ctx.collection
  else if token = "profile".toList then some ctx.profile
  else none

section
variable (ctx : PlaceholderContext) (now : Clock)

/-- What the loop writes for a piece. -/
def Piece.written : Piece → List Char
  | .literal c => bytesAsChars c
  | .group token => (lookupToken token ctx now.date now.time).getD (Piece.group token).source

/-- What a piece stands for, with a mark on the characters of a name. -/
def Piece.meaning : Piece → List (Char × Bool)
  | .literal c => [(c, false)]
  | .group token =>
    match lookupToken token ctx now.date now.time with
    | some value => value.map fun c => (c, (ctx.name token).isSome)
    | none => (Piece.group token).source.map fun c => (c, false)

/-- The path is what the pieces of the template stand for. -/
def Resolves (path : List Char) : Prop :=
  ∀ ps, Splits path ps → resolvePath path ctx now = (ps.flatMap (Piece.meaning ctx now)).map Prod.fst

end

/-- The systems differ in what separates the components of a path. -/
inductive PathStyle where
  | unix
  | windows
deriving DecidableEq, Repr

def PathStyle.separators : PathStyle → List Char
  | .unix => ['/']
  | .windows => ['/', '\\']

section
variable (style : PathStyle)

/-- A component: no separator in it, and one before and behind it unless the text begins or ends there. -/
def IsComponent (text comp : List (Char × Bool)) : Prop :=
  ∃ before after, text = before ++ comp ++ after ∧ (∀ x ∈ comp, x.1 ∉ style.separators) ∧
    (∀ x ∈ before.getLast?, x.1 ∈ style.separators) ∧ ∀ x ∈ after.head?, x.1 ∈ style.separators

/-- No name brings a separator, or a character of a component `..`. -/
def Contained (ctx : PlaceholderContext) (now : Clock) (path : List Char) : Prop :=
  ∀ ps, Splits path ps → (∀ x ∈ ps.flatMap (Piece.meaning ctx now), x.2 = true → x.1 ∉ style.separators) ∧
    ∀ comp, IsComponent style (ps.flatMap (Piece.meaning ctx now)) comp → comp.map Prod.fst = ['.', '.'] → ∀ x ∈ comp, x.2 = false

/-- The pieces that make `..` with a name, which is trimmed. -/
inductive Climbing (ctx : PlaceholderContext) : List Piece → Prop where
  | parent {t n : List Char} : ctx.name t = some n → trim n = ['.', '.'] → Climbing ctx [.group t]
  | dotName {t n : List Char} : ctx.name t = some n → trim n = ['.'] → Climbing ctx [.literal '.', .group t]
  | nameDot {t n : List Char} : ctx.name t = some n → trim n = ['.'] → Climbing ctx [.group t, .literal '.']
  | names {t n t' n' : List Char} : ctx.name t = some n → trim n = ['.'] → ctx.name t' = some n' → trim n' = ['.'] →
      Climbing ctx [.group t, .group t']

def Piece.IsSeparator (p : Piece) : Prop := ∃ c ∈ style.separators, p = .literal c

/-- A whole component of the template makes `..` with a name. -/
def Climbs (ctx : PlaceholderContext) (ps : List Piece) : Prop :=
  ∃ before comp after, ps = before ++ comp ++ after ∧ Climbing ctx comp ∧
    (∀ p ∈ before.getLast?, p.IsSeparator style) ∧ ∀ p ∈ after.head?, p.IsSeparator style

/-- Only ASCII outside the groups, and no component of names and dots that makes `..`. -/
def PlainTemplate (ctx : PlaceholderContext) (path : List Char) : Prop :=
  ∀ ps, Splits path ps → (∀ c, Piece.literal c ∈ ps → c.toNat < 128) ∧ ¬ Climbs style ctx ps

end

/-! ## What the loop writes -/

theorem lookupToken_eq (token : List Char) (ctx : PlaceholderContext) (date time : List Char) :
    lookupToken token ctx date time = if token = "date".toList then some date else if token = "time".toList then some time
      else (ctx.name token).map sanitizeFilename := by
  unfold lookupToken PlaceholderContext.name
  split_ifs <;> rfl

theorem resolveWithValues_nil (ctx : PlaceholderContext) (date time : List Char) : resolveWithValues ctx date time [] = [] := by
  rw [resolveWithValues]

theorem resolveWithValues_group (ctx : PlaceholderContext) (date time : List Char) (h : '\x7d' ∉ token)
    (rest : List Char) : resolveWithValues ctx date time ((Piece.group token).source ++ rest) =
      (lookupToken token ctx date time).getD (Piece.group token).source ++ resolveWithValues ctx date time rest := by
  rw [source_group_append, resolveWithValues, if_pos ⟨rfl, rfl⟩]
  split
  · next token' rest' heq =>
    rw [List.tail_cons, cut_front h] at heq
    obtain ⟨rfl, rfl⟩ := Prod.mk.inj (Option.some.inj heq)
    rfl
  · next heq =>
    rw [List.tail_cons, cut_front h] at heq
    cases heq

theorem resolveWithValues_literal (ctx : PlaceholderContext) (date time : List Char) (h : ∀ token rest, '\x7d' ∉ token → c :: cs ≠ (Piece.group token).source ++ rest) :
    resolveWithValues ctx date time (c :: cs) = bytesAsChars c ++ resolveWithValues ctx date time cs := by
  rw [resolveWithValues]
  split_ifs with hopen
  · obtain ⟨rfl, hhead⟩ := hopen
    obtain ⟨ds, rfl⟩ : ∃ ds, cs = '\x7b' :: ds := List.head?_eq_some_iff.1 hhead
    split
    · next token rest heq =>
      obtain ⟨hds, htoken⟩ := cut_singleton.1 heq
      rw [List.tail_cons] at hds
      refine absurd ?_ (h token rest htoken)
      rw [source_group_append, hds]
    · rfl
  · rfl

section
variable {ctx : PlaceholderContext} {now : Clock}

theorem resolvePath_pieces (h : Splits path ps) :
    resolvePath path ctx now = ps.flatMap (Piece.written ctx now) := by
  unfold resolvePath
  induction h with
  | nil => exact resolveWithValues_nil ..
  | group htoken _ ih => rw [resolveWithValues_group _ _ _ htoken, ih, List.flatMap_cons, Piece.written]
  | literal hne _ ih => rw [resolveWithValues_literal _ _ _ hne, ih, List.flatMap_cons, Piece.written]

theorem written_group (token : List Char) :
    (Piece.group token).written ctx now = ((Piece.group token).meaning ctx now).map Prod.fst := by
  cases h : lookupToken token ctx now.date now.time <;> simp [Piece.written, Piece.meaning, h, Function.comp_def]

theorem bytesAsChars_of_ascii (h : c.toNat < 128) : bytesAsChars c = [c] := by
  have hle : c.val.toNat ≤ 0x7f := Nat.le_of_lt_succ h
  have hbyte : c.val.toNat.toUInt8.toNat = c.toNat := by
    rw [Nat.toUInt8_eq, UInt8.toNat_ofNat']
    exact Nat.mod_eq_of_lt (Nat.lt_trans h (by decide))
  unfold bytesAsChars String.utf8EncodeChar
  simp only [hle, if_true, List.map_cons, List.map_nil, hbyte, Char.ofNat_toNat]

theorem one_lt_bytesAsChars (h : 128 ≤ c.toNat) : 1 < (bytesAsChars c).length := by
  rw [bytesAsChars, List.length_map, String.length_utf8EncodeChar]
  have hne : c.utf8Size ≠ 1 := fun he => by
    have hle : c.val ≤ 127 := Char.utf8Size_eq_one_iff.1 he
    have hnat : c.toNat ≤ 127 := UInt32.le_iff_toNat_le.1 hle
    omega
  have hpos := c.utf8Size_pos
  omega

theorem length_written (p : Piece) : (p.meaning ctx now).length ≤ (p.written ctx now).length := by
  cases p with
  | group token => rw [written_group, List.length_map]
  | literal c =>
    rcases Nat.lt_or_ge c.toNat 128 with h | h
    · rw [Piece.written, bytesAsChars_of_ascii h, Piece.meaning]
      exact Nat.le_refl 1
    · exact Nat.le_of_lt (one_lt_bytesAsChars h)

theorem length_written_flatMap (ps : List Piece) :
    (ps.flatMap (Piece.meaning ctx now)).length ≤ (ps.flatMap (Piece.written ctx now)).length := by
  induction ps with
  | nil => exact Nat.le_refl 0
  | cons p ps ih =>
    rw [List.flatMap_cons, List.flatMap_cons, List.length_append, List.length_append]
    exact Nat.add_le_add (length_written p) ih

theorem written_iff (ps : List Piece) :
    ps.flatMap (Piece.written ctx now) = (ps.flatMap (Piece.meaning ctx now)).map Prod.fst ↔
      ∀ c, Piece.literal c ∈ ps → c.toNat < 128 := by
  induction ps with
  | nil => simp
  | cons p ps ih =>
    rw [List.flatMap_cons, List.flatMap_cons, List.map_append]
    have hrest := @length_written_flatMap ctx now ps
    constructor
    · intro heq
      have hlen : (p.written ctx now).length = (p.meaning ctx now).length := by
        have htotal := congrArg List.length heq
        simp only [List.length_append, List.length_map] at htotal
        have hp := @length_written ctx now p
        omega
      obtain ⟨hp, hps⟩ := List.append_inj heq (by rw [hlen, List.length_map])
      intro c hc
      rcases List.mem_cons.1 hc with rfl | hc
      · by_contra hge
        exact absurd hlen (Nat.ne_of_gt (one_lt_bytesAsChars (Nat.le_of_not_lt hge)))
      · exact ih.1 hps c hc
    · intro hall
      have hp : p.written ctx now = (p.meaning ctx now).map Prod.fst := by
        cases p with
        | group token => exact written_group token
        | literal c => exact bytesAsChars_of_ascii (hall c List.mem_cons_self)
      rw [hp, ih.2 fun c hc => hall c (List.mem_cons_of_mem _ hc)]

theorem resolves_iff (path : List Char) :
    Resolves ctx now path ↔ ∀ ps, Splits path ps → ∀ c, Piece.literal c ∈ ps → c.toNat < 128 :=
  forall_congr' fun ps => forall_congr' fun h => by rw [resolvePath_pieces h, written_iff]

end

/-! ## Names stay inside a component -/

theorem sanitizeFilename_ne_nil (name : List Char) : sanitizeFilename name ≠ [] := by
  unfold sanitizeFilename
  dsimp only
  split_ifs with h
  · decide
  · simpa using h

theorem separator_notMem_sanitizeFilename (style : PathStyle) (name : List Char) :
    ∀ c ∈ sanitizeFilename name, c ∉ style.separators := by
  have hsep : ∀ c ∈ style.separators, c ∈ illegalInFilename := by
    cases style <;> simp [PathStyle.separators, illegalInFilename]
  unfold sanitizeFilename
  dsimp only
  split_ifs
  · cases style <;> simp [PathStyle.separators]
  · intro c hc hmem
    obtain ⟨d, -, hd⟩ := List.mem_map.1 hc
    split_ifs at hd with hlegal
    · subst hd
      exact absurd (hsep _ hmem) (by decide)
    · exact hlegal (.inl (hd ▸ hsep _ hmem))

theorem sanitizeFilename_dots (name : List Char) (n : ℕ) :
    sanitizeFilename name = List.replicate (n + 1) '.' ↔ trim name = List.replicate (n + 1) '.' := by
  have hdot : ∀ c : Char, (if c ∈ illegalInFilename ∨ c.toNat < 0x20 then '_' else c) = '.' ↔ c = '.' := by
    intro c
    split_ifs with h
    · refine iff_of_false (by decide) ?_
      rintro rfl
      exact absurd h (by decide)
    · exact Iff.rfl
  unfold sanitizeFilename
  dsimp only
  split_ifs with h
  · rw [h]
    refine iff_of_false ?_ (by simp)
    rw [List.replicate_succ]
    intro he
    exact absurd (List.cons.inj he).1 (by decide)
  · rw [List.eq_replicate_iff, List.eq_replicate_iff, List.length_map]
    refine and_congr_right fun _ => ?_
    rw [List.forall_mem_map]
    exact forall₂_congr fun c _ => hdot c

section
variable {ctx : PlaceholderContext} {now : Clock} {style : PathStyle}

theorem meaning_name (h : ctx.name token = some n) :
    (Piece.group token).meaning ctx now = (sanitizeFilename n).map fun c => (c, true) := by
  have hlookup : lookupToken token ctx now.date now.time = some (sanitizeFilename n) := by
    have hdate : token ≠ "date".toList := by
      rintro rfl
      cases h
    have htime : token ≠ "time".toList := by
      rintro rfl
      cases h
    rw [lookupToken_eq, if_neg hdate, if_neg htime, h, Option.map_some]
  simp [Piece.meaning, hlookup, h]

/-- Text without a name that neither begins nor ends with a dot or a separator. -/
structure Inert (style : PathStyle) (text : List (Char × Bool)) : Prop where
  unmarked : ∀ x ∈ text, x.2 = false
  ne_nil : text ≠ []
  edge : ∀ x, x ∈ text.head? ∨ x ∈ text.getLast? → x.1 ≠ '.' ∧ x.1 ∉ style.separators

theorem inert_of_name {token : List Char} (h : ctx.name token = none) : Inert style ((Piece.group token).meaning ctx now) := by
  have hplain : ∀ c ∈ now.date ++ now.time, c ≠ '.' ∧ c ∉ style.separators := by
    intro c hc
    have hw := now.written c hc
    constructor
    · rintro rfl
      exact absurd hw (by decide)
    · cases style <;> intro hm <;> simp only [PathStyle.separators, List.mem_cons, List.not_mem_nil, or_false] at hm
      · subst hm
        exact absurd hw (by decide)
      · rcases hm with rfl | rfl <;> exact absurd hw (by decide)
  have hwritten : ∀ value, value ≠ [] → (∀ c ∈ value, c ∈ now.date ++ now.time) →
      lookupToken token ctx now.date now.time = some value →
      Inert style ((Piece.group token).meaning ctx now) := by
    intro value hne hvalue hlookup
    have hm : (Piece.group token).meaning ctx now = value.map fun c => (c, false) := by simp [Piece.meaning, hlookup, h]
    rw [hm]
    refine ⟨by simp, by simpa using hne, fun x hx => ?_⟩
    have hmem : x ∈ value.map fun c => (c, false) :=
      hx.elim (fun h => List.mem_of_mem_head? h) fun h => List.mem_of_mem_getLast? h
    obtain ⟨c, hc, rfl⟩ := List.mem_map.1 hmem
    exact hplain c (hvalue c hc)
  by_cases hdate : token = "date".toList
  · exact hwritten now.date now.date_ne (fun c hc => List.mem_append_left _ hc) (by rw [lookupToken_eq, if_pos hdate])
  by_cases htime : token = "time".toList
  · exact hwritten now.time now.time_ne (fun c hc => List.mem_append_right _ hc)
      (by rw [lookupToken_eq, if_neg hdate, if_pos htime])
  have hlookup : lookupToken token ctx now.date now.time = none := by
    rw [lookupToken_eq, if_neg hdate, if_neg htime, h, Option.map_none]
  have hm : (Piece.group token).meaning ctx now =
      ('$', false) :: (('\x7b' :: token).map fun c => (c, false)) ++ [('\x7d', false)] := by
    simp [Piece.meaning, hlookup, Piece.source]
  rw [hm]
  refine ⟨by simp, by simp, fun x hx => ?_⟩
  rw [List.getLast?_append_cons, List.cons_append, List.head?_cons] at hx
  rcases hx with hx | hx <;> cases hx <;> cases style <;> decide

theorem meaning_ne_nil (p : Piece) : p.meaning ctx now ≠ [] := by
  cases p with
  | literal c => exact List.cons_ne_nil _ _
  | group token =>
    cases h : ctx.name token with
    | none => exact (@inert_of_name ctx now .unix token h).ne_nil
    | some n =>
      rw [meaning_name h]
      simpa using sanitizeFilename_ne_nil n

theorem marked_iff {p : Piece} {x : Char × Bool} (hx : x ∈ p.meaning ctx now) (hmark : x.2 = true) :
    ∃ token n, p = .group token ∧ ctx.name token = some n ∧ x.1 ∈ sanitizeFilename n := by
  cases p with
  | literal c =>
    obtain rfl := List.mem_singleton.1 hx
    cases hmark
  | group token =>
    cases h : ctx.name token with
    | none => rw [(@inert_of_name ctx now .unix token h).unmarked x hx] at hmark; cases hmark
    | some n =>
      rw [meaning_name h] at hx
      obtain ⟨c, hc, rfl⟩ := List.mem_map.1 hx
      exact ⟨token, n, rfl, h, hc⟩

theorem edge_separator {p : Piece} {x : Char × Bool} (hx : x ∈ (p.meaning ctx now).head? ∨ x ∈ (p.meaning ctx now).getLast?) :
    x.1 ∈ style.separators ↔ p.IsSeparator style := by
  cases p with
  | literal c =>
    have hc : x = (c, false) := by rcases hx with hx | hx <;> cases hx <;> rfl
    subst hc
    exact ⟨fun hsep => ⟨c, hsep, rfl⟩, fun ⟨d, hd, he⟩ => Piece.literal.inj he ▸ hd⟩
  | group token =>
    refine iff_of_false ?_ fun ⟨d, _, he⟩ => by cases he
    cases h : ctx.name token with
    | none => exact ((@inert_of_name ctx now style token h).edge x hx).2
    | some n =>
      rw [meaning_name h] at hx
      have hmem : x ∈ (sanitizeFilename n).map fun c => (c, true) :=
        hx.elim (fun h => List.mem_of_mem_head? h) fun h => List.mem_of_mem_getLast? h
      obtain ⟨c, hc, rfl⟩ := List.mem_map.1 hmem
      exact separator_notMem_sanitizeFilename style n c hc

theorem separator_of_getLast {ps : List Piece} (h : ∀ x ∈ (ps.flatMap (Piece.meaning ctx now)).getLast?, x.1 ∈ style.separators) :
    ∀ p ∈ ps.getLast?, p.IsSeparator style := by
  intro p hp
  obtain ⟨qs, rfl⟩ : ∃ qs, ps = qs ++ [p] := List.getLast?_eq_some_iff.1 hp
  rw [List.flatMap_append, List.flatMap_singleton, List.getLast?_append_of_ne_nil _ (meaning_ne_nil p)] at h
  obtain ⟨x, hx⟩ := Option.isSome_iff_exists.1 (List.getLast?_isSome.2 (@meaning_ne_nil ctx now p))
  exact (edge_separator (.inr hx)).1 (h x hx)

theorem separator_of_head {ps : List Piece} (h : ∀ x ∈ (ps.flatMap (Piece.meaning ctx now)).head?, x.1 ∈ style.separators) :
    ∀ p ∈ ps.head?, p.IsSeparator style := by
  intro p hp
  obtain ⟨qs, rfl⟩ : ∃ qs, ps = p :: qs := List.head?_eq_some_iff.1 hp
  rw [List.flatMap_cons, List.head?_append_of_ne_nil _ (meaning_ne_nil p)] at h
  obtain ⟨x, hx⟩ := Option.isSome_iff_exists.1 (List.isSome_head?.2 (@meaning_ne_nil ctx now p))
  exact (edge_separator (.inl hx)).1 (h x hx)

theorem getLast_separator {ps : List Piece} (h : ∀ p ∈ ps.getLast?, p.IsSeparator style) :
    ∀ x ∈ (ps.flatMap (Piece.meaning ctx now)).getLast?, x.1 ∈ style.separators := by
  intro x hx
  rcases List.eq_nil_or_concat ps with rfl | ⟨qs, p, rfl⟩
  · cases hx
  · rw [List.concat_eq_append] at h hx
    rw [List.flatMap_append, List.flatMap_singleton, List.getLast?_append_of_ne_nil _ (meaning_ne_nil p)] at hx
    exact (edge_separator (.inr hx)).2 (h p List.getLast?_concat)

theorem head_separator {ps : List Piece} (h : ∀ p ∈ ps.head?, p.IsSeparator style) :
    ∀ x ∈ (ps.flatMap (Piece.meaning ctx now)).head?, x.1 ∈ style.separators := by
  intro x hx
  cases ps with
  | nil => cases hx
  | cons p qs =>
    rw [List.flatMap_cons, List.head?_append_of_ne_nil _ (meaning_ne_nil p)] at hx
    exact (edge_separator (.inl hx)).2 (h p rfl)

end

theorem flatMap_eq_append_cons {α β : Type} {f : α → List β} {x : β} {after : List β} : ∀ {l : List α} {before : List β},
    l.flatMap f = before ++ x :: after →
    ∃ l₁ a l₂ u v, l = l₁ ++ a :: l₂ ∧ f a = u ++ x :: v ∧ before = l₁.flatMap f ++ u ∧ after = v ++ l₂.flatMap f
  | [], before, h => by simp at h
  | a :: l, before, h => by
    rw [List.flatMap_cons] at h
    rcases List.append_eq_append_iff.1 h with ⟨w, rfl, hw⟩ | ⟨w, ha, hw⟩
    · obtain ⟨l₁, b, l₂, u, v, rfl, hb, rfl, rfl⟩ := flatMap_eq_append_cons hw
      exact ⟨a :: l₁, b, l₂, u, v, rfl, hb, by rw [List.flatMap_cons, List.append_assoc], rfl⟩
    · cases w with
      | nil =>
        obtain ⟨l₁, b, l₂, u, v, rfl, hb, hnil, rfl⟩ := @flatMap_eq_append_cons α β f x after l [] hw.symm
        rw [List.append_nil] at ha
        refine ⟨a :: l₁, b, l₂, u, v, rfl, hb, ?_, rfl⟩
        rw [List.flatMap_cons, List.append_assoc, ← hnil, List.append_nil, ha]
      | cons y w =>
        obtain ⟨rfl, rfl⟩ := List.cons.inj hw
        exact ⟨[], a, l, before, w, rfl, ha, rfl, rfl⟩

section
variable {ctx : PlaceholderContext} {now : Clock} {style : PathStyle}

theorem mem_meaning_name {token n : List Char} (h : ctx.name token = some n) {x : Char × Bool}
    (hx : x ∈ (Piece.group token).meaning ctx now) : x.2 = true ∧ x.1 ∉ style.separators := by
  rw [meaning_name h] at hx
  obtain ⟨c, hc, rfl⟩ := List.mem_map.1 hx
  exact ⟨rfl, separator_notMem_sanitizeFilename style n c hc⟩

theorem trim_of_meaning {token n : List Char} {k : ℕ} (h : ctx.name token = some n)
    (hdots : ((Piece.group token).meaning ctx now).map Prod.fst = List.replicate (k + 1) '.') :
    trim n = List.replicate (k + 1) '.' := by
  refine (sanitizeFilename_dots n k).1 ?_
  rw [meaning_name h, List.map_map] at hdots
  exact (List.map_id _).symm.trans hdots

theorem name_of_dot {p : Piece} {w rest : List (Char × Bool)} (hp : p.meaning ctx now = ('.', true) :: w)
    (hafter : ∀ x ∈ (w ++ rest).head?, x.1 ∈ style.separators) :
    w = [] ∧ ∃ token n, p = .group token ∧ ctx.name token = some n ∧ trim n = ['.'] := by
  obtain ⟨token, n, rfl, hname, -⟩ := marked_iff (hp ▸ List.mem_cons_self) rfl
  have hw : w = [] := by
    cases w with
    | nil => rfl
    | cons y w =>
      have hmem : y ∈ (Piece.group token).meaning ctx now := hp ▸ List.mem_cons_of_mem _ List.mem_cons_self
      exact absurd (hafter _ rfl) (mem_meaning_name hname hmem).2
  subst hw
  exact ⟨rfl, token, n, rfl, hname, @trim_of_meaning ctx now token n 0 hname (by rw [hp]; rfl)⟩

theorem next_piece (h : ps.flatMap (Piece.meaning ctx now) = x :: after) :
    ∃ q qs w, ps = q :: qs ∧ q.meaning ctx now = x :: w ∧ after = w ++ qs.flatMap (Piece.meaning ctx now) := by
  obtain ⟨l₁, q, qs, u, w, rfl, hq, hnil, rfl⟩ := @flatMap_eq_append_cons _ _ _ _ _ ps [] h
  obtain ⟨hl, rfl⟩ := List.append_eq_nil_iff.1 hnil.symm
  cases l₁ with
  | nil => exact ⟨q, qs, w, rfl, hq, rfl⟩
  | cons p l₁ => exact absurd (List.append_eq_nil_iff.1 hl).1 (meaning_ne_nil p)

theorem climbs_of_component {ps : List Piece} {comp : List (Char × Bool)} {x : Char × Bool}
    (h : IsComponent style (ps.flatMap (Piece.meaning ctx now)) comp) (hdots : comp.map Prod.fst = ['.', '.'])
    (hx : x ∈ comp) (hmark : x.2 = true) : Climbs style ctx ps := by
  obtain ⟨before, after, htext, -, hbefore, hafter⟩ := h
  obtain ⟨⟨c, a⟩, rest, rfl, hc, hrest⟩ := List.map_eq_cons_iff.1 hdots
  obtain ⟨⟨d, b⟩, rest', rfl, hd, hnil⟩ := List.map_eq_cons_iff.1 hrest
  obtain rfl : c = '.' := hc
  obtain rfl : d = '.' := hd
  obtain rfl := List.map_eq_nil_iff.1 hnil
  rw [List.append_assoc] at htext
  obtain ⟨ps₁, p, ps₂, u, v, rfl, hp, rfl, hv⟩ := flatMap_eq_append_cons htext
  cases p with
  | literal e =>
    -- a literal dot, so the name is behind it
    obtain ⟨rfl, hlit⟩ : u = [] ∧ [(e, false)] = ('.', a) :: v := by
      cases u with
      | nil => exact ⟨rfl, hp⟩
      | cons y u => exact absurd (congrArg List.length hp) (by simp [Piece.meaning])
    obtain ⟨hea, rfl⟩ := List.cons.inj hlit
    obtain ⟨rfl, rfl⟩ := Prod.mk.inj hea
    obtain rfl : b = true := by
      rcases List.mem_cons.1 hx with rfl | hx
      · cases hmark
      · rw [List.mem_singleton.1 hx] at hmark
        exact hmark
    obtain ⟨q, qs, w, rfl, hq, rfl⟩ := next_piece hv.symm
    obtain ⟨rfl, token, n, rfl, hname, hn⟩ := name_of_dot hq hafter
    rw [List.append_nil] at hbefore
    exact ⟨ps₁, _, qs, by simp, .dotName hname hn, separator_of_getLast hbefore, separator_of_head hafter⟩
  | group token =>
    cases hname : ctx.name token with
    | none =>
      -- such a group is not marked, and its last character is no dot
      have hinert := @inert_of_name ctx now style token hname
      cases v with
      | nil =>
        refine absurd rfl (hinert.edge ('.', a) (.inr ?_)).1
        rw [hp]
        exact List.getLast?_concat
      | cons y v =>
        obtain ⟨rfl, -⟩ := List.cons.inj hv
        have ha : a = false := hinert.unmarked ('.', a) (hp ▸ List.mem_append_right _ List.mem_cons_self)
        have hb : b = false :=
          hinert.unmarked ('.', b) (hp ▸ List.mem_append_right _ (List.mem_cons_of_mem _ List.mem_cons_self))
        subst ha hb
        rcases List.mem_cons.1 hx with rfl | hx
        · cases hmark
        · rw [List.mem_singleton.1 hx] at hmark
          cases hmark
    | some n =>
      have hu : u = [] := by
        rcases List.eq_nil_or_concat u with rfl | ⟨u', y, rfl⟩
        · rfl
        · rw [List.concat_eq_append] at hp hbefore
          have hmem : y ∈ (Piece.group token).meaning ctx now := by
            rw [hp]
            simp
          refine absurd (hbefore y ?_) (mem_meaning_name hname hmem).2
          rw [← List.append_assoc]
          exact List.getLast?_concat
      subst hu
      rw [List.append_nil] at hbefore
      have hlast := separator_of_getLast hbefore
      cases v with
      | cons y v =>
        -- the name alone
        obtain ⟨rfl, rfl⟩ := List.cons.inj hv
        have hv' : v = [] := by
          cases v with
          | nil => rfl
          | cons z v =>
            have hmem : z ∈ (Piece.group token).meaning ctx now := by
              rw [hp]
              simp
            exact absurd (hafter z rfl) (mem_meaning_name hname hmem).2
        subst hv'
        have hn := @trim_of_meaning ctx now token n 1 hname (by rw [hp]; rfl)
        exact ⟨ps₁, [.group token], ps₂, by simp, .parent hname hn, hlast, separator_of_head hafter⟩
      | nil =>
        have hn := @trim_of_meaning ctx now token n 0 hname (by rw [hp]; rfl)
        obtain ⟨q, qs, w, rfl, hq, rfl⟩ := next_piece hv.symm
        cases q with
        | literal e =>
          obtain ⟨hea, rfl⟩ := List.cons.inj hq
          obtain ⟨rfl, rfl⟩ := Prod.mk.inj hea
          exact ⟨ps₁, [.group token, .literal '.'], qs, by simp, .nameDot hname hn, hlast, separator_of_head hafter⟩
        | group token' =>
          cases hname' : ctx.name token' with
          | none =>
            refine absurd rfl ((@inert_of_name ctx now style token' hname').edge ('.', b) (.inl ?_)).1
            rw [hq]
            rfl
          | some n' =>
            have hb : b = true := (@mem_meaning_name ctx now style token' n' hname' ('.', b) (hq ▸ List.mem_cons_self)).1
            subst hb
            obtain ⟨rfl, token₂, n₂, hg, hm, hn'⟩ := name_of_dot hq hafter
            obtain rfl := Piece.group.inj hg
            exact ⟨ps₁, [.group token, .group token'], qs, by simp, .names hname hn hm hn', hlast, separator_of_head hafter⟩

theorem meaning_of_trim {token n : List Char} {k : ℕ} (h : ctx.name token = some n) (hn : trim n = List.replicate (k + 1) '.') :
    (Piece.group token).meaning ctx now = List.replicate (k + 1) ('.', true) := by
  rw [meaning_name h, (sanitizeFilename_dots n k).2 hn, List.map_replicate]

theorem meaning_climbing {comp : List Piece} (h : Climbing ctx comp) : ∃ a b, (a = true ∨ b = true) ∧
    comp.flatMap (Piece.meaning ctx now) = [('.', a), ('.', b)] := by
  cases h with
  | parent hname hn => exact ⟨true, true, .inl rfl, by rw [List.flatMap_singleton, @meaning_of_trim ctx now _ _ 1 hname hn]; rfl⟩
  | dotName hname hn =>
    refine ⟨false, true, .inr rfl, ?_⟩
    rw [List.flatMap_cons, List.flatMap_singleton, @meaning_of_trim ctx now _ _ 0 hname hn]
    rfl
  | nameDot hname hn =>
    refine ⟨true, false, .inl rfl, ?_⟩
    rw [List.flatMap_cons, List.flatMap_singleton, @meaning_of_trim ctx now _ _ 0 hname hn]
    rfl
  | names hname hn hname' hn' =>
    refine ⟨true, true, .inl rfl, ?_⟩
    rw [List.flatMap_cons, List.flatMap_singleton, @meaning_of_trim ctx now _ _ 0 hname hn,
      @meaning_of_trim ctx now _ _ 0 hname' hn']
    rfl

theorem not_contained_of_climbs {path : List Char} {ps : List Piece} (hps : Splits path ps) (h : Climbs style ctx ps) :
    ¬ Contained style ctx now path := by
  obtain ⟨before, comp, after, rfl, hcomp, hbefore, hafter⟩ := h
  obtain ⟨a, b, hmark, hmeaning⟩ := @meaning_climbing ctx now comp hcomp
  intro hcontained
  have hkeep := (hcontained _ hps).2 [('.', a), ('.', b)] ⟨before.flatMap (Piece.meaning ctx now),
    after.flatMap (Piece.meaning ctx now), by rw [List.flatMap_append, List.flatMap_append, hmeaning], ?_,
    getLast_separator hbefore, head_separator hafter⟩ rfl
  · rcases hmark with rfl | rfl
    · exact absurd (hkeep _ List.mem_cons_self) (by decide)
    · exact absurd (hkeep _ (List.mem_cons_of_mem _ List.mem_cons_self)) (by decide)
  · intro x hx
    have hdot : x.1 = '.' := by
      rcases List.mem_cons.1 hx with rfl | hx
      · rfl
      · rw [List.mem_singleton.1 hx]
    rw [hdot]
    cases style <;> decide

theorem contained_iff (path : List Char) :
    Contained style ctx now path ↔ ∀ ps, Splits path ps → ¬ Climbs style ctx ps := by
  refine ⟨fun h ps hps hclimbs => not_contained_of_climbs hps hclimbs h, fun h ps hps => ⟨fun x hx hmark => ?_, ?_⟩⟩
  · obtain ⟨p, hp, hx⟩ := List.mem_flatMap.1 hx
    obtain ⟨token, n, rfl, hname, -⟩ := marked_iff hx hmark
    exact (mem_meaning_name hname hx).2
  · intro comp hcomp hdots x hx
    by_contra hmark
    exact h ps hps (climbs_of_component hcomp hdots hx (by simpa using hmark))

end

/-! ## Templates -/

/-- **A template** becomes the path that its pieces stand for, without a component `..` of a name, exactly when its text
outside the groups is ASCII and no component of it is a name `..`, or a name `.` next to a dot or another such name. -/
theorem template_iff (style : PathStyle) (ctx : PlaceholderContext) (now : Clock) (path : List Char) :
    Resolves ctx now path ∧ Contained style ctx now path ↔ PlainTemplate style ctx path := by
  rw [resolves_iff, contained_iff]
  exact ⟨fun h ps hps => ⟨h.1 ps hps, h.2 ps hps⟩, fun h => ⟨fun ps hps => (h ps hps).1, fun ps hps => (h ps hps).2⟩⟩

/-! ### An accent and two dots -/

def noon : Clock where
  date := ['2', '0', '2', '6', '-', '0', '6', '-', '2', '7']
  time := ['1', '2', '0', '0', '0', '0']
  written := by simp [Char.isDigit]
  date_ne := by decide
  time_ne := by decide

/-- An `é` is written as two characters, and a database `..` leads to the parent directory. -/
theorem accent_and_parent :
    ¬ Resolves ⟨['s'], ['o'], ['p']⟩ noon ['é'] ∧
    ¬ Contained .unix ⟨['.', '.'], ['o'], ['p']⟩ noon (Piece.group ['d', 'b']).source := by
  constructor
  · intro h
    have hsplit : Splits ['é'] [.literal 'é'] := .literal (fun token rest _ he => by cases he) .nil
    exact absurd ((resolves_iff _).1 h _ hsplit 'é' (List.mem_singleton_self _)) (by decide)
  · have hsplit : Splits ((Piece.group ['d', 'b']).source ++ []) [.group ['d', 'b']] := .group (by decide) .nil
    rw [List.append_nil] at hsplit
    have hname : PlaceholderContext.name ⟨['.', '.'], ['o'], ['p']⟩ ['d', 'b'] = some ['.', '.'] := by decide
    refine not_contained_of_climbs hsplit ⟨[], _, [], rfl, .parent hname (by decide), ?_, ?_⟩
    · intro p hp
      cases hp
    · intro p hp
      cases hp

end ImportExport
