import NosqlBuddy.Lib.Cut
import NosqlBuddy.Lib.Text
import NosqlBuddy.Lib.UnixPath
import NosqlBuddy.ImportExport.BsonArchive

/-!
# Where a dump writes

| here | there |
| --- | --- |
| `sanitizeFilename`, `lookupToken`, `resolveWithValues` | `placeholders.rs:104`, `:84`, `:47` |
| `validateTargetPath`, `validateUserPath`, `partPathFor` | `io_util.rs:20`, `:64`, `:147` |
| `dumpFileName`, `resolveDumpPath` | `commands/dump.rs:256` |

The destination directory is validated and the name of the file is not: it is joined to the directory as a path. With an
empty template it is the name of the collection as it stands, and only the tokens of a template are sanitized
(`dump_confined_iff`, `absolute_name_escapes`).
-/

namespace ImportExport
open Cut Text UnixPath

/-! ## Placeholders -/

structure PlaceholderContext where
  database : List Char
  collection : List Char
  profile : List Char
deriving DecidableEq, Repr

/-- The characters that `sanitize_filename` replaces. -/
def illegalInFilename : List Char := ['/', '\\', ':', '*', '?', '"', '<', '>', '|']

def sanitizeFilename (name : List Char) : List Char :=
  let trimmed := trim name
  if trimmed = [] then "untitled".toList
  else trimmed.map fun c => if c ∈ illegalInFilename ∨ c.toNat < 0x20 then '_' else c

def lookupToken (token : List Char) (ctx : PlaceholderContext) (date time : List Char) : Option (List Char) :=
  if token = "date".toList then some date
  else if token = "time".toList then some time
  else if token = "db".toList then some (sanitizeFilename ctx.database)
  else if token = "collection".toList then some (sanitizeFilename ctx.collection)
  else if token = "profile".toList then some (sanitizeFilename ctx.profile)
  else none

/-- `bytes[i] as char` for every byte of a character. -/
def bytesAsChars (c : Char) : List Char := (String.utf8EncodeChar c).map fun b => Char.ofNat b.toNat

/-- `resolve_with_values` (placeholders.rs:47). -/
def resolveWithValues (ctx : PlaceholderContext) (date time : List Char) : List Char → List Char
  | [] => []
  | c :: cs =>
    if c = '$' ∧ cs.head? = some '\x7b' then
      match _h : cut ['\x7d'] cs.tail with
      | some (token, rest) =>
        (lookupToken token ctx date time).getD ('$' :: '\x7b' :: token ++ ['\x7d']) ++ resolveWithValues ctx date time rest
      | none => bytesAsChars c ++ resolveWithValues ctx date time cs
    else bytesAsChars c ++ resolveWithValues ctx date time cs
termination_by path => path.length
decreasing_by
  · have hlen := congrArg List.length (cut_eq _h)
    simp only [List.length_tail, List.length_append, List.length_singleton] at hlen
    simp only [List.length_cons]
    omega
  · simp
  · simp

/-! ## Targets -/

/-- The file system, as far as the validation asks it: the working directory, and the standard directories of the user. -/
structure Platform where
  cwd : List Component
  canonicalize : Path → Except String Path
  documentDir : Option Path
  downloadDir : Option Path
  desktopDir : Option Path
  homeDir : Option Path
  isFile : Path → Bool

def Platform.allowed (env : Platform) : List Path :=
  [env.documentDir, env.downloadDir, env.desktopDir, env.homeDir].filterMap fun dir =>
    dir.bind fun p => (env.canonicalize p).toOption

/-- `validate_user_path` (io_util.rs:64). -/
def validateUserPath (env : Platform) (target : Path) (operation : String) (mustExist : Bool) : Except AppError Path :=
  match target.parent with
  | none => .error (.validation s!"{operation} path has no parent directory")
  | some parent =>
    match env.canonicalize parent with
    | .error e => .error (.validation s!"invalid {operation} directory: {e}")
    | .ok parentCanon =>
      if ¬ env.allowed.any parentCanon.startsWith then
        .error (.validation s!"{operation} path must be under your Documents, Downloads, Desktop, or Home directory")
      else if mustExist && ! env.isFile target then .error (.validation s!"{operation} source file does not exist")
      else .ok target

def validateTargetPath (env : Platform) (target : Path) : Except AppError Path := validateUserPath env target "export" false

/-- `part_path_for` (io_util.rs:147): the ending goes to the last component. -/
def partPathFor (final : Path) : Path :=
  match final.comps.getLast? with
  | some last => { final with comps := final.comps.dropLast ++ [last ++ ".part".toList] }
  | none => { final with comps := [".part".toList] }

/-! ## The dump -/

inductive DumpFormat where
  | bson
  | json
deriving DecidableEq, Repr

inductive CompressionKind where
  | none
  | gzip
  | zstd
deriving DecidableEq, Repr

def DumpFormat.extension : DumpFormat → List Char
  | .bson => "bson".toList
  | .json => "json".toList

def CompressionKind.extension : CompressionKind → List Char
  | .none => []
  | .gzip => ".gz".toList
  | .zstd => ".zst".toList

/-- What `resolve_dump_path` gets besides the directory and the collection. -/
structure DumpNaming where
  pathTemplate : List Char
  database : List Char
  profile : List Char
  format : DumpFormat
  compression : CompressionKind
deriving DecidableEq, Repr

def DumpNaming.ending (n : DumpNaming) : List Char := '.' :: n.format.extension ++ n.compression.extension

/-- The name that `resolve_dump_path` joins to the directory, at a date and time. -/
def DumpNaming.fileName (n : DumpNaming) (collection date time : List Char) : List Char :=
  (if trim n.pathTemplate = [] then collection
    else resolveWithValues ⟨n.database, collection, n.profile⟩ date time n.pathTemplate) ++ n.ending

/-- `resolve_dump_path` (dump.rs:256). -/
def resolveDumpPath (dest : Path) (n : DumpNaming) (collection date time : List Char) : Path :=
  dest.join (.parse (n.fileName collection date time))

/-- A collection with the date and the time at which its path is resolved. -/
structure Dumped where
  collection : List Char
  date : List Char
  time : List Char
deriving DecidableEq, Repr

def DumpNaming.nameOf (n : DumpNaming) (d : Dumped) : List Char := n.fileName d.collection d.date d.time

/-- The files that are opened for a collection. -/
def dumpPaths (dest : Path) (n : DumpNaming) (d : Dumped) : List Path :=
  let final := resolveDumpPath dest n d.collection d.date d.time
  [partPathFor final, final]

/-! ## The statement -/

/-- The path leads to a place below the directory. -/
def Inside (env : Platform) (dir path : Path) : Prop := ∃ rest, rest ≠ [] ∧ path.location env.cwd = dir.location env.cwd ++ rest

/-- In every validated directory: all files of a run over these collections lie inside, and different collections have
different files. -/
def Confined (env : Platform) (n : DumpNaming) (ds : List Dumped) : Prop :=
  ∀ dir dest, validateTargetPath env dir = .ok dest →
    (∀ d ∈ ds, ∀ p ∈ dumpPaths dest n d, Inside env dest p) ∧
    ∀ d ∈ ds, ∀ d' ∈ ds, d.collection ≠ d'.collection → ∀ p ∈ dumpPaths dest n d, ∀ p' ∈ dumpPaths dest n d',
      p.location env.cwd ≠ p'.location env.cwd

/-- The name is a relative path that never climbs above the directory it is joined to. -/
def Staying (name : List Char) : Prop := (Path.parse name).isAbs = false ∧ Descends 0 (Path.parse name).comps

/-- The place below the directory. -/
def placeOf (name : List Char) : List Component := walk [] (Path.parse name).comps

/-- A standard directory of the user exists, and is its own canonical path. -/
def Platform.HasStandardDir (env : Platform) : Prop := ∃ root ∈ env.allowed, root.isAbs = true ∧ env.canonicalize root = .ok root

/-! ## Names -/

theorem extension_spec (f : DumpFormat) (k : CompressionKind) : '/' ∉ '.' :: f.extension ++ k.extension ∧
    2 < ('.' :: f.extension ++ k.extension).length ∧ ¬ ".part".toList <:+ '.' :: f.extension ++ k.extension ∧
    5 ≤ ('.' :: f.extension ++ k.extension).length := by
  cases f <;> cases k <;> decide

theorem not_part (n : DumpNaming) (last last' : List Char) : last ++ ".part".toList ≠ last' ++ n.ending := by
  obtain ⟨_, _, hno, hlen⟩ := extension_spec n.format n.compression
  intro heq
  have hsuffix : ".part".toList <:+ last' ++ n.ending := ⟨last, heq⟩
  refine hno (List.suffix_of_suffix_length_le hsuffix (List.suffix_append _ _) ?_)
  have hpart : ".part".toList.length = 5 := by decide
  rw [hpart]
  exact hlen

theorem nameOf_comps (n : DumpNaming) (d : Dumped) : ∃ dirs last, (Path.parse (n.nameOf d)).comps = dirs ++ [last ++ n.ending] ∧
    Normal (last ++ n.ending) ∧ Normal (last ++ n.ending ++ ".part".toList) := by
  obtain ⟨hslash, hlen, _⟩ := extension_spec n.format n.compression
  obtain ⟨dirs, last, hcomps, hnormal⟩ := parse_append hslash hlen
    (if trim n.pathTemplate = [] then d.collection
      else resolveWithValues ⟨n.database, d.collection, n.profile⟩ d.date d.time n.pathTemplate)
  have hpart : 2 < (last ++ n.ending ++ ".part".toList).length := by
    have hsuffix : ".part".toList.length = 5 := by decide
    rw [List.length_append, hsuffix]
    omega
  refine ⟨dirs, last, hcomps, hnormal, ?_, ?_, ?_⟩
  all_goals
    intro heq
    rw [heq] at hpart
    exact absurd hpart (by decide)

theorem dumpPaths_eq (dest : Path) (n : DumpNaming) (d : Dumped) : ∃ front last, Normal (last ++ n.ending) ∧
    Normal (last ++ n.ending ++ ".part".toList) ∧ (resolveDumpPath dest n d.collection d.date d.time).comps = front ++ [last ++ n.ending] ∧
    partPathFor (resolveDumpPath dest n d.collection d.date d.time) =
      { resolveDumpPath dest n d.collection d.date d.time with comps := front ++ [last ++ n.ending ++ ".part".toList] } := by
  obtain ⟨dirs, last, hcomps, hnormal, hpart⟩ := nameOf_comps n d
  have hjoin : ∃ front, (resolveDumpPath dest n d.collection d.date d.time).comps = front ++ [last ++ n.ending] := by
    unfold resolveDumpPath Path.join
    rw [DumpNaming.nameOf] at hcomps
    by_cases habs : (Path.parse (n.fileName d.collection d.date d.time)).isAbs = true
    · exact ⟨dirs, by rw [if_pos habs, hcomps]⟩
    · exact ⟨dest.comps ++ dirs, by rw [if_neg habs, hcomps, List.append_assoc]⟩
  obtain ⟨front, hfront⟩ := hjoin
  refine ⟨front, last, hnormal, hpart, hfront, ?_⟩
  unfold partPathFor
  rw [hfront]
  simp

theorem location_dumpPaths (env : Platform) (dest : Path) (n : DumpNaming) (d : Dumped) : ∃ place last,
    (resolveDumpPath dest n d.collection d.date d.time).location env.cwd = place ++ [last ++ n.ending] ∧
    (partPathFor (resolveDumpPath dest n d.collection d.date d.time)).location env.cwd =
      place ++ [last ++ n.ending ++ ".part".toList] := by
  obtain ⟨front, last, hnormal, hpart, hcomps, heq⟩ := dumpPaths_eq dest n d
  refine ⟨walk (if (resolveDumpPath dest n d.collection d.date d.time).isAbs then [] else env.cwd) front, last, ?_, ?_⟩
  · rw [Path.location, hcomps, walk_normal _ hnormal]
  · rw [heq, Path.location, walk_normal _ hpart]

/-! ## Confinement -/

theorem validateUserPath_ok (h : validateUserPath env target operation mustExist = .ok dest) : dest = target := by
  unfold validateUserPath at h
  split at h
  · cases h
  · split at h
    · cases h
    · split at h
      · cases h
      · split at h
        · cases h
        · exact (Except.ok.inj h).symm

theorem validateTargetPath_below {env : Platform} {root : Path} (hroot : root ∈ env.allowed)
    (hcanon : env.canonicalize root = .ok root) (a : Component) :
    validateTargetPath env ⟨root.isAbs, root.comps ++ [a]⟩ = .ok ⟨root.isAbs, root.comps ++ [a]⟩ := by
  have hparent : (⟨root.isAbs, root.comps ++ [a]⟩ : Path).parent = some root := by
    unfold Path.parent
    rw [if_neg (by simp), List.dropLast_concat]
  have hallowed : env.allowed.any root.startsWith = true := by
    rw [List.any_eq_true]
    exact ⟨root, hroot, by simp [Path.startsWith]⟩
  unfold validateTargetPath validateUserPath
  simp only [hparent, hcanon, hallowed]
  rfl

theorem location_of_staying {env : Platform} {dest : Path} {n : DumpNaming} {d : Dumped} (h : Staying (n.nameOf d)) :
    (resolveDumpPath dest n d.collection d.date d.time).location env.cwd = dest.location env.cwd ++ placeOf (n.nameOf d) := by
  obtain ⟨habs, hdesc⟩ := h
  rw [DumpNaming.nameOf] at habs hdesc ⊢
  have hjoin : resolveDumpPath dest n d.collection d.date d.time =
      ⟨dest.isAbs, dest.comps ++ (Path.parse (n.fileName d.collection d.date d.time)).comps⟩ := by
    rw [resolveDumpPath, Path.join, if_neg (by simp [habs])]
  have hwalk := @walk_of_descends (walk (if dest.isAbs then [] else env.cwd) dest.comps) [] _ hdesc
  rw [List.append_nil] at hwalk
  rw [hjoin, Path.location, walk_append, hwalk]
  rfl

theorem staying_of_inside {env : Platform} {root : Path} {n : DumpNaming} {d : Dumped} (hroot : root.isAbs = true)
    (h : ∀ a : Component, Inside env ⟨root.isAbs, root.comps ++ [a]⟩
      (resolveDumpPath ⟨root.isAbs, root.comps ++ [a]⟩ n d.collection d.date d.time)) : Staying (n.nameOf d) := by
  have hdir : ∀ a : Component, Normal a → (⟨root.isAbs, root.comps ++ [a]⟩ : Path).location env.cwd = walk [] root.comps ++ [a] := by
    intro a ha
    rw [Path.location, hroot, if_pos rfl, walk_normal _ ha]
  -- the same file cannot be inside `root/a` and inside `root/b`
  have hapart : (resolveDumpPath ⟨root.isAbs, root.comps ++ [['a']]⟩ n d.collection d.date d.time).location env.cwd ≠
      (resolveDumpPath ⟨root.isAbs, root.comps ++ [['b']]⟩ n d.collection d.date d.time).location env.cwd := by
    obtain ⟨rest, _, ha⟩ := h ['a']
    obtain ⟨rest', _, hb⟩ := h ['b']
    rw [ha, hb, hdir _ (by decide), hdir _ (by decide), List.append_assoc, List.append_assoc]
    intro heq
    have hcons := List.append_cancel_left heq
    simp at hcons
  have hrel : (Path.parse (n.nameOf d)).isAbs = false := by
    by_contra habs
    rw [Bool.not_eq_false] at habs
    refine hapart ?_
    rw [DumpNaming.nameOf] at habs
    simp only [resolveDumpPath, Path.join, habs, if_true]
  refine ⟨hrel, ?_⟩
  by_contra hdesc
  refine hapart ?_
  rw [DumpNaming.nameOf] at hrel hdesc
  simp only [resolveDumpPath, Path.join, hrel, Bool.false_eq_true, if_false, Path.location, hroot, if_true]
  rw [walk_append, walk_normal _ (by decide), walk_append, walk_normal _ (by decide)]
  exact @walk_of_not_descends _ ['a'] ['b'] [] _ hdesc

/-- **A dump** stays in its directory, and its collections apart, exactly when the names that are joined to the directory are
relative paths that never climb above it, and those of different collections lead to different places. -/
theorem dump_confined_iff {env : Platform} (henv : env.HasStandardDir) (n : DumpNaming) (ds : List Dumped) :
    Confined env n ds ↔ (∀ d ∈ ds, Staying (n.nameOf d)) ∧
      ∀ d ∈ ds, ∀ d' ∈ ds, d.collection ≠ d'.collection → placeOf (n.nameOf d) ≠ placeOf (n.nameOf d') := by
  obtain ⟨root, hmem, hroot, hcanon⟩ := henv
  constructor
  · intro h
    have hstay : ∀ d ∈ ds, Staying (n.nameOf d) := by
      intro d hd
      refine @staying_of_inside env root n d hroot fun a => ?_
      exact (h _ _ (validateTargetPath_below hmem hcanon a)).1 d hd _ (by simp [dumpPaths])
    refine ⟨hstay, fun d hd d' hd' hne hplace => ?_⟩
    refine (h _ _ (validateTargetPath_below hmem hcanon ['a'])).2 d hd d' hd' hne _ (List.mem_cons_of_mem _ (List.mem_singleton.2 rfl))
      _ (List.mem_cons_of_mem _ (List.mem_singleton.2 rfl)) ?_
    rw [location_of_staying (hstay d hd), location_of_staying (hstay d' hd'), hplace]
  · rintro ⟨hstay, hapart⟩ dir dest hvalid
    obtain rfl := validateUserPath_ok hvalid
    constructor
    · intro d hd p hp
      obtain ⟨place, last, hfinal, hpart⟩ := location_dumpPaths env dest n d
      obtain ⟨dirs, last', hcomps, hnormal, _⟩ := nameOf_comps n d
      have hlocation := @location_of_staying env dest _ _ (hstay d hd)
      have hplace : placeOf (n.nameOf d) = walk [] dirs ++ [last' ++ n.ending] := by
        rw [placeOf, hcomps, walk_normal _ hnormal]
      rw [hfinal, hplace, ← List.append_assoc] at hlocation
      obtain ⟨hdir, _⟩ := List.append_inj' hlocation rfl
      simp only [dumpPaths, List.mem_cons, List.not_mem_nil, or_false] at hp
      rcases hp with rfl | rfl
      · exact ⟨walk [] dirs ++ [last ++ n.ending ++ ".part".toList], by simp, by rw [hpart, hdir, List.append_assoc]⟩
      · exact ⟨walk [] dirs ++ [last ++ n.ending], by simp, by rw [hfinal, hdir, List.append_assoc]⟩
    · intro d hd d' hd' hne p hp p' hp'
      obtain ⟨place, last, hfinal, hpart⟩ := location_dumpPaths env dest n d
      obtain ⟨place', last', hfinal', hpart'⟩ := location_dumpPaths env dest n d'
      have hfinals : place ++ [last ++ n.ending] ≠ place' ++ [last' ++ n.ending] := by
        rw [← hfinal, ← hfinal', location_of_staying (hstay d hd), location_of_staying (hstay d' hd')]
        exact fun heq => hapart d hd d' hd' hne (List.append_cancel_left heq)
      simp only [dumpPaths, List.mem_cons, List.not_mem_nil, or_false] at hp hp'
      rcases hp with rfl | rfl <;> rcases hp' with rfl | rfl
      · rw [hpart, hpart']
        intro heq
        obtain ⟨hplace, hlast⟩ := List.append_inj' heq rfl
        exact hfinals (by rw [hplace, List.append_cancel_right (List.singleton_inj.1 hlast)])
      · rw [hpart, hfinal']
        intro heq
        exact not_part n _ _ (List.singleton_inj.1 (List.append_inj' heq rfl).2)
      · rw [hfinal, hpart']
        intro heq
        exact not_part n _ _ (List.singleton_inj.1 (List.append_inj' heq rfl).2).symm
      · rwa [hfinal, hfinal']

/-! ## Names without a path in them -/

theorem parse_plain (h : '/' ∉ text) (hslash : '/' ∉ ending) (hlen : 2 < ending.length) :
    Path.parse (text ++ ending) = ⟨false, [text ++ ending]⟩ := by
  have hno : '/' ∉ text ++ ending := by simp [h, hslash]
  have hne : text ++ ending ≠ [] := by
    intro hnil
    have hsize := congrArg List.length hnil
    rw [List.length_append, List.length_nil] at hsize
    omega
  have hhead : (text ++ ending).head? ≠ some '/' := fun hh => hno (List.mem_of_mem_head? (by rw [hh]; rfl))
  generalize text ++ ending = whole at hno hne hhead ⊢
  unfold Path.parse
  simp [segments_of_notMem hno, hne, hhead]

theorem staying_plain {n : DumpNaming} {d : Dumped} {text : List Char} (h : '/' ∉ text) (hname : n.nameOf d = text ++ n.ending) :
    Staying (n.nameOf d) ∧ placeOf (n.nameOf d) = [text ++ n.ending] := by
  obtain ⟨hslash, hlen, _, hlen'⟩ := extension_spec n.format n.compression
  have hparse := parse_plain h hslash hlen
  have hsize : 5 ≤ (text ++ n.ending).length := by
    rw [List.length_append]
    exact Nat.le_add_left_of_le hlen'
  have hparent : text ++ n.ending ≠ parentDir := fun heq => by simp [heq, parentDir] at hsize
  have hcurrent : text ++ n.ending ≠ currentDir := fun heq => by simp [heq, currentDir] at hsize
  rw [Staying, placeOf, hname]
  refine ⟨⟨congrArg Path.isAbs hparse, ?_⟩, ?_⟩
  · rw [show (Path.parse (text ++ n.ending)).comps = [text ++ n.ending] from congrArg Path.comps hparse, Descends,
      if_neg hparent, if_neg hcurrent]
    trivial
  · rw [show (Path.parse (text ++ n.ending)).comps = [text ++ n.ending] from congrArg Path.comps hparse, walk, List.foldl_cons,
      List.foldl_nil, enter, if_neg hparent, if_neg hcurrent, List.nil_append]

theorem blank_template {n : DumpNaming} (hblank : trim n.pathTemplate = []) {d : Dumped} (h : '/' ∉ d.collection) :
    Staying (n.nameOf d) ∧ placeOf (n.nameOf d) = [d.collection ++ n.ending] :=
  staying_plain h (by rw [DumpNaming.nameOf, DumpNaming.fileName, if_pos hblank])

theorem sanitizeFilename_notMem (name : List Char) : '/' ∉ sanitizeFilename name := by
  simp only [sanitizeFilename]
  split
  · decide
  · intro hmem
    obtain ⟨c, _, hc⟩ := List.mem_map.1 hmem
    split at hc
    · exact absurd hc (by decide)
    · next hlegal => exact hlegal (.inl (by rw [hc]; decide))

theorem resolve_token (ctx : PlaceholderContext) (date time : List Char) :
    resolveWithValues ctx date time "$\x7bcollection\x7d".toList = sanitizeFilename ctx.collection := by
  have htext : "$\x7bcollection\x7d".toList = '$' :: '\x7b' :: ("collection".toList ++ '\x7d' :: []) := by decide
  have hcut : cut ['\x7d'] ("collection".toList ++ '\x7d' :: []) = some ("collection".toList, []) :=
    cut_front (by decide) []
  have hlookup : lookupToken "collection".toList ctx date time = some (sanitizeFilename ctx.collection) := by
    unfold lookupToken
    rw [if_neg (by decide), if_neg (by decide), if_neg (by decide), if_pos rfl]
  have hnil : resolveWithValues ctx date time [] = [] := by rw [resolveWithValues]
  rw [htext, resolveWithValues, if_pos (by decide)]
  split
  · next token rest heq =>
    rw [List.tail_cons, hcut] at heq
    obtain ⟨rfl, rfl⟩ := Prod.mk.inj (Option.some.inj heq)
    rw [hlookup, Option.getD_some, hnil, List.append_nil]
  · next heq =>
    rw [List.tail_cons, hcut] at heq
    cases heq

theorem staying_collection {n : DumpNaming} (htemplate : n.pathTemplate = "$\x7bcollection\x7d".toList) (d : Dumped) :
    Staying (n.nameOf d) ∧ placeOf (n.nameOf d) = [sanitizeFilename d.collection ++ n.ending] := by
  refine staying_plain (sanitizeFilename_notMem _) ?_
  rw [DumpNaming.nameOf, DumpNaming.fileName, htemplate, if_neg (by decide), resolve_token]

def DumpNaming.byCollection (n : DumpNaming) : DumpNaming := { n with pathTemplate := "$\x7bcollection\x7d".toList }

/-- **The template of the collection alone** keeps every dump inside, whatever the collection is called, and those apart whose
sanitized names differ. -/
theorem collection_template (n : DumpNaming) (d : Dumped) : Staying (n.byCollection.nameOf d) ∧
    placeOf (n.byCollection.nameOf d) = [sanitizeFilename d.collection ++ n.byCollection.ending] :=
  staying_collection rfl d

/-! ### A name that is a path -/

/-- A user with a home directory and no symbolic links. -/
def homeOnly : Platform where
  cwd := []
  canonicalize := .ok
  documentDir := none
  downloadDir := none
  desktopDir := none
  homeDir := some ⟨true, ["home".toList, "u".toList]⟩
  isFile := fun _ => false

theorem homeOnly_hasStandardDir : homeOnly.HasStandardDir := ⟨_, List.mem_singleton.2 rfl, rfl, rfl⟩

def plainDump : DumpNaming := ⟨[], "shop".toList, "local".toList, .bson, .none⟩

/-- The collection `/tmp/x` is dumped to `/tmp/x.bson`, whatever the directory. -/
theorem absolute_name_escapes : ¬ Confined homeOnly plainDump [⟨"/tmp/x".toList, [], []⟩] := by
  intro h
  have hvalid : validateTargetPath homeOnly ⟨true, ["home".toList, "u".toList] ++ ["dump".toList]⟩ = .ok _ :=
    @validateTargetPath_below _ ⟨true, ["home".toList, "u".toList]⟩ (List.mem_singleton.2 rfl) rfl "dump".toList
  obtain ⟨rest, _, hrest⟩ := (h _ _ hvalid).1 _ (List.mem_singleton.2 rfl) _ (List.mem_cons_of_mem _ (List.mem_singleton.2 rfl))
  have hfile : (resolveDumpPath ⟨true, ["home".toList, "u".toList] ++ ["dump".toList]⟩ plainDump "/tmp/x".toList [] []).location
      homeOnly.cwd = ["tmp".toList, "x.bson".toList] := by decide
  have hdir : (⟨true, ["home".toList, "u".toList] ++ ["dump".toList]⟩ : Path).location homeOnly.cwd =
      ["home".toList, "u".toList, "dump".toList] := by decide
  rw [hfile, hdir] at hrest
  have hlen := congrArg List.length hrest
  simp at hlen

/-- A dump of two collections with plain names. -/
theorem plain_dump_confined : Confined homeOnly plainDump [⟨"a".toList, [], []⟩, ⟨"b".toList, [], []⟩] ↔
    (∀ d ∈ [⟨"a".toList, [], []⟩, ⟨"b".toList, [], []⟩], Staying (plainDump.nameOf d)) ∧
      ∀ d ∈ [⟨"a".toList, [], []⟩, ⟨"b".toList, [], []⟩], ∀ d' ∈ [⟨"a".toList, [], []⟩, ⟨"b".toList, [], []⟩],
        d.collection ≠ d'.collection → placeOf (plainDump.nameOf d) ≠ placeOf (plainDump.nameOf d') :=
  dump_confined_iff homeOnly_hasStandardDir plainDump _

end ImportExport
