import Mathlib.Data.List.Basic

/-!
# Unix paths

`std::path::Path` on Unix, up to the text between its components, and the directory that a path leads to when no symbolic
link is met. `Descends` says of relative components that they never climb above the directory they start from: then they
lead to a place below it, whatever it is (`walk_of_descends`); and if they do climb, then from the directories `s/a` and
`s/b` they lead to the same place (`walk_of_not_descends`).
-/

namespace UnixPath

abbrev Component := List Char

def parentDir : Component := ['.', '.']

def currentDir : Component := ['.']

/-- `split('/')`. -/
def segments : List Char → List (List Char)
  | [] => [[]]
  | c :: cs =>
    if c = '/' then [] :: segments cs
    else match segments cs with
      | s :: ss => (c :: s) :: ss
      | [] => [[c]]

/-- A path as its components say it. -/
structure Path where
  isAbs : Bool
  comps : List Component
deriving DecidableEq, Repr

/-- `components()`: empty components are dropped, and `.` everywhere but at the start of a relative path. -/
def Path.parse (text : List Char) : Path :=
  let isAbs := decide (text.head? = some '/')
  let parts := (segments text).filter (· ≠ [])
  ⟨isAbs, if isAbs then parts.filter (· ≠ currentDir)
    else match parts with
      | [] => []
      | first :: rest => first :: rest.filter (· ≠ currentDir)⟩

/-- `join`: an absolute path replaces the directory. -/
def Path.join (dir p : Path) : Path := if p.isAbs then p else ⟨dir.isAbs, dir.comps ++ p.comps⟩

def Path.parent (p : Path) : Option Path := if p.comps = [] then none else some ⟨p.isAbs, p.comps.dropLast⟩

def Path.startsWith (p root : Path) : Bool := p.isAbs = root.isAbs && root.comps.isPrefixOf p.comps

/-- One component of a walk through the directories. -/
def enter (dir : List Component) (c : Component) : List Component :=
  if c = parentDir then dir.dropLast else if c = currentDir then dir else dir ++ [c]

def walk (dir cs : List Component) : List Component := cs.foldl enter dir

/-- Where the path leads to from a working directory. -/
def Path.location (cwd : List Component) (p : Path) : List Component := walk (if p.isAbs then [] else cwd) p.comps

/-- From `n` directories below the start, the components never climb above the start. -/
def Descends : Nat → List Component → Prop
  | _, [] => True
  | n, c :: cs => if c = parentDir then 0 < n ∧ Descends (n - 1) cs else if c = currentDir then Descends n cs else Descends (n + 1) cs

instance decidableDescends : ∀ (n : Nat) (cs : List Component), Decidable (Descends n cs)
  | _, [] => isTrue trivial
  | n, c :: cs =>
    if hp : c = parentDir then
      have := decidableDescends (n - 1) cs
      decidable_of_iff (0 < n ∧ Descends (n - 1) cs) (by rw [Descends, if_pos hp])
    else if hc : c = currentDir then
      have := decidableDescends n cs
      decidable_of_iff (Descends n cs) (by rw [Descends, if_neg hp, if_pos hc])
    else
      have := decidableDescends (n + 1) cs
      decidable_of_iff (Descends (n + 1) cs) (by rw [Descends, if_neg hp, if_neg hc])

/-- A component that names a file or a directory. -/
def Normal (c : Component) : Prop := c ≠ [] ∧ c ≠ currentDir ∧ c ≠ parentDir

instance (c : Component) : Decidable (Normal c) := inferInstanceAs (Decidable (_ ∧ _ ∧ _))

/-! ## Walks -/

theorem walk_append (dir cs ds : List Component) : walk dir (cs ++ ds) = walk (walk dir cs) ds := List.foldl_append

theorem walk_normal (dir : List Component) (h : Normal c) :
    walk dir (cs ++ [c]) = walk dir cs ++ [c] := by
  rw [walk_append, walk, List.foldl_cons, List.foldl_nil, enter, if_neg h.2.2, if_neg h.2.1]

theorem walk_of_descends (dir : List Component) : ∀ {below : List Component} {cs : List Component}, Descends below.length cs →
    walk (dir ++ below) cs = dir ++ walk below cs
  | below, [], _ => rfl
  | below, c :: cs, h => by
    rw [Descends] at h
    rw [walk, walk, List.foldl_cons, List.foldl_cons, enter, enter]
    by_cases hp : c = parentDir
    · rw [if_pos hp] at h
      have hne : below ≠ [] := List.ne_nil_of_length_pos h.1
      rw [if_pos hp, if_pos hp, List.dropLast_append_of_ne_nil hne]
      exact walk_of_descends dir (by rw [List.length_dropLast]; exact h.2)
    · rw [if_neg hp] at h
      rw [if_neg hp, if_neg hp]
      by_cases hc : c = currentDir
      · rw [if_pos hc] at h
        rw [if_pos hc, if_pos hc]
        exact walk_of_descends dir h
      · rw [if_neg hc] at h
        rw [if_neg hc, if_neg hc, List.append_assoc]
        exact walk_of_descends dir (by simpa using h)

theorem walk_of_not_descends (dir : List Component) (a b : Component) : ∀ {below : List Component} {cs : List Component},
    ¬ Descends below.length cs → walk (dir ++ a :: below) cs = walk (dir ++ b :: below) cs
  | below, [], h => absurd trivial h
  | below, c :: cs, h => by
    rw [Descends] at h
    rw [walk, walk, List.foldl_cons, List.foldl_cons, enter, enter]
    by_cases hp : c = parentDir
    · rw [if_pos hp] at h
      rw [if_pos hp, if_pos hp]
      cases hbelow : below with
      | nil => simp
      | cons d ds =>
        have hne : below ≠ [] := by simp [hbelow]
        have hdrop : ∀ x : Component, (dir ++ x :: below).dropLast = dir ++ x :: below.dropLast := by
          intro x
          rw [List.dropLast_append_of_ne_nil (by simp), List.dropLast_cons_of_ne_nil hne]
        rw [← hbelow, hdrop, hdrop]
        refine walk_of_not_descends dir a b fun hrest => h ⟨List.length_pos_of_ne_nil hne, ?_⟩
        rwa [List.length_dropLast] at hrest
    · rw [if_neg hp] at h
      rw [if_neg hp, if_neg hp]
      by_cases hc : c = currentDir
      · rw [if_pos hc] at h
        rw [if_pos hc, if_pos hc]
        exact walk_of_not_descends dir a b h
      · rw [if_neg hc] at h
        rw [if_neg hc, if_neg hc, List.append_assoc, List.append_assoc]
        exact walk_of_not_descends dir a b (by simpa using h)

/-! ## Texts -/

theorem segments_of_notMem : ∀ {text : List Char}, '/' ∉ text → segments text = [text]
  | [], _ => rfl
  | c :: cs, h => by
    rw [List.mem_cons, not_or] at h
    rw [segments, if_neg (Ne.symm h.1), segments_of_notMem h.2]

theorem segments_append (h : '/' ∉ ending) : ∀ text : List Char, ∃ front last,
    segments text = front ++ [last] ∧ segments (text ++ ending) = front ++ [last ++ ending]
  | [] => ⟨[], [], rfl, segments_of_notMem h⟩
  | c :: cs => by
    obtain ⟨front, last, htext, hending⟩ := segments_append h cs
    rw [List.cons_append, segments, segments, htext, hending]
    by_cases hc : c = '/'
    · exact ⟨[] :: front, last, by simp [hc], by simp [hc]⟩
    · rw [if_neg hc, if_neg hc]
      cases front with
      | nil => exact ⟨[], c :: last, rfl, rfl⟩
      | cons s front => exact ⟨(c :: s) :: front, last, rfl, rfl⟩

theorem parse_append (hslash : '/' ∉ ending) (hlen : 2 < ending.length) (text : List Char) :
    ∃ front last, (Path.parse (text ++ ending)).comps = front ++ [last ++ ending] ∧ Normal (last ++ ending) := by
  obtain ⟨front, last, _, hsegments⟩ := segments_append hslash text
  have hnormal : Normal (last ++ ending) := by
    have hlast : 2 < (last ++ ending).length := by
      rw [List.length_append]
      omega
    refine ⟨?_, ?_, ?_⟩
    all_goals
      intro heq
      rw [heq] at hlast
      exact absurd hlast (by decide)
  have hparts : (segments (text ++ ending)).filter (· ≠ []) = front.filter (· ≠ []) ++ [last ++ ending] := by
    rw [hsegments, List.filter_append]
    simp [hnormal.1]
  unfold Path.parse
  simp only [hparts]
  split
  · exact ⟨(front.filter (· ≠ [])).filter (· ≠ currentDir), last, by rw [List.filter_append]; simp [hnormal.2.1], hnormal⟩
  · cases hfront : front.filter (· ≠ []) with
    | nil => exact ⟨[], last, by simp, hnormal⟩
    | cons first rest =>
      exact ⟨first :: rest.filter (· ≠ currentDir), last, by simp [List.filter_append, hnormal.2.1], hnormal⟩

end UnixPath

/-!
## Symbolic links

The place that a path leads to in a file system with symbolic links: one component after the other, from a directory that no link
is on the way to. The components of a link take its place, from the directory it stands in or from the root. With `create`, a last
component that names nothing leads to the place where it would stand, as for `open` with `O_CREAT`; then links are followed as well.
What a path leads to is determined component by component (`reaches_cons`), and a path goes on from where its first components
lead (`reaches_append`).
-/

namespace UnixPath

inductive Node where
  | dir
  | file
  | link (target : Path)
deriving DecidableEq, Repr

/-- What stands at a place, named by the components from the root. -/
abbrev Nodes := List Component → Option Node

/-- What one component does. -/
inductive Move where
  | goTo (place : List Component)
  | follow (target : Path)
  | missing
  | stuck
deriving DecidableEq, Repr

def move (nodes : Nodes) (dir : List Component) (c : Component) : Move :=
  match nodes dir with
  | some .dir =>
    if c = parentDir then .goTo dir.dropLast
    else if c = currentDir then .goTo dir
    else match nodes (dir ++ [c]) with
      | some (.link target) => .follow target
      | some _ => .goTo (dir ++ [c])
      | none => .missing
  | _ => .stuck

/-- Where the components of a path start. -/
def Path.start (p : Path) (dir : List Component) : List Component := if p.isAbs then [] else dir

/-- The components lead from the directory to the place. -/
inductive Reaches (nodes : Nodes) (create : Bool) : List Component → List Component → List Component → Prop
  | here (dir) : Reaches nodes create dir [] dir
  | goTo {dir c cs d place} : move nodes dir c = .goTo d → Reaches nodes create d cs place → Reaches nodes create dir (c :: cs) place
  | follow {dir c cs t place} : move nodes dir c = .follow t → Reaches nodes create (t.start dir) (t.comps ++ cs) place →
      Reaches nodes create dir (c :: cs) place
  | create {dir c} : move nodes dir c = .missing → create = true → Reaches nodes create dir [c] (dir ++ [c])

section
variable {nodes : Nodes} {create : Bool} {dir place d : List Component} {c : Component} {cs ds : List Component}

@[simp] theorem reaches_nil : Reaches nodes create dir [] place ↔ place = dir := by
  constructor
  · intro h
    cases h
    rfl
  · rintro rfl
    exact .here _

theorem reaches_goTo (hm : move nodes dir c = .goTo d) : Reaches nodes create dir (c :: cs) place ↔ Reaches nodes create d cs place := by
  refine ⟨fun h => ?_, .goTo hm⟩
  cases h with
  | goTo h hrest =>
    rw [hm] at h
    cases h
    exact hrest
  | follow h => rw [hm] at h; cases h
  | create h => rw [hm] at h; cases h

theorem reaches_follow (hm : move nodes dir c = .follow t) :
    Reaches nodes create dir (c :: cs) place ↔ Reaches nodes create (t.start dir) (t.comps ++ cs) place := by
  refine ⟨fun h => ?_, .follow hm⟩
  cases h with
  | goTo h => rw [hm] at h; cases h
  | follow h hrest =>
    rw [hm] at h
    cases h
    exact hrest
  | create h => rw [hm] at h; cases h

theorem reaches_missing (hm : move nodes dir c = .missing) :
    Reaches nodes create dir (c :: cs) place ↔ create = true ∧ cs = [] ∧ place = dir ++ [c] := by
  constructor
  · intro h
    cases h with
    | goTo h => rw [hm] at h; cases h
    | follow h => rw [hm] at h; cases h
    | create h hc => exact ⟨hc, rfl, rfl⟩
  · rintro ⟨hc, rfl, rfl⟩
    exact .create hm hc

theorem reaches_stuck (hm : move nodes dir c = .stuck) : ¬ Reaches nodes create dir (c :: cs) place := by
  intro h
  cases h with
  | goTo h => rw [hm] at h; cases h
  | follow h => rw [hm] at h; cases h
  | create h => rw [hm] at h; cases h

/-- **A path goes on from where its first components lead.** -/
theorem reaches_append (h : Reaches nodes false dir cs d) :
    Reaches nodes create dir (cs ++ ds) place ↔ Reaches nodes create d ds place := by
  induction h with
  | here dir => rfl
  | goTo hm _ ih => rw [List.cons_append, reaches_goTo hm, ih]
  | follow hm _ ih => rw [List.cons_append, reaches_follow hm, ← List.append_assoc, ih]
  | create _ hfalse => cases hfalse

theorem dir_of_move (h : move nodes dir c ≠ .stuck) : nodes dir = some .dir := by
  unfold move at h
  split at h
  · next hdir => exact hdir
  · exact absurd rfl h

/-- The last component: the directory above, a link, or a place that the directory is on the way to. -/
inductive Last (nodes : Nodes) (d : List Component) (c : Component) : Prop
  | up (hc : c = parentDir) (hm : move nodes d c = .goTo d.dropLast)
  | link (t : Path) (hdir : nodes d = some .dir) (hc : c ≠ parentDir ∧ c ≠ currentDir) (hlink : nodes (d ++ [c]) = some (.link t))
      (hm : move nodes d c = .follow t)
  | below (h : ∀ {create place}, Reaches nodes create d [c] place → d <+: place)

theorem last_cases (nodes : Nodes) (d : List Component) (c : Component) : Last nodes d c := by
  have hmove : ∀ {m}, move nodes d c = m → (m = .goTo d ∨ m = .goTo (d ++ [c]) ∨ m = .missing ∨ m = .stuck) → Last nodes d c := by
    rintro m hm hcases
    refine .below fun h => ?_
    rcases hcases with rfl | rfl | rfl | rfl
    · rw [reaches_goTo hm, reaches_nil] at h
      exact h ▸ List.prefix_refl d
    · rw [reaches_goTo hm, reaches_nil] at h
      exact h ▸ List.prefix_append d [c]
    · rw [reaches_missing hm] at h
      exact h.2.2 ▸ List.prefix_append d [c]
    · exact absurd h (reaches_stuck hm)
  cases hdir : nodes d with
  | none => exact hmove (m := .stuck) (by simp [move, hdir]) (by simp)
  | some n =>
    cases n with
    | file => exact hmove (m := .stuck) (by simp [move, hdir]) (by simp)
    | link t => exact hmove (m := .stuck) (by simp [move, hdir]) (by simp)
    | dir =>
      by_cases hp : c = parentDir
      · exact .up hp (by simp [move, hdir, hp])
      by_cases hc : c = currentDir
      · exact hmove (m := .goTo d) (by simp [move, hdir, hc, currentDir, parentDir]) (by simp)
      cases hnode : nodes (d ++ [c]) with
      | none => exact hmove (m := .missing) (by simp [move, hdir, hp, hc, hnode]) (by simp)
      | some n =>
        cases n with
        | link t => exact .link t hdir ⟨hp, hc⟩ hnode (by simp [move, hdir, hp, hc, hnode])
        | dir => exact hmove (m := .goTo (d ++ [c])) (by simp [move, hdir, hp, hc, hnode]) (by simp)
        | file => exact hmove (m := .goTo (d ++ [c])) (by simp [move, hdir, hp, hc, hnode]) (by simp)

end

end UnixPath
