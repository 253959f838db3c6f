import NosqlBuddy.ImportExport.DumpPaths

/-!
# Where a validated path leads

| here | there |
| --- | --- |
| `validateTargetPath`, `validateSourcePath`, `validateSourceDir` | `io_util.rs:18`, `:24`, `:30` |
| `LinkedPlatform` | a file system with symbolic links, and what `canonicalize`, `is_file` and `is_dir` ask of it |

A path is validated through the canonical path of its parent, and returned as it came. Its last component is looked at by no one: it
may be `..`, or a link (`validated_iff`, `above_home_validated`).
-/

namespace ImportExport
open UnixPath

/-! ## The functions -/

structure LinkedPlatform extends Platform where
  nodes : Nodes
  isDir : Path → Bool
  /-- A canonical path is the place that the path leads to. -/
  canonicalize_ok : ∀ {p q}, canonicalize p = .ok q → q.isAbs = true ∧ Reaches nodes false (p.start cwd) p.comps q.comps

/-- `validate_source_path` (io_util.rs:24). -/
def validateSourcePath (env : Platform) (target : Path) : Except AppError Path := validateUserPath env target "import" true

/-- `validate_source_dir` (io_util.rs:30). -/
def validateSourceDir (env : LinkedPlatform) (target : Path) : Except AppError Path :=
  match target.parent with
  | none => .error (.validation "restore path has no parent directory")
  | some parent =>
    match env.canonicalize parent with
    | .error e => .error (.validation s!"invalid restore directory: {e}")
    | .ok parentCanon =>
      if ¬ env.allowed.any parentCanon.startsWith then
        .error (.validation "restore path must be under your Documents, Downloads, Desktop, or Home directory")
      else if ! env.isDir target then .error (.validation "restore source directory does not exist")
      else .ok target

/-! ## The statement -/

/-- The place is one of the allowed directories or lies below one. -/
def LinkedPlatform.Below (env : LinkedPlatform) (place : List Component) : Prop := ∃ root ∈ env.allowed, root.comps <+: place

/-- What opening, creating or listing the validated path reaches lies in an allowed directory. -/
def WithinRoots (env : LinkedPlatform) (result : Except AppError Path) : Prop :=
  ∀ p, result = .ok p → ∀ place, Reaches env.nodes true (p.start env.cwd) p.comps place → env.Below place

/-- In an allowed directory, `..` is in an allowed directory as well, and a last component that is a link leads to one. -/
def LastStays (env : LinkedPlatform) (target : Path) : Prop :=
  ∀ front last d, target.comps = front ++ [last] → env.canonicalize ⟨target.isAbs, front⟩ = .ok d →
    env.allowed.any d.startsWith = true → env.nodes d.comps = some .dir →
      (last = parentDir → env.Below d.comps.dropLast) ∧
      ∀ t, last ≠ parentDir → last ≠ currentDir → env.nodes (d.comps ++ [last]) = some (.link t) →
        ∀ place, Reaches env.nodes true (t.start d.comps) t.comps place → env.Below place

/-! ## The parent -/

/-- The parent of the path is allowed. -/
def ParentAllowed (env : LinkedPlatform) (target : Path) : Prop := ∃ front last d, target.comps = front ++ [last] ∧
  env.canonicalize ⟨target.isAbs, front⟩ = .ok d ∧ env.allowed.any d.startsWith = true

theorem parent_concat {target : Path} {front : List Component} {last : Component} (h : target.comps = front ++ [last]) :
    target.parent = some ⟨target.isAbs, front⟩ := by
  rw [Path.parent, h, if_neg (by simp), List.dropLast_concat]

theorem parent_none {target : Path} (h : target.comps = []) : target.parent = none := by rw [Path.parent, if_pos h]

section
variable {env : LinkedPlatform} {target p : Path}

theorem validateUserPath_allowed {operation : String} {mustExist : Bool}
    (h : validateUserPath env.toPlatform target operation mustExist = .ok p) : p = target ∧ ParentAllowed env target := by
  refine ⟨validateUserPath_ok h, ?_⟩
  rcases List.eq_nil_or_concat target.comps with hnil | ⟨front, last, hcomps⟩
  · rw [validateUserPath, parent_none hnil] at h
    cases h
  · rw [List.concat_eq_append] at hcomps
    rw [validateUserPath, parent_concat hcomps] at h
    simp only at h
    split at h
    · cases h
    · next d hd =>
      split at h
      · cases h
      · next hallowed => exact ⟨front, last, d, hcomps, hd, not_not.1 hallowed⟩

theorem validateSourceDir_allowed (h : validateSourceDir env target = .ok p) : p = target ∧ ParentAllowed env target := by
  rcases List.eq_nil_or_concat target.comps with hnil | ⟨front, last, hcomps⟩
  · rw [validateSourceDir, parent_none hnil] at h
    cases h
  · rw [List.concat_eq_append] at hcomps
    rw [validateSourceDir, parent_concat hcomps] at h
    simp only at h
    split at h
    · cases h
    · next d hd =>
      split at h
      · cases h
      · next hallowed =>
        split at h
        · cases h
        · exact ⟨(Except.ok.inj h).symm, front, last, d, hcomps, hd, not_not.1 hallowed⟩

theorem validateTargetPath_of_allowed (h : ParentAllowed env target) : validateTargetPath env.toPlatform target = .ok target := by
  obtain ⟨front, last, d, hcomps, hd, hallowed⟩ := h
  rw [validateTargetPath, validateUserPath, parent_concat hcomps]
  simp only [hd, hallowed]
  rfl

theorem below_of_startsWith {d : Path} (h : env.allowed.any d.startsWith = true) {place : List Component} (hplace : d.comps <+: place) :
    env.Below place := by
  obtain ⟨root, hroot, hstarts⟩ := List.any_eq_true.1 h
  rw [Path.startsWith, Bool.and_eq_true] at hstarts
  exact ⟨root, hroot, (List.isPrefixOf_iff_prefix.1 hstarts.2).trans hplace⟩

theorem reaches_last (hcomps : target.comps = front ++ [last])
    (hd : env.canonicalize ⟨target.isAbs, front⟩ = .ok d) (place : List Component) :
    Reaches env.nodes true (target.start env.cwd) target.comps place ↔ Reaches env.nodes true d.comps [last] place := by
  rw [hcomps]
  exact reaches_append (env.canonicalize_ok hd).2

theorem within_of_lastStays (h : LastStays env target) (hparent : ParentAllowed env target) (hplace : Reaches env.nodes true (target.start env.cwd) target.comps place) : env.Below place := by
  obtain ⟨front, last, d, hcomps, hd, hallowed⟩ := hparent
  rw [reaches_last hcomps hd] at hplace
  cases last_cases env.nodes d.comps last with
  | up hc hm =>
    rw [reaches_goTo hm, reaches_nil] at hplace
    have hdir : env.nodes d.comps = some .dir := dir_of_move (by rw [hm]; exact fun h => nomatch h)
    rw [hplace]
    exact (h front last d hcomps hd hallowed hdir).1 hc
  | link t hdir hc hlink hm =>
    rw [reaches_follow hm, List.append_nil] at hplace
    exact (h front last d hcomps hd hallowed hdir).2 t hc.1 hc.2 hlink place hplace
  | below hbelow => exact below_of_startsWith hallowed (hbelow hplace)

theorem lastStays_of_within (h : WithinRoots env (validateTargetPath env.toPlatform target)) : LastStays env target := by
  intro front last d hcomps hd hallowed hdir
  have hok := validateTargetPath_of_allowed ⟨front, last, d, hcomps, hd, hallowed⟩
  have hplaces : ∀ place, Reaches env.nodes true d.comps [last] place → env.Below place := fun place hplace =>
    h target hok place ((reaches_last hcomps hd place).2 hplace)
  constructor
  · rintro rfl
    refine hplaces _ ((reaches_goTo ?_).2 (.here _))
    rw [move, hdir, if_pos rfl]
  · intro t hup hhere hlink place hplace
    refine hplaces place ((reaches_follow (t := t) ?_).2 (by rwa [List.append_nil]))
    simp only [move, hdir, if_neg hup, if_neg hhere, hlink]

end

/-- **Validated paths are contained** exactly when the last component does not lead out of the directory that is checked. -/
theorem validated_iff (env : LinkedPlatform) (text : List Char) :
    (WithinRoots env (validateTargetPath env.toPlatform (.parse text)) ∧ WithinRoots env (validateSourcePath env.toPlatform (.parse text)) ∧
      WithinRoots env (validateSourceDir env (.parse text))) ↔ LastStays env (.parse text) := by
  constructor
  · exact fun h => lastStays_of_within h.1
  · intro h
    refine ⟨fun p hp place hplace => ?_, fun p hp place hplace => ?_, fun p hp place hplace => ?_⟩
    · obtain ⟨rfl, hparent⟩ := validateUserPath_allowed hp
      exact within_of_lastStays h hparent hplace
    · obtain ⟨rfl, hparent⟩ := validateUserPath_allowed hp
      exact within_of_lastStays h hparent hplace
    · obtain ⟨rfl, hparent⟩ := validateSourceDir_allowed hp
      exact within_of_lastStays h hparent hplace

/-! ### The directory above -/

/-- The directories of a file system with one user. -/
def homeDirs : List (List Component) := [[], ["home".toList], ["home".toList, "u".toList]]

theorem reaches_home (h : cs ∈ homeDirs) :
    Reaches (fun place => if place ∈ homeDirs then some .dir else none) false [] cs cs := by
  simp only [homeDirs, List.mem_cons, List.not_mem_nil, or_false] at h
  rcases h with rfl | rfl | rfl
  · exact .here _
  · exact .goTo (d := ["home".toList]) (by decide) (.here _)
  · exact .goTo (d := ["home".toList]) (by decide) (.goTo (d := ["home".toList, "u".toList]) (by decide) (.here _))

def homeUser : LinkedPlatform where
  cwd := []
  canonicalize p := if p.isAbs = true ∧ p.comps ∈ homeDirs then .ok p else .error "No such file or directory (os error 2)"
  documentDir := none
  downloadDir := none
  desktopDir := none
  homeDir := some ⟨true, ["home".toList, "u".toList]⟩
  isFile _ := false
  isDir p := p.comps ∈ homeDirs || p.comps = ["home".toList, "u".toList, parentDir]
  nodes place := if place ∈ homeDirs then some .dir else none
  canonicalize_ok {p q} h := by
    split at h
    · next hp =>
      obtain rfl := Except.ok.inj h
      refine ⟨hp.1, ?_⟩
      rw [Path.start, if_pos hp.1]
      exact reaches_home hp.2
    · cases h

/-- The path `/home/u/..` is validated for the user at home in `/home/u`, and leads to `/home`. -/
theorem above_home_validated : ¬ ∀ (env : LinkedPlatform) (text : List Char),
    WithinRoots env (validateTargetPath env.toPlatform (.parse text)) ∧
      WithinRoots env (validateSourcePath env.toPlatform (.parse text)) ∧ WithinRoots env (validateSourceDir env (.parse text)) := by
  intro h
  have hparse : Path.parse "/home/u/..".toList = ⟨true, ["home".toList, "u".toList, parentDir]⟩ := by decide
  have hwithin := (h homeUser "/home/u/..".toList).1
  rw [hparse] at hwithin
  have hplace : Reaches homeUser.nodes true [] ["home".toList, "u".toList, parentDir] ["home".toList] :=
    .goTo (d := ["home".toList]) (by decide) (.goTo (d := ["home".toList, "u".toList]) (by decide)
      (.goTo (d := ["home".toList]) (by decide) (.here _)))
  obtain ⟨root, hroot, hprefix⟩ := hwithin ⟨true, ["home".toList, "u".toList, parentDir]⟩ rfl ["home".toList] hplace
  have hallowed : homeUser.toPlatform.allowed = [⟨true, ["home".toList, "u".toList]⟩] := rfl
  rw [hallowed, List.mem_singleton] at hroot
  subst hroot
  exact absurd hprefix.length_le (by decide)

end ImportExport
