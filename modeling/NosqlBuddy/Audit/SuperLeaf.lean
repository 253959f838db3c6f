import Mathlib.Data.List.Destutter
import NosqlBuddy.Lib.Cut
import NosqlBuddy.Audit.Retention
import NosqlBuddy.Oplog.Bson

/-!
# Leaves of the super-tree

`super_leaf` (mod.rs:1576) hashes `deployment|database|root`, with names that may hold the mark. The root is
always 64 digits, so it can be told; where the deployment id ends cannot. `identifies_iff`: two different
domains share a leaf exactly when one deployment id goes on where the other ends, with a mark and a text that
the other database begins with.

| here | there |
| --- | --- |
| `deriveDeploymentId` | `derive_deployment_id` (change_stream.rs:66), over the fields of a `hello` reply |
| `hostFingerprint` | the fingerprint of a deployment without a set name |
-/

namespace Audit
open Merkle (CollisionFree)

/-! ## Deployment ids -/

def documentStr (doc : Oplog.Document) (key : String) : Option String :=
  match doc.get key with
  | some (.string s) => some s
  | _ => none

/-- The strings of an array field. -/
def documentStrings (doc : Oplog.Document) (key : String) : List String :=
  match doc.get key with
  | some (.array elems) => elems.filterMap fun b => match b with
    | .string s => some s
    | _ => none
  | _ => []

section
variable (P : Prims)

def hostFingerprint (hosts : List String) : String :=
  if hosts = [] then "unknown"
  else String.ofList (Bytes.hexEncode ((P.sha256 (strBytes (",".intercalate hosts))).1.take 8))

def deriveDeploymentId (hello : Oplog.Document) : String :=
  match (documentStr hello "setName").filter (· ≠ "") with
  | some setName => s!"rs:{setName}"
  | none =>
    let isSharded := documentStr hello "msg" = some "isdbgrid"
    let advertised := documentStrings hello "hosts"
    let hosts := if advertised = [] then ((documentStr hello "me").filter (· ≠ "")).toList else advertised
    let fingerprint := hostFingerprint P ((hosts.mergeSort fun a b => decide (a ≤ b)).destutter (· ≠ ·))
    if isSharded then s!"sharded:{fingerprint}" else s!"standalone:{fingerprint}"

theorem deriveDeploymentId_set (h : documentStr hello "setName" = some setName)
    (hne : setName ≠ "") : deriveDeploymentId P hello = "rs:" ++ setName := by
  have hsome : (documentStr hello "setName").filter (· ≠ "") = some setName := by
    rw [h, Option.filter_some, if_pos (by simpa using hne)]
  rw [deriveDeploymentId, hsome]
  rfl

/-! ## What a leaf identifies -/

/-- Equal leaves are leaves of the same domain with the same root. -/
def Identifies (d b : String) (r : Fr) (d' b' : String) (r' : Fr) : Prop :=
  superLeaf P d b (frToHex r) = superLeaf P d' b' (frToHex r') → d = d' ∧ b = b' ∧ r = r'

end

/-- The deployment `d` goes on where `d'` ends, with a mark and a text before `b` in the database `b'`. -/
def Shifted (d b d' b' : String) : Prop := ∃ t, d = d' ++ "|" ++ t ∧ b' = t ++ "|" ++ b

theorem toList_superPayload (d b r : String) : (superPayload d b r).toList = (d.toList ++ '|' :: b.toList) ++ '|' :: r.toList := by
  have htext : ∀ s : String, toString s = s := fun _ => rfl
  have hmark : "|".toList = ['|'] := by decide
  simp [superPayload, htext, hmark]

theorem superPayload_eq_iff :
    superPayload d b (frToHex r) = superPayload d' b' (frToHex r') ↔
      r = r' ∧ ((d = d' ∧ b = b') ∨ Shifted d b d' b' ∨ Shifted d' b' d b) := by
  have hshift : ∀ d b d' b' : String, Shifted d b d' b' ↔
      ∃ t, d.toList = d'.toList ++ '|' :: t ∧ b'.toList = t ++ '|' :: b.toList := by
    intro d b d' b'
    constructor
    · rintro ⟨t, rfl, rfl⟩
      exact ⟨t.toList, by simp, by simp⟩
    · rintro ⟨t, hd, hb⟩
      exact ⟨String.ofList t, String.toList_inj.1 (by simp [hd]), String.toList_inj.1 (by simp [hb])⟩
  have hd : d = d' ↔ d.toList = d'.toList := String.toList_inj.symm
  have hb : b = b' ↔ b.toList = b'.toList := String.toList_inj.symm
  rw [hshift, hshift, hd, hb, ← Cut.joined_eq_iff, ← String.toList_inj, toList_superPayload, toList_superPayload]
  constructor
  · intro h
    obtain ⟨hnames, hroot⟩ := List.append_inj' h (by simp [length_frToHex])
    obtain ⟨_, htext⟩ := List.cons.inj hroot
    exact ⟨frToHex_injective (String.toList_inj.1 htext), hnames⟩
  · rintro ⟨rfl, hnames⟩
    rw [hnames]

theorem Shifted.ne (h : Shifted d b d' b') : d ≠ d' := by
  obtain ⟨t, rfl, _⟩ := h
  intro heq
  have hlen := congrArg (fun s => s.toList.length) heq
  simp at hlen

section
variable {P : Prims}

/-- **A super-leaf identifies its domain**, unless a mark in the names lets the deployment end elsewhere. -/
theorem identifies_iff {d b d' b' : String} {r r' : Fr} (hfree : CollisionFree (leafFromPayload P "domain_root" "" "")
    [superPayload d b (frToHex r), superPayload d' b' (frToHex r')]) :
    Identifies P d b r d' b' r' ↔ ¬ (r = r' ∧ (Shifted d b d' b' ∨ Shifted d' b' d b)) := by
  have hleaf : superLeaf P d b (frToHex r) = superLeaf P d' b' (frToHex r') ↔
      superPayload d b (frToHex r) = superPayload d' b' (frToHex r') := by
    constructor
    · intro h
      exact hfree _ (by simp) _ (by simp) h
    · intro h
      unfold superLeaf
      rw [h]
      rfl
  rw [Identifies, hleaf, superPayload_eq_iff]
  constructor
  · rintro hid ⟨rfl, hshifted⟩
    obtain ⟨hd, _⟩ := hid ⟨rfl, .inr hshifted⟩
    rcases hshifted with h | h
    · exact h.ne hd
    · exact h.ne hd.symm
  · rintro hnot ⟨hr, hnames | hshifted⟩
    · exact ⟨hnames.1, hnames.2, hr⟩
    · exact absurd ⟨hr, hshifted⟩ hnot

theorem not_shifted (h : '|' ∉ d.toList ∨ '|' ∉ b'.toList) : ¬ Shifted d b d' b' := by
  rintro ⟨t, rfl, rfl⟩
  rcases h with h | h
  · simp at h
  · simp at h

end

/-- A digest that keeps the first bytes. -/
def headPrims : Prims := { demoPrims with sha256 := fun bytes => ⟨Bytes.toBe 32 (Bytes.ofBe (bytes.take 20) * 65536), by simp⟩ }

/-- Two databases of one replica set. -/
theorem identifies_two : Identifies headPrims "rs:rs0" "shop" 1 "rs:rs0" "stock" 1 :=
  (identifies_iff (by decide +kernel)).2 fun h => h.2.elim (not_shifted (.inl (by decide +kernel)))
    (not_shifted (.inl (by decide +kernel)))

/-- Database `c` of the set `a|b` and database `b|c` of the set `a`. -/
theorem shifted_leaf : CollisionFree (leafFromPayload headPrims "domain_root" "" "")
      [superPayload (deriveDeploymentId headPrims [("setName", .string "a|b")]) "c" (frToHex 1),
        superPayload (deriveDeploymentId headPrims [("setName", .string "a")]) "b|c" (frToHex 1)] ∧
    ¬ Identifies headPrims (deriveDeploymentId headPrims [("setName", .string "a|b")]) "c" 1
      (deriveDeploymentId headPrims [("setName", .string "a")]) "b|c" 1 := by
  have hlong : deriveDeploymentId headPrims [("setName", .string "a|b")] = "rs:a|b" := by
    have hname : documentStr [("setName", .string "a|b")] "setName" = some "a|b" := by simp [documentStr, Oplog.Document.get]
    exact (deriveDeploymentId_set _ hname (by decide)).trans (by decide)
  have hshort : deriveDeploymentId headPrims [("setName", .string "a")] = "rs:a" := by
    have hname : documentStr [("setName", .string "a")] "setName" = some "a" := by simp [documentStr, Oplog.Document.get]
    exact (deriveDeploymentId_set _ hname (by decide)).trans (by decide)
  rw [hlong, hshort]
  have hsame : superPayload "rs:a|b" "c" (frToHex 1) = superPayload "rs:a" "b|c" (frToHex 1) :=
    superPayload_eq_iff.2 ⟨rfl, .inr (.inl ⟨"b", by decide, by decide⟩)⟩
  refine ⟨?_, fun hid => ?_⟩
  · rw [hsame]
    intro x hx y hy _
    simp only [List.mem_cons, List.not_mem_nil, or_false, or_self] at hx hy
    rw [hx, hy]
  · obtain ⟨hd, _⟩ := hid (by rw [superLeaf, superLeaf, hsame]; rfl)
    exact absurd hd (by decide)

end Audit
