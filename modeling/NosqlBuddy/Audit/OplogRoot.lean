import NosqlBuddy.Audit.OplogRanges
import NosqlBuddy.Lib.PairTree
import NosqlBuddy.Oplog.Injective

/-!
# What an oplog root determines

`OplogMerkleTree::from_leaves` (oplog.rs:145) is the tree of `PairTree` over digests; the tree without
leaves has a root of its own. "Omitting even one changes the root" (README.md:1042): `omission_changes_root`
says so for leaf hashes without repetitions, as long as SHA-256 has no collision on what the two trees hash
and no leaf hash is the hash of an inner node.
-/

namespace Audit
open Merkle (CollisionFree)

section
variable (P : Prims)

/-- What a node hashes. -/
def nodeInput (p : Bytes32 × Bytes32) : List UInt8 := p.1.val ++ p.2.val

def nodeHash (x y : Bytes32) : Bytes32 := P.sha256 (nodeInput (x, y))

/-- The root of the tree without leaves is the hash of this. -/
def emptyTreeInput : List UInt8 := strBytes "empty_oplog_tree"

/-- What the inner nodes of a tree hash. -/
def nodeInputs (leaves : List Bytes32) : List (List UInt8) := (PairTree.hashed (nodeHash P) leaves).map nodeInput

/-- What `from_leaves` hashes. -/
def treeInputs (leaves : List Bytes32) : List (List UInt8) :=
  if leaves = [] then [emptyTreeInput] else nodeInputs P leaves

theorem parents_eq : ∀ level : List Bytes32, parents P level = PairTree.parents (nodeHash P) level
  | [] => rfl
  | [_] => rfl
  | x :: y :: rest => congrArg (List.cons (nodeHash P x y)) (parents_eq rest)

theorem merkleRoot_eq (leaves : List Bytes32) :
    merkleRoot P leaves = (PairTree.root (nodeHash P) leaves).getD (P.sha256 emptyTreeInput) := by
  induction leaves using PairTree.root.induct (nodeHash P) with
  | case1 => simp [merkleRoot, PairTree.root, emptyTreeInput]
  | case2 x => simp [merkleRoot, PairTree.root]
  | case3 x y rest ih => rw [merkleRoot, PairTree.root_level, ← ih, parents_eq]

end

section
variable {P : Prims}

theorem nodeInput_injective : Function.Injective nodeInput := by
  rintro ⟨x, y⟩ ⟨x', y'⟩ h
  obtain ⟨hx, hy⟩ := List.append_inj h (x.2.trans x'.2.symm)
  exact Prod.ext (Subtype.ext hx) (Subtype.ext hy)

theorem collisionFree_pairs (h : CollisionFree P.sha256 (Q.map nodeInput)) :
    CollisionFree (fun p : Bytes32 × Bytes32 => nodeHash P p.1 p.2) Q := by
  intro p hp q hq hpq
  exact nodeInput_injective (h _ (List.mem_map_of_mem hp) _ (List.mem_map_of_mem hq) hpq)

theorem merkleRoot_cases (h : leaves ≠ []) :
    merkleRoot P leaves ∈ leaves ∨ ∃ m ∈ nodeInputs P leaves, merkleRoot P leaves = P.sha256 m := by
  induction leaves using PairTree.root.induct (nodeHash P) with
  | case1 => exact absurd rfl h
  | case2 x => simp [merkleRoot]
  | case3 x y rest ih =>
    right
    have hne : PairTree.parents (nodeHash P) (x :: y :: rest) ≠ [] := by simp [PairTree.parents, PairTree.pairs]
    rw [merkleRoot, parents_eq]
    unfold nodeInputs
    rw [PairTree.hashed_level, List.map_append]
    rcases ih hne with hmem | ⟨m, hm, hroot⟩
    · obtain ⟨p, hp, hroot⟩ := List.mem_map.1 hmem
      exact ⟨nodeInput p, List.mem_append_left _ (List.mem_map_of_mem hp), hroot.symm⟩
    · exact ⟨m, List.mem_append_right _ hm, hroot⟩

end

/-- SHA-256 as it is idealised for two trees: it has no collision on what they hash, and no leaf hash is
the hash of something that a tree hashes. -/
structure Idealised (P : Prims) (xs ys : List Bytes32) : Prop where
  collisionFree : CollisionFree P.sha256 (treeInputs P xs ++ treeInputs P ys)
  leaf_ne_node : ∀ v ∈ xs ++ ys, ∀ m ∈ treeInputs P xs ++ treeInputs P ys, v ≠ P.sha256 m

/-- The same for the trees over the hashes of entries. -/
structure EntriesIdealised (P : Prims) (display : Oplog.Bson → String) (es es' : List Oplog.Document) : Prop where
  collisionFree : CollisionFree P.sha256 ((es ++ es').map (Oplog.canonicalizeOplogEntry display) ++
    (treeInputs P (es.map (hashOplogEntry P display)) ++ treeInputs P (es'.map (hashOplogEntry P display))))
  leaf_ne_node : ∀ e ∈ es ++ es', ∀ m ∈ nodeInputs P (es.map (hashOplogEntry P display)) ++
    nodeInputs P (es'.map (hashOplogEntry P display)), hashOplogEntry P display e ≠ P.sha256 m

section
variable {P : Prims} {display : Oplog.Bson → String}

theorem treeInputs_of_ne (h : leaves ≠ []) : treeInputs P leaves = nodeInputs P leaves := if_neg h

theorem Idealised.empty_ne (h : Idealised P xs []) (hne : xs ≠ []) :
    merkleRoot P xs ≠ merkleRoot P [] := by
  have hempty : merkleRoot P [] = P.sha256 emptyTreeInput := by simp [merkleRoot, emptyTreeInput]
  have hmem : emptyTreeInput ∈ treeInputs P xs ++ treeInputs P [] := by simp [treeInputs]
  rw [hempty]
  rcases merkleRoot_cases (P := P) hne with hleaf | ⟨m, hm, hroot⟩
  · exact h.leaf_ne_node _ (by simpa using hleaf) _ hmem
  · rw [hroot]
    intro heq
    have hm' : m ∈ treeInputs P xs ++ treeInputs P [] := by
      rw [treeInputs_of_ne hne]
      exact List.mem_append_left _ hm
    -- a node hashes 64 bytes, the empty tree 16
    have hlen : m.length = 64 := by
      obtain ⟨p, _, rfl⟩ := List.mem_map.1 hm
      simp [nodeInput, p.1.2, p.2.2]
    rw [h.collisionFree m hm' _ hmem heq] at hlen
    exact absurd hlen (by decide)

theorem Idealised.symm (h : Idealised P xs ys) : Idealised P ys xs where
  collisionFree := fun a ha b hb => h.collisionFree a (by simpa [or_comm] using ha) b (by simpa [or_comm] using hb)
  leaf_ne_node := fun v hv m hm => h.leaf_ne_node v (by simpa [or_comm] using hv) m (by simpa [or_comm] using hm)

theorem Idealised.root_inj (h : Idealised P xs ys) (hx : xs.Nodup) (hy : ys.Nodup)
    (hroot : merkleRoot P xs = merkleRoot P ys) : xs = ys := by
  by_cases hxe : xs = []
  · subst hxe
    by_contra hne
    exact h.symm.empty_ne (fun hys => hne hys.symm) hroot.symm
  by_cases hye : ys = []
  · subst hye
    exact absurd hroot (h.empty_ne hxe)
  have hfree := h.collisionFree
  have hleaf := h.leaf_ne_node
  rw [treeInputs_of_ne hxe, treeInputs_of_ne hye, nodeInputs, nodeInputs, ← List.map_append] at hfree hleaf
  refine PairTree.root_inj hx hy (collisionFree_pairs hfree)
    (fun v hv p hp => hleaf v hv (nodeInput p) (List.mem_map_of_mem hp)) ?_
  rw [merkleRoot_eq, merkleRoot_eq] at hroot
  obtain ⟨r, hr⟩ := Option.ne_none_iff_exists'.1 (@PairTree.root_ne_none Bytes32 (nodeHash P) xs hxe)
  obtain ⟨r', hr'⟩ := Option.ne_none_iff_exists'.1 (@PairTree.root_ne_none Bytes32 (nodeHash P) ys hye)
  rw [hr, hr'] at hroot ⊢
  exact congrArg some hroot

theorem canonicalizeOplogEntry_ne_empty (e : Oplog.Document) : Oplog.canonicalizeOplogEntry display e ≠ emptyTreeInput := by
  intro h
  have hlen : (Oplog.canonicalFields.filter fun field => (e.get field).isSome).length ≤ 8 := List.length_filter_le _ _
  have hhead := congrArg List.head? h
  unfold Oplog.canonicalizeOplogEntry at hhead
  generalize (Oplog.canonicalFields.filter fun field => (e.get field).isSome) = fields at hlen hhead
  have hempty : emptyTreeInput.head? = some 101 := by decide
  have hfirst : UInt8.ofNat (fields.length % 256) = 101 := by simpa [Codes.toLe, hempty] using hhead
  have hnat := congrArg UInt8.toNat hfirst
  rw [UInt8.toNat_ofNat'] at hnat
  simp at hnat
  omega

theorem EntriesIdealised.symm (h : EntriesIdealised P display es es') :
    EntriesIdealised P display es' es where
  collisionFree := fun a ha b hb => h.collisionFree a (by simpa [or_comm, or_left_comm, or_assoc] using ha) b
    (by simpa [or_comm, or_left_comm, or_assoc] using hb)
  leaf_ne_node := fun e he m hm => h.leaf_ne_node e (by simpa [or_comm] using he) m (by simpa [or_comm] using hm)

theorem EntriesIdealised.idealised (h : EntriesIdealised P display es es') :
    Idealised P (es.map (hashOplogEntry P display)) (es'.map (hashOplogEntry P display)) where
  collisionFree := fun a ha b hb => h.collisionFree a (List.mem_append_right _ ha) b (List.mem_append_right _ hb)
  leaf_ne_node := by
    intro v hv m hm
    rw [← List.map_append] at hv
    obtain ⟨e, he, rfl⟩ := List.mem_map.1 hv
    by_cases hempty : m = emptyTreeInput
    · intro heq
      refine @canonicalizeOplogEntry_ne_empty display e ?_
      rw [← hempty]
      exact h.collisionFree _ (List.mem_append_left _ (List.mem_map_of_mem he)) m (List.mem_append_right _ hm) heq
    · refine h.leaf_ne_node e he m ?_
      unfold treeInputs at hm
      rcases List.mem_append.1 hm with hm | hm
      · split at hm
        · exact absurd (List.mem_singleton.1 hm) hempty
        · exact List.mem_append_left _ hm
      · split at hm
        · exact absurd (List.mem_singleton.1 hm) hempty
        · exact List.mem_append_right _ hm

end

/-- **Omission changes the root.** Lists of pairwise distinct leaf hashes with the same root are equal; so
two ranges of entries with distinct hashes have different roots unless they hold the same entries in the
same order, as far as the canonical bytes tell. -/
theorem omission_changes_root (P : Prims) (display : Oplog.Bson → String) :
    (∀ xs ys : List Bytes32, xs.Nodup → ys.Nodup → Idealised P xs ys → merkleRoot P xs = merkleRoot P ys → xs = ys) ∧
    ∀ es es' : List Oplog.Document, (es.map (hashOplogEntry P display)).Nodup → (es'.map (hashOplogEntry P display)).Nodup →
      EntriesIdealised P display es es' →
      es.map (Oplog.canonicalizeOplogEntry display) ≠ es'.map (Oplog.canonicalizeOplogEntry display) →
      merkleRoot P (es.map (hashOplogEntry P display)) ≠ merkleRoot P (es'.map (hashOplogEntry P display)) := by
  refine ⟨fun xs ys hx hy h hroot => h.root_inj hx hy hroot, fun es es' hx hy h hne hroot => hne ?_⟩
  have hhashes := h.idealised.root_inj hx hy hroot
  have hmap : ∀ l : List Oplog.Document, l.map (hashOplogEntry P display) =
      (l.map (Oplog.canonicalizeOplogEntry display)).map P.sha256 := fun l => by
    rw [List.map_map]
    rfl
  rw [hmap, hmap] at hhashes
  refine h.collisionFree.map_inj (fun m hm => ?_) (fun m hm => ?_) hhashes
  · exact List.mem_append_left _ (by rw [List.map_append]; exact List.mem_append_left _ hm)
  · exact List.mem_append_left _ (by rw [List.map_append]; exact List.mem_append_right _ hm)

/-- A leaf hash that ends in `n`. -/
def demoLeaf (n : Nat) : Bytes32 := ⟨Bytes.toBe 32 n, by simp⟩

/-- An insert at second `time`. -/
def demoOplogEntry (time : UInt32) : Oplog.Document := [("ts", .timestamp time 0), ("op", .string "i")]

theorem demoLeaves_idealised : Idealised demoPrims [demoLeaf 1, demoLeaf 2, demoLeaf 3] [demoLeaf 1, demoLeaf 2] := by
  have h3 : treeInputs demoPrims [demoLeaf 1, demoLeaf 2, demoLeaf 3] = [nodeInput (demoLeaf 1, demoLeaf 2),
      nodeInput (demoLeaf 3, demoLeaf 3), nodeInput (nodeHash demoPrims (demoLeaf 1) (demoLeaf 2),
        nodeHash demoPrims (demoLeaf 3) (demoLeaf 3))] := by
    simp [treeInputs, nodeInputs, PairTree.hashed, PairTree.pairs, PairTree.parents]
  have h2 : treeInputs demoPrims [demoLeaf 1, demoLeaf 2] = [nodeInput (demoLeaf 1, demoLeaf 2)] := by
    simp [treeInputs, nodeInputs, PairTree.hashed, PairTree.pairs, PairTree.parents]
  constructor
  · rw [h3, h2]
    decide +kernel
  · rw [h3, h2]
    decide +kernel

/-- The hash of that insert. -/
abbrev demoEntryHash (time : UInt32) : Bytes32 := hashOplogEntry demoPrims (fun _ => "") (demoOplogEntry time)

theorem demoEntries_idealised :
    EntriesIdealised demoPrims (fun _ => "") [demoOplogEntry 1, demoOplogEntry 2] [demoOplogEntry 2] := by
  have h2 : nodeInputs demoPrims [demoEntryHash 1, demoEntryHash 2] = [nodeInput (demoEntryHash 1, demoEntryHash 2)] := by
    simp [nodeInputs, PairTree.hashed, PairTree.pairs, PairTree.parents]
  have h1 : nodeInputs demoPrims [demoEntryHash 2] = [] := by simp [nodeInputs, PairTree.hashed]
  constructor
  · simp only [List.map_cons, List.map_nil, treeInputs, List.cons_ne_nil, if_false, h2, h1]
    decide +kernel
  · simp only [List.map_cons, List.map_nil, h2, h1]
    decide +kernel

/-- A tree that loses its last leaf, and a range that loses its first entry. -/
theorem omitted_leaf_seen :
    merkleRoot demoPrims [demoLeaf 1, demoLeaf 2, demoLeaf 3] ≠ merkleRoot demoPrims [demoLeaf 1, demoLeaf 2] ∧
    merkleRoot demoPrims [demoEntryHash 1, demoEntryHash 2] ≠ merkleRoot demoPrims [demoEntryHash 2] := by
  obtain ⟨hleaves, hentries⟩ := omission_changes_root demoPrims fun _ => ""
  constructor
  · intro h
    exact absurd (hleaves _ _ (by decide) (by decide) demoLeaves_idealised h) (by simp)
  · exact hentries _ _ (by decide) (by decide) demoEntries_idealised (by simp)

end Audit
