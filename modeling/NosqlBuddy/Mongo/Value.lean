import Mathlib.Algebra.Order.Field.Rat
import Mathlib.Order.Compare

/-!
# Documents and their values

A document of a document store, and the JSON it is written in: `Value`. Numbers are compared by value whatever
their storage type, so a number is the rational it stands for; the other scalar types of the store (dates,
identifiers, binary) are left out.

| here | there |
| --- | --- |
| `insertKV`, `get` | an insertion-ordered map: a key that is there keeps its place |

`Value.cmp` is `.eq` on equal values alone (`cmp_eq_iff`) and changes sign with its sides (`cmp_swap`), so equality of values is
decidable.
-/

namespace Mongo

inductive Value where
  | null
  | bool (b : Bool)
  | num (q : ℚ)
  | str (s : String)
  | arr (vs : List Value)
  | doc (fs : List (String × Value))

/-- The fields of a document, in order. -/
abbrev Doc := List (String × Value)

namespace Value

/-! ## The order of values -/

/-- The place of a type in the comparison order. -/
def rank : Value → Nat
  | null => 1
  | num _ => 2
  | str _ => 3
  | doc _ => 4
  | arr _ => 5
  | bool _ => 6

mutual

/-- Values of one type by their contents, others by their types. -/
def cmp : Value → Value → Ordering
  | num p, num q => compare p q
  | str s, str t => compare s t
  | bool a, bool b => compare a b
  | arr vs, arr ws => cmpList vs ws
  | doc fs, doc gs => cmpFields fs gs
  | v, w => compare v.rank w.rank

def cmpList : List Value → List Value → Ordering
  | [], [] => .eq
  | [], _ :: _ => .lt
  | _ :: _, [] => .gt
  | v :: vs, w :: ws => (cmp v w).then (cmpList vs ws)

/-- Field by field: the type of the value, the name, the value. -/
def cmpFields : List (String × Value) → List (String × Value) → Ordering
  | [], [] => .eq
  | [], _ :: _ => .lt
  | _ :: _, [] => .gt
  | (k, v) :: fs, (l, w) :: gs =>
    (compare v.rank w.rank).then ((compare k l).then ((cmp v w).then (cmpFields fs gs)))

end

attribute [local simp] cmp cmpList cmpFields

mutual

theorem cmp_self : ∀ v : Value, cmp v v = .eq
  | null => rfl
  | bool _ => Std.compare_self
  | num _ => Std.compare_self
  | str _ => Std.compare_self
  | arr vs => cmpList_self vs
  | doc fs => cmpFields_self fs

theorem cmpList_self : ∀ vs : List Value, cmpList vs vs = .eq
  | [] => rfl
  | v :: vs => by rw [cmpList, cmp_self v, cmpList_self vs]; rfl

theorem cmpFields_self : ∀ fs : List (String × Value), cmpFields fs fs = .eq
  | [] => rfl
  | (k, v) :: fs => by rw [cmpFields, Std.compare_self, Std.compare_self, cmp_self v, cmpFields_self fs]; rfl

end

mutual

theorem eq_of_cmp : ∀ {v w : Value}, cmp v w = .eq → v = w
  | null, w, h => by cases w <;> simp_all [cmp, rank]
  | bool b, w, h => by cases w <;> simp_all [cmp, rank]
  | num q, w, h => by cases w <;> simp_all [cmp, rank]
  | str s, w, h => by cases w <;> simp_all [cmp, rank]
  | arr vs, w, h => by
    cases w with
    | arr ws => rw [eq_of_cmpList h]
    | _ => simp [cmp, rank] at h
  | doc fs, w, h => by
    cases w with
    | doc gs => rw [eq_of_cmpFields h]
    | _ => simp [cmp, rank] at h

theorem eq_of_cmpList : ∀ {vs ws : List Value}, cmpList vs ws = .eq → vs = ws
  | [], [], _ => rfl
  | v :: vs, w :: ws, h => by
    obtain ⟨hv, hvs⟩ := Ordering.then_eq_eq.1 h
    rw [eq_of_cmp hv, eq_of_cmpList hvs]

theorem eq_of_cmpFields : ∀ {fs gs : List (String × Value)}, cmpFields fs gs = .eq → fs = gs
  | [], [], _ => rfl
  | (k, v) :: fs, (l, w) :: gs, h => by
    obtain ⟨-, h⟩ := Ordering.then_eq_eq.1 h
    obtain ⟨hk, h⟩ := Ordering.then_eq_eq.1 h
    obtain ⟨hv, hfs⟩ := Ordering.then_eq_eq.1 h
    rw [Std.LawfulEqCmp.eq_of_compare hk, eq_of_cmp hv, eq_of_cmpFields hfs]

end

theorem cmp_eq_iff : cmp v w = .eq ↔ v = w :=
  ⟨eq_of_cmp, by rintro rfl; exact cmp_self v⟩

instance : DecidableEq Value := fun _ _ => decidable_of_iff _ cmp_eq_iff

mutual

theorem cmp_swap : ∀ v w : Value, cmp v w = (cmp w v).swap
  | null, w => by cases w <;> rfl
  | bool b, w => by cases w <;> first | rfl | (simp only [cmp]; exact Std.OrientedCmp.eq_swap)
  | num q, w => by cases w <;> first | rfl | (simp only [cmp]; exact Std.OrientedCmp.eq_swap)
  | str s, w => by cases w <;> first | rfl | (simp only [cmp]; exact Std.OrientedCmp.eq_swap)
  | arr vs, w => by
    cases w with
    | arr ws => exact cmpList_swap vs ws
    | _ => rfl
  | doc fs, w => by
    cases w with
    | doc gs => exact cmpFields_swap fs gs
    | _ => rfl

theorem cmpList_swap : ∀ vs ws : List Value, cmpList vs ws = (cmpList ws vs).swap
  | [], [] => rfl
  | [], _ :: _ => rfl
  | _ :: _, [] => rfl
  | v :: vs, w :: ws => by rw [cmpList, cmpList, Ordering.swap_then, ← cmp_swap v w, ← cmpList_swap vs ws]

theorem cmpFields_swap : ∀ fs gs : List (String × Value), cmpFields fs gs = (cmpFields gs fs).swap
  | [], [] => rfl
  | [], _ :: _ => rfl
  | _ :: _, [] => rfl
  | (k, v) :: fs, (l, w) :: gs => by
    rw [cmpFields, cmpFields, Ordering.swap_then, Ordering.swap_then, Ordering.swap_then, ← cmp_swap v w,
      ← cmpFields_swap fs gs, ← Std.OrientedCmp.eq_swap, ← Std.OrientedCmp.eq_swap]

end

/-- A value that holds no others. -/
def Scalar : Value → Prop
  | arr _ => False
  | doc _ => False
  | _ => True

end Value

/-! ## Insertion-ordered maps -/

/-- Replace in place, else append. -/
def insertKV (k : String) (v : Value) : Doc → Doc
  | [] => [(k, v)]
  | (l, w) :: fs => if l = k then (k, v) :: fs else (l, w) :: insertKV k v fs

theorem lookup_cons {α : Type} (l k : String) (v : α) (fs : List (String × α)) :
    List.lookup l ((k, v) :: fs) = if l = k then some v else fs.lookup l := by
  by_cases h : l = k
  · rw [if_pos h, h, List.lookup_cons_self]
  · rw [if_neg h, List.lookup_cons, beq_eq_false_iff_ne.2 h]

@[simp] theorem lookup_insertKV (k l : String) (v : Value) (d : Doc) :
    (insertKV k v d).lookup l = if l = k then some v else d.lookup l := by
  induction d with
  | nil => exact lookup_cons l k v []
  | cons f fs ih =>
    obtain ⟨m, w⟩ := f
    by_cases hm : m = k
    · rw [insertKV, if_pos hm, lookup_cons, lookup_cons, hm]
      split <;> rfl
    · rw [insertKV, if_neg hm, lookup_cons, lookup_cons, ih]
      by_cases hl : l = m
      · rw [if_pos hl, if_neg (hl ▸ hm), if_pos hl]
      · rw [if_neg hl, if_neg hl]

theorem insertKV_of_notMem (h : k ∉ d.map Prod.fst) :
    insertKV k v d = d ++ [(k, v)] := by
  induction d with
  | nil => rfl
  | cons f fs ih =>
    obtain ⟨l, w⟩ := f
    simp only [List.map_cons, List.mem_cons, not_or] at h
    rw [insertKV, if_neg (Ne.symm h.1), ih h.2, List.cons_append]

/-- Each pair in turn. -/
def insertAll (kvs : List (String × Value)) (d : Doc) : Doc := kvs.foldl (fun d kv => insertKV kv.1 kv.2 d) d

/-! ## Dotted paths -/

/-- The components of a dotted path. -/
def splitPath (f : String) : List String := (f.toList.splitOn '.').map String.ofList

theorem splitPath_ne_nil (k : String) : splitPath k ≠ [] := by
  rw [splitPath, Ne, List.map_eq_nil_iff]
  exact List.splitOn_ne_nil '.' k.toList

/-- The value at a path, through documents only. -/
def getPath : List String → Doc → Option Value
  | [], _ => none
  | [k], d => d.lookup k
  | k :: l :: ks, d => match d.lookup k with
    | some (.doc fs) => getPath (l :: ks) fs
    | _ => none

/-- `$` opens the name of an operator, a field path or a variable. -/
def isOperator (k : String) : Bool := k.toList.head? = some '$'

/-- No component is empty or looks like an operator. -/
def ValidPath (p : List String) : Prop := p ≠ [] ∧ ∀ k ∈ p, k ≠ "" ∧ isOperator k = false

instance : DecidablePred ValidPath := fun _ => inferInstanceAs (Decidable (_ ∧ _))

theorem ValidPath.name (h : ValidPath (splitPath f)) : isOperator f = false := by
  cases e : f.toList with
  | nil => simp [isOperator, e]
  | cons c cs =>
    by_cases hc : c = '$'
    · have hne := List.splitOn_ne_nil '.' cs
      obtain ⟨x, xs, hx⟩ := List.exists_cons_of_ne_nil hne
      have hmem : String.ofList ('$' :: x) ∈ splitPath f := by
        rw [splitPath, e, hc, List.splitOn_cons_eq_if_modifyHead, if_neg (by decide), hx]
        exact List.mem_cons_self
      have hop := (h.2 _ hmem).2
      simp [isOperator] at hop
    · simp [isOperator, e, hc]

end Mongo
