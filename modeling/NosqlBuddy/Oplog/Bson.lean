import Mathlib.Data.List.Lex
import Mathlib.Data.List.Sort
import NosqlBuddy.Lib.Codes

/-!
# BSON values

`bson::Bson` as the encoder of `audit-service/src/audit/oplog_canon.rs` sees it.

A double is its 64 bits and a binary subtype its byte. A document is the list of its fields in order;
`IndexMap` keeps the keys distinct (`Bson.WellFormed`).
-/

namespace Oplog

/-- A fixed number of bytes. -/
abbrev Fixed (n : Nat) := { b : List UInt8 // b.length = n }

@[simp] theorem Fixed.length (b : Fixed n) : b.val.length = n := b.property

inductive Bson where
  | null
  | boolean (b : Bool)
  | int32 (n : Int32)
  | int64 (n : Int64)
  | double (bits : UInt64)
  | string (s : String)
  | objectId (oid : Fixed 12)
  | dateTime (ms : Int64)
  | timestamp (time increment : UInt32)
  | binary (subtype : UInt8) (bytes : List UInt8)
  | regularExpression (pattern options : String)
  | array (elems : List Bson)
  | document (fields : List (String × Bson))
  | decimal128 (bytes : Fixed 16)
  | javaScriptCode (code : String)
  | symbol (s : String)
  | javaScriptCodeWithScope (code : String) (scope : List (String × Bson))
  | undefined
  | minKey
  | maxKey
  | dbPointer (ns : String) (id : Fixed 12)

/-- A document: its fields, in order. -/
abbrev Document := List (String × Bson)

/-- `doc.get(key)`. -/
def Document.get (doc : Document) (key : String) : Option Bson := (doc.find? fun f => f.1 = key).map Prod.snd

namespace Bson

/-! ## Recursion over values -/

section
variable (p : Bson → Prop)

mutual

/-- The property holds of the value and of every value inside it. -/
def Everywhere : Bson → Prop
  | array elems => p (array elems) ∧ EverywhereList elems
  | document fields => p (document fields) ∧ EverywhereFields fields
  | v => p v

def EverywhereList : List Bson → Prop
  | [] => True
  | v :: vs => Everywhere v ∧ EverywhereList vs

def EverywhereFields : List (String × Bson) → Prop
  | [] => True
  | (_, v) :: fs => Everywhere v ∧ EverywhereFields fs

end

end

section
variable (r : Bson → Bson → Prop)

mutual

/-- The values have the same arrays and, up to the order of the fields, the same documents, and `r`
relates what they hold besides. -/
def Lift : Bson → Bson → Prop
  | array xs, w => ∃ ys, w = array ys ∧ LiftList xs ys
  | document fs, w => ∃ gs gs', w = document gs ∧ gs.Perm gs' ∧ LiftFields fs gs'
  | v, w => r v w

def LiftList : List Bson → List Bson → Prop
  | [], ys => ys = []
  | x :: xs, ys => ∃ y ys', ys = y :: ys' ∧ Lift x y ∧ LiftList xs ys'

def LiftFields : List (String × Bson) → List (String × Bson) → Prop
  | [], gs => gs = []
  | (k, v) :: fs, gs => ∃ w gs', gs = (k, w) :: gs' ∧ Lift v w ∧ LiftFields fs gs'

end

end

/-- Not an array and not a document. -/
def IsAtom : Bson → Prop
  | array _ => False
  | document _ => False
  | _ => True

theorem atom_or (v : Bson) : IsAtom v ∨ (∃ xs, v = array xs) ∨ ∃ fs, v = document fs := by
  cases v <;> simp [IsAtom]

theorem induction {motive : Bson → Prop} (atom : ∀ v, IsAtom v → motive v)
    (array : ∀ xs, (∀ x ∈ xs, motive x) → motive (array xs))
    (document : ∀ fs, (∀ f ∈ fs, motive f.2) → motive (document fs)) (v : Bson) : motive v := by
  rcases atom_or v with hv | ⟨xs, hv⟩ | ⟨fs, hv⟩
  · exact atom v hv
  · rw [hv]
    refine array xs fun x hx => ?_
    have hlt : sizeOf x < sizeOf v := by
      have := List.sizeOf_lt_of_mem hx
      simp only [hv, Bson.array.sizeOf_spec]
      omega
    exact induction atom array document x
  · rw [hv]
    refine document fs fun f hf => ?_
    have hlt : sizeOf f.2 < sizeOf v := by
      have hmem := List.sizeOf_lt_of_mem hf
      obtain ⟨k, w⟩ := f
      simp only [hv, Bson.document.sizeOf_spec, Prod.mk.sizeOf_spec] at hmem ⊢
      omega
    exact induction atom array document f.2
termination_by sizeOf v

section
variable {p : Bson → Prop}

theorem everywhereList_iff : ∀ {vs : List Bson}, EverywhereList p vs ↔ ∀ v ∈ vs, Everywhere p v
  | [] => by simp [EverywhereList]
  | v :: vs => by simp [EverywhereList, @everywhereList_iff vs]

theorem everywhereFields_iff : ∀ {fs : List (String × Bson)}, EverywhereFields p fs ↔ ∀ f ∈ fs, Everywhere p f.2
  | [] => by simp [EverywhereFields]
  | (k, v) :: fs => by simp [EverywhereFields, @everywhereFields_iff fs]

theorem everywhere_array : Everywhere p (array xs) ↔ p (array xs) ∧ ∀ x ∈ xs, Everywhere p x := by
  rw [Everywhere, everywhereList_iff]

theorem everywhere_document :
    Everywhere p (document fs) ↔ p (document fs) ∧ ∀ f ∈ fs, Everywhere p f.2 := by
  rw [Everywhere, everywhereFields_iff]

theorem everywhere_atom (h : IsAtom v) : Everywhere p v ↔ p v := by
  cases v <;> first | exact Iff.rfl | exact absurd h id

end

section
variable {r : Bson → Bson → Prop}

theorem liftList_iff : ∀ {xs ys : List Bson}, LiftList r xs ys ↔ List.Forall₂ (Lift r) xs ys
  | [], ys => by simp [LiftList]
  | x :: xs, ys => by
    rw [LiftList, List.forall₂_cons_left_iff]
    simp only [@liftList_iff xs]
    constructor
    · rintro ⟨y, ys', rfl, hxy, hrest⟩
      exact ⟨y, ys', hxy, hrest, rfl⟩
    · rintro ⟨y, ys', hxy, hrest, rfl⟩
      exact ⟨y, ys', rfl, hxy, hrest⟩

/-- The fields have the same names and related values. -/
def FieldLift (r : Bson → Bson → Prop) (f g : String × Bson) : Prop := f.1 = g.1 ∧ Lift r f.2 g.2

theorem liftFields_iff : ∀ {fs gs : List (String × Bson)}, LiftFields r fs gs ↔ List.Forall₂ (FieldLift r) fs gs
  | [], gs => by simp [LiftFields]
  | (k, v) :: fs, gs => by
    rw [LiftFields, List.forall₂_cons_left_iff]
    simp only [@liftFields_iff fs, FieldLift]
    constructor
    · rintro ⟨w, gs', rfl, hvw, hrest⟩
      exact ⟨(k, w), gs', ⟨rfl, hvw⟩, hrest, rfl⟩
    · rintro ⟨⟨k', w⟩, gs', ⟨rfl, hvw⟩, hrest, rfl⟩
      exact ⟨w, gs', rfl, hvw, hrest⟩

theorem lift_array :
    Lift r (array xs) w ↔ ∃ ys, w = array ys ∧ List.Forall₂ (Lift r) xs ys := by
  simp only [Lift, liftList_iff]

theorem lift_document : Lift r (document fs) w ↔
    ∃ gs gs', w = document gs ∧ gs.Perm gs' ∧ List.Forall₂ (FieldLift r) fs gs' := by
  simp only [Lift, liftFields_iff]

theorem lift_atom (h : IsAtom v) : Lift r v w ↔ r v w := by
  cases v <;> first | exact Iff.rfl | exact absurd h id

theorem Lift.imp {r' : Bson → Bson → Prop} {p q : Bson → Prop}
    (h : ∀ v w, IsAtom v → p v → Everywhere q w → r v w → r' v w) (v : Bson) :
    ∀ {w : Bson}, Everywhere p v → Everywhere q w → Lift r v w → Lift r' v w := by
  induction v using induction with
  | atom v hv =>
    intro w hp hq hr
    rw [lift_atom hv] at hr ⊢
    exact h v w hv ((everywhere_atom hv).1 hp) hq hr
  | array xs ih =>
    intro w hp hq hr
    obtain ⟨ys, rfl, hall⟩ := lift_array.1 hr
    refine lift_array.2 ⟨ys, rfl, ?_⟩
    have hp' := (everywhere_array.1 hp).2
    have hq' := (everywhere_array.1 hq).2
    rw [List.forall₂_iff_get] at hall ⊢
    exact ⟨hall.1, fun i h1 h2 => ih _ (List.get_mem _ _) (hp' _ (List.get_mem _ _)) (hq' _ (List.get_mem _ _))
      (hall.2 i h1 h2)⟩
  | document fs ih =>
    intro w hp hq hr
    obtain ⟨gs, gs', rfl, hperm, hall⟩ := lift_document.1 hr
    refine lift_document.2 ⟨gs, gs', rfl, hperm, ?_⟩
    have hp' := (everywhere_document.1 hp).2
    have hq' : ∀ g ∈ gs', Everywhere q g.2 := fun g hg => (everywhere_document.1 hq).2 g (hperm.mem_iff.2 hg)
    rw [List.forall₂_iff_get] at hall ⊢
    refine ⟨hall.1, fun i h1 h2 => ⟨(hall.2 i h1 h2).1, ?_⟩⟩
    exact ih _ (List.get_mem _ _) (hp' _ (List.get_mem _ _)) (hq' _ (List.get_mem _ _)) (hall.2 i h1 h2).2

end

end Bson

end Oplog
