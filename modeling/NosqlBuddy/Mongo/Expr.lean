import Mathlib.Tactic.Ring
import NosqlBuddy.Mongo.Value

/-!
# Aggregation expressions

An aggregation expression is a JSON value; on a document it gives a value, nothing (a missing field) or an error.
A string that opens with `$` is a field path, one that opens with `$$` a variable, any other string itself.

| here | there |
| --- | --- |
| `Reference`, `reference` | what a string stands for in an expression |
| `applyOperator` | the operators on evaluated arguments; the others are left to a `Server` |
| `eval` | the value of an expression: the outer `none` is an error, the inner one a missing value |
-/

namespace Mongo

/-- The operators and the variables that are not spelled out here. -/
structure Server where
  operator : String → List (Option Value) → Option (Option Value)
  sysVar : String → Doc → Option (Option Value)

/-! ## References -/

/-- What a string stands for in an expression. -/
inductive Reference where
  | literal (s : String)
  | field (path : List String)
  | sysVar (name : String)

def reference (s : String) : Reference :=
  match s.toList with
  | '$' :: '$' :: cs => .sysVar (String.ofList cs)
  | '$' :: cs => .field (splitPath (String.ofList cs))
  | _ => .literal s

theorem reference_literal {s : String} (h : isOperator s = false) : reference s = .literal s := by
  unfold isOperator at h
  unfold reference
  split
  · next e => simp [e] at h
  · next e => simp [e] at h
  · rfl

theorem reference_field {f : String} (h : isOperator f = false) : reference ("$" ++ f) = .field (splitPath f) := by
  unfold isOperator at h
  have e : ("$" ++ f).toList = '$' :: f.toList := by simp
  unfold reference
  rw [e]
  split
  · next e' => rw [(List.cons.inj e').2] at h; simp at h
  · next e' => rw [← (List.cons.inj e').2, String.ofList_toList]
  · next h1 h2 => exact absurd rfl (h2 _)

/-- The value of a field path. -/
def fieldPath : List String → Doc → Option Value
  | [], _ => none
  | [k], d => d.lookup k
  | k :: l :: ks, d => match d.lookup k with
    | some (.doc fs) => fieldPath (l :: ks) fs
    | some (.arr vs) => some (.arr (vs.filterMap fun v => match v with
        | .doc fs => fieldPath (l :: ks) fs
        | _ => none))
    | _ => none

theorem fieldPath_of_getPath : ∀ {p : List String} {d : Doc} {v : Value}, getPath p d = some v → fieldPath p d = some v
  | [], _, _, h => h
  | [_], _, _, h => h
  | k :: l :: ks, d, v, h => by
    rw [getPath] at h
    rw [fieldPath]
    split at h
    · next e => rw [e]; exact fieldPath_of_getPath h
    · exact absurd h (by simp)

/-! ## Operators -/

/-- A missing value is below the others. -/
def cmpOpt : Option Value → Option Value → Ordering
  | none, none => .eq
  | none, some _ => .lt
  | some _, none => .gt
  | some v, some w => v.cmp w

/-- What counts as true. -/
def truthy : Option Value → Bool
  | none => false
  | some .null => false
  | some (.bool b) => b
  | some (.num q) => q ≠ 0
  | some _ => true

@[simp] theorem truthy_bool (b : Bool) : truthy (some (.bool b)) = b := rfl

/-- The numbers of the arguments of an arithmetic operator: `some none` when one of them is null or missing. -/
def numbers : List (Option Value) → Option (Option (List ℚ))
  | [] => some (some [])
  | some (.num q) :: vs => (numbers vs).map fun r => r.map (q :: ·)
  | some .null :: vs => (numbers vs).map fun _ => none
  | none :: vs => (numbers vs).map fun _ => none
  | _ :: _ => none

/-- The remainder of the truncated division. -/
def ratMod (a b : ℚ) : ℚ := a - b * Int.tdiv (a / b).num (a / b).den

/-- An arithmetic operator: an error on an argument that is no number, null on a null or missing one. -/
def arithmetic (f : List ℚ → Option ℚ) (args : List (Option Value)) : Option (Option Value) :=
  (numbers args).bind fun r => match r with
    | none => some (some .null)
    | some qs => (f qs).map fun q => some (.num q)

def comparison (test : Ordering → Bool) : List (Option Value) → Option (Option Value)
  | [a, b] => some (some (.bool (test (cmpOpt a b))))
  | _ => none

def applyOperator (sv : Server) (op : String) (args : List (Option Value)) : Option (Option Value) :=
  match op with
  | "$eq" => comparison (· == .eq) args
  | "$ne" => comparison (· != .eq) args
  | "$lt" => comparison (·.isLT) args
  | "$lte" => comparison (·.isLE) args
  | "$gt" => comparison (·.isGT) args
  | "$gte" => comparison (·.isGE) args
  | "$and" => some (some (.bool (args.all truthy)))
  | "$or" => some (some (.bool (args.any truthy)))
  | "$not" => match args with
    | [a] => some (some (.bool (!truthy a)))
    | _ => none
  | "$in" => match args with
    | [a, some (.arr vs)] => some (some (.bool (vs.any (some · = a))))
    | _ => none
  | "$add" => arithmetic (fun qs => some qs.sum) args
  | "$multiply" => arithmetic (fun qs => some qs.prod) args
  | "$subtract" => match args with
    | [_, _] => arithmetic (fun qs => some (qs.headD 0 - (qs.tail.headD 0))) args
    | _ => none
  | "$divide" => match args with
    | [_, _] => arithmetic (fun qs => if qs.tail.headD 0 = 0 then none else some (qs.headD 0 / qs.tail.headD 0)) args
    | _ => none
  | "$mod" => match args with
    | [_, _] => arithmetic (fun qs => if qs.tail.headD 0 = 0 then none else some (ratMod (qs.headD 0) (qs.tail.headD 0))) args
    | _ => none
  | "$ifNull" => some ((args.find? fun v => v ≠ none ∧ v ≠ some .null).getD (args.getLastD none))
  | op => sv.operator op args

/-! ## Evaluation -/

def evalString (sv : Server) (s : String) (d : Doc) : Option (Option Value) :=
  match reference s with
  | .literal s => some (some (.str s))
  | .field p => if ValidPath p then some (fieldPath p d) else none
  | .sysVar x => sv.sysVar x d

mutual

def eval (sv : Server) : Value → Doc → Option (Option Value)
  | .str s, d => evalString sv s d
  | .arr vs, d => (evalList sv vs d).map fun ws => some (.arr (ws.map (·.getD .null)))
  | .doc [(k, .arr args)], d =>
    if isOperator k then (evalList sv args d).bind (applyOperator sv k)
    else (evalList sv args d).map fun ws => some (.doc [(k, .arr (ws.map (·.getD .null)))])
  | .doc [(k, arg)], d =>
    if isOperator k then (eval sv arg d).bind fun r => applyOperator sv k [r]
    else (eval sv arg d).map fun r => some (.doc (r.toList.map fun w => (k, w)))
  | .doc fs, d => (evalFields sv fs d).map fun gs => some (.doc gs)
  | v, _ => some (some v)

def evalList (sv : Server) : List Value → Doc → Option (List (Option Value))
  | [], _ => some []
  | v :: vs, d => (eval sv v d).bind fun r => (evalList sv vs d).map (r :: ·)

/-- The fields of a document literal: a missing value leaves its field out. -/
def evalFields (sv : Server) : List (String × Value) → Doc → Option Doc
  | [], _ => some []
  | (k, v) :: fs, d =>
    if isOperator k then none
    else (eval sv v d).bind fun r => (evalFields sv fs d).map fun gs => (r.toList.map fun w => (k, w)) ++ gs

end

end Mongo

/-!
## Filter documents

| here | there |
| --- | --- |
| `operatorHolds` | `{field: {$op: operand}}`: a comparison is between values of one type, a missing field is a null |
| `satisfies` | a filter on a document; `none` is an error |

`matchFields_append`: the conditions of a filter document are a conjunction. Positions of an array in a path (`a.0`) are
left out.
-/

namespace Mongo

/-- What a path selects; `none` is a missing field. -/
def candidates : List String → Doc → List (Option Value)
  | [], _ => []
  | [k], d => match d.lookup k with
    | some (.arr vs) => vs.map some ++ [some (.arr vs)]
    | v => [v]
  | k :: l :: ks, d => match d.lookup k with
    | some (.doc fs) => candidates (l :: ks) fs
    | some (.arr vs) => vs.flatMap fun v => match v with
      | .doc fs => candidates (l :: ks) fs
      | _ => []
    | _ => [none]

theorem candidates_of_getPath : ∀ {p : List String} {d : Doc} {v : Value}, getPath p d = some v → (∀ vs, v ≠ .arr vs) →
    candidates p d = [some v]
  | [_], d, v, h, hv => by
    rw [getPath] at h
    rw [candidates, h]
    split
    · next e => exact absurd (Option.some.inj e) (hv _)
    · rfl
  | k :: l :: ks, d, v, h, hv => by
    rw [getPath] at h
    rw [candidates]
    split at h
    · next e => rw [e]; exact candidates_of_getPath h hv
    · exact absurd h (by simp)

/-- A candidate is the value, where a missing one is a null. -/
def sameValue (v : Value) (c : Option Value) : Bool := c.getD .null = v

/-- A candidate of the same type stands to the value as the test says. -/
def ordered (test : Ordering → Bool) (v : Value) (c : Option Value) : Bool :=
  (c.getD .null).rank = v.rank && test ((c.getD .null).cmp v)

def operatorHolds (op : String) (v : Value) (cs : List (Option Value)) : Option Bool :=
  match op with
  | "$eq" => some (cs.any (sameValue v))
  | "$ne" => some (!cs.any (sameValue v))
  | "$lt" => some (cs.any (ordered (·.isLT) v))
  | "$lte" => some (cs.any (ordered (·.isLE) v))
  | "$gt" => some (cs.any (ordered (·.isGT) v))
  | "$gte" => some (cs.any (ordered (·.isGE) v))
  | "$in" => match v with
    | .arr vs => some (vs.any fun w => cs.any (sameValue w))
    | _ => none
  | "$nin" => match v with
    | .arr vs => some (!vs.any fun w => cs.any (sameValue w))
    | _ => none
  | _ => none

/-- Every operator of a field condition. -/
def operatorsHold : List (String × Value) → List (Option Value) → Option Bool
  | [], _ => some true
  | (op, v) :: fs, cs => (operatorHolds op v cs).bind fun b => (operatorsHold fs cs).map (b && ·)

/-- The condition of a field: operators when its first key is one, else a value to be equal to. -/
def fieldHolds (c : Value) (cs : List (Option Value)) : Option Bool :=
  match c with
  | .doc ((k, v) :: fs) => if isOperator k then operatorsHold ((k, v) :: fs) cs else some (cs.any (sameValue c))
  | _ => some (cs.any (sameValue c))

mutual

def satisfies (sv : Server) : Value → Doc → Option Bool
  | .doc fs, d => matchFields sv fs d
  | _, _ => none

/-- Every entry of a filter document. -/
def matchFields (sv : Server) : List (String × Value) → Doc → Option Bool
  | [], _ => some true
  | (k, c) :: fs, d =>
    (if k = "$expr" then (eval sv c d).map truthy
      else if k = "$and" then (matchEach sv c d).map (·.all id)
      else if k = "$or" then (matchEach sv c d).map (·.any id)
      else if isOperator k then none
      else fieldHolds c (candidates (splitPath k) d)).bind fun b => (matchFields sv fs d).map (b && ·)

/-- The results of the filters of an array that is not empty. -/
def matchEach (sv : Server) : Value → Doc → Option (List Bool)
  | .arr (v :: vs), d => (satisfies sv v d).bind fun b => (matchList sv vs d).map (b :: ·)
  | _, _ => none

def matchList (sv : Server) : List Value → Doc → Option (List Bool)
  | [], _ => some []
  | v :: vs, d => (satisfies sv v d).bind fun b => (matchList sv vs d).map (b :: ·)

end

/-- Two results, where an error in one is an error. -/
def both (a b : Option Bool) : Option Bool := a.bind fun x => b.map (x && ·)

@[simp] theorem both_some (a b : Bool) : both (some a) (some b) = some (a && b) := rfl

theorem both_assoc (a b c : Option Bool) : both (both a b) c = both a (both b c) := by
  cases a <;> cases b <;> cases c <;> simp [both, Bool.and_assoc]

theorem matchFields_append (sv : Server) (fs gs : List (String × Value)) (d : Doc) :
    matchFields sv (fs ++ gs) d = both (matchFields sv fs d) (matchFields sv gs d) := by
  induction fs with
  | nil => cases h : matchFields sv gs d <;> simp [matchFields, both, h]
  | cons f fs ih =>
    obtain ⟨k, c⟩ := f
    rw [List.cons_append, matchFields, matchFields, ih]
    exact (both_assoc _ _ _).symm

end Mongo
