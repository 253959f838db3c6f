import Mathlib.Data.List.DropRight

/-!
# Lines of text

`str::lines`, `str::trim`, `str::split_whitespace` and `join("\n")` of the Rust standard library on lists of characters. A
line ends at `\n` or `\r\n`; the text after the last `\n` is a line when it is not empty, and a `\r`
at its end is kept.

`unlines ls` is what appending the lines `ls` one after the other leaves in a file; `lines_unlines`
reads them back, with whatever stands after the last newline.
-/

namespace Text

/-- The `White_Space` property of Unicode. -/
def isWhitespace (c : Char) : Bool :=
  let n := c.toNat
  (0x09 ≤ n && n ≤ 0x0D) || n == 0x20 || n == 0x85 || n == 0xA0 || n == 0x1680 ||
    (0x2000 ≤ n && n ≤ 0x200A) || n == 0x2028 || n == 0x2029 || n == 0x202F || n == 0x205F || n == 0x3000

def trim (l : List Char) : List Char := (l.dropWhile isWhitespace).rdropWhile isWhitespace

/-- Drop one `\r` at the end of a line that a `\n` ended. -/
def stripCr (l : List Char) : List Char := if l.getLast? = some '\r' then l.dropLast else l

def linesAux : List Char → List Char → List (List Char)
  | acc, [] => if acc = [] then [] else [acc.reverse]
  | acc, c :: cs => if c = '\n' then stripCr acc.reverse :: linesAux [] cs else linesAux (c :: acc) cs

def lines (text : List Char) : List (List Char) := linesAux [] text

/-- `ls.join("\n")`. -/
def join (ls : List (List Char)) : List Char := ['\n'].intercalate ls

/-- `split_whitespace`. -/
def words (l : List Char) : List (List Char) := (l.splitOnP isWhitespace).filter (· ≠ [])

/-- Every line followed by a newline. -/
def unlines (ls : List (List Char)) : List Char := ls.flatMap (· ++ ['\n'])

/-! ## Reading lines -/

theorem linesAux_append : ∀ (l acc rest : List Char), '\n' ∉ l →
    linesAux acc (l ++ '\n' :: rest) = stripCr (acc.reverse ++ l) :: linesAux [] rest
  | [], acc, rest, _ => by simp [linesAux]
  | c :: cs, acc, rest, h => by
    have hc : c ≠ '\n' := fun he => h (by simp [he])
    have hcs : '\n' ∉ cs := fun hm => h (by simp [hm])
    simp only [List.cons_append, linesAux, hc, if_false]
    rw [linesAux_append cs (c :: acc) rest hcs]
    simp

theorem linesAux_last : ∀ (l acc : List Char), '\n' ∉ l →
    linesAux acc l = if acc.reverse ++ l = [] then [] else [acc.reverse ++ l]
  | [], acc, _ => by simp [linesAux]
  | c :: cs, acc, h => by
    have hc : c ≠ '\n' := fun he => h (by simp [he])
    have hcs : '\n' ∉ cs := fun hm => h (by simp [hm])
    simp only [linesAux, hc, if_false]
    rw [linesAux_last cs (c :: acc) hcs]
    simp

/-- A line that reading gives back as it is: it holds no newline and does not end in `\r`. -/
def Plain (l : List Char) : Prop := '\n' ∉ l ∧ l.getLast? ≠ some '\r'

theorem lines_unlines {tail : List Char} (ht : '\n' ∉ tail) : ∀ {ls : List (List Char)},
    (∀ l ∈ ls, Plain l) → lines (unlines ls ++ tail) = ls ++ (if tail = [] then [] else [tail])
  | [], _ => by
    rw [unlines, List.flatMap_nil, List.nil_append, lines, linesAux_last tail [] ht]
    by_cases h0 : tail = [] <;> simp [h0]
  | l :: ls, h => by
    obtain ⟨hnl, hcr⟩ := h l (by simp)
    have ih := lines_unlines ht fun m hm => h m (List.mem_cons_of_mem l hm)
    have hsplit : unlines (l :: ls) ++ tail = l ++ '\n' :: (unlines ls ++ tail) := by simp [unlines]
    rw [hsplit, lines, linesAux_append l [] _ hnl]
    simp only [List.reverse_nil, List.nil_append, stripCr, hcr, if_false, List.cons_append]
    rw [← ih]
    rfl

theorem unlines_append (ls ms : List (List Char)) : unlines (ls ++ ms) = unlines ls ++ unlines ms := by
  simp [unlines]

theorem join_concat_newline : ∀ {ls : List (List Char)}, ls ≠ [] → join ls ++ ['\n'] = unlines ls
  | [], h => absurd rfl h
  | [l], _ => by simp [join, unlines, List.intercalate]
  | l :: m :: ls, _ => by
    have ih := @join_concat_newline (m :: ls) (by simp)
    have hj : join (l :: m :: ls) = l ++ '\n' :: join (m :: ls) := by
      simp [join, List.intercalate, List.intersperse]
    rw [hj, List.append_assoc, List.cons_append, ih]
    simp [unlines]

theorem join_eq_nil (h : ∀ l ∈ ls, l ≠ []) (hj : join ls = []) : ls = [] := by
  cases ls with
  | nil => rfl
  | cons l ls =>
    exfalso
    refine h l (by simp) ?_
    cases ls with
    | nil => simpa [join, List.intercalate] using hj
    | cons m ms => simp [join, List.intercalate, List.intersperse] at hj

theorem lines_join (h : ∀ l ∈ ls, Plain l ∧ l ≠ []) : lines (join ls) = ls := by
  induction ls using List.reverseRecOn with
  | nil => rfl
  | append_singleton ls l ih =>
    have hl := h l (by simp)
    have hjoin : join (ls ++ [l]) = unlines ls ++ l := by
      have hnl := @join_concat_newline (ls ++ [l]) (by simp)
      rw [unlines_append, unlines, unlines, List.flatMap_singleton, ← List.append_assoc] at hnl
      exact List.append_cancel_right hnl
    rw [hjoin, lines_unlines hl.1.1 fun m hm => (h m (by simp [hm])).1, if_neg hl.2]

/-! ## Words -/

theorem visible_of_isDigit (h : c.isDigit = true) : isWhitespace c = false := by
  simp only [Char.isDigit, Bool.and_eq_true, decide_eq_true_eq, ge_iff_le, UInt32.le_iff_toNat_le] at h
  obtain ⟨h1, h2⟩ := h
  have h1' : 48 ≤ c.toNat := h1
  have h2' : c.toNat ≤ 57 := h2
  simp [isWhitespace]
  omega

theorem words_of_visible (h : ∀ c ∈ l, isWhitespace c = false) (hne : l ≠ []) : words l = [l] := by
  simp [words, List.splitOnP_eq_singleton h, hne]

theorem words_append (h : ∀ c ∈ l, isWhitespace c = false) (hne : l ≠ [])
    (hc : isWhitespace c = true) : words (l ++ c :: rest) = l :: words rest := by
  simp [words, List.splitOnP_append_cons_of_forall_mem h c hc, hne]

/-! ## Trimming -/

theorem dropWhile_of_head (hc : isWhitespace c = false) :
    (c :: cs).dropWhile isWhitespace = c :: cs := by
  simp [List.dropWhile, hc]

theorem trim_head {c : Char} {cs : List Char} (hc : isWhitespace c = false) :
    trim (c :: cs) <+: c :: cs ∧ trim (c :: cs) ≠ [] := by
  rw [trim, dropWhile_of_head hc]
  have hp := List.rdropWhile_prefix isWhitespace (c :: cs)
  refine ⟨hp, fun hnil => ?_⟩
  have hall := List.rdropWhile_eq_nil_iff.1 hnil c (by simp)
  rw [hc] at hall
  cases hall

theorem trim_of_ends (hc : isWhitespace c = false)
    (hd : isWhitespace d = false) : trim (c :: (cs ++ [d])) = c :: (cs ++ [d]) := by
  rw [trim, dropWhile_of_head hc, ← List.cons_append, List.rdropWhile_concat_neg _ _ _ (by simp [hd])]

end Text
