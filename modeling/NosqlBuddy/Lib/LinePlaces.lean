import NosqlBuddy.Lib.Cut
import NosqlBuddy.Lib.Text

/-!
# Lines and where they stand

`LineAt text before line rest`: the text is the lines `before`, then `line`, then `rest`, which is empty or begins with the
newline that ends `line`. Unlike `lines`, which drops the `\r` before a newline, these parts are the text itself. Two lines of
a text are in order (`LineAt.compare`), and the lines that `lines` gives are these (`lines_of_lineAt`, `lineAt_of_lines`).
-/

namespace Text

structure LineAt (text : List Char) (before : List (List Char)) (line rest : List Char) : Prop where
  eq : text = unlines before ++ (line ++ rest)
  before : ∀ l ∈ before, '\n' ∉ l
  line : '\n' ∉ line
  rest : rest = [] ∨ ∃ after, rest = '\n' :: after

/-- Nothing visible. -/
def Blank (l : List Char) : Prop := ∀ c ∈ l, isWhitespace c = true

theorem unlines_cons (l : List Char) (ls : List (List Char)) : unlines (l :: ls) = l ++ '\n' :: unlines ls := by
  rw [unlines, List.flatMap_cons, List.append_assoc]
  rfl

/-! ## Order -/

theorem first_inj (ha : '\n' ∉ a) (hb : '\n' ∉ b) (hx : x = [] ∨ ∃ after, x = '\n' :: after)
    (hy : y = [] ∨ ∃ after, y = '\n' :: after) (h : a ++ x = b ++ y) : a = b ∧ x = y := by
  rcases hx with rfl | ⟨after, rfl⟩
  · rcases hy with rfl | ⟨after', rfl⟩
    · simpa using h
    · rw [List.append_nil] at h
      exact absurd (h ▸ List.mem_append_right b List.mem_cons_self) ha
  · rcases hy with rfl | ⟨after', rfl⟩
    · rw [List.append_nil] at h
      exact absurd (h ▸ List.mem_append_right a List.mem_cons_self) hb
    · obtain ⟨rfl, rfl⟩ := Cut.append_cons_inj ha hb h
      exact ⟨rfl, rfl⟩

/-- **Two lines of a text are one line, or one stands behind the other.** -/
theorem LineAt.compare : ∀ {before before' : List (List Char)} {text line line' rest rest' : List Char},
    LineAt text before line rest → LineAt text before' line' rest' →
      (before = before' ∧ line = line' ∧ rest = rest') ∨
      (∃ more, before' = before ++ line :: more ∧ rest = '\n' :: (unlines more ++ (line' ++ rest'))) ∨
      ∃ more, before = before' ++ line' :: more ∧ rest' = '\n' :: (unlines more ++ (line ++ rest))
  | [], [], text, line, line', rest, rest', h, h' => by
    obtain ⟨rfl, rfl⟩ := first_inj h.line h'.line h.rest h'.rest (h.eq.symm.trans h'.eq)
    exact .inl ⟨rfl, rfl, rfl⟩
  | [], l' :: before', text, line, line', rest, rest', h, h' => by
    have heq := h.eq.symm.trans h'.eq
    rw [unlines_cons, List.append_assoc, List.cons_append] at heq
    obtain ⟨rfl, rfl⟩ := first_inj h.line (h'.before l' List.mem_cons_self) h.rest (.inr ⟨_, rfl⟩) heq
    exact .inr (.inl ⟨before', rfl, rfl⟩)
  | l :: before, [], text, line, line', rest, rest', h, h' => by
    have heq := h'.eq.symm.trans h.eq
    rw [unlines_cons, List.append_assoc, List.cons_append] at heq
    obtain ⟨rfl, rfl⟩ := first_inj h'.line (h.before l List.mem_cons_self) h'.rest (.inr ⟨_, rfl⟩) heq
    exact .inr (.inr ⟨before, rfl, rfl⟩)
  | l :: before, l' :: before', text, line, line', rest, rest', h, h' => by
    have heq := h.eq.symm.trans h'.eq
    rw [unlines_cons, unlines_cons, List.append_assoc, List.append_assoc, List.cons_append, List.cons_append] at heq
    obtain ⟨rfl, htail⟩ := Cut.append_cons_inj (h.before l List.mem_cons_self) (h'.before l' List.mem_cons_self) heq
    have hrest := @LineAt.compare before before' _ _ _ _ _
      ⟨rfl, fun m hm => h.before m (List.mem_cons_of_mem l hm), h.line, h.rest⟩
      ⟨htail, fun m hm => h'.before m (List.mem_cons_of_mem l hm), h'.line, h'.rest⟩
    rcases hrest with ⟨rfl, rfl, rfl⟩ | ⟨more, rfl, hmore⟩ | ⟨more, rfl, hmore⟩
    · exact .inl ⟨rfl, rfl, rfl⟩
    · exact .inr (.inl ⟨more, rfl, hmore⟩)
    · exact .inr (.inr ⟨more, rfl, hmore⟩)

/-! ## Lines -/

theorem trim_eq_nil_iff : trim l = [] ↔ Blank l := by
  rw [trim, List.rdropWhile_eq_nil_iff]
  constructor
  · intro h c hc
    by_contra hvis
    have hdrop : l.dropWhile isWhitespace ≠ [] := fun hnil => hvis (List.dropWhile_eq_nil_iff.1 hnil c hc)
    have hhead := List.head_dropWhile_not isWhitespace hdrop
    rw [h _ (List.head_mem hdrop)] at hhead
    cases hhead
  · intro h c hc
    exact h c ((List.dropWhile_sublist _).mem hc)

theorem trim_stripCr (l : List Char) : trim (stripCr l) = trim l := by
  rw [stripCr]
  split
  · next h =>
    obtain ⟨l', rfl⟩ : ∃ l', l = l' ++ ['\r'] := by
      obtain ⟨hne, hlast⟩ := List.getLast?_eq_some_iff.1 h
      exact ⟨hne, hlast⟩
    rw [List.dropLast_concat, trim, trim, List.dropWhile_append]
    split
    · next hnil =>
      rw [List.isEmpty_iff] at hnil
      rw [hnil]
      rfl
    · rw [List.rdropWhile_concat_pos _ _ _ rfl]
  · rfl

theorem lines_eq (ht : '\n' ∉ tail) : ∀ {ls : List (List Char)}, (∀ l ∈ ls, '\n' ∉ l) →
    lines (unlines ls ++ tail) = ls.map stripCr ++ if tail = [] then [] else [tail]
  | [], _ => by
    rw [unlines, List.flatMap_nil, List.nil_append, lines, linesAux_last tail [] ht]
    by_cases h0 : tail = [] <;> simp [h0]
  | l :: ls, h => by
    have ih := lines_eq ht fun m hm => h m (List.mem_cons_of_mem l hm)
    rw [unlines_cons, List.append_assoc, List.cons_append, lines, linesAux_append l [] _ (h l List.mem_cons_self)]
    rw [lines] at ih
    rw [ih]
    rfl

theorem exists_lines (text : List Char) : ∃ ls tail, (∀ l ∈ ls, '\n' ∉ l) ∧ '\n' ∉ tail ∧ text = unlines ls ++ tail := by
  induction text with
  | nil => exact ⟨[], [], fun _ h => absurd h List.not_mem_nil, List.not_mem_nil, rfl⟩
  | cons c cs ih =>
    obtain ⟨ls, tail, hls, htail, rfl⟩ := ih
    by_cases hc : c = '\n'
    · subst hc
      refine ⟨[] :: ls, tail, fun l hl => ?_, htail, rfl⟩
      rcases List.mem_cons.1 hl with rfl | hl
      · exact List.not_mem_nil
      · exact hls l hl
    · cases ls with
      | nil => exact ⟨[], c :: tail, hls, fun h => (List.mem_cons.1 h).elim (fun h => hc h.symm) htail, rfl⟩
      | cons l ls =>
        refine ⟨(c :: l) :: ls, tail, fun m hm => ?_, htail, rfl⟩
        rcases List.mem_cons.1 hm with rfl | hm
        · exact fun h => (List.mem_cons.1 h).elim (fun h => hc h.symm) (hls l List.mem_cons_self)
        · exact hls m (List.mem_cons_of_mem l hm)

theorem lines_of_lineAt (h : LineAt text before line rest)
    (hne : line ≠ []) : ∃ l after, lines text = before.map stripCr ++ l :: after ∧ trim l = trim line := by
  rcases h.rest with hrest | ⟨more, hrest⟩
  · refine ⟨line, [], ?_, rfl⟩
    rw [h.eq, hrest, List.append_nil, lines_eq h.line h.before, if_neg hne]
  · obtain ⟨ls, tail, hls, htail, rfl⟩ := exists_lines more
    refine ⟨stripCr line, ls.map stripCr ++ if tail = [] then [] else [tail], ?_, trim_stripCr line⟩
    have htext : text = unlines (before ++ line :: ls) ++ tail := by
      rw [h.eq, hrest, unlines_append, unlines_cons]
      simp
    have hall : ∀ l ∈ before ++ line :: ls, '\n' ∉ l := by
      intro l hl
      rcases List.mem_append.1 hl with hl | hl
      · exact h.before l hl
      · rcases List.mem_cons.1 hl with rfl | hl
        · exact h.line
        · exact hls l hl
    rw [htext, lines_eq htail hall, List.map_append, List.map_cons, List.append_assoc]
    rfl

theorem lineAt_of_lines (h : lines text = pre ++ l :: after) :
    ∃ before line rest, LineAt text before line rest ∧ before.map stripCr = pre ∧ trim line = trim l := by
  obtain ⟨ls, tail, hls, htail, rfl⟩ := exists_lines text
  rw [lines_eq htail hls] at h
  -- the line is what follows the last newline, or one of those that a newline ends
  have hcases : (pre = ls.map stripCr ∧ l = tail) ∨ ∃ more, ls.map stripCr = pre ++ l :: more := by
    by_cases hnil : tail = []
    · rw [if_pos hnil, List.append_nil] at h
      exact .inr ⟨after, h⟩
    rw [if_neg hnil] at h
    rcases List.append_eq_append_iff.1 h with ⟨t, hpre, ht⟩ | ⟨t, hmap, ht⟩
    · cases t with
      | nil => exact .inl ⟨by simpa using hpre, (List.cons.inj ht).1.symm⟩
      | cons x t =>
        have := (List.cons.inj ht).2
        simp at this
    · cases t with
      | nil => exact .inl ⟨by simpa using hmap.symm, (List.cons.inj ht).1⟩
      | cons x t =>
        obtain ⟨rfl, -⟩ := List.cons.inj ht
        exact .inr ⟨t, hmap⟩
  rcases hcases with ⟨rfl, rfl⟩ | ⟨more, hmap⟩
  · exact ⟨ls, l, [], ⟨by rw [List.append_nil], hls, htail, .inl rfl⟩, rfl, rfl⟩
  · obtain ⟨before, ls', rfl, rfl, hls'⟩ := List.map_eq_append_iff.1 hmap
    obtain ⟨line, more', rfl, rfl, rfl⟩ := List.map_eq_cons_iff.1 hls'
    refine ⟨before, line, '\n' :: (unlines more' ++ tail), ⟨?_, ?_, ?_, .inr ⟨_, rfl⟩⟩, rfl, (trim_stripCr line).symm⟩
    · rw [unlines_append, unlines_cons]
      simp
    · exact fun m hm => hls m (List.mem_append_left _ hm)
    · exact hls line (List.mem_append_right _ List.mem_cons_self)

theorem LineAt.last {before before' : List (List Char)} {text line line' rest rest' : List Char} (h : LineAt text before line rest)
    (h' : LineAt text before' line' rest') (hrest : Blank rest) (hrest' : Blank rest') (hline : ¬ Blank line) (hline' : ¬ Blank line') :
    before = before' ∧ line = line' ∧ rest = rest' := by
  rcases h.compare h' with heq | ⟨more, -, rfl⟩ | ⟨more, -, rfl⟩
  · exact heq
  · exact absurd (fun c hc => hrest c (by simp [hc])) hline'
  · exact absurd (fun c hc => hrest' c (by simp [hc])) hline

end Text
