import NosqlBuddy.Lib.Text

/-!
# A file with a record on each line

The file that `lines.join("\n")` writes, and what reading its lines back gives (`load_fileOf`). A line that is not a record is
skipped. The first bytes of such a file give back the records whose lines they hold whole, with whatever the rest of them reads
as (`load_cut`), if they end between two characters; a file that is not UTF-8 gives back none.
-/

namespace RecordFile
open Text

/-- A record as a line, and back. -/
structure LineCodec (R : Type*) where
  print : R → List Char
  parse : List Char → Option R
  plain : ∀ r, Plain (print r)
  ne_nil : ∀ r, print r ≠ []
  parse_print : ∀ r, parse (print r) = some r

variable {R : Type*} (codec : LineCodec R)

def textOf (rs : List R) : List Char := join (rs.map codec.print)

def encode (text : List Char) : ByteArray := (String.ofList text).toByteArray

/-- The file of these records. -/
def fileOf (rs : List R) : ByteArray := encode (textOf codec rs)

/-- The records of a file, `none` when there is no file. -/
def load (file : Option ByteArray) : List R :=
  match file.bind ByteArray.utf8Decode? with
  | some text => (lines text.toList).filterMap codec.parse
  | none => []

/-! ## Lines of a text that goes on -/

/-- Nothing, or the next line. -/
def NextLine (rest : List Char) : Prop := rest = [] ∨ ∃ after, rest = '\n' :: after

theorem lines_unlines_append : ∀ {ls : List (List Char)}, (∀ l ∈ ls, Plain l) → ∀ rest : List Char,
    lines (unlines ls ++ rest) = ls ++ lines rest
  | [], _, rest => rfl
  | l :: ls, h, rest => by
    obtain ⟨hnl, hcr⟩ := h l List.mem_cons_self
    have ih := lines_unlines_append (fun m hm => h m (List.mem_cons_of_mem l hm)) rest
    have hsplit : unlines (l :: ls) ++ rest = l ++ '\n' :: (unlines ls ++ rest) := by simp [unlines]
    rw [hsplit, lines, linesAux_append l [] _ hnl, List.reverse_nil, List.nil_append, stripCr, if_neg hcr, ← lines, ih]
    rfl

theorem lines_join_append (h : ∀ l ∈ ls, Plain l ∧ l ≠ []) (hrest : NextLine rest) :
    ∃ more, lines (join ls ++ rest) = ls ++ more := by
  by_cases hls : ls = []
  · subst hls
    exact ⟨lines rest, by simp [join, List.intercalate]⟩
  rcases hrest with rfl | ⟨after, rfl⟩
  · exact ⟨[], by rw [List.append_nil, List.append_nil, lines_join h]⟩
  · refine ⟨lines after, ?_⟩
    have hjoin : join ls ++ '\n' :: after = unlines ls ++ after := by
      rw [← join_concat_newline hls, List.append_assoc, List.singleton_append]
    rw [hjoin, lines_unlines_append fun l hl => (h l hl).1]

theorem nextLine_of_join (hls : ls ≠ []) (h : join (ls ++ ms) = join ls ++ rest) :
    NextLine rest := by
  cases ms with
  | nil =>
    rw [List.append_nil] at h
    exact .inl (List.append_cancel_left (h.symm.trans (List.append_nil _).symm))
  | cons m ms =>
    have hnl := @join_concat_newline (ls ++ m :: ms) (by simp)
    rw [h, unlines_append, ← join_concat_newline hls, List.append_assoc, List.append_assoc] at hnl
    have hrest := List.append_cancel_left hnl
    cases rest with
    | nil => exact .inl rfl
    | cons c cs => exact .inr ⟨cs, by rw [(List.cons.inj hrest).1]⟩

/-! ## Reading back -/

theorem load_encode (text : List Char) : load codec (some (encode text)) = (lines text).filterMap codec.parse := by
  have hdecode : (encode text).utf8Decode? = some text.toArray := by
    rw [encode, String.toByteArray_ofList, List.utf8Decode?_utf8Encode]
  rw [load, Option.bind_some, hdecode]

theorem filterMap_parse (rs : List R) : (rs.map codec.print).filterMap codec.parse = rs := by
  rw [List.filterMap_map]
  calc rs.filterMap (codec.parse ∘ codec.print) = rs.filterMap some := by
        exact congrFun (congrArg _ (funext codec.parse_print)) rs
    _ = rs := List.filterMap_some

theorem plain_lines {rs : List R} : ∀ l ∈ rs.map codec.print, Plain l ∧ l ≠ [] := by
  intro l hl
  obtain ⟨r, -, rfl⟩ := List.mem_map.1 hl
  exact ⟨codec.plain r, codec.ne_nil r⟩

theorem extract_encode (cut rest : List Char) : (encode (cut ++ rest)).extract 0 (encode cut).size = encode cut := by
  rw [encode, encode, String.ofList_append, String.toByteArray_append, ByteArray.extract_append_eq_left rfl]

/-- **A file is read back.** -/
theorem load_fileOf (rs : List R) : load codec (some (fileOf codec rs)) = rs := by
  rw [fileOf, load_encode, textOf, lines_join (plain_lines codec), filterMap_parse]

/-- **The first lines of a file are read back**, whatever is left of the next. -/
theorem load_cut {rs : List R} {cut : List Char} (hcut : cut <+: textOf codec rs) {n : Nat}
    (hn : textOf codec (rs.take n) <+: cut) : ∃ more, load codec (some (encode cut)) = rs.take n ++ more := by
  obtain ⟨rest, rfl⟩ := hn
  obtain ⟨tail, htail⟩ := hcut
  have hlines : ∃ more, lines (textOf codec (rs.take n) ++ rest) = (rs.take n).map codec.print ++ more := by
    by_cases hnil : rs.take n = []
    · exact ⟨lines (textOf codec (rs.take n) ++ rest), by rw [hnil]; rfl⟩
    have hnext : NextLine (rest ++ tail) := by
      refine @nextLine_of_join ((rs.take n).map codec.print) ((rs.drop n).map codec.print) _ (by simpa using hnil) ?_
      rw [← List.map_append, List.take_append_drop, ← List.append_assoc]
      exact htail.symm
    refine lines_join_append (plain_lines codec) ?_
    cases rest with
    | nil => exact .inl rfl
    | cons c cs =>
      rcases hnext with hnext | ⟨after, hnext⟩
      · cases hnext
      · exact .inr ⟨cs, by rw [(List.cons.inj hnext).1]⟩
  obtain ⟨more, hmore⟩ := hlines
  exact ⟨more.filterMap codec.parse, by rw [load_encode, hmore, List.filterMap_append, filterMap_parse]⟩

end RecordFile
