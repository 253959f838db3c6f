import NosqlBuddy.QueryCode.Values

/-!
# What generated code denotes

"The output is intentionally minimal and self-contained so users can paste it" (query_code.rs:7). A piece that stands for an input is
to be one literal of the language whose value is the input, or to stay in one comment line (`Denotes`). `denotes_iff` says when: for
Python and C# under conditions, for the other languages never. `newline_escapes`: a line break in a name is not escaped.
-/

namespace QueryCode
open Literals Json

attribute [local instance (2000)] List.decidableBAll

/-! ## The statement -/

/-- The reader of the language takes the piece for its input, and stops where it ends. -/
def Piece.Reads (g : Grammar) (rest : List Char) : Piece → Prop
  | .code _ => True
  | .comment mark t => g.comment <+: mark ∧ ∀ c ∈ t, g.newline c = false
  | .text s t => g.readString (t ++ rest) = some (s, rest)
  | .value v t => readValue g (t ++ rest).length (t ++ rest) = some (v, rest)
  -- the function is given the JSON text of the value
  | .parsed v t => g.readString (t ++ rest) = some (v.compact, rest)
  | .list => g.lists = true

def Denotes (g : Grammar) : List Piece → Prop
  | [] => True
  | p :: ps => p.Reads g (text ps) ∧ Denotes g ps

/-- What code is generated for. -/
structure Request where
  database : List Char
  collection : List Char
  pipeline : List Json
  conn : ConnectionInfo
  write : Write
  numbered : NumberedItems pipeline ∧ Numbered write.filter ∧ Numbered write.update

/-- Both outputs denote the request. -/
def Request.Denoted (r : Request) (lang : Language) : Prop :=
  Denotes lang.grammar (generateWith lang r.database r.collection r.pipeline r.conn) ∧
    Denotes lang.grammar (writeCode lang r.database r.collection r.write)

/-- None of the characters is in the names of the connection. -/
def ConnectionInfo.Labelled (conn : ConnectionInfo) (newline : Char → Bool) : Prop :=
  (∀ s ∈ conn.profileName, ∀ c ∈ s, newline c = false) ∧ ∀ s ∈ conn.authMechanism, ∀ c ∈ s, newline c = false

/-- A text that Python reads as it is between single quotation marks. -/
def PythonPlain (s : List Char) : Prop := Plain (pythonEscapes.form '\'' pythonBarred noOpening) pythonEscapes.kept s

structure Request.PythonSafe (r : Request) : Prop where
  label : r.conn.Labelled pythonBarred
  uri : ∀ c ∈ uriFor r.conn, pythonBarred c = false
  database : (∀ c ∈ r.database, pythonBarred c = false) ∧ PythonPlain r.database
  collection : (∀ c ∈ r.collection, pythonBarred c = false) ∧ PythonPlain r.collection
  pipeline : bareItems r.pipeline = true
  filter : bare r.write.filter = true
  update : bare r.write.update = true

structure Request.CsharpSafe (r : Request) : Prop where
  label : r.conn.Labelled csharpNewline
  uri : ∀ c ∈ uriFor r.conn, csharpNewline c = false
  database : ∀ c ∈ r.database, csharpNewline c = false
  collection : ∀ c ∈ r.collection, csharpNewline c = false
  pipeline : r.pipeline = []
  filter : ∀ c ∈ pretty 0 r.write.filter, csharpNewline c = false
  update : ∀ c ∈ pretty 0 r.write.update, csharpNewline c = false

def Request.Safe (r : Request) : Language → Prop
  | .python => r.PythonSafe
  | .cSharp => r.CsharpSafe
  | _ => False

/-! ## Pieces -/

section
variable {g : Grammar}

theorem Denotes.reads : ∀ {ps : List Piece}, Denotes g ps → p ∈ ps → ∃ rest, p.Reads g rest
  | q :: ps, h, hp => by
    rcases List.mem_cons.1 hp with rfl | hp
    · exact ⟨_, h.1⟩
    · exact Denotes.reads h.2 hp

end

theorem jsonEscape_eq (s : List Char) : jsonEscape s = '"' :: (escaped s ++ ['"']) := by
  have htwice : replaceChar '"' "\\\"" (replaceChar '\\' "\\\\" s) = escaped s := by
    rw [replaceChar, replaceChar, escaped, List.flatMap_assoc]
    refine List.flatMap_congr fun c _ => ?_
    by_cases hslash : c = '\\'
    · subst hslash
      rfl
    · by_cases hquote : c = '"'
      · subst hquote
        rfl
      · simp [hslash, hquote]
  rw [jsonEscape, htwice, List.cons_append]

theorem uriFor_ne_nil (conn : ConnectionInfo) : uriFor conn ≠ [] := by
  unfold uriFor
  split
  · decide
  · next h =>
    intro hnil
    rw [hnil] at h
    exact h rfl

theorem comment_denotes (hmark : g.comment <+: mark.toList ++ [' '])
    (hfixed : ∀ t ∈ ["profile: ", "auth: ", " · "], ∀ c ∈ t.toList, g.newline c = false) (conn : ConnectionInfo) :
    Denotes g (connectionComment conn mark ++ ps) ↔ conn.Labelled g.newline ∧ Denotes g ps := by
  have hprofile := hfixed "profile: " (by simp)
  have hauth := hfixed "auth: " (by simp)
  have hdot := hfixed " · " (by simp)
  have happend : ∀ {u t : List Char}, (∀ c ∈ u, g.newline c = false) → ((∀ c ∈ u ++ t, g.newline c = false) ↔ ∀ c ∈ t, g.newline c = false) := by
    intro u t hu
    rw [List.forall_mem_append, and_iff_right hu]
  -- a single line
  have hline : ∀ {t : List Char}, Denotes g (.comment (mark.toList ++ [' ']) t :: ps) ↔ (∀ c ∈ t, g.newline c = false) ∧ Denotes g ps := by
    intro t
    rw [Denotes, Piece.Reads, and_iff_right hmark]
  unfold connectionComment ConnectionInfo.Labelled
  cases conn.profileName with
  | none =>
    cases conn.authMechanism with
    | none => simp
    | some mechanism =>
      have hsingle : " · ".toList.intercalate ["auth: ".toList ++ mechanism] = "auth: ".toList ++ mechanism := by simp [List.intercalate]
      simp only [Option.map_none, Option.toList_none, Option.map_some, Option.toList_some, List.nil_append, if_neg (List.cons_ne_nil _ _),
        hsingle, List.singleton_append, hline, happend hauth]
      simp
  | some name =>
    cases conn.authMechanism with
    | none =>
      have hsingle : " · ".toList.intercalate ["profile: ".toList ++ name] = "profile: ".toList ++ name := by simp [List.intercalate]
      simp only [Option.map_none, Option.toList_none, Option.map_some, Option.toList_some, List.append_nil, if_neg (List.cons_ne_nil _ _),
        hsingle, List.singleton_append, hline, happend hprofile]
      simp
    | some mechanism =>
      have hpair : " · ".toList.intercalate ["profile: ".toList ++ name, "auth: ".toList ++ mechanism] =
          "profile: ".toList ++ (name ++ (" · ".toList ++ ("auth: ".toList ++ mechanism))) := by simp [List.intercalate]
      simp only [Option.map_some, Option.toList_some, if_neg (List.cons_ne_nil _ _), hpair, hline, happend hprofile,
        List.cons_append, List.nil_append]
      rw [List.forall_mem_append, happend hdot, happend hauth]
      simp

/-! ## Strings -/

section
variable {f : Form} {g : Grammar}

theorem strIn_reads (hf : f.Escaping) (hg : g.strings.head? = some f) (hquote : ∀ f' ∈ g.strings.tail, f'.quote ≠ '"') (s rest : List Char) :
    (strIn s).Reads g rest ↔ ∀ c ∈ s, f.barred c = false := by
  have hstrings : g.strings = f :: g.strings.tail := (List.cons_head?_tail hg).symm
  have htext : jsonEscape s ++ rest = '"' :: (escaped s ++ '"' :: rest) := by rw [jsonEscape_eq]; simp
  have hothers : g.strings.tail.findSome? (fun f' => Literals.read f' ('"' :: (escaped s ++ '"' :: rest))) = none := by
    rw [List.findSome?_eq_none_iff]
    intro f' hf'
    rw [Literals.read, if_neg (Ne.symm (hquote f' hf'))]
  have hread : g.readString ('"' :: (escaped s ++ '"' :: rest)) = Literals.read f ('"' :: (escaped s ++ '"' :: rest)) := by
    rw [Grammar.readString, hstrings, List.findSome?_cons, hothers]
    cases Literals.read f ('"' :: (escaped s ++ '"' :: rest)) <;> rfl
  rw [strIn, Piece.Reads, htext, hread]
  exact read_escaped hf s rest

end

theorem python_escaping : pythonForm.Escaping := ⟨rfl, fun _ => rfl, ⟨rfl, rfl⟩, fun _ => rfl, fun _ => rfl⟩

def csharpForm : Form := csharpEscapes.form '"' csharpNewline noOpening

theorem csharp_escaping : csharpForm.Escaping := ⟨rfl, fun _ => rfl, ⟨rfl, rfl⟩, fun _ => rfl, fun _ => rfl⟩

theorem python_strIn (s rest : List Char) : (strIn s).Reads python rest ↔ ∀ c ∈ s, pythonBarred c = false :=
  strIn_reads python_escaping rfl (by decide) s rest

theorem csharp_strIn (s rest : List Char) : (strIn s).Reads csharp rest ↔ ∀ c ∈ s, csharpNewline c = false :=
  strIn_reads csharp_escaping rfl (by simp [csharp]) s rest

theorem python_raw (before : String) (s rest : List Char) : (raw before s).Reads python rest ↔ PythonPlain (before.toList ++ s) := by
  have hother : ∀ c out, pythonEscapes.other c = some out → out = ['\\', c] := by
    intro c out h
    simp only [pythonEscapes] at h
    split at h
    · cases h
    · exact (Option.some.inj h).symm
  have hkeeping : (pythonEscapes.form '\'' pythonBarred noOpening).Keeping pythonEscapes.kept :=
    Escapes.keeping hother (fun _ => rfl) ⟨by decide, rfl⟩ rfl
  have htext : '\'' :: (before.toList ++ s) ++ ['\''] ++ rest = '\'' :: ((before.toList ++ s) ++ '\'' :: rest) := by simp
  have hread : ∀ t, python.readString ('\'' :: t) = Literals.read (pythonEscapes.form '\'' pythonBarred noOpening) ('\'' :: t) := by
    intro t
    change ([pythonForm, pythonEscapes.form '\'' pythonBarred noOpening].findSome? fun f => Literals.read f ('\'' :: t)) = _
    have hdouble : Literals.read pythonForm ('\'' :: t) = none := by rw [Literals.read, if_neg (by decide)]
    rw [List.findSome?_cons, hdouble, List.findSome?_cons]
    cases Literals.read (pythonEscapes.form '\'' pythonBarred noOpening) ('\'' :: t) <;> rfl
  rw [raw, Piece.Reads, htext, hread]
  exact read_plain_iff hkeeping _ _

theorem pythonPlain_append : ∀ {u : List Char}, (∀ c ∈ u, c ≠ '\\' ∧ c ≠ '\'' ∧ pythonBarred c = false) → ∀ s : List Char,
    PythonPlain (u ++ s) ↔ PythonPlain s
  | [], _, _ => Iff.rfl
  | c :: u, h, s => by
    have hc := h c List.mem_cons_self
    have ih := pythonPlain_append (u := u) (fun d hd => h d (List.mem_cons_of_mem c hd)) s
    rw [← ih, PythonPlain, List.cons_append, Plain.eq_def]
    dsimp only
    rw [if_neg hc.1]
    exact ⟨fun hplain => hplain.2.2, fun hplain => ⟨hc.2.1, hc.2.2, hplain⟩⟩

/-! ## Python -/

theorem code_reads (g : Grammar) (s : String) (rest : List Char) : (code s).Reads g rest ↔ True := Iff.rfl

theorem piece_code_reads (g : Grammar) (t rest : List Char) : (Piece.code t).Reads g rest ↔ True := Iff.rfl

theorem ends_of_head (h : s.head? = some c) (hc : isNumberChar c = false) : Ends s := by
  intro d hd
  rw [h] at hd
  obtain rfl := Option.some.inj hd
  exact hc

theorem pipelineLit_reads (h : NumberedItems pipeline) (hrest : Ends rest) :
    (pipelineLit pipeline).Reads python rest ↔ bareItems pipeline = true := by
  rw [pipelineLit, Piece.Reads, pipelineLit_eq]
  refine (read_python (l := pipelineLayout) (v := .array pipeline) h hrest ?_).trans (by rw [bare])
  rw [List.length_append]
  exact Nat.le_add_right _ _

theorem prettyLit_reads (h : Numbered v) (hrest : Ends rest) :
    (prettyLit v).Reads python rest ↔ bare v = true := by
  rw [prettyLit, Piece.Reads, pretty_eq]
  refine read_python h hrest ?_
  rw [List.length_append]
  exact Nat.le_add_right _ _

theorem python_url (s rest : List Char) : (raw "mongodb://localhost:27017/" s).Reads python rest ↔ PythonPlain s := by
  rw [python_raw]
  exact pythonPlain_append (by decide) s

theorem python_name (s rest : List Char) : (raw "" s).Reads python rest ↔ PythonPlain s := python_raw "" s rest

theorem python_read_iff (r : Request) : Denotes python (pythonWith r.database r.collection r.pipeline r.conn) ↔
    r.conn.Labelled pythonBarred ∧ (∀ c ∈ uriFor r.conn, pythonBarred c = false) ∧ (∀ c ∈ r.database, pythonBarred c = false) ∧
      (∀ c ∈ r.collection, pythonBarred c = false) ∧ bareItems r.pipeline = true := by
  rw [pythonWith, comment_denotes (by decide) (by decide)]
  simp only [Denotes, code_reads, piece_code_reads, python_strIn, true_and, and_true]
  rw [pipelineLit_reads r.numbered.1 (ends_of_head (c := ')') rfl (by decide))]
  rfl

theorem python_write_iff (r : Request) : Denotes python (writeCode .python r.database r.collection r.write) ↔
    PythonPlain r.database ∧ PythonPlain r.collection ∧ bare r.write.filter = true ∧ bare r.write.update = true := by
  rw [writeCode]
  simp only [Denotes, code_reads, python_url, python_name, true_and, and_true]
  rw [prettyLit_reads r.numbered.2.1 (ends_of_head (c := ',') rfl (by decide)),
    prettyLit_reads r.numbered.2.2 (ends_of_head (c := '\n') rfl (by decide)), ← and_assoc, and_self_iff]

/-! ## C# -/

theorem csharp_comment (t rest : List Char) : (Piece.comment "// ".toList t).Reads csharp rest ↔ ∀ c ∈ t, csharpNewline c = false :=
  and_iff_right (by decide)

theorem parsed_mem (before after : String) (v : Json) (vs : List Json) : Piece.parsed v v.compact ∈ parsedStages before after (v :: vs) := by
  rw [parsedStages, List.map_cons]
  cases vs with
  | nil => simp [List.intercalate]
  | cons w ws => simp [List.intercalate_cons_cons]

theorem csharp_read_iff (r : Request) : Denotes csharp (csharpWith r.database r.collection r.pipeline r.conn) ↔
    r.conn.Labelled csharpNewline ∧ (∀ c ∈ uriFor r.conn, csharpNewline c = false) ∧ (∀ c ∈ r.database, csharpNewline c = false) ∧
      (∀ c ∈ r.collection, csharpNewline c = false) ∧ r.pipeline = [] := by
  cases hp : r.pipeline with
  | nil =>
    have hstages : parsedStages "BsonDocument.Parse(" ")" [] = [.list, code "]"] := rfl
    rw [csharpWith, hstages, List.append_assoc, List.append_assoc, comment_denotes (by decide) (by decide)]
    simp only [List.cons_append, List.nil_append, Denotes, code_reads, piece_code_reads, csharp_strIn, true_and, and_true]
    have hlist : ∀ rest, Piece.list.Reads csharp rest ↔ True := fun _ => iff_true_intro rfl
    simp only [hlist, and_true]
    rfl
  | cons v vs =>
    refine iff_of_false (fun h => ?_) fun h => nomatch h.2.2.2.2
    have hmem : Piece.parsed v v.compact ∈ csharpWith r.database r.collection (v :: vs) r.conn := by
      rw [csharpWith]
      exact List.mem_append_left _ (List.mem_append_right _ (parsed_mem _ _ v vs))
    obtain ⟨rest, hreads⟩ := h.reads hmem
    exact readString_ne_self csharp v.compact rest hreads

theorem csharp_write_iff (r : Request) : Denotes csharp (writeCode .cSharp r.database r.collection r.write) ↔
    ((∀ c ∈ r.database, csharpNewline c = false) ∧ ∀ c ∈ r.collection, csharpNewline c = false) ∧
      (∀ c ∈ pretty 0 r.write.filter, csharpNewline c = false) ∧ ∀ c ∈ pretty 0 r.write.update, csharpNewline c = false := by
  have hop : ∀ c ∈ r.write.op.text.toList, csharpNewline c = false := by
    cases r.write.op <;> decide
  have happend : ∀ {u t : List Char}, (∀ c ∈ u, csharpNewline c = false) →
      ((∀ c ∈ u ++ t, csharpNewline c = false) ↔ ∀ c ∈ t, csharpNewline c = false) := by
    intro u t hu
    rw [List.forall_mem_append, and_iff_right hu]
  have hdot : ∀ {t : List Char}, (∀ c ∈ '.' :: t, csharpNewline c = false) ↔ ∀ c ∈ t, csharpNewline c = false := by
    intro t
    rw [List.forall_mem_cons, and_iff_right (by decide)]
  rw [writeCode, writeComment]
  simp only [Denotes, csharp_comment, and_true, List.append_assoc]
  rw [happend (by decide), happend (by decide), happend hop, happend (by decide), List.forall_mem_append, hdot, happend (by decide),
    happend (by decide)]

/-! ## All languages -/

theorem nodeJs_never (r : Request) : ¬ Denotes javascript (nodeJsWith r.database r.collection r.pipeline r.conn) := by
  intro h
  have hmem : Piece.text (uriFor r.conn) ('"' :: jsonEscape (uriFor r.conn) ++ ['"']) ∈
      nodeJsWith r.database r.collection r.pipeline r.conn := by
    rw [nodeJsWith]
    exact List.mem_append_right _ (List.mem_cons_of_mem _ List.mem_cons_self)
  obtain ⟨rest, hreads⟩ := h.reads hmem
  obtain ⟨t, ht⟩ : ∃ t, '"' :: jsonEscape (uriFor r.conn) ++ ['"'] ++ rest = '"' :: '"' :: t := ⟨_, rfl⟩
  rw [Piece.Reads, ht] at hreads
  have hempty : javascript.readString ('"' :: '"' :: t) = some ([], t) := rfl
  rw [hempty] at hreads
  exact uriFor_ne_nil r.conn (Prod.mk.inj (Option.some.inj hreads)).1.symm

theorem java_never (r : Request) : ¬ Denotes java (javaWith r.database r.collection r.pipeline r.conn) := by
  intro h
  have hmem : Piece.list ∈ javaWith r.database r.collection r.pipeline r.conn := by
    rw [javaWith]
    exact List.mem_append_left _ (List.mem_append_right _ List.mem_cons_self)
  obtain ⟨rest, hreads⟩ := h.reads hmem
  cases hreads

theorem ruby_never (r : Request) : ¬ Denotes ruby (writeCode .ruby r.database r.collection r.write) := by
  rintro ⟨⟨hmark, -⟩, -⟩
  exact absurd hmark (by decide)

theorem shell_never (r : Request) : ¬ Denotes javascript (writeCode .shell r.database r.collection r.write) := by
  rintro ⟨-, hdatabase, -⟩
  exact readString_ne_self javascript r.database _ hdatabase

/-- **Generated code denotes the request** for Python and C# under their conditions, and for no other language. -/
theorem denotes_iff (r : Request) (lang : Language) : r.Denoted lang ↔ r.Safe lang := by
  cases lang with
  | nodeJs => exact iff_of_false (fun h => nodeJs_never r h.1) id
  | java => exact iff_of_false (fun h => java_never r h.1) id
  | ruby => exact iff_of_false (fun h => ruby_never r h.2) id
  | shell => exact iff_of_false (fun h => shell_never r h.2) id
  | python =>
    constructor
    · rintro ⟨hread, hwrite⟩
      obtain ⟨hlabel, huri, hdatabase, hcollection, hpipeline⟩ := (python_read_iff r).1 hread
      obtain ⟨hdatabase', hcollection', hfilter, hupdate⟩ := (python_write_iff r).1 hwrite
      exact ⟨hlabel, huri, ⟨hdatabase, hdatabase'⟩, ⟨hcollection, hcollection'⟩, hpipeline, hfilter, hupdate⟩
    · intro h
      exact ⟨(python_read_iff r).2 ⟨h.label, h.uri, h.database.1, h.collection.1, h.pipeline⟩,
        (python_write_iff r).2 ⟨h.database.2, h.collection.2, h.filter, h.update⟩⟩
  | cSharp =>
    constructor
    · rintro ⟨hread, hwrite⟩
      obtain ⟨hlabel, huri, hdatabase, hcollection, hpipeline⟩ := (csharp_read_iff r).1 hread
      obtain ⟨-, hfilter, hupdate⟩ := (csharp_write_iff r).1 hwrite
      exact ⟨hlabel, huri, hdatabase, hcollection, hpipeline, hfilter, hupdate⟩
    · intro h
      exact ⟨(csharp_read_iff r).2 ⟨h.label, h.uri, h.database, h.collection, h.pipeline⟩,
        (csharp_write_iff r).2 ⟨⟨h.database, h.collection⟩, h.filter, h.update⟩⟩

/-- A profile with a line break in its name. -/
def brokenLine : Request where
  database := "shop".toList
  collection := "orders".toList
  pipeline := []
  conn := ⟨[], some "a\nimport os".toList, none⟩
  write := ⟨.update, .object [], .object [], false⟩
  numbered := ⟨trivial, trivial, trivial⟩

/-- **A line break in a name ends the comment**, and what comes after it is code. -/
theorem newline_escapes : ¬ ∀ r lang, Request.Denoted r lang := by
  intro h
  have hdenotes := (python_read_iff brokenLine).1 (h brokenLine .python).1
  have hnewline := hdenotes.1.1 _ rfl '\n' (by decide)
  cases hnewline

end QueryCode
