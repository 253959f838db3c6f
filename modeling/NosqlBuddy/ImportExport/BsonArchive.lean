import Mathlib.Algebra.Ring.Int.Defs
import NosqlBuddy.Lib.Codes

/-!
# BSON archives

A dump is a file of BSON documents, one after the other; a document starts with its own length.

`next_doc` takes every `UnexpectedEof` inside the four bytes of a length for the end of the archive. So an archive that
was cut there, or whose decompressor stops there, ends cleanly (`framed_iff`, `cut_length_not_reported`).
-/

namespace ImportExport
open Codes

/-! ## The source -/

/-- `AppError` (`src-tauri/src/error.rs:21`), the variants that are built here. -/
inductive AppError where
  | io (message : String)
  | validation (message : String)
  | internal (message : String)
  | mongo (message : String)
  | invalidBson (message : String)
deriving DecidableEq, Repr

inductive IoErrorKind where
  | unexpectedEof
  | other
deriving DecidableEq, Repr

structure IoError where
  kind : IoErrorKind
  message : String
deriving DecidableEq, Repr

/-- The bytes that a reader still delivers, and the error that it then reports in place of the end of file. -/
structure Reader where
  bytes : List UInt8
  fault : Option IoError
deriving DecidableEq, Repr

/-- `std::io::Read::read_exact`. -/
def Reader.readExact (r : Reader) (n : Nat) : Except IoError (List UInt8) × Reader :=
  if n ≤ r.bytes.length then (.ok (r.bytes.take n), { r with bytes := r.bytes.drop n })
  else (.error (r.fault.getD ⟨.unexpectedEof, "failed to fill whole buffer"⟩), { r with bytes := [] })

/-- `i32::from_le_bytes`. -/
def i32FromLe (bytes : List UInt8) : Int := if ofLe bytes < 2 ^ 31 then ofLe bytes else (ofLe bytes : Int) - 2 ^ 32

def maxBsonDocLen : Nat := 64 * 1024 * 1024

/-- The encoder and the decoder of documents. -/
structure BsonCodec (Doc : Type) where
  toVec : Doc → Except String (List UInt8)
  fromSlice : List UInt8 → Except String Doc

section
variable {Doc : Type} (C : BsonCodec Doc)

/-- `next_doc` (bson_source.rs:66). -/
def nextDoc (r : Reader) : Except AppError (Option Doc) × Reader :=
  match r.readExact 4 with
  | (.error e, r) => if e.kind = .unexpectedEof then (.ok none, r) else (.error (.io e.message), r)
  | (.ok lenBytes, r) =>
    let len := i32FromLe lenBytes
    if len < 5 then (.error (.validation s!"invalid BSON document length: {len}"), r)
    else if len.toNat > maxBsonDocLen then
      (.error (.validation
        s!"BSON document length {len.toNat} exceeds maximum supported size of {maxBsonDocLen} bytes"), r)
    else match r.readExact (len.toNat - 4) with
      | (.error e, r) => (.error (.io e.message), r)
      | (.ok body, r) =>
        match C.fromSlice (lenBytes ++ body) with
        | .error e => (.error (.invalidBson e), r)
        | .ok doc => (.ok (some doc), r)

theorem nextDoc_lt (h : nextDoc C r = (.ok (some d), r')) : r'.bytes.length < r.bytes.length := by
  unfold nextDoc Reader.readExact at h
  by_cases h4 : 4 ≤ r.bytes.length
  · simp only [h4, if_true] at h
    split at h
    · cases h
    · split at h
      · cases h
      · split at h
        · cases h
        · next hread =>
          split at h
          · cases h
          · obtain ⟨_, rfl⟩ := Prod.mk.inj h
            split at hread
            · obtain ⟨_, rfl⟩ := Prod.mk.inj hread
              simp only [List.length_drop]
              omega
            · cases hread
  · simp only [h4, if_false] at h
    split at h <;> cases h

/-- The documents before the first `None` or error, and which of the two it was. -/
def readAll (r : Reader) : List Doc × Except AppError Unit :=
  match _h : nextDoc C r with
  | (.ok none, _) => ([], .ok ())
  | (.error e, _) => ([], .error e)
  | (.ok (some d), r') => (d :: (readAll r').1, (readAll r').2)
termination_by r.bytes.length
decreasing_by all_goals exact nextDoc_lt C _h

/-- The bytes that a sink has written; `none` once it is finished. -/
structure BsonSink where
  target : Option (List UInt8)
deriving DecidableEq, Repr

/-- `write` (bson_sink.rs:33), into a target that takes every byte. -/
def BsonSink.write (sink : BsonSink) (doc : Doc) : Except AppError BsonSink :=
  match C.toVec doc with
  | .error e => .error (.invalidBson e)
  | .ok bytes =>
    match sink.target with
    | none => .error (.internal "bson sink already finalized")
    | some written => .ok ⟨some (written ++ bytes)⟩

def writeAll (sink : BsonSink) (docs : List Doc) : Except AppError BsonSink := docs.foldlM (BsonSink.write C) sink

/-! ## The format -/

/-- The documents' encodings, one after the other. -/
inductive Archive : List Doc → List UInt8 → Prop
  | nil : Archive [] []
  | cons {d : Doc} {chunk : List UInt8} {ds : List Doc} {rest : List UInt8} (hd : C.toVec d = .ok chunk)
      (hds : Archive ds rest) : Archive (d :: ds) (chunk ++ rest)

/-- Every document fits the bound of the reader. -/
def Readable (ds : List Doc) : Prop := ∀ d ∈ ds, ∀ chunk, C.toVec d = .ok chunk → chunk.length ≤ maxBsonDocLen

/-- The reader delivers the archive of the documents and then the end of file. -/
def Exact (r : Reader) (ds : List Doc) : Prop := Archive C ds r.bytes ∧ r.fault = none

/-- The documents stand complete at the start, and no further document that fits the bound does. -/
def CompleteBefore (r : Reader) (ds : List Doc) : Prop := ∃ pre rest, Archive C ds pre ∧ r.bytes = pre ++ rest ∧
  ∀ d chunk tail, C.toVec d = .ok chunk → chunk.length ≤ maxBsonDocLen → rest ≠ chunk ++ tail

/-- Archives, and nothing but archives, end cleanly; every other stream ends in an error behind its complete documents. -/
def Framed (r : Reader) : Prop :=
  (∀ ds, readAll C r = (ds, .ok ()) ↔ Exact C r ds) ∧
    ((∀ ds, ¬ Exact C r ds) → ∃ ds e, readAll C r = (ds, .error e) ∧ CompleteBefore C r ds)

/-- The stream breaks off in a length: behind complete documents it ends after one, two or three bytes, or its reader
reports `UnexpectedEof` within the four bytes. -/
def CutInLength (r : Reader) : Prop := ∃ ds pre rest, Archive C ds pre ∧ Readable C ds ∧ r.bytes = pre ++ rest ∧ rest.length < 4 ∧
  ((r.fault = none ∧ rest ≠ []) ∨ ∃ e, r.fault = some e ∧ e.kind = .unexpectedEof)

/-- An archive with a document that is too long for the reader. -/
def Oversized (r : Reader) : Prop := ∃ ds, Exact C r ds ∧ ¬ Readable C ds

/-- The documents whose encodings lie whole within the first `n` bytes, and how many bytes follow them there. -/
def wholeWithin : List Doc → Nat → List Doc × Nat
  | [], _ => ([], 0)
  | d :: ds, n =>
    match C.toVec d with
    | .error _ => ([], n)
    | .ok chunk =>
      if chunk.length ≤ n then (d :: (wholeWithin ds (n - chunk.length)).1, (wholeWithin ds (n - chunk.length)).2) else ([], n)

/-- `bson`'s encoder writes the length of a document in front, and its decoder is the inverse of its encoder on the byte
strings that announce their own length. -/
structure BsonCodec.Lawful : Prop where
  announced : ∀ {d : Doc} {bytes : List UInt8}, C.toVec d = .ok bytes →
    5 ≤ bytes.length ∧ bytes.length < 2 ^ 31 ∧ bytes.take 4 = toLe 4 bytes.length
  decode : ∀ {d : Doc} {bytes : List UInt8}, bytes.take 4 = toLe 4 bytes.length →
    (C.fromSlice bytes = .ok d ↔ C.toVec d = .ok bytes)

end

section
variable {Doc : Type} {C : BsonCodec Doc}

/-! ## Documents at the front of a stream -/

theorem i32FromLe_toLe (h : n < 2 ^ 31) : i32FromLe (toLe 4 n) = n := by
  rw [i32FromLe, ofLe_toLe (by omega), if_pos h]

theorem toLe_i32FromLe (hlen : bytes.length = 4) (h : 0 ≤ i32FromLe bytes) :
    toLe 4 (i32FromLe bytes).toNat = bytes := by
  have hlt := ofLe_lt bytes
  rw [hlen] at hlt
  unfold i32FromLe at h ⊢
  by_cases hsign : ofLe bytes < 2 ^ 31
  · rw [if_pos hsign, Int.toNat_natCast, ← hlen, toLe_ofLe]
  · rw [if_neg hsign] at h
    omega

theorem front_unique (hC : C.Lawful) (hd : C.toVec d = .ok chunk)
    (hd' : C.toVec d' = .ok chunk') (h : chunk ++ tail = chunk' ++ tail') : d = d' ∧ chunk = chunk' ∧ tail = tail' := by
  obtain ⟨hmin, hmax, hannounced⟩ := hC.announced hd
  obtain ⟨hmin', hmax', hannounced'⟩ := hC.announced hd'
  have hfront := congrArg (List.take 4) h
  rw [List.take_append_of_le_length (by omega), List.take_append_of_le_length (by omega), hannounced, hannounced'] at hfront
  have hlen : chunk.length = chunk'.length := toLe_inj (by omega) (by omega) hfront
  obtain ⟨rfl, rfl⟩ := List.append_inj h hlen
  exact ⟨Except.ok.inj (((hC.decode hannounced).2 hd).symm.trans ((hC.decode hannounced).2 hd')), rfl, rfl⟩

theorem nextDoc_front (hC : C.Lawful) (hd : C.toVec d = .ok chunk)
    (hmax : chunk.length ≤ maxBsonDocLen) : nextDoc C ⟨chunk ++ tail, fault⟩ = (.ok (some d), ⟨tail, fault⟩) := by
  obtain ⟨hmin, hlt, hannounced⟩ := hC.announced hd
  have hlen : i32FromLe (chunk.take 4) = chunk.length := by rw [hannounced, i32FromLe_toLe hlt]
  have hread4 : (⟨chunk ++ tail, fault⟩ : Reader).readExact 4 = (.ok (chunk.take 4), ⟨chunk.drop 4 ++ tail, fault⟩) := by
    rw [Reader.readExact, if_pos (by simp only [List.length_append]; omega)]
    simp only [List.take_append_of_le_length (show 4 ≤ chunk.length by omega),
      List.drop_append_of_le_length (show 4 ≤ chunk.length by omega)]
  have hread : (⟨chunk.drop 4 ++ tail, fault⟩ : Reader).readExact (chunk.length - 4) = (.ok (chunk.drop 4), ⟨tail, fault⟩) := by
    have hrest : (chunk.drop 4).length = chunk.length - 4 := List.length_drop
    rw [Reader.readExact, if_pos (by simp only [List.length_append]; omega), ← hrest, List.take_left, List.drop_left]
  unfold nextDoc
  rw [hread4]
  simp only [hlen, Int.toNat_natCast]
  rw [if_neg (by omega), if_neg (by omega), hread]
  simp only [List.take_append_drop, (hC.decode hannounced).2 hd]

/-- `next_doc` on a stream without such an encoding in front: the end, when the four bytes run out, or else an error. -/
theorem nextDoc_stop (hC : C.Lawful) (hfront : ∀ d chunk tail, C.toVec d = .ok chunk →
      chunk.length ≤ maxBsonDocLen → r.bytes ≠ chunk ++ tail) :
    (r.bytes.length < 4 ∧ (∀ e, r.fault = some e → e.kind = .unexpectedEof) ∧ (nextDoc C r).1 = .ok none) ∨
      (¬ (r.bytes.length < 4 ∧ ∀ e, r.fault = some e → e.kind = .unexpectedEof) ∧ ∃ e, (nextDoc C r).1 = .error e) := by
  unfold nextDoc
  by_cases h4 : 4 ≤ r.bytes.length
  · right
    refine ⟨fun h => by omega, ?_⟩
    have htake : (r.bytes.take 4).length = 4 := by rw [List.length_take]; omega
    have hread4 : r.readExact 4 = (.ok (r.bytes.take 4), { r with bytes := r.bytes.drop 4 }) := by
      rw [Reader.readExact, if_pos h4]
    rw [hread4]
    simp only
    by_cases hmin : i32FromLe (r.bytes.take 4) < 5
    · rw [if_pos hmin]
      exact ⟨_, rfl⟩
    rw [if_neg hmin]
    by_cases hmax : (i32FromLe (r.bytes.take 4)).toNat > maxBsonDocLen
    · rw [if_pos hmax]
      exact ⟨_, rfl⟩
    rw [if_neg hmax]
    obtain ⟨n, hn⟩ : ∃ n, n = (i32FromLe (r.bytes.take 4)).toNat := ⟨_, rfl⟩
    have hprefix : toLe 4 n = r.bytes.take 4 := by rw [hn, toLe_i32FromLe htake (by omega)]
    rw [← hn] at hmax ⊢
    by_cases hbody : n - 4 ≤ (r.bytes.drop 4).length
    · have hread : ({ r with bytes := r.bytes.drop 4 } : Reader).readExact (n - 4) =
          (.ok ((r.bytes.drop 4).take (n - 4)), { r with bytes := (r.bytes.drop 4).drop (n - 4) }) := by
        rw [Reader.readExact, if_pos hbody]
      rw [hread]
      simp only
      cases hdec : C.fromSlice (r.bytes.take 4 ++ (r.bytes.drop 4).take (n - 4)) with
      | error e => exact ⟨_, rfl⟩
      | ok d =>
        exfalso
        obtain ⟨chunk, hchunk⟩ : ∃ chunk, chunk = r.bytes.take 4 ++ (r.bytes.drop 4).take (n - 4) := ⟨_, rfl⟩
        rw [← hchunk] at hdec
        have hclen : chunk.length = n := by
          rw [hchunk, List.length_append, htake, List.length_take]
          omega
        have hcfront : chunk.take 4 = toLe 4 chunk.length := by
          rw [hclen, hprefix, hchunk, List.take_append_of_le_length (by omega), List.take_take, Nat.min_self]
        refine hfront d chunk ((r.bytes.drop 4).drop (n - 4)) ((hC.decode hcfront).1 hdec) (by omega) ?_
        rw [hchunk, List.append_assoc, List.take_append_drop, List.take_append_drop]
    · have hread : ({ r with bytes := r.bytes.drop 4 } : Reader).readExact (n - 4) =
          (.error (r.fault.getD ⟨.unexpectedEof, "failed to fill whole buffer"⟩), { r with bytes := [] }) := by
        rw [Reader.readExact, if_neg hbody]
      rw [hread]
      exact ⟨_, rfl⟩
  · have hread4 : r.readExact 4 =
        (.error (r.fault.getD ⟨.unexpectedEof, "failed to fill whole buffer"⟩), { r with bytes := [] }) := by
      rw [Reader.readExact, if_neg h4]
    rw [hread4]
    simp only
    cases hfault : r.fault with
    | none => exact .inl ⟨by omega, by simp, by simp⟩
    | some e =>
      by_cases hkind : e.kind = .unexpectedEof
      · exact .inl ⟨by omega, by simpa using hkind, by simp [hkind]⟩
      · exact .inr ⟨fun h => hkind (h.2 e rfl), by simp [hkind]⟩

/-! ## Archives -/

theorem archive_unique (hC : C.Lawful) : ∀ {ds ds' : List Doc} {bytes : List UInt8}, Archive C ds bytes → Archive C ds' bytes → ds = ds'
  | _, _, _, .nil, h => by
    generalize hnil : ([] : List UInt8) = bytes at h
    cases h with
    | nil => rfl
    | cons hd hds =>
      obtain ⟨hmin, _⟩ := hC.announced hd
      have hlen := congrArg List.length hnil
      simp only [List.length_nil, List.length_append] at hlen
      omega
  | _, _, _, @Archive.cons _ _ _ chunk _ rest hd hds, h => by
    generalize hcons : chunk ++ rest = bytes at h
    cases h with
    | nil =>
      obtain ⟨hmin, _⟩ := hC.announced hd
      have hlen := congrArg List.length hcons
      simp only [List.length_nil, List.length_append] at hlen
      omega
    | cons hd' hds' =>
      obtain ⟨rfl, _, rfl⟩ := front_unique hC hd hd' hcons
      rw [archive_unique hC hds hds']

theorem archive_bytes : ∀ {ds : List Doc} {bytes bytes' : List UInt8}, Archive C ds bytes → Archive C ds bytes' → bytes = bytes'
  | _, _, _, .nil, .nil => rfl
  | _, _, _, .cons hd hds, .cons hd' hds' => by
    rw [Except.ok.inj (hd.symm.trans hd'), archive_bytes hds hds']

theorem readAll_archive (hC : C.Lawful) {fault : Option IoError} {rest : List UInt8} : ∀ {ds : List Doc} {pre : List UInt8},
    Archive C ds pre → Readable C ds → readAll C ⟨pre ++ rest, fault⟩ =
      (ds ++ (readAll C ⟨rest, fault⟩).1, (readAll C ⟨rest, fault⟩).2)
  | _, _, .nil, _ => rfl
  | _, _, @Archive.cons _ _ d chunk ds _ hd hds, hread => by
    have hmax := hread d (by simp) chunk hd
    have ih := @readAll_archive hC fault rest _ _ hds fun e he => hread e (List.mem_cons_of_mem _ he)
    rw [List.append_assoc, readAll]
    split
    · next heq =>
      rw [nextDoc_front hC hd hmax] at heq
      cases heq
    · next heq =>
      rw [nextDoc_front hC hd hmax] at heq
      cases heq
    · next heq =>
      rw [nextDoc_front hC hd hmax] at heq
      obtain ⟨h1, rfl⟩ := Prod.mk.inj heq
      obtain rfl := Option.some.inj (Except.ok.inj h1)
      rw [ih, List.cons_append]

theorem readAll_stop (hC : C.Lawful) (hfront : ∀ d chunk tail, C.toVec d = .ok chunk →
      chunk.length ≤ maxBsonDocLen → r.bytes ≠ chunk ++ tail) :
    (r.bytes.length < 4 ∧ (∀ e, r.fault = some e → e.kind = .unexpectedEof) ∧ readAll C r = ([], .ok ())) ∨
      (¬ (r.bytes.length < 4 ∧ ∀ e, r.fault = some e → e.kind = .unexpectedEof) ∧ ∃ e, readAll C r = ([], .error e)) := by
  rw [readAll]
  rcases nextDoc_stop hC hfront with ⟨hlen, hfault, hnone⟩ | ⟨hcut, e, herr⟩
  · refine .inl ⟨hlen, hfault, ?_⟩
    split
    · rfl
    · next heq =>
      rw [heq] at hnone
      cases hnone
    · next heq =>
      rw [heq] at hnone
      cases hnone
  · refine .inr ⟨hcut, e, ?_⟩
    split
    · next heq =>
      rw [heq] at herr
      cases herr
    · next heq =>
      rw [heq] at herr
      rw [Except.error.inj herr]
    · next heq =>
      rw [heq] at herr
      cases herr

theorem no_front (hC : C.Lawful) (hlen : rest.length < 4) : ∀ d chunk tail, C.toVec d = .ok chunk →
    chunk.length ≤ maxBsonDocLen → rest ≠ chunk ++ tail := by
  rintro d chunk tail hd _ rfl
  obtain ⟨hmin, _⟩ := hC.announced hd
  rw [List.length_append] at hlen
  omega

theorem readAll_nil (hC : C.Lawful) : readAll C ⟨[], none⟩ = ([], .ok ()) := by
  rcases readAll_stop hC (r := ⟨[], none⟩) (no_front hC (by decide)) with ⟨_, _, hstop⟩ | ⟨hmore, _⟩
  · exact hstop
  · exact absurd ⟨by decide, by simp⟩ hmore

theorem exists_archive (bytes : List UInt8) (hC : C.Lawful) : ∃ ds pre rest, Archive C ds pre ∧ Readable C ds ∧ bytes = pre ++ rest ∧
    ∀ d chunk tail, C.toVec d = .ok chunk → chunk.length ≤ maxBsonDocLen → rest ≠ chunk ++ tail := by
  induction hn : bytes.length using Nat.strongRecOn generalizing bytes with
  | _ n ih =>
    by_cases hfront : ∃ d chunk tail, C.toVec d = .ok chunk ∧ chunk.length ≤ maxBsonDocLen ∧ bytes = chunk ++ tail
    · obtain ⟨d, chunk, tail, hd, hmax, rfl⟩ := hfront
      obtain ⟨hmin, _⟩ := hC.announced hd
      rw [List.length_append] at hn
      obtain ⟨ds, pre, rest, hds, hread, rfl, hrest⟩ := ih tail.length (by omega) tail rfl
      refine ⟨d :: ds, chunk ++ pre, rest, .cons hd hds, ?_, by rw [List.append_assoc], hrest⟩
      intro e he c hc
      rcases List.mem_cons.1 he with rfl | he
      · rwa [← Except.ok.inj (hd.symm.trans hc)]
      · exact hread e he c hc
    · refine ⟨[], [], bytes, .nil, by simp [Readable], rfl, ?_⟩
      intro d chunk tail hd hmax hbytes
      exact hfront ⟨d, chunk, tail, hd, hmax, hbytes⟩

/-- **Framing.** The source ends cleanly on archives only and reports every other stream behind its complete documents,
except for the streams that break off in a length and for archives of too long documents. -/
theorem framed_iff (hC : C.Lawful) (r : Reader) : Framed C r ↔ ¬ CutInLength C r ∧ ¬ Oversized C r := by
  obtain ⟨bytes, fault⟩ := r
  obtain ⟨ds0, pre0, rest0, harchive0, hread0, hbytes0, hfront0⟩ := exists_archive bytes hC
  have hall0 := @readAll_archive _ C hC fault rest0 _ _ harchive0 hread0
  rw [← hbytes0] at hall0
  constructor
  · rintro ⟨hclean, _⟩
    constructor
    · rintro ⟨ds, pre, rest, harchive, hread, rfl, hlen, hend⟩
      have heof : ∀ e, fault = some e → e.kind = .unexpectedEof := by
        rintro e rfl
        rcases hend with ⟨hnone, _⟩ | ⟨e', he', hkind⟩
        · cases hnone
        · rwa [Option.some.inj he']
      have hok : readAll C ⟨pre ++ rest, fault⟩ = (ds, .ok ()) := by
        rcases readAll_stop hC (r := ⟨rest, fault⟩) (no_front hC hlen) with ⟨_, _, hstop⟩ | ⟨hcut, _⟩
        · rw [readAll_archive hC harchive hread, hstop, List.append_nil]
        · exact absurd ⟨hlen, heof⟩ hcut
      obtain ⟨hexact, hnone⟩ := (hclean ds).1 hok
      have hsame := archive_bytes harchive hexact
      rcases hend with ⟨_, hne⟩ | ⟨e, he, _⟩
      · exact hne (List.self_eq_append_right.1 hsame)
      · rw [show fault = none from hnone] at he
        cases he
    · rintro ⟨ds, hexact, hlong⟩
      have hok := (hclean ds).2 hexact
      rcases readAll_stop hC (r := ⟨rest0, fault⟩) hfront0 with ⟨_, _, hstop⟩ | ⟨_, e, hstop⟩
      · rw [hall0, hstop, List.append_nil] at hok
        exact hlong ((Prod.mk.inj hok).1 ▸ hread0)
      · rw [hall0, hstop] at hok
        cases (Prod.mk.inj hok).2
  · rintro ⟨hcut, hlong⟩
    rcases readAll_stop hC (r := ⟨rest0, fault⟩) hfront0 with ⟨hlen, heof, hstop⟩ | ⟨hmore, e, hstop⟩
    · -- a clean end: neither bytes nor an error are left
      have hend : fault = none ∧ rest0 = [] := by
        constructor
        · cases hfault : fault with
          | none => rfl
          | some e => exact absurd ⟨ds0, pre0, rest0, harchive0, hread0, hbytes0, hlen, .inr ⟨e, hfault, heof e hfault⟩⟩ hcut
        · by_contra hne
          refine hcut ⟨ds0, pre0, rest0, harchive0, hread0, hbytes0, hlen, ?_⟩
          cases hfault : fault with
          | none => exact .inl ⟨rfl, hne⟩
          | some e => exact .inr ⟨e, rfl, heof e hfault⟩
      obtain ⟨rfl, rfl⟩ := hend
      rw [List.append_nil] at hbytes0
      subst hbytes0
      have hexact0 : Exact C ⟨bytes, none⟩ ds0 := ⟨harchive0, rfl⟩
      rw [hstop, List.append_nil] at hall0
      refine ⟨fun ds => ⟨fun hds => ?_, fun hds => ?_⟩, fun hno => absurd hexact0 (hno ds0)⟩
      · rw [hall0] at hds
        rwa [← (Prod.mk.inj hds).1]
      · rw [hall0, archive_unique hC harchive0 hds.1]
    · rw [hstop, List.append_nil] at hall0
      refine ⟨fun ds => ⟨fun hds => ?_, fun hds => ?_⟩, fun _ => ⟨ds0, e, hall0, pre0, rest0, harchive0, hbytes0, hfront0⟩⟩
      · rw [hall0] at hds
        cases (Prod.mk.inj hds).2
      · exfalso
        have hread : Readable C ds := by
          by_contra hno
          exact hlong ⟨ds, hds, hno⟩
        have harchive : Archive C ds bytes := hds.1
        obtain rfl : fault = none := hds.2
        have hall := @readAll_archive _ C hC none [] _ _ harchive hread
        rw [List.append_nil, readAll_nil hC, hall0] at hall
        cases (Prod.mk.inj hall).2

/-! ## The sink -/

theorem writeAll_ok : ∀ {ds : List Doc} {written : List UInt8} {sink : BsonSink}, writeAll C ⟨some written⟩ ds = .ok sink ↔
    ∃ bytes, Archive C ds bytes ∧ sink = ⟨some (written ++ bytes)⟩
  | [], written, sink => by
    constructor
    · intro h
      obtain rfl := Except.ok.inj h
      exact ⟨[], .nil, by rw [List.append_nil]⟩
    · rintro ⟨bytes, hbytes, rfl⟩
      cases hbytes
      rw [List.append_nil]
      rfl
  | d :: ds, written, sink => by
    rw [writeAll, List.foldlM_cons, BsonSink.write]
    cases hd : C.toVec d with
    | error e =>
      constructor
      · intro h
        cases h
      · rintro ⟨bytes, hbytes, _⟩
        cases hbytes with
        | cons hd' _ =>
          rw [hd] at hd'
          cases hd'
    | ok chunk =>
      show writeAll C ⟨some (written ++ chunk)⟩ ds = .ok sink ↔ _
      rw [writeAll_ok]
      constructor
      · rintro ⟨bytes, hbytes, rfl⟩
        exact ⟨chunk ++ bytes, .cons hd hbytes, by rw [List.append_assoc]⟩
      · rintro ⟨bytes, hbytes, rfl⟩
        cases hbytes with
        | cons hd' hds =>
          obtain rfl := Except.ok.inj (hd.symm.trans hd')
          exact ⟨_, hds, by rw [List.append_assoc]⟩

/-- No document stands whole at the front of a proper part of an encoding. -/
theorem no_front_of_cut (hC : C.Lawful) (hd : C.toVec d = .ok chunk) (hn : n < chunk.length) : ∀ d' chunk' tail,
    C.toVec d' = .ok chunk' → chunk'.length ≤ maxBsonDocLen → chunk.take n ≠ chunk' ++ tail := by
  intro d' chunk' tail hd' _ heq
  have hwhole : chunk ++ [] = chunk' ++ (tail ++ chunk.drop n) := by
    rw [List.append_nil, ← List.append_assoc, ← heq, List.take_append_drop]
  obtain ⟨-, rfl, -⟩ := front_unique hC hd hd' hwhole
  have hlen := congrArg List.length heq
  rw [List.length_take, List.length_append] at hlen
  omega

theorem readAll_cut (hC : C.Lawful) : ∀ {ds : List Doc} {bytes : List UInt8}, Archive C ds bytes → Readable C ds → ∀ n,
    (readAll C ⟨bytes.take n, none⟩).1 = (wholeWithin C ds n).1 ∧
      ((readAll C ⟨bytes.take n, none⟩).2 = .ok () ↔ (wholeWithin C ds n).2 < 4)
  | _, _, .nil, _, n => by
    rw [List.take_nil, readAll_nil hC]
    exact ⟨rfl, iff_of_true rfl (Nat.zero_lt_succ 3)⟩
  | _, _, @Archive.cons _ _ d chunk ds rest hd hds, hread, n => by
    simp only [wholeWithin, hd]
    by_cases hn : chunk.length ≤ n
    · have ih := readAll_cut hC hds (fun e he => hread e (List.mem_cons_of_mem _ he)) (n - chunk.length)
      have hone : Archive C [d] chunk := by
        have h := Archive.cons hd (Archive.nil (C := C))
        rwa [List.append_nil] at h
      rw [if_pos hn, List.take_append, List.take_of_length_le hn,
        readAll_archive hC hone fun e he => hread e (List.mem_singleton.1 he ▸ List.mem_cons_self)]
      exact ⟨congrArg (d :: ·) ih.1, ih.2⟩
    · rw [if_neg hn, List.take_append_of_le_length (by omega)]
      have hlen : (chunk.take n).length = n := by
        rw [List.length_take]
        omega
      rcases readAll_stop hC (r := ⟨chunk.take n, none⟩) (no_front_of_cut hC hd (by omega)) with ⟨hshort, -, hstop⟩ | ⟨hlong, e, hstop⟩
      · rw [hstop]
        exact ⟨rfl, iff_of_true rfl (hlen ▸ hshort)⟩
      · rw [hstop]
        refine ⟨rfl, iff_of_false (fun h => nomatch h) fun hshort => hlong ⟨?_, fun e he => nomatch he⟩⟩
        exact lt_of_eq_of_lt hlen hshort

/-- **A dump that was cut at any byte** is read back as the documents that are whole in it, in order, and the cut goes unreported
exactly if fewer than four bytes stand behind them. -/
theorem cut_dump_read_back (hC : C.Lawful) (hread : Readable C ds) (hwrite : writeAll C ⟨some []⟩ ds = .ok ⟨some bytes⟩) (n : Nat) :
    (readAll C ⟨bytes.take n, none⟩).1 = (wholeWithin C ds n).1 ∧
      ((readAll C ⟨bytes.take n, none⟩).2 = .ok () ↔ (wholeWithin C ds n).2 < 4) := by
  obtain ⟨bytes', harchive, hsink⟩ := writeAll_ok.1 hwrite
  obtain rfl : bytes = bytes' := by simpa using hsink
  exact readAll_cut hC harchive hread n

end

/-! ## A cut dump -/

/-- The codec of the empty document, `05 00 00 00 00`. -/
def emptyDocCodec : BsonCodec Unit where
  toVec := fun _ => .ok [5, 0, 0, 0, 0]
  fromSlice := fun bytes => if bytes = [5, 0, 0, 0, 0] then .ok () else .error "expected an empty document"

theorem emptyDocCodec_lawful : emptyDocCodec.Lawful where
  announced := by
    intro d bytes h
    obtain rfl := Except.ok.inj h
    decide
  decode := by
    intro d bytes _
    simp only [emptyDocCodec, Except.ok.injEq, eq_comm (a := bytes)]
    by_cases h : bytes = [5, 0, 0, 0, 0] <;> simp [h]

/-- Two empty documents, cut within the second. -/
theorem cut_dump_of_two : (readAll emptyDocCodec ⟨[5, 0, 0, 0, 0, 5], none⟩).1 = [()] := by
  have hread : Readable emptyDocCodec [(), ()] := fun _ _ chunk hchunk => Except.ok.inj hchunk ▸ by decide
  have hwrite : writeAll emptyDocCodec ⟨some []⟩ [(), ()] = .ok ⟨some [5, 0, 0, 0, 0, 5, 0, 0, 0, 0]⟩ := rfl
  exact (cut_dump_read_back emptyDocCodec_lawful hread hwrite 6).1

/-- A dump of two empty documents, cut after the first byte of the second one, ends cleanly. -/
theorem cut_length_not_reported : ¬ Framed emptyDocCodec ⟨[5, 0, 0, 0, 0, 5], none⟩ := by
  rintro ⟨hclean, _⟩
  have hread : Readable emptyDocCodec [()] := by
    intro d _ chunk hchunk
    obtain rfl := Except.ok.inj hchunk
    decide
  have harchive : Archive emptyDocCodec [()] [5, 0, 0, 0, 0] := @Archive.cons _ emptyDocCodec () [5, 0, 0, 0, 0] [] [] rfl .nil
  have hall := @readAll_archive _ _ emptyDocCodec_lawful none [5] _ _ harchive hread
  rcases readAll_stop emptyDocCodec_lawful (r := ⟨[5], none⟩) (no_front emptyDocCodec_lawful (by decide))
    with ⟨_, _, hstop⟩ | ⟨hmore, _⟩
  · rw [hstop, List.append_nil] at hall
    obtain ⟨hexact, _⟩ := (hclean _).1 hall
    have hsame := archive_bytes harchive hexact
    exact absurd hsame (by decide)
  · exact hmore ⟨by decide, by simp⟩

/-- The whole dump of one empty document. -/
theorem one_document_framed : Framed emptyDocCodec ⟨[5, 0, 0, 0, 0], none⟩ ↔
    ¬ CutInLength emptyDocCodec ⟨[5, 0, 0, 0, 0], none⟩ ∧ ¬ Oversized emptyDocCodec ⟨[5, 0, 0, 0, 0], none⟩ :=
  framed_iff emptyDocCodec_lawful _

end ImportExport
