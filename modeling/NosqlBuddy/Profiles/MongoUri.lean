import NosqlBuddy.Lib.Bytes
import NosqlBuddy.Lib.Cut

/-!
# Connection strings

`mongo-uri/src/lib.rs` and `mask_uri`. A string is the list of its characters.

| here | there |
| --- | --- |
| `replaced` | what `decode_utf8_lossy` makes of bytes that are no UTF-8 |

Both scan for the first `@` behind the scheme, wherever the authority ends. `scanned_iff` says for which strings this is
right: an `@` in the path or the query of a URI without userinfo is taken for the end of one
(`query_taken_for_userinfo`), and a URI with an empty username can show a further password once its first one is gone.
-/

namespace Profiles
open Bytes Cut

/-! ## The source -/

/-- `StrippedUri` (lib.rs:42). -/
structure StrippedUri where
  uri : List Char
  password : Option (List Char)
deriving DecidableEq, Repr

/-- The bytes of `percent_decode_str`: a `%` that two hexadecimal digits do not follow stands for itself. -/
def percentDecode : List Char → List UInt8
  | [] => []
  | '%' :: h :: l :: cs =>
    match hexVal h, hexVal l with
    | some hi, some lo => UInt8.ofNat (16 * hi + lo) :: percentDecode cs
    | _, _ => String.utf8EncodeChar '%' ++ percentDecode (h :: l :: cs)
  | c :: cs => String.utf8EncodeChar c ++ percentDecode cs

section
variable (replaced : List UInt8 → List Char)

/-- `decode_utf8_lossy`. -/
def decodeUtf8Lossy (bytes : List UInt8) : List Char :=
  match bytes.toByteArray.utf8Decode? with
  | some text => text.toList
  | none => replaced bytes

/-- `strip_password` (lib.rs:65). -/
def stripPassword (uri : List Char) : StrippedUri :=
  match cut [':', '/', '/'] uri with
  | none => ⟨uri, none⟩
  | some (name, rest) =>
    let scheme := name ++ [':', '/', '/']
    match cut ['@'] rest with
    | none => ⟨uri, none⟩
    | some (userinfo, afterAt) =>
      match cut [':'] userinfo with
      | none => ⟨uri, none⟩
      | some (user, rawPassword) =>
        ⟨if user = [] then scheme ++ afterAt else scheme ++ user ++ '@' :: afterAt,
          if rawPassword = [] then none else some (decodeUtf8Lossy replaced (percentDecode rawPassword))⟩

end

/-- `mask_uri` (types.rs:159). -/
def maskUri (uri : List Char) : List Char :=
  match cut [':', '/', '/'] uri with
  | none => uri
  | some (name, rest) =>
    match cut ['@'] rest with
    | none => uri
    | some (_, afterAt) => name ++ [':', '/', '/'] ++ "***:***@".toList ++ afterAt

/-! ## The statements -/

/-- A text in percent-encoding: each byte is an ASCII character other than the delimiters and `%`, or two digits behind a
`%`. -/
inductive PercentEncoded : List UInt8 → List Char → Prop
  | nil : PercentEncoded [] []
  | plain {c : Char} {bytes : List UInt8} {raw : List Char} (hascii : c.toNat < 128) (hplain : c ∉ ['%', ':', '/', '@'])
      (h : PercentEncoded bytes raw) : PercentEncoded (UInt8.ofNat c.toNat :: bytes) (c :: raw)
  | escaped {h l : Char} {hi lo : Nat} {bytes : List UInt8} {raw : List Char} (hhi : hexVal h = some hi) (hlo : hexVal l = some lo)
      (hrest : PercentEncoded bytes raw) : PercentEncoded (UInt8.ofNat (16 * hi + lo) :: bytes) ('%' :: h :: l :: raw)

/-- What stands behind the scheme. -/
def afterScheme (uri : List Char) : List Char := ((cut [':', '/', '/'] uri).map (·.2)).getD []

def authority (uri : List Char) : List Char := (afterScheme uri).takeWhile fun c => c ∉ ['/', '?', '#']

def NoUserinfo (uri : List Char) : Prop := '@' ∉ authority uri

/-- The secret of a password: an empty one is documented as absent. -/
def secretOf (p : List Char) : Option (List Char) := if p = [] then none else some p

/-- What is expected of the scanners at a connection string. -/
structure Scanned (replaced : List UInt8 → List Char) (uri : List Char) : Prop where
  strips : ∀ scheme user p raw tail, ':' ∉ scheme → user ≠ [] → (∀ c ∈ user, c ∉ [':', '@', '/']) →
    PercentEncoded (p.flatMap String.utf8EncodeChar) raw →
    uri = scheme ++ [':', '/', '/'] ++ user ++ ':' :: raw ++ '@' :: tail →
    stripPassword replaced uri = ⟨scheme ++ [':', '/', '/'] ++ user ++ '@' :: tail, secretOf p⟩
  unchanged : NoUserinfo uri → stripPassword replaced uri = ⟨uri, none⟩
  idempotent : stripPassword replaced (stripPassword replaced uri).uri = ⟨(stripPassword replaced uri).uri, none⟩
  masked : ∀ scheme userinfo userinfo' tail, ':' ∉ scheme → '@' ∉ userinfo → '@' ∉ userinfo' →
    uri = scheme ++ [':', '/', '/'] ++ userinfo ++ '@' :: tail →
    maskUri uri = maskUri (scheme ++ [':', '/', '/'] ++ userinfo' ++ '@' :: tail)
  shown : NoUserinfo uri → maskUri uri = uri

/-- Behind an empty username and its password stands another userinfo with a password. -/
def SecondPassword (uri : List Char) : Prop := ∃ password user password' tail,
  afterScheme uri = ':' :: password ++ '@' :: user ++ ':' :: password' ++ '@' :: tail ∧ '@' ∉ password ∧ '@' ∉ user ∧ '@' ∉ password'

/-! ## Percent-encoding -/

theorem utf8EncodeChar_ascii (h : c.toNat < 128) : String.utf8EncodeChar c = [UInt8.ofNat c.toNat] := by
  have hle : c.val.toNat ≤ 127 := Nat.le_of_lt_succ h
  unfold String.utf8EncodeChar
  exact if_pos hle

theorem percentDecode_of_ne (hc : c ≠ '%') (cs : List Char) :
    percentDecode (c :: cs) = String.utf8EncodeChar c ++ percentDecode cs := by
  rw [percentDecode]
  rintro h l cs' rfl
  exact absurd rfl hc

theorem PercentEncoded.decode : ∀ {bytes : List UInt8} {raw : List Char}, PercentEncoded bytes raw → percentDecode raw = bytes
  | _, _, .nil => rfl
  | _, _, .plain hascii hplain h => by
    rw [percentDecode_of_ne (fun hc => hplain (by simp [hc])), utf8EncodeChar_ascii hascii, h.decode]
    rfl
  | _, _, .escaped hhi hlo h => by
    rw [percentDecode]
    simp only [hhi, hlo, h.decode]

theorem PercentEncoded.notMem (h : PercentEncoded bytes raw) : '@' ∉ raw := by
  induction h with
  | nil => simp
  | plain _ hplain _ ih =>
    rw [List.mem_cons, not_or]
    exact ⟨fun hc => hplain (by simp [← hc]), ih⟩
  | escaped hhi hlo _ ih =>
    have hat : hexVal '@' = none := by decide
    simp only [List.mem_cons, not_or]
    refine ⟨by decide, fun hc => ?_, fun hc => ?_, ih⟩
    · rw [← hc, hat] at hhi
      cases hhi
    · rw [← hc, hat] at hlo
      cases hlo

theorem decodeUtf8Lossy_utf8 (replaced : List UInt8 → List Char) (p : List Char) :
    decodeUtf8Lossy replaced (p.flatMap String.utf8EncodeChar) = p := by
  rw [decodeUtf8Lossy, ← List.utf8Encode, List.utf8Decode?_utf8Encode]

theorem PercentEncoded.eq_nil (h : PercentEncoded (p.flatMap String.utf8EncodeChar) raw) :
    raw = [] ↔ p = [] := by
  constructor
  · rintro rfl
    cases p with
    | nil => rfl
    | cons c p =>
      generalize hbytes : (c :: p).flatMap String.utf8EncodeChar = bytes at h
      cases h
      rw [List.flatMap_cons, List.append_eq_nil_iff] at hbytes
      exact absurd hbytes.1 String.utf8EncodeChar_ne_nil
  · rintro rfl
    cases h
    rfl

/-! ## The scanners -/

section
variable {replaced : List UInt8 → List Char} {uri name rest : List Char}

theorem afterScheme_eq (h : cut [':', '/', '/'] uri = some (name, rest)) : afterScheme uri = rest := by
  rw [afterScheme, h]
  rfl

theorem afterScheme_none (h : cut [':', '/', '/'] uri = none) : afterScheme uri = [] := by
  rw [afterScheme, h]
  rfl

theorem authority_sublist (uri : List Char) : ∀ c ∈ authority uri, c ∈ afterScheme uri :=
  fun _ hc => (List.takeWhile_prefix _).subset hc

theorem stripPassword_of_notMem (h : '@' ∉ afterScheme uri) : stripPassword replaced uri = ⟨uri, none⟩ := by
  unfold stripPassword
  cases hscheme : cut [':', '/', '/'] uri with
  | none => rfl
  | some r =>
    obtain ⟨name, rest⟩ := r
    rw [afterScheme_eq hscheme] at h
    simp only [cut_singleton_none.2 h]

theorem maskUri_of_notMem (h : '@' ∉ afterScheme uri) : maskUri uri = uri := by
  unfold maskUri
  cases hscheme : cut [':', '/', '/'] uri with
  | none => rfl
  | some r =>
    obtain ⟨name, rest⟩ := r
    rw [afterScheme_eq hscheme] at h
    simp only [cut_singleton_none.2 h]

theorem maskUri_at (h : cut [':', '/', '/'] uri = some (name, userinfo ++ '@' :: tail))
    (hat : '@' ∉ userinfo) : maskUri uri = name ++ [':', '/', '/'] ++ "***:***@".toList ++ tail := by
  unfold maskUri
  rw [h]
  simp only [cut_singleton.2 ⟨rfl, hat⟩]

theorem stripPassword_at (h : cut [':', '/', '/'] uri = some (name, user ++ ':' :: raw ++ '@' :: tail))
    (hcolon : ':' ∉ user) (hat : '@' ∉ user) (hraw : '@' ∉ raw) : stripPassword replaced uri =
      ⟨if user = [] then name ++ [':', '/', '/'] ++ tail else name ++ [':', '/', '/'] ++ user ++ '@' :: tail,
        if raw = [] then none else some (decodeUtf8Lossy replaced (percentDecode raw))⟩ := by
  have hat' : '@' ∉ user ++ ':' :: raw := by
    simp only [List.mem_append, List.mem_cons, not_or]
    exact ⟨hat, by decide, hraw⟩
  unfold stripPassword
  rw [h]
  simp only [cut_singleton.2 ⟨rfl, hat'⟩, cut_singleton.2 ⟨rfl, hcolon⟩]

theorem stripPassword_nameOnly (h : cut [':', '/', '/'] uri = some (name, userinfo ++ '@' :: tail))
    (hcolon : ':' ∉ userinfo) (hat : '@' ∉ userinfo) : stripPassword replaced uri = ⟨uri, none⟩ := by
  unfold stripPassword
  rw [h]
  simp only [cut_singleton.2 ⟨rfl, hat⟩, cut_singleton_none.2 hcolon]

theorem cut_scheme (h : cut [':', '/', '/'] uri = some (name, rest)) (rest' : List Char) :
    cut [':', '/', '/'] (name ++ [':', '/', '/'] ++ rest') = some (name, rest') := cut_append rest' h

theorem shown_cases (uri : List Char) : '@' ∉ afterScheme uri ∨
    ∃ name userinfo tail, cut [':', '/', '/'] uri = some (name, userinfo ++ '@' :: tail) ∧ '@' ∉ userinfo ∧
      (':' ∉ userinfo ∨ ∃ user raw, userinfo = user ++ ':' :: raw ∧ ':' ∉ user) := by
  cases hscheme : cut [':', '/', '/'] uri with
  | none => exact .inl (by rw [afterScheme_none hscheme]; simp)
  | some r =>
    obtain ⟨name, rest⟩ := r
    rw [afterScheme_eq hscheme]
    cases hat : cut ['@'] rest with
    | none => exact .inl (cut_singleton_none.1 hat)
    | some r =>
      obtain ⟨userinfo, tail⟩ := r
      obtain ⟨rfl, hnot⟩ := cut_singleton.1 hat
      refine .inr ⟨name, userinfo, tail, rfl, hnot, ?_⟩
      cases hcolon : cut [':'] userinfo with
      | none => exact .inl (cut_singleton_none.1 hcolon)
      | some r =>
        obtain ⟨user, raw⟩ := r
        exact .inr ⟨user, raw, cut_singleton.1 hcolon⟩

theorem idempotent_iff (replaced : List UInt8 → List Char) (uri : List Char) :
    stripPassword replaced (stripPassword replaced uri).uri = ⟨(stripPassword replaced uri).uri, none⟩ ↔ ¬ SecondPassword uri := by
  rcases shown_cases uri with hno | ⟨name, userinfo, tail, hscheme, hat, hcolon | ⟨user, raw, rfl, hcolon⟩⟩
  · rw [stripPassword_of_notMem hno, stripPassword_of_notMem hno]
    refine iff_of_true rfl ?_
    rintro ⟨password, user, password', tail, heq, _⟩
    exact hno (by rw [heq]; simp)
  · rw [stripPassword_nameOnly hscheme hcolon hat, stripPassword_nameOnly hscheme hcolon hat]
    refine iff_of_true rfl ?_
    rintro ⟨password, user, password', tail', heq, _⟩
    rw [afterScheme_eq hscheme] at heq
    cases userinfo with
    | nil => simp at heq
    | cons c userinfo =>
      rw [List.cons_append, List.cons_append, List.cons_append, List.cons_append, List.cons.injEq] at heq
      exact hcolon (by rw [heq.1]; simp)
  · simp only [List.mem_append, List.mem_cons, not_or] at hat
    obtain ⟨hatuser, _, hatraw⟩ := hat
    rw [stripPassword_at hscheme hcolon hatuser hatraw]
    by_cases hempty : user = []
    · subst hempty
      rw [if_pos rfl]
      have hnext : cut [':', '/', '/'] (name ++ [':', '/', '/'] ++ tail) = some (name, tail) := cut_scheme hscheme tail
      -- the further userinfo is the one in front of the tail
      have hsecond : SecondPassword uri ↔ ∃ user password' tail', tail = user ++ ':' :: password' ++ '@' :: tail' ∧
          '@' ∉ user ∧ '@' ∉ password' := by
        have hat : '@' ∉ ':' :: raw := by simp [hatraw]
        rw [SecondPassword, afterScheme_eq hscheme]
        constructor
        · rintro ⟨password, user, password', tail', heq, hp, hu, hp'⟩
          have hat' : '@' ∉ ':' :: password := by simp [hp]
          have hparts : ':' :: raw ++ '@' :: tail = ':' :: password ++ '@' :: (user ++ ':' :: password' ++ '@' :: tail') := by
            simpa using heq
          exact ⟨user, password', tail', (append_cons_inj hat hat' hparts).2, hu, hp'⟩
        · rintro ⟨user, password', tail', rfl, hu, hp'⟩
          exact ⟨raw, user, password', tail', by simp, hatraw, hu, hp'⟩
      rw [hsecond]
      rcases shown_cases (name ++ [':', '/', '/'] ++ tail) with hno | ⟨name', userinfo, tail', hcut, hat', hkind⟩
      · rw [afterScheme_eq hnext] at hno
        refine iff_of_true (stripPassword_of_notMem (by rwa [afterScheme_eq hnext])) ?_
        rintro ⟨user, password', tail', rfl, _, _⟩
        exact hno (by simp)
      · rw [hnext, Option.some.injEq, Prod.mk.injEq] at hcut
        obtain ⟨rfl, rfl⟩ := hcut
        rcases hkind with hcolon' | ⟨user, raw', rfl, hcolon'⟩
        · refine iff_of_true (stripPassword_nameOnly hnext hcolon' hat') ?_
          rintro ⟨user, password', tail'', heq, hu, hp'⟩
          have hat'' : '@' ∉ user ++ ':' :: password' := by simp [hu, hp']
          exact hcolon' (by rw [(append_cons_inj hat' hat'' heq).1]; simp)
        · simp only [List.mem_append, List.mem_cons, not_or] at hat'
          refine iff_of_false ?_ (not_not_intro ⟨user, raw', tail', rfl, hat'.1, hat'.2.2⟩)
          rw [stripPassword_at hnext hcolon' hat'.1 hat'.2.2, StrippedUri.mk.injEq]
          rintro ⟨huri, _⟩
          have hlen := congrArg List.length huri
          by_cases huser : user = []
          · rw [if_pos huser] at hlen
            simp only [List.length_append, List.length_cons] at hlen
            omega
          · rw [if_neg huser] at hlen
            simp only [List.length_append, List.length_cons] at hlen
            omega
    · rw [if_neg hempty]
      have hnext : cut [':', '/', '/'] (name ++ [':', '/', '/'] ++ user ++ '@' :: tail) = some (name, user ++ '@' :: tail) := by
        rw [List.append_assoc]
        exact cut_scheme hscheme _
      rw [stripPassword_nameOnly hnext hcolon hatuser]
      refine iff_of_true rfl ?_
      rintro ⟨password, user', password', tail', heq, _⟩
      rw [afterScheme_eq hscheme] at heq
      cases user with
      | nil => exact hempty rfl
      | cons c user =>
        simp only [List.cons_append, List.cons.injEq] at heq
        exact hcolon (by rw [heq.1]; simp)

/-- The mask is not the userinfo of a string that has none: what stands in front of its first `@` leaves the authority. -/
theorem maskUri_ne (hno : NoUserinfo uri) (hat : '@' ∈ afterScheme uri) : maskUri uri ≠ uri := by
  rcases shown_cases uri with h | ⟨name, userinfo, tail, hscheme, hnot, _⟩
  · exact absurd hat h
  rw [maskUri_at hscheme hnot]
  intro heq
  have huri : uri = name ++ [':', '/', '/'] ++ (userinfo ++ '@' :: tail) := cut_eq hscheme
  rw [huri, List.append_assoc] at heq
  have hrest := List.append_cancel_left heq
  have hmask : "***:***@".toList = ['*', '*', '*', ':', '*', '*', '*', '@'] := by decide
  have hstars : '@' ∉ ['*', '*', '*', ':', '*', '*', '*'] := by decide
  rw [hmask] at hrest
  obtain ⟨rfl, _⟩ := append_cons_inj (a := ['*', '*', '*', ':', '*', '*', '*']) (b := tail) hstars hnot hrest
  refine hno ?_
  rw [authority, afterScheme_eq hscheme]
  simp

/-- **The scanners** do what is expected of them exactly at the strings where no `@` outside of the authority stands for a
userinfo, and no second password behind an empty username. -/
theorem scanned_iff (replaced : List UInt8 → List Char) (uri : List Char) :
    Scanned replaced uri ↔ (NoUserinfo uri → '@' ∉ afterScheme uri) ∧ ¬ SecondPassword uri := by
  constructor
  · intro h
    refine ⟨fun hno hat => ?_, (idempotent_iff replaced uri).1 h.idempotent⟩
    exact maskUri_ne hno hat (h.shown hno)
  · rintro ⟨hnone, hsecond⟩
    refine ⟨?_, fun hno => stripPassword_of_notMem (hnone hno), (idempotent_iff replaced uri).2 hsecond, ?_,
      fun hno => maskUri_of_notMem (hnone hno)⟩
    · rintro scheme user p raw tail hscheme huser hplain hraw rfl
      have hcut : cut [':', '/', '/'] (scheme ++ [':', '/', '/'] ++ user ++ ':' :: raw ++ '@' :: tail) =
          some (scheme, user ++ ':' :: raw ++ '@' :: tail) := by
        have h := @cut_of_notMem Char _ ':' ['/', '/'] scheme (user ++ ':' :: raw ++ '@' :: tail) hscheme
        simpa using h
      have hcolon : ':' ∉ user := fun hc => hplain ':' hc (by simp)
      have hat : '@' ∉ user := fun hc => hplain '@' hc (by simp)
      rw [stripPassword_at hcut hcolon hat hraw.notMem, if_neg huser, hraw.decode, decodeUtf8Lossy_utf8, secretOf]
      simp only [hraw.eq_nil]
    · rintro scheme userinfo userinfo' tail hscheme hat hat' rfl
      have hcut : ∀ userinfo : List Char, cut [':', '/', '/'] (scheme ++ [':', '/', '/'] ++ userinfo ++ '@' :: tail) =
          some (scheme, userinfo ++ '@' :: tail) := by
        intro userinfo
        have h := @cut_of_notMem Char _ ':' ['/', '/'] scheme (userinfo ++ '@' :: tail) hscheme
        simpa using h
      rw [maskUri_at (hcut userinfo) hat, maskUri_at (hcut userinfo') hat']

end

/-- An option with an `@`: the port, the database and the start of the option are taken for a password. -/
theorem query_taken_for_userinfo : ¬ Scanned (fun _ => ['\uFFFD']) "mongodb://host:27017/db?appName=a@b".toList := by
  intro h
  have hno : NoUserinfo "mongodb://host:27017/db?appName=a@b".toList := by
    unfold NoUserinfo
    decide
  have huri := congrArg StrippedUri.uri (h.unchanged hno)
  revert huri
  decide

end Profiles
