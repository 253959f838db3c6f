import NosqlBuddy.Audit.Interceptor

/-!
# What leaves the machine for IPFS

`publish_epoch_batch_to_ipfs` (auditd/mod.rs:381), `encrypt_batch` (crypto.rs:43) and the two backends.

| here | there |
| --- | --- |
| `Age` | the calls of the `age` crate; `Entropy` is what the random generator gave |
| `Backend`, `publishEpochBatch` | `publish_epoch_batch` of ipfs.rs:75 and pinata.rs:72, one text but for names, URL and headers |
| `Upload`, `Reply` | the request that is sent, and the reply as far as it is read |
| `DaemonState` | the fields that are read |

A publication returns its result and the uploads it sent: a failed reply does not take an upload back.
The choice of the bytes and the flag `encrypted` are made apart from each other: an encryption that
fails leaves the batch in clear and the flag set (`published_in_clear`).
-/

/-!
## The canonical payload codec

`decode_canonical_payload` (crypto.rs:151) against the encoder of `Interceptor`.

| here | there |
| --- | --- |
| `readExact` | `Read::read_exact` on a `Cursor<&[u8]>`: the cursor is the bytes that are left |
| `describe` | the text of a `FromUtf8Error`, by the bytes that are not UTF-8 |
| `readLengthPrefixed`, `decodeCanonicalPayload` | crypto.rs:234, :151 |

One equation for each reader says what it accepts and what it leaves (`readLengthPrefixed_ok`,
`decodeCanonicalPayload_ok`): a reader accepts exactly the bytes its writer writes.
-/

namespace Audit
open Fallible

/-! ### The readers -/

def readExact (n : Nat) (cursor : List UInt8) : Except String (List UInt8 × List UInt8) :=
  if n ≤ cursor.length then .ok (cursor.take n, cursor.drop n) else .error "failed to fill whole buffer"

/-- `map_err` into `AuditError::Validation`. -/
def asInvalid {α : Type} (what : String) (r : Except String α) : Except AuditError α :=
  r.mapError fun e => .validation (what ++ e)

section
variable (describe : List UInt8 → String)

/-- `String::from_utf8`. -/
def stringFromUtf8 (bytes : List UInt8) : Except String String :=
  match ByteArray.utf8Decode? ⟨bytes.toArray⟩ with
  | some text => .ok (String.ofList text.toList)
  | none => .error (describe bytes)

def readLengthPrefixed (cursor : List UInt8) : Except AuditError (String × List UInt8) := do
  let (lenBuf, cursor) ← asInvalid "canonical payload read length: " (readExact 4 cursor)
  let (data, cursor) ← asInvalid "canonical payload read data: " (readExact (Bytes.ofBe lenBuf) cursor)
  let text ← asInvalid "canonical payload utf-8: " (stringFromUtf8 describe data)
  return (text, cursor)

/-- What the cursor has not passed at the end is what `bytes.len() - pos` counts. -/
def decodeCanonicalPayload (bytes : List UInt8) : Except AuditError (String × String × String × String) := do
  let (op, cursor) ← readLengthPrefixed describe bytes
  let (db, cursor) ← readLengthPrefixed describe cursor
  let (col, cursor) ← readLengthPrefixed describe cursor
  let (data, cursor) ← readLengthPrefixed describe cursor
  if cursor.length ≠ 0 then
    throw (.validation s!"canonical payload has {cursor.length} trailing bytes after decode")
  return (op, db, col, data)

/-! ### What they accept -/

theorem readExact_ok {n : Nat} {cursor out rest : List UInt8} :
    readExact n cursor = .ok (out, rest) ↔ out.length = n ∧ cursor = out ++ rest := by
  unfold readExact
  by_cases hn : n ≤ cursor.length
  · simp only [hn, if_true, Except.ok.injEq, Prod.mk.injEq]
    constructor
    · rintro ⟨rfl, rfl⟩
      exact ⟨by simp [hn], (List.take_append_drop n cursor).symm⟩
    · rintro ⟨rfl, rfl⟩
      simp
  · simp only [hn, if_false, reduceCtorEq, false_iff]
    rintro ⟨rfl, rfl⟩
    simp at hn

theorem asInvalid_ok {α : Type} {what : String} {r : Except String α} {a : α} :
    asInvalid what r = .ok a ↔ r = .ok a := by
  cases r <;> simp [asInvalid, Except.mapError]

theorem stringFromUtf8_ok {bytes : List UInt8} {text : String} :
    stringFromUtf8 describe bytes = .ok text ↔ strBytes text = bytes := by
  unfold stringFromUtf8 strBytes
  constructor
  · intro h
    cases hdec : ByteArray.utf8Decode? ⟨bytes.toArray⟩ with
    | none => simp [hdec] at h
    | some chars =>
      simp only [hdec, Except.ok.injEq] at h
      have henc := ByteArray.utf8Encode_get_utf8Decode? (b := ⟨bytes.toArray⟩) (h := by simp [hdec])
      simp only [hdec, Option.get_some] at henc
      rw [← h, String.toByteArray_ofList, henc]
  · intro h
    have hbytes : (⟨bytes.toArray⟩ : ByteArray) = text.toList.utf8Encode := by
      rw [← h, String.utf8Encode_toList]
    rw [hbytes, List.utf8Decode?_utf8Encode]
    simp

/-- **A length-prefixed read accepts exactly a short text behind its length.** -/
theorem readLengthPrefixed_ok {cursor rest : List UInt8} {text : String} :
    readLengthPrefixed describe cursor = .ok (text, rest) ↔
      (strBytes text).length < 2 ^ 32 ∧ cursor = lengthPrefixed text ++ rest := by
  simp only [readLengthPrefixed, bind_ok, asInvalid_ok, readExact_ok, stringFromUtf8_ok, pure_ok, Prod.exists, Prod.mk.injEq]
  constructor
  · rintro ⟨lenBuf, after, ⟨hfour, rfl⟩, data, left, ⟨hlen, rfl⟩, s, hdata, rfl, rfl⟩
    subst hdata
    have hlt := Bytes.ofBe_lt lenBuf
    rw [hfour, ← hlen] at hlt
    have hprefix : Bytes.toBe 4 (strBytes s).length = lenBuf := by
      rw [hlen, ← hfour, Bytes.toBe_ofBe]
    exact ⟨by simpa using hlt, by rw [lengthPrefixed, hprefix, List.append_assoc]⟩
  · rintro ⟨hlt, rfl⟩
    have hread : Bytes.ofBe (Bytes.toBe 4 (strBytes text).length) = (strBytes text).length := by
      rw [Bytes.ofBe_toBe, Nat.mod_eq_of_lt (by simpa using hlt)]
    exact ⟨Bytes.toBe 4 (strBytes text).length, strBytes text ++ rest,
      ⟨Bytes.length_toBe 4 _, by rw [lengthPrefixed, List.append_assoc]⟩,
      strBytes text, rest, ⟨hread.symm, rfl⟩, text, rfl, rfl, rfl⟩

/-- **The decoder accepts exactly the image of the encoder.** -/
theorem decodeCanonicalPayload_ok {bytes : List UInt8} {op db col data : String} :
    decodeCanonicalPayload describe bytes = .ok (op, db, col, data) ↔
      ((strBytes op).length < 2 ^ 32 ∧ (strBytes db).length < 2 ^ 32 ∧ (strBytes col).length < 2 ^ 32 ∧
        (strBytes data).length < 2 ^ 32) ∧ bytes = canonicalPayloadBytes op db col data := by
  simp only [decodeCanonicalPayload, bind_ok, readLengthPrefixed_ok, guard_ok, pure_ok, Prod.exists, Prod.mk.injEq,
    ne_eq, not_not, List.length_eq_zero_iff, canonicalPayloadBytes]
  constructor
  · rintro ⟨_, _, ⟨hop, rfl⟩, _, _, ⟨hdb, rfl⟩, _, _, ⟨hcol, rfl⟩, _, _, ⟨hdata, rfl⟩, rfl, rfl, rfl, rfl, rfl⟩
    exact ⟨⟨hop, hdb, hcol, hdata⟩, by simp⟩
  · rintro ⟨⟨hop, hdb, hcol, hdata⟩, rfl⟩
    exact ⟨op, _, ⟨hop, by rw [List.append_assoc, List.append_assoc]⟩, db, _, ⟨hdb, rfl⟩, col, _, ⟨hcol, rfl⟩,
      data, [], ⟨hdata, by rw [List.append_nil]⟩, rfl, rfl, rfl, rfl, rfl⟩

/-- **Encoding and decoding are inverse to each other.** -/
theorem canonicalPayload_codec :
    (∀ op db col data : String, (strBytes op).length < 2 ^ 32 → (strBytes db).length < 2 ^ 32 →
      (strBytes col).length < 2 ^ 32 → (strBytes data).length < 2 ^ 32 →
      decodeCanonicalPayload describe (canonicalPayloadBytes op db col data) = .ok (op, db, col, data)) ∧
    ∀ (bytes : List UInt8) (op db col data : String),
      decodeCanonicalPayload describe bytes = .ok (op, db, col, data) → canonicalPayloadBytes op db col data = bytes := by
  constructor
  · intro op db col data hop hdb hcol hdata
    exact (decodeCanonicalPayload_ok describe).2 ⟨⟨hop, hdb, hcol, hdata⟩, rfl⟩
  · intro bytes op db col data h
    exact ((decodeCanonicalPayload_ok describe).1 h).2.symm

end

/-- A collection name with a delimiter in it. -/
theorem canonicalPayload_codec_delimiter :
    decodeCanonicalPayload (fun _ => "") (canonicalPayloadBytes "insert" "db" "col|special" "[]")
      = .ok ("insert", "db", "col|special", "[]") :=
  (canonicalPayload_codec fun _ => "").1 "insert" "db" "col|special" "[]" (by decide) (by decide)
    (by decide) (by decide)

end Audit

namespace Audit
open Fallible Text

/-! ## Encryption -/

structure Age (Entropy : Type) where
  Recipient : Type
  Encryptor : Type
  Writer : Type
  fromStr : String → Except String Recipient
  withRecipients : List Recipient → Except String Encryptor
  wrapOutput : Entropy → Encryptor → Except String Writer
  writeAll : Writer → List UInt8 → Except String Writer
  finish : Writer → Except String (List UInt8)

section
variable {Entropy : Type} (A : Age Entropy)

def encryptBatch (entropy : Entropy) (plaintext : String) (recipients : List String) : Except AuditError (List UInt8) := do
  if recipients = [] then
    throw (.validation "encrypt_batch: no recipients provided")
  let parsed ← recipients.mapM fun s => asInvalid "invalid age recipient: " (A.fromStr s)
  let encryptor ← asInvalid "age encryptor init: " (A.withRecipients parsed)
  let writer ← asInvalid "age wrap_output: " (A.wrapOutput entropy encryptor)
  let writer ← asInvalid "age write: " (A.writeAll writer (strBytes plaintext))
  asInvalid "age finish: " (A.finish writer)

/-- `bytes` is an age file of `plaintext` for the recipients `keys`, made with some randomness. -/
def Age.IsCiphertext (keys : List A.Recipient) (plaintext bytes : List UInt8) : Prop :=
  ∃ entropy encryptor writer written, A.withRecipients keys = .ok encryptor ∧ A.wrapOutput entropy encryptor = .ok writer ∧
    A.writeAll writer plaintext = .ok written ∧ A.finish written = .ok bytes

/-- What age documents: sealing for X25519 recipients into memory does not fail, and a file has a header
and an authentication tag besides its payload. -/
structure Age.Lawful : Prop where
  seals : ∀ keys, keys ≠ [] → ∀ entropy plaintext, ∃ encryptor writer written bytes,
    A.withRecipients keys = .ok encryptor ∧ A.wrapOutput entropy encryptor = .ok writer ∧
      A.writeAll writer plaintext = .ok written ∧ A.finish written = .ok bytes
  longer : ∀ keys plaintext bytes, A.IsCiphertext keys plaintext bytes → plaintext.length < bytes.length

theorem mapM_ok_mem {α β ε : Type} {f : α → Except ε β} : ∀ {xs : List α} {ys : List β}, xs.mapM f = .ok ys →
    ∀ x ∈ xs, ∃ y, f x = .ok y
  | [], _, _, x, hx => absurd hx (by simp)
  | x :: xs, ys, h, z, hz => by
    rw [List.mapM_cons] at h
    simp only [bind_ok, pure_ok] at h
    obtain ⟨y, hy, rest, hrest, _⟩ := h
    rcases List.mem_cons.1 hz with rfl | hmem
    · exact ⟨y, hy⟩
    · exact mapM_ok_mem hrest z hmem

theorem mapM_parsed {α β : Type} {f : α → Except String β} (what : String) : ∀ {xs : List α}, (∀ x ∈ xs, ∃ y, f x = .ok y) →
    ∃ ys, ys.length = xs.length ∧ xs.mapM f = .ok ys ∧ (xs.mapM fun x => asInvalid what (f x)) = .ok ys
  | [], _ => ⟨[], rfl, rfl, rfl⟩
  | x :: xs, h => by
    obtain ⟨y, hy⟩ := h x (by simp)
    obtain ⟨ys, hlen, hplain, hwrapped⟩ := mapM_parsed what fun z hz => h z (List.mem_cons_of_mem x hz)
    refine ⟨y :: ys, by simp [hlen], ?_, ?_⟩
    · rw [List.mapM_cons, hy, hplain]
      rfl
    · rw [List.mapM_cons, hwrapped, asInvalid_ok.2 hy]
      rfl

/-- **Encryption succeeds when every recipient parses**, with an age file for all of them. -/
theorem encryptBatch_sealed {A} (hA : A.Lawful) {recipients : List String} (hne : recipients ≠ [])
    (hparse : ∀ r ∈ recipients, ∃ key, A.fromStr r = .ok key) (entropy : Entropy) (batch : String) :
    ∃ keys bytes, recipients.mapM A.fromStr = .ok keys ∧ A.IsCiphertext keys (strBytes batch) bytes ∧
      encryptBatch A entropy batch recipients = .ok bytes := by
  obtain ⟨keys, hlen, hkeys, hparsed⟩ := mapM_parsed "invalid age recipient: " hparse
  have hkne : keys ≠ [] := by
    rintro rfl
    exact hne (List.length_eq_zero_iff.1 hlen.symm)
  obtain ⟨encryptor, writer, written, bytes, hinit, hwrap, hwrite, hfinish⟩ := hA.seals keys hkne entropy (strBytes batch)
  refine ⟨keys, bytes, hkeys, ⟨entropy, encryptor, writer, written, hinit, hwrap, hwrite, hfinish⟩, ?_⟩
  simp only [encryptBatch, guard_ok, bind_ok, asInvalid_ok]
  exact ⟨hne, keys, hparsed, encryptor, hinit, writer, hwrap, written, hwrite, hfinish⟩

theorem encryptBatch_parses {entropy : Entropy} {batch : String} {recipients : List String} {bytes : List UInt8}
    (h : encryptBatch A entropy batch recipients = .ok bytes) : ∀ r ∈ recipients, ∃ key, A.fromStr r = .ok key := by
  simp only [encryptBatch, guard_ok, bind_ok] at h
  obtain ⟨_, keys, hparsed, _⟩ := h
  intro r hr
  obtain ⟨key, hkey⟩ := mapM_ok_mem hparsed r hr
  exact ⟨key, asInvalid_ok.1 hkey⟩

end

/-! ## The backends -/

structure IpfsConfig where
  apiUrl : String
  cidVersion : UInt8

structure PinataConfig where
  apiKey : String
  apiSecret : String
  gatewayUrl : String

structure IpfsPublishResult where
  cid : String
  epochNumber : Nat
  eventCount : Nat
  batchSizeBytes : Nat
  gatewayUrl : String
  encrypted : Bool
deriving DecidableEq, Repr

structure Upload where
  url : String
  headers : List (String × String)
  fileName : String
  bytes : List UInt8
deriving DecidableEq, Repr

structure Reply where
  success : Bool
  status : String
  text : String
  /-- the CID of the parsed reply -/
  cid : Except String String

structure Backend where
  name : String
  url : String
  headers : List (String × String)
  gateway : String → String

def trimEndSlash (s : String) : String := String.ofList (s.toList.rdropWhile (· = '/'))

def ipfsBackend (config : IpfsConfig) : Backend where
  name := "IPFS"
  url := s!"{trimEndSlash config.apiUrl}/api/v0/add?cid-version={config.cidVersion}&quiet=true&pin=true"
  headers := []
  gateway cid := s!"https://dweb.link/ipfs/{cid}"

def pinataBackend (config : PinataConfig) : Backend where
  name := "Pinata"
  url := "https://api.pinata.cloud/pinning/pinFileToIPFS"
  headers := [("pinata_api_key", config.apiKey), ("pinata_secret_api_key", config.apiSecret)]
  gateway cid := s!"{trimEndSlash config.gatewayUrl}/ipfs/{cid}"

/-- The lines of the bytes that are not blank; none when they are no text. -/
def batchEventCount (content : List UInt8) : Nat :=
  match ByteArray.utf8Decode? ⟨content.toArray⟩ with
  | some text => ((lines text.toList).filter fun l => trim l ≠ []).length
  | none => 0

section
variable (post : Upload → Except String Reply)

def readReply (B : Backend) (epochNumber : Nat) (content : List UInt8) (reply : Except String Reply) :
    Except AuditError IpfsPublishResult := do
  let response ← asInvalid s!"{B.name} API request failed: " reply
  if response.success = false then
    throw (.validation s!"{B.name} API returned error: {response.status} {response.text}")
  let cid ← asInvalid s!"failed to parse {B.name} response: " response.cid
  if cid = "" then
    throw (.validation s!"{B.name} API returned empty CID")
  return ⟨cid, epochNumber, batchEventCount content, content.length, B.gateway cid, false⟩

def publishEpochBatch (B : Backend) (epochNumber : Nat) (content : List UInt8) :
    Except AuditError IpfsPublishResult × List Upload :=
  if content = [] then (.error (.validation s!"cannot publish empty batch to {B.name}"), [])
  else
    let upload : Upload := ⟨B.url, B.headers, s!"epoch-{epochNumber}", content⟩
    (readReply B epochNumber content (post upload), [upload])

/-! ## The daemon -/

structure DaemonState where
  ageRecipients : List String
  pinataConfig : Option PinataConfig
  ipfsConfig : IpfsConfig

/-- Pinata when its configuration names a key or a secret, the local daemon otherwise. -/
def DaemonState.backend (state : DaemonState) : Backend :=
  match state.pinataConfig with
  | some pinata => if pinata.apiKey ≠ "" ∨ pinata.apiSecret ≠ "" then pinataBackend pinata else ipfsBackend state.ipfsConfig
  | none => ipfsBackend state.ipfsConfig

variable {Entropy : Type} (A : Age Entropy)

/-- The bytes to publish: after a failed encryption the batch itself, with a warning in the log. -/
def bytesToPublish (entropy : Entropy) (state : DaemonState) (batchContent : String) : List UInt8 :=
  if state.ageRecipients ≠ [] then
    match encryptBatch A entropy batchContent state.ageRecipients with
    | .ok encrypted => encrypted
    | .error _ => strBytes batchContent
  else strBytes batchContent

def publishEpochBatchToIpfs (entropy : Entropy) (state : DaemonState) (epochNumber : Nat) (batchContent : String) :
    Except AuditError IpfsPublishResult × List Upload :=
  let (result, sent) := publishEpochBatch post state.backend epochNumber (bytesToPublish A entropy state batchContent)
  (result.map fun r => { r with encrypted := decide (state.ageRecipients ≠ []) }, sent)

/-- An upload is an age file of the batch for all the recipients. -/
def IsSealed (recipients : List String) (batch : String) (u : Upload) : Prop :=
  ∃ keys, recipients.mapM A.fromStr = .ok keys ∧ A.IsCiphertext keys (strBytes batch) u.bytes

structure EncryptedOnly (recipients : List String) (batch : String) (out : Except AuditError IpfsPublishResult × List Upload) :
    Prop where
  isSealed : ∀ u ∈ out.2, IsSealed A recipients batch u
  hidden : ∀ u ∈ out.2, u.bytes ≠ strBytes batch
  flagged : ∀ r, out.1 = .ok r → r.encrypted = true → ∃ u, out.2 = [u] ∧ IsSealed A recipients batch u

/-! ## What is sent -/

theorem publishEpochBatch_sent (B : Backend) (n : Nat) {content : List UInt8} (hne : content ≠ []) :
    ∃ u, (publishEpochBatch post B n content).2 = [u] ∧ u.bytes = content := by
  rw [publishEpochBatch, if_neg hne]
  exact ⟨_, rfl, rfl⟩

theorem publishEpochBatch_empty (B : Backend) (n : Nat) :
    publishEpochBatch post B n [] = (.error (.validation s!"cannot publish empty batch to {B.name}"), []) := if_pos rfl

theorem bytesToPublish_sealed {A : Age Entropy} (hA : A.Lawful) {state : DaemonState} (hne : state.ageRecipients ≠ [])
    (hparse : ∀ r ∈ state.ageRecipients, ∃ key, A.fromStr r = .ok key) (entropy : Entropy) (batch : String) :
    ∃ keys, state.ageRecipients.mapM A.fromStr = .ok keys ∧
      A.IsCiphertext keys (strBytes batch) (bytesToPublish A entropy state batch) := by
  obtain ⟨keys, bytes, hkeys, hcipher, henc⟩ := encryptBatch_sealed hA hne hparse entropy batch
  refine ⟨keys, hkeys, ?_⟩
  simp only [bytesToPublish, hne, ne_eq, not_false_eq_true, if_true, henc]
  exact hcipher

/-- **One recipient that does not parse, and the batch goes out in clear.** -/
theorem published_in_clear {state : DaemonState} (hbad : ¬ ∀ r ∈ state.ageRecipients, ∃ key, A.fromStr r = .ok key)
    (entropy : Entropy) (batch : String) : bytesToPublish A entropy state batch = strBytes batch := by
  unfold bytesToPublish
  by_cases hne : state.ageRecipients ≠ []
  · rw [if_pos hne]
    cases henc : encryptBatch A entropy batch state.ageRecipients with
    | error e => rfl
    | ok bytes => exact absurd (encryptBatch_parses A henc) hbad
  · rw [if_neg hne]

theorem strBytes_eq_nil {s : String} : strBytes s = [] ↔ s = "" := by
  constructor
  · intro h
    exact strBytes_injective (h.trans (by decide))
  · rintro rfl
    decide

/-- **Only ciphertext is published exactly when every recipient parses**, or there is nothing to publish. -/
theorem publish_encrypted_iff {A : Age Entropy} (hA : A.Lawful) {state : DaemonState} (hne : state.ageRecipients ≠ [])
    (entropy : Entropy) (epochNumber : Nat) (batch : String) :
    EncryptedOnly A state.ageRecipients batch (publishEpochBatchToIpfs post A entropy state epochNumber batch) ↔
      batch = "" ∨ ∀ r ∈ state.ageRecipients, ∃ key, A.fromStr r = .ok key := by
  constructor
  · intro honly
    by_contra hneither
    obtain ⟨hbatch, hbad⟩ := not_or.1 hneither
    have hclear := published_in_clear A hbad entropy batch
    have hsome : strBytes batch ≠ [] := fun h => hbatch (strBytes_eq_nil.1 h)
    obtain ⟨u, hsent, hbytes⟩ := publishEpochBatch_sent post state.backend epochNumber hsome
    refine honly.hidden u ?_ hbytes
    simp [publishEpochBatchToIpfs, hclear, hsent]
  · intro hok
    by_cases hparse : ∀ r ∈ state.ageRecipients, ∃ key, A.fromStr r = .ok key
    · obtain ⟨keys, hkeys, hcipher⟩ := bytesToPublish_sealed hA hne hparse entropy batch
      have hlonger := hA.longer keys _ _ hcipher
      have hsome : bytesToPublish A entropy state batch ≠ [] := by
        intro h
        rw [h] at hlonger
        simp at hlonger
      obtain ⟨u, hsent, hbytes⟩ := publishEpochBatch_sent post state.backend epochNumber hsome
      have hseal : IsSealed A state.ageRecipients batch u := ⟨keys, hkeys, by rw [hbytes]; exact hcipher⟩
      have hlist : (publishEpochBatchToIpfs post A entropy state epochNumber batch).2 = [u] := hsent
      refine ⟨?_, ?_, fun _ _ _ => ⟨u, hlist, hseal⟩⟩
      · intro v hv
        rw [hlist, List.mem_singleton] at hv
        rw [hv]
        exact hseal
      · intro v hv h
        rw [hlist, List.mem_singleton] at hv
        rw [hv, hbytes] at h
        rw [h] at hlonger
        exact Nat.lt_irrefl _ hlonger
    · -- an empty batch in clear is refused before anything is sent
      obtain rfl := hok.resolve_right hparse
      have hnone : publishEpochBatchToIpfs post A entropy state epochNumber ""
          = (.error (.validation s!"cannot publish empty batch to {state.backend.name}"), []) := by
        rw [publishEpochBatchToIpfs, published_in_clear A hparse, strBytes_eq_nil.2 rfl, publishEpochBatch_empty]
        rfl
      rw [hnone]
      exact ⟨by simp, by simp, by simp⟩

end

/-! ## Two configurations -/

def parseAge1 (s : String) : Except String String :=
  if "age1".toList.isPrefixOf s.toList ∧ s.length = 62 then .ok s else .error "invalid Bech32 encoding"

/-- An age whose files are a header, the payload and a tag. -/
def demoAge : Age (List UInt8) where
  Recipient := String
  Encryptor := List String
  Writer := List UInt8
  fromStr := parseAge1
  withRecipients keys := if keys = [] then .error "missing recipients" else .ok keys
  wrapOutput entropy _ := .ok (strBytes "age-encryption.org/v1" ++ entropy)
  writeAll writer plaintext := .ok (writer ++ plaintext)
  finish writer := .ok (writer ++ List.replicate 16 0)

theorem demoAge_lawful : demoAge.Lawful where
  seals keys hkeys entropy plaintext := ⟨keys, _, _, _, if_neg hkeys, rfl, rfl, rfl⟩
  longer := by
    rintro keys plaintext bytes ⟨entropy, encryptor, writer, written, _, _, hwrite, hfinish⟩
    cases hwrite
    cases hfinish
    have hlen : ∀ start payload : List UInt8, payload.length < (start ++ payload ++ List.replicate 16 0).length := by
      intro start payload
      simp only [List.length_append, List.length_replicate]
      omega
    exact hlen writer plaintext

def encrypting (recipient : String) : DaemonState := ⟨[recipient], none, ⟨"http://127.0.0.1:5001", 1⟩⟩

def pinned : Upload → Except String Reply := fun _ => .ok ⟨true, "200 OK", "", .ok "bafybeigdyrzt5sfp7udm7hu76uh7y26nf3"⟩

theorem publish_encrypted_valid : EncryptedOnly demoAge ["age1ql3z7hjy54pw3hyww5ayyfg7zqgvc7w3j2elw8zmrj2kg5sfn9aqmcac8p"] "[]"
    (publishEpochBatchToIpfs pinned demoAge [] (encrypting "age1ql3z7hjy54pw3hyww5ayyfg7zqgvc7w3j2elw8zmrj2kg5sfn9aqmcac8p")
      0 "[]") := by
  have hne : (encrypting "age1ql3z7hjy54pw3hyww5ayyfg7zqgvc7w3j2elw8zmrj2kg5sfn9aqmcac8p").ageRecipients ≠ [] := by
    simp [encrypting]
  have hparse : parseAge1 "age1ql3z7hjy54pw3hyww5ayyfg7zqgvc7w3j2elw8zmrj2kg5sfn9aqmcac8p"
      = .ok "age1ql3z7hjy54pw3hyww5ayyfg7zqgvc7w3j2elw8zmrj2kg5sfn9aqmcac8p" := by decide
  refine (publish_encrypted_iff pinned demoAge_lawful hne [] 0 "[]").2 (.inr ?_)
  intro r hr
  rw [List.mem_singleton.1 hr]
  exact ⟨_, hparse⟩

/-- A recipient that does not parse: the batch is uploaded as it is, and reported as encrypted. -/
theorem published_unencrypted : ¬ EncryptedOnly demoAge ["age1invalid"] "[]"
    (publishEpochBatchToIpfs pinned demoAge [] (encrypting "age1invalid") 0 "[]") := by
  intro honly
  have hrun : publishEpochBatchToIpfs pinned demoAge [] (encrypting "age1invalid") 0 "[]" =
      (.ok ⟨"bafybeigdyrzt5sfp7udm7hu76uh7y26nf3", 0, 1, 2, "https://dweb.link/ipfs/bafybeigdyrzt5sfp7udm7hu76uh7y26nf3", true⟩,
        [⟨"http://127.0.0.1:5001/api/v0/add?cid-version=1&quiet=true&pin=true", [], "epoch-0", strBytes "[]"⟩]) := by
    decide
  rw [hrun] at honly
  exact honly.hidden _ (List.mem_singleton_self _) rfl

end Audit
