import NosqlBuddy.Audit.Types
import NosqlBuddy.Lib.Crc
import NosqlBuddy.Stellar.Base32

/-!
# Strkeys

`encode_strkey`, `crc16_xmodem` and the decoders of the three kinds of key (stellar_native.rs:2699-2816, auditd/mod.rs:255-279).

| here | there |
| --- | --- |
| `BitVec 16` | `u16` |
| `Key` | `[u8; 32]` |
| `decodeStrkey` | the common body of `decode_account_id_strkey` and `decode_secret_key_strkey` |
| `decodeContractId` | :2742; a text that does not start with `C` is read as hexadecimal digits |
| `hexError` | the text of `hex::FromHexError` |

Every decoder accepts a string of symbols iff its bytes are a strkey (`decodeStrkey_some`, `decodeContractId_some`). A symbol of the
payload lies in a window the checksum covers; one symbol reaches from the payload into the checksum (`straddling`).
-/

namespace Stellar
open Audit BitGroups

/-! ## The checksum -/

def crcRound (crc : BitVec 16) : BitVec 16 := if crc &&& 0x8000#16 ≠ 0#16 then (crc <<< 1) ^^^ 0x1021#16 else crc <<< 1

def crcByte (crc : BitVec 16) (byte : UInt8) : BitVec 16 := crcRound^[8] (crc ^^^ (byte.toBitVec.setWidth 16 <<< 8))

/-- CRC16-XModem. -/
def crc16Xmodem (data : List UInt8) : BitVec 16 := data.foldl crcByte 0x0000#16

/-- The checksum as it is stored, the low byte first. -/
def checksumLe (crc : BitVec 16) : List UInt8 := [⟨(crc &&& 0xff#16).setWidth 8⟩, ⟨(crc >>> 8).setWidth 8⟩]

/-! ## Strkeys -/

abbrev Key := { bytes : List UInt8 // bytes.length = 32 }

def strkeyBytes (version : UInt8) (payload : Key) : List UInt8 :=
  version :: payload.1 ++ checksumLe (crc16Xmodem (version :: payload.1))

def encodeStrkey (version : UInt8) (payload : Key) : String := base32Encode (strkeyBytes version payload)

/-- `decoded[1..33]`. -/
def keyOf (decoded : List UInt8) (h : decoded.length = 35) : Key :=
  ⟨(decoded.drop 1).take 32, by rw [List.length_take, List.length_drop, h]; rfl⟩

def decodeStrkey (letter : Char) (version : UInt8) (s : String) : Option Key := do
  if s.toList.head? ≠ some letter then none
  let decoded ← base32Decode s
  if hlen : decoded.length = 35 then
    if decoded.head? ≠ some version then none
    else if decoded.drop 33 ≠ checksumLe (crc16Xmodem (decoded.take 33)) then none
    else some (keyOf decoded hlen)
  else none

def accountVersion : UInt8 := (6 : UInt8) <<< 3
def secretVersion : UInt8 := (18 : UInt8) <<< 3
def contractVersion : UInt8 := (2 : UInt8) <<< 3

def decodeAccountIdStrkey (s : String) : Option Key := decodeStrkey 'G' accountVersion s
def decodeSecretKeyStrkey (s : String) : Option Key := decodeStrkey 'S' secretVersion s

def encodeAccountId (publicKey : Key) : String := encodeStrkey accountVersion publicKey
def encodeSecretKey (secret : Key) : String := encodeStrkey secretVersion secret

/-- The two digits of `{:02x}`. -/
def hex02 (b : UInt8) : String := String.ofList (Bytes.hexEncode [b])

def decodeContractId (hexError : String → String) (contractId : String) : Except AuditError Key :=
  if contractId.toList.head? = some 'C' then
    match base32Decode contractId with
    | none => .error (.validation "invalid contract ID strkey")
    | some decoded =>
      if hlen : decoded.length = 35 then
        if decoded.head? ≠ some contractVersion then
          .error (.validation s!"invalid contract ID version byte: expected 0x{hex02 contractVersion}, got 0x{hex02 (decoded.headD 0)}")
        else if decoded.drop 33 ≠ checksumLe (crc16Xmodem (decoded.take 33)) then
          .error (.validation "contract ID checksum mismatch")
        else .ok (keyOf decoded hlen)
      else .error (.validation s!"invalid contract ID strkey length: expected 35 bytes, got {decoded.length}")
  else
    match Bytes.hexDecode contractId.toList with
    | none => .error (.validation s!"invalid contract ID hex: {hexError contractId}")
    | some bytes =>
      if hlen : bytes.length = 32 then .ok ⟨bytes, hlen⟩
      else .error (.validation "contract ID must be 32 bytes")

/-! ## What a decoder accepts -/

theorem length_strkeyBytes (version : UInt8) (payload : Key) : (strkeyBytes version payload).length = 35 := by
  simp [strkeyBytes, checksumLe, payload.2]

theorem checks_iff (hlen : decoded.length = 35) (version : UInt8) (k : Key) :
    (decoded.head? = some version ∧ decoded.drop 33 = checksumLe (crc16Xmodem (decoded.take 33)) ∧ keyOf decoded hlen = k) ↔
      decoded = strkeyBytes version k := by
  constructor
  · rintro ⟨hversion, hchecksum, rfl⟩
    obtain ⟨first, rest, rfl⟩ := List.exists_cons_of_length_eq_add_one hlen
    obtain rfl : first = version := Option.some.inj hversion
    have htake : (first :: rest).take 33 = first :: (keyOf (first :: rest) hlen).1 := by simp [keyOf]
    rw [strkeyBytes, ← htake, ← hchecksum, List.take_append_drop]
  · rintro rfl
    have hpayload : (version :: k.1).length = 33 := by rw [List.length_cons, k.2]
    refine ⟨rfl, ?_, Subtype.ext ?_⟩
    · rw [strkeyBytes, List.drop_left' hpayload, List.take_left' hpayload]
    · simp only [keyOf, strkeyBytes, List.cons_append, List.drop_succ_cons, List.drop_zero]
      exact List.take_left' k.2

theorem decodeStrkey_some :
    decodeStrkey letter version s = some k ↔ s.toList.head? = some letter ∧ base32Decode s = some (strkeyBytes version k) := by
  by_cases hletter : s.toList.head? = some letter
  · cases hd : base32Decode s with
    | none => simp [decodeStrkey, hletter, hd]
    | some decoded =>
      have hchecks : decodeStrkey letter version s = some k ↔ ∃ hlen : decoded.length = 35,
          decoded.head? = some version ∧ decoded.drop 33 = checksumLe (crc16Xmodem (decoded.take 33)) ∧ keyOf decoded hlen = k := by
        simp only [decodeStrkey, hletter, hd]
        by_cases hlen : decoded.length = 35
        · by_cases hversion : decoded.head? = some version
          · by_cases hchecksum : decoded.drop 33 = checksumLe (crc16Xmodem (decoded.take 33))
            · simp [hlen, hversion, hchecksum]
            · simp [hlen, hversion, hchecksum]
          · simp [hlen, hversion]
        · simp [hlen]
      rw [hchecks]
      constructor
      · rintro ⟨hlen, hall⟩
        exact ⟨hletter, congrArg some ((checks_iff hlen version k).1 hall)⟩
      · rintro ⟨_, heq⟩
        have hdecoded := Option.some.inj heq
        have hlen : decoded.length = 35 := by rw [hdecoded, length_strkeyBytes]
        exact ⟨hlen, (checks_iff hlen version k).2 hdecoded⟩
  · simp [decodeStrkey, hletter]

theorem decodeContractId_ok {hexError : String → String} {s : String} (hletter : s.toList.head? = some 'C') {k : Key} :
    decodeContractId hexError s = .ok k ↔ base32Decode s = some (strkeyBytes contractVersion k) := by
  cases hd : base32Decode s with
  | none => simp [decodeContractId, hletter, hd]
  | some decoded =>
    have hchecks : decodeContractId hexError s = .ok k ↔ ∃ hlen : decoded.length = 35, decoded.head? = some contractVersion ∧
        decoded.drop 33 = checksumLe (crc16Xmodem (decoded.take 33)) ∧ keyOf decoded hlen = k := by
      simp only [decodeContractId, hletter, hd]
      by_cases hlen : decoded.length = 35
      · by_cases hversion : decoded.head? = some contractVersion
        · by_cases hchecksum : decoded.drop 33 = checksumLe (crc16Xmodem (decoded.take 33))
          · simp [hlen, hversion, hchecksum]
          · simp [hlen, hversion, hchecksum]
        · simp [hlen, hversion]
      · simp [hlen]
    rw [hchecks]
    constructor
    · rintro ⟨hlen, hall⟩
      exact congrArg some ((checks_iff hlen contractVersion k).1 hall)
    · intro heq
      have hdecoded := Option.some.inj heq
      have hlen : decoded.length = 35 := by rw [hdecoded, length_strkeyBytes]
      exact ⟨hlen, (checks_iff hlen contractVersion k).2 hdecoded⟩

theorem decodeContractId_hex (hletter : s.toList.head? ≠ some 'C') (h : decodeContractId hexError s = .ok k) : s.toList.length = 64 := by
  rw [decodeContractId, if_neg hletter] at h
  split at h
  · cases h
  · next bytes hbytes =>
    split at h
    · next hlen => rw [Bytes.hexDecode_length hbytes, hlen]
    · cases h

/-! ## Kinds of keys -/

inductive KeyKind where
  | contract
  | account
  | secret
deriving DecidableEq, Repr

def KeyKind.letter : KeyKind → Char
  | .contract => 'C'
  | .account => 'G'
  | .secret => 'S'

def KeyKind.version : KeyKind → UInt8
  | .contract => contractVersion
  | .account => accountVersion
  | .secret => secretVersion

/-- The decoder of a kind, an error of it being `none`. -/
def KeyKind.decode (hexError : String → String) : KeyKind → String → Option Key
  | .contract, s => (decodeContractId hexError s).toOption
  | .account, s => decodeAccountIdStrkey s
  | .secret, s => decodeSecretKeyStrkey s

theorem decode_some {hexError : String → String} {kind : KeyKind} {s : String} (hletter : s.toList.head? = some kind.letter) {k : Key} :
    kind.decode hexError s = some k ↔ base32Decode s = some (strkeyBytes kind.version k) := by
  cases kind with
  | contract =>
    refine Iff.trans ?_ (@decodeContractId_ok hexError s hletter k)
    rw [KeyKind.decode]
    cases decodeContractId hexError s with
    | ok k' => simp [Except.toOption]
    | error e => simp [Except.toOption]
  | account => exact decodeStrkey_some.trans (and_iff_right hletter)
  | secret => exact decodeStrkey_some.trans (and_iff_right hletter)

theorem decode_other {hexError : String → String} {kind : KeyKind} {s : String} (hletter : s.toList.head? ≠ some kind.letter) {k : Key}
    (h : kind.decode hexError s = some k) : kind = .contract ∧ s.toList.length = 64 := by
  cases kind with
  | contract =>
    cases hd : decodeContractId hexError s with
    | ok k' => exact ⟨rfl, decodeContractId_hex hletter hd⟩
    | error e => simp [KeyKind.decode, hd, Except.toOption] at h
  | account => exact absurd (decodeStrkey_some.1 h).1 hletter
  | secret => exact absurd (decodeStrkey_some.1 h).1 hletter

/-! ## The letters of a strkey -/

def Ascii (s : String) : Prop := ∀ ch ∈ s.toList, ch.toNat < 128

instance (s : String) : Decidable (Ascii s) := List.decidableBAll (fun ch : Char => ch.toNat < 128) s.toList

theorem symbolOf_toUpper (h : ch.toNat < 128) : symbolOf ch.toUpper = symbolOf ch := by
  have hall : ∀ n : Fin 128, toAsciiUppercase (Char.ofNat n).toUpper.toUInt8 = toAsciiUppercase (Char.ofNat n).toUInt8 := by
    decide
  have hchar := hall ⟨ch.toNat, h⟩
  simp only [Char.ofNat_toNat] at hchar
  rw [symbolOf, symbolOf, hchar]

theorem mapM_symbolOf_toUpper {s : List Char} (h : ∀ ch ∈ s, ch.toNat < 128) :
    (s.map Char.toUpper).mapM symbolOf = s.mapM symbolOf := by
  induction s with
  | nil => rfl
  | cons ch s ih =>
    rw [List.map_cons, List.mapM_cons, List.mapM_cons, symbolOf_toUpper (h ch List.mem_cons_self),
      ih fun c hc => h c (List.mem_cons_of_mem ch hc)]

theorem base32Decode_toUpper {s : String} (h : Ascii s) : base32Decode s.toUpper = base32Decode s := by
  rw [base32Decode_eq, base32Decode_eq, String.toUpper, String.toList_map, mapM_symbolOf_toUpper h]

theorem map_symbolAt {s : List Char} {symbols : List Nat} (hascii : ∀ ch ∈ s, ch.toNat < 128) (h : s.mapM symbolOf = some symbols) :
    symbols.map symbolAt = s.map Char.toUpper := by
  rw [mapM_symbolOf_some] at h
  induction h with
  | nil => rfl
  | cons hch _ ih =>
    rw [List.map_cons, List.map_cons, toUpper_of_symbolOf (hascii _ List.mem_cons_self) hch,
      ih fun ch hmem => hascii ch (List.mem_cons_of_mem _ hmem)]

theorem length_of_decode (h : base32Decode s = some (strkeyBytes version k)) :
    s.length = 56 ∨ s.length = 57 := by
  obtain ⟨symbols, hsymbols, hbytes⟩ := base32Decode_some.1 h
  have hlen := congrArg List.length hbytes
  rw [List.length_map, length_groups (by decide), length_flatMap_toBits, length_strkeyBytes] at hlen
  have hs : s.length = symbols.length := (mapM_symbolOf_some.1 hsymbols).length_eq
  omega

theorem encodeStrkey_of_decode {s : String} {version : UInt8} {k : Key} (hascii : Ascii s) (hlen : s.length ≠ 57)
    (h : base32Decode s = some (strkeyBytes version k)) : s.toUpper = encodeStrkey version k := by
  have hs := (length_of_decode h).resolve_right hlen
  obtain ⟨symbols, hsymbols, hbytes⟩ := base32Decode_some.1 h
  have hsymbolsLen : s.length = symbols.length := (mapM_symbolOf_some.1 hsymbols).length_eq
  have hbits : bits (strkeyBytes version k) = symbols.flatMap (toBits 5) := by
    rw [← hbytes, bits_groups (by rw [length_flatMap_toBits]; omega)]
  rw [encodeStrkey, base32Encode_of_bits (symbols_lt hsymbols) hbits, map_symbolAt hascii hsymbols, String.toUpper, ← String.toList_map,
    String.ofList_toList]

/-- **A strkey is read back exactly, but for the case of its letters.** -/
theorem strkey_exact (hexError : String → String) :
    (∀ data, base32Decode (base32Encode data) = some data) ∧
    ∀ (kind : KeyKind) (s : String) (k : Key), Ascii s → s.length ≠ 57 → (kind = .contract → s.toList.head? = some 'C') →
      (kind.decode hexError s = some k ↔ s.toList.head? = some kind.letter ∧ s.toUpper = encodeStrkey kind.version k) := by
  refine ⟨base32Decode_base32Encode, fun kind s k hascii hlen hcontract => ?_⟩
  by_cases hletter : s.toList.head? = some kind.letter
  · rw [decode_some hletter, and_iff_right hletter]
    constructor
    · exact encodeStrkey_of_decode hascii hlen
    · intro h
      rw [← base32Decode_toUpper hascii, h, encodeStrkey, base32Decode_base32Encode]
  · constructor
    · intro h
      obtain ⟨rfl, _⟩ := decode_other hletter h
      exact absurd (hcontract rfl) hletter
    · exact fun h => absurd h.1 hletter

def zeroKey : Key := ⟨List.replicate 32 0, length_zeros⟩

/-- The account id of the zero key, its second letter in lower case. -/
def lowered : String := "GaAAAAAAAAAAAAAAAAAAAAAAAAAAAAAAAAAAAAAAAAAAAAAAAAAAAWHF"

theorem strkey_exact_lowered : decodeAccountIdStrkey lowered = some zeroKey :=
  ((strkey_exact id).2 .account lowered zeroKey (by decide) (by decide) (by decide)).2
    ⟨by decide +kernel, by decide +kernel⟩

theorem lower_case_accepted : ¬ ∀ (s : String) (k : Key), decodeAccountIdStrkey s = some k → s = encodeAccountId k := by
  intro hall
  have hlower := hall lowered zeroKey (by decide +kernel)
  exact absurd hlower (by decide +kernel)

/-! ## What the checksum covers -/

theorem crcRound_eq (crc : BitVec 16) : crcRound crc = Crc.round 0x1021#16 crc := by
  have htop : crc &&& 0x8000#16 = if crc.msb then 0x8000#16 else 0#16 := BitVec.and_twoPow crc 15
  rw [crcRound, Crc.round, htop]
  cases crc.msb <;> simp

theorem crcByte_eq (crc : BitVec 16) (byte : UInt8) : crcByte crc byte = Crc.absorb 0x1021#16 crc (toBits 8 byte.toNat) := by
  have haligned : byte.toBitVec.setWidth 16 <<< 8 = Crc.aligned 16 (toBits 8 byte.toNat) := by
    have hall : ∀ n : Fin 256, (UInt8.ofNat n).toBitVec.setWidth 16 <<< 8 = Crc.aligned 16 (toBits 8 n) := by decide +kernel
    simpa using hall ⟨byte.toNat, byte.toNat_lt⟩
  rw [crcByte, Crc.absorb_eq _ _ (by simp), length_toBits, ← haligned, funext crcRound_eq]
  rfl

theorem crc16Xmodem_eq (data : List UInt8) : crc16Xmodem data = Crc.absorb 0x1021#16 0#16 (bits data) := by
  have hfold : ∀ crc, data.foldl crcByte crc = Crc.absorb 0x1021#16 crc (bits data) := by
    induction data with
    | nil => intro crc; rfl
    | cons byte data ih =>
      intro crc
      rw [List.foldl_cons, ih, bits_cons, Crc.absorb_append, crcByte_eq]
  exact hfold _

theorem bits_inj (h : bits a = bits b) : a = b := by
  have hgroups := groups_bits a [] (by decide)
  rwa [h, groups_bits b [] (by decide), eq_comm] at hgroups

theorem bits_checksumLe (crc : BitVec 16) : bits (checksumLe crc) = toBits 8 (crc.toNat % 256) ++ toBits 8 (crc.toNat / 256) := by
  have hlow : (⟨(crc &&& 0xff#16).setWidth 8⟩ : UInt8).toNat = crc.toNat % 256 := by
    simp [UInt8.toNat, Nat.and_two_pow_sub_one_eq_mod _ 8]
  have hhigh : (⟨(crc >>> 8).setWidth 8⟩ : UInt8).toNat = crc.toNat / 256 := by
    have hlt : crc.toNat < 65536 := crc.isLt
    simp [UInt8.toNat, Nat.shiftRight_eq_div_pow]
    omega
  rw [checksumLe, bits_cons, bits_cons, hlow, hhigh]
  simp [bits]

theorem high_inj {a b : BitVec 16} (h : toBits 8 (a.toNat / 256) = toBits 8 (b.toNat / 256)) : a.toNat / 256 = b.toNat / 256 := by
  have ha : a.toNat < 65536 := a.isLt
  have hb : b.toNat < 65536 := b.isLt
  exact toBits_inj (by omega) (by omega) h

theorem checksumLe_inj (h : bits (checksumLe a) = bits (checksumLe b)) : a = b := by
  rw [bits_checksumLe, bits_checksumLe] at h
  obtain ⟨hlow, hhigh⟩ := List.append_inj h (by simp)
  have hmod := toBits_inj (Nat.mod_lt _ (by decide)) (Nat.mod_lt _ (by decide)) hlow
  have hdiv := high_inj hhigh
  exact BitVec.eq_of_toNat_eq (by omega)

/-- The last byte of a strkey holds the high half of the checksum; a nibble that is exchanged at the end of the payload changes it. -/
theorem straddling (hp : p < 16) (hq : q < 16)
    (h : (Crc.absorb 0x1021#16 s (toBits 4 p)) >>> 8 = (Crc.absorb 0x1021#16 s (toBits 4 q)) >>> 8) : p = q := by
  have hall : ∀ p q : Fin 16,
      Crc.rounds 0x1021#16 4 (Crc.aligned 16 (toBits 4 p)) >>> 8 = Crc.rounds 0x1021#16 4 (Crc.aligned 16 (toBits 4 q)) >>> 8 →
        p = q := by
    decide
  rw [Crc.absorb_eq _ _ (by simp), Crc.absorb_eq _ _ (by simp), length_toBits, length_toBits, Crc.rounds_xor, Crc.rounds_xor,
    BitVec.ushiftRight_xor_distrib, BitVec.ushiftRight_xor_distrib, BitVec.xor_right_inj] at h
  exact congrArg Fin.val (hall ⟨p, hp⟩ ⟨q, hq⟩ h)

theorem bits_strkeyBytes (version : UInt8) (k : Key) :
    bits (strkeyBytes version k) = bits (version :: k.1) ++ bits (checksumLe (crc16Xmodem (version :: k.1))) := by
  rw [strkeyBytes, bits, List.map_append, List.flatMap_append]
  rfl

theorem length_payload (version : UInt8) (k : Key) : (bits (version :: k.1)).length = 264 := by
  rw [length_bits, List.length_cons, k.2]

section
variable {version : UInt8} {k k' : Key} {front back : List Bool} {x y : Nat} (hx : x < 32) (hy : y < 32)
  (h : bits (strkeyBytes version k) = front ++ toBits 5 x ++ back) (h' : bits (strkeyBytes version k') = front ++ toBits 5 y ++ back)
include hx hy h h'

theorem symbol_of_payload (hpayload : bits (version :: k.1) = bits (version :: k'.1)) : x = y := by
  rw [bits_strkeyBytes, ← bits_inj hpayload, ← bits_strkeyBytes, h] at h'
  have hsymbol := List.append_cancel_left (List.append_cancel_right h')
  exact toBits_inj hx hy hsymbol

theorem symbol_in_payload (hback : 16 ≤ back.length) : x = y := by
  have hlast : (back.drop (back.length - 16)).length = 16 := by
    rw [List.length_drop]
    omega
  have hcut := (List.take_append_drop (back.length - 16) back).symm
  generalize back.take (back.length - 16) = inner at hcut
  generalize back.drop (back.length - 16) = last at hcut hlast
  subst hcut
  rw [bits_strkeyBytes, ← List.append_assoc] at h h'
  obtain ⟨hpayload, hchecksum⟩ := List.append_inj' h (by rw [length_bits, hlast]; rfl)
  obtain ⟨hpayload', hchecksum'⟩ := List.append_inj' h' (by rw [length_bits, hlast]; rfl)
  have hcrc := checksumLe_inj (hchecksum.trans hchecksum'.symm)
  rw [crc16Xmodem_eq, crc16Xmodem_eq, hpayload, hpayload', List.append_assoc, List.append_assoc, Crc.absorb_append,
    Crc.absorb_append _ _ front] at hcrc
  exact toBits_inj hx hy (Crc.window_inj (by decide) (by simp) (by simp) hcrc)

theorem symbol_in_checksum (hfront : 264 ≤ front.length) : x = y := by
  have hfirst : (front.take 264).length = 264 := by
    rw [List.length_take]
    omega
  have hcut := (List.take_append_drop 264 front).symm
  generalize front.take 264 = first at hcut hfirst
  generalize front.drop 264 = rest at hcut
  subst hcut
  apply symbol_of_payload hx hy h h'
  rw [bits_strkeyBytes, List.append_assoc, List.append_assoc] at h h'
  have hpayload := (List.append_inj h (by rw [length_payload, hfirst])).1
  have hpayload' := (List.append_inj h' (by rw [length_payload, hfirst])).1
  rw [hpayload, hpayload']

theorem symbol_between (hfront : front.length = 260) (hback : back.length = 15) : x = y := by
  have hhigh : (back.drop 7).length = 8 := by
    rw [List.length_drop, hback]
  have hcut := (List.take_append_drop 7 back).symm
  generalize back.take 7 = inner at hcut
  generalize back.drop 7 = last at hcut hhigh
  subst hcut
  apply symbol_of_payload hx hy h h'
  have hsplit (z : Nat) : front ++ toBits 5 z ++ (inner ++ last) = (front ++ toBits 4 (z / 2)) ++ (toBits 1 z ++ inner ++ last) := by
    rw [toBits_add 4 1 z]
    simp
  rw [bits_strkeyBytes, hsplit] at h h'
  obtain ⟨hpayload, hchecksum⟩ := List.append_inj h (by rw [length_payload, List.length_append, hfront, length_toBits])
  obtain ⟨hpayload', hchecksum'⟩ := List.append_inj h' (by rw [length_payload, List.length_append, hfront, length_toBits])
  rw [bits_checksumLe] at hchecksum hchecksum'
  have hlast := (List.append_inj' hchecksum (by rw [length_toBits, hhigh])).2
  have hlast' := (List.append_inj' hchecksum' (by rw [length_toBits, hhigh])).2
  have hcrc := high_inj (hlast.trans hlast'.symm)
  rw [crc16Xmodem_eq, crc16Xmodem_eq, hpayload, hpayload', Crc.absorb_append, Crc.absorb_append] at hcrc
  have hnibble := straddling (by omega : x / 2 < 16) (by omega : y / 2 < 16)
    (BitVec.eq_of_toNat_eq (by simpa [Nat.shiftRight_eq_div_pow] using hcrc))
  rw [hpayload, hpayload', hnibble]

/-- **The symbol of a strkey is determined by all the others.** -/
theorem symbol_pinned (hfront : front.length % 5 = 0) : x = y := by
  have hlen := congrArg List.length h
  rw [length_bits, length_strkeyBytes, List.length_append, List.length_append, length_toBits] at hlen
  by_cases hback : 16 ≤ back.length
  · exact symbol_in_payload hx hy h h' hback
  · by_cases hsplit : front.length = 260
    · exact symbol_between hx hy h h' hsplit (by omega)
    · exact symbol_in_checksum hx hy h h' (by omega)

end

theorem mapM_symbolOf_set {s : List Char} {symbols : List Nat} (h : s.mapM symbolOf = some symbols) {ch : Char} {n : Nat}
    (hch : symbolOf ch = some n) (j : Nat) : (s.set j ch).mapM symbolOf = some (symbols.set j n) := by
  rw [mapM_symbolOf_some] at h ⊢
  induction h generalizing j with
  | nil => exact .nil
  | cons hfirst hrest ih =>
    cases j with
    | zero => exact .cons hch hrest
    | succ j => exact .cons hfirst (ih j)

theorem flatMap_set {symbols : List Nat} {j : Nat} (hj : j < symbols.length) (n : Nat) : (symbols.set j n).flatMap (toBits 5) =
    (symbols.take j).flatMap (toBits 5) ++ toBits 5 n ++ (symbols.drop (j + 1)).flatMap (toBits 5) := by
  rw [List.set_eq_take_append_cons_drop, if_pos hj, List.flatMap_append, List.flatMap_cons, List.append_assoc]

/-- **A strkey with one symbol exchanged is rejected.** -/
theorem single_symbol_detected (hexError : String → String) (kind : KeyKind) (key : Key) {j : Nat} {ch : Char} {n : Nat}
    (hj : j < (encodeStrkey kind.version key).toList.length) (hch : symbolOf ch = some n)
    (hne : symbolOf (encodeStrkey kind.version key).toList[j] ≠ some n) :
    kind.decode hexError (String.ofList ((encodeStrkey kind.version key).toList.set j ch)) = none := by
  have hdvd : (bits (strkeyBytes kind.version key)).length % 5 = 0 := by rw [length_bits, length_strkeyBytes]
  have hbits := (flatMap_groups_of_dvd (by decide) hdvd).symm
  have hlt := lt_of_mem_groups (by decide : 0 < 5) (bits (strkeyBytes kind.version key))
  have hcount := length_groups (by decide : 0 < 5) (bits (strkeyBytes kind.version key))
  rw [length_bits, length_strkeyBytes] at hcount
  generalize groups 5 (bits (strkeyBytes kind.version key)) = symbols at hbits hlt hcount
  have hencoded : (encodeStrkey kind.version key).toList = symbols.map symbolAt := by
    rw [encodeStrkey, base32Encode_of_bits hlt hbits, String.toList_ofList]
  simp only [hencoded, List.length_map, List.getElem_map] at hj hne ⊢
  cases hd : kind.decode hexError (String.ofList ((symbols.map symbolAt).set j ch)) with
  | none => rfl
  | some key' =>
    exfalso
    by_cases hletter : (String.ofList ((symbols.map symbolAt).set j ch)).toList.head? = some kind.letter
    · obtain ⟨symbols', hread, hbytes⟩ := base32Decode_some.1 ((decode_some hletter).1 hd)
      rw [String.toList_ofList, mapM_symbolOf_set (mapM_symbolOf_map hlt) hch j] at hread
      obtain rfl := Option.some.inj hread
      have hlen : ((symbols.set j n).flatMap (toBits 5)).length % 8 = 0 := by
        rw [length_flatMap_toBits, List.length_set, hcount]
      have hbits' := bits_groups hlen
      rw [hbytes, flatMap_set hj] at hbits'
      rw [← List.set_getElem_self hj, flatMap_set hj] at hbits
      have hold : symbols[j] < 32 := hlt _ (List.getElem_mem hj)
      have hpinned := symbol_pinned hold (symbolOf_lt hch) hbits hbits' (by rw [length_flatMap_toBits, Nat.mul_mod_right])
      exact hne (hpinned ▸ symbolOf_symbolAt hold)
    · have hlen := (decode_other hletter hd).2
      rw [String.toList_ofList, List.length_set, List.length_map, hcount] at hlen
      omega

theorem single_symbol_detected_zero :
    decodeAccountIdStrkey (String.ofList ((encodeAccountId zeroKey).toList.set 3 'b')) = none :=
  @single_symbol_detected id .account zeroKey 3 'b' 1 (by decide +kernel) (by decide +kernel) (by decide +kernel)

end Stellar
