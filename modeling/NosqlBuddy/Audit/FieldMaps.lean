import Mathlib.Data.Nat.ModEq
import NosqlBuddy.Audit.Commitment

/-!
# Digests, keys and texts as field elements

The field has about `2 ^ 253.6` elements. The order's last byte is 1, so the order's own 32 bytes (`orderBytes`) are not
changed by the mask, which the source applies to byte 31: the least significant one of a big-endian integer. Read as a
digest they wrap to zero.

| `commitment.rs`, `mod.rs` | here |
| --- | --- |
| the integer of 31 bytes and the masked byte 31 | `truncated` |
| `bytes_to_field`, `derive_salt`, `leaf_from_payload` | `digestToField` of their digest |
| `key_to_field` (commitment.rs:117) | `keyToField_eq_iff` |
| `hex_to_fr` (mod.rs:1538) | `hexToFr_eq_iff`: either case, any integer, reduced |
-/

namespace Audit
open Bytes

/-- The truncated digest as an integer: the first 31 bytes and the low nibble of byte 31, big-endian. -/
def truncated (hash : Bytes32) : Nat := ofBe (hash.1.take 31 ++ [hash.1.getD 31 0 &&& 0x0F])

theorem fromBeBytesModOrder_val (bs : List UInt8) : (fromBeBytesModOrder bs).val = ofBe bs % frModulus := rfl

theorem digestToField_val (hash : Bytes32) : (digestToField hash).val = truncated hash % frModulus := rfl

theorem truncated_eq (hash : Bytes32) :
    truncated hash = ofBe (hash.1.take 31) * 256 + (hash.1.getD 31 0 &&& 0x0F).toNat := ofBe_concat _ _

theorem truncated_lt {hash : Bytes32} (h : ofBe (hash.1.take 31) < frModulus / 256) : truncated hash < frModulus := by
  have hb : (hash.1.getD 31 0 &&& 0x0F).toNat < 256 := UInt8.toNat_lt _
  have hr : frModulus = frModulus / 256 * 256 + 1 := by decide
  rw [truncated_eq]
  omega

theorem truncated_of_digestToField (ha : truncated a < frModulus) (hb : truncated b < frModulus)
    (h : digestToField a = digestToField b) : truncated a = truncated b := by
  have hval := congrArg Fin.val h
  rwa [digestToField_val, digestToField_val, Nat.mod_eq_of_lt ha, Nat.mod_eq_of_lt hb] at hval

/-! ## Keys -/

theorem keyToField_eq_iff (a b : Bytes32) : keyToField a = keyToField b ↔ ofBe a.1 ≡ ofBe b.1 [MOD frModulus] := Fin.ext_iff

theorem keyToField_inj (ha : ofBe a.1 < frModulus) (hb : ofBe b.1 < frModulus)
    (h : keyToField a = keyToField b) : a = b := by
  have hmod := (keyToField_eq_iff a b).1 h
  have hnat : ofBe a.1 = ofBe b.1 := hmod.eq_of_lt_of_lt ha hb
  exact Subtype.ext (ofBe_injective (a.2.trans b.2.symm) hnat)

/-! ## Texts -/

theorem hexToFr_eq_iff :
    hexToFr text = .ok f ↔ ∃ bytes, hexDecode text.toList = some bytes ∧ ofBe bytes % frModulus = f.val := by
  cases hdecode : hexDecode text.toList with
  | none => simp [hexToFr, hdecode]
  | some bytes => simp [hexToFr, hdecode, Fin.ext_iff, fromBeBytesModOrder_val]

/-- A text in lower case, of an integer below the order. -/
def Reduced (text : String) : Prop :=
  text.toList.map Char.toLower = text.toList ∧ ∀ bytes ∈ hexDecode text.toList, ofBe bytes < frModulus

theorem frToHex_of_reduced (hlen : text.toList.length = 64) (h : Reduced text)
    (hf : hexToFr text = .ok f) : text = frToHex f := by
  obtain ⟨bytes, hbytes, hval⟩ := hexToFr_eq_iff.1 hf
  have hbytesLen : bytes.length = 32 := by
    have := hexDecode_length hbytes
    omega
  rw [Nat.mod_eq_of_lt (h.2 bytes hbytes)] at hval
  have hbe : toBytesBe f = bytes := by rw [toBytesBe, ← hval, ← hbytesLen, toBe_ofBe]
  rw [frToHex, hbe, hexEncode_of_hexDecode hbytes, h.1, String.ofList_toList]

theorem frToHex_reduced (f : Fr) : Reduced (frToHex f) := by
  have hdecode : hexDecode (frToHex f).toList = some (toBytesBe f) := by
    rw [frToHex, String.toList_ofList, hexDecode_hexEncode]
  refine ⟨?_, ?_⟩
  · rw [← hexEncode_of_hexDecode hdecode, frToHex, String.toList_ofList]
  · intro bytes hbytes
    rw [hdecode, Option.mem_some_iff] at hbytes
    rw [← hbytes, toBytesBe, ofBe_toBe]
    exact Nat.lt_of_le_of_lt (Nat.mod_le _ _) f.isLt

/-! ## All of them -/

/-- What the maps into the field keep of what they read. -/
structure FieldMaps (P : Prims) : Prop where
  /-- The three truncating maps read nothing but their digest. -/
  leaf (operation database collection payload : String) :
    leafFromPayload P operation database collection payload = digestToField (P.sha256 (strBytes payload))
  bytes (bs : List UInt8) : bytesToField P bs = digestToField (P.sha256 bs)
  salt (key : Bytes32) (payload : List UInt8) : deriveSalt P key payload = digestToField (P.hmacSha256 key (0x03 :: payload))
  /-- Digests below the first 31 bytes of the order do not wrap, and then the element determines the truncated digest. -/
  digest (hash : Bytes32) : ofBe (hash.1.take 31) < frModulus / 256 →
    truncated hash < frModulus ∧ (digestToField hash).val = truncated hash
  digests (a b : Bytes32) : truncated a < frModulus → truncated b < frModulus → digestToField a = digestToField b →
    truncated a = truncated b
  /-- Two keys have one element exactly when they are congruent, and keys below the order only when they are equal. -/
  key (a b : Bytes32) : keyToField a = keyToField b ↔ ofBe a.1 ≡ ofBe b.1 [MOD frModulus]
  keys (a b : Bytes32) : ofBe a.1 < frModulus → ofBe b.1 < frModulus → keyToField a = keyToField b → a = b
  /-- The text of an element has 64 characters and is read as that element. -/
  text (f : Fr) : (frToHex f).toList.length = 64 ∧ Reduced (frToHex f) ∧ hexToFr (frToHex f) = .ok f
  /-- Any text of hexadecimal bytes is accepted, for its integer modulo the order. -/
  accepted (text : String) (f : Fr) :
    hexToFr text = .ok f ↔ ∃ bytes, hexDecode text.toList = some bytes ∧ ofBe bytes % frModulus = f.val
  /-- Of 64 characters, in lower case and below the order, there is one for each element. -/
  unique (text : String) (f : Fr) : text.toList.length = 64 → Reduced text → hexToFr text = .ok f → text = frToHex f

/-- **The maps of digests below the order, of keys and of texts.** -/
theorem fieldMaps (P : Prims) : FieldMaps P where
  leaf _ _ _ _ := rfl
  bytes _ := rfl
  salt _ _ := rfl
  digest _ h := ⟨truncated_lt h, Nat.mod_eq_of_lt (truncated_lt h)⟩
  digests _ _ := truncated_of_digestToField
  key := keyToField_eq_iff
  keys _ _ := keyToField_inj
  text f := ⟨length_frToHex f, frToHex_reduced f, hexToFr_frToHex f⟩
  accepted _ _ := hexToFr_eq_iff
  unique _ _ := frToHex_of_reduced

/-! ## Where they wrap -/

/-- The 32 bytes of the order. -/
def orderBytes : Bytes32 := ⟨toBe 32 frModulus, length_toBe _ _⟩

def zeroBytes : Bytes32 := ⟨List.replicate 32 0, length_zeros⟩

theorem ofBe_orderBytes : ofBe orderBytes.1 = frModulus := by
  show ofBe (toBe 32 frModulus) = frModulus
  rw [ofBe_toBe]
  exact Nat.mod_eq_of_lt (by decide)

theorem ofBe_zeroBytes : ofBe zeroBytes.1 = 0 := by
  show ofBe (List.replicate 32 0) = 0
  exact ofBe_replicate_zero 32 []

theorem masked_orderBytes : orderBytes.1.take 31 ++ [orderBytes.1.getD 31 0 &&& 0x0F] = orderBytes.1 := by
  decide

/-- The order's own bytes wrap: as a digest, as a key and as a text they stand for zero, as 32 zero bytes do. -/
theorem order_wraps :
    ¬ (∀ hash : Bytes32, truncated hash < frModulus) ∧
      ¬ (∀ a b : Bytes32, digestToField a = digestToField b → truncated a = truncated b) ∧
      ¬ Function.Injective keyToField ∧
      ¬ (∀ f : Fr, ∀ text : String, text.toList.length = 64 → hexToFr text = .ok f → text = frToHex f) := by
  have htruncated : truncated orderBytes = frModulus := by rw [truncated, masked_orderBytes, ofBe_orderBytes]
  have hzero : truncated zeroBytes = 0 := ofBe_replicate_zero 32 []
  have hpos : 0 < frModulus := by decide
  have hne : orderBytes ≠ zeroBytes := fun h => by
    have := congrArg (fun bs : Bytes32 => ofBe bs.1) h
    simp only [ofBe_orderBytes, ofBe_zeroBytes] at this
    omega
  have hmod : ofBe orderBytes.1 ≡ ofBe zeroBytes.1 [MOD frModulus] := by
    rw [ofBe_orderBytes, ofBe_zeroBytes]
    exact Nat.mod_self _
  refine ⟨fun h => ?_, fun h => ?_, fun h => ?_, fun h => ?_⟩
  · have := h orderBytes
    omega
  · have hdigest : digestToField orderBytes = digestToField zeroBytes := by
      apply Fin.ext
      rw [digestToField_val, digestToField_val, htruncated, hzero, Nat.mod_self, Nat.zero_mod]
    have := h orderBytes zeroBytes hdigest
    omega
  · exact hne (h ((keyToField_eq_iff _ _).2 hmod))
  · have hlist : (String.ofList (hexEncode orderBytes.1)).toList = hexEncode orderBytes.1 := String.toList_ofList
    have hdecode : hexDecode (String.ofList (hexEncode orderBytes.1)).toList = some orderBytes.1 := by
      rw [hlist, hexDecode_hexEncode]
    have hzeroText := h 0 (String.ofList (hexEncode orderBytes.1)) (by rw [hlist, length_hexEncode, orderBytes.2])
      (hexToFr_eq_iff.2 ⟨_, hdecode, by rw [ofBe_orderBytes, Nat.mod_self]; rfl⟩)
    rw [hzeroText] at hdecode
    have hlt := (frToHex_reduced 0).2 orderBytes.1 hdecode
    rw [ofBe_orderBytes] at hlt
    omega

end Audit
