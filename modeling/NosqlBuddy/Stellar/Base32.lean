import Mathlib.Data.List.Forall2
import NosqlBuddy.Lib.BitGroups

/-!
# Base32

`base32_encode`, `base32_decode` (stellar_native.rs:2818-2865).

| here | there |
| --- | --- |
| `buffer : Nat`, cut by `% 2 ^ 32` | `buffer: u32` |
| `Char.toUInt8` | `ch as u8`, which keeps the low byte of the character |
| `symbolAt`, `symbolOf` | `ALPHABET[index] as char`, the `position` of the upper-cased byte |
| `drain`, `encodeLoop`, `decodeLoop` | the `while` of the encoder, the `for` of either function |

The pending bits are the low `bitsLeft` bits of the register, however often its high ones have overflowed (`toBits_push`).
-/

namespace Stellar
open BitGroups

/-! ## The codec -/

def alphabet : List UInt8 := "ABCDEFGHIJKLMNOPQRSTUVWXYZ234567".toList.map Char.toUInt8

/-- `u8::to_ascii_uppercase`. -/
def toAsciiUppercase (b : UInt8) : UInt8 := if 97 ≤ b ∧ b ≤ 122 then b - 32 else b

def symbolAt (index : Nat) : Char := Char.ofNat (alphabet.getD index 0).toNat

def symbolOf (ch : Char) : Option Nat := alphabet.idxOf? (toAsciiUppercase ch.toUInt8)

def push (buffer width n : Nat) : Nat := (buffer <<< width) % 2 ^ 32 ||| n

/-- The symbols that are pushed while five bits are left, and the bits left then. -/
def drain (buffer : Nat) : Nat → List Char × Nat
  | bitsLeft + 5 =>
    let rest := drain buffer bitsLeft
    (symbolAt ((buffer >>> bitsLeft) &&& 0x1F) :: rest.1, rest.2)
  | bitsLeft => ([], bitsLeft)

def encodeLoop (buffer bitsLeft : Nat) : List UInt8 → List Char
  | [] => if 0 < bitsLeft then [symbolAt ((buffer <<< (5 - bitsLeft)) % 2 ^ 32 &&& 0x1F)] else []
  | byte :: data =>
    let drained := drain (push buffer 8 byte.toNat) (bitsLeft + 8)
    drained.1 ++ encodeLoop (push buffer 8 byte.toNat) drained.2 data

def base32Encode (data : List UInt8) : String := String.ofList (encodeLoop 0 0 data)

def decodeLoop (buffer bitsLeft : Nat) : List Char → Option (List UInt8)
  | [] => some []
  | ch :: rest => do
    let index ← symbolOf ch
    if 8 ≤ bitsLeft + 5 then
      let bytes ← decodeLoop (push buffer 5 index) (bitsLeft + 5 - 8) rest
      return UInt8.ofNat ((push buffer 5 index >>> (bitsLeft + 5 - 8)) &&& 0xFF) :: bytes
    else
      decodeLoop (push buffer 5 index) (bitsLeft + 5) rest

def base32Decode (s : String) : Option (List UInt8) := decodeLoop 0 0 s.toList

/-! ## Symbols -/

theorem symbolOf_symbolAt (h : i < 32) : symbolOf (symbolAt i) = some i := by
  have hall : ∀ i : Fin 32, symbolOf (symbolAt i) = some i.1 := by decide
  exact hall ⟨i, h⟩

theorem symbolOf_lt (h : symbolOf ch = some i) : i < 32 := by
  have hlen : alphabet.length = 32 := by decide
  obtain ⟨hi, _⟩ := List.idxOf?_eq_some_iff.1 h
  omega

theorem toUpper_of_symbolOf (hascii : ch.toNat < 128) (h : symbolOf ch = some i) : ch.toUpper = symbolAt i := by
  have hall : ∀ n : Fin 128, (symbolOf (Char.ofNat n)).all (fun i => (Char.ofNat n).toUpper = symbolAt i) = true := by
    decide +kernel
  have hchar := hall ⟨ch.toNat, hascii⟩
  simpa [Char.ofNat_toNat, h] using hchar

/-! ## The register -/

theorem toBits_push {buffer bitsLeft width n : Nat} (hn : n < 2 ^ width) (h : bitsLeft + width ≤ 32) :
    toBits (bitsLeft + width) (push buffer width n) = toBits bitsLeft buffer ++ toBits width n := by
  have hhigh : toBits bitsLeft (push buffer width n / 2 ^ width) = toBits bitsLeft buffer := by
    apply toBits_congr
    intro i hi
    have hlow : n.testBit (i + width) = false :=
      Nat.testBit_lt_two_pow (hn.trans_le (Nat.pow_le_pow_right (by decide) (by omega)))
    rw [Nat.testBit_div_two_pow, push, Nat.testBit_or, Nat.testBit_mod_two_pow, Nat.testBit_shiftLeft, hlow]
    simp [show i + width < 32 by omega]
  have hlow : toBits width (push buffer width n) = toBits width n := by
    apply toBits_congr
    intro i hi
    rw [push, Nat.testBit_or, Nat.testBit_mod_two_pow, Nat.testBit_shiftLeft]
    simp [show ¬ width ≤ i by omega]
  rw [toBits_add, hhigh, hlow]

theorem drain_eq (buffer bitsLeft : Nat) :
    drain buffer bitsLeft = ((groups 5 (toBits bitsLeft buffer)).map symbolAt, bitsLeft % 5) := by
  fun_induction drain buffer bitsLeft with
  | case1 bitsLeft rest ih =>
    have hsplit := toBits_add 5 bitsLeft buffer
    rw [Nat.add_comm] at hsplit
    rw [hsplit, groups_cons (by decide) (length_toBits _ _), ofBits_toBits, show rest = _ from ih]
    simp [Nat.shiftRight_eq_div_pow, Nat.and_two_pow_sub_one_eq_mod _ 5]
    omega
  | case2 bitsLeft hshort =>
    have hlt : bitsLeft < 5 := by
      by_contra hle
      exact hshort (bitsLeft - 5) (by omega)
    rw [groups_short (by simpa using hlt), Nat.mod_eq_of_lt hlt, List.map_nil]

/-- The bits of bytes. -/
def bits (data : List UInt8) : List Bool := (data.map UInt8.toNat).flatMap (toBits 8)

@[simp] theorem bits_cons (byte : UInt8) (data : List UInt8) : bits (byte :: data) = toBits 8 byte.toNat ++ bits data := rfl

theorem encodeLoop_eq (h : bitsLeft < 5) (data : List UInt8) :
    encodeLoop buffer bitsLeft data = (groups 5 (padded 5 (toBits bitsLeft buffer ++ bits data))).map symbolAt := by
  induction data generalizing buffer bitsLeft with
  | nil =>
    have hlen : (toBits bitsLeft buffer ++ bits []).length = bitsLeft := by simp [bits]
    by_cases hzero : bitsLeft = 0
    · subst hzero
      rw [encodeLoop, if_neg (by decide), padded_of_dvd (by rw [hlen]), groups_short (by rw [hlen]; decide), List.map_nil]
    · have hfive : bitsLeft + (5 - bitsLeft) = 5 := by omega
      have hbits : padded 5 (toBits bitsLeft buffer ++ bits []) = toBits 5 (buffer * 2 ^ (5 - bitsLeft)) := by
        rw [padded, hlen, Nat.mod_eq_of_lt h, Nat.mod_eq_of_lt (by omega)]
        have hpow := toBits_mul_pow bitsLeft (5 - bitsLeft) buffer
        rw [hfive] at hpow
        rw [hpow, bits, List.map_nil, List.flatMap_nil, List.append_nil]
      have hgroup := groups_cons (by decide : 0 < 5) (length_toBits 5 (buffer * 2 ^ (5 - bitsLeft))) []
      rw [List.append_nil] at hgroup
      rw [encodeLoop, if_pos (by omega), hbits, hgroup, ofBits_toBits, groups_short (by decide)]
      simp only [Nat.shiftLeft_eq, Nat.and_two_pow_sub_one_eq_mod _ 5, Nat.mod_mod_of_dvd _ (by decide : 2 ^ 5 ∣ 2 ^ 32)]
      rfl
  | cons byte data ih =>
    have hpush := @toBits_push buffer bitsLeft 8 _ byte.toNat_lt (by omega)
    have hgroups : groups 5 (padded 5 (toBits bitsLeft buffer ++ bits (byte :: data))) =
        groups 5 (toBits (bitsLeft + 8) (push buffer 8 byte.toNat)) ++
          groups 5 (padded 5 (toBits ((bitsLeft + 8) % 5) (push buffer 8 byte.toNat) ++ bits data)) := by
      rw [bits_cons, ← List.append_assoc, ← hpush, groups_padded_append (by decide), remainder_toBits (by decide)]
    rw [encodeLoop, drain_eq, ih (Nat.mod_lt _ (by decide)), hgroups, List.map_append]

theorem decodeLoop_eq (h : bitsLeft < 8) (s : List Char) :
    decodeLoop buffer bitsLeft s = (s.mapM symbolOf).map fun symbols =>
      (groups 8 (toBits bitsLeft buffer ++ symbols.flatMap (toBits 5))).map UInt8.ofNat := by
  induction s generalizing buffer bitsLeft with
  | nil => simp [decodeLoop, groups_short, h]
  | cons ch s ih =>
    rw [decodeLoop, List.mapM_cons]
    cases hch : symbolOf ch with
    | none => rfl
    | some index =>
      have hpush := @toBits_push buffer bitsLeft 5 _ (symbolOf_lt hch) (by omega)
      have hbits (symbols : List Nat) : toBits bitsLeft buffer ++ (index :: symbols).flatMap (toBits 5) =
          toBits (bitsLeft + 5) (push buffer 5 index) ++ symbols.flatMap (toBits 5) := by
        rw [hpush, List.flatMap_cons, List.append_assoc]
      have hmapped : ((some index >>= fun i => s.mapM symbolOf >>= fun symbols => pure (i :: symbols)).map fun symbols =>
          (groups 8 (toBits bitsLeft buffer ++ symbols.flatMap (toBits 5))).map UInt8.ofNat) =
          (s.mapM symbolOf).map fun symbols =>
            (groups 8 (toBits (bitsLeft + 5) (push buffer 5 index) ++ symbols.flatMap (toBits 5))).map UInt8.ofNat := by
        cases hs : s.mapM symbolOf with
        | none => rfl
        | some symbols => simp [← hbits]
      rw [hmapped]
      by_cases hfull : 8 ≤ bitsLeft + 5
      · have hsplit : toBits (bitsLeft + 5) (push buffer 5 index) =
            toBits 8 (push buffer 5 index / 2 ^ (bitsLeft + 5 - 8)) ++ toBits (bitsLeft + 5 - 8) (push buffer 5 index) := by
          rw [← toBits_add, Nat.add_sub_cancel' hfull]
        have hgroup (symbols : List Nat) :
            (groups 8 (toBits (bitsLeft + 5) (push buffer 5 index) ++ symbols.flatMap (toBits 5))).map UInt8.ofNat =
              UInt8.ofNat ((push buffer 5 index >>> (bitsLeft + 5 - 8)) &&& 0xFF) ::
                (groups 8 (toBits (bitsLeft + 5 - 8) (push buffer 5 index) ++ symbols.flatMap (toBits 5))).map UInt8.ofNat := by
          rw [hsplit, List.append_assoc, groups_cons (by decide) (length_toBits _ _), ofBits_toBits, List.map_cons,
            Nat.shiftRight_eq_div_pow, Nat.and_two_pow_sub_one_eq_mod _ 8]
        simp only [Option.bind_eq_bind, Option.bind_some, if_pos hfull, ih (show bitsLeft + 5 - 8 < 8 by omega), hgroup]
        cases s.mapM symbolOf with
        | none => rfl
        | some symbols => rfl
      · simp only [Option.bind_eq_bind, Option.bind_some, if_neg hfull, ih (show bitsLeft + 5 < 8 by omega)]

/-! ## Whole strings -/

theorem base32Encode_eq (data : List UInt8) :
    base32Encode data = String.ofList ((groups 5 (padded 5 (bits data))).map symbolAt) := by
  rw [base32Encode, encodeLoop_eq (by decide), toBits_zero, List.nil_append]

theorem base32Decode_eq (s : String) : base32Decode s = (s.toList.mapM symbolOf).map fun symbols =>
    (groups 8 (symbols.flatMap (toBits 5))).map UInt8.ofNat := by
  rw [base32Decode, decodeLoop_eq (by decide)]
  rfl

theorem mapM_symbolOf_map {symbols : List Nat} (h : ∀ i ∈ symbols, i < 32) :
    (symbols.map symbolAt).mapM symbolOf = some symbols := by
  induction symbols with
  | nil => rfl
  | cons i symbols ih =>
    rw [List.map_cons, List.mapM_cons, symbolOf_symbolAt (h i List.mem_cons_self), ih fun j hj => h j (List.mem_cons_of_mem i hj)]
    rfl

theorem length_bits (data : List UInt8) : (bits data).length = 8 * data.length := by
  rw [bits, length_flatMap_toBits, List.length_map]

theorem groups_bits (data : List UInt8) (r : List Bool) (hr : r.length < 8) :
    (groups 8 (bits data ++ r)).map UInt8.ofNat = data := by
  have hbytes : ∀ n ∈ data.map UInt8.toNat, n < 2 ^ 8 := by
    intro n hn
    obtain ⟨byte, _, rfl⟩ := List.mem_map.1 hn
    exact byte.toNat_lt
  rw [bits, groups_flatMap (by decide) hbytes, groups_short hr, List.append_nil, List.map_map]
  exact (List.map_congr_left fun byte _ => UInt8.ofNat_toNat).trans (List.map_id data)

theorem bits_groups (h : l.length % 8 = 0) : bits ((groups 8 l).map UInt8.ofNat) = l := by
  have hnats : ((groups 8 l).map UInt8.ofNat).map UInt8.toNat = groups 8 l := by
    rw [List.map_map]
    refine (List.map_congr_left fun n hn => ?_).trans (List.map_id _)
    exact UInt8.toNat_ofNat_of_lt' (lt_of_mem_groups (by decide) l n hn)
  rw [bits, hnats, flatMap_groups_of_dvd (by decide) h]

theorem length_padded (l : List Bool) : (padded 5 l).length % 5 = 0 := by
  rw [padded, List.length_append, List.length_replicate]
  omega

/-- **Every byte string is read back.** -/
theorem base32Decode_base32Encode (data : List UInt8) : base32Decode (base32Encode data) = some data := by
  have hpad : (List.replicate ((5 - (bits data).length % 5) % 5) false).length < 8 := by
    rw [List.length_replicate]
    omega
  rw [base32Encode_eq, base32Decode_eq, String.toList_ofList, mapM_symbolOf_map (lt_of_mem_groups (by decide) _), Option.map_some,
    flatMap_groups_of_dvd (by decide) (length_padded _), padded, groups_bits data _ hpad]

theorem mapM_symbolOf_some :
    s.mapM symbolOf = some symbols ↔ List.Forall₂ (fun ch i => symbolOf ch = some i) s symbols := by
  induction s generalizing symbols with
  | nil => cases symbols <;> simp
  | cons ch s ih =>
    cases symbols with
    | nil => simp [List.mapM_cons, Option.bind_eq_some_iff]
    | cons i symbols => simp [List.mapM_cons, Option.bind_eq_some_iff, ih]

theorem symbols_lt {s : List Char} {symbols : List Nat} (h : s.mapM symbolOf = some symbols) : ∀ i ∈ symbols, i < 32 := by
  rw [mapM_symbolOf_some] at h
  induction h with
  | nil => simp
  | cons hch _ ih => exact List.forall_mem_cons.2 ⟨symbolOf_lt hch, ih⟩

theorem base32Decode_some :
    base32Decode s = some data ↔
      ∃ symbols, s.toList.mapM symbolOf = some symbols ∧ (groups 8 (symbols.flatMap (toBits 5))).map UInt8.ofNat = data := by
  rw [base32Decode_eq, Option.map_eq_some_iff]

theorem base32Encode_of_bits {data : List UInt8} {symbols : List Nat} (hlt : ∀ i ∈ symbols, i < 32)
    (h : bits data = symbols.flatMap (toBits 5)) : base32Encode data = String.ofList (symbols.map symbolAt) := by
  have hgroups := groups_flatMap (by decide : 0 < 5) hlt []
  rw [List.append_nil, groups_short (w := 5) (l := []) (by decide), List.append_nil] at hgroups
  rw [base32Encode_eq, h, padded_of_dvd (by rw [length_flatMap_toBits, Nat.mul_mod_right]), hgroups]

end Stellar
