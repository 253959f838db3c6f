import NosqlBuddy.Audit.Types
import NosqlBuddy.Lib.Fallible

/-!
# The fee of a Soroban transaction

`attach_soroban_data_and_auth` (stellar_native.rs:1860) and `SimulationResult` (:441-481).

| here | there |
| --- | --- |
| `Halt` | a panic, or the `Err` of the function |
| `addI64` | `+` on `i64`: with overflow checks (debug builds) it panics, without (release builds) it wraps |
| `Xdr` | `base64` and the `from_xdr` of `stellar_xdr` |

The clamped fee of `max_fee_stroops` is set first and replaced by the cast one whenever the simulation
names a `minResourceFee` (`sorobanFee_ok`). The cast cuts the sum to its low 32 bits.
-/

namespace Stellar
open Fallible

/-! ## Machine arithmetic -/

inductive Halt where
  | panic (message : String)
  | error (e : Audit.AuditError)
deriving DecidableEq, Repr

def FitsI64 (x : Int) : Prop := -2 ^ 63 ≤ x ∧ x < 2 ^ 63

instance (x : Int) : Decidable (FitsI64 x) := inferInstanceAs (Decidable (_ ∧ _))

def addI64 (checks : Bool) (a b : Int) : Except Halt Int := do
  if checks ∧ ¬ FitsI64 (a + b) then
    throw (.panic "attempt to add with overflow")
  return Int.bmod (a + b) (2 ^ 64)

/-- `i64::saturating_mul`. -/
def saturatingMul (a b : Int) : Int := max (-2 ^ 63) (min (2 ^ 63 - 1) (a * b))

/-- `x as u32`. -/
def asU32 (x : Int) : UInt32 := UInt32.ofNat (x % 2 ^ 32).toNat

theorem bmod_of_fits (h : FitsI64 x) : Int.bmod x (2 ^ 64) = x := by
  obtain ⟨hlow, hhigh⟩ := h
  exact Int.bmod_eq_of_le (by omega) (by omega)

variable {checks : Bool}

theorem addI64_ok :
    addI64 checks a b = .ok r ↔ ¬ (checks = true ∧ ¬ FitsI64 (a + b)) ∧ Int.bmod (a + b) (2 ^ 64) = r := by
  simp only [addI64, guard_ok, pure_ok]

theorem asU32_toNat (x : Int) : ((asU32 x).toNat : Int) = x % 2 ^ 32 := by
  have hpos : 0 ≤ x % 2 ^ 32 := Int.emod_nonneg x (by decide)
  have hlt : x % 2 ^ 32 < 2 ^ 32 := Int.emod_lt_of_pos x (by decide)
  rw [asU32, UInt32.toNat_ofNat', Nat.mod_eq_of_lt (by omega)]
  omega

/-! ## Transactions and simulations -/

/-- `OperationBody`: the auth entries of a host function call, the rest of an operation is `Op`. -/
inductive OperationBody (Auth Op : Type) where
  | invokeHostFunction (hostFunction : Op) (auth : List Auth)
  | other (body : Op)
deriving DecidableEq, Repr

/-- `ext` is `none` for `TransactionExt::V0`. -/
structure Transaction (Data Auth Op : Type) where
  fee : UInt32
  ext : Option Data
  operations : List (OperationBody Auth Op)
deriving DecidableEq, Repr

structure SimulationResultEntry where
  auth : List String
deriving DecidableEq, Repr

structure SimulationResult where
  transactionData : Option String
  transactionDataOwned : Option String
  minResourceFee : Option Int
  results : List SimulationResultEntry
deriving DecidableEq, Repr

structure Xdr (Data Auth : Type) where
  base64 : String → Except String (List UInt8)
  sorobanData : List UInt8 → Except String Data
  authEntry : List UInt8 → Except String Auth

def invalid (message : String) : Halt := .error (.validation message)

/-- `SimulationResult::transaction_data` (:463). -/
def SimulationResult.data (sim : SimulationResult) : Except Halt String :=
  match sim.transactionDataOwned.or sim.transactionData with
  | some data => .ok data
  | none => .error (.panic "transaction_data validated by simulate_transaction")

def baseFee : Int := 100

def maxFeeStroops (checks : Bool) (sim : SimulationResult) : Except Halt UInt32 := do
  let required ← addI64 checks (sim.minResourceFee.getD 0) baseFee
  return asU32 (max baseFee (min (2 ^ 32 - 1) ((saturatingMul required 110).tdiv 100)))

variable {m : Int} {sim : SimulationResult}

section
variable {Data Auth Op : Type} (X : Xdr Data Auth)

def sorobanData (sim : SimulationResult) : Except Halt Data := do
  let data ← sim.data
  let xdr ← (X.base64 data).mapError fun e => invalid s!"base64 decode transactionData: {e}"
  (X.sorobanData xdr).mapError fun e => invalid s!"decode SorobanTransactionData: {e}"

/-- The fee of the signed transaction: the second assignment wins. -/
def sorobanFee (checks : Bool) (fee : UInt32) (sim : SimulationResult) : Except Halt UInt32 := do
  let clamped ← maxFeeStroops checks sim
  match sim.minResourceFee with
  | none => return clamped
  | some minFee =>
    let withMin ← addI64 checks fee.toNat minFee
    let totalFee ← addI64 checks withMin 1
    return asU32 totalFee

def decodeAuth (authB64 : String) : Except Halt Auth := do
  let xdr ← (X.base64 authB64).mapError fun e => invalid s!"base64 decode auth: {e}"
  (X.authEntry xdr).mapError fun e => invalid s!"decode auth: {e}"

/-- The auth entries of the first result, put into the first operation; `ops[0]` of a transaction without
operations panics. A `VecM` holds at most `u32::MAX` entries. -/
def attachAuth (sim : SimulationResult) (ops : List (OperationBody Auth Op)) :
    Except Halt (List (OperationBody Auth Op)) :=
  match sim.results with
  | [] => .ok ops
  | ⟨[]⟩ :: _ => .ok ops
  | ⟨auth⟩ :: _ => do
    let entries ← auth.mapM (decodeAuth X)
    if 2 ^ 32 ≤ entries.length then
      throw (invalid "too many auth entries: xdr value max length exceeded")
    match ops with
    | [] => throw (.panic "index out of bounds: the len is 0 but the index is 0")
    | .invokeHostFunction host _ :: rest => return .invokeHostFunction host entries :: rest
    | .other body :: rest => return .other body :: rest

def attachSorobanDataAndAuth (checks : Bool) (tx : Transaction Data Auth Op) (sim : SimulationResult) :
    Except Halt (Transaction Data Auth Op) := do
  let data ← sorobanData X sim
  let fee ← sorobanFee checks tx.fee sim
  let operations ← attachAuth X sim tx.operations
  return { fee := fee, ext := some data, operations := operations }

/-! ## The fee it sets -/

/-- The sums of a simulation with a `minResourceFee` stay within `i64`. -/
def SumsFit (fee minFee : Int) : Prop := FitsI64 (minFee + 100) ∧ FitsI64 (fee + minFee + 1)

theorem maxFeeStroops_ok (hm : sim.minResourceFee = some m) (checks : Bool) :
    (∃ clamped, maxFeeStroops checks sim = .ok clamped) ↔ ¬ (checks = true ∧ ¬ FitsI64 (m + 100)) := by
  simp only [maxFeeStroops, bind_ok, addI64_ok, pure_ok, hm, Option.getD_some, baseFee]
  constructor
  · rintro ⟨_, _, ⟨hfits, _⟩, _⟩
    exact hfits
  · intro hfits
    exact ⟨_, _, ⟨hfits, rfl⟩, rfl⟩

/-- **The fee with a `minResourceFee`**: the sum, cut to 32 bits; a build with checks returns one only when
the sums fit. -/
theorem sorobanFee_ok (hm : sim.minResourceFee = some m) (hpos : 0 ≤ m) :
    sorobanFee checks fee sim = .ok r ↔
      (checks = true → SumsFit fee.toNat m) ∧ asU32 (Int.bmod (Int.bmod (fee.toNat + m) (2 ^ 64) + 1) (2 ^ 64)) = r := by
  have hclamped := maxFeeStroops_ok hm checks
  have hfee : (0 : Int) ≤ fee.toNat := Int.natCast_nonneg _
  have hsum : FitsI64 (fee.toNat + m + 1) → FitsI64 (fee.toNat + m) := by
    rintro ⟨_, hhigh⟩
    constructor <;> omega
  simp only [sorobanFee, hm, bind_ok, addI64_ok, pure_ok, SumsFit]
  constructor
  · rintro ⟨clamped, hok, _, ⟨hfirst, rfl⟩, _, ⟨hsecond, rfl⟩, rfl⟩
    have hmin := hclamped.1 ⟨clamped, hok⟩
    refine ⟨fun hc => ?_, rfl⟩
    have hfits : FitsI64 (fee.toNat + m) := by
      by_contra hn
      exact hfirst ⟨hc, hn⟩
    rw [bmod_of_fits hfits] at hsecond
    constructor
    · by_contra hn
      exact hmin ⟨hc, hn⟩
    · by_contra hn
      exact hsecond ⟨hc, hn⟩
  · rintro ⟨hchecks, rfl⟩
    obtain ⟨clamped, hok⟩ := hclamped.2 fun h => h.2 (hchecks h.1).1
    refine ⟨clamped, hok, _, ⟨fun h => h.2 (hsum (hchecks h.1).2), rfl⟩, _, ⟨fun h => ?_, rfl⟩, rfl⟩
    have hboth := (hchecks h.1).2
    apply h.2
    rw [bmod_of_fits (hsum hboth)]
    exact hboth

theorem attachSorobanDataAndAuth_ok :
    attachSorobanDataAndAuth X checks tx sim = .ok signed ↔
      ∃ data, sorobanData X sim = .ok data ∧ ∃ fee, sorobanFee checks tx.fee sim = .ok fee ∧
        ∃ operations, attachAuth X sim tx.operations = .ok operations ∧ ⟨fee, some data, operations⟩ = signed := by
  simp only [attachSorobanDataAndAuth, bind_ok, pure_ok]

/-- A build with and a build without overflow checks both return, with a fee that covers the demand. -/
def FeeCovers (tx : Transaction Data Auth Op) (sim : SimulationResult) (minFee : Int) : Prop :=
  ∀ checks, ∃ signed, attachSorobanDataAndAuth X checks tx sim = .ok signed ∧
    min (2 ^ 32 - 1) (tx.fee.toNat + minFee) ≤ signed.fee.toNat

/-- The sum and the margin fit a fee; or the sum wraps to exactly `u32::MAX`, without leaving `i64`. -/
def FeeFits (fee minFee : Int) : Prop :=
  fee + minFee + 1 < 2 ^ 32 ∨ (2 ^ 32 ∣ fee + minFee + 2) ∧ SumsFit fee minFee

theorem covers_iff (hfee : 0 ≤ fee) (hm : 0 ≤ m) :
    min (2 ^ 32 - 1) (fee + m) ≤ (fee + m + 1) % 2 ^ 32 ↔ fee + m + 1 < 2 ^ 32 ∨ (2 ^ 32 : Int) ∣ fee + m + 2 := by
  omega

/-- **The fee covers the simulation's demand exactly when the sum fits 32 bits**, or is a multiple of `2 ^ 32`
less two. -/
theorem fee_covers_iff {tx : Transaction Data Auth Op} {sim : SimulationResult} {data : Data}
    {operations : List (OperationBody Auth Op)} {m : Int} (hdata : sorobanData X sim = .ok data)
    (hauth : attachAuth X sim tx.operations = .ok operations) (hm : sim.minResourceFee = some m) (hpos : 0 ≤ m)
    (hmax : m < 2 ^ 63) : FeeCovers X tx sim m ↔ FeeFits tx.fee.toNat m := by
  have hfee : (0 : Int) ≤ tx.fee.toNat := Int.natCast_nonneg _
  have hfee32 : (tx.fee.toNat : Int) < 2 ^ 32 := by exact_mod_cast tx.fee.toNat_lt
  have hsums : SumsFit tx.fee.toNat m →
      Int.bmod (Int.bmod (tx.fee.toNat + m) (2 ^ 64) + 1) (2 ^ 64) = tx.fee.toNat + m + 1 := by
    rintro ⟨_, hlast⟩
    rw [bmod_of_fits (x := tx.fee.toNat + m) ⟨by omega, by have := hlast.2; omega⟩, bmod_of_fits hlast]
  have hreturns : ∀ checks, (checks = true → SumsFit tx.fee.toNat m) →
      ∃ signed, attachSorobanDataAndAuth X checks tx sim = .ok signed ∧
        signed.fee = asU32 (Int.bmod (Int.bmod (tx.fee.toNat + m) (2 ^ 64) + 1) (2 ^ 64)) := by
    intro checks hc
    exact ⟨⟨_, some data, operations⟩, (attachSorobanDataAndAuth_ok X).2
      ⟨data, hdata, _, (sorobanFee_ok hm hpos).2 ⟨hc, rfl⟩, operations, hauth, rfl⟩, rfl⟩
  constructor
  · intro hcovers
    -- the build with checks returns, so nothing overflowed
    obtain ⟨signed, hok, hle⟩ := hcovers true
    obtain ⟨_, _, fee, hset, _, _, rfl⟩ := (attachSorobanDataAndAuth_ok X).1 hok
    obtain ⟨hchecked, rfl⟩ := (sorobanFee_ok hm hpos).1 hset
    have hall := hchecked rfl
    rw [hsums hall, asU32_toNat, covers_iff hfee hpos] at hle
    exact hle.imp id fun hdvd => ⟨hdvd, hall⟩
  · intro hfits checks
    have hall : SumsFit tx.fee.toNat m := by
      rcases hfits with hsmall | ⟨_, hall⟩
      · refine ⟨⟨?_, ?_⟩, ⟨?_, ?_⟩⟩ <;> omega
      · exact hall
    obtain ⟨signed, hok, hset⟩ := hreturns checks fun _ => hall
    refine ⟨signed, hok, ?_⟩
    rw [hset, hsums hall, asU32_toNat, covers_iff hfee hpos]
    exact hfits.imp id And.left

end

/-! ## Two simulations -/

/-- The decoders on a `SorobanTransactionData` of zeros, kept as its bytes. -/
def zeroXdr : Xdr (List UInt8) (List UInt8) where
  base64 s := if s = "AAAAAAAAAAAAAAAAAAAAAAAAAAAAAAAAAAAAAAAAAAA=" then .ok (List.replicate 32 0) else .error "Invalid padding"
  sorobanData bytes := if bytes = List.replicate 32 0 then .ok bytes else .error "xdr value invalid"
  authEntry _ := .error "xdr value invalid"

def callTx : Transaction (List UInt8) (List UInt8) String := ⟨100, none, [.invokeHostFunction "commit_root" []]⟩

def simulated (minResourceFee : Int) : SimulationResult where
  transactionData := none
  transactionDataOwned := some "AAAAAAAAAAAAAAAAAAAAAAAAAAAAAAAAAAAAAAAAAAA="
  minResourceFee := some minResourceFee
  results := [⟨[]⟩]

theorem fee_covers_small : FeeCovers zeroXdr callTx (simulated 58181) 58181 := by
  have hdata : sorobanData zeroXdr (simulated 58181) = .ok (List.replicate 32 0) := by decide
  have hauth : attachAuth zeroXdr (simulated 58181) callTx.operations = .ok callTx.operations := rfl
  exact (fee_covers_iff zeroXdr hdata hauth rfl (by decide) (by decide)).2 (.inl (by decide))

/-- A demand of `2 ^ 32` stroops is submitted with a fee of 101. -/
theorem fee_wraps : ¬ FeeCovers zeroXdr callTx (simulated (2 ^ 32)) (2 ^ 32) := by
  intro hcovers
  obtain ⟨signed, hok, hle⟩ := hcovers false
  have hrun : attachSorobanDataAndAuth zeroXdr false callTx (simulated (2 ^ 32))
      = .ok ⟨101, some (List.replicate 32 0), callTx.operations⟩ := by decide +kernel
  rw [hrun] at hok
  cases hok
  exact absurd hle (by decide)

end Stellar
