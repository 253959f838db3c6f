import Mathlib.Algebra.Group.Nat.Defs
import Mathlib.Data.List.Basic
import Mathlib.Data.List.Forall2

/-!
# Codes that tell where they end

A code is decoded from the left when two codes that start the same byte string are the code of the same
thing, with the same bytes left over. Here: little-endian numbers of a fixed width (`toLe`), byte strings
behind their length (`blob`), and sequences of as many codes on both sides (`flatMap_append_inj`).
-/

namespace Codes

/-- The `w`-byte little-endian encoding of `v`, of `v % 256 ^ w` when it does not fit. -/
def toLe : Nat → Nat → List UInt8
  | 0, _ => []
  | w + 1, v => UInt8.ofNat (v % 256) :: toLe w (v / 256)

@[simp] theorem length_toLe : ∀ w v : Nat, (toLe w v).length = w
  | 0, _ => rfl
  | w + 1, v => by simp [toLe, length_toLe w]

theorem toLe_inj : ∀ {w m n : Nat}, m < 256 ^ w → n < 256 ^ w → toLe w m = toLe w n → m = n
  | 0, m, n, hm, hn, _ => by
    simp only [Nat.pow_zero] at hm hn
    omega
  | w + 1, m, n, hm, hn, h => by
    rw [Nat.pow_succ] at hm hn
    obtain ⟨hlow, hrest⟩ := List.cons.inj h
    have hlow' := congrArg UInt8.toNat hlow
    simp only [UInt8.toNat_ofNat', Nat.reducePow, Nat.mod_mod] at hlow'
    have hhigh : m / 256 = n / 256 := toLe_inj (by omega) (by omega) hrest
    omega

/-- The number of a little-endian byte string. -/
def ofLe : List UInt8 → Nat
  | [] => 0
  | b :: bs => b.toNat + 256 * ofLe bs

theorem ofLe_toLe : ∀ {w n : Nat}, n < 256 ^ w → ofLe (toLe w n) = n
  | 0, n, h => by
    simp only [Nat.pow_zero] at h
    simp only [toLe, ofLe]
    omega
  | w + 1, n, h => by
    rw [Nat.pow_succ] at h
    rw [toLe, ofLe, ofLe_toLe (by omega : n / 256 < 256 ^ w)]
    simp only [UInt8.toNat_ofNat', Nat.reducePow, Nat.mod_mod]
    omega

theorem toLe_ofLe : ∀ bs : List UInt8, toLe bs.length (ofLe bs) = bs
  | [] => rfl
  | b :: bs => by
    have hb := b.toNat_lt
    have hmod : (b.toNat + 256 * ofLe bs) % 256 = b.toNat := by omega
    have hdiv : (b.toNat + 256 * ofLe bs) / 256 = ofLe bs := by omega
    rw [List.length_cons, ofLe, toLe, hmod, hdiv, toLe_ofLe bs, UInt8.ofNat_toNat]

theorem ofLe_lt : ∀ bs : List UInt8, ofLe bs < 256 ^ bs.length
  | [] => by simp [ofLe]
  | b :: bs => by
    have hb := b.toNat_lt
    have ih := ofLe_lt bs
    rw [ofLe, List.length_cons, Nat.pow_succ]
    omega

/-- A byte string behind its length. -/
def blob (bs : List UInt8) : List UInt8 := toLe 4 bs.length ++ bs

theorem blob_append_inj (ha : a.length < 2 ^ 32) (hb : b.length < 2 ^ 32)
    (h : blob a ++ s = blob b ++ t) : a = b ∧ s = t := by
  unfold blob at h
  rw [List.append_assoc, List.append_assoc] at h
  obtain ⟨hlen, hrest⟩ := List.append_inj h (by simp)
  have hab : a.length = b.length := toLe_inj (by simpa using ha) (by simpa using hb) hlen
  exact List.append_inj hrest hab

theorem flatMap_append_inj {α β : Type*} {enc : α → List β} {R : α → α → Prop} :
    ∀ {as bs : List α} {s t : List β}, as.length = bs.length →
      (∀ a ∈ as, ∀ b ∈ bs, ∀ s t, enc a ++ s = enc b ++ t → R a b ∧ s = t) →
      as.flatMap enc ++ s = bs.flatMap enc ++ t → List.Forall₂ R as bs ∧ s = t
  | [], [], s, t, _, _, h => ⟨.nil, by simpa using h⟩
  | [], _ :: _, _, _, hlen, _, _ => by simp at hlen
  | _ :: _, [], _, _, hlen, _, _ => by simp at hlen
  | a :: as, b :: bs, s, t, hlen, hdec, h => by
    simp only [List.flatMap_cons, List.append_assoc] at h
    obtain ⟨hab, hrest⟩ := hdec a (by simp) b (by simp) _ _ h
    obtain ⟨hall, hst⟩ := flatMap_append_inj (by simpa using hlen)
      (fun x hx y hy => hdec x (List.mem_cons_of_mem _ hx) y (List.mem_cons_of_mem _ hy)) hrest
    exact ⟨.cons hab hall, hst⟩

end Codes
