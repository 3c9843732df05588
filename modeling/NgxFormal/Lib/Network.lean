import Mathlib.Data.List.Basic

/-! Networks: addresses as strings of bits, masks of leading ones, and the bits of bytes. -/

namespace NgxFormal.Lib.Network

/-- A network is stored: the mask is `n` leading ones, the address is the given one without the bits
outside the mask, and `unchanged` tells whether there were none. -/
structure Stores (width n : Nat) (given stored mask : Nat → Bool) (unchanged : Prop) : Prop where
  ones : ∀ i < width, mask i = decide (i < n)
  cut : ∀ i < width, stored i = (given i && mask i)
  same : unchanged ↔ ∀ i < width, given i = true → mask i = true

/-- The bits of bytes, the highest first. -/
def bit (bytes : List UInt8) (i : Nat) : Bool := (bytes.getD (i / 8) 0).toNat.testBit (7 - i % 8)

theorem bit_first (byte : UInt8) (bytes : List UInt8) {i : Nat} (first : i < 8) :
    bit (byte :: bytes) i = byte.toNat.testBit (7 - i) := by
  rw [bit, Nat.div_eq_of_lt first, Nat.mod_eq_of_lt first]
  rfl

theorem bit_later (byte : UInt8) (bytes : List UInt8) (i : Nat) :
    bit (byte :: bytes) (i + 8) = bit bytes i := by
  rw [bit, Nat.add_div_right i (by decide), Nat.add_mod_right]
  rfl

theorem forall_bits {len : Nat} {P : Nat → Prop} :
    (∀ i < 8 * (len + 1), P i) ↔ (∀ i < 8, P i) ∧ ∀ i < 8 * len, P (i + 8) := by
  constructor
  · intro all
    exact ⟨fun i first => all i (by omega), fun i later => all (i + 8) (by omega)⟩
  · rintro ⟨first, later⟩ i inside
    by_cases small : i < 8
    · exact first i small
    · have shifted := later (i - 8) (by omega)
      rwa [Nat.sub_add_cancel (Nat.not_lt.mp small)] at shifted

def masked (bytes masks : List UInt8) : List UInt8 := List.zipWith (· &&& ·) bytes masks

theorem masked_cons (byte mask : UInt8) (bytes masks : List UInt8) :
    masked (byte :: bytes) (mask :: masks) = (byte &&& mask) :: masked bytes masks := rfl

theorem bit_masked {bytes masks : List UInt8} (same : bytes.length = masks.length) :
    ∀ i < 8 * bytes.length, bit (masked bytes masks) i = (bit bytes i && bit masks i) := by
  induction bytes generalizing masks with
  | nil =>
    intro i impossible
    exact absurd impossible (Nat.not_lt_zero i)
  | cons byte bytes ih =>
    cases masks with
    | nil => exact absurd same (by simp)
    | cons mask masks =>
      rw [List.length_cons, forall_bits]
      constructor
      · intro i first
        rw [masked_cons, bit_first _ _ first, bit_first _ _ first, bit_first _ _ first,
          UInt8.toNat_and, Nat.testBit_and]
      · intro i later
        rw [masked_cons, bit_later, bit_later, bit_later]
        exact ih (Nat.succ.inj same) i later

theorem byte_masked (byte mask : UInt8) :
    byte = byte &&& mask ↔
      ∀ i < 8, byte.toNat.testBit (7 - i) = true → mask.toNat.testBit (7 - i) = true := by
  constructor
  · intro same i _ set
    rw [same, UInt8.toNat_and, Nat.testBit_and, Bool.and_eq_true] at set
    exact set.2
  · intro bits
    apply UInt8.toNat.inj
    apply Nat.eq_of_testBit_eq
    intro i
    rw [UInt8.toNat_and, Nat.testBit_and]
    by_cases small : i < 8
    · have index : 7 - (7 - i) = i := by omega
      have inside := bits (7 - i) (by omega)
      rw [index] at inside
      cases known : byte.toNat.testBit i with
      | false => rfl
      | true => rw [inside known, Bool.and_self]
    · have high : byte.toNat < 2 ^ i :=
        Nat.lt_of_lt_of_le byte.toNat_lt
          (Nat.pow_le_pow_right (by decide) (Nat.not_lt.mp small))
      rw [Nat.testBit_lt_two_pow high, Bool.false_and]

theorem masked_eq_iff {bytes masks : List UInt8} (same : bytes.length = masks.length) :
    bytes = masked bytes masks ↔
      ∀ i < 8 * bytes.length, bit bytes i = true → bit masks i = true := by
  induction bytes generalizing masks with
  | nil =>
    refine iff_of_true rfl fun i impossible => ?_
    exact absurd impossible (Nat.not_lt_zero i)
  | cons byte bytes ih =>
    cases masks with
    | nil => exact absurd same (by simp)
    | cons mask masks =>
      rw [List.length_cons, forall_bits, masked_cons, List.cons.injEq, byte_masked,
        ih (Nat.succ.inj same)]
      apply and_congr
      · apply forall_congr'
        intro i
        apply forall_congr'
        intro first
        rw [bit_first _ _ first, bit_first _ _ first]
      · apply forall_congr'
        intro i
        rw [bit_later, bit_later]

end NgxFormal.Lib.Network
