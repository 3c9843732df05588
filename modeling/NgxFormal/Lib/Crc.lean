import NgxFormal.Lib.Bytes
import Mathlib.Data.BitVec

/-! Cyclic redundancy checks that take the lowest bit first: shifts of a remainder, several of them
at once from a table, and what they tell apart. -/

namespace NgxFormal.Lib.Crc

variable {w : Nat} (poly : BitVec w) {a b c : BitVec w} {n : Nat}

def shift (c : BitVec w) : BitVec w := if c.getLsbD 0 then c >>> 1 ^^^ poly else c >>> 1

def shifts : Nat → BitVec w → BitVec w
  | 0, c => c
  | n + 1, c => shifts n (shift poly c)

/-- The `n` lowest bits. -/
def low (n : Nat) (c : BitVec w) : BitVec w := c &&& BitVec.ofNat w (2 ^ n - 1)

theorem shift_xor : shift poly (a ^^^ b) = shift poly a ^^^ shift poly b := by
  rw [shift, shift, shift, BitVec.getLsbD_xor, BitVec.ushiftRight_xor_distrib]
  cases a.getLsbD 0 <;> cases b.getLsbD 0
  · rfl
  · simp only [Bool.false_bne, if_true, Bool.false_eq_true, if_false, BitVec.xor_assoc]
  · simp only [Bool.bne_false, if_true, Bool.false_eq_true, if_false, BitVec.xor_assoc,
      BitVec.xor_comm poly]
  · have cancel : poly ^^^ (b >>> 1 ^^^ poly) = b >>> 1 := by
      rw [BitVec.xor_comm, BitVec.xor_assoc, BitVec.xor_self, BitVec.xor_zero]
    simp only [bne_self_eq_false, Bool.false_eq_true, if_false, if_true, BitVec.xor_assoc, cancel]

theorem shifts_xor : shifts poly n (a ^^^ b) = shifts poly n a ^^^ shifts poly n b := by
  induction n generalizing a b with
  | zero => rfl
  | succ n ih => rw [shifts, shift_xor, ih, shifts, shifts]

theorem shifts_add (m n : Nat) (c : BitVec w) :
    shifts poly (m + n) c = shifts poly n (shifts poly m c) := by
  induction m generalizing c with
  | zero => rw [Nat.zero_add, shifts]
  | succ m ih => rw [Nat.succ_add, shifts, ih, shifts]

theorem shifts_clear (clear : ∀ i < n, c.getLsbD i = false) : shifts poly n c = c >>> n := by
  induction n generalizing c with
  | zero => rw [shifts, BitVec.ushiftRight_zero]
  | succ n ih =>
    have first : shift poly c = c >>> 1 := by
      rw [shift, clear 0 (Nat.succ_pos n), if_neg Bool.false_ne_true]
    rw [shifts, first, ih, ← BitVec.shiftRight_add, Nat.add_comm]
    intro i inside
    rw [BitVec.getLsbD_ushiftRight]
    exact clear _ (by omega)

theorem low_bit (i : Nat) : (low n c).getLsbD i = (c.getLsbD i && decide (i < n)) := by
  rw [low, BitVec.getLsbD_and, BitVec.getLsbD_ofNat, Nat.testBit_two_pow_sub_one]
  by_cases inside : i < w
  · rw [decide_eq_true inside, Bool.true_and]
  · rw [BitVec.getLsbD_of_ge _ _ (Nat.le_of_not_lt inside), Bool.false_and, Bool.false_and]

/-- `n` shifts are one step with a table of what they make of the `n` lowest bits. -/
theorem shifts_table (n : Nat) (c : BitVec w) :
    shifts poly n c = shifts poly n (low n c) ^^^ c >>> n := by
  have parts : c = low n c ^^^ (c ^^^ low n c) := by
    rw [BitVec.xor_comm c, ← BitVec.xor_assoc, BitVec.xor_self, BitVec.zero_xor]
  have high : shifts poly n (c ^^^ low n c) = c >>> n := by
    rw [shifts_clear]
    · apply BitVec.eq_of_getLsbD_eq
      intro i _
      rw [BitVec.getLsbD_ushiftRight, BitVec.getLsbD_ushiftRight, BitVec.getLsbD_xor, low_bit,
        decide_eq_false (by omega), Bool.and_false, Bool.xor_false]
    · intro i inside
      rw [BitVec.getLsbD_xor, low_bit, decide_eq_true inside, Bool.and_true, Bool.xor_self]
  rw [← high, ← shifts_xor, ← parts]

section Injective

variable {poly}

theorem shift_eq_zero (top : poly.getLsbD (w - 1) = true) (gone : shift poly c = 0#w) :
    c = 0#w := by
  have wide : 0 < w := by
    rcases Nat.eq_zero_or_pos w with rfl | wide
    · rw [BitVec.of_length_zero (x := poly)] at top
      cases top
    · exact wide
  have even : c.getLsbD 0 = false := by
    by_contra odd
    have high := congrArg (fun c => c.getLsbD (w - 1)) gone
    rw [shift, if_pos (by simpa using odd)] at high
    simp [top, show 1 + (w - 1) = w by omega] at high
  rw [shift, even, if_neg Bool.false_ne_true] at gone
  apply BitVec.eq_of_getLsbD_eq
  intro i _
  cases i with
  | zero => rw [even, BitVec.getLsbD_zero]
  | succ i =>
    have bit := congrArg (fun c => c.getLsbD i) gone
    rw [BitVec.getLsbD_ushiftRight, Nat.add_comm] at bit
    rw [BitVec.getLsbD_zero] at bit ⊢
    exact bit

theorem shifts_injective (top : poly.getLsbD (w - 1) = true) : ∀ n, (shifts poly n).Injective
  | 0, _, _, same => same
  | n + 1, a, b, same => by
    have first := shifts_injective top n same
    have differ : shift poly (a ^^^ b) = 0#w := by
      rw [shift_xor, first, BitVec.xor_self]
    exact BitVec.xor_eq_zero_iff.mp (shift_eq_zero top differ)

end Injective

section Bytes

theorem leBytes_leValue (bytes : List UInt8) : leBytes bytes.length (leValue bytes) = bytes := by
  induction bytes with
  | nil => rfl
  | cons byte rest ih =>
    have small : byte.toNat < 256 := byte.toNat_lt
    have low : UInt8.ofNat (byte.toNat + 256 * leValue rest) = byte := by
      apply UInt8.toNat_inj.mp
      rw [UInt8.toNat_ofNat']
      omega
    have high : (byte.toNat + 256 * leValue rest) / 256 = leValue rest := by
      omega
    rw [List.length_cons, leValue, leBytes, low, high, ih]

theorem leValue_lt (bytes : List UInt8) : leValue bytes < 2 ^ (8 * bytes.length) := by
  induction bytes with
  | nil => exact Nat.one_pos
  | cons byte rest ih =>
    have small : byte.toNat < 256 := byte.toNat_lt
    rw [List.length_cons, Nat.mul_succ, Nat.pow_add, leValue]
    omega

/-- A byte is divided behind the remainder so far. -/
def feed (c : BitVec w) (byte : UInt8) : BitVec w := shifts poly 8 (c ^^^ BitVec.ofNat w byte.toNat)

theorem foldl_feed (c : BitVec w) (bytes : List UInt8) (fit : 8 * bytes.length ≤ w) :
    bytes.foldl (feed poly) c = shifts poly (8 * bytes.length) (c ^^^ BitVec.ofNat w (leValue bytes)) := by
  induction bytes generalizing c with
  | nil => rw [List.foldl_nil, List.length_nil, leValue, BitVec.xor_zero, shifts]
  | cons byte rest ih =>
    rw [List.length_cons, Nat.mul_succ] at fit
    have small : leValue rest < 2 ^ (w - 8) :=
      (leValue_lt rest).trans_le (Nat.pow_le_pow_right Nat.two_pos (by omega))
    have behind : BitVec.ofNat w (leValue rest) =
        shifts poly 8 (BitVec.ofNat w (2 ^ 8 * leValue rest)) := by
      rw [shifts_clear]
      · apply BitVec.eq_of_toNat_eq
        have pow : 2 ^ w = 2 ^ (w - 8) * 2 ^ 8 := by
          rw [← Nat.pow_add, Nat.sub_add_cancel (by omega)]
        rw [BitVec.toNat_ushiftRight, BitVec.toNat_ofNat, BitVec.toNat_ofNat, Nat.shiftRight_eq_div_pow,
          Nat.mod_eq_of_lt (by omega), Nat.mod_eq_of_lt (by omega)]
        omega
      · intro i inside
        rw [BitVec.getLsbD_ofNat, Nat.testBit_two_pow_mul, decide_eq_false (show ¬i ≥ 8 by omega),
          Bool.false_and, Bool.and_false]
    have word : BitVec.ofNat w (leValue (byte :: rest)) =
        BitVec.ofNat w byte.toNat ^^^ BitVec.ofNat w (2 ^ 8 * leValue rest) := by
      apply BitVec.eq_of_getLsbD_eq
      intro i inside
      rw [leValue, Nat.add_comm, show 256 = 2 ^ 8 by rfl, BitVec.getLsbD_xor, BitVec.getLsbD_ofNat,
        BitVec.getLsbD_ofNat, BitVec.getLsbD_ofNat, Nat.testBit_two_pow_mul_add _ byte.toNat_lt,
        Nat.testBit_two_pow_mul, decide_eq_true inside]
      split
      case isTrue low => simp [Nat.not_le_of_lt low]
      case isFalse high =>
        have above : byte.toNat.testBit i = false :=
          Nat.testBit_lt_two_pow (byte.toNat_lt.trans_le (Nat.pow_le_pow_right Nat.two_pos (by omega)))
        simp [above, Nat.le_of_not_lt high]
    rw [List.foldl_cons, ih _ (by omega), feed, behind, ← shifts_xor, ← shifts_add, word,
      BitVec.xor_assoc, List.length_cons, Nat.mul_succ, Nat.add_comm]

theorem feed_injective (top : poly.getLsbD (w - 1) = true) (bytes : List UInt8) :
    (fun c => bytes.foldl (feed poly) c).Injective := by
  induction bytes with
  | nil => exact fun _ _ same => same
  | cons byte rest ih =>
    intro a b same
    exact (BitVec.xor_left_inj _).mp (shifts_injective top 8 (ih same))

/-- Two texts that differ within a window no longer than the remainder are told apart. -/
theorem foldl_feed_differ (top : poly.getLsbD (w - 1) = true) {a b : List UInt8}
    (length : a.length = b.length) (fit : 8 * a.length ≤ w) (differ : a ≠ b)
    (c : BitVec w) (behind : List UInt8) :
    (a ++ behind).foldl (feed poly) c ≠ (b ++ behind).foldl (feed poly) c := by
  intro same
  rw [List.foldl_append, List.foldl_append] at same
  have windows := feed_injective poly top behind same
  rw [foldl_feed poly c a fit, foldl_feed poly c b (length ▸ fit), ← length] at windows
  have values := congrArg BitVec.toNat ((BitVec.xor_right_inj _).mp (shifts_injective top _ windows))
  rw [BitVec.toNat_ofNat, BitVec.toNat_ofNat, Nat.mod_eq_of_lt (leValue_lt a |>.trans_le
    (Nat.pow_le_pow_right Nat.two_pos fit)), Nat.mod_eq_of_lt (leValue_lt b |>.trans_le
    (Nat.pow_le_pow_right Nat.two_pos (length ▸ fit)))] at values
  rw [← leBytes_leValue a, values, length, leBytes_leValue] at differ
  exact differ rfl

end Bytes

end NgxFormal.Lib.Crc
