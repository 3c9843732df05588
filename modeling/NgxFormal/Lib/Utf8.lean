import Mathlib.Algebra.Order.Ring.Int
import Mathlib.Data.List.Basic

/-! The encodings of code points in UTF-8, as far as the shortest form goes: surrogates have one too. -/

namespace NgxFormal.Lib.Utf8

def encode (cp : Nat) : List UInt8 :=
  if cp < 0x80 then [UInt8.ofNat cp]
  else if cp < 0x800 then [UInt8.ofNat (0xc0 + cp / 64), UInt8.ofNat (0x80 + cp % 64)]
  else if cp < 0x10000 then
    [UInt8.ofNat (0xe0 + cp / 4096), UInt8.ofNat (0x80 + cp / 64 % 64), UInt8.ofNat (0x80 + cp % 64)]
  else
    [UInt8.ofNat (0xf0 + cp / 262144), UInt8.ofNat (0x80 + cp / 4096 % 64),
      UInt8.ofNat (0x80 + cp / 64 % 64), UInt8.ofNat (0x80 + cp % 64)]

/-- The last code point. -/
def lastPoint : Nat := 0x10ffff

/-- The code points that stand for no character. -/
def Surrogate (cp : Nat) : Prop := 0xd800 ≤ cp ∧ cp ≤ 0xdfff

/-- A text is the encodings of its code points. -/
def Spells (text : List UInt8) (points : List Nat) : Prop :=
  text = points.flatMap encode ∧ ∀ cp ∈ points, cp ≤ lastPoint

variable {cp : Nat} {a b c d : UInt8}

theorem encode_one (small : cp < 0x80) : encode cp = [UInt8.ofNat cp] := if_pos small

theorem encode_two (low : 0x80 ≤ cp) (high : cp < 0x800) :
    encode cp = [UInt8.ofNat (0xc0 + cp / 64), UInt8.ofNat (0x80 + cp % 64)] := by
  rw [encode, if_neg (by omega), if_pos high]

theorem encode_three (low : 0x800 ≤ cp) (high : cp < 0x10000) :
    encode cp = [UInt8.ofNat (0xe0 + cp / 4096), UInt8.ofNat (0x80 + cp / 64 % 64),
      UInt8.ofNat (0x80 + cp % 64)] := by
  rw [encode, if_neg (by omega), if_neg (by omega), if_pos high]

theorem encode_four (low : 0x10000 ≤ cp) :
    encode cp = [UInt8.ofNat (0xf0 + cp / 262144), UInt8.ofNat (0x80 + cp / 4096 % 64),
      UInt8.ofNat (0x80 + cp / 64 % 64), UInt8.ofNat (0x80 + cp % 64)] := by
  rw [encode, if_neg (by omega), if_neg (by omega), if_neg (by omega)]

theorem byte_eq {n : Nat} (same : a.toNat = n) : a = UInt8.ofNat n := by
  rw [← same, UInt8.ofNat_toNat]

def Continues (b : UInt8) : Prop := 0x80 ≤ b ∧ b < 0xc0

theorem Continues.toNat (continues : Continues b) : 0x80 ≤ b.toNat ∧ b.toNat < 0xc0 :=
  ⟨UInt8.le_iff_toNat_le.mp continues.1, UInt8.lt_iff_toNat_lt.mp continues.2⟩

theorem encode_of_two (low : 0xc2 ≤ a) (high : a < 0xe0) (second : Continues b) :
    encode (a.toNat % 32 * 64 + b.toNat % 64) = [a, b] := by
  have first : 0xc2 ≤ a.toNat ∧ a.toNat < 0xe0 :=
    ⟨UInt8.le_iff_toNat_le.mp low, UInt8.lt_iff_toNat_lt.mp high⟩
  have next := second.toNat
  rw [encode_two (by omega) (by omega)]
  generalize point : a.toNat % 32 * 64 + b.toNat % 64 = cp
  rw [← byte_eq (by omega : a.toNat = 0xc0 + cp / 64),
    ← byte_eq (by omega : b.toNat = 0x80 + cp % 64)]

/-- Three bytes, which is the shortest form from 0x800 on. -/
theorem encode_of_three (low : 0xe0 ≤ a) (high : a < 0xf0) (second : Continues b)
    (third : Continues c)
    (shortest : 0x800 ≤ a.toNat % 16 * 4096 + b.toNat % 64 * 64 + c.toNat % 64) :
    encode (a.toNat % 16 * 4096 + b.toNat % 64 * 64 + c.toNat % 64) = [a, b, c] := by
  have first : 0xe0 ≤ a.toNat ∧ a.toNat < 0xf0 :=
    ⟨UInt8.le_iff_toNat_le.mp low, UInt8.lt_iff_toNat_lt.mp high⟩
  have next := second.toNat
  have last := third.toNat
  rw [encode_three shortest (by omega)]
  generalize point : a.toNat % 16 * 4096 + b.toNat % 64 * 64 + c.toNat % 64 = cp
  rw [← byte_eq (by omega : a.toNat = 0xe0 + cp / 4096),
    ← byte_eq (by omega : b.toNat = 0x80 + cp / 64 % 64),
    ← byte_eq (by omega : c.toNat = 0x80 + cp % 64)]

theorem encode_of_four (low : 0xf0 ≤ a) (high : a < 0xf8) (second : Continues b)
    (third : Continues c) (fourth : Continues d)
    (shortest : 0x10000 ≤
      a.toNat % 8 * 262144 + b.toNat % 64 * 4096 + c.toNat % 64 * 64 + d.toNat % 64) :
    encode (a.toNat % 8 * 262144 + b.toNat % 64 * 4096 + c.toNat % 64 * 64 + d.toNat % 64) =
      [a, b, c, d] := by
  have first : 0xf0 ≤ a.toNat ∧ a.toNat < 0xf8 :=
    ⟨UInt8.le_iff_toNat_le.mp low, UInt8.lt_iff_toNat_lt.mp high⟩
  have next := second.toNat
  have middle := third.toNat
  have last := fourth.toNat
  rw [encode_four shortest]
  generalize point :
    a.toNat % 8 * 262144 + b.toNat % 64 * 4096 + c.toNat % 64 * 64 + d.toNat % 64 = cp
  rw [← byte_eq (by omega : a.toNat = 0xf0 + cp / 262144),
    ← byte_eq (by omega : b.toNat = 0x80 + cp / 4096 % 64),
    ← byte_eq (by omega : c.toNat = 0x80 + cp / 64 % 64),
    ← byte_eq (by omega : d.toNat = 0x80 + cp % 64)]

theorem toNat_ofNat {n : Nat} (small : n < 256) : (UInt8.ofNat n).toNat = n := by
  rw [UInt8.toNat_ofNat']
  exact Nat.mod_eq_of_lt small

theorem ofNat_le {n m : Nat} (small : m < 256) (le : n ≤ m) : UInt8.ofNat n ≤ UInt8.ofNat m := by
  rw [UInt8.le_iff_toNat_le, toNat_ofNat small, toNat_ofNat (by omega)]
  exact le

theorem ofNat_lt {n m : Nat} (small : m < 256) (lt : n < m) : UInt8.ofNat n < UInt8.ofNat m := by
  rw [UInt8.lt_iff_toNat_lt, toNat_ofNat small, toNat_ofNat (by omega)]
  exact lt

theorem continues_ofNat {n : Nat} (bits : n < 64) : Continues (UInt8.ofNat (0x80 + n)) := by
  constructor
  · rw [UInt8.le_iff_toNat_le, toNat_ofNat (by omega)]
    exact Nat.le_add_right _ _
  · rw [UInt8.lt_iff_toNat_lt, toNat_ofNat (by omega)]
    exact Nat.add_lt_add_left bits 0x80

theorem encode_ne_nil (cp : Nat) : encode cp ≠ [] := by
  rw [encode]
  split_ifs <;> exact List.cons_ne_nil _ _

theorem encode_length (cp : Nat) : 1 ≤ (encode cp).length ∧ (encode cp).length ≤ 4 := by
  rw [encode]
  split_ifs <;> simp

theorem encode_length_high (high : 0x80 ≤ cp) : 2 ≤ (encode cp).length := by
  rw [encode, if_neg (Nat.not_lt.mpr high)]
  split_ifs <;> simp

end NgxFormal.Lib.Utf8
