import Mathlib.Algebra.Order.Ring.Int
import Mathlib.Data.List.Basic

/-! Bytes and the character tests that the sources repeat everywhere. -/

namespace NgxFormal

def chr (c : Char) : UInt8 := UInt8.ofNat c.toNat

abbrev CR : UInt8 := 13
abbrev LF : UInt8 := 10

/-- `ch >= '0' && ch <= '9'` -/
def isDigit (ch : UInt8) : Bool := chr '0' ≤ ch && ch ≤ chr '9'

/-- `ch - '0'` of a digit. -/
def digitValue (ch : UInt8) : Nat := ch.toNat - 48

/-- `*p` for a pointer into a string that a NUL byte terminates; the list is what is left of
the string from `p` on. -/
def peek (p : List UInt8) : UInt8 := p.headD 0

def ngxTolower (c : UInt8) : UInt8 := if chr 'A' ≤ c ∧ c ≤ chr 'Z' then c ||| 0x20 else c

/-- What holds of the 256 bytes holds of every byte. -/
@[elab_as_elim]
theorem byte_table {P : UInt8 → Prop} (ch : UInt8) (all : ∀ n : Fin 256, P (UInt8.ofNat n.val)) : P ch := by
  have entry := all ⟨ch.toNat, ch.toNat_lt⟩
  rw [UInt8.ofNat_toNat] at entry
  exact entry

end NgxFormal
