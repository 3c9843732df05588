import Mathlib.Algebra.Order.Ring.Int
import Mathlib.Data.List.Range
import Mathlib.Tactic.Ring

/-! Byte memory: little-endian words, block writes, and what a block read sees after them. -/

namespace NgxFormal.Lib

/-- The `width` low bytes of `n`, lowest first. -/
def leBytes : Nat → Nat → List UInt8
  | 0, _ => []
  | width + 1, n => UInt8.ofNat n :: leBytes width (n / 256)

def leValue : List UInt8 → Nat
  | [] => 0
  | byte :: rest => byte.toNat + 256 * leValue rest

@[simp] theorem leBytes_length (width n : Nat) : (leBytes width n).length = width := by
  induction width generalizing n with
  | zero => rfl
  | succ width ih => rw [leBytes, List.length_cons, ih]

theorem leValue_leBytes (width n : Nat) (fits : n < 256 ^ width) :
    leValue (leBytes width n) = n := by
  induction width generalizing n with
  | zero =>
    rw [Nat.pow_zero] at fits
    rw [leBytes, leValue]
    omega
  | succ width ih =>
    have rest : n / 256 < 256 ^ width := by
      rw [Nat.div_lt_iff_lt_mul (by decide)]
      rwa [Nat.pow_succ] at fits
    rw [leBytes, leValue, ih _ rest, UInt8.toNat_ofNat']
    omega

/-- `length` bytes of memory from `addr` on. -/
def readBytes (mem : Nat → UInt8) (addr length : Nat) : List UInt8 :=
  (List.range length).map fun i => mem (addr + i)

/-- A block write. -/
structure Write where
  addr : Nat
  bytes : List UInt8
  deriving DecidableEq, Repr

def Write.stop (write : Write) : Nat := write.addr + write.bytes.length

def Write.store (mem : Nat → UInt8) (write : Write) (a : Nat) : UInt8 :=
  if write.addr ≤ a ∧ a < write.stop then write.bytes.getD (a - write.addr) 0 else mem a

/-- The blocks of the two writes have no byte in common. -/
def Apart (left right : Write) : Prop := left.stop ≤ right.addr ∨ right.stop ≤ left.addr

def storeAll (mem : Nat → UInt8) (writes : List Write) : Nat → UInt8 :=
  writes.foldl Write.store mem

@[simp] theorem readBytes_length (mem : Nat → UInt8) (addr length : Nat) :
    (readBytes mem addr length).length = length := by
  rw [readBytes, List.length_map, List.length_range]

theorem readBytes_congr {left right : Nat → UInt8} {addr length : Nat}
    (agree : ∀ a, addr ≤ a → a < addr + length → left a = right a) :
    readBytes left addr length = readBytes right addr length := by
  apply List.map_congr_left
  intro i member
  have := List.mem_range.mp member
  exact agree (addr + i) (by omega) (by omega)

theorem readBytes_add (mem : Nat → UInt8) (addr first second : Nat) :
    readBytes mem addr (first + second) =
      readBytes mem addr first ++ readBytes mem (addr + first) second := by
  rw [readBytes, readBytes, readBytes, List.range_add, List.map_append, List.map_map]
  congr 1
  apply List.map_congr_left
  intro i _
  simp only [Function.comp_apply, Nat.add_assoc]

theorem readBytes_store (mem : Nat → UInt8) (write : Write) :
    readBytes (write.store mem) write.addr write.bytes.length = write.bytes := by
  apply List.ext_getElem
  · rw [readBytes_length]
  · intro i inRead inBytes
    simp only [readBytes, List.getElem_map, List.getElem_range]
    have inside : write.addr ≤ write.addr + i ∧ write.addr + i < write.stop := by
      rw [Write.stop]
      omega
    rw [Write.store, if_pos inside, Nat.add_sub_cancel_left, List.getD_eq_getElem?_getD,
      List.getElem?_eq_getElem inBytes, Option.getD_some]

theorem storeAll_outside (mem : Nat → UInt8) (writes : List Write) (a : Nat)
    (outside : ∀ write ∈ writes, a < write.addr ∨ write.stop ≤ a) :
    storeAll mem writes a = mem a := by
  induction writes generalizing mem with
  | nil => rfl
  | cons write rest ih =>
    have first := outside write List.mem_cons_self
    have kept : ¬ (write.addr ≤ a ∧ a < write.stop) := by omega
    calc
      storeAll mem (write :: rest) a = storeAll (write.store mem) rest a := rfl
      _ = write.store mem a :=
        ih _ fun other member => outside other (List.mem_cons_of_mem write member)
      _ = mem a := by rw [Write.store, if_neg kept]

theorem storeAll_append (mem : Nat → UInt8) (first second : List Write) :
    storeAll mem (first ++ second) = storeAll (storeAll mem first) second :=
  List.foldl_append

theorem readBytes_storeAll (mem : Nat → UInt8) (before after : List Write) (write : Write)
    (apart : ∀ later ∈ after, Apart write later) :
    readBytes (storeAll mem (before ++ write :: after)) write.addr write.bytes.length =
      write.bytes := by
  rw [storeAll_append]
  have last : readBytes (storeAll (storeAll mem before) (write :: after)) write.addr
      write.bytes.length = readBytes (write.store (storeAll mem before)) write.addr
      write.bytes.length := by
    apply readBytes_congr
    intro a low high
    change storeAll (write.store (storeAll mem before)) after a = _
    apply storeAll_outside
    intro later member
    rcases apart later member with below | above
    · rw [Write.stop] at below
      omega
    · omega
  rw [last, readBytes_store]

end NgxFormal.Lib
