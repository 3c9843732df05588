import NgxFormal.Core.Atoi

/-! `ngx_inet_addr`. An `in_addr_t` stands for the number that its bytes spell in the order of the
network, so that `htonl` and `ntohl` are the identity. -/

namespace NgxFormal.Core.Inet

open NgxFormal.Core.Atoi (decimalDigit)
open NgxFormal.Lib.Digits NgxFormal.Lib.Fields

def INADDR_NONE : UInt32 := 0xffffffff

/-- `for (p = text; p < text + len; p++)` and what follows it. -/
def inetLoop (addr : UInt32) (octet : UInt64) (n : Nat) : List UInt8 → UInt32
  | [] =>
    if n ≠ 3 then INADDR_NONE
    else if octet < 256 then (addr <<< 8) + octet.toUInt32
    else INADDR_NONE
  | c :: text =>
    if isDigit c then inetLoop addr (octet * 10 + UInt64.ofNat (digitValue c)) n text
    else if c = chr '.' ∧ octet < 256 then
      inetLoop ((addr <<< 8) + octet.toUInt32) 0 (n + 1) text
    else INADDR_NONE

def ngxInetAddr (text : List UInt8) : UInt32 := inetLoop 0 0 0 text

/-- The octet that the code takes from a field: no digit at all is 0, and the accumulator has 64
bits. -/
def looseOctet (field : List UInt8) : Option Nat :=
  (value 10 decimalDigit field).bind fun n => if n % 2 ^ 64 < 256 then some (n % 2 ^ 64) else none

/-- The octets of a text with three dots. -/
def looseOctets (text : List UInt8) : Option (List Nat) :=
  ((fields (chr '.') text).mapM looseOctet).bind fun octets =>
    if octets.length = 4 then some octets else none

def shiftIn (addr : UInt32) (octet : Nat) : UInt32 := (addr <<< 8) + UInt32.ofNat octet

def address (octets : List Nat) : UInt32 := octets.foldl shiftIn 0

theorem looseOctet_bad {field : List UInt8} {c : UInt8} (member : c ∈ field)
    (bad : isDigit c = false) : looseOctet field = none := by
  have noDigit : decimalDigit c = none := by
    rw [decimalDigit, bad]
    rfl
  rw [looseOctet, value, valueFrom_bad member noDigit]
  rfl

theorem looseOctet_digits {field : List UInt8} {v : Nat}
    (digits : value 10 decimalDigit field = some v) :
    looseOctet field = if UInt64.ofNat v < 256 then some (v % 2 ^ 64) else none := by
  have small : UInt64.ofNat v < 256 ↔ v % 2 ^ 64 < 256 := by
    rw [UInt64.lt_iff_toNat_lt, UInt64.toNat_ofNat']
    rfl
  rw [looseOctet, digits, Option.bind_some]
  simp only [small]

theorem shiftIn_octet (addr : UInt32) (v : Nat) :
    (addr <<< 8) + (UInt64.ofNat v).toUInt32 = shiftIn addr (v % 2 ^ 64) := by
  have octet : (UInt64.ofNat v).toUInt32 = UInt32.ofNat (UInt64.ofNat v).toNat := rfl
  rw [shiftIn, octet, UInt64.toNat_ofNat']

theorem inetLoop_eq {field text : List UInt8} {v n : Nat} (addr : UInt32)
    (digits : value 10 decimalDigit field = some v) :
    inetLoop addr (UInt64.ofNat v) n text =
      (((fieldsFrom (chr '.') field text).mapM looseOctet).bind fun octets =>
        if n + octets.length = 4 then some (octets.foldl shiftIn addr) else none).getD
        INADDR_NONE := by
  induction text generalizing field v n addr with
  | nil =>
    rw [inetLoop, fieldsFrom, List.mapM_cons, looseOctet_digits digits]
    by_cases fits : UInt64.ofNat v < 256
    · rw [if_pos fits, if_pos fits, shiftIn_octet]
      by_cases dots : n = 3
      · simp [dots]
      · have other : ¬ n + 1 = 4 := by omega
        simp [dots, other]
    · rw [if_neg fits, if_neg fits]
      simp
  | cons c text ih =>
    rw [inetLoop, fieldsFrom]
    by_cases digit : isDigit c = true
    · have dot : ¬ c = chr '.' := by
        intro same
        rw [same] at digit
        exact absurd digit (by decide)
      have next : UInt64.ofNat v * 10 + UInt64.ofNat (digitValue c) =
          UInt64.ofNat (v * 10 + digitValue c) := by
        rw [UInt64.ofNat_add, UInt64.ofNat_mul]
        rfl
      rw [if_pos digit, if_neg dot, next]
      exact ih addr (value_concat digits (if_pos digit))
    · rw [if_neg digit]
      by_cases dot : c = chr '.'
      · have zero : (0 : UInt64) = UInt64.ofNat 0 := rfl
        have empty : value 10 decimalDigit [] = some 0 := rfl
        rw [if_pos dot, List.mapM_cons, looseOctet_digits digits]
        by_cases fits : UInt64.ofNat v < 256
        · rw [if_pos ⟨dot, fits⟩, if_pos fits, shiftIn_octet, zero, ih _ empty]
          cases (fieldsFrom (chr '.') [] text).mapM looseOctet with
          | none => rfl
          | some octets => simp [Nat.add_right_comm, Nat.add_assoc]
        · rw [if_neg (fun both => fits both.2), if_neg fits]
          rfl
      · obtain ⟨tail, rest, head⟩ := fieldsFrom_head (chr '.') (field ++ [c]) text
        have bad : looseOctet (field ++ [c] ++ tail) = none :=
          looseOctet_bad (c := c) (by simp) (by simpa using digit)
        rw [if_neg dot, if_neg (fun both => dot both.1), head, List.mapM_cons, bad]
        rfl

/-- `ngx_inet_addr` reads four loose octets, and an address of only ones as an error. -/
theorem ngxInetAddr_eq (text : List UInt8) :
    ngxInetAddr text = ((looseOctets text).map address).getD INADDR_NONE := by
  have zero : (0 : UInt64) = UInt64.ofNat 0 := rfl
  have empty : value 10 decimalDigit [] = some 0 := rfl
  rw [ngxInetAddr, zero, inetLoop_eq 0 empty, looseOctets, fields]
  cases (fieldsFrom (chr '.') [] text).mapM looseOctet with
  | none => rfl
  | some octets =>
    rw [Option.bind_some, Option.bind_some, Nat.zero_add]
    split <;> rfl

theorem looseOctet_small {field : List UInt8} {octet : Nat} (read : looseOctet field = some octet) :
    octet < 256 := by
  rw [looseOctet] at read
  obtain ⟨n, _, small⟩ := Option.bind_eq_some_iff.mp read
  split at small
  · rw [← Option.some.inj small]
    assumption
  · exact absurd small (by simp)

theorem inetLoop_bad {text : List UInt8} {c : UInt8} (member : c ∈ text)
    (letter : isDigit c = false) (noDot : c ≠ chr '.') (addr : UInt32) (octet : UInt64) (n : Nat) :
    inetLoop addr octet n text = INADDR_NONE := by
  induction text generalizing addr octet n with
  | nil => exact absurd member List.not_mem_nil
  | cons first text ih =>
    rw [inetLoop]
    rcases List.mem_cons.mp member with same | later
    · rw [← same, letter, if_neg Bool.false_ne_true, if_neg fun both => noDot both.1]
    · split
      · exact ih later _ _ _
      · split
        · exact ih later _ _ _
        · rfl

theorem shiftIn_toNat {addr : UInt32} {octet : Nat} (room : addr.toNat < 2 ^ 24)
    (small : octet < 256) : (shiftIn addr octet).toNat = addr.toNat * 256 + octet := by
  rw [shiftIn, UInt32.toNat_add, UInt32.toNat_shiftLeft, UInt32.toNat_ofNat']
  have eight : (8 : UInt32).toNat % 32 = 8 := rfl
  rw [eight, Nat.shiftLeft_eq]
  omega

theorem address_toNat {a b c d : Nat} (first : a < 256) (second : b < 256) (third : c < 256)
    (last : d < 256) :
    (address [a, b, c, d]).toNat = (a * 256 + b) * 65536 + (c * 256 + d) := by
  have one : (shiftIn 0 a).toNat = a := by
    rw [shiftIn_toNat (by decide) first]
    exact (congrArg (· + a) (Nat.zero_mul 256)).trans (Nat.zero_add a)
  have two : (shiftIn (shiftIn 0 a) b).toNat = a * 256 + b := by
    rw [shiftIn_toNat (by omega) second, one]
  have three : (shiftIn (shiftIn (shiftIn 0 a) b) c).toNat = (a * 256 + b) * 256 + c := by
    rw [shiftIn_toNat (by omega) third, two]
  simp only [address, List.foldl_cons, List.foldl_nil]
  rw [shiftIn_toNat (by omega) last, three]
  omega

end NgxFormal.Core.Inet
