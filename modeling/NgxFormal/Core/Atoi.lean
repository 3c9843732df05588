import NgxFormal.Basic
import NgxFormal.Lib.Fields

/-! `ngx_atoi`, `ngx_atosz`, `ngx_atoof`, `ngx_atotm` and `ngx_hextoi`: the digits are accumulated
in a 64-bit word, and only the sign of the result tells that a number does not fit. -/

namespace NgxFormal.Core.Atoi

open NgxFormal.Lib.Digits

def NGX_ERROR : Int64 := -1

/-- `*line - '0'` of a digit. -/
def decimalDigit (ch : UInt8) : Option Nat := if isDigit ch then some (digitValue ch) else none

/-- A digit of `ngx_hextoi` in either case. -/
def hexDigit (ch : UInt8) : Option Nat :=
  if isDigit ch then some (digitValue ch)
  else
    let c := ch ||| 0x20
    if chr 'a' ≤ c ∧ c ≤ chr 'f' then some (c.toNat - 97 + 10) else none

theorem decimalDigit_lt (ch : UInt8) (d : Nat) (digit : decimalDigit ch = some d) : d < 10 := by
  revert d
  refine byte_table ch ?_
  change ∀ n : Fin 256, ∀ d ∈ decimalDigit (UInt8.ofNat n.val), d < 10
  decide +kernel

theorem hexDigit_lt (ch : UInt8) (d : Nat) (digit : hexDigit ch = some d) : d < 16 := by
  revert d
  refine byte_table ch ?_
  change ∀ n : Fin 256, ∀ d ∈ hexDigit (UInt8.ofNat n.val), d < 16
  decide +kernel

/-- `for (value = 0; n--; line++)` -/
def accumulate (base : Nat) (digit : UInt8 → Option Nat) : Int64 → List UInt8 → Option Int64
  | value, [] => some value
  | value, ch :: line =>
    match digit ch with
    | none => none
    | some d => accumulate base digit (value * Int64.ofNat base + Int64.ofNat d) line

/-- The common body of the five functions. -/
def atoi (base : Nat) (digit : UInt8 → Option Nat) (line : List UInt8) : Int64 :=
  if line.length = 0 then NGX_ERROR
  else
    match accumulate base digit 0 line with
    | none => NGX_ERROR
    | some value => if value < 0 then NGX_ERROR else value

def ngxAtoi (line : List UInt8) : Int64 := atoi 10 decimalDigit line

def ngxAtosz (line : List UInt8) : Int64 := atoi 10 decimalDigit line

def ngxAtoof (line : List UInt8) : Int64 := atoi 10 decimalDigit line

def ngxAtotm (line : List UInt8) : Int64 := atoi 10 decimalDigit line

def ngxHextoi (line : List UInt8) : Int64 := atoi 16 hexDigit line

/-- An answer is right: it is an error or the number that the digits denote, the number if there is
one that fits, and an error if there is one that does not. -/
structure Reads (base : Nat) (digit : UInt8 → Option Nat) (line : List UInt8) (answer : Int64) :
    Prop where
  exact : answer = NGX_ERROR ∨ line ≠ [] ∧ ∃ n, value base digit line = some n ∧ answer.toInt = n
  complete : ∀ n, line ≠ [] → value base digit line = some n → n < 2 ^ 63 → answer.toInt = n
  overflow : ∀ n, value base digit line = some n → 2 ^ 63 ≤ n → answer = NGX_ERROR

/-- The number fits, or the low 64 bits of it are a negative number. -/
def Detected (n : Nat) : Prop := n < 2 ^ 63 ∨ 2 ^ 63 ≤ n % 2 ^ 64

/-- The accumulator is the value of the digits modulo 2 ^ 64. -/
theorem accumulate_eq (base : Nat) (digit : UInt8 → Option Nat) (n : Nat) (line : List UInt8) :
    accumulate base digit (Int64.ofNat n) line =
      (valueFrom base digit n line).map Int64.ofNat := by
  induction line generalizing n with
  | nil => rfl
  | cons ch line ih =>
    rw [accumulate, valueFrom]
    cases digit ch with
    | none => rfl
    | some d =>
      simp only
      rw [← Int64.ofNat_mul, ← Int64.ofNat_add, ih]

theorem toInt_ofNat (n : Nat) :
    (Int64.ofNat n).toInt =
      if n % 2 ^ 64 < 2 ^ 63 then (n % 2 ^ 64 : Int) else (n % 2 ^ 64 : Int) - 2 ^ 64 := by
  have size : (Int64.size : Int) = 2 ^ 64 := rfl
  rw [Int64.toInt_ofNat', Int.bmod_def, size]
  split <;> omega

theorem ofNat_neg_iff (n : Nat) : Int64.ofNat n < 0 ↔ 2 ^ 63 ≤ n % 2 ^ 64 := by
  rw [Int64.lt_iff_toInt_lt, toInt_ofNat, Int64.toInt_zero]
  split <;> omega

theorem atoi_bad {base : Nat} {digit : UInt8 → Option Nat} {line : List UInt8}
    (bad : value base digit line = none) : atoi base digit line = NGX_ERROR := by
  have zero : (0 : Int64) = Int64.ofNat 0 := rfl
  rw [value] at bad
  rw [atoi, zero, accumulate_eq, bad]
  split <;> rfl

theorem atoi_value {base : Nat} {digit : UInt8 → Option Nat} {line : List UInt8} {n : Nat}
    (text : line ≠ []) (number : value base digit line = some n) :
    atoi base digit line = if 2 ^ 63 ≤ n % 2 ^ 64 then NGX_ERROR else Int64.ofNat n := by
  have zero : (0 : Int64) = Int64.ofNat 0 := rfl
  have filled : ¬ line.length = 0 := fun empty => text (List.length_eq_zero_iff.mp empty)
  rw [value] at number
  rw [atoi, if_neg filled]
  conv in accumulate _ _ _ _ => rw [zero, accumulate_eq, number]
  simp only [Option.map_some, ofNat_neg_iff]

theorem ofNat_ne_error {n : Nat} (small : n % 2 ^ 64 < 2 ^ 63) : Int64.ofNat n ≠ NGX_ERROR := by
  intro same
  have negative : Int64.ofNat n < 0 := by
    rw [same]
    decide
  have large := (ofNat_neg_iff n).mp negative
  omega

theorem reads_iff (base : Nat) (digit : UInt8 → Option Nat) (line : List UInt8) :
    Reads base digit line (atoi base digit line) ↔
      ∀ n, value base digit line = some n → Detected n := by
  by_cases text : line = []
  · subst text
    have zero : value base digit [] = some 0 := rfl
    constructor
    · intro _ n number
      rw [zero] at number
      rw [← Option.some.inj number]
      exact Or.inl (by decide)
    · intro _
      refine ⟨Or.inl rfl, fun n impossible => absurd rfl impossible, ?_⟩
      intro n _ _
      rfl
  · cases number : value base digit line with
    | none =>
      rw [atoi_bad number]
      constructor
      · intro _ n impossible
        exact absurd impossible (by simp)
      · intro _
        refine ⟨Or.inl rfl, ?_, ?_⟩
        · intro n _ impossible
          rw [number] at impossible
          exact absurd impossible (by simp)
        · intro n _ _
          rfl
    | some n =>
      rw [atoi_value text number]
      constructor
      · intro reads m same
        rw [← Option.some.inj same]
        by_contra missed
        rw [Detected, not_or] at missed
        have large : 2 ^ 63 ≤ n := by omega
        have reported := reads.overflow n number large
        rw [if_neg missed.2] at reported
        exact ofNat_ne_error (by omega) reported
      · intro detected
        rcases detected n rfl with fits | negative
        · have low : ¬ 2 ^ 63 ≤ n % 2 ^ 64 := by omega
          have integer : (Int64.ofNat n).toInt = n := Int64.toInt_ofNat_of_lt fits
          rw [if_neg low]
          refine ⟨Or.inr ⟨text, n, number, integer⟩, ?_, ?_⟩
          · intro m _ same _
            rw [number] at same
            rw [← Option.some.inj same, integer]
          · intro m same large
            rw [number] at same
            have := Option.some.inj same
            omega
        · rw [if_pos negative]
          refine ⟨Or.inl rfl, ?_, fun _ _ _ => rfl⟩
          intro m _ same small
          rw [number] at same
          have := Option.some.inj same
          omega

/-- Each of the five functions reads a string right if and only if the sign of the low 64 bits
detects the overflow, if there is one. -/
theorem atoi_family_iff (line : List UInt8) :
    (Reads 10 decimalDigit line (ngxAtoi line) ↔
      ∀ n, value 10 decimalDigit line = some n → Detected n) ∧
    (Reads 10 decimalDigit line (ngxAtosz line) ↔
      ∀ n, value 10 decimalDigit line = some n → Detected n) ∧
    (Reads 10 decimalDigit line (ngxAtoof line) ↔
      ∀ n, value 10 decimalDigit line = some n → Detected n) ∧
    (Reads 10 decimalDigit line (ngxAtotm line) ↔
      ∀ n, value 10 decimalDigit line = some n → Detected n) ∧
    (Reads 16 hexDigit line (ngxHextoi line) ↔
      ∀ n, value 16 hexDigit line = some n → Detected n) :=
  ⟨reads_iff 10 decimalDigit line, reads_iff 10 decimalDigit line, reads_iff 10 decimalDigit line,
    reads_iff 10 decimalDigit line, reads_iff 16 hexDigit line⟩

/-- A Content-Length of 2 ^ 64 + 1 is read as 1. -/
theorem content_length_wraps :
    ngxAtoof ("18446744073709551617".toList.map chr) = 1 ∧
    ¬ Reads 10 decimalDigit ("18446744073709551617".toList.map chr)
      (ngxAtoof ("18446744073709551617".toList.map chr)) := by
  have one : ngxAtoof ("18446744073709551617".toList.map chr) = 1 := by
    decide +kernel
  refine ⟨one, fun reads => ?_⟩
  have large : value 10 decimalDigit ("18446744073709551617".toList.map chr) =
      some 18446744073709551617 := by
    decide +kernel
  have reported := reads.overflow _ large (by decide)
  rw [one] at reported
  exact absurd reported (by decide)

end NgxFormal.Core.Atoi
