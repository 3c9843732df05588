import NgxFormal.Core.Unescape
import Mathlib.Data.List.Count

/-! `ngx_escape_uri` with its tables. -/

namespace NgxFormal.Core

/-- The `NGX_ESCAPE_*` types, in the order of `map[]`. -/
inductive EscapeType where
  | uri
  | args
  | uriComponent
  | html
  | refresh
  | memcached
  | mailAuth
  deriving DecidableEq, Repr

def EscapeType.map : EscapeType → List Nat
  | .uri => [0xffffffff, 0x80000029, 0x00000000, 0x80000000,
      0xffffffff, 0xffffffff, 0xffffffff, 0xffffffff]
  | .args => [0xffffffff, 0x88000869, 0x00000000, 0x80000000,
      0xffffffff, 0xffffffff, 0xffffffff, 0xffffffff]
  | .uriComponent => [0xffffffff, 0xfc009fff, 0x78000001, 0xb8000001,
      0xffffffff, 0xffffffff, 0xffffffff, 0xffffffff]
  | .html => [0xffffffff, 0x000000ad, 0x00000000, 0x80000000,
      0xffffffff, 0xffffffff, 0xffffffff, 0xffffffff]
  | .refresh => [0xffffffff, 0x00000085, 0x00000000, 0x80000000,
      0xffffffff, 0xffffffff, 0xffffffff, 0xffffffff]
  | .memcached => [0xffffffff, 0x00000021, 0, 0, 0, 0, 0, 0]
  | .mailAuth => [0xffffffff, 0x00000021, 0, 0, 0, 0, 0, 0]

/-- `escape[*src >> 5] & (1 << (*src & 0x1f))` -/
def mustEscape (type : EscapeType) (src : UInt8) : Bool :=
  (type.map.getD (src.toNat / 32) 0).testBit (src.toNat % 32)

/-- `hex[n]` -/
def hexDigit (n : Nat) : UInt8 := if n < 10 then UInt8.ofNat (48 + n) else UInt8.ofNat (87 + n)

/-- `ngx_escape_uri(NULL, ...)`: the number of the characters to be escaped. -/
def ngxEscapeCount (type : EscapeType) (src : List UInt8) : Nat :=
  (src.filter (mustEscape type)).length

def ngxEscapeUri (type : EscapeType) : List UInt8 → List UInt8
  | [] => []
  | byte :: src =>
    if mustEscape type byte then
      chr '%' :: hexDigit (byte.toNat / 16) :: hexDigit (byte.toNat % 16) ::
        ngxEscapeUri type src
    else byte :: ngxEscapeUri type src

theorem ngxEscapeUri_length (type : EscapeType) (src : List UInt8) :
    (ngxEscapeUri type src).length = src.length + 2 * ngxEscapeCount type src := by
  induction src with
  | nil => rfl
  | cons byte src ih =>
    rw [ngxEscapeUri, ngxEscapeCount, List.filter_cons]
    split
    · simp only [List.length_cons, ih, ngxEscapeCount]
      omega
    · simp only [List.length_cons, ih, ngxEscapeCount]
      omega

end NgxFormal.Core

/-! `ngx_unescape_uri` gives back what `ngx_escape_uri` wrote. -/

namespace NgxFormal.Core.EscapeRoundTrip

open NgxFormal.Core.Unescape NgxFormal.Lib.Window

theorem hexValue_hexDigit (n : Nat) (small : n < 16) :
    hexValue (hexDigit n) = some (UInt8.ofNat n) := by
  revert n
  decide

theorem nibbles (byte : UInt8) :
    UInt8.ofNat (byte.toNat / 16) <<< (4 : UInt8) + UInt8.ofNat (byte.toNat % 16) = byte := by
  refine byte_table byte ?_
  decide +kernel

theorem hexDigit_plain (type : EscapeType) (n : Nat) (small : n < 16) :
    mustEscape type (hexDigit n) = false := by
  revert n
  cases type <;> decide

theorem hexDigit_ne_percent (n : Nat) (small : n < 16) : hexDigit n ≠ chr '%' := by
  revert n
  decide

/-- Every table but `refresh` has the percent sign. -/
theorem percent_escaped {type : EscapeType} (escapes : type ≠ .refresh) :
    mustEscape type (chr '%') = true := by
  cases type with
  | refresh => exact absurd rfl escapes
  | uri => decide
  | args => decide
  | uriComponent => decide
  | html => decide
  | memcached => decide
  | mailAuth => decide

theorem scan_plain {ch : UInt8} (text : List UInt8) (plain : ch ≠ chr '%') :
    scan 0 .nothing (ch :: text) =
      (ch :: (scan 0 .nothing text).1, (scan 0 .nothing text).2 + 1) := by
  have noStop : ¬ (ch = chr '?' ∧ stopsAtQuery 0 = true) := by
    simp [stopsAtQuery]
  rw [scan, scanByte, if_neg noStop, if_neg plain]
  rfl

theorem scan_escape {first second high low : UInt8} (text : List UInt8)
    (firstDigit : hexValue first = some high) (secondDigit : hexValue second = some low) :
    scan 0 .nothing (chr '%' :: first :: second :: text) =
      ((high <<< (4 : UInt8) + low) :: (scan 0 .nothing text).1, (scan 0 .nothing text).2 + 3) := by
  have noStop : ¬ (chr '%' = chr '?' ∧ stopsAtQuery 0 = true) := by
    simp [stopsAtQuery]
  have dropped : keeps 0 second (high <<< (4 : UInt8) + low) = false := by
    simp [keeps]
  rw [scan, scanByte, if_neg noStop, if_pos rfl]
  simp only [Bool.false_eq_true, if_false]
  rw [scan, scanByte, firstDigit]
  simp only [Bool.false_eq_true, if_false]
  rw [scan, scanByte, secondDigit]
  simp [dropped, stopsAtQuery]

theorem scan_escaped {type : EscapeType} (escapes : type ≠ .refresh) (s : List UInt8) :
    scan 0 .nothing (ngxEscapeUri type s) = (s, (ngxEscapeUri type s).length) := by
  induction s with
  | nil => rfl
  | cons byte s ih =>
    rw [ngxEscapeUri]
    by_cases special : mustEscape type byte = true
    · have upper : byte.toNat / 16 < 16 := by
        have bound := byte.toNat_lt
        omega
      have lower : byte.toNat % 16 < 16 := Nat.mod_lt _ (by decide)
      rw [if_pos special, scan_escape _ (hexValue_hexDigit _ upper) (hexValue_hexDigit _ lower),
        ih, nibbles]
      rfl
    · have plain : byte ≠ chr '%' := by
        intro percent
        rw [percent, percent_escaped escapes] at special
        exact special rfl
      rw [if_neg special, scan_plain _ plain, ih]
      rfl

/-- The escape set meets the output only in the percent signs, and there are as many of them as
escapes. -/
theorem ngxEscapeUri_clean {type : EscapeType} (escapes : type ≠ .refresh) (s : List UInt8) :
    (∀ ch ∈ ngxEscapeUri type s, mustEscape type ch = true → ch = chr '%') ∧
    (ngxEscapeUri type s).count (chr '%') = ngxEscapeCount type s := by
  induction s with
  | nil => exact ⟨fun ch member => absurd member List.not_mem_nil, rfl⟩
  | cons byte s ih =>
    rw [ngxEscapeUri, ngxEscapeCount, List.filter_cons]
    by_cases special : mustEscape type byte = true
    · have upper : byte.toNat / 16 < 16 := by
        have bound := byte.toNat_lt
        omega
      have lower : byte.toNat % 16 < 16 := Nat.mod_lt _ (by decide)
      rw [if_pos special, if_pos special]
      constructor
      · intro ch member again
        rcases List.mem_cons.mp member with percent | member
        · exact percent
        rcases List.mem_cons.mp member with digit | member
        · rw [digit, hexDigit_plain type _ upper] at again
          exact absurd again Bool.false_ne_true
        rcases List.mem_cons.mp member with digit | member
        · rw [digit, hexDigit_plain type _ lower] at again
          exact absurd again Bool.false_ne_true
        · exact ih.1 ch member again
      · rw [List.count_cons_self, List.count_cons_of_ne (hexDigit_ne_percent _ upper),
          List.count_cons_of_ne (hexDigit_ne_percent _ lower), ih.2]
        rfl
    · have plain : byte ≠ chr '%' := by
        intro percent
        rw [percent, percent_escaped escapes] at special
        exact special rfl
      rw [if_neg special, if_neg special]
      constructor
      · intro ch member again
        rcases List.mem_cons.mp member with same | member
        · rw [same] at again
          exact absurd again special
        · exact ih.1 ch member again
      · rw [List.count_cons_of_ne plain, ih.2]
        rfl

/-- An escaped string has the length that the counting call announces, holds no byte of the escape
set but the percent signs of its escapes, and is unescaped to the string itself. -/
theorem escape_round_trip (type : EscapeType) (escapes : type ≠ .refresh) (s : List UInt8)
    (mem : Nat → UInt8) (dst src : Nat)
    (text : window mem src (src + (ngxEscapeUri type s).length) = ngxEscapeUri type s)
    (clear : dst ≤ src ∨ src + (ngxEscapeUri type s).length ≤ dst) :
    (ngxEscapeUri type s).length = s.length + 2 * ngxEscapeCount type s ∧
    window (ngxUnescapeUri mem dst src (ngxEscapeUri type s).length 0).mem dst
      (ngxUnescapeUri mem dst src (ngxEscapeUri type s).length 0).d = s ∧
    (ngxUnescapeUri mem dst src (ngxEscapeUri type s).length 0).s =
      src + (ngxEscapeUri type s).length ∧
    (∀ ch ∈ ngxEscapeUri type s, mustEscape type ch = true → ch = chr '%') ∧
    (ngxEscapeUri type s).count (chr '%') = ngxEscapeCount type s := by
  obtain ⟨mem', d, s'⟩ := ngxUnescapeUri_eq mem _ 0 clear
  rw [text, scan_escaped escapes] at mem' d s'
  refine ⟨ngxEscapeUri_length type s, ?_, s', ngxEscapeUri_clean escapes s⟩
  rw [mem', d, window_store]

/-- `"a b%"` as an argument, unescaped in place. -/
theorem escape_round_trip_args :
    ngxEscapeUri .args ("a b%".toList.map chr) = "a%20b%25".toList.map chr ∧
    window (ngxUnescapeUri (fun i => ("a%20b%25".toList.map chr).getD i 0) 0 0 8 0).mem 0
      (ngxUnescapeUri (fun i => ("a%20b%25".toList.map chr).getD i 0) 0 0 8 0).d =
      "a b%".toList.map chr := by
  have written : ngxEscapeUri .args ("a b%".toList.map chr) = "a%20b%25".toList.map chr := by
    decide +kernel
  have trip := escape_round_trip .args (by decide) ("a b%".toList.map chr)
    (fun i => ("a%20b%25".toList.map chr).getD i 0) 0 0 (by decide +kernel) (Or.inl (by decide))
  exact ⟨written, trip.2.1⟩

end NgxFormal.Core.EscapeRoundTrip
