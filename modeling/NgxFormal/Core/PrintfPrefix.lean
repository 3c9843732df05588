import NgxFormal.Core.Atoi
import NgxFormal.Core.Printf

/-! The unsigned directives without flags write the digits of the argument. -/

namespace NgxFormal.Core.Printf

open NgxFormal.Core.Atoi (decimalDigit decimalDigit_lt)
open NgxFormal.Lib NgxFormal.Lib.Clip NgxFormal.Lib.Digits

/-- A text of digits for `n`, no longer than it has to be. -/
structure Spells (base : Nat) (digit : UInt8 → Option Nat) (n : Nat) (text : List UInt8) :
    Prop where
  some_ : text ≠ []
  value : value base digit text = some n
  short : ∀ k, 0 < k → n < base ^ k → text.length ≤ k

variable {base : Nat} {digit : UInt8 → Option Nat} {glyph : Nat → UInt8}

theorem value_empty (base : Nat) (digit : UInt8 → Option Nat) :
    Digits.value base digit [] = some 0 := rfl

theorem spells_glyph (glyphs : ∀ d < base, digit (glyph d) = some d) {n : Nat} (small : n < base) :
    Spells base digit n [glyph (n % base)] := by
  refine ⟨List.cons_ne_nil _ _, ?_, fun k positive _ => positive⟩
  have last := value_concat (value_empty base digit) (glyphs n small)
  rw [Nat.mod_eq_of_lt small]
  rwa [List.nil_append, Nat.zero_mul, Nat.zero_add] at last

theorem digitLoop_spells (glyphs : ∀ d < base, digit (glyph d) = some d) {turns n : Nat}
    (p : List UInt8) (fits : n < base ^ (turns + 1)) :
    ∃ text, digitLoop base glyph turns n p = text ++ p ∧ Spells base digit n text := by
  induction turns generalizing n p with
  | zero =>
    rw [Nat.zero_add, Nat.pow_one] at fits
    exact ⟨[glyph (n % base)], rfl, spells_glyph glyphs fits⟩
  | succ turns ih =>
    have positive : 0 < base := by
      by_contra zero
      rw [Nat.eq_zero_of_not_pos zero, Nat.zero_pow (Nat.succ_pos _)] at fits
      exact absurd fits (Nat.not_lt_zero n)
    rw [digitLoop]
    by_cases last : n / base = 0
    · have small : n < base := (Nat.div_eq_zero_iff_lt positive).mp last
      rw [if_pos last]
      exact ⟨[glyph (n % base)], rfl, spells_glyph glyphs small⟩
    · have fewer : n / base < base ^ (turns + 1) := by
        apply Nat.div_lt_of_lt_mul
        rwa [Nat.mul_comm, ← Nat.pow_succ]
      obtain ⟨text, written, spells⟩ := ih (glyph (n % base) :: p) fewer
      rw [if_neg last, written]
      refine ⟨text ++ [glyph (n % base)], by simp, by simp, ?_, ?_⟩
      · rw [value_concat spells.value (glyphs _ (Nat.mod_lt n positive)), Nat.div_add_mod']
      · intro k some_ bound
        rw [List.length_append, List.length_singleton]
        have more : k - 1 + 1 = k := Nat.sub_add_cancel some_
        have shorter : n / base < base ^ (k - 1) := by
          apply Nat.div_lt_of_lt_mul
          rwa [Nat.mul_comm, ← Nat.pow_succ, Nat.succ_eq_add_one, more]
        have digitsLeft : 0 < k - 1 := by
          by_contra none_
          rw [Nat.eq_zero_of_not_pos none_, Nat.pow_zero] at shorter
          exact last (Nat.lt_one_iff.mp shorter)
        have length := spells.short (k - 1) digitsLeft shorter
        omega

theorem hexGlyph_digit : ∀ d < 16, Atoi.hexDigit (hexGlyph d) = some d := by decide

theorem decimalGlyph_digit : ∀ d < 10, decimalDigit (UInt8.ofNat (d + 48)) = some d := by decide

theorem digits_hex (ui64 : UInt64) : Spells 16 Atoi.hexDigit ui64.toNat (digits ui64 1) := by
  have fits : ui64.toNat < 16 ^ (NGX_INT64_LEN + 1) := ui64.toNat_lt.trans (by decide)
  obtain ⟨text, written, spells⟩ := digitLoop_spells hexGlyph_digit [] fits
  rw [List.append_nil] at written
  rw [digits, if_neg (by decide), if_pos rfl, written]
  exact spells

/-- Where a number fits into 32 bits, the decimal digits are computed in a `uint32_t`. -/
theorem digits_decimal (ui64 : UInt64) : Spells 10 decimalDigit ui64.toNat (digits ui64 0) := by
  have fits : ui64.toNat < 10 ^ (NGX_INT64_LEN + 1) := ui64.toNat_lt.trans (by decide)
  obtain ⟨text, written, spells⟩ := digitLoop_spells decimalGlyph_digit [] fits
  have narrow (small : ui64 ≤ NGX_MAX_UINT32_VALUE) : ui64.toUInt32.toNat = ui64.toNat := by
    have bound : ui64.toNat ≤ 0xffffffff := UInt64.le_iff_toNat_le.mp small
    rw [UInt64.toNat_toUInt32]
    omega
  rw [List.append_nil] at written
  rw [digits, if_pos rfl]
  split
  · rename_i small
    rw [narrow small, written]
    exact spells
  · rw [written]
    exact spells

theorem spells_room {n room : Nat} {number : List UInt8} (spells : Spells 10 decimalDigit n number)
    (some_ : 0 < room) : number.length ≤ room ↔ n < 10 ^ room := by
  constructor
  · intro short
    have below := value_lt decimalDigit_lt spells.value
    exact below.trans_le (Nat.pow_le_pow_right (by decide) short)
  · intro small
    exact spells.short room some_ small

theorem write_digits {room : Nat} {out : List UInt8} (ui64 : UInt64) (zero : UInt8)
    (hexadecimal : Nat) (fits : out.length + (digits ui64 hexadecimal).length ≤ room) :
    Number.write ⟨false, 0, ui64, zero, hexadecimal, 0⟩ room out = out ++ digits ui64 hexadecimal := by
  rw [Number.write, if_neg Bool.false_ne_true, ngxSprintfNum_eq]
  have noPad : (0 : UInt64).toNat - (digits ui64 hexadecimal).length = 0 := Nat.zero_sub _
  have unpadded : clip [] room out = out := by rw [clip, List.take_nil, List.append_nil]
  rw [noPad, List.replicate_zero, unpadded]
  exact congrArg (out ++ ·) (List.take_of_length_le (Nat.le_sub_of_add_le' fits))

/-- The locals of `%u` or `%ux`. -/
def unsigned (hexadecimal : Nat) : Directive := ⟨chr ' ', 0, false, hexadecimal, false, 0, -1⟩

theorem digits_length (ui64 : UInt64) :
    (digits ui64 0).length ≤ 21 ∧ (digits ui64 1).length ≤ 21 :=
  ⟨(digits_decimal ui64).short 21 (by decide) (ui64.toNat_lt.trans (by decide)),
    (digits_hex ui64).short 21 (by decide) (ui64.toNat_lt.trans (by decide))⟩

theorem loop_unsigned {room hexadecimal : Nat} {out letters behind : List UInt8} {conv : UInt8} {w ui64 : UInt64}
    {args : List Arg} (fits : out.length + 21 < room) (short : (digits ui64 hexadecimal).length ≤ 21)
    (read : readDirective letters (.word w :: args) = some (unsigned hexadecimal, conv :: behind, .word w :: args))
    (some_ : conv ≠ 0)
    (written : convert room out (unsigned hexadecimal) conv (.word w :: args) =
      some (Number.write ⟨false, 0, ui64, chr ' ', hexadecimal, 0⟩ room out, args)) :
    loop room out (chr '%' :: letters) (.word w :: args) =
      loop room (out ++ digits ui64 hexadecimal) behind args := by
  have go : ¬ (chr '%' = 0 ∨ room ≤ out.length) := not_or.mpr ⟨by decide, by omega⟩
  rw [write_digits ui64 (chr ' ') hexadecimal (by omega)] at written
  exact loop_directive go read some_ written

/-- `%ud` in a format. -/
theorem loop_ud {room : Nat} {out : List UInt8} (behind : List UInt8) (w : UInt64)
    (args : List Arg) (fits : out.length + 21 < room) :
    loop room out (chr '%' :: chr 'u' :: chr 'd' :: behind) (.word w :: args) =
      loop room (out ++ digits w.toUInt32.toUInt64 0) behind args :=
  loop_unsigned fits (digits_length _).1 rfl (by decide) rfl

/-- `%uxi` in a format. -/
theorem loop_uxi {room : Nat} {out : List UInt8} (behind : List UInt8) (w : UInt64)
    (args : List Arg) (fits : out.length + 21 < room) :
    loop room out (chr '%' :: chr 'u' :: chr 'x' :: chr 'i' :: behind) (.word w :: args) =
      loop room (out ++ digits w 1) behind args :=
  loop_unsigned fits (digits_length w).2 rfl (by decide) rfl

/-- `%ui` in a format. -/
theorem loop_ui {room : Nat} {out : List UInt8} (behind : List UInt8) (w : UInt64)
    (args : List Arg) (fits : out.length + 21 < room) :
    loop room out (chr '%' :: chr 'u' :: chr 'i' :: behind) (.word w :: args) =
      loop room (out ++ digits w 0) behind args :=
  loop_unsigned fits (digits_length w).1 rfl (by decide) rfl

/-- `%Z` in a format. -/
theorem loop_Z {room : Nat} {out : List UInt8} (behind : List UInt8) (args : List Arg)
    (inside : out.length < room) :
    loop room out (chr '%' :: chr 'Z' :: behind) args = loop room (out ++ [0]) behind args := by
  have go : ¬ (chr '%' = 0 ∨ room ≤ out.length) :=
    not_or.mpr ⟨by decide, Nat.not_le.mpr inside⟩
  have read : readDirective (chr 'Z' :: behind) args =
      some (⟨chr ' ', 0, true, 0, false, 0, -1⟩, chr 'Z' :: behind, args) := rfl
  exact loop_directive go read (by decide) rfl

theorem loop_V {room : Nat} {out : List UInt8} (behind data : List UInt8) (args : List Arg)
    (fits : out.length + data.length < room) :
    loop room out (chr '%' :: chr 'V' :: behind) (.str data :: args) =
      loop room (out ++ data) behind args := by
  have go : ¬ (chr '%' = 0 ∨ room ≤ out.length) :=
    not_or.mpr ⟨by decide, by omega⟩
  have read : readDirective (chr 'V' :: behind) (.str data :: args) =
      some (⟨chr ' ', 0, true, 0, false, 0, -1⟩, chr 'V' :: behind, .str data :: args) := rfl
  have written : convert room out ⟨chr ' ', 0, true, 0, false, 0, -1⟩ (chr 'V') (.str data :: args) =
      some (out ++ data, args) := by
    have whole : data.take (min (room - out.length) data.length) = data :=
      List.take_of_length_le (by omega)
    conv => rhs; rw [← whole]
    rfl
  exact loop_directive go read (by decide) written

theorem loop_plain {room : Nat} {out : List UInt8} {ch : UInt8} (behind : List UInt8)
    (args : List Arg) (some_ : ch ≠ 0) (plain : ch ≠ chr '%') (inside : out.length < room) :
    loop room out (ch :: behind) args = loop room (out ++ [ch]) behind args := by
  have go : ¬ (ch = 0 ∨ room ≤ out.length) := not_or.mpr ⟨some_, Nat.not_le.mpr inside⟩
  rw [loop, if_neg go, if_neg plain]

theorem loop_text {room : Nat} (text behind : List UInt8) (args : List Arg)
    (plain : ∀ ch ∈ text, ch ≠ 0 ∧ ch ≠ chr '%') {out : List UInt8}
    (inside : out.length + text.length ≤ room) :
    loop room out (text ++ behind) args = loop room (out ++ text) behind args := by
  induction text generalizing out with
  | nil => rw [List.nil_append, List.append_nil]
  | cons ch text ih =>
    obtain ⟨some_, letter⟩ := plain ch List.mem_cons_self
    rw [List.length_cons] at inside
    have first := loop_plain (text ++ behind) args some_ letter (by omega : out.length < room)
    rw [List.cons_append, first,
      ih (fun c member => plain c (List.mem_cons_of_mem _ member)) (by simp; omega),
      List.append_assoc, List.singleton_append]

theorem loop_end (room : Nat) (out : List UInt8) (args : List Arg) :
    loop room out [] args = some out := by
  rw [loop]

end NgxFormal.Core.Printf

/-! `ngx_snprintf` against `ngx_sprintf`, for the formats that conform to their arguments. -/

namespace NgxFormal.Core.Printf

/-- The arguments behind those that the letter takes, if they are of its kind. -/
def accepts (conv : UInt8) (args : List Arg) : Option (List Arg) :=
  if conv = chr 'V' ∨ conv = chr 'v' then
    match args with
    | .str _ :: args => some args
    | _ => none
  else if conv = chr 's' then
    match args with
    | .chars _ :: args => some args
    | _ => none
  else if isNumber conv ∨ conv = chr 'c' then
    match args with
    | .word _ :: args => some args
    | _ => none
  else if conv = chr 'f' then none
  else some args

/-- Every directive of the format is complete and has its arguments, and none is `%f`. -/
def conforms (fmt : List UInt8) (args : List Arg) : Bool :=
  match fmt with
  | [] => true
  | ch :: fmt =>
    if ch = 0 then true
    else if ch = chr '%' then
      match _read : readDirective fmt args with
      | none => false
      | some (_, [], _) => false
      | some (_, conv :: fmt, args) =>
        if conv = 0 then false
        else
          match accepts conv args with
          | none => false
          | some args => conforms fmt args
    else conforms fmt args
  termination_by fmt.length
  decreasing_by
    · have shorter := readDirective_length _read
      simp only [List.length_cons] at shorter ⊢
      omega
    · exact Nat.lt_succ_self _

theorem exists_ite {p : Prop} [Decidable p] {number rest : Option Number}
    (here : ∃ n, number = some n) (found : p ∨ ∃ n, rest = some n) :
    ∃ n, (if p then number else rest) = some n := by
  by_cases holds : p
  · rwa [if_pos holds]
  · rw [if_neg holds]
    exact found.resolve_left holds

theorem number_isSome (d : Directive) {conv : UInt8} (w : UInt64)
    (integer : isNumber conv = true) : ∃ number, d.number conv w = some number := by
  rw [isNumber, decide_eq_true_iff] at integer
  simp only [List.mem_cons, List.not_mem_nil, or_false] at integer
  have msec (a b : Number) : ∃ n, (if w.toInt64 = -1 then some a else some b) = some n :=
    exists_ite ⟨a, rfl⟩ (Or.inr ⟨b, rfl⟩)
  rw [Directive.number]
  iterate 3 refine exists_ite ⟨_, rfl⟩ (integer.imp_right fun integer => ?_)
  refine exists_ite (msec _ _) (integer.imp_right fun integer => ?_)
  iterate 8 refine exists_ite ⟨_, rfl⟩ (integer.imp_right fun integer => ?_)
  exact exists_ite ⟨_, rfl⟩ (Or.inl integer)

theorem convert_accepts (room : Nat) (out : List UInt8) (d : Directive) (conv : UInt8)
    (args : List Arg) : (convert room out d conv args).map Prod.snd = accepts conv args := by
  unfold convert accepts
  by_cases str : conv = chr 'V' ∨ conv = chr 'v'
  · rw [if_pos str, if_pos str]
    rcases args with _ | ⟨arg, args⟩
    · rfl
    · cases arg <;> rfl
  rw [if_neg str, if_neg str]
  by_cases s : conv = chr 's'
  · rw [if_pos s, if_pos s]
    rcases args with _ | ⟨arg, args⟩
    · rfl
    · cases arg with
      | chars p =>
        simp only
        split <;> rfl
      | word w => rfl
      | str data => rfl
  rw [if_neg s, if_neg s]
  by_cases integer : isNumber conv = true
  · rw [if_pos integer, if_pos (Or.inl integer)]
    rcases args with _ | ⟨arg, args⟩
    · rfl
    · cases arg with
      | word w =>
        obtain ⟨number, known⟩ := number_isSome d w integer
        simp only [known, Option.map_some]
      | chars p => rfl
      | str data => rfl
  rw [if_neg integer]
  by_cases c : conv = chr 'c'
  · rw [if_pos c, if_pos (Or.inr c)]
    rcases args with _ | ⟨arg, args⟩
    · rfl
    · cases arg <;> rfl
  rw [if_neg c, if_neg (not_or.mpr ⟨integer, c⟩)]
  by_cases f : conv = chr 'f'
  · rw [f]
    rfl
  · rw [if_neg f, if_neg f]
    split_ifs <;> rfl

theorem conforms_directive {fmt : List UInt8} {args : List Arg}
    (conforming : conforms (chr '%' :: fmt) args = true) :
    ∃ d conv behind rest others, readDirective fmt args = some (d, conv :: behind, rest) ∧
      conv ≠ 0 ∧ accepts conv rest = some others ∧ conforms behind others = true := by
  have letter : ¬ chr '%' = 0 := by decide
  rw [conforms, if_neg letter, if_pos rfl] at conforming
  split at conforming
  · exact absurd conforming (by simp)
  · exact absurd conforming (by simp)
  · rename_i d conv behind rest read
    by_cases ended : conv = 0
    · rw [if_pos ended] at conforming
      exact absurd conforming (by simp)
    · rw [if_neg ended] at conforming
      cases others : accepts conv rest with
      | none =>
        rw [others] at conforming
        exact absurd conforming (by simp)
      | some args' =>
        rw [others] at conforming
        exact ⟨d, conv, behind, rest, args', read, ended, others, conforming⟩

/-- The run of a format that conforms to its arguments is defined. -/
theorem loop_conforms (room : Nat) (out : List UInt8) {fmt : List UInt8} {args : List Arg}
    (conforming : conforms fmt args = true) : ∃ result, loop room out fmt args = some result := by
  induction length : fmt.length using Nat.strong_induction_on generalizing fmt out args with
  | _ n ih =>
    cases fmt with
    | nil => exact ⟨out, by rw [loop]⟩
    | cons ch fmt =>
      by_cases stop : ch = 0 ∨ room ≤ out.length
      · exact ⟨out, by rw [loop, if_pos stop]⟩
      by_cases percent : ch = chr '%'
      · rw [percent] at conforming stop ⊢
        obtain ⟨d, conv, behind, rest, others, read, letter, accepted, conforming⟩ :=
          conforms_directive conforming
        have written := convert_accepts room out d conv rest
        rw [accepted] at written
        obtain ⟨result, converted, sameArgs⟩ := Option.map_eq_some_iff.mp written
        have shorter := readDirective_length read
        rw [List.length_cons] at length shorter
        rw [loop_directive stop read letter converted, sameArgs]
        exact ih behind.length (by omega) _ conforming rfl
      · rw [conforms, if_neg (not_or.mp stop).1, if_neg percent] at conforming
        rw [List.length_cons] at length
        rw [loop, if_neg stop, if_neg percent]
        exact ih fmt.length (by omega) _ conforming rfl

/-- `ngx_snprintf` writes the first bytes, `max` of them or all, of what `ngx_sprintf` writes for
the same format and arguments, and nothing at or beyond `buf + max`. -/
theorem snprintf_prefix (buf max : Nat) (fits : buf + max < 2 ^ 64) (fmt : List UInt8)
    (args : List Arg) (conforming : conforms fmt args = true) :
    ∃ whole, ngxSprintf buf fmt args = some whole ∧
      ngxSnprintf buf max fmt args = some (whole.take (min max whole.length)) ∧
      (whole.take (min max whole.length)).length = min max whole.length := by
  have room : buf + max - buf = max := Nat.add_sub_cancel_left buf max
  obtain ⟨whole, run⟩ := loop_conforms (2 ^ 64 - 1 - buf) [] conforming
  have le : max ≤ 2 ^ 64 - 1 - buf := by omega
  have taken := loop_take le run (Nat.zero_le _)
  rw [List.take_nil] at taken
  refine ⟨whole, run, ?_, ?_⟩
  · rw [ngxSnprintf, ngxVslprintf, room, ← List.take_eq_take_min]
    exact taken
  · rw [List.length_take]
    omega

/-- `"%05d|%*s%xi"` cut in the number. -/
theorem snprintf_prefix_cut :
    ngxSprintf 0 ("%05d|%*s%xi".toList.map chr)
        [.word (-42), .word 2, .chars (fun _ => chr 'a'), .word 255] =
      some ("-00042|aaff".toList.map chr) ∧
    ngxSnprintf 0 4 ("%05d|%*s%xi".toList.map chr)
        [.word (-42), .word 2, .chars (fun _ => chr 'a'), .word 255] =
      some ("-000".toList.map chr) := by
  have whole : ngxSprintf 0 ("%05d|%*s%xi".toList.map chr)
      [.word (-42), .word 2, .chars (fun _ => chr 'a'), .word 255] =
      some ("-00042|aaff".toList.map chr) := by
    decide +kernel
  obtain ⟨text, run, short, _⟩ := snprintf_prefix 0 4 (by decide) ("%05d|%*s%xi".toList.map chr)
    [.word (-42), .word 2, .chars (fun _ => chr 'a'), .word 255] (by decide +kernel)
  have same := Option.some.inj (run.symm.trans whole)
  rw [same] at short
  exact ⟨whole, short⟩

end NgxFormal.Core.Printf
