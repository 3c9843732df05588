import NgxFormal.Basic
import NgxFormal.Lib.Fields
import NgxFormal.Lib.Window

/-! `ngx_vslprintf` with all directives but the floating point one. -/

namespace NgxFormal.Core.Printf

open NgxFormal.Lib.Window

def NGX_INT64_LEN : Nat := 20
def NGX_INT_T_LEN : UInt64 := 20
def NGX_ATOMIC_T_LEN : UInt64 := 20
def NGX_PTR_SIZE : UInt64 := 8
def NGX_MAX_UINT32_VALUE : UInt64 := 0xffffffff

/-- An argument: a word, of which a narrow type takes the low bits; the string behind a pointer to
an `ngx_str_t` or `ngx_variable_value_t`; or the memory behind a pointer to characters. -/
inductive Arg where
  | word (w : UInt64)
  | str (data : List UInt8)
  | chars (p : Nat → UInt8)

structure Directive where
  zero : UInt8
  width : UInt64
  sign : Bool
  hex : Nat
  maxWidth : Bool
  fracWidth : UInt64
  slen : UInt64

/-- `while (*fmt >= '0' && *fmt <= '9')` -/
def readWidth (width : UInt64) : List UInt8 → UInt64 × List UInt8
  | [] => (width, [])
  | ch :: fmt =>
    if isDigit ch then readWidth (width * 10 + UInt64.ofNat ch.toNat - 48) fmt
    else (width, ch :: fmt)

/-- `for ( ;; )` with its `switch`. -/
def readFlags (d : Directive) : List UInt8 → List Arg → Option (Directive × List UInt8 × List Arg)
  | [], args => some (d, [], args)
  | ch :: fmt, args =>
    if ch = chr 'u' then readFlags { d with sign := false } fmt args
    else if ch = chr 'm' then readFlags { d with maxWidth := true } fmt args
    else if ch = chr 'X' then readFlags { d with hex := 2, sign := false } fmt args
    else if ch = chr 'x' then readFlags { d with hex := 1, sign := false } fmt args
    else if ch = chr '.' then
      let (fracWidth, fmt) := readWidth d.fracWidth fmt
      some ({ d with fracWidth }, fmt, args)
    else if ch = chr '*' then
      match args with
      | .word slen :: args => readFlags { d with slen } fmt args
      | _ => none
    else some (d, ch :: fmt, args)

/-- What stands behind `%`, up to the letter of the directive. -/
def readDirective (fmt : List UInt8) (args : List Arg) :
    Option (Directive × List UInt8 × List Arg) :=
  let zero := if peek fmt = chr '0' then chr '0' else chr ' '
  let (width, fmt) := readWidth 0 fmt
  readFlags ⟨zero, width, true, 0, false, 0, -1⟩ fmt args

/-- One of the `do` loops of `ngx_sprintf_num`; `p` grows downwards. -/
def digitLoop (base : Nat) (glyph : Nat → UInt8) : Nat → Nat → List UInt8 → List UInt8
  | 0, ui64, p => glyph (ui64 % base) :: p
  | turns + 1, ui64, p =>
    let p := glyph (ui64 % base) :: p
    if ui64 / base = 0 then p else digitLoop base glyph turns (ui64 / base) p

def hexGlyph (n : Nat) : UInt8 := ("0123456789abcdef".toList.map chr).getD n 0

def upperGlyph (n : Nat) : UInt8 := ("0123456789ABCDEF".toList.map chr).getD n 0

/-- What the loops leave in `temp`. -/
def digits (ui64 : UInt64) (hexadecimal : Nat) : List UInt8 :=
  if hexadecimal = 0 then
    if ui64 ≤ NGX_MAX_UINT32_VALUE then
      digitLoop 10 (fun n => UInt8.ofNat (n + 48)) NGX_INT64_LEN ui64.toUInt32.toNat []
    else digitLoop 10 (fun n => UInt8.ofNat (n + 48)) NGX_INT64_LEN ui64.toNat []
  else if hexadecimal = 1 then digitLoop 16 hexGlyph NGX_INT64_LEN ui64.toNat []
  else digitLoop 16 upperGlyph NGX_INT64_LEN ui64.toNat []

/-- `while (len++ < width && buf < last)` -/
def pad (zero : UInt8) (room : Nat) : Nat → List UInt8 → List UInt8
  | 0, out => out
  | n + 1, out => if out.length < room then pad zero room n (out ++ [zero]) else out

def ngxSprintfNum (room : Nat) (out : List UInt8) (ui64 : UInt64) (zero : UInt8)
    (hexadecimal : Nat) (width : UInt64) : List UInt8 :=
  let p := digits ui64 hexadecimal
  let out := pad zero room (width.toNat - p.length) out
  let len := if out.length + p.length > room then room - out.length else p.length
  out ++ p.take len

/-- What the second `switch` leaves of an integer argument. -/
structure Number where
  sign : Bool
  i64 : Int64
  ui64 : UInt64
  zero : UInt8
  hex : Nat
  width : UInt64

/-- An argument of 64 bits, signed or not by the flag. -/
def Directive.wide (d : Directive) (w : UInt64) : Number :=
  if d.sign then ⟨true, w.toInt64, 0, d.zero, d.hex, d.width⟩
  else ⟨false, 0, w, d.zero, d.hex, d.width⟩

/-- An argument of 32 bits. -/
def Directive.narrow (d : Directive) (w : UInt64) : Number :=
  if d.sign then ⟨true, w.toUInt32.toInt32.toInt64, 0, d.zero, d.hex, d.width⟩
  else ⟨false, 0, w.toUInt32.toUInt64, d.zero, d.hex, d.width⟩

/-- The integer directives; `none` for the other letters. -/
def Directive.number (d : Directive) (conv : UInt8) (w : UInt64) : Option Number :=
  if conv = chr 'O' then some (Directive.wide { d with sign := true } w)
  else if conv = chr 'P' then some (Directive.narrow { d with sign := true } w)
  else if conv = chr 'T' then some (Directive.wide { d with sign := true } w)
  else if conv = chr 'M' then
    if w.toInt64 = -1 then some ⟨true, -1, 0, d.zero, d.hex, d.width⟩
    else some ⟨false, 0, w, d.zero, d.hex, d.width⟩
  else if conv = chr 'z' then some (d.wide w)
  else if conv = chr 'i' then
    some (Directive.wide { d with width := if d.maxWidth then NGX_INT_T_LEN else d.width } w)
  else if conv = chr 'd' then some (d.narrow w)
  else if conv = chr 'l' then some (d.wide w)
  else if conv = chr 'D' then some (d.narrow w)
  else if conv = chr 'L' then some (d.wide w)
  else if conv = chr 'A' then
    some (Directive.wide { d with width := if d.maxWidth then NGX_ATOMIC_T_LEN else d.width } w)
  else if conv = chr 'r' then some (Directive.wide { d with sign := true } w)
  else if conv = chr 'p' then some ⟨false, 0, w, chr '0', 2, NGX_PTR_SIZE * 2⟩
  else none

/-- The sign, which is written unchecked, and the digits. -/
def Number.write (number : Number) (room : Nat) (out : List UInt8) : List UInt8 :=
  if number.sign then
    if number.i64 < 0 then
      ngxSprintfNum room (out ++ [chr '-']) (0 - number.i64.toUInt64) number.zero number.hex
        number.width
    else ngxSprintfNum room out number.i64.toUInt64 number.zero number.hex number.width
  else ngxSprintfNum room out number.ui64 number.zero number.hex number.width

/-- `while (*p && buf < last)`, for at most `room` bytes. -/
def copyString (p : Nat → UInt8) : Nat → Nat → List UInt8
  | 0, _ => []
  | room + 1, i => if p i = 0 then [] else p i :: copyString p room (i + 1)

/-- The letters of the integer directives. -/
def isNumber (conv : UInt8) : Bool :=
  conv ∈ [chr 'O', chr 'P', chr 'T', chr 'M', chr 'z', chr 'i', chr 'd', chr 'l', chr 'D', chr 'L',
    chr 'A', chr 'r', chr 'p']

/-- The second `switch` on the letter, with what is written behind it. -/
def convert (room : Nat) (out : List UInt8) (d : Directive) (conv : UInt8) (args : List Arg) :
    Option (List UInt8 × List Arg) :=
  if conv = chr 'V' ∨ conv = chr 'v' then
    match args with
    | .str data :: args => some (out ++ data.take (min (room - out.length) data.length), args)
    | _ => none
  else if conv = chr 's' then
    match args with
    | .chars p :: args =>
      if d.slen = -1 then some (out ++ copyString p (room - out.length) 0, args)
      else some (out ++ window p 0 (min (room - out.length) d.slen.toNat), args)
    | _ => none
  else if isNumber conv then
    match args with
    | .word w :: args => (d.number conv w).map fun number => (number.write room out, args)
    | _ => none
  else if conv = chr 'c' then
    match args with
    | .word w :: args => some (out ++ [w.toUInt8], args)
    | _ => none
  else if conv = chr 'Z' then some (out ++ [0], args)
  else if conv = chr 'N' then some (out ++ [LF], args)
  else if conv = chr '%' then some (out ++ [chr '%'], args)
  else if conv = chr 'f' then none
  else some (out ++ [conv], args)

theorem readWidth_length (width : UInt64) (fmt : List UInt8) :
    (readWidth width fmt).2.length ≤ fmt.length := by
  induction fmt generalizing width with
  | nil => exact Nat.le_refl 0
  | cons ch fmt ih =>
    rw [readWidth]
    split
    · exact (ih _).trans (Nat.le_succ _)
    · exact Nat.le_refl _

theorem readFlags_length {d d' : Directive} {fmt fmt' : List UInt8} {args args' : List Arg}
    (read : readFlags d fmt args = some (d', fmt', args')) : fmt'.length ≤ fmt.length := by
  fun_induction readFlags d fmt args with
  | case1 d args =>
    injection read with same
    injection same with _ rest
    injection rest with text
    rw [← text]
  | case2 d fmt args ih => exact (ih read).trans (Nat.le_succ _)
  | case3 d fmt args other ih => exact (ih read).trans (Nat.le_succ _)
  | case4 d fmt args other other' ih => exact (ih read).trans (Nat.le_succ _)
  | case5 d fmt args other other' other'' ih => exact (ih read).trans (Nat.le_succ _)
  | case6 d fmt args fracWidth behind digits =>
    have shorter := readWidth_length d.fracWidth fmt
    rw [digits] at shorter
    injection read with same
    injection same with _ rest
    injection rest with text
    rw [← text]
    exact shorter.trans (Nat.le_succ _)
  | case7 =>
    rename_i ih
    exact (ih read).trans (Nat.le_succ _)
  | case8 => exact absurd read (by simp)
  | case9 d ch fmt args =>
    injection read with same
    injection same with _ rest
    injection rest with text
    rw [← text]

theorem readDirective_length {fmt fmt' : List UInt8} {d : Directive} {args args' : List Arg}
    (read : readDirective fmt args = some (d, fmt', args')) : fmt'.length ≤ fmt.length :=
  (readFlags_length read).trans (readWidth_length 0 fmt)

/-- The loop of `ngx_vslprintf` with `room` bytes from `buf` to `last`, of which `out` are written.
The behaviour is undefined, `none`, where an argument is not what the directive reads, or the
format ends inside of a directive; `%f` is left out. -/
def loop (room : Nat) (out : List UInt8) (fmt : List UInt8) (args : List Arg) :
    Option (List UInt8) :=
  match fmt with
  | [] => some out
  | ch :: fmt =>
    if ch = 0 ∨ room ≤ out.length then some out
    else if ch = chr '%' then
      match _read : readDirective fmt args with
      | none => none
      | some (_, [], _) => none
      | some (d, conv :: fmt, args) =>
        if conv = 0 then none
        else
          match convert room out d conv args with
          | none => none
          | some (out, args) => loop room out fmt args
    else loop room (out ++ [ch]) fmt args
  termination_by fmt.length
  decreasing_by
    · have shorter := readDirective_length _read
      simp only [List.length_cons] at shorter ⊢
      omega
    · exact Nat.lt_succ_self _

def ngxVslprintf (buf last : Nat) (fmt : List UInt8) (args : List Arg) : Option (List UInt8) :=
  loop (last - buf) [] fmt args

/-- `last` is `(void *) -1`. -/
def ngxSprintf (buf : Nat) (fmt : List UInt8) (args : List Arg) : Option (List UInt8) :=
  ngxVslprintf buf (2 ^ 64 - 1) fmt args

def ngxSnprintf (buf max : Nat) (fmt : List UInt8) (args : List Arg) : Option (List UInt8) :=
  ngxVslprintf buf (buf + max) fmt args

end NgxFormal.Core.Printf

/-! Every directive of `ngx_vslprintf` is a clipped writer, and so is its loop. -/

namespace NgxFormal.Core.Printf

open NgxFormal.Lib.Clip NgxFormal.Lib.Window

theorem pad_eq (zero : UInt8) (room n : Nat) (out : List UInt8) :
    pad zero room n out = clip (List.replicate n zero) room out := by
  induction n generalizing out with
  | zero => rw [pad, clip, List.replicate_zero, List.take_nil, List.append_nil]
  | succ n ih =>
    rw [pad, clip]
    split
    · rename_i inside
      have more : room - out.length = room - (out.length + 1) + 1 := by omega
      rw [ih, clip, List.length_append, List.length_singleton, List.append_assoc, more,
        List.replicate_succ, List.take_succ_cons]
      rfl
    · rename_i full
      have none_ : room - out.length = 0 := by omega
      rw [none_, List.take_zero, List.append_nil]

/-- `ngx_sprintf_num` writes the padding and the digits as far as they fit. -/
theorem ngxSprintfNum_eq {room : Nat} {out : List UInt8} (ui64 : UInt64) (zero : UInt8)
    (hexadecimal : Nat) (width : UInt64) :
    ngxSprintfNum room out ui64 zero hexadecimal width =
      clip (digits ui64 hexadecimal) room
        (clip (List.replicate (width.toNat - (digits ui64 hexadecimal).length) zero) room out) := by
  rw [ngxSprintfNum]
  simp only [pad_eq]
  generalize clip (List.replicate _ zero) room out = padded
  rw [clip]
  split
  · rfl
  · rename_i fits
    rw [List.take_of_length_le (Nat.le_refl _), List.take_of_length_le (by omega)]

theorem clipped_num (ui64 : UInt64) (zero : UInt8) (hexadecimal : Nat) (width : UInt64) :
    Clipped fun room out => ngxSprintfNum room out ui64 zero hexadecimal width := by
  simp only [ngxSprintfNum_eq]
  exact (clipped_clip _).comp (clipped_clip _)

theorem clip_byte {room : Nat} {out : List UInt8} (ch : UInt8) (inside : out.length < room) :
    out ++ [ch] = clip [ch] room out := by
  have some_ : 1 ≤ room - out.length := by omega
  rw [clip, List.take_of_length_le some_]

theorem number_clipped (number : Number) :
    ∃ f, Clipped f ∧ ∀ {room out}, out.length < room → number.write room out = f room out := by
  by_cases signed : number.sign = true
  · by_cases negative : number.i64 < 0
    · refine ⟨_, (clipped_clip [chr '-']).comp (clipped_num (0 - number.i64.toUInt64) number.zero
        number.hex number.width), ?_⟩
      intro room out inside
      rw [Number.write, if_pos signed, if_pos negative, clip_byte _ inside]
    · refine ⟨_, clipped_num number.i64.toUInt64 number.zero number.hex number.width, ?_⟩
      intro room out _
      rw [Number.write, if_pos signed, if_neg negative]
  · refine ⟨_, clipped_num number.ui64 number.zero number.hex number.width, ?_⟩
    intro room out _
    rw [Number.write, if_neg signed]

theorem copyString_length (p : Nat → UInt8) (room i : Nat) :
    (copyString p room i).length ≤ room := by
  induction room generalizing i with
  | zero => exact Nat.le_refl 0
  | succ room ih =>
    rw [copyString]
    split
    · exact Nat.zero_le _
    · exact Nat.succ_le_succ (ih _)

theorem copyString_take (p : Nat → UInt8) {less room : Nat} (i : Nat) (le : less ≤ room) :
    (copyString p room i).take less = copyString p less i := by
  induction room generalizing less i with
  | zero =>
    rw [Nat.le_zero.mp le]
    rfl
  | succ room ih =>
    cases less with
    | zero => rfl
    | succ less =>
      rw [copyString, copyString]
      split
      · rfl
      · rw [List.take_succ_cons, ih _ (Nat.le_of_succ_le_succ le)]

theorem copy_str (data : List UInt8) (room : Nat) (out : List UInt8) :
    out ++ data.take (min (room - out.length) data.length) = clip data room out := by
  rw [clip, ← List.take_eq_take_min]

theorem copy_window (p : Nat → UInt8) (slen room : Nat) (out : List UInt8) :
    out ++ window p 0 (min (room - out.length) slen) = clip (window p 0 slen) room out := by
  have inside : 0 + min (room - out.length) slen ≤ slen := by omega
  have length : (window p 0 slen).length = slen := window_length
  rw [clip, List.take_eq_take_min, length, window_take inside, Nat.zero_add]

theorem clipped_string (p : Nat → UInt8) :
    Clipped fun room out => out ++ copyString p (room - out.length) 0 :=
  clipped_stream (fun n => copyString_length p n 0) fun le => copyString_take p 0 le

/-- What a directive does: nothing defined, or a clipped write that takes its arguments. -/
def Defined (d : Directive) (conv : UInt8) (args : List Arg) : Prop :=
  (∀ room out, convert room out d conv args = none) ∨
  ∃ f rest, Clipped f ∧ ∀ {room out}, out.length < room →
    convert room out d conv args = some (f room out, rest)

theorem defined_byte {d : Directive} {conv : UInt8} {args : List Arg} (rest : List Arg) (ch : UInt8)
    (written : ∀ room out, convert room out d conv args = some (out ++ [ch], rest)) :
    Defined d conv args := by
  refine Or.inr ⟨clip [ch], rest, clipped_clip [ch], ?_⟩
  intro room out inside
  rw [written, clip_byte ch inside]

theorem convert_clipped (d : Directive) (conv : UInt8) (args : List Arg) : Defined d conv args := by
  by_cases str : conv = chr 'V' ∨ conv = chr 'v'
  · rcases args with _ | ⟨arg, args⟩
    · exact Or.inl fun room out => by simp only [convert, if_pos str]
    cases arg with
    | str data =>
      refine Or.inr ⟨clip data, args, clipped_clip data, ?_⟩
      intro room out _
      simp only [convert, if_pos str, copy_str]
    | word w => exact Or.inl fun room out => by simp only [convert, if_pos str]
    | chars p => exact Or.inl fun room out => by simp only [convert, if_pos str]
  by_cases s : conv = chr 's'
  · rcases args with _ | ⟨arg, args⟩
    · exact Or.inl fun room out => by simp only [convert, if_neg str, if_pos s]
    cases arg with
    | chars p =>
      by_cases whole : d.slen = -1
      · refine Or.inr ⟨_, args, clipped_string p, ?_⟩
        intro room out _
        simp only [convert, if_neg str, if_pos s, if_pos whole]
      · refine Or.inr ⟨clip (window p 0 d.slen.toNat), args, clipped_clip _, ?_⟩
        intro room out _
        simp only [convert, if_neg str, if_pos s, if_neg whole, copy_window]
    | word w => exact Or.inl fun room out => by simp only [convert, if_neg str, if_pos s]
    | str data => exact Or.inl fun room out => by simp only [convert, if_neg str, if_pos s]
  by_cases integer : isNumber conv = true
  · rcases args with _ | ⟨arg, args⟩
    · exact Or.inl fun room out => by simp only [convert, if_neg str, if_neg s, if_pos integer]
    cases arg with
    | word w =>
      cases known : d.number conv w with
      | none =>
        exact Or.inl fun room out => by
          simp only [convert, if_neg str, if_neg s, if_pos integer, known, Option.map_none]
      | some number =>
        obtain ⟨f, clipped, written⟩ := number_clipped number
        refine Or.inr ⟨f, args, clipped, ?_⟩
        intro room out inside
        simp only [convert, if_neg str, if_neg s, if_pos integer, known, Option.map_some,
          written inside]
    | str data =>
      exact Or.inl fun room out => by simp only [convert, if_neg str, if_neg s, if_pos integer]
    | chars p =>
      exact Or.inl fun room out => by simp only [convert, if_neg str, if_neg s, if_pos integer]
  by_cases c : conv = chr 'c'
  · rcases args with _ | ⟨arg, args⟩
    · exact Or.inl fun room out => by
        simp only [convert, if_neg str, if_neg s, if_neg integer, if_pos c]
    cases arg with
    | word w =>
      apply defined_byte args w.toUInt8
      intro room out
      simp only [convert, if_neg str, if_neg s, if_neg integer, if_pos c]
    | str data =>
      exact Or.inl fun room out => by
        simp only [convert, if_neg str, if_neg s, if_neg integer, if_pos c]
    | chars p =>
      exact Or.inl fun room out => by
        simp only [convert, if_neg str, if_neg s, if_neg integer, if_pos c]
  have rest (room : Nat) (out : List UInt8) : convert room out d conv args =
      if conv = chr 'Z' then some (out ++ [0], args)
      else if conv = chr 'N' then some (out ++ [LF], args)
      else if conv = chr '%' then some (out ++ [chr '%'], args)
      else if conv = chr 'f' then none
      else some (out ++ [conv], args) := by
    simp only [convert, if_neg str, if_neg s, if_neg integer, if_neg c]
  by_cases Z : conv = chr 'Z'
  · exact defined_byte args 0 fun room out => (rest room out).trans (if_pos Z)
  by_cases N : conv = chr 'N'
  · exact defined_byte args LF fun room out => by rw [rest, if_neg Z, if_pos N]
  by_cases percent : conv = chr '%'
  · exact defined_byte args (chr '%') fun room out => by
      rw [rest, if_neg Z, if_neg N, if_pos percent]
  by_cases f : conv = chr 'f'
  · exact Or.inl fun room out => by rw [rest, if_neg Z, if_neg N, if_neg percent, if_pos f]
  · exact defined_byte args conv fun room out => by
      rw [rest, if_neg Z, if_neg N, if_neg percent, if_neg f]

/-! ### The loop -/

theorem loop_full {room : Nat} {out : List UInt8} (fmt : List UInt8) (args : List Arg)
    (full : room ≤ out.length) : loop room out fmt args = some out := by
  cases fmt with
  | nil => rw [loop]
  | cons ch fmt => rw [loop, if_pos (Or.inr full)]

theorem loop_extends {room : Nat} {out result : List UInt8} {fmt : List UInt8} {args : List Arg}
    (run : loop room out fmt args = some result) (fits : out.length ≤ room) :
    out <+: result ∧ result.length ≤ room := by
  fun_induction loop room out fmt args with
  | case1 out args =>
    rw [← Option.some.inj run]
    exact ⟨List.prefix_rfl, fits⟩
  | case2 out args ch fmt stop =>
    rw [← Option.some.inj run]
    exact ⟨List.prefix_rfl, fits⟩
  | case3 => exact absurd run (by simp)
  | case4 => exact absurd run (by simp)
  | case5 => exact absurd run (by simp)
  | case6 => exact absurd run (by simp)
  | case7 out args fmt d conv behind rest read letter out' args' written go ih =>
    have inside : out.length < room := by
      rw [not_or, Nat.not_le] at go
      exact go.2
    rcases convert_clipped d conv rest with undefined | defined
    · rw [undefined] at written
      exact absurd written (by simp)
    · obtain ⟨f, others, clipped, writes⟩ := defined
      rw [writes inside] at written
      obtain ⟨same, _⟩ := Prod.mk.inj (Option.some.inj written)
      rw [← same] at ih run
      obtain ⟨longer, bounded⟩ := ih run (clipped.bounded fits)
      exact ⟨(clipped.extends_ fits).trans longer, bounded⟩
  | case8 out args ch fmt go plain ih =>
    have inside : out.length < room := by
      rw [not_or, Nat.not_le] at go
      exact go.2
    rw [clip_byte ch inside] at ih run
    obtain ⟨longer, bounded⟩ := ih run (clip_length _ fits)
    exact ⟨(List.prefix_append _ _).trans longer, bounded⟩

theorem loop_directive {room : Nat} {out out' : List UInt8} {fmt behind : List UInt8}
    {args rest args' : List Arg} {d : Directive} {conv : UInt8}
    (go : ¬ (chr '%' = 0 ∨ room ≤ out.length))
    (read : readDirective fmt args = some (d, conv :: behind, rest)) (letter : conv ≠ 0)
    (written : convert room out d conv rest = some (out', args')) :
    loop room out (chr '%' :: fmt) args = loop room out' behind args' := by
  rw [loop, if_neg go, if_pos rfl]
  split
  · rename_i missing
    exact absurd (read.symm.trans missing) (by simp)
  · rename_i ended
    exact absurd (read.symm.trans ended) (by simp)
  · rename_i again
    have same := Option.some.inj (read.symm.trans again)
    injection same with sameLocals others
    injection others with text sameArgs
    injection text with sameLetter sameText
    rw [← sameLocals, ← sameLetter, ← sameText, ← sameArgs, if_neg letter, written]

theorem loop_take_full {less : Nat} {out result : List UInt8} (fmt : List UInt8) (args : List Arg)
    (full : less ≤ out.length) (more : out <+: result) :
    loop less (out.take less) fmt args = some (result.take less) := by
  have ended : less ≤ (out.take less).length := by
    rw [List.length_take]
    omega
  obtain ⟨behind, rest⟩ := more
  rw [loop_full fmt args ended, ← rest, List.take_append_of_le_length full]

theorem loop_take {less room : Nat} {out result : List UInt8} {fmt : List UInt8} {args : List Arg}
    (le : less ≤ room) (run : loop room out fmt args = some result) (fits : out.length ≤ room) :
    loop less (out.take less) fmt args = some (result.take less) := by
  fun_induction loop room out fmt args with
  | case1 out args => rw [← Option.some.inj run, loop]
  | case2 out args ch fmt stop =>
    have stop' : ch = 0 ∨ less ≤ (out.take less).length := by
      refine stop.imp_right fun full => ?_
      rw [List.length_take]
      omega
    rw [← Option.some.inj run, loop, if_pos stop']
  | case3 => exact absurd run (by simp)
  | case4 => exact absurd run (by simp)
  | case5 => exact absurd run (by simp)
  | case6 => exact absurd run (by simp)
  | case7 out args fmt d conv behind rest read letter out' args' written go ih =>
    rw [not_or, Nat.not_le] at go
    rcases convert_clipped d conv rest with undefined | defined
    · rw [undefined] at written
      exact absurd written (by simp)
    obtain ⟨f, others, clipped, writes⟩ := defined
    rw [writes go.2] at written
    obtain ⟨same, sameArgs⟩ := Prod.mk.inj (Option.some.inj written)
    rw [← same, ← sameArgs] at ih run
    have longer := (loop_extends run (clipped.bounded fits)).1
    by_cases full : less ≤ out.length
    · exact loop_take_full _ args full ((clipped.extends_ fits).trans longer)
    · have inside : out.length < less := Nat.not_le.mp full
      have more : ¬ (chr '%' = 0 ∨ less ≤ out.length) := not_or.mpr ⟨go.1, full⟩
      have next := ih run (clipped.bounded fits)
      rw [← clipped.take_room le (Nat.le_of_lt inside)] at next
      rw [List.take_of_length_le (Nat.le_of_lt inside),
        loop_directive more read letter (writes inside)]
      exact next
  | case8 out args ch fmt go plain ih =>
    rw [not_or, Nat.not_le] at go
    rw [clip_byte ch go.2] at ih run
    have longer := (loop_extends run (clip_length _ fits)).1
    by_cases full : less ≤ out.length
    · exact loop_take_full _ args full ((List.prefix_append _ _).trans longer)
    · have inside : out.length < less := Nat.not_le.mp full
      have more : ¬ (ch = 0 ∨ less ≤ out.length) := not_or.mpr ⟨go.1, full⟩
      have next := ih run (clip_length _ fits)
      rw [← clip_take _ le, List.take_of_length_le (Nat.le_of_lt inside)] at next
      rw [List.take_of_length_le (Nat.le_of_lt inside), loop, if_neg more, if_neg plain,
        clip_byte ch inside]
      exact next

end NgxFormal.Core.Printf
