import NgxFormal.Core.Atoi
import NgxFormal.Core.Escape
import NgxFormal.Http.Memcached

/-! `ngx_http_memcached_process_header`: what is taken for the line of a value. -/

namespace NgxFormal.Http.Memcached

open Core (ngxEscapeUri mustEscape)
open Core.Hash (ngxStrncmp)
open Core.Atoi Lib.Digits

/-- `"VALUE "` -/
def valueWord : List UInt8 := [chr 'V', chr 'A', chr 'L', chr 'U', chr 'E', chr ' ']

/-- `"END\x0d"` -/
def endWord : List UInt8 := [chr 'E', chr 'N', chr 'D', CR]

/-- What the header comes to, the last one with `content_length_n` and the offset of
`u->buffer.pos`. -/
inductive Header where
  | again
  | invalidHeader
  | notFound
  | value (contentLength : Int64) (pos : Nat)
  deriving DecidableEq

/-- `while (*p) { if (*p++ == ' ') goto length; }` -/
def skipFlags : List UInt8 → Option (List UInt8)
  | [] => none
  | c :: p => if c = 0 then none else if c = chr ' ' then some p else skipFlags p

/-- `while (*p && *p++ != CR)`: how far `p` gets. -/
def lengthEnd : List UInt8 → Nat
  | [] => 0
  | c :: p => if c = 0 then 0 else if c = CR then 1 else lengthEnd p + 1

/-- `p - len - 1` of a `size_t`, where `p` is `n` bytes behind `len`. -/
def lengthSize (n : Nat) : Nat := if n = 0 then 2 ^ 64 - 1 else n - 1

/-- The line behind `"VALUE "`; `mem` is the memory from `u->buffer.pos` on. -/
def valueHeader (key mem : List UInt8) : Header :=
  let p := mem.drop valueWord.length
  if ngxStrncmp key.length p key ≠ 0 then .invalidHeader
  else
    let p := p.drop key.length
    if peek p ≠ chr ' ' then .invalidHeader
    else
      match skipFlags p.tail with
      | none => .invalidHeader
      | some len =>
        let contentLength := ngxAtoof (len.take (lengthSize (lengthEnd len)))
        if contentLength = NGX_ERROR then .invalidHeader
        else .value contentLength (mem.length - len.length + lengthEnd len + 1)

/-- `ngx_http_memcached_process_header` with `buffer` between `u->buffer.pos` and `u->buffer.last`,
and `behind` in the memory behind it. -/
def ngxHttpMemcachedProcessHeader (key buffer behind : List UInt8) : Header :=
  match buffer.findIdx? (· == LF) with
  | none => .again
  | some k =>
    let mem := buffer.set k 0 ++ behind
    if ngxStrncmp valueWord.length mem valueWord = 0 then valueHeader key mem
    -- strcmp() compares the NUL behind the word too
    else if ngxStrncmp (endWord.length + 1) mem endWord = 0 then .notFound
    else .invalidHeader

/-- The line of a value, without its LF. -/
def valueLine (key flags tail : List UInt8) : List UInt8 :=
  valueWord ++ key ++ chr ' ' :: flags ++ chr ' ' :: tail

/-- What is taken for the length in the rest of the line: all before the CR, and all but the last
byte where no CR comes before the NUL or the end. -/
def numberText (tail : List UInt8) : List UInt8 := tail.take (lengthEnd tail - 1)

/-- The line is the one of a value, the length and the position are right, and nothing behind the
line matters. -/
structure ReadsValue (key buffer : List UInt8) (contentLength : Int64) (pos : Nat)
    (flags number more : List UInt8) (n : Nat) : Prop where
  text : buffer = valueLine key flags (number ++ [CR]) ++ LF :: more
  first : LF ∉ valueLine key flags (number ++ [CR])
  spaces : chr ' ' ∉ flags
  decimal : number ≠ [] ∧ value 10 decimalDigit number = some n
  exact : contentLength.toInt = n
  behind : pos = (valueLine key flags (number ++ [CR])).length + 1
  unread : ∀ more behind, ngxHttpMemcachedProcessHeader key
    (valueLine key flags (number ++ [CR]) ++ LF :: more) behind = .value contentLength pos

/-- What is taken for the length is no number that passes for one of 63 bits, or it is one and CR is
all that follows it. -/
def CleanLength (tail : List UInt8) : Prop :=
  ∀ n, numberText tail ≠ [] → value 10 decimalDigit (numberText tail) = some n →
    n % 2 ^ 64 < 2 ^ 63 → tail = numberText tail ++ [CR] ∧ n < 2 ^ 63

section Scan

variable {key line flags tail more behind text s p len : List UInt8}

theorem ngxStrncmp_zero_iff (plain : 0 ∉ s) : ngxStrncmp s.length p s = 0 ↔ s <+: p := by
  induction s generalizing p with
  | nil => simp [ngxStrncmp]
  | cons c s ih =>
    rw [List.mem_cons, not_or] at plain
    have first : peek (c :: s) = c := rfl
    rw [List.length_cons, ngxStrncmp, first]
    cases p with
    | nil =>
      have different : peek [] ≠ c := plain.1
      rw [if_pos different]
      have empty : peek [] = 0 := rfl
      have positive : c.toNat ≠ 0 := fun zero => plain.1 (UInt8.toNat_inj.mp zero.symm)
      have none_ : ¬ c :: s <+: [] := by simp
      rw [empty]
      simp only [none_, iff_false]
      have zero : (0 : UInt8).toNat = 0 := rfl
      omega
    | cons b p =>
      have here : peek (b :: p) = b := rfl
      rw [here, List.cons_prefix_cons]
      by_cases same : b = c
      · subst same
        rw [if_neg (not_not.mpr rfl), if_neg (Ne.symm plain.1), List.tail_cons, List.tail_cons,
          ih plain.2]
        simp
      · have apart : b.toNat ≠ c.toNat := fun equal => same (UInt8.toNat_inj.mp equal)
        rw [if_pos same]
        constructor
        · intro zero
          omega
        · intro both
          exact absurd both.1.symm same

theorem prefix_before_nul (plain : 0 ∉ s) : s <+: line ++ 0 :: more ↔ s <+: line := by
  constructor
  · intro start
    rcases List.prefix_or_prefix_of_prefix start (List.prefix_append line (0 :: more)) with inside | past
    · exact inside
    · obtain ⟨over_, rfl⟩ := past
      obtain ⟨rest, whole⟩ := start
      rw [List.append_assoc, List.append_cancel_left_eq] at whole
      cases over_ with
      | nil => simp
      | cons c over_ =>
        rw [List.cons_append, List.cons.injEq] at whole
        exact absurd (by simp [whole.1]) plain
  · intro start
    exact start.trans (List.prefix_append line _)

theorem skipFlags_eq (spaces : chr ' ' ∉ flags) (plain : 0 ∉ flags) :
    skipFlags (flags ++ chr ' ' :: tail) = some tail := by
  induction flags with
  | nil =>
    have space : chr ' ' ≠ 0 := by decide
    rw [List.nil_append, skipFlags, if_neg space, if_pos rfl]
  | cons c flags ih =>
    rw [List.mem_cons, not_or] at spaces plain
    rw [List.cons_append, skipFlags, if_neg (Ne.symm plain.1), if_neg (Ne.symm spaces.1)]
    exact ih spaces.2 plain.2

theorem skipFlags_some (found : skipFlags (text ++ 0 :: more) = some len) :
    ∃ flags tail, text = flags ++ chr ' ' :: tail ∧ chr ' ' ∉ flags ∧ 0 ∉ flags ∧
      len = tail ++ 0 :: more := by
  induction text with
  | nil =>
    rw [List.nil_append, skipFlags, if_pos rfl] at found
    exact absurd found (by simp)
  | cons c text ih =>
    rw [List.cons_append, skipFlags] at found
    by_cases zero : c = 0
    · rw [if_pos zero] at found
      exact absurd found (by simp)
    · rw [if_neg zero] at found
      by_cases space : c = chr ' '
      · rw [if_pos space] at found
        refine ⟨[], text, ?_, by simp, by simp, (Option.some.inj found).symm⟩
        rw [space, List.nil_append]
      · rw [if_neg space] at found
        obtain ⟨flags, tail, rfl, spaces, plain, rest⟩ := ih found
        refine ⟨c :: flags, tail, rfl, ?_, ?_, rest⟩
        · rw [List.mem_cons, not_or]
          exact ⟨Ne.symm space, spaces⟩
        · rw [List.mem_cons, not_or]
          exact ⟨Ne.symm zero, plain⟩

theorem lengthEnd_nul (tail more : List UInt8) : lengthEnd (tail ++ 0 :: more) = lengthEnd tail := by
  induction tail with
  | nil => rfl
  | cons c tail ih =>
    rw [List.cons_append, lengthEnd, lengthEnd, ih]

theorem lengthEnd_le (tail : List UInt8) : lengthEnd tail ≤ tail.length := by
  induction tail with
  | nil => exact Nat.le_refl 0
  | cons c tail ih =>
    rw [lengthEnd, List.length_cons]
    split
    · exact Nat.zero_le _
    · split <;> omega

theorem lengthEnd_digits {number : List UInt8} (plain : 0 ∉ number) (noCr : CR ∉ number) :
    lengthEnd (number ++ CR :: more) = number.length + 1 := by
  induction number with
  | nil => rfl
  | cons c number ih =>
    rw [List.mem_cons, not_or] at plain noCr
    rw [List.cons_append, lengthEnd, if_neg (Ne.symm plain.1), if_neg (Ne.symm noCr.1),
      ih plain.2 noCr.2, List.length_cons]

theorem atoof_numberText (tail more : List UInt8) :
    ngxAtoof ((tail ++ 0 :: more).take (lengthSize (lengthEnd (tail ++ 0 :: more)))) =
      ngxAtoof (numberText tail) := by
  have le := lengthEnd_le tail
  rw [lengthEnd_nul, numberText, lengthSize]
  by_cases none_ : lengthEnd tail = 0
  · have empty : ngxAtoof [] = NGX_ERROR := rfl
    rw [if_pos none_, none_, Nat.zero_sub, List.take_zero, empty]
    have zeroDigit : decimalDigit 0 = none := by decide
    -- the loop of `ngx_atoof` stops at the NUL that is the first byte
    have first : ∃ rest, (tail ++ 0 :: more).take (2 ^ 64 - 1) = 0 :: rest := by
      cases tail with
      | nil => exact ⟨_, rfl⟩
      | cons c tail =>
        rw [lengthEnd] at none_
        by_cases zero : c = 0
        · subst zero
          exact ⟨_, rfl⟩
        · rw [if_neg zero] at none_
          split at none_ <;> omega
    obtain ⟨rest, first⟩ := first
    rw [first]
    apply atoi_bad
    rw [value, valueFrom, zeroDigit]
  · rw [if_neg none_, List.take_append_of_le_length (by omega)]

/-- A key as `ngx_http_memcached_create_request` makes it has neither NUL nor LF. -/
theorem key_plain (src : List UInt8) :
    0 ∉ ngxEscapeUri .memcached src ∧ LF ∉ ngxEscapeUri .memcached src := by
  have plain (byte : UInt8) : mustEscape .memcached byte = false → byte ≠ 0 ∧ byte ≠ LF := by
    refine byte_table byte ?_
    decide +kernel
  have digits : ∀ n < 16, Core.hexDigit n ≠ 0 ∧ Core.hexDigit n ≠ LF := by decide
  induction src with
  | nil => simp [ngxEscapeUri]
  | cons byte src ih =>
    rw [ngxEscapeUri]
    by_cases escaped : mustEscape .memcached byte = true
    · have high := digits (byte.toNat / 16) (by have := byte.toNat_lt; omega)
      have low := digits (byte.toNat % 16) (by omega)
      have percent : chr '%' ≠ 0 ∧ chr '%' ≠ LF := by decide
      rw [if_pos escaped]
      simp only [List.mem_cons, not_or]
      exact ⟨⟨percent.1.symm, high.1.symm, low.1.symm, ih.1⟩,
        ⟨percent.2.symm, high.2.symm, low.2.symm, ih.2⟩⟩
    · have both := plain byte (by simpa using escaped)
      rw [if_neg escaped]
      simp only [List.mem_cons, not_or]
      exact ⟨⟨both.1.symm, ih.1⟩, ⟨both.2.symm, ih.2⟩⟩

end Scan

section Header

variable {key line flags tail more behind : List UInt8} {contentLength : Int64} {pos : Nat}

theorem findIdx_line (first : LF ∉ line) :
    (line ++ LF :: more).findIdx? (· == LF) = some line.length := by
  induction line with
  | nil => rfl
  | cons c line ih =>
    rw [List.mem_cons, not_or] at first
    have other : (c == LF) = false := by simpa using Ne.symm first.1
    rw [List.cons_append, List.findIdx?_cons, other, ih first.2]
    rfl

theorem set_line (line more : List UInt8) :
    (line ++ LF :: more).set line.length 0 = line ++ 0 :: more := by
  rw [List.set_append_right _ _ (Nat.le_refl _), Nat.sub_self, List.set_cons_zero]

theorem processHeader_line (first : LF ∉ line) :
    ngxHttpMemcachedProcessHeader key (line ++ LF :: more) behind =
      if ngxStrncmp valueWord.length (line ++ 0 :: (more ++ behind)) valueWord = 0 then
        valueHeader key (line ++ 0 :: (more ++ behind))
      else if ngxStrncmp (endWord.length + 1) (line ++ 0 :: (more ++ behind)) endWord = 0 then
        .notFound
      else .invalidHeader := by
  rw [ngxHttpMemcachedProcessHeader, findIdx_line first]
  simp only [set_line, List.append_assoc, List.cons_append]

theorem processHeader_value (plain : 0 ∉ key) (spaces : chr ' ' ∉ flags) (noNul : 0 ∉ flags)
    (first : LF ∉ valueLine key flags tail) (more behind : List UInt8) :
    ngxHttpMemcachedProcessHeader key (valueLine key flags tail ++ LF :: more) behind =
      if ngxAtoof (numberText tail) = NGX_ERROR then .invalidHeader
      else .value (ngxAtoof (numberText tail))
        ((valueLine key flags tail).length - tail.length + lengthEnd tail + 1) := by
  have word : 0 ∉ valueWord := by decide
  have starts : valueWord <+: valueLine key flags tail ++ 0 :: (more ++ behind) := by
    simp [valueLine, List.append_assoc]
  have afterWord : (valueLine key flags tail ++ 0 :: (more ++ behind)).drop valueWord.length =
      key ++ chr ' ' :: (flags ++ chr ' ' :: (tail ++ 0 :: (more ++ behind))) := by
    simp [valueLine, List.append_assoc]
  have keyed : key <+: key ++ chr ' ' :: (flags ++ chr ' ' :: (tail ++ 0 :: (more ++ behind))) :=
    List.prefix_append _ _
  rw [processHeader_line first, if_pos ((ngxStrncmp_zero_iff word).mpr starts), valueHeader]
  simp only [afterWord]
  rw [if_neg (not_not.mpr ((ngxStrncmp_zero_iff plain).mpr keyed)), List.drop_left]
  have space : ¬ peek (chr ' ' :: (flags ++ chr ' ' :: (tail ++ 0 :: (more ++ behind)))) ≠ chr ' ' :=
    not_not.mpr rfl
  rw [if_neg space, List.tail_cons, skipFlags_eq spaces noNul]
  simp only [atoof_numberText]
  have offset : (valueLine key flags tail ++ 0 :: (more ++ behind)).length -
      (tail ++ 0 :: (more ++ behind)).length = (valueLine key flags tail).length - tail.length := by
    simp only [List.length_append]
    omega
  rw [offset, lengthEnd_nul]

theorem valueLine_of_value (plain : 0 ∉ key) (first : LF ∉ line)
    (found : ngxHttpMemcachedProcessHeader key (line ++ LF :: more) behind =
      .value contentLength pos) :
    ∃ flags tail, line = valueLine key flags tail ∧ chr ' ' ∉ flags ∧ 0 ∉ flags := by
  have word : 0 ∉ valueWord := by decide
  rw [processHeader_line first] at found
  by_cases starts : ngxStrncmp valueWord.length (line ++ 0 :: (more ++ behind)) valueWord = 0
  · rw [if_pos starts] at found
    obtain ⟨rest, rfl⟩ := (prefix_before_nul word).mp ((ngxStrncmp_zero_iff word).mp starts)
    rw [valueHeader] at found
    simp only [List.append_assoc, List.drop_left] at found
    by_cases keyed : ngxStrncmp key.length (rest ++ 0 :: (more ++ behind)) key = 0
    · obtain ⟨rest, rfl⟩ := (prefix_before_nul plain).mp ((ngxStrncmp_zero_iff plain).mp keyed)
      rw [if_neg (not_not.mpr keyed)] at found
      simp only [List.append_assoc, List.drop_left] at found
      cases rest with
      | nil =>
        have nul : peek ([] ++ 0 :: (more ++ behind)) = 0 := rfl
        have other : peek ([] ++ 0 :: (more ++ behind)) ≠ chr ' ' := by
          rw [nul]
          decide
        rw [if_pos other] at found
        cases found
      | cons c rest =>
        by_cases space : c = chr ' '
        · subst space
          have here : ¬ peek (chr ' ' :: rest ++ 0 :: (more ++ behind)) ≠ chr ' ' := not_not.mpr rfl
          rw [if_neg here, List.cons_append, List.tail_cons] at found
          cases skipped : skipFlags (rest ++ 0 :: (more ++ behind)) with
          | none =>
            rw [skipped] at found
            cases found
          | some len =>
            obtain ⟨flags, tail, rfl, spaces, noNul, _⟩ := skipFlags_some skipped
            refine ⟨flags, tail, ?_, spaces, noNul⟩
            simp [valueLine, List.append_assoc]
        · have other : peek (c :: rest ++ 0 :: (more ++ behind)) ≠ chr ' ' := space
          rw [if_pos other] at found
          cases found
    · rw [if_pos keyed] at found
      cases found
  · rw [if_neg starts] at found
    split at found <;> cases found

theorem cut_unique {sep : UInt8} {first first' rest rest' : List UInt8}
    (same : first ++ sep :: rest = first' ++ sep :: rest') (plain : sep ∉ first)
    (plain' : sep ∉ first') : first = first' ∧ rest = rest' := by
  induction first generalizing first' with
  | nil =>
    cases first' with
    | nil => exact ⟨rfl, (List.cons.inj same).2⟩
    | cons c first' =>
      rw [List.mem_cons, not_or] at plain'
      exact absurd (List.cons.inj same).1 plain'.1
  | cons c first ih =>
    rw [List.mem_cons, not_or] at plain
    cases first' with
    | nil => exact absurd (List.cons.inj same).1.symm plain.1
    | cons c' first' =>
      rw [List.mem_cons, not_or] at plain'
      have both := List.cons.inj same
      have later := ih both.2 plain.2 plain'.2
      exact ⟨by rw [both.1, later.1], later.2⟩

/-- The number is taken for the length if CR is all that follows it. -/
theorem numberText_digits {number : List UInt8} {n : Nat}
    (decimal : value 10 decimalDigit number = some n) :
    lengthEnd (number ++ [CR]) = number.length + 1 ∧ numberText (number ++ [CR]) = number := by
  have digits := value_digits decimal
  have plain : ∀ c, decimalDigit c = none → c ∉ number := by
    intro c none_ member
    obtain ⟨d, digit⟩ := digits c member
    rw [none_] at digit
    cases digit
  have ends := @lengthEnd_digits [] number (plain 0 (by decide)) (plain CR (by decide))
  refine ⟨ends, ?_⟩
  rw [numberText, ends, Nat.add_sub_cancel, List.take_left]

theorem numberText_read (read : ngxAtoof (numberText tail) ≠ NGX_ERROR) :
    ∃ n, numberText tail ≠ [] ∧ value 10 decimalDigit (numberText tail) = some n ∧
      n % 2 ^ 64 < 2 ^ 63 ∧ ngxAtoof (numberText tail) = Int64.ofNat n := by
  have some_ : numberText tail ≠ [] := by
    intro empty
    rw [empty] at read
    exact read rfl
  cases decimal : value 10 decimalDigit (numberText tail) with
  | none => exact absurd (atoi_bad decimal) read
  | some n =>
    have answer := atoi_value some_ decimal
    by_cases negative : 2 ^ 63 ≤ n % 2 ^ 64
    · rw [if_pos negative] at answer
      exact absurd answer read
    · rw [if_neg negative] at answer
      exact ⟨n, some_, rfl, by omega, answer⟩

end Header

/-- What passes for the line of a value is read exactly if and only if what is taken for its length
is no number that passes for one of 63 bits, or is all between the flags and CR LF. The key is as
`ngx_http_memcached_create_request` makes it of any bytes. -/
theorem memcached_header_iff (src buffer behind : List UInt8) :
    (∀ contentLength pos,
      ngxHttpMemcachedProcessHeader (ngxEscapeUri .memcached src) buffer behind =
        .value contentLength pos →
      ∃ flags number more n, ReadsValue (ngxEscapeUri .memcached src) buffer contentLength pos
        flags number more n) ↔
    ∀ flags tail more, buffer = valueLine (ngxEscapeUri .memcached src) flags tail ++ LF :: more →
      LF ∉ valueLine (ngxEscapeUri .memcached src) flags tail → chr ' ' ∉ flags → 0 ∉ flags →
      CleanLength tail := by
  obtain ⟨plain, _⟩ := key_plain src
  generalize ngxEscapeUri .memcached src = key at plain
  constructor
  · intro right flags tail more text first spaces noNul n some_ decimal fits
    have error := ofNat_ne_error fits
    have read : ngxAtoof (numberText tail) = Int64.ofNat n := by
      rw [ngxAtoof, atoi_value some_ decimal, if_neg (by omega)]
    have found := processHeader_value plain spaces noNul first more behind
    rw [read, if_neg error, ← text] at found
    obtain ⟨flags', number, more', n', reads⟩ := right _ _ found
    have lines := (cut_unique (text.symm.trans reads.text) first reads.first).1
    simp only [valueLine, List.append_assoc, List.append_cancel_left_eq, List.cons_append,
      List.cons.injEq, true_and] at lines
    have tails := (cut_unique lines spaces reads.spaces).2
    have taken := (numberText_digits reads.decimal.2).2
    rw [← tails] at taken
    rw [taken] at decimal ⊢
    have number_ : n' = n := Option.some.inj (reads.decimal.2.symm.trans decimal)
    have integer := reads.exact
    rw [toInt_ofNat, if_pos fits, number_] at integer
    exact ⟨tails, by omega⟩
  · intro clean contentLength pos found
    have line : LF ∈ buffer := by
      by_contra none_
      have absent : buffer.findIdx? (· == LF) = none := by
        rw [List.findIdx?_eq_none_iff]
        intro c member
        simpa using fun same : c = LF => none_ (same ▸ member)
      rw [ngxHttpMemcachedProcessHeader, absent] at found
      cases found
    obtain ⟨line, more, rfl, first⟩ := List.eq_append_cons_of_mem line
    obtain ⟨flags, tail, rfl, spaces, noNul⟩ := valueLine_of_value plain first found
    have always := processHeader_value plain spaces noNul first
    rw [always] at found
    by_cases error : ngxAtoof (numberText tail) = NGX_ERROR
    · rw [if_pos error] at found
      cases found
    · obtain ⟨n, some_, decimal, fits, read⟩ := numberText_read error
      obtain ⟨tails, small⟩ := clean flags tail more rfl first spaces noNul n some_ decimal fits
      have ends := (numberText_digits decimal).1
      have inside : tail.length ≤ (valueLine key flags tail).length := by
        simp only [valueLine, List.length_append, List.length_cons]
        omega
      have size := congrArg List.length tails
      rw [List.length_append, List.length_singleton] at size
      rw [← tails] at ends
      have offset : (valueLine key flags tail).length - tail.length + lengthEnd tail + 1 =
          (valueLine key flags tail).length + 1 := by omega
      rw [if_neg error, offset] at found
      obtain ⟨length, place⟩ := Header.value.inj found
      have whole : valueLine key flags (numberText tail ++ [CR]) = valueLine key flags tail := by
        rw [← tails]
      refine ⟨flags, numberText tail, more, n, ?_⟩
      refine ⟨by rw [whole], by rw [whole]; exact first, spaces, ⟨some_, decimal⟩, ?_, ?_, ?_⟩
      · rw [← length, read]
        exact Int64.toInt_ofNat_of_lt small
      · rw [whole, place]
      · intro more' behind'
        rw [whole, always, if_neg error, offset, length, place]

/-- `"VALUE k 0 15"` and LF. -/
def noCrLine : List UInt8 := valueLine [chr 'k'] [chr '0'] [chr '1', chr '5'] ++ [LF]

/-- Without CR the last digit is lost: 15 bytes of data are announced and 1 is read. -/
theorem memcached_header_loses_digit :
    ¬ ∀ (src buffer behind : List UInt8) contentLength pos,
      ngxHttpMemcachedProcessHeader (ngxEscapeUri .memcached src) buffer behind =
        .value contentLength pos →
      ∃ flags number more n, ReadsValue (ngxEscapeUri .memcached src) buffer contentLength pos
        flags number more n := by
  intro all
  obtain ⟨flags, number, more, n, reads⟩ := all [chr 'k'] noCrLine [] 1 13 (by decide)
  have noCr : CR ∉ noCrLine := by decide
  rw [reads.text] at noCr
  exact noCr (by simp [valueLine])

end NgxFormal.Http.Memcached
