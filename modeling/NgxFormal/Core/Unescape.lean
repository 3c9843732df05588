import NgxFormal.Basic
import NgxFormal.Lib.Window
import Mathlib.Tactic.Ring

/-! `ngx_unescape_uri` on memory. What a turn does depends on the byte it reads and on the escape
that is open, so the loop is the run of a machine over the bytes of the source as long as no byte
is written before it is read. -/

namespace NgxFormal.Core.Unescape

open NgxFormal.Lib.Window

def NGX_UNESCAPE_URI : Nat := 1
def NGX_UNESCAPE_REDIRECT : Nat := 2

inductive State where
  | usual
  | quoted
  | quotedSecond
  deriving DecidableEq, Repr

/-- The locals of `ngx_unescape_uri` and the memory that `d` and `s` point into. -/
structure Locals where
  mem : Nat → UInt8
  d : Nat
  s : Nat
  state : State
  decoded : UInt8

/-- `*d++ = ch` -/
def Locals.put (u : Locals) (ch : UInt8) : Locals :=
  { u with mem := store u.mem u.d [ch], d := u.d + 1 }

/-- `*d++ = '%'; *d++ = *(s - 2); *d++ = *(s - 1);` -/
def Locals.keep (u : Locals) : Locals :=
  let u := u.put (chr '%')
  let u := u.put (u.mem (u.s - 2))
  u.put (u.mem (u.s - 1))

/-- The case `sw_quoted_second`; the flag is `goto done`. -/
def quotedSecond (type : Nat) (u : Locals) (ch : UInt8) : Locals × Bool :=
  let u := { u with state := .usual }
  if isDigit ch then
    let ch := u.decoded <<< (4 : UInt8) + ch - chr '0'
    if type &&& NGX_UNESCAPE_REDIRECT ≠ 0 then
      if chr '%' < ch ∧ ch < 0x7f then (u.put ch, false) else (u.keep, false)
    else (u.put ch, false)
  else
    let c := ch ||| 0x20
    if chr 'a' ≤ c ∧ c ≤ chr 'f' then
      let ch := u.decoded <<< (4 : UInt8) + c - chr 'a' + 10
      if type &&& NGX_UNESCAPE_URI ≠ 0 then
        if ch = chr '?' then (u.put ch, true) else (u.put ch, false)
      else if type &&& NGX_UNESCAPE_REDIRECT ≠ 0 then
        if ch = chr '?' then (u.put ch, true)
        else if chr '%' < ch ∧ ch < 0x7f then (u.put ch, false)
        else (u.keep, false)
      else (u.put ch, false)
    else (u, false)

/-- One turn of `while (size--)`. -/
def turn (type : Nat) (u : Locals) : Locals × Bool :=
  let ch := u.mem u.s
  let u := { u with s := u.s + 1 }
  match u.state with
  | .usual =>
    if ch = chr '?' ∧ type &&& (NGX_UNESCAPE_URI ||| NGX_UNESCAPE_REDIRECT) ≠ 0 then
      (u.put ch, true)
    else if ch = chr '%' then ({ u with state := .quoted }, false)
    else (u.put ch, false)
  | .quoted =>
    if isDigit ch then
      ({ u with decoded := ch - chr '0', state := .quotedSecond }, false)
    else
      let c := ch ||| 0x20
      if chr 'a' ≤ c ∧ c ≤ chr 'f' then
        ({ u with decoded := c - chr 'a' + 10, state := .quotedSecond }, false)
      else (Locals.put { u with state := .usual } ch, false)
  | .quotedSecond => quotedSecond type u ch

def turns (type : Nat) : Nat → Locals → Locals
  | 0, u => u
  | size + 1, u =>
    let (u, done) := turn type u
    if done then u else turns type size u

/-- The final `d` and `s` are what `*dst` and `*src` become. -/
def ngxUnescapeUri (mem : Nat → UInt8) (dst src size type : Nat) : Locals :=
  turns type size ⟨mem, dst, src, .usual, 0⟩

/-! ### The machine over the bytes of the source -/

/-- The value of a hexadecimal digit in either case. -/
def hexValue (ch : UInt8) : Option UInt8 :=
  if isDigit ch then some (ch - chr '0')
  else if chr 'a' ≤ ch ||| 0x20 ∧ ch ||| 0x20 ≤ chr 'f' then some ((ch ||| 0x20) - chr 'a' + 10)
  else none

/-- What has been read of an escape; a first digit is kept with its value. -/
inductive Open where
  | nothing
  | percent
  | digit (first value : UInt8)
  deriving DecidableEq, Repr

/-- The type asks to stop at a question mark. -/
def stopsAtQuery (type : Nat) : Bool :=
  type &&& (NGX_UNESCAPE_URI ||| NGX_UNESCAPE_REDIRECT) ≠ 0

/-- An escape with this second digit and value stays as it is. -/
def keeps (type : Nat) (second value : UInt8) : Bool :=
  type &&& NGX_UNESCAPE_REDIRECT ≠ 0 &&
    (isDigit second || (type &&& NGX_UNESCAPE_URI = 0 && value ≠ chr '?')) &&
    !decide (chr '%' < value ∧ value < 0x7f)

/-- What a byte adds to the output, what is open behind it, and whether the text ends there. -/
def scanByte (type : Nat) : Open → UInt8 → List UInt8 × Open × Bool
  | .nothing, ch =>
    if ch = chr '?' ∧ stopsAtQuery type then ([ch], .nothing, true)
    else if ch = chr '%' then ([], .percent, false)
    else ([ch], .nothing, false)
  | .percent, ch =>
    match hexValue ch with
    | some value => ([], .digit ch value, false)
    | none => ([ch], .nothing, false)
  | .digit first high, ch =>
    match hexValue ch with
    | some low =>
      let value := high <<< (4 : UInt8) + low
      if keeps type ch value then ([chr '%', first, ch], .nothing, false)
      else ([value], .nothing, !isDigit ch && value = chr '?' && stopsAtQuery type)
    | none => ([], .nothing, false)

/-- The output for a text, and how much of it is consumed. -/
def scan (type : Nat) : Open → List UInt8 → List UInt8 × Nat
  | _, [] => ([], 0)
  | o, ch :: text =>
    let (out, o, done) := scanByte type o ch
    if done then (out, 1)
    else
      let (rest, consumed) := scan type o text
      (out ++ rest, consumed + 1)

def Open.pending : Open → Nat
  | .nothing => 0
  | .percent => 1
  | .digit _ _ => 2

def Open.state : Open → State
  | .nothing => .usual
  | .percent => .quoted
  | .digit _ _ => .quotedSecond

theorem keep_eq {u : Locals} (read : 0 < u.s) (clear : u.d + 3 ≤ u.s ∨ u.s ≤ u.d) :
    u.keep = { u with
      mem := store u.mem u.d [chr '%', u.mem (u.s - 2), u.mem (u.s - 1)], d := u.d + 3 } := by
  have first : store u.mem u.d [chr '%'] (u.s - 2) = u.mem (u.s - 2) := by
    apply store_outside
    rw [List.length_singleton]
    omega
  have second : store u.mem u.d [chr '%', u.mem (u.s - 2)] (u.s - 1) = u.mem (u.s - 1) := by
    apply store_outside
    simp only [List.length_cons, List.length_nil]
    omega
  have joined : store (store u.mem u.d [chr '%']) (u.d + 1) [u.mem (u.s - 2)] =
      store u.mem u.d [chr '%', u.mem (u.s - 2)] :=
    store_append
  simp only [Locals.keep, Locals.put, first, joined, second]
  congr 1
  exact store_append

theorem stopsAtQuery_eq (type : Nat) :
    stopsAtQuery type =
      (type &&& NGX_UNESCAPE_URI ≠ 0 || type &&& NGX_UNESCAPE_REDIRECT ≠ 0 : Bool) := by
  rw [stopsAtQuery, Nat.and_or_distrib_left, Bool.eq_iff_iff]
  simp only [decide_not, Nat.or_eq_zero_iff, Bool.not_eq_true', decide_eq_false_iff_not,
    Bool.or_eq_true, not_and_or]

theorem hexValue_eq_some {ch value : UInt8} (digit : hexValue ch = some value) :
    (isDigit ch = true ∧ value = ch - chr '0') ∨
    (isDigit ch = false ∧ (chr 'a' ≤ ch ||| 0x20 ∧ ch ||| 0x20 ≤ chr 'f') ∧
      value = (ch ||| 0x20) - chr 'a' + 10) := by
  rw [hexValue] at digit
  split at digit
  · rename_i decimal
    exact Or.inl ⟨decimal, (Option.some.inj digit).symm⟩
  · rename_i letter
    split at digit
    · rename_i inside
      exact Or.inr ⟨by simpa using letter, inside, (Option.some.inj digit).symm⟩
    · exact absurd digit (by simp)

theorem hexValue_eq_none {ch : UInt8} (unknown : hexValue ch = none) :
    isDigit ch = false ∧ ¬ (chr 'a' ≤ ch ||| 0x20 ∧ ch ||| 0x20 ≤ chr 'f') := by
  rw [hexValue] at unknown
  split at unknown
  · exact absurd unknown (by simp)
  · rename_i noDigit
    split at unknown
    · exact absurd unknown (by simp)
    · rename_i noLetter
      exact ⟨by simpa using noDigit, noLetter⟩

/-- The locals stand where the machine is. -/
structure Follows (u : Locals) (o : Open) : Prop where
  state : u.state = o.state
  digit : ∀ first value, o = .digit first value → u.decoded = value ∧ u.mem (u.s - 1) = first

def Locals.after (u : Locals) (out : List UInt8) (o : Open) (decoded : UInt8) : Locals :=
  ⟨store u.mem u.d out, u.d + out.length, u.s + 1, o.state, decoded⟩

/-- The two branches of `sw_quoted_second` compute the same value and disagree on the question
mark and on what is kept only as `scanByte` does. -/
theorem quotedSecond_eq {type : Nat} {u : Locals} {first high ch : UInt8}
    (decoded : u.decoded = high) (read : 0 < u.s) (clear : u.d + 3 ≤ u.s ∨ u.s ≤ u.d)
    (before : u.mem (u.s - 2) = first) (here : u.mem (u.s - 1) = ch) :
    quotedSecond type u ch =
      ({ u with
          mem := store u.mem u.d (scanByte type (.digit first high) ch).1
          d := u.d + (scanByte type (.digit first high) ch).1.length
          state := .usual }, (scanByte type (.digit first high) ch).2.2) ∧
    (scanByte type (.digit first high) ch).2.1 = .nothing := by
  have kept : Locals.keep { u with state := .usual } = { u with
      mem := store u.mem u.d [chr '%', first, ch], d := u.d + 3, state := .usual } := by
    rw [← before, ← here]
    exact keep_eq read clear
  rw [quotedSecond, scanByte]
  cases known : hexValue ch with
  | none =>
    obtain ⟨noDigit, noLetter⟩ := hexValue_eq_none known
    rw [noDigit, if_neg Bool.false_ne_true, if_neg noLetter]
    simp [store_empty]
  | some low =>
    rcases hexValue_eq_some known with decimal | letter
    · obtain ⟨digit, value⟩ := decimal
      have same : u.decoded <<< (4 : UInt8) + ch - chr '0' = high <<< (4 : UInt8) + low := by
        rw [decoded, value]
        grind
      simp only [digit, if_true, same, kept, keeps]
      by_cases redirect : type &&& NGX_UNESCAPE_REDIRECT = 0
      · simp [redirect, Locals.put]
      · by_cases plain : chr '%' < high <<< (4 : UInt8) + low ∧ high <<< (4 : UInt8) + low < 0x7f
        · simp [redirect, plain, Locals.put]
        · simp only [if_neg plain, decide_eq_false plain]
          simp [redirect]
    · obtain ⟨noDigit, inside, value⟩ := letter
      have same : u.decoded <<< (4 : UInt8) + (ch ||| 0x20) - chr 'a' + 10 =
          high <<< (4 : UInt8) + low := by
        rw [decoded, value]
        grind
      simp only [noDigit, Bool.false_eq_true, if_false, if_pos inside, same, kept, keeps,
        stopsAtQuery_eq]
      by_cases uri : type &&& NGX_UNESCAPE_URI = 0
      · by_cases redirect : type &&& NGX_UNESCAPE_REDIRECT = 0
        · simp [uri, redirect, Locals.put]
        · by_cases query : high <<< (4 : UInt8) + low = chr '?'
          · simp [uri, redirect, query, Locals.put]
          · by_cases plain : chr '%' < high <<< (4 : UInt8) + low ∧
                high <<< (4 : UInt8) + low < 0x7f
            · simp [uri, redirect, query, plain, Locals.put]
            · simp only [if_neg plain, decide_eq_false plain]
              simp [uri, redirect, query]
      · by_cases query : high <<< (4 : UInt8) + low = chr '?'
        · simp [uri, query, Locals.put]
        · simp [uri, query, Locals.put]

theorem scanByte_pending (type : Nat) (o : Open) (ch : UInt8) :
    (scanByte type o ch).1.length + (scanByte type o ch).2.1.pending ≤ o.pending + 1 := by
  cases o with
  | nothing =>
    rw [scanByte]
    split
    · exact Nat.le_refl 1
    · split
      · exact Nat.le_refl 1
      · exact Nat.le_refl 1
  | percent =>
    rw [scanByte]
    cases hexValue ch with
    | none => exact Nat.le_succ 1
    | some value => exact Nat.le_refl 2
  | digit first high =>
    rw [scanByte]
    cases hexValue ch with
    | none => exact Nat.zero_le 3
    | some low =>
      simp only
      split
      · exact Nat.le_refl 3
      · exact Nat.le_add_left 1 2

theorem turn_eq (type : Nat) {u : Locals} {o : Open} (follows : Follows u o)
    (clear : u.d + o.pending ≤ u.s ∨ u.s < u.d) :
    ∃ decoded, turn type u =
        (u.after (scanByte type o (u.mem u.s)).1 (scanByte type o (u.mem u.s)).2.1 decoded,
          (scanByte type o (u.mem u.s)).2.2) ∧
      Follows (u.after (scanByte type o (u.mem u.s)).1 (scanByte type o (u.mem u.s)).2.1 decoded)
        (scanByte type o (u.mem u.s)).2.1 := by
  have closed (out : List UInt8) (decoded : UInt8) :
      Follows (u.after out .nothing decoded) .nothing :=
    ⟨rfl, fun _ _ impossible => absurd impossible (by simp)⟩
  cases o with
  | nothing =>
    have state : u.state = .usual := follows.state
    refine ⟨u.decoded, ?_⟩
    rw [turn, scanByte]
    simp only [state]
    by_cases query : u.mem u.s = chr '?' ∧ stopsAtQuery type = true
    · have asked : u.mem u.s = chr '?' ∧
          type &&& (NGX_UNESCAPE_URI ||| NGX_UNESCAPE_REDIRECT) ≠ 0 := by
        simpa only [stopsAtQuery, decide_eq_true_iff] using query
      rw [if_pos query, if_pos asked]
      exact ⟨by simp [Locals.put, Locals.after, Open.state], closed _ _⟩
    · have notAsked : ¬ (u.mem u.s = chr '?' ∧
          type &&& (NGX_UNESCAPE_URI ||| NGX_UNESCAPE_REDIRECT) ≠ 0) := by
        simpa only [stopsAtQuery, decide_eq_true_iff] using query
      rw [if_neg query, if_neg notAsked]
      by_cases percent : u.mem u.s = chr '%'
      · rw [if_pos percent, if_pos percent]
        refine ⟨by simp [Locals.after, Open.state, store_empty], rfl, ?_⟩
        intro first value impossible
        exact absurd impossible (by simp)
      · rw [if_neg percent, if_neg percent]
        exact ⟨by simp [Locals.put, Locals.after, Open.state], closed _ _⟩
  | percent =>
    have state : u.state = .quoted := follows.state
    rw [turn, scanByte]
    simp only [state]
    cases known : hexValue (u.mem u.s) with
    | none =>
      obtain ⟨noDigit, noLetter⟩ := hexValue_eq_none known
      refine ⟨u.decoded, ?_⟩
      rw [noDigit, if_neg Bool.false_ne_true, if_neg noLetter]
      exact ⟨by simp [Locals.put, Locals.after, Open.state], closed _ _⟩
    | some value =>
      have following : Follows (u.after [] (.digit (u.mem u.s) value) value)
          (.digit (u.mem u.s) value) := by
        refine ⟨rfl, ?_⟩
        intro first other same
        injection same with sameFirst sameValue
        refine ⟨sameValue, ?_⟩
        rw [← sameFirst, Locals.after, store_empty]
        rfl
      refine ⟨value, ?_, following⟩
      rcases hexValue_eq_some known with decimal | letter
      · obtain ⟨digit, rfl⟩ := decimal
        rw [digit, if_pos rfl]
        simp [Locals.after, Open.state, store_empty]
      · obtain ⟨noDigit, inside, rfl⟩ := letter
        rw [noDigit, if_neg Bool.false_ne_true, if_pos inside]
        simp [Locals.after, Open.state, store_empty]
  | digit first high =>
    have state : u.state = .quotedSecond := follows.state
    obtain ⟨decoded, before⟩ := follows.digit first high rfl
    have apart : u.d + 3 ≤ u.s + 1 ∨ u.s + 1 ≤ u.d := clear.imp_left Nat.succ_le_succ
    obtain ⟨result, shut⟩ : quotedSecond type ⟨u.mem, u.d, u.s + 1, .quotedSecond, u.decoded⟩
        (u.mem u.s) = _ ∧ _ :=
      quotedSecond_eq decoded (Nat.succ_pos u.s) apart before rfl
    refine ⟨u.decoded, ?_⟩
    rw [turn]
    simp only [state]
    rw [result, shut]
    exact ⟨by simp [Locals.after, Open.state], closed _ _⟩

theorem turns_eq {type n : Nat} {u : Locals} {o : Open} (follows : Follows u o)
    (clear : u.d + o.pending ≤ u.s ∨ u.s + n ≤ u.d) :
    (turns type n u).mem = store u.mem u.d (scan type o (window u.mem u.s (u.s + n))).1 ∧
    (turns type n u).d = u.d + (scan type o (window u.mem u.s (u.s + n))).1.length ∧
    (turns type n u).s = u.s + (scan type o (window u.mem u.s (u.s + n))).2 := by
  induction n generalizing u o with
  | zero =>
    rw [turns, Nat.add_zero, window_empty (Nat.le_refl u.s), scan, store_empty]
    exact ⟨rfl, rfl, rfl⟩
  | succ n ih =>
    have next : u.d + o.pending ≤ u.s ∨ u.s < u.d := by omega
    obtain ⟨decoded, result, following⟩ := turn_eq type follows next
    have room : u.s < u.s + (n + 1) := by omega
    rw [turns, result, window_cons room, scan]
    simp only
    have short := scanByte_pending type o (u.mem u.s)
    generalize scanByte type o (u.mem u.s) = byte at following short ⊢
    obtain ⟨out, opened, done⟩ := byte
    simp only at following short ⊢
    cases done with
    | true => exact ⟨rfl, rfl, rfl⟩
    | false =>
      have clear' : u.d + out.length + opened.pending ≤ u.s + 1 ∨
          u.s + 1 + n ≤ u.d + out.length := by omega
      obtain ⟨mem, d, s⟩ := ih following clear'
      have unread : window (store u.mem u.d out) (u.s + 1) (u.s + 1 + n) =
          window u.mem (u.s + 1) (u.s + (n + 1)) := by
        have last : u.s + 1 + n = u.s + (n + 1) := by omega
        rw [last]
        apply window_store_outside
        omega
      simp only [Locals.after, unread] at mem d s
      simp only [Bool.false_eq_true, if_false, Locals.after, List.length_append]
      rw [mem, d, s, store_append]
      refine ⟨rfl, ?_, ?_⟩
      · omega
      · omega

theorem scan_length (type : Nat) (o : Open) (text : List UInt8) :
    (scan type o text).1.length ≤ o.pending + (scan type o text).2 := by
  induction text generalizing o with
  | nil => exact Nat.zero_le _
  | cons ch text ih =>
    have short := scanByte_pending type o ch
    rw [scan]
    generalize scanByte type o ch = byte at short ⊢
    obtain ⟨out, opened, done⟩ := byte
    have rest := ih opened
    simp only at short ⊢
    cases done with
    | true =>
      simp only [if_true]
      omega
    | false =>
      simp only [Bool.false_eq_true, if_false, List.length_append]
      omega

theorem scan_consumed (type : Nat) (o : Open) (text : List UInt8) :
    (scan type o text).2 ≤ text.length := by
  induction text generalizing o with
  | nil => exact Nat.le_refl 0
  | cons ch text ih =>
    rw [scan]
    generalize scanByte type o ch = byte
    obtain ⟨out, opened, done⟩ := byte
    have rest := ih opened
    cases done with
    | true => exact Nat.le_add_left 1 text.length
    | false => exact Nat.succ_le_succ rest

/-- The source is read as it was wherever the destination begins, unless it begins inside. -/
theorem ngxUnescapeUri_eq (mem : Nat → UInt8) {dst src : Nat} (size type : Nat)
    (clear : dst ≤ src ∨ src + size ≤ dst) :
    (ngxUnescapeUri mem dst src size type).mem =
      store mem dst (scan type .nothing (window mem src (src + size))).1 ∧
    (ngxUnescapeUri mem dst src size type).d =
      dst + (scan type .nothing (window mem src (src + size))).1.length ∧
    (ngxUnescapeUri mem dst src size type).s =
      src + (scan type .nothing (window mem src (src + size))).2 := by
  have start : Follows ⟨mem, dst, src, .usual, 0⟩ .nothing :=
    ⟨rfl, fun _ _ impossible => absurd impossible (by simp)⟩
  exact turns_eq start clear

/-! ### The text as escapes and other bytes -/

inductive Token where
  /-- A byte outside of an escape. -/
  | plain (ch : UInt8)
  /-- `'%'` with two digits that stand for `value`. -/
  | escape (first second value : UInt8)
  /-- `'%'` without a digit. -/
  | broken (ch : UInt8)
  /-- `'%'` with one digit. -/
  | lost (first ch : UInt8)
  /-- An escape that the end of the text cuts. -/
  | cut (digits : List UInt8)
  deriving DecidableEq, Repr

def Token.text : Token → List UInt8
  | .plain ch => [ch]
  | .escape first second _ => [chr '%', first, second]
  | .broken ch => [chr '%', ch]
  | .lost first ch => [chr '%', first, ch]
  | .cut digits => chr '%' :: digits

/-- The value of an escape is that of its digits, and what is no escape has no second digit. -/
def Token.Valid : Token → Prop
  | .plain ch => ch ≠ chr '%'
  | .escape first second value => ∃ high low, hexValue first = some high ∧
      hexValue second = some low ∧ value = high <<< (4 : UInt8) + low
  | .broken ch => hexValue ch = none
  | .lost first ch => (hexValue first).isSome ∧ hexValue ch = none
  | .cut digits => digits.length ≤ 1 ∧ ∀ digit ∈ digits, (hexValue digit).isSome

/-- What a token becomes: an escape that is kept is copied. -/
def Token.out (type : Nat) : Token → List UInt8
  | .plain ch => [ch]
  | .escape first second value =>
    if keeps type second value then [chr '%', first, second] else [value]
  | .broken ch => [ch]
  | .lost _ _ => []
  | .cut _ => []

/-- The bytes that are read of an open escape. -/
def Open.text : Open → List UInt8
  | .nothing => []
  | .percent => [chr '%']
  | .digit first _ => [chr '%', first]

def Open.Valid : Open → Prop
  | .digit first value => hexValue first = some value
  | _ => True

/-- The consumed bytes are those of the tokens, and the output is what the tokens become. -/
structure Spells (type : Nat) (o : Open) (text out : List UInt8) (consumed : Nat)
    (pieces : List Token) : Prop where
  text : o.text ++ text.take consumed = pieces.flatMap Token.text
  out : out = pieces.flatMap (Token.out type)
  valid : ∀ token ∈ pieces, token.Valid

theorem scanByte_cases (type : Nat) (o : Open) (ch : UInt8) (valid : o.Valid) :
    (∃ opened, scanByte type o ch = ([], opened, false) ∧ opened.Valid ∧
      opened.text = o.text ++ [ch]) ∨
    ∃ token done, scanByte type o ch = (Token.out type token, .nothing, done) ∧ token.Valid ∧
      token.text = o.text ++ [ch] := by
  cases o with
  | nothing =>
    rw [scanByte]
    by_cases query : ch = chr '?' ∧ stopsAtQuery type = true
    · rw [if_pos query]
      refine Or.inr ⟨.plain ch, true, rfl, ?_, rfl⟩
      rw [query.1]
      exact (by decide : chr '?' ≠ chr '%')
    · rw [if_neg query]
      by_cases percent : ch = chr '%'
      · rw [if_pos percent, percent]
        exact Or.inl ⟨.percent, rfl, trivial, rfl⟩
      · rw [if_neg percent]
        exact Or.inr ⟨.plain ch, false, rfl, percent, rfl⟩
  | percent =>
    rw [scanByte]
    cases known : hexValue ch with
    | none => exact Or.inr ⟨.broken ch, false, rfl, known, rfl⟩
    | some value => exact Or.inl ⟨.digit ch value, rfl, known, rfl⟩
  | digit first high =>
    have firstDigit : hexValue first = some high := valid
    rw [scanByte]
    cases known : hexValue ch with
    | none =>
      refine Or.inr ⟨.lost first ch, false, rfl, ⟨?_, known⟩, rfl⟩
      rw [firstDigit]
      rfl
    | some low =>
      have value : Token.Valid (.escape first ch (high <<< (4 : UInt8) + low)) :=
        ⟨high, low, firstDigit, known, rfl⟩
      simp only
      by_cases kept : keeps type ch (high <<< (4 : UInt8) + low) = true
      · rw [if_pos kept]
        exact Or.inr ⟨_, false, by rw [Token.out, if_pos kept], value, rfl⟩
      · rw [if_neg kept]
        exact Or.inr ⟨_, _, by rw [Token.out, if_neg kept], value, rfl⟩

theorem scan_spells (type : Nat) (o : Open) (text : List UInt8) (valid : o.Valid) :
    ∃ pieces, Spells type o text (scan type o text).1 (scan type o text).2 pieces := by
  induction text generalizing o with
  | nil =>
    cases o with
    | nothing => exact ⟨[], rfl, rfl, List.forall_mem_nil _⟩
    | percent =>
      refine ⟨[.cut []], rfl, rfl, ?_⟩
      simp [Token.Valid]
    | digit first high =>
      have firstDigit : hexValue first = some high := valid
      refine ⟨[.cut [first]], rfl, rfl, ?_⟩
      simp [Token.Valid, firstDigit]
  | cons ch text ih =>
    rw [scan]
    rcases scanByte_cases type o ch valid with opens | closes
    · obtain ⟨opened, result, openedValid, openedText⟩ := opens
      obtain ⟨pieces, spells⟩ := ih opened openedValid
      rw [result]
      refine ⟨pieces, ?_, spells.out, spells.valid⟩
      calc
        o.text ++ (ch :: text).take ((scan type opened text).2 + 1) =
            opened.text ++ text.take (scan type opened text).2 := by
          rw [openedText, List.take_succ_cons, List.append_assoc]
          rfl
        _ = pieces.flatMap Token.text := spells.text
    · obtain ⟨token, done, result, tokenValid, tokenText⟩ := closes
      rw [result]
      cases done with
      | true =>
        refine ⟨[token], ?_, ?_, List.forall_mem_singleton.mpr tokenValid⟩
        · rw [List.flatMap_singleton, tokenText]
          rfl
        · rw [List.flatMap_singleton]
          rfl
      | false =>
        obtain ⟨pieces, spells⟩ := ih .nothing trivial
        refine ⟨token :: pieces, ?_, ?_, List.forall_mem_cons.mpr ⟨tokenValid, spells.valid⟩⟩
        · calc
            o.text ++ (ch :: text).take ((scan type .nothing text).2 + 1) =
                token.text ++ (Open.nothing.text ++ text.take (scan type .nothing text).2) := by
              rw [tokenText, List.take_succ_cons, List.append_assoc]
              rfl
            _ = (token :: pieces).flatMap Token.text := by
              rw [spells.text, List.flatMap_cons]
        · rw [List.flatMap_cons, ← spells.out]
          rfl

/-- `ngx_unescape_uri` in place does what it does into another buffer: the same output, the same
lengths, the position of the writes never behind that of the reads, and an output that copies
every escape it keeps. -/
theorem unescape_in_place (mem : Nat → UInt8) (src dst size type : Nat)
    (apart : dst + size ≤ src ∨ src + size ≤ dst) :
    window (ngxUnescapeUri mem src src size type).mem src (ngxUnescapeUri mem src src size type).d =
      window (ngxUnescapeUri mem dst src size type).mem dst
        (ngxUnescapeUri mem dst src size type).d ∧
    (ngxUnescapeUri mem src src size type).d - src =
      (ngxUnescapeUri mem dst src size type).d - dst ∧
    (ngxUnescapeUri mem src src size type).s = (ngxUnescapeUri mem dst src size type).s ∧
    (ngxUnescapeUri mem src src size type).s ≤ src + size ∧
    (∀ k ≤ size, (turns type k ⟨mem, src, src, .usual, 0⟩).d ≤
      (turns type k ⟨mem, src, src, .usual, 0⟩).s) ∧
    ∃ pieces : List Token, (∀ token ∈ pieces, token.Valid) ∧
      window mem src (ngxUnescapeUri mem src src size type).s = pieces.flatMap Token.text ∧
      window (ngxUnescapeUri mem src src size type).mem src
        (ngxUnescapeUri mem src src size type).d = pieces.flatMap (Token.out type) := by
  have clear : dst ≤ src ∨ src + size ≤ dst := by omega
  have consumed := scan_consumed type .nothing (window mem src (src + size))
  rw [window_length, Nat.add_sub_cancel_left] at consumed
  obtain ⟨pieces, spells⟩ := scan_spells type .nothing (window mem src (src + size)) trivial
  obtain ⟨memHere, dHere, sHere⟩ := ngxUnescapeUri_eq mem size type
    (Or.inl (Nat.le_refl src))
  obtain ⟨memThere, dThere, sThere⟩ := ngxUnescapeUri_eq mem size type clear
  rw [memHere, dHere, sHere, memThere, dThere, sThere, window_store, window_store]
  refine ⟨rfl, ?_, rfl, Nat.add_le_add_left consumed src, ?_, pieces, spells.valid, ?_, spells.out⟩
  · omega
  · intro k _
    obtain ⟨_, d, s⟩ := ngxUnescapeUri_eq mem k type (Or.inl (Nat.le_refl src))
    have short := scan_length type .nothing (window mem src (src + k))
    rw [Open.pending, Nat.zero_add] at short
    rw [ngxUnescapeUri] at d s
    omega
  · rw [← spells.text, Open.text, List.nil_append, window_take]
    omega

/-- `"a%20%41"` for a redirect: the space stays escaped. -/
def escaped : Nat → UInt8 := fun i => ("a%20%41".toList.map chr).getD i 0

theorem unescape_in_place_redirect :
    window (ngxUnescapeUri escaped 0 0 7 NGX_UNESCAPE_REDIRECT).mem 0
        (ngxUnescapeUri escaped 0 0 7 NGX_UNESCAPE_REDIRECT).d =
      window (ngxUnescapeUri escaped 8 0 7 NGX_UNESCAPE_REDIRECT).mem 8
        (ngxUnescapeUri escaped 8 0 7 NGX_UNESCAPE_REDIRECT).d ∧
    window (ngxUnescapeUri escaped 8 0 7 NGX_UNESCAPE_REDIRECT).mem 8
        (ngxUnescapeUri escaped 8 0 7 NGX_UNESCAPE_REDIRECT).d = "a%20A".toList.map chr :=
  ⟨(unescape_in_place escaped 0 8 7 NGX_UNESCAPE_REDIRECT (Or.inr (by decide))).1,
    by decide +kernel⟩

end NgxFormal.Core.Unescape
