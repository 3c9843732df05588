import NgxFormal.Http.DateReads

/-! The three layouts of a date, and what `ngx_http_parse_time` reads of them. -/

namespace NgxFormal.Http.ParseTime

open Core.Times Lib.Calendar

/-- The parts of a date. `letters` stand where the name of the month does, and `sep` behind them in
the third layout. -/
structure Parts where
  letters : List UInt8
  sep : UInt8
  day : Nat
  year : Nat
  hour : Nat
  min : Nat
  sec : Nat
  deriving DecidableEq, Repr

/-- `23:50:13` -/
def Parts.time (parts : Parts) : List UInt8 :=
  two parts.hour ++ chr ':' :: (two parts.min ++ chr ':' :: two parts.sec)

/-- The numbers are those of two digits, and the name of the month has three letters. -/
structure Parts.Fits (parts : Parts) : Prop where
  letters : parts.letters.length = 3
  day : parts.day < 100
  hour : parts.hour < 100
  min : parts.min < 100
  sec : parts.sec < 100

/-- The day of the third layout: one or two digits, behind one space or two. -/
def DayText (day : Nat) (text : List UInt8) : Prop :=
  ∃ digits, (text = digits ∨ text = chr ' ' :: digits) ∧
    (digits = two day ∨ day < 10 ∧ digits = [digit day])

/-- A value has a date in one of the three layouts, behind the weekday and its comma or space.
`10 Nov 2002 23:50:13`, `10-Dec-02 23:50:13` and `Dec 10 23:50:13 2002`. -/
inductive Written : List UInt8 → Parts → Prop where
  | rfc822 {weekday rest : List UInt8} {spaces : Nat} {parts : Parts} (fits : parts.Fits)
      (plain : ∀ ch ∈ weekday, ch ≠ chr ',' ∧ ch ≠ chr ' ') (year : parts.year < 10000)
      (sep : parts.sep = chr ' ') :
      Written (weekday ++ chr ',' :: (List.replicate spaces (chr ' ') ++
        (two parts.day ++ chr ' ' :: (parts.letters ++ chr ' ' ::
          (four parts.year ++ chr ' ' :: (parts.time ++ rest)))))) parts
  | rfc850 {weekday rest : List UInt8} {spaces : Nat} {parts : Parts} (fits : parts.Fits)
      (plain : ∀ ch ∈ weekday, ch ≠ chr ',' ∧ ch ≠ chr ' ') (early : 1970 ≤ parts.year)
      (late : parts.year < 2070) (sep : parts.sep = chr ' ') :
      Written (weekday ++ chr ',' :: (List.replicate spaces (chr ' ') ++
        (two parts.day ++ chr '-' :: (parts.letters ++ chr '-' ::
          (two (parts.year % 100) ++ chr ' ' :: (parts.time ++ rest)))))) parts
  | isoc {weekday dayText rest : List UInt8} {spaces : Nat} {parts : Parts} (fits : parts.Fits)
      (plain : ∀ ch ∈ weekday, ch ≠ chr ',' ∧ ch ≠ chr ' ') (letters : peek parts.letters ≠ chr ' ')
      (day : DayText parts.day dayText) (year : parts.year < 10000) :
      Written (weekday ++ chr ' ' :: (List.replicate spaces (chr ' ') ++
        (parts.letters ++ parts.sep :: (dayText ++ chr ' ' ::
          (parts.time ++ chr ' ' :: (four parts.year ++ rest)))))) parts

/-! ### The reader -/

/-- From the space in front of the hour on. -/
def clockParts (fmt : Fmt) (letters : List UInt8) (sep : UInt8) (day year : Nat)
    (p : List UInt8) : Option Parts := do
  let p ← pass (chr ' ') p
  let hour ← twoDigits p
  let p ← pass (chr ':') (p.drop 2)
  let min ← twoDigits p
  let p ← pass (chr ':') (p.drop 2)
  let sec ← twoDigits p
  let year ← if fmt = .isoc then (pass (chr ' ') (p.drop 2)).bind fourDigits else some year
  some ⟨letters, sep, day, year, hour, min, sec⟩

def monthParts (fmt : Fmt) (day : Nat) (p : List UInt8) : Option Parts :=
  let letters := p.take 3
  let p := p.drop 3
  if (fmt = .rfc822 ∧ peek p ≠ chr ' ') ∨ (fmt = .rfc850 ∧ peek p ≠ chr '-') then none
  else
    let sep := if fmt = .isoc then peek p else chr ' '
    (yearOf fmt p.tail).bind fun (year, p) =>
      (if fmt = .isoc then secondDay p else some (day, p)).bind fun (day, p) =>
        clockParts fmt letters sep day year p

def dateParts (value : List UInt8) : Option Parts :=
  let (fmt, p) := scanFmt value
  let p := p.tail.dropWhile fun ch => ch == chr ' '
  if p.length < 18 then none
  else if fmt = .isoc then monthParts fmt 0 p
  else (firstDay p).bind fun (day, fmt, p) => monthParts fmt day p

def Parts.seconds (parts : Parts) : Option Int :=
  (monthOf parts.letters).bind fun month =>
    if inRange parts.day month parts.year parts.hour parts.min parts.sec then
      some (ParseTime.seconds parts.day month parts.year parts.hour parts.min parts.sec)
    else none

theorem monthOf_take (p : List UInt8) : monthOf (p.take 3) = monthOf p := by
  rcases p with _ | ⟨_, _ | ⟨_, _ | ⟨_, _⟩⟩⟩ <;> rfl

theorem clockParts_seconds (fmt : Fmt) (letters : List UInt8) (sep : UInt8) (day year : Nat)
    (p : List UInt8) {month : Nat} (known : monthOf letters = some month) :
    (clockParts fmt letters sep day year p).bind Parts.seconds =
      parseClock fmt day month year p := by
  rw [clockParts, parseClock]
  simp only [Option.bind_eq_bind, Option.bind_assoc]
  apply Option.bind_congr
  intro q _
  apply Option.bind_congr
  intro hour _
  apply Option.bind_congr
  intro r _
  apply Option.bind_congr
  intro min _
  apply Option.bind_congr
  intro s _
  apply Option.bind_congr
  intro sec _
  by_cases isoc : fmt = .isoc
  · simp only [if_pos isoc, Option.bind_assoc, Option.bind_some, Parts.seconds, known]
  · simp only [if_neg isoc, Option.bind_some, Parts.seconds, known]

theorem clockParts_letters {fmt : Fmt} {letters : List UInt8} {sep : UInt8} {day year : Nat}
    {p : List UInt8} {parts : Parts} (read : clockParts fmt letters sep day year p = some parts) :
    parts.letters = letters := by
  simp only [clockParts, Option.bind_eq_bind, Option.bind_eq_some_iff] at read
  obtain ⟨_, _, _, _, _, _, _, _, _, _, _, _, last⟩ := read
  split at last
  · obtain ⟨_, _, same⟩ := Option.bind_eq_some_iff.mp last
    rw [← Option.some.inj same]
  · rw [← Option.some.inj last]

theorem monthParts_letters {fmt : Fmt} {day : Nat} {p : List UInt8} {parts : Parts}
    (read : monthParts fmt day p = some parts) : parts.letters = p.take 3 := by
  rw [monthParts] at read
  simp only at read
  split at read
  · exact absurd read (by simp)
  · obtain ⟨_, _, more⟩ := Option.bind_eq_some_iff.mp read
    obtain ⟨_, _, last⟩ := Option.bind_eq_some_iff.mp more
    exact clockParts_letters last

theorem monthParts_seconds (fmt : Fmt) (day : Nat) (p : List UInt8) :
    (monthParts fmt day p).bind Parts.seconds = parseMonth fmt day p := by
  cases known : monthOf p with
  | none =>
    rw [parseMonth, known]
    cases read : monthParts fmt day p with
    | none => rfl
    | some parts =>
      rw [Option.bind_some, Parts.seconds, monthParts_letters read, monthOf_take, known]
      rfl
  | some month =>
    have letters : monthOf (p.take 3) = some month := (monthOf_take p).trans known
    rw [parseMonth, monthParts, known]
    simp only [Option.bind_eq_bind, Option.bind_some]
    split
    · rfl
    · rw [Option.bind_assoc]
      apply Option.bind_congr
      rintro ⟨year, q⟩ _
      simp only
      by_cases isoc : fmt = .isoc
      · simp only [if_pos isoc]
        rw [Option.bind_assoc]
        apply Option.bind_congr
        rintro ⟨day, r⟩ _
        exact clockParts_seconds fmt _ _ day year r letters
      · simp only [if_neg isoc, Option.bind_some]
        exact clockParts_seconds fmt _ _ day year q letters

theorem parse_parts (value : List UInt8) : parse value = (dateParts value).bind Parts.seconds := by
  rw [parse, dateParts]
  generalize scanFmt value = scanned
  obtain ⟨fmt, p⟩ := scanned
  simp only
  split
  · rfl
  · split
    · exact (monthParts_seconds fmt 0 _).symm
    · rw [Option.bind_assoc]
      apply Option.bind_congr
      rintro ⟨day, fmt, q⟩ _
      exact (monthParts_seconds fmt day q).symm

/-! ### What is written is read -/

section Complete

variable {weekday rest : List UInt8} {fmt : Fmt} {parts : Parts}

theorem scanFmt_comma (plain : ∀ ch ∈ weekday, ch ≠ chr ',' ∧ ch ≠ chr ' ') :
    scanFmt (weekday ++ chr ',' :: rest) = (.no, chr ',' :: rest) := by
  induction weekday with
  | nil => rfl
  | cons ch weekday ih =>
    obtain ⟨first, others⟩ := List.forall_mem_cons.mp plain
    rw [List.cons_append, scanFmt, if_neg first.1, if_neg first.2, ih others]

theorem scanFmt_space (plain : ∀ ch ∈ weekday, ch ≠ chr ',' ∧ ch ≠ chr ' ') :
    scanFmt (weekday ++ chr ' ' :: rest) = (.isoc, chr ' ' :: rest) := by
  induction weekday with
  | nil => rfl
  | cons ch weekday ih =>
    obtain ⟨first, others⟩ := List.forall_mem_cons.mp plain
    rw [List.cons_append, scanFmt, if_neg first.1, if_neg first.2, ih others]

theorem dropSpaces (spaces : Nat) {p : List UInt8} (date : peek p ≠ chr ' ') :
    (List.replicate spaces (chr ' ') ++ p).dropWhile (fun ch => ch == chr ' ') = p := by
  induction spaces with
  | zero =>
    cases p with
    | nil => rfl
    | cons ch p =>
      have other : ¬ (ch == chr ' ') = true := by simpa [peek] using date
      exact List.dropWhile_cons_of_neg other
  | succ spaces ih => rw [List.replicate_succ, List.cons_append, List.dropWhile_cons_of_pos rfl, ih]

theorem two_length (n : Nat) : (two n).length = 2 := rfl

theorem four_length (n : Nat) : (four n).length = 4 := rfl

theorem time_length (parts : Parts) : parts.time.length = 8 := rfl

theorem drop_two (n : Nat) (p : List UInt8) : (two n ++ p).drop 2 = p := rfl

theorem drop_four (n : Nat) (p : List UInt8) : (four n ++ p).drop 4 = p := rfl

theorem pass_cons (ch : UInt8) (p : List UInt8) : pass ch (ch :: p) = some p := if_pos rfl

theorem peek_two {n : Nat} (small : n < 100) (p : List UInt8) : peek (two n ++ p) ≠ chr ' ' := by
  have noSpace : ∀ d < 10, digit d ≠ chr ' ' := by decide
  exact noSpace (n / 10) (by omega)

theorem clockParts_time (fmt : Fmt) (rest : List UInt8) (fits : parts.Fits) (last : fmt = .isoc → ∃ more,
      rest = chr ' ' :: (four parts.year ++ more) ∧ parts.year < 10000) :
    clockParts fmt parts.letters parts.sep parts.day parts.year
      (chr ' ' :: (parts.time ++ rest)) = some parts := by
  have text : parts.time ++ rest = two parts.hour ++ chr ':' :: (two parts.min ++ chr ':' ::
      (two parts.sec ++ rest)) := by simp [Parts.time]
  rw [clockParts, text]
  simp only [pass_cons, drop_two, twoDigits_two fits.hour, twoDigits_two fits.min,
    twoDigits_two fits.sec, Option.bind_eq_bind, Option.bind_some]
  by_cases isoc : fmt = .isoc
  · obtain ⟨more, rfl, year⟩ := last isoc
    rw [if_pos isoc, pass_cons, Option.bind_some, fourDigits_four year]
    rfl
  · rw [if_neg isoc]

theorem dayDigits_two {day : Nat} (small : day < 100) :
    dayDigits (two day ++ chr ' ' :: rest) = some (day, chr ' ' :: rest) := by
  obtain ⟨isTens, tens⟩ := digit_read (show day / 10 < 10 by omega)
  obtain ⟨isOnes, ones⟩ := digit_read (show day % 10 < 10 by omega)
  have noSpace : ∀ d < 10, digit d ≠ chr ' ' := by decide
  have other := noSpace (day % 10) (by omega)
  have number : day / 10 * 10 + day % 10 = day := by omega
  rw [dayDigits]
  simp only [two, List.cons_append, peek, List.headD_cons, List.tail_cons, isTens, if_true, if_neg other,
    isOnes, tens, ones, number]
  rfl

theorem dayDigits_one {day : Nat} (small : day < 10) :
    dayDigits (digit day :: chr ' ' :: rest) = some (day, chr ' ' :: rest) := by
  obtain ⟨isOne, one⟩ := digit_read small
  rw [dayDigits]
  simp only [peek, List.headD_cons, List.tail_cons, isOne, if_true, one]

theorem secondDay_text {day : Nat} {text : List UInt8} (small : day < 100)
    (written : DayText day text) (long : 13 ≤ rest.length) :
    secondDay (text ++ chr ' ' :: rest) = some (day, chr ' ' :: rest) := by
  obtain ⟨digits, spaced, form⟩ := written
  have enough : ¬ (chr ' ' :: rest).length < 14 := by
    rw [List.length_cons]
    omega
  have read : peek (digits ++ chr ' ' :: rest) ≠ chr ' ' ∧
      dayDigits (digits ++ chr ' ' :: rest) = some (day, chr ' ' :: rest) := by
    rcases form with rfl | ⟨one, rfl⟩
    · exact ⟨peek_two small _, dayDigits_two small⟩
    · have noSpace : ∀ d < 10, digit d ≠ chr ' ' := by decide
      exact ⟨noSpace day one, dayDigits_one one⟩
  rw [secondDay_eq]
  rcases spaced with rfl | rfl
  · rw [if_neg read.1, read.2, Option.bind_some]
    exact if_neg enough
  · have front : peek (chr ' ' :: digits ++ chr ' ' :: rest) = chr ' ' := rfl
    rw [if_pos front, List.cons_append, List.tail_cons, read.2, Option.bind_some]
    exact if_neg enough

theorem monthParts_letters_text {ch : UInt8} {day : Nat} (fits : parts.Fits)
    (separated : (fmt = .rfc822 ∧ ch = chr ' ') ∨ (fmt = .rfc850 ∧ ch = chr '-') ∨ fmt = .isoc) :
    monthParts fmt day (parts.letters ++ ch :: rest) =
      (yearOf fmt rest).bind fun (year, p) =>
        (if fmt = .isoc then secondDay p else some (day, p)).bind fun (day, p) =>
          clockParts fmt parts.letters (if fmt = .isoc then ch else chr ' ') day year p := by
  have first : (parts.letters ++ ch :: rest).take 3 = parts.letters := List.take_left' fits.letters
  have behind : (parts.letters ++ ch :: rest).drop 3 = ch :: rest := List.drop_left' fits.letters
  have fine : ¬ ((fmt = .rfc822 ∧ ch ≠ chr ' ') ∨ (fmt = .rfc850 ∧ ch ≠ chr '-')) := by
    rcases separated with ⟨rfl, rfl⟩ | ⟨rfl, rfl⟩ | rfl <;> simp
  rw [monthParts]
  simp only [first, behind, peek, List.headD_cons, List.tail_cons, if_neg fine]

theorem dateParts_comma {spaces : Nat} {p : List UInt8}
    (plain : ∀ ch ∈ weekday, ch ≠ chr ',' ∧ ch ≠ chr ' ') (date : peek p ≠ chr ' ')
    (long : 18 ≤ p.length) :
    dateParts (weekday ++ chr ',' :: (List.replicate spaces (chr ' ') ++ p)) =
      (firstDay p).bind fun (day, fmt, p) => monthParts fmt day p := by
  rw [dateParts, scanFmt_comma plain]
  simp only [List.tail_cons, dropSpaces spaces date, if_neg (Nat.not_lt.mpr long)]
  rfl

theorem dateParts_space {spaces : Nat} {p : List UInt8}
    (plain : ∀ ch ∈ weekday, ch ≠ chr ',' ∧ ch ≠ chr ' ') (date : peek p ≠ chr ' ')
    (long : 18 ≤ p.length) :
    dateParts (weekday ++ chr ' ' :: (List.replicate spaces (chr ' ') ++ p)) =
      monthParts .isoc 0 p := by
  rw [dateParts, scanFmt_space plain]
  simp only [List.tail_cons, dropSpaces spaces date, if_neg (Nat.not_lt.mpr long)]
  rfl

theorem dayText_length {day : Nat} {text : List UInt8} (written : DayText day text) :
    1 ≤ text.length := by
  obtain ⟨digits, spaced, form⟩ := written
  have some_ : 1 ≤ digits.length := by
    rcases form with rfl | ⟨_, rfl⟩
    · exact Nat.le_succ 1
    · exact Nat.le_refl 1
  rcases spaced with rfl | rfl
  · exact some_
  · exact Nat.le_add_left 1 _

theorem written_read {value : List UInt8} (written : Written value parts) :
    dateParts value = some parts := by
  cases written with
  | rfc822 fits plain year sep =>
    rename_i weekday rest spaces
    have long : 17 ≤ (parts.letters ++ chr ' ' :: (four parts.year ++ chr ' ' ::
        (parts.time ++ rest))).length := by
      simp only [List.length_append, List.length_cons, fits.letters, four_length, time_length]
      omega
    have isYear : yearOf .rfc822 (four parts.year ++ chr ' ' :: (parts.time ++ rest)) =
        some (parts.year, chr ' ' :: (parts.time ++ rest)) := by
      rw [yearOf, fourDigits_four year, drop_four]
      rfl
    rw [dateParts_comma plain (peek_two fits.day _) (by
      rw [List.length_append, two_length, List.length_cons]; omega),
      firstDay_rfc822 fits.day long, Option.bind_some]
    simp only
    rw [monthParts_letters_text fits (Or.inl ⟨rfl, rfl⟩), isYear, Option.bind_some]
    have clock := clockParts_time .rfc822 rest fits
      fun impossible => absurd impossible (by decide)
    rw [sep] at clock
    exact clock
  | rfc850 fits plain early late sep =>
    rename_i weekday rest spaces
    have long : 15 ≤ (parts.letters ++ chr '-' :: (two (parts.year % 100) ++ chr ' ' ::
        (parts.time ++ rest))).length := by
      simp only [List.length_append, List.length_cons, fits.letters, two_length, time_length]
      omega
    have isYear : yearOf .rfc850 (two (parts.year % 100) ++ chr ' ' :: (parts.time ++ rest)) =
        some (parts.year, chr ' ' :: (parts.time ++ rest)) := by
      have full : parts.year % 100 + (if parts.year % 100 < 70 then 2000 else 1900) =
          parts.year := by
        split <;> omega
      rw [yearOf, twoDigits_two (Nat.mod_lt _ (by decide)), drop_two, Option.map_some, full]
    rw [dateParts_comma plain (peek_two fits.day _) (by
      rw [List.length_append, two_length, List.length_cons]; omega),
      firstDay_rfc850 fits.day, Option.bind_some]
    simp only
    rw [monthParts_letters_text fits (Or.inr (Or.inl ⟨rfl, rfl⟩)), isYear, Option.bind_some]
    have clock := clockParts_time .rfc850 rest fits
      fun impossible => absurd impossible (by decide)
    rw [sep] at clock
    exact clock
  | isoc fits plain letters day year =>
    rename_i weekday dayText rest spaces
    have date (p : List UInt8) : peek (parts.letters ++ p) ≠ chr ' ' := by
      obtain ⟨ch, more, same⟩ := List.exists_cons_of_length_eq_add_one fits.letters
      rw [same] at letters ⊢
      exact letters
    have time : (parts.time ++ chr ' ' :: (four parts.year ++ rest)).length = 13 + rest.length := by
      simp only [List.length_append, List.length_cons, four_length, time_length]
      omega
    have dayLength := dayText_length day
    rw [dateParts_space plain (date _) (by
      simp only [List.length_append, List.length_cons, fits.letters, time]
      omega), monthParts_letters_text fits (Or.inr (Or.inr rfl))]
    have noYear (p : List UInt8) : yearOf .isoc p = some (0, p) := rfl
    rw [noYear, Option.bind_some]
    simp only [if_true]
    rw [secondDay_text fits.day day (by omega), Option.bind_some]
    exact clockParts_time .isoc _ fits fun _ => ⟨rest, rfl, year⟩

end Complete

/-! ### What is read is written -/

section Sound

variable {p q : List UInt8} {fmt : Fmt} {parts : Parts}

theorem digit_value {ch : UInt8} (digits : isDigit ch = true) :
    digitValue ch < 10 ∧ digit (digitValue ch) = ch := by
  revert digits
  refine byte_table ch ?_
  decide +kernel

theorem cons_of_digit (digits : isDigit (p.getD 0 0) = true) : ∃ ch rest, p = ch :: rest := by
  cases p with
  | nil => exact absurd digits (by decide)
  | cons ch rest => exact ⟨ch, rest, rfl⟩

theorem twoDigits_inv {n : Nat} (read : twoDigits p = some n) :
    n < 100 ∧ p = two n ++ p.drop 2 := by
  rw [twoDigits] at read
  split at read
  · rename_i both
    obtain ⟨first, second⟩ := Bool.and_eq_true_iff.mp both
    obtain ⟨a, p, rfl⟩ := cons_of_digit first
    obtain ⟨b, p, rfl⟩ := cons_of_digit second
    obtain ⟨smallTens, tens⟩ := digit_value first
    obtain ⟨smallOnes, ones⟩ := digit_value second
    have number := Option.some.inj read
    have high : n / 10 = digitValue ((a :: b :: p).getD 0 0) := by omega
    have low : n % 10 = digitValue ((a :: b :: p).getD 1 0) := by omega
    refine ⟨by omega, ?_⟩
    rw [two, high, low, tens, ones]
    rfl
  · exact absurd read (by simp)

theorem fourDigits_inv {n : Nat} (read : fourDigits p = some n) :
    n < 10000 ∧ p = four n ++ p.drop 4 := by
  rw [fourDigits] at read
  split at read
  · rename_i all
    obtain ⟨three, fourth⟩ := Bool.and_eq_true_iff.mp all
    obtain ⟨both, third⟩ := Bool.and_eq_true_iff.mp three
    obtain ⟨first, second⟩ := Bool.and_eq_true_iff.mp both
    obtain ⟨a, p, rfl⟩ := cons_of_digit first
    obtain ⟨b, p, rfl⟩ := cons_of_digit second
    obtain ⟨c, p, rfl⟩ := cons_of_digit third
    obtain ⟨d, p, rfl⟩ := cons_of_digit fourth
    obtain ⟨small1, digit1⟩ := digit_value first
    obtain ⟨small2, digit2⟩ := digit_value second
    obtain ⟨small3, digit3⟩ := digit_value third
    obtain ⟨small4, digit4⟩ := digit_value fourth
    have number := Option.some.inj read
    have thousands : n / 10 / 10 / 10 = digitValue ((a :: b :: c :: d :: p).getD 0 0) := by omega
    have hundreds : n / 10 / 10 % 10 = digitValue ((a :: b :: c :: d :: p).getD 1 0) := by omega
    have tens : n / 10 % 10 = digitValue ((a :: b :: c :: d :: p).getD 2 0) := by omega
    have ones : n % 10 = digitValue ((a :: b :: c :: d :: p).getD 3 0) := by omega
    refine ⟨by omega, ?_⟩
    rw [four, thousands, hundreds, tens, ones, digit1, digit2, digit3, digit4]
    rfl
  · exact absurd read (by simp)

theorem peek_inv {ch : UInt8} (some_ : ch ≠ 0) (same : peek p = ch) : p = ch :: p.tail := by
  cases p with
  | nil => exact absurd same.symm some_
  | cons first rest => exact congrArg (· :: rest) same

theorem pass_inv {ch : UInt8} (some_ : ch ≠ 0) (read : pass ch p = some q) : p = ch :: q := by
  rw [pass] at read
  split at read
  · rename_i same
    rw [← Option.some.inj read]
    exact peek_inv some_ same
  · exact absurd read (by simp)

theorem clockParts_inv {letters : List UInt8} {sep : UInt8} {day year : Nat}
    (read : clockParts fmt letters sep day year p = some parts) :
    parts.letters = letters ∧ parts.sep = sep ∧ parts.day = day ∧ parts.hour < 100 ∧
      parts.min < 100 ∧ parts.sec < 100 ∧ ∃ rest, p = chr ' ' :: (parts.time ++ rest) ∧
        if fmt = .isoc then parts.year < 10000 ∧
          ∃ more, rest = chr ' ' :: (four parts.year ++ more)
        else parts.year = year := by
  simp only [clockParts, Option.bind_eq_bind, Option.bind_eq_some_iff] at read
  obtain ⟨q, first, hour, isHour, r, second, min, isMin, s, third, sec, isSec, last⟩ := read
  obtain ⟨smallHour, hourText⟩ := twoDigits_inv isHour
  obtain ⟨smallMin, minText⟩ := twoDigits_inv isMin
  obtain ⟨smallSec, secText⟩ := twoDigits_inv isSec
  have text : p = chr ' ' :: (two hour ++ chr ':' :: (two min ++ chr ':' :: (two sec ++ s.drop 2))) := by
    rw [pass_inv (by decide) first, hourText, pass_inv (by decide) second, minText,
      pass_inv (by decide) third, ← secText]
  by_cases isoc : fmt = .isoc
  · simp only [if_pos isoc, Option.bind_eq_some_iff] at last
    obtain ⟨year', ⟨t, fourth, isYear⟩, same⟩ := last
    obtain ⟨small, yearText⟩ := fourDigits_inv isYear
    rw [← Option.some.inj same]
    refine ⟨rfl, rfl, rfl, smallHour, smallMin, smallSec, s.drop 2, ?_, ?_⟩
    · rw [text]
      simp [Parts.time]
    · rw [if_pos isoc]
      exact ⟨small, t.drop 4, by rw [pass_inv (by decide) fourth, ← yearText]⟩
  · rw [if_neg isoc] at last
    have same := Option.some.inj last
    rw [← same]
    refine ⟨rfl, rfl, rfl, smallHour, smallMin, smallSec, s.drop 2, ?_, ?_⟩
    · rw [text]
      simp [Parts.time]
    · rw [if_neg isoc]

theorem dayDigits_inv {day : Nat} (read : dayDigits p = some (day, q)) :
    day < 100 ∧ ∃ digits, p = digits ++ q ∧ (digits = two day ∨ day < 10 ∧ digits = [digit day]) := by
  rw [dayDigits] at read
  split at read
  · rename_i first
    rw [peek_getD] at first
    obtain ⟨a, p, rfl⟩ := cons_of_digit first
    obtain ⟨small, one⟩ := digit_value first
    split at read
    · injection Option.some.inj read with number rest
      rw [← number, ← rest]
      refine ⟨Nat.lt_trans small (by decide), [digit (digitValue a)], ?_, Or.inr ⟨small, rfl⟩⟩
      exact congrArg (· :: p) one.symm
    · split at read
      · rename_i second
        have both : twoDigits (a :: p) = some day := by
          rw [peek_getD] at second
          have digits : (isDigit ((a :: p).getD 0 0) && isDigit ((a :: p).getD 1 0)) = true :=
            Bool.and_eq_true_iff.mpr ⟨first, second⟩
          injection Option.some.inj read with number _
          rw [twoDigits, if_pos digits, ← number, peek_getD, peek_getD]
          rfl
        obtain ⟨small, text⟩ := twoDigits_inv both
        injection Option.some.inj read with _ rest
        refine ⟨small, two day, ?_, Or.inl rfl⟩
        rw [← rest]
        exact text.trans (by rw [List.drop_succ_cons, List.drop_one]; rfl)
      · exact absurd read (by simp)
  · exact absurd read (by simp)

theorem secondDay_inv {day : Nat} (read : secondDay p = some (day, q)) :
    day < 100 ∧ ∃ text, p = text ++ q ∧ DayText day text := by
  rw [secondDay_eq] at read
  obtain ⟨⟨n, r⟩, digits, last⟩ := Option.bind_eq_some_iff.mp read
  simp only at last
  split at last
  · exact absurd last (by simp)
  · injection Option.some.inj last with number rest
    rw [number, rest] at digits
    obtain ⟨small, text, same, form⟩ := dayDigits_inv digits
    refine ⟨small, ?_⟩
    split at same
    · rename_i space
      refine ⟨chr ' ' :: text, ?_, text, Or.inr rfl, form⟩
      rw [peek_inv (by decide) space, same]
      rfl
    · exact ⟨text, same, text, Or.inl rfl, form⟩

theorem firstDay_inv {day : Nat} (read : firstDay p = some (day, fmt, q)) :
    day < 100 ∧ (fmt = .rfc822 ∧ p = two day ++ chr ' ' :: q ∨
      fmt = .rfc850 ∧ p = two day ++ chr '-' :: q) := by
  obtain ⟨n, isDay, more⟩ := Option.bind_eq_some_iff.mp read
  obtain ⟨small, text⟩ := twoDigits_inv isDay
  simp only at more
  split at more
  · rename_i space
    split at more
    · exact absurd more (by simp)
    · injection Option.some.inj more with number others
      injection others with sameFmt rest
      rw [← number, ← rest]
      refine ⟨small, Or.inl ⟨sameFmt.symm, ?_⟩⟩
      rw [← peek_inv (by decide) space, ← text]
  · split at more
    · rename_i dash
      injection Option.some.inj more with number others
      injection others with sameFmt rest
      rw [← number, ← rest]
      refine ⟨small, Or.inr ⟨sameFmt.symm, ?_⟩⟩
      rw [← peek_inv (by decide) dash, ← text]
    · exact absurd more (by simp)

theorem scanFmt_inv {value : List UInt8} {ch : UInt8} (read : scanFmt value = (fmt, ch :: p)) :
    ∃ weekday, (∀ ch ∈ weekday, ch ≠ chr ',' ∧ ch ≠ chr ' ') ∧ value = weekday ++ ch :: p ∧
      (fmt = .no ∧ ch = chr ',' ∨ fmt = .isoc ∧ ch = chr ' ') := by
  induction value with
  | nil => exact absurd read (by simp [scanFmt])
  | cons first value ih =>
    rw [scanFmt] at read
    split at read
    · rename_i comma
      injection read with sameFmt text
      injection text with same rest
      exact ⟨[], by simp, by rw [same, rest]; rfl, Or.inl ⟨sameFmt.symm, same ▸ comma⟩⟩
    · rename_i noComma
      split at read
      · rename_i space
        injection read with sameFmt text
        injection text with same rest
        exact ⟨[], by simp, by rw [same, rest]; rfl, Or.inr ⟨sameFmt.symm, same ▸ space⟩⟩
      · rename_i noSpace
        obtain ⟨weekday, plain, text, kind⟩ := ih read
        refine ⟨first :: weekday, ?_, by rw [text]; rfl, kind⟩
        exact List.forall_mem_cons.mpr ⟨⟨noComma, noSpace⟩, plain⟩

theorem dropSpaces_inv (p : List UInt8) :
    ∃ spaces, p = List.replicate spaces (chr ' ') ++ p.dropWhile (fun ch => ch == chr ' ') := by
  induction p with
  | nil => exact ⟨0, rfl⟩
  | cons ch p ih =>
    by_cases space : (ch == chr ' ') = true
    · obtain ⟨spaces, text⟩ := ih
      have dropped : (ch :: p).dropWhile (fun ch => ch == chr ' ') =
        p.dropWhile fun ch => ch == chr ' ' := List.dropWhile_cons_of_pos space
      refine ⟨spaces + 1, ?_⟩
      rw [dropped, List.replicate_succ, List.cons_append, ← text, eq_of_beq space]
    · have kept : (ch :: p).dropWhile (fun ch => ch == chr ' ') = ch :: p :=
        List.dropWhile_cons_of_neg space
      exact ⟨0, kept.symm⟩

theorem dropSpaces_peek {r : List UInt8}
    (dropped : p.dropWhile (fun ch => ch == chr ' ') = r) : peek r ≠ chr ' ' := by
  have head := List.head?_dropWhile_not (fun ch => ch == chr ' ') p
  rw [dropped] at head
  cases r with
  | nil => decide
  | cons ch r =>
    intro space
    have same : ch = chr ' ' := space
    rw [same] at head
    have wrong : (chr ' ' == chr ' ') = false := head
    exact absurd wrong (by decide)

theorem monthParts_inv {day : Nat} (read : monthParts fmt day p = some parts) :
    ¬ ((fmt = .rfc822 ∧ peek (p.drop 3) ≠ chr ' ') ∨ (fmt = .rfc850 ∧ peek (p.drop 3) ≠ chr '-')) ∧
      ∃ year q day' r, yearOf fmt (p.drop 3).tail = some (year, q) ∧
        (if fmt = .isoc then secondDay q else some (day, q)) = some (day', r) ∧
        clockParts fmt (p.take 3) (if fmt = .isoc then peek (p.drop 3) else chr ' ') day' year r =
          some parts := by
  rw [monthParts] at read
  simp only at read
  split at read
  · exact absurd read (by simp)
  · rename_i fine
    obtain ⟨⟨year, q⟩, isYear, more⟩ := Option.bind_eq_some_iff.mp read
    obtain ⟨⟨day', r⟩, isDay, last⟩ := Option.bind_eq_some_iff.mp more
    exact ⟨fine, year, q, day', r, isYear, isDay, last⟩

theorem letters_length (long : 15 ≤ p.length) : (p.take 3).length = 3 := by
  rw [List.length_take]
  omega

theorem rfc822_inv {day : Nat} {weekday : List UInt8} {spaces : Nat} (small : day < 100)
    (plain : ∀ ch ∈ weekday, ch ≠ chr ',' ∧ ch ≠ chr ' ') (long : 15 ≤ p.length)
    (read : monthParts .rfc822 day p = some parts) :
    Written (weekday ++ chr ',' :: (List.replicate spaces (chr ' ') ++
      (two day ++ chr ' ' :: p))) parts := by
  obtain ⟨fine, year, q, day', r, isYear, isDay, last⟩ := monthParts_inv read
  injection Option.some.inj isDay with sameDay same
  obtain ⟨n, digits, sameYear⟩ := Option.map_eq_some_iff.mp isYear
  injection sameYear with sameYear rest
  obtain ⟨fits, yearText⟩ := fourDigits_inv digits
  obtain ⟨letters, sep, isDay, hour, min, sec, more, text, ended⟩ := clockParts_inv last
  rw [if_neg (by decide)] at ended sep
  have space : peek (p.drop 3) = chr ' ' := by
    by_contra other
    exact fine (Or.inl ⟨rfl, other⟩)
  have number : parts.year = n := by rw [ended, sameYear]
  have whole : p = parts.letters ++ chr ' ' :: (four parts.year ++ chr ' ' ::
      (parts.time ++ more)) := by
    calc
      p = p.take 3 ++ p.drop 3 := (List.take_append_drop 3 p).symm
      _ = parts.letters ++ chr ' ' :: (p.drop 3).tail := by
        rw [letters, ← peek_inv (by decide) space]
      _ = parts.letters ++ chr ' ' :: (four parts.year ++ chr ' ' :: (parts.time ++ more)) := by
        rw [← text, ← same, ← rest, number, ← yearText]
  have dayOf : parts.day = day := by rw [isDay, sameDay]
  rw [whole, ← dayOf]
  refine Written.rfc822 ⟨?_, dayOf ▸ small, hour, min, sec⟩ plain (number ▸ fits) sep
  rw [letters]
  exact letters_length long

theorem rfc850_inv {day : Nat} {weekday : List UInt8} {spaces : Nat} (small : day < 100)
    (plain : ∀ ch ∈ weekday, ch ≠ chr ',' ∧ ch ≠ chr ' ') (long : 15 ≤ p.length)
    (read : monthParts .rfc850 day p = some parts) :
    Written (weekday ++ chr ',' :: (List.replicate spaces (chr ' ') ++
      (two day ++ chr '-' :: p))) parts := by
  obtain ⟨fine, year, q, day', r, isYear, isDay, last⟩ := monthParts_inv read
  injection Option.some.inj isDay with sameDay same
  obtain ⟨n, digits, sameYear⟩ := Option.map_eq_some_iff.mp isYear
  injection sameYear with sameYear rest
  obtain ⟨fits, yearText⟩ := twoDigits_inv digits
  obtain ⟨letters, sep, isDay, hour, min, sec, more, text, ended⟩ := clockParts_inv last
  rw [if_neg (by decide)] at ended sep
  have dash : peek (p.drop 3) = chr '-' := by
    by_contra other
    exact fine (Or.inr ⟨rfl, other⟩)
  have century : parts.year % 100 = n ∧ 1970 ≤ parts.year ∧ parts.year < 2070 := by
    rw [ended, ← sameYear]
    split <;> omega
  have whole : p = parts.letters ++ chr '-' :: (two (parts.year % 100) ++ chr ' ' ::
      (parts.time ++ more)) := by
    calc
      p = p.take 3 ++ p.drop 3 := (List.take_append_drop 3 p).symm
      _ = parts.letters ++ chr '-' :: (p.drop 3).tail := by
        rw [letters, ← peek_inv (by decide) dash]
      _ = parts.letters ++ chr '-' :: (two (parts.year % 100) ++ chr ' ' ::
          (parts.time ++ more)) := by
        rw [← text, ← same, ← rest, century.1, ← yearText]
  have dayOf : parts.day = day := by rw [isDay, sameDay]
  rw [whole, ← dayOf]
  refine Written.rfc850 ⟨?_, dayOf ▸ small, hour, min, sec⟩ plain century.2.1 century.2.2 sep
  rw [letters]
  exact letters_length long

theorem isoc_inv {day : Nat} {weekday : List UInt8} {spaces : Nat}
    (plain : ∀ ch ∈ weekday, ch ≠ chr ',' ∧ ch ≠ chr ' ') (long : 18 ≤ p.length)
    (date : peek p ≠ chr ' ') (read : monthParts .isoc day p = some parts) :
    Written (weekday ++ chr ' ' :: (List.replicate spaces (chr ' ') ++ p)) parts := by
  obtain ⟨fine, year, q, day', r, isYear, isDay, last⟩ := monthParts_inv read
  injection Option.some.inj isYear with _ rest
  obtain ⟨small, dayText, dayWhole, written⟩ := secondDay_inv isDay
  obtain ⟨letters, sep, isDay, hour, min, sec, more, text, late, behind, yearText⟩ :=
    clockParts_inv last
  rw [if_pos rfl] at sep
  obtain ⟨a, b, c, d, tail, rfl⟩ : ∃ a b c d tail, p = a :: b :: c :: d :: tail := by
    rcases p with _ | ⟨a, _ | ⟨b, _ | ⟨c, _ | ⟨d, tail⟩⟩⟩⟩
    all_goals first | exact ⟨a, b, c, d, tail, rfl⟩ | exact absurd long (by simp)
  have whole : a :: b :: c :: d :: tail = parts.letters ++ parts.sep :: (dayText ++ chr ' ' ::
      (parts.time ++ chr ' ' :: (four parts.year ++ behind))) := by
    rw [letters, sep, ← yearText, ← text, ← dayWhole, ← rest]
    rfl
  rw [whole]
  refine Written.isoc ⟨?_, isDay ▸ small, hour, min, sec⟩ plain ?_ (isDay ▸ written) late
  · rw [letters]
    rfl
  · rw [letters]
    exact date

theorem read_written {value : List UInt8} (read : dateParts value = some parts) :
    Written value parts := by
  rw [dateParts] at read
  cases scanned : scanFmt value with
  | mk fmt p =>
    rw [scanned] at read
    simp only at read
    cases p with
    | nil => exact absurd read (by simp)
    | cons ch p =>
      obtain ⟨weekday, plain, text, kind⟩ := scanFmt_inv scanned
      obtain ⟨spaces, spaced⟩ := dropSpaces_inv p
      rw [List.tail_cons] at read
      have date := dropSpaces_peek (p := p) rfl
      rw [text, spaced]
      generalize p.dropWhile (fun ch => ch == chr ' ') = q at read date
      split at read
      · exact absurd read (by simp)
      · rename_i long
        rcases kind with ⟨rfl, rfl⟩ | ⟨rfl, rfl⟩
        · rw [if_neg (by decide)] at read
          obtain ⟨⟨day, fmt, r⟩, first, more⟩ := Option.bind_eq_some_iff.mp read
          have room := firstDay_length first (Nat.not_lt.mp long)
          obtain ⟨small, form⟩ := firstDay_inv first
          rcases form with ⟨rfl, rfl⟩ | ⟨rfl, rfl⟩
          · exact rfc822_inv small plain (by omega) more
          · exact rfc850_inv small plain (by omega) more
        · rw [if_pos rfl] at read
          exact isoc_inv plain (Nat.not_lt.mp long) date read

end Sound

end NgxFormal.Http.ParseTime
