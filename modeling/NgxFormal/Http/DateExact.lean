import NgxFormal.Http.DateLayout

/-! Which dates `ngx_http_parse_time` reads right. -/

namespace NgxFormal.Http.ParseTime

open Core.Times Lib.Calendar

/-- The time of a value is right: it has a date in one of the layouts with the name of a month, which
is one of the calendar from 1970 on, and `t` is the number of seconds from the epoch to it. -/
def Denotes (value : List UInt8) (t : Int) : Prop :=
  ∃ (parts : Parts) (d : Date) (days : Nat), Written value parts ∧
    parts.letters = bytes (months.getD (d.month - 1) "") ∧ parts.sep = chr ' ' ∧
    parts.day = d.day ∧ parts.year = d.year ∧ 1970 ≤ d.year ∧
    parts.hour < 24 ∧ parts.min < 60 ∧ parts.sec < 60 ∧
    dateAfter days = d ∧ t = days * 86400 + parts.hour * 3600 + parts.min * 60 + parts.sec

/-- The letters are the name of the month, a separator is none but a space, the day is not 0 and the
year is 1970 or later. -/
structure Parts.Strict (parts : Parts) (month : Nat) : Prop where
  letters : parts.letters = bytes (months.getD month "")
  sep : parts.sep = chr ' '
  day : 1 ≤ parts.day
  year : 1970 ≤ parts.year

/-- One second before the epoch, of which the number is that of an error. -/
def Parts.BeforeEpoch (parts : Parts) (month : Nat) : Prop :=
  parts.hour = 23 ∧ parts.min = 59 ∧ parts.sec = 59 ∧
    (parts.year = 1969 ∧ month = 11 ∧ parts.day = 31 ∨
      parts.year = 1970 ∧ month = 0 ∧ parts.day = 0)

/-- Every date in a layout that passes the checks of the numbers is strict. -/
def StrictDate (value : List UInt8) : Prop :=
  ∀ parts month, Written value parts → monthOf parts.letters = some month →
    inRange parts.day month parts.year parts.hour parts.min parts.sec = true →
      parts.Strict month ∨ parts.BeforeEpoch month

theorem monthOf_lt {p : List UInt8} : ∀ month ∈ monthOf p, month < 12 := by
  simp only [monthOf]
  split_ifs <;> simp

theorem written_year {value : List UInt8} {parts : Parts} (written : Written value parts) :
    parts.year < 10000 := by
  cases written with
  | rfc822 _ _ year _ => exact year
  | rfc850 _ _ _ late _ => omega
  | isoc _ _ _ _ year => exact year

theorem inRange_inv {day month year hour min sec : Nat} (small : month < 12)
    (valid : inRange day month year hour min sec = true) :
    hour < 24 ∧ min < 60 ∧ sec < 60 ∧ day ≤ daysIn year (month + 1) := by
  rw [inRange] at valid
  split at valid
  · exact absurd valid Bool.false_ne_true
  · rename_i time
    refine ⟨by omega, by omega, by omega, ?_⟩
    split at valid
    · rename_i leapDay
      have leap := isLeap_toNat year
      rw [leapDay.1, leapDay.2, daysIn_february]
      rw [decide_eq_true_iff] at valid
      split at leap <;> omega
    · rw [decide_eq_true_iff] at valid
      have most : ∀ m < 12, m ≠ 1 → mday.getD m 0 = daysIn 4 (m + 1) := by decide
      by_cases february : month = 1
      · rw [february] at valid ⊢
        rw [daysIn_february]
        exact valid.trans (Nat.le_add_right 28 _)
      · have same : daysIn year (month + 1) = daysIn 4 (month + 1) := by
          unfold daysIn
          split
          · omega
          all_goals rfl
        rw [same, ← most month small february]
        exact valid

theorem beforeYear_mono {first second : Nat} (le : first ≤ second) :
    beforeYear first ≤ beforeYear second := by
  induction le with
  | refl => exact Nat.le_refl _
  | step le ih =>
    rw [beforeYear_succ]
    omega

/-- Every date from 1970 on comes after the epoch. -/
theorem dateAfter_date (d : Date) (late : 1970 ≤ d.year) :
    dateAfter (d.number - 719468) = d ∧ 719468 ≤ d.number := by
  have positive : 0 < d.year := by omega
  have enough : 719468 ≤ d.number := by
    have month := d.someMonth
    have last : beforeYear 1969 = 719162 := by decide
    have next : beforeYear 1970 = 719527 := by decide
    rw [Date.number, dayNumber]
    by_cases early : d.month ≤ 2
    · have after := beforeYear_mono (by omega : 1969 ≤ d.year - 1)
      rw [marchYear, marchMonth, if_pos early, if_pos early, beforeMonth]
      omega
    · have after := beforeYear_mono late
      rw [marchYear, marchMonth, if_neg early, if_neg early]
      omega
  have number : (dateAfter (d.number - 719468)).number = d.number := by
    rw [dateAfter_number, Nat.sub_add_cancel enough]
  have after := dateAfter_year (d.number - 719468)
  have first := gauss_number (dateAfter (d.number - 719468)) (by omega)
  have second := gauss_number d positive
  rw [number, second] at first
  injection first with day month year
  refine ⟨?_, enough⟩
  apply Date.ext <;> omega

def formula (day month year : Nat) : Int :=
  365 * year + year / 4 - year / 100 + year / 400 + 367 * month / 12 - 30 + day - 1 - 719527
    + 31 + 28

theorem seconds_formula (day month year hour min sec : Nat) :
    seconds day month year hour min sec =
      ((if month ≤ 1 then formula day (month + 11) ((year + 2 ^ 64 - 1) % 2 ^ 64)
        else formula day (month - 1) year) * 86400 + hour * 3600 + min * 60 + sec).bmod (2 ^ 64) := by
  by_cases early : month ≤ 1
  · simp only [seconds, if_pos early]
    rfl
  · simp only [seconds, if_neg early]
    rfl

theorem formula_year (day month year : Nat) :
    formula day month year = (beforeYear year : Int) + 367 * month / 12 + day - 719499 := by
  rw [formula, beforeYear]
  omega

theorem formula_before {day month year : Nat} (smallDay : day ≤ 31) (low : 1 ≤ month)
    (high : month ≤ 12) (before : formula day month year = -1) :
    year = 1969 ∧ (month = 10 ∧ day = 31 ∨ month = 11 ∧ day = 0) := by
  rw [formula_year] at before
  have early : beforeYear 1968 = 718797 := by decide
  have late : beforeYear 1970 = 719527 := by decide
  have right : year = 1969 := by
    by_contra other
    rcases Nat.lt_or_gt_of_ne other with less | more
    · have bound := beforeYear_mono (Nat.le_of_lt_succ less)
      omega
    · have next : 1970 ≤ year := more
      have bound := beforeYear_mono next
      omega
  have days : beforeYear 1969 = 719162 := by decide
  rw [right, days] at before
  refine ⟨right, ?_⟩
  interval_cases month <;> omega

/-- Days that fit give the number of an error for one second only. -/
theorem before_epoch {days : Int} {hour min sec : Nat} (low : -800000 ≤ days)
    (high : days ≤ 4000000) (smallHour : hour < 24) (smallMin : min < 60) (smallSec : sec < 60)
    (error : (days * 86400 + hour * 3600 + min * 60 + sec).bmod (2 ^ 64) = -1) :
    days = -1 ∧ hour = 23 ∧ min = 59 ∧ sec = 59 := by
  have small : (days * 86400 + hour * 3600 + min * 60 + sec).bmod (2 ^ 64) =
      days * 86400 + hour * 3600 + min * 60 + sec := by
    apply Int.bmod_eq_of_le <;> omega
  rw [small] at error
  omega

theorem formula_bounds {day month year : Nat} (smallDay : day ≤ 31) (smallMonth : month ≤ 12)
    (smallYear : year < 10000) :
    -800000 ≤ formula day month year ∧ formula day month year ≤ 4000000 := by
  have most : beforeYear 10000 = 3652425 := by decide
  have bound := beforeYear_mono (Nat.le_of_lt smallYear)
  rw [formula_year]
  omega

/-- Only the second before the epoch has the number of an error. -/
theorem seconds_error {day month year hour min sec : Nat} (smallDay : day ≤ 31)
    (smallMonth : month < 12) (smallYear : year < 10000) (smallHour : hour < 24)
    (smallMin : min < 60) (smallSec : sec < 60)
    (error : seconds day month year hour min sec = -1) :
    hour = 23 ∧ min = 59 ∧ sec = 59 ∧
      (year = 1969 ∧ month = 11 ∧ day = 31 ∨ year = 1970 ∧ month = 0 ∧ day = 0) := by
  rw [seconds_formula] at error
  by_cases early : month ≤ 1
  · rw [if_pos early] at error
    by_cases first : year = 0
    · -- The year before the first is the largest number of 64 bits.
      have wrapped : (0 + 2 ^ 64 - 1) % 2 ^ 64 = 18446744073709551615 := by decide
      have days : beforeYear 18446744073709551615 = 6737534922341860905741 := by decide
      obtain ⟨t, total⟩ : ∃ t, t = day * 86400 + hour * 3600 + min * 60 + sec := ⟨_, rfl⟩
      have bound : t < 32 * 86400 := by omega
      have sum : ((6737534922341860905741 : Nat) + 367 * (month + 11 : Nat) / 12 + day - 719499 : Int)
          * 86400 + hour * 3600 + min * 60 + sec =
          ((6737534922341860905741 : Nat) + 367 * (month + 11 : Nat) / 12 - 719499) * 86400 + t := by
        omega
      rw [first, wrapped, formula_year, days, sum, Int.bmod_def] at error
      exfalso
      interval_cases month <;> split at error <;> omega
    · have before : (year + 2 ^ 64 - 1) % 2 ^ 64 = year - 1 := by omega
      rw [before] at error
      obtain ⟨low, high⟩ := formula_bounds smallDay (by omega : month + 11 ≤ 12)
        (by omega : year - 1 < 10000)
      obtain ⟨days, time⟩ := before_epoch low high smallHour smallMin smallSec error
      have date := formula_before smallDay (by omega) (by omega) days
      omega
  · rw [if_neg early] at error
    obtain ⟨low, high⟩ := formula_bounds smallDay (by omega : month - 1 ≤ 12) smallYear
    obtain ⟨days, time⟩ := before_epoch low high smallHour smallMin smallSec error
    have date := formula_before smallDay (by omega) (by omega) days
    omega

section Exact

variable {value : List UInt8} {parts : Parts} {month : Nat}

theorem written_seconds (written : Written value parts) (known : monthOf parts.letters = some month)
    (valid : inRange parts.day month parts.year parts.hour parts.min parts.sec = true) :
    ngxHttpParseTime value =
      seconds parts.day month parts.year parts.hour parts.min parts.sec := by
  rw [ngxHttpParseTime, parse_parts, written_read written, Option.bind_some, Parts.seconds, known,
    Option.bind_some, if_pos valid]
  rfl

theorem parsed_date (some_ : ngxHttpParseTime value ≠ ngxError) :
    ∃ parts month, Written value parts ∧ monthOf parts.letters = some month ∧
      inRange parts.day month parts.year parts.hour parts.min parts.sec = true := by
  rw [ngxHttpParseTime, parse_parts] at some_
  cases read : dateParts value with
  | none =>
    rw [read] at some_
    exact absurd rfl some_
  | some parts =>
    rw [read, Option.bind_some, Parts.seconds] at some_
    cases known : monthOf parts.letters with
    | none =>
      rw [known] at some_
      exact absurd rfl some_
    | some month =>
      refine ⟨parts, month, read_written read, known, ?_⟩
      by_contra invalid
      rw [known, Option.bind_some, if_neg invalid] at some_
      exact some_ rfl

/-- A strict date is one of the calendar, and its seconds are those since the epoch. -/
theorem strict_denotes (written : Written value parts) (known : monthOf parts.letters = some month)
    (valid : inRange parts.day month parts.year parts.hour parts.min parts.sec = true)
    (strict : parts.Strict month) :
    Denotes value (seconds parts.day month parts.year parts.hour parts.min parts.sec) := by
  have small := monthOf_lt month known
  obtain ⟨hour, min, sec, day⟩ := inRange_inv small valid
  obtain ⟨d, date⟩ : ∃ d : Date, d = ⟨parts.year, month + 1, parts.day,
    ⟨Nat.le_add_left 1 month, small⟩, ⟨strict.day, day⟩⟩ := ⟨_, rfl⟩
  have sameYear : d.year = parts.year := by rw [date]
  have sameMonth : d.month - 1 = month := by rw [date]; rfl
  have sameDay : d.day = parts.day := by rw [date]
  have late : 1970 ≤ d.year := sameYear ▸ strict.year
  have early : d.year ≤ 9999 := by
    have bound := written_year written
    omega
  obtain ⟨after, enough⟩ := dateAfter_date d late
  refine ⟨parts, d, d.number - 719468, written, sameMonth ▸ strict.letters, strict.sep,
    sameDay.symm, sameYear.symm, late, hour, min, sec, after, ?_⟩
  rw [← sameMonth, ← sameDay, ← sameYear, seconds_date d late early hour min sec]
  push_cast [enough]
  rfl

/-- `ngx_http_parse_time` reads inside of the value, and its time is that of a valid date since 1970,
if and only if the dates that pass its checks are strict. -/
theorem parse_time_iff (value : List UInt8) :
    (readTime value ≠ .error .outside ∧
      (ngxHttpParseTime value ≠ ngxError → Denotes value (ngxHttpParseTime value))) ↔
      StrictDate value := by
  constructor
  · rintro ⟨_, denotes⟩ parts month written known valid
    have time := written_seconds written known valid
    by_cases error : ngxHttpParseTime value = ngxError
    · rw [time] at error
      obtain ⟨hour, min, sec, day⟩ := inRange_inv (monthOf_lt month known) valid
      exact Or.inr (seconds_error (day.trans (daysIn_le _ _)) (monthOf_lt month known)
        (written_year written) hour min sec error)
    · obtain ⟨parts', d, days, again, letters, sep, day, year, late, _⟩ := denotes error
      have same : parts' = parts :=
        Option.some.inj ((written_read again).symm.trans (written_read written))
      subst same
      have index : month = d.month - 1 := by
        have small := d.someMonth
        have name := monthOf_months (by omega : d.month - 1 < 12) []
        rw [List.append_nil, ← letters, known] at name
        exact Option.some.inj name
      exact Or.inl ⟨index ▸ letters, sep, day ▸ d.someDay.1, year ▸ late⟩
  · intro strict
    constructor
    · rw [readTime_eq]
      cases parse value with
      | none => simp [answer]
      | some t => simp [answer]
    · intro some_
      obtain ⟨parts, month, written, known, valid⟩ := parsed_date some_
      have time := written_seconds written known valid
      rw [time]
      rcases strict parts month written known valid with exact_ | ⟨hour, min, sec, before⟩
      · exact strict_denotes written known valid exact_
      · exfalso
        apply some_
        rw [time, hour, min, sec]
        rcases before with ⟨year, monthIs, day⟩ | ⟨year, monthIs, day⟩ <;>
          · rw [year, monthIs, day]
            decide

theorem denotes_parts {t : Int} (read : dateParts value = some parts) (denotes : Denotes value t) :
    ∃ d : Date, parts.letters = bytes (months.getD (d.month - 1) "") ∧ parts.day = d.day ∧
      parts.year = d.year ∧ 1970 ≤ d.year := by
  obtain ⟨parts', d, days, written, letters, _, day, year, late, _⟩ := denotes
  have same : parts' = parts := Option.some.inj ((written_read written).symm.trans read)
  subst same
  exact ⟨d, letters, day, year, late⟩

/-- The day 00, a month that is none and a year before the epoch each get a time. -/
theorem parse_time_fails :
    (ngxHttpParseTime (bytes "Sun, 00 Nov 1994 08:49:37 GMT") = 783593377 ∧
      ¬ Denotes (bytes "Sun, 00 Nov 1994 08:49:37 GMT") 783593377) ∧
    (ngxHttpParseTime (bytes "Sun, 06 Nxx 1994 08:49:37 GMT") = 784111777 ∧
      ¬ Denotes (bytes "Sun, 06 Nxx 1994 08:49:37 GMT") 784111777) ∧
    (ngxHttpParseTime (bytes "Sun, 06 Nov 1900 08:49:37 GMT") = -2182259423 ∧
      ¬ Denotes (bytes "Sun, 06 Nov 1900 08:49:37 GMT") (-2182259423)) := by
  refine ⟨⟨by decide +kernel, fun denotes => ?_⟩, ⟨by decide +kernel, fun denotes => ?_⟩,
    ⟨by decide +kernel, fun denotes => ?_⟩⟩
  · have read : dateParts (bytes "Sun, 00 Nov 1994 08:49:37 GMT") =
        some ⟨bytes "Nov", chr ' ', 0, 1994, 8, 49, 37⟩ := by decide +kernel
    obtain ⟨d, _, day, _⟩ := denotes_parts read denotes
    exact absurd d.someDay.1 (by rw [← day]; decide)
  · have read : dateParts (bytes "Sun, 06 Nxx 1994 08:49:37 GMT") =
        some ⟨bytes "Nxx", chr ' ', 6, 1994, 8, 49, 37⟩ := by decide +kernel
    obtain ⟨d, letters, _⟩ := denotes_parts read denotes
    have index : d.month - 1 < 12 := by
      have small := d.someMonth
      omega
    have none_ : ∀ index < 12, bytes "Nxx" ≠ bytes (months.getD index "") := by decide
    exact none_ _ index letters
  · have read : dateParts (bytes "Sun, 06 Nov 1900 08:49:37 GMT") =
        some ⟨bytes "Nov", chr ' ', 6, 1900, 8, 49, 37⟩ := by decide +kernel
    obtain ⟨d, _, _, year, late⟩ := denotes_parts read denotes
    exact absurd late (by rw [← year]; decide)

end Exact

end NgxFormal.Http.ParseTime
