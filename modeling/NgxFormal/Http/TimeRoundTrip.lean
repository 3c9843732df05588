import NgxFormal.Core.Times

/-! `ngx_http_parse_time` on 64-bit words. A pointer is what is left of the value. -/

namespace NgxFormal.Http.ParseTime

inductive Fmt where
  | no
  | rfc822
  | rfc850
  | isoc
  deriving DecidableEq, Repr

def scanFmt : List UInt8 → Fmt × List UInt8
  | [] => (.no, [])
  | ch :: p =>
    if ch = chr ',' then (.no, ch :: p)
    else if ch = chr ' ' then (.isoc, ch :: p)
    else scanFmt p

def twoDigits (p : List UInt8) : Option Nat :=
  if isDigit (p.getD 0 0) && isDigit (p.getD 1 0) then
    some (digitValue (p.getD 0 0) * 10 + digitValue (p.getD 1 0))
  else none

def fourDigits (p : List UInt8) : Option Nat :=
  if isDigit (p.getD 0 0) && isDigit (p.getD 1 0) && isDigit (p.getD 2 0) && isDigit (p.getD 3 0)
  then
    some (digitValue (p.getD 0 0) * 1000 + digitValue (p.getD 1 0) * 100 +
      digitValue (p.getD 2 0) * 10 + digitValue (p.getD 3 0))
  else none

/-- `if (*p++ != ch) { return NGX_ERROR; }` -/
def pass (ch : UInt8) (p : List UInt8) : Option (List UInt8) :=
  if peek p = ch then some p.tail else none

/-- The day in front of the month, which tells the two formats apart. -/
def firstDay (p : List UInt8) : Option (Nat × Fmt × List UInt8) := do
  let day ← twoDigits p
  let p := p.drop 2
  if peek p = chr ' ' then
    if p.length < 18 then none else some (day, .rfc822, p.tail)
  else if peek p = chr '-' then some (day, .rfc850, p.tail)
  else none

def monthOf (p : List UInt8) : Option Nat :=
  let ch := p.getD 0 0
  if ch = chr 'J' then
    some (if p.getD 1 0 = chr 'a' then 0 else if p.getD 2 0 = chr 'n' then 5 else 6)
  else if ch = chr 'F' then some 1
  else if ch = chr 'M' then some (if p.getD 2 0 = chr 'r' then 2 else 4)
  else if ch = chr 'A' then some (if p.getD 1 0 = chr 'p' then 3 else 7)
  else if ch = chr 'S' then some 8
  else if ch = chr 'O' then some 9
  else if ch = chr 'N' then some 10
  else if ch = chr 'D' then some 11
  else none

def secondDay (p : List UInt8) : Option (Nat × List UInt8) := do
  let p := if peek p = chr ' ' then p.tail else p
  if !isDigit (peek p) then none
  let day := digitValue (peek p)
  let p := p.tail
  let (day, p) ←
    if peek p = chr ' ' then some (day, p)
    else if isDigit (peek p) then some (day * 10 + digitValue (peek p), p.tail)
    else none
  if p.length < 14 then none else some (day, p)

def mday : List Nat := [31, 28, 31, 30, 31, 30, 31, 31, 30, 31, 30, 31]

def inRange (day month year hour min sec : Nat) : Bool :=
  if 23 < hour ∨ 59 < min ∨ 59 < sec then false
  else if day = 29 ∧ month = 1 then
    ¬(year % 4 ≠ 0 ∨ (year % 100 = 0 ∧ year % 400 ≠ 0))
  else day ≤ mday.getD month 0

/-- The end of the function: the seconds of a date, whose month counts from 0. -/
def seconds (day month year hour min sec : Nat) : Int :=
  let (month, year) : Nat × Nat :=
    if month ≤ 1 then (month + 11, (year + 2 ^ 64 - 1) % 2 ^ 64) else (month - 1, year)
  (((365 * year + year / 4 - year / 100 + year / 400 + 367 * month / 12 - 30 + day - 1 - 719527
    + 31 + 28 : Int) * 86400 + hour * 3600 + min * 60 + sec).bmod (2 ^ 64))

/-- The year behind the month, in the two formats that have it there. -/
def yearOf (fmt : Fmt) (p : List UInt8) : Option (Nat × List UInt8) :=
  match fmt with
  | .rfc822 => (fourDigits p).map fun year => (year, p.drop 4)
  | .rfc850 => (twoDigits p).map fun year => (year + if year < 70 then 2000 else 1900, p.drop 2)
  | _ => some (0, p)

/-- From the space in front of the hour on. -/
def parseClock (fmt : Fmt) (day month year : Nat) (p : List UInt8) : Option Int := do
  let p ← pass (chr ' ') p
  let hour ← twoDigits p
  let p ← pass (chr ':') (p.drop 2)
  let min ← twoDigits p
  let p ← pass (chr ':') (p.drop 2)
  let sec ← twoDigits p
  let year ← if fmt = .isoc then (pass (chr ' ') (p.drop 2)).bind fourDigits else some year
  if inRange day month year hour min sec then some (seconds day month year hour min sec) else none

def parseMonth (fmt : Fmt) (day : Nat) (p : List UInt8) : Option Int := do
  let month ← monthOf p
  let p := p.drop 3
  if (fmt = .rfc822 ∧ peek p ≠ chr ' ') ∨ (fmt = .rfc850 ∧ peek p ≠ chr '-') then none
  else
    let (year, p) ← yearOf fmt p.tail
    let (day, p) ← if fmt = .isoc then secondDay p else some (day, p)
    parseClock fmt day month year p

/-- `none` is `NGX_ERROR`. -/
def parse (value : List UInt8) : Option Int :=
  let (fmt, p) := scanFmt value
  let p := p.tail.dropWhile fun ch => ch == chr ' '
  if p.length < 18 then none
  else if fmt = .isoc then parseMonth fmt 0 p
  else (firstDay p).bind fun (day, fmt, p) => parseMonth fmt day p

def ngxError : Int := -1

def ngxHttpParseTime (value : List UInt8) : Int := (parse value).getD ngxError

end NgxFormal.Http.ParseTime

/-! The dates that are written are read back. -/

namespace NgxFormal.Http.ParseTime

open Core.Times Lib.Calendar

section Digits

def digit (n : Nat) : UInt8 := UInt8.ofNat (n + 48)

def two (n : Nat) : List UInt8 := [digit (n / 10), digit (n % 10)]

def four (n : Nat) : List UInt8 :=
  [digit (n / 10 / 10 / 10), digit (n / 10 / 10 % 10), digit (n / 10 % 10), digit (n % 10)]

theorem digit_read {n : Nat} (small : n < 10) :
    isDigit (digit n) = true ∧ digitValue (digit n) = n := by
  revert n
  decide

theorem sprintf_two {n : Nat} (small : n < 100) : ngxSprintfNum (chr '0') 2 n = two n := by
  revert n
  decide

theorem decimalLoop_four {n : Nat} (low : 1000 ≤ n) (high : n < 10000) :
    decimalLoop 20 n [] = four n := by
  have ones : ¬n / 10 = 0 := by omega
  have tens : ¬n / 10 / 10 = 0 := by omega
  have hundreds : ¬n / 10 / 10 / 10 = 0 := by omega
  have thousands : n / 10 / 10 / 10 / 10 = 0 := by omega
  have last : n / 10 / 10 / 10 % 10 = n / 10 / 10 / 10 := by omega
  simp only [decimalLoop, if_neg ones, if_neg tens, if_neg hundreds, if_pos thousands, last]
  rfl

theorem sprintf_four {n : Nat} (low : 1000 ≤ n) (high : n < 10000) :
    ngxSprintfNum (chr ' ') 4 n = four n := by
  rw [ngxSprintfNum, decimalLoop_four low high]
  rfl

theorem twoDigits_two {n : Nat} (small : n < 100) (rest : List UInt8) :
    twoDigits (two n ++ rest) = some n := by
  obtain ⟨isTens, tens⟩ := digit_read (show n / 10 < 10 by omega)
  obtain ⟨isOnes, ones⟩ := digit_read (show n % 10 < 10 by omega)
  simp only [twoDigits, two, List.cons_append, List.getD_cons_zero, List.getD_cons_succ, isTens,
    isOnes, tens, ones, Bool.and_self, if_true, Option.some.injEq]
  omega

theorem fourDigits_four {n : Nat} (small : n < 10000) (rest : List UInt8) :
    fourDigits (four n ++ rest) = some n := by
  obtain ⟨isThousands, thousands⟩ := digit_read (show n / 10 / 10 / 10 < 10 by omega)
  obtain ⟨isHundreds, hundreds⟩ := digit_read (show n / 10 / 10 % 10 < 10 by omega)
  obtain ⟨isTens, tens⟩ := digit_read (show n / 10 % 10 < 10 by omega)
  obtain ⟨isOnes, ones⟩ := digit_read (show n % 10 < 10 by omega)
  simp only [fourDigits, four, List.cons_append, List.getD_cons_zero, List.getD_cons_succ,
    isThousands, isHundreds, isTens, isOnes, thousands, hundreds, tens, ones, Bool.and_self,
    if_true, Option.some.injEq]
  omega

end Digits

section Names

theorem scanFmt_week {w : Nat} (small : w < 7) (rest : List UInt8) :
    scanFmt (bytes (week.getD w "") ++ chr ',' :: rest) = (.no, chr ',' :: rest) := by
  interval_cases w <;> rfl

theorem monthOf_months {k : Nat} (small : k < 12) (rest : List UInt8) :
    monthOf (bytes (months.getD k "") ++ rest) = some k := by
  interval_cases k <;> rfl

theorem months_length {k : Nat} (small : k < 12) : (bytes (months.getD k "")).length = 3 := by
  interval_cases k <;> rfl

end Names

section Texts

/-- The time of the day, as both formats have it. -/
def clock (hour min sec : Nat) : List UInt8 :=
  chr ' ' :: (two hour ++ chr ':' :: (two min ++ chr ':' :: (two sec ++ bytes " GMT")))

def rfc822Text (dayName monthName : List UInt8) (day year hour min sec : Nat) : List UInt8 :=
  dayName ++ chr ',' :: chr ' ' :: (two day ++ chr ' ' :: (monthName ++ chr ' ' ::
    (four year ++ clock hour min sec)))

def rfc850Text (dayName monthName : List UInt8) (day year hour min sec : Nat) : List UInt8 :=
  dayName ++ chr ',' :: chr ' ' :: (two day ++ chr '-' :: (monthName ++ chr '-' ::
    (two year ++ clock hour min sec)))

variable {dayName monthName : List UInt8} {day year hour min sec : Nat}

theorem sprintf_rfc822 (smallDay : day < 100) (low : 1000 ≤ year) (high : year < 10000)
    (smallHour : hour < 100) (smallMin : min < 100) (smallSec : sec < 100) :
    ngxSprintf "%s, %02d %s %4d %02d:%02d:%02d GMT"
        [.s dayName, .d day, .s monthName, .d year, .d hour, .d min, .d sec] =
      rfc822Text dayName monthName day year hour min sec := by
  rw [rfc822Text, clock, ← sprintf_two smallDay, ← sprintf_four low high, ← sprintf_two smallHour,
    ← sprintf_two smallMin, ← sprintf_two smallSec]
  simp [ngxSprintf, bytes, ngxVslprintf, chr, peek, isDigit, digitValue, Int.not_ofNat_neg]

theorem sprintf_rfc850 (smallDay : day < 100) (smallYear : year < 100)
    (smallHour : hour < 100) (smallMin : min < 100) (smallSec : sec < 100) :
    ngxSprintf shortForm [.s dayName, .d day, .s monthName, .d year, .d hour, .d min, .d sec] =
      rfc850Text dayName monthName day year hour min sec := by
  rw [rfc850Text, clock, ← sprintf_two smallDay, ← sprintf_two smallYear, ← sprintf_two smallHour,
    ← sprintf_two smallMin, ← sprintf_two smallSec]
  simp [ngxSprintf, shortForm, bytes, ngxVslprintf, chr, peek, isDigit, digitValue, Int.not_ofNat_neg]

theorem parseClock_clock {fmt : Fmt} (other : fmt ≠ .isoc) {k : Nat} (smallHour : hour < 100)
    (smallMin : min < 100) (smallSec : sec < 100) (valid : inRange day k year hour min sec = true) :
    parseClock fmt day k year (clock hour min sec) = some (seconds day k year hour min sec) := by
  have step (n : Nat) (rest : List UInt8) : (two n ++ rest).drop 2 = rest := rfl
  have passed (ch : UInt8) (rest : List UInt8) : pass ch (ch :: rest) = some rest := if_pos rfl
  rw [parseClock, clock]
  simp only [passed, step, twoDigits_two smallHour, twoDigits_two smallMin, twoDigits_two smallSec,
    Option.bind_eq_bind, Option.bind_some, if_neg other, if_pos valid]

theorem firstDay_rfc822 (smallDay : day < 100) {rest : List UInt8} (long : 17 ≤ rest.length) :
    firstDay (two day ++ chr ' ' :: rest) = some (day, .rfc822, rest) := by
  have step : (two day ++ chr ' ' :: rest).drop 2 = chr ' ' :: rest := rfl
  have enough : ¬(chr ' ' :: rest).length < 18 := by
    rw [List.length_cons]
    omega
  simp only [firstDay, twoDigits_two smallDay, step, Option.bind_eq_bind, Option.bind_some, peek,
    List.headD_cons, if_true, if_neg enough, List.tail_cons]

theorem firstDay_rfc850 (smallDay : day < 100) {rest : List UInt8} :
    firstDay (two day ++ chr '-' :: rest) = some (day, .rfc850, rest) := by
  have step : (two day ++ chr '-' :: rest).drop 2 = chr '-' :: rest := rfl
  have differ : ¬chr '-' = chr ' ' := by decide
  simp only [firstDay, twoDigits_two smallDay, step, Option.bind_eq_bind, Option.bind_some, peek,
    List.headD_cons, if_true, if_neg differ, List.tail_cons]

theorem parse_text {w : Nat} {fmt : Fmt} {rest after : List UInt8} (smallWeek : w < 7)
    (smallDay : day < 100) (isDate : firstDay (two day ++ rest) = some (day, fmt, after))
    (long : 16 ≤ rest.length) :
    parse (bytes (week.getD w "") ++ chr ',' :: chr ' ' :: (two day ++ rest)) =
      parseMonth fmt day after := by
  have noSpace : ∀ n < 10, (digit n == chr ' ') = false := by decide
  have skipped : (chr ' ' :: (two day ++ rest)).dropWhile (fun ch => ch == chr ' ') =
      two day ++ rest := by
    rw [List.dropWhile_cons_of_pos (by decide), two, List.cons_append,
      List.dropWhile_cons_of_neg (by simp [noSpace (day / 10) (by omega)])]
  have enough : ¬(two day ++ rest).length < 18 := by
    rw [List.length_append, two, List.length_cons, List.length_singleton]
    omega
  simp only [parse, scanFmt_week smallWeek, List.tail_cons, skipped, if_neg enough, isDate,
    Option.bind_some, reduceCtorEq, if_false]

theorem parseMonth_text {fmt : Fmt} {k : Nat} {ch : UInt8} {digits : List UInt8}
    (smallMonth : k < 12)
    (separated : (fmt = .rfc822 ∧ ch = chr ' ') ∨ (fmt = .rfc850 ∧ ch = chr '-'))
    (isYear : yearOf fmt (digits ++ clock hour min sec) = some (year, clock hour min sec))
    (smallHour : hour < 100) (smallMin : min < 100) (smallSec : sec < 100)
    (valid : inRange day k year hour min sec = true) :
    parseMonth fmt day (bytes (months.getD k "") ++ ch :: (digits ++ clock hour min sec)) =
      some (seconds day k year hour min sec) := by
  have step : (bytes (months.getD k "") ++ ch :: (digits ++ clock hour min sec)).drop 3 =
      ch :: (digits ++ clock hour min sec) := List.drop_left' (months_length smallMonth)
  have other : fmt ≠ .isoc := by
    rcases separated with ⟨rfl, -⟩ | ⟨rfl, -⟩ <;> decide
  have fine : ¬((fmt = .rfc822 ∧ ch ≠ chr ' ') ∨ (fmt = .rfc850 ∧ ch ≠ chr '-')) := by
    rcases separated with ⟨rfl, rfl⟩ | ⟨rfl, rfl⟩ <;> decide
  simp only [parseMonth, monthOf_months smallMonth, step, Option.bind_eq_bind, Option.bind_some,
    peek, List.headD_cons, if_neg fine, List.tail_cons, isYear, if_neg other,
    parseClock_clock other smallHour smallMin smallSec valid]

theorem clock_length : (clock hour min sec).length = 13 := rfl

theorem parse_rfc822 {w k : Nat} (smallWeek : w < 7) (smallMonth : k < 12) (smallDay : day < 100)
    (high : year < 10000) (smallHour : hour < 100) (smallMin : min < 100) (smallSec : sec < 100)
    (valid : inRange day k year hour min sec = true) :
    parse (rfc822Text (bytes (week.getD w "")) (bytes (months.getD k "")) day year hour min sec) =
      some (seconds day k year hour min sec) := by
  have long : 17 ≤ (bytes (months.getD k "") ++ chr ' ' :: (four year ++ clock hour min sec)).length := by
    rw [List.length_append, months_length smallMonth, List.length_cons, List.length_append,
      clock_length]
    omega
  have isYear : yearOf .rfc822 (four year ++ clock hour min sec) =
      some (year, clock hour min sec) := by
    rw [yearOf, fourDigits_four high]
    rfl
  rw [rfc822Text, parse_text smallWeek smallDay (firstDay_rfc822 smallDay long)
    (by rw [List.length_cons]; omega)]
  exact parseMonth_text smallMonth (Or.inl ⟨rfl, rfl⟩) isYear smallHour smallMin smallSec valid

theorem parse_rfc850 {w k : Nat} (smallWeek : w < 7) (smallMonth : k < 12) (smallDay : day < 100)
    (low : 1970 ≤ year) (high : year < 2070) (smallHour : hour < 100) (smallMin : min < 100)
    (smallSec : sec < 100) (valid : inRange day k year hour min sec = true) :
    parse (rfc850Text (bytes (week.getD w "")) (bytes (months.getD k "")) day (year % 100) hour min
      sec) = some (seconds day k year hour min sec) := by
  have isYear : yearOf .rfc850 (two (year % 100) ++ clock hour min sec) =
      some (year, clock hour min sec) := by
    have full : year % 100 + (if year % 100 < 70 then 2000 else 1900) = year := by
      split <;> omega
    rw [yearOf, twoDigits_two (Nat.mod_lt _ (by decide)), Option.map_some, full]
    rfl
  rw [rfc850Text, parse_text smallWeek smallDay (firstDay_rfc850 smallDay) (by
    rw [List.length_cons, List.length_append, months_length smallMonth, List.length_cons,
      List.length_append, clock_length]
    omega)]
  exact parseMonth_text smallMonth (Or.inr ⟨rfl, rfl⟩) isYear smallHour smallMin smallSec valid

end Texts

section Dates

variable {hour min sec : Nat}

theorem inRange_date (d : Date) (smallHour : hour < 24) (smallMin : min < 60) (smallSec : sec < 60) :
    inRange d.day (d.month - 1) d.year hour min sec = true := by
  have day := d.someDay
  have month := d.someMonth
  have small : ¬(23 < hour ∨ 59 < min ∨ 59 < sec) := by omega
  rw [inRange, if_neg small]
  by_cases leapDay : d.day = 29 ∧ d.month - 1 = 1
  · have february : d.month = 2 := by omega
    have leap := daysIn_february d.year
    rw [isLeap_toNat] at leap
    rw [february] at day
    rw [if_pos leapDay, decide_eq_true_iff]
    split at leap <;> omega
  · have most : ∀ m ≤ 12, 1 ≤ m → m ≠ 2 → mday.getD (m - 1) 0 = daysIn 4 m := by decide
    rw [if_neg leapDay, decide_eq_true_iff]
    by_cases february : d.month = 2
    · have leap := daysIn_february d.year
      have one := Bool.toNat_le (isLeap d.year)
      rw [february] at day
      rw [february]
      show d.day ≤ 28
      omega
    · have same : daysIn d.year d.month = daysIn 4 d.month := by
        unfold daysIn
        split
        · exact absurd ‹d.month = 2› february
        all_goals rfl
      rw [most d.month month.2 month.1 february, ← same]
      exact day.2

theorem seconds_date (d : Date) (low : 1970 ≤ d.year) (high : d.year ≤ 9999) (smallHour : hour < 24)
    (smallMin : min < 60) (smallSec : sec < 60) :
    seconds d.day (d.month - 1) d.year hour min sec =
      ((d.number : Int) - 719468) * 86400 + hour * 3600 + min * 60 + sec := by
  have day := d.someDay
  have inside := number_lt d (by omega)
  have march : (if d.month - 1 ≤ 1 then (d.month - 1 + 11, (d.year + 2 ^ 64 - 1) % 2 ^ 64)
      else (d.month - 1 - 1, d.year)) = (marchMonth d.month, marchYear d.year d.month) := by
    have month := d.someMonth
    unfold marchMonth marchYear
    by_cases early : d.month ≤ 2
    · rw [if_pos (by omega), if_pos early, if_pos early, Prod.mk.injEq]
      constructor <;> omega
    · rw [if_neg (by omega), if_neg early, if_neg early, Prod.mk.injEq]
      constructor <;> omega
  have month : 1 ≤ marchMonth d.month := by
    have := d.someMonth
    unfold marchMonth
    split <;> omega
  have late : marchYear d.year d.month ≤ 9999 := by
    unfold marchYear
    split <;> omega
  have number : (365 * (marchYear d.year d.month : Int) + (marchYear d.year d.month : Int) / 4
      - (marchYear d.year d.month : Int) / 100 + (marchYear d.year d.month : Int) / 400
      + 367 * (marchMonth d.month : Int) / 12 - 30 + d.day - 1 - 719527 + 31 + 28) =
      (d.number : Int) - 719468 := by
    rw [Date.number, dayNumber, beforeYear, beforeMonth]
    omega
  rw [beforeYear] at inside
  simp only [seconds, march, number]
  apply Int.bmod_eq_of_le <;> omega

end Dates

section RoundTrip

variable {t : Nat}

theorem seconds_of_time (bound : (dateAfter (t / 86400)).year ≤ 9999) :
    seconds (dateAfter (t / 86400)).day ((dateAfter (t / 86400)).month - 1)
      (dateAfter (t / 86400)).year (t / 3600 % 24) (t / 60 % 60) (t % 60) = t := by
  have number := dateAfter_number (t / 86400)
  rw [seconds_date _ (dateAfter_year _) bound (Nat.mod_lt _ (by decide)) (Nat.mod_lt _ (by decide))
    (Nat.mod_lt _ (by decide))]
  omega

theorem monthName_gregorian :
    monthName (gregorian t) = bytes (months.getD ((dateAfter (t / 86400)).month - 1) "") := by
  have month := (dateAfter (t / 86400)).someMonth
  have index : ((dateAfter (t / 86400)).month - 1 : Int).toNat =
      (dateAfter (t / 86400)).month - 1 := by omega
  rw [← index]
  rfl

theorem parse_httpTime (bound : (dateAfter (t / 86400)).year ≤ 9999) :
    parse (ngxHttpTime t) = some (t : Int) := by
  have early := dateAfter_year (t / 86400)
  have month := (dateAfter (t / 86400)).someMonth
  have day := (dateAfter (t / 86400)).someDay
  have most := daysIn_le (dateAfter (t / 86400)).year (dateAfter (t / 86400)).month
  have weekday := weekdayAfter_index (t / 86400)
  have text : ngxHttpTime t = rfc822Text
      (bytes (week.getD (weekdayAfter (t / 86400)).index ""))
      (bytes (months.getD ((dateAfter (t / 86400)).month - 1) "")) (dateAfter (t / 86400)).day
      (dateAfter (t / 86400)).year (t / 3600 % 24) (t / 60 % 60) (t % 60) := by
    rw [ngxHttpTime, ngxGmtime_eq bound, ← monthName_gregorian]
    apply sprintf_rfc822 <;> omega
  rw [text, parse_rfc822 (by omega) (by omega) (by omega) (by omega) (by omega) (by omega)
    (by omega) (inRange_date _ (by omega) (by omega) (by omega)), seconds_of_time bound]

theorem parse_cookieTime (bound : (dateAfter (t / 86400)).year ≤ 2037) :
    parse (ngxHttpCookieTime t) = some (t : Int) := by
  have early := dateAfter_year (t / 86400)
  have month := (dateAfter (t / 86400)).someMonth
  have day := (dateAfter (t / 86400)).someDay
  have most := daysIn_le (dateAfter (t / 86400)).year (dateAfter (t / 86400)).month
  have weekday := weekdayAfter_index (t / 86400)
  have short : ¬2037 < (gregorian t).year := by
    show ¬2037 < ((dateAfter (t / 86400)).year : Int)
    omega
  have text : ngxHttpCookieTime t = rfc850Text
      (bytes (week.getD (weekdayAfter (t / 86400)).index ""))
      (bytes (months.getD ((dateAfter (t / 86400)).month - 1) "")) (dateAfter (t / 86400)).day
      ((dateAfter (t / 86400)).year % 100) (t / 3600 % 24) (t / 60 % 60) (t % 60) := by
    rw [ngxHttpCookieTime, ngxGmtime_eq (by omega), ← monthName_gregorian]
    simp only [cookieForm, if_neg short]
    exact sprintf_rfc850 (by omega) (Nat.mod_lt _ (by decide)) (by omega) (by omega) (by omega)
  rw [text, parse_rfc850 (by omega) (by omega) (by omega) (by omega) (by omega) (by omega)
    (by omega) (by omega) (inRange_date _ (by omega) (by omega) (by omega)),
    seconds_of_time (by omega)]

end RoundTrip

/-- The broken-down time is the one of the calendar, and both formats are read back. -/
theorem times_round_trip (t : Nat) (bound : (dateAfter (t / 86400)).year ≤ 9999) :
    ngxGmtime t = gregorian t ∧
    ngxHttpParseTime (ngxHttpTime t) = t ∧
    ((dateAfter (t / 86400)).year ≤ 2069 → cookieForm (ngxGmtime t) = shortForm →
      ngxHttpParseTime (ngxHttpCookieTime t) = t) := by
  have tm := ngxGmtime_eq bound
  refine ⟨tm, ?_, ?_⟩
  · rw [ngxHttpParseTime, parse_httpTime bound]
    rfl
  · intro _ short
    have form : ¬2037 < ((dateAfter (t / 86400)).year : Int) := by
      intro long
      rw [tm, cookieForm, if_pos (show 2037 < (gregorian t).year from long)] at short
      exact absurd short (by decide)
    rw [ngxHttpParseTime, parse_cookieTime (by omega)]
    rfl

/-- February 29, 1972. -/
theorem times_round_trip_leap_day :
    (dateAfter (68212800 / 86400)).year ≤ 9999 ∧
    (dateAfter (68212800 / 86400)).year ≤ 2069 ∧
    cookieForm (ngxGmtime (68212800 : Nat)) = shortForm ∧
    ngxGmtime (68212800 : Nat) = gregorian 68212800 ∧
    ngxHttpParseTime (ngxHttpTime (68212800 : Nat)) = (68212800 : Nat) ∧
    ngxHttpParseTime (ngxHttpCookieTime (68212800 : Nat)) = (68212800 : Nat) := by
  have year : (dateAfter (68212800 / 86400)).year = 1972 := by decide +kernel
  have short : cookieForm (ngxGmtime (68212800 : Nat)) = shortForm := by decide +kernel
  obtain ⟨tm, http, cookie⟩ := times_round_trip 68212800 (by rw [year]; decide)
  exact ⟨by rw [year]; decide, by rw [year]; decide, short, tm, http,
    cookie (by rw [year]; decide) short⟩

end NgxFormal.Http.ParseTime
