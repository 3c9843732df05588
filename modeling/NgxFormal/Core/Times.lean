import NgxFormal.Basic
import NgxFormal.Lib.Calendar

/-! `ngx_gmtime` and the two date formats of `ngx_times.c`, with what `ngx_vslprintf` does for them,
on 64-bit words. -/

namespace NgxFormal.Core.Times

/-- The value as an `int`. -/
def int (x : Int) : Int := x.bmod (2 ^ 32)

/-- `ngx_tm_t` -/
structure Tm where
  sec : Int
  min : Int
  hour : Int
  mday : Int
  mon : Int
  year : Int
  wday : Int
  deriving DecidableEq, Repr

/-- `yday` and `year` of the days since March 1, 1 BC, after the correction of the year. -/
def yearDay (days : Nat) : Int × Int :=
  let year := (days + 2) * 400 / (365 * 400 + 100 - 4 + 1)
  let yday : Int := (days : Int) - (365 * year + year / 4 - year / 100 + year / 400 : Nat)
  if yday < 0 then
    let leap := if year % 4 = 0 ∧ (year % 100 ≠ 0 ∨ year % 400 = 0) then 1 else 0
    (365 + leap + yday, year - 1)
  else (yday, year)

structure Day where
  mday : Int
  mon : Int
  year : Int
  deriving DecidableEq, Repr

/-- The date of the days since March 1, 1 BC. -/
def gauss (days : Nat) : Day :=
  let (yday, year) := yearDay days
  let mon := (yday + 31) * 10 / 306
  let mday := yday - (367 * mon / 12 - 30) + 1
  if 306 ≤ yday then ⟨mday, mon - 10, year + 1⟩ else ⟨mday, mon + 2, year⟩

def ngxGmtime (t : Int) : Tm :=
  let n : Nat := (t % 2 ^ 64).toNat
  let days : Nat := n / 86400
  let wday : Nat := (4 + days) % 7
  let n : Nat := n % 86400
  let hour : Nat := n / 3600
  let n : Nat := n % 3600
  let min : Nat := n / 60
  let sec : Nat := n % 60
  -- the subtraction may wrap, the sum wraps back
  let date := gauss (days + 719527 - (31 + 28))
  ⟨int sec, int min, int hour, int date.mday, int date.mon, int date.year, int wday⟩

/-- The decimal loop of `ngx_sprintf_num`, which writes from the end backwards. -/
def decimalLoop : Nat → Nat → List UInt8 → List UInt8
  | 0, ui64, p => UInt8.ofNat (ui64 % 10 + 48) :: p
  | turns + 1, ui64, p =>
    let p := UInt8.ofNat (ui64 % 10 + 48) :: p
    if ui64 / 10 = 0 then p else decimalLoop turns (ui64 / 10) p

/-- `ngx_sprintf_num` with a decimal number. -/
def ngxSprintfNum (zero : UInt8) (width ui64 : Nat) : List UInt8 :=
  let digits := decimalLoop 20 ui64 []
  List.replicate (width - digits.length) zero ++ digits

inductive Arg where
  | s (p : List UInt8)
  | d (i64 : Int)

/-- The loop of `ngx_vslprintf` for `%s` and `%d`; within a directive it has `zero` and `width`. -/
def ngxVslprintf : Option (UInt8 × Nat) → List UInt8 → List Arg → List UInt8
  | _, [], _ => []
  | none, ch :: fmt, args =>
    if ch = chr '%' then
      ngxVslprintf (some (if peek fmt = chr '0' then chr '0' else chr ' ', 0)) fmt args
    else ch :: ngxVslprintf none fmt args
  | some (zero, width), ch :: fmt, args =>
    if isDigit ch then ngxVslprintf (some (zero, width * 10 + digitValue ch)) fmt args
    else if ch = chr 's' then
      match args with
      | .s p :: args => p ++ ngxVslprintf none fmt args
      | _ => []
    else if ch = chr 'd' then
      match args with
      | .d i64 :: args =>
        (if i64 < 0 then chr '-' :: ngxSprintfNum zero width (-i64).toNat
          else ngxSprintfNum zero width i64.toNat) ++ ngxVslprintf none fmt args
      | _ => []
    else []

def bytes (text : String) : List UInt8 := text.toList.map chr

def ngxSprintf (fmt : String) (args : List Arg) : List UInt8 := ngxVslprintf none (bytes fmt) args

def week : List String := ["Sun", "Mon", "Tue", "Wed", "Thu", "Fri", "Sat"]

def months : List String :=
  ["Jan", "Feb", "Mar", "Apr", "May", "Jun", "Jul", "Aug", "Sep", "Oct", "Nov", "Dec"]

def weekName (tm : Tm) : List UInt8 := bytes (week.getD tm.wday.toNat "")

def monthName (tm : Tm) : List UInt8 := bytes (months.getD (tm.mon - 1).toNat "")

def ngxHttpTime (t : Int) : List UInt8 :=
  let tm := ngxGmtime t
  ngxSprintf "%s, %02d %s %4d %02d:%02d:%02d GMT"
    [.s (weekName tm), .d tm.mday, .s (monthName tm), .d tm.year, .d tm.hour, .d tm.min, .d tm.sec]

def longForm : String := "%s, %02d-%s-%d %02d:%02d:%02d GMT"

def shortForm : String := "%s, %02d-%s-%02d %02d:%02d:%02d GMT"

/-- The format of `ngx_http_cookie_time`. -/
def cookieForm (tm : Tm) : String := if 2037 < tm.year then longForm else shortForm

def ngxHttpCookieTime (t : Int) : List UInt8 :=
  let tm := ngxGmtime t
  ngxSprintf (cookieForm tm)
    [.s (weekName tm), .d tm.mday, .s (monthName tm),
      .d (if 2037 < tm.year then tm.year else tm.year.tmod 100), .d tm.hour, .d tm.min, .d tm.sec]

end NgxFormal.Core.Times

/-! `ngx_vslprintf` for the directives `%V`, `%O` and `%A`, and decimal text. -/

namespace NgxFormal.Core.Sprintf

open NgxFormal.Core.Times

inductive Arg where
  | V (v : List UInt8)
  | O (i64 : Int)
  | A (ui64 : UInt64)

structure Directive where
  zero : UInt8
  width : Nat
  sign : Bool
  maxWidth : Bool

/-- `NGX_ATOMIC_T_LEN`: the length of `-9223372036854775808`. -/
def NGX_ATOMIC_T_LEN : Nat := 20

/-- A number with the `sign` flag set. -/
def signed (d : Directive) (i64 : Int) : List UInt8 :=
  if i64 < 0 then chr '-' :: ngxSprintfNum d.zero d.width (-i64).toNat
  else ngxSprintfNum d.zero d.width i64.toNat

/-- The loop of `ngx_vslprintf`; inside a directive it has its locals. -/
def ngxVslprintf : Option Directive → List UInt8 → List Arg → List UInt8
  | _, [], _ => []
  | none, ch :: fmt, args =>
    if ch = chr '%' then
      let zero := if peek fmt = chr '0' then chr '0' else chr ' '
      ngxVslprintf (some ⟨zero, 0, true, false⟩) fmt args
    else ch :: ngxVslprintf none fmt args
  | some d, ch :: fmt, args =>
    if isDigit ch then
      ngxVslprintf (some { d with width := d.width * 10 + digitValue ch }) fmt args
    else if ch = chr 'u' then ngxVslprintf (some { d with sign := false }) fmt args
    else if ch = chr 'm' then ngxVslprintf (some { d with maxWidth := true }) fmt args
    else
      match args with
      | .V v :: args => if ch = chr 'V' then v ++ ngxVslprintf none fmt args else []
      | .O i64 :: args =>
        if ch = chr 'O' then signed d i64 ++ ngxVslprintf none fmt args else []
      | .A ui64 :: args =>
        if ch = chr 'A' then
          let d := if d.maxWidth then { d with width := NGX_ATOMIC_T_LEN } else d
          (if d.sign then signed d ui64.toInt64.toInt
            else ngxSprintfNum d.zero d.width ui64.toNat) ++ ngxVslprintf none fmt args
        else []
      | [] => []

theorem ngxVslprintf_text (text fmt : List UInt8) (args : List Arg) (plain : chr '%' ∉ text) :
    ngxVslprintf none (text ++ fmt) args = text ++ ngxVslprintf none fmt args := by
  induction text with
  | nil => rfl
  | cons ch text ih =>
    obtain ⟨first, rest⟩ := not_or.mp (fun both => plain (List.mem_cons.mpr both))
    rw [List.cons_append, ngxVslprintf, if_neg (Ne.symm first), ih rest, List.cons_append]

def decimal (n : Nat) : List UInt8 := (Nat.toDigits 10 n).map chr

theorem chr_digit (n : Nat) (small : n < 10) : chr n.digitChar = UInt8.ofNat (n + 48) := by
  revert n
  decide

theorem decimalLoop_eq (turns n : Nat) (p : List UInt8) (fits : n < 10 ^ (turns + 1)) :
    decimalLoop turns n p = decimal n ++ p := by
  induction turns generalizing n p with
  | zero =>
    rw [Nat.zero_add, Nat.pow_one] at fits
    rw [decimalLoop, decimal, Nat.toDigits_of_lt_base fits, List.map_singleton,
      chr_digit n fits, Nat.mod_eq_of_lt fits]
    rfl
  | succ turns ih =>
    rw [decimalLoop]
    by_cases last : n / 10 = 0
    · have small : n < 10 := by omega
      rw [if_pos last, decimal, Nat.toDigits_of_lt_base small, List.map_singleton,
        chr_digit n small, Nat.mod_eq_of_lt small]
      rfl
    · have large : 10 ≤ n := by omega
      have shorter : n / 10 < 10 ^ (turns + 1) := by
        rw [Nat.pow_succ] at fits
        omega
      rw [if_neg last, ih (n / 10) _ shorter, decimal, decimal,
        Nat.toDigits_of_base_le (by decide) large, List.map_append, List.map_singleton,
        chr_digit _ (Nat.mod_lt n (by decide)), List.append_assoc]
      rfl

theorem ngxSprintfNum_eq (zero : UInt8) (width n : Nat) (fits : n < 10 ^ 21) :
    ngxSprintfNum zero width n =
      List.replicate (width - (decimal n).length) zero ++ decimal n := by
  rw [ngxSprintfNum, decimalLoop_eq 20 n [] fits, List.append_nil]

theorem decimal_length (n k : Nat) (some : 0 < k) (fits : n < 10 ^ k) :
    (decimal n).length ≤ k := by
  rw [decimal, List.length_map]
  exact (Nat.length_toDigits_le_iff (by decide) some).mpr fits

end NgxFormal.Core.Sprintf

/-! `ngx_gmtime` computes the Gregorian date of the day, its weekday and the time of the day. -/

namespace NgxFormal.Core.Times

open Lib.Calendar

/-- The guessed year is the right one or the one after it. -/
theorem guess_year {days year : Nat} (low : beforeYear year ≤ days)
    (high : days < beforeYear (year + 1)) :
    (days + 2) * 400 / 146097 = year ∨ (days + 2) * 400 / 146097 = year + 1 := by
  have atLeast : 146097 * year ≤ (days + 2) * 400 := by
    rw [beforeYear] at low
    omega
  have below : (days + 2) * 400 < 146097 * (year + 2) := by
    rw [beforeYear] at high
    omega
  have lower : year ≤ (days + 2) * 400 / 146097 := by
    rw [Nat.le_div_iff_mul_le (by decide)]
    omega
  have upper : (days + 2) * 400 / 146097 < year + 2 := by
    rw [Nat.div_lt_iff_lt_mul (by decide)]
    omega
  omega

theorem yearDay_spec {days year : Nat} (low : beforeYear year ≤ days)
    (high : days < beforeYear (year + 1)) :
    yearDay days = (((days - beforeYear year : Nat) : Int), (year : Int)) := by
  have guess := guess_year low high
  have next := beforeYear_succ year
  rw [isLeap_toNat] at next
  unfold yearDay
  norm_num only
  rcases guess with right | late
  · rw [right, ← beforeYear, if_neg (by omega), Nat.cast_sub low]
  · rw [late, ← beforeYear, if_pos (by omega), next, Nat.cast_sub low]
    push_cast
    rw [Prod.mk.injEq]
    constructor <;> omega

/-- The empirical formula gives the month of every day of a year that begins in March. -/
theorem month_of_day (d : Date) {yday : Nat}
    (isDay : yday = beforeMonth (marchMonth d.month) + (d.day - 1)) :
    (yday + 31) * 10 / 306 = marchMonth d.month ∧ (306 ≤ yday ↔ d.month ≤ 2) := by
  have month := d.someMonth
  have day := d.someDay
  have small : ∀ m ≤ 12, 1 ≤ m → ∀ day ≤ daysIn 4 m, 1 ≤ day →
      let yday := beforeMonth (marchMonth m) + (day - 1)
      (yday + 31) * 10 / 306 = marchMonth m ∧ (306 ≤ yday ↔ m ≤ 2) := by
    decide
  have most : daysIn d.year d.month ≤ daysIn 4 d.month := by
    unfold daysIn
    split
    · split <;> decide
    all_goals decide
  rw [isDay]
  exact small d.month month.2 month.1 d.day (day.2.trans most) day.1

theorem gauss_number (d : Date) (positive : 0 < d.year) :
    gauss d.number = ⟨d.day, d.month, d.year⟩ := by
  obtain ⟨yday, isDay⟩ : ∃ yday, yday = beforeMonth (marchMonth d.month) + (d.day - 1) := ⟨_, rfl⟩
  have number : d.number = beforeYear (marchYear d.year d.month) + yday := by
    rw [isDay, Date.number, dayNumber]
  have parts : yearDay d.number = ((yday : Int), (marchYear d.year d.month : Int)) := by
    rw [yearDay_spec (number ▸ Nat.le_add_right ..) (number_lt d positive), number,
      Nat.add_sub_cancel_left]
  obtain ⟨isMonth, isLate⟩ := month_of_day d isDay
  have month : ((yday : Int) + 31) * 10 / 306 = marchMonth d.month := by exact_mod_cast isMonth
  have first : 1 ≤ marchMonth d.month := by
    have := d.someMonth
    unfold marchMonth
    split <;> omega
  have mday : (yday : Int) - (367 * (marchMonth d.month : Int) / 12 - 30) + 1 = d.day := by
    have := d.someDay
    rw [isDay, beforeMonth]
    omega
  rw [gauss, parts]
  dsimp only
  rw [month, mday]
  by_cases early : d.month ≤ 2
  · rw [if_pos (by exact_mod_cast isLate.mpr early), marchMonth, marchYear, if_pos early,
      if_pos early]
    simp
    omega
  · rw [if_neg (by exact_mod_cast mt isLate.mp early), marchMonth, marchYear, if_neg early,
      if_neg early]
    simp
    omega

theorem int_of_small {x : Nat} (small : x < 2 ^ 31) : int x = x := by
  rw [int]
  apply Int.bmod_eq_of_le <;> omega

def gregorian (t : Nat) : Tm :=
  let d := dateAfter (t / 86400)
  ⟨(t % 60 : Nat), (t / 60 % 60 : Nat), (t / 3600 % 24 : Nat), d.day, d.month, d.year,
    (weekdayAfter (t / 86400)).index⟩

theorem days_lt {days : Nat} (bound : (dateAfter days).year ≤ 9999) : days < 3000000 := by
  have number := dateAfter_number days
  have early := dateAfter_year days
  have inside := number_lt (dateAfter days) (by omega)
  have march : marchYear (dateAfter days).year (dateAfter days).month ≤ 9999 := by
    unfold marchYear
    split <;> omega
  rw [beforeYear] at inside
  omega

theorem ngxGmtime_eq {t : Nat} (bound : (dateAfter (t / 86400)).year ≤ 9999) :
    ngxGmtime t = gregorian t := by
  have days := days_lt bound
  have early := dateAfter_year (t / 86400)
  have month := (dateAfter (t / 86400)).someMonth
  have day := (dateAfter (t / 86400)).someDay
  have most := daysIn_le (dateAfter (t / 86400)).year (dateAfter (t / 86400)).month
  have weekday := weekdayAfter_index (t / 86400)
  have n : ((t : Int) % 2 ^ 64).toNat = t := by omega
  have number : t / 86400 + 719527 - (31 + 28) = (dateAfter (t / 86400)).number := by
    have isNumber := dateAfter_number (t / 86400)
    omega
  have hour : t % 86400 / 3600 = t / 3600 % 24 := by omega
  have min : t % 86400 % 3600 / 60 = t / 60 % 60 := by omega
  have sec : t % 86400 % 3600 % 60 = t % 60 := by omega
  have positive : 0 < (dateAfter (t / 86400)).year := by omega
  have few (x m : Nat) (small : m < 2 ^ 31) (positive : 0 < m) : int (x % m : Nat) = (x % m : Nat) :=
    int_of_small ((Nat.mod_lt x positive).trans small)
  simp only [ngxGmtime, gregorian, n, number, gauss_number _ positive, hour, min, sec, ← weekday]
  rw [few t 60 (by decide) (by decide), few _ 60 (by decide) (by decide),
    few _ 24 (by decide) (by decide), int_of_small (by omega), int_of_small (by omega),
    int_of_small (by omega), int_of_small (by omega)]

end NgxFormal.Core.Times
