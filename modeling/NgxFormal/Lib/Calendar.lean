import Mathlib.Tactic.IntervalCases

/-! The proleptic Gregorian calendar, and the count of days in years that begin in March. -/

namespace NgxFormal.Lib.Calendar

def isLeap (year : Nat) : Bool := year % 4 = 0 && (year % 100 ≠ 0 || year % 400 = 0)

def daysIn (year : Nat) : Nat → Nat
  | 2 => if isLeap year then 29 else 28
  | 4 | 6 | 9 | 11 => 30
  | _ => 31

@[ext] structure Date where
  year : Nat
  month : Nat
  day : Nat
  someMonth : 1 ≤ month ∧ month ≤ 12
  someDay : 1 ≤ day ∧ day ≤ daysIn year month
  deriving DecidableEq, Repr

theorem one_le_daysIn (year month : Nat) : 1 ≤ daysIn year month := by
  unfold daysIn
  split
  · split <;> decide
  all_goals decide

/-- The day after. -/
def Date.next (d : Date) : Date :=
  if more : d.day < daysIn d.year d.month then
    ⟨d.year, d.month, d.day + 1, d.someMonth, Nat.le_add_left .., more⟩
  else if early : d.month < 12 then
    ⟨d.year, d.month + 1, 1, ⟨Nat.le_add_left .., early⟩, le_rfl, one_le_daysIn ..⟩
  else ⟨d.year + 1, 1, 1, by decide, le_rfl, one_le_daysIn ..⟩

inductive Weekday where
  | sunday
  | monday
  | tuesday
  | wednesday
  | thursday
  | friday
  | saturday
  deriving DecidableEq, Repr

def Weekday.next : Weekday → Weekday
  | .sunday => .monday
  | .monday => .tuesday
  | .tuesday => .wednesday
  | .wednesday => .thursday
  | .thursday => .friday
  | .friday => .saturday
  | .saturday => .sunday

def Weekday.index : Weekday → Nat
  | .sunday => 0
  | .monday => 1
  | .tuesday => 2
  | .wednesday => 3
  | .thursday => 4
  | .friday => 5
  | .saturday => 6

/-- January 1, 1970, a Thursday. -/
def epoch : Date := ⟨1970, 1, 1, by decide, by decide⟩

def dateAfter (days : Nat) : Date := Date.next^[days] epoch

def weekdayAfter (days : Nat) : Weekday := Weekday.next^[days] .thursday

theorem weekdayAfter_index (days : Nat) : (weekdayAfter days).index = (4 + days) % 7 := by
  induction days with
  | zero => rfl
  | succ days ih =>
    have step (day : Weekday) : day.next.index = (day.index + 1) % 7 := by cases day <;> rfl
    rw [weekdayAfter, Function.iterate_succ_apply', step, ← weekdayAfter, ih]
    omega

/-- The days between March 1 of the year 0 and March 1 of `year`. -/
def beforeYear (year : Nat) : Nat := 365 * year + year / 4 - year / 100 + year / 400

/-- The days between March 1 and the month, counted from March as the first. -/
def beforeMonth (month : Nat) : Nat := 367 * month / 12 - 30

/-- January and February belong to the year before. -/
def marchYear (year month : Nat) : Nat := if month ≤ 2 then year - 1 else year

def marchMonth (month : Nat) : Nat := if month ≤ 2 then month + 10 else month - 2

/-- The days since March 1 of the year 0. -/
def dayNumber (year month day : Nat) : Nat :=
  beforeYear (marchYear year month) + (beforeMonth (marchMonth month) + (day - 1))

def Date.number (d : Date) : Nat := dayNumber d.year d.month d.day

theorem isLeap_toNat (year : Nat) : (isLeap year).toNat =
    if year % 4 = 0 ∧ (year % 100 ≠ 0 ∨ year % 400 = 0) then 1 else 0 := by
  have leap : isLeap year = true ↔ year % 4 = 0 ∧ (year % 100 ≠ 0 ∨ year % 400 = 0) := by
    simp [isLeap]
  split
  · rename_i here
    rw [leap.mpr here, Bool.toNat_true]
  · rename_i elsewhere
    rw [Bool.eq_false_iff.mpr (mt leap.mp elsewhere), Bool.toNat_false]

theorem beforeYear_succ (year : Nat) :
    beforeYear (year + 1) = beforeYear year + 365 + (isLeap (year + 1)).toNat := by
  have quarter : (year + 1) / 4 = year / 4 + if (year + 1) % 4 = 0 then 1 else 0 := by
    simp only [Nat.succ_div, Nat.dvd_iff_mod_eq_zero]
  have century : (year + 1) / 100 = year / 100 + if (year + 1) % 100 = 0 then 1 else 0 := by
    simp only [Nat.succ_div, Nat.dvd_iff_mod_eq_zero]
  have fourth : (year + 1) / 400 = year / 400 + if (year + 1) % 400 = 0 then 1 else 0 := by
    simp only [Nat.succ_div, Nat.dvd_iff_mod_eq_zero]
  have less : year / 100 ≤ year / 4 := Nat.div_le_div_left (by decide) (by decide)
  have inside : (year + 1) % 400 = 0 → (year + 1) % 100 = 0 := by omega
  have within : (year + 1) % 100 = 0 → (year + 1) % 4 = 0 := by omega
  rw [isLeap_toNat, beforeYear, beforeYear, quarter, century, fourth]
  generalize year / 4 = quarters at less ⊢
  generalize year / 100 = centuries at less ⊢
  generalize year / 400 = fourths
  clear quarter century fourth
  by_cases ofFourth : (year + 1) % 400 = 0
  · rw [if_pos ofFourth, if_pos (inside ofFourth), if_pos (within (inside ofFourth)),
      if_pos ⟨within (inside ofFourth), Or.inr ofFourth⟩]
    omega
  · by_cases ofCentury : (year + 1) % 100 = 0
    · rw [if_neg ofFourth, if_pos ofCentury, if_pos (within ofCentury), if_neg (by tauto)]
      omega
    · by_cases ofQuarter : (year + 1) % 4 = 0
      · rw [if_neg ofFourth, if_neg ofCentury, if_pos ofQuarter,
          if_pos ⟨ofQuarter, Or.inl ofCentury⟩]
        omega
      · rw [if_neg ofFourth, if_neg ofCentury, if_neg ofQuarter, if_neg (by tauto)]
        omega

theorem daysIn_february (year : Nat) : daysIn year 2 = 28 + (isLeap year).toNat := by
  rw [daysIn]
  cases isLeap year <;> rfl

theorem dayNumber_month {year month : Nat} (positive : 0 < year) (low : 1 ≤ month)
    (early : month < 12) : dayNumber year (month + 1) 1 = dayNumber year month (daysIn year month) + 1 := by
  obtain ⟨year, rfl⟩ : ∃ before, year = before + 1 := ⟨year - 1, by omega⟩
  have leap := beforeYear_succ year
  have february := daysIn_february (year + 1)
  interval_cases month
  case «2» =>
    rw [february]
    simp only [dayNumber, marchYear, marchMonth, beforeMonth]
    simp
    omega
  all_goals simp [dayNumber, marchYear, marchMonth, beforeMonth, daysIn]

theorem number_next (d : Date) (positive : 0 < d.year) : d.next.number = d.number + 1 := by
  have first := d.someDay.1
  have last := d.someDay.2
  have month := d.someMonth
  unfold Date.next Date.number
  split_ifs with more early
  · simp only [dayNumber]
    omega
  · have ends : d.day = daysIn d.year d.month := by omega
    rw [ends]
    exact dayNumber_month positive month.1 early
  · have ends : d.day = daysIn d.year d.month := by omega
    have december : d.month = 12 := by omega
    rw [ends, december]
    simp [dayNumber, marchYear, marchMonth, beforeMonth, daysIn]

theorem next_year (d : Date) : d.year ≤ d.next.year := by
  unfold Date.next
  split_ifs
  · exact le_rfl
  · exact le_rfl
  · exact Nat.le_succ _

theorem dateAfter_succ (days : Nat) : dateAfter (days + 1) = (dateAfter days).next :=
  Function.iterate_succ_apply' ..

theorem dateAfter_year (days : Nat) : 1970 ≤ (dateAfter days).year := by
  induction days with
  | zero => exact le_rfl
  | succ days ih =>
    rw [dateAfter_succ]
    exact ih.trans (next_year _)

/-- March 1, 1 BC was 719468 days before the epoch. -/
theorem dateAfter_number (days : Nat) : (dateAfter days).number = days + 719468 := by
  induction days with
  | zero =>
    have number : epoch.number = 719468 := by decide
    rw [Nat.zero_add]
    exact number
  | succ days ih =>
    have year := dateAfter_year days
    have step := number_next (dateAfter days) (by omega)
    rw [dateAfter_succ]
    omega

theorem daysIn_le (year month : Nat) : daysIn year month ≤ 31 := by
  unfold daysIn
  split
  · split <;> decide
  all_goals decide

theorem marchDay_lt (d : Date) (positive : 0 < d.year) :
    beforeMonth (marchMonth d.month) + (d.day - 1) <
      365 + (isLeap (marchYear d.year d.month + 1)).toNat := by
  have last := d.someDay.2
  have most := daysIn_le d.year d.month
  have month := d.someMonth
  by_cases february : d.month = 2
  · rw [february, daysIn_february] at last
    have same : marchYear d.year 2 + 1 = d.year := by
      rw [marchYear, if_pos le_rfl]
      omega
    have before : beforeMonth (marchMonth 2) = 337 := by decide
    rw [february, same, before]
    omega
  · have : beforeMonth (marchMonth d.month) ≤ 306 := by
      simp only [beforeMonth, marchMonth]
      split <;> omega
    omega

theorem number_lt (d : Date) (positive : 0 < d.year) :
    d.number < beforeYear (marchYear d.year d.month + 1) := by
  have inside := marchDay_lt d positive
  rw [beforeYear_succ, Date.number, dayNumber]
  omega

end NgxFormal.Lib.Calendar
