import NgxFormal.Http.TimeRoundTrip

/-! `ngx_http_parse_time` with every read checked against the end of the value. -/

namespace NgxFormal.Http.ParseTime

/-- How a run ends without a time: with `NGX_ERROR`, or at a read outside of the value. -/
inductive Stop where
  | ngxError
  | outside
  deriving DecidableEq, Repr

/-- `*(p + i)` -/
def read (p : List UInt8) (i : Nat) : Except Stop UInt8 :=
  match p[i]? with
  | some ch => .ok ch
  | none => .error .outside

/-- `if (*(p + i) < '0' || *(p + i) > '9') { return NGX_ERROR; }` -/
def readDigit (p : List UInt8) (i : Nat) : Except Stop Nat := do
  let ch ← read p i
  if isDigit ch then .ok (digitValue ch) else .error .ngxError

def readTwo (p : List UInt8) : Except Stop Nat := do
  let tens ← readDigit p 0
  let ones ← readDigit p 1
  .ok (tens * 10 + ones)

def readFour (p : List UInt8) : Except Stop Nat := do
  let thousands ← readDigit p 0
  let hundreds ← readDigit p 1
  let tens ← readDigit p 2
  let ones ← readDigit p 3
  .ok (thousands * 1000 + hundreds * 100 + tens * 10 + ones)

/-- `if (*p++ != ch) { return NGX_ERROR; }` -/
def readPass (ch : UInt8) (p : List UInt8) : Except Stop (List UInt8) := do
  let first ← read p 0
  if first = ch then .ok p.tail else .error .ngxError

def readFirstDay (p : List UInt8) : Except Stop (Nat × Fmt × List UInt8) := do
  let day ← readTwo p
  let p := p.drop 2
  let ch ← read p 0
  if ch = chr ' ' then
    if p.length < 18 then .error .ngxError else .ok (day, .rfc822, p.tail)
  else if ch = chr '-' then .ok (day, .rfc850, p.tail)
  else .error .ngxError

/-- `switch (*p)` -/
def readMonth (p : List UInt8) : Except Stop Nat := do
  let ch ← read p 0
  if ch = chr 'J' then do
    if (← read p 1) = chr 'a' then .ok 0
    else if (← read p 2) = chr 'n' then .ok 5
    else .ok 6
  else if ch = chr 'F' then .ok 1
  else if ch = chr 'M' then do if (← read p 2) = chr 'r' then .ok 2 else .ok 4
  else if ch = chr 'A' then do if (← read p 1) = chr 'p' then .ok 3 else .ok 7
  else if ch = chr 'S' then .ok 8
  else if ch = chr 'O' then .ok 9
  else if ch = chr 'N' then .ok 10
  else if ch = chr 'D' then .ok 11
  else .error .ngxError

/-- The separator behind the month, which is not read in the third format. -/
def readSeparator (fmt : Fmt) (p : List UInt8) : Except Stop Unit :=
  if fmt = .rfc822 then do
    if (← read p 0) ≠ chr ' ' then .error .ngxError else .ok ()
  else if fmt = .rfc850 then do
    if (← read p 0) ≠ chr '-' then .error .ngxError else .ok ()
  else .ok ()

def readYear (fmt : Fmt) (p : List UInt8) : Except Stop (Nat × List UInt8) :=
  match fmt with
  | .rfc822 => do
      let year ← readFour p
      .ok (year, p.drop 4)
  | .rfc850 => do
      let year ← readTwo p
      .ok (year + if year < 70 then 2000 else 1900, p.drop 2)
  | _ => .ok (0, p)

/-- `day = *p++ - '0'`, and a second digit if there is one. -/
def readDayDigits (p : List UInt8) : Except Stop (Nat × List UInt8) := do
  let day ← readDigit p 0
  let p := p.tail
  let next ← read p 0
  if next = chr ' ' then .ok (day, p)
  else do
    let ones ← readDigit p 0
    .ok (day * 10 + ones, p.tail)

def readSecondDay (p : List UInt8) : Except Stop (Nat × List UInt8) := do
  let space ← read p 0
  let (day, p) ← readDayDigits (if space = chr ' ' then p.tail else p)
  if p.length < 14 then .error .ngxError else .ok (day, p)

def readClock (fmt : Fmt) (day month year : Nat) (p : List UInt8) : Except Stop Int := do
  let p ← readPass (chr ' ') p
  let hour ← readTwo p
  let p ← readPass (chr ':') (p.drop 2)
  let min ← readTwo p
  let p ← readPass (chr ':') (p.drop 2)
  let sec ← readTwo p
  let year ←
    if fmt = .isoc then do
      let p ← readPass (chr ' ') (p.drop 2)
      readFour p
    else .ok year
  if inRange day month year hour min sec then .ok (seconds day month year hour min sec)
  else .error .ngxError

def readFromMonth (fmt : Fmt) (day : Nat) (p : List UInt8) : Except Stop Int := do
  let month ← readMonth p
  let p := p.drop 3
  readSeparator fmt p
  let (year, p) ← readYear fmt p.tail
  let (day, p) ← if fmt = .isoc then readSecondDay p else .ok (day, p)
  readClock fmt day month year p

/-- The two loops at the start read in front of `end` only. -/
def readTime (value : List UInt8) : Except Stop Int :=
  let (fmt, p) := scanFmt value
  let p := p.tail.dropWhile fun ch => ch == chr ' '
  if p.length < 18 then .error .ngxError
  else if fmt = .isoc then readFromMonth fmt 0 p
  else do
    let (day, fmt, p) ← readFirstDay p
    readFromMonth fmt day p

/-! ### No read is outside -/

/-- The answer of a run with no read outside. -/
def answer {α : Type} : Option α → Except Stop α
  | some a => .ok a
  | none => .error .ngxError

section Reads

variable {α β : Type} {p : List UInt8}

theorem bind_answer {o : Option α} {f : α → Option β} {g : α → Except Stop β}
    (same : ∀ a, o = some a → g a = answer (f a)) : (answer o >>= g) = answer (o.bind f) := by
  cases o with
  | none => rfl
  | some a => exact same a rfl

theorem ok_bind (a : α) (g : α → Except Stop β) : (Except.ok a >>= g) = g a := rfl

theorem read_inside {i : Nat} (inside : i < p.length) : read p i = .ok (p.getD i 0) := by
  rw [read, List.getElem?_eq_getElem inside, List.getD_eq_getElem?_getD,
    List.getElem?_eq_getElem inside]
  rfl

theorem readDigit_inside {i : Nat} (inside : i < p.length) :
    readDigit p i =
      answer (if isDigit (p.getD i 0) then some (digitValue (p.getD i 0)) else none) := by
  rw [readDigit, read_inside inside]
  by_cases digit : isDigit (p.getD i 0) = true
  · rw [if_pos digit]
    exact if_pos digit
  · rw [if_neg digit]
    exact if_neg digit

theorem readTwo_inside (inside : 2 ≤ p.length) : readTwo p = answer (twoDigits p) := by
  rw [readTwo, readDigit_inside (by omega), readDigit_inside (by omega), twoDigits]
  cases isDigit (p.getD 0 0) <;> cases isDigit (p.getD 1 0) <;> rfl

theorem readFour_inside (inside : 4 ≤ p.length) : readFour p = answer (fourDigits p) := by
  rw [readFour, readDigit_inside (by omega), readDigit_inside (by omega),
    readDigit_inside (by omega), readDigit_inside (by omega), fourDigits]
  cases isDigit (p.getD 0 0) <;> cases isDigit (p.getD 1 0) <;> cases isDigit (p.getD 2 0) <;>
    cases isDigit (p.getD 3 0) <;> rfl

theorem peek_getD : peek p = p.getD 0 0 := by cases p <;> rfl

theorem readPass_inside (ch : UInt8) (inside : 1 ≤ p.length) :
    readPass ch p = answer (pass ch p) := by
  rw [readPass, read_inside inside, pass, peek_getD]
  by_cases same : p.getD 0 0 = ch
  · rw [if_pos same]
    exact if_pos same
  · rw [if_neg same]
    exact if_neg same

/-- What `pass` leaves. -/
theorem pass_length {ch : UInt8} {rest : List UInt8} (some_ : pass ch p = some rest) :
    rest.length = p.length - 1 := by
  rw [pass] at some_
  split at some_
  · rw [← Option.some.inj some_, List.length_tail]
  · exact absurd some_ (by simp)

theorem readFirstDay_inside (inside : 3 ≤ p.length) :
    readFirstDay p = answer (firstDay p) := by
  rw [readFirstDay, readTwo_inside (by omega), firstDay]
  apply bind_answer
  intro day _
  have one : 0 < (p.drop 2).length := by
    rw [List.length_drop]
    omega
  simp only [read_inside one, peek_getD, ok_bind]
  by_cases space : (p.drop 2).getD 0 0 = chr ' '
  · rw [if_pos space, if_pos space]
    by_cases short : (p.drop 2).length < 18
    · rw [if_pos short, if_pos short]
      rfl
    · rw [if_neg short, if_neg short]
      rfl
  · rw [if_neg space, if_neg space]
    by_cases dash : (p.drop 2).getD 0 0 = chr '-'
    · rw [if_pos dash, if_pos dash]
      rfl
    · rw [if_neg dash, if_neg dash]
      rfl

theorem firstDay_length {day : Nat} {fmt : Fmt} {rest : List UInt8}
    (some_ : firstDay p = some (day, fmt, rest)) (inside : 18 ≤ p.length) :
    fmt = .rfc822 ∧ 17 ≤ rest.length ∨ fmt = .rfc850 ∧ 15 ≤ rest.length := by
  obtain ⟨n, _, more⟩ := Option.bind_eq_some_iff.mp some_
  simp only at more
  split at more
  · split at more
    · exact absurd more (by simp)
    · rename_i long
      injection Option.some.inj more with _ others
      injection others with sameFmt sameRest
      refine Or.inl ⟨sameFmt.symm, ?_⟩
      rw [← sameRest, List.length_tail]
      omega
  · split at more
    · injection Option.some.inj more with _ others
      injection others with sameFmt sameRest
      refine Or.inr ⟨sameFmt.symm, ?_⟩
      rw [← sameRest, List.length_tail, List.length_drop]
      omega
    · exact absurd more (by simp)

theorem readMonth_inside (inside : 3 ≤ p.length) : readMonth p = answer (monthOf p) := by
  rw [readMonth, read_inside (by omega), read_inside (by omega : 1 < p.length),
    read_inside (by omega : 2 < p.length), monthOf]
  simp only [ok_bind]
  split
  · split
    · rfl
    · split <;> rfl
  · split
    · rfl
    · split
      · split <;> rfl
      · split
        · split <;> rfl
        · repeat (split; rfl)
          rfl

theorem readSeparator_inside (fmt : Fmt) (inside : 1 ≤ p.length) :
    readSeparator fmt p =
      answer (if (fmt = .rfc822 ∧ peek p ≠ chr ' ') ∨ (fmt = .rfc850 ∧ peek p ≠ chr '-') then none
        else some ()) := by
  rw [readSeparator, read_inside inside, peek_getD]
  simp only [ok_bind]
  cases fmt with
  | no => rfl
  | isoc => rfl
  | rfc822 =>
    by_cases space : p.getD 0 0 = chr ' '
    · simp only [space]
      rfl
    · simp only [ne_eq, space, not_false_eq_true, if_true, and_self, true_or]
      rfl
  | rfc850 =>
    by_cases dash : p.getD 0 0 = chr '-'
    · simp only [dash]
      rfl
    · simp only [ne_eq, dash, not_false_eq_true, if_true, and_self, or_true]
      rfl

theorem readYear_inside (fmt : Fmt) (inside : 4 ≤ p.length) :
    readYear fmt p = answer (yearOf fmt p) := by
  cases fmt with
  | no => rfl
  | isoc => rfl
  | rfc822 =>
    rw [readYear, yearOf, readFour_inside inside]
    cases fourDigits p <;> rfl
  | rfc850 =>
    rw [readYear, yearOf, readTwo_inside (by omega)]
    cases twoDigits p <;> rfl

theorem yearOf_length {fmt : Fmt} {year : Nat} {rest : List UInt8}
    (some_ : yearOf fmt p = some (year, rest)) :
    rest.length = p.length - (if fmt = .rfc822 then 4 else if fmt = .rfc850 then 2 else 0) := by
  cases fmt with
  | no =>
    injection Option.some.inj some_ with _ same
    rw [← same]
    rfl
  | isoc =>
    injection Option.some.inj some_ with _ same
    rw [← same]
    rfl
  | rfc822 =>
    obtain ⟨n, _, same⟩ := Option.map_eq_some_iff.mp some_
    injection same with _ same
    rw [← same, List.length_drop]
    rfl
  | rfc850 =>
    obtain ⟨n, _, same⟩ := Option.map_eq_some_iff.mp some_
    injection same with _ same
    rw [← same, List.length_drop]
    rfl

/-- The digits of the day behind the space. -/
def dayDigits (p : List UInt8) : Option (Nat × List UInt8) :=
  if isDigit (peek p) then
    if peek p.tail = chr ' ' then some (digitValue (peek p), p.tail)
    else if isDigit (peek p.tail) then
      some (digitValue (peek p) * 10 + digitValue (peek p.tail), p.tail.tail)
    else none
  else none

theorem secondDay_eq (p : List UInt8) :
    secondDay p = (dayDigits (if peek p = chr ' ' then p.tail else p)).bind fun (day, p) =>
      if p.length < 14 then none else some (day, p) := by
  rw [secondDay, dayDigits]
  generalize (if peek p = chr ' ' then p.tail else p) = q
  by_cases digit : isDigit (peek q) = true
  · by_cases space : peek q.tail = chr ' '
    · simp only [digit, space, if_true]
      rfl
    · by_cases second : isDigit (peek q.tail) = true
      · simp only [digit, space, second, if_true, if_false]
        rfl
      · simp only [digit, space, second, if_true, if_false]
        rfl
  · simp only [digit]
    rfl

theorem readDayDigits_inside (inside : 2 ≤ p.length) :
    readDayDigits p = answer (dayDigits p) := by
  have one : 0 < p.tail.length := by
    rw [List.length_tail]
    omega
  rw [readDayDigits, readDigit_inside (by omega), dayDigits, peek_getD, peek_getD]
  simp only [read_inside one, readDigit_inside one]
  by_cases digit : isDigit (p.getD 0 0) = true
  · rw [if_pos digit, if_pos digit]
    by_cases space : p.tail.getD 0 0 = chr ' '
    · rw [if_pos space]
      exact if_pos space
    · rw [if_neg space]
      refine (if_neg space).trans ?_
      by_cases second : isDigit (p.tail.getD 0 0) = true
      · rw [if_pos second, if_pos second]
        rfl
      · rw [if_neg second, if_neg second]
        rfl
  · rw [if_neg digit, if_neg digit]
    rfl

theorem readSecondDay_inside (inside : 3 ≤ p.length) :
    readSecondDay p = answer (secondDay p) := by
  have behind : 2 ≤ (if p.getD 0 0 = chr ' ' then p.tail else p).length := by
    split
    · rw [List.length_tail]
      omega
    · omega
  rw [readSecondDay, read_inside (by omega), secondDay_eq, ok_bind, peek_getD,
    readDayDigits_inside behind]
  apply bind_answer
  rintro ⟨day, rest⟩ _
  by_cases short : rest.length < 14
  · simp only [short, if_true]
    rfl
  · simp only [short, if_false]
    rfl

theorem secondDay_length {day : Nat} {rest : List UInt8} (some_ : secondDay p = some (day, rest)) :
    14 ≤ rest.length := by
  rw [secondDay_eq] at some_
  obtain ⟨⟨n, q⟩, _, same⟩ := Option.bind_eq_some_iff.mp some_
  simp only at same
  split at same
  · exact absurd same (by simp)
  · injection Option.some.inj same with _ same
    rw [← same]
    omega

theorem readClock_inside {fmt : Fmt} (day month year : Nat)
    (inside : (if fmt = .isoc then 14 else 9) ≤ p.length) :
    readClock fmt day month year p = answer (parseClock fmt day month year p) := by
  have least : 9 ≤ p.length := by
    split at inside <;> omega
  have two (q : List UInt8) : (q.drop 2).length = q.length - 2 := List.length_drop
  rw [readClock, parseClock, readPass_inside _ (by omega)]
  apply bind_answer
  intro q first
  have one := pass_length first
  rw [readTwo_inside (by omega)]
  apply bind_answer
  intro hour _
  rw [readPass_inside _ (by rw [two]; omega)]
  apply bind_answer
  intro r second
  have three := pass_length second
  rw [two] at three
  rw [readTwo_inside (by omega)]
  apply bind_answer
  intro min _
  rw [readPass_inside _ (by rw [two]; omega)]
  apply bind_answer
  intro s third
  have four := pass_length third
  rw [two] at four
  rw [readTwo_inside (by omega)]
  apply bind_answer
  intro sec _
  have checked (year : Nat) :
      (if inRange day month year hour min sec then .ok (seconds day month year hour min sec)
        else .error .ngxError) =
      answer (if inRange day month year hour min sec then
        some (seconds day month year hour min sec) else none) := by
    split <;> rfl
  by_cases isoc : fmt = .isoc
  · rw [if_pos isoc] at inside
    simp only [if_pos isoc, readPass_inside _ (by rw [two]; omega : 1 ≤ (s.drop 2).length),
      Option.bind_eq_bind, Option.bind_assoc]
    apply bind_answer
    intro q fifth
    have five := pass_length fifth
    rw [two] at five
    rw [readFour_inside (by omega)]
    apply bind_answer
    intro year _
    exact checked year
  · simp only [if_neg isoc]
    exact checked year

/-- How much is left of a date from the month on. -/
def monthRoom : Fmt → Nat
  | .rfc822 => 17
  | .rfc850 => 15
  | _ => 18

theorem readFromMonth_inside {fmt : Fmt} (day : Nat) (inside : monthRoom fmt ≤ p.length) :
    readFromMonth fmt day p = answer (parseMonth fmt day p) := by
  have least : 15 ≤ p.length := by
    cases fmt <;> simp only [monthRoom] at inside <;> omega
  have three : (p.drop 3).length = p.length - 3 := List.length_drop
  rw [readFromMonth, parseMonth, readMonth_inside (by omega)]
  apply bind_answer
  intro month _
  simp only
  rw [readSeparator_inside fmt (by omega)]
  by_cases bad : (fmt = .rfc822 ∧ peek (p.drop 3) ≠ chr ' ') ∨
      (fmt = .rfc850 ∧ peek (p.drop 3) ≠ chr '-')
  · rw [if_pos bad, if_pos bad]
    rfl
  · rw [if_neg bad, if_neg bad]
    have tail : (p.drop 3).tail.length = p.length - 4 := by
      rw [List.length_tail, three]
      omega
    rw [readYear_inside fmt (by omega), answer, ok_bind]
    apply bind_answer
    rintro ⟨year, q⟩ read
    have length := yearOf_length read
    rw [tail] at length
    simp only
    by_cases isoc : fmt = .isoc
    · subst isoc
      simp only [monthRoom] at inside
      simp only [reduceCtorEq, if_false] at length
      rw [if_pos rfl, if_pos rfl, readSecondDay_inside (by omega)]
      apply bind_answer
      rintro ⟨day, r⟩ second
      exact readClock_inside day month year (secondDay_length second)
    · rw [if_neg isoc, if_neg isoc]
      have clock : (if fmt = .isoc then 14 else 9) ≤ q.length := by
        rw [if_neg isoc, length]
        cases fmt with
        | isoc => exact absurd rfl isoc
        | no => simp; omega
        | rfc822 =>
          simp only [monthRoom] at inside
          simp
          omega
        | rfc850 =>
          simp
          omega
      exact readClock_inside day month year clock

theorem readTime_eq (value : List UInt8) : readTime value = answer (parse value) := by
  rw [readTime, parse]
  generalize scanFmt value = scanned
  obtain ⟨fmt, p⟩ := scanned
  simp only
  generalize p.tail.dropWhile (fun ch => ch == chr ' ') = q
  by_cases short : q.length < 18
  · rw [if_pos short, if_pos short]
    rfl
  · rw [if_neg short, if_neg short]
    by_cases isoc : fmt = .isoc
    · rw [if_pos isoc, if_pos isoc, isoc]
      exact readFromMonth_inside 0 (Nat.not_lt.mp short)
    · rw [if_neg isoc, if_neg isoc, readFirstDay_inside (by omega)]
      apply bind_answer
      rintro ⟨day, fmt, r⟩ first
      rcases firstDay_length first (by omega) with ⟨rfl, room⟩ | ⟨rfl, room⟩
      · exact readFromMonth_inside day room
      · exact readFromMonth_inside day room

end Reads

end NgxFormal.Http.ParseTime
