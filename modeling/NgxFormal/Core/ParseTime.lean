import NgxFormal.Core.Atoi

/-! `ngx_parse_time`. -/

namespace NgxFormal.Core.ParseTime

open NgxFormal.Core.Atoi (NGX_ERROR)

def NGX_MAX_INT32_VALUE : UInt64 := 0x7fffffff

inductive Step where
  | start
  | year
  | month
  | week
  | day
  | hour
  | min
  | sec
  | msec
  | last
  deriving DecidableEq, Repr

def Step.toNat : Step → Nat
  | .start => 0
  | .year => 1
  | .month => 2
  | .week => 3
  | .day => 4
  | .hour => 5
  | .min => 6
  | .sec => 7
  | .msec => 8
  | .last => 9

/-- The locals that live through the loop; `outside` notes that `*p` was read at `last`. -/
structure Locals where
  value : UInt64
  total : UInt64
  valid : Bool
  step : Step
  outside : Bool

structure Outcome where
  answer : Int64
  outside : Bool
  deriving DecidableEq

/-- What a unit leaves in `step`, `max` and `scale`; `two` if it has two letters. -/
structure Entered where
  step : Step
  max : UInt64
  scale : UInt64
  two : Bool
  deriving DecidableEq

/-- The `switch`: `ch` is `*p++`, and `next` is `*p` behind it. -/
def enter (isSec : Bool) (step : Step) (ch next : UInt8) : Option Entered :=
  if ch = chr 'y' then
    if step.toNat > Step.start.toNat then none
    else some ⟨.year, NGX_MAX_INT32_VALUE / (60 * 60 * 24 * 365), 60 * 60 * 24 * 365, false⟩
  else if ch = chr 'M' then
    if step.toNat ≥ Step.month.toNat then none
    else some ⟨.month, NGX_MAX_INT32_VALUE / (60 * 60 * 24 * 30), 60 * 60 * 24 * 30, false⟩
  else if ch = chr 'w' then
    if step.toNat ≥ Step.week.toNat then none
    else some ⟨.week, NGX_MAX_INT32_VALUE / (60 * 60 * 24 * 7), 60 * 60 * 24 * 7, false⟩
  else if ch = chr 'd' then
    if step.toNat ≥ Step.day.toNat then none
    else some ⟨.day, NGX_MAX_INT32_VALUE / (60 * 60 * 24), 60 * 60 * 24, false⟩
  else if ch = chr 'h' then
    if step.toNat ≥ Step.hour.toNat then none
    else some ⟨.hour, NGX_MAX_INT32_VALUE / (60 * 60), 60 * 60, false⟩
  else if ch = chr 'm' then
    if next = chr 's' then
      if isSec ∨ step.toNat ≥ Step.msec.toNat then none
      else some ⟨.msec, NGX_MAX_INT32_VALUE, 1, true⟩
    else if step.toNat ≥ Step.min.toNat then none
    else some ⟨.min, NGX_MAX_INT32_VALUE / 60, 60, false⟩
  else if ch = chr 's' then
    if step.toNat ≥ Step.sec.toNat then none
    else some ⟨.sec, NGX_MAX_INT32_VALUE, 1, false⟩
  else if ch = chr ' ' then
    if step.toNat ≥ Step.sec.toNat then none
    else some ⟨.last, NGX_MAX_INT32_VALUE, 1, false⟩
  else none

/-- `if (step != st_msec && !is_sec)` -/
def Entered.scaled (isSec : Bool) (e : Entered) : Entered :=
  if e.step ≠ .msec ∧ isSec = false then { e with scale := e.scale * 1000, max := e.max / 1000 }
  else e

/-- `while (p < last && *p == ' ') p++` -/
def skipSpaces (p : List UInt8) : List UInt8 := p.dropWhile (· == chr ' ')

theorem skipSpaces_length (p : List UInt8) : (skipSpaces p).length ≤ p.length :=
  List.Sublist.length_le (List.dropWhile_sublist _)

/-- The loop, from `p` on; `beyond` is the byte at `last`. -/
def loop (isSec : Bool) (beyond : UInt8) (st : Locals) : List UInt8 → Outcome
  | [] =>
    let scale := if isSec then 1 else 1000
    if st.valid then ⟨(st.total + st.value * scale).toInt64, st.outside⟩
    else ⟨NGX_ERROR, st.outside⟩
  | ch :: p =>
    if isDigit ch then
      loop isSec beyond
        { st with value := st.value * 10 + UInt64.ofNat (digitValue ch), valid := true } p
    else
      let outside := st.outside || (ch = chr 'm' && p.isEmpty)
      match enter isSec st.step ch (p.headD beyond) with
      | none => ⟨NGX_ERROR, outside⟩
      | some e =>
        let e := e.scaled isSec
        if st.value > e.max then ⟨NGX_ERROR, outside⟩
        else
          let total := st.total + st.value * e.scale
          if total > NGX_MAX_INT32_VALUE then ⟨NGX_ERROR, outside⟩
          else
            loop isSec beyond ⟨0, total, st.valid, e.step, outside⟩
              (skipSpaces (p.drop e.two.toNat))
  termination_by p => p.length
  decreasing_by
    · simp
    · exact Nat.lt_succ_of_le ((skipSpaces_length _).trans (List.drop_sublist _ _).length_le)

/-- The byte behind the string is a parameter, as the code looks at it. -/
def ngxParseTime (line : List UInt8) (beyond : UInt8) (isSec : Bool) : Outcome :=
  loop isSec beyond ⟨0, 0, false, if isSec then .start else .month, false⟩ line

end NgxFormal.Core.ParseTime

/-! The texts that `ngx_parse_time` reads, as items of a number and a unit, and what it means that
an answer is right. -/

namespace NgxFormal.Core.ParseTime

open NgxFormal.Core.Atoi (NGX_ERROR)

/-- A unit of the syntax; `bare` is a number without a unit, which counts seconds. -/
inductive TimeUnit where
  | year
  | month
  | week
  | day
  | hour
  | minute
  | second
  | millisecond
  | bare
  deriving DecidableEq, Repr

/-- The length of a unit in milliseconds; a month has 30 days and a year 365. -/
def TimeUnit.millis : TimeUnit → Nat
  | .year => 365 * 24 * 3600 * 1000
  | .month => 30 * 24 * 3600 * 1000
  | .week => 7 * 24 * 3600 * 1000
  | .day => 24 * 3600 * 1000
  | .hour => 3600 * 1000
  | .minute => 60 * 1000
  | .second => 1000
  | .millisecond => 1
  | .bare => 1000

/-- The unit that begins with `ch`, with the letter behind it. -/
def unitAt (ch : UInt8) (next : Option UInt8) : Option TimeUnit :=
  if ch = chr 'y' then some .year
  else if ch = chr 'M' then some .month
  else if ch = chr 'w' then some .week
  else if ch = chr 'd' then some .day
  else if ch = chr 'h' then some .hour
  else if ch = chr 'm' then if next = some (chr 's') then some .millisecond else some .minute
  else if ch = chr 's' then some .second
  else if ch = chr ' ' then some .bare
  else none

/-- A unit with the digits in front of it. -/
structure Item where
  number : Option Nat
  unit : TimeUnit
  deriving DecidableEq, Repr

/-- The items of a text and the number behind the last of them. -/
structure Reading where
  items : List Item
  tail : Option Nat
  deriving DecidableEq, Repr

def Item.value (item : Item) : Nat := item.number.getD 0

/-- Spaces in front of the first number are an item only for the code. -/
def Item.Named (item : Item) : Prop := item.number ≠ none ∨ item.unit ≠ .bare

instance (item : Item) : Decidable item.Named := by
  unfold Item.Named
  infer_instance

/-- The text as items; spaces behind an item belong to it. -/
def lex (n : Option Nat) : List UInt8 → Option Reading
  | [] => some ⟨[], n⟩
  | ch :: text =>
    if isDigit ch then lex (some (n.getD 0 * 10 + digitValue ch)) text
    else
      match unitAt ch text.head? with
      | none => none
      | some unit =>
        (lex none (skipSpaces (text.drop (decide (unit = .millisecond)).toNat))).map fun r =>
          ⟨⟨n, unit⟩ :: r.items, r.tail⟩
  termination_by text => text.length
  decreasing_by
    · simp
    · exact Nat.lt_succ_of_le ((skipSpaces_length _).trans (List.drop_sublist _ _).length_le)

def Larger (left right : Item) : Prop := right.unit.millis < left.unit.millis

/-- The components of a text: the items that are more than spaces, and the last number. -/
def Reading.components (r : Reading) : List Item :=
  r.items.filter (fun item => item.Named) ++
    (r.tail.map fun n => (⟨some n, .bare⟩ : Item)).toList

/-- The sum of components in milliseconds. -/
def duration (components : List Item) : Nat :=
  (components.map fun item => item.value * item.unit.millis).sum

/-- The milliseconds of the unit that the caller asks for. -/
def requested (isSec : Bool) : Nat := if isSec then 1000 else 1

/-- The answer is an error or the exact sum of components in strictly decreasing order of their
units, and only bytes of the string are read. -/
structure Exact (isSec : Bool) (line : List UInt8) (r : Outcome) : Prop where
  inside : r.outside = false
  answer : r.answer = NGX_ERROR ∨ ∃ reading, lex none line = some reading ∧
    reading.components.Pairwise Larger ∧
    r.answer.toInt * requested isSec = duration reading.components ∧
    0 ≤ r.answer.toInt ∧ r.answer.toInt ≤ 0x7fffffff

/-! ### What the code accepts -/

def TimeUnit.step : TimeUnit → Step
  | .year => .year
  | .month => .month
  | .week => .week
  | .day => .day
  | .hour => .hour
  | .minute => .min
  | .second => .sec
  | .millisecond => .msec
  | .bare => .last

/-- A unit may come behind `step`: a number without a unit has the place of the seconds, and
milliseconds are refused where seconds are asked for. -/
def allowed (isSec : Bool) (step : Step) : TimeUnit → Prop
  | .bare => step.toNat < Step.sec.toNat
  | .millisecond => isSec = false ∧ step.toNat < Step.msec.toNat
  | unit => step.toNat < unit.step.toNat

instance (isSec : Bool) (step : Step) (unit : TimeUnit) : Decidable (allowed isSec step unit) := by
  cases unit <;> unfold allowed <;> infer_instance

def Ordered (isSec : Bool) : Step → List Item → Prop
  | _, [] => True
  | step, item :: items => allowed isSec step item.unit ∧ Ordered isSec item.unit.step items

/-- The unit in the unit of the answer. -/
def scale (isSec : Bool) (unit : TimeUnit) : Nat := unit.millis / requested isSec

/-- The number that the accumulator holds. -/
def Item.low (item : Item) : Nat := item.value % 2 ^ 64

def lowSum (isSec : Bool) (items : List Item) : Nat :=
  (items.map fun item => item.low * scale isSec item.unit).sum

/-- The items pass the checks of the loop. -/
def Admitted (isSec : Bool) (items : List Item) : Prop :=
  Ordered isSec (if isSec then .start else .month) items ∧ lowSum isSec items ≤ 0x7fffffff

/-- The total of the admitted items and the last number. -/
def Reading.total (isSec : Bool) (r : Reading) : Nat :=
  lowSum isSec r.items + r.tail.getD 0 * scale isSec .bare

/-- Nothing has wrapped, and the last number is behind larger units only and keeps the bound; or
the total wraps to the value of the error. -/
def Reading.Sound (isSec : Bool) (r : Reading) : Prop :=
  r.total isSec % 2 ^ 64 = 2 ^ 64 - 1 ∨
  (∀ item ∈ r.items, item.value < 2 ^ 64) ∧
    ∀ n ∈ r.tail, (∀ item ∈ r.items, item.Named → TimeUnit.bare.millis < item.unit.millis) ∧
      r.total isSec ≤ 0x7fffffff

/-- The string ends in a letter that could begin `ms`. -/
def EndsInM (line : List UInt8) : Prop := line.getLast? = some (chr 'm')

/-- The code is right about the string. -/
def Handled (isSec : Bool) (line : List UInt8) : Prop :=
  ∀ r, lex none line = some r →
    (EndsInM line → ¬ Admitted isSec r.items.dropLast) ∧
    (¬ EndsInM line → Admitted isSec r.items → r.Sound isSec)

end NgxFormal.Core.ParseTime
