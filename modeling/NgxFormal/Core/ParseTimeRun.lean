import NgxFormal.Core.ParseTime
import Mathlib.Algebra.Order.BigOperators.Group.List
import Mathlib.Algebra.Order.Ring.Nat

/-! The run of `ngx_parse_time` over a text is the check of its items. -/

namespace NgxFormal.Core.ParseTime

open NgxFormal.Core.Atoi (NGX_ERROR)

/-! ### One unit -/

/-- What a unit leaves behind the scaling. -/
def entered (isSec : Bool) (unit : TimeUnit) : Entered :=
  ⟨unit.step, UInt64.ofNat (0x7fffffff / scale isSec unit), UInt64.ofNat (scale isSec unit),
    decide (unit = .millisecond)⟩

def enterUnit (isSec : Bool) (step : Step) (unit : TimeUnit) : Option Entered :=
  if allowed isSec step unit then some (entered isSec unit) else none

theorem case_eq {isSec : Bool} {step : Step} (unit : TimeUnit) {e : Entered} {guard : Prop}
    [Decidable guard] (refused : guard ↔ ¬ allowed isSec step unit)
    (result : allowed isSec step unit → e.scaled isSec = entered isSec unit) :
    (if guard then none else some e).map (Entered.scaled isSec) = enterUnit isSec step unit := by
  rw [enterUnit]
  by_cases fits : allowed isSec step unit
  · rw [if_pos fits, if_neg fun no => refused.mp no fits, Option.map_some, result fits]
  · rw [if_neg fits, if_pos (refused.mpr fits)]
    rfl

theorem enter_eq (isSec : Bool) (step : Step) (ch next : UInt8) :
    (enter isSec step ch next).map (Entered.scaled isSec) =
      (unitAt ch (some next)).bind (enterUnit isSec step) := by
  rw [enter, unitAt]
  by_cases y : ch = chr 'y'
  · rw [if_pos y, if_pos y]
    exact case_eq .year Nat.not_lt.symm fun _ => by cases isSec <;> decide
  by_cases M : ch = chr 'M'
  · rw [if_neg y, if_neg y, if_pos M, if_pos M]
    exact case_eq .month Nat.not_lt.symm fun _ => by cases isSec <;> decide
  by_cases w : ch = chr 'w'
  · rw [if_neg y, if_neg y, if_neg M, if_neg M, if_pos w, if_pos w]
    exact case_eq .week Nat.not_lt.symm fun _ => by cases isSec <;> decide
  by_cases d : ch = chr 'd'
  · rw [if_neg y, if_neg y, if_neg M, if_neg M, if_neg w, if_neg w, if_pos d, if_pos d]
    exact case_eq .day Nat.not_lt.symm fun _ => by cases isSec <;> decide
  by_cases h : ch = chr 'h'
  · rw [if_neg y, if_neg y, if_neg M, if_neg M, if_neg w, if_neg w, if_neg d, if_neg d,
      if_pos h, if_pos h]
    exact case_eq .hour Nat.not_lt.symm fun _ => by cases isSec <;> decide
  rw [if_neg y, if_neg y, if_neg M, if_neg M, if_neg w, if_neg w, if_neg d, if_neg d, if_neg h,
    if_neg h]
  by_cases m : ch = chr 'm'
  · rw [if_pos m, if_pos m]
    by_cases ms : next = chr 's'
    · rw [ms, if_pos rfl, if_pos rfl]
      exact case_eq .millisecond (by cases isSec <;> simp [allowed]) fun fits => by
        rw [fits.1]
        decide
    · rw [if_neg ms, if_neg fun same => ms (Option.some.inj same)]
      exact case_eq .minute Nat.not_lt.symm fun _ => by
        cases isSec <;> decide
  by_cases s : ch = chr 's'
  · rw [if_neg m, if_neg m, if_pos s, if_pos s]
    exact case_eq .second Nat.not_lt.symm fun _ => by cases isSec <;> decide
  by_cases space : ch = chr ' '
  · rw [if_neg m, if_neg m, if_neg s, if_neg s, if_pos space, if_pos space]
    exact case_eq .bare Nat.not_lt.symm fun _ => by cases isSec <;> decide
  rw [if_neg m, if_neg m, if_neg s, if_neg s, if_neg space, if_neg space]
  rfl

/-! ### The last letter -/

theorem endsInM_cons {ch : UInt8} {p : List UInt8} (other : ch ≠ chr 'm' ∨ p ≠ []) :
    EndsInM (ch :: p) ↔ EndsInM p := by
  rw [EndsInM, EndsInM, List.getLast?_cons]
  cases last : p.getLast? with
  | none =>
    have empty : p = [] := List.getLast?_eq_none_iff.mp last
    have plain : ch ≠ chr 'm' := other.resolve_right fun filled => filled empty
    simpa using plain
  | some byte => rfl

theorem endsInM_skipSpaces (p : List UInt8) : EndsInM (skipSpaces p) ↔ EndsInM p := by
  induction p with
  | nil => rfl
  | cons ch p ih =>
    rw [skipSpaces, List.dropWhile_cons]
    split
    · rename_i space
      have plain : ch ≠ chr 'm' := by
        rw [beq_iff_eq.mp space]
        decide
      exact ih.trans (endsInM_cons (Or.inl plain)).symm
    · rfl

theorem unitAt_millisecond {ch : UInt8} {next : Option UInt8}
    (unit : unitAt ch next = some .millisecond) : next = some (chr 's') := by
  by_contra other
  revert unit
  rw [unitAt, if_neg other]
  repeat' split
  all_goals simp

/-- The letter behind `m` decides only between its two units. -/
theorem unitAt_eq_none {ch : UInt8} {next : Option UInt8} (other : Option UInt8)
    (unknown : unitAt ch next = none) :
    ch ≠ chr 'm' ∧ unitAt ch other = none := by
  have plain : ch ≠ chr 'm' := by
    intro same
    rw [same] at unknown
    by_cases s : next = some (chr 's')
    · rw [s] at unknown
      exact absurd unknown (by decide)
    · rw [unitAt, if_neg s] at unknown
      exact absurd unknown (by decide)
  rw [unitAt, if_neg plain] at unknown ⊢
  exact ⟨plain, unknown⟩

theorem unitAt_congr {ch : UInt8} {p : List UInt8} (beyond : UInt8)
    (other : ch ≠ chr 'm' ∨ p ≠ []) : unitAt ch (some (p.headD beyond)) = unitAt ch p.head? := by
  cases p with
  | nil =>
    have plain : ch ≠ chr 'm' := other.resolve_right fun filled => filled rfl
    rw [unitAt, unitAt, if_neg plain, if_neg plain]
  | cons next p => rfl

theorem endsInM_unit {ch : UInt8} {p : List UInt8} {unit : TimeUnit}
    (other : ch ≠ chr 'm' ∨ p ≠ []) (found : unitAt ch p.head? = some unit) :
    EndsInM (skipSpaces (p.drop (decide (unit = .millisecond)).toNat)) ↔ EndsInM (ch :: p) := by
  rw [endsInM_skipSpaces, endsInM_cons other]
  by_cases two : unit = .millisecond
  · rw [two] at found ⊢
    cases p with
    | nil => rfl
    | cons next p =>
      have letter : next = chr 's' := Option.some.inj (unitAt_millisecond found)
      have plain : next ≠ chr 'm' := by
        rw [letter]
        decide
      exact (endsInM_cons (Or.inl plain)).symm
  · rw [decide_eq_false two]
    rfl

/-! ### One turn -/

/-- The locals hold the number that is being read and the total. -/
structure Holds (st : Locals) (n : Option Nat) (total : Nat) : Prop where
  value : st.value.toNat = n.getD 0 % 2 ^ 64
  total : st.total.toNat = total
  valid : st.valid = false → n = none

theorem scale_pos (isSec : Bool) {unit : TimeUnit} {step : Step}
    (fits : allowed isSec step unit) : 0 < scale isSec unit ∧ scale isSec unit < 2 ^ 40 := by
  cases isSec with
  | false => cases unit <;> decide
  | true =>
    cases unit with
    | millisecond => exact absurd fits.1 (by decide)
    | _ => decide

/-- The product is within the bound if and only if the number is. -/
theorem bounded_iff {low scale : Nat} (positive : 0 < scale) :
    low ≤ 0x7fffffff / scale ↔ low * scale ≤ 0x7fffffff :=
  Nat.le_div_iff_mul_le positive

theorem loop_unit (isSec : Bool) (beyond : UInt8) {st : Locals} {n : Option Nat} {total : Nat}
    {ch : UInt8} {p : List UInt8} {unit : TimeUnit} (holds : Holds st n total)
    (bound : total ≤ 0x7fffffff) (letter : isDigit ch = false)
    (other : ch ≠ chr 'm' ∨ p ≠ []) (found : unitAt ch p.head? = some unit) :
    (allowed isSec st.step unit ∧ total + (n.getD 0 % 2 ^ 64) * scale isSec unit ≤ 0x7fffffff →
      ∃ st', loop isSec beyond st (ch :: p) =
          loop isSec beyond st' (skipSpaces (p.drop (decide (unit = .millisecond)).toNat)) ∧
        Holds st' none (total + (n.getD 0 % 2 ^ 64) * scale isSec unit) ∧
        st'.step = unit.step ∧ st'.valid = st.valid ∧ st'.outside = st.outside) ∧
    (¬ (allowed isSec st.step unit ∧
        total + (n.getD 0 % 2 ^ 64) * scale isSec unit ≤ 0x7fffffff) →
      loop isSec beyond st (ch :: p) = ⟨NGX_ERROR, st.outside⟩) := by
  have inside : (st.outside || (decide (ch = chr 'm') && p.isEmpty)) = st.outside := by
    rcases other with plain | filled
    · simp [plain]
    · simp [filled]
  have entering := enter_eq isSec st.step ch (p.headD beyond)
  rw [unitAt_congr beyond other, found, Option.bind_some, enterUnit] at entering
  rw [loop, letter, if_neg Bool.false_ne_true, inside]
  by_cases fits : allowed isSec st.step unit
  · rw [if_pos fits] at entering
    obtain ⟨e, result, scaled⟩ := Option.map_eq_some_iff.mp entering
    obtain ⟨positive, small⟩ := scale_pos isSec fits
    have quotient : 0x7fffffff / scale isSec unit ≤ 0x7fffffff := Nat.div_le_self _ _
    have maxNat : (UInt64.ofNat (0x7fffffff / scale isSec unit)).toNat =
        0x7fffffff / scale isSec unit :=
      UInt64.toNat_ofNat_of_lt' (by rw [UInt64.size]; omega)
    have scaleNat : (UInt64.ofNat (scale isSec unit)).toNat = scale isSec unit :=
      UInt64.toNat_ofNat_of_lt' (by rw [UInt64.size]; omega)
    simp only [result, scaled, entered]
    have low := holds.value
    generalize n.getD 0 % 2 ^ 64 = number at low ⊢
    by_cases fit : number * scale isSec unit ≤ 0x7fffffff
    · have notOver : ¬ st.value > UInt64.ofNat (0x7fffffff / scale isSec unit) := by
        rw [GT.gt, UInt64.lt_iff_toNat_lt, maxNat, low, Nat.not_lt]
        exact (bounded_iff positive).mpr fit
      have sum : (st.total + st.value * UInt64.ofNat (scale isSec unit)).toNat =
          total + number * scale isSec unit := by
        rw [UInt64.toNat_add, UInt64.toNat_mul, scaleNat, low, holds.total]
        omega
      rw [if_neg notOver]
      by_cases kept : total + number * scale isSec unit ≤ 0x7fffffff
      · have notFull : ¬ st.total + st.value * UInt64.ofNat (scale isSec unit) >
            NGX_MAX_INT32_VALUE := by
          rw [GT.gt, UInt64.lt_iff_toNat_lt, sum, Nat.not_lt]
          exact kept
        rw [if_neg notFull]
        refine ⟨fun _ => ⟨_, rfl, ⟨rfl, sum, fun _ => rfl⟩, rfl, rfl, rfl⟩, ?_⟩
        intro refused
        exact absurd ⟨fits, kept⟩ refused
      · have full : st.total + st.value * UInt64.ofNat (scale isSec unit) >
            NGX_MAX_INT32_VALUE := by
          rw [GT.gt, UInt64.lt_iff_toNat_lt, sum]
          exact Nat.not_le.mp kept
        rw [if_pos full]
        exact ⟨fun both => absurd both.2 kept, fun _ => rfl⟩
    · have large : st.value > UInt64.ofNat (0x7fffffff / scale isSec unit) := by
        rw [GT.gt, UInt64.lt_iff_toNat_lt, maxNat, low, ← Nat.not_le]
        exact fun inside => fit ((bounded_iff positive).mp inside)
      rw [if_pos large]
      refine ⟨fun both => absurd both.2 ?_, fun _ => rfl⟩
      omega
  · rw [if_neg fits] at entering
    have refused : enter isSec st.step ch (p.headD beyond) = none :=
      Option.map_eq_none_iff.mp entering
    simp only [refused]
    exact ⟨fun both => absurd both.1 fits, fun _ => trivial⟩

theorem loop_digit (isSec : Bool) (beyond : UInt8) {st : Locals} {n : Option Nat} {total : Nat}
    {ch : UInt8} (p : List UInt8) (holds : Holds st n total) (digit : isDigit ch = true) :
    ∃ st', loop isSec beyond st (ch :: p) = loop isSec beyond st' p ∧
      Holds st' (some (n.getD 0 * 10 + digitValue ch)) total ∧
      st'.step = st.step ∧ st'.valid = true ∧ st'.outside = st.outside := by
  rw [loop, if_pos digit]
  refine ⟨_, rfl, ⟨?_, holds.total, fun impossible => absurd impossible (by simp)⟩, rfl, rfl, rfl⟩
  rw [UInt64.toNat_add, UInt64.toNat_mul, holds.value, UInt64.toNat_ofNat']
  simp only [Option.getD_some, UInt64.reduceToNat]
  omega

/-- Behind the last `m` the byte at `last` is read. -/
theorem loop_m (isSec : Bool) (beyond : UInt8) (st : Locals) :
    (loop isSec beyond st [chr 'm']).outside = true := by
  have letter : ¬ isDigit (chr 'm') = true := by decide
  have read : (st.outside || (decide (chr 'm' = chr 'm') && ([] : List UInt8).isEmpty)) = true := by
    simp
  have done (st' : Locals) : (loop isSec beyond st' []).outside = st'.outside := by
    rw [loop]
    split <;> rfl
  have nothing (two : Bool) : skipSpaces (([] : List UInt8).drop two.toNat) = [] := by
    cases two <;> rfl
  rw [loop, if_neg letter, read]
  cases enter isSec st.step (chr 'm') (([] : List UInt8).headD beyond) with
  | none => rfl
  | some e =>
    simp only
    split
    · rfl
    · split
      · rfl
      · rw [nothing, done]

/-! ### The run -/

theorem lowSum_cons (isSec : Bool) (item : Item) (items : List Item) :
    lowSum isSec (item :: items) = item.low * scale isSec item.unit + lowSum isSec items := by
  rw [lowSum, lowSum, List.map_cons, List.sum_cons]

theorem loop_unreadable (isSec : Bool) (beyond : UInt8) {st : Locals} {n : Option Nat} {total : Nat}
    {text : List UInt8} (holds : Holds st n total) (bound : total ≤ 0x7fffffff)
    (unreadable : lex n text = none) :
    loop isSec beyond st text = ⟨NGX_ERROR, st.outside⟩ := by
  fun_induction lex n text generalizing st total with
  | case1 => exact absurd unreadable (by simp)
  | case2 n ch text digit ih =>
    obtain ⟨st', next, holds', _, _, outside⟩ := loop_digit isSec beyond text holds digit
    rw [next, ih holds' bound unreadable, outside]
  | case3 n ch text letter unknown =>
    obtain ⟨plain, unknown'⟩ := unitAt_eq_none (some (text.headD beyond)) unknown
    have inside : (st.outside || (decide (ch = chr 'm') && text.isEmpty)) = st.outside := by
      simp [plain]
    have entering := enter_eq isSec st.step ch (text.headD beyond)
    rw [unknown', Option.bind_none] at entering
    rw [loop, if_neg letter, inside, Option.map_eq_none_iff.mp entering]
  | case4 n ch text letter unit found ih =>
    have rest := Option.map_eq_none_iff.mp unreadable
    have other : ch ≠ chr 'm' ∨ text ≠ [] := by
      refine Or.inr fun empty => ?_
      rw [empty, List.drop_nil, skipSpaces, List.dropWhile_nil, lex] at rest
      exact absurd rest (by simp)
    obtain ⟨accepted, refused⟩ := loop_unit isSec beyond holds bound
      (by simpa using letter) other found
    by_cases fits : allowed isSec st.step unit ∧
        total + (n.getD 0 % 2 ^ 64) * scale isSec unit ≤ 0x7fffffff
    · obtain ⟨st', next, holds', _, _, outside⟩ := accepted fits
      rw [next, ih holds' fits.2 rest, outside]
    · exact refused fits

theorem last_answer {isSec : Bool} {st : Locals} {n : Option Nat} {total : Nat}
    (holds : Holds st n total) :
    (st.total + st.value * if isSec then 1 else 1000).toInt64 =
      Int64.ofNat (total + Reading.total isSec ⟨[], n⟩) := by
  have value : st.value = UInt64.ofNat (n.getD 0) := by
    apply UInt64.toNat.inj
    rw [holds.value, UInt64.toNat_ofNat']
  have sum : st.total = UInt64.ofNat total := by
    rw [← holds.total, UInt64.ofNat_toNat]
  have factor : (if isSec then 1 else 1000 : UInt64) = UInt64.ofNat (scale isSec .bare) := by
    cases isSec <;> rfl
  have empty : lowSum isSec [] = 0 := rfl
  rw [value, sum, factor, ← UInt64.ofNat_mul, ← UInt64.ofNat_add, UInt64.toInt64_ofNat',
    Reading.total, empty, Nat.zero_add]

/-- A text that does not end in `m` is admitted or refused by its items; an admitted one gives the
total, or an error where it has no number at all. -/
theorem loop_readable (isSec : Bool) (beyond : UInt8) {st : Locals} {n : Option Nat} {total : Nat}
    {text : List UInt8} {r : Reading} (holds : Holds st n total) (bound : total ≤ 0x7fffffff)
    (readable : lex n text = some r) (closed : ¬ EndsInM text) :
    (loop isSec beyond st text).outside = st.outside ∧
    (¬ (Ordered isSec st.step r.items ∧ total + lowSum isSec r.items ≤ 0x7fffffff) →
      (loop isSec beyond st text).answer = NGX_ERROR) ∧
    (Ordered isSec st.step r.items ∧ total + lowSum isSec r.items ≤ 0x7fffffff →
      (loop isSec beyond st text).answer = Int64.ofNat (total + r.total isSec) ∨
      (loop isSec beyond st text).answer = NGX_ERROR ∧ st.valid = false ∧
        (∀ item ∈ r.items, item.number = none) ∧ r.tail = none) := by
  fun_induction lex n text generalizing st total r with
  | case1 n =>
    rw [← Option.some.inj readable, loop]
    cases valid : st.valid with
    | false =>
      rw [holds.valid valid]
      refine ⟨rfl, fun no => absurd ⟨trivial, bound⟩ no, fun _ => Or.inr ?_⟩
      exact ⟨rfl, rfl, List.forall_mem_nil _, rfl⟩
    | true =>
      exact ⟨rfl, fun no => absurd ⟨trivial, bound⟩ no, fun _ => Or.inl (last_answer holds)⟩
  | case2 n ch text digit ih =>
    have plain : ch ≠ chr 'm' := by
      intro same
      rw [same] at digit
      exact absurd digit (by decide)
    obtain ⟨st', next, holds', step, valid, outside⟩ := loop_digit isSec beyond text holds digit
    obtain ⟨reads, refused, accepted⟩ := ih holds' bound readable
      fun ends => closed ((endsInM_cons (Or.inl plain)).mpr ends)
    rw [step] at refused accepted
    rw [next]
    refine ⟨reads.trans outside, refused, fun fits => Or.inl ?_⟩
    rcases accepted fits with answer | empty
    · exact answer
    · rw [valid] at empty
      exact absurd empty.2.1 (by simp)
  | case3 n ch text letter unknown => exact absurd readable (by simp)
  | case4 n ch text letter unit found ih =>
    obtain ⟨rest, lexed, result⟩ := Option.map_eq_some_iff.mp readable
    have other : ch ≠ chr 'm' ∨ text ≠ [] := by
      by_contra last
      rw [not_or, not_not, not_not] at last
      rw [last.1, last.2] at closed
      exact closed rfl
    have closed' : ¬ EndsInM
        (skipSpaces (text.drop (decide (unit = .millisecond)).toNat)) :=
      fun ends => closed ((endsInM_unit other found).mp ends)
    obtain ⟨go, stop⟩ := loop_unit isSec beyond holds bound
      (by simpa using letter) other found
    rw [← result]
    simp only [Ordered, lowSum_cons, Item.low, Item.value]
    by_cases fits : allowed isSec st.step unit ∧
        total + (n.getD 0 % 2 ^ 64) * scale isSec unit ≤ 0x7fffffff
    · obtain ⟨st', next, holds', step, valid, outside⟩ := go fits
      obtain ⟨reads, refused, accepted⟩ := ih holds' fits.2 lexed closed'
      rw [step, Nat.add_assoc] at refused accepted
      rw [next]
      refine ⟨reads.trans outside, fun no => refused fun both => no ⟨⟨fits.1, both.1⟩, both.2⟩,
        fun both => ?_⟩
      rcases accepted ⟨both.1.2, both.2⟩ with answer | empty
      · left
        rw [answer]
        congr 1
        simp only [Reading.total, lowSum_cons, Item.low, Item.value]
        omega
      · right
        obtain ⟨error, invalid, numbers, tail⟩ := empty
        rw [valid] at invalid
        exact ⟨error, invalid, List.forall_mem_cons.mpr ⟨holds.valid invalid, numbers⟩, tail⟩
    · rw [stop fits]
      refine ⟨rfl, fun _ => rfl, fun both => absurd ⟨both.1.1, ?_⟩ fits⟩
      omega

theorem items_of_cut {n : Option Nat} {text : List UInt8} {r : Reading}
    (readable : lex n text = some r) (cut : EndsInM text) :
    ∃ front item, r.items = front ++ [item] := by
  have filled : r.items ≠ [] := by
    fun_induction lex n text generalizing r with
    | case1 n => exact absurd cut (by simp [EndsInM])
    | case2 n ch text digit ih =>
      have plain : ch ≠ chr 'm' := by
        intro same
        rw [same] at digit
        exact absurd digit (by decide)
      exact ih readable ((endsInM_cons (Or.inl plain)).mp cut)
    | case3 n ch text letter unknown => exact absurd readable (by simp)
    | case4 n ch text letter unit found ih =>
      obtain ⟨rest, _, result⟩ := Option.map_eq_some_iff.mp readable
      rw [← result]
      exact List.cons_ne_nil _ _
  exact ⟨r.items.dropLast, r.items.getLast filled, (List.dropLast_append_getLast filled).symm⟩

/-- A text that ends in `m` makes the code read behind it, unless an item in front of the last one
is refused. -/
theorem loop_cut (isSec : Bool) (beyond : UInt8) {st : Locals} {n : Option Nat} {total : Nat}
    {text : List UInt8} {r : Reading} (holds : Holds st n total) (bound : total ≤ 0x7fffffff)
    (readable : lex n text = some r) (cut : EndsInM text) :
    ∃ front item, r.items = front ++ [item] ∧
      (Ordered isSec st.step front ∧ total + lowSum isSec front ≤ 0x7fffffff →
        (loop isSec beyond st text).outside = true) ∧
      (¬ (Ordered isSec st.step front ∧ total + lowSum isSec front ≤ 0x7fffffff) →
        loop isSec beyond st text = ⟨NGX_ERROR, st.outside⟩) := by
  fun_induction lex n text generalizing st total r with
  | case1 n => exact absurd cut (by simp [EndsInM])
  | case2 n ch text digit ih =>
    have plain : ch ≠ chr 'm' := by
      intro same
      rw [same] at digit
      exact absurd digit (by decide)
    obtain ⟨st', next, holds', step, _, outside⟩ := loop_digit isSec beyond text holds digit
    have again := ih holds' bound readable ((endsInM_cons (Or.inl plain)).mp cut)
    rwa [step, outside, ← next] at again
  | case3 n ch text letter unknown => exact absurd readable (by simp)
  | case4 n ch text letter unit found ih =>
    obtain ⟨rest, lexed, result⟩ := Option.map_eq_some_iff.mp readable
    by_cases last : ch = chr 'm' ∧ text = []
    · rw [last.2, List.drop_nil, skipSpaces, List.dropWhile_nil, lex] at lexed
      rw [← result, ← Option.some.inj lexed, last.1, last.2]
      refine ⟨[], ⟨n, unit⟩, rfl, fun _ => loop_m isSec beyond st, ?_⟩
      intro no
      exact absurd ⟨trivial, bound⟩ no
    · have other : ch ≠ chr 'm' ∨ text ≠ [] := by
        rwa [Decidable.not_and_iff_or_not] at last
      obtain ⟨go, stop⟩ := loop_unit isSec beyond holds bound
        (by simpa using letter) other found
      have cut' := (endsInM_unit other found).mpr cut
      by_cases fits : allowed isSec st.step unit ∧
          total + (n.getD 0 % 2 ^ 64) * scale isSec unit ≤ 0x7fffffff
      · obtain ⟨st', next, holds', step, _, outside⟩ := go fits
        obtain ⟨front, item, items, accepted, refused⟩ := ih holds' fits.2 lexed cut'
        rw [step, Nat.add_assoc] at accepted refused
        rw [outside] at refused
        refine ⟨⟨n, unit⟩ :: front, item, ?_, ?_, ?_⟩
        · rw [← result, items]
          rfl
        · rw [lowSum_cons, next]
          exact fun both => accepted ⟨both.1.2, both.2⟩
        · rw [lowSum_cons, next]
          exact fun no => refused fun both => no ⟨⟨fits.1, both.1⟩, both.2⟩
      · have first := stop fits
        obtain ⟨front, item, items⟩ := items_of_cut lexed cut'
        refine ⟨⟨n, unit⟩ :: front, item, ?_, ?_, fun _ => first⟩
        · rw [← result, items]
          rfl
        · rw [lowSum_cons]
          refine fun both => absurd ⟨both.1.1, ?_⟩ fits
          have sum := both.2
          simp only [Item.low, Item.value] at sum
          omega

end NgxFormal.Core.ParseTime

/-! When `ngx_parse_time` is right. -/

namespace NgxFormal.Core.ParseTime

open NgxFormal.Core.Atoi (NGX_ERROR)

/-! ### The sum of the components -/

theorem allowed_smaller {isSec : Bool} {before unit : TimeUnit}
    (fits : allowed isSec before.step unit) : unit.millis < before.millis := by
  revert fits
  cases isSec <;> cases before <;> cases unit <;> decide

instance : Trans Larger Larger Larger :=
  ⟨fun left right => Nat.lt_trans right left⟩

theorem Ordered.pairwise {isSec : Bool} {step : Step} {items : List Item}
    (ordered : Ordered isSec step items) : items.Pairwise Larger := by
  apply List.isChain_iff_pairwise.mp
  induction items generalizing step with
  | nil => exact .nil
  | cons item items ih =>
    cases items with
    | nil => exact .singleton item
    | cons next items => exact .cons_cons (allowed_smaller ordered.2.1) (ih ordered.2)

theorem allowed_scale {isSec : Bool} {step : Step} {unit : TimeUnit}
    (fits : allowed isSec step unit) : scale isSec unit * requested isSec = unit.millis := by
  cases isSec with
  | false => cases unit <;> rfl
  | true =>
    cases unit with
    | millisecond => exact absurd fits.1 (by decide)
    | _ => rfl

theorem duration_cons (item : Item) (items : List Item) :
    duration (item :: items) = item.value * item.unit.millis + duration items := by
  rw [duration, duration, List.map_cons, List.sum_cons]

theorem duration_append (first second : List Item) :
    duration (first ++ second) = duration first + duration second := by
  rw [duration, duration, duration, List.map_append, List.sum_append]

theorem duration_named (items : List Item) :
    duration (items.filter fun item => item.Named) = duration items := by
  induction items with
  | nil => rfl
  | cons item items ih =>
    rw [List.filter_cons, duration_cons]
    split
    · rw [duration_cons, ih]
    · rename_i unnamed
      have empty : item.number = none := by
        by_contra some
        exact unnamed (decide_eq_true (Or.inl some))
      rw [ih, Item.value, empty]
      simp

theorem duration_components (r : Reading) :
    duration r.components = duration r.items + r.tail.getD 0 * 1000 := by
  rw [Reading.components, duration_append, duration_named]
  cases r.tail with
  | none => rfl
  | some n => simp [duration, Item.value, TimeUnit.millis]

theorem lowSum_exact {isSec : Bool} {step : Step} {items : List Item}
    (ordered : Ordered isSec step items) (small : ∀ item ∈ items, item.value < 2 ^ 64) :
    lowSum isSec items * requested isSec = duration items := by
  induction items generalizing step with
  | nil => exact Nat.zero_mul _
  | cons item items ih =>
    obtain ⟨first, rest⟩ := List.forall_mem_cons.mp small
    rw [lowSum_cons, duration_cons, Nat.add_mul, ih ordered.2 rest, Item.low,
      Nat.mod_eq_of_lt first, Nat.mul_assoc, allowed_scale ordered.1]

theorem total_exact {isSec : Bool} {step : Step} {r : Reading}
    (ordered : Ordered isSec step r.items) (small : ∀ item ∈ r.items, item.value < 2 ^ 64) :
    r.total isSec * requested isSec = duration r.components := by
  have bare : scale isSec .bare * requested isSec = 1000 := by
    cases isSec <;> rfl
  rw [Reading.total, Nat.add_mul, lowSum_exact ordered small, duration_components, Nat.mul_assoc,
    bare]

theorem value_le_duration {item : Item} {items : List Item} (member : item ∈ items) :
    item.value ≤ duration items := by
  have positive : 0 < item.unit.millis := by
    cases item.unit <;> decide
  calc
    item.value ≤ item.value * item.unit.millis := Nat.le_mul_of_pos_right _ positive
    _ ≤ duration items := List.single_le_sum (fun _ _ => Nat.zero_le _) _
      (List.mem_map_of_mem member)

/-! ### When the code is right -/

theorem ofNat_eq_error {n : Nat} (wraps : n % 2 ^ 64 = 2 ^ 64 - 1) : Int64.ofNat n = NGX_ERROR := by
  apply Int64.toInt.inj
  rw [Atoi.toInt_ofNat, if_neg (by omega)]
  have error : NGX_ERROR.toInt = -1 := rfl
  omega

theorem ofNat_ne_error {n : Nat} (other : n % 2 ^ 64 ≠ 2 ^ 64 - 1) : Int64.ofNat n ≠ NGX_ERROR := by
  intro same
  have value := congrArg Int64.toInt same
  have error : NGX_ERROR.toInt = -1 := rfl
  rw [Atoi.toInt_ofNat, error] at value
  split at value <;> omega

theorem requested_pos (isSec : Bool) : 0 < requested isSec ∧ requested isSec ≤ 1000 := by
  cases isSec <;> decide

theorem exact_of_sound {isSec : Bool} {line : List UInt8} {r : Reading} {step : Step}
    (readable : lex none line = some r) (ordered : Ordered isSec step r.items)
    (bound : lowSum isSec r.items ≤ 0x7fffffff) (sound : r.Sound isSec) :
    Int64.ofNat (r.total isSec) = NGX_ERROR ∨ ∃ reading, lex none line = some reading ∧
      reading.components.Pairwise Larger ∧
      (Int64.ofNat (r.total isSec)).toInt * requested isSec = duration reading.components ∧
      0 ≤ (Int64.ofNat (r.total isSec)).toInt ∧
      (Int64.ofNat (r.total isSec)).toInt ≤ 0x7fffffff := by
  rcases sound with wraps | exactly
  · exact Or.inl (ofNat_eq_error wraps)
  · obtain ⟨small, behind⟩ := exactly
    have limit : r.total isSec ≤ 0x7fffffff := by
      cases tail : r.tail with
      | none => rwa [Reading.total, tail, Option.getD_none, Nat.zero_mul, Nat.add_zero]
      | some n => exact (behind n tail).2
    have integer : (Int64.ofNat (r.total isSec)).toInt = r.total isSec :=
      Int64.toInt_ofNat_of_lt (by omega)
    refine Or.inr ⟨r, readable, ?_, ?_, ?_, ?_⟩
    · rw [Reading.components, List.pairwise_append]
      refine ⟨ordered.pairwise.filter _, ?_, ?_⟩
      · cases r.tail with
        | none => exact .nil
        | some n => exact List.pairwise_singleton _ _
      · intro item member last isLast
        obtain ⟨isItem, named⟩ := List.mem_filter.mp member
        cases tail : r.tail with
        | none =>
          rw [tail] at isLast
          exact absurd isLast (by simp)
        | some n =>
          rw [tail, Option.map_some, Option.toList_some, List.mem_singleton] at isLast
          rw [isLast]
          exact (behind n tail).1 item isItem (of_decide_eq_true named)
    · rw [integer, ← total_exact ordered small]
      exact (Int.natCast_mul _ _).symm
    · omega
    · omega

theorem sound_of_exact {isSec : Bool} {line : List UInt8} {r : Reading} {step : Step}
    (readable : lex none line = some r) (ordered : Ordered isSec step r.items)
    (exactly : ∃ reading, lex none line = some reading ∧
      reading.components.Pairwise Larger ∧
      (Int64.ofNat (r.total isSec)).toInt * requested isSec = duration reading.components ∧
      0 ≤ (Int64.ofNat (r.total isSec)).toInt ∧
      (Int64.ofNat (r.total isSec)).toInt ≤ 0x7fffffff) : r.Sound isSec := by
  obtain ⟨reading, same, decreasing, sum, positive, limit⟩ := exactly
  rw [readable] at same
  rw [← Option.some.inj same] at decreasing sum
  have factor := (requested_pos isSec).2
  have short : (duration r.components : Int) ≤ 0x7fffffff * 1000 := by
    rw [← sum]
    exact Int.mul_le_mul limit (by omega) (by omega) (by omega)
  have parts := duration_components r
  have small : ∀ item ∈ r.items, item.value < 2 ^ 64 := by
    intro item member
    have part := value_le_duration member
    omega
  refine Or.inr ⟨small, fun n tail => ⟨?_, ?_⟩⟩
  · intro item member named
    rw [Reading.components, List.pairwise_append] at decreasing
    apply decreasing.2.2 item (List.mem_filter.mpr ⟨member, decide_eq_true named⟩) ⟨some n, .bare⟩
    rw [Option.mem_def.mp tail]
    exact List.mem_singleton_self _
  · have exactTotal := total_exact ordered small
    have same : ((r.total isSec * requested isSec : Nat) : Int) =
        (Int64.ofNat (r.total isSec)).toInt * requested isSec := by
      rw [sum, exactTotal]
    rw [Int.natCast_mul] at same
    have nonzero : (requested isSec : Int) ≠ 0 := by
      have := (requested_pos isSec).1
      omega
    have total := Int.eq_of_mul_eq_mul_right nonzero same
    omega

/-- `ngx_parse_time` is right about a string if and only if the string is one that it handles. -/
theorem ngxParseTime_iff (line : List UInt8) (beyond : UInt8) (isSec : Bool) :
    Exact isSec line (ngxParseTime line beyond isSec) ↔ Handled isSec line := by
  have holds : Holds ⟨0, 0, false, if isSec then .start else .month, false⟩ none 0 :=
    ⟨rfl, rfl, fun _ => rfl⟩
  cases readable : lex none line with
  | none =>
    have run := loop_unreadable isSec beyond holds (by decide) readable
    rw [ngxParseTime, run]
    constructor
    · intro _ r impossible
      rw [readable] at impossible
      exact absurd impossible (by simp)
    · exact fun _ => ⟨rfl, Or.inl rfl⟩
  | some r =>
    have only (P : Reading → Prop) : (∀ r', lex none line = some r' → P r') ↔ P r := by
      rw [readable]
      exact ⟨fun all => all r rfl, fun one r' same => Option.some.inj same ▸ one⟩
    rw [Handled, only]
    by_cases cut : EndsInM line
    · obtain ⟨front, item, items, read, refused⟩ := loop_cut isSec beyond
        holds (by decide) readable cut
      rw [Nat.zero_add] at read refused
      rw [items, List.dropLast_concat, ngxParseTime]
      constructor
      · intro exactly
        refine ⟨fun _ admitted => ?_, fun closed => absurd cut closed⟩
        have outside := exactly.inside
        rw [read admitted] at outside
        exact absurd outside (by simp)
      · intro handled
        rw [refused (handled.1 cut)]
        exact ⟨rfl, Or.inl rfl⟩
    · obtain ⟨inside, refused, accepted⟩ := loop_readable isSec beyond
        holds (by decide) readable cut
      rw [Nat.zero_add] at refused accepted
      rw [Nat.zero_add] at accepted
      rw [ngxParseTime]
      by_cases admitted : Admitted isSec r.items
      · rcases accepted admitted with answer | empty
        · constructor
          · intro exactly
            refine ⟨fun ends => absurd ends cut, fun _ _ => ?_⟩
            rcases exactly.answer with error | sum
            · rw [answer] at error
              left
              by_contra other
              exact ofNat_ne_error other error
            · rw [answer] at sum
              exact sound_of_exact readable admitted.1 sum
          · intro handled
            refine ⟨inside, ?_⟩
            rw [answer]
            exact exact_of_sound readable admitted.1 admitted.2 (handled.2 cut admitted)
        · obtain ⟨error, _, numbers, tail⟩ := empty
          constructor
          · intro _
            refine ⟨fun ends => absurd ends cut, fun _ _ => Or.inr ⟨?_, ?_⟩⟩
            · intro item member
              rw [Item.value, numbers item member]
              decide
            · intro n impossible
              rw [tail] at impossible
              exact absurd impossible (by simp)
          · exact fun _ => ⟨inside, Or.inl error⟩
      · constructor
        · intro _
          exact ⟨fun ends => absurd ends cut, fun _ fits => absurd fits admitted⟩
        · exact fun _ => ⟨inside, Or.inl (refused admitted)⟩

/-- A number without a unit is not held to the bound, and `m` at the end is looked behind. -/
theorem ngxParseTime_fails :
    (ngxParseTime ("4294967296".toList.map chr) 0 true).answer = 4294967296 ∧
    (ngxParseTime ("5m".toList.map chr) 0 true).outside = true ∧
    ¬ Exact true ("4294967296".toList.map chr) (ngxParseTime ("4294967296".toList.map chr) 0 true) ∧
    ¬ Exact true ("5m".toList.map chr) (ngxParseTime ("5m".toList.map chr) 0 true) := by
  have large : (ngxParseTime ("4294967296".toList.map chr) 0 true).answer = 4294967296 := by
    decide +kernel
  have read : (ngxParseTime ("5m".toList.map chr) 0 true).outside = true := by
    decide +kernel
  refine ⟨large, read, fun exactly => ?_, fun exactly => ?_⟩
  · rcases exactly.answer with error | sum
    · rw [large] at error
      exact absurd error (by decide)
    · obtain ⟨_, _, _, _, _, limit⟩ := sum
      rw [large] at limit
      exact absurd limit (by decide)
  · have inside := exactly.inside
    rw [read] at inside
    exact absurd inside (by decide)

end NgxFormal.Core.ParseTime
