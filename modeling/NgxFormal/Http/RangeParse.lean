import NgxFormal.Basic
import Mathlib.Algebra.Order.BigOperators.Group.List

/-! `ngx_http_range_parse`, with `off_t` arithmetic in 64-bit two's complement. -/

namespace NgxFormal.Http.RangeFilter

/-- The value of an `off_t` expression. -/
def offT (x : Int) : Int := x.bmod (2 ^ 64)

/-- The part of `ngx_http_range_t` that the parser fills; `stop` is the source's `end`. -/
structure Range where
  start : Int
  stop : Int
  deriving DecidableEq, Repr

inductive Rc where
  | ok
  | declined
  | notSatisfiable
  deriving DecidableEq, Repr

def skipSpaces (p : List UInt8) : List UInt8 := p.dropWhile fun ch => ch == chr ' '

/-- `while (*p >= '0' && *p <= '9') { x = x * 10 + *p++ - '0'; }` -/
def scanNumber (x : Int) : List UInt8 → Int × List UInt8
  | [] => (x, [])
  | ch :: rest =>
    if isDigit ch then scanNumber (offT (x * 10 + digitValue ch)) rest else (x, ch :: rest)

/-- From the second number of a piece to the label `found`. -/
def parseEnd (contentLength : Int) (suffix : Bool) (start : Int) (p : List UInt8) :
    Option (Range × List UInt8) :=
  if isDigit (peek p) then
    let (stop, p) := scanNumber 0 p
    let p := skipSpaces p
    if peek p ≠ chr ',' ∧ peek p ≠ 0 then none
    else
      let (start, stop) :=
        if suffix then (offT (contentLength - stop), offT (contentLength - 1)) else (start, stop)
      some (⟨start, if contentLength ≤ stop then contentLength else offT (stop + 1)⟩, p)
  else none

/-- One piece of the header, up to `found`; `none` is `NGX_HTTP_RANGE_NOT_SATISFIABLE`. -/
def parsePiece (contentLength : Int) (p : List UInt8) : Option (Range × List UInt8) :=
  let p := skipSpaces p
  if peek p ≠ chr '-' then
    if isDigit (peek p) then
      let (start, p) := scanNumber 0 p
      let p := skipSpaces p
      if peek p ≠ chr '-' then none
      else
        let p := skipSpaces p.tail
        if peek p = chr ',' ∨ peek p = 0 then some (⟨start, contentLength⟩, p)
        else parseEnd contentLength false start p
    else none
  else parseEnd contentLength true 0 p.tail

/-- The outer loop with the tests behind it. The fuel bounds the number of pieces; every piece
but the last consumes its comma. -/
def rangeLoop (contentLength : Int) :
    Nat → List UInt8 → List Range → Int → Nat → Option (Rc × List Range)
  | 0, _, _, _, _ => none
  | fuel + 1, p, stored, size, ranges =>
    match parsePiece contentLength p with
    | none => some (.notSatisfiable, stored)
    | some (range, p) =>
      if range.start < range.stop ∧ ranges = 0 then
        -- ngx_array_push() comes before the test of `ranges--`
        some (.declined, stored ++ [range])
      else
        let kept := range.start < range.stop
        let stored := if kept then stored ++ [range] else stored
        let size := if kept then offT (size + offT (range.stop - range.start)) else size
        let ranges := if kept then ranges - 1 else ranges
        if peek p = chr ',' then rangeLoop contentLength fuel p.tail stored size ranges
        else if stored = [] then some (.notSatisfiable, stored)
        else if contentLength < size then some (.declined, stored)
        else some (.ok, stored)

/-- `value` is the header value behind `bytes=`, without its terminating NUL; `ranges` is
`max_ranges`. -/
def ngxHttpRangeParse (contentLength : Int) (ranges : Nat) (value : List UInt8) :
    Option (Rc × List Range) :=
  rangeLoop contentLength (value.length + 1) value [] 0 ranges

/-- One piece as it is written, with the numbers it denotes. -/
inductive Piece where
  | fromTo (first last : Nat)
  | fromOn (first : Nat)
  | suffix (length : Nat)
  deriving DecidableEq, Repr

def readNumber (x : Nat) : List UInt8 → Nat × List UInt8
  | [] => (x, [])
  | ch :: rest =>
    if isDigit ch then readNumber (x * 10 + digitValue ch) rest else (x, ch :: rest)

/-- The grammar of one piece, with unbounded numbers. -/
def readPiece (p : List UInt8) : Option (Piece × List UInt8) :=
  let p := skipSpaces p
  if peek p = chr '-' then
    let (length, rest) := readNumber 0 p.tail
    let rest := skipSpaces rest
    if isDigit (peek p.tail) ∧ (peek rest = chr ',' ∨ peek rest = 0) then
      some (.suffix length, rest)
    else none
  else if isDigit (peek p) then
    let (first, p) := readNumber 0 p
    let p := skipSpaces p
    if peek p = chr '-' then
      let p := skipSpaces p.tail
      if peek p = chr ',' ∨ peek p = 0 then some (.fromOn first, p)
      else
        let (last, rest) := readNumber 0 p
        let rest := skipSpaces rest
        if isDigit (peek p) ∧ (peek rest = chr ',' ∨ peek rest = 0) then
          some (.fromTo first last, rest)
        else none
    else none
  else none

/-- The comma-separated pieces of a header value; `none` if it is malformed. -/
def readPieces : Nat → List UInt8 → Option (List Piece)
  | 0, _ => none
  | fuel + 1, p =>
    match readPiece p with
    | none => none
    | some (piece, rest) =>
      if peek rest = chr ',' then (readPieces fuel rest.tail).map (piece :: ·)
      else some [piece]

def headerPieces (value : List UInt8) : Option (List Piece) :=
  readPieces (value.length + 1) value

/-- The byte range that the 64-bit arithmetic makes of a piece. -/
def Piece.range (contentLength : Int) : Piece → Range
  | .fromTo first last =>
    ⟨offT first, if contentLength ≤ offT last then contentLength else offT last + 1⟩
  | .fromOn first => ⟨offT first, contentLength⟩
  | .suffix length => ⟨offT (contentLength - length), contentLength⟩

/-- The pieces that denote a non-empty range. -/
def satisfiable (contentLength : Int) (pieces : List Piece) : List Range :=
  (pieces.map (Piece.range contentLength)).filter fun range => range.start < range.stop

/-- The number of bytes asked for, before any reduction. -/
def totalLength (ranges : List Range) : Int :=
  (ranges.map fun range => range.stop - range.start).sum

end NgxFormal.Http.RangeFilter

/-! When every range that `ngx_http_range_parse` stores lies inside the response. -/

namespace NgxFormal.Http.RangeFilter

theorem offT_eq {x : Int} (low : -2 ^ 63 ≤ x) (high : x < 2 ^ 63) : offT x = x :=
  Int.bmod_eq_of_le_mul_two (by omega) (by omega)

theorem offT_bounds (x : Int) : -2 ^ 63 ≤ offT x ∧ offT x < 2 ^ 63 := by
  have low := Int.le_bmod (x := x) (m := 2 ^ 64) (by decide)
  have high := Int.bmod_lt (x := x) (m := 2 ^ 64) (by decide)
  rw [offT]
  omega

theorem scanNumber_eq (x : Nat) (p : List UInt8) :
    scanNumber (offT x) p = (offT (readNumber x p).1, (readNumber x p).2) := by
  induction p generalizing x with
  | nil => rfl
  | cons ch rest ih =>
    rw [scanNumber, readNumber]
    split
    · have step : offT (offT x * 10 + digitValue ch) = offT ((x * 10 + digitValue ch : Nat)) := by
        simp only [offT]
        push_cast
        rw [Int.add_bmod, Int.bmod_mul_bmod, ← Int.add_bmod]
      rw [step]
      exact ih _
    · rfl

theorem scanNumber_zero (p : List UInt8) :
    scanNumber 0 p = (offT (readNumber 0 p).1, (readNumber 0 p).2) :=
  scanNumber_eq 0 p

/-- The test behind the second number, as it is written and as the grammar has it. -/
theorem terminator_iff (ch first second : UInt8) :
    ¬ (ch ≠ first ∧ ch ≠ second) ↔ ch = first ∨ ch = second := by
  tauto

section Content

variable {contentLength : Int} (nonneg : 0 ≤ contentLength) (fits : contentLength < 2 ^ 63)

include nonneg fits

theorem parseEnd_suffix (p : List UInt8) :
    parseEnd contentLength true 0 p =
      if isDigit (peek p) ∧ (peek (skipSpaces (readNumber 0 p).2) = chr ',' ∨
          peek (skipSpaces (readNumber 0 p).2) = 0) then
        some ((Piece.suffix (readNumber 0 p).1).range contentLength,
          skipSpaces (readNumber 0 p).2)
      else none := by
  rw [parseEnd, scanNumber_zero]
  by_cases digit : isDigit (peek p)
  · have last : offT (contentLength - 1) = contentLength - 1 := offT_eq (by omega) (by omega)
    have whole : offT (contentLength - 1 + 1) = contentLength := by
      rw [Int.sub_add_cancel]
      exact offT_eq (by omega) fits
    have start : offT (contentLength - offT (readNumber 0 p).1) =
        offT (contentLength - (readNumber 0 p).1) := by
      simp only [offT]
      rw [Int.sub_bmod_bmod]
    have below : ¬ contentLength ≤ contentLength - 1 := by omega
    by_cases terminated : peek (skipSpaces (readNumber 0 p).2) = chr ',' ∨
        peek (skipSpaces (readNumber 0 p).2) = 0
    · have stays := (terminator_iff _ _ _).mpr terminated
      simp only [digit, if_true, stays, if_false, last, below, whole, start, terminated,
        and_self, Piece.range]
    · have leaves := not_not.mp (mt (terminator_iff _ _ _).mp terminated)
      simp [digit, leaves]
  · simp [digit]

theorem parseEnd_fromTo (first : Nat) (p : List UInt8) :
    parseEnd contentLength false (offT first) p =
      if isDigit (peek p) ∧ (peek (skipSpaces (readNumber 0 p).2) = chr ',' ∨
          peek (skipSpaces (readNumber 0 p).2) = 0) then
        some ((Piece.fromTo first (readNumber 0 p).1).range contentLength,
          skipSpaces (readNumber 0 p).2)
      else none := by
  rw [parseEnd, scanNumber_zero]
  by_cases digit : isDigit (peek p)
  · have bounds := offT_bounds (readNumber 0 p).1
    have next : (if contentLength ≤ offT (readNumber 0 p).1 then contentLength
        else offT (offT (readNumber 0 p).1 + 1)) =
        if contentLength ≤ offT (readNumber 0 p).1 then contentLength
        else offT (readNumber 0 p).1 + 1 := by
      split
      · rfl
      · exact offT_eq (by omega) (by omega)
    by_cases terminated : peek (skipSpaces (readNumber 0 p).2) = chr ',' ∨
        peek (skipSpaces (readNumber 0 p).2) = 0
    · have stays := (terminator_iff _ _ _).mpr terminated
      simp only [digit, if_true, stays, if_false, next, terminated, and_self, Piece.range,
        Bool.false_eq_true]
    · have leaves := not_not.mp (mt (terminator_iff _ _ _).mp terminated)
      simp [digit, leaves]
  · simp [digit]

/-- The parser accepts exactly the pieces of the grammar and reduces their numbers. -/
theorem parsePiece_eq (p : List UInt8) :
    parsePiece contentLength p =
      (readPiece p).map fun read => (read.1.range contentLength, read.2) := by
  rw [parsePiece, readPiece]
  by_cases dash : peek (skipSpaces p) = chr '-'
  · simp only [dash, ne_eq, not_true_eq_false, if_false, if_true,
      parseEnd_suffix nonneg fits]
    split <;> rfl
  · simp only [dash, ne_eq, not_false_eq_true, if_true, if_false]
    by_cases digit : isDigit (peek (skipSpaces p))
    · simp only [digit, if_true, scanNumber_zero]
      by_cases second : peek (skipSpaces (readNumber 0 (skipSpaces p)).2) = chr '-'
      · simp only [second, not_true_eq_false, if_false, if_true, parseEnd_fromTo nonneg fits]
        split
        · rfl
        · split <;> rfl
      · simp only [second, not_false_eq_true, if_true, if_false, Option.map_none]
    · simp only [digit, Bool.false_eq_true, if_false, Option.map_none]

omit nonneg fits in
theorem satisfiable_cons (piece : Piece) (pieces : List Piece) :
    satisfiable contentLength (piece :: pieces) =
      satisfiable contentLength [piece] ++ satisfiable contentLength pieces := by
  rw [satisfiable, satisfiable, satisfiable, List.map_cons, ← List.singleton_append,
    List.filter_append]
  rfl

omit nonneg fits in
theorem totalLength_append (left right : List Range) :
    totalLength (left ++ right) = totalLength left + totalLength right := by
  rw [totalLength, totalLength, totalLength, List.map_append, List.sum_append]

theorem rangeLoop_succ (fuel : Nat) (p : List UInt8) (stored : List Range) (size : Int)
    (ranges : Nat) (piece : Piece) (rest : List UInt8) (read : readPiece p = some (piece, rest)) :
    rangeLoop contentLength (fuel + 1) p stored (offT size) ranges =
      if ranges < (satisfiable contentLength [piece]).length then
        some (.declined, stored ++ satisfiable contentLength [piece])
      else if peek rest = chr ',' then
        rangeLoop contentLength fuel rest.tail (stored ++ satisfiable contentLength [piece])
          (offT (size + totalLength (satisfiable contentLength [piece])))
          (ranges - (satisfiable contentLength [piece]).length)
      else if stored ++ satisfiable contentLength [piece] = [] then
        some (.notSatisfiable, stored ++ satisfiable contentLength [piece])
      else if contentLength < offT (size + totalLength (satisfiable contentLength [piece])) then
        some (.declined, stored ++ satisfiable contentLength [piece])
      else some (.ok, stored ++ satisfiable contentLength [piece]) := by
  rw [rangeLoop, parsePiece_eq nonneg fits, read]
  simp only [Option.map_some]
  by_cases kept : (piece.range contentLength).start < (piece.range contentLength).stop
  · have one : satisfiable contentLength [piece] = [piece.range contentLength] := by
      simp [satisfiable, kept]
    have length : totalLength [piece.range contentLength] =
        (piece.range contentLength).stop - (piece.range contentLength).start := by
      simp [totalLength]
    have reduced (added : Int) : offT (offT size + offT added) = offT (size + added) := by
      simp only [offT]
      rw [Int.add_bmod_bmod, Int.bmod_add_bmod]
    simp only [one, length, kept, reduced, true_and, if_true, List.length_singleton,
      Nat.lt_one_iff]
  · have zero : satisfiable contentLength [piece] = [] := by
      simp [satisfiable, kept]
    simp only [zero, kept, false_and, if_false, List.length_nil, Nat.not_lt_zero,
      List.append_nil, Nat.sub_zero, totalLength, List.map_nil, List.sum_nil, Int.add_zero]

/-- The loop from any point on: it ends with `NGX_OK` exactly when the rest of the header is
well formed, the satisfiable pieces are not too many and the reduced size is not too large. -/
theorem rangeLoop_ok_iff (fuel : Nat) (p : List UInt8) (stored : List Range) (size : Int)
    (ranges : Nat) (out : List Range) :
    rangeLoop contentLength fuel p stored (offT size) ranges = some (.ok, out) ↔
      ∃ pieces, readPieces fuel p = some pieces ∧
        (satisfiable contentLength pieces).length ≤ ranges ∧
        out = stored ++ satisfiable contentLength pieces ∧ out ≠ [] ∧
        offT (size + totalLength (satisfiable contentLength pieces)) ≤ contentLength := by
  induction fuel generalizing p stored size ranges with
  | zero => simp [rangeLoop, readPieces]
  | succ fuel ih =>
    rw [readPieces]
    cases read : readPiece p with
    | none => simp [rangeLoop, parsePiece_eq nonneg fits, read]
    | some result =>
      obtain ⟨piece, rest⟩ := result
      rw [rangeLoop_succ nonneg fits fuel p stored size ranges piece rest read]
      by_cases comma : peek rest = chr ','
      · simp only [comma, if_true, Option.map_eq_some_iff]
        constructor
        · intro ended
          split at ended
          · simp at ended
          · obtain ⟨tail, parsed, short, rfl, filled, small⟩ := (ih _ _ _ _).mp ended
            refine ⟨piece :: tail, ⟨tail, parsed, rfl⟩, ?_, ?_, filled, ?_⟩
            · rw [satisfiable_cons piece tail, List.length_append]
              omega
            · rw [satisfiable_cons piece tail, List.append_assoc]
            · rw [satisfiable_cons piece tail, totalLength_append, ← Int.add_assoc]
              exact small
        · rintro ⟨pieces, ⟨tail, parsed, rfl⟩, short, rfl, filled, small⟩
          rw [satisfiable_cons piece tail, List.length_append] at short
          rw [satisfiable_cons piece tail, totalLength_append, ← Int.add_assoc] at small
          rw [if_neg (by omega)]
          refine (ih _ _ _ _).mpr ⟨tail, parsed, by omega, ?_, ?_, small⟩
          · rw [satisfiable_cons piece tail, List.append_assoc]
          · exact filled
      · simp only [comma, if_false, Option.some.injEq]
        constructor
        · intro ended
          split at ended
          · simp at ended
          · split at ended
            · simp at ended
            · split at ended
              · simp at ended
              · case _ short filled small =>
                  simp only [Option.some.injEq, Prod.mk.injEq, true_and] at ended
                  subst ended
                  exact ⟨[piece], rfl, by omega, rfl, filled, by omega⟩
        · rintro ⟨pieces, rfl, short, rfl, filled, small⟩
          rw [if_neg (by omega), if_neg filled, if_neg (by omega)]

theorem rangeParse_ok_iff (ranges : Nat) (value : List UInt8) (out : List Range) :
    ngxHttpRangeParse contentLength ranges value = some (.ok, out) ↔
      ∃ pieces, headerPieces value = some pieces ∧
        (satisfiable contentLength pieces).length ≤ ranges ∧
        out = satisfiable contentLength pieces ∧ out ≠ [] ∧
        offT (totalLength (satisfiable contentLength pieces)) ≤ contentLength := by
  have zero : offT 0 = 0 := by decide
  have result := rangeLoop_ok_iff nonneg fits (value.length + 1) value [] 0 ranges out
  rw [zero] at result
  simpa [ngxHttpRangeParse, headerPieces] using result

omit nonneg fits in
/-- Every satisfiable piece is non-empty and ends inside the response; only its start can be
wrong. -/
theorem satisfiable_bounds (pieces : List Piece) (range : Range)
    (member : range ∈ satisfiable contentLength pieces) :
    range.start < range.stop ∧ range.stop ≤ contentLength := by
  rw [satisfiable, List.mem_filter] at member
  obtain ⟨mapped, proper⟩ := member
  obtain ⟨piece, _, rfl⟩ := List.mem_map.mp mapped
  refine ⟨by simpa using proper, ?_⟩
  cases piece with
  | fromTo first last =>
    rw [Piece.range]
    dsimp only
    split <;> omega
  | fromOn first => exact le_refl contentLength
  | suffix length => exact le_refl contentLength

/-- A start below zero is caught where the size test sees too large a length. -/
theorem inside_of_caught (ranges : Nat) (value : List UInt8)
    (caught : ∀ pieces, headerPieces value = some pieces →
      (satisfiable contentLength pieces).length ≤ ranges →
      (∃ range ∈ satisfiable contentLength pieces, range.start < 0) →
      contentLength < offT (totalLength (satisfiable contentLength pieces)))
    (stored : List Range)
    (parsed : ngxHttpRangeParse contentLength ranges value = some (.ok, stored)) :
    ∀ range ∈ stored, 0 ≤ range.start ∧ range.start < range.stop ∧
      range.stop ≤ contentLength := by
  intro range member
  obtain ⟨pieces, read, short, rfl, _, small⟩ :=
    (rangeParse_ok_iff nonneg fits ranges value stored).mp parsed
  refine ⟨?_, satisfiable_bounds pieces range member⟩
  by_contra negative
  have := caught pieces read short ⟨range, member, by omega⟩
  omega

/-- The ranges stored by a successful parse lie inside the response if and only if, whenever a
well-formed header with no more than `max_ranges` satisfiable pieces has one that starts below
zero in 64-bit arithmetic, the length of all of them, reduced to 64 bits, exceeds the content
length. -/
theorem range_parse_inside_iff (ranges : Nat) (value : List UInt8) :
    (∀ stored, ngxHttpRangeParse contentLength ranges value = some (.ok, stored) →
      ∀ range ∈ stored, 0 ≤ range.start ∧ range.start < range.stop ∧
        range.stop ≤ contentLength) ↔
    (∀ pieces, headerPieces value = some pieces →
      (satisfiable contentLength pieces).length ≤ ranges →
      (∃ range ∈ satisfiable contentLength pieces, range.start < 0) →
      contentLength < offT (totalLength (satisfiable contentLength pieces))) := by
  constructor
  · rintro inside pieces parsed short ⟨range, member, negative⟩
    by_contra small
    have stored := (rangeParse_ok_iff nonneg fits ranges value _).mpr
      ⟨pieces, parsed, short, rfl, List.ne_nil_of_mem member, by omega⟩
    have := (inside _ stored range member).1
    omega
  · intro caught
    exact inside_of_caught nonneg fits ranges value caught

end Content

/-- `Range: bytes=0-1,-5` on a response of 100 bytes. -/
theorem range_parse_inside_two_pieces :
    ∃ stored, ngxHttpRangeParse 100 10 ("0-1,-5".toList.map chr) = some (.ok, stored) ∧
      ∀ range ∈ stored, 0 ≤ range.start ∧ range.start < range.stop ∧ range.stop ≤ 100 := by
  have parsed : ngxHttpRangeParse 100 10 ("0-1,-5".toList.map chr) =
      some (.ok, [⟨0, 2⟩, ⟨95, 100⟩]) := by decide +kernel
  refine ⟨_, parsed, ?_⟩
  apply (range_parse_inside_iff (by decide) (by decide) 10 ("0-1,-5".toList.map chr)).mpr ?_ _
    parsed
  have pieces : headerPieces ("0-1,-5".toList.map chr) = some [.fromTo 0 1, .suffix 5] := by
    decide
  rintro _ read _ ⟨range, member, negative⟩
  rw [pieces] at read
  cases read
  have listed : satisfiable 100 [.fromTo 0 1, .suffix 5] = [⟨0, 2⟩, ⟨95, 100⟩] := by decide
  rw [listed] at member
  simp only [List.mem_cons, List.not_mem_nil, or_false] at member
  rcases member with rfl | rfl <;> exact absurd negative (by decide)

/-- `Range: bytes=9223372036854775808-` on a response of 100 bytes: the first number is `-2^63`
as an `off_t`, and so is, up to 100, the size that is compared with the content length. -/
theorem range_parse_negative_start :
    ¬ ∀ (contentLength : Int) (ranges : Nat) (value : List UInt8), 0 ≤ contentLength →
      contentLength < 2 ^ 63 → ∀ stored,
        ngxHttpRangeParse contentLength ranges value = some (.ok, stored) →
          ∀ range ∈ stored, 0 ≤ range.start ∧ range.start < range.stop ∧
            range.stop ≤ contentLength := by
  intro claim
  have parsed : ngxHttpRangeParse 100 10 ("9223372036854775808-".toList.map chr) =
      some (.ok, [⟨-9223372036854775808, 100⟩]) := by decide +kernel
  have inside := (claim 100 10 _ (by decide) (by decide) _ parsed _ List.mem_cons_self).1
  dsimp only at inside
  omega

end NgxFormal.Http.RangeFilter
