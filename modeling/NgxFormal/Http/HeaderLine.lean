import NgxFormal.Core.HashInit
import NgxFormal.Lib.Window

/-! `ngx_http_parse_header_line`. The bytes that a connection sends are one memory, in which
`pos` and `last` of the buffer and the pointers of the request are addresses. -/

namespace NgxFormal.Http.HeaderLine

open NgxFormal.Core.Hash NgxFormal.Lib.Window

inductive State where
  | start
  | name
  | spaceBeforeValue
  | value
  | spaceAfterValue
  | ignoreLine
  | almostDone
  | headerAlmostDone
  deriving DecidableEq, Repr

inductive Rc where
  | ok
  | again
  | headerDone
  | invalidHeader
  deriving DecidableEq, Repr

/-- The fields of `ngx_http_request_t` that the parser uses. -/
structure Request where
  state : State
  headerHash : Nat
  lowcaseIndex : Nat
  lowcaseHeader : Nat → UInt8
  invalidHeader : Bool
  headerNameStart : Nat
  headerNameEnd : Nat
  headerStart : Nat
  headerEnd : Nat
  upstream : Bool

/-- The locals of the parser, besides `p`. -/
structure Locals where
  state : State
  hash : Nat
  i : Nat

def NGX_HTTP_LC_HEADER_LEN : Nat := 32

/-- `lowcase[ch]` -/
def lowcase (ch : UInt8) : UInt8 :=
  if chr 'A' ≤ ch ∧ ch ≤ chr 'Z' then ch ||| 0x20
  else if chr 'a' ≤ ch ∧ ch ≤ chr 'z' ∨ isDigit ch ∨ ch = chr '-' then ch
  else 0

/-- How one turn of the loop ends; `done` and `headerDone` are the labels of the source. -/
inductive Turn where
  | next (r : Request) (l : Locals)
  | done (r : Request) (l : Locals)
  | headerDone (r : Request)
  | invalid (r : Request)

/-- `hash = ngx_hash(hash, c); r->lowcase_header[i++] = c; i &= NGX_HTTP_LC_HEADER_LEN - 1;` -/
def addByte (r : Request) (l : Locals) (c : UInt8) : Turn :=
  .next { r with lowcaseHeader := fun j => if j = l.i then c else r.lowcaseHeader j }
    { l with
      hash := ngxHash l.hash c
      i := (l.i + 1) &&& (NGX_HTTP_LC_HEADER_LEN - 1) }

def startTurn (p : Nat) (ch : UInt8) (r : Request) (l : Locals) : Turn :=
  let r := { r with
    headerNameStart := p
    invalidHeader := false }
  if ch = CR then .next { r with headerEnd := p } { l with state := .headerAlmostDone }
  else if ch = LF then .headerDone { r with headerEnd := p }
  else
    let c := lowcase ch
    if c ≠ 0 then
      .next { r with lowcaseHeader := fun j => if j = 0 then c else r.lowcaseHeader j }
        { state := .name
          hash := ngxHash 0 c
          i := 1 }
    else if ch = 0 then .invalid r
    else .next { r with invalidHeader := true } { l with state := .name }

def nameTurn (allowUnderscores : Bool) (mem : Nat → UInt8) (p : Nat) (ch : UInt8) (r : Request)
    (l : Locals) : Turn :=
  let c := lowcase ch
  if c ≠ 0 then addByte r l c
  else if ch = chr '_' then
    if allowUnderscores then addByte r l ch else .next { r with invalidHeader := true } l
  else if ch = chr ':' then
    .next { r with headerNameEnd := p } { l with state := .spaceBeforeValue }
  else if ch = CR then
    .next { r with
      headerNameEnd := p
      headerStart := p
      headerEnd := p } { l with state := .almostDone }
  else if ch = LF then
    .done { r with
      headerNameEnd := p
      headerStart := p
      headerEnd := p } l
  -- IIS may send the duplicate "HTTP/1.1 ..." lines
  else if ch = chr '/' ∧ r.upstream = true ∧ p - r.headerNameStart = 4 ∧
      window mem r.headerNameStart (r.headerNameStart + 4) =
        [chr 'H', chr 'T', chr 'T', chr 'P'] then
    .next r { l with state := .ignoreLine }
  else if ch = 0 then .invalid r
  else .next { r with invalidHeader := true } l

def spaceBeforeValueTurn (p : Nat) (ch : UInt8) (r : Request) (l : Locals) : Turn :=
  if ch = chr ' ' then .next r l
  else if ch = CR then
    .next { r with
      headerStart := p
      headerEnd := p } { l with state := .almostDone }
  else if ch = LF then
    .done { r with
      headerStart := p
      headerEnd := p } l
  else if ch = 0 then .invalid r
  else .next { r with headerStart := p } { l with state := .value }

def valueTurn (p : Nat) (ch : UInt8) (r : Request) (l : Locals) : Turn :=
  if ch = chr ' ' then .next { r with headerEnd := p } { l with state := .spaceAfterValue }
  else if ch = CR then .next { r with headerEnd := p } { l with state := .almostDone }
  else if ch = LF then .done { r with headerEnd := p } l
  else if ch = 0 then .invalid r
  else .next r l

def spaceAfterValueTurn (ch : UInt8) (r : Request) (l : Locals) : Turn :=
  if ch = chr ' ' then .next r l
  else if ch = CR then .next r { l with state := .almostDone }
  else if ch = LF then .done r l
  else if ch = 0 then .invalid r
  else .next r { l with state := .value }

/-- One turn of the loop with `ch = *p`. -/
def turn (allowUnderscores : Bool) (mem : Nat → UInt8) (p : Nat) (r : Request) (l : Locals) :
    Turn :=
  let ch := mem p
  match l.state with
  | .start => startTurn p ch r l
  | .name => nameTurn allowUnderscores mem p ch r l
  | .spaceBeforeValue => spaceBeforeValueTurn p ch r l
  | .value => valueTurn p ch r l
  | .spaceAfterValue => spaceAfterValueTurn ch r l
  | .ignoreLine => if ch = LF then .next r { l with state := .start } else .next r l
  | .almostDone => if ch = LF then .done r l else if ch = CR then .next r l else .invalid r
  | .headerAlmostDone => if ch = LF then .headerDone r else .invalid r

/-- The loop with `left = b->last - p`, and what stands behind it. -/
def parseLoop (allowUnderscores : Bool) (mem : Nat → UInt8) :
    Nat → Nat → Request → Locals → Rc × Nat × Request
  | 0, p, r, l =>
    (.again, p, { r with
      state := l.state
      headerHash := l.hash
      lowcaseIndex := l.i })
  | left + 1, p, r, l =>
    match turn allowUnderscores mem p r l with
    | .next r l => parseLoop allowUnderscores mem left (p + 1) r l
    | .done r l =>
      (.ok, p + 1, { r with
        state := .start
        headerHash := l.hash
        lowcaseIndex := l.i })
    | .headerDone r => (.headerDone, p + 1, { r with state := .start })
    | .invalid r => (.invalidHeader, p, r)

def Request.locals (r : Request) : Locals := ⟨r.state, r.headerHash, r.lowcaseIndex⟩

/-- The return code, `b->pos` and the request after a call with the buffer `pos` to `last`. After
`NGX_HTTP_PARSE_INVALID_HEADER` the source leaves `b->pos` alone, and nothing reads it. -/
def ngxHttpParseHeaderLine (allowUnderscores : Bool) (mem : Nat → UInt8) (pos last : Nat)
    (r : Request) : Rc × Nat × Request :=
  parseLoop allowUnderscores mem (last - pos) pos r r.locals

/-- The calls on one request: the first one with the state `sw_start`, the others after a line or
for more bytes. -/
inductive Parsing (allowUnderscores : Bool) (mem : Nat → UInt8) : Nat → Request → Prop where
  | first (pos : Nat) (r : Request) (start : r.state = .start) :
      Parsing allowUnderscores mem pos r
  | call (pos last pos' : Nat) (r r' : Request) (rc : Rc)
      (parsing : Parsing allowUnderscores mem pos r)
      (returned : ngxHttpParseHeaderLine allowUnderscores mem pos last r = (rc, pos', r'))
      (more : rc = .ok ∨ rc = .again) : Parsing allowUnderscores mem pos' r'

def nameByte (allowUnderscores : Bool) (ch : UInt8) : Bool :=
  (chr 'A' ≤ ch && ch ≤ chr 'Z') || (chr 'a' ≤ ch && ch ≤ chr 'z') || isDigit ch || ch == chr '-' ||
    (allowUnderscores && ch == chr '_')

/-- What a parsed line without `invalid_header` is to be. -/
structure ValidLine (allowUnderscores : Bool) (mem : Nat → UInt8) (r : Request) : Prop where
  hash : r.headerHash = ngxHashKeyLc (window mem r.headerNameStart r.headerNameEnd)
  lowcase : r.lowcaseIndex = r.headerNameEnd - r.headerNameStart →
    (List.range (r.headerNameEnd - r.headerNameStart)).map r.lowcaseHeader =
      (window mem r.headerNameStart r.headerNameEnd).map ngxTolower
  name : ∀ ch ∈ window mem r.headerNameStart r.headerNameEnd,
    nameByte allowUnderscores ch = true
  value : ∀ ch ∈ window mem r.headerStart r.headerEnd, ch ≠ CR ∧ ch ≠ LF ∧ ch ≠ 0
  first : (window mem r.headerStart r.headerEnd).head? ≠ some (chr ' ')
  last : (window mem r.headerStart r.headerEnd).getLast? ≠ some (chr ' ')

end NgxFormal.Http.HeaderLine

/-! What holds of the lines that `ngx_http_parse_header_line` accepts: an invariant for each
state, kept by every turn, over all calls on one request. -/

namespace NgxFormal.Http.HeaderLine

open NgxFormal.Core.Hash NgxFormal.Lib.Window

variable {allow : Bool} {mem : Nat → UInt8} {p : Nat} {r r' : Request} {l l' : Locals}

theorem lowcase_spec (ch : UInt8) (letter : lowcase ch ≠ 0) :
    lowcase ch = ngxTolower ch ∧ ∀ allow, nameByte allow ch = true := by
  revert letter
  refine byte_table ch ?_
  decide +kernel

theorem window_snoc {start p : Nat} (le : start ≤ p) :
    window mem start (p + 1) = window mem start p ++ [mem p] := by
  rw [← window_append le (Nat.le_succ p), window_cons (Nat.lt_succ_self p),
    window_empty (le_refl _)]

theorem mem_window {start stop : Nat} {b : UInt8} :
    b ∈ window mem start stop ↔ ∃ i, start ≤ i ∧ i < stop ∧ mem i = b := by
  rw [window, List.mem_map]
  constructor
  · rintro ⟨i, member, same⟩
    have bounds := List.mem_range'_1.mp member
    exact ⟨i, bounds.1, by omega, same⟩
  · rintro ⟨i, above, below, same⟩
    exact ⟨i, List.mem_range'_1.mpr ⟨above, by omega⟩, same⟩

/-- The hash, the index and the lower-case buffer after the name bytes from `start` to `stop`.
The buffer has them all as long as they are fewer than its 32 places. -/
structure Name (allow : Bool) (mem : Nat → UInt8) (start stop : Nat) (hash i : Nat)
    (low : Nat → UInt8) : Prop where
  some : start < stop
  hash_eq : hash = ngxHashKeyLc (window mem start stop)
  index : i = (stop - start) % 32
  lower : stop - start < 32 → ∀ j < stop - start, low j = ngxTolower (mem (start + j))
  bytes : ∀ j, start ≤ j → j < stop → nameByte allow (mem j) = true

theorem Name.first (low : Nat → UInt8) (c : UInt8) (lower : c = ngxTolower (mem p))
    (valid : nameByte allow (mem p) = true) :
    Name allow mem p (p + 1) (ngxHash 0 c) 1 (fun j => if j = 0 then c else low j) := by
  constructor
  · exact Nat.lt_succ_self p
  · rw [window_snoc (le_refl p), window_empty (le_refl p), lower]
    rfl
  · rw [Nat.add_sub_cancel_left]
  · intro _ j small
    have zero : j = 0 := by omega
    subst zero
    exact lower
  · intro j above below
    have same : j = p := by omega
    rw [same]
    exact valid

theorem Name.next {start hash i : Nat} {low : Nat → UInt8}
    (name : Name allow mem start p hash i low) (c : UInt8) (lower : c = ngxTolower (mem p))
    (valid : nameByte allow (mem p) = true) :
    Name allow mem start (p + 1) (ngxHash hash c) ((i + 1) &&& (NGX_HTTP_LC_HEADER_LEN - 1))
      (fun j => if j = i then c else low j) := by
  have before := name.some
  constructor
  · omega
  · rw [window_snoc before.le, ngxHashKeyLc, List.foldl_append, name.hash_eq, lower]
    rfl
  · have mask : (i + 1) &&& (NGX_HTTP_LC_HEADER_LEN - 1) = (i + 1) % 32 :=
      Nat.and_two_pow_sub_one_eq_mod (i + 1) 5
    rw [mask, name.index]
    omega
  · intro short j small
    have place : i = p - start := by
      rw [name.index]
      omega
    by_cases last : j = i
    · rw [if_pos last, lower, last, place, Nat.add_sub_cancel' before.le]
    · rw [if_neg last]
      exact name.lower (by omega) j (by omega)
  · intro j above below
    by_cases last : j = p
    · rw [last]
      exact valid
    · exact name.bytes j above (by omega)

/-- The name is complete, or the line is invalid. -/
def Named (allow : Bool) (mem : Nat → UInt8) (r : Request) (l : Locals) : Prop :=
  r.invalidHeader = false →
    Name allow mem r.headerNameStart r.headerNameEnd l.hash l.i r.lowcaseHeader

/-- No byte from `start` to `stop` ends a line. -/
def Plain (mem : Nat → UInt8) (start stop : Nat) : Prop :=
  ∀ j, start ≤ j → j < stop → mem j ≠ CR ∧ mem j ≠ LF ∧ mem j ≠ 0

/-- A value that is not empty and has no space at its ends. -/
structure Trimmed (mem : Nat → UInt8) (start stop : Nat) : Prop where
  some : start < stop
  first : mem start ≠ chr ' '
  last : mem (stop - 1) ≠ chr ' '

def Valued (mem : Nat → UInt8) (r : Request) : Prop :=
  Plain mem r.headerStart r.headerEnd ∧
    (r.headerStart = r.headerEnd ∨ Trimmed mem r.headerStart r.headerEnd)

/-- What holds in each state before the byte at `p`. -/
def InvAt (allow : Bool) (mem : Nat → UInt8) (p : Nat) (r : Request) (l : Locals) :
    State → Prop
  | .start | .ignoreLine | .headerAlmostDone => True
  | .name =>
    r.invalidHeader = false → Name allow mem r.headerNameStart p l.hash l.i r.lowcaseHeader
  | .spaceBeforeValue => Named allow mem r l
  | .value =>
    Named allow mem r l ∧ Plain mem r.headerStart p ∧ Trimmed mem r.headerStart p
  | .spaceAfterValue =>
    Named allow mem r l ∧ Plain mem r.headerStart p ∧ r.headerEnd ≤ p ∧
      Trimmed mem r.headerStart r.headerEnd
  | .almostDone => Named allow mem r l ∧ Valued mem r

def Inv (allow : Bool) (mem : Nat → UInt8) (p : Nat) (r : Request) (l : Locals) : Prop :=
  InvAt allow mem p r l l.state

def TurnKeeps (allow : Bool) (mem : Nat → UInt8) (p : Nat) : Turn → Prop
  | .next r l => Inv allow mem (p + 1) r l
  | .done r l => Named allow mem r l ∧ Valued mem r
  | .headerDone _ | .invalid _ => True

theorem keeps_of_state {state : State} (stays : l.state = state)
    (inv : InvAt allow mem (p + 1) r l state) : TurnKeeps allow mem p (.next r l) := by
  subst stays
  exact inv

theorem Plain.next {start : Nat} (plain : Plain mem start p) (cr : mem p ≠ CR) (lf : mem p ≠ LF)
    (nul : mem p ≠ 0) : Plain mem start (p + 1) := by
  intro j above below
  by_cases last : j = p
  · rw [last]
    exact ⟨cr, lf, nul⟩
  · exact plain j above (by omega)

theorem plain_empty (start : Nat) : Plain mem start start := by
  intro j above below
  omega

theorem valued_empty (same : r.headerStart = r.headerEnd) : Valued mem r := by
  refine ⟨?_, Or.inl same⟩
  rw [same]
  exact plain_empty _

theorem space_plain {b : UInt8} (space : b = chr ' ') : b ≠ CR ∧ b ≠ LF ∧ b ≠ 0 := by
  subst space
  decide

theorem startTurn_keeps (r : Request) (l : Locals) :
    TurnKeeps allow mem p (startTurn p (mem p) r l) := by
  unfold startTurn
  dsimp only
  split_ifs with cr lf letter nul
  · trivial
  · trivial
  · obtain ⟨lower, valid⟩ := lowcase_spec (mem p) letter
    exact fun _ => Name.first _ _ lower (valid allow)
  · trivial
  · intro valid
    cases valid

theorem addByte_keeps {c : UInt8} (state : l.state = .name)
    (inv : r.invalidHeader = false →
      Name allow mem r.headerNameStart p l.hash l.i r.lowcaseHeader)
    (lower : c = ngxTolower (mem p)) (valid : nameByte allow (mem p) = true) :
    TurnKeeps allow mem p (addByte r l c) := by
  unfold addByte
  refine keeps_of_state (by exact state) ?_
  exact fun header => (inv header).next c lower valid

theorem nameTurn_keeps (state : l.state = .name)
    (inv : r.invalidHeader = false →
      Name allow mem r.headerNameStart p l.hash l.i r.lowcaseHeader) :
    TurnKeeps allow mem p (nameTurn allow mem p (mem p) r l) := by
  unfold nameTurn
  dsimp only
  split_ifs with letter underscore allowed colon cr lf iis nul
  · obtain ⟨lower, valid⟩ := lowcase_spec (mem p) letter
    exact addByte_keeps state inv lower (valid allow)
  · apply addByte_keeps state inv
    · rw [underscore]
      decide
    · rw [underscore, allowed]
      decide
  · apply keeps_of_state state
    intro valid
    cases valid
  · exact inv
  · exact ⟨inv, valued_empty rfl⟩
  · exact ⟨inv, valued_empty rfl⟩
  · trivial
  · trivial
  · apply keeps_of_state state
    intro valid
    cases valid

theorem spaceBeforeValueTurn_keeps (state : l.state = .spaceBeforeValue)
    (inv : Named allow mem r l) :
    TurnKeeps allow mem p (spaceBeforeValueTurn p (mem p) r l) := by
  unfold spaceBeforeValueTurn
  split_ifs with space cr lf nul
  · exact keeps_of_state state inv
  · exact ⟨inv, valued_empty rfl⟩
  · exact ⟨inv, valued_empty rfl⟩
  · trivial
  · refine ⟨inv, (plain_empty p).next cr lf nul, ?_⟩
    exact ⟨Nat.lt_succ_self p, space, by rw [Nat.add_sub_cancel]; exact space⟩

theorem valueTurn_keeps (state : l.state = .value)
    (inv : Named allow mem r l ∧ Plain mem r.headerStart p ∧ Trimmed mem r.headerStart p) :
    TurnKeeps allow mem p (valueTurn p (mem p) r l) := by
  obtain ⟨named, plain, trimmed⟩ := inv
  unfold valueTurn
  split_ifs with space cr lf nul
  · obtain ⟨cr, lf, nul⟩ := space_plain space
    exact ⟨named, plain.next cr lf nul, Nat.le_succ p, trimmed⟩
  · exact ⟨named, plain, Or.inr trimmed⟩
  · exact ⟨named, plain, Or.inr trimmed⟩
  · trivial
  · apply keeps_of_state state
    refine ⟨named, plain.next cr lf nul, ?_⟩
    exact ⟨Nat.lt_succ_of_lt trimmed.some, trimmed.first, by rw [Nat.add_sub_cancel]; exact space⟩

theorem spaceAfterValueTurn_keeps (state : l.state = .spaceAfterValue)
    (inv : Named allow mem r l ∧ Plain mem r.headerStart p ∧ r.headerEnd ≤ p ∧
      Trimmed mem r.headerStart r.headerEnd) :
    TurnKeeps allow mem p (spaceAfterValueTurn (mem p) r l) := by
  obtain ⟨named, plain, le, trimmed⟩ := inv
  have valued : Valued mem r :=
    ⟨fun j above below => plain j above (Nat.lt_of_lt_of_le below le), Or.inr trimmed⟩
  unfold spaceAfterValueTurn
  split_ifs with space cr lf nul
  · obtain ⟨cr, lf, nul⟩ := space_plain space
    apply keeps_of_state state
    exact ⟨named, plain.next cr lf nul, Nat.le_succ_of_le le, trimmed⟩
  · exact ⟨named, valued⟩
  · exact ⟨named, valued⟩
  · trivial
  · have more := trimmed.some
    refine ⟨named, plain.next cr lf nul, ?_⟩
    exact ⟨by omega, trimmed.first, by rw [Nat.add_sub_cancel]; exact space⟩

theorem turn_keeps (inv : Inv allow mem p r l) :
    TurnKeeps allow mem p (turn allow mem p r l) := by
  unfold turn
  unfold Inv at inv
  cases state : l.state with
  | start => exact startTurn_keeps r l
  | name =>
    rw [state] at inv
    exact nameTurn_keeps state inv
  | spaceBeforeValue =>
    rw [state] at inv
    exact spaceBeforeValueTurn_keeps state inv
  | value =>
    rw [state] at inv
    exact valueTurn_keeps state inv
  | spaceAfterValue =>
    rw [state] at inv
    exact spaceAfterValueTurn_keeps state inv
  | ignoreLine =>
    dsimp only
    split_ifs with lf
    · trivial
    · exact keeps_of_state state trivial
  | almostDone =>
    rw [state] at inv
    dsimp only
    split_ifs with lf cr
    · exact inv
    · exact keeps_of_state state inv
    · trivial
  | headerAlmostDone =>
    dsimp only
    split_ifs with lf <;> trivial

/-- A call from a state with the invariant: after `NGX_AGAIN` it holds again, after `NGX_OK` the
line is complete. -/
theorem parseLoop_keeps (left : Nat) {rc : Rc} {pos' : Nat} (inv : Inv allow mem p r l)
    (returned : parseLoop allow mem left p r l = (rc, pos', r')) :
    (rc = .again → Inv allow mem pos' r' r'.locals) ∧
      (rc = .ok → r'.state = .start ∧ Named allow mem r' r'.locals ∧ Valued mem r') := by
  induction left generalizing p r l with
  | zero =>
    cases returned
    exact ⟨fun _ => inv, (fun never => by cases never)⟩
  | succ left ih =>
    have kept := turn_keeps inv
    rw [parseLoop] at returned
    cases turned : turn allow mem p r l with
    | next r'' l'' =>
      rw [turned] at returned kept
      exact ih kept returned
    | done r'' l'' =>
      rw [turned] at returned kept
      cases returned
      exact ⟨(fun never => by cases never), fun _ => ⟨rfl, kept⟩⟩
    | headerDone r'' =>
      rw [turned] at returned
      cases returned
      exact ⟨(fun never => by cases never), (fun never => by cases never)⟩
    | invalid r'' =>
      rw [turned] at returned
      cases returned
      exact ⟨(fun never => by cases never), (fun never => by cases never)⟩

theorem inv_start (state : r.state = .start) (pos : Nat) : Inv allow mem pos r r.locals := by
  unfold Inv
  rw [show r.locals.state = .start from state]
  trivial

theorem parsing_inv {pos : Nat} (parsing : Parsing allow mem pos r) :
    Inv allow mem pos r r.locals := by
  induction parsing with
  | first pos r start => exact inv_start start pos
  | call pos last pos' r r' rc _ returned more ih =>
    obtain ⟨again, ok⟩ := parseLoop_keeps (last - pos) ih returned
    rcases more with done | later
    · exact inv_start (ok done).1 pos'
    · exact again later

/-- Whenever a call returns `NGX_OK` and the header is not invalid: the hash is that of the
name, the lower-case name is in the buffer when the index says so, the name has only name
bytes, and the value has no line end and no space around it. -/
theorem header_line_valid (pos last pos' : Nat) (parsing : Parsing allow mem pos r)
    (returned : ngxHttpParseHeaderLine allow mem pos last r = (.ok, pos', r'))
    (valid : r'.invalidHeader = false) : ValidLine allow mem r' := by
  obtain ⟨_, named, plain, trimmed⟩ :=
    (parseLoop_keeps (last - pos) (parsing_inv parsing) returned).2 rfl
  have name := named valid
  constructor
  · exact name.hash_eq
  · intro index
    have short : r'.headerNameEnd - r'.headerNameStart < 32 := by
      have wrapped := name.index
      rw [show r'.locals.i = r'.lowcaseIndex from rfl, index] at wrapped
      omega
    rw [window, List.range'_eq_map_range, List.map_map, List.map_map]
    apply List.map_congr_left
    intro j member
    exact name.lower short j (List.mem_range.mp member)
  · intro ch member
    obtain ⟨j, above, below, rfl⟩ := mem_window.mp member
    exact name.bytes j above below
  · intro ch member
    obtain ⟨j, above, below, rfl⟩ := mem_window.mp member
    exact plain j above below
  · rcases trimmed with empty | trimmed
    · rw [empty, window_empty (le_refl _)]
      simp
    · rw [window_cons trimmed.some, List.head?_cons]
      exact fun same => trimmed.first (Option.some.inj same)
  · rcases trimmed with empty | trimmed
    · rw [empty, window_empty (le_refl _)]
      simp
    · have last : r'.headerEnd = r'.headerEnd - 1 + 1 := by
        have more := trimmed.some
        omega
      have before : r'.headerStart ≤ r'.headerEnd - 1 := by
        have more := trimmed.some
        omega
      rw [last, window_snoc before, List.getLast?_append, List.getLast?_singleton, Option.some_or]
      exact fun same => trimmed.last (Option.some.inj same)

/-- The bytes `Ab: c ` with their line end, and a request before its first header. -/
def splitLine : Nat → UInt8 := fun i =>
  [chr 'A', chr 'b', chr ':', chr ' ', chr 'c', chr ' ', LF].getD i 0

def freshRequest : Request := ⟨.start, 0, 0, fun _ => 0, false, 0, 0, 0, 0, false⟩

/-- The line in two calls, cut inside the name. -/
theorem header_line_valid_cut :
    ∃ second : Request,
      Parsing false splitLine 0 freshRequest ∧
      ngxHttpParseHeaderLine false splitLine 0 1 freshRequest = (.again, 1, second) ∧
      (ngxHttpParseHeaderLine false splitLine 1 7 second).1 = .ok ∧
      window splitLine 0 2 = [chr 'A', chr 'b'] ∧
      ValidLine false splitLine (ngxHttpParseHeaderLine false splitLine 1 7 second).2.2 := by
  have first : Parsing false splitLine 0 freshRequest := .first 0 freshRequest rfl
  have again : ngxHttpParseHeaderLine false splitLine 0 1 freshRequest =
      (.again, 1, (ngxHttpParseHeaderLine false splitLine 0 1 freshRequest).2.2) :=
    Prod.ext (by decide +kernel) (Prod.ext (by decide +kernel) rfl)
  have later := Parsing.call 0 1 1 freshRequest _ .again first again (Or.inr rfl)
  refine ⟨_, first, again, by decide +kernel, by decide +kernel, ?_⟩
  exact header_line_valid 1 7 7 later
    (Prod.ext (by decide +kernel) (Prod.ext (by decide +kernel) rfl)) (by decide +kernel)

end NgxFormal.Http.HeaderLine
