import NgxFormal.Http.SsiTags

/-! The filter on a body without a command. -/

namespace NgxFormal.Http.Ssi

/-- The state in which `k` bytes of a tag have been seen. -/
def stateOf (k : Nat) : SsiState :=
  match k with
  | 0 => .start
  | 1 => .tag
  | 2 => .comment0
  | 3 => .comment1
  | _ => .sharp

theorem stateOf_start {k : Nat} : stateOf k = .start ↔ k = 0 := by
  match k with
  | 0 | 1 | 2 | 3 => simp [stateOf]
  | k + 4 => simp [stateOf]

def Plain (k : Nat) (text : List UInt8) : Prop := ∀ before, before <+: text → tagRun k before ≤ 4

section Parse

variable {k : Nat} {ctx : Ctx}

theorem Plain.start {text : List UInt8} (plain : Plain k text) : k ≤ 4 := plain [] List.nil_prefix

theorem Plain.first {ch : UInt8} {rest : List UInt8} (plain : Plain k (ch :: rest)) :
    tagNext k ch ≤ 4 :=
  plain [ch] ⟨rest, rfl⟩

theorem Plain.rest {ch : UInt8} {rest : List UInt8} (plain : Plain k (ch :: rest)) :
    Plain (tagNext k ch) rest :=
  fun before begins => plain (ch :: before) (List.cons_prefix_cons.mpr ⟨rfl, begins⟩)

theorem Plain.append {first second : List UInt8} (plain : Plain k (first ++ second)) :
    Plain k first ∧ Plain (tagRun k first) second := by
  constructor
  · exact fun before begins => plain before (begins.trans (List.prefix_append first second))
  · intro before begins
    rw [← tagRun_append]
    exact plain (first ++ before) ((List.prefix_append_right_inj first).mpr begins)

theorem Plain.all {text : List UInt8} (plain : Plain k text) : tagRun k text ≤ 4 :=
  plain text (List.prefix_refl text)

/-- `copy_end` behind a byte at `p`. -/
def turnEnd (k p : Nat) (ch : UInt8) (copyEnd : Option Nat) : Option Nat :=
  if 0 < k ∧ openTag[k]? = some ch ∨ k = 0 ∧ ch ≠ 0x3c then copyEnd else some p

theorem tagTurn_plain {p looked : Nat} {ch expected : UInt8} {next : SsiState} (positive : 0 < k)
    (here : openTag[k]? = some expected)
    (seen : ch = expected → looked = k + 1 ∧ next = stateOf (k + 1)) :
    tagTurn p ch expected looked next ctx = { ctx with
      copyEnd := turnEnd k p ch ctx.copyEnd
      looked := tagNext k ch
      state := stateOf (tagNext k ch) } := by
  unfold tagTurn tagNext turnEnd
  rw [here]
  by_cases same : ch = expected
  · obtain ⟨rfl, rfl⟩ := seen same
    simp [same, positive]
  · have other : ¬expected = ch := fun equal => same equal.symm
    have some_tag : ¬k = 0 := Nat.pos_iff_ne_zero.mp positive
    by_cases opens : ch = 0x3c
    · subst opens
      simp [same, other, some_tag, stateOf]
    · simp [same, other, some_tag, opens, stateOf]

theorem ssiTurn_plain {p start : Nat} {ch : UInt8} (inside : k ≤ 4) (few : tagNext k ch ≤ 4)
    (state : ctx.state = stateOf k) (looked : ctx.looked = k) :
    ssiTurn start p ch ctx = some ({ ctx with
      copyEnd := turnEnd k p ch ctx.copyEnd
      looked := tagNext k ch
      state := stateOf (tagNext k ch) }, none) := by
  unfold ssiTurn
  rw [state]
  match k, inside with
  | 0, _ =>
    by_cases opens : ch = 0x3c
    · subst opens
      rfl
    · have none : tagNext 0 ch = 0 := by
        have other : ¬openTag[0]? = some ch := fun equal => opens (Option.some.inj equal).symm
        rw [tagNext, if_neg other, if_neg opens]
      have same : turnEnd 0 p ch ctx.copyEnd = ctx.copyEnd := if_pos (Or.inr ⟨rfl, opens⟩)
      refine (if_neg opens).trans ?_
      rw [none, same, ← state, ← looked]
  | 1, _ => exact congrArg (fun ctx => some (ctx, none)) (tagTurn_plain (by decide) rfl fun _ => ⟨rfl, rfl⟩)
  | 2, _ => exact congrArg (fun ctx => some (ctx, none)) (tagTurn_plain (by decide) rfl fun _ => ⟨rfl, rfl⟩)
  | 3, _ => exact congrArg (fun ctx => some (ctx, none)) (tagTurn_plain (by decide) rfl fun _ => ⟨rfl, rfl⟩)
  | 4, _ =>
    have other : ch ≠ 0x23 := by
      rintro rfl
      exact absurd few (by decide)
    have turn := @tagTurn_plain 4 ctx p 0 ch 0x23 .precommand (by decide) rfl fun same => absurd same other
    simp only [stateOf, other, false_and, if_false, turn]

/-- `copy_end` at the end of a buffer. -/
def copyStop (k p : Nat) (text : List UInt8) (copyEnd : Option Nat) : Option Nat :=
  if tagRun k text = 0 then some (p + text.length)
  else if 0 < k ∧ tagRun k text = k + text.length then copyEnd
  else some (p + text.length - tagRun k text)

theorem copyStop_turn {p : Nat} {ch : UInt8} {rest : List UInt8} {copyEnd : Option Nat} :
    copyStop (tagNext k ch) (p + 1) rest (turnEnd k p ch copyEnd) = copyStop k p (ch :: rest) copyEnd := by
  have length : p + (ch :: rest).length = p + 1 + rest.length := by
    rw [List.length_cons]
    omega
  unfold copyStop
  rw [tagRun_cons, length, List.length_cons]
  by_cases none : tagRun (tagNext k ch) rest = 0
  · rw [if_pos none, if_pos none]
  · rw [if_neg none, if_neg none]
    have bound := tagRun_le (tagNext k ch) rest
    by_cases goes : 0 < k ∧ openTag[k]? = some ch
    · have next : tagNext k ch = k + 1 := if_pos goes.2
      rw [turnEnd, if_pos (Or.inl goes), next, Nat.add_assoc k, Nat.add_comm 1]
      simp only [goes.1, Nat.succ_pos]
    · by_cases zero : k = 0
      · subst zero
        by_cases opens : ch = 0x3c
        · subst opens
          have next : tagNext 0 0x3c = 1 := rfl
          rw [next] at bound ⊢
          have turned : turnEnd 0 p 0x3c copyEnd = some p := if_neg (by simp)
          rw [turned]
          simp only [lt_irrefl, false_and, if_false]
          by_cases all : tagRun 1 rest = 1 + rest.length
          · rw [if_pos ⟨Nat.one_pos, all⟩]
            congr 1
            omega
          · rw [if_neg (fun both => all both.2)]
        · have next : tagNext 0 ch = 0 := by
            have other : ¬openTag[0]? = some ch := fun equal => opens (Option.some.inj equal).symm
            rw [tagNext, if_neg other, if_neg opens]
          rw [next]
          simp only [lt_irrefl, false_and, if_false]
      · -- the tag is given up at this byte
        have other : ¬openTag[k]? = some ch := fun equal => goes ⟨Nat.pos_of_ne_zero zero, equal⟩
        have at_most : tagNext k ch ≤ 1 := by
          rw [tagNext, if_neg other]
          split
          · exact Nat.le_refl _
          · exact Nat.zero_le _
        have shorter : ¬(0 < k ∧ tagRun (tagNext k ch) rest = k + (rest.length + 1)) := by omega
        have turned : turnEnd k p ch copyEnd = some p :=
          if_neg fun either => either.elim goes fun both => zero both.1
        rw [if_neg shorter, turned]
        by_cases all : 0 < tagNext k ch ∧ tagRun (tagNext k ch) rest = tagNext k ch + rest.length
        · rw [if_pos all]
          congr 1
          omega
        · rw [if_neg all]

theorem parseLoop_plain {start p : Nat} {text : List UInt8} (plain : Plain k text)
    (state : ctx.state = stateOf k) (looked : ctx.looked = k) :
    parseLoop start p text ctx = some (.again, { ctx with
      pos := p + text.length
      copyEnd := copyStop k p text ctx.copyEnd
      copyStart := copyFrom ctx (copyStop k p text ctx.copyEnd)
      looked := tagRun k text
      state := stateOf (tagRun k text) }) := by
  induction text generalizing k p ctx with
  | nil =>
    have same : (if ctx.state = .start then some p else ctx.copyEnd) = copyStop k p [] ctx.copyEnd := by
      unfold copyStop
      rw [state, tagRun_nil]
      by_cases zero : k = 0
      · rw [if_pos zero, if_pos (stateOf_start.mpr zero)]
        rfl
      · rw [if_neg zero, if_neg (fun starts => zero (stateOf_start.mp starts)),
          if_pos ⟨Nat.pos_of_ne_zero zero, rfl⟩]
    unfold parseLoop
    dsimp only
    rw [same, tagRun_nil, ← state, List.length_nil, Nat.add_zero]
    rw [← looked]
  | cons ch rest ih =>
    have turn := @ssiTurn_plain k ctx p start ch plain.start plain.first state looked
    have length : p + (ch :: rest).length = p + 1 + rest.length := by
      rw [List.length_cons]
      omega
    unfold parseLoop
    rw [turn, Option.bind_some]
    dsimp only
    rw [ih plain.rest rfl rfl]
    dsimp only
    rw [copyStop_turn, length, tagRun_cons]
    rfl

end Parse

section Buffers

variable {k : Nat} {text : List UInt8} {ctx : Filter} {buf : Buf}
variable {execute : Rc → Filter → Filter × Bool}

/-- Between two buffers, `k` bytes of a tag are held back. -/
structure Ready (k : Nat) (ctx : Filter) : Prop where
  state : ctx.parser.state = stateOf k
  looked : ctx.parser.looked = k
  saved : ctx.parser.saved = k
  held : 0 < k → ctx.parser.copyStart = none ∧ ctx.parser.copyEnd = none
  output : ctx.output = true

theorem chainBytes_append (first second : List Buf) :
    chainBytes (first ++ second) = chainBytes first ++ chainBytes second := by
  simp [chainBytes]

theorem chainBytes_markLast (b : Bool) (out : List Buf) : chainBytes (markLast buf b out) = chainBytes out := by
  unfold markLast
  cases b with
  | true =>
    rw [if_pos rfl]
    rcases List.eq_nil_or_concat out with rfl | ⟨first, last, rfl⟩
    · rfl
    · simp [chainBytes]
  | false => simp [chainBytes]

theorem ssiString_take (inside : k ≤ 4) : ngxHttpSsiString.take k = openTag.take k := by
  match k, inside with
  | 0, _ | 1, _ | 2, _ | 3, _ | 4, _ => rfl

theorem copyStop_first (some_bytes : text ≠ []) :
    copyStop k 0 text (if k = 0 then some 0 else none) =
      if 0 < k ∧ tagRun k text = k + text.length then none else some (text.length - tagRun k text) := by
  unfold copyStop
  have positive := List.length_pos_iff.mpr some_bytes
  by_cases none : tagRun k text = 0
  · rw [if_pos none, if_neg (by omega), none]
    simp
  · rw [if_neg none]
    by_cases all : 0 < k ∧ tagRun k text = k + text.length
    · rw [if_pos all, if_pos all, if_neg (Nat.pos_iff_ne_zero.mp all.1)]
    · rw [if_neg all, if_neg all, Nat.zero_add]

theorem copyOut_plain {b : Bool} (inside : k ≤ 4) (bytes : ctx.parser.buf = text)
    (saved : ctx.parser.saved = k) (output : ctx.output = true)
    (copyEnd : ctx.parser.copyEnd =
      if 0 < k ∧ tagRun k text = k + text.length then none else some (text.length - tagRun k text))
    (copyStart : ctx.parser.copyStart = if 0 < k ∧ tagRun k text = k + text.length then none else some 0) :
    chainBytes (copyOut ctx b).1.out = chainBytes ctx.out ++ emitted k text := by
  unfold copyOut emitted
  dsimp only
  rw [copyEnd, copyStart, bytes, saved, output]
  by_cases all : 0 < k ∧ tagRun k text = k + text.length
  · rw [if_pos all, if_pos all, if_pos rfl, if_pos (Or.inl all.2), List.append_nil]
  · rw [if_neg all, if_neg all]
    by_cases none : text.take (text.length - tagRun k text) = []
    · have zero : text.length - tagRun k text = 0 := by
        have length := congrArg List.length none
        rw [List.length_take, List.length_nil] at length
        omega
      rw [zero, if_pos rfl, if_pos (Or.inr (List.take_zero)), List.append_nil]
    · have positive : text.length - tagRun k text ≠ 0 := fun zero => none (by rw [zero, List.take_zero])
      have part : ¬(tagRun k text = k + text.length ∨ text.take (text.length - tagRun k text) = []) := by
        rintro (full | empty)
        · omega
        · exact none empty
      rw [if_neg (fun same => positive (Option.some.inj same).symm), if_pos rfl, if_neg part]
      have kept : (text.drop ((some 0).getD 0)).take
          ((some (text.length - tagRun k text)).getD 0 - (some 0).getD 0) =
          text.take (text.length - tagRun k text) := rfl
      rw [kept, chainBytes_append, chainBytes_append, ssiString_take inside]
      by_cases zero : k = 0
      · subst zero
        simp [chainBytes]
      · simp [chainBytes, zero]

theorem copyOut_parsing (ctx : Filter) (b : Bool) :
    ∃ saved, (copyOut ctx b).1.parser = { ctx.parser with saved := saved } := by
  unfold copyOut
  dsimp only
  split
  · exact ⟨_, rfl⟩
  · split
    · exact ⟨0, rfl⟩
    · split
      · exact ⟨0, rfl⟩
      · exact ⟨0, rfl⟩

theorem copyOut_output (ctx : Filter) (b : Bool) : (copyOut ctx b).1.output = ctx.output := by
  unfold copyOut
  dsimp only
  split
  · rfl
  · split
    · rfl
    · split
      · rfl
      · rfl

theorem bufferLoop_end {fuel : Nat} {b : Bool} (at_end : ctx.parser.pos = ctx.parser.buf.length) :
    bufferLoop execute fuel ctx b = some (ctx, b) := by
  cases fuel with
  | zero => rfl
  | succ fuel => exact if_neg (Nat.not_lt_of_le (Nat.le_of_eq at_end.symm))

theorem resetCopy_held (parser : Ctx) (state : parser.state = stateOf k) :
    (0 < k → (resetCopy parser).copyStart = none ∧ (resetCopy parser).copyEnd = none) ∧
      (resetCopy parser).looked = parser.looked ∧ (resetCopy parser).state = parser.state ∧
      (resetCopy parser).pos = parser.pos ∧ (resetCopy parser).buf = parser.buf := by
  unfold resetCopy
  by_cases zero : k = 0
  · rw [if_pos (state.trans (stateOf_start.mpr zero))]
    exact ⟨fun positive => absurd zero (Nat.pos_iff_ne_zero.mp positive), rfl, rfl, rfl, rfl⟩
  · rw [if_neg (fun starts => zero (stateOf_start.mp (state.symm.trans starts)))]
    exact ⟨fun _ => ⟨rfl, rfl⟩, rfl, rfl, rfl, rfl⟩

/-- A call of the parser at the first byte of a buffer. -/
structure Opened (k : Nat) (text : List UInt8) (parser : Ctx) : Prop where
  bytes : parser.buf = text
  pos : parser.pos = 0
  state : parser.state = stateOf k
  looked : parser.looked = k
  saved : parser.saved = k
  copyEnd : parser.copyEnd = if k = 0 then some 0 else none
  copyStart : parser.copyStart = if k = 0 then some 0 else none

structure Taken (k : Nat) (text : List UInt8) (parser : Ctx) : Prop where
  bytes : parser.buf = text
  pos : parser.pos = text.length
  state : parser.state = stateOf (tagRun k text)
  looked : parser.looked = tagRun k text
  saved : parser.saved = k
  copyEnd : parser.copyEnd =
    if 0 < k ∧ tagRun k text = k + text.length then none else some (text.length - tagRun k text)
  copyStart : parser.copyStart = if 0 < k ∧ tagRun k text = k + text.length then none else some 0

theorem parse_plain {parser : Ctx} (opened : Opened k text parser) (plain : Plain k text)
    (some_bytes : text ≠ []) :
    ∃ after, ngxHttpSsiParse parser = some (.again, after) ∧ Taken k text after := by
  have loop := @parseLoop_plain k parser 0 0 text plain opened.state opened.looked
  have stop := copyStop_first (k := k) some_bytes
  rw [opened.copyEnd, stop, Nat.zero_add] at loop
  refine ⟨_, by rw [ngxHttpSsiParse, opened.bytes, opened.pos, List.drop_zero, loop], ?_⟩
  refine ⟨opened.bytes, rfl, rfl, rfl, opened.saved, rfl, ?_⟩
  dsimp only
  rw [copyFrom, opened.copyStart]
  by_cases all : 0 < k ∧ tagRun k text = k + text.length
  · have some_tag : ¬k = 0 := Nat.pos_iff_ne_zero.mp all.1
    simp only [if_pos all, if_neg some_tag, ne_eq, not_true_eq_false, and_false, if_false]
  · rw [if_neg all, if_neg all]
    by_cases zero : k = 0
    · simp [zero]
    · simp [zero]

theorem bufferLoop_plain (opened : Opened k text ctx.parser) (plain : Plain k text)
    (some_bytes : text ≠ []) (output : ctx.output = true) :
    ∃ after b, bufferLoop execute text.length ctx false = some (after, b) ∧
      after.parser.state = stateOf (tagRun k text) ∧ after.parser.looked = tagRun k text ∧
      (0 < tagRun k text → after.parser.copyStart = none ∧ after.parser.copyEnd = none) ∧
      after.output = true ∧ chainBytes after.out = chainBytes ctx.out ++ emitted k text := by
  obtain ⟨fuel, positive⟩ : ∃ fuel, text.length = fuel + 1 :=
    ⟨text.length - 1, by have := List.length_pos_iff.mpr some_bytes; omega⟩
  obtain ⟨parser, parsed, taken⟩ := parse_plain opened plain some_bytes
  obtain ⟨saved, same⟩ := copyOut_parsing { ctx with parser := parser } false
  have out := @copyOut_plain k text { ctx with parser := parser } false plain.start taken.bytes taken.saved
    output taken.copyEnd taken.copyStart
  have still := copyOut_output { ctx with parser := parser } false
  rw [positive]
  unfold bufferLoop
  rw [if_pos (by rw [opened.pos, opened.bytes]; omega), parsed, Option.bind_some]
  dsimp only
  rw [if_pos rfl]
  generalize copyOut { ctx with parser := parser } false = copied at same out still
  obtain ⟨copied, b⟩ := copied
  dsimp only at same out still ⊢
  obtain ⟨held, seen, state, pos, bytes⟩ := resetCopy_held copied.parser
    (show copied.parser.state = stateOf (tagRun k text) by rw [same]; exact taken.state)
  have at_end : (resetCopy copied.parser).pos = (resetCopy copied.parser).buf.length := by
    rw [pos, bytes, same]
    exact taken.pos.trans (congrArg List.length taken.bytes.symm)
  refine ⟨{ copied with parser := resetCopy copied.parser }, b, bufferLoop_end at_end, ?_, ?_, held, ?_, out⟩
  · rw [state, same]
    exact taken.state
  · rw [seen, same]
    exact taken.looked
  · rw [still]
    exact output

theorem opened_buffer (ready : Ready k ctx) (bytes : List UInt8) :
    Opened k bytes (let parser := { ctx.parser with
      buf := bytes
      pos := 0 }
    if parser.state = .start then resetCopy parser else parser) := by
  dsimp only
  by_cases zero : k = 0
  · have starts : ctx.parser.state = .start := ready.state.trans (stateOf_start.mpr zero)
    rw [if_pos starts, resetCopy, if_pos starts]
    refine ⟨rfl, rfl, ready.state, ready.looked, ready.saved, ?_, ?_⟩
    · rw [if_pos zero]
    · rw [if_pos zero]
  · have some_tag : ¬ctx.parser.state = .start := fun starts =>
      zero (stateOf_start.mp (ready.state.symm.trans starts))
    have held := ready.held (Nat.pos_of_ne_zero zero)
    rw [if_neg some_tag]
    refine ⟨rfl, rfl, ready.state, ready.looked, ready.saved, ?_, ?_⟩
    · rw [if_neg zero]
      exact held.2
    · rw [if_neg zero]
      exact held.1

theorem filterBuffer_plain (ready : Ready k ctx) (plain : Plain k buf.bytes) (some_bytes : buf.bytes ≠ []) :
    ∃ after, filterBuffer execute ctx buf = some after ∧ Ready (tagRun k buf.bytes) after ∧
      chainBytes after.out = chainBytes ctx.out ++ emitted k buf.bytes := by
  have opened := opened_buffer ready buf.bytes
  unfold filterBuffer
  dsimp only at opened ⊢
  generalize (if ctx.parser.state = .start then _ else _ : Ctx) = parser at opened ⊢
  obtain ⟨after, b, loop, state, looked, held, output, out⟩ :=
    @bufferLoop_plain k buf.bytes { ctx with parser := parser } execute opened plain some_bytes ready.output
  rw [loop]
  refine ⟨_, rfl, ⟨state, looked, looked, held, output⟩, ?_⟩
  exact (chainBytes_markLast b after.out).trans out

theorem foldlM_plain {bufs : List Buf} (ready : Ready k ctx)
    (plain : Plain k (bufs.map Buf.bytes).flatten) (some_bytes : ∀ buf ∈ bufs, buf.bytes ≠ []) :
    ∃ after, bufs.foldlM (filterBuffer execute) ctx = some after ∧
      Ready (tagRun k (bufs.map Buf.bytes).flatten) after ∧
      chainBytes after.out = chainBytes ctx.out ++ emittedAll k (bufs.map Buf.bytes) := by
  induction bufs generalizing k ctx with
  | nil => exact ⟨ctx, rfl, ready, (List.append_nil _).symm⟩
  | cons buf rest ih =>
    rw [List.map_cons, List.flatten_cons] at plain ⊢
    have parts := plain.append
    obtain ⟨middle, first, ready', out⟩ :=
      @filterBuffer_plain k ctx buf execute ready parts.1 (some_bytes buf List.mem_cons_self)
    obtain ⟨after, later, ready'', out'⟩ := ih ready' parts.2
      fun other member => some_bytes other (List.mem_cons_of_mem buf member)
    refine ⟨after, ?_, ?_, ?_⟩
    · rw [List.foldlM_cons, first]
      exact later
    · rw [tagRun_append]
      exact ready''
    · rw [out', out, emittedAll, List.append_assoc]

theorem emittedAll_append (k : Nat) (first second : List (List UInt8)) :
    emittedAll k (first ++ second) = emittedAll k first ++ emittedAll (tagRun k first.flatten) second := by
  induction first generalizing k with
  | nil => rfl
  | cons bytes rest ih =>
    rw [List.cons_append, emittedAll, emittedAll, ih, List.flatten_cons, tagRun_append, List.append_assoc]

theorem respond_plain {calls : List (List Buf)} (ready : Ready k ctx) (empty : ctx.out = [])
    (plain : Plain k (chainBytes calls.flatten)) (some_bytes : ∀ buf ∈ calls.flatten, buf.bytes ≠ []) :
    ∃ out, respond execute ctx calls = some out ∧
      chainBytes out = emittedAll k (calls.flatten.map Buf.bytes) := by
  induction calls generalizing k ctx with
  | nil => exact ⟨[], rfl, rfl⟩
  | cons bufs calls ih =>
    rw [List.flatten_cons, chainBytes_append] at plain
    rw [List.flatten_cons] at some_bytes
    have parts := plain.append
    obtain ⟨middle, first, ready', out⟩ := @foldlM_plain k ctx execute bufs ready parts.1
      fun buf member => some_bytes buf (List.mem_append_left _ member)
    have cleared : Ready (tagRun k (chainBytes bufs)) { middle with out := [] } :=
      ⟨ready'.state, ready'.looked, ready'.saved, ready'.held, ready'.output⟩
    obtain ⟨later, rest, bytes⟩ := ih cleared rfl parts.2
      fun buf member => some_bytes buf (List.mem_append_right _ member)
    refine ⟨middle.out ++ later, ?_, ?_⟩
    · unfold respond ngxHttpSsiBodyFilter
      rw [first]
      simp [rest]
    · rw [chainBytes_append, out, empty, bytes, List.flatten_cons, List.map_append, emittedAll_append]
      rfl

end Buffers

end NgxFormal.Http.Ssi

/-! Which bodies without a command pass the filter unchanged. -/

namespace NgxFormal.Http.Ssi

/-- A buffer that is only a beginning of the tag stands behind an unfinished tag. -/
def TagBehindTag (bufs : List (List UInt8)) : Prop :=
  ∃ before bytes after, bufs = before ++ bytes :: after ∧ EndsWithTag before.flatten ∧
    ∃ j ∈ [1, 2, 3, 4], bytes = openTag.take j

section Plain

variable {text : List UInt8} {bufs : List (List UInt8)}

theorem plain_of_absent (absent : ¬openTag <:+: text) : Plain 0 text :=
  fun _ begins => tagRun_lt_five absent begins

theorem lostIn_tagBehindTag (absent : ¬openTag <:+: bufs.flatten) (some_bytes : ∀ bytes ∈ bufs, bytes ≠ []) :
    LostIn 0 bufs ↔ TagBehindTag bufs := by
  have parts : ∀ before bytes after, bufs = before ++ bytes :: after →
      (Lost (tagRun 0 before.flatten) bytes ↔
        EndsWithTag before.flatten ∧ ∃ j ∈ [1, 2, 3, 4], bytes = openTag.take j) := by
    rintro before bytes after rfl
    have plain := plain_of_absent absent
    rw [List.flatten_append, List.flatten_cons] at plain
    have first := plain.append.1.all
    have second := plain.append.2.append.1.all
    have here : bytes ≠ [] := some_bytes bytes (List.mem_append_right _ List.mem_cons_self)
    rw [lost_iff first second here, endsWithTag_iff first, Nat.pos_iff_ne_zero]
  rw [lostIn_iff]
  constructor
  · rintro ⟨before, bytes, after, split, lost⟩
    exact ⟨before, bytes, after, split, (parts before bytes after split).mp lost⟩
  · rintro ⟨before, bytes, after, split, tags⟩
    exact ⟨before, bytes, after, split, (parts before bytes after split).mpr tags⟩

theorem emittedAll_eq_iff (some_bytes : ∀ bytes ∈ bufs, bytes ≠ []) :
    emittedAll 0 bufs = bufs.flatten ↔ tagRun 0 bufs.flatten = 0 ∧ ¬LostIn 0 bufs := by
  have small := tagRun_le_five (Nat.zero_le 5) bufs.flatten
  have size : (openTag.take (tagRun 0 bufs.flatten)).length = tagRun 0 bufs.flatten := by
    rw [List.length_take]
    simp only [openTag, List.length_cons, List.length_nil]
    omega
  constructor
  · intro same
    obtain ⟨le, lt⟩ := emittedAll_length (Nat.zero_le 5) some_bytes
    rw [same, size, List.take_zero, List.length_nil] at le lt
    refine ⟨by omega, fun lost => ?_⟩
    have less := lt lost
    omega
  · rintro ⟨none, kept⟩
    have both := emittedAll_kept (Nat.zero_le 5) some_bytes kept
    rwa [none, List.take_zero, List.append_nil, List.nil_append] at both

end Plain

/-- A body without a command passes unchanged if and only if it does not end inside a tag and no
buffer is only a beginning of a tag behind another one. -/
theorem plain_body_passes (execute : Rc → Filter → Filter × Bool) (store : Store) (valueLen : Nat)
    (calls : List (List Buf)) (some_bytes : ∀ buf ∈ calls.flatten, buf.bytes ≠ [])
    (absent : ¬openTag <:+: chainBytes calls.flatten) :
    (respond execute (Filter.init store valueLen) calls).map chainBytes = some (chainBytes calls.flatten) ↔
      ¬EndsWithTag (chainBytes calls.flatten) ∧ ¬TagBehindTag (calls.flatten.map Buf.bytes) := by
  have ready : Ready 0 (Filter.init store valueLen) :=
    ⟨rfl, rfl, rfl, fun positive => absurd positive (lt_irrefl 0), rfl⟩
  have plain := plain_of_absent absent
  obtain ⟨out, sent, bytes⟩ := @respond_plain 0 _ execute calls ready rfl plain some_bytes
  have some_texts : ∀ text ∈ calls.flatten.map Buf.bytes, text ≠ [] := by
    intro text member
    obtain ⟨buf, inside, rfl⟩ := List.mem_map.mp member
    exact some_bytes buf inside
  rw [sent, Option.map_some, bytes, Option.some_inj, endsWithTag_iff plain.all, not_not]
  refine (emittedAll_eq_iff some_texts).trans ?_
  rw [lostIn_tagBehindTag absent some_texts]
  rfl

theorem plain_body_passes_two_calls :
    let buf (bytes : List UInt8) (lastBuf : Bool) : Buf := ⟨bytes, lastBuf⟩
    (respond (fun _ ctx => (ctx, false)) (Filter.init ⟨0, fun _ => 0, fun _ _ => 0⟩ 256)
      [[buf [0x61, 0x3c] false, buf [0x21, 0x2d] false], [buf [0x3c, 0x62] true]]).map chainBytes =
      some [0x61, 0x3c, 0x21, 0x2d, 0x3c, 0x62] := by
  intro buf
  have absent : ¬TagBehindTag [[0x61, 0x3c], [0x21, 0x2d], [0x3c, 0x62]] := by
    rw [← lostIn_tagBehindTag (by decide) (by decide)]
    simp [LostIn, Lost, tagRun, tagNext, openTag]
  exact (plain_body_passes _ _ _ _ (by decide) (by decide)).mpr ⟨by decide, absent⟩

/-- The bytes of an unfinished tag at the end of the body do not arrive. -/
theorem plain_body_held :
    ¬∀ (execute : Rc → Filter → Filter × Bool) (store : Store) (valueLen : Nat) (calls : List (List Buf)),
      (∀ buf ∈ calls.flatten, buf.bytes ≠ []) → ¬openTag <:+: chainBytes calls.flatten →
      (respond execute (Filter.init store valueLen) calls).map chainBytes =
        some (chainBytes calls.flatten) := by
  intro all
  have passed := all (fun _ ctx => (ctx, false)) ⟨0, fun _ => 0, fun _ _ => 0⟩ 256
    [[⟨[0x61, 0x3c], true⟩]] (by decide) (by decide)
  revert passed
  decide +kernel

end NgxFormal.Http.Ssi
