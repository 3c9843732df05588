import NgxFormal.Http.SubStream

/-! The whole response: when the filter replaces every leftmost occurrence and keeps the rest. -/

namespace NgxFormal.Http.SubFilter

open Lib Lib.Search

section Run

variable {pattern buf held : List UInt8} {ctx : SubCtx}

theorem bufferTokens_nil (pattern held : List UInt8) : bufferTokens pattern held [] = [] := by
  rw [bufferTokens, scan]
  split
  · rw [List.drop_nil]
  · rfl

theorem bufferTokens_start (pattern buf : List UInt8) :
    bufferTokens pattern [] buf = (scan ngxTolower pattern [] buf).1 :=
  if_neg fun dropped => dropped.1 rfl

theorem bufferLoop_done (fuel : Nat) (once : Bool) (done : ¬ ctx.pos < buf.length) :
    bufferLoop pattern buf once fuel ctx = ctx := by
  cases fuel with
  | zero => rfl
  | succ fuel => rw [bufferLoop, if_neg done]

theorem Ready.finished (ready : Ready ctx held) : Finished ctx held where
  looked := ready.looked
  state := ready.state
  copyStart := fun some_held => (ready.carried some_held).1
  copyEnd := fun some_held => (ready.carried some_held).2.1
  once := ready.once

theorem bufferLoop_eq (fuel : Nat) (ready : Ready ctx held) (inside : ctx.pos ≤ buf.length)
    (enough : buf.length - ctx.pos ≤ fuel) (agrees : held.map ngxTolower <+: pattern)
    (short : held.length < pattern.length)
    (long : ∀ byte ∈ buf, ngxTolower byte = matchAt pattern 0 → 2 ≤ pattern.length) :
    Finished (bufferLoop pattern buf false fuel ctx)
        (scan ngxTolower pattern held (buf.drop ctx.pos)).2 ∧
      outTokens (bufferLoop pattern buf false fuel ctx).out =
        outTokens ctx.out ++ bufferTokens pattern held (buf.drop ctx.pos) := by
  induction fuel generalizing ctx held with
  | zero =>
    rw [bufferLoop_done 0 false (by omega), List.drop_of_length_le (by omega),
      bufferTokens_nil, List.append_nil]
    exact ⟨ready.finished, rfl⟩
  | succ fuel ih =>
    by_cases more : ctx.pos < buf.length
    · rw [bufferLoop, if_pos more, bufferTokens_eq, scan_toHit]
      rcases parts : toHit ngxTolower pattern held (buf.drop ctx.pos) with ⟨kept, found, left⟩
      cases found with
      | none =>
        obtain ⟨again, finished, ended, tokens⟩ :=
          turn_again ready inside agrees short long parts
        have step : bufferLoop pattern buf false fuel (turn pattern buf ctx) =
            turn pattern buf ctx := bufferLoop_done fuel false (by omega)
        simp only [again]
        rw [← turn, step]
        exact ⟨finished, tokens⟩
      | some tail =>
        obtain ⟨ok, next, moved, fits, behind, tokens⟩ :=
          turn_ok ready inside agrees short long parts
        simp only [ok]
        rw [← turn]
        have onward : Ready { turn pattern buf ctx with
            out := (turn pattern buf ctx).out ++ [.sub], once := false } [] :=
          ⟨next.looked, next.saved, next.state, rfl, next.fresh, next.carried⟩
        have rest := ih onward fits (by simp only; omega) List.nil_prefix
          (Nat.lt_of_le_of_lt (Nat.zero_le _) short)
        simp only [behind, bufferTokens_start, outTokens_append, tokens, outTokens] at rest
        refine ⟨rest.1, ?_⟩
        rw [rest.2]
        simp
    · rw [bufferLoop_done (fuel + 1) false more, List.drop_of_length_le (by omega),
        bufferTokens_nil, List.append_nil]
      exact ⟨ready.finished, rfl⟩

theorem filterBuffer_eq (carried : Carried ctx held)
    (agrees : held.map ngxTolower <+: pattern) (short : held.length < pattern.length)
    (long : ∀ byte ∈ buf, ngxTolower byte = matchAt pattern 0 → 2 ≤ pattern.length) :
    Carried (filterBuffer pattern false ctx buf) (scan ngxTolower pattern held buf).2 ∧
      outTokens (filterBuffer pattern false ctx buf).out =
        outTokens ctx.out ++ bufferTokens pattern held buf := by
  obtain ⟨started, starting, ready, position, out⟩ : ∃ started,
      filterBuffer pattern false ctx buf =
        { bufferLoop pattern buf false buf.length started with
          saved := (bufferLoop pattern buf false buf.length started).looked } ∧
      Ready started held ∧ started.pos = 0 ∧ started.out = ctx.out := by
    by_cases empty : held = []
    · refine ⟨{ ctx with pos := 0, copyStart := some 0, copyEnd := some 0 }, ?_, ?_, rfl, rfl⟩
      · rw [filterBuffer, if_pos (by rw [carried.state, empty]; rfl)]
      · exact ⟨carried.looked, carried.saved, carried.state, carried.once,
          fun _ => ⟨rfl, rfl⟩, fun some_held => absurd empty some_held⟩
    · refine ⟨{ ctx with pos := 0 }, ?_, ?_, rfl, rfl⟩
      · rw [filterBuffer, if_neg (by rw [carried.state]; exact stateOf_ne_start empty)]
      · exact ⟨carried.looked, carried.saved, carried.state, carried.once,
          fun none => absurd none empty,
          fun some_held => ⟨carried.copyStart some_held, carried.copyEnd some_held, rfl⟩⟩
  obtain ⟨finished, tokens⟩ := bufferLoop_eq buf.length ready (by omega) (by omega) agrees
    short long
  rw [position, List.drop_zero] at finished tokens
  rw [starting]
  exact ⟨⟨finished.looked, finished.looked, finished.state, finished.copyStart,
    finished.copyEnd, finished.once⟩, by rw [tokens, out]⟩

/-- The tokens of a response whose buffers follow an open attempt. -/
def streamTokens (pattern : List UInt8) : List UInt8 → List (List UInt8) → List (Token UInt8)
  | _, [] => []
  | held, buf :: rest =>
    bufferTokens pattern held buf ++
      streamTokens pattern (scan ngxTolower pattern held buf).2 rest

theorem filterBuffers_eq (bufs : List (List UInt8)) (carried : Carried ctx held)
    (agrees : held.map ngxTolower <+: pattern) (short : held.length < pattern.length)
    (long : ∀ byte ∈ bufs.flatten, ngxTolower byte = matchAt pattern 0 → 2 ≤ pattern.length) :
    Carried (bufs.foldl (filterBuffer pattern false) ctx)
        (scan ngxTolower pattern held bufs.flatten).2 ∧
      outTokens (bufs.foldl (filterBuffer pattern false) ctx).out =
        outTokens ctx.out ++ streamTokens pattern held bufs := by
  induction bufs generalizing ctx held with
  | nil => exact ⟨carried, (List.append_nil _).symm⟩
  | cons buf bufs ih =>
    rw [List.flatten_cons] at long
    obtain ⟨next, tokens⟩ := filterBuffer_eq carried agrees short fun byte member =>
      long byte (List.mem_append_left _ member)
    obtain ⟨agrees, short⟩ := scan_held buf agrees short
    obtain ⟨last, more⟩ := ih next agrees short fun byte member =>
      long byte (List.mem_append_right _ member)
    rw [List.foldl_cons, List.flatten_cons, scan_append, streamTokens, ← List.append_assoc,
      ← tokens]
    exact ⟨last, more⟩

/-- What the parser never touches, and what it keeps of a match string of one byte. -/
theorem parseLoop_frame (ctx : SubCtx) (rest looked : List UInt8) (p : Nat) (state : SubState)
    (copyEnd : Option Nat) (looks : state = .matching → looked ≠ []) :
    (parseLoop pattern ctx rest p state looked copyEnd).2.once = ctx.once ∧
      (parseLoop pattern ctx rest p state looked copyEnd).2.out = ctx.out ∧
      ((parseLoop pattern ctx rest p state looked copyEnd).2.state = .matching →
        (parseLoop pattern ctx rest p state looked copyEnd).2.looked ≠ []) ∧
      (pattern.length = 1 → (parseLoop pattern ctx rest p state looked copyEnd).1 = .again) := by
  induction rest generalizing p state looked copyEnd with
  | nil => exact ⟨rfl, rfl, looks, fun _ => rfl⟩
  | cons byte rest ih =>
    cases state with
    | start =>
      rw [parseLoop]
      by_cases starts : ngxTolower byte = matchAt pattern 0
      · rw [if_pos starts]
        exact ih _ _ _ _ fun _ => List.cons_ne_nil _ _
      · rw [if_neg starts]
        by_cases last : rest = []
        · rw [if_pos last]
          exact ⟨rfl, rfl, SubState.noConfusion, fun _ => rfl⟩
        · rw [if_neg last]
          exact ih _ _ _ _ SubState.noConfusion
    | matching =>
      rw [parseLoop]
      by_cases goes : ngxTolower byte = matchAt pattern looked.length
      · rw [if_pos goes]
        by_cases full : looked.length + 1 = pattern.length
        · rw [if_pos full]
          refine ⟨rfl, rfl, SubState.noConfusion, fun single => ?_⟩
          have := List.length_pos_iff.mpr (looks rfl)
          omega
        · rw [if_neg full]
          exact ih _ _ _ _ fun _ => by simp
      · rw [if_neg goes]
        split_ifs
        · exact ih _ _ _ _ fun _ => List.cons_ne_nil _ _
        · exact ih _ _ _ _ SubState.noConfusion

/-- `ctx` without `sub_filter_once`, and with no replacement yet. -/
structure Plain (ctx : SubCtx) : Prop where
  once : ctx.once = false
  looks : ctx.state = .matching → ctx.looked ≠ []

theorem copyOut_out (buf : List UInt8) (ctx : SubCtx) :
    ∃ more, (copyOut buf ctx).out = ctx.out ++ more ∧ .sub ∉ more := by
  rw [copyOut]
  by_cases same : ctx.copyStart = ctx.copyEnd
  · rw [if_pos same]
    exact ⟨[], (List.append_nil _).symm, List.not_mem_nil⟩
  · rw [if_neg same]
    let piece := OutBuf.data ((buf.drop (ctx.copyStart.getD 0)).take
      (ctx.copyEnd.getD 0 - ctx.copyStart.getD 0))
    by_cases nothing : ctx.saved = []
    · refine ⟨[piece], ?_, by simp [piece]⟩
      simp only [nothing, if_true, piece]
    · refine ⟨[.data ctx.saved, piece], ?_, by simp [piece]⟩
      simp only [nothing, if_false, piece, List.append_assoc, List.singleton_append]

theorem bufferLoop_plain (fuel : Nat) (plain : Plain ctx) :
    Plain (bufferLoop pattern buf false fuel ctx) ∧
      (pattern.length = 1 → .sub ∉ ctx.out →
        .sub ∉ (bufferLoop pattern buf false fuel ctx).out) := by
  induction fuel generalizing ctx with
  | zero => exact ⟨plain, fun _ none => none⟩
  | succ fuel ih =>
    by_cases more : ctx.pos < buf.length
    · have frame := @parseLoop_frame pattern ctx (buf.drop ctx.pos) ctx.looked
        ctx.pos ctx.state ctx.copyEnd plain.looks
      have parse : ngxHttpSubParse pattern buf ctx = parseLoop pattern ctx
          (buf.drop ctx.pos) ctx.pos ctx.state ctx.looked ctx.copyEnd := by
        rw [ngxHttpSubParse, if_neg (by rw [plain.once]; exact Bool.false_ne_true)]
      rw [← parse] at frame
      have next : Plain (turn pattern buf ctx) := by
        constructor
        · rw [turn, resetCopy_once, copyOut_once, frame.1, plain.once]
        · rw [turn, resetCopy_state, copyOut_state, resetCopy_looked, copyOut_looked]
          exact frame.2.2.1
      obtain ⟨added, out, data⟩ := copyOut_out buf (ngxHttpSubParse pattern buf ctx).2
      rw [frame.2.1] at out
      rw [bufferLoop, if_pos more]
      rcases result : (ngxHttpSubParse pattern buf ctx).1 with _ | _
      · simp only [result]
        rw [← turn]
        have onward : Plain { turn pattern buf ctx with
            out := (turn pattern buf ctx).out ++ [.sub], once := false } := ⟨rfl, next.looks⟩
        refine ⟨(ih onward).1, fun single => ?_⟩
        rw [frame.2.2.2 single] at result
        cases result
      · simp only [result]
        rw [← turn]
        refine ⟨(ih next).1, fun single none => (ih next).2 single ?_⟩
        rw [turn, resetCopy_out, out, List.mem_append]
        exact fun either => either.elim none data
    · rw [bufferLoop_done (fuel + 1) false more]
      exact ⟨plain, fun _ none => none⟩

theorem filterBuffer_plain (plain : Plain ctx) :
    Plain (filterBuffer pattern false ctx buf) ∧
      (pattern.length = 1 → .sub ∉ ctx.out → .sub ∉ (filterBuffer pattern false ctx buf).out) := by
  rw [filterBuffer]
  by_cases start : ctx.state = .start
  · rw [if_pos start]
    obtain ⟨next, out⟩ := @bufferLoop_plain pattern buf
      { ctx with pos := 0, copyStart := some 0, copyEnd := some 0 } buf.length
      ⟨plain.once, plain.looks⟩
    exact ⟨⟨next.once, next.looks⟩, out⟩
  · rw [if_neg start]
    obtain ⟨next, out⟩ := @bufferLoop_plain pattern buf { ctx with pos := 0 } buf.length
      ⟨plain.once, plain.looks⟩
    exact ⟨⟨next.once, next.looks⟩, out⟩

theorem filterBuffers_plain (bufs : List (List UInt8)) (plain : Plain ctx) :
    Plain (bufs.foldl (filterBuffer pattern false) ctx) ∧
      (pattern.length = 1 → .sub ∉ ctx.out →
        .sub ∉ (bufs.foldl (filterBuffer pattern false) ctx).out) := by
  induction bufs generalizing ctx with
  | nil => exact ⟨plain, fun _ none => none⟩
  | cons buf bufs ih =>
    obtain ⟨next, out⟩ := @filterBuffer_plain pattern buf _ plain
    obtain ⟨last, more⟩ := ih next
    exact ⟨last, fun single none => more single (out single none)⟩

theorem calls_flatten (calls : List (List (List UInt8))) (plain : Plain ctx) :
    calls.foldl (ngxHttpSubBodyFilter pattern false) ctx =
      calls.flatten.foldl (filterBuffer pattern false) ctx := by
  induction calls generalizing ctx with
  | nil => rfl
  | cons bufs calls ih =>
    have step : ngxHttpSubBodyFilter pattern false ctx bufs =
        bufs.foldl (filterBuffer pattern false) ctx := by
      rw [ngxHttpSubBodyFilter, if_neg (by rw [plain.once]; exact Bool.false_ne_true)]
    rw [List.foldl_cons, step, List.flatten_cons, List.foldl_append,
      ih (filterBuffers_plain bufs plain).1]

theorem plain_init : Plain SubCtx.init := ⟨rfl, SubState.noConfusion⟩

theorem respond_tokens (calls : List (List (List UInt8))) (some_pattern : pattern ≠ [])
    (long : ∀ byte ∈ calls.flatten.flatten,
      ngxTolower byte = matchAt pattern 0 → 2 ≤ pattern.length) :
    outTokens (respond pattern false calls).out = streamTokens pattern [] calls.flatten := by
  have carried : Carried SubCtx.init [] :=
    ⟨rfl, rfl, rfl, fun absent => absurd rfl absent, fun absent => absurd rfl absent, rfl⟩
  rw [respond, calls_flatten calls plain_init]
  exact (filterBuffers_eq calls.flatten carried List.nil_prefix
    (List.length_pos_iff.mpr some_pattern) long).2

end Run

end NgxFormal.Http.SubFilter

/-! Exactly which bodies, and which cuts of them into buffers, the filter gets right. -/

namespace NgxFormal.Http.SubFilter

open Lib Lib.Search

/-- Every leftmost occurrence is replaced, whatever by, and every other byte is kept. -/
def Replaces (pattern : List UInt8) (calls : List (List (List UInt8))) : Prop :=
  ∀ replacement, outBytes replacement (respond pattern false calls).out =
    render replacement (leftmost ngxTolower pattern 0 calls.flatten.flatten)

/-- The bodies and cuts that the one-pass parser handles: no occurrence begins inside an
attempt that breaks off, no attempt is open at the end of the body, and when the first byte of
a buffer breaks an attempt that the buffers before it left open, then the buffer neither
begins with the match string nor is itself a front part of it. -/
structure Harmless (pattern : List UInt8) (bufs : List (List UInt8)) : Prop where
  noneMissed : NoneMissed ngxTolower pattern bufs.flatten
  closed : ∀ held, ¬ Open ngxTolower pattern bufs.flatten held
  resumed : ∀ before byte rest after held, bufs = before ++ (byte :: rest) :: after →
    Open ngxTolower pattern before.flatten held →
    ¬ (held ++ [byte]).map ngxTolower <+: pattern →
    ¬ (pattern <+: (byte :: rest).map ngxTolower ∨ (byte :: rest).map ngxTolower <+: pattern)

section Dropped

variable {pattern held : List UInt8}

theorem dropped_iff (buf : List UInt8) (some_held : held ≠ [])
    (short : held.length < pattern.length) :
    Dropped pattern held buf ↔ ∃ byte rest, buf = byte :: rest ∧
      ¬ (held ++ [byte]).map ngxTolower <+: pattern ∧
      (pattern <+: (byte :: rest).map ngxTolower ∨
        (byte :: rest).map ngxTolower <+: pattern) := by
  have held_pos := List.length_pos_iff.mpr some_held
  cases buf with
  | nil =>
    constructor
    · rintro ⟨_, same⟩
      rw [toHit, List.length_nil] at same
      omega
    · rintro ⟨_, _, split, _⟩
      cases split
  | cons byte rest =>
    have starts_long : [byte].length < pattern.length := by
      rw [List.length_singleton]
      omega
    rw [Dropped, toHit]
    constructor
    · rintro ⟨_, same⟩
      refine ⟨byte, rest, rfl, ?_⟩
      split_ifs at same with goes full starts
      · rw [List.length_nil] at same
        omega
      · rcases @toHit_kept _ _ ngxTolower pattern (held ++ [byte]) rest with
          nothing | ⟨more, kept, _⟩
        · rw [nothing, List.length_nil] at same
          omega
        · rw [kept] at same
          simp only [List.length_append, List.length_singleton] at same
          omega
      · refine ⟨goes, ?_⟩
        rw [List.length_append] at same
        have nothing : (toHit ngxTolower pattern [byte] rest).1 = [] :=
          List.eq_nil_of_length_eq_zero (by omega)
        exact (@toHit_nil_iff _ _ _ _ [byte] rest (List.cons_ne_nil _ _) starts
          starts_long).mp nothing
      · rw [List.length_append, List.length_cons] at same
        omega
    · rintro ⟨_, _, split, mismatch, either⟩
      obtain ⟨rfl, rfl⟩ := List.cons.inj split
      have starts : [ngxTolower byte] <+: pattern :=
        @goes_of_either _ _ _ [] _ _ (Nat.lt_of_le_of_lt (Nat.zero_le _) short) either
      have nothing := (@toHit_nil_iff _ _ ngxTolower _ [byte] rest
        (List.cons_ne_nil _ _) starts starts_long).mpr either
      refine ⟨some_held, ?_⟩
      rw [if_neg mismatch, if_pos starts]
      simp only [nothing, List.append_nil]

/-- The bytes that a stream loses between its buffers. -/
def lost (pattern : List UInt8) : List UInt8 → List (List UInt8) → Nat
  | _, [] => 0
  | held, buf :: rest =>
    (if Dropped pattern held buf then held.length else 0) +
      lost pattern (scan ngxTolower pattern held buf).2 rest

theorem bufferTokens_weight (pattern held buf : List UInt8) :
    ((bufferTokens pattern held buf).map (weight pattern)).sum +
        (if Dropped pattern held buf then held.length else 0) =
      ((scan ngxTolower pattern held buf).1.map (weight pattern)).sum := by
  rw [bufferTokens]
  by_cases dropped : Dropped pattern held buf
  · rw [if_pos dropped, if_pos dropped, scan_toHit]
    have same := dropped.2
    rcases parts : toHit ngxTolower pattern held buf with ⟨kept, found, left⟩
    rw [parts] at same
    cases found with
    | none =>
      rw [← same, ← List.length_map (f := Token.keep), List.drop_length,
        weight_keep, List.length_map]
      simp
    | some tail =>
      simp only at same ⊢
      rw [← same]
      nth_rewrite 1 [← List.length_map (f := Token.keep)]
      rw [List.drop_left, List.map_append, List.sum_append, weight_keep, Nat.add_comm]
  · rw [if_neg dropped, if_neg dropped, Nat.add_zero]

theorem streamTokens_weight (bufs : List (List UInt8)) (held : List UInt8) :
    ((streamTokens pattern held bufs).map (weight pattern)).sum + lost pattern held bufs =
      ((scan ngxTolower pattern held bufs.flatten).1.map (weight pattern)).sum := by
  induction bufs generalizing held with
  | nil => rfl
  | cons buf bufs ih =>
    have first := bufferTokens_weight pattern held buf
    have rest := ih (scan ngxTolower pattern held buf).2
    rw [streamTokens, lost, List.flatten_cons, scan_append, List.map_append, List.sum_append,
      List.map_append, List.sum_append]
    omega

theorem streamTokens_of_lost (bufs : List (List UInt8)) (held : List UInt8)
    (nothing : lost pattern held bufs = 0) :
    streamTokens pattern held bufs = (scan ngxTolower pattern held bufs.flatten).1 := by
  induction bufs generalizing held with
  | nil => rfl
  | cons buf bufs ih =>
    rw [lost] at nothing
    have kept : ¬ Dropped pattern held buf := by
      intro dropped
      have := List.length_pos_iff.mpr dropped.1
      rw [if_pos dropped] at nothing
      omega
    rw [streamTokens, ih _ (by omega), bufferTokens, if_neg kept, List.flatten_cons,
      scan_append]

theorem lost_eq_zero (bufs : List (List UInt8)) (held : List UInt8) :
    lost pattern held bufs = 0 ↔ ∀ before buf after, bufs = before ++ buf :: after →
      ¬ Dropped pattern (scan ngxTolower pattern held before.flatten).2 buf := by
  induction bufs generalizing held with
  | nil => simp [lost]
  | cons buf bufs ih =>
    rw [lost]
    constructor
    · intro nothing before other after split
      cases before with
      | nil =>
        obtain ⟨rfl, rfl⟩ := List.cons.inj split
        intro (dropped : Dropped pattern held buf)
        have := List.length_pos_iff.mpr dropped.1
        rw [if_pos dropped] at nothing
        omega
      | cons first before =>
        obtain ⟨rfl, rfl⟩ := List.cons.inj split
        rw [List.flatten_cons, scan_append]
        exact (ih _).mp (by omega) before other after rfl
    · intro all
      have first : ¬ Dropped pattern held buf := all [] buf bufs rfl
      rw [if_neg first, Nat.zero_add]
      apply (ih _).mpr
      intro before other after split
      have later := all (buf :: before) other after (by rw [split]; rfl)
      rwa [List.flatten_cons, scan_append] at later

/-- Nothing is lost between buffers exactly if every interrupted attempt is resumed. -/
theorem lost_iff_resumed (bufs : List (List UInt8)) (some_pattern : pattern ≠ []) :
    lost pattern [] bufs = 0 ↔
      ∀ before byte rest after held, bufs = before ++ (byte :: rest) :: after →
        Open ngxTolower pattern before.flatten held →
        ¬ (held ++ [byte]).map ngxTolower <+: pattern →
        ¬ (pattern <+: (byte :: rest).map ngxTolower ∨
          (byte :: rest).map ngxTolower <+: pattern) := by
  have positive := List.length_pos_iff.mpr some_pattern
  rw [lost_eq_zero]
  constructor
  · intro all before byte rest after held split isOpen mismatch either
    obtain ⟨some_held, same⟩ := (open_iff some_pattern _ _).mp isOpen
    refine all before (byte :: rest) after split ?_
    rw [same, dropped_iff _ some_held isOpen.short]
    exact ⟨byte, rest, rfl, mismatch, either⟩
  · intro all before buf after split dropped
    have some_held := dropped.1
    have valid := @scan_held _ _ ngxTolower _ [] before.flatten List.nil_prefix positive
    obtain ⟨byte, rest, rfl, mismatch, either⟩ := (dropped_iff buf some_held valid.2).mp dropped
    exact all before byte rest after _ split
      ((open_iff some_pattern _ _).mpr ⟨some_held, rfl⟩) mismatch either

end Dropped

section Exact

variable {pattern : List UInt8}

theorem stream_exact_iff (bufs : List (List UInt8)) (some_pattern : pattern ≠ []) :
    streamTokens pattern [] bufs = leftmost ngxTolower pattern 0 bufs.flatten ↔
      Harmless pattern bufs := by
  have total := @streamTokens_weight pattern bufs []
  have weights := @scan_weight _ _ ngxTolower pattern [] bufs.flatten
  have expected := @leftmost_weight _ _ ngxTolower _ some_pattern bufs.flatten 0 (Nat.zero_le _)
  rw [List.length_nil] at weights
  constructor
  · intro same
    rw [same] at total
    have closed : (scan ngxTolower pattern [] bufs.flatten).2 = [] :=
      List.eq_nil_of_length_eq_zero (by omega)
    have nothing : lost pattern [] bufs = 0 := by omega
    have whole := streamTokens_of_lost bufs [] nothing
    refine ⟨?_, ?_, (lost_iff_resumed bufs some_pattern).mp nothing⟩
    · rw [← scanned_iff some_pattern, scanned, closed, List.map_nil, List.append_nil, ← whole,
        same]
    · intro held isOpen
      obtain ⟨some_held, holds⟩ := (open_iff some_pattern _ _).mp isOpen
      exact some_held (holds.symm.trans closed)
  · intro harmless
    have nothing := (lost_iff_resumed bufs some_pattern).mpr harmless.resumed
    have closed : (scan ngxTolower pattern [] bufs.flatten).2 = [] := by
      by_contra some_held
      exact harmless.closed _ ((open_iff some_pattern _ _).mpr ⟨some_held, rfl⟩)
    have found := (scanned_iff some_pattern _).mpr harmless.noneMissed
    rw [scanned, closed, List.map_nil, List.append_nil] at found
    rw [streamTokens_of_lost bufs [] nothing, found]

theorem replaces_iff_tokens (calls : List (List (List UInt8))) :
    Replaces pattern calls ↔ outTokens (respond pattern false calls).out =
      leftmost ngxTolower pattern 0 calls.flatten.flatten := by
  constructor
  · intro replaces
    have read (replacement : List UInt8) := replaces replacement
    simp only [outBytes_eq] at read
    exact eq_of_render (x := (0 : UInt8)) (y := 1) (by decide) (read [0]) (read [1])
  · intro same replacement
    rw [outBytes_eq, same]

theorem hit_not_mem_outTokens {out : List OutBuf} (none : .sub ∉ out) :
    .hit ∉ outTokens out := by
  induction out with
  | nil => exact List.not_mem_nil
  | cons buf out ih =>
    rw [List.mem_cons, not_or] at none
    cases buf with
    | sub => exact absurd rfl none.1
    | data bytes =>
      rw [outTokens, List.mem_append, not_or]
      exact ⟨by simp, ih none.2⟩

theorem hit_mem_leftmost {text : List UInt8} {byte : UInt8} (member : byte ∈ text)
    (whole : [ngxTolower byte] = pattern) : .hit ∈ leftmost ngxTolower pattern 0 text := by
  induction text with
  | nil => exact absurd member List.not_mem_nil
  | cons first text ih =>
    rw [leftmost]
    split
    · exact List.mem_cons_self
    · rename_i none
      rcases List.mem_cons.mp member with rfl | later
      · rw [← whole] at none
        exact absurd (List.cons_prefix_cons.mpr ⟨rfl, List.nil_prefix⟩) none
      · exact List.mem_cons_of_mem _ (ih later)

theorem matchAt_single {byte : UInt8} (single : pattern.length = 1)
    (starts : ngxTolower byte = matchAt pattern 0) : [ngxTolower byte] = pattern := by
  obtain ⟨only, rfl⟩ := List.length_eq_one_iff.mp single
  rw [starts]
  rfl

/-- The filter is right exactly on harmless bodies; a match string of one byte must not occur
at all. -/
theorem sub_filter_exact_iff (pattern : List UInt8) (calls : List (List (List UInt8)))
    (some_pattern : pattern ≠ []) :
    Replaces pattern calls ↔
      (pattern.length = 1 → ∀ byte ∈ calls.flatten.flatten, [ngxTolower byte] ≠ pattern) ∧
        Harmless pattern calls.flatten := by
  rw [replaces_iff_tokens, ← stream_exact_iff calls.flatten some_pattern]
  have positive := List.length_pos_iff.mpr some_pattern
  by_cases single : pattern.length = 1 ∧ ∃ byte ∈ calls.flatten.flatten,
      [ngxTolower byte] = pattern
  · obtain ⟨one, byte, member, whole⟩ := single
    constructor
    · intro same
      have none := (@filterBuffers_plain pattern _ calls.flatten plain_init).2 one
        List.not_mem_nil
      rw [← calls_flatten calls plain_init] at none
      have hit := hit_mem_leftmost member whole
      rw [← same] at hit
      exact absurd hit (hit_not_mem_outTokens none)
    · rintro ⟨absent, _⟩
      exact absurd whole (absent one byte member)
  · have absent : pattern.length = 1 →
        ∀ byte ∈ calls.flatten.flatten, [ngxTolower byte] ≠ pattern :=
      fun one byte member whole => single ⟨one, byte, member, whole⟩
    have long : ∀ byte ∈ calls.flatten.flatten,
        ngxTolower byte = matchAt pattern 0 → 2 ≤ pattern.length := by
      intro byte member starts
      by_contra short
      have one : pattern.length = 1 := by omega
      exact absent one byte member (matchAt_single one starts)
    rw [respond_tokens calls some_pattern long]
    exact ⟨fun same => ⟨absent, same⟩, fun both => both.2⟩

/-- Two occurrences, both cut by a buffer boundary. -/
theorem sub_filter_exact_cut :
    let pattern := [chr 'a', chr 'b']
    let calls := [[[chr 'x', chr 'A'], [chr 'b', chr 'a', chr 'a']], [[chr 'B', chr 'z']]]
    Replaces pattern calls ∧ Harmless pattern calls.flatten := by
  have replaces : Replaces [chr 'a', chr 'b']
      [[[chr 'x', chr 'A'], [chr 'b', chr 'a', chr 'a']], [[chr 'B', chr 'z']]] := by
    rw [replaces_iff_tokens]
    decide
  exact ⟨replaces, ((sub_filter_exact_iff _ _ (by decide)).mp replaces).2⟩

/-- The second attempt at `aab` in `aaab` begins inside the first one, and is not made. -/
theorem sub_filter_missed_occurrence :
    ¬ Replaces [chr 'a', chr 'a', chr 'b'] [[[chr 'a', chr 'a', chr 'a', chr 'b']]] := by
  rw [replaces_iff_tokens]
  decide

end Exact

end NgxFormal.Http.SubFilter
