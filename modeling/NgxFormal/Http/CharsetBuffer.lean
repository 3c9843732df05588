import NgxFormal.Http.Charset

/-! One buffer: what is held back before it decides what becomes of it. -/

namespace NgxFormal.Http.Charset

open Core.Utf8

/-- The first byte that is not ASCII stands behind more than 512 others, and its character is not
finished: the buffer is passed on without its flags. -/
def EndsLate (bytes : List UInt8) : Prop :=
  let ascii := bytes.takeWhile (· < 0x80)
  512 < ascii.length ∧ bytes.drop ascii.length ≠ [] ∧
    (ngxUtf8Decode (bytes.drop ascii.length)).1 = incomplete

instance (bytes : List UInt8) : Decidable (EndsLate bytes) := inferInstanceAs (Decidable (_ ∧ _ ∧ _))

/-- How many bytes the character still needs whose first ones are held. -/
def missing (held : List UInt8) : Nat := sequenceLength (held.headD 0) - held.length

/-- What a buffer does: the bytes held behind it, the bytes for the next filter, and whether its flags
go with them. -/
def passBuffer (table : Table) (held bytes : List UInt8) : Option (List UInt8 × List UInt8 × Bool) :=
  if held = [] then some (unfinished table bytes, recoded table bytes, decide ¬EndsLate bytes)
  else if bytes.length ≤ missing held then
    if held.length = 1 then some (held ++ bytes, [], false) else none
  else if (ngxUtf8Decode (held ++ bytes)).2 < held.length then none
  else some (unfinished table (held ++ bytes), recoded table (held ++ bytes), true)

/-- The first bytes of a character. -/
def Held (held : List UInt8) : Prop :=
  held = [] ∨ ∃ ch rest, held = ch :: rest ∧ ¬ch < 0x80 ∧ rest.length + 1 ≤ sequenceLength ch

section Buffer

variable {table : Table} {held bytes : List UInt8} {buf : Buf} {ctx : Ctx}

theorem held_unfinished (table : Table) (text : List UInt8) : Held (unfinished table text) := by
  rcases @unfinished_cases table text with none | ⟨ch, rest, some, short⟩
  · exact Or.inl none
  · exact Or.inr ⟨ch, rest, some, lead_of_unfinished short, Nat.le_of_lt short⟩

theorem unfinished_length (table : Table) (text : List UInt8) :
    (unfinished table text).length ≤ ngxUtfLen := by
  rcases @unfinished_cases table text with none | ⟨ch, rest, some, short⟩
  · rw [none]
    exact Nat.zero_le _
  · have bound := (sequenceLength_bounds ch).2
    rw [some, List.length_cons, ngxUtfLen]
    omega

theorem recode_text {done : List Buf} {size : Nat} {first src : List UInt8}
    (short : first.length ≤ ngxHtmlEntityLen) :
    ∃ after chain, recode table ctx buf done size first src = some (after, chain) ∧
      after.saved = unfinished table src ∧
      chainBytes chain = chainBytes done ++ (first ++ recoded table src) ∧
      hasLast chain = (hasLast done || buf.lastBuf) := by
  unfold recode
  dsimp only
  generalize sized : (if size < ngxHtmlEntityLen then size + ngxHtmlEntityLen else size) = whole
  have enough : ngxHtmlEntityLen ≤ whole := by
    rw [← sized]
    split
    · omega
    · omega
  have room := enough.trans (getBuffer_size whole ctx.freeBuffers)
  obtain ⟨middle, written, grown, flags⟩ := @put_some
    ⟨done, [], (ngxHttpCharsetGetBuffer whole ctx.freeBuffers).1, (ngxHttpCharsetGetBuffer whole ctx.freeBuffers).2⟩
    first short (by rw [List.length_nil, Nat.zero_add]; exact room)
  obtain ⟨after, looped, all, last⟩ := @recodeLoop_text table middle src.length src (Nat.le_refl _)
  have kept : save [] (unfinished table src) (unfinished table src).length = some (unfinished table src) := by
    have bound := unfinished_length table src
    rw [save, if_pos ⟨Nat.le_refl _, by rw [List.length_nil, Nat.zero_add]; exact bound⟩, List.nil_append,
      List.take_length]
  rw [written, Option.bind_some, looped, Option.bind_some]
  dsimp only
  rw [kept, Option.map_some]
  refine ⟨_, _, rfl, rfl, ?_, ?_⟩
  · rw [chainBytes_append, chainBytes_single]
    have bytes : after.all = chainBytes done ++ (first ++ recoded table src) := by
      rw [all, grown, Out.all, List.append_nil, List.append_assoc]
    exact bytes
  · rw [hasLast_append, last, flags]
    simp [hasLast]

theorem recoded_takeWhile (bytes : List UInt8) :
    recoded table bytes = bytes.takeWhile (· < 0x80) ++
        recoded table (bytes.drop (bytes.takeWhile (· < 0x80)).length) ∧
      unfinished table bytes = unfinished table (bytes.drop (bytes.takeWhile (· < 0x80)).length) := by
  induction bytes with
  | nil => exact ⟨rfl, rfl⟩
  | cons ch rest ih =>
    by_cases ascii : ch < 0x80
    · rw [List.takeWhile_cons_of_pos (by simpa using ascii), List.length_cons, List.drop_succ_cons,
        (recoded_ascii ascii).1, (recoded_ascii ascii).2, List.cons_append, ← ih.1]
      exact ⟨rfl, ih.2⟩
    · rw [List.takeWhile_cons_of_neg (by simpa using ascii)]
      exact ⟨rfl, rfl⟩

/-- How far `ctx->saved` is filled. The last byte of a buffer that ends the loop is not counted. -/
theorem fillSaved_take {i : Nat} {saved src : List UInt8} (some_bytes : src ≠ []) (length : saved.length = i)
    (inside : i ≤ ngxUtfLen) :
    (fillSaved i saved src).2 = (if src.length ≤ ngxUtfLen - i then i + src.length - 1 else ngxUtfLen) ∧
      (fillSaved i saved src).1.take (fillSaved i saved src).2 =
        (saved ++ src).take (fillSaved i saved src).2 := by
  induction src generalizing i saved with
  | nil => exact absurd rfl some_bytes
  | cons ch rest ih =>
    unfold fillSaved
    by_cases more : i < ngxUtfLen
    · rw [if_pos more]
      by_cases last : rest = []
      · subst last
        rw [if_pos rfl]
        exact ⟨by rw [if_pos (by rw [List.length_singleton]; omega)]; rfl, rfl⟩
      · rw [if_neg last]
        obtain ⟨counted, taken⟩ := @ih (i + 1) (saved ++ [ch]) last
          (by rw [List.length_append, List.length_singleton, length]) more
        refine ⟨?_, ?_⟩
        · rw [counted, List.length_cons]
          by_cases fits : rest.length ≤ ngxUtfLen - (i + 1)
          · rw [if_pos fits, if_pos (by omega)]
            omega
          · rw [if_neg fits, if_neg (by omega)]
        · rw [taken, List.append_assoc]
          rfl
    · have full : i = ngxUtfLen := by omega
      rw [if_neg more]
      refine ⟨by rw [if_neg (by rw [List.length_cons]; omega)]; exact full, ?_⟩
      dsimp only
      rw [List.take_append_of_le_length (Nat.le_of_eq length.symm)]

theorem recodeFromUtf8_fresh (none_held : ctx.saved = []) :
    ∃ after chain, ngxHttpCharsetRecodeFromUtf8 table ctx buf = some (after, chain) ∧
      after.saved = unfinished table buf.bytes ∧ chainBytes chain = recoded table buf.bytes ∧
      hasLast chain = (decide ¬EndsLate buf.bytes && buf.lastBuf) := by
  obtain ⟨all, left⟩ := @recoded_takeWhile table buf.bytes
  have late : EndsLate buf.bytes ↔ 512 < (buf.bytes.takeWhile (· < 0x80)).length ∧
      buf.bytes.drop (buf.bytes.takeWhile (· < 0x80)).length ≠ [] ∧
      (ngxUtf8Decode (buf.bytes.drop (buf.bytes.takeWhile (· < 0x80)).length)).1 = incomplete := Iff.rfl
  have whole := List.takeWhile_append_dropWhile (p := fun ch : UInt8 => decide (ch < 0x80)) (l := buf.bytes)
  unfold ngxHttpCharsetRecodeFromUtf8
  rw [if_pos none_held]
  dsimp only
  generalize buf.bytes.takeWhile (· < 0x80) = ascii at all left late whole ⊢
  generalize here : buf.bytes.drop ascii.length = src at all left late ⊢
  by_cases plain : src = []
  · have early : ¬EndsLate buf.bytes := fun ends => (late.mp ends).2.1 plain
    have covers : buf.bytes.length ≤ ascii.length := List.drop_eq_nil_iff.mp (here.trans plain)
    have same : ascii = buf.bytes := by
      have length := congrArg List.length whole
      rw [List.length_append] at length
      have nothing : buf.bytes.dropWhile (fun ch : UInt8 => decide (ch < 0x80)) = [] :=
        List.eq_nil_of_length_eq_zero (by omega)
      rwa [nothing, List.append_nil] at whole
    rw [if_pos plain]
    refine ⟨ctx, [buf], rfl, ?_, ?_, ?_⟩
    · rw [none_held, left, plain]
      rfl
    · rw [chainBytes_single, all, plain, same]
      exact (List.append_nil _).symm
    · rw [decide_eq_true early]
      exact Bool.or_false _
  · rw [if_neg plain]
    by_cases long : 512 < ascii.length
    · rw [if_pos long]
      by_cases short : (ngxUtf8Decode src).1 = incomplete
      · have ends : EndsLate buf.bytes := late.mpr ⟨long, plain, short⟩
        obtain ⟨ch, rest, rfl⟩ := List.exists_cons_of_ne_nil plain
        have few := decode_incomplete_iff.mp short
        have bound := (sequenceLength_bounds ch).2
        have fits : ([] : List UInt8).length + (ch :: rest).length ≤ ngxUtfLen := by
          rw [List.length_nil, List.length_cons, ngxUtfLen]
          omega
        rw [if_pos short, save, if_pos ⟨Nat.le_refl _, fits⟩]
        refine ⟨_, _, rfl, ?_, ?_, ?_⟩
        · rw [left, (recoded_short few).2]
          exact List.take_length
        · rw [chainBytes_single, all, (recoded_short few).1, List.append_nil]
        · rw [decide_eq_false (not_not.mpr ends)]
          rfl
      · have early : ¬EndsLate buf.bytes := fun ends => short (late.mp ends).2.2
        obtain ⟨after, chain, done, held, bytes, flags⟩ :=
          @recode_text table buf ctx [⟨ascii, false⟩] src.length [] src (Nat.zero_le _)
        rw [if_neg short]
        refine ⟨after, chain, done, held.trans left.symm, ?_, ?_⟩
        · rw [bytes, all, chainBytes_single, List.nil_append]
        · rw [flags, decide_eq_true early]
          rfl
    · have early : ¬EndsLate buf.bytes := fun ends => long (late.mp ends).1
      obtain ⟨after, chain, done, held, bytes, flags⟩ :=
        @recode_text table buf ctx [] buf.bytes.length [] buf.bytes (Nat.zero_le _)
      rw [if_neg long]
      refine ⟨after, chain, done, held, bytes, ?_⟩
      rw [flags, decide_eq_true early]
      rfl

theorem heldSymbol_eq {n : Nat} (present : n ≠ incomplete) :
    (if (if n < 0x10000 then mapped table n else 0) ≠ 0 then [if n < 0x10000 then mapped table n else 0]
      else if n = incomplete ∨ 0x10ffff < n then [0x3f] else entity n) = recodeSymbol table n := by
  unfold recodeSymbol
  by_cases small : n < 0x10000
  · rw [if_pos small, if_pos small]
    have inside : ¬(n = incomplete ∨ 0x10ffff < n) := by
      rintro (same | large)
      · exact present same
      · omega
    rw [if_neg inside]
  · rw [if_neg small, if_neg small, if_neg (fun zero => zero rfl)]
    by_cases large : 0x10ffff < n
    · rw [if_pos (Or.inr large), if_pos large]
    · rw [if_neg (fun either => either.elim present large), if_neg large]

theorem recodeFromUtf8_held {ch : UInt8} {rest : List UInt8} (held : ctx.saved = ch :: rest)
    (lead : ¬ch < 0x80) (inside : rest.length + 1 ≤ sequenceLength ch) (some_bytes : buf.bytes ≠ []) :
    (ngxHttpCharsetRecodeFromUtf8 table ctx buf).map
        (fun (after, chain) => (after.saved, chainBytes chain, hasLast chain)) =
      (passBuffer table ctx.saved buf.bytes).map fun (saved, bytes, flags) =>
        (saved, bytes, flags && buf.lastBuf) := by
  have bounds := sequenceLength_bounds ch
  have positive := List.length_pos_iff.mpr some_bytes
  have counted : ctx.saved.length = rest.length + 1 := by rw [held, List.length_cons]
  have filled := @fillSaved_take ctx.saved.length ctx.saved buf.bytes some_bytes rfl
    (by rw [counted, ngxUtfLen]; omega)
  have some_held : ctx.saved ≠ [] := by
    rw [held]
    exact List.cons_ne_nil ch rest
  have lacks : missing ctx.saved = sequenceLength ch - (rest.length + 1) := by
    rw [missing, counted, held]
    rfl
  unfold ngxHttpCharsetRecodeFromUtf8 passBuffer
  rw [if_neg some_held, if_neg some_held]
  generalize fillSaved ctx.saved.length ctx.saved buf.bytes = fill at filled ⊢
  obtain ⟨saved, i⟩ := fill
  obtain ⟨index, taken⟩ := filled
  dsimp only at index taken ⊢
  rw [taken]
  have taken : ∀ more, (ctx.saved ++ buf.bytes).take (more + 1) = ch :: (rest ++ buf.bytes).take more := by
    intro more
    rw [held, List.cons_append, List.take_succ_cons]
  by_cases within : buf.bytes.length ≤ missing ctx.saved
  · -- the loop ends with the buffer, and the decoder gets a byte less than there is
    rw [if_pos within]
    rw [lacks] at within
    have few : buf.bytes.length ≤ ngxUtfLen - ctx.saved.length := by rw [counted, ngxUtfLen]; omega
    rw [if_pos few, counted] at index
    have at_index : i = rest.length + buf.bytes.length - 1 + 1 := by omega
    have short : ((rest ++ buf.bytes).take (rest.length + buf.bytes.length - 1)).length + 1 < sequenceLength ch := by
      rw [List.length_take, List.length_append]
      omega
    have below : i < ngxUtfLen := by rw [ngxUtfLen]; omega
    have decoded : (ngxUtf8Decode ((ctx.saved ++ buf.bytes).take i)).1 = incomplete := by
      rw [at_index, taken, decode_short short]
    rw [if_pos ⟨decoded, below⟩]
    by_cases one : ctx.saved.length = 1
    · have all : i = buf.bytes.length := by omega
      rw [if_pos one, save, if_pos ⟨by omega, by rw [one, ngxUtfLen]; omega⟩, all, List.take_length]
      simp [chainBytes, hasLast]
    · rw [if_neg one, save, if_neg (by omega)]
      rfl
  · -- the decoder sees the whole character
    rw [if_neg within]
    rw [lacks] at within
    have reaches : sequenceLength ch ≤ i := by
      rw [index, counted]
      split
      · omega
      · exact bounds.2
    have at_index : i = i - 1 + 1 := by omega
    have enough : sequenceLength ch ≤ ((rest ++ buf.bytes).take (i - 1)).length + 1 := by
      rw [List.length_take, List.length_append]
      have bound : i ≤ rest.length + 1 + buf.bytes.length := by
        rw [index, counted, ngxUtfLen]
        split
        · omega
        · omega
      omega
    obtain ⟨value, one, moved, same⟩ := decode_complete enough
    have decoded : ngxUtf8Decode ((ctx.saved ++ buf.bytes).take i) = ngxUtf8Decode (ctx.saved ++ buf.bytes) := by
      rw [at_index, taken, held, List.cons_append]
      rw [← same ((rest ++ buf.bytes).drop (i - 1)), List.take_append_drop]
    have whole : sequenceLength ch ≤ (rest ++ buf.bytes).length + 1 := by
      rw [List.length_append]
      omega
    have present : (ngxUtf8Decode (ctx.saved ++ buf.bytes)).1 ≠ incomplete := by
      rw [held, List.cons_append]
      exact decode_incomplete_iff.not.mpr (Nat.not_lt_of_le whole)
    rw [decoded, if_neg (fun both => present both.1), if_neg present]
    by_cases back : (ngxUtf8Decode (ctx.saved ++ buf.bytes)).2 < ctx.saved.length
    · rw [if_pos back, if_pos back]
      rfl
    · rw [if_neg back, if_neg back, heldSymbol_eq present]
      have src : buf.bytes.drop ((ngxUtf8Decode (ctx.saved ++ buf.bytes)).2 - ctx.saved.length) =
          (ctx.saved ++ buf.bytes).drop (ngxUtf8Decode (ctx.saved ++ buf.bytes)).2 := by
        rw [List.drop_append, List.drop_eq_nil_of_le (Nat.le_of_not_lt back), List.nil_append]
      obtain ⟨after, chain, done, left, bytes, flags⟩ :=
        @recode_text table buf { ctx with saved := [] } [] buf.bytes.length _
          (buf.bytes.drop ((ngxUtf8Decode (ctx.saved ++ buf.bytes)).2 - ctx.saved.length))
          (recodeSymbol_length table (ngxUtf8Decode (ctx.saved ++ buf.bytes)).1)
      have text := @recoded_complete table ch (rest ++ buf.bytes) lead whole
      rw [← List.cons_append, ← held] at text
      rw [done, Option.map_some, Option.map_some, left, bytes, flags, src, ← text.1, ← text.2]
      rfl

theorem recodeFromUtf8_pass (valid : Held ctx.saved) (some_bytes : buf.bytes ≠ []) :
    (ngxHttpCharsetRecodeFromUtf8 table ctx buf).map
        (fun (after, chain) => (after.saved, chainBytes chain, hasLast chain)) =
      (passBuffer table ctx.saved buf.bytes).map fun (saved, bytes, flags) =>
        (saved, bytes, flags && buf.lastBuf) := by
  rcases valid with none | ⟨ch, rest, held, lead, inside⟩
  · obtain ⟨after, chain, done, left, bytes, flags⟩ := @recodeFromUtf8_fresh table buf ctx none
    rw [done, Option.map_some]
    dsimp only
    rw [left, bytes, flags, passBuffer, if_pos none]
    rfl
  · exact recodeFromUtf8_held held lead inside some_bytes

theorem passBuffer_held {saved sent : List UInt8} {flags : Bool} (valid : Held held)
    (passed : passBuffer table held bytes = some (saved, sent, flags)) : Held saved := by
  unfold passBuffer at passed
  split at passed
  · cases passed
    exact held_unfinished table bytes
  · rename_i some_held
    split at passed
    · rename_i within
      split at passed
      · rename_i one
        cases passed
        rcases valid with none | ⟨ch, rest, rfl, lead, inside⟩
        · exact absurd none some_held
        · refine Or.inr ⟨ch, rest ++ bytes, rfl, lead, ?_⟩
          rw [missing, List.headD_cons, List.length_cons] at within
          rw [List.length_append]
          omega
      · cases passed
    · split at passed
      · cases passed
      · cases passed
        exact held_unfinished table (held ++ bytes)

end Buffer

end NgxFormal.Http.Charset

/-! Which cuts of a response the filter recodes as the whole text. -/

namespace NgxFormal.Http.Charset

open Core.Utf8

/-- Buffers one behind the other: the bytes held behind them, the bytes for the next filter, and whether
the last buffer of the response is among them. -/
def passBuffers (table : Table) : List UInt8 → List Buf → Option (List UInt8 × List UInt8 × Bool)
  | held, [] => some (held, [], false)
  | held, buf :: rest =>
    (passBuffer table held buf.bytes).bind fun (saved, bytes, flags) =>
      (passBuffers table saved rest).map fun (left, more, last) =>
        (left, bytes ++ more, (flags && buf.lastBuf) || last)

/-- A response: buffers with content, the last one with `last_buf`. -/
def Response : List Buf → Prop
  | [] => False
  | [buf] => buf.bytes ≠ [] ∧ buf.lastBuf = true
  | buf :: rest => buf.bytes ≠ [] ∧ buf.lastBuf = false ∧ Response rest

/-- The cut does no harm when the bytes `held` of a character come before. Without held bytes the last
buffer must not end late. Otherwise a buffer either goes beyond the end of the character, which the
decoder does not give up before the held bytes end; or it brings no more than the rest of the character,
directly behind its first byte, and it is not the last one. -/
def Harmless (table : Table) : List UInt8 → List (List UInt8) → Prop
  | _, [] => True
  | held, bytes :: rest =>
    if held = [] then (rest = [] → ¬EndsLate bytes) ∧ Harmless table (unfinished table bytes) rest
    else if bytes.length ≤ missing held then
      held.length = 1 ∧ rest ≠ [] ∧ Harmless table (held ++ bytes) rest
    else held.length ≤ (ngxUtf8Decode (held ++ bytes)).2 ∧
      Harmless table (unfinished table (held ++ bytes)) rest

instance decidableHarmless (table : Table) :
    ∀ held bufs, Decidable (Harmless table held bufs)
  | _, [] => isTrue trivial
  | held, bytes :: rest =>
    have := decidableHarmless table (unfinished table bytes) rest
    have := decidableHarmless table (held ++ bytes) rest
    have := decidableHarmless table (unfinished table (held ++ bytes)) rest
    inferInstanceAs (Decidable (if held = [] then
        (rest = [] → ¬EndsLate bytes) ∧ Harmless table (unfinished table bytes) rest
      else if bytes.length ≤ missing held then
        held.length = 1 ∧ rest ≠ [] ∧ Harmless table (held ++ bytes) rest
      else held.length ≤ (ngxUtf8Decode (held ++ bytes)).2 ∧
        Harmless table (unfinished table (held ++ bytes)) rest))

section Cuts

variable {table : Table} {held : List UInt8} {bufs : List Buf}

theorem response_bytes (response : Response bufs) : ∀ buf ∈ bufs, buf.bytes ≠ [] := by
  induction bufs with
  | nil => exact response.elim
  | cons buf rest ih =>
    intro other member
    rcases List.mem_cons.mp member with rfl | later
    · cases rest with
      | nil => exact response.1
      | cons next rest => exact response.1
    · cases rest with
      | nil => exact absurd later List.not_mem_nil
      | cons next rest => exact ih response.2.2 other later

theorem passBuffers_append (held : List UInt8) (first second : List Buf) :
    passBuffers table held (first ++ second) =
      (passBuffers table held first).bind fun (saved, bytes, last) =>
        (passBuffers table saved second).map fun (left, more, later) => (left, bytes ++ more, last || later) := by
  induction first generalizing held with
  | nil =>
    rw [List.nil_append, passBuffers, Option.bind_some]
    dsimp only
    cases passBuffers table held second with
    | none => rfl
    | some passed => simp
  | cons buf rest ih =>
    rw [List.cons_append, passBuffers, passBuffers]
    cases passBuffer table held buf.bytes with
    | none => rfl
    | some passed =>
      obtain ⟨saved, bytes, flags⟩ := passed
      simp only [Option.bind_some, ih]
      cases passBuffers table saved rest with
      | none => rfl
      | some middle =>
        obtain ⟨left, more, last⟩ := middle
        simp only [Option.bind_some, Option.map_some]
        cases passBuffers table left second with
        | none => rfl
        | some end_ => simp [List.append_assoc, Bool.or_assoc]

theorem passBuffers_held {saved bytes : List UInt8} {last : Bool} (valid : Held held)
    (passed : passBuffers table held bufs = some (saved, bytes, last)) : Held saved := by
  induction bufs generalizing held saved bytes last with
  | nil =>
    cases passed
    exact valid
  | cons buf rest ih =>
    rw [passBuffers] at passed
    obtain ⟨⟨middle, sent, flags⟩, first, later⟩ := Option.bind_eq_some_iff.mp passed
    obtain ⟨⟨left, more, last'⟩, second, same⟩ := Option.map_eq_some_iff.mp later
    cases same
    exact ih (passBuffer_held valid first) second

theorem foldlM_pass {ctx : Ctx} {out : List Buf} (valid : Held ctx.saved) (some_bytes : ∀ buf ∈ bufs, buf.bytes ≠ []) :
    (bufs.foldlM (fun (ctx, out) buf => filterBuffer table ctx out buf) (ctx, out)).map
        (fun ((after, chain) : Ctx × List Buf) => (after.saved, chainBytes chain, hasLast chain)) =
      (passBuffers table ctx.saved bufs).map fun (saved, bytes, last) =>
        (saved, chainBytes out ++ bytes, hasLast out || last) := by
  induction bufs generalizing ctx out with
  | nil => simp [passBuffers]
  | cons buf rest ih =>
    have here := some_bytes buf List.mem_cons_self
    have step := @recodeFromUtf8_pass table buf ctx valid here
    rw [List.foldlM_cons, passBuffers]
    dsimp only
    rw [filterBuffer, if_neg here]
    cases done : ngxHttpCharsetRecodeFromUtf8 table ctx buf with
    | none =>
      rw [done] at step
      cases passed : passBuffer table ctx.saved buf.bytes with
      | none => rfl
      | some result =>
        rw [passed] at step
        cases step
    | some result =>
      obtain ⟨after, chain⟩ := result
      rw [done] at step
      cases passed : passBuffer table ctx.saved buf.bytes with
      | none =>
        rw [passed] at step
        cases step
      | some result =>
        obtain ⟨saved, bytes, flags⟩ := result
        rw [passed] at step
        simp only [Option.map_some, Option.some.injEq, Prod.mk.injEq] at step
        obtain ⟨left, sent, last⟩ := step
        have valid' : Held after.saved := by
          rw [left]
          exact passBuffer_held valid passed
        have later := @ih after (out ++ chain) valid' fun other member =>
          some_bytes other (List.mem_cons_of_mem buf member)
        simp only [Option.map_some, Option.bind_some, Option.bind_eq_bind]
        rw [later, left, chainBytes_append, hasLast_append, sent, last]
        cases passBuffers table saved rest with
        | none => rfl
        | some result => simp [List.append_assoc, Bool.or_assoc]

theorem respond_pass {calls : List (List Nat × List Buf)} (valid : Held held)
    (some_bytes : ∀ buf ∈ (calls.map Prod.snd).flatten, buf.bytes ≠ []) :
    (respond table held calls).map (fun out => (chainBytes out, hasLast out)) =
      (passBuffers table held (calls.map Prod.snd).flatten).map Prod.snd := by
  induction calls generalizing held with
  | nil => rfl
  | cons call calls ih =>
    obtain ⟨free, bufs⟩ := call
    rw [List.map_cons, List.flatten_cons] at some_bytes ⊢
    have step := @foldlM_pass table bufs ⟨held, free⟩ [] valid fun buf member =>
      some_bytes buf (List.mem_append_left _ member)
    rw [respond, ngxHttpCharsetBodyFilter, passBuffers_append]
    dsimp only at step ⊢
    generalize @List.foldlM Option _ (Ctx × List Buf) Buf _ _ bufs = done at step ⊢
    cases done with
    | none =>
      cases passed : passBuffers table held bufs with
      | none => rfl
      | some result =>
        rw [passed] at step
        cases step
    | some result =>
      obtain ⟨after, chain⟩ := result
      cases passed : passBuffers table held bufs with
      | none =>
        rw [passed] at step
        cases step
      | some result =>
        obtain ⟨saved, bytes, last⟩ := result
        rw [passed] at step
        simp only [Option.map_some, Option.some.injEq, Prod.mk.injEq] at step
        obtain ⟨left, sent, flags⟩ := step
        have later := @ih saved (passBuffers_held valid passed) fun buf member =>
          some_bytes buf (List.mem_append_right _ member)
        simp only [Option.bind_some, left]
        cases rest : respond table saved calls with
        | none =>
          rw [rest] at later
          cases ends : passBuffers table saved (calls.map Prod.snd).flatten with
          | none => rfl
          | some result =>
            rw [ends] at later
            cases later
        | some more =>
          rw [rest] at later
          cases ends : passBuffers table saved (calls.map Prod.snd).flatten with
          | none =>
            rw [ends] at later
            cases later
          | some result =>
            rw [ends] at later
            obtain ⟨held', tail, last'⟩ := result
            simp only [Option.map_some, Option.some.injEq, Prod.mk.injEq] at later
            simp only [Option.map_some, Option.some.injEq, Prod.mk.injEq]
            rw [chainBytes_append, hasLast_append, sent, flags, later.1, later.2]
            simp [chainBytes, hasLast]

theorem passBuffer_text {bytes saved sent : List UInt8} {flags : Bool}
    (passed : passBuffer table held bytes = some (saved, sent, flags)) (more : List UInt8) :
    recoded table (held ++ (bytes ++ more)) = sent ++ recoded table (saved ++ more) := by
  unfold passBuffer at passed
  split at passed
  · rename_i none
    cases passed
    rw [none, List.nil_append]
    exact (recoded_append bytes more).1
  · split at passed
    · split at passed
      · cases passed
        rw [List.append_assoc, List.nil_append]
      · cases passed
    · split at passed
      · cases passed
      · cases passed
        rw [← List.append_assoc]
        exact (recoded_append (held ++ bytes) more).1

theorem passBuffer_last {bytes saved sent : List UInt8}
    (passed : passBuffer table held bytes = some (saved, sent, true)) : sent = recoded table (held ++ bytes) := by
  unfold passBuffer at passed
  split at passed
  · rename_i none
    simp only [Option.some.injEq, Prod.mk.injEq] at passed
    rw [none, List.nil_append, passed.2.1]
  · split at passed
    · split at passed
      · cases passed
      · cases passed
    · split at passed
      · cases passed
      · cases passed
        rfl

theorem harmless_none {bytes : List UInt8} {rest : List (List UInt8)}
    (stuck : passBuffer table held bytes = none) : ¬Harmless table held (bytes :: rest) := by
  unfold passBuffer at stuck
  unfold Harmless
  split at stuck
  · cases stuck
  · rename_i some_held
    rw [if_neg some_held]
    split at stuck
    · rename_i within
      rw [if_pos within]
      split at stuck
      · cases stuck
      · rename_i more
        exact fun harmless => more harmless.1
    · rename_i beyond
      rw [if_neg beyond]
      split at stuck
      · rename_i back
        exact fun harmless => absurd harmless.1 (Nat.not_le_of_lt back)
      · cases stuck

theorem harmless_cons {bytes saved sent : List UInt8} {flags : Bool} {rest : List (List UInt8)}
    (passed : passBuffer table held bytes = some (saved, sent, flags)) :
    Harmless table held (bytes :: rest) ↔ (rest = [] → flags = true) ∧ Harmless table saved rest := by
  unfold passBuffer at passed
  rw [Harmless]
  split at passed
  · rename_i none
    rw [if_pos none]
    cases passed
    rw [decide_eq_true_iff]
  · rename_i some_held
    rw [if_neg some_held]
    split at passed
    · rename_i within
      rw [if_pos within]
      split at passed
      · rename_i one
        cases passed
        constructor
        · exact fun harmless => ⟨fun none => absurd none harmless.2.1, harmless.2.2⟩
        · exact fun harmless => ⟨one, (fun none => by cases harmless.1 none), harmless.2⟩
      · cases passed
    · rename_i beyond
      rw [if_neg beyond]
      split at passed
      · cases passed
      · rename_i forward
        cases passed
        constructor
        · exact fun harmless => ⟨fun _ => rfl, harmless.2⟩
        · exact fun harmless => ⟨Nat.le_of_not_lt forward, harmless.2⟩

/-- The response is recoded as its text if and only if the cut does no harm. -/
theorem passBuffers_iff (response : Response bufs) (valid : Held held) :
    (passBuffers table held bufs).map Prod.snd = some (recoded table (held ++ chainBytes bufs), true) ↔
      Harmless table held (bufs.map Buf.bytes) := by
  induction bufs generalizing held with
  | nil => exact response.elim
  | cons buf rest ih =>
    have split : chainBytes (buf :: rest) = buf.bytes ++ chainBytes rest := by simp [chainBytes]
    rw [passBuffers, List.map_cons, split]
    cases passed : passBuffer table held buf.bytes with
    | none =>
      constructor
      · exact fun wrong => by cases wrong
      · exact fun harmless => absurd harmless (harmless_none passed)
    | some result =>
      obtain ⟨saved, sent, flags⟩ := result
      rw [harmless_cons passed, passBuffer_text passed, Option.bind_some]
      dsimp only
      cases rest with
      | nil =>
        rw [passBuffers, response.2, Bool.and_true]
        cases flags with
        | false => simp
        | true =>
          have all := passBuffer_text passed []
          rw [List.append_nil, ← passBuffer_last passed, List.append_nil] at all
          have none_left : recoded table saved = [] := by
            have length := congrArg List.length all
            rw [List.length_append] at length
            exact List.eq_nil_of_length_eq_zero (by omega)
          simp [chainBytes, Harmless, none_left]
      | cons next rest =>
        rw [response.2.1, Bool.and_false]
        have later := @ih saved response.2.2 (passBuffer_held valid passed)
        rw [← later]
        cases passBuffers table saved (next :: rest) with
        | none =>
          constructor
          · exact fun wrong => by cases wrong
          · exact fun wrong => by cases wrong.2
        | some result =>
          obtain ⟨left, more, last⟩ := result
          simp

end Cuts

end NgxFormal.Http.Charset
