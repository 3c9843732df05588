import NgxFormal.Core.Utf8

/-! `ngx_http_charset_body_filter` for a response in UTF-8. A buffer of the filter has its content and
its room; `none` is an access outside of the current buffer, of `ctx->saved` or of the room. -/

namespace NgxFormal.Http.Charset

open Core.Utf8 (ngxUtf8Decode incomplete)

def ngxUtfLen : Nat := 4

def ngxHtmlEntityLen : Nat := 10

/-- A buffer of the body, or of the chain for the next filter. -/
structure Buf where
  bytes : List UInt8
  lastBuf : Bool
  deriving DecidableEq, Repr

/-- The table of 256 tables. -/
abbrev Table := Nat → Option (Nat → UInt8)

/-- `ctx->saved` up to `ctx->saved_len`, and the sizes of the buffers in `ctx->free_buffers`. -/
structure Ctx where
  saved : List UInt8
  freeBuffers : List Nat
  deriving DecidableEq, Repr

/-- `table[n >> 8][n & 0xff]` -/
def mapped (table : Table) (n : Nat) : UInt8 :=
  match table (n / 256) with
  | some p => p (n % 256)
  | none => 0

/-- `"&#%uD;"` -/
def entity (n : Nat) : List UInt8 :=
  0x26 :: 0x23 :: (Nat.toDigits 10 n).map (fun digit => UInt8.ofNat digit.toNat) ++ [0x3b]

/-- `ngx_http_charset_get_buffer`: the size of the buffer, and the ones that stay free. -/
def ngxHttpCharsetGetBuffer (size : Nat) : List Nat → Nat × List Nat
  | [] => (size, [])
  | room :: rest =>
    if size ≤ room then (room, rest)
    else
      let (found, others) := ngxHttpCharsetGetBuffer size rest
      (found, room :: others)

/-- The chain so far, the content of the last buffer up to `dst`, and its room. -/
structure Out where
  done : List Buf
  dst : List UInt8
  room : Nat
  freeBuffers : List Nat

def Out.put (out : Out) (bytes : List UInt8) : Option Out :=
  if out.dst.length + bytes.length ≤ out.room then some { out with dst := out.dst ++ bytes } else none

/-- `if ((size_t) (b->end - dst) < NGX_HTML_ENTITY_LEN)` -/
def Out.renew (out : Out) (size : Nat) : Out :=
  if out.room - out.dst.length < ngxHtmlEntityLen then
    let (room, free) := ngxHttpCharsetGetBuffer size out.freeBuffers
    ⟨out.done ++ [⟨out.dst, false⟩], [], room, free⟩
  else out

/-- `while (src < buf->last)`, with what is left; every turn takes a byte. The bytes are the ones to save. -/
def recodeLoop (table : Table) : Nat → List UInt8 → Out → Option (Out × List UInt8)
  | _, [], out => some (out, [])
  | 0, _ :: _, _ => none
  | fuel + 1, ch :: rest, out =>
    let out := out.renew ((ch :: rest).length + ngxHtmlEntityLen)
    if ch < 0x80 then (out.put [ch]).bind (recodeLoop table fuel rest)
    else
      let (n, moved) := ngxUtf8Decode (ch :: rest)
      let src := (ch :: rest).drop moved
      if n < 0x10000 then
        let c := mapped table n
        (out.put (if c ≠ 0 then [c] else entity n)).bind (recodeLoop table fuel src)
      else if n = incomplete then some (out, ch :: rest)
      else if 0x10ffff < n then (out.put [0x3f]).bind (recodeLoop table fuel src)
      else (out.put (entity n)).bind (recodeLoop table fuel src)

/-- `ngx_memcpy(&ctx->saved[ctx->saved_len], src, len)` -/
def save (saved src : List UInt8) (len : Nat) : Option (List UInt8) :=
  if len ≤ src.length ∧ saved.length + len ≤ ngxUtfLen then some (saved ++ src.take len) else none

/-- Everything from the new buffer on: `first` is what is written before the loop. -/
def recode (table : Table) (ctx : Ctx) (buf : Buf) (done : List Buf) (size : Nat) (first src : List UInt8) :
    Option (Ctx × List Buf) :=
  let size := if size < ngxHtmlEntityLen then size + ngxHtmlEntityLen else size
  let (room, free) := ngxHttpCharsetGetBuffer size ctx.freeBuffers
  ((⟨done, [], room, free⟩ : Out).put first).bind fun out =>
    (recodeLoop table src.length src out).bind fun (out, left) =>
      (save [] left left.length).map fun saved =>
        (⟨saved, out.freeBuffers⟩, out.done ++ [⟨out.dst, buf.lastBuf⟩])

/-- The loop that fills `ctx->saved` from the buffer, with the `i` at its end. -/
def fillSaved : Nat → List UInt8 → List UInt8 → List UInt8 × Nat
  | i, saved, [] => (saved, i)
  | i, saved, ch :: rest =>
    if i < ngxUtfLen then
      if rest = [] then (saved ++ [ch], i) else fillSaved (i + 1) (saved ++ [ch]) rest
    else (saved, i)

def ngxHttpCharsetRecodeFromUtf8 (table : Table) (ctx : Ctx) (buf : Buf) : Option (Ctx × List Buf) :=
  if ctx.saved = [] then
    let ascii := buf.bytes.takeWhile (· < 0x80)
    let src := buf.bytes.drop ascii.length
    if src = [] then some (ctx, [buf])
    else if 512 < ascii.length then
      if (ngxUtf8Decode src).1 = incomplete then
        (save [] src src.length).map fun saved => ({ ctx with saved := saved }, [⟨ascii, false⟩])
      else recode table ctx buf [⟨ascii, false⟩] src.length [] src
    else recode table ctx buf [] buf.bytes.length [] buf.bytes
  else
    let (saved, i) := fillSaved ctx.saved.length ctx.saved buf.bytes
    let (n, moved) := ngxUtf8Decode (saved.take i)
    let c := if n < 0x10000 then mapped table n else 0
    if n = incomplete ∧ i < ngxUtfLen then
      (save ctx.saved buf.bytes i).map fun saved => ({ ctx with saved := saved }, [⟨[], false⟩])
    else
      let moved := if n = incomplete then ngxUtfLen else moved
      let symbol := if c ≠ 0 then [c] else if n = incomplete ∨ 0x10ffff < n then [0x3f] else entity n
      if moved < ctx.saved.length then none
      else
        recode table { ctx with saved := [] } buf [] buf.bytes.length symbol
          (buf.bytes.drop (moved - ctx.saved.length))

/-- One turn of `for (cl = in; cl; cl = cl->next)`, with the chain so far. -/
def filterBuffer (table : Table) (ctx : Ctx) (out : List Buf) (buf : Buf) : Option (Ctx × List Buf) :=
  if buf.bytes = [] then some (ctx, out ++ [buf])
  else (ngxHttpCharsetRecodeFromUtf8 table ctx buf).map fun (ctx, more) => (ctx, out ++ more)

/-- `ngx_http_charset_body_filter`, with `free` for the buffers that have come back. -/
def ngxHttpCharsetBodyFilter (table : Table) (saved : List UInt8) (free : List Nat) (bufs : List Buf) :
    Option (Ctx × List Buf) :=
  bufs.foldlM (fun (ctx, out) buf => filterBuffer table ctx out buf) (⟨saved, free⟩, [])

/-- The calls for a response; with each call come the free buffers. -/
def respond (table : Table) : List UInt8 → List (List Nat × List Buf) → Option (List Buf)
  | _, [] => some []
  | saved, (free, bufs) :: calls =>
    (ngxHttpCharsetBodyFilter table saved free bufs).bind fun (ctx, out) =>
      (respond table ctx.saved calls).map (out ++ ·)

def chainBytes (bufs : List Buf) : List UInt8 := (bufs.map Buf.bytes).flatten

def recodeSymbol (table : Table) (n : Nat) : List UInt8 :=
  if n < 0x10000 then if mapped table n ≠ 0 then [mapped table n] else entity n
  else if 0x10ffff < n then [0x3f]
  else entity n

/-- The text decoded character by character, and the unfinished one at its end. -/
def recodeText (table : Table) : Nat → List UInt8 → List UInt8 × List UInt8
  | _, [] => ([], [])
  | 0, text => ([], text)
  | fuel + 1, ch :: rest =>
    if ch < 0x80 then
      let (bytes, left) := recodeText table fuel rest
      (ch :: bytes, left)
    else
      let (n, moved) := ngxUtf8Decode (ch :: rest)
      if n = incomplete then ([], ch :: rest)
      else
        let (bytes, left) := recodeText table fuel ((ch :: rest).drop moved)
        (recodeSymbol table n ++ bytes, left)

def recoded (table : Table) (text : List UInt8) : List UInt8 := (recodeText table text.length text).1

def unfinished (table : Table) (text : List UInt8) : List UInt8 := (recodeText table text.length text).2

end NgxFormal.Http.Charset

/-! The text of a response, and the loop over one buffer. -/

namespace NgxFormal.Http.Charset

open Core.Utf8

section Text

variable {table : Table} {ch : UInt8} {rest text more : List UInt8} {n : Nat}

theorem lead_of_unfinished (short : rest.length + 1 < sequenceLength ch) : ¬ch < 0x80 := by
  intro small
  have below : ch.toNat < 128 := UInt8.lt_iff_toNat_lt.mp small
  have above (bound : UInt8) (large : 128 ≤ bound.toNat) : ¬bound ≤ ch := by
    rw [UInt8.le_iff_toNat_le]
    omega
  rw [sequenceLength, if_neg (above 0xf0 (by decide)), if_neg (above 0xe0 (by decide)),
    if_neg (above 0xc2 (by decide))] at short
  omega

theorem drop_moved (enough : sequenceLength ch ≤ rest.length + 1) :
    ((ch :: rest).drop (ngxUtf8Decode (ch :: rest)).2).length ≤ rest.length := by
  have moved := (decode_complete enough).2.1
  rw [List.length_drop, List.length_cons]
  omega

/-- Enough fuel is the length of the text. -/
theorem recodeText_fuel {fuel : Nat} (enough : text.length ≤ fuel) :
    recodeText table fuel text = recodeText table text.length text := by
  induction fuel using Nat.strong_induction_on generalizing text with
  | _ fuel ih =>
    match fuel, text, enough with
    | 0, [], _ => rfl
    | fuel + 1, [], _ => rfl
    | fuel + 1, ch :: rest, enough =>
      have fits : rest.length ≤ fuel := Nat.le_of_succ_le_succ enough
      rw [List.length_cons, recodeText, recodeText]
      by_cases ascii : ch < 0x80
      · rw [if_pos ascii, if_pos ascii, ih fuel (Nat.lt_succ_self _) fits]
      · rw [if_neg ascii, if_neg ascii]
        by_cases short : (ngxUtf8Decode (ch :: rest)).1 = incomplete
        · dsimp only
          rw [if_pos short, if_pos short]
        · have there := Nat.le_of_not_lt (decode_incomplete_iff.not.mp short)
          have less := drop_moved there
          dsimp only
          rw [if_neg short, if_neg short, ih fuel (Nat.lt_succ_self _) (less.trans fits),
            ih rest.length (Nat.lt_succ_of_le fits) less]

theorem recoded_ascii (ascii : ch < 0x80) : recoded table (ch :: rest) = ch :: recoded table rest ∧
    unfinished table (ch :: rest) = unfinished table rest := by
  unfold recoded unfinished
  rw [List.length_cons, recodeText, if_pos ascii]
  exact ⟨rfl, rfl⟩

theorem recoded_short (short : rest.length + 1 < sequenceLength ch) : recoded table (ch :: rest) = [] ∧
    unfinished table (ch :: rest) = ch :: rest := by
  unfold recoded unfinished
  rw [List.length_cons, recodeText, if_neg (lead_of_unfinished short), decode_short short]
  exact ⟨rfl, rfl⟩

theorem recoded_complete (lead : ¬ch < 0x80) (enough : sequenceLength ch ≤ rest.length + 1) :
    recoded table (ch :: rest) = recodeSymbol table (ngxUtf8Decode (ch :: rest)).1 ++
        recoded table ((ch :: rest).drop (ngxUtf8Decode (ch :: rest)).2) ∧
      unfinished table (ch :: rest) = unfinished table ((ch :: rest).drop (ngxUtf8Decode (ch :: rest)).2) := by
  have there : ¬(ngxUtf8Decode (ch :: rest)).1 = incomplete :=
    decode_incomplete_iff.not.mpr (Nat.not_lt_of_le enough)
  unfold recoded unfinished
  rw [List.length_cons, recodeText, if_neg lead]
  dsimp only
  rw [if_neg there, recodeText_fuel (drop_moved enough)]
  exact ⟨rfl, rfl⟩

theorem recoded_append (text more : List UInt8) :
    recoded table (text ++ more) = recoded table text ++ recoded table (unfinished table text ++ more) ∧
      unfinished table (text ++ more) = unfinished table (unfinished table text ++ more) := by
  induction size : text.length using Nat.strong_induction_on generalizing text with
  | _ size ih =>
    cases text with
    | nil => exact ⟨rfl, rfl⟩
    | cons ch rest =>
      rw [List.length_cons] at size
      by_cases ascii : ch < 0x80
      · obtain ⟨bytes, left⟩ := ih rest.length (by omega) rest rfl
        obtain ⟨first, held⟩ := @recoded_ascii table ch rest ascii
        obtain ⟨all, last⟩ := @recoded_ascii table ch (rest ++ more) ascii
        rw [List.cons_append, all, last, first, held, bytes, left]
        exact ⟨rfl, rfl⟩
      · by_cases short : rest.length + 1 < sequenceLength ch
        · obtain ⟨first, held⟩ := @recoded_short table ch rest short
          rw [first, held]
          exact ⟨rfl, rfl⟩
        · have enough := Nat.le_of_not_lt short
          obtain ⟨-, moved, inside, same⟩ := decode_complete enough
          have less := drop_moved enough
          obtain ⟨first, held⟩ := @recoded_complete table ch rest ascii enough
          obtain ⟨all, last⟩ := @recoded_complete table ch (rest ++ more) ascii
            (by rw [List.length_append]; omega)
          obtain ⟨bytes, left⟩ := ih _ (by omega) ((ch :: rest).drop (ngxUtf8Decode (ch :: rest)).2) rfl
          have split : (ch :: (rest ++ more)).drop (ngxUtf8Decode (ch :: rest)).2 =
              (ch :: rest).drop (ngxUtf8Decode (ch :: rest)).2 ++ more := by
            rw [← List.cons_append, List.drop_append_of_le_length (by rw [List.length_cons]; omega)]
          rw [List.cons_append, all, last, first, held, same more, split, bytes, left, List.append_assoc]
          exact ⟨rfl, rfl⟩

theorem unfinished_cases (text : List UInt8) :
    unfinished table text = [] ∨ ∃ ch rest, unfinished table text = ch :: rest ∧
      rest.length + 1 < sequenceLength ch := by
  induction size : text.length using Nat.strong_induction_on generalizing text with
  | _ size ih =>
    cases text with
    | nil => exact Or.inl rfl
    | cons ch rest =>
      rw [List.length_cons] at size
      by_cases ascii : ch < 0x80
      · rw [(recoded_ascii ascii).2]
        exact ih rest.length (by omega) rest rfl
      · by_cases short : rest.length + 1 < sequenceLength ch
        · rw [(recoded_short short).2]
          exact Or.inr ⟨ch, rest, rfl, short⟩
        · have enough := Nat.le_of_not_lt short
          have less := drop_moved enough
          rw [(recoded_complete ascii enough).2]
          exact ih _ (by omega) _ rfl

end Text

section Loop

variable {table : Table} {ch : UInt8} {rest : List UInt8} {n size : Nat} {out : Out} {bytes : List UInt8}

theorem entity_length (small : n < 2 ^ 21) : (entity n).length ≤ ngxHtmlEntityLen := by
  have digits : (Nat.toDigits 10 n).length ≤ 7 :=
    (Nat.length_toDigits_le_iff (by decide) (by decide)).mpr (by omega)
  rw [entity, ngxHtmlEntityLen, List.length_append, List.length_cons, List.length_cons, List.length_map]
  simp only [List.length_singleton]
  omega

theorem recodeSymbol_length (table : Table) (n : Nat) :
    (recodeSymbol table n).length ≤ ngxHtmlEntityLen := by
  have one (c : UInt8) : [c].length ≤ ngxHtmlEntityLen := by
    rw [List.length_singleton]
    decide
  unfold recodeSymbol
  split
  · split
    · exact one _
    · exact entity_length (by omega)
  · split
    · exact one _
    · exact entity_length (by omega)

theorem getBuffer_size (size : Nat) (free : List Nat) : size ≤ (ngxHttpCharsetGetBuffer size free).1 := by
  induction free with
  | nil => exact Nat.le_refl size
  | cons room rest ih =>
    unfold ngxHttpCharsetGetBuffer
    split
    · assumption
    · exact ih

/-- The bytes of the chain and of the last buffer. -/
def Out.all (out : Out) : List UInt8 := chainBytes out.done ++ out.dst

/-- Whether the chain has the last buffer of the response. -/
def hasLast (bufs : List Buf) : Bool := bufs.any Buf.lastBuf

theorem hasLast_append (first second : List Buf) :
    hasLast (first ++ second) = (hasLast first || hasLast second) := List.any_append

theorem chainBytes_append (first second : List Buf) :
    chainBytes (first ++ second) = chainBytes first ++ chainBytes second := by
  simp [chainBytes]

theorem chainBytes_single (buf : Buf) : chainBytes [buf] = buf.bytes := by
  simp [chainBytes]

theorem renew_room (out : Out) (enough : ngxHtmlEntityLen ≤ size) :
    (out.renew size).all = out.all ∧ hasLast (out.renew size).done = hasLast out.done ∧
      (out.renew size).dst.length + ngxHtmlEntityLen ≤ (out.renew size).room := by
  unfold Out.renew
  by_cases full : out.room - out.dst.length < ngxHtmlEntityLen
  · rw [if_pos full]
    refine ⟨?_, ?_, ?_⟩
    · simp only [Out.all, chainBytes_append, chainBytes_single, List.append_nil]
    · simp [hasLast]
    · have room := getBuffer_size size out.freeBuffers
      rw [List.length_nil]
      dsimp only
      omega
  · rw [if_neg full]
    refine ⟨rfl, rfl, ?_⟩
    have positive : 0 < ngxHtmlEntityLen := by decide
    omega

theorem put_some (short : bytes.length ≤ ngxHtmlEntityLen)
    (room : out.dst.length + ngxHtmlEntityLen ≤ out.room) :
    ∃ after, out.put bytes = some after ∧ after.all = out.all ++ bytes ∧ after.done = out.done := by
  refine ⟨_, if_pos (by omega), ?_, rfl⟩
  rw [Out.all, Out.all, List.append_assoc]

theorem recodeLoop_text {fuel : Nat} {src : List UInt8} (enough : src.length ≤ fuel) :
    ∃ after, recodeLoop table fuel src out = some (after, unfinished table src) ∧
      after.all = out.all ++ recoded table src ∧ hasLast after.done = hasLast out.done := by
  induction fuel generalizing src out with
  | zero =>
    have nothing : src = [] := List.eq_nil_of_length_eq_zero (Nat.le_zero.mp enough)
    subst nothing
    exact ⟨out, rfl, (List.append_nil _).symm, rfl⟩
  | succ fuel ih =>
    cases src with
    | nil => exact ⟨out, rfl, (List.append_nil _).symm, rfl⟩
    | cons ch rest =>
      have fits : rest.length ≤ fuel := Nat.le_of_succ_le_succ enough
      obtain ⟨same, flags, room⟩ := renew_room out
        (show ngxHtmlEntityLen ≤ (ch :: rest).length + ngxHtmlEntityLen by omega)
      -- a turn writes the bytes of a character and goes on behind it
      have turn (bytes src : List UInt8) (short : bytes.length ≤ ngxHtmlEntityLen)
          (less : src.length ≤ fuel) :
          ∃ after, ((out.renew ((ch :: rest).length + ngxHtmlEntityLen)).put bytes).bind
              (recodeLoop table fuel src) = some (after, unfinished table src) ∧
            after.all = out.all ++ (bytes ++ recoded table src) ∧
            hasLast after.done = hasLast out.done := by
        obtain ⟨middle, written, grown, done⟩ := put_some short room
        obtain ⟨after, looped, all, last⟩ := @ih middle src less
        refine ⟨after, by rw [written, Option.bind_some, looped], ?_, ?_⟩
        · rw [all, grown, same, List.append_assoc]
        · rw [last, done, flags]
      unfold recodeLoop
      by_cases ascii : ch < 0x80
      · rw [if_pos ascii, (recoded_ascii ascii).1, (recoded_ascii ascii).2]
        exact turn [ch] rest (by rw [List.length_singleton]; decide) fits
      · dsimp only
        rw [if_neg ascii]
        by_cases short : rest.length + 1 < sequenceLength ch
        · rw [decode_short short, (recoded_short short).1, (recoded_short short).2]
          exact ⟨_, rfl, by rw [List.append_nil, same], flags⟩
        · have there := Nat.le_of_not_lt short
          have present := decode_incomplete_iff.not.mpr short
          rw [(recoded_complete ascii there).1, (recoded_complete ascii there).2]
          have next := turn (recodeSymbol table (ngxUtf8Decode (ch :: rest)).1) _
            (recodeSymbol_length _ _) ((drop_moved there).trans fits)
          unfold recodeSymbol at next ⊢
          by_cases small : (ngxUtf8Decode (ch :: rest)).1 < 0x10000
          · rw [if_pos small] at next ⊢
            rw [if_pos small]
            exact next
          · rw [if_neg small] at next ⊢
            rw [if_neg small, if_neg present]
            by_cases large : 0x10ffff < (ngxUtf8Decode (ch :: rest)).1
            · rw [if_pos large] at next ⊢
              rw [if_pos large]
              exact next
            · rw [if_neg large] at next ⊢
              rw [if_neg large]
              exact next

end Loop

end NgxFormal.Http.Charset
