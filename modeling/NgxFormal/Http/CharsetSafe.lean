import NgxFormal.Http.CharsetBuffer

/-! The accesses of `ngx_http_charset_recode_from_utf8` and `ngx_http_charset_recode_to_utf8`, and the
buffers that they put in the chain. -/

namespace NgxFormal.Http.Charset

open Core.Utf8

/-- A buffer in the chain, with what makes it special. -/
structure Link where
  buf : Buf
  inMemory : Bool
  sync : Bool
  deriving DecidableEq, Repr

/-- `ngx_buf_special`; a buffer of the filter that is not in memory is for `sync`. -/
def Link.special (b : Link) : Bool := (b.buf.lastBuf || b.sync) && !b.inMemory

/-- What the writer of the output calls a zero size buffer. -/
def Link.ZeroSize (b : Link) : Prop := b.buf.bytes = [] ∧ b.special = false

instance (b : Link) : Decidable b.ZeroSize := inferInstanceAs (Decidable (_ ∧ _))

def written (buf : Buf) : Link := ⟨buf, true, false⟩

/-- `recode`, with the flags of the last buffer. -/
def recodeChain (table : Table) (ctx : Ctx) (buf : Buf) (done : List Buf) (size : Nat)
    (first src : List UInt8) : Option (Ctx × List Link) :=
  let size := if size < ngxHtmlEntityLen then size + ngxHtmlEntityLen else size
  let (room, free) := ngxHttpCharsetGetBuffer size ctx.freeBuffers
  ((⟨done, [], room, free⟩ : Out).put first).bind fun out =>
    (recodeLoop table src.length src out).bind fun (out, left) =>
      (save [] left left.length).map fun saved =>
        -- `if (b->pos == dst) { b->sync = 1; b->temporary = 0; }`
        let sync := decide (left ≠ [] ∧ out.dst = [])
        (⟨saved, out.freeBuffers⟩, out.done.map written ++ [⟨⟨out.dst, buf.lastBuf⟩, !sync, sync⟩])

/-- `ngx_http_charset_recode_from_utf8`, with the flags of the buffers. -/
def recodeFromUtf8Chain (table : Table) (ctx : Ctx) (buf : Buf) : Option (Ctx × List Link) :=
  if ctx.saved = [] then
    let ascii := buf.bytes.takeWhile (· < 0x80)
    let src := buf.bytes.drop ascii.length
    if src = [] then some (ctx, [written buf])
    else if 512 < ascii.length then
      if (ngxUtf8Decode src).1 = incomplete then
        (save [] src src.length).map fun saved =>
          ({ ctx with saved := saved }, [written ⟨ascii, false⟩])
      else recodeChain table ctx buf [⟨ascii, false⟩] src.length [] src
    else recodeChain table ctx buf [] buf.bytes.length [] buf.bytes
  else
    let (saved, i) := fillSaved ctx.saved.length ctx.saved buf.bytes
    let (n, moved) := ngxUtf8Decode (saved.take i)
    let c := if n < 0x10000 then mapped table n else 0
    if n = incomplete ∧ i < ngxUtfLen then
      (save ctx.saved buf.bytes i).map fun saved =>
        ({ ctx with saved := saved }, [⟨⟨[], false⟩, false, true⟩])
    else
      let moved := if n = incomplete then ngxUtfLen else moved
      let symbol := if c ≠ 0 then [c] else if n = incomplete ∨ 0x10ffff < n then [0x3f] else entity n
      -- `src` is in front of the buffer, or behind it
      if moved < ctx.saved.length ∨ ctx.saved.length + buf.bytes.length < moved then none
      else
        recodeChain table { ctx with saved := [] } buf [] buf.bytes.length symbol
          (buf.bytes.drop (moved - ctx.saved.length))

/-- `table[ch * NGX_UTF_LEN]` bytes of the table of a charset. -/
def codeOf (table : Nat → UInt8) (ch : UInt8) : List UInt8 :=
  (List.range (table (ch.toNat * ngxUtfLen)).toNat).map fun i => table (ch.toNat * ngxUtfLen + 1 + i)

/-- `len + size / 2 + size / 2 * ctx->length` -/
def expected (length len size : Nat) : Nat := len + size / 2 + size / 2 * length

/-- `while (src < buf->last)` of `ngx_http_charset_recode_to_utf8` -/
def toLoop (table : Nat → UInt8) (length : Nat) : List UInt8 → Out → Option Out
  | [], out => some out
  | ch :: src, out =>
    let code := codeOf table ch
    let out :=
      if out.room - out.dst.length < code.length then
        let (room, free) :=
          ngxHttpCharsetGetBuffer (expected length code.length src.length) out.freeBuffers
        ⟨out.done ++ [⟨out.dst, false⟩], [], room, free⟩
      else out
    (out.put code).bind (toLoop table length src)

/-- The bytes in front of the first one that has to be recoded. -/
def untouched (table : Nat → UInt8) (bytes : List UInt8) : List UInt8 :=
  bytes.takeWhile fun ch => table (ch.toNat * ngxUtfLen) = 1

/-- What the loop reads, and the size that is asked for. -/
def recodedFrom (table : Nat → UInt8) (length : Nat) (bytes : List UInt8) : List UInt8 × Nat :=
  let plain := untouched table bytes
  let src := bytes.drop plain.length
  if 512 < plain.length then (src, expected length 0 src.length)
  else (bytes, expected length plain.length src.length)

/-- `ngx_http_charset_recode_to_utf8`; `length` is `ctx->length`. -/
def ngxHttpCharsetRecodeToUtf8 (table : Nat → UInt8) (length : Nat) (free : List Nat) (buf : Buf) :
    Option (List Nat × List Link) :=
  let plain := untouched table buf.bytes
  if buf.bytes.drop plain.length = [] then some (free, [written buf])
  else
    let (src, size) := recodedFrom table length buf.bytes
    let (room, free) := ngxHttpCharsetGetBuffer size free
    (toLoop table length src ⟨if 512 < plain.length then [⟨plain, false⟩] else [], [], room, free⟩).map
      fun out => (out.freeBuffers, (out.done ++ [⟨out.dst, buf.lastBuf⟩]).map written)

/-- The bytes of a character that are held, and the buffer behind them. -/
def Fits (saved bytes : List UInt8) : Prop :=
  saved = [] ∨ if bytes.length ≤ missing saved then saved.length = 1
    else saved.length ≤ (ngxUtf8Decode (saved ++ bytes)).2

instance (saved bytes : List UInt8) : Decidable (Fits saved bytes) := by
  unfold Fits
  infer_instance

/-- The start of a character at the end of a text. -/
def savedBehind (table : Table) (saved bytes : List UInt8) : List UInt8 :=
  if saved ≠ [] ∧ bytes.length ≤ missing saved then saved ++ bytes
  else unfinished table (saved ++ bytes)

/-- The first code that is not empty has room in the first buffer. -/
def RoomFor (table : Nat → UInt8) (length : Nat) (free : List Nat) (bytes : List UInt8) : Prop :=
  bytes.drop (untouched table bytes).length = [] ∨
    ∃ code, ((recodedFrom table length bytes).1.map (codeOf table)).find? (· ≠ []) = some code ∧
      code.length ≤ (free.find? ((recodedFrom table length bytes).2 ≤ ·)).getD
        (recodedFrom table length bytes).2

/-- All accesses of a run are inside, from `ctx->saved` on; every buffer comes with the free ones. -/
def SafeFromUtf8 (table : Table) : List UInt8 → List (List Nat × Buf) → Prop
  | saved, [] => saved.length ≤ ngxUtfLen
  | saved, (free, buf) :: calls =>
    saved.length ≤ ngxUtfLen ∧
    ∃ after chain, recodeFromUtf8Chain table ⟨saved, free⟩ buf = some (after, chain) ∧
      (∀ b ∈ chain, ¬ b.ZeroSize) ∧ SafeFromUtf8 table after.saved calls

def FitsFromUtf8 (table : Table) : List UInt8 → List (List Nat × Buf) → Prop
  | _, [] => True
  | saved, (_, buf) :: calls =>
    Fits saved buf.bytes ∧ FitsFromUtf8 table (savedBehind table saved buf.bytes) calls

/-- The same for the other direction, which keeps nothing from one buffer to the next. -/
def SafeToUtf8 (table : Nat → UInt8) (length : Nat) (calls : List (List Nat × Buf)) : Prop :=
  ∀ call ∈ calls, ∃ after chain,
    ngxHttpCharsetRecodeToUtf8 table length call.1 call.2 = some (after, chain) ∧
    ∀ b ∈ chain, ¬ b.ZeroSize

section FromUtf8

variable {table : Table} {ctx after : Ctx} {buf : Buf} {chain : List Link} {out out' : Out}
  {left src first saved bytes : List UInt8} {size fuel : Nat} {done : List Buf}

theorem recodeChain_bufs :
    (recodeChain table ctx buf done size first src).map
        (fun result => (result.1, result.2.map Link.buf)) =
      recode table ctx buf done size first src := by
  have kept (bufs : List Buf) : (bufs.map written).map Link.buf = bufs := by
    rw [List.map_map]
    exact List.map_id' bufs
  unfold recodeChain recode
  dsimp only
  cases Out.put _ first with
  | none => rfl
  | some out =>
    rw [Option.bind_some, Option.bind_some]
    cases recodeLoop table src.length src out with
    | none => rfl
    | some result =>
      rw [Option.bind_some, Option.bind_some, Option.map_map]
      apply congrArg (Option.map · _)
      funext saved
      dsimp only [Function.comp]
      rw [List.map_append, kept]
      rfl

theorem fillSaved_inside (i : Nat) (saved src : List UInt8) :
    (fillSaved i saved src).2 ≤ i + src.length := by
  induction src generalizing i saved with
  | nil => exact Nat.le_add_right i 0
  | cons ch rest ih =>
    rw [fillSaved]
    split
    · split
      · exact Nat.le_add_right _ _
      · have later := ih (i + 1) (saved ++ [ch])
        rw [List.length_cons]
        omega
    · exact Nat.le_add_right _ _

theorem recodeFromUtf8Chain_bufs :
    (recodeFromUtf8Chain table ctx buf).map (fun result => (result.1, result.2.map Link.buf)) =
      ngxHttpCharsetRecodeFromUtf8 table ctx buf := by
  unfold recodeFromUtf8Chain ngxHttpCharsetRecodeFromUtf8
  dsimp only
  split
  · split
    · rfl
    · split
      · split
        · rw [Option.map_map]
          rfl
        · exact recodeChain_bufs
      · exact recodeChain_bufs
  · split
    · rw [Option.map_map]
      rfl
    · rename_i present
      have index := fillSaved_inside ctx.saved.length ctx.saved buf.bytes
      generalize fillSaved ctx.saved.length ctx.saved buf.bytes = filled at index present ⊢
      have moved := decode_moved (filled.1.take filled.2)
      rw [List.length_take] at moved
      have inside : ¬ ctx.saved.length + buf.bytes.length <
          if (ngxUtf8Decode (filled.1.take filled.2)).1 = incomplete then ngxUtfLen
          else (ngxUtf8Decode (filled.1.take filled.2)).2 := by
        split
        · omega
        · omega
      rw [← recodeChain_bufs, apply_ite (Option.map _)]
      simp only [or_iff_left inside]
      rfl

theorem entity_some (n : Nat) : entity n ≠ [] := by
  rw [entity]
  exact List.cons_ne_nil _ _

theorem symbol_some (c : UInt8) (bad : Prop) [Decidable bad] (n : Nat) :
    (if c ≠ 0 then [c] else if bad then [0x3f] else entity n) ≠ [] := by
  split
  · exact List.cons_ne_nil _ _
  · split
    · exact List.cons_ne_nil _ _
    · exact entity_some n

/-- Every buffer that is passed on has content, and the current one has room for an entity. -/
def Full (out : Out) : Prop := (∀ b ∈ out.done, b.bytes ≠ []) ∧ ngxHtmlEntityLen ≤ out.room

theorem Full.renew (full : Full out) (enough : ngxHtmlEntityLen ≤ size) : Full (out.renew size) := by
  unfold Out.renew
  by_cases short : out.room - out.dst.length < ngxHtmlEntityLen
  · rw [if_pos short]
    refine ⟨?_, enough.trans (getBuffer_size size out.freeBuffers)⟩
    intro b member
    rcases List.mem_append.mp member with old | new
    · exact full.1 b old
    · rw [List.mem_singleton.mp new]
      intro none_
      have empty : out.dst = [] := none_
      have room := full.2
      rw [empty, List.length_nil] at short
      omega
  · rw [if_neg short]
    exact full

theorem Full.put (full : Full out) (put : out.put bytes = some out') (some_ : bytes ≠ []) :
    Full out' ∧ out'.dst ≠ [] := by
  rw [Out.put] at put
  split at put
  · rw [← Option.some.inj put]
    exact ⟨full, List.append_ne_nil_of_right_ne_nil _ some_⟩
  · cases put

theorem Full.loop (full : Full out) (looped : recodeLoop table fuel src out = some (out', left))
    (some_ : src ≠ [] ∨ out.dst ≠ []) :
    Full out' ∧ (left = [] → out'.dst ≠ []) := by
  induction fuel generalizing src out with
  | zero =>
    cases src with
    | nil =>
      cases looped
      exact ⟨full, fun _ => some_.resolve_left (fun none_ => none_ rfl)⟩
    | cons ch rest => cases looped
  | succ fuel ih =>
    cases src with
    | nil =>
      cases looped
      exact ⟨full, fun _ => some_.resolve_left (fun none_ => none_ rfl)⟩
    | cons ch rest =>
      have renewed := @Full.renew _ ((ch :: rest).length + ngxHtmlEntityLen) full (Nat.le_add_left _ _)
      have turn (code src' : List UInt8) (code_ : code ≠ [])
          (went : ((out.renew ((ch :: rest).length + ngxHtmlEntityLen)).put code).bind
            (recodeLoop table fuel src') = some (out', left)) :
          Full out' ∧ (left = [] → out'.dst ≠ []) := by
        obtain ⟨middle, put, looped'⟩ := Option.bind_eq_some_iff.mp went
        obtain ⟨full', content⟩ := renewed.put put code_
        exact ih full' looped' (Or.inr content)
      rw [recodeLoop] at looped
      dsimp only at looped
      split at looped
      · exact turn _ _ (List.cons_ne_nil _ _) looped
      · split at looped
        · apply turn _ _ ?_ looped
          split
          · exact List.cons_ne_nil _ _
          · exact entity_some _
        · split at looped
          · cases looped
            exact ⟨renewed, fun none_ => absurd none_ (List.cons_ne_nil _ _)⟩
          · split at looped
            · exact turn _ _ (List.cons_ne_nil _ _) looped
            · exact turn _ _ (entity_some _) looped

theorem written_zeroSize (buf : Buf) : (written buf).ZeroSize ↔ buf.bytes = [] := by
  constructor
  · exact fun zero => zero.1
  · intro none_
    refine ⟨none_, ?_⟩
    rw [Link.special, written]
    simp

theorem recodeChain_full (isChain : recodeChain table ctx buf done size first src = some (after, chain))
    (full : ∀ b ∈ done, b.bytes ≠ []) (some_ : src ≠ [] ∨ first ≠ []) :
    ∀ b ∈ chain, ¬ b.ZeroSize := by
  unfold recodeChain at isChain
  dsimp only at isChain
  generalize sized : (if size < ngxHtmlEntityLen then size + ngxHtmlEntityLen else size) = whole
    at isChain
  have enough : ngxHtmlEntityLen ≤ whole := by
    rw [← sized]
    split <;> omega
  obtain ⟨out, put, rest⟩ := Option.bind_eq_some_iff.mp isChain
  obtain ⟨result, looped, saved⟩ := Option.bind_eq_some_iff.mp rest
  obtain ⟨out', left⟩ := result
  obtain ⟨bytes, _, same⟩ := Option.map_eq_some_iff.mp saved
  have start : Full out ∧ (first ≠ [] → out.dst ≠ []) := by
    have room := enough.trans (getBuffer_size whole ctx.freeBuffers)
    rw [Out.put] at put
    split at put
    · rw [← Option.some.inj put]
      exact ⟨⟨full, room⟩, fun some_ => some_⟩
    · cases put
  obtain ⟨full', ends⟩ := start.1.loop looped (some_.imp id start.2)
  cases same
  intro b member
  rcases List.mem_append.mp member with old | last
  · obtain ⟨old', inside, rfl⟩ := List.mem_map.mp old
    rw [written_zeroSize]
    exact full'.1 old' inside
  · rw [List.mem_singleton.mp last]
    rintro ⟨none_, plain⟩
    have kept : left ≠ [] := fun nothing => ends nothing none_
    have sync : decide (left ≠ [] ∧ out'.dst = []) = true := decide_eq_true ⟨kept, none_⟩
    rw [Link.special] at plain
    dsimp only at plain
    rw [sync] at plain
    simp at plain

theorem recodeFromUtf8Chain_full (isChain : recodeFromUtf8Chain table ctx buf = some (after, chain))
    (some_ : buf.bytes ≠ []) : ∀ b ∈ chain, ¬ b.ZeroSize := by
  have single {link : Link} (sized : ¬ link.ZeroSize) : ∀ b ∈ [link], ¬ b.ZeroSize := by
    intro b member
    rw [List.mem_singleton.mp member]
    exact sized
  unfold recodeFromUtf8Chain at isChain
  dsimp only at isChain
  split at isChain
  · split at isChain
    · cases isChain
      exact single ((written_zeroSize buf).not.mpr some_)
    · rename_i more
      split at isChain
      · rename_i long
        have content : buf.bytes.takeWhile (· < 0x80) ≠ [] := by
          intro none_
          rw [none_] at long
          exact absurd long (by decide)
        split at isChain
        · obtain ⟨bytes, _, same⟩ := Option.map_eq_some_iff.mp isChain
          cases same
          exact single ((written_zeroSize _).not.mpr content)
        · refine recodeChain_full isChain ?_ (Or.inl more)
          intro b member
          rw [List.mem_singleton.mp member]
          exact content
      · exact recodeChain_full isChain (fun b member => absurd member List.not_mem_nil) (Or.inl some_)
  · split at isChain
    · obtain ⟨bytes, _, same⟩ := Option.map_eq_some_iff.mp isChain
      cases same
      exact single (by decide)
    · have taken := (Option.ite_none_left_eq_some.mp isChain).2
      exact recodeChain_full taken (fun b member => absurd member List.not_mem_nil)
        (Or.inr (symbol_some _ _ _))

theorem passBuffer_fits (table : Table) (saved bytes : List UInt8) :
    (passBuffer table saved bytes).map Prod.fst =
      if Fits saved bytes then some (savedBehind table saved bytes) else none := by
  rw [passBuffer]
  by_cases none_ : saved = []
  · have fresh : ¬ (saved ≠ [] ∧ bytes.length ≤ missing saved) := fun both => both.1 none_
    have behind : savedBehind table saved bytes = unfinished table (saved ++ bytes) := if_neg fresh
    have fits : Fits saved bytes := Or.inl none_
    rw [if_pos none_, if_pos fits, behind, none_, List.nil_append]
    rfl
  · have choice : Fits saved bytes ↔ if bytes.length ≤ missing saved then saved.length = 1
        else saved.length ≤ (ngxUtf8Decode (saved ++ bytes)).2 := or_iff_right none_
    rw [if_neg none_]
    by_cases within : bytes.length ≤ missing saved
    · have behind : savedBehind table saved bytes = saved ++ bytes := if_pos ⟨none_, within⟩
      rw [if_pos within] at choice
      rw [if_pos within, behind]
      by_cases one : saved.length = 1
      · rw [if_pos one, if_pos (choice.mpr one)]
        rfl
      · rw [if_neg one, if_neg (choice.not.mpr one)]
        rfl
    · have behind : savedBehind table saved bytes = unfinished table (saved ++ bytes) :=
        if_neg fun both => within both.2
      rw [if_neg within] at choice
      rw [if_neg within, behind]
      by_cases back : (ngxUtf8Decode (saved ++ bytes)).2 < saved.length
      · rw [if_pos back, if_neg (choice.not.mpr (Nat.not_le_of_lt back))]
        rfl
      · rw [if_neg back, if_pos (choice.mpr (Nat.le_of_not_lt back))]
        rfl

theorem held_length (valid : Held saved) : saved.length ≤ ngxUtfLen := by
  rcases valid with none_ | ⟨ch, rest, some_, lead, inside⟩
  · rw [none_]
    exact Nat.zero_le _
  · have bound := (sequenceLength_bounds ch).2
    rw [some_, List.length_cons, ngxUtfLen]
    omega

theorem recodeFromUtf8Chain_saved (valid : Held ctx.saved) (some_ : buf.bytes ≠ []) :
    (recodeFromUtf8Chain table ctx buf).map (fun result => result.1.saved) =
      if Fits ctx.saved buf.bytes then some (savedBehind table ctx.saved buf.bytes) else none := by
  have pass := congrArg (Option.map Prod.fst) (@recodeFromUtf8_pass table buf ctx valid some_)
  rw [← recodeFromUtf8Chain_bufs, Option.map_map, Option.map_map, Option.map_map] at pass
  rw [← passBuffer_fits]
  exact pass

theorem held_savedBehind (valid : Held saved) (fits : Fits saved bytes) :
    Held (savedBehind table saved bytes) := by
  have taken := passBuffer_fits table saved bytes
  rw [if_pos fits] at taken
  obtain ⟨result, passed, same⟩ := Option.map_eq_some_iff.mp taken
  rw [← same]
  exact passBuffer_held valid passed

theorem safeFromUtf8_iff {calls : List (List Nat × Buf)} (valid : Held saved)
    (some_ : ∀ call ∈ calls, call.2.bytes ≠ []) :
    SafeFromUtf8 table saved calls ↔ FitsFromUtf8 table saved calls := by
  induction calls generalizing saved with
  | nil => exact ⟨fun _ => trivial, fun _ => held_length valid⟩
  | cons call calls ih =>
    obtain ⟨free, buf⟩ := call
    have content := some_ (free, buf) List.mem_cons_self
    have later := fun call member => some_ call (List.mem_cons_of_mem _ member)
    have step := @recodeFromUtf8Chain_saved table ⟨saved, free⟩ buf valid content
    dsimp only at step content
    rw [SafeFromUtf8, FitsFromUtf8]
    constructor
    · rintro ⟨_, after, chain, isChain, _, rest⟩
      rw [isChain, Option.map_some] at step
      by_cases fits : Fits saved buf.bytes
      · rw [if_pos fits] at step
        rw [Option.some.inj step] at rest
        exact ⟨fits, (ih (held_savedBehind valid fits) later).mp rest⟩
      · rw [if_neg fits] at step
        cases step
    · rintro ⟨fits, rest⟩
      rw [if_pos fits] at step
      obtain ⟨result, isChain, same⟩ := Option.map_eq_some_iff.mp step
      refine ⟨held_length valid, result.1, result.2, isChain, recodeFromUtf8Chain_full isChain content, ?_⟩
      rw [same]
      exact (ih (held_savedBehind valid fits) later).mpr rest

end FromUtf8

section ToUtf8

variable {table : Nat → UInt8} {length size : Nat} {out out' : Out} {src bytes : List UInt8}
  {free : List Nat} {buf : Buf}

theorem getBuffer_find (size : Nat) (free : List Nat) :
    (ngxHttpCharsetGetBuffer size free).1 = (free.find? (size ≤ ·)).getD size := by
  induction free with
  | nil => rfl
  | cons room rest ih =>
    unfold ngxHttpCharsetGetBuffer
    by_cases fits : size ≤ room
    · rw [if_pos fits, List.find?_cons_of_pos (by simpa using fits)]
      rfl
    · rw [if_neg fits, List.find?_cons_of_neg (by simpa using fits), ← ih]

def roomFor (length : Nat) (code src : List UInt8) (out : Out) : Out :=
  if out.room - out.dst.length < code.length then
    ⟨out.done ++ [⟨out.dst, false⟩], [],
      (ngxHttpCharsetGetBuffer (expected length code.length src.length) out.freeBuffers).1,
      (ngxHttpCharsetGetBuffer (expected length code.length src.length) out.freeBuffers).2⟩
  else out

theorem toLoop_cons (ch : UInt8) :
    toLoop table length (ch :: src) out =
      ((roomFor length (codeOf table ch) src out).put (codeOf table ch)).bind
        (toLoop table length src) := rfl

theorem roomFor_put (inside : out.dst.length ≤ out.room) (code src : List UInt8) :
    ∃ after, (roomFor length code src out).put code = some after ∧
      after.dst.length ≤ after.room ∧ (∀ b ∈ out.done, b ∈ after.done) ∧
      (out.room - out.dst.length < code.length →
        after.done = out.done ++ [⟨out.dst, false⟩] ∧ after.dst = code) ∧
      (code.length ≤ out.room - out.dst.length →
        after.done = out.done ∧ after.dst = out.dst ++ code ∧ after.room = out.room) := by
  have asked := getBuffer_size (expected length code.length src.length) out.freeBuffers
  have least : code.length ≤ expected length code.length src.length := by
    rw [expected]
    omega
  rw [roomFor]
  by_cases short : out.room - out.dst.length < code.length
  · rw [if_pos short, Out.put, if_pos (by rw [List.length_nil]; dsimp only; omega)]
    refine ⟨_, rfl, ?_, ?_, fun _ => ⟨rfl, rfl⟩, fun long => absurd short (Nat.not_lt_of_le long)⟩
    · rw [List.nil_append]
      exact least.trans asked
    · exact fun b member => List.mem_append_left _ member
  · rw [if_neg short, Out.put, if_pos (by omega)]
    refine ⟨_, rfl, ?_, fun b member => member, fun long => absurd long short, fun _ => ⟨rfl, rfl, rfl⟩⟩
    dsimp only
    rw [List.length_append]
    omega

theorem toLoop_some (inside : out.dst.length ≤ out.room) :
    ∃ after, toLoop table length src out = some after ∧ ∀ b ∈ out.done, b ∈ after.done := by
  induction src generalizing out with
  | nil => exact ⟨out, rfl, fun b member => member⟩
  | cons ch src ih =>
    obtain ⟨middle, put, inside', kept, _, _⟩ := @roomFor_put length out inside (codeOf table ch) src
    obtain ⟨after, looped, kept'⟩ := ih inside'
    refine ⟨after, ?_, fun b member => kept' b (kept b member)⟩
    rw [toLoop_cons, put, Option.bind_some, looped]

def Content (out : Out) : Prop := (∀ b ∈ out.done, b.bytes ≠ []) ∧ out.dst ≠ []

theorem toLoop_content (inside : out.dst.length ≤ out.room) (content : Content out)
    (looped : toLoop table length src out = some out') : Content out' := by
  induction src generalizing out with
  | nil =>
    cases looped
    exact content
  | cons ch src ih =>
    obtain ⟨middle, put, inside', _, renewed, same⟩ :=
      @roomFor_put length out inside (codeOf table ch) src
    rw [toLoop_cons, put, Option.bind_some] at looped
    refine ih inside' ?_ looped
    by_cases short : out.room - out.dst.length < (codeOf table ch).length
    · obtain ⟨done, dst⟩ := renewed short
      refine ⟨?_, ?_⟩
      · rw [done]
        intro b member
        rcases List.mem_append.mp member with old | new
        · exact content.1 b old
        · rw [List.mem_singleton.mp new]
          exact content.2
      · rw [dst]
        exact List.ne_nil_of_length_pos (by omega)
    · obtain ⟨done, dst, _⟩ := same (by omega)
      rw [Content, done, dst]
      exact ⟨content.1, List.append_ne_nil_of_left_ne_nil content.2 _⟩

/-- From an empty buffer on: the first code that is not empty must fit. -/
theorem toLoop_first (full : ∀ b ∈ out.done, b.bytes ≠ []) (fresh : out.dst = [])
    (looped : toLoop table length src out = some out') :
    Content out' ↔
      ∃ code, (src.map (codeOf table)).find? (· ≠ []) = some code ∧ code.length ≤ out.room := by
  have inside : out.dst.length ≤ out.room := by
    rw [fresh]
    exact Nat.zero_le _
  induction src generalizing out with
  | nil =>
    cases looped
    constructor
    · exact fun content => absurd fresh content.2
    · rintro ⟨code, found, _⟩
      cases found
  | cons ch src ih =>
    obtain ⟨middle, put, inside', _, renewed, same⟩ :=
      @roomFor_put length out inside (codeOf table ch) src
    rw [toLoop_cons, put, Option.bind_some] at looped
    rw [fresh, List.length_nil, Nat.sub_zero, List.nil_append] at same
    rw [fresh, List.length_nil, Nat.sub_zero] at renewed
    by_cases empty : codeOf table ch = []
    · obtain ⟨done, dst, room⟩ := same (by rw [empty]; exact Nat.zero_le _)
      rw [empty] at dst
      rw [List.map_cons, List.find?_cons_of_neg (by simpa using empty), ← room]
      exact ih (by rw [done]; exact full) dst looped inside'
    · rw [List.map_cons, List.find?_cons_of_pos (by simpa using empty)]
      by_cases short : out.room < (codeOf table ch).length
      · obtain ⟨done, dst⟩ := renewed short
        obtain ⟨after, looped', kept⟩ := @toLoop_some table length middle src inside'
        rw [looped] at looped'
        constructor
        · intro content
          have member := kept ⟨out.dst, false⟩ (by rw [done, fresh]; simp)
          rw [← Option.some.inj looped'] at member
          exact absurd fresh (content.1 _ member)
        · rintro ⟨code, found, fits⟩
          rw [← Option.some.inj found] at fits
          omega
      · obtain ⟨done, dst, room⟩ := same (by omega)
        have content : Content middle := by
          rw [Content, done, dst]
          exact ⟨full, empty⟩
        exact ⟨fun _ => ⟨_, rfl, by omega⟩, fun _ => toLoop_content inside' content looped⟩

theorem written_content (out : Out) (last : Bool) :
    (∀ b ∈ (out.done ++ [(⟨out.dst, last⟩ : Buf)]).map written, ¬ b.ZeroSize) ↔ Content out := by
  constructor
  · intro all
    constructor
    · intro b member
      have sized := all (written b) (List.mem_map_of_mem (List.mem_append_left _ member))
      rwa [written_zeroSize] at sized
    · have sized := all (written ⟨out.dst, last⟩) (List.mem_map_of_mem (by simp))
      rwa [written_zeroSize] at sized
  · intro content b member
    obtain ⟨b', inside, rfl⟩ := List.mem_map.mp member
    rw [written_zeroSize]
    rcases List.mem_append.mp inside with old | new
    · exact content.1 b' old
    · rw [List.mem_singleton.mp new]
      exact content.2

theorem recodeToUtf8_iff (some_ : buf.bytes ≠ []) :
    (∃ after chain, ngxHttpCharsetRecodeToUtf8 table length free buf = some (after, chain) ∧
      ∀ b ∈ chain, ¬ b.ZeroSize) ↔ RoomFor table length free buf.bytes := by
  rw [ngxHttpCharsetRecodeToUtf8, RoomFor]
  dsimp only
  by_cases plain : buf.bytes.drop (untouched table buf.bytes).length = []
  · rw [if_pos plain]
    refine ⟨fun _ => Or.inl plain, fun _ => ⟨free, [written buf], rfl, ?_⟩⟩
    intro b member
    rw [List.mem_singleton.mp member, written_zeroSize]
    exact some_
  · rw [if_neg plain]
    generalize started : (⟨if 512 < (untouched table buf.bytes).length then
      [⟨untouched table buf.bytes, false⟩] else [], [],
      (ngxHttpCharsetGetBuffer (recodedFrom table length buf.bytes).2 free).1,
      (ngxHttpCharsetGetBuffer (recodedFrom table length buf.bytes).2 free).2⟩ : Out) = start
    have fresh : start.dst = [] := by rw [← started]
    have room : start.room = (free.find? ((recodedFrom table length buf.bytes).2 ≤ ·)).getD
        (recodedFrom table length buf.bytes).2 := by
      rw [← getBuffer_find, ← started]
    have full : ∀ b ∈ start.done, b.bytes ≠ [] := by
      rw [← started]
      intro b member
      dsimp only at member
      split at member
      · rename_i long
        rw [List.mem_singleton.mp member]
        exact List.ne_nil_of_length_pos (by dsimp only; omega)
      · cases member
    obtain ⟨after, looped, _⟩ := @toLoop_some table length start
      (recodedFrom table length buf.bytes).1 (by rw [fresh]; exact Nat.zero_le _)
    have first := toLoop_first full fresh looped
    rw [looped, Option.map_some, ← room, ← first, ← written_content after buf.lastBuf]
    constructor
    · rintro ⟨free', chain, same, sized⟩
      cases same
      exact Or.inr sized
    · intro sized
      exact ⟨_, _, rfl, sized.resolve_left plain⟩

end ToUtf8

namespace Sample

/-- The rows of `charset_map koi8-r utf-8 { D0 D0BF; }`. -/
def row (i : Nat) : UInt8 :=
  if i % 4 = 0 then if i = 0xd0 * 4 then 2 else 1
  else if i = 0xd0 * 4 + 1 then 0xd0
  else if i = 0xd0 * 4 + 2 then 0xbf
  else UInt8.ofNat (i / 4)

end Sample

end NgxFormal.Http.Charset
