import NgxFormal.Basic
import NgxFormal.Lib.Search

/-! `ngx_http_sub_body_filter` and `ngx_http_sub_parse`. Buffers are byte lists, pointers into
the current buffer are offsets, and the output is the chain given to the next filter. -/

namespace NgxFormal.Http.SubFilter

inductive SubState where
  | start
  | matching
  deriving DecidableEq, Repr

/-- A buffer of the output chain: bytes, or `ctx->sub`. -/
inductive OutBuf where
  | data (bytes : List UInt8)
  | sub
  deriving DecidableEq, Repr

/-- `ngx_http_sub_ctx_t`; `copyStart` and `copyEnd` may be `NULL`. -/
structure SubCtx where
  state : SubState
  looked : List UInt8
  saved : List UInt8
  pos : Nat
  copyStart : Option Nat
  copyEnd : Option Nat
  once : Bool
  out : List OutBuf
  deriving DecidableEq, Repr

/-- The context that the header filter allocates with `ngx_pcalloc`. -/
def SubCtx.init : SubCtx := ⟨.start, [], [], 0, none, none, false, []⟩

/-- `ctx->match.data[i]`; the configuration parser ends every word with a NUL. -/
def matchAt (pattern : List UInt8) (i : Nat) : UInt8 := pattern.getD i 0

inductive Rc where
  | ok
  | again
  deriving DecidableEq, Repr

/-- `ctx->copy_start` once the parser has set `ctx->copy_end`. -/
def copyFrom (ctx : SubCtx) (copyEnd : Option Nat) : Option Nat :=
  if ctx.copyStart = none ∧ copyEnd ≠ none then some 0 else ctx.copyStart

/-- The loop over `p`. The list is what is left of the buffer from `p` on; the tight loop of
the start state is the loop itself, up to its own way out at `last`. A match string of one
byte is never completed: its length is only compared in the match state. -/
def parseLoop (pattern : List UInt8) (ctx : SubCtx) :
    List UInt8 → Nat → SubState → List UInt8 → Option Nat → Rc × SubCtx
  | [], p, state, looked, copyEnd =>
    let copyEnd := if state = .start then some p else copyEnd
    (.again, { ctx with
      state := state, pos := p, looked := looked, copyEnd := copyEnd,
      copyStart := copyFrom ctx copyEnd })
  | byte :: rest, p, .start, looked, copyEnd =>
    if ngxTolower byte = matchAt pattern 0 then
      parseLoop pattern ctx rest (p + 1) .matching [byte] (some p)
    else if rest = [] then
      (.again, { ctx with
        state := .start, pos := p + 1, looked := looked, copyEnd := some (p + 1),
        copyStart := if ctx.copyStart = none then some 0 else ctx.copyStart })
    else parseLoop pattern ctx rest (p + 1) .start looked copyEnd
  | byte :: rest, p, .matching, looked, copyEnd =>
    if ngxTolower byte = matchAt pattern looked.length then
      if looked.length + 1 = pattern.length then
        (.ok, { ctx with
          saved := if p - ctx.pos < looked.length + 1 then [] else ctx.saved
          state := .start, pos := p + 1, looked := [], copyEnd := copyEnd,
          copyStart := copyFrom ctx copyEnd })
      else parseLoop pattern ctx rest (p + 1) .matching (looked ++ [byte]) copyEnd
    else if ngxTolower byte = matchAt pattern 0 then
      parseLoop pattern ctx rest (p + 1) .matching [byte] (some p)
    else parseLoop pattern ctx rest (p + 1) .start [] (some p)

def ngxHttpSubParse (pattern buf : List UInt8) (ctx : SubCtx) : Rc × SubCtx :=
  if ctx.once then
    (.again, { ctx with
      copyStart := some ctx.pos, copyEnd := some buf.length, pos := buf.length, looked := [] })
  else parseLoop pattern ctx (buf.drop ctx.pos) ctx.pos ctx.state ctx.looked ctx.copyEnd

/-- The bytes between `copy_start` and `copy_end`, behind those saved from earlier buffers. -/
def copyOut (buf : List UInt8) (ctx : SubCtx) : SubCtx :=
  if ctx.copyStart = ctx.copyEnd then ctx
  else
    let start := ctx.copyStart.getD 0
    let stop := ctx.copyEnd.getD 0
    let kept := if ctx.saved = [] then ctx.out else ctx.out ++ [.data ctx.saved]
    { ctx with saved := [], out := kept ++ [.data ((buf.drop start).take (stop - start))] }

def resetCopy (ctx : SubCtx) : SubCtx :=
  if ctx.state = .start then { ctx with copyStart := some ctx.pos, copyEnd := some ctx.pos }
  else { ctx with copyStart := none, copyEnd := none }

/-- `while (ctx->pos < ctx->buf->last)`; every turn takes a byte, so the length of the buffer
is fuel enough. -/
def bufferLoop (pattern buf : List UInt8) (once : Bool) : Nat → SubCtx → SubCtx
  | 0, ctx => ctx
  | fuel + 1, ctx =>
    if ctx.pos < buf.length then
      let (rc, ctx) := ngxHttpSubParse pattern buf ctx
      let ctx := resetCopy (copyOut buf ctx)
      match rc with
      | .again => bufferLoop pattern buf once fuel ctx
      | .ok =>
        bufferLoop pattern buf once fuel { ctx with out := ctx.out ++ [.sub], once := once }
    else ctx

/-- One turn of `while (ctx->in || ctx->buf)`. -/
def filterBuffer (pattern : List UInt8) (once : Bool) (ctx : SubCtx) (buf : List UInt8) :
    SubCtx :=
  let ctx := { ctx with pos := 0 }
  let ctx :=
    if ctx.state = .start then { ctx with copyStart := some 0, copyEnd := some 0 } else ctx
  let ctx := bufferLoop pattern buf once buf.length ctx
  { ctx with saved := ctx.looked }

/-- One call with the chain `bufs`; once a first match was replaced under
`sub_filter_once`, later chains are passed on as they are. -/
def ngxHttpSubBodyFilter (pattern : List UInt8) (once : Bool) (ctx : SubCtx)
    (bufs : List (List UInt8)) : SubCtx :=
  if ctx.once then { ctx with out := ctx.out ++ bufs.map .data }
  else bufs.foldl (filterBuffer pattern once) ctx

def respond (pattern : List UInt8) (once : Bool) (calls : List (List (List UInt8))) : SubCtx :=
  calls.foldl (ngxHttpSubBodyFilter pattern once) SubCtx.init

/-- The bytes of the chain, with `sub` in the place of the replacement buffers. -/
def outBytes (sub : List UInt8) : List OutBuf → List UInt8
  | [] => []
  | .data bytes :: rest => bytes ++ outBytes sub rest
  | .sub :: rest => sub ++ outBytes sub rest

end NgxFormal.Http.SubFilter

/-! What one buffer adds to the output: the tokens of the one-pass scan, less an attempt that
was carried over and is dropped. -/

namespace NgxFormal.Http.SubFilter

open Lib Lib.Search

def stateOf (held : List UInt8) : SubState := if held = [] then .start else .matching

/-- `ctx->copy_end` behind the letters that the parser kept. -/
def copyStop (p : Nat) (held kept : List UInt8) (copyEnd : Option Nat) : Option Nat :=
  if kept = [] ∧ held ≠ [] then copyEnd else some (p + kept.length - held.length)

/-- The context that the parser leaves behind `kept`, the scan's own result. -/
def parsed (pattern : List UInt8) (ctx : SubCtx) (p : Nat) (held rest : List UInt8)
    (copyEnd : Option Nat) : Rc × SubCtx :=
  match toHit ngxTolower pattern held rest with
  | (kept, none, left) =>
    (.again, { ctx with
      state := stateOf left, pos := p + rest.length, looked := left,
      copyEnd := copyStop p held kept copyEnd,
      copyStart := copyFrom ctx (copyStop p held kept copyEnd) })
  | (kept, some tail, _) =>
    (.ok, { ctx with
      saved := if p + rest.length - tail.length - 1 - ctx.pos < pattern.length then []
        else ctx.saved
      state := .start, pos := p + rest.length - tail.length, looked := [],
      copyEnd := copyStop p held kept copyEnd,
      copyStart := copyFrom ctx (copyStop p held kept copyEnd) })

section Parse

variable {pattern : List UInt8}

theorem matchAt_iff {held : List UInt8} (byte : UInt8)
    (agrees : held.map ngxTolower <+: pattern) (short : held.length < pattern.length) :
    ngxTolower byte = matchAt pattern held.length ↔
      (held ++ [byte]).map ngxTolower <+: pattern := by
  obtain ⟨tail, whole⟩ := agrees
  have length : held.length = (held.map ngxTolower).length := (List.length_map _).symm
  cases tail with
  | nil =>
    rw [List.append_nil] at whole
    rw [← whole, List.length_map] at short
    exact absurd short (Nat.lt_irrefl _)
  | cons next tail =>
    have at_next : matchAt pattern held.length = next := by
      rw [matchAt, ← whole, length, List.getD_eq_getElem?_getD, List.getElem?_append_right
        (Nat.le_refl _), Nat.sub_self]
      rfl
    rw [at_next, ← whole, List.map_append, List.prefix_append_right_inj, List.map_singleton,
      List.cons_prefix_cons]
    exact ⟨fun same => ⟨same, List.nil_prefix⟩, fun both => both.1⟩

theorem copyStop_hold (p : Nat) (held kept : List UInt8) (byte : UInt8)
    (copyEnd : Option Nat) (some_held : held ≠ []) :
    copyStop (p + 1) (held ++ [byte]) kept copyEnd = copyStop p held kept copyEnd := by
  simp only [copyStop, List.length_append, List.length_singleton]
  have : p + 1 + kept.length - (held.length + 1) = p + kept.length - held.length := by omega
  simp [some_held, this]

theorem copyStop_restart (p : Nat) (held kept : List UInt8) (byte : UInt8)
    (copyEnd : Option Nat) :
    copyStop (p + 1) [byte] kept (some p) = copyStop p held (held ++ kept) copyEnd := by
  have length : p + (held.length + kept.length) - held.length = p + kept.length := by omega
  have shift : p + 1 + kept.length - 1 = p + kept.length := by omega
  simp only [copyStop, List.length_append, List.length_singleton, length, shift]
  by_cases nothing : kept = []
  · simp [nothing]
  · simp [nothing]

theorem copyStop_plain (p : Nat) (held kept : List UInt8) (byte : UInt8)
    (first second : Option Nat) :
    copyStop (p + 1) [] kept first = copyStop p held (held ++ byte :: kept) second := by
  simp only [copyStop, List.length_append, List.length_cons, List.length_nil]
  have : p + (held.length + (kept.length + 1)) - held.length = p + 1 + kept.length - 0 := by
    omega
  simp [this]

/-- One lemma for all paths through the parser loop. -/
theorem parseLoop_eq (ctx : SubCtx) (rest held : List UInt8) (p : Nat) (copyEnd : Option Nat)
    (agrees : held.map ngxTolower <+: pattern) (short : held.length < pattern.length)
    (long : ∀ byte ∈ rest, ngxTolower byte = matchAt pattern 0 → 2 ≤ pattern.length) :
    parseLoop pattern ctx rest p (stateOf held) held copyEnd =
      parsed pattern ctx p held rest copyEnd := by
  have some_pattern : 0 < pattern.length := by omega
  have first_iff (byte : UInt8) :
      ngxTolower byte = matchAt pattern 0 ↔ [ngxTolower byte] <+: pattern :=
    @matchAt_iff _ [] byte List.nil_prefix some_pattern
  induction rest generalizing held p copyEnd with
  | nil =>
    by_cases empty : held = []
    · simp [parseLoop, parsed, toHit, stateOf, copyStop, empty]
    · simp [parseLoop, parsed, toHit, stateOf, copyStop, empty]
  | cons byte rest ih =>
    have later : ∀ byte ∈ rest, ngxTolower byte = matchAt pattern 0 → 2 ≤ pattern.length :=
      fun other member => long other (List.mem_cons_of_mem byte member)
    have starts_short (starts : ngxTolower byte = matchAt pattern 0) :
        [byte].length < pattern.length := long byte List.mem_cons_self starts
    have length : p + (byte :: rest).length = p + 1 + rest.length := by
      rw [List.length_cons]
      omega
    -- what the parser returns after a restart at this byte, or behind it
    have restart (starts : ngxTolower byte = matchAt pattern 0)
        (mismatch : ¬ (held ++ [byte]).map ngxTolower <+: pattern) :
        parsed pattern ctx (p + 1) [byte] rest (some p) =
          parsed pattern ctx p held (byte :: rest) copyEnd := by
      rw [parsed, parsed, toHit, if_neg mismatch, if_pos ((first_iff byte).mp starts), length]
      simp only [copyStop_restart p held _ byte copyEnd]
      split <;> simp_all
    have plain (not_starts : ¬ ngxTolower byte = matchAt pattern 0)
        (mismatch : ¬ (held ++ [byte]).map ngxTolower <+: pattern) (any : Option Nat) :
        parsed pattern ctx (p + 1) [] rest any =
          parsed pattern ctx p held (byte :: rest) copyEnd := by
      rw [parsed, parsed, toHit, if_neg mismatch, if_neg (fun starts =>
        not_starts ((first_iff byte).mpr starts)), length]
      simp only [copyStop_plain p held _ byte any copyEnd]
      split <;> simp_all
    by_cases empty : held = []
    · subst empty
      rw [stateOf, if_pos rfl, parseLoop]
      by_cases starts : ngxTolower byte = matchAt pattern 0
      · have goes : ([] ++ [byte]).map ngxTolower <+: pattern := (first_iff byte).mp starts
        have unfinished : ([] : List UInt8).length + 1 ≠ pattern.length := by
          have := long byte List.mem_cons_self starts
          rw [List.length_nil]
          omega
        rw [if_pos starts]
        have tail := ih [byte] (p + 1) (some p) goes (starts_short starts) later
        rw [stateOf, if_neg (List.cons_ne_nil _ _)] at tail
        rw [tail, parsed, parsed, toHit, if_pos goes, if_neg unfinished, length,
          List.nil_append]
        have stop (kept : List UInt8) :
            copyStop (p + 1) [byte] kept (some p) = copyStop p [] kept copyEnd :=
          copyStop_restart p [] kept byte copyEnd
        simp only [stop]
      · have mismatch : ¬ ([] ++ [byte]).map ngxTolower <+: pattern :=
          fun goes => starts ((first_iff byte).mpr goes)
        rw [if_neg starts]
        by_cases last : rest = []
        · subst last
          rw [if_pos rfl, ← plain starts mismatch none]
          simp [parsed, toHit, stateOf, copyStop, copyFrom]
        · rw [if_neg last, ← plain starts mismatch copyEnd]
          exact ih [] (p + 1) copyEnd List.nil_prefix some_pattern later
    · rw [stateOf, if_neg empty, parseLoop]
      by_cases goes : (held ++ [byte]).map ngxTolower <+: pattern
      · rw [if_pos ((matchAt_iff byte agrees short).mpr goes)]
        by_cases full : held.length + 1 = pattern.length
        · rw [if_pos full, parsed, toHit, if_pos goes, if_pos full]
          have position : p + (byte :: rest).length - rest.length = p + 1 := by
            rw [length]
            omega
          simp only [position, Nat.add_sub_cancel, full, copyStop, ne_eq, empty,
            not_false_eq_true, and_self, if_true]
        · rw [if_neg full]
          have tail := ih (held ++ [byte]) (p + 1) copyEnd goes
            (by rw [List.length_append, List.length_singleton]; omega) later
          rw [stateOf, if_neg (by simp)] at tail
          rw [tail, parsed, parsed, toHit, if_pos goes, if_neg full, length]
          simp only [copyStop_hold p held _ byte copyEnd empty]
      · rw [if_neg (fun same => goes ((matchAt_iff byte agrees short).mp same))]
        by_cases starts : ngxTolower byte = matchAt pattern 0
        · rw [if_pos starts, ← restart starts goes]
          have tail := ih [byte] (p + 1) (some p) ((first_iff byte).mp starts)
            (starts_short starts) later
          rwa [stateOf, if_neg (List.cons_ne_nil _ _)] at tail
        · rw [if_neg starts, ← plain starts goes (some p)]
          exact ih [] (p + 1) (some p) List.nil_prefix some_pattern later

end Parse

def outTokens : List OutBuf → List (Token UInt8)
  | [] => []
  | .data bytes :: rest => bytes.map .keep ++ outTokens rest
  | .sub :: rest => .hit :: outTokens rest

theorem outBytes_eq (sub : List UInt8) (out : List OutBuf) :
    outBytes sub out = render sub (outTokens out) := by
  induction out with
  | nil => rfl
  | cons buf out ih =>
    cases buf with
    | sub => rw [outBytes, outTokens, render, ih]
    | data bytes =>
      rw [outBytes, outTokens, ih]
      induction bytes with
      | nil => rfl
      | cons byte bytes more => rw [List.cons_append, List.map_cons, List.cons_append, render, more]

theorem outTokens_append (first second : List OutBuf) :
    outTokens (first ++ second) = outTokens first ++ outTokens second := by
  induction first with
  | nil => rfl
  | cons buf first ih => cases buf <;> simp [outTokens, ih]

/-- The carried attempt is broken by the first byte of the buffer, and the attempt that this
byte starts is completed in the buffer or lasts to its end. -/
def Dropped (pattern held buf : List UInt8) : Prop :=
  held ≠ [] ∧ (toHit ngxTolower pattern held buf).1.length = held.length

instance (pattern held buf : List UInt8) : Decidable (Dropped pattern held buf) :=
  inferInstanceAs (Decidable (_ ∧ _))

/-- The tokens that a buffer adds to the output. -/
def bufferTokens (pattern held buf : List UInt8) : List (Token UInt8) :=
  if Dropped pattern held buf then (scan ngxTolower pattern held buf).1.drop held.length
  else (scan ngxTolower pattern held buf).1

structure Carried (ctx : SubCtx) (held : List UInt8) : Prop where
  looked : ctx.looked = held
  saved : ctx.saved = held
  state : ctx.state = stateOf held
  copyStart : held ≠ [] → ctx.copyStart = none
  copyEnd : held ≠ [] → ctx.copyEnd = none
  once : ctx.once = false

/-- The context in front of a turn of the buffer loop; an attempt is only carried into the
first one. -/
structure Ready (ctx : SubCtx) (held : List UInt8) : Prop where
  looked : ctx.looked = held
  saved : ctx.saved = held
  state : ctx.state = stateOf held
  once : ctx.once = false
  fresh : held = [] → ctx.copyStart = some ctx.pos ∧ ctx.copyEnd = some ctx.pos
  carried : held ≠ [] → ctx.copyStart = none ∧ ctx.copyEnd = none ∧ ctx.pos = 0

/-- The context behind the last byte of a buffer, before the attempt is saved. -/
structure Finished (ctx : SubCtx) (held : List UInt8) : Prop where
  looked : ctx.looked = held
  state : ctx.state = stateOf held
  copyStart : held ≠ [] → ctx.copyStart = none
  copyEnd : held ≠ [] → ctx.copyEnd = none
  once : ctx.once = false

/-- What is copied out of the kept letters. -/
def released (held kept : List UInt8) : List UInt8 :=
  if held ≠ [] ∧ kept.length = held.length then [] else kept

theorem bufferTokens_eq (pattern held buf : List UInt8) :
    bufferTokens pattern held buf =
      match toHit ngxTolower pattern held buf with
      | (kept, none, _) => (released held kept).map .keep
      | (kept, some tail, _) =>
        (released held kept).map .keep ++ .hit :: (scan ngxTolower pattern [] tail).1 := by
  rcases parts : toHit ngxTolower pattern held buf with ⟨kept, found, left⟩
  have iff : Dropped pattern held buf ↔ held ≠ [] ∧ kept.length = held.length := by
    rw [Dropped, parts]
  by_cases dropped : Dropped pattern held buf
  · have same := (iff.mp dropped).2
    rw [bufferTokens, if_pos dropped, scan_toHit, parts]
    cases found with
    | none =>
      simp only [released, if_pos (iff.mp dropped)]
      rw [← same, ← List.length_map (f := Token.keep), List.drop_length, List.map_nil]
    | some tail =>
      simp only [released, if_pos (iff.mp dropped)]
      rw [← same, ← List.length_map (f := Token.keep), List.drop_left, List.map_nil,
        List.nil_append]
  · rw [bufferTokens, if_neg dropped, scan_toHit, parts]
    cases found with
    | none => simp only [released, if_neg (fun both => dropped (iff.mpr both))]
    | some tail => simp only [released, if_neg (fun both => dropped (iff.mpr both))]

section Buffer

variable {pattern buf : List UInt8} {ctx : SubCtx}

/-- One turn of the buffer loop behind the parser. -/
def turn (pattern buf : List UInt8) (ctx : SubCtx) : SubCtx :=
  resetCopy (copyOut buf (ngxHttpSubParse pattern buf ctx).2)

theorem copy_range {held kept : List UInt8} (ready : Ready ctx held)
    (front : kept = [] ∨ ∃ more, kept = held ++ more ∧ more <+: buf.drop ctx.pos) :
    let stop := copyStop ctx.pos held kept ctx.copyEnd
    (copyFrom ctx stop = stop ∧ released held kept = []) ∨
      ∃ more, more ≠ [] ∧ released held kept = held ++ more ∧ more <+: buf.drop ctx.pos ∧
        copyFrom ctx stop = some ctx.pos ∧ stop = some (ctx.pos + more.length) := by
  intro stop
  by_cases empty : held = []
  · subst empty
    obtain ⟨copyStart, copyEnd⟩ := ready.fresh rfl
    have from_pos : copyFrom ctx stop = some ctx.pos := by
      rw [copyFrom, copyStart]
      simp
    have stops : stop = some (ctx.pos + kept.length) := by
      simp [stop, copyStop]
    have keeps : released [] kept = kept := by simp [released]
    by_cases nothing : kept = []
    · left
      rw [from_pos, stops, keeps, nothing]
      exact ⟨rfl, rfl⟩
    · right
      rcases front with none | ⟨more, whole, prefixed⟩
      · exact absurd none nothing
      · rw [List.nil_append] at whole
        exact ⟨kept, nothing, keeps, by rw [whole]; exact prefixed, from_pos, stops⟩
  · obtain ⟨copyStart, copyEnd, position⟩ := ready.carried empty
    rcases front with nothing | ⟨more, rfl, prefixed⟩
    · left
      have stays : stop = none := by
        rw [← copyEnd]
        exact if_pos ⟨nothing, empty⟩
      rw [stays, copyFrom, copyStart, nothing]
      simp [released]
    · have stops : stop = some more.length := by
        have some_kept : ¬ (held ++ more = [] ∧ held ≠ []) := by simp [empty]
        have length : ctx.pos + (held ++ more).length - held.length = more.length := by
          rw [position, List.length_append]
          omega
        simp only [stop, copyStop, if_neg some_kept, length]
      have from_pos : copyFrom ctx stop = some ctx.pos := by
        rw [copyFrom, copyStart, stops, position]
        simp
      by_cases dropped : more = []
      · left
        rw [from_pos, stops, position, dropped]
        simp [released, empty]
      · right
        refine ⟨more, dropped, ?_, prefixed, from_pos, ?_⟩
        · simp [released, dropped]
        · rw [stops, position, Nat.zero_add]

theorem copyOut_kept {held kept : List UInt8} {after : SubCtx} (ready : Ready ctx held)
    (out : after.out = ctx.out) (saved : released held kept ≠ [] → after.saved = held)
    (stop : after.copyEnd = copyStop ctx.pos held kept ctx.copyEnd)
    (start : after.copyStart = copyFrom ctx (copyStop ctx.pos held kept ctx.copyEnd))
    (front : kept = [] ∨ ∃ more, kept = held ++ more ∧ more <+: buf.drop ctx.pos) :
    outTokens (copyOut buf after).out =
        outTokens ctx.out ++ (released held kept).map .keep ∧
      (released held kept ≠ [] → (copyOut buf after).saved = []) ∧
      (released held kept = [] → (copyOut buf after).saved = after.saved) := by
  rcases copy_range ready front with ⟨same, nothing⟩ | ⟨more, some_more, keeps, prefixed, low, high⟩
  · rw [copyOut, if_pos (by rw [start, stop, same]), nothing, out]
    simp
  · have differ : after.copyStart ≠ after.copyEnd := by
      rw [start, stop, low, high]
      have := List.length_pos_iff.mpr some_more
      simp only [ne_eq, Option.some.injEq]
      omega
    have some_released : released held kept ≠ [] := by
      rw [keeps]
      simp [some_more]
    have taken : (buf.drop ctx.pos).take (ctx.pos + more.length - ctx.pos) = more := by
      rw [Nat.add_sub_cancel_left]
      exact (List.prefix_iff_eq_take.mp prefixed).symm
    rw [copyOut, if_neg differ]
    refine ⟨?_, fun _ => rfl, fun nothing => absurd nothing some_released⟩
    rw [start, stop, low, high, saved some_released, out]
    simp only [Option.getD_some, taken, keeps]
    by_cases empty : held = []
    · simp [empty, outTokens_append, outTokens]
    · simp [empty, outTokens_append, outTokens]

@[simp] theorem copyOut_state (buf : List UInt8) (ctx : SubCtx) :
    (copyOut buf ctx).state = ctx.state := by
  rw [copyOut]
  split <;> rfl

@[simp] theorem copyOut_looked (buf : List UInt8) (ctx : SubCtx) :
    (copyOut buf ctx).looked = ctx.looked := by
  rw [copyOut]
  split <;> rfl

@[simp] theorem copyOut_pos (buf : List UInt8) (ctx : SubCtx) :
    (copyOut buf ctx).pos = ctx.pos := by
  rw [copyOut]
  split <;> rfl

@[simp] theorem copyOut_once (buf : List UInt8) (ctx : SubCtx) :
    (copyOut buf ctx).once = ctx.once := by
  rw [copyOut]
  split <;> rfl

@[simp] theorem resetCopy_state (ctx : SubCtx) : (resetCopy ctx).state = ctx.state := by
  rw [resetCopy]
  split <;> rfl

@[simp] theorem resetCopy_looked (ctx : SubCtx) : (resetCopy ctx).looked = ctx.looked := by
  rw [resetCopy]
  split <;> rfl

@[simp] theorem resetCopy_pos (ctx : SubCtx) : (resetCopy ctx).pos = ctx.pos := by
  rw [resetCopy]
  split <;> rfl

@[simp] theorem resetCopy_once (ctx : SubCtx) : (resetCopy ctx).once = ctx.once := by
  rw [resetCopy]
  split <;> rfl

@[simp] theorem resetCopy_saved (ctx : SubCtx) : (resetCopy ctx).saved = ctx.saved := by
  rw [resetCopy]
  split <;> rfl

@[simp] theorem resetCopy_out (ctx : SubCtx) : (resetCopy ctx).out = ctx.out := by
  rw [resetCopy]
  split <;> rfl

theorem resetCopy_start (state : ctx.state = .start) :
    (resetCopy ctx).copyStart = some ctx.pos ∧ (resetCopy ctx).copyEnd = some ctx.pos := by
  rw [resetCopy, if_pos state]
  exact ⟨rfl, rfl⟩

theorem resetCopy_matching (state : ctx.state ≠ .start) :
    (resetCopy ctx).copyStart = none ∧ (resetCopy ctx).copyEnd = none := by
  rw [resetCopy, if_neg state]
  exact ⟨rfl, rfl⟩

theorem stateOf_ne_start {held : List UInt8} (some_held : held ≠ []) :
    stateOf held ≠ .start := by
  rw [stateOf, if_neg some_held]
  exact SubState.noConfusion

theorem parse_eq {held : List UInt8} (ready : Ready ctx held)
    (agrees : held.map ngxTolower <+: pattern) (short : held.length < pattern.length)
    (long : ∀ byte ∈ buf, ngxTolower byte = matchAt pattern 0 → 2 ≤ pattern.length) :
    ngxHttpSubParse pattern buf ctx =
      parsed pattern ctx ctx.pos held (buf.drop ctx.pos) ctx.copyEnd := by
  rw [ngxHttpSubParse, if_neg (by rw [ready.once]; exact Bool.false_ne_true), ready.state,
    ready.looked]
  apply parseLoop_eq ctx _ held ctx.pos ctx.copyEnd agrees short
  exact fun byte member => long byte (List.mem_of_mem_drop member)

theorem turn_again {held kept left : List UInt8} (ready : Ready ctx held)
    (inside : ctx.pos ≤ buf.length) (agrees : held.map ngxTolower <+: pattern)
    (short : held.length < pattern.length)
    (long : ∀ byte ∈ buf, ngxTolower byte = matchAt pattern 0 → 2 ≤ pattern.length)
    (parts : toHit ngxTolower pattern held (buf.drop ctx.pos) = (kept, none, left)) :
    (ngxHttpSubParse pattern buf ctx).1 = .again ∧
      Finished (turn pattern buf ctx) left ∧ (turn pattern buf ctx).pos = buf.length ∧
      outTokens (turn pattern buf ctx).out =
        outTokens ctx.out ++ (released held kept).map .keep := by
  have front := @toHit_kept _ _ ngxTolower pattern held (buf.drop ctx.pos)
  rw [parts] at front
  have length : ctx.pos + (buf.drop ctx.pos).length = buf.length := by
    rw [List.length_drop]
    omega
  obtain ⟨after, result, state, position, looked, once, out, saved, stop, start⟩ :
      ∃ after, ngxHttpSubParse pattern buf ctx = (.again, after) ∧
        after.state = stateOf left ∧ after.pos = buf.length ∧ after.looked = left ∧
        after.once = ctx.once ∧ after.out = ctx.out ∧ after.saved = ctx.saved ∧
        after.copyEnd = copyStop ctx.pos held kept ctx.copyEnd ∧
        after.copyStart = copyFrom ctx (copyStop ctx.pos held kept ctx.copyEnd) := by
    rw [parse_eq ready agrees short long, parsed, parts]
    exact ⟨_, rfl, rfl, length, rfl, rfl, rfl, rfl, rfl, rfl⟩
  have copied := @copyOut_kept buf _ _ _ _ ready out (fun _ => saved.trans ready.saved) stop
    start front
  rw [turn, result]
  refine ⟨rfl, ?_, ?_, ?_⟩
  · have reset (some_left : left ≠ []) := @resetCopy_matching (copyOut buf after) (by
      rw [copyOut_state, state]
      exact stateOf_ne_start some_left)
    exact
      { looked := by rw [resetCopy_looked, copyOut_looked, looked]
        state := by rw [resetCopy_state, copyOut_state, state]
        copyStart := fun some_left => (reset some_left).1
        copyEnd := fun some_left => (reset some_left).2
        once := by rw [resetCopy_once, copyOut_once, once, ready.once] }
  · rw [resetCopy_pos, copyOut_pos, position]
  · rw [resetCopy_out]
    exact copied.1

theorem turn_ok {held kept tail left : List UInt8} (ready : Ready ctx held)
    (inside : ctx.pos ≤ buf.length) (agrees : held.map ngxTolower <+: pattern)
    (short : held.length < pattern.length)
    (long : ∀ byte ∈ buf, ngxTolower byte = matchAt pattern 0 → 2 ≤ pattern.length)
    (parts : toHit ngxTolower pattern held (buf.drop ctx.pos) = (kept, some tail, left)) :
    (ngxHttpSubParse pattern buf ctx).1 = .ok ∧ Ready (turn pattern buf ctx) [] ∧
      ctx.pos < (turn pattern buf ctx).pos ∧ (turn pattern buf ctx).pos ≤ buf.length ∧
      buf.drop (turn pattern buf ctx).pos = tail ∧
      outTokens (turn pattern buf ctx).out =
        outTokens ctx.out ++ (released held kept).map .keep := by
  have front := @toHit_kept _ _ ngxTolower pattern held (buf.drop ctx.pos)
  have lengths := @toHit_length _ _ ngxTolower pattern held (buf.drop ctx.pos)
  rw [parts] at front lengths
  simp only at front lengths
  obtain ⟨used, split, some_used⟩ := toHit_rest parts
  have used_pos := List.length_pos_iff.mpr some_used
  have total : (buf.drop ctx.pos).length = used.length + tail.length := by
    rw [split, List.length_append]
  have position : ctx.pos + (buf.drop ctx.pos).length - tail.length = ctx.pos + used.length := by
    omega
  have fits : ctx.pos + used.length ≤ buf.length := by
    rw [List.length_drop] at total
    omega
  obtain ⟨after, result, state, pos, looked, once, out, saved, stop, start⟩ :
      ∃ after, ngxHttpSubParse pattern buf ctx = (.ok, after) ∧
        after.state = .start ∧ after.pos = ctx.pos + used.length ∧ after.looked = [] ∧
        after.once = ctx.once ∧ after.out = ctx.out ∧
        (after.saved = if ctx.pos + used.length - 1 - ctx.pos < pattern.length then []
          else ctx.saved) ∧
        after.copyEnd = copyStop ctx.pos held kept ctx.copyEnd ∧
        after.copyStart = copyFrom ctx (copyStop ctx.pos held kept ctx.copyEnd) := by
    rw [parse_eq ready agrees short long, parsed, parts]
    exact ⟨_, rfl, rfl, position, rfl, rfl, rfl, by rw [position], rfl, rfl⟩
  -- the saved bytes are cleared exactly if none of them is to be copied
  have saved_kept : released held kept ≠ [] → after.saved = held := by
    intro some_released
    rw [saved]
    by_cases empty : held = []
    · rw [ready.saved, empty, ite_self]
    · rcases front with nothing | ⟨more, rfl, _⟩
      · rw [nothing] at some_released
        simp [released] at some_released
      · have some_more : more.length ≠ 0 := by
          intro zero
          rw [List.eq_nil_of_length_eq_zero zero] at some_released
          simp [released] at some_released
        rw [List.length_append] at lengths
        rw [if_neg (by omega), ready.saved]
  have saved_nil : released held kept = [] → after.saved = [] := by
    intro nothing
    rw [saved]
    by_cases empty : held = []
    · rw [ready.saved, empty, ite_self]
    · have short_kept : kept.length ≤ held.length := by
        rcases front with none | ⟨more, rfl, _⟩
        · rw [none]
          exact Nat.zero_le _
        · by_contra long_kept
          rw [released, if_neg (fun both => long_kept (Nat.le_of_eq both.2))] at nothing
          exact empty (List.append_eq_nil_iff.mp nothing).1
      rw [if_pos (by omega)]
  have copied := @copyOut_kept buf _ _ _ _ ready out saved_kept stop start front
  have reset := @resetCopy_start (copyOut buf after) (by rw [copyOut_state, state])
  rw [turn, result]
  have at_pos : (resetCopy (copyOut buf after)).pos = ctx.pos + used.length := by
    rw [resetCopy_pos, copyOut_pos, pos]
  refine ⟨rfl, ?_, ?_, ?_, ?_, ?_⟩
  · exact
      { looked := by rw [resetCopy_looked, copyOut_looked, looked]
        saved := by
          rw [resetCopy_saved]
          by_cases nothing : released held kept = []
          · rw [copied.2.2 nothing, saved_nil nothing]
          · exact copied.2.1 nothing
        state := by
          rw [resetCopy_state, copyOut_state, state]
          rfl
        once := by rw [resetCopy_once, copyOut_once, once, ready.once]
        fresh := fun _ => by
          rw [resetCopy_pos]
          exact reset
        carried := fun absent => absurd rfl absent }
  · rw [at_pos]
    omega
  · rw [at_pos]
    exact fits
  · rw [at_pos, ← List.drop_drop, split, List.drop_left]
  · rw [resetCopy_out]
    exact copied.1

end Buffer

end NgxFormal.Http.SubFilter
