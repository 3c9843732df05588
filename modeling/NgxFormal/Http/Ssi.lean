import NgxFormal.Core.Hash

/-! `ngx_http_ssi_parse`. Pointers into the current buffer are offsets from `buf->pos`; memory from
the pool is a numbered allocation, and `none` is a write outside of one. -/

namespace NgxFormal.Http.Ssi

open Core.Hash (ngxHash)

def ngxHttpSsiCommandLen : Nat := 32

def ngxHttpSsiParamLen : Nat := 32

/-- `ngx_http_ssi_state_e` -/
inductive SsiState where
  | start
  | tag
  | comment0
  | comment1
  | sharp
  | precommand
  | command
  | preparam
  | param
  | preequal
  | prevalue
  | doubleQuotedValue
  | quotedValue
  | quotedSymbol
  | postparam
  | commentEnd0
  | commentEnd1
  | error
  | errorEnd0
  | errorEnd1
  deriving DecidableEq, Repr

/-- What `ngx_http_ssi_parse` returns. -/
inductive Rc where
  | ok
  | again
  | ssiError
  deriving DecidableEq, Repr

/-- The allocations of the pool, by number, and what is in them. -/
structure Store where
  next : Nat
  size : Nat → Nat
  mem : Nat → Nat → UInt8

def Store.pnalloc (store : Store) (size : Nat) : Store × Nat :=
  ({ store with
      next := store.next + 1
      size := fun a => if a = store.next then size else store.size a }, store.next)

def Store.write (store : Store) (a i : Nat) (ch : UInt8) : Option Store :=
  if i < store.size a then
    some { store with mem := fun b j => if b = a ∧ j = i then ch else store.mem b j }
  else none

/-- `ngx_memcpy` of the first `len` bytes -/
def Store.copy (store : Store) (dst src len : Nat) : Option Store :=
  if len ≤ store.size dst ∧ len ≤ store.size src then
    some { store with mem := fun b j => if b = dst ∧ j < len then store.mem src j else store.mem b j }
  else none

/-- `ngx_str_t` -/
structure Str where
  len : Nat
  data : Nat
  deriving DecidableEq, Repr

def Store.bytes (store : Store) (s : Str) : List UInt8 := (List.range s.len).map (store.mem s.data)

structure Param where
  key : Str
  value : Str
  deriving DecidableEq, Repr

/-- The fields of `ngx_http_ssi_ctx_t` that the parser uses. The newest parameter, `ctx->param`, is
the first one in `params`. -/
structure Ctx where
  store : Store
  buf : List UInt8
  pos : Nat
  copyStart : Option Nat
  copyEnd : Option Nat
  key : Nat
  command : Str
  params : List Param
  state : SsiState
  savedState : SsiState
  saved : Nat
  looked : Nat
  valueLen : Nat
  valueBuf : Option Nat

/-- `' '`, `CR`, `LF` and `'\t'` -/
def isBlank (ch : UInt8) : Bool := ch = 0x20 || ch = 0x0d || ch = 0x0a || ch = 0x09

/-- The byte that the tag goes on with, else a new tag at `<`, or none. -/
def tagTurn (p : Nat) (ch expected : UInt8) (looked : Nat) (next : SsiState) (ctx : Ctx) : Ctx :=
  if ch = expected then
    { ctx with
      looked := looked
      state := next }
  else if ch = 0x3c then
    { ctx with
      copyEnd := some p
      looked := 1
      state := .tag }
  else
    { ctx with
      copyEnd := some p
      looked := 0
      state := .start }

def beginCommand (ch : UInt8) (ctx : Ctx) : Option Ctx :=
  let (store, data) := ctx.store.pnalloc ngxHttpSsiCommandLen
  (store.write data 0 ch).map fun store =>
    { ctx with
      store := store
      command := ⟨1, data⟩
      key := ngxHash 0 ch
      params := []
      state := .command }

def addCommand (ch : UInt8) (ctx : Ctx) : Option Ctx :=
  if ctx.command.len = ngxHttpSsiCommandLen then some { ctx with state := .error }
  else
    (ctx.store.write ctx.command.data ctx.command.len ch).map fun store =>
      { ctx with
        store := store
        command := ⟨ctx.command.len + 1, ctx.command.data⟩
        key := ngxHash ctx.key ch }

def beginParam (ch : UInt8) (ctx : Ctx) : Option Ctx :=
  let (store, keyData) := ctx.store.pnalloc ngxHttpSsiParamLen
  (store.write keyData 0 ch).map fun store =>
    let (store, valueData) :=
      match ctx.valueBuf with
      | none => store.pnalloc ctx.valueLen
      | some data => (store, data)
    { ctx with
      store := store
      params := ⟨⟨1, keyData⟩, ⟨0, valueData⟩⟩ :: ctx.params
      state := .param }

/-- `ctx->param->key.data[ctx->param->key.len++] = ch` -/
def addKey (ch : UInt8) (ctx : Ctx) : Option Ctx :=
  match ctx.params with
  | [] => none
  | param :: others =>
    (ctx.store.write param.key.data param.key.len ch).map fun store =>
      { ctx with
        store := store
        params := { param with key := ⟨param.key.len + 1, param.key.data⟩ } :: others }

/-- `ctx->param->value.data[ctx->param->value.len++] = ch` -/
def addValue (ch : UInt8) (ctx : Ctx) : Option Ctx :=
  match ctx.params with
  | [] => none
  | param :: others =>
    (ctx.store.write param.value.data param.value.len ch).map fun store =>
      { ctx with
        store := store
        params := { param with value := ⟨param.value.len + 1, param.value.data⟩ } :: others }

def valueFull (ctx : Ctx) : Bool := ctx.params.head?.map (fun param => param.value.len) = some ctx.valueLen

def keyFull (ctx : Ctx) : Bool :=
  ctx.params.head?.map (fun param => param.key.len) = some ngxHttpSsiParamLen

/-- A value in the quotes `quote`, whose state is `here`. -/
def valueTurn (quote : UInt8) (here : SsiState) (ch : UInt8) (ctx : Ctx) : Option Ctx :=
  if ch = quote then some { ctx with state := .postparam }
  else
    let ctx :=
      if ch = 0x5c then
        { ctx with
          savedState := here
          state := .quotedSymbol }
      else ctx
    if valueFull ctx then some { ctx with state := .error } else addValue ch ctx

/-- A short value is copied, so that its buffer can take the next one; another one keeps it. -/
def detachValue (ctx : Ctx) : Option Ctx :=
  match ctx.params with
  | [] => none
  | param :: others =>
    if param.value.len + 1 < ctx.valueLen / 2 then
      let (store, value) := ctx.store.pnalloc (param.value.len + 1)
      (store.copy value param.value.data param.value.len).map fun store =>
        { ctx with
          store := store
          valueBuf := some param.value.data
          params := { param with value := ⟨param.value.len, value⟩ } :: others }
    else some { ctx with valueBuf := none }

/-- The state behind a byte that is in a wrong place. -/
def wrongState (ch : UInt8) : SsiState := if ch = 0x2d then .errorEnd0 else .error

/-- The states of a command, except for the byte that ends it. -/
def commandTurn (ch : UInt8) (ctx : Ctx) : Option Ctx :=
  match ctx.state with
  | .precommand => if isBlank ch then some ctx else beginCommand ch ctx
  | .command =>
    if isBlank ch then some { ctx with state := .preparam }
    else if ch = 0x2d then some { ctx with state := .commentEnd0 }
    else addCommand ch ctx
  | .preparam =>
    if isBlank ch then some ctx
    else if ch = 0x2d then some { ctx with state := .commentEnd0 }
    else beginParam ch ctx
  | .param =>
    if isBlank ch then some { ctx with state := .preequal }
    else if ch = 0x3d then some { ctx with state := .prevalue }
    else if ch = 0x2d then addKey ch { ctx with state := .errorEnd0 }
    else if keyFull ctx then some { ctx with state := .error }
    else addKey ch ctx
  | .preequal =>
    if isBlank ch then some ctx
    else if ch = 0x3d then some { ctx with state := .prevalue }
    else some { ctx with state := wrongState ch }
  | .prevalue =>
    if isBlank ch then some ctx
    else if ch = 0x22 then some { ctx with state := .doubleQuotedValue }
    else if ch = 0x27 then some { ctx with state := .quotedValue }
    else some { ctx with state := wrongState ch }
  | .doubleQuotedValue => valueTurn 0x22 .doubleQuotedValue ch ctx
  | .quotedValue => valueTurn 0x27 .quotedValue ch ctx
  | .quotedSymbol => addValue ch { ctx with state := ctx.savedState }
  | .postparam =>
    (detachValue ctx).map fun ctx =>
      if isBlank ch then { ctx with state := .preparam }
      else if ch = 0x2d then { ctx with state := .commentEnd0 }
      else { ctx with state := .error }
  | .commentEnd0 => some { ctx with state := if ch = 0x2d then .commentEnd1 else .error }
  | .error => some { ctx with state := if ch = 0x2d then .errorEnd0 else .error }
  | .errorEnd0 => some { ctx with state := if ch = 0x2d then .errorEnd1 else .error }
  | _ => some { ctx with state := .error }

/-- What the byte `ch` at `p` does, and what it makes the parser return; `start` is where the call
began. -/
def ssiTurn (start p : Nat) (ch : UInt8) (ctx : Ctx) : Option (Ctx × Option Rc) :=
  match ctx.state with
  | .start =>
    if ch = 0x3c then
      some ({ ctx with
        copyEnd := some p
        looked := 1
        state := .tag }, none)
    else some (ctx, none)
  | .tag => some (tagTurn p ch 0x21 2 .comment0 ctx, none)
  | .comment0 => some (tagTurn p ch 0x2d 3 .comment1 ctx, none)
  | .comment1 => some (tagTurn p ch 0x2d 4 .sharp ctx, none)
  | .sharp =>
    let ctx := if ch = 0x23 ∧ p - start < 4 then { ctx with saved := 0 } else ctx
    some (tagTurn p ch 0x23 0 .precommand ctx, none)
  | .commentEnd1 =>
    if ch = 0x3e then some (ctx, some .ok)
    else (commandTurn ch ctx).map fun ctx => (ctx, none)
  | .errorEnd1 =>
    if ch = 0x3e then some (ctx, some .ssiError)
    else (commandTurn ch ctx).map fun ctx => (ctx, none)
  | _ => (commandTurn ch ctx).map fun ctx => (ctx, none)

/-- `copy_start`, once `copy_end` is set. -/
def copyFrom (ctx : Ctx) (copyEnd : Option Nat) : Option Nat :=
  if ctx.copyStart = none ∧ copyEnd ≠ none then some 0 else ctx.copyStart

/-- The loop over `p`, with what is left of the buffer; the tight loop of the start state ends as this
one does. -/
def parseLoop (start : Nat) : Nat → List UInt8 → Ctx → Option (Rc × Ctx)
  | p, [], ctx =>
    let copyEnd := if ctx.state = .start then some p else ctx.copyEnd
    some (.again, { ctx with
      pos := p
      copyEnd := copyEnd
      copyStart := copyFrom ctx copyEnd })
  | p, ch :: rest, ctx =>
    (ssiTurn start p ch ctx).bind fun
      | (ctx, none) => parseLoop start (p + 1) rest ctx
      | (ctx, some rc) =>
        some (rc, { ctx with
          state := .start
          pos := p + 1
          copyStart := copyFrom ctx ctx.copyEnd })

def ngxHttpSsiParse (ctx : Ctx) : Option (Rc × Ctx) :=
  parseLoop ctx.pos ctx.pos (ctx.buf.drop ctx.pos) ctx

/-- The context that the header filter makes, with what is in the pool. -/
def Ctx.init (store : Store) (valueLen : Nat) : Ctx where
  store := store
  buf := []
  pos := 0
  copyStart := none
  copyEnd := none
  key := 0
  command := ⟨0, 0⟩
  params := []
  state := .start
  savedState := .start
  saved := 0
  looked := 0
  valueLen := valueLen
  valueBuf := none

end NgxFormal.Http.Ssi

/-! `ngx_http_ssi_body_filter` on buffers in memory. What it does with a command or an error is a
parameter, and no subrequest is waited for. -/

namespace NgxFormal.Http.Ssi

def ngxHttpSsiString : List UInt8 := [0x3c, 0x21, 0x2d, 0x2d]

/-- A buffer of the body, or of the chain for the next filter. -/
structure Buf where
  bytes : List UInt8
  lastBuf : Bool
  deriving DecidableEq, Repr

/-- The rest of `ngx_http_ssi_ctx_t`; `blocked` is what the buffers of the last block hold. -/
structure Filter where
  parser : Ctx
  out : List Buf
  output : Bool
  block : Bool
  blocked : List UInt8

def Filter.init (store : Store) (valueLen : Nat) : Filter :=
  ⟨Ctx.init store valueLen, [], true, false, []⟩

/-- The bytes from `copy_start` to `copy_end`, behind the ones saved of an earlier tag. The flag is
whether `b` is the last buffer of the chain. -/
def copyOut (ctx : Filter) (b : Bool) : Filter × Bool :=
  let parser := ctx.parser
  if parser.copyStart = parser.copyEnd then (ctx, b)
  else
    let start := parser.copyStart.getD 0
    let bytes := (parser.buf.drop start).take (parser.copyEnd.getD 0 - start)
    let saved := ngxHttpSsiString.take parser.saved
    let ctx := { ctx with parser := { parser with saved := 0 } }
    if ctx.output then
      ({ ctx with out := ctx.out ++ (if parser.saved ≠ 0 then [⟨saved, false⟩] else []) ++
          [⟨bytes, false⟩] }, true)
    else if ctx.block then ({ ctx with blocked := ctx.blocked ++ (saved ++ bytes) }, false)
    else (ctx, b)

def resetCopy (parser : Ctx) : Ctx :=
  if parser.state = .start then
    { parser with
      copyStart := some parser.pos
      copyEnd := some parser.pos }
  else
    { parser with
      copyStart := none
      copyEnd := none }

/-- `while (ctx->pos < ctx->buf->last)`; every turn takes a byte. -/
def bufferLoop (execute : Rc → Filter → Filter × Bool) : Nat → Filter → Bool → Option (Filter × Bool)
  | 0, ctx, b => some (ctx, b)
  | fuel + 1, ctx, b =>
    if ctx.parser.pos < ctx.parser.buf.length then
      (ngxHttpSsiParse ctx.parser).bind fun (rc, parser) =>
        let (ctx, b) := copyOut { ctx with parser := parser } b
        let ctx := { ctx with parser := resetCopy ctx.parser }
        if rc = .again then bufferLoop execute fuel ctx b
        else
          let (ctx, b) := execute rc ctx
          bufferLoop execute fuel ctx b
    else some (ctx, b)

/-- The last buffer of the chain, or a new one, stands for the end of the buffer `buf`. -/
def markLast (buf : Buf) (b : Bool) (out : List Buf) : List Buf :=
  if b then out.dropLast ++ (out.getLast?.map fun last => { last with lastBuf := buf.lastBuf }).toList
  else out ++ [⟨[], buf.lastBuf⟩]

/-- One turn of `while (ctx->in || ctx->buf)`. -/
def filterBuffer (execute : Rc → Filter → Filter × Bool) (ctx : Filter) (buf : Buf) : Option Filter :=
  let parser := { ctx.parser with
    buf := buf.bytes
    pos := 0 }
  let parser := if parser.state = .start then resetCopy parser else parser
  (bufferLoop execute buf.bytes.length { ctx with parser := parser } false).map fun (ctx, b) =>
    { ctx with
      parser := { ctx.parser with saved := ctx.parser.looked }
      out := markLast buf b ctx.out }

/-- A call, with the chain that the next filter gets. -/
def ngxHttpSsiBodyFilter (execute : Rc → Filter → Filter × Bool) (ctx : Filter) (bufs : List Buf) :
    Option (Filter × List Buf) :=
  (bufs.foldlM (filterBuffer execute) ctx).map fun ctx => ({ ctx with out := [] }, ctx.out)

/-- All calls for a response, with the chains one behind the other. -/
def respond (execute : Rc → Filter → Filter × Bool) : Filter → List (List Buf) → Option (List Buf)
  | _, [] => some []
  | ctx, bufs :: calls =>
    (ngxHttpSsiBodyFilter execute ctx bufs).bind fun (ctx, out) =>
      (respond execute ctx calls).map (out ++ ·)

def chainBytes (bufs : List Buf) : List UInt8 := (bufs.map Buf.bytes).flatten

end NgxFormal.Http.Ssi
