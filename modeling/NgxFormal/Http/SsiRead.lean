import NgxFormal.Http.Ssi

/-! The commands of a text, without limits and without memory, and the calls of the parser for a
sequence of buffers. -/

namespace NgxFormal.Http.Ssi

open Core.Hash (ngxHashKey)

/-- What a call reports: a command with its key and its parameters in order, or an error. -/
inductive Event where
  | ok (command : List UInt8) (key : Nat) (params : List (List UInt8 × List UInt8))
  | ssiError
  deriving DecidableEq, Repr

/-- The abstract reader. The newest parameter is the first one. -/
structure Reading where
  state : SsiState
  savedState : SsiState
  command : List UInt8
  params : List (List UInt8 × List UInt8)
  deriving DecidableEq, Repr

def Reading.init : Reading := ⟨.start, .start, [], []⟩

def Reading.goTo (reading : Reading) (state : SsiState) : Reading := { reading with state := state }

def Reading.addKey (ch : UInt8) (reading : Reading) : Reading :=
  match reading.params with
  | [] => reading
  | (key, value) :: others => { reading with params := (key ++ [ch], value) :: others }

def Reading.addValue (ch : UInt8) (reading : Reading) : Reading :=
  match reading.params with
  | [] => reading
  | (key, value) :: others => { reading with params := (key, value ++ [ch]) :: others }

def tagState (ch expected : UInt8) (next : SsiState) : SsiState :=
  if ch = expected then next else if ch = 0x3c then .tag else .start

def readValue (quote : UInt8) (here : SsiState) (ch : UInt8) (reading : Reading) : Reading :=
  if ch = quote then reading.goTo .postparam
  else if ch = 0x5c then
    { reading with
      savedState := here
      state := .quotedSymbol }.addValue ch
  else reading.addValue ch

def readCommand (ch : UInt8) (reading : Reading) : Reading :=
  match reading.state with
  | .precommand =>
    if isBlank ch then reading
    else
      { reading with
        state := .command
        command := [ch]
        params := [] }
  | .command =>
    if isBlank ch then reading.goTo .preparam
    else if ch = 0x2d then reading.goTo .commentEnd0
    else { reading with command := reading.command ++ [ch] }
  | .preparam =>
    if isBlank ch then reading
    else if ch = 0x2d then reading.goTo .commentEnd0
    else
      { reading with
        state := .param
        params := ([ch], []) :: reading.params }
  | .param =>
    if isBlank ch then reading.goTo .preequal
    else if ch = 0x3d then reading.goTo .prevalue
    else if ch = 0x2d then (reading.addKey ch).goTo .errorEnd0
    else reading.addKey ch
  | .preequal =>
    if isBlank ch then reading
    else if ch = 0x3d then reading.goTo .prevalue
    else reading.goTo (wrongState ch)
  | .prevalue =>
    if isBlank ch then reading
    else if ch = 0x22 then reading.goTo .doubleQuotedValue
    else if ch = 0x27 then reading.goTo .quotedValue
    else reading.goTo (wrongState ch)
  | .doubleQuotedValue => readValue 0x22 .doubleQuotedValue ch reading
  | .quotedValue => readValue 0x27 .quotedValue ch reading
  | .quotedSymbol => (reading.addValue ch).goTo reading.savedState
  | .postparam =>
    if isBlank ch then reading.goTo .preparam
    else if ch = 0x2d then reading.goTo .commentEnd0
    else reading.goTo .error
  | .commentEnd0 => reading.goTo (if ch = 0x2d then .commentEnd1 else .error)
  | .error => reading.goTo (if ch = 0x2d then .errorEnd0 else .error)
  | .errorEnd0 => reading.goTo (if ch = 0x2d then .errorEnd1 else .error)
  | _ => reading.goTo .error

def readTurn (ch : UInt8) (reading : Reading) : Reading × Option Rc :=
  match reading.state with
  | .start => (reading.goTo (if ch = 0x3c then .tag else .start), none)
  | .tag => (reading.goTo (tagState ch 0x21 .comment0), none)
  | .comment0 => (reading.goTo (tagState ch 0x2d .comment1), none)
  | .comment1 => (reading.goTo (tagState ch 0x2d .sharp), none)
  | .sharp => (reading.goTo (tagState ch 0x23 .precommand), none)
  | .commentEnd1 => if ch = 0x3e then (reading, some .ok) else (readCommand ch reading, none)
  | .errorEnd1 => if ch = 0x3e then (reading, some .ssiError) else (readCommand ch reading, none)
  | _ => (readCommand ch reading, none)

def Reading.event (rc : Rc) (reading : Reading) : Event :=
  match rc with
  | .ok => .ok reading.command (ngxHashKey reading.command) reading.params.reverse
  | _ => .ssiError

/-- The events of a text, and the reader behind it. -/
def readText : Reading → List UInt8 → List Event × Reading
  | reading, [] => ([], reading)
  | reading, ch :: rest =>
    match readTurn ch reading with
    | (reading, none) => readText reading rest
    | (reading, some rc) =>
      let (events, last) := readText (reading.goTo .start) rest
      (reading.event rc :: events, last)

def Reading.Within (valueLen : Nat) (reading : Reading) : Prop :=
  reading.command.length ≤ ngxHttpSsiCommandLen ∧
    ∀ param ∈ reading.params, param.1.length ≤ ngxHttpSsiParamLen ∧ param.2.length ≤ valueLen

instance (valueLen : Nat) (reading : Reading) : Decidable (reading.Within valueLen) :=
  inferInstanceAs (Decidable (_ ∧ _))

/-- The limits are kept at every place of the text. -/
def KeepsLimits (valueLen : Nat) (reading : Reading) (text : List UInt8) : Prop :=
  ∀ before ∈ text.inits, (readText reading before).2.Within valueLen

instance (valueLen : Nat) (reading : Reading) (text : List UInt8) :
    Decidable (KeepsLimits valueLen reading text) :=
  inferInstanceAs (Decidable (∀ before ∈ text.inits, _))

/-- No test stands before a dash behind a parameter name, nor before a byte behind a backslash. -/
def Untested (ch : UInt8) (reading : Reading) : Prop :=
  reading.state = .param ∧ ch = 0x2d ∨ reading.state = .quotedSymbol

instance (ch : UInt8) (reading : Reading) : Decidable (Untested ch reading) :=
  inferInstanceAs (Decidable (_ ∨ _))

/-- The byte goes into a name or a value that is full. -/
def Overflows (valueLen : Nat) (ch : UInt8) (reading : Reading) : Prop :=
  ¬(readTurn ch reading).1.Within valueLen ∧ Untested ch reading

def Reading.refuse (reading next : Reading) : Reading :=
  { reading with
    state := .error
    savedState := next.savedState }

/-- What a call reports, read from memory. -/
def Ctx.event (rc : Rc) (ctx : Ctx) : Event :=
  match rc with
  | .ok => .ok (ctx.store.bytes ctx.command) ctx.key
      (ctx.params.reverse.map fun param => (ctx.store.bytes param.key, ctx.store.bytes param.value))
  | _ => .ssiError

/-- What the filter does with the pool between two calls: it may allocate and write, and the sizes of
what is there stay. -/
structure PoolUse where
  work : Event → Store → Store
  grows : ∀ event store, store.next ≤ (work event store).next
  sizes : ∀ event store a, a < store.next → (work event store).size a = store.size a

/-- `ctx->saved = 0` when something is copied -/
def clearSaved (ctx : Ctx) : Ctx := if ctx.copyStart = ctx.copyEnd then ctx else { ctx with saved := 0 }

/-- The calls for a buffer, each with the context that it leaves. -/
def bufferCalls (use : PoolUse) : Nat → Ctx → Option (List (Rc × Ctx) × Ctx)
  | 0, ctx => some ([], ctx)
  | fuel + 1, ctx =>
    if ctx.pos < ctx.buf.length then
      (ngxHttpSsiParse ctx).bind fun (rc, parsed) =>
        let ctx := resetCopy (clearSaved parsed)
        if rc = .again then bufferCalls use fuel ctx
        else
          (bufferCalls use fuel { ctx with store := use.work (parsed.event rc) ctx.store }).map
            fun (calls, last) => ((rc, parsed) :: calls, last)
    else some ([], ctx)

def parseBuffer (use : PoolUse) (ctx : Ctx) (bytes : List UInt8) : Option (List (Rc × Ctx) × Ctx) :=
  let parser := { ctx with
    buf := bytes
    pos := 0 }
  let parser := if parser.state = .start then resetCopy parser else parser
  (bufferCalls use bytes.length parser).map fun (calls, ctx) => (calls, { ctx with saved := ctx.looked })

/-- The results for a body that comes in buffers. -/
def parseBuffers (use : PoolUse) : Ctx → List (List UInt8) → Option (List (Rc × Ctx))
  | _, [] => some []
  | ctx, bytes :: rest =>
    (parseBuffer use ctx bytes).bind fun (first, ctx) =>
      (parseBuffers use ctx rest).map (first ++ ·)

end NgxFormal.Http.Ssi
