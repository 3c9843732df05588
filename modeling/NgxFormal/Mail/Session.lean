import NgxFormal.Basic

/-! `ngx_mail_pop3_parse_command`, `ngx_mail_imap_parse_command` and `ngx_mail_smtp_parse_command`.
Pointers are addresses, and 0 is `NULL`. -/

namespace NgxFormal.Mail

inductive State where
  | start
  | spacesBeforeCommand
  | command
  | spacesBeforeArgument
  | argument
  | backslash
  | literal
  | noSyncLiteralArgument
  | startLiteralArgument
  | literalArgument
  | endLiteralArgument
  | almostDone
  deriving DecidableEq, Repr

/-- What a parser returns. -/
inductive Rc where
  | ok
  | again
  | imapNext
  | parseInvalidCommand
  deriving DecidableEq, Repr

/-- `ngx_str_t` -/
structure Str where
  len : Nat
  data : Nat
  deriving DecidableEq, Repr

/-- The fields of `ngx_mail_session_t` that the parsers use; `buf` is what the buffer holds from
`buffer->start` to `buffer->last`. -/
structure Session where
  start : Nat
  placed : 0 < start
  buf : List UInt8
  pos : Nat
  state : State
  command : Nat
  args : List Str
  cmdStart : Nat
  argStart : Nat
  argEnd : Nat
  tag : Str
  literalLen : Nat
  quoted : Bool
  backslash : Bool
  noSyncLiteral : Bool

def ngxToupper (c : UInt8) : UInt8 := if chr 'a' ≤ c ∧ c ≤ chr 'z' then c &&& 0xdf else c

def isLetter (ch : UInt8) : Bool := chr 'A' ≤ ch && ch ≤ chr 'Z' || chr 'a' ≤ ch && ch ≤ chr 'z'

/-- A command name and its number. -/
abbrev Table := List (String × Nat)

/-- The command with the name between `c` and `p`. -/
def findCommand (table : Table) (name : List UInt8) : Option Nat :=
  (table.find? fun entry => name.map ngxToupper = entry.1.toList.map chr).map Prod.snd

/-- The difference of two pointers, as `size_t`. -/
def distance (last first : Nat) : Nat := if first ≤ last then last - first else 2 ^ 64 - (first - last)

/-- The argument between `s->arg_start` and `last` -/
def pushArg (last : Nat) (s : Session) : Session :=
  { s with
    args := s.args ++ [⟨distance last s.argStart, s.argStart⟩]
    argStart := 0 }

def goTo (state : State) (s : Session) : Session × Option Rc := ({ s with state := state }, none)

/-- What POP3 and SMTP do not share: the commands, how many arguments there may be before another one,
the commands whose arguments contain spaces, and the one that is continued. -/
structure LineConf where
  table : Table
  args : Nat
  spaced : List Nat
  auth : Nat

/-- `done` -/
def lineDone (conf : LineConf) (p : Nat) (s : Session) : Session × Option Rc :=
  let s := { s with pos := p + 1 }
  let s := if s.argStart ≠ 0 then pushArg s.argEnd s else s
  ({ s with state := if s.command ≠ conf.auth then .start else .argument }, some .ok)

/-- `invalid` -/
def lineInvalid (s : Session) : Session × Option Rc :=
  ({ s with
    state := .start
    argStart := 0 }, some .parseInvalidCommand)

/-- The state behind what a space, `CR` or `LF` ends. -/
def lineEnds (conf : LineConf) (p : Nat) (ch : UInt8) (s : Session) : Session × Option Rc :=
  if ch = chr ' ' then goTo .spacesBeforeArgument s
  else if ch = CR then goTo .almostDone s
  else lineDone conf p s

/-- The byte `ch` behind the bytes `seen`. -/
def lineTurn (conf : LineConf) (seen : List UInt8) (ch : UInt8) (s : Session) : Session × Option Rc :=
  let p := s.start + seen.length
  match s.state with
  | .start =>
    if ch = chr ' ' ∨ ch = CR ∨ ch = LF then
      match findCommand conf.table seen with
      | none => lineInvalid s
      | some command => lineEnds conf p ch { s with command := command }
    else if isLetter ch then (s, none)
    else lineInvalid s
  | .spacesBeforeArgument =>
    if ch = chr ' ' then (s, none)
    else if ch = CR then goTo .almostDone { s with argEnd := p }
    else if ch = LF then lineDone conf p { s with argEnd := p }
    else if s.args.length ≤ conf.args then goTo .argument { s with argStart := p }
    else lineInvalid s
  | .argument =>
    if ch = chr ' ' ∧ s.command ∈ conf.spaced then (s, none)
    else if ch = chr ' ' ∨ ch = CR ∨ ch = LF then lineEnds conf p ch (pushArg p s)
    else (s, none)
  | .almostDone => if ch = LF then lineDone conf p s else lineInvalid s
  | _ => (s, none)

/-- `NGX_MAIL_SSL` adds a command. -/
def withSsl (ssl : Bool) (table : Table) (entry : String × Nat) : Table := if ssl then table ++ [entry] else table

def pop3Conf (ssl : Bool) : LineConf where
  table := withSsl ssl [("USER", 1), ("PASS", 2), ("APOP", 7), ("QUIT", 4), ("CAPA", 3), ("AUTH", 8), ("NOOP", 5)]
    ("STLS", 6)
  args := 2
  spaced := [1, 2]
  auth := 8

def smtpConf (ssl : Bool) : LineConf where
  table := withSsl ssl [("HELO", 1), ("EHLO", 2), ("QUIT", 4), ("AUTH", 3), ("NOOP", 5), ("MAIL", 6), ("RSET", 7),
    ("RCPT", 8), ("VRFY", 10), ("EXPN", 11), ("HELP", 12)] ("STARTTLS", 13)
  args := 10
  spaced := []
  auth := 3

def imapTable (ssl : Bool) : Table :=
  withSsl ssl [("NOOP", 4), ("LOGIN", 1), ("LOGOUT", 2), ("CAPABILITY", 3), ("AUTHENTICATE", 7)] ("STARTTLS", 5)

/-- `NGX_IMAP_AUTHENTICATE` -/
def imapAuthenticate : Nat := 7

/-- `done` -/
def imapDone (p : Nat) (s : Session) : Session × Option Rc :=
  let s := { s with pos := p + 1 }
  let s :=
    if s.argStart ≠ 0 then
      { pushArg s.argEnd s with
        cmdStart := 0
        quoted := false
        noSyncLiteral := false
        literalLen := 0 }
    else s
  ({ s with state := if s.command ≠ imapAuthenticate then .start else .argument }, some .ok)

/-- `invalid` -/
def imapInvalid (s : Session) : Session × Option Rc :=
  ({ s with
    state := .start
    quoted := false
    noSyncLiteral := false
    literalLen := 0 }, some .parseInvalidCommand)

/-- The end of a line in front of the command, which resets nothing else. -/
def imapEmpty (s : Session) : Session × Option Rc := ({ s with state := .start }, some .parseInvalidCommand)

def imapEnds (p : Nat) (ch : UInt8) (s : Session) : Session × Option Rc :=
  if ch = CR then goTo .almostDone s
  else if ch = LF then imapDone p s
  else goTo .spacesBeforeArgument s

/-- A further argument, if there are not too many. -/
def imapArgument (s : Session) (state : State) : Session × Option Rc :=
  if s.args.length ≤ 2 then goTo state s else imapInvalid s

/-- The byte `ch` behind the bytes `seen`. -/
def imapTurn (ssl : Bool) (seen : List UInt8) (ch : UInt8) (s : Session) : Session × Option Rc :=
  let p := s.start + seen.length
  match s.state with
  | .start =>
    if ch = chr ' ' then goTo .spacesBeforeCommand { s with tag := ⟨p - s.start + 1, s.start⟩ }
    else if ch = CR ∨ ch = LF then imapEmpty s
    else (s, none)
  | .spacesBeforeCommand =>
    if ch = chr ' ' then (s, none)
    else if ch = CR ∨ ch = LF then imapEmpty s
    else goTo .command { s with cmdStart := p }
  | .command =>
    if ch = chr ' ' ∨ ch = CR ∨ ch = LF then
      match findCommand (imapTable ssl) (seen.drop (s.cmdStart - s.start)) with
      | none => imapInvalid s
      | some command => imapEnds p ch { s with command := command }
    else if isLetter ch then (s, none)
    else imapInvalid s
  | .spacesBeforeArgument =>
    if ch = chr ' ' then (s, none)
    else if ch = CR then goTo .almostDone { s with argEnd := p }
    else if ch = LF then imapDone p { s with argEnd := p }
    else if ch = chr '"' then
      if s.args.length ≤ 2 then
        goTo .argument { s with
          quoted := true
          argStart := p + 1 }
      else imapInvalid s
    else if ch = 0x7b then imapArgument s .literal
    else if s.args.length ≤ 2 then goTo .argument { s with argStart := p }
    else imapInvalid s
  | .argument =>
    if ch = chr ' ' ∧ s.quoted then (s, none)
    else if ch = chr '"' then
      if s.quoted then goTo .spacesBeforeArgument (pushArg p { s with quoted := false }) else (s, none)
    else if ch = chr ' ' ∨ ch = CR ∨ ch = LF then imapEnds p ch (pushArg p s)
    else if ch = 0x5c ∧ s.quoted then goTo .backslash { s with backslash := true }
    else (s, none)
  | .backslash => if ch = CR ∨ ch = LF then imapInvalid s else goTo .argument s
  | .literal =>
    if isDigit ch then ({ s with literalLen := (s.literalLen * 10 + digitValue ch) % 2 ^ 64 }, none)
    else if ch = 0x7d then goTo .startLiteralArgument s
    else if ch = chr '+' then goTo .noSyncLiteralArgument s
    else imapInvalid s
  | .noSyncLiteralArgument =>
    if ch = 0x7d then goTo .startLiteralArgument { s with noSyncLiteral := true } else imapInvalid s
  | .startLiteralArgument =>
    if ch = CR then (s, none)
    else if ch = LF then
      let s := { s with
        pos := p + 1
        argStart := p + 1
        state := .literalArgument }
      if s.noSyncLiteral then ({ s with noSyncLiteral := false }, none) else (s, some .imapNext)
    else imapInvalid s
  | .literalArgument =>
    let s := { s with literalLen := s.literalLen - 1 }
    if s.literalLen ≠ 0 then (s, none) else goTo .endLiteralArgument (pushArg (p + 1) s)
  | .endLiteralArgument =>
    if ch = 0x7b then imapArgument s .literal else imapEnds p ch s
  | .almostDone => if ch = LF then imapDone p s else imapInvalid s

/-- The protocol of a session. -/
inductive Protocol where
  | pop3
  | imap
  | smtp
  deriving DecidableEq, Repr

def turn (ssl : Bool) (protocol : Protocol) : List UInt8 → UInt8 → Session → Session × Option Rc :=
  match protocol with
  | .pop3 => lineTurn (pop3Conf ssl)
  | .imap => imapTurn ssl
  | .smtp => lineTurn (smtpConf ssl)

/-- The loop over `p`. -/
def parseLoop (ssl : Bool) (protocol : Protocol) : List UInt8 → List UInt8 → Session → Session × Rc
  | seen, [], s => ({ s with pos := s.start + seen.length }, .again)
  | seen, ch :: rest, s =>
    match turn ssl protocol seen ch s with
    | (s, none) => parseLoop ssl protocol (seen ++ [ch]) rest s
    | (s, some rc) => (s, rc)

/-- `cscf->protocol->parse_command` -/
def parseCommand (ssl : Bool) (protocol : Protocol) (s : Session) : Session × Rc :=
  parseLoop ssl protocol (s.buf.take (s.pos - s.start)) (s.buf.drop (s.pos - s.start)) s

end NgxFormal.Mail

/-! The sessions of a mail proxy: the reads, the parser, and what the handlers reset. -/

namespace NgxFormal.Mail

/-- What the handler of a command makes of it: `stop` is a success that sets `s->state` to 0, `done`
leads to `ngx_mail_auth`. -/
inductive Reply where
  | ok
  | stop
  | parseInvalidCommand
  | done
  deriving DecidableEq, Repr

/-- The end of `ngx_mail_pop3_auth_state`, `ngx_mail_imap_auth_state` and `ngx_mail_smtp_auth_state`. -/
def afterCommand (protocol : Protocol) (s : Session) : Session :=
  let s := { s with args := [] }
  match protocol with
  | .imap =>
    if s.state ≠ .start then
      { s with
        argStart := s.start + s.tag.len
        pos := s.start + s.tag.len
        buf := s.buf.take s.tag.len }
    else
      { s with
        pos := s.start
        buf := []
        tag := ⟨0, s.tag.data⟩ }
  | _ =>
    let s := { s with
      pos := s.start
      buf := [] }
    if s.state ≠ .start then { s with argStart := s.start } else s

def ngxMailAuth (s : Session) : Session :=
  { s with
    args := []
    pos := s.start
    buf := []
    state := .start }

def afterReply (protocol : Protocol) (reply : Reply) (s : Session) : Session :=
  let s := if protocol = .imap then { s with backslash := false } else s
  match reply with
  | .ok => afterCommand protocol s
  | .stop | .parseInvalidCommand => afterCommand protocol { s with state := .start }
  | .done => ngxMailAuth s

/-- `ngx_mail_read_command` behind a `recv` of `bytes` -/
def readCommand (ssl : Bool) (protocol : Protocol) (s : Session) (bytes : List UInt8) : Session × Rc :=
  parseCommand ssl protocol { s with buf := s.buf ++ bytes }

/-- A read event. -/
def authState (ssl : Bool) (protocol : Protocol) (s : Session) (bytes : List UInt8) (reply : Reply) : Session :=
  match readCommand ssl protocol s bytes with
  | (s, .again) | (s, .imapNext) => s
  | (s, .ok) => afterReply protocol reply s
  | (s, .parseInvalidCommand) => afterCommand protocol { s with state := .start }

/-- `ngx_pcalloc` of a session, with its buffer. -/
def Session.init (start : Nat) (placed : 0 < start) : Session where
  start := start
  placed := placed
  buf := []
  pos := start
  state := .start
  command := 0
  args := []
  cmdStart := 0
  argStart := 0
  argEnd := 0
  tag := ⟨0, 0⟩
  literalLen := 0
  quoted := false
  backslash := false
  noSyncLiteral := false

/-- The session behind the reads of a history. -/
def runSession (ssl : Bool) (protocol : Protocol) (s : Session) (history : List (List UInt8 × Reply)) : Session :=
  history.foldl (fun s event => authState ssl protocol s event.1 event.2) s

def AtLineStart (s : Session) : Prop := s.state = .start ∧ s.buf = []

inductive Outcome where
  | ok (command : Nat) (args : List (List UInt8))
  | parseInvalidCommand
  deriving DecidableEq, Repr

def argBytes (start : Nat) (buf : List UInt8) (arg : Str) : List UInt8 :=
  (buf.drop (arg.data - start)).take arg.len

/-- The outcome of a line that comes in `reads`. -/
def lineOutcome (ssl : Bool) (protocol : Protocol) : Session → List (List UInt8) → Option Outcome
  | _, [] => none
  | s, bytes :: rest =>
    match readCommand ssl protocol s bytes with
    | (s, .ok) => some (.ok s.command (s.args.map (argBytes s.start s.buf)))
    | (_, .parseInvalidCommand) => some .parseInvalidCommand
    | (s, .again) | (s, .imapNext) => lineOutcome ssl protocol s rest

/-- The byte ends a line inside a quoted string: an `LF` there or behind the `CR` there, or either behind a
backslash. -/
def BreaksQuote (ch : UInt8) (s : Session) : Prop :=
  ch = LF ∧ s.quoted = true ∧ (s.state = .argument ∨ s.state = .almostDone) ∨
    (ch = CR ∨ ch = LF) ∧ s.state = .backslash

instance (ch : UInt8) (s : Session) : Decidable (BreaksQuote ch s) := inferInstanceAs (Decidable (_ ∨ _))

/-- No byte that the parser looks at ends a line inside a quoted string. -/
def Unbroken (ssl : Bool) (protocol : Protocol) : List UInt8 → List UInt8 → Session → Prop
  | _, [], _ => True
  | seen, ch :: rest, s =>
    ¬BreaksQuote ch s ∧
      ((turn ssl protocol seen ch s).2 = none →
        Unbroken ssl protocol (seen ++ [ch]) rest (turn ssl protocol seen ch s).1)

def UnbrokenRead (ssl : Bool) (protocol : Protocol) (s : Session) (bytes : List UInt8) : Prop :=
  let s := { s with buf := s.buf ++ bytes }
  Unbroken ssl protocol (s.buf.take (s.pos - s.start)) (s.buf.drop (s.pos - s.start)) s

/-- The client never ends a line inside a quoted string. -/
def Careful (ssl : Bool) (protocol : Protocol) : Session → List (List UInt8 × Reply) → Prop
  | _, [] => True
  | s, (bytes, reply) :: history =>
    UnbrokenRead ssl protocol s bytes ∧ Careful ssl protocol (authState ssl protocol s bytes reply) history

end NgxFormal.Mail
