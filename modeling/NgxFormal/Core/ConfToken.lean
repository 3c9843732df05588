import NgxFormal.Core.Times
import NgxFormal.Lib.Runs

/-! `ngx_conf_read_token`: the flags, the words and the buffer that is filled again. -/

namespace NgxFormal.Core.ConfToken

open Lib.Turns
open Times (bytes)

def ngxConfBuffer : Nat := 4096

/-- What `ngx_conf_log_error` is given. -/
inductive Error where
  | endOfParameter
  | endOfFile
  | missing (ch : UInt8)
  | tooLong (started : List UInt8)
  | unexpected (ch : UInt8)
  | unexpectedBrace
  deriving DecidableEq, Repr

def Error.text : Error → List UInt8
  | .endOfParameter => bytes "unexpected end of parameter, expecting \";\""
  | .endOfFile => bytes "unexpected end of file, expecting \";\" or \"\x7d\""
  | .missing ch => bytes "too long parameter, probably missing terminating \"" ++ ch :: bytes "\" character"
  | .tooLong started => bytes "too long parameter \"" ++ started ++ bytes "...\" started"
  | .unexpected ch => bytes "unexpected \"" ++ ch :: bytes "\""
  | .unexpectedBrace => bytes "unexpected \"\x7d\""

/-- `NGX_OK`, `NGX_CONF_BLOCK_START`, `NGX_CONF_BLOCK_DONE`, `NGX_CONF_FILE_DONE`, `NGX_ERROR` -/
inductive Result where
  | ok
  | blockStart
  | blockDone
  | fileDone
  | error (error : Error)
  deriving DecidableEq, Repr

def Result.goesOn : Result → Bool
  | .ok | .blockStart | .blockDone => true
  | _ => false

structure Flags where
  needSpace : Bool
  lastSpace : Bool
  sharpComment : Bool
  variable_ : Bool
  quoted : Bool
  sQuoted : Bool
  dQuoted : Bool
  deriving DecidableEq, Repr

def Flags.blank : Flags := ⟨false, true, false, false, false, false, false⟩

/-- `ch == ' ' || ch == '\t' || ch == CR || ch == LF` -/
def isBlank (ch : UInt8) : Bool := ch == chr ' ' || ch == 9 || ch == CR || ch == LF

inductive Act where
  /-- `continue` -/
  | go (flags : Flags)
  /-- A token or a comment begins, with this byte or behind it. -/
  | start (flags : Flags) (keep : Bool)
  /-- `found` -/
  | word (flags : Flags)
  | stop (result : Result)
  deriving DecidableEq, Repr

/-- `if (last_space)` -/
def Flags.begin (flags : Flags) (noArgs : Bool) (ch : UInt8) : Act :=
  if isBlank ch then .go flags
  else if ch = chr ';' ∨ ch = chr '{' then
    if noArgs then .stop (.error (.unexpected ch))
    else if ch = chr '{' then .stop .blockStart
    else .stop .ok
  else if ch = chr '}' then
    if noArgs then .stop .blockDone else .stop (.error .unexpectedBrace)
  else if ch = chr '#' then .start { flags with sharpComment := true } true
  else if ch = chr '\\' then .start { flags with quoted := true, lastSpace := false } true
  else if ch = chr '"' then .start { flags with dQuoted := true, lastSpace := false } false
  else if ch = chr '\'' then .start { flags with sQuoted := true, lastSpace := false } false
  else .start { flags with lastSpace := false } true

def Flags.inside (flags : Flags) (ch : UInt8) : Act :=
  if ch = chr '{' ∧ flags.variable_ then .go flags
  else
    let flags := { flags with variable_ := false }
    if ch = chr '\\' then .go { flags with quoted := true }
    else if ch = chr '$' then .go { flags with variable_ := true }
    else if flags.dQuoted then
      if ch = chr '"' then .word { flags with dQuoted := false, needSpace := true } else .go flags
    else if flags.sQuoted then
      if ch = chr '\'' then .word { flags with sQuoted := false, needSpace := true } else .go flags
    else if isBlank ch ∨ ch = chr ';' ∨ ch = chr '{' then .word { flags with lastSpace := true }
    else .go flags

def Flags.act (flags : Flags) (noArgs : Bool) (ch : UInt8) : Act :=
  let flags := if ch = LF then { flags with sharpComment := false } else flags
  if flags.sharpComment then .go flags
  else if flags.quoted then .go { flags with quoted := false }
  else if flags.needSpace then
    if isBlank ch then .go { flags with lastSpace := true, needSpace := false }
    else if ch = chr ';' then .stop .ok
    else if ch = chr '{' then .stop .blockStart
    else if ch = chr ')' then { flags with lastSpace := true, needSpace := false }.begin noArgs ch
    else .stop (.error (.unexpected ch))
  else if flags.lastSpace then flags.begin noArgs ch
  else flags.inside ch

/-- `switch (src[1])` -/
def escaped (next : UInt8) : Option UInt8 :=
  if next = chr '"' ∨ next = chr '\'' ∨ next = chr '\\' then some next
  else if next = chr 't' then some 9
  else if next = chr 'r' then some CR
  else if next = chr 'n' then some LF
  else none

/-- The second pass over a token, of which `ch` is the byte behind. -/
def unescape (ch : UInt8) : List UInt8 → List UInt8
  | [] => []
  | [src] => if src = chr '\\' then [(escaped ch).getD src] else [src]
  | src :: next :: rest =>
    if src = chr '\\' then
      match escaped next with
      | some dst => dst :: unescape ch rest
      | none => src :: unescape ch (next :: rest)
    else src :: unescape ch (next :: rest)

/-- `cf->conf_file`, with the bytes of the file and those between `b->start` and `b->last`. A text
from the command line has no file. -/
structure ConfFile where
  file : List UInt8
  offset : Nat
  isParam : Bool
  line : Nat
  data : List UInt8
  pos : Nat
  deriving DecidableEq, Repr

structure Lexer where
  conf : ConfFile
  start : Nat
  startLine : Nat
  flags : Flags
  args : List (List UInt8)
  deriving DecidableEq, Repr

/-- The bytes from `start` to `b->pos`. -/
def Lexer.span (l : Lexer) : List UInt8 := (l.conf.data.take l.conf.pos).drop l.start

/-- `b->pos >= b->last` at the end of the file. -/
def Lexer.atEnd (l : Lexer) : Result :=
  if l.args.length > 0 then
    if l.conf.isParam then .error .endOfParameter else .error .endOfFile
  else .fileDone

/-- `len == NGX_CONF_BUFFER` -/
def Lexer.tooLong (l : Lexer) : Error :=
  if l.flags.dQuoted then .missing (chr '"')
  else if l.flags.sQuoted then .missing (chr '\'')
  else .tooLong (l.span.take 10)

/-- The bytes from `start` on move to the front, and the file is read behind them. -/
def Lexer.fill (size : Nat) (l : Lexer) : Lexer :=
  let len := l.conf.pos - l.start
  let n := min (l.conf.file.length - l.conf.offset) (size - len)
  { l with
    conf := { l.conf with
      data := l.span ++ (l.conf.file.drop l.conf.offset).take n
      pos := len
      offset := l.conf.offset + n }
    start := 0 }

/-- The byte at `b->pos`. -/
def Lexer.examine (l : Lexer) : Turn Result Lexer :=
  let ch := l.conf.data.getD l.conf.pos 0
  let line := if ch = LF then l.conf.line + 1 else l.conf.line
  let conf := { l.conf with pos := l.conf.pos + 1, line := line }
  match l.flags.act (l.args.length = 0) ch with
  | .go flags => .again { l with conf := conf, flags := flags }
  | .start flags keep =>
    .again { l with
      conf := conf
      flags := flags
      start := if keep then l.conf.pos else l.conf.pos + 1
      startLine := line }
  | .word flags =>
    let l := { l with conf := conf, flags := flags, args := l.args ++ [unescape ch l.span] }
    if ch = chr ';' then .done .ok l
    else if ch = chr '{' then .done .blockStart l
    else .again l
  | .stop result => .done result { l with conf := conf }

/-- `for ( ;; )`, with a buffer of `size` bytes -/
def Lexer.turn (size : Nat) (l : Lexer) : Turn Result Lexer :=
  if l.conf.pos < l.conf.data.length then l.examine
  else if l.conf.file.length ≤ l.conf.offset then .done l.atEnd l
  else if l.conf.pos - l.start = size then
    .done (.error l.tooLong) { l with conf := { l.conf with line := l.startLine } }
  else (l.fill size).examine

def ConfFile.unread (conf : ConfFile) : List UInt8 :=
  conf.data.drop conf.pos ++ conf.file.drop conf.offset

/-- In front of the loop. -/
def ConfFile.lexer (conf : ConfFile) : Lexer :=
  { conf := conf, start := conf.pos, startLine := conf.line, flags := Flags.blank, args := [] }

def ngxConfReadToken (size : Nat) (conf : ConfFile) : Option (Result × Lexer) :=
  finish (Lexer.turn size) (conf.unread.length + 1) conf.lexer

/-- `ngx_conf_parse` opens a file. -/
def openFile (text : List UInt8) : ConfFile :=
  { file := text, offset := 0, isParam := false, line := 1, data := [], pos := 0 }

/-- `ngx_conf_param` -/
def openParam (param : List UInt8) : ConfFile :=
  { file := [], offset := 0, isParam := true, line := 0, data := param, pos := 0 }

/-- What a call leaves for `ngx_conf_parse`: the result, `cf->args` and the line. -/
structure Reading where
  result : Result
  args : List (List UInt8)
  line : Nat
  deriving DecidableEq, Repr

/-- The first `n` calls. There is none behind an error or the end of the file. -/
def readings (size : Nat) : Nat → ConfFile → List Reading
  | 0, _ => []
  | n + 1, conf =>
    match ngxConfReadToken size conf with
    | none => []
    | some (result, l) =>
      ⟨result, l.args, l.conf.line⟩ :: if result.goesOn then readings size n l.conf else []

end NgxFormal.Core.ConfToken

/-! The lexer of a configuration without its buffer: what it knows of the bytes behind it, and the
text ahead. -/

namespace NgxFormal.Core.ConfToken

open Lib.Turns

/-- What the lexer knows of the bytes behind it. `tok` are those since `start`. -/
structure Place where
  flags : Flags
  args : List (List UInt8)
  line : Nat
  startLine : Nat
  isParam : Bool
  tok : List UInt8
  deriving DecidableEq, Repr

def Place.first (isParam : Bool) (line : Nat) : Place := ⟨Flags.blank, [], line, line, isParam, []⟩

def Place.atEnd (p : Place) : Result :=
  if p.args.length > 0 then
    if p.isParam then .error .endOfParameter else .error .endOfFile
  else .fileDone

def Place.tooLong (p : Place) : Error :=
  if p.flags.dQuoted then .missing (chr '"')
  else if p.flags.sQuoted then .missing (chr '\'')
  else .tooLong (p.tok.take 10)

def Place.step (p : Place) (ch : UInt8) : Turn Result Place :=
  let line := if ch = LF then p.line + 1 else p.line
  match p.flags.act (p.args.length = 0) ch with
  | .go flags => .again { p with flags := flags, line := line, tok := p.tok ++ [ch] }
  | .start flags keep =>
    .again { p with
      flags := flags
      line := line
      startLine := line
      tok := if keep then [ch] else [] }
  | .word flags =>
    let p := { p with
      flags := flags
      args := p.args ++ [unescape ch p.tok]
      line := line
      tok := p.tok ++ [ch] }
    if ch = chr ';' then .done .ok p
    else if ch = chr '{' then .done .blockStart p
    else .again p
  | .stop result => .done result { p with line := line, tok := p.tok ++ [ch] }

/-- One turn, with the text ahead. No token may have `size` bytes when another byte is read. -/
def turnAhead (size : Nat) (s : Place × List UInt8) : Turn Result (Place × List UInt8) :=
  match s.2 with
  | [] => .done s.1.atEnd s
  | ch :: rest =>
    if s.1.tok.length = size then
      .done (.error s.1.tooLong) ({ s.1 with line := s.1.startLine }, s.2)
    else (s.1.step ch).map fun p => (p, rest)

/-- The buffer has `size` bytes, and `start` and `b->pos` are inside of it. -/
structure Inv (size : Nat) (l : Lexer) : Prop where
  start : l.start ≤ l.conf.pos
  pos : l.conf.pos ≤ l.conf.data.length
  room : l.conf.data.length ≤ size

def Lexer.place (l : Lexer) : Place :=
  ⟨l.flags, l.args, l.conf.line, l.startLine, l.conf.isParam, l.span⟩

def Lexer.view (l : Lexer) : Place × List UInt8 := (l.place, l.conf.unread)

section Simulation

variable {size : Nat} {l : Lexer}

theorem Inv.span_length (inv : Inv size l) : l.span.length = l.conf.pos - l.start := by
  rw [Lexer.span, List.length_drop, List.length_take, Nat.min_eq_left inv.pos]

theorem openFile_inv (size : Nat) (text : List UInt8) : Inv size (openFile text).lexer :=
  ⟨Nat.le_refl 0, Nat.le_refl 0, Nat.zero_le size⟩

theorem Inv.again (inv : Inv size l) : Inv size l.conf.lexer :=
  ⟨Nat.le_refl _, inv.pos, inv.room⟩

theorem lexer_view (conf : ConfFile) :
    conf.lexer.view = (Place.first conf.isParam conf.line, conf.unread) := by
  have empty : conf.lexer.span = [] := List.drop_eq_nil_of_le (List.length_take_le _ _)
  rw [Lexer.view, Lexer.place, empty]
  rfl

theorem byte_at (inside : l.conf.pos < l.conf.data.length) :
    l.conf.data.getD l.conf.pos 0 = l.conf.data[l.conf.pos] := by
  rw [List.getD_eq_getElem?_getD, List.getElem?_eq_getElem inside, Option.getD_some]

theorem span_next (inv : Inv size l) (inside : l.conf.pos < l.conf.data.length) :
    (l.conf.data.take (l.conf.pos + 1)).drop l.start = l.span ++ [l.conf.data.getD l.conf.pos 0] := by
  have value := byte_at inside
  rw [List.take_add_one, List.getElem?_eq_getElem inside, Option.toList_some, value, Lexer.span]
  refine List.drop_append_of_le_length ?_
  rw [List.length_take, Nat.min_eq_left inv.pos]
  exact inv.start

theorem unread_next (inside : l.conf.pos < l.conf.data.length) :
    l.conf.unread = l.conf.data.getD l.conf.pos 0 ::
      (l.conf.data.drop (l.conf.pos + 1) ++ l.conf.file.drop l.conf.offset) := by
  have value := byte_at inside
  rw [ConfFile.unread, List.drop_eq_getElem_cons inside, value, List.cons_append]

theorem span_start (inv : Inv size l) (inside : l.conf.pos < l.conf.data.length) (keep : Bool) :
    (l.conf.data.take (l.conf.pos + 1)).drop (if keep then l.conf.pos else l.conf.pos + 1) =
      if keep then [l.conf.data.getD l.conf.pos 0] else [] := by
  cases keep with
  | false => exact List.drop_eq_nil_of_le (List.length_take_le _ _)
  | true =>
    have start := span_next (l := { l with start := l.conf.pos })
      ⟨Nat.le_refl _, inv.pos, inv.room⟩ inside
    have empty : (l.conf.data.take l.conf.pos).drop l.conf.pos = [] :=
      List.drop_eq_nil_of_le (List.length_take_le _ _)
    rw [Lexer.span, empty] at start
    exact start

theorem examine_view (inv : Inv size l) (inside : l.conf.pos < l.conf.data.length) :
    l.examine.map Lexer.view = (l.place.step (l.conf.data.getD l.conf.pos 0)).map fun p =>
      (p, l.conf.data.drop (l.conf.pos + 1) ++ l.conf.file.drop l.conf.offset) := by
  have span := span_next inv inside
  have begun := span_start inv inside
  have same : l.place.flags.act (l.place.args.length = 0) = l.flags.act (l.args.length = 0) := rfl
  rw [Lexer.span] at span
  rw [Lexer.examine, Place.step, same]
  dsimp only
  cases l.flags.act (l.args.length = 0) (l.conf.data.getD l.conf.pos 0) with
  | go flags => simp only [Turn.map, Lexer.view, Lexer.place, Lexer.span, span, ConfFile.unread]
  | start flags keep =>
    simp only [Turn.map, Lexer.view, Lexer.place, Lexer.span, begun, ConfFile.unread]
  | word flags =>
    dsimp only
    split_ifs <;> simp only [Turn.map, Lexer.view, Lexer.place, Lexer.span, span, ConfFile.unread]
  | stop result => simp only [Turn.map, Lexer.view, Lexer.place, Lexer.span, span, ConfFile.unread]

theorem examine_inv (inv : Inv size l) (inside : l.conf.pos < l.conf.data.length) :
    Inv size l.examine.state := by
  have start := inv.start
  rw [Lexer.examine]
  dsimp only
  cases l.flags.act (l.args.length = 0) (l.conf.data.getD l.conf.pos 0) with
  | go flags => exact ⟨Nat.le_succ_of_le start, inside, inv.room⟩
  | start flags keep =>
    refine ⟨?_, inside, inv.room⟩
    cases keep with
    | false => exact Nat.le_refl _
    | true => exact Nat.le_succ _
  | word flags =>
    dsimp only
    split_ifs <;> exact ⟨Nat.le_succ_of_le start, inside, inv.room⟩
  | stop result => exact ⟨Nat.le_succ_of_le start, inside, inv.room⟩

theorem fill_view (inv : Inv size l) (used : l.conf.data.length ≤ l.conf.pos) :
    (l.fill size).view = l.view := by
  have length := inv.span_length
  have rest : l.conf.data.drop l.conf.pos = [] := List.drop_eq_nil_of_le used
  have span : (l.fill size).span = l.span := by
    rw [Lexer.span]
    simp only [Lexer.fill, List.drop_zero, ← length]
    exact List.take_left
  have ahead : (l.fill size).conf.unread = l.conf.unread := by
    rw [ConfFile.unread, ConfFile.unread, rest, List.nil_append]
    simp only [Lexer.fill, ← length, List.drop_left]
    rw [← List.drop_drop, List.take_append_drop]
  rw [Lexer.view, Lexer.view, ahead, Lexer.place, span]
  rfl

theorem fill_inv (inv : Inv size l) : Inv size (l.fill size) := by
  have length := inv.span_length
  have room : l.conf.pos - l.start ≤ size := by
    have pos := inv.pos
    have room := inv.room
    omega
  refine ⟨Nat.zero_le _, ?_, ?_⟩
  · simp only [Lexer.fill, List.length_append, length]
    omega
  · simp only [Lexer.fill, List.length_append, length, List.length_take]
    omega

theorem fill_inside (inv : Inv size l) (more : l.conf.offset < l.conf.file.length)
    (short : l.conf.pos - l.start < size) :
    (l.fill size).conf.pos < (l.fill size).conf.data.length := by
  have length := inv.span_length
  simp only [Lexer.fill, List.length_append, length, List.length_take, List.length_drop]
  omega

theorem turn_simulates (size : Nat) :
    Simulates (Inv size) Lexer.view (Lexer.turn size) (turnAhead size) where
  same l inv := by
    have length := inv.span_length
    have room := inv.room
    have end_ := inv.pos
    rw [Lexer.turn]
    split_ifs with inside ended long
    · have short : ¬ l.place.tok.length = size := by
        rw [Lexer.place, length]
        omega
      rw [examine_view inv inside, turnAhead, Lexer.view, unread_next inside]
      exact (if_neg short).symm
    · have none_ : l.conf.unread = [] := by
        rw [ConfFile.unread, List.drop_eq_nil_of_le (Nat.le_of_not_lt inside),
          List.drop_eq_nil_of_le ended, List.append_nil]
      rw [turnAhead, Lexer.view, none_]
      simp only [Turn.map, Lexer.view, none_]
      rfl
    · have more : l.conf.unread = l.conf.file.drop l.conf.offset := by
        rw [ConfFile.unread, List.drop_eq_nil_of_le (Nat.le_of_not_lt inside), List.nil_append]
      have ahead := List.drop_eq_getElem_cons (Nat.lt_of_not_le ended)
      rw [turnAhead, Lexer.view, more, ahead]
      have full : l.place.tok.length = size := length.trans long
      simp only [if_pos full, Turn.map, Lexer.view]
      rw [← ahead, ← more]
      rfl
    · have short : l.conf.pos - l.start < size := by omega
      have more := fill_inside inv (Nat.lt_of_not_le ended) short
      have filled := fill_view inv (Nat.le_of_not_lt inside)
      have kept := fill_inv inv
      have within : ¬ (l.fill size).place.tok.length = size := by
        rw [Lexer.place, kept.span_length]
        simp only [Lexer.fill]
        omega
      rw [examine_view kept more, ← filled, turnAhead, Lexer.view, unread_next more]
      exact (if_neg within).symm
  keeps l inv := by
    rw [Lexer.turn]
    split_ifs with inside ended long
    · exact examine_inv inv inside
    · exact inv
    · exact ⟨inv.start, inv.pos, inv.room⟩
    · have pos := inv.pos
      have room := inv.room
      exact examine_inv (fill_inv inv) (fill_inside inv (Nat.lt_of_not_le ended) (by omega))

end Simulation

end NgxFormal.Core.ConfToken
