import NgxFormal.Mail.Reads

/-! Two sessions that read the same line. -/

namespace NgxFormal.Mail

/-- An argument, from `buffer->start` on. -/
def Str.within (start : Nat) (arg : Str) : Nat × Nat := (arg.data - start, arg.len)

structure Alike (s t : Session) : Prop where
  args : s.args.map (Str.within s.start) = t.args.map (Str.within t.start)
  quoted : s.quoted = t.quoted
  noSyncLiteral : s.noSyncLiteral = t.noSyncLiteral
  literalLen : s.literalLen = t.literalLen

/-- Two sessions that have read the same part of a line. -/
structure Same (s t : Session) : Prop extends Alike s t where
  state : s.state = t.state
  command : s.state.early = false → s.command = t.command
  cmdStart : s.state = .command → s.cmdStart - s.start = t.cmdStart - t.start
  argStart : s.state.open = true → s.argStart - s.start = t.argStart - t.start

structure SameTurn (r r' : Session × Option Rc) : Prop where
  rc : r.2 = r'.2
  goes : r.2 = none ∨ r.2 = some .imapNext → Same r.1 r'.1
  ok : r.2 = some .ok → Alike r.1 r'.1 ∧ r.1.command = r'.1.command

theorem Alike.length {s t : Session} (alike : Alike s t) : s.args.length = t.args.length := by
  simpa using congrArg List.length alike.args

theorem Alike.moved {s t u v : Session} (alike : Alike s t)
    (inS : u.args = s.args ∧ u.start = s.start ∧ u.quoted = s.quoted ∧ u.noSyncLiteral = s.noSyncLiteral ∧
      u.literalLen = s.literalLen)
    (inT : v.args = t.args ∧ v.start = t.start ∧ v.quoted = t.quoted ∧ v.noSyncLiteral = t.noSyncLiteral ∧
      v.literalLen = t.literalLen) : Alike u v where
  args := by rw [inS.1, inS.2.1, inT.1, inT.2.1, alike.args]
  quoted := by rw [inS.2.2.1, inT.2.2.1, alike.quoted]
  noSyncLiteral := by rw [inS.2.2.2.1, inT.2.2.2.1, alike.noSyncLiteral]
  literalLen := by rw [inS.2.2.2.2, inT.2.2.2.2, alike.literalLen]

theorem sameTurn_stay {s t : Session} (same : Same s t) : SameTurn (s, none) (t, none) :=
  ⟨rfl, fun _ => same, fun rc => by cases rc⟩

theorem sameTurn_refuse (s t : Session) : SameTurn (s, some .parseInvalidCommand) (t, some .parseInvalidCommand) :=
  ⟨rfl, fun rc => by simp at rc, fun rc => by cases rc⟩

theorem sameTurn_goTo (state : State) {s t : Session} (alike : Alike s t)
    (command : state.early = false → s.command = t.command)
    (cmdStart : state = .command → s.cmdStart - s.start = t.cmdStart - t.start)
    (argStart : state.open = true → s.argStart - s.start = t.argStart - t.start) :
    SameTurn (goTo state s) (goTo state t) where
  rc := rfl
  goes _ := { toAlike := ⟨alike.args, alike.quoted, alike.noSyncLiteral, alike.literalLen⟩
              state := rfl
              command := command
              cmdStart := cmdStart
              argStart := argStart }
  ok rc := by cases rc

theorem sameTurn_closed (state : State) {s t : Session} (alike : Alike s t) (command : s.command = t.command)
    (closed : state.open = false) (late : state.early = false) : SameTurn (goTo state s) (goTo state t) :=
  sameTurn_goTo state alike (fun _ => command) (fun at1 => by simp [at1, State.early] at late)
    (fun isOpen => by simp [closed] at isOpen)

theorem same_later {s t : Session} (alike : Alike s t) (state : s.state = t.state) (late : s.state.early = false)
    (command : s.command = t.command)
    (argStart : s.state.open = true → s.argStart - s.start = t.argStart - t.start) : Same s t where
  toAlike := alike
  state := state
  command _ := command
  cmdStart at1 := by simp [at1, State.early] at late
  argStart := argStart

theorem alike_pushArg {s t : Session} {parsed : Nat} (alike : Alike s t)
    (argStart : s.argStart - s.start = t.argStart - t.start)
    (inS : s.start ≤ s.argStart ∧ s.argStart ≤ s.start + parsed)
    (inT : t.start ≤ t.argStart ∧ t.argStart ≤ t.start + parsed) :
    Alike (pushArg (s.start + parsed) s) (pushArg (t.start + parsed) t) where
  args := by
    have len : distance (s.start + parsed) s.argStart = distance (t.start + parsed) t.argStart := by
      simp only [distance, if_pos inS.2, if_pos inT.2]
      omega
    simp only [pushArg, List.map_append, List.map_cons, List.map_nil, alike.args, Str.within, argStart, len]
  quoted := alike.quoted
  noSyncLiteral := alike.noSyncLiteral
  literalLen := alike.literalLen

theorem sameTurn_lineDone (conf : LineConf) (p p' : Nat) {s t : Session} (alike : Alike s t)
    (command : s.command = t.command) (idle : s.argStart = 0) (idle' : t.argStart = 0) :
    SameTurn (lineDone conf p s) (lineDone conf p' t) where
  rc := rfl
  goes rc := by simp [lineDone] at rc
  ok _ := by
    simp only [lineDone, idle, idle', ne_eq, not_true_eq_false, if_false]
    exact ⟨⟨alike.args, alike.quoted, alike.noSyncLiteral, alike.literalLen⟩, command⟩

theorem sameTurn_lineEnds (conf : LineConf) (p p' : Nat) (ch : UInt8) {s t : Session} (alike : Alike s t)
    (command : s.command = t.command) (idle : s.argStart = 0) (idle' : t.argStart = 0) :
    SameTurn (lineEnds conf p ch s) (lineEnds conf p' ch t) := by
  unfold lineEnds
  split
  · exact sameTurn_closed _ alike command rfl rfl
  split
  · exact sameTurn_closed _ alike command rfl rfl
  · exact sameTurn_lineDone conf p p' alike command idle idle'

theorem sameTurn_lineTurn (conf : LineConf) (seen : List UInt8) (ch : UInt8) {s t : Session}
    (inS : Placed seen s) (inT : Placed seen t) (same : Same s t) :
    SameTurn (lineTurn conf seen ch s) (lineTurn conf seen ch t) := by
  have alike := same.toAlike
  have length := alike.length
  cases at1 : s.state with
  | start =>
    have at2 : t.state = .start := same.state ▸ at1
    have idle := inS.idle (by rw [at1]; rfl)
    have idle' := inT.idle (by rw [at2]; rfl)
    simp only [lineTurn, at1, at2]
    split
    · split
      · exact sameTurn_refuse _ _
      · exact sameTurn_lineEnds conf _ _ ch (alike.moved ⟨rfl, rfl, rfl, rfl, rfl⟩ ⟨rfl, rfl, rfl, rfl, rfl⟩) rfl idle idle'
    split
    · exact sameTurn_stay same
    · exact sameTurn_refuse _ _
  | spacesBeforeArgument =>
    have at2 : t.state = .spacesBeforeArgument := same.state ▸ at1
    have idle := inS.idle (by rw [at1]; rfl)
    have idle' := inT.idle (by rw [at2]; rfl)
    have command := same.command (by rw [at1]; rfl)
    simp only [lineTurn, at1, at2, ← length]
    split
    · exact sameTurn_stay same
    split
    · exact sameTurn_closed _ (alike.moved ⟨rfl, rfl, rfl, rfl, rfl⟩ ⟨rfl, rfl, rfl, rfl, rfl⟩) command rfl rfl
    split
    · exact sameTurn_lineDone conf _ _ (alike.moved ⟨rfl, rfl, rfl, rfl, rfl⟩ ⟨rfl, rfl, rfl, rfl, rfl⟩) command idle idle'
    split
    · exact sameTurn_goTo _ (alike.moved ⟨rfl, rfl, rfl, rfl, rfl⟩ ⟨rfl, rfl, rfl, rfl, rfl⟩) (fun _ => command)
        (fun at3 => by cases at3) (fun _ => by simp)
    · exact sameTurn_refuse _ _
  | argument =>
    have at2 : t.state = .argument := same.state ▸ at1
    have isOpen : s.state.open = true := by rw [at1]; rfl
    have command := same.command (by rw [at1]; rfl)
    have pushed := alike_pushArg alike (same.argStart isOpen) (inS.opened isOpen) (inT.opened (by rw [at2]; rfl))
    simp only [lineTurn, at1, at2, command]
    split
    · exact sameTurn_stay same
    split
    · exact sameTurn_lineEnds conf _ _ ch pushed command rfl rfl
    · exact sameTurn_stay same
  | almostDone =>
    have at2 : t.state = .almostDone := same.state ▸ at1
    simp only [lineTurn, at1, at2]
    split
    · exact sameTurn_lineDone conf _ _ alike (same.command (by rw [at1]; rfl)) (inS.idle (by rw [at1]; rfl))
        (inT.idle (by rw [at2]; rfl))
    · exact sameTurn_refuse _ _
  | _ =>
    have at2 := same.state ▸ at1
    simp only [lineTurn, at1, at2]
    exact sameTurn_stay same

theorem sameTurn_imapDone (p p' : Nat) {s t : Session} (alike : Alike s t) (command : s.command = t.command)
    (idle : s.argStart = 0) (idle' : t.argStart = 0) : SameTurn (imapDone p s) (imapDone p' t) where
  rc := rfl
  goes rc := by simp [imapDone] at rc
  ok _ := by
    simp only [imapDone, idle, idle', ne_eq, not_true_eq_false, if_false]
    exact ⟨⟨alike.args, alike.quoted, alike.noSyncLiteral, alike.literalLen⟩, command⟩

theorem sameTurn_imapEnds (p p' : Nat) (ch : UInt8) {s t : Session} (alike : Alike s t)
    (command : s.command = t.command) (idle : s.argStart = 0) (idle' : t.argStart = 0) :
    SameTurn (imapEnds p ch s) (imapEnds p' ch t) := by
  unfold imapEnds
  split
  · exact sameTurn_closed _ alike command rfl rfl
  split
  · exact sameTurn_imapDone p p' alike command idle idle'
  · exact sameTurn_closed _ alike command rfl rfl

theorem sameTurn_imapArgument (state : State) {s t : Session} (alike : Alike s t) (command : s.command = t.command)
    (closed : state.open = false) (late : state.early = false) :
    SameTurn (imapArgument s state) (imapArgument t state) := by
  unfold imapArgument
  rw [← alike.length]
  split
  · exact sameTurn_closed _ alike command closed late
  · exact sameTurn_refuse _ _

theorem sameTurn_imapTurn (ssl : Bool) (seen : List UInt8) (ch : UInt8) {s t : Session}
    (inS : Placed seen s) (inT : Placed seen t) (same : Same s t) :
    SameTurn (imapTurn ssl seen ch s) (imapTurn ssl seen ch t) := by
  have alike := same.toAlike
  have length := alike.length
  have stay := sameTurn_stay same
  have invalid : SameTurn (imapInvalid s) (imapInvalid t) := sameTurn_refuse _ _
  cases at1 : s.state with
  | start =>
    have at2 : t.state = .start := same.state ▸ at1
    simp only [imapTurn, at1, at2]
    split
    · exact sameTurn_goTo _ (alike.moved ⟨rfl, rfl, rfl, rfl, rfl⟩ ⟨rfl, rfl, rfl, rfl, rfl⟩) (fun late => by cases late)
        (fun at3 => by cases at3) (fun isOpen => by cases isOpen)
    split
    · exact sameTurn_refuse _ _
    · exact stay
  | spacesBeforeCommand =>
    have at2 : t.state = .spacesBeforeCommand := same.state ▸ at1
    simp only [imapTurn, at1, at2]
    split
    · exact stay
    split
    · exact sameTurn_refuse _ _
    · exact sameTurn_goTo _ (alike.moved ⟨rfl, rfl, rfl, rfl, rfl⟩ ⟨rfl, rfl, rfl, rfl, rfl⟩) (fun late => by cases late)
        (fun _ => by simp) (fun isOpen => by cases isOpen)
  | command =>
    have at2 : t.state = .command := same.state ▸ at1
    have idle := inS.idle (by rw [at1]; rfl)
    have idle' := inT.idle (by rw [at2]; rfl)
    simp only [imapTurn, at1, at2, ← same.cmdStart at1]
    split
    · split
      · exact invalid
      · exact sameTurn_imapEnds _ _ ch (alike.moved ⟨rfl, rfl, rfl, rfl, rfl⟩ ⟨rfl, rfl, rfl, rfl, rfl⟩) rfl idle idle'
    split
    · exact stay
    · exact invalid
  | spacesBeforeArgument =>
    have at2 : t.state = .spacesBeforeArgument := same.state ▸ at1
    have idle := inS.idle (by rw [at1]; rfl)
    have idle' := inT.idle (by rw [at2]; rfl)
    have command := same.command (by rw [at1]; rfl)
    simp only [imapTurn, at1, at2, ← length]
    split
    · exact stay
    split
    · exact sameTurn_closed _ (alike.moved ⟨rfl, rfl, rfl, rfl, rfl⟩ ⟨rfl, rfl, rfl, rfl, rfl⟩) command rfl rfl
    split
    · exact sameTurn_imapDone _ _ (alike.moved ⟨rfl, rfl, rfl, rfl, rfl⟩ ⟨rfl, rfl, rfl, rfl, rfl⟩) command idle idle'
    split
    · split
      · exact sameTurn_goTo _ ⟨alike.args, rfl, alike.noSyncLiteral, alike.literalLen⟩ (fun _ => command)
          (fun at3 => by cases at3) (fun _ => by simp only; omega)
      · exact invalid
    split
    · exact sameTurn_imapArgument _ alike command rfl rfl
    split
    · exact sameTurn_goTo _ (alike.moved ⟨rfl, rfl, rfl, rfl, rfl⟩ ⟨rfl, rfl, rfl, rfl, rfl⟩) (fun _ => command)
        (fun at3 => by cases at3) (fun _ => by simp)
    · exact invalid
  | argument =>
    have at2 : t.state = .argument := same.state ▸ at1
    have isOpen : s.state.open = true := by rw [at1]; rfl
    have command := same.command (by rw [at1]; rfl)
    have opened := inS.opened isOpen
    have opened' := inT.opened (by rw [at2]; rfl)
    have pushed := alike_pushArg alike (same.argStart isOpen) opened opened'
    simp only [imapTurn, at1, at2, ← alike.quoted]
    split
    · exact stay
    split
    · split
      · exact sameTurn_closed _ ⟨pushed.args, rfl, pushed.noSyncLiteral, pushed.literalLen⟩ command rfl rfl
      · exact stay
    split
    · exact sameTurn_imapEnds _ _ ch pushed command rfl rfl
    split
    · exact sameTurn_goTo _ ⟨alike.args, rfl, alike.noSyncLiteral, alike.literalLen⟩ (fun _ => command)
        (fun at3 => by cases at3) (fun _ => same.argStart isOpen)
    · exact stay
  | backslash =>
    have at2 : t.state = .backslash := same.state ▸ at1
    simp only [imapTurn, at1, at2]
    split
    · exact invalid
    · exact sameTurn_goTo _ alike (fun _ => same.command (by rw [at1]; rfl)) (fun at3 => by cases at3)
        (fun _ => same.argStart (by rw [at1]; rfl))
  | literal =>
    have at2 : t.state = .literal := same.state ▸ at1
    have command := same.command (by rw [at1]; rfl)
    simp only [imapTurn, at1, at2, ← alike.literalLen]
    split
    · exact ⟨rfl, fun _ => same_later ⟨alike.args, alike.quoted, alike.noSyncLiteral, rfl⟩ rfl rfl command
        (fun isOpen => by cases isOpen), fun rc => by cases rc⟩
    split
    · exact sameTurn_closed _ alike command rfl rfl
    split
    · exact sameTurn_closed _ alike command rfl rfl
    · exact invalid
  | noSyncLiteralArgument =>
    have at2 : t.state = .noSyncLiteralArgument := same.state ▸ at1
    simp only [imapTurn, at1, at2]
    split
    · exact sameTurn_closed _ ⟨alike.args, alike.quoted, rfl, alike.literalLen⟩ (same.command (by rw [at1]; rfl))
        rfl rfl
    · exact invalid
  | startLiteralArgument =>
    have at2 : t.state = .startLiteralArgument := same.state ▸ at1
    have command := same.command (by rw [at1]; rfl)
    simp only [imapTurn, at1, at2, ← alike.noSyncLiteral]
    split
    · exact stay
    split
    · split
      · exact ⟨rfl, fun _ => same_later ⟨alike.args, alike.quoted, rfl, alike.literalLen⟩ rfl rfl command
          (fun _ => by simp only; omega), fun rc => by cases rc⟩
      · exact ⟨rfl, fun _ => same_later ⟨alike.args, alike.quoted, rfl, alike.literalLen⟩ rfl rfl command
          (fun _ => by simp only; omega), fun rc => by cases rc⟩
    · exact invalid
  | literalArgument =>
    have at2 : t.state = .literalArgument := same.state ▸ at1
    have isOpen : s.state.open = true := by rw [at1]; rfl
    have command := same.command (by rw [at1]; rfl)
    have opened := inS.opened isOpen
    have opened' := inT.opened (by rw [at2]; rfl)
    have less : Alike { s with literalLen := s.literalLen - 1 } { t with literalLen := s.literalLen - 1 } :=
      ⟨alike.args, alike.quoted, alike.noSyncLiteral, rfl⟩
    simp only [imapTurn, at1, at2, ← alike.literalLen]
    split
    · exact sameTurn_goTo .literalArgument less (fun _ => command) (fun at3 => by cases at3)
        (fun _ => same.argStart isOpen)
    · have pushed : Alike (pushArg (s.start + (seen.length + 1)) { s with literalLen := s.literalLen - 1 })
          (pushArg (t.start + (seen.length + 1)) { t with literalLen := s.literalLen - 1 }) :=
        alike_pushArg less (same.argStart isOpen) ⟨opened.1, Nat.le_succ_of_le opened.2⟩
          ⟨opened'.1, Nat.le_succ_of_le opened'.2⟩
      exact sameTurn_closed _ ⟨pushed.args, pushed.quoted, pushed.noSyncLiteral, pushed.literalLen⟩ command rfl rfl
  | endLiteralArgument =>
    have at2 : t.state = .endLiteralArgument := same.state ▸ at1
    have idle := inS.idle (by rw [at1]; rfl)
    have idle' := inT.idle (by rw [at2]; rfl)
    have command := same.command (by rw [at1]; rfl)
    simp only [imapTurn, at1, at2]
    split
    · exact sameTurn_imapArgument _ alike command rfl rfl
    · exact sameTurn_imapEnds _ _ ch alike command idle idle'
  | almostDone =>
    have at2 : t.state = .almostDone := same.state ▸ at1
    simp only [imapTurn, at1, at2]
    split
    · exact sameTurn_imapDone _ _ alike (same.command (by rw [at1]; rfl)) (inS.idle (by rw [at1]; rfl))
        (inT.idle (by rw [at2]; rfl))
    · exact invalid

theorem sameTurn_turn (ssl : Bool) (protocol : Protocol) (seen : List UInt8) (ch : UInt8) {s t : Session}
    (inS : Placed seen s) (inT : Placed seen t) (same : Same s t) :
    SameTurn (turn ssl protocol seen ch s) (turn ssl protocol seen ch t) := by
  cases protocol with
  | pop3 => exact sameTurn_lineTurn _ seen ch inS inT same
  | imap => exact sameTurn_imapTurn ssl seen ch inS inT same
  | smtp => exact sameTurn_lineTurn _ seen ch inS inT same

/-- The outcome of a line, byte by byte, however it comes. -/
def lineResult (ssl : Bool) (protocol : Protocol) : List UInt8 → List UInt8 → Session → Option Outcome
  | _, [], _ => none
  | seen, ch :: rest, s =>
    match turn ssl protocol seen ch s with
    | (s, none) | (s, some .imapNext) => lineResult ssl protocol (seen ++ [ch]) rest s
    | (s, some .ok) => some (.ok s.command (s.args.map (argBytes s.start (seen ++ [ch]))))
    | (_, some .parseInvalidCommand) => some .parseInvalidCommand
    | (_, some .again) => none

theorem argBytes_eq (start : Nat) (buf : List UInt8) :
    argBytes start buf = (fun slice : Nat × Nat => (buf.drop slice.1).take slice.2) ∘ Str.within start := rfl

theorem lineResult_same (ssl : Bool) (protocol : Protocol) (seen rest : List UInt8) {s t : Session}
    (inS : Placed seen s) (inT : Placed seen t) (same : Same s t) :
    lineResult ssl protocol seen rest s = lineResult ssl protocol seen rest t := by
  induction rest generalizing seen s t with
  | nil => rfl
  | cons ch rest ih =>
    have turns := sameTurn_turn ssl protocol seen ch inS inT same
    have specS := turnSpec_turn ssl protocol ch inS
    have specT := turnSpec_turn ssl protocol ch inT
    unfold lineResult
    generalize turn ssl protocol seen ch s = r at turns specS
    generalize turn ssl protocol seen ch t = r' at turns specT
    obtain ⟨u, rc⟩ := r
    obtain ⟨v, rc'⟩ := r'
    obtain rfl : rc = rc' := turns.rc
    match rc with
    | none => exact ih _ (specS.goes rfl) (specT.goes rfl) (turns.goes (.inl rfl))
    | some .imapNext => exact ih _ (specS.next rfl).1 (specT.next rfl).1 (turns.goes (.inr rfl))
    | some .parseInvalidCommand => rfl
    | some .again => rfl
    | some .ok =>
      have ok := turns.ok rfl
      have args : u.args.map (argBytes u.start (seen ++ [ch])) = v.args.map (argBytes v.start (seen ++ [ch])) := by
        rw [argBytes_eq, argBytes_eq, ← List.map_map, ← List.map_map, ok.1.args]
      have command : u.command = v.command := ok.2
      simp only [args, command]

theorem lineResult_append (ssl : Bool) (protocol : Protocol) (seen rest more : List UInt8) {s : Session}
    {outcome : Outcome} (result : lineResult ssl protocol seen rest s = some outcome) :
    lineResult ssl protocol seen (rest ++ more) s = some outcome := by
  induction rest generalizing seen s with
  | nil => simp [lineResult] at result
  | cons ch rest ih =>
    rw [List.cons_append]
    unfold lineResult at result ⊢
    generalize turn ssl protocol seen ch s = r at result ⊢
    obtain ⟨t, rc⟩ := r
    match rc with
    | none => exact ih _ result
    | some .imapNext => exact ih _ result
    | some .parseInvalidCommand => exact result
    | some .again => exact result
    | some .ok => exact result

theorem argBytes_append {start : Nat} {seen : List UInt8} (rest : List UInt8) {arg : Str}
    (above : start ≤ arg.data) (below : arg.data + arg.len ≤ start + seen.length) :
    argBytes start (seen ++ rest) arg = argBytes start seen arg := by
  simp only [argBytes]
  rw [List.drop_append_of_le_length (by omega), List.take_append_of_le_length]
  simp only [List.length_drop]
  omega

theorem same_pos (s : Session) (pos : Nat) : Same s { s with pos := pos } :=
  ⟨⟨rfl, rfl, rfl, rfl⟩, rfl, fun _ => rfl, fun _ => rfl, fun _ => rfl⟩

/-- What a read makes of the line: the parser stops, and the next read goes on behind it. -/
structure Reads (ssl : Bool) (protocol : Protocol) (result : List UInt8 → Option Outcome) (r : Session × Rc) :
    Prop where
  waits : r.2 = .again ∨ r.2 = .imapNext → ∀ more,
    result more = lineResult ssl protocol r.1.seen (r.1.unread ++ more) r.1
  ok : r.2 = .ok → ∀ more, result more = some (.ok r.1.command (r.1.args.map (argBytes r.1.start r.1.buf)))
  invalid : r.2 = .parseInvalidCommand → ∀ more, result more = some .parseInvalidCommand

theorem reads_parseLoop (ssl : Bool) (protocol : Protocol) (seen rest : List UInt8) {s : Session}
    (buf : s.buf = seen ++ rest) (placed : Placed seen s) :
    Reads ssl protocol (fun more => lineResult ssl protocol seen (rest ++ more) s)
      (parseLoop ssl protocol seen rest s) := by
  induction rest generalizing seen s with
  | nil =>
    have all : s.buf = seen := by simpa using buf
    refine ⟨fun _ more => ?_, (fun never => by cases never), (fun never => by cases never)⟩
    have seenAll : ({ s with pos := s.start + seen.length } : Session).seen = seen := by simp [Session.seen, all]
    have unread : ({ s with pos := s.start + seen.length } : Session).unread = [] := by simp [Session.unread, all]
    simp only [parseLoop, seenAll, unread, List.nil_append]
    exact lineResult_same ssl protocol seen more placed ⟨placed.idle, placed.opened, placed.slices, placed.early⟩
      (same_pos s _)
  | cons ch rest ih =>
    have spec := turnSpec_turn ssl protocol ch placed
    simp only [List.cons_append]
    unfold parseLoop lineResult
    generalize turn ssl protocol seen ch s = r at spec
    obtain ⟨t, rc⟩ := r
    have whole : t.buf = seen ++ [ch] ++ rest := by rw [List.append_assoc]; exact spec.buf.trans buf
    have start : t.start = s.start := spec.start
    rcases rc with _ | _ | _ | _ | _
    · exact ih _ whole (spec.goes rfl)
    case some.again => exact absurd rfl spec.ends
    case some.parseInvalidCommand => exact ⟨by simp, by simp, fun _ _ => rfl⟩
    case some.imapNext =>
      have pos : t.pos - t.start = (seen ++ [ch]).length := by
        have pos : t.pos = s.start + seen.length + 1 := (spec.next rfl).2
        rw [List.length_append, List.length_singleton]
        omega
      refine ⟨fun _ more => ?_, by simp, by simp⟩
      simp only [Session.seen, Session.unread, pos, whole, List.take_left, List.drop_left]
    case some.ok =>
      refine ⟨by simp, fun _ more => ?_, by simp⟩
      have args : t.args.map (argBytes t.start (seen ++ [ch])) = t.args.map (argBytes t.start t.buf) := by
        refine List.map_congr_left fun arg mem => ?_
        have slice := spec.slices arg mem
        dsimp only at slice
        rw [whole, argBytes_append rest slice.1 (by simpa using slice.2)]
      simp only [args]

theorem reads_readCommand (ssl : Bool) {protocol : Protocol} {s : Session} (ready : Ready protocol s)
    (bytes : List UInt8) :
    Reads ssl protocol (fun more => lineResult ssl protocol s.seen (s.unread ++ (bytes ++ more)) s)
      (readCommand ssl protocol s bytes) := by
  have recv := ready.recv bytes
  have within : s.pos - s.start ≤ s.buf.length := by
    have := ready.below
    omega
  have seen : ({ s with buf := s.buf ++ bytes } : Session).seen = s.seen :=
    List.take_append_of_le_length within
  have unread : ({ s with buf := s.buf ++ bytes } : Session).unread = s.unread ++ bytes :=
    List.drop_append_of_le_length within
  have reads := reads_parseLoop ssl protocol _ _ (List.take_append_drop _ _).symm recv.placed
  have same : ∀ more, lineResult ssl protocol s.seen (s.unread ++ (bytes ++ more)) s =
      lineResult ssl protocol s.seen (s.unread ++ bytes ++ more) { s with buf := s.buf ++ bytes } := fun more => by
    rw [List.append_assoc]
    exact lineResult_same ssl protocol s.seen _ ready.placed (seen ▸ recv.placed)
      ⟨⟨rfl, rfl, rfl, rfl⟩, rfl, fun _ => rfl, fun _ => rfl, fun _ => rfl⟩
  simp only [same]
  exact seen ▸ unread ▸ reads

/-- What the parser makes of a line is what its bytes say, however they are cut into reads. -/
theorem lineOutcome_eq (ssl : Bool) {protocol : Protocol} (reads : List (List UInt8)) {s : Session}
    (ready : Ready protocol s) {outcome : Outcome} (eq : lineOutcome ssl protocol s reads = some outcome) :
    lineResult ssl protocol s.seen (s.unread ++ reads.flatten) s = some outcome := by
  induction reads generalizing s with
  | nil => simp [lineOutcome] at eq
  | cons bytes rest ih =>
    have read := reads_readCommand ssl ready bytes
    have parsed := parsed_parseCommand ssl (ready.recv bytes)
    rw [List.flatten_cons]
    unfold lineOutcome at eq
    change Parsed protocol _ (readCommand ssl protocol s bytes) at parsed
    generalize readCommand ssl protocol s bytes = r at eq read parsed
    obtain ⟨t, rc⟩ := r
    match rc with
    | .ok => exact (read.ok rfl _).trans eq
    | .parseInvalidCommand => exact (read.invalid rfl _).trans eq
    | .again => exact (read.waits (.inl rfl) _).trans (ih (parsed.waits (.inl rfl)) eq)
    | .imapNext => exact (read.waits (.inr rfl) _).trans (ih (parsed.waits (.inr rfl)) eq)

/-- Two sessions with the same bytes in their buffers. -/
structure Twins (s t : Session) : Prop where
  same : Same s t
  buf : s.buf = t.buf
  pos : s.pos - s.start = t.pos - t.start

structure TwinReads (r r' : Session × Rc) : Prop where
  rc : r.2 = r'.2
  waits : r.2 = .again ∨ r.2 = .imapNext → Twins r.1 r'.1
  ok : r.2 = .ok → Alike r.1 r'.1 ∧ r.1.command = r'.1.command ∧ r.1.buf = r'.1.buf

theorem twins_parseLoop (ssl : Bool) (protocol : Protocol) (seen rest : List UInt8) {s t : Session}
    (inS : Placed seen s) (inT : Placed seen t) (same : Same s t) (buf : s.buf = t.buf) :
    TwinReads (parseLoop ssl protocol seen rest s) (parseLoop ssl protocol seen rest t) := by
  induction rest generalizing seen s t with
  | nil =>
    refine ⟨rfl, fun _ => ⟨⟨⟨?_, ?_, ?_, ?_⟩, ?_, ?_, ?_, ?_⟩, buf, ?_⟩, (fun never => by cases never)⟩
    · exact same.args
    · exact same.quoted
    · exact same.noSyncLiteral
    · exact same.literalLen
    · exact same.state
    · exact same.command
    · exact same.cmdStart
    · exact same.argStart
    · simp [parseLoop]
  | cons ch rest ih =>
    have turns := sameTurn_turn ssl protocol seen ch inS inT same
    have specS := turnSpec_turn ssl protocol ch inS
    have specT := turnSpec_turn ssl protocol ch inT
    unfold parseLoop
    generalize turn ssl protocol seen ch s = r at turns specS
    generalize turn ssl protocol seen ch t = r' at turns specT
    obtain ⟨u, rc⟩ := r
    obtain ⟨v, rc'⟩ := r'
    obtain rfl : rc = rc' := turns.rc
    have buf : u.buf = v.buf := specS.buf.trans (buf.trans specT.buf.symm)
    rcases rc with _ | _ | _ | _ | _
    · exact ih _ (specS.goes rfl) (specT.goes rfl) (turns.goes (.inl rfl)) buf
    case some.again => exact absurd rfl specS.ends
    case some.parseInvalidCommand => exact ⟨rfl, by simp, by simp⟩
    case some.ok => exact ⟨rfl, by simp, fun _ => ⟨(turns.ok rfl).1, (turns.ok rfl).2, buf⟩⟩
    case some.imapNext =>
      refine ⟨rfl, fun _ => ⟨turns.goes (.inr rfl), buf, ?_⟩, by simp⟩
      have pos : u.pos = s.start + seen.length + 1 := (specS.next rfl).2
      have pos' : v.pos = t.start + seen.length + 1 := (specT.next rfl).2
      have start : u.start = s.start := specS.start
      have start' : v.start = t.start := specT.start
      dsimp only
      omega

theorem twins_readCommand (ssl : Bool) {protocol : Protocol} {s t : Session} (readyS : Ready protocol s)
    (readyT : Ready protocol t) (twins : Twins s t) (bytes : List UInt8) :
    TwinReads (readCommand ssl protocol s bytes) (readCommand ssl protocol t bytes) := by
  have same : Same { s with buf := s.buf ++ bytes } { t with buf := t.buf ++ bytes } :=
    ⟨⟨twins.same.args, twins.same.quoted, twins.same.noSyncLiteral, twins.same.literalLen⟩, twins.same.state,
      twins.same.command, twins.same.cmdStart, twins.same.argStart⟩
  have buf : s.buf ++ bytes = t.buf ++ bytes := by rw [twins.buf]
  have seen : ({ t with buf := t.buf ++ bytes } : Session).seen =
      ({ s with buf := s.buf ++ bytes } : Session).seen := by
    simp only [Session.seen, twins.buf, twins.pos]
  have unread : ({ t with buf := t.buf ++ bytes } : Session).unread =
      ({ s with buf := s.buf ++ bytes } : Session).unread := by
    simp only [Session.unread, twins.buf, twins.pos]
  have reads := twins_parseLoop ssl protocol _ ({ s with buf := s.buf ++ bytes } : Session).unread
    (readyS.recv bytes).placed (seen ▸ (readyT.recv bytes).placed) same buf
  unfold readCommand parseCommand
  change TwinReads _ (parseLoop ssl protocol ({ t with buf := t.buf ++ bytes } : Session).seen
    ({ t with buf := t.buf ++ bytes } : Session).unread _)
  rw [seen, unread]
  exact reads

theorem lineOutcome_twins (ssl : Bool) {protocol : Protocol} (reads : List (List UInt8)) {s t : Session}
    (readyS : Ready protocol s) (readyT : Ready protocol t) (twins : Twins s t) :
    lineOutcome ssl protocol s reads = lineOutcome ssl protocol t reads := by
  induction reads generalizing s t with
  | nil => rfl
  | cons bytes rest ih =>
    have read := twins_readCommand ssl readyS readyT twins bytes
    have parsedS := parsed_parseCommand ssl (readyS.recv bytes)
    have parsedT := parsed_parseCommand ssl (readyT.recv bytes)
    change Parsed protocol _ (readCommand ssl protocol s bytes) at parsedS
    change Parsed protocol _ (readCommand ssl protocol t bytes) at parsedT
    unfold lineOutcome
    generalize readCommand ssl protocol s bytes = r at read parsedS
    generalize readCommand ssl protocol t bytes = r' at read parsedT
    obtain ⟨u, rc⟩ := r
    obtain ⟨v, rc'⟩ := r'
    obtain rfl : rc = rc' := read.rc
    match rc with
    | .again => exact ih (parsedS.waits (.inl rfl)) (parsedT.waits (.inl rfl)) (read.waits (.inl rfl))
    | .imapNext => exact ih (parsedS.waits (.inr rfl)) (parsedT.waits (.inr rfl)) (read.waits (.inr rfl))
    | .parseInvalidCommand => rfl
    | .ok =>
      obtain ⟨alike, command, buf⟩ := read.ok rfl
      dsimp only at alike command buf
      have args : u.args.map (argBytes u.start u.buf) = v.args.map (argBytes v.start v.buf) := by
        rw [buf, argBytes_eq, argBytes_eq, ← List.map_map, ← List.map_map, alike.args]
      simp only [args, command]

theorem twins_start {protocol : Protocol} {s t : Session} (heldS : Held protocol s) (heldT : Held protocol t)
    (startS : AtLineStart s) (startT : AtLineStart t) : Twins s t := by
  have clean : ∀ {u : Session}, Held protocol u → AtLineStart u → Unset u ∧ u.args = [] ∧ u.pos - u.start = 0 := by
    rintro u held ⟨state, buf⟩
    refine ⟨held.settled.unset (by simp [state]) (by simp [state]), held.ready.placed.early (by rw [state]; rfl), ?_⟩
    have below := held.ready.below
    rw [buf, List.length_nil] at below
    omega
  have cleanS := clean heldS startS
  have cleanT := clean heldT startT
  refine ⟨⟨⟨?_, ?_, ?_, ?_⟩, ?_, fun late => ?_, fun at1 => ?_, fun isOpen => ?_⟩, ?_, ?_⟩
  · rw [cleanS.2.1, cleanT.2.1, List.map_nil, List.map_nil]
  · rw [cleanS.1.quoted, cleanT.1.quoted]
  · rw [cleanS.1.noSyncLiteral, cleanT.1.noSyncLiteral]
  · rw [cleanS.1.literalLen, cleanT.1.literalLen]
  · rw [startS.1, startT.1]
  · simp [startS.1, State.early] at late
  · simp [startS.1] at at1
  · simp [startS.1, State.open] at isOpen
  · rw [startS.2, startT.2]
  · rw [cleanS.2.2, cleanT.2.2]

end NgxFormal.Mail

/-! A command line means the same behind any history in which no line ends inside a quoted string. -/

namespace NgxFormal.Mail

theorem slices_readCommand (ssl : Bool) {protocol : Protocol} {s : Session} (held : Held protocol s)
    (bytes : List UInt8) :
    let r := readCommand ssl protocol s bytes
    Slices r.1 r.1.buf.length ∧ (r.2 ≠ .parseInvalidCommand → Slices r.1 (r.1.pos - r.1.start)) := by
  have parsed := parsed_parseCommand ssl (held.ready.recv bytes)
  exact ⟨by rw [readCommand, parsed.buf]; exact parsed.slices, parsed.before⟩

/-- Two sessions at the start of a line agree on it, however it is cut. -/
theorem outcomes_agree (ssl : Bool) {protocol : Protocol} {s t : Session} (heldS : Held protocol s)
    (heldT : Held protocol t) (startS : AtLineStart s) (startT : AtLineStart t) {reads reads' : List (List UInt8)}
    {outcome outcome' : Outcome} (within : reads.flatten <+: reads'.flatten)
    (first : lineOutcome ssl protocol s reads = some outcome)
    (second : lineOutcome ssl protocol t reads' = some outcome') : outcome = outcome' := by
  obtain ⟨more, whole⟩ := within
  have twins := twins_start heldS heldT startS startT
  have seen : s.seen = t.seen := by rw [Session.seen, Session.seen, twins.pos, twins.buf]
  have unread : s.unread = t.unread := by rw [Session.unread, Session.unread, twins.pos, twins.buf]
  have first := lineResult_append ssl protocol _ _ more (lineOutcome_eq ssl reads heldS.ready first)
  have second := lineOutcome_eq ssl reads' heldT.ready second
  have same := lineResult_same ssl protocol s.seen (s.unread ++ reads'.flatten) heldS.ready.placed
    (seen ▸ heldT.ready.placed) twins.same
  rw [List.append_assoc, whole] at first
  rw [← seen, ← unread] at second
  exact Option.some.inj (first.symm.trans (same.trans second))

/-- Every argument is a part of what has been parsed, and the outcome of a line depends on its bytes alone:
not on the history, nor on how the line is cut into reads, nor on what follows it. Only IMAP has quoted
strings. -/
theorem outcome_independent (ssl : Bool) (protocol : Protocol) {start start' : Nat} (placed : 0 < start)
    (placed' : 0 < start') (history history' : List (List UInt8 × Reply))
    (careful : protocol = .imap → Careful ssl protocol (Session.init start placed) history ∧
      Careful ssl protocol (Session.init start' placed') history') :
    let s := runSession ssl protocol (Session.init start placed) history
    let t := runSession ssl protocol (Session.init start' placed') history'
    (∀ bytes, let r := readCommand ssl protocol s bytes
      Slices r.1 r.1.buf.length ∧ (r.2 ≠ .parseInvalidCommand → Slices r.1 (r.1.pos - r.1.start))) ∧
    (AtLineStart s → AtLineStart t →
      (∀ reads, lineOutcome ssl protocol s reads = lineOutcome ssl protocol t reads) ∧
      ∀ reads reads' outcome outcome', reads.flatten <+: reads'.flatten →
        lineOutcome ssl protocol s reads = some outcome → lineOutcome ssl protocol t reads' = some outcome' →
        outcome = outcome') := by
  have held : ∀ {start : Nat} (placed : 0 < start) (history : List (List UInt8 × Reply)),
      (protocol = .imap → Careful ssl protocol (Session.init start placed) history) →
      Held protocol (runSession ssl protocol (Session.init start placed) history) := by
    intro start placed history careful
    have init := held_init protocol start placed
    by_cases imap : protocol = .imap
    · exact held_runSession ssl history init (careful imap)
    · exact held_runSession ssl history init (careful_line ssl imap history init)
  have heldS := held placed history fun imap => (careful imap).1
  have heldT := held placed' history' fun imap => (careful imap).2
  exact ⟨fun bytes => slices_readCommand ssl heldS bytes, fun startS startT =>
    ⟨fun reads => lineOutcome_twins ssl reads heldS.ready heldT.ready (twins_start heldS heldT startS startT),
      fun reads reads' outcome outcome' => outcomes_agree ssl heldS heldT startS startT⟩⟩

def bytesOf (text : String) : List UInt8 := text.toList.map chr

instance decidableUnbroken (ssl : Bool) (protocol : Protocol) :
    ∀ (seen rest : List UInt8) (s : Session), Decidable (Unbroken ssl protocol seen rest s)
  | _, [], _ => .isTrue trivial
  | seen, ch :: rest, s =>
    have := decidableUnbroken ssl protocol (seen ++ [ch]) rest (turn ssl protocol seen ch s).1
    inferInstanceAs (Decidable (¬_ ∧ (_ → _)))

/-- A login of two quoted arguments behind another command. -/
theorem outcome_independent_login :
    let s := runSession false .imap (Session.init 1 (by decide)) [(bytesOf "a NOOP\r\n", .ok)]
    let t := runSession false .imap (Session.init 1 (by decide)) []
    ∃ outcome, lineOutcome false .imap s [bytesOf "b LOGIN \"x y\" z\r\n"] = some outcome ∧
      lineOutcome false .imap t [bytesOf "b LOGIN \"x", bytesOf " y\" z\r\n"] = some outcome := by
  have careful : UnbrokenRead false .imap (Session.init 1 (by decide)) (bytesOf "a NOOP\r\n") := by
    unfold UnbrokenRead
    decide +kernel
  have second : lineOutcome false .imap (runSession false .imap (Session.init 1 (by decide)) [])
      [bytesOf "b LOGIN \"x", bytesOf " y\" z\r\n"] = some (.ok 1 [bytesOf "x y", bytesOf "z"]) := by
    decide +kernel
  have starts : AtLineStart (runSession false .imap (Session.init 1 (by decide)) [(bytesOf "a NOOP\r\n", .ok)]) :=
    ⟨by decide +kernel, by decide +kernel⟩
  have same := ((outcome_independent false .imap Nat.one_pos Nat.one_pos [(bytesOf "a NOOP\r\n", .ok)] []
    fun _ => ⟨⟨careful, trivial⟩, trivial⟩).2 starts ⟨rfl, rfl⟩).1 [bytesOf "b LOGIN \"x y\" z\r\n"]
  refine ⟨_, same.trans ?_, second⟩
  decide +kernel

/-- A line that ends inside a quoted string: the next arguments are taken for a quoted one, and behind a
backslash an argument of the line is left for the next. -/
theorem outcome_dependent :
    ¬(∀ history, AtLineStart (runSession false .imap (Session.init 1 (by decide)) history) →
      ∀ reads, lineOutcome false .imap (runSession false .imap (Session.init 1 (by decide)) history) reads =
        lineOutcome false .imap (Session.init 1 (by decide)) reads) ∧
    ¬(∀ history bytes, let s := runSession false .imap (Session.init 1 (by decide)) history
      let r := readCommand false .imap s bytes
      r.2 ≠ .parseInvalidCommand → Slices r.1 (r.1.pos - r.1.start)) := by
  refine ⟨fun independent => ?_, fun slices => ?_⟩
  · have same := independent [(bytesOf "a LOGIN \"x\r\n", .parseInvalidCommand)] ⟨by decide +kernel, by decide +kernel⟩
      [bytesOf "b LOGIN y z\r\n"]
    revert same
    decide +kernel
  · have slices := slices [(bytesOf "a LOGIN \"x\\\r\n", .ok)] (bytesOf "b NOOP\r\n") (by decide +kernel)
    revert slices
    unfold Slices
    decide +kernel

end NgxFormal.Mail
