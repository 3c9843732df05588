import NgxFormal.Mail.Turns

/-! The reads of a session: what the parser and the handlers leave behind for the next one. -/

namespace NgxFormal.Mail

/-- The tag of a started line is a part of what has been parsed. -/
def Tagged (protocol : Protocol) (parsed : Nat) (s : Session) : Prop :=
  protocol = .imap → s.state ≠ .start → s.tag.len ≤ parsed

/-- The bytes between `buffer->start` and `buffer->pos`. -/
def Session.seen (s : Session) : List UInt8 := s.buf.take (s.pos - s.start)

def Session.unread (s : Session) : List UInt8 := s.buf.drop (s.pos - s.start)

structure Ready (protocol : Protocol) (s : Session) : Prop where
  above : s.start ≤ s.pos
  below : s.pos ≤ s.start + s.buf.length
  placed : Placed s.seen s
  tagged : Tagged protocol (s.pos - s.start) s

theorem tag_imapTurn (ssl : Bool) (seen : List UInt8) (ch : UInt8) (s : Session) :
    (imapTurn ssl seen ch s).1.tag = s.tag ∧ (s.state = .start → (imapTurn ssl seen ch s).1.state = .start) ∨
      (imapTurn ssl seen ch s).1.tag = ⟨seen.length + 1, s.start⟩ := by
  by_cases state : s.state = .start
  · simp only [imapTurn, state]
    split
    · exact .inr (by simp [goTo])
    split
    · exact .inl ⟨rfl, fun _ => rfl⟩
    · exact .inl ⟨rfl, fun _ => state⟩
  · refine .inl ⟨?_, fun begins => absurd begins state⟩
    have done : ∀ p t, (imapDone p t).1.tag = t.tag := fun p t => by
      simp only [imapDone]
      split <;> rfl
    have ends : ∀ p t, (imapEnds p ch t).1.tag = t.tag := fun p t => by
      simp only [imapEnds]
      split_ifs <;> first | rfl | exact done p t
    have argument : ∀ t state, (imapArgument t state).1.tag = t.tag := fun t state => by
      simp only [imapArgument]
      split_ifs <;> rfl
    unfold imapTurn
    cases at1 : s.state with
    | start => exact absurd at1 state
    | command =>
      dsimp only
      split_ifs
      · split
        · rfl
        · exact ends _ _
      · rfl
      · rfl
    | _ =>
      simp only
      split_ifs <;> first | rfl | exact done _ _ | exact ends _ _ | exact argument _ _

theorem tagged_turn (ssl : Bool) (protocol : Protocol) {seen : List UInt8} (ch : UInt8) {s : Session}
    (tagged : Tagged protocol seen.length s) : Tagged protocol (seen.length + 1) (turn ssl protocol seen ch s).1 := by
  rintro rfl going
  rcases tag_imapTurn ssl seen ch s with ⟨same, starts⟩ | tag
  · exact same ▸ Nat.le_succ_of_le (tagged rfl fun start => going (starts start))
  · exact (congrArg Str.len tag).le

/-- What the parser makes of what is in the buffer. -/
structure Parsed (protocol : Protocol) (s : Session) (r : Session × Rc) : Prop where
  start : r.1.start = s.start
  buf : r.1.buf = s.buf
  slices : Slices r.1 s.buf.length
  before : r.2 ≠ .parseInvalidCommand → Slices r.1 (r.1.pos - r.1.start)
  waits : r.2 = .again ∨ r.2 = .imapNext → Ready protocol r.1
  ok : r.2 = .ok → r.1.argStart = 0 ∧ (r.1.state = .start ∨ r.1.state = .argument) ∧ Tagged protocol s.buf.length r.1

theorem take_append_cons (seen : List UInt8) (ch : UInt8) (rest : List UInt8) :
    (seen ++ ch :: rest).take (seen.length + 1) = seen ++ [ch] := by
  rw [List.take_length_add_append, List.take_succ_cons, List.take_zero]

theorem parsed_parseLoop (ssl : Bool) (protocol : Protocol) (seen rest : List UInt8) (s : Session)
    (buf : s.buf = seen ++ rest) (placed : Placed seen s) (tagged : Tagged protocol seen.length s) :
    Parsed protocol s (parseLoop ssl protocol seen rest s) := by
  induction rest generalizing seen s with
  | nil =>
    have all : s.buf = seen := by simpa using buf
    refine { start := rfl, buf := rfl, slices := ?_, before := fun _ => ?_, waits := fun _ => ?_, ok := (fun never => by cases never) }
    · exact all ▸ placed.slices
    · simpa [parseLoop, Slices] using placed.slices
    · refine ⟨Nat.le_add_right _ _, by simp [parseLoop, all], ?_, ?_⟩
      · simpa [parseLoop, Session.seen, all] using (⟨placed.idle, placed.opened, placed.slices, placed.early⟩ :
          Placed seen { s with pos := s.start + seen.length })
      · simpa [parseLoop, Tagged] using tagged
  | cons ch rest ih =>
    have spec := turnSpec_turn ssl protocol ch placed
    have tagged := tagged_turn ssl protocol ch tagged
    have within : seen.length + 1 ≤ s.buf.length := by simp [buf]
    unfold parseLoop
    split
    next t eq =>
      rw [eq] at spec tagged
      have whole : t.buf = seen ++ [ch] ++ rest := by rw [List.append_assoc]; exact spec.buf.trans buf
      have parsed := ih (seen ++ [ch]) t whole (spec.goes rfl) (by simpa using tagged)
      exact
        { start := parsed.start.trans spec.start
          buf := parsed.buf.trans spec.buf
          slices := spec.buf ▸ parsed.slices
          before := parsed.before
          waits := parsed.waits
          ok := fun rc => spec.buf ▸ parsed.ok rc }
    next t rc eq =>
      rw [eq] at spec tagged
      have seenAt : t.pos = s.start + seen.length + 1 → t.pos - t.start = seen.length + 1 := fun pos => by
        rw [pos, spec.start]
        omega
      refine
        { start := spec.start
          buf := spec.buf
          slices := spec.slices.grow within
          before := fun valid => ?_
          waits := fun waits => ?_
          ok := fun done => ?_ }
      · cases rc with
        | ok => exact (seenAt (spec.ok rfl).2.1).symm ▸ spec.slices
        | imapNext => exact (seenAt (spec.next rfl).2).symm ▸ spec.slices
        | again => exact absurd rfl spec.ends
        | parseInvalidCommand => exact absurd rfl valid
      · obtain rfl : rc = .imapNext := waits.resolve_left fun again => spec.ends (congrArg some again)
        have next := spec.next rfl
        have start : t.start = s.start := spec.start
        have pos : t.pos = s.start + seen.length + 1 := next.2
        have whole : t.buf.length = s.buf.length := congrArg List.length spec.buf
        refine ⟨?_, ?_, ?_, ?_⟩
        · show t.start ≤ t.pos
          omega
        · show t.pos ≤ t.start + t.buf.length
          omega
        · have seen : t.seen = seen ++ [ch] := by
            rw [Session.seen, seenAt next.2, spec.buf, buf, take_append_cons]
          exact seen ▸ next.1
        · rw [seenAt next.2]
          exact tagged
      · subst done
        exact ⟨(spec.ok rfl).1, (spec.ok rfl).2.2, fun imap going => (tagged imap going).trans within⟩

/-- What the parser leaves set when no line ends inside a quoted string. -/
structure Calm (protocol : Protocol) (r : Session × Rc) : Prop where
  waits : r.2 = .again ∨ r.2 = .imapNext → Settled protocol r.1
  ends : r.2 = .ok ∨ r.2 = .parseInvalidCommand → Unset r.1 ∧ r.1.argStart = 0

theorem calm_parseLoop (ssl : Bool) (protocol : Protocol) (seen rest : List UInt8) (s : Session)
    (placed : Placed seen s) (settled : Settled protocol s) (unbroken : Unbroken ssl protocol seen rest s) :
    Calm protocol (parseLoop ssl protocol seen rest s) := by
  induction rest generalizing seen s with
  | nil =>
    exact ⟨fun _ => ⟨settled.quoted, settled.noSyncLiteral, settled.literalLen, fun line =>
      ⟨⟨(settled.imap line).1.quoted, (settled.imap line).1.noSyncLiteral, (settled.imap line).1.literalLen⟩,
        (settled.imap line).2⟩⟩, fun ends => by simp [parseLoop] at ends⟩
  | cons ch rest ih =>
    have spec := turnSpec_turn ssl protocol ch placed
    have settledTurn := settledTurn_turn ssl protocol seen ch settled unbroken.1
    unfold parseLoop
    split
    next t eq =>
      have goes := unbroken.2 (by rw [eq])
      rw [eq] at spec settledTurn goes
      exact ih _ t (spec.goes rfl) (settledTurn.goes (.inl rfl)) goes
    next t rc eq =>
      rw [eq] at spec settledTurn
      cases rc with
      | again => exact absurd rfl spec.ends
      | imapNext => exact ⟨fun _ => settledTurn.goes (.inr rfl), fun ends => by simp at ends⟩
      | ok => exact ⟨fun waits => by simp at waits, fun _ => ⟨settledTurn.ends (.inl rfl), (spec.ok rfl).1⟩⟩
      | parseInvalidCommand =>
        exact ⟨fun waits => by simp at waits,
          fun _ => ⟨settledTurn.ends (.inr rfl), spec.invalid rfl unbroken.1⟩⟩

theorem Session.seen_length {protocol : Protocol} {s : Session} (ready : Ready protocol s) :
    s.seen.length = s.pos - s.start := by
  have := ready.above
  have := ready.below
  simp only [Session.seen, List.length_take]
  omega

theorem Ready.recv {protocol : Protocol} {s : Session} (ready : Ready protocol s) (bytes : List UInt8) :
    Ready protocol { s with buf := s.buf ++ bytes } := by
  have above := ready.above
  have below := ready.below
  have seen : ({ s with buf := s.buf ++ bytes } : Session).seen = s.seen := by
    simp only [Session.seen]
    exact List.take_append_of_le_length (by omega)
  refine ⟨above, ?_, ?_, ready.tagged⟩
  · simp only [List.length_append]
    omega
  · rw [seen]
    exact ⟨ready.placed.idle, ready.placed.opened, ready.placed.slices, ready.placed.early⟩

theorem Settled.recv {protocol : Protocol} {s : Session} (settled : Settled protocol s) (bytes : List UInt8) :
    Settled protocol { s with buf := s.buf ++ bytes } :=
  ⟨settled.quoted, settled.noSyncLiteral, settled.literalLen, fun line =>
    ⟨⟨(settled.imap line).1.quoted, (settled.imap line).1.noSyncLiteral, (settled.imap line).1.literalLen⟩,
      (settled.imap line).2⟩⟩

theorem parsed_parseCommand (ssl : Bool) {protocol : Protocol} {s : Session} (ready : Ready protocol s) :
    Parsed protocol s (parseCommand ssl protocol s) :=
  parsed_parseLoop ssl protocol _ _ s (List.take_append_drop _ _).symm ready.placed
    ((Session.seen_length ready).symm ▸ ready.tagged)

theorem calm_parseCommand (ssl : Bool) {protocol : Protocol} {s : Session} (ready : Ready protocol s)
    (settled : Settled protocol s) (unbroken : Unbroken ssl protocol s.seen s.unread s) :
    Calm protocol (parseCommand ssl protocol s) :=
  calm_parseLoop ssl protocol _ _ s ready.placed settled unbroken

theorem ready_between {protocol : Protocol} {t : Session} {parsed : Nat} (buf : t.buf.length = parsed)
    (pos : t.pos = t.start + parsed) (args : t.args = [])
    (state : t.state = .start ∧ t.argStart = 0 ∨ t.state = .argument ∧ t.argStart = t.start + parsed)
    (tagged : Tagged protocol parsed t) : Ready protocol t := by
  have seen : t.seen.length = parsed := by
    simp only [Session.seen, List.length_take]
    omega
  refine ⟨by omega, by omega, ⟨fun isClosed => ?_, fun isOpen => ?_, ?_, fun _ => args⟩, ?_⟩
  · rcases state with ⟨_, idle⟩ | ⟨at1, _⟩
    · exact idle
    · simp [at1, State.open] at isClosed
  · rcases state with ⟨at1, _⟩ | ⟨_, argStart⟩
    · simp [at1, State.open] at isOpen
    · omega
  · intro arg mem
    simp [args] at mem
  · rw [pos, Nat.add_sub_cancel_left]
    exact tagged

theorem afterCommand_ready {protocol : Protocol} {s : Session} (idle : s.argStart = 0)
    (state : s.state = .start ∨ s.state = .argument) (tagged : Tagged protocol s.buf.length s) :
    Ready protocol (afterCommand protocol s) := by
  have line : protocol ≠ .imap → Ready protocol (if s.state ≠ .start then
      { s with
        args := []
        pos := s.start
        buf := []
        argStart := s.start }
      else
      { s with
        args := []
        pos := s.start
        buf := [] }) := by
    intro line
    split
    next going => exact ready_between rfl rfl rfl (.inr ⟨state.resolve_left going, rfl⟩) fun imap => absurd imap line
    next begins => exact ready_between rfl rfl rfl (.inl ⟨not_not.1 begins, idle⟩) fun imap => absurd imap line
  cases protocol with
  | pop3 => exact line (by simp)
  | smtp => exact line (by simp)
  | imap =>
    simp only [afterCommand]
    split
    next going =>
      refine ready_between ?_ rfl rfl (.inr ⟨state.resolve_left going, rfl⟩) fun _ _ => Nat.le_refl _
      exact List.length_take_of_le (tagged rfl going)
    next begins =>
      exact ready_between rfl rfl rfl (.inl ⟨not_not.1 begins, idle⟩) fun _ going => absurd (not_not.1 begins) going

theorem afterCommand_unset (protocol : Protocol) {s : Session} (unset : Unset s) : Unset (afterCommand protocol s) := by
  cases protocol with
  | imap => simp only [afterCommand]; split <;> exact ⟨unset.quoted, unset.noSyncLiteral, unset.literalLen⟩
  | _ => simp only [afterCommand]; split <;> exact ⟨unset.quoted, unset.noSyncLiteral, unset.literalLen⟩

theorem afterCommand_state (protocol : Protocol) (s : Session) : (afterCommand protocol s).state = s.state := by
  cases protocol with
  | imap => simp only [afterCommand]; split <;> rfl
  | _ => simp only [afterCommand]; split <;> rfl

/-- A session between two reads of a history. -/
structure Held (protocol : Protocol) (s : Session) : Prop where
  ready : Ready protocol s
  settled : Settled protocol s

theorem held_afterCommand {protocol : Protocol} {s : Session} (unset : Unset s) (idle : s.argStart = 0)
    (state : s.state = .start ∨ s.state = .argument) (tagged : Tagged protocol s.buf.length s) :
    Held protocol (afterCommand protocol s) where
  ready := afterCommand_ready idle state tagged
  settled := (afterCommand_unset protocol unset).settled fun _ => by
    rw [afterCommand_state]
    rcases state with at1 | at1 <;> simp [at1]

theorem held_stop {protocol : Protocol} {s : Session} (unset : Unset s) (idle : s.argStart = 0) :
    Held protocol (afterCommand protocol { s with state := .start }) :=
  held_afterCommand ⟨unset.quoted, unset.noSyncLiteral, unset.literalLen⟩ idle (.inl rfl) fun _ going => absurd rfl going

theorem held_ngxMailAuth {protocol : Protocol} {s : Session} (unset : Unset s) (idle : s.argStart = 0) :
    Held protocol (ngxMailAuth s) where
  ready := ready_between rfl rfl rfl (.inl ⟨rfl, idle⟩) fun _ going => absurd rfl going
  settled := Unset.settled ⟨unset.quoted, unset.noSyncLiteral, unset.literalLen⟩ (fun _ => (fun never => by cases never))

theorem held_afterReply {protocol : Protocol} (reply : Reply) {s : Session} (unset : Unset s) (idle : s.argStart = 0)
    (state : s.state = .start ∨ s.state = .argument) (tagged : Tagged protocol s.buf.length s) :
    Held protocol (afterReply protocol reply s) := by
  unfold afterReply
  dsimp only
  have kept : ∃ t : Session, (if protocol = .imap then { s with backslash := false } else s) = t ∧
      (t.argStart = s.argStart ∧ t.state = s.state ∧ t.buf = s.buf ∧ t.tag = s.tag) ∧ Unset t := by
    split
    · exact ⟨_, rfl, ⟨rfl, rfl, rfl, rfl⟩, ⟨unset.quoted, unset.noSyncLiteral, unset.literalLen⟩⟩
    · exact ⟨_, rfl, ⟨rfl, rfl, rfl, rfl⟩, unset⟩
  obtain ⟨t, same, ⟨argStart, at1, buf, tag⟩, unset⟩ := kept
  have idle := argStart.trans idle
  rw [same]
  cases reply with
  | ok =>
    refine held_afterCommand unset idle (by rw [at1]; exact state) fun imap going => ?_
    rw [tag, buf]
    exact tagged imap (at1 ▸ going)
  | stop => exact held_stop unset idle
  | parseInvalidCommand => exact held_stop unset idle
  | done => exact held_ngxMailAuth unset idle

theorem held_authState (ssl : Bool) {protocol : Protocol} {s : Session} (held : Held protocol s)
    (bytes : List UInt8) (reply : Reply) (unbroken : UnbrokenRead ssl protocol s bytes) :
    Held protocol (authState ssl protocol s bytes reply) := by
  have parsed := parsed_parseCommand ssl (held.ready.recv bytes)
  have calm := calm_parseCommand ssl (held.ready.recv bytes) (held.settled.recv bytes) unbroken
  unfold authState readCommand
  split
  next eq =>
    rw [eq] at parsed calm
    exact ⟨parsed.waits (.inl rfl), calm.waits (.inl rfl)⟩
  next eq =>
    rw [eq] at parsed calm
    exact ⟨parsed.waits (.inr rfl), calm.waits (.inr rfl)⟩
  next t eq =>
    rw [eq] at parsed calm
    have ok := parsed.ok rfl
    have buf : t.buf = s.buf ++ bytes := parsed.buf
    exact held_afterReply reply (calm.ends (.inl rfl)).1 ok.1 ok.2.1 (buf ▸ ok.2.2)
  next eq =>
    rw [eq] at calm
    exact held_stop (calm.ends (.inr rfl)).1 (calm.ends (.inr rfl)).2

theorem held_init (protocol : Protocol) (start : Nat) (placed : 0 < start) :
    Held protocol (Session.init start placed) where
  ready := ready_between rfl rfl rfl (.inl ⟨rfl, rfl⟩) fun _ going => absurd rfl going
  settled := Unset.settled ⟨rfl, rfl, rfl⟩ (fun _ => (fun never => by cases never))

theorem held_runSession (ssl : Bool) {protocol : Protocol} (history : List (List UInt8 × Reply)) {s : Session}
    (held : Held protocol s) (careful : Careful ssl protocol s history) :
    Held protocol (runSession ssl protocol s history) := by
  induction history generalizing s with
  | nil => exact held
  | cons event history ih => exact ih (held_authState ssl held _ _ careful.1) careful.2

/-- POP3 and SMTP have no quoted strings. -/
theorem unbroken_line (ssl : Bool) {protocol : Protocol} (line : protocol ≠ .imap) (seen rest : List UInt8)
    {s : Session} (settled : Settled protocol s) : Unbroken ssl protocol seen rest s := by
  induction rest generalizing seen s with
  | nil => trivial
  | cons ch rest ih =>
    have unbroken : ¬BreaksQuote ch s := by
      rintro (⟨_, quoted, _⟩ | ⟨_, backslash⟩)
      · simp [(settled.imap line).1.quoted] at quoted
      · exact (settled.imap line).2 backslash
    exact ⟨unbroken, fun none => ih _ ((settledTurn_turn ssl protocol seen ch settled unbroken).goes (.inl none))⟩

theorem careful_line (ssl : Bool) {protocol : Protocol} (line : protocol ≠ .imap)
    (history : List (List UInt8 × Reply)) {s : Session} (held : Held protocol s) :
    Careful ssl protocol s history := by
  induction history generalizing s with
  | nil => trivial
  | cons event history ih =>
    have unbroken : UnbrokenRead ssl protocol s event.1 :=
      unbroken_line ssl line _ _ (held.settled.recv event.1)
    exact ⟨unbroken, ih (held_authState ssl held _ _ unbroken)⟩

end NgxFormal.Mail
