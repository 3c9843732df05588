import NgxFormal.Mail.Session

/-! One byte of a command line: where the arguments are, and what is left set behind it. -/

namespace NgxFormal.Mail

/-- The states in which an argument is open. -/
def State.open : State → Bool
  | .argument | .backslash | .literalArgument => true
  | _ => false

def State.early : State → Bool
  | .start | .spacesBeforeCommand | .command => true
  | _ => false

def Slices (s : Session) (parsed : Nat) : Prop :=
  ∀ arg ∈ s.args, s.start ≤ arg.data ∧ arg.data + arg.len ≤ s.start + parsed

/-- The arguments are parts of what has been parsed, and so is the open one. -/
structure Placed (seen : List UInt8) (s : Session) : Prop where
  idle : s.state.open = false → s.argStart = 0
  opened : s.state.open = true → s.start ≤ s.argStart ∧ s.argStart ≤ s.start + seen.length
  slices : Slices s seen.length
  early : s.state.early = true → s.args = []

/-- What a byte makes of a session with placed arguments. -/
structure TurnSpec (seen : List UInt8) (ch : UInt8) (s : Session) (r : Session × Option Rc) : Prop where
  start : r.1.start = s.start
  buf : r.1.buf = s.buf
  slices : Slices r.1 (seen.length + 1)
  goes : r.2 = none → Placed (seen ++ [ch]) r.1
  next : r.2 = some .imapNext → Placed (seen ++ [ch]) r.1 ∧ r.1.pos = s.start + seen.length + 1
  ok : r.2 = some .ok →
    r.1.argStart = 0 ∧ r.1.pos = s.start + seen.length + 1 ∧ (r.1.state = .start ∨ r.1.state = .argument)
  invalid : r.2 = some .parseInvalidCommand → ¬BreaksQuote ch s → r.1.argStart = 0
  ends : r.2 ≠ some .again

theorem Slices.grow {s : Session} {parsed longer : Nat} (slices : Slices s parsed) (le : parsed ≤ longer) :
    Slices s longer := fun arg mem => ⟨(slices arg mem).1, by have := (slices arg mem).2; omega⟩

theorem turnSpec_goTo {seen : List UInt8} {ch : UInt8} {s t : Session} (placed : Placed seen s) (state : State)
    (same : t.start = s.start ∧ t.buf = s.buf ∧ t.args = s.args)
    (idle : state.open = false → t.argStart = 0)
    (opened : state.open = true → s.start ≤ t.argStart ∧ t.argStart ≤ s.start + seen.length + 1)
    (early : state.early = true → s.state.early = true) :
    TurnSpec seen ch s (goTo state t) where
  start := same.1
  buf := same.2.1
  slices arg mem := by
    have slices := placed.slices.grow (Nat.le_succ _) arg (same.2.2 ▸ mem)
    exact same.1.symm ▸ slices
  goes _ :=
    { idle := idle
      opened := fun isOpen => by
        have := opened isOpen
        simp only [goTo, List.length_append, List.length_singleton, same.1]
        omega
      slices := fun arg mem => by
        have slices := placed.slices.grow (Nat.le_succ _) arg (same.2.2 ▸ mem)
        simpa [goTo, same.1] using slices
      early := fun isEarly => same.2.2.trans (placed.early (early isEarly)) }
  next rc := by cases rc
  ok rc := by cases rc
  invalid rc := by cases rc
  ends rc := by cases rc

theorem turnSpec_stay {seen : List UInt8} {ch : UInt8} {s t : Session} (placed : Placed seen s)
    (same : t.start = s.start ∧ t.buf = s.buf ∧ t.args = s.args ∧ t.state = s.state ∧ t.argStart = s.argStart) :
    TurnSpec seen ch s (t, none) := by
  have stays : TurnSpec seen ch s (goTo s.state t) :=
    turnSpec_goTo placed s.state ⟨same.1, same.2.1, same.2.2.1⟩ (fun idle => same.2.2.2.2.trans (placed.idle idle))
      (fun isOpen => by have := placed.opened isOpen; have := same.2.2.2.2; omega) id
  have eq : goTo s.state t = (t, none) := by rw [← same.2.2.2.1]; rfl
  exact eq ▸ stays

theorem slices_pushArg {s : Session} {parsed last : Nat} (slices : Slices s parsed) (above : s.start ≤ s.argStart)
    (below : s.argStart ≤ last) (within : last ≤ s.start + parsed) : Slices (pushArg last s) parsed := by
  intro arg mem
  rcases List.mem_append.1 mem with old | pushed
  · exact slices arg old
  · obtain rfl := List.mem_singleton.1 pushed
    refine ⟨above, ?_⟩
    simp only [pushArg, distance, if_pos below]
    omega

theorem turnSpec_push {seen : List UInt8} {ch : UInt8} {s t : Session} {last : Nat} (state : State)
    (slices : Slices s (seen.length + 1)) (above : s.start ≤ s.argStart) (below : s.argStart ≤ last)
    (within : last ≤ s.start + seen.length + 1)
    (same : t.start = s.start ∧ t.buf = s.buf ∧ t.args = (pushArg last s).args ∧ t.argStart = 0)
    (idle : state.open = false) (late : state.early = false) : TurnSpec seen ch s (goTo state t) where
  start := same.1
  buf := same.2.1
  slices arg mem := by
    have slices := slices_pushArg slices above below (by omega) arg (same.2.2.1 ▸ mem)
    exact same.1.symm ▸ slices
  goes _ :=
    { idle := fun _ => same.2.2.2
      opened := fun isOpen => by simp [goTo, idle] at isOpen
      slices := fun arg mem => by
        have slices := slices_pushArg slices above below (by omega) arg (same.2.2.1 ▸ mem)
        simpa [goTo, same.1, pushArg] using slices
      early := fun isEarly => by simp [goTo, late] at isEarly }
  next rc := by cases rc
  ok rc := by cases rc
  invalid rc := by cases rc
  ends rc := by cases rc

theorem turnSpec_next {seen : List UInt8} {ch : UInt8} {s t : Session} (goes : TurnSpec seen ch s (t, none))
    (pos : t.pos = s.start + seen.length + 1) : TurnSpec seen ch s (t, some .imapNext) where
  start := goes.start
  buf := goes.buf
  slices := goes.slices
  goes rc := by cases rc
  next _ := ⟨goes.goes rfl, pos⟩
  ok rc := by cases rc
  invalid rc := by cases rc
  ends rc := by cases rc

theorem turnSpec_done {seen : List UInt8} {ch : UInt8} {s t : Session}
    (same : t.start = s.start ∧ t.buf = s.buf) (slices : Slices t (seen.length + 1)) (idle : t.argStart = 0)
    (pos : t.pos = s.start + seen.length + 1) (state : t.state = .start ∨ t.state = .argument) :
    TurnSpec seen ch s (t, some .ok) where
  start := same.1
  buf := same.2
  slices := slices
  goes rc := by cases rc
  next rc := by cases rc
  ok _ := ⟨idle, pos, state⟩
  invalid rc := by cases rc
  ends rc := by cases rc

theorem turnSpec_refuse {seen : List UInt8} {ch : UInt8} {s t : Session} (placed : Placed seen s)
    (same : t.start = s.start ∧ t.buf = s.buf ∧ t.args = s.args)
    (idle : ¬BreaksQuote ch s → t.argStart = 0) : TurnSpec seen ch s (t, some .parseInvalidCommand) where
  start := same.1
  buf := same.2.1
  slices arg mem := by
    have slices := placed.slices.grow (Nat.le_succ _) arg (same.2.2 ▸ mem)
    exact same.1.symm ▸ slices
  goes rc := by cases rc
  next rc := by cases rc
  ok rc := by cases rc
  invalid _ := idle
  ends rc := by cases rc

theorem turnSpec_lineDone (conf : LineConf) {seen : List UInt8} {ch : UInt8} {s t : Session}
    (same : t.start = s.start ∧ t.buf = s.buf) (slices : Slices t (seen.length + 1)) (idle : t.argStart = 0) :
    TurnSpec seen ch s (lineDone conf (s.start + seen.length) t) := by
  simp only [lineDone, idle, ne_eq, not_true_eq_false, if_false]
  refine turnSpec_done same slices rfl rfl ?_
  by_cases auth : t.command = conf.auth <;> simp [auth]

theorem turnSpec_lineInvalid {seen : List UInt8} {ch : UInt8} {s t : Session} (placed : Placed seen s)
    (same : t.start = s.start ∧ t.buf = s.buf ∧ t.args = s.args) : TurnSpec seen ch s (lineInvalid t) :=
  turnSpec_refuse placed same fun _ => rfl

theorem turnSpec_lineEnds (conf : LineConf) {seen : List UInt8} {ch : UInt8} {s t : Session}
    (placed : Placed seen s) (same : t.start = s.start ∧ t.buf = s.buf ∧ t.args = s.args) (idle : t.argStart = 0) :
    TurnSpec seen ch s (lineEnds conf (s.start + seen.length) ch t) := by
  unfold lineEnds
  split
  · exact turnSpec_goTo placed _ same (fun _ => idle) (fun isOpen => by cases isOpen) (fun late => by cases late)
  split
  · exact turnSpec_goTo placed _ same (fun _ => idle) (fun isOpen => by cases isOpen) (fun late => by cases late)
  · refine turnSpec_lineDone conf ⟨same.1, same.2.1⟩ (fun arg mem => ?_) idle
    exact same.1.symm ▸ placed.slices.grow (Nat.le_succ _) arg (same.2.2 ▸ mem)

theorem turnSpec_lineEnds_push (conf : LineConf) {seen : List UInt8} {ch : UInt8} {s : Session}
    (placed : Placed seen s) (isOpen : s.state.open = true) :
    TurnSpec seen ch s (lineEnds conf (s.start + seen.length) ch (pushArg (s.start + seen.length) s)) := by
  have opened := placed.opened isOpen
  have slices := placed.slices.grow (Nat.le_succ _)
  unfold lineEnds
  split
  · exact turnSpec_push _ slices opened.1 opened.2 (by omega) ⟨rfl, rfl, rfl, rfl⟩ rfl rfl
  split
  · exact turnSpec_push _ slices opened.1 opened.2 (by omega) ⟨rfl, rfl, rfl, rfl⟩ rfl rfl
  · exact turnSpec_lineDone conf ⟨rfl, rfl⟩ (slices_pushArg slices opened.1 opened.2 (by omega)) rfl

theorem turnSpec_lineTurn (conf : LineConf) {seen : List UInt8} (ch : UInt8) {s : Session} (placed : Placed seen s) :
    TurnSpec seen ch s (lineTurn conf seen ch s) := by
  have stay : TurnSpec seen ch s (s, none) := turnSpec_stay placed ⟨rfl, rfl, rfl, rfl, rfl⟩
  have invalid : TurnSpec seen ch s (lineInvalid s) := turnSpec_lineInvalid placed ⟨rfl, rfl, rfl⟩
  have slices := placed.slices.grow (Nat.le_succ seen.length)
  unfold lineTurn
  split
  next state =>
    have idle : s.argStart = 0 := placed.idle (by rw [state]; rfl)
    split
    · split
      · exact invalid
      · exact turnSpec_lineEnds conf placed ⟨rfl, rfl, rfl⟩ idle
    split
    · exact stay
    · exact invalid
  next state =>
    have idle : s.argStart = 0 := placed.idle (by rw [state]; rfl)
    split
    · exact stay
    split
    · exact turnSpec_goTo placed _ ⟨rfl, rfl, rfl⟩ (fun _ => idle) (fun isOpen => by cases isOpen)
        (fun late => by cases late)
    split
    · exact turnSpec_lineDone conf ⟨rfl, rfl⟩ slices idle
    split
    · exact turnSpec_goTo placed _ ⟨rfl, rfl, rfl⟩ (fun closed => by cases closed) (fun _ => ⟨by simp, by simp⟩)
        (fun late => by cases late)
    · exact invalid
  next state =>
    split
    · exact stay
    split
    · exact turnSpec_lineEnds_push conf placed (by rw [state]; rfl)
    · exact stay
  next state =>
    have idle : s.argStart = 0 := placed.idle (by rw [state]; rfl)
    split
    · exact turnSpec_lineDone conf ⟨rfl, rfl⟩ slices idle
    · exact invalid
  next => exact stay

theorem turnSpec_imapDone {seen : List UInt8} {ch : UInt8} {s t : Session}
    (same : t.start = s.start ∧ t.buf = s.buf) (slices : Slices t (seen.length + 1)) (idle : t.argStart = 0) :
    TurnSpec seen ch s (imapDone (s.start + seen.length) t) := by
  simp only [imapDone, idle, ne_eq, not_true_eq_false, if_false]
  refine turnSpec_done same slices rfl rfl ?_
  by_cases auth : t.command = imapAuthenticate <;> simp [auth]

theorem turnSpec_imapEnds {seen : List UInt8} {ch : UInt8} {s t : Session} (placed : Placed seen s)
    (same : t.start = s.start ∧ t.buf = s.buf ∧ t.args = s.args) (idle : t.argStart = 0) :
    TurnSpec seen ch s (imapEnds (s.start + seen.length) ch t) := by
  unfold imapEnds
  split
  · exact turnSpec_goTo placed _ same (fun _ => idle) (fun isOpen => by cases isOpen) (fun late => by cases late)
  split
  · refine turnSpec_imapDone ⟨same.1, same.2.1⟩ (fun arg mem => ?_) idle
    exact same.1.symm ▸ placed.slices.grow (Nat.le_succ _) arg (same.2.2 ▸ mem)
  · exact turnSpec_goTo placed _ same (fun _ => idle) (fun isOpen => by cases isOpen) (fun late => by cases late)

theorem turnSpec_imapEnds_push {seen : List UInt8} {ch : UInt8} {s : Session} (placed : Placed seen s)
    (isOpen : s.state.open = true) :
    TurnSpec seen ch s (imapEnds (s.start + seen.length) ch (pushArg (s.start + seen.length) s)) := by
  have opened := placed.opened isOpen
  have slices := placed.slices.grow (Nat.le_succ _)
  unfold imapEnds
  split
  · exact turnSpec_push _ slices opened.1 opened.2 (by omega) ⟨rfl, rfl, rfl, rfl⟩ rfl rfl
  split
  · exact turnSpec_imapDone ⟨rfl, rfl⟩ (slices_pushArg slices opened.1 opened.2 (by omega)) rfl
  · exact turnSpec_push _ slices opened.1 opened.2 (by omega) ⟨rfl, rfl, rfl, rfl⟩ rfl rfl

theorem turnSpec_imapArgument {seen : List UInt8} {ch : UInt8} {s : Session} (placed : Placed seen s)
    (state : State) (idle : s.argStart = 0) (closed : state.open = false) (late : state.early = false) :
    TurnSpec seen ch s (imapArgument s state) := by
  unfold imapArgument
  split
  · exact turnSpec_goTo placed _ ⟨rfl, rfl, rfl⟩ (fun _ => idle) (fun isOpen => by simp [closed] at isOpen)
      (fun isEarly => by simp [late] at isEarly)
  · exact turnSpec_refuse placed ⟨rfl, rfl, rfl⟩ fun _ => idle

theorem turnSpec_imapTurn (ssl : Bool) {seen : List UInt8} (ch : UInt8) {s : Session} (placed : Placed seen s) :
    TurnSpec seen ch s (imapTurn ssl seen ch s) := by
  have stay : TurnSpec seen ch s (s, none) := turnSpec_stay placed ⟨rfl, rfl, rfl, rfl, rfl⟩
  have slices := placed.slices.grow (Nat.le_succ seen.length)
  -- outside an argument a byte only moves on, or refuses the line
  have closed : s.state.open = false → ∀ t : Session, t.start = s.start ∧ t.buf = s.buf ∧ t.args = s.args →
      t.argStart = s.argStart → (∀ state : State, state.open = false → (state.early = true → s.state.early = true) →
        TurnSpec seen ch s (goTo state t)) ∧ TurnSpec seen ch s (imapInvalid t) ∧ TurnSpec seen ch s (imapEmpty t) := by
    intro isClosed t same keeps
    have idle := keeps.trans (placed.idle isClosed)
    exact ⟨fun state isClosed early => turnSpec_goTo placed state same (fun _ => idle)
        (fun isOpen => by simp [isClosed] at isOpen) early,
      turnSpec_refuse placed same fun _ => idle, turnSpec_refuse placed same fun _ => idle⟩
  unfold imapTurn
  split
  next state =>
    have isEarly : s.state.early = true := by rw [state]; rfl
    have idle : s.argStart = 0 := placed.idle (by rw [state]; rfl)
    split
    · exact turnSpec_goTo placed _ ⟨rfl, rfl, rfl⟩ (fun _ => idle) (fun isOpen => by cases isOpen) fun _ => isEarly
    split
    · exact (closed (by rw [state]; rfl) s ⟨rfl, rfl, rfl⟩ rfl).2.2
    · exact stay
  next state =>
    have isEarly : s.state.early = true := by rw [state]; rfl
    have idle : s.argStart = 0 := placed.idle (by rw [state]; rfl)
    split
    · exact stay
    split
    · exact (closed (by rw [state]; rfl) s ⟨rfl, rfl, rfl⟩ rfl).2.2
    · exact turnSpec_goTo placed _ ⟨rfl, rfl, rfl⟩ (fun _ => idle) (fun isOpen => by cases isOpen) fun _ => isEarly
  next state =>
    have idle : s.argStart = 0 := placed.idle (by rw [state]; rfl)
    split
    · split
      · exact (closed (by rw [state]; rfl) s ⟨rfl, rfl, rfl⟩ rfl).2.1
      · exact turnSpec_imapEnds placed ⟨rfl, rfl, rfl⟩ idle
    split
    · exact stay
    · exact (closed (by rw [state]; rfl) s ⟨rfl, rfl, rfl⟩ rfl).2.1
  next state =>
    have idle : s.argStart = 0 := placed.idle (by rw [state]; rfl)
    have invalid := (closed (by rw [state]; rfl) s ⟨rfl, rfl, rfl⟩ rfl).2.1
    split
    · exact stay
    split
    · exact turnSpec_goTo placed _ ⟨rfl, rfl, rfl⟩ (fun _ => idle) (fun isOpen => by cases isOpen)
        (fun late => by cases late)
    split
    · exact turnSpec_imapDone ⟨rfl, rfl⟩ slices idle
    split
    · split
      · exact turnSpec_goTo placed _ ⟨rfl, rfl, rfl⟩ (fun isClosed => by cases isClosed)
          (fun _ => ⟨by simp; omega, by simp⟩) (fun late => by cases late)
      · exact invalid
    split
    · exact turnSpec_imapArgument placed _ idle rfl rfl
    split
    · exact turnSpec_goTo placed _ ⟨rfl, rfl, rfl⟩ (fun isClosed => by cases isClosed)
        (fun _ => ⟨by simp, by simp⟩) (fun late => by cases late)
    · exact invalid
  next state =>
    have isOpen : s.state.open = true := by rw [state]; rfl
    have opened := placed.opened isOpen
    split
    · exact stay
    split
    · split
      · exact turnSpec_push _ slices opened.1 opened.2 (by omega) ⟨rfl, rfl, rfl, rfl⟩ rfl rfl
      · exact stay
    split
    · exact turnSpec_imapEnds_push placed isOpen
    split
    · exact turnSpec_goTo placed _ ⟨rfl, rfl, rfl⟩ (fun isClosed => by cases isClosed)
        (fun _ => ⟨opened.1, by simp; omega⟩) (fun late => by cases late)
    · exact stay
  next state =>
    have opened := placed.opened (by rw [state]; rfl)
    split
    next ends =>
      exact turnSpec_refuse placed ⟨rfl, rfl, rfl⟩ fun unbroken => absurd (.inr ⟨ends, state⟩) unbroken
    · exact turnSpec_goTo placed _ ⟨rfl, rfl, rfl⟩ (fun isClosed => by cases isClosed)
        (fun _ => ⟨opened.1, by omega⟩) (fun late => by cases late)
  next state =>
    have closed := closed (by rw [state]; rfl) s ⟨rfl, rfl, rfl⟩ rfl
    split
    · exact turnSpec_stay placed ⟨rfl, rfl, rfl, rfl, rfl⟩
    split
    · exact closed.1 _ rfl (fun late => by cases late)
    split
    · exact closed.1 _ rfl (fun late => by cases late)
    · exact closed.2.1
  next state =>
    have idle : s.argStart = 0 := placed.idle (by rw [state]; rfl)
    split
    · exact turnSpec_goTo placed _ ⟨rfl, rfl, rfl⟩ (fun _ => idle) (fun isOpen => by cases isOpen)
        (fun late => by cases late)
    · exact (closed (by rw [state]; rfl) s ⟨rfl, rfl, rfl⟩ rfl).2.1
  next state =>
    split
    · exact stay
    split
    · have goes : ∀ t : Session, t.start = s.start ∧ t.buf = s.buf ∧ t.args = s.args →
          t.argStart = s.start + seen.length + 1 → t.state = .literalArgument → TurnSpec seen ch s (t, none) := by
        intro t same behind literal
        have goes : TurnSpec seen ch s (goTo .literalArgument t) := turnSpec_goTo placed .literalArgument same (fun isClosed => by cases isClosed)
          (fun _ => by omega) (fun late => by cases late)
        have eq : goTo .literalArgument t = (t, none) := by rw [← literal]; rfl
        exact eq ▸ goes
      dsimp only
      split
      · exact goes _ ⟨rfl, rfl, rfl⟩ rfl rfl
      · exact turnSpec_next (goes _ ⟨rfl, rfl, rfl⟩ rfl rfl) rfl
    · exact (closed (by rw [state]; rfl) s ⟨rfl, rfl, rfl⟩ rfl).2.1
  next state =>
    have opened := placed.opened (by rw [state]; rfl)
    dsimp only
    split
    · exact turnSpec_stay placed ⟨rfl, rfl, rfl, rfl, rfl⟩
    · exact turnSpec_push _ slices opened.1 (by omega) (by omega) ⟨rfl, rfl, rfl, rfl⟩ rfl rfl
  next state =>
    have idle : s.argStart = 0 := placed.idle (by rw [state]; rfl)
    split
    · exact turnSpec_imapArgument placed _ idle rfl rfl
    · exact turnSpec_imapEnds placed ⟨rfl, rfl, rfl⟩ idle
  next state =>
    split
    · exact turnSpec_imapDone ⟨rfl, rfl⟩ slices (placed.idle (by rw [state]; rfl))
    · exact (closed (by rw [state]; rfl) s ⟨rfl, rfl, rfl⟩ rfl).2.1

theorem turnSpec_turn (ssl : Bool) (protocol : Protocol) {seen : List UInt8} (ch : UInt8) {s : Session}
    (placed : Placed seen s) : TurnSpec seen ch s (turn ssl protocol seen ch s) := by
  cases protocol with
  | pop3 => exact turnSpec_lineTurn _ ch placed
  | imap => exact turnSpec_imapTurn ssl ch placed
  | smtp => exact turnSpec_lineTurn _ ch placed

structure Unset (s : Session) : Prop where
  quoted : s.quoted = false
  noSyncLiteral : s.noSyncLiteral = false
  literalLen : s.literalLen = 0

/-- What is set for an argument is set only there, and only by the IMAP parser. -/
structure Settled (protocol : Protocol) (s : Session) : Prop where
  quoted : s.quoted = true → s.state = .argument ∨ s.state = .backslash ∨ s.state = .almostDone
  noSyncLiteral : s.noSyncLiteral = true → s.state = .startLiteralArgument
  literalLen : s.literalLen ≠ 0 → s.state = .literal ∨ s.state = .noSyncLiteralArgument ∨
    s.state = .startLiteralArgument ∨ s.state = .literalArgument
  imap : protocol ≠ .imap → Unset s ∧ s.state ≠ .backslash

/-- What a byte makes of a session that is settled. -/
structure SettledTurn (protocol : Protocol) (r : Session × Option Rc) : Prop where
  goes : r.2 = none ∨ r.2 = some .imapNext → Settled protocol r.1
  ends : r.2 = some .ok ∨ r.2 = some .parseInvalidCommand → Unset r.1

theorem Unset.settled {protocol : Protocol} {s : Session} (unset : Unset s)
    (imap : protocol ≠ .imap → s.state ≠ .backslash) : Settled protocol s where
  quoted is := by simp [unset.quoted] at is
  noSyncLiteral is := by simp [unset.noSyncLiteral] at is
  literalLen is := absurd unset.literalLen is
  imap line := ⟨unset, imap line⟩

theorem Settled.unset {protocol : Protocol} {s : Session} (settled : Settled protocol s)
    (quoted : s.state = .argument ∨ s.state = .almostDone → s.quoted = false)
    (others : s.state ≠ .backslash ∧ s.state ≠ .literal ∧ s.state ≠ .noSyncLiteralArgument ∧
      s.state ≠ .startLiteralArgument ∧ s.state ≠ .literalArgument) : Unset s where
  quoted := by
    by_contra is
    rcases settled.quoted (by simpa using is) with at1 | at1 | at1
    · exact is (quoted (.inl at1))
    · exact others.1 at1
    · exact is (quoted (.inr at1))
  noSyncLiteral := by
    by_contra is
    exact others.2.2.2.1 (settled.noSyncLiteral (by simpa using is))
  literalLen := by
    by_contra is
    rcases settled.literalLen is with at1 | at1 | at1 | at1
    · exact others.2.1 at1
    · exact others.2.2.1 at1
    · exact others.2.2.2.1 at1
    · exact others.2.2.2.2 at1

theorem settledTurn_goTo {protocol : Protocol} {s : Session} (state : State) (unset : Unset s)
    (imap : protocol ≠ .imap → state ≠ .backslash) : SettledTurn protocol (goTo state s) where
  goes _ := Unset.settled ⟨unset.quoted, unset.noSyncLiteral, unset.literalLen⟩ imap
  ends rc := by simp [goTo] at rc

theorem settledTurn_stay {protocol : Protocol} {s : Session} (settled : Settled protocol s) :
    SettledTurn protocol (s, none) where
  goes _ := settled
  ends rc := by simp at rc

theorem settledTurn_lineDone {protocol : Protocol} (conf : LineConf) (p : Nat) {s : Session} (unset : Unset s) :
    SettledTurn protocol (lineDone conf p s) where
  goes rc := by simp [lineDone] at rc
  ends _ := by
    simp only [lineDone]
    split <;> exact ⟨unset.quoted, unset.noSyncLiteral, unset.literalLen⟩

theorem settledTurn_lineInvalid {protocol : Protocol} {s : Session} (unset : Unset s) :
    SettledTurn protocol (lineInvalid s) where
  goes rc := by simp [lineInvalid] at rc
  ends _ := ⟨unset.quoted, unset.noSyncLiteral, unset.literalLen⟩

theorem settledTurn_lineEnds {protocol : Protocol} (conf : LineConf) (p : Nat) (ch : UInt8) {s : Session}
    (unset : Unset s) : SettledTurn protocol (lineEnds conf p ch s) := by
  unfold lineEnds
  split
  · exact settledTurn_goTo _ unset (fun _ => by simp)
  split
  · exact settledTurn_goTo _ unset (fun _ => by simp)
  · exact settledTurn_lineDone conf p unset

theorem settledTurn_lineTurn {protocol : Protocol} (conf : LineConf) (seen : List UInt8) (ch : UInt8) {s : Session}
    (settled : Settled protocol s) (line : protocol ≠ .imap) : SettledTurn protocol (lineTurn conf seen ch s) := by
  have unset := (settled.imap line).1
  have stay : SettledTurn protocol (s, none) := settledTurn_stay settled
  have pushed : ∀ last, Unset (pushArg last s) := fun _ => ⟨unset.quoted, unset.noSyncLiteral, unset.literalLen⟩
  unfold lineTurn
  split
  · split
    · split
      · exact settledTurn_lineInvalid unset
      · exact settledTurn_lineEnds conf _ ch ⟨unset.quoted, unset.noSyncLiteral, unset.literalLen⟩
    split
    · exact stay
    · exact settledTurn_lineInvalid unset
  · split
    · exact stay
    split
    · exact settledTurn_goTo _ ⟨unset.quoted, unset.noSyncLiteral, unset.literalLen⟩ (fun _ => by simp)
    split
    · exact settledTurn_lineDone conf _ ⟨unset.quoted, unset.noSyncLiteral, unset.literalLen⟩
    split
    · exact settledTurn_goTo _ ⟨unset.quoted, unset.noSyncLiteral, unset.literalLen⟩ (fun _ => by simp)
    · exact settledTurn_lineInvalid unset
  · split
    · exact stay
    split
    · exact settledTurn_lineEnds conf _ ch (pushed _)
    · exact stay
  · split
    · exact settledTurn_lineDone conf _ unset
    · exact settledTurn_lineInvalid unset
  · exact stay

theorem settledTurn_imapDone {protocol : Protocol} (p : Nat) {s : Session} (unset : Unset s) :
    SettledTurn protocol (imapDone p s) where
  goes rc := by simp [imapDone] at rc
  ends _ := by
    simp only [imapDone]
    split
    · exact ⟨rfl, rfl, rfl⟩
    · exact ⟨unset.quoted, unset.noSyncLiteral, unset.literalLen⟩

theorem settledTurn_imapInvalid {protocol : Protocol} (s : Session) : SettledTurn protocol (imapInvalid s) where
  goes rc := by simp [imapInvalid] at rc
  ends _ := ⟨rfl, rfl, rfl⟩

theorem settledTurn_imapEmpty {protocol : Protocol} {s : Session} (unset : Unset s) :
    SettledTurn protocol (imapEmpty s) where
  goes rc := by simp [imapEmpty] at rc
  ends _ := ⟨unset.quoted, unset.noSyncLiteral, unset.literalLen⟩

theorem settledTurn_imapEnds (p : Nat) (ch : UInt8) {s : Session} (unset : Unset s) :
    SettledTurn .imap (imapEnds p ch s) := by
  unfold imapEnds
  split
  · exact settledTurn_goTo _ unset (fun line => absurd rfl line)
  split
  · exact settledTurn_imapDone p unset
  · exact settledTurn_goTo _ unset (fun line => absurd rfl line)

theorem settledTurn_imapArgument {s : Session} (state : State) (unset : Unset s) :
    SettledTurn .imap (imapArgument s state) := by
  unfold imapArgument
  split
  · exact settledTurn_goTo _ unset (fun line => absurd rfl line)
  · exact settledTurn_imapInvalid s

theorem settledTurn_of_settled {t : Session} {rc : Option Rc} (settled : Settled .imap t)
    (rest : rc = none ∨ rc = some .imapNext) : SettledTurn .imap (t, rc) where
  goes _ := settled
  ends done := by rcases rest with rfl | rfl <;> simp at done

/-- As long as no line ends inside a quoted string, IMAP leaves nothing set. -/
theorem settledTurn_imapTurn (ssl : Bool) (seen : List UInt8) (ch : UInt8) {s : Session} (settled : Settled .imap s)
    (unbroken : ¬BreaksQuote ch s) : SettledTurn .imap (imapTurn ssl seen ch s) := by
  have stay : SettledTurn .imap (s, none) := settledTurn_stay settled
  have invalid : SettledTurn .imap (imapInvalid s) := settledTurn_imapInvalid s
  have line : ∀ {state : State}, Protocol.imap ≠ .imap → state ≠ .backslash := fun line => absurd rfl line
  have quoted := settled.quoted
  have noSyncLiteral := settled.noSyncLiteral
  have literalLen := settled.literalLen
  unfold imapTurn
  split
  next state =>
    have unset : Unset s := settled.unset (by simp [state]) (by simp [state])
    split
    · exact settledTurn_goTo _ ⟨unset.quoted, unset.noSyncLiteral, unset.literalLen⟩ line
    split
    · exact settledTurn_imapEmpty unset
    · exact stay
  next state =>
    have unset : Unset s := settled.unset (by simp [state]) (by simp [state])
    split
    · exact stay
    split
    · exact settledTurn_imapEmpty unset
    · exact settledTurn_goTo _ ⟨unset.quoted, unset.noSyncLiteral, unset.literalLen⟩ line
  next state =>
    have unset : Unset s := settled.unset (by simp [state]) (by simp [state])
    split
    · split
      · exact invalid
      · exact settledTurn_imapEnds _ ch ⟨unset.quoted, unset.noSyncLiteral, unset.literalLen⟩
    split
    · exact stay
    · exact invalid
  next state =>
    have unset : Unset s := settled.unset (by simp [state]) (by simp [state])
    split
    · exact stay
    split
    · exact settledTurn_goTo _ ⟨unset.quoted, unset.noSyncLiteral, unset.literalLen⟩ line
    split
    · exact settledTurn_imapDone _ ⟨unset.quoted, unset.noSyncLiteral, unset.literalLen⟩
    split
    · split
      · refine settledTurn_of_settled ⟨fun _ => .inl rfl, fun is => ?_, fun is => ?_, fun imap => absurd rfl imap⟩
          (.inl rfl)
        · simp [unset.noSyncLiteral] at is
        · simp [unset.literalLen] at is
      · exact invalid
    split
    · exact settledTurn_imapArgument _ unset
    split
    · exact settledTurn_goTo _ ⟨unset.quoted, unset.noSyncLiteral, unset.literalLen⟩ line
    · exact invalid
  next state =>
    have noSync : s.noSyncLiteral = false := by simpa [state] using noSyncLiteral
    have literal : s.literalLen = 0 := by simpa [state] using literalLen
    split
    · exact stay
    split
    · split
      · exact settledTurn_goTo _ ⟨rfl, noSync, literal⟩ line
      · exact stay
    split
    next ends =>
      by_cases space : ch = chr ' '
      next =>
        have plain : s.quoted = false := by
          by_contra is
          simp_all
        exact settledTurn_imapEnds _ ch ⟨plain, noSync, literal⟩
      next =>
        -- only the `LF` is the end of the line
        by_cases last : ch = LF
        next =>
          have plain : s.quoted = false := by
            by_contra is
            exact unbroken (.inl ⟨last, by simpa using is, .inl state⟩)
          exact settledTurn_imapEnds _ ch ⟨plain, noSync, literal⟩
        next =>
          have cr : ch = CR := (ends.resolve_left space).resolve_right last
          simp only [imapEnds, cr, if_true]
          refine settledTurn_of_settled ⟨fun _ => .inr (.inr rfl), fun is => ?_, fun is => ?_,
            fun imap => absurd rfl imap⟩ (.inl rfl)
          · exact absurd (noSync.symm.trans is) (by simp)
          · exact absurd literal is
    split
    · refine settledTurn_of_settled ⟨fun _ => .inr (.inl rfl), fun is => ?_, fun is => ?_,
        fun imap => absurd rfl imap⟩ (.inl rfl)
      · simp [noSync] at is
      · simp [literal] at is
    · exact stay
  next state =>
    split
    next ends => exact absurd (.inr ⟨ends, state⟩) unbroken
    next =>
      have noSync : s.noSyncLiteral = false := by simpa [state] using noSyncLiteral
      have literal : s.literalLen = 0 := by simpa [state] using literalLen
      refine settledTurn_of_settled ⟨fun _ => .inl rfl, fun is => ?_, fun is => ?_, fun imap => absurd rfl imap⟩
        (.inl rfl)
      · simp [noSync] at is
      · simp [literal] at is
  next state =>
    have plain : s.quoted = false := by simpa [state] using quoted
    have noSync : s.noSyncLiteral = false := by simpa [state] using noSyncLiteral
    split
    · refine settledTurn_of_settled ⟨fun is => ?_, fun is => ?_, fun _ => .inl state, fun imap => absurd rfl imap⟩
        (.inl rfl)
      · simp [plain] at is
      · simp [noSync] at is
    split
    · refine settledTurn_of_settled ⟨fun is => ?_, fun is => ?_, fun _ => .inr (.inr (.inl rfl)),
        fun imap => absurd rfl imap⟩ (.inl rfl)
      · simp [plain] at is
      · simp [noSync] at is
    split
    · refine settledTurn_of_settled ⟨fun is => ?_, fun is => ?_, fun _ => .inr (.inl rfl),
        fun imap => absurd rfl imap⟩ (.inl rfl)
      · simp [plain] at is
      · simp [noSync] at is
    · exact invalid
  next state =>
    have plain : s.quoted = false := by simpa [state] using quoted
    split
    · refine settledTurn_of_settled ⟨fun is => ?_, fun _ => rfl, fun _ => .inr (.inr (.inl rfl)),
        fun imap => absurd rfl imap⟩ (.inl rfl)
      simp [plain] at is
    · exact invalid
  next state =>
    have plain : s.quoted = false := by simpa [state] using quoted
    split
    · exact stay
    split
    · dsimp only
      split
      · refine settledTurn_of_settled ⟨fun is => ?_, fun is => by simp at is, fun _ => .inr (.inr (.inr rfl)),
          fun imap => absurd rfl imap⟩ (.inl rfl)
        simp [plain] at is
      next noSync =>
        refine settledTurn_of_settled ⟨fun is => ?_, fun is => absurd is noSync, fun _ => .inr (.inr (.inr rfl)),
          fun imap => absurd rfl imap⟩ (.inr rfl)
        simp [plain] at is
    · exact invalid
  next state =>
    have plain : s.quoted = false := by simpa [state] using quoted
    have noSync : s.noSyncLiteral = false := by simpa [state] using noSyncLiteral
    dsimp only
    split
    · refine settledTurn_of_settled ⟨fun is => ?_, fun is => ?_, fun _ => .inr (.inr (.inr state)),
        fun imap => absurd rfl imap⟩ (.inl rfl)
      · simp [plain] at is
      · simp [noSync] at is
    next last => exact settledTurn_goTo _ ⟨plain, noSync, not_not.1 last⟩ line
  next state =>
    have unset : Unset s := settled.unset (by simp [state]) (by simp [state])
    split
    · exact settledTurn_imapArgument _ unset
    · exact settledTurn_imapEnds _ ch unset
  next state =>
    split
    next last =>
      have plain : s.quoted = false := by
        by_contra is
        exact unbroken (.inl ⟨last, by simpa using is, .inr state⟩)
      exact settledTurn_imapDone _ (settled.unset (fun _ => plain) (by simp [state]))
    · exact invalid

theorem settledTurn_turn (ssl : Bool) (protocol : Protocol) (seen : List UInt8) (ch : UInt8) {s : Session}
    (settled : Settled protocol s) (unbroken : ¬BreaksQuote ch s) :
    SettledTurn protocol (turn ssl protocol seen ch s) := by
  cases protocol with
  | pop3 => exact settledTurn_lineTurn _ seen ch settled (by simp)
  | imap => exact settledTurn_imapTurn ssl seen ch settled unbroken
  | smtp => exact settledTurn_lineTurn _ seen ch settled (by simp)

end NgxFormal.Mail
