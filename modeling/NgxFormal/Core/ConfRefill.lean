import NgxFormal.Core.ConfToken

/-! The calls of `ngx_conf_read_token` with a buffer that is filled again, and with one that the
whole text fits into. -/

namespace NgxFormal.Core.ConfToken

open Lib.Turns
open Times (bytes)

def lexed (size : Nat) : Place → List UInt8 → List Reading
  | p, [] => [⟨p.atEnd, p.args, p.line⟩]
  | p, ch :: rest =>
    if p.tok.length = size then [⟨.error p.tooLong, p.args, p.startLine⟩]
    else
      match p.step ch with
      | .again next => lexed size next rest
      | .done result last => ⟨result, last.args, last.line⟩ ::
          if result.goesOn then lexed size (Place.first last.isParam last.line) rest else []

/-- How far the lexer is behind the last byte at which a token, a comment or a call began. -/
structure Gap where
  flags : Flags
  noArgs : Bool
  far : Nat
  deriving DecidableEq, Repr

def Gap.first : Gap := ⟨Flags.blank, true, 0⟩

/-- Behind one more byte; `none` if it is an error. -/
def Gap.next (g : Gap) (ch : UInt8) : Option Gap :=
  match g.flags.act g.noArgs ch with
  | .go flags => some ⟨flags, g.noArgs, g.far + 1⟩
  | .start flags keep => some ⟨flags, g.noArgs, if keep then 1 else 0⟩
  | .word flags =>
    if ch = chr ';' ∨ ch = chr '{' then some Gap.first else some ⟨flags, false, g.far + 1⟩
  | .stop result => if result.goesOn then some Gap.first else none

/-- Each byte of the text comes within `size` bytes of the beginning of the last token, comment or
call, and this token, comment or call has not ended with an error. -/
def near (size : Nat) : Gap → List UInt8 → Bool
  | _, [] => true
  | g, ch :: rest => decide (g.far ≠ size) && ((g.next ch).map (near size · rest)).getD true

section Calls

variable {size : Nat} {p last : Place} {text rest : List UInt8} {result : Result}

theorem atEnd_stops (p : Place) : p.atEnd.goesOn = false := by
  rw [Place.atEnd]
  split_ifs <;> rfl

theorem finish_lexed {fuel : Nat} (ended : finish (turnAhead size) fuel (p, text) =
      some (result, last, rest)) :
    lexed size p text = ⟨result, last.args, last.line⟩ ::
      if result.goesOn then lexed size (Place.first last.isParam last.line) rest else [] := by
  induction text generalizing p fuel with
  | nil =>
    cases fuel with
    | zero => cases ended
    | succ fuel =>
      cases ended
      rw [lexed, atEnd_stops]
      rfl
  | cons ch text ih =>
    cases fuel with
    | zero => cases ended
    | succ fuel =>
      rw [finish, turnAhead] at ended
      rw [lexed]
      dsimp only at ended
      by_cases long : p.tok.length = size
      · rw [if_pos long] at ended ⊢
        cases ended
        rfl
      · rw [if_neg long] at ended ⊢
        cases step : p.step ch with
        | again next =>
          rw [step] at ended
          exact ih ended
        | done answer state =>
          rw [step] at ended
          cases ended
          rfl

theorem turnAhead_fewer (size : Nat) (s next : Place × List UInt8)
    (again : turnAhead size s = .again next) : next.2.length < s.2.length := by
  obtain ⟨p, text⟩ := s
  cases text with
  | nil => cases again
  | cons ch rest =>
    rw [turnAhead] at again
    dsimp only at again
    split_ifs at again
    cases step : p.step ch with
    | again state =>
      rw [step] at again
      cases again
      exact Nat.lt_succ_self _
    | done answer state =>
      rw [step] at again
      cases again

/-- A call returns, and what it leaves is what there is to read. -/
theorem ngxConfReadToken_lexed {conf : ConfFile} (inv : Inv size conf.lexer) :
    ∃ result l, ngxConfReadToken size conf = some (result, l) ∧ Inv size l ∧
      lexed size (Place.first conf.isParam conf.line) conf.unread =
        ⟨result, l.args, l.conf.line⟩ :: if result.goesOn then
          lexed size (Place.first l.conf.isParam l.conf.line) l.conf.unread else [] := by
  have simulates := turn_simulates size
  have same := simulates.finish (conf.unread.length + 1) inv
  rw [lexer_view] at same
  obtain ⟨result, last, ended⟩ := finish_some (fun s : Place × List UInt8 => s.2.length)
    (turnAhead_fewer size) (Place.first conf.isParam conf.line, conf.unread)
    (Nat.lt_succ_self conf.unread.length)
  rw [ended] at same
  obtain ⟨⟨result', l⟩, call, seen⟩ := Option.map_eq_some_iff.mp same
  cases seen
  exact ⟨result', l, call, simulates.finish_inv inv call, finish_lexed ended⟩

theorem readings_lexed (n : Nat) {conf : ConfFile} (inv : Inv size conf.lexer) :
    readings size n conf = (lexed size (Place.first conf.isParam conf.line) conf.unread).take n := by
  induction n generalizing conf with
  | zero => rfl
  | succ n ih =>
    obtain ⟨result, l, call, kept, rest⟩ := ngxConfReadToken_lexed inv
    rw [readings, call, rest, List.take_succ_cons]
    dsimp only
    split_ifs with goes
    · rw [ih kept.again]
    · rw [List.take_nil]

end Calls

section Near

variable {size whole : Nat} {p : Place} {text : List UInt8}

/-- The error of a token that is too long for the buffer. -/
def Error.isLong : Error → Bool
  | .missing _ | .tooLong _ => true
  | _ => false

def Result.isLong : Result → Bool
  | .error e => e.isLong
  | _ => false

def Place.gap (p : Place) : Gap := ⟨p.flags, p.args.length = 0, p.tok.length⟩

theorem gap_next (p : Place) (ch : UInt8) :
    (∃ next, p.step ch = .again next ∧ p.gap.next ch = some next.gap) ∨
      ∃ result last, p.step ch = .done result last ∧
        p.gap.next ch = if result.goesOn then some Gap.first else none := by
  rw [Place.step, Gap.next]
  dsimp only [Place.gap]
  cases act : p.flags.act (p.args.length = 0) ch with
  | go flags => exact Or.inl ⟨_, rfl, by simp⟩
  | start flags keep =>
    refine Or.inl ⟨_, rfl, ?_⟩
    cases keep <;> rfl
  | word flags =>
    dsimp only
    by_cases semicolon : ch = chr ';'
    · rw [if_pos semicolon, if_pos (Or.inl semicolon)]
      exact Or.inr ⟨_, _, rfl, rfl⟩
    · rw [if_neg semicolon]
      by_cases brace : ch = chr '{'
      · rw [if_pos brace, if_pos (Or.inr brace)]
        exact Or.inr ⟨_, _, rfl, rfl⟩
      · have neither : ¬ (ch = chr ';' ∨ ch = chr '{') := not_or.mpr ⟨semicolon, brace⟩
        rw [if_neg brace, if_neg neither]
        exact Or.inl ⟨_, rfl, by simp⟩
  | stop result => exact Or.inr ⟨_, _, rfl, rfl⟩

theorem act_stops {flags : Flags} {noArgs : Bool} {ch : UInt8} {result : Result}
    (stops : flags.act noArgs ch = .stop result) : result.isLong = false := by
  have begins : ∀ flags : Flags, flags.begin noArgs ch = .stop result → result.isLong = false := by
    intro flags begins
    rw [Flags.begin] at begins
    split_ifs at begins <;> cases begins <;> rfl
  have inside : ∀ flags : Flags, flags.inside ch ≠ .stop result := by
    intro flags inside
    rw [Flags.inside] at inside
    dsimp only at inside
    split_ifs at inside
  rw [Flags.act] at stops
  split_ifs at stops <;> first
    | exact begins _ stops
    | exact absurd stops (inside _)
    | cases stops; rfl

theorem tooLong_isLong (p : Place) : (Result.error p.tooLong).isLong = true := by
  unfold Place.tooLong
  split_ifs <;> rfl

theorem atEnd_isLong (p : Place) : p.atEnd.isLong = false := by
  unfold Place.atEnd
  split_ifs <;> rfl

theorem step_stops {p last : Place} {ch : UInt8} {result : Result}
    (done_ : p.step ch = .done result last) : result.isLong = false := by
  rw [Place.step] at done_
  dsimp only at done_
  cases act : p.flags.act (p.args.length = 0) ch with
  | go flags =>
    rw [act] at done_
    cases done_
  | start flags keep =>
    rw [act] at done_
    cases done_
  | word flags =>
    rw [act] at done_
    dsimp only at done_
    split_ifs at done_ <;> cases done_ <;> rfl
  | stop result' =>
    rw [act] at done_
    cases done_
    exact act_stops act

theorem step_tok (p : Place) (ch : UInt8) : (p.step ch).state.tok.length ≤ p.tok.length + 1 := by
  rw [Place.step]
  dsimp only
  cases p.flags.act (p.args.length = 0) ch with
  | go flags => exact Nat.le_of_eq (List.length_append ..)
  | start flags keep =>
    cases keep with
    | false => exact Nat.zero_le _
    | true => exact Nat.succ_le_succ (Nat.zero_le _)
  | word flags =>
    dsimp only
    split_ifs <;> exact Nat.le_of_eq (List.length_append ..)
  | stop result => exact Nat.le_of_eq (List.length_append ..)

theorem near_cons (g : Gap) (ch : UInt8) (rest : List UInt8) :
    near size g (ch :: rest) = true ↔
      g.far ≠ size ∧ ∀ next, g.next ch = some next → near size next rest = true := by
  rw [near, Bool.and_eq_true, decide_eq_true_iff]
  refine and_congr_right fun _ => ?_
  cases g.next ch with
  | none => simp
  | some next => simp

theorem lexed_near (text : List UInt8) (p : Place) (fits : p.tok.length + text.length ≤ whole)
    (close : near size p.gap text = true) : lexed size p text = lexed whole p text := by
  induction text generalizing p with
  | nil => rfl
  | cons ch rest ih =>
    obtain ⟨short, further⟩ := (near_cons _ _ _).mp close
    rw [List.length_cons] at fits
    have grows := step_tok p ch
    have short' : ¬ p.tok.length = size := short
    rw [lexed, lexed, if_neg short', if_neg (by omega : ¬ p.tok.length = whole)]
    rcases gap_next p ch with ⟨next, step, gap⟩ | ⟨result, last, step, gap⟩
    · rw [step] at grows ⊢
      have enough : next.tok.length ≤ p.tok.length + 1 := grows
      exact ih next (by omega) (further _ gap)
    · rw [step]
      dsimp only
      by_cases goes : result.goesOn = true
      · rw [if_pos goes] at gap
        rw [if_pos goes, if_pos goes, ih (Place.first last.isParam last.line) _ (further _ gap)]
        exact (Nat.zero_add _).trans_le (by omega)
      · rw [if_neg goes, if_neg goes]

theorem lexed_far (text : List UInt8) (p : Place) (far : near size p.gap text = false) :
    ∃ reading ∈ lexed size p text, reading.result.isLong = true := by
  induction text generalizing p with
  | nil => cases far
  | cons ch rest ih =>
    rw [lexed]
    by_cases long : p.tok.length = size
    · refine ⟨_, by rw [if_pos long]; exact List.mem_singleton_self _, ?_⟩
      exact tooLong_isLong p
    · rw [if_neg long]
      have further : ∃ next, p.gap.next ch = some next ∧ near size next rest = false := by
        by_contra none_
        push Not at none_
        have close := (near_cons p.gap ch rest).mpr ⟨long, fun next gap =>
          (Bool.eq_false_or_eq_true _).resolve_right (none_ next gap)⟩
        rw [far] at close
        exact Bool.false_ne_true close
      obtain ⟨next, gap, farther⟩ := further
      rcases gap_next p ch with ⟨next', step, same⟩ | ⟨result, last, step, same⟩
      · rw [gap] at same
        cases same
        rw [step]
        exact ih next' farther
      · rw [gap] at same
        by_cases goes : result.goesOn = true
        · rw [if_pos goes] at same
          cases same
          obtain ⟨reading, member, isLong⟩ := ih (Place.first last.isParam last.line) farther
          rw [step]
          dsimp only
          rw [if_pos goes]
          exact ⟨reading, List.mem_cons_of_mem _ member, isLong⟩
        · rw [if_neg goes] at same
          cases same

theorem lexed_whole (text : List UInt8) (p : Place) (fits : p.tok.length + text.length ≤ whole) :
    ∀ reading ∈ lexed whole p text, reading.result.isLong = false := by
  induction text generalizing p with
  | nil =>
    intro reading member
    rw [lexed, List.mem_singleton] at member
    rw [member]
    exact atEnd_isLong p
  | cons ch rest ih =>
    rw [List.length_cons] at fits
    have grows := step_tok p ch
    intro reading member
    rw [lexed, if_neg (by omega : ¬ p.tok.length = whole)] at member
    cases step : p.step ch with
    | again next =>
      rw [step] at member grows
      have enough : next.tok.length ≤ p.tok.length + 1 := grows
      exact ih next (by omega) reading member
    | done result last =>
      rw [step] at member
      rcases List.mem_cons.mp member with here | later
      · rw [here]
        exact step_stops step
      · split_ifs at later with goes
        · exact ih (Place.first last.isParam last.line) ((Nat.zero_add _).trans_le (by omega))
            reading later
        · cases later

theorem lexed_run {cs rest : List UInt8} (p : Place)
    (keeps : ∀ ch ∈ cs, p.flags.act (p.args.length = 0) ch = .go p.flags ∧ ch ≠ LF)
    (room : p.tok.length + cs.length ≤ size) :
    lexed size p (cs ++ rest) = lexed size { p with tok := p.tok ++ cs } rest := by
  induction cs generalizing p with
  | nil =>
    rw [List.append_nil]
    rfl
  | cons ch cs ih =>
    obtain ⟨goes, line⟩ := keeps ch List.mem_cons_self
    rw [List.length_cons] at room
    have step : p.step ch = .again { p with tok := p.tok ++ [ch] } := by
      rw [Place.step, goes, if_neg line]
    rw [List.cons_append, lexed, if_neg (by omega : ¬ p.tok.length = size), step]
    dsimp only
    rw [ih { p with tok := p.tok ++ [ch] }
      (fun ch' member => keeps ch' (List.mem_cons_of_mem ch member))
      (by rw [List.length_append, List.length_singleton]; omega)]
    rw [List.append_assoc, List.singleton_append]

end Near

/-- With a buffer that is filled again, the calls leave what they leave with one that the whole text
fits into, if and only if the text is near. -/
theorem refill_iff (text : List UInt8) (room : Nat) :
    (∀ n, readings ngxConfBuffer n (openFile text) =
      readings (text.length + room) n (openFile text)) ↔
      near ngxConfBuffer Gap.first text = true := by
  have buffer : ∀ n, readings ngxConfBuffer n (openFile text) =
      (lexed ngxConfBuffer (Place.first false 1) text).take n :=
    fun n => readings_lexed n (openFile_inv ngxConfBuffer text)
  have whole : ∀ n, readings (text.length + room) n (openFile text) =
      (lexed (text.length + room) (Place.first false 1) text).take n :=
    fun n => readings_lexed n (openFile_inv (text.length + room) text)
  have fits : (Place.first false 1).tok.length + text.length ≤ text.length + room :=
    (Nat.zero_add _).trans_le (Nat.le_add_right _ _)
  constructor
  · intro same
    by_contra far
    obtain ⟨reading, member, isLong⟩ :=
      lexed_far text (Place.first false 1) (Bool.eq_false_of_not_eq_true far)
    obtain ⟨index, here⟩ := List.mem_iff_getElem?.mp member
    have taken := same (index + 1)
    rw [buffer, whole] at taken
    have there : ((lexed (text.length + room) (Place.first false 1) text).take (index + 1))[index]? =
        some reading := by
      rw [← taken, List.getElem?_take_of_lt (Nat.lt_succ_self index)]
      exact here
    have short := lexed_whole text (Place.first false 1) fits reading
      (List.mem_of_mem_take (List.mem_of_getElem? there))
    rw [short] at isLong
    exact Bool.false_ne_true isLong
  · intro close n
    rw [buffer, whole, lexed_near text (Place.first false 1) fits close]

theorem lexed_line (n : Nat) (p : Place) {size : Nat} {ch : UInt8} (noArgs : p.args = [])
    (goes : p.flags.act true ch = .go p.flags) (line : ch ≠ LF)
    (ends : p.flags.act true LF = .go Flags.blank) :
    (p.tok.length + n = size → lexed size p (List.replicate n ch ++ [LF]) =
      [⟨.error { p with tok := p.tok ++ List.replicate n ch }.tooLong, [], p.startLine⟩]) ∧
    (p.tok.length + n < size → lexed size p (List.replicate n ch ++ [LF]) =
      [⟨.fileDone, [], p.line + 1⟩]) := by
  have keeps : ∀ ch' ∈ List.replicate n ch,
      p.flags.act (p.args.length = 0) ch' = .go p.flags ∧ ch' ≠ LF := by
    intro ch' member
    rw [List.eq_of_mem_replicate member, noArgs]
    exact ⟨goes, line⟩
  have count : (List.replicate n ch).length = n := List.length_replicate
  constructor
  · intro full
    have long : (p.tok ++ List.replicate n ch).length = size := by
      rw [List.length_append, count, full]
    rw [lexed_run p keeps (by omega), lexed, if_pos long]
    dsimp only
    rw [noArgs]
  · intro room
    have short : ¬ (p.tok ++ List.replicate n ch).length = size := by
      rw [List.length_append, count]
      omega
    have act : p.flags.act (p.args.length = 0) LF = .go Flags.blank := by
      rw [noArgs]
      exact ends
    rw [lexed_run p keeps (by omega), lexed, if_neg short, Place.step, act]
    dsimp only
    rw [lexed, noArgs]
    rfl

/-- A comment and a run of blanks that fill the buffer. -/
theorem long_comment_fails :
    (readings ngxConfBuffer 1 (openFile (chr '#' :: (List.replicate 4095 (chr 'x') ++ [LF]))) =
        [⟨.error (.tooLong (chr '#' :: List.replicate 9 (chr 'x'))), [], 1⟩] ∧
      readings 4097 1 (openFile (chr '#' :: (List.replicate 4095 (chr 'x') ++ [LF]))) =
        [⟨.fileDone, [], 2⟩]) ∧
    (readings ngxConfBuffer 1 (openFile (List.replicate 4096 (chr ' ') ++ [LF])) =
        [⟨.error (.tooLong (List.replicate 10 (chr ' '))), [], 1⟩] ∧
      readings 4097 1 (openFile (List.replicate 4096 (chr ' ') ++ [LF])) =
        [⟨.fileDone, [], 2⟩]) := by
  have inComment : ({ Flags.blank with sharpComment := true } : Flags).act true (chr 'x') =
      .go { Flags.blank with sharpComment := true } := by decide
  have between : Flags.blank.act true (chr ' ') = .go Flags.blank := by decide
  have commentLine := fun size => @lexed_line 4095
    ⟨{ Flags.blank with sharpComment := true }, [], 1, 1, false, [chr '#']⟩ size _
    rfl inComment (by decide) (by decide)
  have blankLine := fun size => @lexed_line 4096 (Place.first false 1) size _
    rfl between (by decide) (by decide)
  have comment : ∀ size, size ≠ 0 →
      lexed size (Place.first false 1) (chr '#' :: (List.replicate 4095 (chr 'x') ++ [LF])) =
        lexed size ⟨{ Flags.blank with sharpComment := true }, [], 1, 1, false, [chr '#']⟩
          (List.replicate 4095 (chr 'x') ++ [LF]) := by
    intro size some_
    have short : ¬ (Place.first false 1).tok.length = size := fun none_ => some_ none_.symm
    rw [lexed, if_neg short]
    rfl
  have call : ∀ size text, readings size 1 (openFile text) =
      (lexed size (Place.first false 1) text).take 1 :=
    fun size text => readings_lexed 1 (openFile_inv size text)
  refine ⟨⟨?_, ?_⟩, ⟨?_, ?_⟩⟩
  · rw [call, comment _ (by decide), (commentLine ngxConfBuffer).1 rfl]
    rfl
  · rw [call, comment _ (by decide), (commentLine 4097).2 (by decide)]
    rfl
  · rw [call, (blankLine ngxConfBuffer).1 rfl]
    rfl
  · rw [call, (blankLine 4097).2 (by decide)]
    rfl

end NgxFormal.Core.ConfToken
