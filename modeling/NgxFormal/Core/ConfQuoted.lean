import NgxFormal.Core.ConfRefill

/-! A quoted token of a configuration, and the argument that it becomes. -/

namespace NgxFormal.Core.ConfToken

open Lib.Turns
open Times (bytes)

/-- The quote and the backslash behind a backslash each. -/
def escape (quote : UInt8) (s : List UInt8) : List UInt8 :=
  s.flatMap fun ch => if ch = quote ∨ ch = chr '\\' then [chr '\\', ch] else [ch]

def Flags.within (quote : UInt8) (variable_ : Bool) : Flags :=
  ⟨false, false, false, variable_, false, quote == chr '\'', quote == chr '"'⟩

def Flags.skips (quote : UInt8) : Flags :=
  ⟨false, false, false, false, true, quote == chr '\'', quote == chr '"'⟩

def Flags.behind : Flags := ⟨true, false, false, false, false, false, false⟩

/-- Bytes that the lexer goes over, while the token grows. -/
inductive Goes : Place → List UInt8 → Place → Prop where
  | nil (p : Place) : Goes p [] p
  | cons {p q r : Place} {ch : UInt8} {cs : List UInt8} (step : p.step ch = .again q)
      (tok : q.tok = p.tok ++ [ch]) (goes : Goes q cs r) : Goes p (ch :: cs) r

section Within

variable {quote ch : UInt8} {variable_ noArgs : Bool} {s rest : List UInt8} {size : Nat}
  {p q r : Place} {cs ds : List UInt8}

theorem unescape_plain (ch : UInt8) {src : UInt8} (rest : List UInt8) (plain : src ≠ chr '\\') :
    unescape ch (src :: rest) = src :: unescape ch rest := by
  cases rest with
  | nil => exact if_neg plain
  | cons next rest => exact if_neg plain

theorem unescape_escape (ch : UInt8) (isQuote : quote = chr '"' ∨ quote = chr '\'')
    (s : List UInt8) : unescape ch (escape quote s) = s := by
  induction s with
  | nil => rfl
  | cons b s ih =>
    rw [escape, List.flatMap_cons]
    split_ifs with special
    · have known : escaped b = some b := by
        rw [escaped, if_pos]
        rcases special with rfl | rfl
        · exact isQuote.imp id Or.inl
        · exact Or.inr (Or.inr rfl)
      rw [List.cons_append, List.singleton_append, unescape, if_pos rfl, known]
      exact congrArg (b :: ·) ih
    · rw [List.singleton_append, unescape_plain ch _ fun same => special (Or.inr same)]
      exact congrArg (b :: ·) ih

theorem Goes.append (first : Goes p cs q) (second : Goes q ds r) : Goes p (cs ++ ds) r := by
  induction first with
  | nil p => exact second
  | cons step tok _ ih => exact .cons step tok (ih second)

theorem Goes.tok (goes : Goes p cs q) : q.tok = p.tok ++ cs := by
  induction goes with
  | nil p => exact (List.append_nil _).symm
  | cons step tok _ ih => rw [ih, tok, List.append_assoc, List.singleton_append]

theorem turnAhead_step (short : p.tok.length ≠ size) (ch : UInt8) (rest : List UInt8) :
    turnAhead size (p, ch :: rest) = (p.step ch).map fun q => (q, rest) := if_neg short

theorem turnAhead_full (long : p.tok.length = size) (ch : UInt8) (rest : List UInt8) :
    turnAhead size (p, ch :: rest) =
      .done (.error p.tooLong) ({ p with line := p.startLine }, ch :: rest) := if_pos long

theorem turns_goes (goes : Goes p cs q) (room : p.tok.length + cs.length ≤ size)
    (rest : List UInt8) :
    turns (turnAhead size) cs.length (p, cs ++ rest) = .again (q, rest) := by
  induction goes with
  | nil p => rfl
  | @cons p q r ch cs step tok goes ih =>
    rw [List.length_cons] at room
    have taken : turnAhead size (p, ch :: (cs ++ rest)) = .again (q, cs ++ rest) := by
      rw [turnAhead_step (by omega), step]
      rfl
    rw [List.cons_append, List.length_cons, turns_again _ taken]
    apply ih
    rw [tok, List.length_append, List.length_singleton]
    omega

theorem turns_far (goes : Goes p cs q) (small : p.tok.length ≤ size)
    (far : size < p.tok.length + cs.length) (rest : List UInt8) :
    ∃ error last, turns (turnAhead size) cs.length (p, cs ++ rest) = .done (.error error) last := by
  induction goes with
  | nil p => exact absurd far (Nat.not_lt.mpr small)
  | @cons p q r ch cs step tok goes ih =>
    rw [List.length_cons] at far
    by_cases long : p.tok.length = size
    · exact ⟨_, _, turns_done _ (turnAhead_full long _ _)⟩
    · have taken : turnAhead size (p, ch :: (cs ++ rest)) = .again (q, cs ++ rest) := by
        rw [turnAhead_step long, step]
        rfl
      rw [List.cons_append, List.length_cons, turns_again _ taken]
      have grown : q.tok.length = p.tok.length + 1 := by
        rw [tok, List.length_append, List.length_singleton]
      exact ih (by omega) (by omega)

theorem act_open (isQuote : quote = chr '"' ∨ quote = chr '\'') (noArgs : Bool) :
    Flags.blank.act noArgs quote = .start (Flags.within quote false) false := by
  rcases isQuote with rfl | rfl <;> cases noArgs <;> decide

theorem act_plain (variable_ : Bool) (isQuote : quote = chr '"' ∨ quote = chr '\'') (noArgs : Bool)
    (other : ch ≠ quote) (plain : ch ≠ chr '\\') :
    ∃ v, (Flags.within quote variable_).act noArgs ch = .go (Flags.within quote v) := by
  have line : (if ch = LF then { Flags.within quote variable_ with sharpComment := false }
      else Flags.within quote variable_) = Flags.within quote variable_ := ite_self _
  rw [Flags.act, line]
  simp only [Flags.within, Bool.false_eq_true, if_false, Flags.inside]
  by_cases brace : ch = chr '{' ∧ variable_ = true
  · exact ⟨variable_, if_pos brace⟩
  · by_cases dollar : ch = chr '$'
    · exact ⟨true, (if_neg brace).trans ((if_neg plain).trans (if_pos dollar))⟩
    · refine ⟨false, (if_neg brace).trans ((if_neg plain).trans ((if_neg dollar).trans ?_))⟩
      rcases isQuote with rfl | rfl
      · exact (if_pos rfl).trans (if_neg other)
      · exact (if_neg (by decide)).trans ((if_pos rfl).trans (if_neg other))

theorem act_backslash (isQuote : quote = chr '"' ∨ quote = chr '\'') (noArgs : Bool) :
    (Flags.within quote variable_).act noArgs (chr '\\') =
      .go (Flags.skips quote) := by
  rcases isQuote with rfl | rfl <;> cases noArgs <;> cases variable_ <;> decide

theorem act_quoted (noArgs : Bool) (ch : UInt8) :
    (Flags.skips quote).act noArgs ch = .go (Flags.within quote false) := by
  have line : (if ch = LF then { Flags.skips quote with sharpComment := false }
      else Flags.skips quote) = Flags.skips quote := ite_self _
  rw [Flags.act, line]
  rfl

theorem act_close (isQuote : quote = chr '"' ∨ quote = chr '\'') (noArgs : Bool) :
    (Flags.within quote variable_).act noArgs quote = .word Flags.behind := by
  rcases isQuote with rfl | rfl <;> cases noArgs <;> cases variable_ <;> decide

theorem goes_one {flags : Flags} (act : p.flags.act (p.args.length = 0) ch = .go flags) :
    Goes p [ch] { p with
      flags := flags
      line := if ch = LF then p.line + 1 else p.line
      tok := p.tok ++ [ch] } := by
  refine .cons ?_ rfl (.nil _)
  rw [Place.step, act]

theorem goes_escape (isQuote : quote = chr '"' ∨ quote = chr '\'') (s : List UInt8)
    (within : p.flags = Flags.within quote variable_) :
    ∃ q v, Goes p (escape quote s) q ∧ q.flags = Flags.within quote v ∧ q.args = p.args := by
  induction s generalizing p variable_ with
  | nil => exact ⟨p, variable_, .nil p, within, rfl⟩
  | cons b s ih =>
    rw [escape, List.flatMap_cons]
    split_ifs with special
    · have first := goes_one ((congrArg (Flags.act · (p.args.length = 0) (chr '\\')) within).trans
        (act_backslash isQuote _))
      have second := goes_one (p := { p with
        flags := Flags.skips quote
        line := if chr '\\' = LF then p.line + 1 else p.line
        tok := p.tok ++ [chr '\\'] }) (act_quoted (p.args.length = 0) b)
      obtain ⟨q, v, goes, flags, args⟩ := ih (p := { p with
        flags := Flags.within quote false
        line := if b = LF then (if chr '\\' = LF then p.line + 1 else p.line) + 1
          else if chr '\\' = LF then p.line + 1 else p.line
        tok := p.tok ++ [chr '\\'] ++ [b] }) rfl
      exact ⟨q, v, (first.append second).append goes, flags, args⟩
    · obtain ⟨w, act⟩ := act_plain variable_ isQuote (p.args.length = 0)
        (fun same => special (Or.inl same)) fun same => special (Or.inr same)
      have first := goes_one ((congrArg (Flags.act · (p.args.length = 0) b) within).trans act)
      obtain ⟨q, v, goes, flags, args⟩ := ih (p := { p with
        flags := Flags.within quote w
        line := if b = LF then p.line + 1 else p.line
        tok := p.tok ++ [b] }) rfl
      exact ⟨q, v, first.append goes, flags, args⟩

theorem step_behind {c : UInt8} (behind : p.flags = Flags.behind) (ends : c = chr ' ' ∨ c = chr ';') :
    ∃ q, p.step c = (if c = chr ';' then .done .ok q else .again q) ∧ q.args = p.args ∧
      (c ≠ chr ';' → q.flags = Flags.blank) := by
  rw [Place.step, behind]
  rcases ends with rfl | rfl
  · have act : Flags.behind.act (p.args.length = 0) (chr ' ') = .go Flags.blank := by
      cases decide (p.args.length = 0) <;> decide
    rw [act]
    exact ⟨_, rfl, rfl, fun _ => rfl⟩
  · have act : Flags.behind.act (p.args.length = 0) (chr ';') = .stop .ok := by
      cases decide (p.args.length = 0) <;> decide
    rw [act]
    exact ⟨_, rfl, rfl, fun other => absurd rfl other⟩

theorem step_open (isQuote : quote = chr '"' ∨ quote = chr '\'') (ready : p.flags = Flags.blank) :
    ∃ q, p.step quote = .again q ∧ q.flags = Flags.within quote false ∧ q.args = p.args ∧
      q.tok = [] := by
  rw [Place.step, ready, act_open isQuote]
  exact ⟨_, rfl, rfl, rfl, rfl⟩

theorem goes_close (isQuote : quote = chr '"' ∨ quote = chr '\'')
    (within : p.flags = Flags.within quote variable_) :
    ∃ q, Goes p [quote] q ∧ q.flags = Flags.behind ∧
      q.args = p.args ++ [unescape quote p.tok] := by
  have semicolon : quote ≠ chr ';' := by rcases isQuote with rfl | rfl <;> decide
  have brace : quote ≠ chr '{' := by rcases isQuote with rfl | rfl <;> decide
  refine ⟨{ p with
      flags := Flags.behind
      args := p.args ++ [unescape quote p.tok]
      line := if quote = LF then p.line + 1 else p.line
      tok := p.tok ++ [quote] }, .cons ?_ rfl (.nil _), rfl, rfl⟩
  rw [Place.step, within, act_close isQuote]
  dsimp only
  rw [if_neg semicolon, if_neg brace]

theorem turns_quoted {c : UInt8} (isQuote : quote = chr '"' ∨ quote = chr '\'')
    (ends : c = chr ' ' ∨ c = chr ';') (ready : p.flags = Flags.blank)
    (small : p.tok.length ≤ size) (s rest : List UInt8) :
    (p.tok.length < size ∧ (escape quote s).length + 1 < size → ∃ q,
      turns (turnAhead size) ((escape quote s).length + 3)
        (p, quote :: (escape quote s ++ quote :: c :: rest)) =
          (if c = chr ';' then .done .ok (q, rest) else .again (q, rest)) ∧
        q.args = p.args ++ [s] ∧ (c ≠ chr ';' → q.flags = Flags.blank)) ∧
    (¬ (p.tok.length < size ∧ (escape quote s).length + 1 < size) → ∃ error last,
      turns (turnAhead size) ((escape quote s).length + 3)
        (p, quote :: (escape quote s ++ quote :: c :: rest)) = .done (.error error) last) := by
  obtain ⟨q₁, opened, flags₁, args₁, tok₁⟩ := step_open isQuote ready
  obtain ⟨q₂, v, goes₂, flags₂, args₂⟩ := goes_escape isQuote s flags₁
  obtain ⟨q₃, goes₃, flags₃, args₃⟩ := goes_close isQuote flags₂
  obtain ⟨q₄, behind, args₄, flags₄⟩ := step_behind flags₃ ends
  have goes := goes₂.append goes₃
  have length : (escape quote s ++ [quote]).length = (escape quote s).length + 1 := by
    rw [List.length_append, List.length_singleton]
  have tok₃ : q₃.tok = escape quote s ++ [quote] := by
    rw [goes.tok, tok₁, List.nil_append]
  have word : q₃.args = p.args ++ [s] := by
    rw [args₃, goes₂.tok, tok₁, List.nil_append, unescape_escape quote isQuote, args₂, args₁]
  have text : quote :: (escape quote s ++ quote :: c :: rest) =
      quote :: ((escape quote s ++ [quote]) ++ c :: rest) := by
    rw [List.append_assoc, List.singleton_append]
  have first : p.tok.length ≠ size →
      turns (turnAhead size) ((escape quote s).length + 3)
        (p, quote :: (escape quote s ++ quote :: c :: rest)) =
      turns (turnAhead size) ((escape quote s ++ [quote]).length + 1)
        (q₁, (escape quote s ++ [quote]) ++ c :: rest) := by
    intro short
    rw [text, length]
    refine turns_again _ ?_
    rw [turnAhead_step short, opened]
    rfl
  have last : (escape quote s).length + 1 ≤ size →
      turns (turnAhead size) ((escape quote s ++ [quote]).length + 1)
        (q₁, (escape quote s ++ [quote]) ++ c :: rest) =
      turns (turnAhead size) 1 (q₃, c :: rest) := by
    intro room
    refine turns_add _ 1 (turns_goes goes ?_ _)
    rw [tok₁, length]
    exact (Nat.zero_add _).trans_le room
  constructor
  · rintro ⟨short, room⟩
    refine ⟨q₄, ?_, args₄.trans word, flags₄⟩
    have within : ¬ q₃.tok.length = size := by
      rw [tok₃, length]
      omega
    rw [first (Nat.ne_of_lt short), last (Nat.le_of_lt room), turns, turnAhead_step within, behind]
    split_ifs <;> rfl
  · intro fails
    by_cases long : p.tok.length = size
    · exact ⟨_, _, turns_done _ (turnAhead_full long _ _)⟩
    · rw [first long]
      have full : size ≤ (escape quote s).length + 1 := by omega
      rcases Nat.lt_or_eq_of_le full with far | same
      · have empty : q₁.tok.length = 0 := congrArg List.length tok₁
        have outside : size < q₁.tok.length + (escape quote s ++ [quote]).length := by
          rw [empty, length, Nat.zero_add]
          exact far
        obtain ⟨error, state, ended⟩ := turns_far goes (by omega) outside (c :: rest)
        exact ⟨error, state, turns_add_done _ 1 ended⟩
      · rw [last (Nat.le_of_eq same.symm)]
        have filled : q₃.tok.length = size := by rw [tok₃, length, same]
        exact ⟨_, _, turns_done 0 (turnAhead_full filled _ _)⟩

end Within

/-- A call comes to an argument: behind `n` turns for a blank, and with its end for a semicolon. -/
def Produces (conf : ConfFile) (n : Nat) (args : List (List UInt8)) (c : UInt8)
    (rest : List UInt8) : Prop :=
  ∃ l, l.args = args ∧ l.conf.unread = rest ∧
    if c = chr ';' then ngxConfReadToken ngxConfBuffer conf = some (.ok, l)
    else turns (Lexer.turn ngxConfBuffer) n conf.lexer = .again l ∧ l.flags = Flags.blank

theorem escape_plain {quote : UInt8} {s : List UInt8}
    (plain : ∀ ch ∈ s, ch ≠ quote ∧ ch ≠ chr '\\') : escape quote s = s := by
  induction s with
  | nil => rfl
  | cons b s ih =>
    obtain ⟨other, straight⟩ := plain b List.mem_cons_self
    have rest := ih fun ch member => plain ch (List.mem_cons_of_mem b member)
    rw [escape, List.flatMap_cons, if_neg (not_or.mpr ⟨other, straight⟩), List.singleton_append]
    exact congrArg (b :: ·) rest

end NgxFormal.Core.ConfToken
