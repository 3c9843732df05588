import NgxFormal.Mail.Outcomes

/-! The `LOGIN` command of IMAP: `ngx_mail_imap_parse_command`, the backslashes that
`ngx_mail_imap_auth_state` takes out of the arguments, and what `ngx_mail_imap_login` receives. -/

namespace NgxFormal.Mail

/-- The loop over one argument, in the buffer; every turn moves `src`. `none` is a read behind
`end`. -/
def unescapeLoop : Nat → List UInt8 → Nat → Nat → Nat → Option (List UInt8 × Nat)
  | 0, buf, dst, _, _ => some (buf, dst)
  | fuel + 1, buf, dst, src, last =>
    if src < last then
      let buf := buf.set dst (buf.getD src 0)
      if buf.getD src 0 = 0x5c then
        if src + 1 < last then
          unescapeLoop fuel (buf.set dst (buf.getD (src + 1) 0)) (dst + 1) (src + 2) last
        else none
      else unescapeLoop fuel buf (dst + 1) (src + 1) last
    else some (buf, dst)

/-- The argument behind the loop. The arguments are parts of the buffer that do not overlap. -/
def unescapeArg (start : Nat) (buf : List UInt8) (arg : Str) : Option (List UInt8) :=
  let first := arg.data - start
  (unescapeLoop arg.len buf first first (first + arg.len)).map fun (buf, dst) =>
    (buf.drop first).take (dst - first)

/-- `NGX_IMAP_LOGIN` -/
def imapLogin : Nat := 1

/-- The arguments that `ngx_mail_imap_login` gets from `ngx_mail_imap_auth_state`, for a session in
`ngx_imap_start`; `none` is another command, or a loop that leaves an argument. -/
def loginArgs (buf : List UInt8) (s : Session) : Option (List (List UInt8)) :=
  if s.command = imapLogin then
    if s.backslash then s.args.mapM (unescapeArg s.start buf)
    else some (s.args.map (argBytes s.start buf))
  else none

/-- What it receives of a command that comes in `reads`. -/
def received (ssl : Bool) : Session → List (List UInt8) → Option (List (List UInt8))
  | _, [] => none
  | s, bytes :: rest =>
    match readCommand ssl .imap s bytes with
    | (s, .ok) => loginArgs s.buf s
    | (_, .parseInvalidCommand) => none
    | (s, .again) | (s, .imapNext) => received ssl s rest

/-- The client sends a literal when the server has asked for it. -/
def Waits (ssl : Bool) : Session → List (List UInt8) → Prop
  | _, [] => True
  | s, bytes :: rest =>
    match readCommand ssl .imap s bytes with
    | (s, .imapNext) => s.unread = [] ∧ Waits ssl s rest
    | (s, .again) => Waits ssl s rest
    | _ => True

/-- The forms of a user name or a password; a character of a quoted string comes with or without a
backslash, and the number of a literal has its digits. -/
inductive Written where
  | atom (text : List UInt8)
  | quoted (chars : List (Bool × UInt8))
  | literal (sync : Bool) (digits text : List UInt8)

def quotedChar (char : Bool × UInt8) : List UInt8 := if char.1 then [0x5c, char.2] else [char.2]

namespace Written

def text : Written → List UInt8
  | atom text => text
  | quoted chars => chars.map Prod.snd
  | literal _ _ text => text

def raw : Written → List UInt8
  | atom text => text
  | quoted chars => chars.flatMap quotedChar
  | literal _ _ text => text

def bytes : Written → List UInt8
  | atom text => text
  | quoted chars => chr '"' :: (chars.flatMap quotedChar ++ [chr '"'])
  | literal sync digits text =>
    0x7b :: (digits ++ ((if sync then [] else [chr '+']) ++ (0x7d :: CR :: LF :: text)))

def isAtom : Written → Bool
  | atom _ => true
  | _ => false

def escapes : Written → Bool
  | quoted chars => chars.any Prod.fst
  | _ => false

def literalText : Written → List UInt8
  | literal _ _ text => text
  | _ => []

def isEmptyLiteral : Written → Bool
  | literal _ _ text => text.isEmpty
  | _ => false

end Written

def number (digits : List UInt8) : Nat := digits.foldl (fun n ch => n * 10 + digitValue ch) 0

def Written.Valid : Written → Prop
  | .atom text => text ≠ [] ∧
      ∀ ch ∈ text, ch ≠ chr ' ' ∧ ch ≠ CR ∧ ch ≠ LF ∧ ch ≠ chr '"' ∧ ch ≠ 0x5c ∧ ch ≠ 0x7b
  | .quoted chars => ∀ char ∈ chars, char.2 ≠ CR ∧ char.2 ≠ LF ∧
      (char.1 = false → char.2 ≠ chr '"' ∧ char.2 ≠ 0x5c)
  | .literal _ digits text => digits ≠ [] ∧ (∀ ch ∈ digits, isDigit ch = true) ∧
      number digits = text.length ∧ text.length < 2 ^ 64

/-- A tag, and `LOGIN` in whatever case. -/
structure LoginName (tag name : List UInt8) : Prop where
  tag : ∀ ch ∈ tag, ch ≠ chr ' ' ∧ ch ≠ CR ∧ ch ≠ LF
  letters : ∀ ch ∈ name, isLetter ch = true
  login : name.map ngxToupper = ("LOGIN").toList.map chr

def loginLine (tag name : List UInt8) (user password : Written) : List UInt8 :=
  tag ++ (chr ' ' :: (name ++ (chr ' ' :: (user.bytes ++ (chr ' ' :: (password.bytes ++ [CR, LF]))))))

/-- The session and the forms with which the arguments are the ones that are written. -/
structure Exact (s : Session) (user password : Written) : Prop where
  quoted : s.quoted = true → user.isAtom = false
  filled : user.isEmptyLiteral = false ∧ password.isEmptyLiteral = false
  plain : (s.backslash || user.escapes || password.escapes) = true →
    0x5c ∉ user.literalText ∧ 0x5c ∉ password.literalText

section Unescape

variable {buf text rest : List UInt8} {dst src last start : Nat} {arg : Str}

/-- What is left of the bytes of an argument, in front of one or behind a backslash. -/
def unescapeFrom : Bool → List UInt8 → Option (List UInt8)
  | escaped, [] => if escaped then none else some []
  | escaped, ch :: rest =>
    if !escaped ∧ ch = 0x5c then unescapeFrom true rest
    else (unescapeFrom false rest).map (ch :: ·)

def unescape (text : List UInt8) : Option (List UInt8) := unescapeFrom false text

theorem unescape_cons {ch : UInt8} (plain : ch ≠ 0x5c) (rest : List UInt8) :
    unescape (ch :: rest) = (unescape rest).map (ch :: ·) :=
  if_neg fun both => plain both.2

theorem unescape_escaped (ch : UInt8) (rest : List UInt8) :
    unescape (0x5c :: ch :: rest) = (unescape rest).map (ch :: ·) := by
  rw [unescape, unescapeFrom, if_pos ⟨rfl, rfl⟩, unescapeFrom, if_neg fun both => absurd both.1 (by decide)]
  rfl

theorem unescape_plain (plain : 0x5c ∉ text) : unescape text = some text := by
  induction text with
  | nil => rfl
  | cons ch text ih =>
    have other : ch ≠ 0x5c := fun same => plain (by rw [same]; exact List.mem_cons_self)
    rw [unescape_cons other, ih fun member => plain (List.mem_cons_of_mem _ member)]
    rfl

theorem unescapeFrom_length {escaped : Bool} (done : unescapeFrom escaped text = some rest) :
    rest.length + escaped.toNat ≤ text.length + escaped.toNat ∧
      (0x5c ∈ text → escaped = false → rest.length < text.length) := by
  induction text generalizing escaped rest with
  | nil =>
    cases escaped with
    | true => cases done
    | false =>
      cases done
      exact ⟨Nat.le_refl _, fun member => absurd member List.not_mem_nil⟩
  | cons ch text ih =>
    rw [unescapeFrom] at done
    split at done
    · obtain ⟨shorter, _⟩ := ih done
      rw [List.length_cons]
      exact ⟨by omega, fun _ _ => by omega⟩
    · rename_i other
      obtain ⟨inner, unescaped, same⟩ := Option.map_eq_some_iff.mp done
      obtain ⟨shorter, strict⟩ := ih unescaped
      rw [← same, List.length_cons, List.length_cons]
      refine ⟨by omega, ?_⟩
      intro back fresh
      have inside : 0x5c ∈ text := by
        rcases List.mem_cons.mp back with first | inside
        · exact absurd ⟨by rw [fresh]; rfl, first.symm⟩ other
        · exact inside
      have less := strict inside rfl
      omega

theorem unescape_back (back : 0x5c ∈ text) : unescape text ≠ some text := by
  intro done
  have shorter := (unescapeFrom_length done).2 back rfl
  omega

theorem unescape_quoted (chars : List (Bool × UInt8))
    (plain : ∀ char ∈ chars, char.1 = false → char.2 ≠ 0x5c) :
    unescape (chars.flatMap quotedChar) = some (chars.map Prod.snd) := by
  induction chars with
  | nil => rfl
  | cons char chars ih =>
    have later := ih fun c member => plain c (List.mem_cons_of_mem _ member)
    rw [List.flatMap_cons, List.map_cons]
    cases escaped : char.1 with
    | true =>
      have text : quotedChar char = [0x5c, char.2] := if_pos escaped
      rw [text, List.cons_append, List.cons_append, List.nil_append, unescape_escaped, later]
      rfl
    | false =>
      have text : quotedChar char = [char.2] := if_neg (by rw [escaped]; decide)
      rw [text, List.cons_append, List.nil_append,
        unescape_cons (plain char List.mem_cons_self escaped), later]
      rfl

theorem unescape_append (plain : 0x5c ∉ text) (done : unescape (text ++ rest) = some buf) :
    ∃ more, buf = text ++ more ∧ unescape rest = some more := by
  induction text generalizing buf with
  | nil => exact ⟨buf, rfl, done⟩
  | cons ch text ih =>
    have other : ch ≠ 0x5c := fun same => plain (by rw [same]; exact List.mem_cons_self)
    rw [List.cons_append, unescape_cons other] at done
    obtain ⟨inner, unescaped, same⟩ := Option.map_eq_some_iff.mp done
    obtain ⟨more, split, left⟩ := ih (fun member => plain (List.mem_cons_of_mem _ member)) unescaped
    exact ⟨more, by rw [← same, split, List.cons_append], left⟩

def spliced (buf : List UInt8) (dst : Nat) (text : List UInt8) : List UInt8 :=
  buf.take dst ++ (text ++ buf.drop (dst + text.length))

theorem spliced_cons {ch : UInt8} (inside : dst < buf.length) :
    spliced (buf.set dst ch) (dst + 1) text = spliced buf dst (ch :: text) := by
  have front : (buf.set dst ch).take (dst + 1) = buf.take dst ++ [ch] := by
    rw [List.take_add_one, List.take_set_of_le (Nat.le_refl dst), List.getElem?_set_self inside]
    rfl
  have tail : (buf.set dst ch).drop (dst + 1 + text.length) = buf.drop (dst + 1 + text.length) :=
    List.drop_set_of_lt (by omega)
  rw [spliced, spliced, front, tail, List.length_cons, List.append_assoc, List.cons_append,
    List.cons_append, List.nil_append, Nat.add_assoc, Nat.add_comm 1]

def slice (buf : List UInt8) (src last : Nat) : List UInt8 := (buf.drop src).take (last - src)

theorem slice_cons (before : src < last) (inside : last ≤ buf.length) :
    slice buf src last = buf.getD src 0 :: slice buf (src + 1) last := by
  have there : src < buf.length := by omega
  have count : last - src = last - (src + 1) + 1 := by omega
  rw [slice, List.drop_eq_getElem_cons there, count, List.take_succ_cons,
    List.getD_eq_getElem?_getD, List.getElem?_eq_getElem there]
  rfl

theorem slice_set {ch : UInt8} (before : dst < src) : slice (buf.set dst ch) src last = slice buf src last := by
  rw [slice, slice, List.drop_set_of_lt before]

theorem getD_set {ch : UInt8} (inside : dst < buf.length) :
    (buf.set dst ch).getD src 0 = if src = dst then ch else buf.getD src 0 := by
  by_cases same : src = dst
  · rw [if_pos same, same, List.getD_eq_getElem?_getD, List.getElem?_set_self inside]
    rfl
  · rw [if_neg same, List.getD_eq_getElem?_getD, List.getElem?_set_ne (by omega),
      ← List.getD_eq_getElem?_getD]

theorem unescape_end (done : last ≤ src) :
    (unescape (slice buf src last)).map (fun text => (spliced buf dst text, dst + text.length)) =
      some (buf, dst) := by
  have nothing : slice buf src last = [] := by
    rw [slice, Nat.sub_eq_zero_of_le done, List.take_zero]
  rw [nothing, unescape, unescapeFrom, if_neg (by decide), Option.map_some, spliced, List.nil_append]
  exact congrArg (fun whole => some (whole, dst)) (List.take_append_drop dst buf)

theorem unescapeLoop_spec {fuel : Nat} (enough : last ≤ src + fuel) (below : dst ≤ src)
    (inside : last ≤ buf.length) :
    unescapeLoop fuel buf dst src last =
      (unescape (slice buf src last)).map fun text => (spliced buf dst text, dst + text.length) := by
  induction fuel generalizing buf dst src with
  | zero => exact (unescape_end enough).symm
  | succ fuel ih =>
    rw [unescapeLoop]
    by_cases more : src < last
    · have room : dst < buf.length := by omega
      have kept : (buf.set dst (buf.getD src 0)).getD src 0 = buf.getD src 0 := by
        rw [getD_set room]
        split <;> rfl
      have size (ch : UInt8) : last ≤ (buf.set dst ch).length := by
        rw [List.length_set]
        exact inside
      have count (text : List UInt8) : dst + 1 + text.length = dst + (text.length + 1) := by omega
      rw [if_pos more, slice_cons more inside]
      dsimp only
      rw [kept]
      by_cases back : buf.getD src 0 = 0x5c
      · rw [if_pos back]
        by_cases next : src + 1 < last
        · have read : (buf.set dst (buf.getD src 0)).getD (src + 1) 0 = buf.getD (src + 1) 0 := by
            rw [getD_set room, if_neg (by omega)]
          rw [if_pos next, read, List.set_set, slice_cons next inside, back, unescape_escaped,
            ih (by omega) (by omega) (size _), slice_set (by omega), Option.map_map]
          simp only [spliced_cons room, count]
          rfl
        · have nothing : slice buf (src + 1) last = [] := by
            rw [slice, Nat.sub_eq_zero_of_le (Nat.le_of_not_lt next), List.take_zero]
          rw [if_neg next, nothing, back]
          rfl
      · rw [if_neg back, unescape_cons back, ih (by omega) (by omega) (size _),
          slice_set (by omega), Option.map_map]
        simp only [spliced_cons room, count]
        rfl
    · rw [if_neg more]
      exact (unescape_end (Nat.le_of_not_lt more)).symm

theorem unescapeArg_eq (inside : arg.data - start + arg.len ≤ buf.length) :
    unescapeArg start buf arg = unescape (argBytes start buf arg) := by
  have bytes : slice buf (arg.data - start) (arg.data - start + arg.len) = argBytes start buf arg := by
    rw [slice, Nat.add_sub_cancel_left]
    rfl
  have text (text : List UInt8) : ((spliced buf (arg.data - start) text).drop (arg.data - start)).take
      text.length = text := by
    have front : (buf.take (arg.data - start)).length = arg.data - start := by
      rw [List.length_take]
      omega
    rw [spliced, List.drop_left' front, List.take_left]
  rw [unescapeArg]
  dsimp only
  rw [unescapeLoop_spec (by omega) (Nat.le_refl _) inside, bytes, Option.map_map]
  simp only [Function.comp_def, Nat.add_sub_cancel_left, text, Option.map_id']

end Unescape

section Reads

variable {ssl : Bool} {seen rest : List UInt8} {ch : UInt8} {s t : Session}

def core (s : Session) : Session :=
  { s with
    buf := []
    pos := 0 }

theorem imapTurn_frame (ssl : Bool) (seen : List UInt8) (ch : UInt8) (s : Session) (buf : List UInt8)
    (pos : Nat) :
    (imapTurn ssl seen ch s).1.start = s.start ∧ (imapTurn ssl seen ch s).1.buf = s.buf ∧
      (imapTurn ssl seen ch { s with buf := buf, pos := pos }).2 = (imapTurn ssl seen ch s).2 ∧
      core (imapTurn ssl seen ch { s with buf := buf, pos := pos }).1 = core (imapTurn ssl seen ch s).1 := by
  have done (p : Nat) (t : Session) : (imapDone p t).1.start = t.start ∧ (imapDone p t).1.buf = t.buf ∧
      (imapDone p { t with buf := buf, pos := pos }).2 = (imapDone p t).2 ∧
      core (imapDone p { t with buf := buf, pos := pos }).1 = core (imapDone p t).1 := by
    unfold imapDone
    dsimp only
    split_ifs <;> exact ⟨rfl, rfl, rfl, rfl⟩
  have ends (p : Nat) (ch : UInt8) (t : Session) : (imapEnds p ch t).1.start = t.start ∧
      (imapEnds p ch t).1.buf = t.buf ∧
      (imapEnds p ch { t with buf := buf, pos := pos }).2 = (imapEnds p ch t).2 ∧
      core (imapEnds p ch { t with buf := buf, pos := pos }).1 = core (imapEnds p ch t).1 := by
    unfold imapEnds
    split_ifs
    · exact ⟨rfl, rfl, rfl, rfl⟩
    · exact done p t
    · exact ⟨rfl, rfl, rfl, rfl⟩
  have argument (t : Session) (state : State) : (imapArgument t state).1.start = t.start ∧
      (imapArgument t state).1.buf = t.buf ∧
      (imapArgument { t with buf := buf, pos := pos } state).2 = (imapArgument t state).2 ∧
      core (imapArgument { t with buf := buf, pos := pos } state).1 = core (imapArgument t state).1 := by
    unfold imapArgument
    split_ifs <;> exact ⟨rfl, rfl, rfl, rfl⟩
  obtain ⟨start, placed, old, at_, state, command, args, cmdStart, argStart, argEnd, tag, literalLen,
    quoted, backslash, noSyncLiteral⟩ := s
  cases state with
  | command =>
    dsimp only [imapTurn]
    split_ifs
    · cases findCommand (imapTable ssl) (seen.drop (cmdStart - start)) with
      | none => exact ⟨rfl, rfl, rfl, rfl⟩
      | some found => exact ends _ _ _
    · exact ⟨rfl, rfl, rfl, rfl⟩
    · exact ⟨rfl, rfl, rfl, rfl⟩
  | spacesBeforeArgument =>
    dsimp only [imapTurn]
    split_ifs
    all_goals first
      | exact ⟨rfl, rfl, rfl, rfl⟩
      | exact done _ _
      | exact argument _ _
  | argument =>
    dsimp only [imapTurn]
    split_ifs
    all_goals first
      | exact ⟨rfl, rfl, rfl, rfl⟩
      | exact ends _ _ _
  | endLiteralArgument =>
    dsimp only [imapTurn]
    split_ifs
    · exact argument _ _
    · exact ends _ _ _
  | almostDone =>
    dsimp only [imapTurn]
    split_ifs
    · exact done _ _
    · exact ⟨rfl, rfl, rfl, rfl⟩
  | _ =>
    dsimp only [imapTurn]
    split_ifs
    all_goals exact ⟨rfl, rfl, rfl, rfl⟩

/-- The bytes of a command, and the session behind it, whatever comes in one read. -/
def lineEnd (ssl : Bool) : List UInt8 → List UInt8 → Session → Option (List UInt8 × Session)
  | _, [], _ => none
  | seen, ch :: rest, s =>
    match imapTurn ssl seen ch s with
    | (s, none) | (s, some .imapNext) => lineEnd ssl (seen ++ [ch]) rest s
    | (s, some .ok) => some (seen ++ [ch], core s)
    | _ => none

theorem imapTurn_core (same : core s = core t) (seen : List UInt8) (ch : UInt8) :
    (imapTurn ssl seen ch s).2 = (imapTurn ssl seen ch t).2 ∧
      core (imapTurn ssl seen ch s).1 = core (imapTurn ssl seen ch t).1 := by
  have ofS := (imapTurn_frame ssl seen ch s [] 0).2.2
  have ofT := (imapTurn_frame ssl seen ch t [] 0).2.2
  have cores : ({ s with buf := [], pos := 0 } : Session) = { t with buf := [], pos := 0 } := same
  rw [cores] at ofS
  exact ⟨ofS.1.symm.trans ofT.1, ofS.2.symm.trans ofT.2⟩

theorem lineEnd_core (same : core s = core t) (seen rest : List UInt8) :
    lineEnd ssl seen rest s = lineEnd ssl seen rest t := by
  induction rest generalizing seen s t with
  | nil => rfl
  | cons ch rest ih =>
    obtain ⟨rc, cores⟩ := @imapTurn_core ssl s t same seen ch
    rw [lineEnd, lineEnd]
    generalize imapTurn ssl seen ch s = r at rc cores
    generalize imapTurn ssl seen ch t = r' at rc cores
    obtain ⟨u, rc'⟩ := r
    obtain ⟨v, rc''⟩ := r'
    obtain rfl : rc' = rc'' := rc
    rcases rc' with _ | _ | _ | _ | _
    · exact ih cores _
    · exact congrArg (fun t => some (seen ++ [ch], t)) cores
    · rfl
    · exact ih cores _
    · rfl

structure LineRead (ssl : Bool) (seen rest : List UInt8) (s : Session) (r : Session × Rc) : Prop where
  start : r.1.start = s.start
  buf : r.1.buf = s.buf
  again : r.2 = .again → r.1.pos = s.start + (seen ++ rest).length ∧
    ∀ more, lineEnd ssl seen (rest ++ more) s = lineEnd ssl (seen ++ rest) more r.1
  next : r.2 = .imapNext → ∃ now later, rest = now ++ later ∧
    r.1.pos = s.start + (seen ++ now).length ∧
    ∀ more, lineEnd ssl seen (now ++ more) s = lineEnd ssl (seen ++ now) more r.1
  ok : r.2 = .ok → ∃ now later, rest = now ++ later ∧
    ∀ more, lineEnd ssl seen (rest ++ more) s = some (seen ++ now, core r.1)
  invalid : r.2 = .parseInvalidCommand → ∀ more, lineEnd ssl seen (rest ++ more) s = none

/-- A turn does not end the read, and the parser asks for a literal behind the line at `pos`. -/
structure Returned (pos : Nat) (r : Session × Option Rc) : Prop where
  goes : r.2 ≠ some .again
  next : r.2 = some .imapNext → r.1.pos = pos

theorem imapTurn_returned (ssl : Bool) (seen : List UInt8) (ch : UInt8) (s : Session) :
    Returned (s.start + seen.length + 1) (imapTurn ssl seen ch s) := by
  have other {r : Session × Option Rc} {pos : Nat}
      (rc : r.2 = none ∨ r.2 = some .ok ∨ r.2 = some .parseInvalidCommand) : Returned pos r := by
    constructor
    · intro again
      rw [again] at rc
      simp at rc
    · intro next
      rw [next] at rc
      simp at rc
  have ends (p : Nat) (ch : UInt8) (t : Session) {pos : Nat} : Returned pos (imapEnds p ch t) := by
    unfold imapEnds
    split_ifs
    · exact other (Or.inl rfl)
    · exact other (Or.inr (Or.inl rfl))
    · exact other (Or.inl rfl)
  have argument (t : Session) (state : State) {pos : Nat} : Returned pos (imapArgument t state) := by
    unfold imapArgument
    split_ifs
    · exact other (Or.inl rfl)
    · exact other (Or.inr (Or.inr rfl))
  obtain ⟨start, placed, old, at_, state, command, args, cmdStart, argStart, argEnd, tag, literalLen,
    quoted, backslash, noSyncLiteral⟩ := s
  cases state with
  | command =>
    dsimp only [imapTurn]
    split_ifs
    · cases findCommand (imapTable ssl) (seen.drop (cmdStart - start)) with
      | none => exact other (Or.inr (Or.inr rfl))
      | some found => exact ends _ _ _
    · exact other (Or.inl rfl)
    · exact other (Or.inr (Or.inr rfl))
  | startLiteralArgument =>
    dsimp only [imapTurn]
    split_ifs
    · exact other (Or.inl rfl)
    · exact other (Or.inl rfl)
    · exact ⟨by simp, fun _ => rfl⟩
    · exact other (Or.inr (Or.inr rfl))
  | _ =>
    dsimp only [imapTurn]
    split_ifs
    all_goals first
      | exact other (Or.inl rfl)
      | exact other (Or.inr (Or.inl rfl))
      | exact other (Or.inr (Or.inr rfl))
      | exact ends _ _ _
      | exact argument _ _

theorem parseLoop_line (ssl : Bool) (seen rest : List UInt8) (s : Session) :
    LineRead ssl seen rest s (parseLoop ssl .imap seen rest s) := by
  induction rest generalizing seen s with
  | nil =>
    have same : core ({ s with pos := s.start + seen.length } : Session) = core s := rfl
    refine ⟨rfl, rfl, fun _ => ⟨?_, ?_⟩, (fun never => by cases never), (fun never => by cases never),
      (fun never => by cases never)⟩
    · rw [List.append_nil]
      rfl
    · intro more
      rw [List.append_nil, List.nil_append]
      exact lineEnd_core same.symm _ _
  | cons ch rest ih =>
    have frame := imapTurn_frame ssl seen ch s [] 0
    have returned := imapTurn_returned ssl seen ch s
    rw [parseLoop]
    have whole : seen ++ [ch] ++ rest = seen ++ ch :: rest := by simp
    dsimp only [turn]
    cases turned : imapTurn ssl seen ch s with
    | mk next rc =>
      rw [turned] at frame
      obtain ⟨start, buf, _⟩ := frame
      dsimp only at start buf
      cases rc with
      | none =>
        have step (more : List UInt8) : lineEnd ssl seen (ch :: more) s =
            lineEnd ssl (seen ++ [ch]) more next := by rw [lineEnd, turned]
        have later := ih (seen ++ [ch]) next
        dsimp only
        refine ⟨later.start.trans start, later.buf.trans buf, ?_, ?_, ?_, ?_⟩
        · intro rc
          obtain ⟨pos, rest'⟩ := later.again rc
          rw [whole, start] at pos
          refine ⟨pos, fun more => ?_⟩
          rw [List.cons_append, step, rest', whole]
        · intro rc
          obtain ⟨now, left, rfl, pos, rest'⟩ := later.next rc
          have front : seen ++ [ch] ++ now = seen ++ ch :: now := by simp
          rw [front, start] at pos
          refine ⟨ch :: now, left, rfl, pos, fun more => ?_⟩
          rw [List.cons_append, step, rest', front]
        · intro rc
          obtain ⟨now, left, rfl, rest'⟩ := later.ok rc
          have front : seen ++ [ch] ++ now = seen ++ ch :: now := by simp
          refine ⟨ch :: now, left, rfl, fun more => ?_⟩
          rw [List.cons_append, step, rest', front]
        · intro rc more
          rw [List.cons_append, step]
          exact later.invalid rc more
      | some rc =>
        dsimp only
        refine ⟨start, buf, ?_, ?_, ?_, ?_⟩
        · intro is
          subst is
          exact absurd (congrArg Prod.snd turned) returned.goes
        · intro is
          subst is
          refine ⟨[ch], rest, rfl, ?_, fun more => ?_⟩
          · rw [List.length_append, List.length_singleton]
            have pos := returned.next (congrArg Prod.snd turned)
            rw [turned] at pos
            exact pos.trans (Nat.add_assoc _ _ _)
          · rw [List.cons_append, List.nil_append, lineEnd, turned]
        · intro is
          subst is
          refine ⟨[ch], rest, rfl, fun more => ?_⟩
          rw [List.cons_append, lineEnd, turned]
        · intro is more
          subst is
          rw [List.cons_append, lineEnd, turned]

theorem readCommand_line (ssl : Bool) {s : Session} (all : s.pos = s.start + s.buf.length)
    (bytes : List UInt8) :
    LineRead ssl s.buf bytes { s with buf := s.buf ++ bytes } (readCommand ssl .imap s bytes) := by
  have place : s.pos - s.start = s.buf.length := by omega
  have read := parseLoop_line ssl s.buf bytes { s with buf := s.buf ++ bytes }
  rw [readCommand, parseCommand]
  dsimp only
  rw [place, List.take_left, List.drop_left]
  exact read

theorem received_cases (ssl : Bool) (reads : List (List UInt8)) {s : Session}
    (all : s.pos = s.start + s.buf.length) (waits : Waits ssl s reads) :
    received ssl s reads = none ∧ lineEnd ssl s.buf reads.flatten s = none ∨
      ∃ parsed extra t, lineEnd ssl s.buf reads.flatten s = some (parsed, t) ∧
        parsed ++ extra <+: s.buf ++ reads.flatten ∧
        received ssl s reads = loginArgs (parsed ++ extra) t := by
  induction reads generalizing s with
  | nil => exact Or.inl ⟨rfl, rfl⟩
  | cons bytes rest ih =>
    have read := readCommand_line ssl all bytes
    have same : core ({ s with buf := s.buf ++ bytes } : Session) = core s := rfl
    rw [Waits] at waits
    rw [received, List.flatten_cons, lineEnd_core same.symm]
    generalize readCommand ssl .imap s bytes = r at read waits
    obtain ⟨t, rc⟩ := r
    have start : t.start = s.start := read.start
    have buf : t.buf = s.buf ++ bytes := read.buf
    -- the next read starts where this one ends
    have goes (pos : t.pos = s.start + (s.buf ++ bytes).length)
        (line : ∀ more, lineEnd ssl s.buf (bytes ++ more) { s with buf := s.buf ++ bytes } =
          lineEnd ssl (s.buf ++ bytes) more t) (waits : Waits ssl t rest) :
        received ssl t rest = none ∧
            lineEnd ssl s.buf (bytes ++ rest.flatten) { s with buf := s.buf ++ bytes } = none ∨
          ∃ parsed extra u,
            lineEnd ssl s.buf (bytes ++ rest.flatten) { s with buf := s.buf ++ bytes } =
              some (parsed, u) ∧
            parsed ++ extra <+: s.buf ++ (bytes ++ rest.flatten) ∧
            received ssl t rest = loginArgs (parsed ++ extra) u := by
      have later := ih (by rw [pos, start, buf]) waits
      rw [buf] at later
      rw [line, ← List.append_assoc]
      exact later
    cases rc with
    | again =>
      obtain ⟨pos, line⟩ := read.again rfl
      exact goes pos line waits
    | imapNext =>
      obtain ⟨now, later, split, pos, line⟩ := read.next rfl
      obtain ⟨none_, waits⟩ := waits
      have nothing : later = [] := by
        have place : t.pos - t.start = (s.buf ++ now).length := by
          have pos' : t.pos = s.start + (s.buf ++ now).length := pos
          omega
        rw [Session.unread, place, buf, split, ← List.append_assoc, List.drop_left] at none_
        exact none_
      rw [nothing, List.append_nil] at split
      rw [← split] at pos line
      exact goes pos line waits
    | ok =>
      obtain ⟨now, later, split, line⟩ := read.ok rfl
      refine Or.inr ⟨s.buf ++ now, later, core t, line _, ?_, ?_⟩
      · rw [List.append_assoc, ← split, ← List.append_assoc]
        exact List.prefix_append _ _
      · rw [List.append_assoc, ← split, ← buf]
        rfl
    | parseInvalidCommand => exact Or.inl ⟨rfl, read.invalid rfl _⟩

end Reads

section Command

variable {ssl : Bool} {seen text more : List UInt8} {ch : UInt8} {s t u : Session}

/-- The parser goes from one session to another over the text. -/
def Feeds (ssl : Bool) (seen text : List UInt8) (s t : Session) : Prop :=
  ∀ more, lineEnd ssl seen (text ++ more) s = lineEnd ssl (seen ++ text) more t

theorem Feeds.nil (seen : List UInt8) (s : Session) : Feeds ssl seen [] s s := by
  intro more
  rw [List.append_nil, List.nil_append]

theorem Feeds.append (first : Feeds ssl seen text s t) (second : Feeds ssl (seen ++ text) more t u) :
    Feeds ssl seen (text ++ more) s u := by
  intro rest
  rw [List.append_assoc, first, second, List.append_assoc]

theorem feeds_turn (turned : imapTurn ssl seen ch s = (t, none)) : Feeds ssl seen [ch] s t := by
  intro more
  rw [List.cons_append, List.nil_append, lineEnd, turned]

theorem feeds_next (turned : imapTurn ssl seen ch s = (t, some .imapNext)) : Feeds ssl seen [ch] s t := by
  intro more
  rw [List.cons_append, List.nil_append, lineEnd, turned]

theorem Feeds.cons (turned : Feeds ssl seen [ch] s t) (rest : Feeds ssl (seen ++ [ch]) text t u) :
    Feeds ssl seen (ch :: text) s u :=
  turned.append rest

theorem feeds_stay (each : ∀ ch ∈ text, ∀ seen, imapTurn ssl seen ch s = (s, none)) (seen : List UInt8) :
    Feeds ssl seen text s s := by
  induction text generalizing seen with
  | nil => exact Feeds.nil seen s
  | cons ch text ih =>
    exact (feeds_turn (each ch List.mem_cons_self seen)).cons
      (ih (fun c member => each c (List.mem_cons_of_mem _ member)) _)

theorem isLetter_other (letter : isLetter ch = true) :
    ch ≠ chr ' ' ∧ ch ≠ CR ∧ ch ≠ LF := by
  refine ⟨?_, ?_, ?_⟩
  all_goals
    intro same
    rw [same] at letter
    exact absurd letter (by decide)

theorem findCommand_login {name : List UInt8} (login : name.map ngxToupper = ("LOGIN").toList.map chr) :
    findCommand (imapTable ssl) name = some imapLogin := by
  rw [findCommand]
  simp only [login]
  cases ssl <;> decide

theorem feeds_name {tag name : List UInt8} (valid : LoginName tag name) (state : s.state = .start) :
    ∃ t, Feeds ssl [] (tag ++ (chr ' ' :: (name ++ [chr ' ']))) s t ∧
      t.state = .spacesBeforeArgument ∧ t.command = imapLogin ∧ t.start = s.start ∧ t.args = s.args ∧
      t.quoted = s.quoted ∧ t.backslash = s.backslash ∧ t.literalLen = s.literalLen ∧
      t.noSyncLiteral = s.noSyncLiteral := by
  have inTag : Feeds ssl [] tag s s := by
    apply feeds_stay
    intro ch member seen
    obtain ⟨space, cr, lf⟩ := valid.tag ch member
    simp only [imapTurn, state, if_neg space, if_neg (not_or.mpr ⟨cr, lf⟩)]
  cases name with
  | nil => exact absurd valid.login (by decide)
  | cons c letters =>
    let tagged : Session := { s with
      tag := ⟨s.start + tag.length - s.start + 1, s.start⟩
      state := .spacesBeforeCommand }
    let named : Session := { tagged with
      cmdStart := s.start + (tag ++ [chr ' ']).length
      state := .command }
    have behindTag : Feeds ssl tag [chr ' '] s tagged := by
      apply feeds_turn
      simp only [imapTurn, state, if_true]
      rfl
    have first : Feeds ssl (tag ++ [chr ' ']) [c] tagged named := by
      obtain ⟨space, cr, lf⟩ := isLetter_other (valid.letters c List.mem_cons_self)
      apply feeds_turn
      simp only [imapTurn, tagged, if_neg space, if_neg (not_or.mpr ⟨cr, lf⟩)]
      rfl
    have others : Feeds ssl (tag ++ [chr ' '] ++ [c]) letters named named := by
      apply feeds_stay
      intro ch member seen
      have letter := valid.letters ch (List.mem_cons_of_mem _ member)
      obtain ⟨space, cr, lf⟩ := isLetter_other letter
      simp only [imapTurn, named, if_neg (not_or.mpr ⟨space, not_or.mpr ⟨cr, lf⟩⟩), if_pos letter]
    have found : findCommand (imapTable ssl) ((tag ++ [chr ' '] ++ [c] ++ letters).drop
        (named.cmdStart - named.start)) = some imapLogin := by
      have place : named.cmdStart - named.start = (tag ++ [chr ' ']).length :=
        Nat.add_sub_cancel_left _ _
      rw [place, List.append_assoc (tag ++ [chr ' ']), List.drop_left]
      exact findCommand_login valid.login
    have last : Feeds ssl (tag ++ [chr ' '] ++ [c] ++ letters) [chr ' '] named
        { named with command := imapLogin, state := .spacesBeforeArgument } := by
      apply feeds_turn
      have blank : chr ' ' = chr ' ' ∨ chr ' ' = CR ∨ chr ' ' = LF := Or.inl rfl
      have cr : ¬ chr ' ' = CR := by decide
      have lf : ¬ chr ' ' = LF := by decide
      unfold imapTurn
      dsimp only [named]
      rw [if_pos blank]
      have found' := found
      dsimp only [named] at found'
      rw [found']
      dsimp only
      rw [imapEnds, if_neg cr, if_neg lf]
      rfl
    refine ⟨{ named with command := imapLogin, state := .spacesBeforeArgument }, ?_, rfl, rfl, rfl, rfl,
      rfl, rfl, rfl, rfl⟩
    have whole := inTag.append (behindTag.append (first.append (others.append last)))
    have text : tag ++ ([chr ' '] ++ ([c] ++ (letters ++ [chr ' ']))) =
        tag ++ (chr ' ' :: (c :: letters ++ [chr ' '])) := by simp
    rw [text] at whole
    exact whole

/-- Where the parser is behind a space or a `CR`. -/
def stateBehind (sep : UInt8) : State := if sep = CR then .almostDone else .spacesBeforeArgument

/-- An argument has been read: its bytes are in the buffer. -/
structure Pushed (raw before : List UInt8) (escapes : Bool) (sep : UInt8) (s t : Session) : Prop where
  state : t.state = stateBehind sep
  start : t.start = s.start
  command : t.command = s.command
  args : ∃ arg, t.args = s.args ++ [arg] ∧ arg.data - s.start + arg.len ≤ before.length ∧
    arg.len = raw.length ∧ ∀ more, argBytes s.start (before ++ more) arg = raw
  argStart : t.argStart = 0
  literalLen : t.literalLen = 0
  noSyncLiteral : t.noSyncLiteral = false
  backslash : t.backslash = (s.backslash || escapes)

theorem argBytes_between (start : Nat) (front raw back : List UInt8) :
    argBytes start (front ++ raw ++ back) ⟨raw.length, start + front.length⟩ = raw := by
  rw [argBytes, Nat.add_sub_cancel_left, List.append_assoc, List.drop_left, List.take_left]

theorem distance_add (data len : Nat) : distance (data + len) data = len := by
  rw [distance, if_pos (Nat.le_add_right _ _), Nat.add_sub_cancel_left]

theorem imapEnds_sep {sep : UInt8} (isSep : sep = chr ' ' ∨ sep = CR) (p : Nat) (s : Session) :
    imapEnds p sep s = goTo (stateBehind sep) s := by
  rcases isSep with rfl | rfl
  · have cr : ¬ chr ' ' = CR := by decide
    have lf : ¬ chr ' ' = LF := by decide
    rw [imapEnds, if_neg cr, if_neg lf, stateBehind, if_neg cr]
  · rw [imapEnds, if_pos rfl, stateBehind, if_pos rfl]

theorem feeds_open (valid : (Written.atom text).Valid) (state : s.state = .spacesBeforeArgument)
    (few : s.args.length ≤ 2) :
    Feeds ssl seen text s
      { s with
        argStart := s.start + seen.length
        state := .argument } := by
  obtain ⟨some_, chars⟩ := valid
  cases text with
  | nil => exact absurd rfl some_
  | cons c text =>
    refine Feeds.cons (feeds_turn ?_) (feeds_stay ?_ _)
    · obtain ⟨space, cr, lf, quote, back, brace⟩ := chars c List.mem_cons_self
      simp only [imapTurn, state, if_neg space, if_neg cr, if_neg lf, if_neg quote, if_neg brace,
        if_pos few]
      rfl
    · intro ch member seen
      obtain ⟨space, cr, lf, quote, back, brace⟩ := chars ch (List.mem_cons_of_mem _ member)
      have blank : ¬ (ch = chr ' ' ∨ ch = CR ∨ ch = LF) := not_or.mpr ⟨space, not_or.mpr ⟨cr, lf⟩⟩
      simp only [imapTurn, if_neg fun both : ch = chr ' ' ∧ s.quoted = true => space both.1,
        if_neg quote, if_neg blank, if_neg fun both : ch = 0x5c ∧ s.quoted = true => back both.1]

theorem feeds_atom {sep : UInt8} (valid : (Written.atom text).Valid)
    (state : s.state = .spacesBeforeArgument) (few : s.args.length ≤ 2) (len : s.literalLen = 0)
    (sync : s.noSyncLiteral = false) (isSep : sep = chr ' ' ∨ sep = CR)
    (closed : sep = chr ' ' → s.quoted = false) :
    ∃ t, Feeds ssl seen (text ++ [sep]) s t ∧ Pushed text (seen ++ text) false sep s t := by
  let opened : Session := { s with argStart := s.start + seen.length, state := .argument }
  have last : Feeds ssl (seen ++ text) [sep] opened
      { pushArg (s.start + (seen ++ text).length) opened with state := stateBehind sep } := by
    have inside : ¬ (sep = chr ' ' ∧ s.quoted = true) := by
      rintro ⟨space, quoted⟩
      rw [closed space] at quoted
      cases quoted
    have quote : ¬ sep = chr '"' := by rcases isSep with rfl | rfl <;> decide
    have blank : sep = chr ' ' ∨ sep = CR ∨ sep = LF := isSep.imp_right Or.inl
    apply feeds_turn
    unfold imapTurn
    dsimp only [opened]
    rw [if_neg inside, if_neg quote, if_pos blank, imapEnds_sep isSep]
    rfl
  refine ⟨_, (feeds_open valid state few).append last, rfl, rfl, rfl,
    ⟨⟨text.length, s.start + seen.length⟩, ?_, ?_, rfl, ?_⟩, rfl, len, sync, (Bool.or_false _).symm⟩
  · show s.args ++ [⟨distance (s.start + (seen ++ text).length) (s.start + seen.length),
      s.start + seen.length⟩] = _
    rw [List.length_append, ← Nat.add_assoc, distance_add]
  · rw [Nat.add_sub_cancel_left, List.length_append]
  · intro more
    exact argBytes_between s.start seen text more

theorem feeds_chars (chars : List (Bool × UInt8)) (valid : (Written.quoted chars).Valid)
    (state : s.state = .argument) (quoted : s.quoted = true) :
    Feeds ssl seen (chars.flatMap quotedChar) s
      { s with backslash := s.backslash || chars.any Prod.fst } := by
  induction chars generalizing seen s with
  | nil =>
    have same : ({ s with backslash := s.backslash || ([] : List (Bool × UInt8)).any Prod.fst } : Session) = s := by
      rw [List.any_nil, Bool.or_false]
    rw [same]
    exact Feeds.nil seen s
  | cons char chars ih =>
    obtain ⟨cr, lf, plain⟩ := valid char List.mem_cons_self
    have later := fun c member => valid c (List.mem_cons_of_mem _ member)
    rw [List.flatMap_cons, List.any_cons, ← Bool.or_assoc]
    cases escaped : char.1 with
    | true =>
      let behind : Session := { s with backslash := true, state := .backslash }
      have bytes : quotedChar char = [0x5c, char.2] := if_pos escaped
      have back : Feeds ssl seen [0x5c] s behind := by
        have space : ¬ ((0x5c : UInt8) = chr ' ' ∧ s.quoted = true) := fun both => absurd both.1 (by decide)
        have quote : ¬ (0x5c : UInt8) = chr '"' := by decide
        have blank : ¬ ((0x5c : UInt8) = chr ' ' ∨ (0x5c : UInt8) = CR ∨ (0x5c : UInt8) = LF) := by decide
        apply feeds_turn
        simp only [imapTurn, state, if_neg space, if_neg quote, if_neg blank, true_and, if_pos quoted]
        rfl
      have next : Feeds ssl (seen ++ [0x5c]) [char.2] behind { s with backslash := true } := by
        apply feeds_turn
        simp only [imapTurn, behind, if_neg (not_or.mpr ⟨cr, lf⟩)]
        rw [← state]
        rfl
      have rest := @ih (seen ++ [0x5c, char.2]) { s with backslash := true } later state quoted
      have joined : seen ++ [0x5c] ++ [char.2] = seen ++ [0x5c, char.2] := by simp
      rw [← joined] at rest
      have whole := back.append (next.append rest)
      rw [bytes, Bool.or_true]
      exact whole
    | false =>
      obtain ⟨quote, back⟩ := plain escaped
      have bytes : quotedChar char = [char.2] := if_neg (by rw [escaped]; decide)
      have first : Feeds ssl seen [char.2] s s := by
        apply feeds_turn
        by_cases space : char.2 = chr ' '
        · simp only [imapTurn, state, if_pos (And.intro space quoted)]
        · have blank : ¬ (char.2 = chr ' ' ∨ char.2 = CR ∨ char.2 = LF) :=
            not_or.mpr ⟨space, not_or.mpr ⟨cr, lf⟩⟩
          simp only [imapTurn, state, if_neg fun both : char.2 = chr ' ' ∧ s.quoted = true => space both.1,
            if_neg quote, if_neg blank, if_neg fun both : char.2 = 0x5c ∧ s.quoted = true => back both.1]
      rw [bytes, Bool.or_false]
      exact first.append (ih later state quoted)

theorem feeds_quoted {chars : List (Bool × UInt8)} {sep : UInt8} (valid : (Written.quoted chars).Valid)
    (state : s.state = .spacesBeforeArgument) (few : s.args.length ≤ 2) (len : s.literalLen = 0)
    (sync : s.noSyncLiteral = false) (isSep : sep = chr ' ' ∨ sep = CR) :
    ∃ t, Feeds ssl seen ((Written.quoted chars).bytes ++ [sep]) s t ∧
      Pushed (chars.flatMap quotedChar) (seen ++ (Written.quoted chars).bytes) (chars.any Prod.fst) sep
        s t := by
  let raw := chars.flatMap quotedChar
  let opened : Session := { s with
    quoted := true
    argStart := s.start + (seen ++ [chr '"']).length
    state := .argument }
  let filled : Session := { opened with backslash := s.backslash || chars.any Prod.fst }
  let closed : Session := { pushArg (s.start + (seen ++ [chr '"'] ++ raw).length)
      { filled with quoted := false } with
    state := .spacesBeforeArgument }
  have quoteSpace : ¬ chr '"' = chr ' ' := by decide
  have first : Feeds ssl seen [chr '"'] s opened := by
    have cr : ¬ chr '"' = CR := by decide
    have lf : ¬ chr '"' = LF := by decide
    apply feeds_turn
    simp only [imapTurn, state, if_neg quoteSpace, if_neg cr, if_neg lf, if_true, if_pos few]
    rw [goTo]
    dsimp only [opened]
    rw [List.length_append]
    rfl
  have inside : Feeds ssl (seen ++ [chr '"']) raw opened filled := feeds_chars chars valid rfl rfl
  have ends : Feeds ssl (seen ++ [chr '"'] ++ raw) [chr '"'] filled closed := by
    apply feeds_turn
    unfold imapTurn
    dsimp only [filled, opened]
    rw [if_neg fun both => quoteSpace both.1, if_pos rfl, if_pos rfl]
    rfl
  have joined : seen ++ [chr '"'] ++ raw ++ [chr '"'] = seen ++ (Written.quoted chars).bytes := by
    simp [raw, Written.bytes]
  have whole := first.append (inside.append ends)
  have text : [chr '"'] ++ (raw ++ [chr '"']) = (Written.quoted chars).bytes := by
    simp [raw, Written.bytes]
  rw [text] at whole
  have size : s.start + (seen ++ [chr '"'] ++ raw).length =
      s.start + (seen ++ [chr '"']).length + raw.length := by
    simp only [List.length_append]
    omega
  have arg : closed.args = s.args ++ [⟨raw.length, s.start + (seen ++ [chr '"']).length⟩] := by
    show s.args ++ [⟨distance (s.start + (seen ++ [chr '"'] ++ raw).length)
      (s.start + (seen ++ [chr '"']).length), s.start + (seen ++ [chr '"']).length⟩] = _
    rw [size, distance_add]
  have place : ∃ arg, closed.args = s.args ++ [arg] ∧
      arg.data - s.start + arg.len ≤ (seen ++ (Written.quoted chars).bytes).length ∧
      arg.len = raw.length ∧
      ∀ more, argBytes s.start (seen ++ (Written.quoted chars).bytes ++ more) arg = raw := by
    refine ⟨⟨raw.length, s.start + (seen ++ [chr '"']).length⟩, arg, ?_, rfl, ?_⟩
    · rw [Nat.add_sub_cancel_left, ← joined]
      simp only [List.length_append]
      omega
    · intro more
      rw [← joined, List.append_assoc _ [chr '"'] more]
      exact argBytes_between s.start (seen ++ [chr '"']) raw _
  rcases isSep with rfl | rfl
  · have blank : Feeds ssl (seen ++ (Written.quoted chars).bytes) [chr ' '] closed closed := by
      apply feeds_turn
      simp only [imapTurn, closed, if_true]
    exact ⟨closed, whole.append blank, rfl, rfl, rfl, place, rfl, len, sync, rfl⟩
  · let ended : Session := { closed with
      argEnd := s.start + (seen ++ (Written.quoted chars).bytes).length
      state := .almostDone }
    have cr : Feeds ssl (seen ++ (Written.quoted chars).bytes) [CR] closed ended := by
      have space : ¬ CR = chr ' ' := by decide
      apply feeds_turn
      simp only [imapTurn, closed, if_neg space, if_true]
      rfl
    exact ⟨ended, whole.append cr, rfl, rfl, rfl, place, rfl, len, sync, rfl⟩

theorem feeds_digits (digits : List UInt8) (valid : ∀ ch ∈ digits, isDigit ch = true)
    (state : s.state = .literal) :
    Feeds ssl seen digits s
      { s with literalLen := digits.foldl (fun n ch => (n * 10 + digitValue ch) % 2 ^ 64) s.literalLen } := by
  induction digits generalizing seen s with
  | nil => exact Feeds.nil seen s
  | cons ch digits ih =>
    have first : Feeds ssl seen [ch] s
        { s with literalLen := (s.literalLen * 10 + digitValue ch) % 2 ^ 64 } := by
      apply feeds_turn
      simp only [imapTurn, state, if_pos (valid ch List.mem_cons_self)]
    exact first.cons (ih (fun c member => valid c (List.mem_cons_of_mem _ member)) state)

theorem number_mod (digits : List UInt8) :
    digits.foldl (fun n ch => (n * 10 + digitValue ch) % 2 ^ 64) 0 = number digits % 2 ^ 64 := by
  have general (n m : Nat) (same : n = m % 2 ^ 64) :
      digits.foldl (fun n ch => (n * 10 + digitValue ch) % 2 ^ 64) n =
        digits.foldl (fun n ch => n * 10 + digitValue ch) m % 2 ^ 64 := by
    induction digits generalizing n m with
    | nil => exact same
    | cons ch digits ih =>
      rw [List.foldl_cons, List.foldl_cons]
      apply ih
      rw [same]
      omega
  exact general 0 0 rfl

theorem feeds_text (state : s.state = .literalArgument) (len : s.literalLen = text.length)
    (some_ : text ≠ []) :
    Feeds ssl seen text s
      { pushArg (s.start + (seen ++ text).length) { s with literalLen := 0 } with
        state := .endLiteralArgument } := by
  induction text generalizing seen s with
  | nil => exact absurd rfl some_
  | cons ch text ih =>
    have less : s.literalLen - 1 = text.length := by
      rw [len, List.length_cons]
      omega
    cases text with
    | nil =>
      have size : s.start + (seen ++ [ch]).length = s.start + seen.length + 1 := by
        rw [List.length_append, List.length_singleton, Nat.add_assoc]
      rw [size]
      apply feeds_turn
      rw [List.length_nil] at less
      simp only [imapTurn, state, less, ne_eq, not_true_eq_false, if_false]
      rfl
    | cons next text =>
      have left : s.literalLen - 1 ≠ 0 := by
        rw [less]
        simp
      have first : Feeds ssl seen [ch] s { s with literalLen := s.literalLen - 1 } := by
        apply feeds_turn
        simp only [imapTurn, state, if_pos left]
      have later := @ih (seen ++ [ch]) { s with literalLen := s.literalLen - 1 } state less
        (List.cons_ne_nil _ _)
      have joined : seen ++ [ch] ++ next :: text = seen ++ ch :: next :: text := by simp
      rw [joined] at later
      exact first.cons later

/-- The length of a literal in front of it. -/
def header (sync : Bool) (digits : List UInt8) : List UInt8 :=
  0x7b :: (digits ++ ((if sync then [] else [chr '+']) ++ [0x7d, CR, LF]))

theorem literal_bytes (sync : Bool) (digits text : List UInt8) :
    (Written.literal sync digits text).bytes = header sync digits ++ text := by
  simp [Written.bytes, header]

/-- The parser in front of the text of a literal. -/
def atText (s : Session) (len place : Nat) : Session :=
  { s with
    state := .literalArgument
    literalLen := len
    argStart := place
    pos := place
    noSyncLiteral := false }

theorem feeds_header {sync : Bool} {digits : List UInt8} (valid : ∀ ch ∈ digits, isDigit ch = true)
    (state : s.state = .spacesBeforeArgument) (few : s.args.length ≤ 2) (len : s.literalLen = 0)
    (noSync : s.noSyncLiteral = false) :
    Feeds ssl seen (header sync digits) s
      (atText s (number digits % 2 ^ 64) (s.start + (seen ++ header sync digits).length)) := by
  let opened : Session := { s with state := .literal }
  let counted : Session := { opened with literalLen := number digits % 2 ^ 64 }
  let closed : Session := { counted with state := .startLiteralArgument, noSyncLiteral := !sync }
  have first : Feeds ssl seen [0x7b] s opened := by
    have space : ¬ (0x7b : UInt8) = chr ' ' := by decide
    have cr : ¬ (0x7b : UInt8) = CR := by decide
    have lf : ¬ (0x7b : UInt8) = LF := by decide
    have quote : ¬ (0x7b : UInt8) = chr '"' := by decide
    apply feeds_turn
    simp only [imapTurn, state, if_neg space, if_neg cr, if_neg lf, if_neg quote, if_true, imapArgument,
      if_pos few]
    rfl
  have count : Feeds ssl (seen ++ [0x7b]) digits opened counted := by
    have fed := @feeds_digits ssl (seen ++ [0x7b]) opened digits valid rfl
    have value : digits.foldl (fun n ch => (n * 10 + digitValue ch) % 2 ^ 64) s.literalLen =
        number digits % 2 ^ 64 := by rw [len, number_mod]
    dsimp only [opened] at fed
    rw [value] at fed
    exact fed
  have brace : Feeds ssl (seen ++ [0x7b] ++ digits) ((if sync then [] else [chr '+']) ++ [0x7d])
      counted closed := by
    have digit : ¬ isDigit (0x7d : UInt8) = true := by decide
    cases sync with
    | true =>
      apply feeds_turn
      simp only [imapTurn, counted, opened, if_neg digit, if_true]
      rw [goTo]
      dsimp only [closed, counted, opened]
      rw [noSync]
      rfl
    | false =>
      have plus : ¬ isDigit (chr '+') = true := by decide
      have other : ¬ chr '+' = 0x7d := by decide
      have turned : Feeds ssl (seen ++ [0x7b] ++ digits) [chr '+'] counted
          { counted with state := .noSyncLiteralArgument } := by
        apply feeds_turn
        simp only [imapTurn, counted, opened, if_neg plus, if_neg other, if_true]
        rfl
      refine turned.append (feeds_turn ?_)
      simp only [imapTurn, if_true]
      rfl
  have cr : Feeds ssl (seen ++ [0x7b] ++ digits ++ ((if sync then [] else [chr '+']) ++ [0x7d])) [CR]
      closed closed := by
    apply feeds_turn
    simp only [imapTurn, closed, if_true]
  have lf : Feeds ssl (seen ++ [0x7b] ++ digits ++ ((if sync then [] else [chr '+']) ++ [0x7d]) ++ [CR])
      [LF] closed (atText s (number digits % 2 ^ 64)
        (s.start + (seen ++ [0x7b] ++ digits ++ ((if sync then [] else [chr '+']) ++ [0x7d]) ++ [CR]).length +
          1)) := by
    have other : ¬ LF = CR := by decide
    cases sync with
    | true =>
      apply feeds_next
      simp only [imapTurn, closed, if_neg other, if_true, Bool.not_true, Bool.false_eq_true, if_false]
      rfl
    | false =>
      apply feeds_turn
      simp only [imapTurn, closed, if_neg other, if_true, Bool.not_false]
      rfl
  have whole := first.append (count.append (brace.append (cr.append lf)))
  have text : [0x7b] ++ (digits ++ (((if sync then [] else [chr '+']) ++ [0x7d]) ++ ([CR] ++ [LF]))) =
      header sync digits := by simp [header]
  have size : s.start + (seen ++ [0x7b] ++ digits ++ ((if sync then [] else [chr '+']) ++ [0x7d]) ++
      [CR]).length + 1 = s.start + (seen ++ header sync digits).length := by
    rw [← text]
    simp only [List.length_append, List.length_singleton]
    omega
  rw [text, size] at whole
  exact whole

theorem feeds_literal {sync : Bool} {digits : List UInt8} {sep : UInt8}
    (valid : (Written.literal sync digits text).Valid) (some_ : text ≠ [])
    (state : s.state = .spacesBeforeArgument) (few : s.args.length ≤ 2) (len : s.literalLen = 0)
    (noSync : s.noSyncLiteral = false) (isSep : sep = chr ' ' ∨ sep = CR) :
    ∃ t, Feeds ssl seen ((Written.literal sync digits text).bytes ++ [sep]) s t ∧
      Pushed text (seen ++ (Written.literal sync digits text).bytes) false sep s t := by
  obtain ⟨_, digit, value, small⟩ := valid
  have count : number digits % 2 ^ 64 = text.length := by
    rw [value]
    exact Nat.mod_eq_of_lt small
  have front := @feeds_header ssl seen s sync digits digit state few len noSync
  rw [count] at front
  have inside := @feeds_text ssl (seen ++ header sync digits) text
    (atText s text.length (s.start + (seen ++ header sync digits).length)) rfl rfl some_
  have size : s.start + (seen ++ header sync digits ++ text).length =
      s.start + (seen ++ header sync digits).length + text.length := by
    simp only [List.length_append]
    omega
  let filled : Session := { pushArg (s.start + (seen ++ header sync digits ++ text).length)
      { atText s text.length (s.start + (seen ++ header sync digits).length) with literalLen := 0 } with
    state := .endLiteralArgument }
  have ends : Feeds ssl (seen ++ header sync digits ++ text) [sep] filled
      { filled with state := stateBehind sep } := by
    have brace : ¬ sep = 0x7b := by rcases isSep with rfl | rfl <;> decide
    apply feeds_turn
    unfold imapTurn
    dsimp only [filled]
    rw [if_neg brace, imapEnds_sep isSep]
    rfl
  have whole := front.append (inside.append ends)
  rw [literal_bytes, List.append_assoc]
  refine ⟨_, whole, rfl, rfl, rfl,
    ⟨⟨text.length, s.start + (seen ++ header sync digits).length⟩, ?_, ?_, rfl, ?_⟩, rfl, rfl, rfl,
    (Bool.or_false _).symm⟩
  · show s.args ++ [⟨distance (s.start + (seen ++ header sync digits ++ text).length)
      (s.start + (seen ++ header sync digits).length), s.start + (seen ++ header sync digits).length⟩] = _
    rw [size, distance_add]
  · rw [Nat.add_sub_cancel_left, ← List.append_assoc]
    simp only [List.length_append]
    omega
  · intro more
    rw [← List.append_assoc]
    exact argBytes_between s.start (seen ++ header sync digits) text more

theorem feeds_written {w : Written} {sep : UInt8} (valid : w.Valid) (filled : w.isEmptyLiteral = false)
    (state : s.state = .spacesBeforeArgument) (few : s.args.length ≤ 2) (len : s.literalLen = 0)
    (noSync : s.noSyncLiteral = false) (isSep : sep = chr ' ' ∨ sep = CR)
    (closed : w.isAtom = true → sep = chr ' ' → s.quoted = false) :
    ∃ t, Feeds ssl seen (w.bytes ++ [sep]) s t ∧
      Pushed w.raw (seen ++ w.bytes) w.escapes sep s t := by
  cases w with
  | atom text => exact feeds_atom valid state few len noSync isSep (closed rfl)
  | quoted chars => exact feeds_quoted valid state few len noSync isSep
  | literal sync digits text =>
    have some_ : text ≠ [] := by
      intro none_
      rw [none_] at filled
      cases filled
    exact feeds_literal valid some_ state few len noSync isSep

theorem feeds_empty {sync : Bool} {digits : List UInt8} (valid : (Written.literal sync digits []).Valid)
    (state : s.state = .spacesBeforeArgument) (few : s.args.length ≤ 2) (len : s.literalLen = 0)
    (noSync : s.noSyncLiteral = false) (ch : UInt8) :
    ∃ t, Feeds ssl seen ((Written.literal sync digits []).bytes ++ [ch]) s t ∧
      t.state = .endLiteralArgument ∧ t.start = s.start ∧ t.command = s.command ∧ t.argStart = 0 ∧
      t.backslash = s.backslash ∧
      ∃ arg, t.args = s.args ++ [arg] ∧ arg.data - s.start + arg.len ≤
          (seen ++ ((Written.literal sync digits []).bytes ++ [ch])).length ∧
        ∀ more, argBytes s.start (seen ++ ((Written.literal sync digits []).bytes ++ [ch]) ++ more) arg =
          [ch] := by
  obtain ⟨_, digit, value, _⟩ := valid
  have front := @feeds_header ssl seen s sync digits digit state few len noSync
  have none_ : number digits % 2 ^ 64 = 0 := by
    rw [value]
    rfl
  rw [none_] at front
  let before := seen ++ header sync digits
  let filled : Session := { pushArg (s.start + before.length + 1) (atText s 0 (s.start + before.length)) with
    state := .endLiteralArgument }
  have turned : Feeds ssl before [ch] (atText s 0 (s.start + before.length)) filled := by
    apply feeds_turn
    simp only [imapTurn, atText, Nat.zero_sub, ne_eq, not_true_eq_false, if_false]
    rfl
  have whole := front.append turned
  have text : (Written.literal sync digits []).bytes = header sync digits := by
    rw [literal_bytes, List.append_nil]
  have joined : seen ++ (header sync digits ++ [ch]) = before ++ [ch] := (List.append_assoc _ _ _).symm
  rw [text, joined]
  refine ⟨filled, whole, rfl, rfl, rfl, rfl, rfl, ⟨1, s.start + before.length⟩, ?_, ?_, ?_⟩
  · show s.args ++ [⟨distance (s.start + before.length + 1) (s.start + before.length),
      s.start + before.length⟩] = _
    rw [distance_add]
  · have size : (before ++ [ch]).length = before.length + 1 := List.length_append
    show s.start + before.length - s.start + 1 ≤ (before ++ [ch]).length
    omega
  · intro more
    exact argBytes_between s.start before [ch] more

end Command

section Kept

variable {ssl : Bool} {seen rest parsed : List UInt8} {ch : UInt8} {s t : Session}

theorem imapDone_kept {first : List Str} (p : Nat) (t : Session) : (imapDone p t).1.start = t.start ∧
    (first <+: t.args → first <+: (imapDone p t).1.args) := by
  unfold imapDone
  dsimp only
  split_ifs
  · exact ⟨rfl, fun kept => kept.trans (List.prefix_append _ _)⟩
  · exact ⟨rfl, fun kept => kept⟩

theorem imapEnds_kept {first : List Str} (p : Nat) (ch : UInt8) (t : Session) :
    (imapEnds p ch t).1.start = t.start ∧ (first <+: t.args → first <+: (imapEnds p ch t).1.args) := by
  unfold imapEnds
  split_ifs
  · exact ⟨rfl, fun kept => kept⟩
  · exact imapDone_kept p t
  · exact ⟨rfl, fun kept => kept⟩

theorem imapTurn_args {first : List Str} (ssl : Bool) (seen : List UInt8) (ch : UInt8) (s : Session)
    (kept : first <+: s.args) : first <+: (imapTurn ssl seen ch s).1.args := by
  have argument (t : Session) (state : State) (kept : first <+: t.args) :
      first <+: (imapArgument t state).1.args := by
    unfold imapArgument
    split_ifs <;> exact kept
  obtain ⟨start, placed, old, at_, state, command, args, cmdStart, argStart, argEnd, tag, literalLen,
    quoted, backslash, noSyncLiteral⟩ := s
  have pushed (arg : Str) : first <+: args ++ [arg] := kept.trans (List.prefix_append _ _)
  cases state with
  | command =>
    dsimp only [imapTurn]
    split_ifs
    · cases findCommand (imapTable ssl) (seen.drop (cmdStart - start)) with
      | none => exact kept
      | some found => exact (imapEnds_kept _ _ _).2 kept
    · exact kept
    · exact kept
  | _ =>
    dsimp only [imapTurn]
    split_ifs
    all_goals first
      | exact kept
      | exact pushed _
      | exact (imapDone_kept _ _).2 kept
      | exact (imapEnds_kept _ _ _).2 kept
      | exact (imapEnds_kept _ _ _).2 (pushed _)
      | exact argument _ _ kept

theorem lineEnd_keeps {holds : List UInt8 → Session → Prop}
    (each : ∀ seen ch s, holds seen s → (imapTurn ssl seen ch s).2 ≠ some .parseInvalidCommand →
      holds (seen ++ [ch]) (imapTurn ssl seen ch s).1)
    (cored : ∀ seen s, holds seen s → holds seen (core s)) (now : holds seen s)
    (ends : lineEnd ssl seen rest s = some (parsed, t)) : holds parsed t := by
  induction rest generalizing seen s with
  | nil => cases ends
  | cons ch rest ih =>
    have step := each seen ch s now
    rw [lineEnd] at ends
    generalize imapTurn ssl seen ch s = r at ends step
    obtain ⟨u, rc⟩ := r
    rcases rc with _ | _ | _ | _ | _
    · exact ih (step (by simp)) ends
    · cases ends
      exact cored _ _ (step (by simp))
    · cases ends
    · exact ih (step (by simp)) ends
    · cases ends

theorem lineEnd_first {arg : Str} (first : [arg] <+: s.args)
    (ends : lineEnd ssl seen rest s = some (parsed, t)) :
    [arg] <+: t.args ∧ t.start = s.start ∧ seen <+: parsed := by
  refine @lineEnd_keeps ssl seen rest parsed s t
    (fun parsed u => [arg] <+: u.args ∧ u.start = s.start ∧ seen <+: parsed) ?_ ?_
    ⟨first, rfl, List.prefix_rfl⟩ ends
  · rintro parsed ch u ⟨args, start, front⟩ _
    exact ⟨imapTurn_args ssl parsed ch u args, ((imapTurn_frame ssl parsed ch u [] 0).1).trans start,
      front.trans (List.prefix_append _ _)⟩
  · exact fun parsed u kept => kept

theorem loginArgs_first {buf : List UInt8} {arg : Str} {out : List (List UInt8)}
    (got : loginArgs buf t = some out) (first : [arg] <+: t.args)
    (inside : arg.data - t.start + arg.len ≤ buf.length) :
    ∃ text more, out = text :: more ∧
      (text = argBytes t.start buf arg ∨ unescape (argBytes t.start buf arg) = some text) := by
  obtain ⟨others, args⟩ := first
  rw [loginArgs, ← args] at got
  split at got
  · split at got
    · rw [List.cons_append, List.nil_append, List.mapM_cons] at got
      obtain ⟨text, unescaped, rest⟩ := Option.bind_eq_some_iff.mp got
      obtain ⟨more, _, same⟩ := Option.bind_eq_some_iff.mp rest
      rw [unescapeArg_eq inside] at unescaped
      exact ⟨text, more, (Option.some.inj same).symm, Or.inr unescaped⟩
    · rw [List.cons_append, List.nil_append, List.map_cons] at got
      exact ⟨_, _, (Option.some.inj got).symm, Or.inl rfl⟩
  · cases got

/-- The parser takes `len` bytes or more from `first` on for the first argument. -/
inductive Longer (start first len : Nat) (seen : List UInt8) (s : Session) : Prop
  | open (same : s.start = start) (state : s.state = .argument ∨ s.state = .backslash)
      (quoted : s.quoted = true) (none_ : s.args = []) (argStart : s.argStart = start + first)
      (enough : first + len ≤ seen.length)
  | read (same : s.start = start) (arg : Str) (args : [arg] <+: s.args) (data : arg.data = start + first)
      (long : len ≤ arg.len) (inside : first + arg.len ≤ seen.length)

theorem longer_turn {start first len : Nat} (seen : List UInt8) (ch : UInt8)
    (s : Session) (longer : Longer start first len seen s)
    (valid : (imapTurn ssl seen ch s).2 ≠ some .parseInvalidCommand) :
    Longer start first len (seen ++ [ch]) (imapTurn ssl seen ch s).1 := by
  have size : (seen ++ [ch]).length = seen.length + 1 := List.length_append
  cases longer with
  | read same arg args data long inside =>
    exact .read ((imapTurn_frame ssl seen ch s [] 0).1.trans same) arg (imapTurn_args ssl seen ch s args)
      data long (by omega)
  | «open» same state quoted none_ argStart enough =>
    -- the argument ends with this byte, or it goes on
    have pushed (u : Session) (same : u.start = start)
        (args : [(⟨distance (start + seen.length) (start + first), start + first⟩ : Str)] <+: u.args) :
        Longer start first len (seen ++ [ch]) u := by
      have count : distance (start + seen.length) (start + first) = seen.length - first := by
        rw [distance, if_pos (by omega)]
        omega
      rw [count] at args
      exact .read same _ args rfl (by dsimp only; omega) (by dsimp only; omega)
    have goes (u : Session) (same : u.start = start) (state : u.state = .argument ∨ u.state = .backslash)
        (quoted : u.quoted = true) (none_ : u.args = []) (argStart : u.argStart = start + first) :
        Longer start first len (seen ++ [ch]) u :=
      .open same state quoted none_ argStart (by omega)
    have ends (p : Nat) (u : Session) (same : u.start = start)
        (args : [(⟨distance (start + seen.length) (start + first), start + first⟩ : Str)] <+: u.args) :
        Longer start first len (seen ++ [ch]) (imapEnds p ch u).1 :=
      pushed _ ((@imapEnds_kept [] p ch u).1.trans same) ((imapEnds_kept p ch u).2 args)
    obtain ⟨start', placed, old, at_, state', command, args, cmdStart, argStart', argEnd, tag, literalLen,
      quoted', backslash, noSyncLiteral⟩ := s
    dsimp only at same state quoted none_ argStart
    subst same none_ argStart quoted
    rcases state with rfl | rfl
    · dsimp only [imapTurn]
      split_ifs
      all_goals first
        | exact pushed _ rfl List.prefix_rfl
        | exact ends _ (pushArg _ _) rfl List.prefix_rfl
        | exact goes _ rfl (Or.inr rfl) rfl rfl rfl
        | exact goes _ rfl (Or.inl rfl) rfl rfl rfl
    · by_cases broken : ch = CR ∨ ch = LF
      · simp only [imapTurn, if_pos broken] at valid
        exact absurd rfl valid
      · simp only [imapTurn, if_neg broken]
        exact goes _ rfl (Or.inl rfl) rfl rfl rfl

end Kept

section Login

variable {ssl : Bool} {seen front rest parsed extra text tag name : List UInt8} {s t u : Session}
  {user password : Written}

structure Blank (s : Session) : Prop where
  state : s.state = .start
  buf : s.buf = []
  pos : s.pos = s.start
  args : s.args = []
  literalLen : s.literalLen = 0
  noSyncLiteral : s.noSyncLiteral = false

theorem lineEnd_done (seen : List UInt8) (idle : s.argStart = 0)
    (turned : imapTurn ssl seen LF s = imapDone (s.start + seen.length) s) :
    ∃ t, lineEnd ssl seen [LF] s = some (seen ++ [LF], t) ∧ t.args = s.args ∧ t.start = s.start ∧
      t.command = s.command ∧ t.backslash = s.backslash := by
  have closed : ¬ s.argStart ≠ 0 := not_not.mpr idle
  rw [lineEnd, turned, imapDone]
  dsimp only
  rw [if_neg closed]
  exact ⟨_, rfl, rfl, rfl, rfl, rfl⟩

/-- The bytes of a command in front of its arguments. -/
def loginFront (tag name : List UInt8) : List UInt8 := tag ++ (chr ' ' :: (name ++ [chr ' ']))

theorem loginLine_eq (tag name : List UInt8) (user password : Written) :
    loginLine tag name user password =
      loginFront tag name ++ (user.bytes ++ [chr ' ']) ++ (password.bytes ++ [CR]) ++ [LF] := by
  simp [loginLine, loginFront]

/-- The session behind a command of two arguments. -/
structure Ended (s u : Session) (line first second : List UInt8) (escapes : Bool) : Prop where
  start : u.start = s.start
  command : u.command = imapLogin
  backslash : u.backslash = (s.backslash || escapes)
  args : ∃ a b, u.args = [a, b] ∧ a.data - s.start + a.len ≤ line.length ∧
    b.data - s.start + b.len ≤ line.length ∧ argBytes s.start line a = first ∧
    argBytes s.start line b = second

theorem Ended.received {line first second a b : List UInt8} {escapes : Bool}
    (ended : Ended s u line first second escapes) :
    loginArgs line u = some [a, b] ↔
      if s.backslash || escapes then unescape first = some a ∧ unescape second = some b
      else first = a ∧ second = b := by
  obtain ⟨x, y, args, insideX, insideY, bytesX, bytesY⟩ := ended.args
  rw [loginArgs, if_pos ended.command, ended.backslash, args]
  split
  · rw [List.mapM_cons, List.mapM_cons, List.mapM_nil, ended.start, unescapeArg_eq insideX,
      unescapeArg_eq insideY, bytesX, bytesY]
    cases unescape first with
    | none => exact ⟨(fun got => by cases got), fun both => by cases both.1⟩
    | some first =>
      cases unescape second with
      | none => exact ⟨(fun got => by cases got), fun both => by cases both.2⟩
      | some second => simp
  · rw [List.map_cons, List.map_cons, List.map_nil, ended.start, bytesX, bytesY]
    simp

structure UserRead (s v : Session) (front : List UInt8) (user : Written) : Prop where
  state : v.state = .spacesBeforeArgument
  start : v.start = s.start
  command : v.command = imapLogin
  literalLen : v.literalLen = 0
  noSyncLiteral : v.noSyncLiteral = false
  backslash : v.backslash = (s.backslash || user.escapes)
  args : ∃ a, v.args = [a] ∧ a.data - s.start + a.len ≤ (front ++ user.bytes).length ∧
    ∀ more, argBytes s.start (front ++ user.bytes ++ more) a = user.raw

theorem feeds_user (blank : Blank s) (login : LoginName tag name) (valid : user.Valid)
    (quoted : s.quoted = true → user.isAtom = false) (filled : user.isEmptyLiteral = false) :
    ∃ v, Feeds ssl [] (loginFront tag name ++ (user.bytes ++ [chr ' '])) s v ∧
      UserRead s v (loginFront tag name) user := by
  obtain ⟨t, named, state, command, start, args, quotes, back, len, sync⟩ := @feeds_name ssl s tag name
    login blank.state
  have nothing : t.args = [] := args.trans blank.args
  have closed : user.isAtom = true → chr ' ' = chr ' ' → t.quoted = false := by
    intro atom _
    rw [quotes]
    cases quotes' : s.quoted with
    | false => rfl
    | true =>
      rw [quoted quotes'] at atom
      cases atom
  obtain ⟨v, first, pushed⟩ := @feeds_written ssl (loginFront tag name) t user (chr ' ') valid filled
    state (by rw [nothing]; exact Nat.zero_le _) (len.trans blank.literalLen)
    (sync.trans blank.noSyncLiteral) (Or.inl rfl) closed
  obtain ⟨a, argsV, inside, _, bytes⟩ := pushed.args
  rw [nothing, List.nil_append] at argsV
  rw [start] at inside bytes
  refine ⟨v, named.append first, pushed.state, pushed.start.trans start, pushed.command.trans command,
    pushed.literalLen, pushed.noSyncLiteral, ?_, a, argsV, inside, bytes⟩
  rw [pushed.backslash, back]

theorem loginLine_user (tag name : List UInt8) (user password : Written) :
    loginLine tag name user password = loginFront tag name ++ user.bytes ++
      (chr ' ' :: (password.bytes ++ [CR, LF])) := by simp [loginLine, loginFront]

theorem loginLine_password (tag name : List UInt8) (user password : Written) :
    loginLine tag name user password = loginFront tag name ++ (user.bytes ++ [chr ' ']) ++
      password.bytes ++ [CR, LF] := by simp [loginLine, loginFront]

theorem UserRead.ends {v w : Session} {bytes : List UInt8} {escapes : Bool}
    (read : UserRead s v (loginFront tag name) user)
    (front : Feeds ssl [] (loginFront tag name ++ (user.bytes ++ [chr ' '])) s v)
    (back : Feeds ssl (loginFront tag name ++ (user.bytes ++ [chr ' '])) (password.bytes ++ [CR]) v w)
    (turned : ∀ seen, imapTurn ssl seen LF w = imapDone (w.start + seen.length) w)
    (start : w.start = v.start) (command : w.command = v.command) (idle : w.argStart = 0)
    (backslash : w.backslash = (v.backslash || escapes))
    (args : ∃ b, w.args = v.args ++ [b] ∧
      b.data - v.start + b.len ≤ (loginLine tag name user password).length ∧
      argBytes v.start (loginLine tag name user password) b = bytes) :
    ∃ u, lineEnd ssl [] (loginLine tag name user password) s =
        some (loginLine tag name user password, u) ∧
      Ended s u (loginLine tag name user password) user.raw bytes (user.escapes || escapes) := by
  obtain ⟨a, argsV, insideA, bytesA⟩ := read.args
  obtain ⟨b, argsW, insideB, bytesB⟩ := args
  rw [argsV] at argsW
  rw [read.start] at insideB bytesB
  obtain ⟨u, done, argsU, startU, commandU, backU⟩ := @lineEnd_done ssl w
    (loginFront tag name ++ (user.bytes ++ [chr ' ']) ++ (password.bytes ++ [CR])) idle (turned _)
  have whole := (front.append back) [LF]
  rw [List.nil_append, done, ← loginLine_eq] at whole
  refine ⟨u, whole, ?_, ?_, ?_, a, b, by rw [argsU, argsW]; rfl, ?_, insideB, ?_, bytesB⟩
  · exact startU.trans (start.trans read.start)
  · exact commandU.trans (command.trans read.command)
  · rw [backU, backslash, read.backslash, Bool.or_assoc]
  · rw [loginLine_user]
    exact insideA.trans (by simp)
  · rw [loginLine_user]
    exact bytesA _

theorem lineEnd_login (blank : Blank s) (login : LoginName tag name) (validUser : user.Valid)
    (validPassword : password.Valid) (quoted : s.quoted = true → user.isAtom = false)
    (filledUser : user.isEmptyLiteral = false) (filledPassword : password.isEmptyLiteral = false) :
    ∃ u, lineEnd ssl [] (loginLine tag name user password) s =
        some (loginLine tag name user password, u) ∧
      Ended s u (loginLine tag name user password) user.raw password.raw
        (user.escapes || password.escapes) := by
  obtain ⟨v, front, read⟩ := @feeds_user ssl tag name s user blank login validUser quoted filledUser
  obtain ⟨a, args, _⟩ := read.args
  obtain ⟨w, back, pushed⟩ := @feeds_written ssl (loginFront tag name ++ (user.bytes ++ [chr ' '])) v
    password CR validPassword filledPassword read.state (by rw [args]; exact Nat.le_succ 1)
    read.literalLen read.noSyncLiteral (Or.inr rfl) (fun _ same => absurd same (by decide))
  obtain ⟨b, argsW, inside, _, bytes⟩ := pushed.args
  have state : w.state = .almostDone := pushed.state
  apply read.ends front back ?_ pushed.start pushed.command pushed.argStart pushed.backslash
  · refine ⟨b, argsW, ?_, ?_⟩
    · rw [loginLine_password]
      exact inside.trans (by simp)
    · rw [loginLine_password]
      exact bytes _
  · intro seen
    simp only [imapTurn, state, if_true]

theorem empty_password (blank : Blank s) (login : LoginName tag name) (validUser : user.Valid)
    (validPassword : password.Valid) (quoted : s.quoted = true → user.isAtom = false)
    (filledUser : user.isEmptyLiteral = false) (empty : password.isEmptyLiteral = true) :
    ∃ u, lineEnd ssl [] (loginLine tag name user password) s =
        some (loginLine tag name user password, u) ∧
      Ended s u (loginLine tag name user password) user.raw [CR] user.escapes := by
  obtain ⟨v, front, read⟩ := @feeds_user ssl tag name s user blank login validUser quoted filledUser
  obtain ⟨a, args, _⟩ := read.args
  cases password with
  | atom text => cases empty
  | quoted chars => cases empty
  | literal synced digits text =>
    have none_ : text = [] := List.isEmpty_iff.mp empty
    subst none_
    obtain ⟨w, back, state, start, command, idle, backslash, b, argsW, inside, bytes⟩ := @feeds_empty ssl
      (loginFront tag name ++ (user.bytes ++ [chr ' '])) v synced digits validPassword read.state
      (by rw [args]; exact Nat.le_succ 1) read.literalLen read.noSyncLiteral CR
    have line : loginLine tag name user (.literal synced digits []) =
        loginFront tag name ++ (user.bytes ++ [chr ' ']) ++
          ((Written.literal synced digits []).bytes ++ [CR]) ++ [LF] := loginLine_eq _ _ _ _
    rw [← Bool.or_false user.escapes]
    apply read.ends front back ?_ start command idle (by rw [backslash, Bool.or_false])
    · refine ⟨b, argsW, ?_, ?_⟩
      · rw [line]
        exact inside.trans (by simp)
      · rw [line]
        exact bytes _
    · intro seen
      have brace : ¬ LF = 0x7b := by decide
      have cr : ¬ LF = CR := by decide
      simp only [imapTurn, state, if_neg brace, imapEnds, if_neg cr, if_true]

theorem unescape_written {w : Written} (valid : w.Valid) :
    unescape w.raw = some w.text ↔ 0x5c ∉ w.literalText := by
  cases w with
  | atom text =>
    have plain : 0x5c ∉ text := fun member => (valid.2 _ member).2.2.2.2.1 rfl
    exact ⟨fun _ => List.not_mem_nil, fun _ => unescape_plain plain⟩
  | quoted chars =>
    exact ⟨fun _ => List.not_mem_nil,
      fun _ => unescape_quoted chars fun char member plain => ((valid char member).2.2 plain).2⟩
  | literal sync digits text =>
    refine ⟨fun same back => ?_, unescape_plain⟩
    exact unescape_back back same

theorem raw_text {w : Written} (plain : w.escapes = false) : w.raw = w.text := by
  cases w with
  | atom text => rfl
  | literal sync digits text => rfl
  | quoted chars =>
    have none_ : ∀ char ∈ chars, char.1 = false := by
      intro char member
      exact Bool.eq_false_iff.mpr fun escaped =>
        Bool.eq_false_iff.mp plain (List.any_eq_true.mpr ⟨char, member, escaped⟩)
    show chars.flatMap quotedChar = chars.map Prod.snd
    clear plain
    induction chars with
    | nil => rfl
    | cons char chars ih =>
      have here := none_ char List.mem_cons_self
      have later := fun c member => none_ c (List.mem_cons_of_mem _ member)
      rw [List.flatMap_cons, List.map_cons, quotedChar, if_neg (by rw [here]; decide), ih later]
      rfl

theorem first_differs {arg : Str} {seen : List UInt8} (first : [arg] <+: s.args)
    (ends : lineEnd ssl seen rest s = some (parsed, u))
    (inside : arg.data - s.start + arg.len ≤ seen.length)
    (other : ∀ more, argBytes s.start (seen ++ more) arg ≠ text ∧
      unescape (argBytes s.start (seen ++ more) arg) ≠ some text) (second : List UInt8) :
    loginArgs (parsed ++ extra) u ≠ some [text, second] := by
  intro got
  obtain ⟨args, start, more, split⟩ := lineEnd_first first ends
  have whole : parsed ++ extra = seen ++ (more ++ extra) := by rw [← split, List.append_assoc]
  obtain ⟨out, others, same, either⟩ := loginArgs_first got args (by
    rw [start, whole, List.length_append]
    omega)
  cases same
  rw [start, whole] at either
  rcases either with equal | unescaped
  · exact (other (more ++ extra)).1 equal.symm
  · exact (other (more ++ extra)).2 unescaped

theorem empty_user (blank : Blank s) (login : LoginName tag name) (valid : user.Valid)
    (empty : user.isEmptyLiteral = true)
    (ends : lineEnd ssl [] (loginLine tag name user password) s = some (parsed, u))
    (second : List UInt8) : loginArgs (parsed ++ extra) u ≠ some [user.text, second] := by
  obtain ⟨t, named, state, command, start, args, quotes, back, len, sync⟩ := @feeds_name ssl s tag name
    login blank.state
  cases user with
  | atom text => cases empty
  | quoted chars => cases empty
  | literal synced digits text =>
    have none_ : text = [] := List.isEmpty_iff.mp empty
    subst none_
    obtain ⟨v, first, _, startV, _, _, _, arg, argsV, inside, bytes⟩ := @feeds_empty ssl
      (loginFront tag name) t synced digits valid state (by rw [args, blank.args]; exact Nat.zero_le _)
      (len.trans blank.literalLen) (sync.trans blank.noSyncLiteral) (chr ' ')
    have fed := named.append first
    have split : loginLine tag name (.literal synced digits []) password =
        tag ++ (chr ' ' :: (name ++ [chr ' '])) ++
          ((Written.literal synced digits []).bytes ++ [chr ' ']) ++ (password.bytes ++ [CR, LF]) := by
      simp [loginLine]
    rw [split, fed, List.nil_append] at ends
    rw [args, blank.args, List.nil_append] at argsV
    have here : [arg] <+: v.args := ⟨[], by rw [argsV, List.append_nil]⟩
    refine first_differs here ends ?_ ?_ second
    · rw [startV]
      exact inside
    · intro more
      have byte : argBytes v.start (tag ++ (chr ' ' :: (name ++ [chr ' '])) ++
          ((Written.literal synced digits []).bytes ++ [chr ' ']) ++ more) arg = [chr ' '] := by
        rw [startV]
        exact bytes more
      have other : unescape [chr ' '] = some [chr ' '] := by decide
      rw [byte, other]
      exact ⟨List.cons_ne_nil _ _, fun same => absurd (Option.some.inj same) (List.cons_ne_nil _ _)⟩

theorem feeds_within (valid : (Written.atom text).Valid) (state : s.state = .spacesBeforeArgument)
    (few : s.args.length ≤ 2) (quoted : s.quoted = true) :
    Feeds ssl seen (text ++ [chr ' ']) s
      { s with
        argStart := s.start + seen.length
        state := .argument } := by
  refine (feeds_open valid state few).append (feeds_turn ?_)
  simp only [imapTurn, quoted, and_self, if_true]

theorem argBytes_longer {start : Nat} {arg : Str} {buf : List UInt8} (front text : List UInt8)
    (data : arg.data = start + front.length) (long : text.length ≤ arg.len) (here : front ++ text <+: buf) :
    ∃ more, argBytes start buf arg = text ++ more := by
  obtain ⟨rest, split⟩ := here
  refine ⟨rest.take (arg.len - text.length), ?_⟩
  calc argBytes start buf arg
      = ((front ++ (text ++ rest)).drop front.length).take arg.len := by
        rw [argBytes, data, Nat.add_sub_cancel_left, ← split, List.append_assoc]
    _ = (text ++ rest).take arg.len := by rw [List.drop_left]
    _ = text ++ rest.take (arg.len - text.length) := by
        rw [List.take_append, List.take_of_length_le long]

theorem quoted_user (blank : Blank s) (login : LoginName tag name) (valid : user.Valid)
    (atom : user.isAtom = true) (quoted : s.quoted = true)
    (ends : lineEnd ssl [] (loginLine tag name user password) s = some (parsed, u))
    (second : List UInt8) : loginArgs (parsed ++ extra) u ≠ some [user.text, second] := by
  obtain ⟨t, named, state, command, start, args, quotes, back, len, sync⟩ := @feeds_name ssl s tag name
    login blank.state
  cases user with
  | quoted chars => cases atom
  | literal synced digits text => cases atom
  | atom text =>
    let opened : Session := { t with
      argStart := t.start + (loginFront tag name).length
      state := .argument }
    have nothing : t.args = [] := args.trans blank.args
    have within : Feeds ssl (loginFront tag name) (text ++ [chr ' ']) t opened :=
      feeds_within valid state (by rw [nothing]; exact Nat.zero_le _) (quotes.trans quoted)
    have split : loginLine tag name (.atom text) password =
        tag ++ (chr ' ' :: (name ++ [chr ' '])) ++ (text ++ [chr ' ']) ++ (password.bytes ++ [CR, LF]) := by
      simp [loginLine, Written.bytes]
    rw [split, named.append within, List.nil_append] at ends
    -- the space does not end the argument
    have longer : Longer t.start (loginFront tag name).length (text ++ [chr ' ']).length
        (loginFront tag name ++ (text ++ [chr ' '])) opened :=
      .open rfl (Or.inl rfl) (quotes.trans quoted) nothing rfl (Nat.le_of_eq List.length_append.symm)
    obtain ⟨still, front⟩ := @lineEnd_keeps ssl _ _ parsed opened u
      (fun seen u => Longer t.start (loginFront tag name).length (text ++ [chr ' ']).length seen u ∧
        loginFront tag name ++ (text ++ [chr ' ']) <+: seen)
      (fun seen ch u kept valid =>
        ⟨longer_turn seen ch u kept.1 valid, kept.2.trans (List.prefix_append _ _)⟩)
      (fun seen u kept => ⟨by
        cases kept.1 with
        | «open» same state quoted none_ argStart enough =>
          exact .open same state quoted none_ argStart enough
        | read same arg args data long inside => exact .read same arg args data long inside, kept.2⟩)
      ⟨longer, List.prefix_rfl⟩ ends
    intro got
    cases still with
    | «open» same state quoted none_ argStart enough =>
      rw [loginArgs, none_] at got
      split at got
      · split at got <;> cases got
      · cases got
    | read same arg args data long inside =>
      have whole : (parsed ++ extra).length = parsed.length + extra.length := List.length_append
      obtain ⟨out, others, list, either⟩ := @loginArgs_first u (parsed ++ extra) arg _ got args (by
        rw [same, data, Nat.add_sub_cancel_left]
        omega)
      obtain ⟨more, bytes⟩ := argBytes_longer (loginFront tag name) (text ++ [chr ' '])
        data long (front.trans (List.prefix_append parsed extra))
      have received : out = text := (List.cons.inj list).1.symm
      rw [same, bytes, received] at either
      have size : text.length < (text ++ [chr ' '] ++ more).length := by
        simp only [List.length_append, List.length_singleton]
        omega
      rcases either with equal | unescaped
      · exact absurd (congrArg List.length equal) (Nat.ne_of_lt size)
      · have plain : 0x5c ∉ text ++ [chr ' '] := by
          intro member
          rcases List.mem_append.mp member with inText | last
          · exact (valid.2 _ inText).2.2.2.2.1 rfl
          · exact absurd last (by decide)
        obtain ⟨rest, equal, _⟩ := unescape_append plain unescaped
        have count := congrArg List.length equal
        simp only [List.length_append, List.length_singleton] at count
        omega

theorem blank_received (blank : Blank s) (login : LoginName tag name) (validUser : user.Valid)
    (validPassword : password.Valid) {reads : List (List UInt8)}
    (whole : reads.flatten = loginLine tag name user password) (waits : Waits ssl s reads) :
    received ssl s reads = some [user.text, password.text] ↔ Exact s user password := by
  have all : s.pos = s.start + s.buf.length := by
    rw [blank.pos, blank.buf]
    rfl
  have cases_ := received_cases ssl reads all waits
  rw [blank.buf, whole, List.nil_append] at cases_
  -- the bytes behind the command are none
  have nothing {extra : List UInt8}
      (front : loginLine tag name user password ++ extra <+: loginLine tag name user password) :
      loginLine tag name user password ++ extra = loginLine tag name user password := by
    have le := front.length_le
    rw [List.length_append] at le
    have none_ : extra = [] := List.eq_nil_of_length_eq_zero (by omega)
    rw [none_, List.append_nil]
  constructor
  · intro got
    rcases cases_ with ⟨none_, _⟩ | ⟨parsed, extra, t, ends, front, same⟩
    · rw [none_] at got
      cases got
    · rw [same] at got
      have quoted : s.quoted = true → user.isAtom = false := by
        intro isQuoted
        by_contra atom
        exact quoted_user blank login validUser (Bool.not_eq_false _ ▸ atom) isQuoted ends _ got
      have filledUser : user.isEmptyLiteral = false := by
        by_contra empty
        exact empty_user blank login validUser (Bool.not_eq_false _ ▸ empty) ends _ got
      have filledPassword : password.isEmptyLiteral = false := by
        by_contra empty
        obtain ⟨u, line, ended⟩ := @empty_password ssl tag name s user password blank login validUser
          validPassword quoted filledUser (Bool.not_eq_false _ ▸ empty)
        rw [line] at ends
        cases ends
        have noText : password.text = [] := by
          cases password with
          | atom text => cases empty rfl
          | quoted chars => cases empty rfl
          | literal synced digits text =>
            exact List.isEmpty_iff.mp ((Bool.not_eq_false _).mp empty)
        have kept : unescape [CR] = some [CR] := by decide
        rw [nothing front, ended.received, noText, kept] at got
        split at got
        · cases got.2
        · cases got.2
      obtain ⟨u, line, ended⟩ := @lineEnd_login ssl tag name s user password blank login validUser
        validPassword quoted filledUser filledPassword
      rw [line] at ends
      cases ends
      rw [nothing front, ended.received] at got
      refine ⟨quoted, ⟨filledUser, filledPassword⟩, ?_⟩
      intro flag
      rw [Bool.or_assoc] at flag
      rw [if_pos flag] at got
      exact ⟨(unescape_written validUser).mp got.1, (unescape_written validPassword).mp got.2⟩
  · intro exact_
    obtain ⟨u, line, ended⟩ := @lineEnd_login ssl tag name s user password blank login validUser
      validPassword exact_.quoted exact_.filled.1 exact_.filled.2
    rcases cases_ with ⟨_, none_⟩ | ⟨parsed, extra, t, ends, front, same⟩
    · rw [line] at none_
      cases none_
    · rw [line] at ends
      cases ends
      rw [same, nothing front, ended.received]
      split
      · rename_i flag
        rw [← Bool.or_assoc] at flag
        obtain ⟨plainUser, plainPassword⟩ := exact_.plain flag
        exact ⟨(unescape_written validUser).mpr plainUser, (unescape_written validPassword).mpr plainPassword⟩
      · rename_i flag
        obtain ⟨_, escapes⟩ := Bool.or_eq_false_iff.mp (Bool.eq_false_iff.mpr flag)
        obtain ⟨noUser, noPassword⟩ := Bool.or_eq_false_iff.mp escapes
        exact ⟨raw_text noUser, raw_text noPassword⟩

end Login

section Sessions

variable {ssl : Bool} {seen rest : List UInt8} {s : Session}

/-- Nothing is set for a literal outside of one, and a command starts without arguments. -/
structure Steady (s : Session) : Prop where
  noSyncLiteral : s.noSyncLiteral = true → s.state = .startLiteralArgument
  literalLen : s.literalLen ≠ 0 → s.state = .literal ∨ s.state = .noSyncLiteralArgument ∨
    s.state = .startLiteralArgument ∨ s.state = .literalArgument
  early : s.state.early = true → s.args = []

def Still (s : Session) : Prop := s.literalLen = 0 ∧ s.noSyncLiteral = false

theorem Still.steady (still : Still s) (early : s.state.early = true → s.args = []) : Steady s where
  noSyncLiteral sync := by
    rw [still.2] at sync
    cases sync
  literalLen len := absurd still.1 len
  early := early

theorem Steady.still (steady : Steady s) (outside : s.state ≠ .literal ∧ s.state ≠ .noSyncLiteralArgument ∧
    s.state ≠ .startLiteralArgument ∧ s.state ≠ .literalArgument) : Still s := by
  constructor
  · by_contra len
    rcases steady.literalLen len with at_ | at_ | at_ | at_
    · exact outside.1 at_
    · exact outside.2.1 at_
    · exact outside.2.2.1 at_
    · exact outside.2.2.2 at_
  · exact Bool.eq_false_iff.mpr fun sync => outside.2.2.1 (steady.noSyncLiteral sync)

theorem steady_literal (sync : s.noSyncLiteral = true → s.state = .startLiteralArgument)
    (state : s.state = .literal ∨ s.state = .noSyncLiteralArgument ∨ s.state = .startLiteralArgument ∨
      s.state = .literalArgument) : Steady s where
  noSyncLiteral := sync
  literalLen _ := state
  early early := by
    rcases state with at_ | at_ | at_ | at_
    all_goals
      rw [at_] at early
      cases early

structure SteadyTurn (r : Session × Option Rc) : Prop where
  goes : r.2 = none ∨ r.2 = some .imapNext → Steady r.1
  ends : r.2 = some .ok ∨ r.2 = some .parseInvalidCommand → Still r.1

theorem steadyTurn_goes {t : Session} {rc : Option Rc} (steady : Steady t)
    (rest : rc = none ∨ rc = some .imapNext) : SteadyTurn (t, rc) where
  goes _ := steady
  ends done := by rcases rest with rfl | rfl <;> simp at done

theorem steadyTurn_goTo (state : State) (still : Still s) (early : state.early = true → s.args = []) :
    SteadyTurn (goTo state s) :=
  steadyTurn_goes (Still.steady still early) (Or.inl rfl)

theorem steadyTurn_imapDone (p : Nat) (still : Still s) : SteadyTurn (imapDone p s) where
  goes rc := by simp [imapDone] at rc
  ends _ := by
    unfold imapDone
    dsimp only
    split_ifs
    · exact ⟨rfl, rfl⟩
    · exact still

theorem steadyTurn_imapInvalid (s : Session) : SteadyTurn (imapInvalid s) where
  goes rc := by simp [imapInvalid] at rc
  ends _ := ⟨rfl, rfl⟩

theorem steadyTurn_imapEmpty (still : Still s) : SteadyTurn (imapEmpty s) where
  goes rc := by simp [imapEmpty] at rc
  ends _ := still

theorem steadyTurn_imapEnds (p : Nat) (ch : UInt8) (still : Still s) : SteadyTurn (imapEnds p ch s) := by
  unfold imapEnds
  split_ifs
  · exact steadyTurn_goTo _ still (fun never => by cases never)
  · exact steadyTurn_imapDone p still
  · exact steadyTurn_goTo _ still (fun never => by cases never)

theorem steadyTurn_imapArgument (state : State) (still : Still s) (argument : state.early = false) :
    SteadyTurn (imapArgument s state) := by
  unfold imapArgument
  split_ifs
  · exact steadyTurn_goTo _ still (fun early => by rw [argument] at early; cases early)
  · exact steadyTurn_imapInvalid s

theorem steady_imapTurn (ssl : Bool) (seen : List UInt8) (ch : UInt8) (steady : Steady s) :
    SteadyTurn (imapTurn ssl seen ch s) := by
  obtain ⟨start, placed, old, at_, state, command, args, cmdStart, argStart, argEnd, tag, literalLen,
    quoted, backslash, noSyncLiteral⟩ := s
  cases state with
  | literal =>
    have sync : noSyncLiteral = false := Bool.eq_false_iff.mpr fun set => by cases steady.noSyncLiteral set
    have unset (set : noSyncLiteral = true) : State.noSyncLiteralArgument = .startLiteralArgument := by
      rw [sync] at set
      cases set
    dsimp only [imapTurn]
    split_ifs
    · exact steadyTurn_goes (steady_literal steady.noSyncLiteral (Or.inl rfl)) (Or.inl rfl)
    · exact steadyTurn_goes (steady_literal (fun _ => rfl) (Or.inr (Or.inr (Or.inl rfl)))) (Or.inl rfl)
    · exact steadyTurn_goes (steady_literal unset (Or.inr (Or.inl rfl))) (Or.inl rfl)
    · exact steadyTurn_imapInvalid _
  | noSyncLiteralArgument =>
    dsimp only [imapTurn]
    split_ifs
    · exact steadyTurn_goes (steady_literal (fun _ => rfl) (Or.inr (Or.inr (Or.inl rfl)))) (Or.inl rfl)
    · exact steadyTurn_imapInvalid _
  | startLiteralArgument =>
    dsimp only [imapTurn]
    split_ifs with cr lf sync
    · exact steadyTurn_goes steady (Or.inl rfl)
    · exact steadyTurn_goes (steady_literal (fun never => by cases never) (Or.inr (Or.inr (Or.inr rfl))))
        (Or.inl rfl)
    · exact steadyTurn_goes (steady_literal (fun set => absurd set sync) (Or.inr (Or.inr (Or.inr rfl))))
        (Or.inr rfl)
    · exact steadyTurn_imapInvalid _
  | literalArgument =>
    have sync : noSyncLiteral = false := Bool.eq_false_iff.mpr fun set => by cases steady.noSyncLiteral set
    dsimp only [imapTurn]
    split_ifs with more
    · exact steadyTurn_goes (steady_literal steady.noSyncLiteral (Or.inr (Or.inr (Or.inr rfl)))) (Or.inl rfl)
    · exact steadyTurn_goTo _ ⟨not_not.mp more, sync⟩ (fun never => by cases never)
  | command =>
    have still := steady.still ⟨by simp, by simp, by simp, by simp⟩
    dsimp only [imapTurn]
    split_ifs
    · cases findCommand (imapTable ssl) (seen.drop (cmdStart - start)) with
      | none => exact steadyTurn_imapInvalid _
      | some found => exact steadyTurn_imapEnds _ _ still
    · exact steadyTurn_goes steady (Or.inl rfl)
    · exact steadyTurn_imapInvalid _
  | _ =>
    have still := steady.still ⟨by simp, by simp, by simp, by simp⟩
    dsimp only [imapTurn]
    split_ifs
    all_goals first
      | exact steadyTurn_goes steady (Or.inl rfl)
      | exact steadyTurn_goTo _ still (fun _ => steady.early rfl)
      | exact steadyTurn_goTo _ still (fun never => by cases never)
      | exact steadyTurn_imapEmpty still
      | exact steadyTurn_imapInvalid _
      | exact steadyTurn_imapDone _ still
      | exact steadyTurn_imapEnds _ _ still
      | exact steadyTurn_imapArgument _ still rfl

structure Between (s : Session) : Prop extends Steady s where
  pos : s.state = .start → s.buf = [] → s.pos = s.start

structure SteadyRead (r : Session × Rc) : Prop where
  goes : r.2 = .again ∨ r.2 = .imapNext → Steady r.1
  ends : r.2 = .ok ∨ r.2 = .parseInvalidCommand → Still r.1

theorem steady_parseLoop (ssl : Bool) (seen rest : List UInt8) (steady : Steady s) :
    SteadyRead (parseLoop ssl .imap seen rest s) := by
  induction rest generalizing seen s with
  | nil =>
    exact ⟨fun _ => ⟨steady.noSyncLiteral, steady.literalLen, steady.early⟩, by rintro (never | never) <;> cases never⟩
  | cons ch rest ih =>
    have step := steady_imapTurn ssl seen ch steady
    have returned := (imapTurn_returned ssl seen ch s).goes
    rw [parseLoop, turn]
    generalize imapTurn ssl seen ch s = r at step returned
    obtain ⟨t, rc⟩ := r
    cases rc with
    | none => exact ih _ (step.goes (Or.inl rfl))
    | some rc =>
      constructor
      · rintro (again | next)
        · exact absurd (congrArg some again) returned
        · exact step.goes (Or.inr (congrArg some next))
      · rintro (ok | invalid)
        · exact step.ends (Or.inl (congrArg some ok))
        · exact step.ends (Or.inr (congrArg some invalid))

theorem between_afterCommand (still : Still s) : Between (afterCommand .imap s) := by
  unfold afterCommand
  dsimp only
  split_ifs with going
  · exact ⟨Still.steady still fun _ => rfl, fun start => absurd start going⟩
  · exact ⟨Still.steady still fun _ => rfl, fun _ _ => rfl⟩

theorem between_afterReply (reply : Reply) (still : Still s) : Between (afterReply .imap reply s) := by
  unfold afterReply
  dsimp only
  rw [if_pos rfl]
  cases reply with
  | ok => exact between_afterCommand still
  | stop => exact between_afterCommand still
  | parseInvalidCommand => exact between_afterCommand still
  | done => exact ⟨Still.steady still fun _ => rfl, fun _ _ => rfl⟩

theorem between_authState (ssl : Bool) (between : Between s) (bytes : List UInt8) (reply : Reply) :
    Between (authState ssl .imap s bytes reply) := by
  let grown : Session := { s with buf := s.buf ++ bytes }
  let front := grown.buf.take (s.pos - s.start)
  let back := grown.buf.drop (s.pos - s.start)
  have all : front ++ back = grown.buf := List.take_append_drop _ _
  have steady : Steady grown := ⟨between.noSyncLiteral, between.literalLen, between.early⟩
  have left := steady_parseLoop ssl front back steady
  have line := parseLoop_line ssl front back grown
  have read : readCommand ssl .imap s bytes = parseLoop ssl .imap front back grown := rfl
  rw [authState, read]
  generalize parseLoop ssl .imap front back grown = r at left line
  obtain ⟨t, rc⟩ := r
  have buf : t.buf = grown.buf := line.buf
  have start : t.start = grown.start := line.start
  cases rc with
  | again =>
    refine ⟨left.goes (Or.inl rfl), fun _ none_ => ?_⟩
    have pos := (line.again rfl).1
    rw [all, ← buf, none_] at pos
    exact pos.trans start.symm
  | imapNext =>
    refine ⟨left.goes (Or.inr rfl), fun _ none_ => ?_⟩
    obtain ⟨now, later, split, pos, _⟩ := line.next rfl
    rw [buf, ← all, split, ← List.append_assoc] at none_
    rw [(List.append_eq_nil_iff.mp none_).1] at pos
    exact pos.trans start.symm
  | ok => exact between_afterReply reply (left.ends (Or.inl rfl))
  | parseInvalidCommand => exact between_afterCommand (left.ends (Or.inr rfl))

theorem between_init (start : Nat) (placed : 0 < start) : Between (Session.init start placed) :=
  ⟨Still.steady ⟨rfl, rfl⟩ fun _ => rfl, fun _ _ => rfl⟩

theorem between_runSession (ssl : Bool) (history : List (List UInt8 × Reply)) (between : Between s) :
    Between (runSession ssl .imap s history) := by
  induction history generalizing s with
  | nil => exact between
  | cons event history ih => exact ih (between_authState ssl between event.1 event.2)

theorem Between.blank (between : Between s) (before : AtLineStart s) : Blank s where
  state := before.1
  buf := before.2
  pos := between.pos before.1 before.2
  args := between.early (by rw [before.1]; rfl)
  literalLen := (between.still (by rw [before.1]; simp)).1
  noSyncLiteral := (between.still (by rw [before.1]; simp)).2

/-- The loop over an argument writes over no other byte. -/
def WritesInside (start : Nat) (buf : List UInt8) (arg : Str) : Prop :=
  let first := arg.data - start
  ∀ out dst, unescapeLoop arg.len buf first first (first + arg.len) = some (out, dst) →
    dst ≤ first + arg.len ∧ out.length = buf.length ∧ out.take first = buf.take first ∧
      out.drop (first + arg.len) = buf.drop (first + arg.len)

theorem writesInside_of_inside {start : Nat} {buf : List UInt8} {arg : Str}
    (inside : arg.data - start + arg.len ≤ buf.length) : WritesInside start buf arg := by
  unfold WritesInside
  dsimp only
  generalize arg.data - start = first at inside ⊢
  intro out dst left
  rw [unescapeLoop_spec (by omega) (Nat.le_refl _) inside] at left
  obtain ⟨text, unescaped, same⟩ := Option.map_eq_some_iff.mp left
  have count : (slice buf first (first + arg.len)).length = arg.len := by
    rw [slice, List.length_take, List.length_drop]
    omega
  have shorter : text.length ≤ arg.len := by
    have le := (unescapeFrom_length unescaped).1
    rw [count] at le
    exact Nat.le_of_add_le_add_right le
  cases same
  have front : (buf.take first).length = first := by
    rw [List.length_take]
    omega
  refine ⟨by omega, ?_, ?_, ?_⟩
  · rw [spliced, List.length_append, List.length_append, front, List.length_drop]
    omega
  · rw [spliced, List.take_left' front]
  · have place : first + arg.len = (buf.take first).length + (text.length + (arg.len - text.length)) := by
      rw [front]
      omega
    have rest : first + text.length + (arg.len - text.length) = first + arg.len := by omega
    rw [spliced, place, List.drop_length_add_append, List.drop_length_add_append, List.drop_drop, rest, front]
    congr 1
    omega

/-- What `ngx_mail_imap_login` receives of a `LOGIN` command is what is written in it, and the loops
stay in the arguments, exactly if a flag is not left of another command or set by another argument, and
no literal is empty. -/
theorem login_received_iff (ssl : Bool) {start : Nat} {placed : 0 < start} (history : List (List UInt8 × Reply))
    (session : s = runSession ssl .imap (Session.init start placed) history) (before : AtLineStart s)
    {tag name : List UInt8} (login : LoginName tag name) {user password : Written} (validUser : user.Valid)
    (validPassword : password.Valid) {reads : List (List UInt8)}
    (whole : reads.flatten = loginLine tag name user password) (waits : Waits ssl s reads) :
    (received ssl s reads = some [user.text, password.text] ↔ Exact s user password) ∧
      ∀ buf arg, arg.data - s.start + arg.len ≤ buf.length → WritesInside s.start buf arg := by
  have between : Between s := by
    rw [session]
    exact between_runSession ssl history (between_init start placed)
  exact ⟨blank_received (between.blank before) login validUser validPassword whole waits,
    fun buf arg inside => writesInside_of_inside inside⟩

section Logins

def firstSession : Session := Session.init 1 Nat.one_pos

/-- `"a\"b"` -/
def escapedUser : Written := .quoted [(false, chr 'a'), (true, chr '"'), (false, chr 'b')]

/-- `{3}`, and `xyz` when the server asks for it. -/
def awaitedPassword : Written := .literal true [chr '3'] (bytesOf "xyz")

theorem login_name : LoginName [chr 'a'] (bytesOf "login") where
  tag := by decide +kernel
  letters := by decide +kernel
  login := by decide +kernel

theorem escapedUser_valid : escapedUser.Valid := by
  unfold escapedUser Written.Valid
  decide +kernel

theorem awaitedPassword_valid : awaitedPassword.Valid := by
  unfold awaitedPassword Written.Valid
  decide +kernel

theorem login_received_iff_awaited :
    received false firstSession [bytesOf "a login \"a\\\"b\" {3}\x0d\n", bytesOf "xyz\x0d\n"] =
      some [bytesOf "a\"b", bytesOf "xyz"] :=
  (@login_received_iff firstSession false 1 Nat.one_pos [] rfl ⟨rfl, rfl⟩ [chr 'a'] (bytesOf "login")
    login_name escapedUser awaitedPassword escapedUser_valid awaitedPassword_valid
    [bytesOf "a login \"a\\\"b\" {3}\x0d\n", bytesOf "xyz\x0d\n"] (by decide +kernel) (by
      unfold Waits
      exact ⟨rfl, trivial⟩)).1.mpr
    ⟨(fun never => by cases never), ⟨rfl, rfl⟩, fun _ => by decide +kernel⟩

/-- `{3+}`, and a text with a backslash. -/
def slashPassword : Written := .literal false [chr '3'] (bytesOf "x\\y")

theorem slashPassword_valid : slashPassword.Valid := by
  unfold slashPassword Written.Valid
  decide +kernel

/-- The backslash of the user name takes the one of the password away. -/
theorem login_received_literal :
    LoginName [chr 'a'] (bytesOf "login") ∧ escapedUser.Valid ∧ slashPassword.Valid ∧
      AtLineStart firstSession ∧
      Waits false firstSession [loginLine [chr 'a'] (bytesOf "login") escapedUser slashPassword] ∧
      received false firstSession [loginLine [chr 'a'] (bytesOf "login") escapedUser slashPassword] =
        some [escapedUser.text, bytesOf "xy"] ∧
      [escapedUser.text, bytesOf "xy"] ≠ [escapedUser.text, slashPassword.text] := by
  refine ⟨login_name, escapedUser_valid, slashPassword_valid, ⟨rfl, rfl⟩, ?_, rfl, by decide +kernel⟩
  unfold Waits
  exact trivial

end Logins

end Sessions

end NgxFormal.Mail
