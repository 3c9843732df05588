import NgxFormal.Http.UriBytes
import NgxFormal.Lib.Links

/-! `ngx_http_parse_complex_uri`, outside Windows.

`u` and `r->uri_ext` are kept as integers, the distance from `r->uri.data`, because `u -= 5` is
done before it is compared. The memory they point into is a function, and every store through
`u` is recorded. Bytes of the request are read at indices from `r->uri_start`. -/

namespace NgxFormal.Http.ComplexUri

/-- The states that `quoted_state` can hold: `sw_usual`, `sw_slash`, `sw_dot`, `sw_dot_dot`. -/
inductive Plain where
  | usual
  | slash
  | dot
  | dotDot
  deriving DecidableEq, Repr

/-- The other two states, with the variables that only they read. -/
inductive State where
  | plain (state : Plain)
  | quoted (quotedState : Plain)
  | quotedSecond (quotedState : Plain) (decoded : UInt8)
  deriving DecidableEq, Repr

structure Machine where
  u : Int
  data : Int → UInt8
  writes : List Int
  uriExt : Option Int
  plusInUri : Bool
  quotedUri : Bool

/-- `*u++ = ch` -/
def Machine.put (m : Machine) (ch : UInt8) : Machine :=
  { m with
    u := m.u + 1
    data := fun i => if i = m.u then ch else m.data i
    writes := m.u :: m.writes }

/-- `case '+'`, which falls through to the default. -/
def Machine.plus (m : Machine) (ch : UInt8) : Machine :=
  { m with plusInUri := m.plusInUri || ch = chr '+' }

/-- The search for a `/` from `u` down to `r->uri.data`, and the byte behind it. -/
def backUp (data : Int → UInt8) : Nat → Option Int
  | 0 => if data 0 = chr '/' then some 1 else none
  | u + 1 => if data (u + 1) = chr '/' then some (u + 2) else backUp data u

/-- `u -= 5` and the loop after it; `none` when it gets below `r->uri.data`. -/
def popTo (data : Int → UInt8) (u : Int) : Option Int :=
  match u - 5 with
  | .ofNat n => backUp data n
  | .negSucc _ => none

/-- What one turn of the main loop comes to. -/
inductive Turn where
  | next (state : State) (m : Machine)
  | invalid (m : Machine)
  | args (m : Machine)
  | done (m : Machine)

/-- The four states that dispatch on a byte of the path, raw or decoded. -/
def plainTurn (mergeSlashes : Bool) (state : Plain) (ch : UInt8) (m : Machine) : Turn :=
  match state with
  | .usual =>
    if usual ch then .next (.plain .usual) (m.put ch)
    else if ch = chr '/' then .next (.plain .slash) ({ m with uriExt := none }.put ch)
    else if ch = chr '%' then .next (.quoted .usual) m
    else if ch = chr '?' then .args m
    else if ch = chr '#' then .done m
    else if ch = chr '.' then
      .next (.plain .usual) ({ m with uriExt := some (m.u + 1) }.put ch)
    else .next (.plain .usual) ((m.plus ch).put ch)
  | .slash =>
    if usual ch then .next (.plain .usual) (m.put ch)
    else if ch = chr '/' then
      .next (.plain .slash) (if mergeSlashes then m else m.put ch)
    else if ch = chr '.' then .next (.plain .dot) (m.put ch)
    else if ch = chr '%' then .next (.quoted .slash) m
    else if ch = chr '?' then .args m
    else if ch = chr '#' then .done m
    else .next (.plain .usual) ((m.plus ch).put ch)
  | .dot =>
    if usual ch then .next (.plain .usual) (m.put ch)
    else if ch = chr '/' then .next (.plain .slash) { m with u := m.u - 1 }
    else if ch = chr '.' then .next (.plain .dotDot) (m.put ch)
    else if ch = chr '%' then .next (.quoted .dot) m
    else if ch = chr '?' then .args m
    else if ch = chr '#' then .done m
    else .next (.plain .usual) ((m.plus ch).put ch)
  | .dotDot =>
    if usual ch then .next (.plain .usual) (m.put ch)
    else if ch = chr '/' then
      match popTo m.data m.u with
      | some u => .next (.plain .slash) { m with u := u }
      | none => .invalid m
    else if ch = chr '%' then .next (.quoted .dotDot) m
    else if ch = chr '?' then .args m
    else if ch = chr '#' then .done m
    else .next (.plain .usual) ((m.plus ch).put ch)

/-- `sw_quoted` -/
def quotedTurn (quotedState : Plain) (ch : UInt8) (m : Machine) : Turn :=
  let m := { m with quotedUri := true }
  if isDigit ch then .next (.quotedSecond quotedState (ch - chr '0')) m
  else
    let c := ch ||| 0x20
    if chr 'a' ≤ c ∧ c ≤ chr 'f' then .next (.quotedSecond quotedState (c - chr 'a' + 10)) m
    else .invalid m

/-- `sw_quoted_second`. It sets `ch` and leaves `p` alone, so the next turn of the loop
dispatches the decoded byte in the saved state. -/
def quotedSecondTurn (mergeSlashes : Bool) (quotedState : Plain) (decoded ch : UInt8)
    (m : Machine) : Turn :=
  if isDigit ch then
    let ch := (decoded <<< 4) + ch - chr '0'
    if ch = chr '%' ∨ ch = chr '#' then .next (.plain .usual) (m.put ch)
    else if ch = 0 then .invalid m
    else plainTurn mergeSlashes quotedState ch m
  else
    let c := ch ||| 0x20
    if chr 'a' ≤ c ∧ c ≤ chr 'f' then
      let ch := (decoded <<< 4) + c - chr 'a' + 10
      if ch = chr '?' then .next (.plain .usual) (m.put ch)
      else plainTurn mergeSlashes quotedState ch (m.plus ch)
    else .invalid m

def turn (mergeSlashes : Bool) (state : State) (ch : UInt8) (m : Machine) : Turn :=
  match state with
  | .plain state => plainTurn mergeSlashes state ch m
  | .quoted quotedState => quotedTurn quotedState ch m
  | .quotedSecond quotedState decoded => quotedSecondTurn mergeSlashes quotedState decoded ch m

/-- `r->args_start` and `r->args` (its first byte and its length) after the loop at `args`. -/
def argsLoop (argsStart : Nat) : List UInt8 → Nat → Option Nat × Option (Nat × Nat)
  | [], _ => (some argsStart, none)
  | ch :: rest, p =>
    if ch ≠ chr '#' then argsLoop argsStart rest (p + 1)
    else (none, some (argsStart, p - argsStart))

/-- What `NGX_OK` leaves in the request. -/
structure Parsed where
  uriLen : Int
  exten : Option (Int × Int)
  argsStart : Option Nat
  args : Option (Nat × Nat)

inductive Outcome where
  | ok (parsed : Parsed) (m : Machine)
  | invalid (m : Machine)

/-- `r->uri.len` and `r->exten`, in the same words behind both labels. -/
def finish (args : Option Nat × Option (Nat × Nat)) (m : Machine) : Outcome :=
  .ok ⟨m.u, m.uriExt.map fun uriExt => (uriExt, m.u - uriExt), args.1, args.2⟩ m

/-- The main loop, with the bytes from index `p` up to `r->uri_end`. -/
def loop (mergeSlashes : Bool) : List UInt8 → Nat → State → Machine → Outcome
  | [], _, _, m => finish (none, none) m
  | ch :: rest, p, state, m =>
    match turn mergeSlashes state ch m with
    | .next state m => loop mergeSlashes rest (p + 1) state m
    | .invalid m => .invalid m
    | .done m => finish (none, none) m
    | .args m => finish (argsLoop (p + 1) rest (p + 1)) m

/-- The bytes are those from `r->uri_start` to `r->uri_end`; of `r` only the memory behind
`r->uri.data` and the two flags are looked at. -/
def ngxHttpParseComplexUri (mergeSlashes : Bool) (uri : List UInt8) (r : Machine) : Outcome :=
  loop mergeSlashes uri 0 (.plain .usual)
    { r with
      u := 0
      uriExt := none
      writes := [] }

/-- The machine when the function returns. -/
def Outcome.machine : Outcome → Machine
  | .ok _ m => m
  | .invalid m => m

/-- The bytes from `r->uri.data` up to `u`. -/
def Machine.uri (m : Machine) : List UInt8 := (List.range m.u.toNat).map fun (i : Nat) => m.data i

section Dispatch

variable (mergeSlashes : Bool) (state : Plain) (m : Machine)

theorem plus_usual {ch : UInt8} (common : usual ch = true) : m.plus ch = m := by
  have absent := (usual_iff ch).mp common
  have other : ch ≠ chr '+' := by
    rintro rfl
    exact absent (by decide)
  rw [Machine.plus, decide_eq_false other, Bool.or_false]

/-- The bytes that one of the switches has a case for, `+` aside. -/
def Special (ch : UInt8) : Prop :=
  ch = chr '/' ∨ ch = chr '.' ∨ ch = chr '%' ∨ ch = chr '?' ∨ ch = chr '#'

theorem plainTurn_other {ch : UInt8} (other : ¬ Special ch) :
    plainTurn mergeSlashes state ch m = .next (.plain .usual) ((m.plus ch).put ch) := by
  simp only [Special, not_or] at other
  obtain ⟨slash, dot, percent, query, hash⟩ := other
  by_cases common : usual ch = true
  · rw [plus_usual m common]
    cases state <;> simp [plainTurn, common]
  · cases state <;> simp [plainTurn, common, slash, dot, percent, query, hash]

theorem plainTurn_percent :
    plainTurn mergeSlashes state (chr '%') m = .next (.quoted state) m := by
  cases state <;> rfl

theorem plainTurn_query : plainTurn mergeSlashes state (chr '?') m = .args m := by
  cases state <;> rfl

theorem plainTurn_hash : plainTurn mergeSlashes state (chr '#') m = .done m := by
  cases state <;> rfl

theorem plainTurn_slash :
    plainTurn mergeSlashes state (chr '/') m =
      match state with
      | .usual => .next (.plain .slash) ({ m with uriExt := none }.put (chr '/'))
      | .slash => .next (.plain .slash) (if mergeSlashes then m else m.put (chr '/'))
      | .dot => .next (.plain .slash) { m with u := m.u - 1 }
      | .dotDot =>
        match popTo m.data m.u with
        | some u => .next (.plain .slash) { m with u := u }
        | none => .invalid m := by
  cases state <;> rfl

theorem plainTurn_dot :
    plainTurn mergeSlashes state (chr '.') m =
      match state with
      | .usual => .next (.plain .usual) ({ m with uriExt := some (m.u + 1) }.put (chr '.'))
      | .slash => .next (.plain .dot) (m.put (chr '.'))
      | .dot => .next (.plain .dotDot) (m.put (chr '.'))
      | .dotDot => .next (.plain .usual) ((m.plus (chr '.')).put (chr '.')) := by
  cases state <;> rfl

end Dispatch

end NgxFormal.Http.ComplexUri

/-! The path that a raw URI stands for: the escapes decoded, and the segments resolved on a
stack of directories.

Two habits of the parser show here. An escape that the URI breaks off is dropped. `..` takes the
directory above an empty segment along with it, because the backward search for `/` starts in
front of the one that closes the segment. -/

namespace NgxFormal.Http.ComplexUri

open Lib

def hexDigit (ch : UInt8) : Option UInt8 :=
  if isDigit ch then some (ch - chr '0')
  else
    let c := ch ||| 0x20
    if chr 'a' ≤ c ∧ c ≤ chr 'f' then some (c - chr 'a' + 10) else none

/-- The path up to a raw `?` or `#`, decoded. `none` for a bad escape and for `%00`. -/
def decode : List UInt8 → Option (List UInt8)
  | [] => some []
  | ch :: rest =>
    if ch = chr '?' ∨ ch = chr '#' then some []
    else if ch = chr '%' then
      match rest with
      | [] => some []
      | [a] => (hexDigit a).map fun _ => []
      | a :: b :: rest =>
        (hexDigit a).bind fun high => (hexDigit b).bind fun low =>
          if (high <<< 4) + low = 0 then none
          else (decode rest).map fun path => ((high <<< 4) + low) :: path
    else (decode rest).map fun path => ch :: path

theorem decode_stop {ch : UInt8} (rest : List UInt8) (stop : ch = chr '?' ∨ ch = chr '#') :
    decode (ch :: rest) = some [] := by
  rw [decode.eq_def]
  exact if_pos stop

theorem decode_cut (a : UInt8) : decode [chr '%', a] = (hexDigit a).map fun _ => [] := rfl

theorem decode_escape (a b : UInt8) (rest : List UInt8) :
    decode (chr '%' :: a :: b :: rest) =
      (hexDigit a).bind fun high => (hexDigit b).bind fun low =>
        if (high <<< 4) + low = 0 then none
        else (decode rest).map fun path => ((high <<< 4) + low) :: path := by
  rw [decode.eq_def]
  rfl

theorem decode_other {ch : UInt8} (rest : List UInt8) (more : ¬ (ch = chr '?' ∨ ch = chr '#'))
    (plain : ch ≠ chr '%') :
    decode (ch :: rest) = (decode rest).map fun path => ch :: path := by
  rw [decode.eq_def]
  dsimp only
  rw [if_neg more, if_neg plain]

abbrev Segment := List UInt8

abbrev here : Segment := [chr '.']

abbrev up : Segment := [chr '.', chr '.']

/-- The directories open after `..`, the innermost first. -/
def ascend : List Segment → Option (List Segment)
  | [] => none
  | (_ :: _) :: dirs => some dirs
  | [] :: [] => none
  | [] :: _ :: dirs => some dirs

/-- The directories open after a segment and its `/`. -/
def place (mergeSlashes : Bool) (dirs : List Segment) (segment : Segment) :
    Option (List Segment) :=
  if segment = here then some dirs
  else if segment = up then ascend dirs
  else if segment = [] ∧ mergeSlashes then some dirs
  else some (segment :: dirs)

/-- The directories that closed segments lead to, the innermost first. -/
def directories (mergeSlashes : Bool) (segments : List Segment) : Option (List Segment) :=
  segments.foldlM (place mergeSlashes) []

/-- The open directories and the segment that is being read. -/
structure Place where
  dirs : List Segment
  name : Segment

def Place.advance (mergeSlashes : Bool) (p : Place) (ch : UInt8) : Option Place :=
  if ch = chr '/' then (place mergeSlashes p.dirs p.name).map fun dirs => ⟨dirs, []⟩
  else some ⟨p.dirs, p.name ++ [ch]⟩

/-- Where the raw URI behind its leading `/` leads. -/
def follow (mergeSlashes : Bool) (raw : List UInt8) (p : Place) : Option Place :=
  (decode raw).bind fun path => path.foldlM (Place.advance mergeSlashes) p

def base : List Segment → List UInt8
  | [] => [chr '/']
  | dir :: dirs => base dirs ++ dir ++ [chr '/']

def Place.uri (p : Place) : List UInt8 := base p.dirs ++ p.name

/-- A name that can stay in the URI with a `/` behind it. -/
structure Kept (mergeSlashes : Bool) (dir : Segment) : Prop where
  whole : chr '/' ∉ dir
  notHere : dir ≠ here
  notUp : dir ≠ up
  named : mergeSlashes = true → dir ≠ []

structure Place.Proper (mergeSlashes : Bool) (p : Place) : Prop where
  whole : chr '/' ∉ p.name
  dirs : ∀ dir ∈ p.dirs, Kept mergeSlashes dir

variable {mergeSlashes : Bool}

theorem ascend_subset {dirs dirs' : List Segment} (went : ascend dirs = some dirs') :
    ∀ dir ∈ dirs', dir ∈ dirs := by
  intro dir member
  match dirs with
  | [] => cases went
  | (_ :: _) :: _ =>
    cases went
    exact List.mem_cons_of_mem _ member
  | [] :: [] => cases went
  | [] :: _ :: _ =>
    cases went
    exact List.mem_cons_of_mem _ (List.mem_cons_of_mem _ member)

theorem place_kept {dirs dirs' : List Segment} {segment : Segment} (whole : chr '/' ∉ segment)
    (kept : ∀ dir ∈ dirs, Kept mergeSlashes dir)
    (placed : place mergeSlashes dirs segment = some dirs') :
    ∀ dir ∈ dirs', Kept mergeSlashes dir := by
  rw [place] at placed
  split_ifs at placed with dot dots merged
  · cases placed
    exact kept
  · intro dir member
    exact kept dir (ascend_subset placed dir member)
  · cases placed
    exact kept
  · cases placed
    intro dir member
    rcases List.mem_cons.mp member with rfl | old
    · exact ⟨whole, dot, dots, fun merge empty => merged ⟨empty, merge⟩⟩
    · exact kept dir old

theorem Place.Proper.advance {p p' : Place} (proper : p.Proper mergeSlashes) {ch : UInt8}
    (went : p.advance mergeSlashes ch = some p') : p'.Proper mergeSlashes := by
  rw [Place.advance] at went
  split_ifs at went with slash
  · obtain ⟨dirs, placed, rfl⟩ := Option.map_eq_some_iff.mp went
    exact ⟨List.not_mem_nil, place_kept proper.whole proper.dirs placed⟩
  · cases went
    refine ⟨?_, proper.dirs⟩
    intro member
    rcases List.mem_append.mp member with old | new
    · exact proper.whole old
    · exact slash (List.mem_singleton.mp new).symm

theorem foldlM_advance (path : List UInt8) (p : Place) (whole : chr '/' ∉ p.name) :
    ∃ closed last, (p.name ++ path).splitOn (chr '/') = closed ++ [last] ∧
      path.foldlM (Place.advance mergeSlashes) p =
        (closed.foldlM (place mergeSlashes) p.dirs).map fun dirs => ⟨dirs, last⟩ := by
  induction path generalizing p with
  | nil =>
    refine ⟨[], p.name, ?_, rfl⟩
    rw [List.append_nil, List.splitOn_eq_singleton whole, List.nil_append]
  | cons ch path ih =>
    by_cases slash : ch = chr '/'
    · rw [slash, List.splitOn_append_cons_self_of_not_mem whole, List.foldlM_cons, Place.advance,
        if_pos rfl]
      cases placed : place mergeSlashes p.dirs p.name with
      | none =>
        obtain ⟨closed, last, split, _⟩ := ih ⟨p.dirs, []⟩ List.not_mem_nil
        rw [List.nil_append] at split
        exact ⟨p.name :: closed, last, by rw [split, List.cons_append],
          by rw [List.foldlM_cons, placed]; rfl⟩
      | some dirs =>
        obtain ⟨closed, last, split, went⟩ := ih ⟨dirs, []⟩ List.not_mem_nil
        rw [List.nil_append] at split
        refine ⟨p.name :: closed, last, by rw [split, List.cons_append], ?_⟩
        rw [List.foldlM_cons, placed]
        exact went
    · have still : chr '/' ∉ p.name ++ [ch] := by
        intro member
        rcases List.mem_append.mp member with old | new
        · exact whole old
        · exact slash (List.mem_singleton.mp new).symm
      obtain ⟨closed, last, split, went⟩ := ih ⟨p.dirs, p.name ++ [ch]⟩ still
      refine ⟨closed, last, ?_, ?_⟩
      · rw [← split]
        simp
      · rw [List.foldlM_cons, Place.advance, if_neg slash]
        exact went

theorem follow_eq_some {raw : List UInt8} {p : Place}
    (went : follow mergeSlashes raw ⟨[], []⟩ = some p) :
    ∃ path closed, decode raw = some path ∧ path.splitOn (chr '/') = closed ++ [p.name] ∧
      directories mergeSlashes closed = some p.dirs := by
  obtain ⟨path, decoded, walked⟩ := Option.bind_eq_some_iff.mp went
  obtain ⟨closed, last, split, same⟩ :=
    @foldlM_advance mergeSlashes path ⟨[], []⟩ List.not_mem_nil
  rw [same] at walked
  obtain ⟨dirs, opened, rfl⟩ := Option.map_eq_some_iff.mp walked
  rw [List.nil_append] at split
  exact ⟨path, closed, decoded, split, opened⟩

end NgxFormal.Http.ComplexUri
