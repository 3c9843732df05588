import NgxFormal.Core.Base64
import NgxFormal.Http.TimeRoundTrip
import Mathlib.Data.List.TakeWhile

/-! The cookie of the userid filter: `ngx_http_parse_multi_header_lines`, `ngx_http_userid_get_uid`,
`ngx_http_userid_create_uid` and `ngx_http_userid_set_uid`. -/

namespace NgxFormal.Http.Userid

open Core Core.Times Lib.Calendar
open ParseTime (clock clock_length sprintf_rfc850 two four sprintf_two sprintf_four rfc850Text months_length)

/-- `ngx_strncasecmp` of strings that a NUL byte terminates. -/
def ngxStrncasecmp : Nat → List UInt8 → List UInt8 → Int
  | 0, _, _ => 0
  | n + 1, s1, s2 =>
    let c1 := ngxTolower (peek s1)
    let c2 := ngxTolower (peek s2)
    if c1 = c2 then
      if c1 ≠ 0 then ngxStrncasecmp n s1.tail s2.tail else 0
    else (c1.toNat : Int) - c2.toNat

/-- `while (start < end && *start == ' ') { start++; }` -/
def skipSpaces (start : List UInt8) : List UInt8 := start.dropWhile (· = chr ' ')

/-- What follows the label `skip`. -/
def skipHeader : List UInt8 → List UInt8
  | [] => []
  | ch :: start => if ch = chr ';' ∨ ch = chr ',' then skipSpaces start else skipHeader start

/-- `while (start < end)` in one header; every turn takes a byte. -/
def headerValue (name : List UInt8) : Nat → List UInt8 → Option (List UInt8)
  | 0, _ => none
  | _ + 1, [] => none
  | fuel + 1, ch :: start =>
    if ngxStrncasecmp name.length (ch :: start) name ≠ 0 then
      headerValue name fuel (skipHeader (ch :: start))
    else
      match skipSpaces ((ch :: start).drop name.length) with
      | [] => none
      | eq :: start =>
        -- a separator in place of the `'='` is passed too
        if eq ≠ chr '=' then headerValue name fuel (skipHeader start)
        else some ((skipSpaces start).takeWhile (· ≠ chr ';'))

/-- `ngx_http_parse_multi_header_lines`; `none` is `NGX_DECLINED`. -/
def ngxHttpParseMultiHeaderLines (name : List UInt8) : List (List UInt8) → Option (List UInt8)
  | [] => none
  | h :: headers =>
    if h.length < name.length then ngxHttpParseMultiHeaderLines name headers
    else
      match headerValue name h.length h with
      | some value => some value
      | none => ngxHttpParseMultiHeaderLines name headers

/-- `ngx_http_userid_conf_t`, what the cookie needs of it. -/
structure Conf where
  name : List UInt8
  domain : List UInt8
  path : List UInt8
  expires : Nat
  mark : UInt8

/-- `ngx_http_userid_ctx_t`; the identifiers are the bytes of the four words. -/
structure Ctx where
  uidGot : List UInt8
  uidSet : List UInt8
  cookie : List UInt8
  reset : Bool
  deriving DecidableEq

/-- `uid[3] != 0` -/
def lastWord (uid : List UInt8) : Bool := (uid.drop 12).any (· ≠ 0)

/-- What `ngx_pcalloc` returns. -/
def noUid : Ctx := ⟨List.replicate 16 0, List.replicate 16 0, [], false⟩

/-- `ngx_http_userid_get_uid` at its first call for a request -/
def ngxHttpUseridGetUid (conf : Conf) (cookies : List (List UInt8)) : Ctx :=
  match ngxHttpParseMultiHeaderLines conf.name cookies with
  | none => noUid
  | some cookie =>
    if cookie.length < 22 then { noUid with cookie := cookie }
    else
      match ngxDecodeBase64 (cookie.take 22) with
      | none => { noUid with cookie := cookie }
      | some uid => { noUid with cookie := cookie, uidGot := uid ++ noUid.uidGot.drop uid.length }

/-- `$uid_reset` is empty or `"0"`. -/
def noReset (reset : List UInt8) : Bool := reset = [] ∨ reset = [chr '0']

/-- `conf->mark == '\0' || (ctx->cookie.len > 23 && ...)` -/
def marked (conf : Conf) (cookie : List UInt8) : Bool :=
  conf.mark = 0 ∨ 23 < cookie.length ∧ cookie[22]? = some conf.mark ∧ cookie[23]? = some (chr '=')

/-- `ngx_http_userid_create_uid`; `fresh` is what it makes of the service, the time and the
sequencer. -/
def ngxHttpUseridCreateUid (conf : Conf) (reset fresh : List UInt8) (ctx : Ctx) : Ctx :=
  if lastWord ctx.uidSet then ctx
  else if lastWord ctx.uidGot then
    if noReset reset then
      if marked conf ctx.cookie then ctx else { ctx with uidSet := ctx.uidGot }
    else { ctx with reset := true, uidSet := fresh }
  else { ctx with uidSet := fresh }

/-- `expires[]` -/
def expiresText : List UInt8 := bytes "; expires=Thu, 31-Dec-37 23:55:55 GMT"

/-- `NGX_HTTP_USERID_MAX_EXPIRES` -/
def maxExpires : Nat := 2145916555

/-- The value of the `Set-Cookie` header, and the length that is allocated for it. -/
structure SetCookie where
  len : Nat
  value : List UInt8

def writeUid (conf : Conf) (ctx : Ctx) : List UInt8 :=
  if !lastWord ctx.uidGot ∨ ctx.reset then
    let text := ngxEncodeBase64 ctx.uidSet
    if conf.mark ≠ 0 then text.set (text.length - 2) conf.mark else text
  else ctx.cookie.take 22 ++ [conf.mark, chr '=']

def writeExpires (conf : Conf) (now : Nat) : List UInt8 :=
  if conf.expires = maxExpires then expiresText
  else if conf.expires ≠ 0 then
    expiresText.take 10 ++ ngxHttpCookieTime ((now + conf.expires : Nat) : Int)
  else []

def ngxHttpUseridSetUid (conf : Conf) (reset fresh : List UInt8) (now : Nat) (ctx : Ctx) :
    Ctx × Option SetCookie :=
  let ctx := ngxHttpUseridCreateUid conf reset fresh ctx
  if lastWord ctx.uidSet then
    let len := conf.name.length + 1 + ngxBase64EncodedLength 16 + conf.path.length
    let len := if conf.expires ≠ 0 then len + (expiresText.length + 2) else len
    let len := len + conf.domain.length
    (ctx, some ⟨len, conf.name ++ chr '=' :: writeUid conf ctx ++ writeExpires conf now ++
      conf.domain ++ conf.path⟩)
  else (ctx, none)

def uidText (uid : List UInt8) : List UInt8 := (sextets uid).map basis64

/-- The identifier in a cookie with a mark, or with none. -/
def markedText (mark : UInt8) (uid : List UInt8) : List UInt8 :=
  uidText uid ++ [if mark = 0 then chr '=' else mark, chr '=']

/-- A part of a `Cookie` header, with the separator and the spaces behind it. -/
structure Piece where
  text : List UInt8
  sep : UInt8
  spaces : Nat

def Piece.bytes (piece : Piece) : List UInt8 :=
  piece.text ++ piece.sep :: List.replicate piece.spaces (chr ' ')

def line (pieces : List Piece) : List UInt8 := pieces.flatMap Piece.bytes

/-- Behind the name, in whatever case, at the start of the text. -/
def Behind (name text rest : List UInt8) : Prop :=
  ∃ start, text = start ++ rest ∧ start.map ngxTolower = name.map ngxTolower

/-- A text without separators that is not the cookie. -/
structure Plain (name text : List UInt8) : Prop where
  whole : ∀ ch ∈ text, ch ≠ chr ';' ∧ ch ≠ chr ','
  other : ∀ rest, Behind name text rest → (skipSpaces rest).head? ≠ some (chr '=')

/-- Another cookie: not the name alone either. -/
structure Piece.Other (name : List UInt8) (piece : Piece) : Prop where
  plain : Plain name piece.text
  sep : piece.sep = chr ';' ∨ piece.sep = chr ','
  first : piece.text.head? ≠ some (chr ' ')
  longer : ∀ rest, Behind name piece.text rest → skipSpaces rest ≠ []

/-- The headers have a cookie with the value `text` among others. -/
def SentBack (name text : List UInt8) (headers : List (List UInt8)) : Prop :=
  ∃ earlier pieces post later,
    headers = earlier ++ (line pieces ++ name ++ chr '=' :: text ++ post) :: later ∧
    (∀ piece ∈ pieces, piece.Other name) ∧
    ∀ h ∈ earlier, ∃ others last, h = line others ++ last ∧ (∀ piece ∈ others, piece.Other name) ∧
      Plain name last ∧ last.head? ≠ some (chr ' ')

/-- A name that a `Cookie` header can hold. -/
structure CookieName (name : List UInt8) : Prop where
  plain : ∀ ch ∈ name, ch ≠ 0 ∧ ch ≠ chr ';' ∧ ch ≠ chr ','
  first : name.head? ≠ some (chr ' ')

/-- What `ngx_http_userid_mark` accepts, and `"off"`. -/
def MarkSetting (mark : UInt8) : Prop :=
  mark = 0 ∨ chr '0' ≤ mark ∧ mark ≤ chr '9' ∨ chr 'A' ≤ mark ∧ mark ≤ chr 'Z' ∨
    chr 'a' ≤ mark ∧ mark ≤ chr 'z' ∨ mark = chr '='

instance (mark : UInt8) : Decidable (MarkSetting mark) := by
  unfold MarkSetting
  infer_instance

section Parse

variable {name text rest start more : List UInt8} {ch : UInt8} {fuel : Nat} {piece : Piece}
  {pieces : List Piece}

theorem tolower_below {other : UInt8} (below : ch < chr 'A') (same : ngxTolower other = ch) :
    other = ch := by
  rw [ngxTolower] at same
  split_ifs at same with letter
  · have kept : other.toNat ≤ ch.toNat := by
      rw [← same, UInt8.toNat_or]
      exact Nat.left_le_or
    have high := (UInt8.le_iff_toNat_le.mp letter.1).trans kept
    exact absurd (UInt8.lt_iff_toNat_lt.mp below) (Nat.not_lt.mpr high)
  · exact same

theorem tolower_zero (same : ngxTolower ch = 0) : ch = 0 :=
  tolower_below (by decide) same

theorem tolower_sep (sep : ch = chr ';' ∨ ch = chr ',') {other : UInt8}
    (same : ngxTolower ch = ngxTolower other) : other = ch := by
  rcases sep with rfl | rfl
  · exact tolower_below (by decide) same.symm
  · exact tolower_below (by decide) same.symm

theorem strncasecmp_zero_iff (plain : ∀ ch ∈ name, ch ≠ 0) :
    ngxStrncasecmp name.length start name = 0 ↔ ∃ rest, Behind name start rest := by
  induction name generalizing start with
  | nil => exact ⟨fun _ => ⟨start, [], rfl, rfl⟩, fun _ => rfl⟩
  | cons c name ih =>
    have here := plain c List.mem_cons_self
    have first : peek (c :: name) = c := rfl
    rw [List.length_cons, ngxStrncasecmp, first]
    cases start with
    | nil =>
      have empty : peek [] = 0 := rfl
      have lowZero : ngxTolower 0 = 0 := rfl
      have apart : ¬ ngxTolower (peek []) = ngxTolower c := by
        rw [empty, lowZero]
        exact fun same => here (tolower_zero same.symm)
      have numbers : (ngxTolower c).toNat ≠ 0 :=
        fun zero => here (tolower_zero (UInt8.toNat_inj.mp zero))
      rw [if_neg apart, empty, lowZero]
      have zero : (0 : UInt8).toNat = 0 := rfl
      constructor
      · intro equal
        omega
      · rintro ⟨rest, begun, split, cased⟩
        have nothing := congrArg List.length cased
        have none_ := congrArg List.length split
        rw [List.length_map, List.length_map, List.length_cons] at nothing
        rw [List.length_append, List.length_nil] at none_
        omega
    | cons b start =>
      have byte : peek (b :: start) = b := rfl
      rw [byte, List.tail_cons, List.tail_cons]
      by_cases same : ngxTolower b = ngxTolower c
      · have letter : ngxTolower b ≠ 0 := by
          rw [same]
          exact fun zero => here (tolower_zero zero)
        rw [if_pos same, if_pos letter, ih fun ch member => plain ch (List.mem_cons_of_mem _ member)]
        constructor
        · rintro ⟨rest, begun, split, cased⟩
          refine ⟨rest, b :: begun, by rw [split, List.cons_append], ?_⟩
          rw [List.map_cons, List.map_cons, same, cased]
        · rintro ⟨rest, begun, split, cased⟩
          cases begun with
          | nil =>
            rw [List.map_nil, List.map_cons] at cased
            cases cased
          | cons b' begun =>
            rw [List.cons_append, List.cons.injEq] at split
            rw [List.map_cons, List.map_cons, List.cons.injEq] at cased
            exact ⟨rest, begun, split.2, cased.2⟩
      · rw [if_neg same]
        have numbers : (ngxTolower b).toNat ≠ (ngxTolower c).toNat :=
          fun equal => same (UInt8.toNat_inj.mp equal)
        constructor
        · intro equal
          omega
        · rintro ⟨rest, begun, split, cased⟩
          cases begun with
          | nil =>
            rw [List.map_nil, List.map_cons] at cased
            cases cased
          | cons b' begun =>
            rw [List.cons_append, List.cons.injEq] at split
            rw [List.map_cons, List.map_cons, List.cons.injEq, ← split.1] at cased
            exact absurd cased.1 same

theorem Behind.drop (behind : Behind name text rest) : text.drop name.length = rest := by
  obtain ⟨start, rfl, cased⟩ := behind
  have size := congrArg List.length cased
  rw [List.length_map, List.length_map] at size
  rw [← size, List.drop_left]

theorem Behind.inside (cookie : CookieName name) (sep : ch = chr ';' ∨ ch = chr ',')
    (behind : Behind name (text ++ ch :: more) rest) :
    ∃ left, rest = left ++ ch :: more ∧ Behind name text left := by
  obtain ⟨start, split, cased⟩ := behind
  rcases List.append_eq_append_iff.mp split with ⟨middle, longer, tail⟩ | ⟨middle, longer, tail⟩
  · cases middle with
    | nil =>
      rw [List.append_nil] at longer
      rw [List.nil_append] at tail
      exact ⟨[], by rw [List.nil_append, ← tail], start, by rw [List.append_nil, longer], cased⟩
    | cons c middle =>
      rw [List.cons_append, List.cons.injEq] at tail
      rw [longer, ← tail.1] at cased
      have member : ngxTolower ch ∈ name.map ngxTolower := by
        rw [← cased]
        simp
      obtain ⟨other, inside, same⟩ := List.mem_map.mp member
      have equal := tolower_sep sep same.symm
      have plain := cookie.plain other inside
      rcases sep with rfl | rfl
      · exact absurd equal plain.2.1
      · exact absurd equal plain.2.2
  · exact ⟨middle, tail, start, longer, cased⟩

theorem skipHeader_text (whole : ∀ ch ∈ text, ch ≠ chr ';' ∧ ch ≠ chr ',')
    (sep : ch = chr ';' ∨ ch = chr ',') (more : List UInt8) :
    skipHeader (text ++ ch :: more) = skipSpaces more := by
  induction text with
  | nil => rw [List.nil_append, skipHeader, if_pos sep]
  | cons c text ih =>
    have other := whole c List.mem_cons_self
    rw [List.cons_append, skipHeader, if_neg (not_or.mpr other)]
    exact ih fun ch member => whole ch (List.mem_cons_of_mem _ member)

theorem skipSpaces_length (start : List UInt8) : (skipSpaces start).length ≤ start.length :=
  (List.dropWhile_sublist _).length_le

theorem skipSpaces_space (text : List UInt8) : skipSpaces (chr ' ' :: text) = skipSpaces text :=
  List.dropWhile_cons_of_pos (by simp)

theorem skipSpaces_other (other : ch ≠ chr ' ') (text : List UInt8) :
    skipSpaces (ch :: text) = ch :: text :=
  List.dropWhile_cons_of_neg (by simpa using other)

theorem skipSpaces_replicate (n : Nat) (first : more.head? ≠ some (chr ' ')) :
    skipSpaces (List.replicate n (chr ' ') ++ more) = more := by
  induction n with
  | zero =>
    cases more with
    | nil => rfl
    | cons c more =>
      have other : c ≠ chr ' ' := fun same => first (by rw [same]; rfl)
      exact skipSpaces_other other more
  | succ n ih =>
    rw [List.replicate_succ, List.cons_append, skipSpaces_space]
    exact ih

theorem skipSpaces_append (some_ : skipSpaces text ≠ []) (more : List UInt8) :
    skipSpaces (text ++ more) = skipSpaces text ++ more := by
  induction text with
  | nil => exact absurd rfl some_
  | cons c text ih =>
    by_cases space : c = chr ' '
    · subst space
      rw [skipSpaces_space] at some_
      rw [List.cons_append, skipSpaces_space, skipSpaces_space]
      exact ih some_
    · rw [List.cons_append, skipSpaces_other space, skipSpaces_other space, List.cons_append]

theorem skipHeader_whole (whole : ∀ ch ∈ text, ch ≠ chr ';' ∧ ch ≠ chr ',') :
    skipHeader text = [] := by
  induction text with
  | nil => rfl
  | cons c text ih =>
    rw [skipHeader, if_neg (not_or.mpr (whole c List.mem_cons_self))]
    exact ih fun ch member => whole ch (List.mem_cons_of_mem _ member)

theorem Behind.whole (behind : Behind name text rest)
    (whole : ∀ ch ∈ text, ch ≠ chr ';' ∧ ch ≠ chr ',') :
    ∀ ch ∈ skipSpaces rest, ch ≠ chr ';' ∧ ch ≠ chr ',' := by
  obtain ⟨start, rfl, _⟩ := behind
  intro ch member
  exact whole ch (List.mem_append_right _ ((List.dropWhile_sublist _).subset member))

theorem headerValue_nil (name : List UInt8) (fuel : Nat) : headerValue name fuel [] = none := by
  cases fuel <;> rfl

theorem headerValue_plain (cookie : CookieName name) (plain : Plain name text) (fuel : Nat) :
    headerValue name fuel text = none := by
  cases fuel with
  | zero => rfl
  | succ fuel =>
    cases text with
    | nil => rfl
    | cons c text =>
      rw [headerValue, skipHeader_whole plain.whole, headerValue_nil]
      by_cases found : ngxStrncasecmp name.length (c :: text) name = 0
      · obtain ⟨rest, behind⟩ :=
          (strncasecmp_zero_iff fun ch member => (cookie.plain ch member).1).mp found
        have other := plain.other rest behind
        have whole := behind.whole plain.whole
        rw [if_neg (not_not.mpr found), behind.drop]
        cases left : skipSpaces rest with
        | nil => rfl
        | cons eq left' =>
          rw [left] at other whole
          have apart : eq ≠ chr '=' := fun same => other (by rw [same]; rfl)
          dsimp only
          rw [if_pos apart, skipHeader_whole fun ch member => whole ch (by simp [member]),
            headerValue_nil]
      · rw [if_pos found]

theorem headerValue_piece (cookie : CookieName name) (other : piece.Other name)
    (first : more.head? ≠ some (chr ' ')) (fuel : Nat) :
    headerValue name (fuel + 1) (piece.bytes ++ more) = headerValue name fuel more := by
  have text : piece.bytes ++ more =
      piece.text ++ piece.sep :: (List.replicate piece.spaces (chr ' ') ++ more) := by
    rw [Piece.bytes, List.append_assoc, List.cons_append]
  have passed : ∀ left, (∀ ch ∈ left, ch ≠ chr ';' ∧ ch ≠ chr ',') →
      skipHeader (left ++ piece.sep :: (List.replicate piece.spaces (chr ' ') ++ more)) = more := by
    intro left whole
    rw [skipHeader_text whole other.sep, skipSpaces_replicate _ first]
  rw [text]
  cases some_ : piece.text ++ piece.sep :: (List.replicate piece.spaces (chr ' ') ++ more) with
  | nil => exact absurd some_ (by simp)
  | cons c start =>
    rw [headerValue, ← some_, passed _ other.plain.whole]
    by_cases found : ngxStrncasecmp name.length (piece.text ++ piece.sep ::
        (List.replicate piece.spaces (chr ' ') ++ more)) name = 0
    · obtain ⟨rest, behind⟩ :=
        (strncasecmp_zero_iff fun ch member => (cookie.plain ch member).1).mp found
      obtain ⟨left, split, inside⟩ := behind.inside cookie other.sep
      have longer := other.longer left inside
      have noEq := other.plain.other left inside
      have whole := inside.whole other.plain.whole
      rw [if_neg (not_not.mpr found), behind.drop, split, skipSpaces_append longer]
      cases spaced : skipSpaces left with
      | nil => exact absurd spaced longer
      | cons eq left' =>
        rw [spaced] at noEq whole
        have apart : eq ≠ chr '=' := fun same => noEq (by rw [same]; rfl)
        rw [List.cons_append]
        dsimp only
        rw [if_pos apart, passed left' fun ch member => whole ch (List.mem_cons_of_mem _ member)]
    · rw [if_pos found]

theorem Piece.Other.head (other : piece.Other name) (more : List UInt8) :
    (piece.bytes ++ more).head? ≠ some (chr ' ') := by
  have first := other.first
  rw [Piece.bytes]
  cases text : piece.text with
  | nil =>
    intro space
    have sep : piece.sep = chr ' ' := Option.some.inj space
    rcases other.sep with same | same
    · rw [same] at sep
      exact absurd sep (by decide)
    · rw [same] at sep
      exact absurd sep (by decide)
  | cons c text' =>
    rw [text] at first
    exact first

theorem headerValue_line (cookie : CookieName name) (others : ∀ piece ∈ pieces, piece.Other name)
    (first : more.head? ≠ some (chr ' ')) (fuel : Nat) :
    headerValue name (pieces.length + fuel) (line pieces ++ more) = headerValue name fuel more := by
  induction pieces with
  | nil => rw [List.length_nil, Nat.zero_add]; rfl
  | cons piece pieces ih =>
    have split : line (piece :: pieces) ++ more = piece.bytes ++ (line pieces ++ more) := by
      rw [line, List.flatMap_cons, List.append_assoc]
      rfl
    have later := ih fun p member => others p (List.mem_cons_of_mem _ member)
    have next : (line pieces ++ more).head? ≠ some (chr ' ') := by
      cases pieces with
      | nil => exact first
      | cons p pieces =>
        have other := others p (by simp)
        have head := other.head (line pieces ++ more)
        rw [line, List.flatMap_cons, List.append_assoc]
        exact head
    have count : (piece :: pieces).length + fuel = pieces.length + fuel + 1 := by
      rw [List.length_cons]
      omega
    rw [split, count, headerValue_piece cookie (others piece List.mem_cons_self) next, later]

theorem pieces_length (pieces : List Piece) : pieces.length ≤ (line pieces).length := by
  induction pieces with
  | nil => exact Nat.le_refl 0
  | cons piece pieces ih =>
    rw [line, List.flatMap_cons, List.length_append, List.length_cons, Piece.bytes,
      List.length_append, List.length_cons]
    have rest : (line pieces).length = (pieces.flatMap Piece.bytes).length := rfl
    omega

theorem headerValue_cookie (name value : List UInt8) (plain : ∀ ch ∈ name, ch ≠ 0) (fuel : Nat) :
    headerValue name (fuel + 1) (name ++ chr '=' :: value) =
      some ((skipSpaces value).takeWhile (· ≠ chr ';')) := by
  have behind : Behind name (name ++ chr '=' :: value) (chr '=' :: value) := ⟨name, rfl, rfl⟩
  have found := (@strncasecmp_zero_iff name (name ++ chr '=' :: value) plain).mpr ⟨_, behind⟩
  have eq : skipSpaces (chr '=' :: value) = chr '=' :: value :=
    List.dropWhile_cons_of_neg (by decide)
  cases some_ : name ++ chr '=' :: value with
  | nil => exact absurd some_ (by simp)
  | cons c start =>
    rw [headerValue, ← some_, if_neg (not_not.mpr found), behind.drop, eq]
    dsimp only
    rw [if_neg (not_not.mpr rfl)]

theorem sentBack_value {headers : List (List UInt8)} (cookie : CookieName name)
    (sent : SentBack name text headers) :
    ∃ post, ngxHttpParseMultiHeaderLines name headers =
      some ((skipSpaces (text ++ post)).takeWhile (· ≠ chr ';')) := by
  obtain ⟨earlier, pieces, post, later, rfl, others, before⟩ := sent
  refine ⟨post, ?_⟩
  induction earlier with
  | nil =>
    have value : line pieces ++ name ++ chr '=' :: text ++ post =
        line pieces ++ (name ++ chr '=' :: (text ++ post)) := by simp
    have count := pieces_length pieces
    have size : (line pieces ++ (name ++ chr '=' :: (text ++ post))).length =
        pieces.length + ((line pieces).length - pieces.length + name.length +
          (text ++ post).length + 1) := by
      simp only [List.length_append, List.length_cons]
      omega
    have first : (name ++ chr '=' :: (text ++ post)).head? ≠ some (chr ' ') := by
      have head := cookie.first
      cases name with
      | nil =>
        intro space
        exact absurd (Option.some.inj space) (by decide)
      | cons c name => exact head
    rw [List.nil_append, value, ngxHttpParseMultiHeaderLines, if_neg (by omega), size,
      headerValue_line cookie others first,
      headerValue_cookie name _ fun ch member => (cookie.plain ch member).1]
  | cons h earlier ih =>
    have rest := ih fun g member => before g (List.mem_cons_of_mem _ member)
    obtain ⟨pieces', last, rfl, others', plain, space⟩ := before h List.mem_cons_self
    rw [List.cons_append, ngxHttpParseMultiHeaderLines, rest]
    split
    · rfl
    · have none_ : headerValue name (line pieces' ++ last).length (line pieces' ++ last) = none := by
        have count := pieces_length pieces'
        have size : (line pieces' ++ last).length =
            pieces'.length + ((line pieces').length - pieces'.length + last.length) := by
          rw [List.length_append]
          omega
        rw [size, headerValue_line cookie others' space, headerValue_plain cookie plain]
      rw [none_]

end Parse

section Text

variable {conf : Conf} {ctx : Ctx} {uid text value cookie reset fresh : List UInt8} {now : Nat}
  {headers : List (List UInt8)} {mark : UInt8}

/-- What the filter writes for an identifier, in whatever encoding the client had it. -/
structure Written (mark : UInt8) (uid text : List UInt8) : Prop where
  size : text.length = 24
  whole : ∀ ch ∈ text, ch ≠ chr ';'
  first : text.head? ≠ some (chr ' ')
  mark : mark ≠ 0 → text.drop 22 = [mark, chr '=']
  decoded : ∃ got, ngxDecodeBase64 (text.take 22) = some got ∧ got ++ noUid.uidGot.drop got.length = uid

theorem basis64_plain (small : mark < 64) : basis64 mark ≠ chr ';' ∧ basis64 mark ≠ chr ' ' :=
  basis64_all (P := fun ch _ => ch ≠ chr ';' ∧ ch ≠ chr ' ') small (by decide)

theorem uidText_length (sixteen : uid.length = 16) : (uidText uid).length = 22 := by
  rw [uidText, List.length_map, sextets_length, sixteen]

theorem uidText_plain (uid : List UInt8) : ∀ ch ∈ uidText uid, ch ≠ chr ';' ∧ ch ≠ chr ' ' := by
  intro ch member
  obtain ⟨value, inside, rfl⟩ := List.mem_map.mp member
  exact basis64_plain (sextets_small uid value inside)

theorem decode_uidText (uid : List UInt8) : ngxDecodeBase64 (uidText uid) = some uid := by
  have plain := ngxDecodeBase64Internal_alphabet decodeBasis_inverts uid 0
  rw [List.replicate_zero, List.append_nil] at plain
  exact plain

theorem encode_uid (sixteen : uid.length = 16) :
    ngxEncodeBase64 uid = uidText uid ++ [chr '=', chr '='] := by
  rw [ngxEncodeBase64_eq, padding, sixteen]
  rfl

theorem mark_uid (sixteen : uid.length = 16) (conf : Conf) :
    (if conf.mark ≠ 0 then (ngxEncodeBase64 uid).set ((ngxEncodeBase64 uid).length - 2) conf.mark
      else ngxEncodeBase64 uid) = markedText conf.mark uid := by
  have size := uidText_length sixteen
  rw [encode_uid sixteen, markedText]
  by_cases off : conf.mark = 0
  · rw [if_neg (not_not.mpr off), if_pos off]
  · have place : (uidText uid ++ [chr '=', chr '=']).length - 2 = (uidText uid).length := by
      rw [List.length_append]
      rfl
    rw [if_pos off, if_neg off, place, List.set_append_right _ _ (Nat.le_refl _), Nat.sub_self]
    rfl

theorem MarkSetting.plain (setting : MarkSetting mark) : mark ≠ chr ';' := by
  intro same
  rw [same] at setting
  exact absurd setting (by decide)

theorem markedText_written (setting : MarkSetting mark) (sixteen : uid.length = 16) :
    Written mark uid (markedText mark uid) := by
  have size := uidText_length sixteen
  constructor
  · rw [markedText, List.length_append, size]
    rfl
  · intro ch member
    rcases List.mem_append.mp member with inside | behind
    · exact (uidText_plain uid ch inside).1
    · have other := setting.plain
      have pad : chr '=' ≠ chr ';' := by decide
      rw [List.mem_cons, List.mem_singleton] at behind
      rcases behind with rfl | rfl
      · split
        · exact pad
        · exact other
      · exact pad
  · intro space
    have plain := uidText_plain uid
    rw [markedText] at space
    cases text : uidText uid with
    | nil =>
      rw [text] at size
      cases size
    | cons c rest =>
      rw [text] at space plain
      exact (plain c List.mem_cons_self).2 (Option.some.inj space)
  · intro on
    rw [markedText, ← size, List.drop_left, if_neg on]
  · refine ⟨uid, ?_, ?_⟩
    · rw [markedText, ← size, List.take_left, decode_uidText]
    · rw [sixteen, noUid, List.drop_replicate, Nat.sub_self, List.replicate_zero, List.append_nil]

/-- A value that the parser finds has no `';'`, and no space in front. -/
theorem headerValue_found {name value : List UInt8} {fuel : Nat} {h : List UInt8}
    (found : headerValue name fuel h = some value) :
    (∀ ch ∈ value, ch ≠ chr ';') ∧ value.head? ≠ some (chr ' ') := by
  fun_induction headerValue name fuel h with
  | case1 => cases found
  | case2 => cases found
  | case3 fuel ch start other ih => exact ih found
  | case4 => cases found
  | case5 fuel ch start same eq rest left other ih => exact ih found
  | case6 fuel ch start same eq rest left other =>
    rw [← Option.some.inj found]
    constructor
    · intro ch member
      have whole := List.mem_takeWhile_imp member
      simpa using whole
    · intro space
      cases text : skipSpaces rest with
      | nil =>
        rw [text] at space
        cases space
      | cons c rest' =>
        have spaced : ¬ c = chr ' ' := by
          have stop := List.head?_dropWhile_not (fun ch => decide (ch = chr ' ')) rest
          rw [skipSpaces] at text
          rw [text] at stop
          simpa using stop
        rw [text, List.takeWhile_cons] at space
        split at space
        · exact spaced (Option.some.inj space)
        · cases space

theorem parse_found {name : List UInt8}
    (found : ngxHttpParseMultiHeaderLines name headers = some value) :
    (∀ ch ∈ value, ch ≠ chr ';') ∧ value.head? ≠ some (chr ' ') := by
  fun_induction ngxHttpParseMultiHeaderLines name headers with
  | case1 => cases found
  | case2 h headers short ih => exact ih found
  | case3 h headers long value' here =>
    rw [Option.some.inj found] at here
    exact headerValue_found here
  | case4 h headers long nothing ih => exact ih found

theorem getUid_written (cookieName : CookieName conf.name) (written : Written mark uid text)
    (sent : SentBack conf.name text headers) :
    ∃ more, ngxHttpUseridGetUid conf headers =
      { noUid with cookie := text ++ more, uidGot := uid } := by
  obtain ⟨post, value⟩ := sentBack_value cookieName sent
  obtain ⟨got, decoded, same⟩ := written.decoded
  have size := written.size
  have unspaced : skipSpaces (text ++ post) = text ++ post := by
    have first := written.first
    cases text with
    | nil => cases size
    | cons c rest =>
      have other : c ≠ chr ' ' := fun same => first (by rw [same]; rfl)
      rw [List.cons_append]
      exact skipSpaces_other other _
  refine ⟨post.takeWhile (· ≠ chr ';'), ?_⟩
  rw [unspaced, List.takeWhile_append_of_pos fun ch member => by simpa using written.whole ch member]
    at value
  have long : ¬ (text ++ post.takeWhile (· ≠ chr ';')).length < 22 := by
    rw [List.length_append, size]
    omega
  have taken : (text ++ post.takeWhile (· ≠ chr ';')).take 22 = text.take 22 := by
    rw [List.take_append_of_le_length (by omega)]
  rw [ngxHttpUseridGetUid, value]
  dsimp only
  rw [if_neg long, taken, decoded]
  dsimp only
  rw [same]

theorem marked_written (written : Written conf.mark uid text) (more : List UInt8) :
    marked conf (text ++ more) = true := by
  have size := written.size
  rw [marked, decide_eq_true_iff]
  by_cases off : conf.mark = 0
  · exact Or.inl off
  · have tail := written.mark off
    have first : text[22]? = (text.drop 22)[0]? := by rw [List.getElem?_drop]
    have second : text[23]? = (text.drop 22)[1]? := by rw [List.getElem?_drop]
    refine Or.inr ⟨by rw [List.length_append]; omega, ?_, ?_⟩
    · rw [List.getElem?_append_left (by omega), first, tail]
      rfl
    · rw [List.getElem?_append_left (by omega), second, tail]
      rfl

theorem lastWord_noUid : lastWord noUid.uidSet = false := by decide

theorem setUid_none (kept : lastWord (ngxHttpUseridCreateUid conf reset fresh ctx).uidSet = false) :
    (ngxHttpUseridSetUid conf reset fresh now ctx).2 = none := by
  rw [ngxHttpUseridSetUid]
  dsimp only
  rw [kept]
  rfl

/-- A client with the value gets no other one. -/
theorem setUid_written (cookieName : CookieName conf.name) (written : Written conf.mark uid text)
    (known : lastWord uid = true) (keep : noReset reset = true)
    (sent : SentBack conf.name text headers) :
    (ngxHttpUseridSetUid conf reset fresh now (ngxHttpUseridGetUid conf headers)).2 = none := by
  obtain ⟨more, got⟩ := getUid_written cookieName written sent
  have none_ : ¬ lastWord noUid.uidSet = true := by
    rw [lastWord_noUid]
    decide
  have kept : ngxHttpUseridCreateUid conf reset fresh
      { noUid with cookie := text ++ more, uidGot := uid } =
        { noUid with cookie := text ++ more, uidGot := uid } := by
    rw [ngxHttpUseridCreateUid, if_neg none_, if_pos known, if_pos keep,
      if_pos (marked_written written more)]
  apply setUid_none
  rw [got, kept]
  exact lastWord_noUid

theorem getUid_cases (conf : Conf) (headers : List (List UInt8)) :
    (∃ cookie, ngxHttpUseridGetUid conf headers = { noUid with cookie := cookie }) ∨
    ∃ cookie got, ngxHttpParseMultiHeaderLines conf.name headers = some cookie ∧
      22 ≤ cookie.length ∧ ngxDecodeBase64 (cookie.take 22) = some got ∧
      ngxHttpUseridGetUid conf headers =
        { noUid with cookie := cookie, uidGot := got ++ noUid.uidGot.drop got.length } := by
  rw [ngxHttpUseridGetUid]
  cases found : ngxHttpParseMultiHeaderLines conf.name headers with
  | none => exact Or.inl ⟨[], rfl⟩
  | some cookie =>
    dsimp only
    by_cases short : cookie.length < 22
    · rw [if_pos short]
      exact Or.inl ⟨cookie, rfl⟩
    · rw [if_neg short]
      cases decoded : ngxDecodeBase64 (cookie.take 22) with
      | none => exact Or.inl ⟨cookie, rfl⟩
      | some got => exact Or.inr ⟨cookie, got, rfl, by omega, decoded, rfl⟩

/-- The identifier that is set is a fresh one, or the one that the client sent. -/
inductive Source (conf : Conf) (reset fresh : List UInt8) (headers : List (List UInt8)) : Ctx → Prop
  | fresh {ctx : Ctx} (new : lastWord ctx.uidGot = false ∨ ctx.reset = true)
      (set : ctx.uidSet = fresh) : Source conf reset fresh headers ctx
  | sent {ctx : Ctx} (known : lastWord ctx.uidGot = true) (kept : ctx.reset = false)
      (set : ctx.uidSet = ctx.uidGot) (on : conf.mark ≠ 0)
      (cookie : ngxHttpParseMultiHeaderLines conf.name headers = some ctx.cookie)
      (long : 22 ≤ ctx.cookie.length)
      (decoded : ∃ got, ngxDecodeBase64 (ctx.cookie.take 22) = some got ∧
        got ++ noUid.uidGot.drop got.length = ctx.uidGot) : Source conf reset fresh headers ctx

theorem createUid_source
    (set : lastWord (ngxHttpUseridCreateUid conf reset fresh (ngxHttpUseridGetUid conf headers)).uidSet =
      true) :
    Source conf reset fresh headers
      (ngxHttpUseridCreateUid conf reset fresh (ngxHttpUseridGetUid conf headers)) := by
  have none_ : ¬ lastWord noUid.uidSet = true := by
    rw [lastWord_noUid]
    decide
  rcases getUid_cases conf headers with ⟨cookie, got⟩ | ⟨cookie, got, found, long, decoded, eq⟩
  · have nothing : ¬ lastWord noUid.uidGot = true := by decide
    rw [got, ngxHttpUseridCreateUid, if_neg none_, if_neg nothing]
    exact Source.fresh (Or.inl (Bool.eq_false_iff.mpr nothing)) rfl
  · rw [eq] at set ⊢
    rw [ngxHttpUseridCreateUid, if_neg none_] at set ⊢
    by_cases known : lastWord (got ++ noUid.uidGot.drop got.length) = true
    · rw [if_pos known] at set ⊢
      by_cases keep : noReset reset = true
      · rw [if_pos keep] at set ⊢
        by_cases same : marked conf cookie = true
        · rw [if_pos same] at set
          exact absurd set none_
        · rw [if_neg same]
          have on : conf.mark ≠ 0 := by
            intro off
            rw [marked, decide_eq_true_iff] at same
            exact same (Or.inl off)
          exact Source.sent known rfl rfl on found long ⟨got, decoded, rfl⟩
      · rw [if_neg keep]
        exact Source.fresh (Or.inr rfl) rfl
    · rw [if_neg known]
      exact Source.fresh (Or.inl (Bool.eq_false_iff.mpr known)) rfl

theorem writeUid_written (setting : MarkSetting conf.mark) (sixteen : fresh.length = 16)
    (source : Source conf reset fresh headers ctx) :
    Written conf.mark ctx.uidSet (writeUid conf ctx) := by
  cases source with
  | fresh new set =>
    have text : writeUid conf ctx = markedText conf.mark ctx.uidSet := by
      have branch : (!lastWord ctx.uidGot) = true ∨ ctx.reset = true := by
        rcases new with unknown | reset_
        · exact Or.inl (by rw [unknown]; rfl)
        · exact Or.inr reset_
      rw [writeUid, if_pos branch]
      exact mark_uid (by rw [set, sixteen]) conf
    rw [text]
    exact markedText_written setting (by rw [set, sixteen])
  | sent known kept set on cookie long decoded =>
    have text : writeUid conf ctx = ctx.cookie.take 22 ++ [conf.mark, chr '='] := by
      have branch : ¬ ((!lastWord ctx.uidGot) = true ∨ ctx.reset = true) := by
        rw [known, kept]
        decide
      rw [writeUid, if_neg branch]
    have size : (ctx.cookie.take 22).length = 22 := by
      rw [List.length_take]
      omega
    obtain ⟨whole, first⟩ := parse_found cookie
    rw [text, set]
    constructor
    · rw [List.length_append, size]
      rfl
    · intro ch member
      rcases List.mem_append.mp member with inside | behind
      · exact whole ch (List.mem_of_mem_take inside)
      · rw [List.mem_cons, List.mem_singleton] at behind
        rcases behind with rfl | rfl
        · exact setting.plain
        · decide
    · cases value : ctx.cookie with
      | nil =>
        rw [value] at long
        exact absurd long (by decide)
      | cons c rest =>
        rw [value] at first
        exact first
    · intro _
      exact List.drop_left' size
    · have taken : (ctx.cookie.take 22 ++ [conf.mark, chr '=']).take 22 = ctx.cookie.take 22 := by
        rw [List.take_append_of_le_length (by omega), List.take_take, Nat.min_self]
      rw [taken]
      exact decoded

end Text

section Time

variable {t : Nat}

theorem sprintf_long {dayName monthName : List UInt8} {day year hour min sec : Nat}
    (smallDay : day < 100) (low : 1000 ≤ year) (high : year < 10000)
    (smallHour : hour < 100) (smallMin : min < 100) (smallSec : sec < 100) :
    ngxSprintf longForm [.s dayName, .d day, .s monthName, .d year, .d hour, .d min, .d sec] =
      dayName ++ chr ',' :: chr ' ' :: (two day ++ chr '-' :: (monthName ++ chr '-' ::
        (four year ++ clock hour min sec))) := by
  have loop : ngxSprintfNum (chr ' ') 0 year = four year := by
    rw [ngxSprintfNum, ParseTime.decimalLoop_four low high]
    rfl
  rw [clock, ← sprintf_two smallDay, ← loop, ← sprintf_two smallHour,
    ← sprintf_two smallMin, ← sprintf_two smallSec]
  simp [ngxSprintf, longForm, bytes, ngxVslprintf, chr, peek, isDigit, digitValue, Int.not_ofNat_neg]

theorem week_length {w : Nat} (small : w < 7) : (bytes (week.getD w "")).length = 3 := by
  interval_cases w <;> rfl

theorem cookieTime_length (bound : (dateAfter (t / 86400)).year ≤ 9999) :
    (ngxHttpCookieTime t).length ≤ 29 := by
  have early := dateAfter_year (t / 86400)
  have month := (dateAfter (t / 86400)).someMonth
  have day := (dateAfter (t / 86400)).someDay
  have most := daysIn_le (dateAfter (t / 86400)).year (dateAfter (t / 86400)).month
  have weekday := weekdayAfter_index (t / 86400)
  have dayName : (weekName (gregorian t)).length = 3 := week_length (by
    show (((weekdayAfter (t / 86400)).index : Nat) : Int).toNat < 7
    omega)
  have monthName_ : (monthName (gregorian t)).length = 3 := by
    rw [ParseTime.monthName_gregorian]
    exact months_length (by omega)
  rw [ngxHttpCookieTime, ngxGmtime_eq bound]
  by_cases long : 2037 < (gregorian t).year
  · have high : 2037 < ((dateAfter (t / 86400)).year : Int) := long
    rw [cookieForm, if_pos long, if_pos long]
    have text := @sprintf_long (weekName (gregorian t)) (monthName (gregorian t))
      (dateAfter (t / 86400)).day (dateAfter (t / 86400)).year (t / 3600 % 24) (t / 60 % 60) (t % 60)
      (by omega) (by omega) (by omega) (by omega) (by omega) (by omega)
    have size := congrArg List.length text
    simp only [List.length_append, List.length_cons, dayName, monthName_, clock_length] at size
    exact size.le
  · have low : ¬ 2037 < ((dateAfter (t / 86400)).year : Int) := long
    rw [cookieForm, if_neg long, if_neg long]
    have text := @sprintf_rfc850 (weekName (gregorian t)) (monthName (gregorian t))
      (dateAfter (t / 86400)).day ((dateAfter (t / 86400)).year % 100) (t / 3600 % 24) (t / 60 % 60)
      (t % 60) (by omega) (Nat.mod_lt _ (by decide)) (by omega) (by omega) (by omega)
    have size := congrArg List.length text
    have digits (n : Nat) : (two n).length = 2 := rfl
    simp only [rfc850Text, List.length_append, List.length_cons, dayName, monthName_, clock_length,
      digits] at size
    exact le_trans size.le (by decide)

end Time

/-- The identifier that a client gets, if it gets one. -/
def uidFor (conf : Conf) (reset fresh : List UInt8) (got : Ctx) : Option (List UInt8) :=
  if lastWord got.uidGot ∧ noReset reset then
    if marked conf got.cookie then none else some got.uidGot
  else some fresh

/-- The cookie expires never, with the session, or before the year 10000. -/
def Dated (conf : Conf) (now : Nat) : Prop :=
  conf.expires = maxExpires ∨ conf.expires = 0 ∨
    (dateAfter ((now + conf.expires) / 86400)).year ≤ 9999

section Cookie

variable {conf : Conf} {ctx : Ctx} {uid text reset fresh : List UInt8} {now : Nat}
  {headers : List (List UInt8)}

theorem writeExpires_length (dated : Dated conf now) :
    (writeExpires conf now).length ≤ if conf.expires ≠ 0 then expiresText.length + 2 else 0 := by
  have fixed : expiresText.length = 37 := by decide
  rw [writeExpires, fixed]
  by_cases never : conf.expires = maxExpires
  · have some_ : conf.expires ≠ 0 := by
      rw [never]
      decide
    rw [if_pos never, if_pos some_, fixed]
    decide
  · rw [if_neg never]
    by_cases some_ : conf.expires ≠ 0
    · have year := (dated.resolve_left never).resolve_left some_
      have time := cookieTime_length year
      have front : (expiresText.take 10).length = 10 := by decide
      rw [if_pos some_, if_pos some_, List.length_append, front]
      omega
    · rw [if_neg some_, if_neg some_]
      exact Nat.le_refl 0

theorem setUid_some (known : lastWord uid = true)
    (isUid : (ngxHttpUseridCreateUid conf reset fresh ctx).uidSet = uid) :
    ∃ written, (ngxHttpUseridSetUid conf reset fresh now ctx).2 = some written ∧
      written.value = conf.name ++ chr '=' ::
        writeUid conf (ngxHttpUseridCreateUid conf reset fresh ctx) ++ writeExpires conf now ++
          conf.domain ++ conf.path ∧
      written.len = conf.name.length + 25 + conf.path.length +
        (if conf.expires ≠ 0 then expiresText.length + 2 else 0) + conf.domain.length := by
  have set : lastWord (ngxHttpUseridCreateUid conf reset fresh ctx).uidSet = true := by
    rw [isUid, known]
  have encoded : ngxBase64EncodedLength 16 = 24 := by decide
  rw [ngxHttpUseridSetUid]
  dsimp only
  rw [if_pos set]
  refine ⟨_, rfl, rfl, ?_⟩
  dsimp only
  rw [encoded]
  split <;> omega

theorem createUid_uidFor (got : ctx.uidSet = noUid.uidSet) :
    (ngxHttpUseridCreateUid conf reset fresh ctx).uidSet =
      (uidFor conf reset fresh ctx).getD noUid.uidSet := by
  have none_ : ¬ lastWord ctx.uidSet = true := by
    rw [got, lastWord_noUid]
    decide
  rw [ngxHttpUseridCreateUid, if_neg none_]
  by_cases known : lastWord ctx.uidGot = true
  · by_cases keep : noReset reset = true
    · have both : lastWord ctx.uidGot = true ∧ noReset reset = true := ⟨known, keep⟩
      rw [if_pos known, if_pos keep, uidFor, if_pos both]
      split
      · exact got
      · rfl
    · have other : ¬ (lastWord ctx.uidGot = true ∧ noReset reset = true) := fun both => keep both.2
      rw [if_pos known, if_neg keep, uidFor, if_neg other]
      rfl
  · have other : ¬ (lastWord ctx.uidGot = true ∧ noReset reset = true) := fun both => known both.1
    rw [if_neg known, uidFor, if_neg other]
    rfl

theorem getUid_set (conf : Conf) (headers : List (List UInt8)) :
    (ngxHttpUseridGetUid conf headers).uidSet = noUid.uidSet := by
  rcases getUid_cases conf headers with ⟨cookie, eq⟩ | ⟨cookie, got, found, long, decoded, eq⟩
  all_goals rw [eq]

end Cookie

/-- A client gets a cookie that fits and that is read back as the same identifier; it gets none
when it has one with the mark. -/
theorem userid_cookie_read_back (conf : Conf) (setting : MarkSetting conf.mark)
    (cookieName : CookieName conf.name) (headers : List (List UInt8)) (reset fresh : List UInt8)
    (sixteen : fresh.length = 16) (known : lastWord fresh = true) (now : Nat) :
    (∀ uid, uidFor conf reset fresh (ngxHttpUseridGetUid conf headers) = some uid →
      ∃ text written,
        (ngxHttpUseridSetUid conf reset fresh now (ngxHttpUseridGetUid conf headers)).2 =
          some written ∧
        written.value = conf.name ++ chr '=' :: text ++ writeExpires conf now ++ conf.domain ++
          conf.path ∧
        (Dated conf now → written.value.length ≤ written.len) ∧
        Written conf.mark uid text ∧
        ∀ back, SentBack conf.name text back →
          (ngxHttpUseridGetUid conf back).uidGot = uid ∧
          ∀ reset' fresh' now', noReset reset' = true →
            (ngxHttpUseridSetUid conf reset' fresh' now' (ngxHttpUseridGetUid conf back)).2 =
              none) ∧
    (uidFor conf reset fresh (ngxHttpUseridGetUid conf headers) = none →
      (ngxHttpUseridSetUid conf reset fresh now (ngxHttpUseridGetUid conf headers)).2 = none) := by
  have isSet := @createUid_uidFor conf _ reset fresh (getUid_set conf headers)
  constructor
  · intro uid chosen
    rw [chosen, Option.getD_some] at isSet
    have real : lastWord uid = true := by
      rw [uidFor] at chosen
      split at chosen
      · split at chosen
        · cases chosen
        · rename_i client _
          rw [← Option.some.inj chosen]
          exact client.1
      · rw [← Option.some.inj chosen]
        exact known
    obtain ⟨written, set, value, len⟩ := @setUid_some conf _ uid reset fresh now real isSet
    have text := writeUid_written setting sixteen
      (@createUid_source conf reset fresh headers (by rw [isSet]; exact real))
    rw [isSet] at text
    refine ⟨_, written, set, value, ?_, text, ?_⟩
    · intro dated
      have time := writeExpires_length dated
      have size := text.size
      rw [value, len]
      simp only [List.length_append, List.length_cons]
      omega
    · intro back sent
      obtain ⟨more, got⟩ := getUid_written cookieName text sent
      refine ⟨by rw [got], ?_⟩
      intro reset' fresh' now' keep
      exact setUid_written cookieName text real keep sent
  · intro none_
    rw [none_, Option.getD_none] at isSet
    apply setUid_none
    rw [isSet]
    exact lastWord_noUid

namespace Sample

/-- `userid_name UID; userid_mark Z; userid_expires 1h;` -/
def conf : Conf := ⟨bytes "UID", [], bytes "; path=/", 3600, chr 'Z'⟩

def uid : List UInt8 := List.replicate 16 1

end Sample

open Sample in
theorem userid_cookie_read_back_session :
    MarkSetting conf.mark ∧ CookieName conf.name ∧ uid.length = 16 ∧ lastWord uid = true ∧
    uidFor conf [] uid (ngxHttpUseridGetUid conf []) = some uid ∧
    ∃ text written,
      (ngxHttpUseridSetUid conf [] uid 0 (ngxHttpUseridGetUid conf [])).2 = some written ∧
      (Dated conf 0 → written.value.length ≤ written.len) ∧ Written conf.mark uid text := by
  have setting : MarkSetting conf.mark := by decide
  have cookieName : CookieName conf.name := ⟨by decide +kernel, (fun never => by cases never)⟩
  have sixteen : uid.length = 16 := by decide
  have known : lastWord uid = true := by decide
  have chosen : uidFor conf [] uid (ngxHttpUseridGetUid conf []) = some uid := by decide
  obtain ⟨text, written, set, value, size, isText, back⟩ :=
    (userid_cookie_read_back conf setting cookieName [] [] uid sixteen known 0).1 uid chosen
  exact ⟨setting, cookieName, sixteen, known, chosen, text, written, set, size, isText⟩

open Sample in
/-- A cookie whose name differs in the case only hides the one behind it, and the year 10000 does
not fit. -/
theorem userid_cookie_other_case :
    (lastWord uid = true ∧
      ((ngxHttpUseridSetUid conf [] uid 0 noUid).2.map SetCookie.value) =
        some (bytes "UID=" ++ markedText conf.mark uid ++
          bytes "; expires=Thu, 01-Jan-70 01:00:00 GMT; path=/") ∧
      (ngxHttpUseridGetUid conf [bytes "uid=1; UID=" ++ markedText conf.mark uid]).uidGot ≠ uid ∧
      (ngxHttpUseridSetUid conf [] uid 0 (ngxHttpUseridGetUid conf
        [bytes "uid=1; UID=" ++ markedText conf.mark uid])).2.isSome = true) ∧
    ((ngxHttpUseridSetUid conf [] uid 253402300800 noUid).2.map fun written =>
      decide (written.value.length ≤ written.len)) = some false := by
  decide +kernel

end NgxFormal.Http.Userid
