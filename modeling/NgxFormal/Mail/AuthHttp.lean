import NgxFormal.Core.Escape
import NgxFormal.Core.Inet6Ntop
import NgxFormal.Lib.Links

/-! `ngx_mail_auth_http_create_request`: the request to the authentication server, and the room that is
allocated for it. Allocations succeed. -/

namespace NgxFormal.Mail.AuthHttp

open Core Core.Atoi Core.Printf
open Core.Inet (sprintf)

/-- `NGX_MAIL_AUTH_*` -/
inductive AuthMethod where
  | plain
  | login
  | loginUsername
  | apop
  | cramMd5
  | none
  deriving DecidableEq, Repr

/-- `ngx_mail_auth_http_method` -/
def AuthMethod.name : AuthMethod → String
  | .apop => "apop"
  | .cramMd5 => "cram-md5"
  | .none => "none"
  | .plain | .login | .loginUsername => "plain"

/-- What the request takes of the session, its protocol and its configuration. -/
structure Fields where
  uri : List UInt8
  hostHeader : List UInt8
  header : List UInt8
  protocol : List UInt8
  authMethod : AuthMethod
  login : List UInt8
  passwd : List UInt8
  salt : List UInt8
  loginAttempt : UInt64
  addrText : List UInt8
  host : List UInt8
  smtpHelo : List UInt8
  smtpFrom : List UInt8
  smtpTo : List UInt8

def ngxMailAuthHttpEscape (text : List UInt8) : List UInt8 :=
  if ngxEscapeCount .mailAuth text = 0 then text else ngxEscapeUri .mailAuth text

def text (s : String) : List UInt8 := s.toList.map chr

def Fields.len (s : Fields) : Nat :=
  4 + s.uri.length + 11 + (6 + s.hostHeader.length + 2) + (13 + (text s.authMethod.name).length + 2) +
    (11 + (ngxMailAuthHttpEscape s.login).length + 2) + (11 + (ngxMailAuthHttpEscape s.passwd).length + 2) +
    (11 + s.salt.length) + (15 + s.protocol.length + 2) + (20 + NGX_INT64_LEN + 2) +
    (11 + s.addrText.length + 2) + (13 + s.host.length + 2) + (16 + s.smtpHelo.length) +
    (16 + s.smtpFrom.length) + (14 + s.smtpTo.length) + s.header.length + 2

def line (name : String) (value : List UInt8) : List UInt8 := text name ++ (value ++ [CR, LF])

def ngxMailAuthHttpCreateRequest (s : Fields) : List UInt8 :=
  text "GET " ++ s.uri ++ text " HTTP/1.0\r\n" ++ line "Host: " s.hostHeader ++
    line "Auth-Method: " (text s.authMethod.name) ++
    line "Auth-User: " (ngxMailAuthHttpEscape s.login) ++
    line "Auth-Pass: " (ngxMailAuthHttpEscape s.passwd) ++
    (if s.authMethod ≠ .plain ∧ s.salt.length ≠ 0 then text "Auth-Salt: " ++ s.salt else []) ++
    line "Auth-Protocol: " s.protocol ++
    sprintf "Auth-Login-Attempt: %ui\r\n" [.word s.loginAttempt] ++ line "Client-IP: " s.addrText ++
    (if s.host.length ≠ 0 then line "Client-Host: " s.host else []) ++
    (if s.authMethod = .none then
      line "Auth-SMTP-Helo: " s.smtpHelo ++ line "Auth-SMTP-From: " s.smtpFrom ++ line "Auth-SMTP-To: " s.smtpTo
    else []) ++
    s.header ++ [CR, LF]

theorem line_length (name : String) (value : List UInt8) :
    (line name value).length = (text name).length + value.length + 2 := by
  rw [line, List.length_append, List.length_append, ← Nat.add_assoc]
  rfl

theorem sprintf_attempt (w : UInt64) : sprintf "Auth-Login-Attempt: %ui\r\n" [.word w] =
    line "Auth-Login-Attempt: " (digits w 0) := by
  have format : "Auth-Login-Attempt: %ui\r\n".toList.map chr =
      text "Auth-Login-Attempt: " ++ chr '%' :: chr 'u' :: chr 'i' :: ([CR, LF] ++ []) := by decide +kernel
  have short := (digits_length w).1
  have front : (text "Auth-Login-Attempt: ").length = 20 := rfl
  rw [sprintf, ngxSprintf, ngxVslprintf, format, loop_text _ _ _ (by decide +kernel) (by decide +kernel),
    loop_ui _ _ _ (by decide +kernel), loop_text _ _ _ (by decide +kernel), loop_end]
  · simp only [Option.getD_some, line, List.nil_append, List.append_assoc]
  · simp only [List.length_append, List.length_nil, List.length_cons, front]
    omega

theorem request_room (s : Fields) (most : (digits s.loginAttempt 0).length ≤ NGX_INT64_LEN) :
    (ngxMailAuthHttpCreateRequest s).length +
        (if s.authMethod ≠ .plain ∧ s.salt.length ≠ 0 then 0 else 11 + s.salt.length) +
        (NGX_INT64_LEN - (digits s.loginAttempt 0).length) + (if s.host.length ≠ 0 then 0 else 15) +
        (if s.authMethod = .none then 0
          else 46 + s.smtpHelo.length + s.smtpFrom.length + s.smtpTo.length) =
      s.len + if s.authMethod = .none then 6 else 0 := by
  simp only [ngxMailAuthHttpCreateRequest, Fields.len, sprintf_attempt, List.length_append, line_length, text,
    String.reduceToList, List.map_cons, List.map_nil, List.length_cons, List.length_nil]
  split_ifs <;>
    simp only [List.length_append, line_length, text, String.reduceToList, List.map_cons, List.map_nil,
      List.length_cons, List.length_nil] <;>
    omega

/-- The request fits into its room, but for 10^14 attempts or more in a session that has a salt and a host
name and no method. -/
theorem request_fits_iff (s : Fields) : (ngxMailAuthHttpCreateRequest s).length ≤ s.len ↔
    ¬(s.authMethod = .none ∧ s.salt ≠ [] ∧ s.host ≠ [] ∧ 10 ^ 14 ≤ s.loginAttempt.toNat) := by
  have spelled := digits_decimal s.loginAttempt
  have most : (digits s.loginAttempt 0).length ≤ NGX_INT64_LEN :=
    spelled.short 20 (by decide) (s.loginAttempt.toNat_lt.trans (by decide))
  have few : (digits s.loginAttempt 0).length ≤ 14 ↔ s.loginAttempt.toNat < 10 ^ 14 :=
    spells_room spelled (by decide)
  have limit : NGX_INT64_LEN = 20 := rfl
  have room := request_room s most
  rw [← List.length_pos_iff, ← List.length_pos_iff]
  by_cases none_ : s.authMethod = .none
  · simp only [none_, ne_eq, reduceCtorEq, not_false_eq_true, true_and, if_true] at room ⊢
    split_ifs at room <;> omega
  · rw [if_neg none_, if_neg none_] at room
    exact iff_of_true (by omega) fun all => none_ all.1

/-- The lines of the request, without their ends. -/
def Fields.lines (s : Fields) (salt : List UInt8) (headers : List (List UInt8)) : List (List UInt8) :=
  [text "GET " ++ s.uri ++ text " HTTP/1.0", text "Host: " ++ s.hostHeader,
    text "Auth-Method: " ++ text s.authMethod.name, text "Auth-User: " ++ ngxMailAuthHttpEscape s.login,
    text "Auth-Pass: " ++ ngxMailAuthHttpEscape s.passwd] ++
    (if s.authMethod ≠ .plain ∧ s.salt.length ≠ 0 then [text "Auth-Salt: " ++ salt] else []) ++
    [text "Auth-Protocol: " ++ s.protocol, text "Auth-Login-Attempt: " ++ digits s.loginAttempt 0,
      text "Client-IP: " ++ s.addrText] ++
    (if s.host.length ≠ 0 then [text "Client-Host: " ++ s.host] else []) ++
    (if s.authMethod = .none then
      [text "Auth-SMTP-Helo: " ++ s.smtpHelo, text "Auth-SMTP-From: " ++ s.smtpFrom,
        text "Auth-SMTP-To: " ++ s.smtpTo]
    else []) ++
    headers ++ [[]]

/-- All but the login and the password are single lines; `ngx_mail_salt` and `auth_http_header` write the
line ends of theirs. -/
structure Fields.SingleLines (s : Fields) (salt : List UInt8) (headers : List (List UInt8)) : Prop where
  salted : s.salt = [] ∨ s.salt = salt ++ [CR, LF]
  header : s.header = headers.flatMap (· ++ [CR, LF])
  single : ∀ value ∈ [s.uri, s.hostHeader, s.protocol, s.addrText, s.host, s.smtpHelo, s.smtpFrom, s.smtpTo,
    salt] ++ headers, LF ∉ value

theorem request_lines (s : Fields) (salt : List UInt8) (headers : List (List UInt8))
    (lines : s.SingleLines salt headers) :
    ngxMailAuthHttpCreateRequest s = (s.lines salt headers).flatMap (· ++ [CR, LF]) := by
  have ends : text " HTTP/1.0\r\n" = text " HTTP/1.0" ++ [CR, LF] := by decide
  rw [ngxMailAuthHttpCreateRequest, Fields.lines, sprintf_attempt, lines.header, ends]
  rcases lines.salted with none_ | salted
  · rw [none_]
    split_ifs <;> simp_all [line]
  · rw [salted]
    split_ifs <;> simp [line]

theorem ngxMailAuthHttpEscape_eq (text : List UInt8) :
    ngxMailAuthHttpEscape text = ngxEscapeUri .mailAuth text := by
  unfold ngxMailAuthHttpEscape
  split
  · rename_i none_
    rw [ngxEscapeCount, List.length_eq_zero_iff, List.filter_eq_nil_iff] at none_
    induction text with
    | nil => rfl
    | cons byte rest ih =>
      rw [ngxEscapeUri, if_neg (none_ byte List.mem_cons_self),
        ← ih fun b member => none_ b (List.mem_cons_of_mem _ member)]
  · rfl

theorem escape_single (text : List UInt8) : LF ∉ ngxMailAuthHttpEscape text := by
  rw [ngxMailAuthHttpEscape_eq]
  intro member
  have escaped := (EscapeRoundTrip.ngxEscapeUri_clean (by decide) text).1 LF member (by decide)
  cases escaped

theorem digits_single (w : UInt64) : LF ∉ digits w 0 := by
  intro member
  obtain ⟨d, digit⟩ := Lib.Digits.value_digits (digits_decimal w).value LF member
  cases digit

theorem names_single : ∀ name ∈ ["GET ", " HTTP/1.0", "Host: ", "Auth-Method: ", "Auth-User: ",
    "Auth-Pass: ", "Auth-Salt: ", "Auth-Protocol: ", "Auth-Login-Attempt: ", "Client-IP: ",
    "Client-Host: ", "Auth-SMTP-Helo: ", "Auth-SMTP-From: ", "Auth-SMTP-To: "], LF ∉ text name := by
  decide +kernel

theorem lines_single (s : Fields) (salt : List UInt8) (headers : List (List UInt8))
    (lines : s.SingleLines salt headers) : ∀ line ∈ s.lines salt headers, LF ∉ line := by
  have single := lines.single
  have names := names_single
  have method : LF ∉ text s.authMethod.name := by cases s.authMethod <;> decide
  have user := escape_single s.login
  have pass := escape_single s.passwd
  have attempt := digits_single s.loginAttempt
  simp only [List.forall_mem_append, List.forall_mem_cons] at single names
  unfold Fields.lines
  split_ifs <;>
    simp only [List.forall_mem_append, List.forall_mem_cons] <;>
    simp_all

/-- The server reads these lines and no others, whatever the login and the password are, and their escapes
tell them apart. -/
theorem request_read (s : Fields) (salt : List UInt8) (headers : List (List UInt8))
    (lines : s.SingleLines salt headers) :
    (ngxMailAuthHttpCreateRequest s).splitOn LF = (s.lines salt headers).map (· ++ [CR]) ++ [[]] ∧
      Function.Injective ngxMailAuthHttpEscape := by
  constructor
  · have single := lines_single s salt headers lines
    have joined : (s.lines salt headers).flatMap (· ++ [CR, LF]) =
        ((s.lines salt headers).map (· ++ [CR])).flatMap (· ++ [LF]) := by simp [List.flatMap_map]
    rw [request_lines s salt headers lines, joined, Lib.Segments.splitOn_lines]
    intro ended member
    obtain ⟨line, inside, rfl⟩ := List.mem_map.1 member
    have other : LF ≠ CR := by decide
    simpa [other] using single line inside
  · intro login other same
    rw [ngxMailAuthHttpEscape_eq, ngxMailAuthHttpEscape_eq] at same
    have read := congrArg (fun text => (Unescape.scan 0 .nothing text).1) same
    simpa only [EscapeRoundTrip.scan_escaped (by decide : EscapeType.mailAuth ≠ .refresh)] using read

/-- `CRAM-MD5` with line ends in the login and the password. -/
def lineEnds : Fields where
  uri := text "/auth"
  hostHeader := text "localhost"
  header := []
  protocol := text "imap"
  authMethod := .cramMd5
  login := text "user\r\nAuth-User: root"
  passwd := [LF]
  salt := text "<1.2@mail>\r\n"
  loginAttempt := 1
  addrText := text "127.0.0.1"
  host := []
  smtpHelo := []
  smtpFrom := []
  smtpTo := []

theorem request_read_line_ends : (ngxMailAuthHttpCreateRequest lineEnds).splitOn LF =
      (lineEnds.lines (text "<1.2@mail>") []).map (· ++ [CR]) ++ [[]] ∧
    Function.Injective ngxMailAuthHttpEscape :=
  request_read lineEnds (text "<1.2@mail>") [] ⟨Or.inr (by decide +kernel), rfl, by decide +kernel⟩

end NgxFormal.Mail.AuthHttp
