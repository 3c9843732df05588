import NgxFormal.Core.Escape

/-! The scripts of `rewrite`: the compiler of the replacement, and the length codes and value
codes that run when the regex matched. -/

namespace NgxFormal.Http.Script

open NgxFormal.Core

/-- `ngx_http_script_copy_len_code`, `copy_var_len_code`, `copy_capture_len_code` and
`mark_args_code`; a capture carries the `n` of `$n`. -/
inductive LenCode where
  | copy (len : Nat)
  | var (name : List UInt8)
  | capture (n : Nat)
  | markArgs
  deriving DecidableEq, Repr

/-- `ngx_http_script_copy_code`, `copy_var_code`, `copy_capture_code` and
`start_args_code`. -/
inductive ValueCode where
  | copy (text : List UInt8)
  | var (name : List UInt8)
  | capture (n : Nat)
  | startArgs
  deriving DecidableEq, Repr

/-- The fields of `ngx_http_script_compile_t` that the loop changes; `varCount` is
`variables`, and `capturesMask` the list of the bits set. -/
structure Compile where
  lengths : List LenCode
  values : List ValueCode
  varCount : Nat
  capturesMask : List Nat
  size : Nat
  compileArgs : Bool
  dupCapture : Bool
  args : Bool
  deriving DecidableEq, Repr

def Compile.init (compileArgs : Bool) : Compile := ⟨[], [], 0, [], 0, compileArgs, false, false⟩

/-- `ngx_http_script_add_copy_code`, with `sc->size += name.len`. -/
def addCopyCode (sc : Compile) (text : List UInt8) : Compile :=
  { sc with
    size := sc.size + text.length
    lengths := sc.lengths ++ [.copy text.length]
    values := sc.values ++ [.copy text] }

def addVarCode (sc : Compile) (name : List UInt8) : Compile :=
  { sc with
    varCount := sc.varCount + 1
    lengths := sc.lengths ++ [.var name]
    values := sc.values ++ [.var name] }

def addCaptureCode (sc : Compile) (n : Nat) : Compile :=
  { sc with
    dupCapture := sc.dupCapture || sc.capturesMask.contains n
    capturesMask := n :: sc.capturesMask
    lengths := sc.lengths ++ [.capture n]
    values := sc.values ++ [.capture n] }

def addArgsCode (sc : Compile) : Compile :=
  { sc with
    args := true
    compileArgs := false
    lengths := sc.lengths ++ [.markArgs]
    values := sc.values ++ [.startArgs] }

def isNameChar (ch : UInt8) : Bool :=
  (chr 'A' ≤ ch && ch ≤ chr 'Z') || (chr 'a' ≤ ch && ch ≤ chr 'z') || isDigit ch || ch == chr '_'

/-- `$name` and `${name}`, from behind the `$`: the name and what follows it. -/
def variableName : List UInt8 → Option (List UInt8 × List UInt8)
  | [] => none
  | ch :: rest =>
    if ch = chr '{' then
      let name := rest.takeWhile isNameChar
      match rest.dropWhile isNameChar with
      | [] => none
      | close :: rest => if close = chr '}' ∧ name ≠ [] then some (name, rest) else none
    else
      let name := (ch :: rest).takeWhile isNameChar
      if name = [] then none else some (name, (ch :: rest).dropWhile isNameChar)

/-- What a piece of literal text runs up to. -/
def isText (compileArgs : Bool) (ch : UInt8) : Bool :=
  !(ch == chr '$' || (ch == chr '?' && compileArgs))

/-- The loop of `ngx_http_script_compile`; every turn takes a byte of the source. -/
def compileLoop : Nat → List UInt8 → Compile → Option Compile
  | _, [], sc => some sc
  | 0, _ :: _, _ => none
  | fuel + 1, ch :: source, sc =>
    if ch = chr '$' then
      match source with
      | [] => none
      | digit :: rest =>
        if chr '1' ≤ digit ∧ digit ≤ chr '9' then
          compileLoop fuel rest (addCaptureCode sc (digitValue digit))
        else
          match variableName (digit :: rest) with
          | none => none
          | some (name, rest) => compileLoop fuel rest (addVarCode sc name)
    else if ch = chr '?' ∧ sc.compileArgs then compileLoop fuel source (addArgsCode sc)
    else
      let text := (ch :: source).takeWhile (isText sc.compileArgs)
      let rest := (ch :: source).dropWhile (isText sc.compileArgs)
      let args := sc.args || text.contains (chr '?') || rest.head? == some (chr '?')
      compileLoop fuel rest (addCopyCode { sc with args := args } text)

def ngxHttpScriptCompile (source : List UInt8) (compileArgs : Bool) : Option Compile :=
  compileLoop source.length source (Compile.init compileArgs)

inductive RewriteFlag where
  | absent
  | last
  | breakFlag
  | redirect
  | permanent
  deriving DecidableEq, Repr

/-- `ngx_http_script_regex_code_t` together with the value codes that follow it. -/
structure RegexCode where
  lengths : Option (List LenCode)
  values : List ValueCode
  size : Nat
  uri : Bool
  args : Bool
  addArgs : Bool
  redirect : Bool
  breakCycle : Bool
  deriving DecidableEq, Repr

def startsWith (text : List Char) (source : List UInt8) : Bool :=
  (text.map chr).isPrefixOf source

/-- The `rewrite` directive behind its regex. -/
def ngxHttpRewrite (replacement : List UInt8) (flag : RewriteFlag) : Option RegexCode :=
  let dropArgs := replacement.getLast? = some (chr '?')
  let source := if dropArgs then replacement.dropLast else replacement
  let redirect := startsWith ['h', 't', 't', 'p', ':', '/', '/'] replacement ||
    startsWith ['h', 't', 't', 'p', 's', ':', '/', '/'] replacement ||
    startsWith ['$', 's', 'c', 'h', 'e', 'm', 'e'] replacement ||
    flag == .redirect || flag == .permanent
  (ngxHttpScriptCompile source !redirect).map fun sc =>
    { lengths := if sc.varCount = 0 ∧ !sc.dupCapture then none else some sc.lengths
      values := sc.values
      size := sc.size
      uri := true
      args := sc.args
      addArgs := !dropArgs
      redirect := redirect
      breakCycle := flag == .breakFlag }

/-- The request behind a successful `ngx_http_regex_exec` on `r->uri`; a group that took no
part in the match is an empty capture. -/
structure Request where
  uri : List UInt8
  args : List UInt8
  quotedUri : Bool
  plusInUri : Bool
  captures : List (Nat × Nat)
  inside : ∀ capture ∈ captures, capture.1 ≤ capture.2 ∧ capture.2 ≤ uri.length
  getVariable : List UInt8 → Option (List UInt8)

/-- `cap[n + 1] - cap[n]` of group `n`, and 0 behind the last one. -/
def Request.captureLen (r : Request) (n : Nat) : Nat :=
  match r.captures[n]? with
  | some (start, stop) => stop - start
  | none => 0

def Request.captureText (r : Request) (n : Nat) : List UInt8 :=
  match r.captures[n]? with
  | some (start, stop) => (r.uri.drop start).take (stop - start)
  | none => []

def Request.escapes (r : Request) : Bool := r.quotedUri || r.plusInUri

def Request.variableText (r : Request) (name : List UInt8) : List UInt8 :=
  (r.getVariable name).getD []

/-- The fields of `ngx_http_script_engine_t`; `out` is what stands between `buf.data` and
`pos`, and `args` an offset into it. -/
structure Engine where
  isArgs : Bool
  quote : Bool
  bufLen : Nat
  out : List UInt8
  args : Option Nat
  deriving DecidableEq, Repr

/-- One length code: the length, and `le.is_args` behind it. -/
def lenCode (r : Request) (quote isArgs : Bool) : LenCode → Nat × Bool
  | .copy len => (len, isArgs)
  | .var name => ((r.variableText name).length, isArgs)
  | .capture n =>
    if (isArgs || quote) && r.escapes then
      (r.captureLen n + 2 * ngxEscapeCount .args (r.captureText n), isArgs)
    else (r.captureLen n, isArgs)
  | .markArgs => (1, true)

/-- `while (*(uintptr_t *) le.ip)` -/
def lenLoop (r : Request) (quote : Bool) : List LenCode → Bool → Nat → Nat × Bool
  | [], isArgs, len => (len, isArgs)
  | code :: codes, isArgs, len =>
    let (more, isArgs) := lenCode r quote isArgs code
    lenLoop r quote codes isArgs (len + more)

/-- `ngx_http_script_regex_start_code` from `if (code->lengths == NULL)` on. -/
def ngxHttpScriptRegexStartCode (code : RegexCode) (r : Request) (e : Engine) : Engine :=
  let (len, isArgs) :=
    match code.lengths with
    | none =>
      let len := code.size
      let len :=
        if code.uri && !r.captures.isEmpty && r.escapes then
          len + 2 * ngxEscapeCount .args r.uri
        else len
      (len + ((List.range' 1 (r.captures.length - 1)).map r.captureLen).sum, e.isArgs)
    | some lengths => lenLoop r code.redirect lengths false 0
  let len := if code.addArgs && r.args.length != 0 then len + (r.args.length + 1) else len
  { e with bufLen := len, isArgs := isArgs, quote := code.redirect, out := [] }

def valueCode (r : Request) (e : Engine) : ValueCode → Engine
  | .copy text => { e with out := e.out ++ text }
  | .var name => { e with out := e.out ++ r.variableText name }
  | .capture n =>
    if (e.isArgs || e.quote) && r.escapes then
      { e with out := e.out ++ ngxEscapeUri .args (r.captureText n) }
    else { e with out := e.out ++ r.captureText n }
  | .startArgs => { e with isArgs := true, args := some e.out.length }

/-- A regex code that matched, and the value codes behind it. -/
def runRewrite (code : RegexCode) (r : Request) (e : Engine) : Engine :=
  code.values.foldl (valueCode r) (ngxHttpScriptRegexStartCode code r e)

end NgxFormal.Http.Script
