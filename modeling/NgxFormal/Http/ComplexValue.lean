import NgxFormal.Core.Times
import NgxFormal.Http.Script
import Mathlib.Data.List.TakeWhile

/-! `ngx_http_compile_complex_value` and `ngx_http_complex_value`: the two programs as the compiler
lays them out, and the engine that runs them. -/

namespace NgxFormal.Http.Complex

open NgxFormal.Core
open Script (isNameChar)

/-- The functions that the codes point to; `exit` is the `NULL` behind the last one. -/
inductive Op where
  | exit
  | copyLen
  | copy
  | varLen
  | var
  | captureLen
  | capture
  | fullNameLen
  | fullName
  deriving DecidableEq, Repr

/-- The words of a program: code pointers, lengths and indexes, and up to 8 bytes of a text. -/
inductive Word where
  | op (op : Op)
  | num (n : Nat)
  | text (bytes : List UInt8)
  deriving DecidableEq, Repr

/-- `(len + sizeof(uintptr_t) - 1) & ~(sizeof(uintptr_t) - 1)` -/
def aligned (len : Nat) : Nat := (len + 7) / 8 * 8

/-- A text in words. -/
def textWords (text : List UInt8) : List Word :=
  (List.range (aligned text.length / 8)).map fun i => .text ((text.drop (8 * i)).take 8)

/-- `ngx_cycle->prefix` and `ngx_cycle->conf_prefix` -/
structure Cycle where
  rootPrefix : List UInt8
  confPrefix : List UInt8
  deriving DecidableEq, Repr

/-- The bytes written behind `data`, and `len`. -/
structure Buf where
  bytes : List UInt8
  len : Nat
  deriving DecidableEq, Repr

/-- `ngx_conf_full_name`; `ngx_cpystrn` copies up to a NUL. -/
def ngxConfFullName (cycle : Cycle) (name : Buf) (confPrefix : Bool) : Buf :=
  if name.bytes.headD 0 = chr '/' then name
  else
    let start := if confPrefix then cycle.confPrefix else cycle.rootPrefix
    ⟨start ++ (name.bytes.take name.len).takeWhile (· ≠ 0), start.length + name.len⟩

/-- The flags of `ngx_http_compile_complex_value_t`. -/
structure Options where
  zero : Bool
  confPrefix : Bool
  rootPrefix : Bool
  deriving DecidableEq, Repr

/-- `ngx_http_script_compile_t` -/
structure Compile where
  flushes : List Nat
  lengths : List Word
  values : List Word
  varCount : Nat
  ncaptures : Nat
  capturesMask : List Nat
  dupCapture : Bool
  size : Nat
  args : Bool
  zero : Bool
  deriving DecidableEq, Repr

def Compile.init (zero : Bool) : Compile := ⟨[], [], [], 0, 0, [], false, 0, false, zero⟩

/-- `ngx_http_script_add_copy_code` -/
def addCopyCode (sc : Compile) (value : List UInt8) (last : Bool) : Compile :=
  let zero := sc.zero && last
  let text := if zero then value ++ [0] else value
  { sc with
    zero := sc.zero && !zero
    lengths := sc.lengths ++ [.op .copyLen, .num text.length]
    values := sc.values ++ .op .copy :: .num text.length :: textWords text }

/-- `ngx_http_script_add_var_code`, with `sc->variables++` -/
def addVarCode (sc : Compile) (index : Nat) : Compile :=
  { sc with
    varCount := sc.varCount + 1
    flushes := sc.flushes ++ [index]
    lengths := sc.lengths ++ [.op .varLen, .num index]
    values := sc.values ++ [.op .var, .num index] }

/-- `ngx_http_script_add_capture_code`, with the mask -/
def addCaptureCode (sc : Compile) (n : Nat) : Compile :=
  { sc with
    dupCapture := sc.dupCapture || sc.capturesMask.contains n
    capturesMask := n :: sc.capturesMask
    lengths := sc.lengths ++ [.op .captureLen, .num (2 * n)]
    values := sc.values ++ [.op .capture, .num (2 * n)]
    ncaptures := max sc.ncaptures n }

def addFullNameCode (sc : Compile) (confPrefix : Bool) : Compile :=
  { sc with
    lengths := sc.lengths ++ [.op .fullNameLen, .num confPrefix.toNat]
    values := sc.values ++ [.op .fullName, .num confPrefix.toNat] }

inductive Error where
  | emptyParameter
  | invalidVariable
  | closingBracket (name : List UInt8)
  | variableIndex
  deriving DecidableEq, Repr

def Error.text : Error → List UInt8
  | .emptyParameter => Times.bytes "empty parameter"
  | .invalidVariable => Times.bytes "invalid variable name"
  | .closingBracket name => Times.bytes "the closing bracket in \"" ++ name ++
      Times.bytes "\" variable is missing"
  | .variableIndex => []

/-- The name behind `$` or `${`, and what follows it. -/
def variableName (bracket : Bool) (source : List UInt8) :
    Except Error (List UInt8 × List UInt8) :=
  let name := source.takeWhile isNameChar
  let rest := source.dropWhile isNameChar
  if bracket then
    if rest.head? = some (chr '}') then
      if name = [] then .error .invalidVariable else .ok (name, rest.tail)
    else .error (.closingBracket name)
  else if name = [] then .error .invalidVariable
  else .ok (name, rest)

/-- A variable or a capture, from behind the `$`: what follows it, and its codes. `index` is
`ngx_http_get_variable_index`. -/
def compileVariable (index : List UInt8 → Option Nat) (source : List UInt8) (sc : Compile) :
    Except Error (List UInt8 × Compile) :=
  match source with
  | [] => .error .invalidVariable
  | ch :: rest =>
    if chr '1' ≤ ch ∧ ch ≤ chr '9' then .ok (rest, addCaptureCode sc (digitValue ch))
    else if ch = chr '{' ∧ rest = [] then .error .invalidVariable
    else
      let bracket := ch == chr '{'
      (variableName bracket (if bracket then rest else ch :: rest)).bind fun (name, rest) =>
        match index name with
        | none => .error .variableIndex
        | some i => .ok (rest, addVarCode sc i)

/-- The loop of `ngx_http_script_compile`; every turn takes a byte of the source. -/
def compileLoop (index : List UInt8 → Option Nat) :
    Nat → List UInt8 → Compile → Except Error Compile
  | 0, _, sc => .ok sc
  | _ + 1, [], sc => .ok sc
  | fuel + 1, ch :: source, sc =>
    if ch = chr '$' then
      (compileVariable index source sc).bind fun (rest, sc) => compileLoop index fuel rest sc
    else
      let text := (ch :: source).takeWhile (· ≠ chr '$')
      let rest := (ch :: source).dropWhile (· ≠ chr '$')
      let sc := { sc with args := sc.args || text.contains (chr '?'), size := sc.size + text.length }
      compileLoop index fuel rest (addCopyCode sc text rest.isEmpty)

/-- `ngx_http_script_done` -/
def scriptDone (options : Options) (sc : Compile) : Compile :=
  let sc := if sc.zero then addCopyCode sc [0] false else sc
  let sc :=
    if options.confPrefix || options.rootPrefix then addFullNameCode sc options.confPrefix else sc
  { sc with lengths := sc.lengths ++ [.op .exit], values := sc.values ++ [.op .exit] }

def ngxHttpScriptCompile (index : List UInt8 → Option Nat) (options : Options)
    (source : List UInt8) : Except Error Compile :=
  (compileLoop index source.length source (Compile.init options.zero)).map (scriptDone options)

/-- `ngx_http_complex_value_t`; without variables and captures there is no program. -/
structure ComplexValue where
  value : Buf
  flushes : List Nat
  programs : Option (List Word × List Word)
  deriving DecidableEq, Repr

def ngxHttpCompileComplexValue (cycle : Cycle) (index : List UInt8 → Option Nat)
    (options : Options) (v : List UInt8) : Except Error ComplexValue :=
  if v = [] then .error .emptyParameter
  else
    let full := v.headD 0 ≠ chr '$' ∧ (options.confPrefix || options.rootPrefix)
    let value := if full then ngxConfFullName cycle ⟨v, v.length⟩ options.confPrefix else ⟨v, v.length⟩
    let options := if full then { options with confPrefix := false, rootPrefix := false } else options
    if !v.contains (chr '$') then .ok ⟨value, [], none⟩
    else
      (ngxHttpScriptCompile index options value.bytes).map fun sc =>
        ⟨value, sc.flushes, some (sc.lengths, sc.values)⟩

/-! ### The engine -/

/-- `ngx_http_variable_value_t` -/
structure VariableValue where
  text : List UInt8
  valid : Bool
  noCacheable : Bool
  notFound : Bool
  deriving DecidableEq, Repr, Inhabited

/-- `r->captures_data`, and the pairs of `r->captures`. -/
structure Captures where
  data : List UInt8
  groups : List (Nat × Nat)
  inside : ∀ group ∈ groups, group.1 ≤ group.2 ∧ group.2 ≤ data.length

structure Request where
  variables_ : List VariableValue
  captures : Captures
  quotedUri : Bool
  plusInUri : Bool

/-- What the codes use of the configuration: the handlers of the variables with their flags, of
which each may change the request. -/
structure Env where
  cycle : Cycle
  nelts : Nat
  noCacheable : Nat → Bool
  getHandler : Nat → Request → Bool × Request

def Request.setVariable (r : Request) (index : Nat) (f : VariableValue → VariableValue) : Request :=
  { r with variables_ := r.variables_.modify index f }

def ngxHttpGetIndexedVariable (env : Env) (r : Request) (index : Nat) :
    Option VariableValue × Request :=
  if env.nelts ≤ index then (none, r)
  else
    let value := r.variables_.getD index default
    if value.notFound || value.valid then (some value, r)
    else
      match env.getHandler index r with
      | (true, r) =>
        let r :=
          if env.noCacheable index then r.setVariable index ({ · with noCacheable := true }) else r
        (some (r.variables_.getD index default), r)
      | (false, r) => (none, r.setVariable index ({ · with valid := false, notFound := true }))

def ngxHttpGetFlushedVariable (env : Env) (r : Request) (index : Nat) :
    Option VariableValue × Request :=
  let value := r.variables_.getD index default
  if value.valid || value.notFound then
    if !value.noCacheable then (some value, r)
    else
      ngxHttpGetIndexedVariable env
        (r.setVariable index ({ · with valid := false, notFound := false })) index
  else ngxHttpGetIndexedVariable env r index

/-- `ngx_http_script_flush_complex_value` -/
def flushComplexValue (r : Request) (flushes : List Nat) : Request :=
  flushes.foldl (fun r index =>
    if (r.variables_.getD index default).noCacheable then
      r.setVariable index ({ · with valid := false, notFound := false })
    else r) r

/-- `ngx_http_script_engine_t`; `out` is what has been written in front of `pos`, and `buf` what a
full name has set. -/
structure Engine where
  ip : Nat
  out : List UInt8
  buf : Option Buf
  skip : Bool
  isArgs : Bool
  quote : Bool
  flushed : Bool
  request : Request

/-- The word at `ip`. -/
def wordAt (program : List Word) (ip : Nat) : Option Word :=
  if ip % 8 = 0 then program[ip / 8]? else none

def opAt (program : List Word) (ip : Nat) : Option Op :=
  (wordAt program ip).bind fun
    | .op op => some op
    | _ => none

def numAt (program : List Word) (ip : Nat) : Option Nat :=
  (wordAt program ip).bind fun
    | .num n => some n
    | _ => none

def Word.bytes : Word → List UInt8
  | .text bytes => bytes
  | _ => []

/-- `len` bytes of a text. -/
def textAt (program : List Word) (ip len : Nat) : Option (List UInt8) :=
  let text := ((program.drop (ip / 8)).take (aligned len / 8)).flatMap Word.bytes
  if ip % 8 = 0 ∧ text.length = len then some text else none

def Engine.getVariable (env : Env) (e : Engine) (index : Nat) : Option VariableValue × Request :=
  if e.flushed then ngxHttpGetIndexedVariable env e.request index
  else ngxHttpGetFlushedVariable env e.request index

/-- `if (value && !value->not_found)` -/
def found (value : Option VariableValue) : List UInt8 :=
  match value with
  | some value => if value.notFound then [] else value.text
  | none => []

/-- `n < r->ncaptures`, and the bytes between the two offsets. -/
def Request.captureText (r : Request) (n : Nat) : List UInt8 :=
  match r.captures.groups[n / 2]? with
  | some (start, stop) => (r.captures.data.drop start).take (stop - start)
  | none => []

def Engine.escapes (e : Engine) : Bool :=
  (e.isArgs || e.quote) && (e.request.quotedUri || e.request.plusInUri)

/-- `lcode(&e)`, for all length codes -/
def lenCode (env : Env) (program : List Word) (e : Engine) : Option (Nat × Engine) :=
  match opAt program e.ip with
  | some .copyLen => do
      let len ← numAt program (e.ip + 8)
      some (len, { e with ip := e.ip + 16 })
  | some .varLen => do
      let index ← numAt program (e.ip + 8)
      let (value, r) := e.getVariable env index
      some ((found value).length, { e with ip := e.ip + 16, request := r })
  | some .captureLen => do
      let n ← numAt program (e.ip + 8)
      let text := e.request.captureText n
      let more := if e.escapes then 2 * ngxEscapeCount .args text else 0
      some (text.length + more, { e with ip := e.ip + 16 })
  | some .fullNameLen => do
      let confPrefix ← numAt program (e.ip + 8)
      let start := if confPrefix ≠ 0 then env.cycle.confPrefix else env.cycle.rootPrefix
      some (start.length, { e with ip := e.ip + 16 })
  | _ => none

/-- `code((ngx_http_script_engine_t *) &e)`, for all value codes -/
def valueCode (env : Env) (program : List Word) (e : Engine) : Option Engine :=
  match opAt program e.ip with
  | some .copy => do
      let len ← numAt program (e.ip + 8)
      let text ← textAt program (e.ip + 16) len
      some { e with
        out := if e.skip then e.out else e.out ++ text
        ip := e.ip + 16 + aligned len }
  | some .var => do
      let index ← numAt program (e.ip + 8)
      if e.skip then some { e with ip := e.ip + 16 }
      else
        let (value, r) := e.getVariable env index
        some { e with ip := e.ip + 16, out := e.out ++ found value, request := r }
  | some .capture => do
      let n ← numAt program (e.ip + 8)
      let text := e.request.captureText n
      let text := if e.escapes then ngxEscapeUri .args text else text
      some { e with ip := e.ip + 16, out := e.out ++ text }
  | some .fullName => do
      let confPrefix ← numAt program (e.ip + 8)
      let buf := ngxConfFullName env.cycle ⟨e.out, e.out.length⟩ (confPrefix ≠ 0)
      some { e with buf := some buf, ip := e.ip + 16 }
  | _ => none

/-- `while (*(uintptr_t *) e.ip)`, for the lengths -/
def lenLoop (env : Env) (program : List Word) : Nat → Engine → Nat → Option (Nat × Engine)
  | 0, _, _ => none
  | fuel + 1, e, len =>
    if opAt program e.ip = some .exit then some (len, e)
    else (lenCode env program e).bind fun (more, e) => lenLoop env program fuel e (len + more)

/-- `while (*(uintptr_t *) e.ip)`, for the values -/
def valueLoop (env : Env) (program : List Word) : Nat → Engine → Option Engine
  | 0, _ => none
  | fuel + 1, e =>
    if opAt program e.ip = some .exit then some e
    else (valueCode env program e).bind (valueLoop env program fuel)

/-- The engine behind `ngx_memzero`. -/
def Engine.init (r : Request) : Engine := ⟨0, [], none, false, false, false, true, r⟩

/-- `none` stands for an engine that leaves its program. -/
def ngxHttpComplexValue (env : Env) (r : Request) (val : ComplexValue) : Option (Buf × Request) :=
  match val.programs with
  | none => some (val.value, r)
  | some (lengths, values) => do
      let r := flushComplexValue r val.flushes
      let (len, e) ← lenLoop env lengths (lengths.length + 1) (Engine.init r) 0
      let e ← valueLoop env values (values.length + 1) { e with ip := 0 }
      some (e.buf.getD ⟨e.out, len⟩, e.request)

end NgxFormal.Http.Complex

/-! What a string with variables says, and that the two programs of the compiler say the same. -/

namespace NgxFormal.Http.Complex

open NgxFormal.Core
open Script (isNameChar)

/-- A piece of a string: a literal text, a variable or a capture. -/
inductive Code where
  | copy (text : List UInt8)
  | var (index : Nat)
  | capture (n : Nat)
  deriving DecidableEq, Repr

/-- The pieces of a string in its order. A literal text runs to the next `$`, and an unbraced name
as far as it can. -/
inductive Template (index : List UInt8 → Option Nat) : List UInt8 → List Code → Prop where
  | nil : Template index [] []
  | text {text rest : List UInt8} {codes : List Code} (some_ : text ≠ [])
      (plain : ∀ ch ∈ text, ch ≠ chr '$') (ends : rest = [] ∨ rest.head? = some (chr '$'))
      (later : Template index rest codes) : Template index (text ++ rest) (.copy text :: codes)
  | capture {digit : UInt8} {rest : List UInt8} {codes : List Code}
      (range : chr '1' ≤ digit ∧ digit ≤ chr '9') (later : Template index rest codes) :
      Template index (chr '$' :: digit :: rest) (.capture (digitValue digit) :: codes)
  | var {name rest : List UInt8} {i : Nat} {codes : List Code} (some_ : name ≠ [])
      (chars : ∀ ch ∈ name, isNameChar ch = true)
      (first : ¬ (chr '1' ≤ name.headD 0 ∧ name.headD 0 ≤ chr '9'))
      (ends : ∀ ch ∈ rest.head?, isNameChar ch = false) (known : index name = some i)
      (later : Template index rest codes) :
      Template index (chr '$' :: (name ++ rest)) (.var i :: codes)
  | braced {name rest : List UInt8} {i : Nat} {codes : List Code} (some_ : name ≠ [])
      (chars : ∀ ch ∈ name, isNameChar ch = true) (known : index name = some i)
      (later : Template index rest codes) :
      Template index (chr '$' :: chr '{' :: (name ++ chr '}' :: rest)) (.var i :: codes)

def Code.lengthWords : Code → List Word
  | .copy text => [.op .copyLen, .num text.length]
  | .var index => [.op .varLen, .num index]
  | .capture n => [.op .captureLen, .num (2 * n)]

def Code.valueWords : Code → List Word
  | .copy text => .op .copy :: .num text.length :: textWords text
  | .var index => [.op .var, .num index]
  | .capture n => [.op .capture, .num (2 * n)]

/-- The codes with the NUL that ends the value, in the last text or on its own. -/
def terminated : List Code → List Code
  | [] => [.copy [0]]
  | [.copy text] => [.copy (text ++ [0])]
  | code :: codes => code :: terminated codes

def Code.flushes : Code → List Nat
  | .var index => [index]
  | _ => []

/-- The programs hold the codes, and the variables are those to flush. -/
structure Holds (codes : List Code) (sc : Compile) : Prop where
  lengths : sc.lengths = codes.flatMap Code.lengthWords
  values : sc.values = codes.flatMap Code.valueWords
  flushes : sc.flushes = codes.flatMap Code.flushes

/-- `if (sc->zero)` at the end. -/
def zeroed (sc : Compile) : Compile := if sc.zero then addCopyCode sc [0] false else sc

section Compile

variable {index : List UInt8 → Option Nat} {sc sc' : Compile} {codes before : List Code}
  {source rest : List UInt8}

theorem init_holds (zero : Bool) : Holds [] (Compile.init zero) := ⟨rfl, rfl, rfl⟩

theorem Holds.add {code : Code} (holds : Holds before sc)
    (lengths : sc'.lengths = sc.lengths ++ code.lengthWords)
    (values : sc'.values = sc.values ++ code.valueWords)
    (flushes : sc'.flushes = sc.flushes ++ code.flushes) : Holds (before ++ [code]) sc' where
  lengths := by rw [lengths, holds.lengths, List.flatMap_append, List.flatMap_singleton]
  values := by rw [values, holds.values, List.flatMap_append, List.flatMap_singleton]
  flushes := by rw [flushes, holds.flushes, List.flatMap_append, List.flatMap_singleton]

theorem Holds.copy (holds : Holds before sc) (text : List UInt8) (last : Bool) :
    Holds (before ++ [.copy (if sc.zero && last then text ++ [0] else text)])
      (addCopyCode sc text last) :=
  holds.add rfl rfl (List.append_nil _).symm

theorem Holds.var (holds : Holds before sc) (i : Nat) :
    Holds (before ++ [.var i]) (addVarCode sc i) := holds.add rfl rfl rfl

theorem Holds.capture (holds : Holds before sc) (n : Nat) :
    Holds (before ++ [.capture n]) (addCaptureCode sc n) :=
  holds.add rfl rfl (List.append_nil _).symm

theorem Holds.zeroed (holds : Holds before sc) :
    Holds (before ++ if sc.zero then terminated [] else []) (zeroed sc) := by
  rw [Complex.zeroed]
  cases zero : sc.zero with
  | false =>
    rw [if_neg Bool.false_ne_true, if_neg Bool.false_ne_true, List.append_nil]
    exact holds
  | true =>
    have copied := holds.copy [0] false
    rw [Bool.and_false, if_neg Bool.false_ne_true] at copied
    rw [if_pos rfl, if_pos rfl]
    exact copied

theorem template_ne_nil (template : Template index source codes) (some_ : source ≠ []) :
    codes ≠ [] := by
  cases template with
  | nil => exact absurd rfl some_
  | _ => exact List.cons_ne_nil _ _

theorem template_nil (template : Template index [] codes) : codes = [] := by
  generalize none_ : ([] : List UInt8) = source at template
  cases template with
  | nil => rfl
  | text some_ _ _ _ => exact absurd (List.append_eq_nil_iff.mp none_.symm).1 some_
  | capture _ _ => cases none_
  | var _ _ _ _ _ _ => cases none_
  | braced _ _ _ _ => cases none_

theorem terminated_cons {code : Code} (more : codes ≠ [] ∨ ∀ text, code ≠ .copy text) :
    terminated (code :: codes) = code :: terminated codes := by
  cases codes with
  | cons next codes => rw [terminated]; simp
  | nil =>
    cases code with
    | copy text => exact absurd rfl (more.resolve_left (fun none_ => none_ rfl) text)
    | var i => rfl
    | capture n => rfl

theorem variableName_inv {bracket : Bool} {name : List UInt8}
    (read : variableName bracket source = .ok (name, rest)) :
    name ≠ [] ∧ (∀ ch ∈ name, isNameChar ch = true) ∧
      source = name ++ (if bracket then chr '}' :: rest else rest) ∧
      (bracket = false → ∀ ch ∈ rest.head?, isNameChar ch = false) := by
  have chars : ∀ ch ∈ source.takeWhile isNameChar, isNameChar ch = true :=
    fun ch member => List.mem_takeWhile_imp member
  have split := List.takeWhile_append_dropWhile (p := isNameChar) (l := source)
  rw [variableName] at read
  cases bracket with
  | true =>
    rw [if_pos rfl] at read
    split_ifs at read with closed empty
    · cases read
      refine ⟨empty, chars, ?_, fun no => by cases no⟩
      have cons : source.dropWhile isNameChar =
          chr '}' :: (source.dropWhile isNameChar).tail := by
        cases drop : source.dropWhile isNameChar with
        | nil =>
          rw [drop] at closed
          cases closed
        | cons ch rest =>
          rw [drop] at closed
          cases closed
          rfl
      rw [if_pos rfl, ← cons, split]
  | false =>
    rw [if_neg Bool.false_ne_true] at read
    split_ifs at read with empty
    cases read
    refine ⟨empty, chars, split.symm, fun _ ch member => ?_⟩
    have stops := List.head?_dropWhile_not isNameChar source
    rw [Option.mem_def] at member
    rw [member] at stops
    simpa using stops

theorem compileVariable_piece (compiled : compileVariable index source sc = .ok (rest, sc'))
    (holds : Holds before sc) :
    ∃ code, Holds (before ++ [code]) sc' ∧ sc'.zero = sc.zero ∧ rest.length < source.length ∧
      (∀ text, code ≠ .copy text) ∧ ∀ codes, Template index rest codes →
        Template index (chr '$' :: source) (code :: codes) := by
  cases source with
  | nil => cases compiled
  | cons ch source =>
    rw [compileVariable] at compiled
    split_ifs at compiled with digit lone
    · cases compiled
      exact ⟨_, holds.capture _, rfl, Nat.lt_succ_self _, (fun text => by simp),
        fun codes later => .capture digit later⟩
    · dsimp only at compiled
      cases read : variableName (ch == chr '{') (if ch == chr '{' then source else ch :: source) with
      | error error =>
        rw [read] at compiled
        cases compiled
      | ok pair =>
        obtain ⟨name, behind⟩ := pair
        rw [read] at compiled
        dsimp only [Except.bind] at compiled
        obtain ⟨some_, chars, split, ends⟩ := variableName_inv read
        cases known : index name with
        | none =>
          rw [known] at compiled
          cases compiled
        | some i =>
          rw [known] at compiled
          cases compiled
          have name_length := List.length_pos_iff.mpr some_
          refine ⟨_, holds.var i, rfl, ?_⟩
          by_cases brace : ch = chr '{'
          · subst brace
            have braced : (chr '{' == chr '{') = true := rfl
            rw [if_pos braced, if_pos braced] at split
            refine ⟨?_, (fun text => by simp), fun codes later => ?_⟩
            · rw [split]
              simp only [List.length_cons, List.length_append]
              omega
            · rw [split]
              exact .braced some_ chars known later
          · have unbraced : (ch == chr '{') = false := beq_eq_false_iff_ne.mpr brace
            rw [unbraced, if_neg Bool.false_ne_true, if_neg Bool.false_ne_true] at split
            have head : name.headD 0 = ch := by
              cases name with
              | nil => exact absurd rfl some_
              | cons first name => exact (List.cons.inj split).1.symm
            refine ⟨?_, (fun text => by simp), fun codes later => ?_⟩
            · rw [split, List.length_append]
              omega
            · rw [split]
              exact .var some_ chars (by rw [head]; exact digit) (ends unbraced) known later

/-- What the loop accepts is a string of pieces, and the programs get their codes. -/
theorem compileLoop_template {fuel : Nat} (compiled : compileLoop index fuel source sc = .ok sc')
    (enough : source.length ≤ fuel) (holds : Holds before sc) :
    ∃ codes, Template index source codes ∧
      Holds (before ++ if sc.zero then terminated codes else codes) (zeroed sc') := by
  induction fuel generalizing source sc before with
  | zero =>
    cases List.eq_nil_of_length_eq_zero (Nat.le_zero.mp enough)
    cases compiled
    exact ⟨[], .nil, by simpa using holds.zeroed⟩
  | succ fuel ih =>
    cases source with
    | nil =>
      cases compiled
      exact ⟨[], .nil, by simpa using holds.zeroed⟩
    | cons ch source =>
      rw [compileLoop] at compiled
      have shorter : source.length ≤ fuel := Nat.le_of_succ_le_succ enough
      split_ifs at compiled with dollar
      · subst dollar
        cases piece : compileVariable index source sc with
        | error error =>
          rw [piece] at compiled
          cases compiled
        | ok pair =>
          obtain ⟨rest, next⟩ := pair
          rw [piece] at compiled
          obtain ⟨code, held, zero, fewer, other, template⟩ := compileVariable_piece piece holds
          obtain ⟨codes, later, whole⟩ := ih compiled (by omega) held
          refine ⟨code :: codes, template codes later, ?_⟩
          rw [zero, List.append_assoc, List.singleton_append] at whole
          cases zeros : sc.zero with
          | false =>
            rw [zeros] at whole
            exact whole
          | true =>
            rw [zeros] at whole
            rw [if_pos rfl, terminated_cons (Or.inr other)]
            exact whole
      · have split := List.takeWhile_append_dropWhile
          (p := fun ch => decide (ch ≠ chr '$')) (l := ch :: source)
        have first : (ch :: source).takeWhile (fun ch => decide (ch ≠ chr '$')) ≠ [] := by
          rw [List.takeWhile_cons, if_pos (decide_eq_true dollar)]
          exact List.cons_ne_nil _ _
        have plain : ∀ c ∈ (ch :: source).takeWhile (fun ch => decide (ch ≠ chr '$')),
            c ≠ chr '$' := by
          intro c member
          have inside := List.mem_takeWhile_imp member
          simpa using inside
        have stops := List.head?_dropWhile_not (fun ch => decide (ch ≠ chr '$')) (ch :: source)
        generalize (ch :: source).takeWhile (fun ch => decide (ch ≠ chr '$')) = text
          at compiled split first plain
        generalize (ch :: source).dropWhile (fun ch => decide (ch ≠ chr '$')) = rest
          at compiled split stops
        have fewer : rest.length ≤ fuel := by
          have length := congrArg List.length split
          have positive := List.length_pos_iff.mpr first
          rw [List.length_append] at length
          omega
        have held : Holds before { sc with
            args := sc.args || text.contains (chr '?')
            size := sc.size + text.length } := ⟨holds.lengths, holds.values, holds.flushes⟩
        obtain ⟨codes, later, whole⟩ := ih compiled fewer (held.copy text rest.isEmpty)
        rw [List.append_assoc, List.singleton_append] at whole
        refine ⟨.copy text :: codes, split ▸ .text first plain ?_ later, ?_⟩
        · cases rest with
          | nil => exact Or.inl rfl
          | cons next rest =>
            right
            simpa using stops
        · cases rest with
          | nil =>
            cases template_nil later
            cases zero : sc.zero with
            | false => simpa [addCopyCode, zero] using whole
            | true => simpa [addCopyCode, zero, terminated] using whole
          | cons next rest =>
            have more := template_ne_nil later (List.cons_ne_nil _ _)
            cases zero : sc.zero with
            | false => simpa [addCopyCode, zero] using whole
            | true =>
              rw [if_pos rfl, terminated_cons (Or.inl more)]
              simpa [addCopyCode, zero] using whole

end Compile

end NgxFormal.Http.Complex
