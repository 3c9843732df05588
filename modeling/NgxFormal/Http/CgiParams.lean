import NgxFormal.Http.ComplexValueRun
import NgxFormal.Http.FastcgiRequest

/-! The parameters and headers of a request to a uwsgi or SCGI server: what
`ngx_http_uwsgi_merge_params` and `ngx_http_scgi_merge_params` compile, and the loops over it that
the two `create_request` have in common. Allocations succeed, and sizes do not wrap. -/

namespace NgxFormal.Http.Cgi

open Complex
open FastcgiRequest (Header httpPrefix lowcase upcase)

/-- `uwsgi_param` or `scgi_param` -/
structure Source where
  key : List UInt8
  value : List UInt8
  deriving DecidableEq, Repr

/-- `flushes`, both programs, and the lower-case names of `headers_hash`. -/
structure Params where
  flushes : List Nat
  paramsLen : List Word
  params : List Word
  headersNames : List (List UInt8)
  deriving DecidableEq, Repr

def Source.isHeader (src : Source) : Bool :=
  httpPrefix.length < src.key.length && src.key.take httpPrefix.length == httpPrefix

/-- The text of a key: SCGI has a NUL behind it, where `ngx_cpystrn` copies up to the first one. -/
def keyText (scgi : Bool) (key : List UInt8) : List UInt8 :=
  if scgi then key.takeWhile (· ≠ 0) ++ [0] else key

def Params.addHeader (conf : Params) (src : Source) : Params :=
  if src.isHeader then
    { conf with
      headersNames := conf.headersNames ++ [(src.key.drop httpPrefix.length).map ngxTolower] }
  else conf

/-- The loop of the two functions over the sources, which include those of the cache. What
`ngx_http_script_compile` adds stands behind what is there. -/
def mergeLoop (scgi : Bool) (index : List UInt8 → Option Nat) :
    List Source → Params → Except Error Params
  | [], conf => .ok conf
  | src :: rest, conf =>
    let conf := conf.addHeader src
    if src.isHeader && src.value.isEmpty then mergeLoop scgi index rest conf
    else
      let len := src.key.length + scgi.toNat
      (compileLoop index src.value.length src.value (Compile.init false)).bind fun sc =>
        let sc := zeroed sc
        mergeLoop scgi index rest
          { conf with
            flushes := conf.flushes ++ sc.flushes
            paramsLen := conf.paramsLen ++ [.op .copyLen, .num len] ++ sc.lengths ++ [.op .exit]
            params := conf.params ++
              (.op .copy :: .num len :: textWords (keyText scgi src.key)) ++ sc.values ++
              [.op .exit] }

/-- `params_len` ends in one more NULL, and `params` in SCGI only. -/
def mergeParams (scgi : Bool) (index : List UInt8 → Option Nat) (sources : List Source) :
    Except Error Params :=
  (mergeLoop scgi index sources ⟨[], [], [], []⟩).map fun conf =>
    { conf with
      paramsLen := conf.paramsLen ++ [.op .exit]
      params := if scgi then conf.params ++ [.op .exit] else conf.params }

def ngxHttpUwsgiMergeParams : (List UInt8 → Option Nat) → List Source → Except Error Params :=
  mergeParams false

def ngxHttpScgiMergeParams : (List UInt8 → Option Nat) → List Source → Except Error Params :=
  mergeParams true

/-- Both functions leave the location without programs where it has no sources. -/
def locationParams (scgi : Bool) (index : List UInt8 → Option Nat) :
    List Source → Except Error (Option Params)
  | [] => .ok none
  | src :: rest => (mergeParams scgi index (src :: rest)).map some

/-- The lookup in `headers_hash`. -/
def ignores : Option Params → Header → Bool
  | none, _ => false
  | some conf, header => conf.headersNames.contains (header.key.map lowcase)

/-- `while (*(uintptr_t *) le.ip)` of the first pass, with `extra` bytes for each parameter. -/
def measureParams (env : Env) (lengths : List Word) (extra : Nat) :
    Nat → Engine → Nat → Option (Nat × Engine)
  | 0, _, _ => none
  | fuel + 1, le, len =>
    if opAt lengths le.ip = some .exit then some (len, le)
    else do
      let (keyLen, le) ← lenCode env lengths le
      let (valLen, le) ← lenLoop env lengths (lengths.length + 1) le 0
      measureParams env lengths extra fuel { le with ip := le.ip + 8 }
        (len + (extra + keyLen + valLen))

def flushParams : Option Params → Request → Request
  | none, r => r
  | some conf, r => flushComplexValue r conf.flushes

/-- `len` behind the first pass over the parameters, and the request behind their handlers. -/
def measure (env : Env) (conf : Option Params) (extra : Nat) (r : Request) (len : Nat) :
    Option (Nat × Request) :=
  match conf with
  | none => some (len, r)
  | some params => do
      let (len, le) ← measureParams env params.paramsLen extra (params.paramsLen.length + 1)
        (Engine.init (flushParams conf r)) len
      some (len, le.request)

/-- The loop of the first pass over the headers: `len`, and the indices of `ignored`. -/
def measureHeaders (ignores : Header → Bool) (size : Header → Nat) :
    List Header → Nat → Nat × List Nat → Nat × List Nat
  | [], _, state => state
  | header :: rest, i, (len, ignored) =>
    if ignores header then measureHeaders ignores size rest (i + 1) (len, ignored ++ [i])
    else measureHeaders ignores size rest (i + 1) (len + size header, ignored)

/-- The loop of the second pass over the headers. -/
def writeHeaders (ignored : List Nat) (bytes : Header → List UInt8) :
    List Header → Nat → List UInt8 → List UInt8
  | [], _, out => out
  | header :: rest, i, out =>
    if i ∈ ignored then writeHeaders ignored bytes rest (i + 1) out
    else writeHeaders ignored bytes rest (i + 1) (out ++ bytes header)

/-- `HTTP_<NAME>` of a header. -/
def headerName (header : Header) : List UInt8 := httpPrefix ++ header.key.map upcase

/-- What the two functions use of the request: the variables, the headers of all parts of the list,
the value of `Content-Length`, and the buffers of the body. -/
structure Input where
  r : Request
  headers : List Header
  contentLength : Option (List UInt8)
  body : List FastcgiRequest.Buf

/-- A request with nothing but the header `Content-Length`. -/
def bareInput (contentLength : Option (List UInt8)) : Input :=
  ⟨⟨[], ⟨[], [], by decide⟩, false, false⟩, [], contentLength, []⟩

/-- A configuration without variables. -/
def noVariables : Env := ⟨⟨[], []⟩, 0, fun _ => false, fun _ r => (false, r)⟩

/-- A buffer with what is written to it and its size, and the buffers behind it. -/
structure Packet where
  bytes : List UInt8
  size : Nat
  body : List FastcgiRequest.Buf
  deriving DecidableEq, Repr

/-! ### What the loops do -/

/-- A parameter: its key, and the pieces of its value. -/
structure Param where
  key : List UInt8
  codes : List Code
  deriving DecidableEq, Repr

def Param.lengthWords (scgi : Bool) (p : Param) : List Word :=
  (Code.copy (keyText scgi p.key)).lengthWords ++ p.codes.flatMap Code.lengthWords ++ [.op .exit]

def Param.valueWords (scgi : Bool) (p : Param) : List Word :=
  (Code.copy (keyText scgi p.key)).valueWords ++ p.codes.flatMap Code.valueWords ++ [.op .exit]

/-- A pass over the parameters: the keys and the values. -/
def evalParams (env : Env) : List Param → Request → List (List UInt8 × List UInt8) × Request
  | [], r => ([], r)
  | p :: params, r =>
    let (texts, r) := evalCodes env p.codes r
    let (pairs, r) := evalParams env params r
    ((p.key, texts.flatten) :: pairs, r)

/-- The bytes of pairs with `extra` bytes for each. -/
def pairsSize (scgi : Bool) (extra : Nat) (pairs : List (List UInt8 × List UInt8)) : Nat :=
  (pairs.map fun pair => extra + (keyText scgi pair.1).length + pair.2.length).sum

/-- A header parameter without a value only hides the header. -/
def kept (sources : List Source) : List Source :=
  sources.filter fun src => !(src.isHeader && src.value.isEmpty)

/-- The parameters are those of the sources. -/
def Describes (index : List UInt8 → Option Nat) : List Source → List Param → Prop :=
  List.Forall₂ fun src p => p.key = src.key ∧ Template index src.value p.codes

/-- The lower-case names behind `HTTP_`. -/
def headerNames (sources : List Source) : List (List UInt8) :=
  (sources.filter Source.isHeader).map fun src => (src.key.drop httpPrefix.length).map ngxTolower

/-- A parameter stands in the place of the header. -/
def overridden (sources : List Source) (header : Header) : Bool :=
  (headerNames sources).contains (header.key.map lowcase)

/-- The programs and the sources belong together. -/
structure Compiled (scgi : Bool) (index : List UInt8 → Option Nat) (sources : List Source)
    (params : List Param) (conf : Params) : Prop where
  paramsLen : conf.paramsLen = params.flatMap (Param.lengthWords scgi) ++ [.op .exit]
  values : conf.params =
    params.flatMap (Param.valueWords scgi) ++ (if scgi then [.op .exit] else [])
  each : Describes index (kept sources) params
  names : conf.headersNames = headerNames sources

/-- `Compiled`, for a location with or without sources. -/
inductive Location (scgi : Bool) (index : List UInt8 → Option Nat) :
    List Source → List Param → Option Params → Prop where
  | none : Location scgi index [] [] none
  | some {sources : List Source} {params : List Param} {conf : Params}
      (compiled : Compiled scgi index sources params conf) :
      Location scgi index sources params (some conf)

section Merge

variable {scgi : Bool} {index : List UInt8 → Option Nat} {sources : List Source} {conf merged : Params}

theorem addHeader_names (conf : Params) (src : Source) :
    (conf.addHeader src).headersNames = conf.headersNames ++ headerNames [src] := by
  rw [Params.addHeader, headerNames]
  cases header : src.isHeader with
  | true => simp [header]
  | false => simp [header]

theorem addHeader_programs (conf : Params) (src : Source) :
    (conf.addHeader src).paramsLen = conf.paramsLen ∧ (conf.addHeader src).params = conf.params := by
  rw [Params.addHeader]
  split <;> exact ⟨rfl, rfl⟩

theorem keyText_length {key : List UInt8} (plain : scgi = true → 0 ∉ key) :
    (keyText scgi key).length = key.length + scgi.toNat := by
  cases scgi with
  | false => rfl
  | true =>
    have all : key.takeWhile (· ≠ 0) = key := by
      rw [List.takeWhile_eq_self_iff]
      intro ch member
      simpa using fun zero : ch = 0 => plain rfl (zero ▸ member)
    rw [keyText, if_pos rfl, all, List.length_append]
    rfl

theorem mergeLoop_compiled (plain : scgi = true → ∀ src ∈ sources, 0 ∉ src.key)
    (done : mergeLoop scgi index sources conf = .ok merged) :
    ∃ params : List Param,
      merged.paramsLen = conf.paramsLen ++ params.flatMap (Param.lengthWords scgi) ∧
      merged.params = conf.params ++ params.flatMap (Param.valueWords scgi) ∧
      Describes index (kept sources) params ∧
      merged.headersNames = conf.headersNames ++ headerNames sources := by
  induction sources generalizing conf with
  | nil =>
    cases done
    exact ⟨[], by simp, by simp, .nil, by simp [headerNames]⟩
  | cons src rest ih =>
    have others : scgi = true → ∀ src ∈ rest, 0 ∉ src.key :=
      fun nul s member => plain nul s (List.mem_cons_of_mem _ member)
    obtain ⟨sameLen, sameValues⟩ := addHeader_programs conf src
    have names := addHeader_names conf src
    have header : headerNames (src :: rest) = headerNames [src] ++ headerNames rest := by
      rw [headerNames, headerNames, headerNames, ← List.map_append, ← List.filter_append,
        List.singleton_append]
    rw [mergeLoop] at done
    dsimp only at done
    by_cases hidden : (src.isHeader && src.value.isEmpty) = true
    · rw [if_pos hidden] at done
      obtain ⟨params, lengths, values, each, headers⟩ := ih others done
      refine ⟨params, by rw [lengths, sameLen], by rw [values, sameValues], ?_, ?_⟩
      · rw [kept, List.filter_cons_of_neg (by simp [hidden])]
        exact each
      · rw [headers, names, header, List.append_assoc]
    · rw [if_neg hidden] at done
      cases compiled : compileLoop index src.value.length src.value (Compile.init false) with
      | error error =>
        rw [compiled] at done
        cases done
      | ok sc =>
        rw [compiled] at done
        obtain ⟨codes, template, held⟩ :=
          compileLoop_template compiled (Nat.le_refl _) (init_holds false)
        have codes_eq : [] ++ (if (Compile.init false).zero then terminated codes else codes) =
            codes := rfl
        rw [codes_eq] at held
        dsimp only [Except.bind] at done
        obtain ⟨params, lengths, values, each, headers⟩ := ih others done
        have count : src.key.length + scgi.toNat = (keyText scgi src.key).length :=
          (keyText_length fun nul => plain nul src List.mem_cons_self).symm
        refine ⟨⟨src.key, codes⟩ :: params, ?_, ?_, ?_, ?_⟩
        · rw [lengths, sameLen, held.lengths, count]
          simp [Param.lengthWords, Code.lengthWords]
        · rw [values, sameValues, held.values, count]
          simp [Param.valueWords, Code.valueWords]
        · rw [kept, List.filter_cons_of_pos (by rw [(Bool.not_eq_true _).mp hidden]; rfl)]
          exact .cons ⟨rfl, template⟩ each
        · rw [headers, names, header, List.append_assoc]

theorem mergeParams_compiled (plain : scgi = true → ∀ src ∈ sources, 0 ∉ src.key)
    (done : mergeParams scgi index sources = .ok merged) :
    ∃ params, Compiled scgi index sources params merged := by
  rw [mergeParams] at done
  cases loop : mergeLoop scgi index sources ⟨[], [], [], []⟩ with
  | error error =>
    rw [loop] at done
    cases done
  | ok conf =>
    rw [loop] at done
    cases done
    obtain ⟨params, lengths, values, each, headers⟩ := mergeLoop_compiled plain loop
    refine ⟨params, ?_, ?_, each, headers⟩
    · exact congrArg (· ++ [Word.op .exit]) lengths
    · cases scgi with
      | false => exact values.trans (List.append_nil _).symm
      | true => exact congrArg (· ++ [Word.op .exit]) values

theorem locationParams_location {conf : Option Params}
    (plain : scgi = true → ∀ src ∈ sources, 0 ∉ src.key)
    (done : locationParams scgi index sources = .ok conf) :
    ∃ params, Location scgi index sources params conf := by
  cases sources with
  | nil =>
    cases done
    exact ⟨[], .none⟩
  | cons src rest =>
    rw [locationParams] at done
    cases merge : mergeParams scgi index (src :: rest) with
    | error error =>
      rw [merge] at done
      cases done
    | ok merged =>
      rw [merge] at done
      cases done
      obtain ⟨params, compiled⟩ := mergeParams_compiled plain merge
      exact ⟨params, .some compiled⟩

theorem Location.describes {params : List Param} {conf : Option Params}
    (location : Location scgi index sources params conf) : Describes index (kept sources) params := by
  cases location with
  | none => exact .nil
  | some compiled => exact compiled.each

theorem describes_keys {params : List Param} (each : Describes index sources params) :
    params.map Param.key = sources.map Source.key := by
  rw [Describes] at each
  induction each with
  | nil => rfl
  | cons head _ ih => rw [List.map_cons, List.map_cons, head.1, ih]

theorem Location.ignores_eq {params : List Param} {conf : Option Params}
    (location : Location scgi index sources params conf) : ignores conf = overridden sources := by
  cases location with
  | none => rfl
  | some compiled =>
    funext header
    rw [ignores, overridden, compiled.names]

end Merge

section Passes

variable {scgi : Bool} {env : Env} {before after : List Word} {p : Param} {params : List Param} {e le : Engine}

theorem lengthWords_split (before after : List Word) (p : Param) :
    before ++ (p.lengthWords scgi ++ after) = (before ++ (Code.copy (keyText scgi p.key)).lengthWords) ++
      (p.codes.flatMap Code.lengthWords ++ .op .exit :: after) := by
  simp only [Param.lengthWords, List.append_assoc, List.singleton_append]

theorem valueWords_split (before after : List Word) (p : Param) :
    before ++ (p.valueWords scgi ++ after) = (before ++ (Code.copy (keyText scgi p.key)).valueWords) ++
      (p.codes.flatMap Code.valueWords ++ .op .exit :: after) := by
  simp only [Param.valueWords, List.append_assoc, List.singleton_append]

theorem lengthWords_length (before : List Word) (p : Param) :
    8 * ((before ++ (Code.copy (keyText scgi p.key)).lengthWords) ++ p.codes.flatMap Code.lengthWords).length + 8 =
      8 * (before ++ p.lengthWords scgi).length := by
  simp only [Param.lengthWords, List.length_append, List.length_singleton]
  omega

theorem valueWords_length (before : List Word) (p : Param) :
    8 * ((before ++ (Code.copy (keyText scgi p.key)).valueWords) ++ p.codes.flatMap Code.valueWords).length + 8 =
      8 * (before ++ p.valueWords scgi).length := by
  simp only [Param.valueWords, List.length_append, List.length_singleton]
  omega

theorem lenCode_key (plain : Plain le) (here : le.ip = 8 * before.length) :
    lenCode env (before ++ (p.lengthWords scgi ++ after)) le = some ((keyText scgi p.key).length,
      { le with ip := 8 * (before ++ (Code.copy (keyText scgi p.key)).lengthWords).length }) := by
  rw [lengthWords_split, List.append_assoc]
  exact lenCode_code plain here

theorem lenLoop_value (plain : Plain le)
    (here : le.ip = 8 * (before ++ (Code.copy (keyText scgi p.key)).lengthWords).length) :
    lenLoop env (before ++ (p.lengthWords scgi ++ after))
        ((before ++ (p.lengthWords scgi ++ after)).length + 1) le 0 =
      some ((evalCodes env p.codes le.request).1.flatten.length, { le with
        ip := 8 * ((before ++ (Code.copy (keyText scgi p.key)).lengthWords) ++
          p.codes.flatMap Code.lengthWords).length
        request := (evalCodes env p.codes le.request).2 }) := by
  have enough := (codes_length_le p.codes).1
  rw [lengthWords_split]
  obtain ⟨fuel, count⟩ : ∃ fuel, ((before ++ (Code.copy (keyText scgi p.key)).lengthWords) ++
      (p.codes.flatMap Code.lengthWords ++ .op .exit :: after)).length + 1 =
        p.codes.length + (fuel + 1) := by
    refine ⟨_, (Nat.add_sub_cancel' ?_).symm.trans (congrArg _ (Nat.sub_add_cancel ?_).symm)⟩
    · simp only [List.length_append]
      omega
    · simp only [List.length_append, List.length_cons]
      omega
  have stop : opAt ((before ++ (Code.copy (keyText scgi p.key)).lengthWords) ++
      (p.codes.flatMap Code.lengthWords ++ .op .exit :: after))
      (8 * ((before ++ (Code.copy (keyText scgi p.key)).lengthWords) ++ p.codes.flatMap Code.lengthWords).length) =
        some .exit := by
    rw [← List.append_assoc]
    exact opAt_append rfl
  rw [count, lenLoop_codes (fuel + 1) 0 plain here, lenLoop, if_pos stop, Nat.zero_add,
    ← List.length_flatten]

theorem valueCode_key (plain : Plain e) (here : e.ip = 8 * before.length) :
    valueCode env (before ++ (p.valueWords scgi ++ after)) e = some { e with
      ip := 8 * (before ++ (Code.copy (keyText scgi p.key)).valueWords).length
      out := e.out ++ keyText scgi p.key } := by
  rw [valueWords_split, List.append_assoc]
  exact valueCode_code plain here

theorem valueLoop_value (plain : Plain e)
    (here : e.ip = 8 * (before ++ (Code.copy (keyText scgi p.key)).valueWords).length) :
    valueLoop env (before ++ (p.valueWords scgi ++ after))
        ((before ++ (p.valueWords scgi ++ after)).length + 1) e =
      some { e with
        ip := 8 * ((before ++ (Code.copy (keyText scgi p.key)).valueWords) ++
          p.codes.flatMap Code.valueWords).length
        out := e.out ++ (evalCodes env p.codes e.request).1.flatten
        request := (evalCodes env p.codes e.request).2 } := by
  have enough := (codes_length_le p.codes).2
  rw [valueWords_split]
  obtain ⟨fuel, count⟩ : ∃ fuel, ((before ++ (Code.copy (keyText scgi p.key)).valueWords) ++
      (p.codes.flatMap Code.valueWords ++ .op .exit :: after)).length + 1 =
        p.codes.length + (fuel + 1) := by
    refine ⟨_, (Nat.add_sub_cancel' ?_).symm.trans (congrArg _ (Nat.sub_add_cancel ?_).symm)⟩
    · simp only [List.length_append]
      omega
    · simp only [List.length_append, List.length_cons]
      omega
  have stop : opAt ((before ++ (Code.copy (keyText scgi p.key)).valueWords) ++
      (p.codes.flatMap Code.valueWords ++ .op .exit :: after))
      (8 * ((before ++ (Code.copy (keyText scgi p.key)).valueWords) ++ p.codes.flatMap Code.valueWords).length) =
        some .exit := by
    rw [← List.append_assoc]
    exact opAt_append rfl
  rw [count, valueLoop_codes (fuel + 1) plain here, valueLoop, if_pos stop]

theorem key_op (scgi : Bool) (p : Param) (before after : List Word) :
    opAt (before ++ (p.lengthWords scgi ++ after)) (8 * before.length) ≠ some .exit ∧
      opAt (before ++ (p.valueWords scgi ++ after)) (8 * before.length) ≠ some .exit := by
  rw [lengthWords_split, valueWords_split, List.append_assoc, List.append_assoc]
  exact ⟨lengthWords_op _, valueWords_op _⟩

theorem params_length_le (scgi : Bool) (params : List Param) :
    params.length ≤ (params.flatMap (Param.lengthWords scgi)).length ∧
      params.length ≤ (params.flatMap (Param.valueWords scgi)).length := by
  induction params with
  | nil => exact ⟨Nat.le_refl 0, Nat.le_refl 0⟩
  | cons p params ih =>
    rw [List.flatMap_cons, List.flatMap_cons, List.length_append, List.length_append,
      List.length_cons]
    have words : 1 ≤ (p.lengthWords scgi).length ∧ 1 ≤ (p.valueWords scgi).length := by
      simp only [Param.lengthWords, Param.valueWords, List.length_append, List.length_singleton]
      omega
    omega

theorem evalParams_cons (p : Param) (params : List Param) (r : Request) :
    evalParams env (p :: params) r =
      ((p.key, (evalCodes env p.codes r).1.flatten) ::
        (evalParams env params (evalCodes env p.codes r).2).1,
        (evalParams env params (evalCodes env p.codes r).2).2) := rfl

theorem evalParams_keys (params : List Param) (r : Request) :
    (evalParams env params r).1.map Prod.fst = params.map Param.key := by
  induction params generalizing r with
  | nil => rfl
  | cons p params ih => rw [evalParams_cons, List.map_cons, List.map_cons, ih]

theorem measureParams_words (extra fuel len : Nat) (plain : Plain le)
    (here : le.ip = 8 * before.length) (enough : params.length < fuel) :
    measureParams env (before ++ (params.flatMap (Param.lengthWords scgi) ++ .op .exit :: after)) extra fuel
        le len =
      some (len + pairsSize scgi extra (evalParams env params le.request).1, { le with
        ip := 8 * (before ++ params.flatMap (Param.lengthWords scgi)).length
        request := (evalParams env params le.request).2 }) := by
  obtain ⟨fuel, rfl⟩ : ∃ more, fuel = more + 1 := ⟨fuel - 1, by omega⟩
  induction params generalizing before le len fuel with
  | nil =>
    have stop : opAt (before ++ .op .exit :: after) le.ip = some .exit := opAt_append here
    rw [List.flatMap_nil, List.nil_append, List.append_nil, measureParams, if_pos stop, ← here]
    rfl
  | cons p params ih =>
    rw [List.length_cons] at enough
    obtain ⟨fuel, rfl⟩ : ∃ more, fuel = more + 1 := ⟨fuel - 1, by omega⟩
    have words : before ++ ((p :: params).flatMap (Param.lengthWords scgi) ++ .op .exit :: after) =
        before ++ (p.lengthWords scgi ++ (params.flatMap (Param.lengthWords scgi) ++ .op .exit :: after)) := by
      rw [List.flatMap_cons, List.append_assoc]
    have shift : before ++ (p.lengthWords scgi ++ (params.flatMap (Param.lengthWords scgi) ++ .op .exit :: after)) =
        (before ++ p.lengthWords scgi) ++ (params.flatMap (Param.lengthWords scgi) ++ .op .exit :: after) :=
      (List.append_assoc ..).symm
    have go := (key_op scgi p before (params.flatMap (Param.lengthWords scgi) ++ .op .exit :: after)).1
    have behind : Plain { le with ip := 8 * (before ++ (Code.copy (keyText scgi p.key)).lengthWords).length } :=
      ⟨plain.skip, plain.isArgs, plain.quote, plain.flushed⟩
    have next : Plain { le with
        ip := 8 * (before ++ p.lengthWords scgi).length
        request := (evalCodes env p.codes le.request).2 } :=
      ⟨plain.skip, plain.isArgs, plain.quote, plain.flushed⟩
    rw [words, measureParams, here, if_neg go, lenCode_key plain here]
    dsimp only [Option.bind_eq_bind, Option.bind_some]
    rw [lenLoop_value behind rfl]
    dsimp only [Option.bind_some]
    rw [lengthWords_length, shift, ih _ next rfl fuel (by omega), evalParams_cons,
      List.flatMap_cons, ← List.append_assoc before]
    simp only [pairsSize, List.map_cons, List.sum_cons, Nat.add_assoc]

theorem init_plain (r : Request) : Plain (Engine.init r) := ⟨rfl, rfl, rfl, rfl⟩

theorem measure_location {index : List UInt8 → Option Nat} {sources : List Source}
    {conf : Option Params} (location : Location scgi index sources params conf) (extra : Nat)
    (r : Request) (len : Nat) :
    measure env conf extra r len =
      some (len + pairsSize scgi extra (evalParams env params (flushParams conf r)).1,
        (evalParams env params (flushParams conf r)).2) := by
  cases location with
  | none => rfl
  | some compiled =>
    rename_i conf
    have count : params.length < conf.paramsLen.length + 1 := by
      have enough := (params_length_le scgi params).1
      rw [compiled.paramsLen, List.length_append]
      omega
    have run := @measureParams_words scgi env [] [] params
      (Engine.init (flushParams (some conf) r)) extra (conf.paramsLen.length + 1) len
      (init_plain _) rfl count
    rw [List.nil_append, ← compiled.paramsLen] at run
    rw [measure, run]
    rfl

end Passes

section Headers

variable {ignores : Header → Bool}

/-- The names and values of these headers. -/
def headerPairs (headers : List Header) : List (List UInt8 × List UInt8) :=
  headers.map fun header => (headerName header, header.value)

/-- The headers that no parameter overrides. -/
def sent (ignores : Header → Bool) (headers : List Header) : List Header :=
  headers.filter fun header => !ignores header

theorem sent_cons (header : Header) (rest : List Header) :
    sent ignores (header :: rest) =
      if ignores header then sent ignores rest else header :: sent ignores rest := by
  rw [sent, List.filter_cons]
  cases ignores header <;> rfl

theorem measureHeaders_eq (size : Header → Nat) (headers : List Header) (i len : Nat)
    (ignored : List Nat) :
    measureHeaders ignores size headers i (len, ignored) =
      (len + ((sent ignores headers).map size).sum,
        ignored ++ ((headers.zipIdx i).filter fun pair => ignores pair.1).map Prod.snd) := by
  induction headers generalizing i len ignored with
  | nil => exact Prod.ext rfl (List.append_nil _).symm
  | cons header rest ih =>
    rw [measureHeaders, List.zipIdx_cons, sent_cons, List.filter_cons]
    cases hidden : ignores header with
    | true => simp [ih]
    | false => simp [ih, Nat.add_assoc]

theorem writeHeaders_eq {ignored : List Nat} (bytes : Header → List UInt8) {headers : List Header}
    {i : Nat} (same : ∀ pair ∈ headers.zipIdx i, pair.2 ∈ ignored ↔ ignores pair.1 = true)
    (out : List UInt8) :
    writeHeaders ignored bytes headers i out = out ++ (sent ignores headers).flatMap bytes := by
  induction headers generalizing i out with
  | nil => exact (List.append_nil _).symm
  | cons header rest ih =>
    rw [List.zipIdx_cons] at same
    have here := same _ List.mem_cons_self
    have later : ∀ pair ∈ rest.zipIdx (i + 1), pair.2 ∈ ignored ↔ ignores pair.1 = true :=
      fun pair inside => same pair (List.mem_cons_of_mem _ inside)
    rw [writeHeaders, sent_cons]
    by_cases hidden : i ∈ ignored
    · rw [if_pos hidden, if_pos (here.mp hidden), ih later]
    · rw [if_neg hidden, if_neg fun ignored => hidden (here.mpr ignored), ih later,
        List.flatMap_cons, List.append_assoc]

end Headers

end NgxFormal.Http.Cgi
