import NgxFormal.Http.CgiParams
import NgxFormal.Lib.Uwsgi

/-! `ngx_http_uwsgi_create_request`, and when its packet says the parameters and headers. -/

namespace NgxFormal.Http.Cgi

open NgxFormal.Core
open NgxFormal.Lib
open Complex
open FastcgiRequest (Header httpPrefix)

/-- What `ngx_http_uwsgi_create_request` uses of the location. `ngx_http_uwsgi_modifier_bounds`
keeps both modifiers in a byte. -/
structure UwsgiConf where
  params : Option Params
  modifier1 : UInt8
  modifier2 : UInt8
  uwsgiString : List UInt8
  passRequestHeaders : Bool
  passRequestBody : Bool
  deriving DecidableEq, Repr

def writeShort (len : Nat) : List UInt8 :=
  [UInt8.ofNat (len &&& 0xff), UInt8.ofNat ((len >>> 8) &&& 0xff)]

/-- The second pass over the parameters, with both engines on one request. -/
def uwsgiWriteParams (env : Env) (lengths values : List Word) :
    Nat → Engine → Engine → Option Engine
  | 0, _, _ => none
  | fuel + 1, le, e =>
    if opAt lengths le.ip = some .exit then some e
    else do
      let (keyLen, le) ← lenCode env lengths le
      -- the cast to `u_char`
      let keyLen := keyLen % 256
      let (valLen, le) ← lenLoop env lengths (lengths.length + 1) le 0
      let e := { e with out := e.out ++ writeShort keyLen, request := le.request }
      let e ← valueCode env values e
      let e := { e with out := e.out ++ writeShort valLen }
      let e ← valueLoop env values (values.length + 1) e
      uwsgiWriteParams env lengths values fuel
        { le with ip := le.ip + 8, request := e.request } { e with ip := e.ip + 8 }

def uwsgiHeaderSize (header : Header) : Nat :=
  2 + httpPrefix.length + header.key.length + 2 + header.value.length

def uwsgiHeader (header : Header) : List UInt8 :=
  writeShort (httpPrefix.length + header.key.length) ++ headerName header ++
    writeShort header.value.length ++ header.value

def uwsgiWrite (env : Env) (conf : Option Params) (r : Request) (out : List UInt8) :
    Option (List UInt8) :=
  match conf with
  | none => some out
  | some params => do
      let e ← uwsgiWriteParams env params.paramsLen params.params (params.paramsLen.length + 1)
        (Engine.init r) { Engine.init r with out := out }
      some e.out

/-- `ngx_http_uwsgi_create_request`; `none` stands for an engine that leaves its program. -/
def ngxHttpUwsgiCreateRequest (env : Env) (conf : UwsgiConf) (input : Input) : Option Packet := do
  let (len, r) ← measure env conf.params 4 input.r 0
  let headers := if conf.passRequestHeaders then input.headers else []
  let (len, ignored) := measureHeaders (ignores conf.params) uwsgiHeaderSize headers 0 (len, [])
  let len := len + conf.uwsgiString.length
  let out := [conf.modifier1, UInt8.ofNat (len &&& 0xff), UInt8.ofNat ((len >>> 8) &&& 0xff),
    conf.modifier2]
  let out ← uwsgiWrite env conf.params r out
  let out := writeHeaders ignored uwsgiHeader headers 0 out ++ conf.uwsgiString
  some ⟨out, len + 4, if conf.passRequestBody then input.body else []⟩

/-- A parameter of the second pass: its key, the length of its value, and the value, of which each
has the handlers of the variables called. -/
structure Entry where
  key : List UInt8
  valLen : Nat
  value : List UInt8
  deriving DecidableEq, Repr

def evalEntries (env : Env) : List Param → Request → List Entry × Request
  | [], r => ([], r)
  | p :: params, r =>
    let (texts, r) := evalCodes env p.codes r
    let (values, r) := evalCodes env p.codes r
    let (entries, r) := evalEntries env params r
    (⟨p.key, texts.flatten.length, values.flatten⟩ :: entries, r)

def Entry.bytes (entry : Entry) : List UInt8 :=
  writeShort (entry.key.length % 256) ++ entry.key ++ writeShort entry.valLen ++ entry.value

theorem writeShort_eq (len : Nat) : writeShort len = Uwsgi.short len := by
  have byte : ∀ n, UInt8.ofNat (n &&& 0xff) = UInt8.ofNat n := by
    intro n
    have mask : n &&& 0xff = n % 2 ^ 8 := Nat.and_two_pow_sub_one_eq_mod n 8
    rw [← UInt8.toNat_inj, UInt8.toNat_ofNat', UInt8.toNat_ofNat', mask, Nat.mod_mod]
  have high : len >>> 8 = len / 256 := Nat.shiftRight_eq_div_pow len 8
  rw [writeShort, byte, byte, high, Uwsgi.short]

theorem evalEntries_cons (env : Env) (p : Param) (params : List Param) (r : Request) :
    evalEntries env (p :: params) r =
      (⟨p.key, (evalCodes env p.codes r).1.flatten.length,
          (evalCodes env p.codes (evalCodes env p.codes r).2).1.flatten⟩ ::
        (evalEntries env params (evalCodes env p.codes (evalCodes env p.codes r).2).2).1,
        (evalEntries env params (evalCodes env p.codes (evalCodes env p.codes r).2).2).2) := rfl

section Write

variable {env : Env} {lengthsBefore valuesBefore after behind : List Word} {params : List Param} {le e : Engine}

theorem uwsgiWriteParams_words (fuel : Nat) (plain : Plain le) (plain' : Plain e)
    (here : le.ip = 8 * lengthsBefore.length) (here' : e.ip = 8 * valuesBefore.length)
    (one : le.request = e.request) (enough : params.length < fuel) :
    uwsgiWriteParams env
        (lengthsBefore ++ (params.flatMap (Param.lengthWords false) ++ .op .exit :: after))
        (valuesBefore ++ (params.flatMap (Param.valueWords false) ++ behind)) fuel le e =
      some { e with
        ip := 8 * (valuesBefore ++ params.flatMap (Param.valueWords false)).length
        out := e.out ++ (evalEntries env params e.request).1.flatMap Entry.bytes
        request := (evalEntries env params e.request).2 } := by
  obtain ⟨fuel, rfl⟩ : ∃ more, fuel = more + 1 := ⟨fuel - 1, by omega⟩
  induction params generalizing lengthsBefore valuesBefore le e fuel with
  | nil =>
    have stop : opAt (lengthsBefore ++ .op .exit :: after) le.ip = some .exit := opAt_append here
    rw [List.flatMap_nil, List.flatMap_nil, List.nil_append, List.append_nil, uwsgiWriteParams,
      if_pos stop, ← here']
    simp [evalEntries]
  | cons p params ih =>
    rw [List.length_cons] at enough
    obtain ⟨fuel, rfl⟩ : ∃ more, fuel = more + 1 := ⟨fuel - 1, by omega⟩
    let lengthsAfter := params.flatMap (Param.lengthWords false) ++ .op .exit :: after
    let valuesAfter := params.flatMap (Param.valueWords false) ++ behind
    have lengths : lengthsBefore ++
        ((p :: params).flatMap (Param.lengthWords false) ++ .op .exit :: after) =
          lengthsBefore ++ (p.lengthWords false ++ lengthsAfter) := by
      rw [List.flatMap_cons, List.append_assoc]
    have values : valuesBefore ++ ((p :: params).flatMap (Param.valueWords false) ++ behind) =
        valuesBefore ++ (p.valueWords false ++ valuesAfter) := by
      rw [List.flatMap_cons, List.append_assoc]
    have go := (key_op false p lengthsBefore lengthsAfter).1
    have keyEnd : Plain { le with
        ip := 8 * (lengthsBefore ++ (Code.copy (keyText false p.key)).lengthWords).length } :=
      ⟨plain.skip, plain.isArgs, plain.quote, plain.flushed⟩
    have key : Plain { e with
        out := e.out ++ writeShort ((keyText false p.key).length % 256)
        request := (evalCodes env p.codes le.request).2 } :=
      ⟨plain'.skip, plain'.isArgs, plain'.quote, plain'.flushed⟩
    have value : Plain { e with
        ip := 8 * (valuesBefore ++ (Code.copy (keyText false p.key)).valueWords).length
        out := e.out ++ writeShort ((keyText false p.key).length % 256) ++ keyText false p.key ++
          writeShort (evalCodes env p.codes le.request).1.flatten.length
        request := (evalCodes env p.codes le.request).2 } :=
      ⟨plain'.skip, plain'.isArgs, plain'.quote, plain'.flushed⟩
    rw [lengths, values, uwsgiWriteParams, here, if_neg go, lenCode_key plain here]
    dsimp only [Option.bind_eq_bind, Option.bind_some]
    rw [lenLoop_value keyEnd rfl]
    dsimp only [Option.bind_some]
    rw [valueCode_key key here']
    dsimp only [Option.bind_some]
    rw [valueLoop_value value rfl]
    dsimp only [Option.bind_some]
    rw [lengthWords_length, valueWords_length]
    have lengthsShift : lengthsBefore ++ (p.lengthWords false ++ lengthsAfter) =
        (lengthsBefore ++ p.lengthWords false) ++ lengthsAfter := (List.append_assoc ..).symm
    have valuesShift : valuesBefore ++ (p.valueWords false ++ valuesAfter) =
        (valuesBefore ++ p.valueWords false) ++ valuesAfter := (List.append_assoc ..).symm
    rw [lengthsShift, valuesShift]
    have rest := @ih (lengthsBefore ++ p.lengthWords false) (valuesBefore ++ p.valueWords false)
      { le with
        ip := 8 * (lengthsBefore ++ p.lengthWords false).length
        request := (evalCodes env p.codes (evalCodes env p.codes le.request).2).2 }
      { e with
        ip := 8 * (valuesBefore ++ p.valueWords false).length
        out := e.out ++ writeShort ((keyText false p.key).length % 256) ++ keyText false p.key ++
          writeShort (evalCodes env p.codes le.request).1.flatten.length ++
          (evalCodes env p.codes (evalCodes env p.codes le.request).2).1.flatten
        request := (evalCodes env p.codes (evalCodes env p.codes le.request).2).2 }
      ⟨plain.skip, plain.isArgs, plain.quote, plain.flushed⟩
      ⟨plain'.skip, plain'.isArgs, plain'.quote, plain'.flushed⟩ rfl rfl rfl fuel (by omega)
    rw [rest, one, evalEntries_cons, List.flatMap_cons, List.flatMap_cons,
      ← List.append_assoc valuesBefore]
    have written : ∀ entry : Entry, entry.bytes = writeShort (entry.key.length % 256) ++ entry.key ++
        writeShort entry.valLen ++ entry.value := fun _ => rfl
    rw [written]
    simp only [keyText, Bool.false_eq_true, if_false, List.append_assoc]

theorem uwsgiWrite_location {index : List UInt8 → Option Nat} {sources : List Source}
    {conf : Option Params} (location : Location false index sources params conf) (r : Request)
    (out : List UInt8) :
    uwsgiWrite env conf r out = some (out ++ (evalEntries env params r).1.flatMap Entry.bytes) := by
  cases location with
  | none => exact congrArg some (List.append_nil out).symm
  | some compiled =>
    rename_i conf
    have values : conf.params = params.flatMap (Param.valueWords false) ++ [] := compiled.values
    have count : params.length < conf.paramsLen.length + 1 := by
      have enough := (params_length_le false params).1
      rw [compiled.paramsLen, List.length_append]
      omega
    have run := @uwsgiWriteParams_words env [] [] [] [] params (Engine.init r)
      { Engine.init r with out := out } (conf.paramsLen.length + 1) (init_plain r)
      ⟨rfl, rfl, rfl, rfl⟩ rfl rfl rfl count
    rw [List.nil_append, List.nil_append, ← values, ← compiled.paramsLen] at run
    rw [uwsgiWrite]
    dsimp only
    rw [run]
    rfl

end Write

def Entry.pair (entry : Entry) : List UInt8 × List UInt8 := (entry.key, entry.value)

/-- The key has a length of one byte, and the length of the value in two bytes is that of what is
written. -/
structure Entry.Exact (entry : Entry) : Prop where
  key : entry.key.length < 256
  value : entry.valLen % 65536 = entry.value.length

section Entries

variable {entry : Entry} {entries : List Entry}

theorem entry_length (entry : Entry) : entry.bytes.length = (Uwsgi.encodePair entry.pair).length := by
  rw [Uwsgi.encodePair_length, Entry.bytes, Entry.pair]
  simp only [writeShort, List.length_append, List.length_cons, List.length_nil]
  omega

theorem entry_bytes_iff :
    entry.bytes = Uwsgi.encodePair entry.pair ↔
      entry.key.length % 256 % 65536 = entry.key.length % 65536 ∧
        entry.valLen % 65536 = entry.value.length % 65536 := by
  have pair : Uwsgi.encodePair entry.pair =
      Uwsgi.short entry.key.length ++ entry.key ++ Uwsgi.short entry.value.length ++ entry.value := by
    simp only [Uwsgi.encodePair, Uwsgi.encodeText, Entry.pair, List.append_assoc]
  rw [Entry.bytes, pair, writeShort_eq, writeShort_eq, ← Uwsgi.short_eq_iff, ← Uwsgi.short_eq_iff]
  constructor
  · intro same
    have front := List.append_cancel_right same
    obtain ⟨first, second⟩ := List.append_inj front (by simp [Uwsgi.short])
    exact ⟨List.append_cancel_right first, second⟩
  · rintro ⟨first, second⟩
    rw [first, second]

theorem entry_exact_iff :
    entry.Exact ↔ entry.bytes = Uwsgi.encodePair entry.pair ∧ Uwsgi.Short entry.pair := by
  rw [entry_bytes_iff, Uwsgi.Short, Entry.pair]
  dsimp only
  constructor
  · rintro ⟨key, value⟩
    refine ⟨⟨?_, ?_⟩, ?_, ?_⟩ <;> omega
  · rintro ⟨⟨key, value⟩, small, small'⟩
    refine ⟨?_, ?_⟩
    · omega
    · omega

theorem entries_length (entries : List Entry) :
    (entries.flatMap Entry.bytes).length =
      (Uwsgi.encodePairs (entries.map Entry.pair)).length := by
  induction entries with
  | nil => rfl
  | cons entry entries ih =>
    rw [List.flatMap_cons, List.map_cons, Uwsgi.encodePairs_cons, List.length_append,
      List.length_append, entry_length, ih]

theorem entries_bytes_iff :
    entries.flatMap Entry.bytes = Uwsgi.encodePairs (entries.map Entry.pair) ↔
      ∀ entry ∈ entries, entry.bytes = Uwsgi.encodePair entry.pair := by
  induction entries with
  | nil => exact ⟨fun _ => by simp, fun _ => rfl⟩
  | cons entry entries ih =>
    rw [List.flatMap_cons, List.map_cons, Uwsgi.encodePairs_cons, List.forall_mem_cons, ← ih]
    constructor
    · intro same
      exact List.append_inj same (entry_length entry)
    · rintro ⟨first, others⟩
      rw [first, others]

theorem uwsgiHeader_eq (header : Header) :
    uwsgiHeader header = Uwsgi.encodePair (headerName header, header.value) := by
  have name : (headerName header).length = httpPrefix.length + header.key.length := by
    rw [headerName, List.length_append, List.length_map]
  rw [uwsgiHeader, Uwsgi.encodePair, Uwsgi.encodeText, Uwsgi.encodeText, name, writeShort_eq,
    writeShort_eq, List.append_assoc _ (Uwsgi.short header.value.length)]

theorem uwsgiHeaders_eq (headers : List Header) :
    headers.flatMap uwsgiHeader = Uwsgi.encodePairs (headerPairs headers) := by
  rw [Uwsgi.encodePairs, headerPairs, List.flatMap_map]
  exact List.flatMap_congr fun header _ => uwsgiHeader_eq header

theorem uwsgiHeaders_size (headers : List Header) :
    (headers.map uwsgiHeaderSize).sum = (Uwsgi.encodePairs (headerPairs headers)).length := by
  induction headers with
  | nil => rfl
  | cons header rest ih =>
    rw [headerPairs, List.map_cons, List.map_cons, List.sum_cons, ih, Uwsgi.encodePairs_cons,
      List.length_append, Uwsgi.encodePair_length, headerPairs]
    simp only [uwsgiHeaderSize, headerName, List.length_append, List.length_map]
    omega

theorem encodePairs_length (pairs : List (List UInt8 × List UInt8)) :
    (Uwsgi.encodePairs pairs).length = pairsSize false 4 pairs := by
  induction pairs with
  | nil => rfl
  | cons pair pairs ih =>
    rw [Uwsgi.encodePairs_cons, List.length_append, Uwsgi.encodePair_length, ih]
    simp only [pairsSize, keyText, Bool.false_eq_true, if_false, List.map_cons, List.sum_cons]
    omega

end Entries

section Request

variable {index : List UInt8 → Option Nat} {sources : List Source} {params : List Param}
  {conf : UwsgiConf}

def UwsgiConf.headers (conf : UwsgiConf) (sources : List Source) (input : Input) :
    List (List UInt8 × List UInt8) :=
  headerPairs (sent (overridden sources) (if conf.passRequestHeaders then input.headers else []))

/-- The size of a block with these parameters, the headers and the string. -/
def UwsgiConf.size (conf : UwsgiConf) (sources : List Source) (input : Input)
    (pairs : List (List UInt8 × List UInt8)) : Nat :=
  (Uwsgi.encodePairs (pairs ++ conf.headers sources input)).length + conf.uwsgiString.length

theorem encodePairs_append (pairs more : List (List UInt8 × List UInt8)) :
    Uwsgi.encodePairs (pairs ++ more) = Uwsgi.encodePairs pairs ++ Uwsgi.encodePairs more :=
  List.flatMap_append

theorem uwsgiRequest_eq (location : Location false index sources params conf.params) (env : Env)
    (input : Input) {first : List (List UInt8 × List UInt8) × Request}
    {entries : List Entry × Request}
    (pass : evalParams env params (flushParams conf.params input.r) = first)
    (again : evalEntries env params first.2 = entries) :
    ngxHttpUwsgiCreateRequest env conf input = some
      ⟨conf.modifier1 :: (Uwsgi.short (conf.size sources input first.1) ++ conf.modifier2 ::
          (entries.1.flatMap Entry.bytes ++ Uwsgi.encodePairs (conf.headers sources input) ++
            conf.uwsgiString)),
        conf.size sources input first.1 + 4, if conf.passRequestBody then input.body else []⟩ := by
  rw [ngxHttpUwsgiCreateRequest]
  dsimp only [Option.bind_eq_bind]
  rw [measure_location location, pass]
  dsimp only [Option.bind_some]
  rw [measureHeaders_eq, location.ignores_eq]
  dsimp only
  rw [uwsgiWrite_location location, again]
  dsimp only [Option.bind_some]
  rw [writeHeaders_eq uwsgiHeader (by simpa using FastcgiRequest.mem_ignored), uwsgiHeaders_eq, uwsgiHeaders_size]
  have count : 0 + pairsSize false 4 first.1 +
      (Uwsgi.encodePairs (headerPairs (sent (overridden sources)
        (if conf.passRequestHeaders then input.headers else [])))).length +
        conf.uwsgiString.length = conf.size sources input first.1 := by
    rw [UwsgiConf.size, encodePairs_append, List.length_append, encodePairs_length first.1,
      Nat.zero_add]
    rfl
  have start : ∀ len, [conf.modifier1, UInt8.ofNat (len &&& 0xff), UInt8.ofNat ((len >>> 8) &&& 0xff),
      conf.modifier2] = conf.modifier1 :: (Uwsgi.short len ++ [conf.modifier2]) := by
    intro len
    rw [← writeShort_eq]
    rfl
  rw [count, start]
  simp only [UwsgiConf.headers, List.append_assoc, List.cons_append, List.nil_append]

/-- The packet holds these pairs with the string behind them, and fits into its buffer. -/
def UwsgiConf.Decodes (conf : UwsgiConf) (packet : Packet) (pairs : List (List UInt8 × List UInt8))
    (string : List UInt8) : Prop :=
  ∃ vars, Uwsgi.decodeHeader packet.bytes =
      some (conf.modifier1, (vars ++ string).length, conf.modifier2, vars ++ string) ∧
    Uwsgi.decodePairs vars = some pairs ∧ packet.bytes.length ≤ packet.size

theorem decodes_iff {len : Nat} {entries : List Entry} {headers : List (List UInt8 × List UInt8)}
    {string : List UInt8} {body : List FastcgiRequest.Buf} :
    conf.Decodes ⟨conf.modifier1 :: (Uwsgi.short len ++ conf.modifier2 ::
        (entries.flatMap Entry.bytes ++ Uwsgi.encodePairs headers ++ conf.uwsgiString)), len + 4, body⟩
        (entries.map Entry.pair ++ headers) string ↔
      ((∀ entry ∈ entries, entry.Exact) ∧
        len % 65536 = (Uwsgi.encodePairs (entries.map Entry.pair ++ headers)).length +
          conf.uwsgiString.length) ∧ string = conf.uwsgiString := by
  have head : ∀ rest, Uwsgi.decodeHeader
      (conf.modifier1 :: (Uwsgi.short len ++ conf.modifier2 :: rest)) =
        some (conf.modifier1, len % 65536, conf.modifier2, rest) := by
    intro rest
    rw [← Uwsgi.short_value]
    rfl
  rw [UwsgiConf.Decodes]
  dsimp only
  rw [head]
  constructor
  · rintro ⟨vars, header, pairs, _⟩
    obtain ⟨small, written⟩ := Uwsgi.decodePairs_iff.mp pairs
    simp only [Option.some_inj, Prod.mk.injEq, true_and] at header
    obtain ⟨size, rest⟩ := header
    rw [written, encodePairs_append, List.append_assoc, List.append_assoc] at rest
    obtain ⟨params, behind⟩ := List.append_inj rest (entries_length entries)
    have string_eq := List.append_cancel_left behind
    have bytes := entries_bytes_iff.mp params
    refine ⟨⟨?_, ?_⟩, string_eq.symm⟩
    · intro entry member
      have short := small entry.pair (List.mem_append_left _ (List.mem_map_of_mem member))
      exact entry_exact_iff.mpr ⟨bytes entry member, short⟩
    · rw [size, written, List.length_append, string_eq]
  · rintro ⟨⟨each, size⟩, rfl⟩
    have below := Nat.mod_lt len (by decide : 0 < 65536)
    have small := Uwsgi.short_of_length (by omega :
      (Uwsgi.encodePairs (entries.map Entry.pair ++ headers)).length < 65536)
    have params := entries_bytes_iff.mpr fun entry member => (entry_exact_iff.mp (each entry member)).1
    refine ⟨_, ?_, Uwsgi.decodePairs_iff.mpr ⟨small, rfl⟩, ?_⟩
    · rw [List.length_append, ← size, params, encodePairs_append]
    · have fits := Nat.mod_le len 65536
      rw [params, ← encodePairs_append]
      simp only [Uwsgi.short, List.length_cons, List.length_append, List.length_nil] at size ⊢
      omega

/-- Each parameter is exact, and the size is that of what follows. -/
structure UwsgiConf.Exact (conf : UwsgiConf) (sources : List Source) (input : Input)
    (first : List (List UInt8 × List UInt8)) (entries : List Entry) : Prop where
  each : ∀ entry ∈ entries, entry.Exact
  size : conf.size sources input first % 65536 = conf.size sources input (entries.map Entry.pair)

/-- What the packet says of itself and of its contents is right if and only if each key has at most
255 bytes, each value has the length that the second pass has counted for it, and the size that the
first pass has counted is that of the contents, all below 2^16. -/
theorem uwsgi_request_iff (compiled : locationParams false index sources = .ok conf.params) :
    ∃ params, Describes index (kept sources) params ∧ ∀ env input first entries,
      evalParams env params (flushParams conf.params input.r) = first →
      evalEntries env params first.2 = entries →
      ∃ packet, ngxHttpUwsgiCreateRequest env conf input = some packet ∧ ∀ string,
        (conf.Decodes packet (entries.1.map Entry.pair ++ conf.headers sources input) string ↔
          conf.Exact sources input first.1 entries.1 ∧ string = conf.uwsgiString) := by
  obtain ⟨params, location⟩ := locationParams_location (fun no => absurd no (by decide)) compiled
  refine ⟨params, location.describes, ?_⟩
  intro env input first entries pass again
  refine ⟨_, uwsgiRequest_eq location env input pass again, ?_⟩
  intro string
  have right := @decodes_iff conf (conf.size sources input first.1) entries.1
    (conf.headers sources input) string (if conf.passRequestBody then input.body else [])
  rw [right]
  constructor
  · rintro ⟨⟨each, size⟩, same⟩
    exact ⟨⟨each, size⟩, same⟩
  · rintro ⟨⟨each, size⟩, same⟩
    exact ⟨⟨each, size⟩, same⟩

end Request

/-- `uwsgi_param A $m`, where `$m` is the variable with the index 0, and `uwsgi_param HTTP_X ""`. -/
theorem uwsgi_request_params : ∃ conf : UwsgiConf,
    locationParams false (onlyVariable (Times.bytes "m"))
        [⟨Times.bytes "A", Times.bytes "$m"⟩, ⟨Times.bytes "HTTP_X", []⟩] = .ok conf.params ∧
      ∃ params, Describes (onlyVariable (Times.bytes "m"))
          (kept [⟨Times.bytes "A", Times.bytes "$m"⟩, ⟨Times.bytes "HTTP_X", []⟩]) params ∧
        ∀ env input first entries,
          evalParams env params (flushParams conf.params input.r) = first →
          evalEntries env params first.2 = entries →
          ∃ packet, ngxHttpUwsgiCreateRequest env conf input = some packet ∧ ∀ string,
            (conf.Decodes packet (entries.1.map Entry.pair ++ conf.headers
                [⟨Times.bytes "A", Times.bytes "$m"⟩, ⟨Times.bytes "HTTP_X", []⟩] input) string ↔
              conf.Exact [⟨Times.bytes "A", Times.bytes "$m"⟩, ⟨Times.bytes "HTTP_X", []⟩] input
                first.1 entries.1 ∧ string = conf.uwsgiString) :=
  ⟨⟨_, 0, 0, [], true, true⟩, rfl, uwsgi_request_iff rfl⟩

/-- A name of 256 bytes. -/
def longKey : List UInt8 := List.replicate 256 (chr 'K')

def longConf : UwsgiConf :=
  ⟨some ⟨[], [.op .copyLen, .num 256, .op .copyLen, .num 1, .op .exit, .op .exit],
    .op .copy :: .num 256 :: textWords longKey ++
      .op .copy :: .num 1 :: textWords (Times.bytes "v") ++ [.op .exit], []⟩, 0, 0, [], true, true⟩

set_option maxRecDepth 8000 in
/-- `uwsgi_param` with a name of 256 bytes: its length is written as 0. -/
theorem uwsgi_request_fails :
    locationParams false (fun _ => none) [⟨longKey, Times.bytes "v"⟩] = .ok longConf.params ∧
    ∃ packet, ngxHttpUwsgiCreateRequest noVariables longConf (bareInput none) = some packet ∧
      packet.bytes = [0, 5, 1, 0] ++ [0, 0] ++ longKey ++ [1, 0, chr 'v'] ∧
      ∀ string, ¬ longConf.Decodes packet [(longKey, Times.bytes "v")] string := by
  refine ⟨rfl, ⟨[0, 5, 1, 0] ++ [0, 0] ++ longKey ++ [1, 0, chr 'v'], 265, []⟩, by decide +kernel,
    rfl, ?_⟩
  intro string decodes
  have bytes : [0, 5, 1, 0] ++ [0, 0] ++ longKey ++ [1, 0, chr 'v'] =
      longConf.modifier1 :: (Uwsgi.short 261 ++ longConf.modifier2 ::
        ([(⟨longKey, 1, Times.bytes "v"⟩ : Entry)].flatMap Entry.bytes ++ Uwsgi.encodePairs [] ++
          longConf.uwsgiString)) := by
    decide +kernel
  rw [bytes] at decodes
  have exact_ := (decodes_iff.mp decodes).1.1 _ List.mem_cons_self
  exact absurd exact_.key (by decide +kernel)

end NgxFormal.Http.Cgi
