import NgxFormal.Core.PrintfPrefix
import NgxFormal.Http.CgiParams

/-! `ngx_http_scgi_create_request`, and when the block of headers that it writes is a netstring. -/

namespace NgxFormal.Http.Cgi

open NgxFormal.Core
open NgxFormal.Core.Atoi (decimalDigit ngxAtoof NGX_ERROR)
open NgxFormal.Core.Printf
open Complex
open FastcgiRequest (Header httpPrefix)

/-- `"CONTENT_LENGTH"` -/
def contentLengthName : List UInt8 := Times.bytes "CONTENT_LENGTH"

/-- `NGX_SIZE_T_LEN` and `NGX_OFF_T_LEN` -/
def numberLen : Nat := 20

/-- What `ngx_http_scgi_create_request` uses of the location. -/
structure ScgiConf where
  params : Option Params
  passRequestHeaders : Bool
  passRequestBody : Bool
  deriving DecidableEq, Repr

/-- The second pass over the parameters of SCGI. -/
def scgiWriteParams (env : Env) (values : List Word) : Nat → Engine → Option Engine
  | 0, _ => none
  | fuel + 1, e =>
    if opAt values e.ip = some .exit then some e
    else do
      let e ← valueCode env values e
      let e ← valueLoop env values (values.length + 1) e
      scgiWriteParams env values fuel { e with ip := e.ip + 8, out := e.out ++ [0] }

def scgiHeaderSize (header : Header) : Nat :=
  httpPrefix.length + header.key.length + 1 + header.value.length + 1

def scgiHeader (header : Header) : List UInt8 := headerName header ++ [0] ++ header.value ++ [0]

/-- `"%ui:CONTENT_LENGTH%Z%V%Z"` -/
def scgiFormat : List UInt8 := Times.bytes "%ui:CONTENT_LENGTH%Z%V%Z"

/-- `*content_length` -/
def Input.contentText (input : Input) : List UInt8 := input.contentLength.getD [chr '0']

def scgiWrite (env : Env) (conf : Option Params) (r : Request) (out : List UInt8) :
    Option (List UInt8) :=
  match conf with
  | none => some out
  | some params => do
      let e ← scgiWriteParams env params.params (params.params.length + 1)
        { Engine.init r with out := out }
      some e.out

/-- `ngx_http_scgi_create_request`; `none` stands for an engine that leaves its program. -/
def ngxHttpScgiCreateRequest (env : Env) (conf : ScgiConf) (input : Input) : Option Packet := do
  let text := input.contentText
  let len := contentLengthName.length + 1 + text.length + 1
  let (len, r) ← measure env conf.params 1 input.r len
  let headers := if conf.passRequestHeaders then input.headers else []
  let (len, ignored) := measureHeaders (ignores conf.params) scgiHeaderSize headers 0 (len, [])
  let size := numberLen + 1 + len + 1
  let out ← ngxSnprintf 0 (numberLen + 1 + (contentLengthName.length + 1) + numberLen + 1) scgiFormat
    [.word (UInt64.ofNat len), .str text]
  let out ← scgiWrite env conf.params r out
  let out := writeHeaders ignored scgiHeader headers 0 out ++ [chr ',']
  some ⟨out, size, if conf.passRequestBody then input.body else []⟩

/-- The length in digits, a colon, the bytes and a comma. -/
def Netstring (block content : List UInt8) : Prop :=
  ∃ number, Spells 10 decimalDigit content.length number ∧
    block = number ++ chr ':' :: (content ++ [chr ','])

/-- Names and values, each with a NUL behind it. -/
def scgiHeaders (pairs : List (List UInt8 × List UInt8)) : List UInt8 :=
  pairs.flatMap fun pair => pair.1 ++ [0] ++ pair.2 ++ [0]

theorem scgiHeaders_cons (pair : List UInt8 × List UInt8) (pairs : List (List UInt8 × List UInt8)) :
    scgiHeaders (pair :: pairs) = pair.1 ++ [0] ++ pair.2 ++ [0] ++ scgiHeaders pairs :=
  List.flatMap_cons

section Write

variable {env : Env} {before after : List Word} {params : List Param} {e : Engine}

theorem keyText_scgi {key : List UInt8} (plain : 0 ∉ key) : keyText true key = key ++ [0] := by
  have all : key.takeWhile (· ≠ 0) = key := by
    rw [List.takeWhile_eq_self_iff]
    intro ch member
    simpa using fun zero : ch = 0 => plain (zero ▸ member)
  rw [keyText, if_pos rfl, all]

theorem scgiWriteParams_words (fuel : Nat) (plain : Plain e) (names : ∀ p ∈ params, 0 ∉ p.key)
    (here : e.ip = 8 * before.length) (enough : params.length < fuel) :
    scgiWriteParams env (before ++ (params.flatMap (Param.valueWords true) ++ .op .exit :: after)) fuel
        e =
      some { e with
        ip := 8 * (before ++ params.flatMap (Param.valueWords true)).length
        out := e.out ++ scgiHeaders (evalParams env params e.request).1
        request := (evalParams env params e.request).2 } := by
  obtain ⟨fuel, rfl⟩ : ∃ more, fuel = more + 1 := ⟨fuel - 1, by omega⟩
  induction params generalizing before e fuel with
  | nil =>
    have stop : opAt (before ++ .op .exit :: after) e.ip = some .exit := opAt_append here
    rw [List.flatMap_nil, List.nil_append, List.append_nil, scgiWriteParams, if_pos stop, ← here]
    simp [evalParams, scgiHeaders]
  | cons p params ih =>
    rw [List.length_cons] at enough
    obtain ⟨fuel, rfl⟩ : ∃ more, fuel = more + 1 := ⟨fuel - 1, by omega⟩
    have words : before ++ ((p :: params).flatMap (Param.valueWords true) ++ .op .exit :: after) =
        before ++ (p.valueWords true ++
          (params.flatMap (Param.valueWords true) ++ .op .exit :: after)) := by
      rw [List.flatMap_cons, List.append_assoc]
    have shift : before ++ (p.valueWords true ++
        (params.flatMap (Param.valueWords true) ++ .op .exit :: after)) =
          (before ++ p.valueWords true) ++
            (params.flatMap (Param.valueWords true) ++ .op .exit :: after) :=
      (List.append_assoc ..).symm
    have go := (key_op true p before (params.flatMap (Param.valueWords true) ++ .op .exit :: after)).2
    have behind : Plain { e with
        ip := 8 * (before ++ (Code.copy (keyText true p.key)).valueWords).length
        out := e.out ++ keyText true p.key } :=
      ⟨plain.skip, plain.isArgs, plain.quote, plain.flushed⟩
    have next : Plain { e with
        ip := 8 * (before ++ p.valueWords true).length
        out := e.out ++ keyText true p.key ++ (evalCodes env p.codes e.request).1.flatten ++ [0]
        request := (evalCodes env p.codes e.request).2 } :=
      ⟨plain.skip, plain.isArgs, plain.quote, plain.flushed⟩
    have others : ∀ p ∈ params, 0 ∉ p.key := fun q member => names q (List.mem_cons_of_mem _ member)
    rw [words, scgiWriteParams, here, if_neg go, valueCode_key plain here]
    dsimp only [Option.bind_eq_bind, Option.bind_some]
    rw [valueLoop_value behind rfl]
    dsimp only [Option.bind_some]
    rw [valueWords_length, shift, ih next others rfl fuel (by omega), evalParams_cons,
      List.flatMap_cons, ← List.append_assoc before, scgiHeaders_cons,
      keyText_scgi (names p List.mem_cons_self)]
    simp only [List.append_assoc]

theorem scgiWrite_location {index : List UInt8 → Option Nat} {sources : List Source}
    {conf : Option Params} (location : Location true index sources params conf)
    (names : ∀ p ∈ params, 0 ∉ p.key) (r : Request) (out : List UInt8) :
    scgiWrite env conf r out = some (out ++ scgiHeaders (evalParams env params r).1) := by
  cases location with
  | none => exact congrArg some (List.append_nil out).symm
  | some compiled =>
    rename_i conf
    have values : conf.params = params.flatMap (Param.valueWords true) ++ [.op .exit] :=
      compiled.values
    have count : params.length < conf.params.length + 1 := by
      have enough := (params_length_le true params).2
      rw [values, List.length_append]
      omega
    have run := @scgiWriteParams_words env [] [] params { Engine.init r with out := out }
      (conf.params.length + 1) ⟨rfl, rfl, rfl, rfl⟩ names rfl count
    rw [List.nil_append, ← values] at run
    rw [scgiWrite]
    dsimp only
    rw [run]
    rfl

end Write

section First

/-- The bytes in front of the parameters, where nothing bounds the formatter. -/
def firstPair (len : Nat) (text : List UInt8) : List UInt8 :=
  digits (UInt64.ofNat len) 0 ++ chr ':' :: (contentLengthName ++ [0] ++ text ++ [0])

theorem firstPair_length (len : Nat) (text : List UInt8) :
    (firstPair len text).length = (digits (UInt64.ofNat len) 0).length + 17 + text.length := by
  have name : contentLengthName.length = 14 := rfl
  simp only [firstPair, List.length_append, List.length_cons, List.length_nil, name]
  omega

/-- The formatter stops behind so many bytes. -/
theorem snprintf_firstPair (len max : Nat) (text : List UInt8) :
    ngxSnprintf 0 max scgiFormat [.word (UInt64.ofNat len), .str text] =
      some ((firstPair len text).take max) := by
  have short := (digits_length (UInt64.ofNat len)).1
  have plain : ∀ ch ∈ chr ':' :: contentLengthName, ch ≠ 0 ∧ ch ≠ chr '%' := by decide +kernel
  have name : contentLengthName.length = 14 := rfl
  let room := max + text.length + 100
  have run : loop room [] scgiFormat [.word (UInt64.ofNat len), .str text] =
      some (firstPair len text) := by
    have format : scgiFormat = chr '%' :: chr 'u' :: chr 'i' ::
        ((chr ':' :: contentLengthName) ++ chr '%' :: chr 'Z' :: chr '%' :: chr 'V' :: chr '%' ::
          chr 'Z' :: []) := by decide
    rw [format, loop_ui _ _ _ (by simp [room]), loop_text _ _ _ plain (by simp [room]; omega),
      loop_Z _ _ (by simp [room]; omega), loop_V _ _ _ (by simp [room]; omega),
      loop_Z _ _ (by simp [room]; omega), loop_end]
    simp [firstPair]
  have cut := loop_take (by omega : max ≤ room) run (Nat.zero_le _)
  rw [ngxSnprintf, ngxVslprintf, Nat.zero_add, Nat.sub_zero]
  rwa [List.take_nil] at cut

theorem firstPair_fits {len : Nat} {text : List UInt8} (small : len < 2 ^ 64) (some_ : 0 < len) :
    (firstPair len text).length ≤ 57 ↔ len < 10 ^ (40 - text.length) := by
  have spelled := digits_decimal (UInt64.ofNat len)
  have word : (UInt64.ofNat len).toNat = len := UInt64.toNat_ofNat_of_lt small
  rw [word] at spelled
  have first : 0 < (digits (UInt64.ofNat len) 0).length := List.length_pos_iff.mpr spelled.some_
  rw [firstPair_length]
  rcases Nat.eq_zero_or_pos (40 - text.length) with none_ | room
  · rw [none_, Nat.pow_zero]
    omega
  · rw [← spells_room spelled room]
    omega

/-- The digits in front of a colon are those of one number. -/
theorem spells_unique {n m : Nat} {number digits behind after : List UInt8}
    (first : Spells 10 decimalDigit n number) (second : Spells 10 decimalDigit m digits)
    (same : number ++ chr ':' :: behind = digits ++ chr ':' :: after) :
    n = m ∧ number = digits ∧ behind = after := by
  have colon {k : Nat} {text : List UInt8} (spells : Spells 10 decimalDigit k text) :
      ∀ ch ∈ text, (ch != chr ':') = true := by
    intro ch member
    obtain ⟨d, digit⟩ := Lib.Digits.value_digits spells.value ch member
    rw [bne_iff_ne]
    rintro rfl
    cases digit
  have cut := congrArg (List.takeWhile (· != chr ':')) same
  rw [List.takeWhile_append_of_pos (colon first), List.takeWhile_append_of_pos (colon second),
    List.takeWhile_cons_of_neg (by decide), List.takeWhile_cons_of_neg (by decide),
    List.append_nil, List.append_nil] at cut
  subst cut
  have number := first.value.symm.trans second.value
  exact ⟨Option.some.inj number, rfl, (List.cons.inj (List.append_cancel_left same)).2⟩

end First

section Lengths

variable {env : Env}

theorem scgiHeaders_length {pairs : List (List UInt8 × List UInt8)}
    (names : ∀ key ∈ pairs.map Prod.fst, 0 ∉ key) :
    (scgiHeaders pairs).length = pairsSize true 1 pairs := by
  induction pairs with
  | nil => rfl
  | cons pair pairs ih =>
    have later : ∀ key ∈ pairs.map Prod.fst, 0 ∉ key :=
      fun key member => names key (List.mem_cons_of_mem _ member)
    have count := @keyText_length true pair.1 fun _ => names pair.1 List.mem_cons_self
    rw [scgiHeaders_cons, List.length_append, ih later]
    simp only [pairsSize, List.map_cons, List.sum_cons, count, List.length_append,
      List.length_singleton, Bool.toNat_true]
    omega

theorem scgiHeaders_headers (headers : List Header) :
    headers.flatMap scgiHeader = scgiHeaders (headerPairs headers) := by
  rw [scgiHeaders, headerPairs, List.flatMap_map]
  rfl

theorem headers_size (headers : List Header) :
    (headers.map scgiHeaderSize).sum = (scgiHeaders (headerPairs headers)).length := by
  induction headers with
  | nil => rfl
  | cons header rest ih =>
    rw [headerPairs, List.map_cons, List.map_cons, List.sum_cons, ih, scgiHeaders_cons,
      List.length_append]
    simp only [scgiHeaderSize, headerName, headerPairs, List.length_append, List.length_map,
      List.length_singleton]

theorem scgiHeaders_append (pairs more : List (List UInt8 × List UInt8)) :
    scgiHeaders (pairs ++ more) = scgiHeaders pairs ++ scgiHeaders more :=
  List.flatMap_append

end Lengths

section Request

variable {index : List UInt8 → Option Nat} {sources : List Source} {params : List Param}
  {conf : ScgiConf}

def ScgiConf.headers (conf : ScgiConf) (sources : List Source) (input : Input) :
    List (List UInt8 × List UInt8) :=
  headerPairs (sent (overridden sources) (if conf.passRequestHeaders then input.headers else []))

theorem createRequest_eq (location : Location true index sources params conf.params)
    (names : ∀ p ∈ params, 0 ∉ p.key) (env : Env) (input : Input)
    {first second : List (List UInt8 × List UInt8) × Request}
    (pass : evalParams env params (flushParams conf.params input.r) = first)
    (again : evalParams env params first.2 = second) :
    ∃ len, len = (scgiHeaders [(contentLengthName, input.contentText)]).length +
        pairsSize true 1 first.1 + (scgiHeaders (conf.headers sources input)).length ∧
      ngxHttpScgiCreateRequest env conf input = some
        ⟨(firstPair len input.contentText).take 57 ++ scgiHeaders second.1 ++
            scgiHeaders (conf.headers sources input) ++ [chr ','],
          numberLen + 1 + len + 1, if conf.passRequestBody then input.body else []⟩ := by
  refine ⟨_, rfl, ?_⟩
  have one : contentLengthName.length + 1 + input.contentText.length + 1 =
      (scgiHeaders [(contentLengthName, input.contentText)]).length := by
    simp only [scgiHeaders, List.flatMap_cons, List.flatMap_nil, List.length_append,
      List.length_singleton, List.append_nil]
  rw [ngxHttpScgiCreateRequest]
  dsimp only [Option.bind_eq_bind]
  rw [measure_location location, pass]
  dsimp only [Option.bind_some]
  rw [measureHeaders_eq, location.ignores_eq]
  dsimp only
  rw [snprintf_firstPair]
  dsimp only [Option.bind_some]
  rw [scgiWrite_location location names, again]
  dsimp only [Option.bind_some]
  rw [writeHeaders_eq scgiHeader (by simpa using FastcgiRequest.mem_ignored)]
  rw [scgiHeaders_headers, headers_size, one]
  rfl

/-- What a server reads: the length of the content, the first pair, the parameters as the second
pass has seen them, and the headers. -/
def ScgiConf.pairs (conf : ScgiConf) (sources : List Source) (input : Input)
    (second : List (List UInt8 × List UInt8)) : List (List UInt8 × List UInt8) :=
  (contentLengthName, input.contentText) :: (second ++ conf.headers sources input)

theorem pairs_length (input : Input) {second : List (List UInt8 × List UInt8)}
    (names : ∀ key ∈ second.map Prod.fst, 0 ∉ key) :
    (scgiHeaders (conf.pairs sources input second)).length =
      (scgiHeaders [(contentLengthName, input.contentText)]).length + pairsSize true 1 second +
        (scgiHeaders (conf.headers sources input)).length := by
  rw [ScgiConf.pairs, ← List.singleton_append, scgiHeaders_append, scgiHeaders_append,
    List.length_append, List.length_append, scgiHeaders_length names, Nat.add_assoc]

/-- The cut block is a netstring if and only if nothing is cut and the length is the right one. -/
theorem netstring_iff {len : Nat} (small : len < 2 ^ 64) (text rest : List UInt8) :
    Netstring ((firstPair len text).take 57 ++ rest ++ [chr ','])
        (contentLengthName ++ [0] ++ text ++ [0] ++ rest) ↔
      (firstPair len text).length ≤ 57 ∧
        len = (contentLengthName ++ [0] ++ text ++ [0] ++ rest).length := by
  have word : (UInt64.ofNat len).toNat = len := UInt64.toNat_ofNat_of_lt small
  have spelled := digits_decimal (UInt64.ofNat len)
  rw [word] at spelled
  have short := (digits_length (UInt64.ofNat len)).1
  constructor
  · rintro ⟨number, spells, block⟩
    have start : (firstPair len text).take 57 = digits (UInt64.ofNat len) 0 ++ chr ':' ::
        (contentLengthName ++ [0] ++ text ++ [0]).take (56 - (digits (UInt64.ofNat len) 0).length) := by
      obtain ⟨room, count⟩ : ∃ room, 57 - (digits (UInt64.ofNat len) 0).length = room + 1 :=
        ⟨56 - (digits (UInt64.ofNat len) 0).length, by omega⟩
      have less : 56 - (digits (UInt64.ofNat len) 0).length = room := by omega
      rw [firstPair, List.take_append, List.take_of_length_le (by omega), count, List.take_succ_cons,
        less]
    rw [start, List.append_assoc, List.append_assoc, List.cons_append] at block
    obtain ⟨same, -, behind⟩ := spells_unique spelled spells block
    have lengths := congrArg List.length behind
    have whole := firstPair_length len text
    have name : contentLengthName.length = 14 := rfl
    simp only [List.length_append, List.length_take, List.length_cons, List.length_nil, name]
      at lengths
    refine ⟨?_, same⟩
    omega
  · rintro ⟨fits, count⟩
    refine ⟨digits (UInt64.ofNat len) 0, ?_, ?_⟩
    · rw [← count]
      exact spelled
    · rw [List.take_of_length_le fits, firstPair]
      simp only [List.append_assoc, List.cons_append]

/-- The block is a netstring of the pairs, if and only if the digits of its length and the text of
`Content-Length` together leave the bounded formatter room, and the values have not grown or shrunk
between the two passes. -/
theorem scgi_request_iff (plain : ∀ src ∈ sources, 0 ∉ src.key)
    (compiled : locationParams true index sources = .ok conf.params) :
    ∃ params, Describes index (kept sources) params ∧ ∀ env input first second,
      evalParams env params (flushParams conf.params input.r) = first →
      evalParams env params first.2 = second →
      ∃ packet, ngxHttpScgiCreateRequest env conf input = some packet ∧
        (packet.size < 2 ^ 64 →
          (Netstring packet.bytes (scgiHeaders (conf.pairs sources input second.1)) ↔
            (scgiHeaders (conf.pairs sources input second.1)).length <
                10 ^ (40 - input.contentText.length) ∧
              pairsSize true 1 first.1 = pairsSize true 1 second.1)) := by
  obtain ⟨params, location⟩ := locationParams_location (fun _ => plain) compiled
  refine ⟨params, location.describes, ?_⟩
  intro env input first second pass again
  have keys := describes_keys location.describes
  have names : ∀ p ∈ params, 0 ∉ p.key := by
    intro p member
    have stored : p.key ∈ (kept sources).map Source.key := keys ▸ List.mem_map_of_mem member
    obtain ⟨src, from_, same⟩ := List.mem_map.mp stored
    exact same ▸ plain src (List.mem_filter.mp from_).1
  have nulFree : ∀ key ∈ second.1.map Prod.fst, 0 ∉ key := by
    intro key member
    rw [← again, evalParams_keys] at member
    obtain ⟨p, from_, same⟩ := List.mem_map.mp member
    exact same ▸ names p from_
  obtain ⟨len, total, built⟩ := createRequest_eq location names env input pass again
  refine ⟨_, built, ?_⟩
  intro bound
  dsimp only at bound ⊢
  have small : len < 2 ^ 64 := by omega
  have content : scgiHeaders (conf.pairs sources input second.1) =
      contentLengthName ++ [0] ++ input.contentText ++ [0] ++
        (scgiHeaders second.1 ++ scgiHeaders (conf.headers sources input)) := by
    rw [ScgiConf.pairs, scgiHeaders_cons, scgiHeaders_append]
  have count := @pairs_length sources conf input second.1 nulFree
  rw [List.append_assoc _ (scgiHeaders second.1), content, netstring_iff small, ← content]
  have agree : len = (scgiHeaders (conf.pairs sources input second.1)).length ↔
      pairsSize true 1 first.1 = pairsSize true 1 second.1 := by
    omega
  rw [agree, and_congr_left_iff]
  intro same
  rw [← agree.mpr same]
  have some_ : 0 < (scgiHeaders [(contentLengthName, input.contentText)]).length := by
    simp only [scgiHeaders_cons, List.length_append, List.length_singleton]
    omega
  exact firstPair_fits small (by omega)

end Request

/-- `scgi_param A $m`, where `$m` is the variable with the index 0, and `scgi_param HTTP_X ""`. -/
theorem scgi_request_params : ∃ conf : ScgiConf,
    locationParams true (onlyVariable (Times.bytes "m"))
        [⟨Times.bytes "A", Times.bytes "$m"⟩, ⟨Times.bytes "HTTP_X", []⟩] = .ok conf.params ∧
      ∃ params, Describes (onlyVariable (Times.bytes "m"))
          (kept [⟨Times.bytes "A", Times.bytes "$m"⟩, ⟨Times.bytes "HTTP_X", []⟩]) params ∧
        ∀ env input first second,
          evalParams env params (flushParams conf.params input.r) = first →
          evalParams env params first.2 = second →
          ∃ packet, ngxHttpScgiCreateRequest env conf input = some packet ∧
            (packet.size < 2 ^ 64 →
              (Netstring packet.bytes (scgiHeaders (conf.pairs
                  [⟨Times.bytes "A", Times.bytes "$m"⟩, ⟨Times.bytes "HTTP_X", []⟩] input second.1)) ↔
                (scgiHeaders (conf.pairs
                    [⟨Times.bytes "A", Times.bytes "$m"⟩, ⟨Times.bytes "HTTP_X", []⟩] input
                    second.1)).length < 10 ^ (40 - input.contentText.length) ∧
                  pairsSize true 1 first.1 = pairsSize true 1 second.1)) :=
  ⟨⟨_, true, true⟩, rfl, scgi_request_iff (by decide) rfl⟩

/-- The length 0, as 40 zeros: the last one is cut, and the NUL behind it. -/
theorem scgi_request_fails :
    ngxAtoof (List.replicate 40 (chr '0')) ≠ NGX_ERROR ∧
      ngxHttpScgiCreateRequest noVariables ⟨none, true, true⟩
          (bareInput (some (List.replicate 40 (chr '0')))) =
        some ⟨Times.bytes "56:CONTENT_LENGTH" ++ [0] ++ List.replicate 39 (chr '0') ++ [chr ','], 78,
          []⟩ ∧
      ¬ Netstring (Times.bytes "56:CONTENT_LENGTH" ++ [0] ++ List.replicate 39 (chr '0') ++ [chr ','])
        (Times.bytes "CONTENT_LENGTH" ++ [0] ++ List.replicate 40 (chr '0') ++ [0]) := by
  let text := List.replicate 40 (chr '0')
  have bytes : Times.bytes "56:CONTENT_LENGTH" ++ [0] ++ List.replicate 39 (chr '0') ++ [chr ','] =
      (firstPair 56 text).take 57 ++ [] ++ [chr ','] := by
    decide +kernel
  refine ⟨by decide +kernel, ?_, ?_⟩
  · obtain ⟨len, total, built⟩ := @createRequest_eq (fun _ => none) _ _ ⟨none, true, true⟩ .none
      (by simp) noVariables (bareInput (some text)) _ _ rfl rfl
    have count : len = 56 := total
    subst count
    rw [bytes]
    exact built
  · rw [bytes]
    have cut := @netstring_iff 56 (by decide) text []
    rw [List.append_nil (contentLengthName ++ [0] ++ text ++ [0])] at cut
    intro netstring
    have whole := (cut.mp netstring).1
    exact absurd whole (by decide +kernel)

end NgxFormal.Http.Cgi
