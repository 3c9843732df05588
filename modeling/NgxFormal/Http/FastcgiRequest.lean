import NgxFormal.Basic
import NgxFormal.Lib.FastCgi
import Mathlib.Data.List.Range

/-! `ngx_http_fastcgi_create_request` with the parameters that `ngx_http_fastcgi_merge_params`
compiles. Allocations succeed, and sizes do not wrap. -/

namespace NgxFormal.Http.FastcgiRequest

/-- `ngx_http_script_copy_len_code` and the length codes of a variable or a capture. -/
inductive LenCode where
  | copy (len : Nat)
  | var (index : Nat)
  deriving DecidableEq, Repr

/-- `ngx_http_script_copy_code` and the codes of a variable or a capture. -/
inductive ValueCode where
  | copy (text : List UInt8)
  | var (index : Nat)
  deriving DecidableEq, Repr

/-- `fastcgi_param`, its value cut into text and variables. -/
structure Source where
  key : List UInt8
  value : List ValueCode
  deriving DecidableEq, Repr

def ValueCode.lenCode : ValueCode → LenCode
  | .copy text => .copy text.length
  | .var index => .var index

/-- `"HTTP_"` -/
def httpPrefix : List UInt8 := [chr 'H', chr 'T', chr 'T', chr 'P', chr '_']

/-- The codes of both arrays, `none` for a NULL word, and the lower-case `headers_names`. -/
structure Params where
  paramsLen : List (Option LenCode)
  params : List (Option ValueCode)
  headersNames : List (List UInt8)
  deriving DecidableEq, Repr

def Source.isHeader (src : Source) : Bool :=
  httpPrefix.length < src.key.length && src.key.take httpPrefix.length == httpPrefix

/-- The loop of `ngx_http_fastcgi_merge_params` over the sources. -/
def mergeLoop : List Source → Params → Params
  | [], conf => conf
  | src :: rest, conf =>
    let conf := if src.isHeader then
        { conf with headersNames := conf.headersNames ++
            [(src.key.drop httpPrefix.length).map ngxTolower] }
      else conf
    if src.isHeader && src.value.isEmpty then mergeLoop rest conf
    else
      mergeLoop rest
        { conf with
          paramsLen := conf.paramsLen ++
            (some (.copy src.key.length) :: src.value.map fun code => some code.lenCode) ++ [none]
          params := conf.params ++ (some (.copy src.key) :: src.value.map some) ++ [none] }

/-- `ngx_http_fastcgi_merge_params`; only `params_len` ends in one more NULL. -/
def ngxHttpFastcgiMergeParams (sources : List Source) : Params :=
  let conf := mergeLoop sources ⟨[], [], []⟩
  { conf with paramsLen := conf.paramsLen ++ [none] }

/-- `ngx_table_elt_t` -/
structure Header where
  key : List UInt8
  value : List UInt8
  deriving DecidableEq, Repr

/-- The part of `ngx_buf_t` that the request body uses. -/
structure Buf where
  inFile : Bool
  pos : Nat
  last : Nat
  filePos : Nat
  fileLast : Nat
  deriving DecidableEq, Repr

/-- `headersHash` is the lookup in `flcf->headers_hash`. -/
structure Conf where
  paramsLen : Option (List (Option LenCode))
  params : List (Option ValueCode)
  headerParams : Nat
  headersHash : List UInt8 → Bool
  passRequestHeaders : Bool
  passRequestBody : Bool

/-- The headers are those of all parts of the list, and the body the buffers of `request_bufs`. -/
structure Request where
  value : Nat → List UInt8
  headers : List Header
  body : List Buf

def Request.lcode (r : Request) : LenCode → Nat
  | .copy len => len
  | .var index => (r.value index).length

def Request.code (r : Request) : ValueCode → List UInt8
  | .copy text => text
  | .var index => r.value index

/-- The inner loop over the length codes of a value, with `le.ip` behind its NULL word. -/
def valLen (r : Request) : List (Option LenCode) → Nat → Nat × List (Option LenCode)
  | some lcode :: ip, len => valLen r ip (len + r.lcode lcode)
  | none :: ip, len => (len, ip)
  | [], len => (len, [])

/-- The first pass over `params_len`. -/
def paramsLoop (r : Request) : Nat → List (Option LenCode) → Nat → Nat
  | fuel + 1, some lcode :: ip, len =>
    let keyLen := r.lcode lcode
    let (val, ip) := valLen r ip 0
    paramsLoop r fuel ip (len + (1 + keyLen + (if 127 < val then 4 else 1) + val))
  | _, _, len => len

def lowcase (ch : UInt8) : UInt8 :=
  if chr 'A' ≤ ch ∧ ch ≤ chr 'Z' then ch ||| 0x20 else if ch = chr '-' then chr '_' else ch

def Conf.ignores (conf : Conf) (header : Header) : Bool :=
  conf.headerParams != 0 && conf.headersHash (header.key.map lowcase)

/-- The first pass over the headers: `len` and the indices of the `ignored`. -/
def headersLoop (conf : Conf) : List Header → Nat → Nat × List Nat → Nat × List Nat
  | [], _, state => state
  | header :: rest, i, (len, ignored) =>
    if conf.ignores header then headersLoop conf rest (i + 1) (len, ignored ++ [i])
    else
      let n := httpPrefix.length + header.key.length
      headersLoop conf rest (i + 1)
        (len + ((if 127 < n then 4 else 1) + (if 127 < header.value.length then 4 else 1) + n +
          header.value.length), ignored)

/-- The bytes of a length above 127. -/
def longLen (len : Nat) : List UInt8 :=
  [UInt8.ofNat ((len >>> 24) &&& 0x7f ||| 0x80), UInt8.ofNat ((len >>> 16) &&& 0xff),
    UInt8.ofNat ((len >>> 8) &&& 0xff), UInt8.ofNat (len &&& 0xff)]

def writeLen (len : Nat) : List UInt8 := if 127 < len then longLen len else [UInt8.ofNat len]

/-- The loop over the codes of one entry, with `e.ip` behind its NULL word. -/
def writeCodes (r : Request) : List (Option ValueCode) → List UInt8 × List (Option ValueCode)
  | some code :: ip => ((r.code code) ++ (writeCodes r ip).1, (writeCodes r ip).2)
  | none :: ip => ([], ip)
  | [] => ([], [])

def writeParams (r : Request) :
    Nat → List (Option LenCode) → List (Option ValueCode) → List UInt8 → List UInt8
  | fuel + 1, some lcode :: leIp, ip, out =>
    let keyLen := r.lcode lcode
    let (val, leIp) := valLen r leIp 0
    let (bytes, ip) := writeCodes r ip
    writeParams r fuel leIp ip (out ++ ([UInt8.ofNat keyLen] ++ writeLen val ++ bytes))
  | _, _, _, out => out

def upcase (ch : UInt8) : UInt8 :=
  if chr 'a' ≤ ch ∧ ch ≤ chr 'z' then ch &&& ~~~0x20 else if ch = chr '-' then chr '_' else ch

def writeHeaders (ignored : List Nat) : List Header → Nat → List UInt8 → List UInt8
  | [], _, out => out
  | header :: rest, i, out =>
    if i ∈ ignored then writeHeaders ignored rest (i + 1) out
    else
      writeHeaders ignored rest (i + 1)
        (out ++ (writeLen (httpPrefix.length + header.key.length) ++
          writeLen header.value.length ++ httpPrefix ++ header.key.map upcase ++ header.value))

/-- `ngx_http_fastcgi_header_t` with request id 1. -/
def fastcgiHeader (type : UInt8) (len padding : Nat) : List UInt8 :=
  [1, type, 0, 1, UInt8.ofNat ((len >>> 8) &&& 0xff), UInt8.ofNat (len &&& 0xff),
    UInt8.ofNat padding, 0]

def BEGIN_REQUEST : UInt8 := 1
def PARAMS : UInt8 := 4
def STDIN : UInt8 := 5

/-- The BEGIN_REQUEST record of `ngx_http_fastcgi_request_start`. -/
def requestStart : List UInt8 := fastcgiHeader BEGIN_REQUEST 8 0 ++ [0, 1, 0, 0, 0, 0, 0, 0]

def paddingOf (len : Nat) : Nat := if 8 - len % 8 = 8 then 0 else 8 - len % 8

/-- A link of the chain: a temporary buffer of `size` bytes or a part of the body. -/
inductive Link where
  | temp (bytes : List UInt8) (size : Nat)
  | part (buf : Buf)
  deriving DecidableEq, Repr

/-- The chain up to the last link, and this one without the header `h` at its end. -/
structure Chain where
  links : List Link
  bytes : List UInt8
  size : Nat
  deriving DecidableEq, Repr

/-- `h` is filled in. -/
def Chain.fill (cl : Chain) (type : UInt8) (len padding : Nat) : List Link :=
  cl.links ++ [.temp (cl.bytes ++ fastcgiHeader type len padding) cl.size]

def Buf.start (buf : Buf) : Nat := if buf.inFile then buf.filePos else buf.pos
def Buf.stop (buf : Buf) : Nat := if buf.inFile then buf.fileLast else buf.last

def Buf.slice (buf : Buf) (start stop : Nat) : Buf :=
  if buf.inFile then { buf with filePos := start, fileLast := stop }
  else { buf with pos := start, last := stop }

/-- The `do` loop over the slices of a buffer. -/
def slicesLoop (buf : Buf) : Nat → Nat → Chain → Chain
  | 0, _, cl => cl
  | fuel + 1, pos, cl =>
    let next := buf.stop ≤ pos + 32 * 1024
    let stop := if next then buf.stop else pos + 32 * 1024
    let len := stop - pos
    let padding := paddingOf len
    let cl : Chain :=
      { links := cl.fill STDIN len padding ++ [.part (buf.slice pos stop)]
        bytes := List.replicate padding 0
        size := 8 + padding }
    if next then cl else slicesLoop buf fuel stop cl

def bodyLoop (body : List Buf) (cl : Chain) : Chain :=
  body.foldl (fun cl buf => slicesLoop buf (buf.stop - buf.start + 1) buf.start cl) cl

def paramsLen (conf : Conf) (r : Request) : Nat :=
  match conf.paramsLen with
  | none => 0
  | some words => paramsLoop r words.length words 0

def paramsBytes (conf : Conf) (r : Request) : List UInt8 :=
  match conf.paramsLen with
  | none => []
  | some words => writeParams r words.length words conf.params []

/-- `len` and the ignored headers after the first pass. -/
def requestLen (conf : Conf) (r : Request) : Nat × List Nat :=
  if conf.passRequestHeaders then headersLoop conf r.headers 0 (paramsLen conf r, [])
  else (paramsLen conf r, [])

/-- What the second pass writes into the PARAMS record. -/
def requestParams (conf : Conf) (r : Request) (ignored : List Nat) : List UInt8 :=
  if conf.passRequestHeaders then writeHeaders ignored r.headers 0 (paramsBytes conf r)
  else paramsBytes conf r

/-- `ngx_http_fastcgi_create_request`: the chain, or `none` for `NGX_ERROR`. -/
def ngxHttpFastcgiCreateRequest (conf : Conf) (r : Request) : Option (List Link) :=
  let (len, ignored) := requestLen conf r
  if 65535 < len then none
  else
    let padding := paddingOf len
    let cl : Chain :=
      { links := []
        bytes := requestStart ++ fastcgiHeader PARAMS len padding ++
          requestParams conf r ignored ++ List.replicate padding 0 ++ fastcgiHeader PARAMS 0 0
        size := 8 + 8 + 8 + len + padding + 8 + 8 }
    let cl := if conf.passRequestBody then bodyLoop r.body cl else cl
    some (cl.fill STDIN 0 0)

/-- The contents of memory and of the file of the body. -/
structure Data where
  memory : Nat → UInt8
  file : Nat → UInt8

def Data.buf (data : Data) (buf : Buf) : List UInt8 :=
  if buf.inFile then (List.range' buf.filePos (buf.fileLast - buf.filePos)).map data.file
  else (List.range' buf.pos (buf.last - buf.pos)).map data.memory

def Data.link (data : Data) : Link → List UInt8
  | .temp bytes _ => bytes
  | .part buf => data.buf buf

end NgxFormal.Http.FastcgiRequest

/-! The two passes over the parameters and the headers agree, and the second one writes the pairs
of the protocol. -/

namespace NgxFormal.Http.FastcgiRequest

open NgxFormal.Lib.FastCgi

section Merge

/-- A header parameter without a value only hides the header. -/
def Source.kept (src : Source) : Bool := !(src.isHeader && src.value.isEmpty)

def Source.lenWords (src : Source) : List (Option LenCode) :=
  (some (.copy src.key.length) :: src.value.map fun code => some code.lenCode) ++ [none]

def Source.words (src : Source) : List (Option ValueCode) :=
  (some (.copy src.key) :: src.value.map some) ++ [none]

theorem mergeLoop_words (sources : List Source) (conf : Params) :
    (mergeLoop sources conf).paramsLen =
        conf.paramsLen ++ (sources.filter Source.kept).flatMap Source.lenWords ∧
      (mergeLoop sources conf).params =
        conf.params ++ (sources.filter Source.kept).flatMap Source.words := by
  induction sources generalizing conf with
  | nil => simp [mergeLoop]
  | cons src rest ih =>
    rw [mergeLoop]
    split
    · rename_i dropped
      have gone : ¬src.kept = true := by simp [Source.kept, dropped]
      rw [List.filter_cons_of_neg gone, (ih _).1, (ih _).2]
      split <;> exact ⟨rfl, rfl⟩
    · rename_i stays
      have kept : src.kept = true := by rw [Source.kept, Bool.not_eq_true _ |>.mp stays]; rfl
      rw [List.filter_cons_of_pos kept, (ih _).1, (ih _).2, List.flatMap_cons, List.flatMap_cons]
      simp only [Source.lenWords, Source.words, List.append_assoc]
      split <;> exact ⟨rfl, rfl⟩

/-- The code arrays come from these sources, or there are none. -/
def Conf.Merged (conf : Conf) (sources : List Source) : Prop :=
  (conf.paramsLen = none ∧ sources = []) ∨
    (conf.paramsLen = some (ngxHttpFastcgiMergeParams sources).paramsLen ∧
      conf.params = (ngxHttpFastcgiMergeParams sources).params)

end Merge

section Params

variable {r : Request}

def Request.valueOf (r : Request) (src : Source) : List UInt8 := src.value.flatMap r.code

def Request.param (r : Request) (src : Source) : List UInt8 × List UInt8 := (src.key, r.valueOf src)

theorem lcode_lenCode (code : ValueCode) : r.lcode code.lenCode = (r.code code).length := by
  cases code <;> rfl

theorem valLen_words (codes : List ValueCode) (rest : List (Option LenCode)) (len : Nat) :
    valLen r ((codes.map fun code => some code.lenCode) ++ none :: rest) len =
      (len + (codes.flatMap r.code).length, rest) := by
  induction codes generalizing len with
  | nil => rfl
  | cons code codes ih =>
    rw [List.map_cons, List.cons_append, valLen, ih, lcode_lenCode, List.flatMap_cons,
      List.length_append, Nat.add_assoc]

theorem writeCodes_words (codes : List ValueCode) (rest : List (Option ValueCode)) :
    writeCodes r (codes.map some ++ none :: rest) = (codes.flatMap r.code, rest) := by
  induction codes with
  | nil => rfl
  | cons code codes ih => rw [List.map_cons, List.cons_append, writeCodes, ih, List.flatMap_cons]

theorem longLen_eq (len : Nat) :
    longLen len = [UInt8.ofNat (len / 2 ^ 24 % 128 + 128), UInt8.ofNat (len / 2 ^ 16),
      UInt8.ofNat (len / 2 ^ 8), UInt8.ofNat len] := by
  have byte (n : Nat) : UInt8.ofNat (n &&& 0xff) = UInt8.ofNat n := by
    apply UInt8.toNat_inj.mp
    rw [UInt8.toNat_ofNat', UInt8.toNat_ofNat', Nat.and_two_pow_sub_one_eq_mod n 8]
    exact Nat.mod_mod _ _
  have top (n : Nat) : n &&& 0x7f ||| 0x80 = n % 128 + 128 := by
    rw [Nat.and_two_pow_sub_one_eq_mod n 7, Nat.or_comm]
    have sum := Nat.two_pow_add_eq_or_of_lt (Nat.mod_lt n (by decide : 0 < 2 ^ 7)) 1
    rw [Nat.mul_one] at sum
    exact sum.symm.trans (Nat.add_comm _ _)
  rw [longLen, byte, byte, byte, top, Nat.shiftRight_eq_div_pow, Nat.shiftRight_eq_div_pow,
    Nat.shiftRight_eq_div_pow]

theorem writeLen_eq (len : Nat) : writeLen len = encodeLength len := by
  rw [writeLen, encodeLength, longLen_eq]

theorem paramsLoop_words {entries : List Source} {fuel : Nat} (enough : entries.length ≤ fuel)
    (names : ∀ src ∈ entries, src.key.length ≤ 127) (len : Nat) :
    paramsLoop r fuel (entries.flatMap Source.lenWords ++ [none]) len =
      len + ((entries.map r.param).flatMap encodePair).length := by
  induction entries generalizing fuel len with
  | nil => cases fuel <;> rfl
  | cons src rest ih =>
    obtain ⟨fuel, rfl⟩ : ∃ m, fuel = m + 1 := ⟨fuel - 1, by rw [List.length_cons] at enough; omega⟩
    have short := names src List.mem_cons_self
    rw [List.flatMap_cons, List.append_assoc, Source.lenWords, List.append_assoc,
      List.singleton_append, List.cons_append, paramsLoop, valLen_words]
    dsimp only
    rw [ih (by rw [List.length_cons] at enough; omega)
      (fun other inside => names other (List.mem_cons_of_mem _ inside)), List.map_cons,
      List.flatMap_cons, List.length_append]
    simp only [encodePair, List.length_append, encodeLength_length, Request.param,
      Request.valueOf, Request.lcode, Nat.zero_add]
    rw [if_neg (by omega : ¬127 < src.key.length)]
    omega

theorem writeParams_words {entries : List Source} {fuel : Nat} (enough : entries.length ≤ fuel)
    (names : ∀ src ∈ entries, src.key.length ≤ 127) (out : List UInt8) :
    writeParams r fuel (entries.flatMap Source.lenWords ++ [none])
        (entries.flatMap Source.words) out =
      out ++ (entries.map r.param).flatMap encodePair := by
  induction entries generalizing fuel out with
  | nil => cases fuel <;> simp [writeParams]
  | cons src rest ih =>
    obtain ⟨fuel, rfl⟩ : ∃ m, fuel = m + 1 := ⟨fuel - 1, by rw [List.length_cons] at enough; omega⟩
    have short := names src List.mem_cons_self
    have codes : Source.words src ++ rest.flatMap Source.words =
        (ValueCode.copy src.key :: src.value).map some ++ none :: rest.flatMap Source.words := by
      rw [Source.words, List.append_assoc]
      rfl
    rw [List.flatMap_cons, List.flatMap_cons, List.append_assoc, Source.lenWords,
      List.append_assoc, List.singleton_append, List.cons_append, writeParams, valLen_words,
      codes, writeCodes_words]
    dsimp only
    rw [ih (by rw [List.length_cons] at enough; omega)
      (fun other inside => names other (List.mem_cons_of_mem _ inside)), List.map_cons,
      List.flatMap_cons, List.append_assoc]
    congr 1
    simp only [encodePair, Request.param, Request.valueOf, Request.lcode, writeLen_eq,
      Nat.zero_add, List.flatMap_cons, Request.code]
    rw [encodeLength.eq_def src.key.length, if_neg (by omega : ¬127 < src.key.length)]
    simp only [List.append_assoc]

end Params

section Headers

variable {conf : Conf}

/-- `HTTP_<NAME>` and the value of a header. -/
def Header.param (header : Header) : List UInt8 × List UInt8 :=
  (httpPrefix ++ header.key.map upcase, header.value)

theorem header_param_length (header : Header) :
    header.param.1.length = httpPrefix.length + header.key.length := by
  rw [Header.param, List.length_append, List.length_map]

/-- The headers that no parameter overrides. -/
def Conf.sent (conf : Conf) (headers : List Header) : List Header :=
  headers.filter fun header => !conf.ignores header

theorem sent_cons (header : Header) (rest : List Header) :
    conf.sent (header :: rest) =
      if conf.ignores header then conf.sent rest else header :: conf.sent rest := by
  rw [Conf.sent, List.filter_cons]
  cases conf.ignores header <;> rfl

theorem headersLoop_eq (headers : List Header) (i len : Nat) (ignored : List Nat) :
    headersLoop conf headers i (len, ignored) =
      (len + (((conf.sent headers).map Header.param).flatMap encodePair).length,
        ignored ++ ((headers.zipIdx i).filter fun pair => conf.ignores pair.1).map Prod.snd) := by
  induction headers generalizing i len ignored with
  | nil => simp [headersLoop, Conf.sent]
  | cons header rest ih =>
    rw [headersLoop, List.zipIdx_cons]
    split
    · rename_i hidden
      rw [ih, sent_cons, if_pos hidden, List.filter_cons, if_pos hidden, List.map_cons,
        List.append_assoc]
      rfl
    · rename_i shown
      rw [ih, sent_cons, if_neg shown, List.filter_cons, if_neg shown, List.map_cons,
        List.flatMap_cons, List.length_append]
      congr 1
      have value : header.param.2.length = header.value.length := rfl
      rw [encodePair, List.length_append, List.length_append, List.length_append,
        encodeLength_length, encodeLength_length, header_param_length, value, Nat.add_assoc]

theorem writeHeaders_eq {ignored : List Nat} {headers : List Header} {i : Nat}
    (same : ∀ pair ∈ headers.zipIdx i, pair.2 ∈ ignored ↔ conf.ignores pair.1 = true)
    (out : List UInt8) :
    writeHeaders ignored headers i out =
      out ++ ((conf.sent headers).map Header.param).flatMap encodePair := by
  induction headers generalizing i out with
  | nil => simp [writeHeaders, Conf.sent]
  | cons header rest ih =>
    rw [List.zipIdx_cons] at same
    have here := same _ List.mem_cons_self
    have later : ∀ pair ∈ rest.zipIdx (i + 1), pair.2 ∈ ignored ↔ conf.ignores pair.1 = true :=
      fun pair inside => same pair (List.mem_cons_of_mem _ inside)
    rw [writeHeaders]
    split
    · rename_i hidden
      rw [ih later, sent_cons, if_pos (here.mp hidden)]
    · rename_i shown
      rw [ih later, sent_cons, if_neg fun ignores => shown (here.mpr ignores), List.map_cons,
        List.flatMap_cons, List.append_assoc]
      congr 1
      rw [encodePair, header_param_length, writeLen_eq, writeLen_eq]
      simp only [Header.param, List.append_assoc]

theorem mem_ignored {α : Type} {ignores : α → Bool} {headers : List α} {i : Nat} :
    ∀ pair ∈ headers.zipIdx i,
      pair.2 ∈ ((headers.zipIdx i).filter fun pair => ignores pair.1).map Prod.snd ↔
        ignores pair.1 = true := by
  intro (header, index) inside
  constructor
  · intro found
    obtain ⟨⟨other, index'⟩, stored, rfl⟩ := List.mem_map.mp found
    obtain ⟨member, hidden⟩ := List.mem_filter.mp stored
    have first := (List.mk_mem_zipIdx_iff_le_and_getElem?_sub.mp inside).2
    have second := (List.mk_mem_zipIdx_iff_le_and_getElem?_sub.mp member).2
    cases first.symm.trans second
    exact hidden
  · intro hidden
    exact List.mem_map.mpr ⟨(header, index), List.mem_filter.mpr ⟨inside, hidden⟩, rfl⟩

end Headers

section Passes

def requestPairs (conf : Conf) (sources : List Source) (r : Request) :
    List (List UInt8 × List UInt8) :=
  (sources.filter Source.kept).map r.param ++
    (conf.sent (if conf.passRequestHeaders then r.headers else [])).map Header.param

variable {conf : Conf} {sources : List Source} {r : Request}

theorem entries_length (entries : List Source) :
    entries.length ≤ (entries.flatMap Source.lenWords ++ [none]).length := by
  induction entries with
  | nil => exact Nat.zero_le _
  | cons src rest ih =>
    rw [List.flatMap_cons, List.append_assoc, List.length_append, List.length_cons]
    have positive : 0 < src.lenWords.length := by simp [Source.lenWords]
    omega

theorem params_passes (merged : conf.Merged sources)
    (names : ∀ src ∈ sources, src.key.length ≤ 127) :
    paramsLen conf r = (((sources.filter Source.kept).map r.param).flatMap encodePair).length ∧
      paramsBytes conf r = ((sources.filter Source.kept).map r.param).flatMap encodePair := by
  rw [paramsLen, paramsBytes]
  rcases merged with ⟨absent, rfl⟩ | ⟨lens, codes⟩
  · rw [absent]
    exact ⟨rfl, rfl⟩
  · have kept : ∀ src ∈ sources.filter Source.kept, src.key.length ≤ 127 :=
      fun src inside => names src (List.mem_filter.mp inside).1
    have words := mergeLoop_words sources ⟨[], [], []⟩
    simp only [ngxHttpFastcgiMergeParams, words.1, words.2, List.nil_append] at lens codes
    rw [lens, codes]
    dsimp only
    rw [paramsLoop_words (entries_length _) kept, writeParams_words (entries_length _) kept]
    exact ⟨Nat.zero_add _, rfl⟩

theorem requestParams_eq (merged : conf.Merged sources)
    (names : ∀ src ∈ sources, src.key.length ≤ 127) :
    (requestLen conf r).1 = ((requestPairs conf sources r).flatMap encodePair).length ∧
      requestParams conf r (requestLen conf r).2 =
        (requestPairs conf sources r).flatMap encodePair := by
  obtain ⟨length, bytes⟩ := params_passes (r := r) merged names
  simp only [requestLen, requestParams, requestPairs, length, bytes, List.flatMap_append]
  cases conf.passRequestHeaders with
  | false => exact ⟨(List.append_nil _).symm ▸ rfl, (List.append_nil _).symm⟩
  | true =>
    simp only [if_true, headersLoop_eq, List.length_append, List.nil_append]
    exact ⟨trivial, writeHeaders_eq mem_ignored _⟩

end Passes

end NgxFormal.Http.FastcgiRequest
