import NgxFormal.Core.Times
import NgxFormal.Http.RangeSinglepart

/-! `ngx_http_range_multipart_header`, which announces the length, and
`ngx_http_range_multipart_body`, which builds the chain from a body in one buffer. -/

namespace NgxFormal.Http.RangeMultipart

open NgxFormal.Core NgxFormal.Core.Sprintf NgxFormal.Lib.Window
open NgxFormal.Core.Times (bytes)
open NgxFormal.Http.RangeSinglepart (Range)

def crlf : List UInt8 := [CR, LF]

/-- The fields of `r->headers_out` that the filter reads and sets. -/
structure HeadersOut where
  contentType : List UInt8
  charset : List UInt8
  contentLengthN : Int

/-- `ngx_http_range_filter_ctx_t`: each range with its `content_range`. -/
structure Ctx where
  boundaryHeader : List UInt8
  ranges : List (Range × List UInt8)

/-- A `size_t` sum. -/
def sizeT (n : Nat) : Nat := n % 0x10000000000000000

/-- A number assigned to an `off_t`. -/
def offT (n : Nat) : Int := (n : Int).bmod 0x10000000000000000

def boundaryHeader (h : HeadersOut) (boundary : UInt64) : List UInt8 :=
  if h.charset.length ≠ 0 then
    ngxVslprintf none
      (crlf ++ (bytes "--%0muA" ++ (crlf ++ (bytes "Content-Type: %V; charset=%V" ++
        (crlf ++ bytes "Content-Range: bytes ")))))
      [.A boundary, .V h.contentType, .V h.charset]
  else if h.contentType.length ≠ 0 then
    ngxVslprintf none
      (crlf ++ (bytes "--%0muA" ++ (crlf ++ (bytes "Content-Type: %V" ++
        (crlf ++ bytes "Content-Range: bytes ")))))
      [.A boundary, .V h.contentType]
  else
    ngxVslprintf none
      (crlf ++ (bytes "--%0muA" ++ (crlf ++ bytes "Content-Range: bytes ")))
      [.A boundary]

/-- `"SSSS-EEEE/TTTT" CRLF CRLF` -/
def contentRange (contentLengthN : Int) (range : Range) : List UInt8 :=
  ngxVslprintf none (bytes "%O-%O/%O" ++ (crlf ++ crlf))
    [.O range.start, .O ((range.stop : Int) - 1), .O contentLengthN]

/-- The loop that adds up the size of the parts. -/
def partsLen (boundaryHeader : List UInt8) : Nat → List (Range × List UInt8) → Nat
  | len, [] => len
  | len, (range, contentRange) :: ranges =>
    partsLen boundaryHeader
      (sizeT (len + (boundaryHeader.length + contentRange.length + (range.stop - range.start))))
      ranges

def ngxHttpRangeMultipartHeader (h : HeadersOut) (boundary : UInt64) (ranges : List Range) :
    HeadersOut × Ctx :=
  let header := boundaryHeader h boundary
  let contentType := ngxVslprintf none (bytes "multipart/byteranges; boundary=%0muA") [.A boundary]
  -- the size of the last boundary CRLF "--0123456789--" CRLF
  let len := (crlf ++ bytes "--").length + NGX_ATOMIC_T_LEN + (bytes "--" ++ crlf).length
  let ranges := ranges.map fun range => (range, contentRange h.contentLengthN range)
  ({ contentType := contentType
     charset := []
     contentLengthN := offT (partsLen header len ranges) },
    { boundaryHeader := header
      ranges := ranges })

/-- A buffer from `ngx_calloc_buf` that gets `data` for its memory. -/
def textBuf (data : List UInt8) (temporary lastBuf : Bool) : Buf where
  pos := 0
  last := data.length
  filePos := 0
  fileLast := 0
  temporary := temporary
  memory := !temporary
  mmap := false
  inFile := false
  flush := false
  sync := false
  lastBuf := lastBuf
  mem := fun i => data.getD i 0
  file := fun _ => 0

def dataBuf (buf : Buf) (range : Range) : Buf where
  pos := if ngxBufInMemory buf then buf.pos + range.start else 0
  last := if ngxBufInMemory buf then buf.pos + range.stop else 0
  filePos := if buf.inFile then buf.filePos + range.start else 0
  fileLast := if buf.inFile then buf.filePos + range.stop else 0
  temporary := buf.temporary
  memory := buf.memory
  mmap := buf.mmap
  inFile := buf.inFile
  flush := false
  sync := false
  lastBuf := false
  mem := buf.mem
  file := buf.file

def ngxHttpRangeMultipartBody (ctx : Ctx) (buf : Buf) : List Buf :=
  (ctx.ranges.flatMap fun part =>
    [textBuf ctx.boundaryHeader false false, textBuf part.2 true false, dataBuf buf part.1]) ++
  -- the last boundary CRLF "--0123456789--" CRLF
  [textBuf (ctx.boundaryHeader.take ((crlf ++ bytes "--").length + NGX_ATOMIC_T_LEN) ++
    [chr '-', chr '-', CR, LF]) true true]

/-- The boundary of a multipart response: its number in twenty digits. -/
def boundaryText (boundary : UInt64) : List UInt8 :=
  List.replicate (20 - (decimal boundary.toNat).length) (chr '0') ++ decimal boundary.toNat

/-- The type line of a part, if there is a type. -/
def typeLine (contentType charset : List UInt8) : List UInt8 :=
  if charset = [] ∧ contentType = [] then []
  else
    bytes "Content-Type: " ++ contentType ++
      (if charset = [] then [] else bytes "; charset=" ++ charset) ++ crlf

/-- One part of a `multipart/byteranges` body. -/
def part (h : HeadersOut) (boundary : UInt64) (body : List UInt8) (range : Range) : List UInt8 :=
  crlf ++ bytes "--" ++ boundaryText boundary ++ crlf ++ typeLine h.contentType h.charset ++
    bytes "Content-Range: bytes " ++ decimal range.start ++ bytes "-" ++
    decimal (range.stop - 1) ++ bytes "/" ++ decimal body.length ++ crlf ++ crlf ++
    (body.take range.stop).drop range.start

/-- The serialisation of the parts with the closing delimiter. -/
def multipart (h : HeadersOut) (boundary : UInt64) (body : List UInt8) (ranges : List Range) :
    List UInt8 :=
  ranges.flatMap (part h boundary body) ++
    (crlf ++ bytes "--" ++ boundaryText boundary ++ bytes "--" ++ crlf)

theorem printed_boundary (boundary : UInt64) (fmt : List UInt8) (args : List Arg) :
    ngxVslprintf none (bytes "%0muA" ++ fmt) (.A boundary :: args) =
      boundaryText boundary ++ ngxVslprintf none fmt args := by
  have fits : boundary.toNat < 10 ^ 21 := Nat.lt_trans boundary.toNat_lt (by decide)
  rw [boundaryText, ← ngxSprintfNum_eq (chr '0') 20 _ fits]
  simp [ngxVslprintf, bytes, chr, isDigit, peek, NGX_ATOMIC_T_LEN]

theorem printed_string (v fmt : List UInt8) (args : List Arg) :
    ngxVslprintf none (bytes "%V" ++ fmt) (.V v :: args) = v ++ ngxVslprintf none fmt args := by
  simp [ngxVslprintf, bytes, chr, isDigit]

theorem printed_offset (n : Nat) (fits : n < 10 ^ 21) (fmt : List UInt8) (args : List Arg) :
    ngxVslprintf none (bytes "%O" ++ fmt) (.O n :: args) =
      decimal n ++ ngxVslprintf none fmt args := by
  have digits := ngxSprintfNum_eq (chr ' ') 0 n fits
  rw [Nat.zero_sub, List.replicate_zero, List.nil_append] at digits
  rw [← digits]
  have natural : ¬ ((n : Int) < 0) := by omega
  simp [ngxVslprintf, bytes, chr, isDigit, peek, signed, natural]

theorem boundaryText_length (boundary : UInt64) : (boundaryText boundary).length = 20 := by
  have short := decimal_length boundary.toNat 20 (by decide)
    (Nat.lt_trans boundary.toNat_lt (by decide))
  rw [boundaryText, List.length_append, List.length_replicate]
  omega

/-- The three formats of the boundary header print one text. -/
theorem boundaryHeader_eq (h : HeadersOut) (boundary : UInt64) :
    boundaryHeader h boundary =
      crlf ++ bytes "--" ++ boundaryText boundary ++ crlf ++ typeLine h.contentType h.charset ++
        bytes "Content-Range: bytes " := by
  have dashes (fmt : List UInt8) (args : List Arg) :
      ngxVslprintf none (crlf ++ (bytes "--%0muA" ++ (crlf ++ fmt))) (.A boundary :: args) =
        crlf ++ bytes "--" ++ boundaryText boundary ++ crlf ++ ngxVslprintf none fmt args := by
    have split : bytes "--%0muA" = bytes "--" ++ bytes "%0muA" := by decide
    rw [ngxVslprintf_text crlf _ _ (by decide), split, List.append_assoc,
      ngxVslprintf_text (bytes "--") _ _ (by decide), printed_boundary,
      ngxVslprintf_text crlf _ _ (by decide)]
    simp only [List.append_assoc]
  have tail : ngxVslprintf none (bytes "Content-Range: bytes ") [] =
      bytes "Content-Range: bytes " := by decide
  have typed (fmt : List UInt8) (args : List Arg) :
      ngxVslprintf none (bytes "Content-Type: %V" ++ fmt) (.V h.contentType :: args) =
        bytes "Content-Type: " ++ (h.contentType ++ ngxVslprintf none fmt args) := by
    have split : bytes "Content-Type: %V" = bytes "Content-Type: " ++ bytes "%V" := by decide
    rw [split, List.append_assoc, ngxVslprintf_text (bytes "Content-Type: ") _ _ (by decide),
      printed_string]
  rw [boundaryHeader, typeLine]
  by_cases charset : h.charset = []
  · by_cases type : h.contentType = []
    · simp [charset, type, dashes, tail]
    · have more : h.contentType.length ≠ 0 := fun zero => type (List.length_eq_zero_iff.mp zero)
      rw [if_neg (by simp [charset]), if_pos more, dashes, typed,
        ngxVslprintf_text crlf _ _ (by decide), tail]
      simp [charset, type]
  · have split : bytes "Content-Type: %V; charset=%V" =
        bytes "Content-Type: %V" ++ (bytes "; charset=" ++ bytes "%V") := by decide
    have more : h.charset.length ≠ 0 := fun zero => charset (List.length_eq_zero_iff.mp zero)
    rw [if_pos more, dashes, split, List.append_assoc (bytes "Content-Type: %V"), typed,
      List.append_assoc (bytes "; charset="),
      ngxVslprintf_text (bytes "; charset=") _ _ (by decide), printed_string,
      ngxVslprintf_text crlf _ _ (by decide), tail]
    simp [charset]

theorem boundaryHeader_front (h : HeadersOut) (boundary : UInt64) :
    (boundaryHeader h boundary).take ((crlf ++ bytes "--").length + NGX_ATOMIC_T_LEN) =
      crlf ++ bytes "--" ++ boundaryText boundary := by
  have width : (crlf ++ bytes "--" ++ boundaryText boundary).length =
      (crlf ++ bytes "--").length + NGX_ATOMIC_T_LEN := by
    rw [List.length_append, boundaryText_length, NGX_ATOMIC_T_LEN]
  rw [boundaryHeader_eq, List.append_assoc _ crlf, List.append_assoc _ _ (bytes _)]
  exact List.take_left' width

theorem contentRange_eq (range : Range) (length : Nat) (within : range.stop ≤ length)
    (fits : length < 10 ^ 21) :
    contentRange length range =
      decimal range.start ++ bytes "-" ++ decimal (range.stop - 1) ++ bytes "/" ++
        decimal length ++ crlf ++ crlf := by
  have proper := range.proper
  have before : (range.stop : Int) - 1 = (range.stop - 1 : Nat) := by omega
  have split : bytes "%O-%O/%O" =
      bytes "%O" ++ (bytes "-" ++ (bytes "%O" ++ (bytes "/" ++ bytes "%O"))) := by decide
  rw [contentRange, before, split, List.append_assoc, printed_offset _ (by omega),
    List.append_assoc, ngxVslprintf_text (bytes "-") _ _ (by decide), List.append_assoc,
    printed_offset _ (by omega), List.append_assoc,
    ngxVslprintf_text (bytes "/") _ _ (by decide), printed_offset _ fits]
  have tail : ngxVslprintf none (crlf ++ crlf) [] = crlf ++ crlf := by decide
  rw [tail]
  simp only [List.append_assoc]

theorem holds_textBuf (data : List UInt8) (temporary lastBuf : Bool) :
    Holds (textBuf data temporary lastBuf) data := by
  have memory : ngxBufInMemory (textBuf data temporary lastBuf) = true := by
    cases temporary <;> rfl
  constructor
  · intro _
    refine ⟨Nat.zero_le _, ?_⟩
    apply List.ext_getElem
    · simp [window_length, textBuf]
    · intro i inside inside'
      simp [window, textBuf, inside']
  · intro file
    cases file
  · intro nowhere
    rw [memory] at nowhere
    cases nowhere

theorem holds_dataBuf {buf : Buf} {body : List UInt8} (holds : Holds buf body) (range : Range)
    (within : range.stop ≤ body.length) :
    Holds (dataBuf buf range) ((body.take range.stop).drop range.start) := by
  have proper := range.proper
  have slice (mem : Nat → UInt8) (pos last : Nat) (le : pos ≤ last)
      (whole : window mem pos last = body) :
      pos + range.start ≤ pos + range.stop ∧
        window mem (pos + range.start) (pos + range.stop) =
          (body.take range.stop).drop range.start := by
    have width := congrArg List.length whole
    rw [window_length] at width
    rw [← whole, window_take (by omega), window_drop (by omega)]
    exact ⟨by omega, rfl⟩
  have memory : ngxBufInMemory (dataBuf buf range) = ngxBufInMemory buf := rfl
  constructor
  · intro here
    rw [memory] at here
    obtain ⟨le, whole⟩ := holds.inMemory here
    simp only [dataBuf, here, if_true]
    exact slice buf.mem buf.pos buf.last le whole
  · intro here
    obtain ⟨le, whole⟩ := holds.inFile here
    have inFile : buf.inFile = true := here
    simp only [dataBuf, inFile, if_true]
    exact slice buf.file buf.filePos buf.fileLast le whole
  · intro noMemory noFile
    rw [memory] at noMemory
    obtain ⟨_, nothing⟩ := holds.nowhere noMemory noFile
    rw [nothing, List.length_nil] at within
    omega

theorem partsLen_eq (header : List UInt8) (len : Nat) (ranges : List (Range × List UInt8)) :
    sizeT (partsLen header len ranges) =
      sizeT (len + (ranges.map fun part =>
        header.length + part.2.length + (part.1.stop - part.1.start)).sum) := by
  induction ranges generalizing len with
  | nil => simp [partsLen]
  | cons part ranges ih =>
    rw [partsLen, ih, List.map_cons, List.sum_cons, sizeT, sizeT, sizeT, Nat.mod_add_mod,
      Nat.add_assoc]

theorem offT_sizeT (n : Nat) : offT (sizeT n) = offT n := by
  unfold offT sizeT
  rw [Int.natCast_mod]
  exact Int.emod_bmod _ _

theorem offT_small (n : Nat) (small : n < 0x8000000000000000) : offT n = n := by
  unfold offT
  rw [Int.bmod_def]
  omega

/-- A response whose whole body is in one buffer. -/
structure Response where
  contentType : List UInt8
  charset : List UInt8
  body : List UInt8
  buf : Buf
  holds : Holds buf body
  fits : body.length < 0x8000000000000000

def Response.headersOut (response : Response) : HeadersOut :=
  ⟨response.contentType, response.charset, response.body.length⟩

theorem part_pieces (response : Response) (boundary : UInt64) (range : Range)
    (within : range.stop ≤ response.body.length) :
    let header := boundaryHeader response.headersOut boundary
    let cr := contentRange response.body.length range
    ∃ slice, Holds (dataBuf response.buf range) slice ∧
      header ++ cr ++ slice = part response.headersOut boundary response.body range ∧
      slice.length = range.stop - range.start := by
  have fits : response.body.length < 10 ^ 21 := Nat.lt_trans response.fits (by decide)
  refine ⟨_, holds_dataBuf response.holds range within, ?_, ?_⟩
  · rw [boundaryHeader_eq, contentRange_eq range _ within fits, part]
    simp only [List.append_assoc]
  · rw [List.length_drop, List.length_take, Nat.min_eq_left within]

theorem parts_pieces (response : Response) (boundary : UInt64) (ranges : List Range)
    (within : ∀ range ∈ ranges, range.stop ≤ response.body.length) :
    let header := boundaryHeader response.headersOut boundary
    let parts := ranges.map fun range => (range, contentRange response.body.length range)
    ∃ pieces,
      List.Forall₂ Holds (parts.flatMap fun part =>
        [textBuf header false false, textBuf part.2 true false, dataBuf response.buf part.1])
        pieces ∧
      pieces.flatten = ranges.flatMap (part response.headersOut boundary response.body) ∧
      pieces.flatten.length = (parts.map fun part =>
        header.length + part.2.length + (part.1.stop - part.1.start)).sum := by
  intro header parts
  induction ranges with
  | nil => exact ⟨[], List.Forall₂.nil, rfl, rfl⟩
  | cons range ranges ih =>
    obtain ⟨pieces, holds, flat, count⟩ :=
      ih fun later member => within later (List.mem_cons_of_mem range member)
    obtain ⟨slice, inSlice, whole, width⟩ :=
      part_pieces response boundary range (within range List.mem_cons_self)
    refine ⟨header :: contentRange response.body.length range :: slice :: pieces, ?_, ?_, ?_⟩
    · exact List.Forall₂.cons (holds_textBuf _ _ _)
        (List.Forall₂.cons (holds_textBuf _ _ _) (List.Forall₂.cons inSlice holds))
    · rw [List.flatten_cons, List.flatten_cons, List.flatten_cons, flat, List.flatMap_cons,
        ← whole, List.append_assoc, List.append_assoc]
    · rw [List.flatten_cons, List.flatten_cons, List.flatten_cons, List.length_append,
        List.length_append, List.length_append, count, width]
      simp only [parts, List.map_cons, List.sum_cons]
      omega

/-- The chain holds the `multipart/byteranges` body of the ranges, and the announced length is
the number of its bytes: as an `off_t` always, and as a number when that is one. -/
theorem multipart_length_and_body (response : Response) (boundary : UInt64) (ranges : List Range)
    (within : ∀ range ∈ ranges, range.stop ≤ response.body.length) :
    let (headersOut, ctx) :=
      ngxHttpRangeMultipartHeader response.headersOut boundary ranges
    ∃ pieces, List.Forall₂ Holds (ngxHttpRangeMultipartBody ctx response.buf) pieces ∧
      pieces.flatten = multipart response.headersOut boundary response.body ranges ∧
      headersOut.contentType = bytes "multipart/byteranges; boundary=" ++ boundaryText boundary ∧
      headersOut.contentLengthN = offT pieces.flatten.length ∧
      (pieces.flatten.length < 0x8000000000000000 →
        headersOut.contentLengthN = pieces.flatten.length) := by
  obtain ⟨pieces, holds, flat, count⟩ := parts_pieces response boundary ranges within
  have type : ngxVslprintf none (bytes "multipart/byteranges; boundary=%0muA") [.A boundary] =
      bytes "multipart/byteranges; boundary=" ++ boundaryText boundary := by
    have split : bytes "multipart/byteranges; boundary=%0muA" =
        bytes "multipart/byteranges; boundary=" ++ (bytes "%0muA" ++ []) := by decide
    rw [split, ngxVslprintf_text _ _ _ (by decide), printed_boundary]
    simp [ngxVslprintf]
  have closing : (boundaryHeader response.headersOut boundary).take
      ((crlf ++ bytes "--").length + NGX_ATOMIC_T_LEN) ++ [chr '-', chr '-', CR, LF] =
      crlf ++ bytes "--" ++ boundaryText boundary ++ bytes "--" ++ crlf := by
    rw [boundaryHeader_front]
    simp only [List.append_assoc]
    rfl
  have text : (pieces ++ [crlf ++ bytes "--" ++ boundaryText boundary ++ bytes "--" ++
      crlf]).flatten = multipart response.headersOut boundary response.body ranges := by
    rw [List.flatten_append, flat, List.flatten_singleton, multipart]
  have last : Holds (textBuf ((boundaryHeader response.headersOut boundary).take
      ((crlf ++ bytes "--").length + NGX_ATOMIC_T_LEN) ++ [chr '-', chr '-', CR, LF]) true true)
      (crlf ++ bytes "--" ++ boundaryText boundary ++ bytes "--" ++ crlf) := by
    rw [closing]
    exact holds_textBuf _ true true
  have start : (crlf ++ bytes "--").length + NGX_ATOMIC_T_LEN + (bytes "--" ++ crlf).length = 28 := by
    decide
  have width : (crlf ++ bytes "--" ++ boundaryText boundary ++ bytes "--" ++ crlf).length = 28 := by
    simp [boundaryText_length, bytes, crlf]
  have length : (ngxHttpRangeMultipartHeader response.headersOut boundary
      ranges).1.contentLengthN = offT (pieces ++ [crlf ++ bytes "--" ++ boundaryText boundary ++
        bytes "--" ++ crlf]).flatten.length := by
    rw [List.flatten_append, List.flatten_singleton, List.length_append, width, count,
      ← offT_sizeT, Nat.add_comm, ← partsLen_eq, offT_sizeT]
    unfold ngxHttpRangeMultipartHeader
    dsimp only
    rw [start]
    rfl
  exact ⟨pieces ++ [_], List.rel_append holds (List.Forall₂.cons last List.Forall₂.nil), text,
    type, length, fun small => length.trans (offT_small _ small)⟩

/-- The body `abc` in memory, without a type, and its first and last byte as the ranges. -/
theorem multipart_two_ranges :
    ∃ (response : Response) (ranges : List Range), ranges.length = 2 ∧
      (∀ range ∈ ranges, range.stop ≤ response.body.length) ∧
      let (headersOut, ctx) := ngxHttpRangeMultipartHeader response.headersOut 7 ranges
      ∃ pieces, List.Forall₂ Holds (ngxHttpRangeMultipartBody ctx response.buf) pieces ∧
        pieces.flatten = multipart response.headersOut 7 response.body ranges ∧
        headersOut.contentType = bytes "multipart/byteranges; boundary=" ++ boundaryText 7 ∧
        headersOut.contentLengthN = offT pieces.flatten.length ∧
        (pieces.flatten.length < 0x8000000000000000 →
          headersOut.contentLengthN = pieces.flatten.length) :=
  ⟨⟨[], [], bytes "abc", textBuf (bytes "abc") true true, holds_textBuf _ _ _, by decide⟩,
    [⟨0, 1, by decide⟩, ⟨2, 3, by decide⟩], by decide, by decide,
    multipart_length_and_body _ 7 _ (by decide)⟩

end NgxFormal.Http.RangeMultipart
