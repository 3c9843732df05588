import NgxFormal.Http.FastcgiRequest

/-! The chain that `ngx_http_fastcgi_create_request` leaves is a stream of records, and each of its
buffers is as long as it was made. -/

namespace NgxFormal.Http.FastcgiRequest

open NgxFormal.Lib.FastCgi

section Frames

theorem paddingOf_small (len : Nat) : paddingOf len < 256 := by
  rw [paddingOf]
  split <;> omega

theorem fastcgiHeader_frame (type : UInt8) (content : List UInt8) (padding : Nat) :
    fastcgiHeader type content.length padding ++ content ++ List.replicate padding 0 =
      frame type content padding := by
  have low : UInt8.ofNat (content.length &&& 0xff) = UInt8.ofNat content.length := by
    apply UInt8.toNat_inj.mp
    rw [UInt8.toNat_ofNat', UInt8.toNat_ofNat', Nat.and_two_pow_sub_one_eq_mod _ 8]
    exact Nat.mod_mod _ _
  have high : UInt8.ofNat (content.length >>> 8 &&& 0xff) = UInt8.ofNat (content.length / 256) := by
    apply UInt8.toNat_inj.mp
    rw [UInt8.toNat_ofNat', UInt8.toNat_ofNat', Nat.and_two_pow_sub_one_eq_mod _ 8,
      Nat.shiftRight_eq_div_pow]
    exact Nat.mod_mod _ _
  rw [fastcgiHeader, low, high, frame]

theorem fastcgiHeader_empty (type : UInt8) : fastcgiHeader type 0 0 = frame type [] 0 := by
  rw [← fastcgiHeader_frame]
  rfl

theorem fastcgiHeader_length (type : UInt8) (len padding : Nat) :
    (fastcgiHeader type len padding).length = 8 := rfl

end Frames

section Body

variable (data : Data)

/-- The bytes in front of the header `h`. -/
def Chain.stream (cl : Chain) : List UInt8 := cl.links.flatMap data.link ++ cl.bytes

/-- A temporary buffer holds what is written into it. -/
def Link.Fits : Link → Prop
  | .temp bytes size => bytes.length ≤ size
  | .part _ => True

structure Chain.Fits (cl : Chain) : Prop where
  links : ∀ link ∈ cl.links, link.Fits
  room : cl.bytes.length + 8 ≤ cl.size

def stdinFrame (content : List UInt8) : List UInt8 := frame STDIN content (paddingOf content.length)

variable {data} {cl : Chain} {buf : Buf}

theorem fill_bytes (type : UInt8) (len padding : Nat) :
    (cl.fill type len padding).flatMap data.link =
      cl.stream data ++ fastcgiHeader type len padding := by
  rw [Chain.fill, List.flatMap_append, List.flatMap_singleton, Data.link, Chain.stream,
    List.append_assoc]

theorem fill_fits (fits : cl.Fits) (type : UInt8) (len padding : Nat) :
    ∀ link ∈ cl.fill type len padding, link.Fits := by
  intro link inside
  rcases List.mem_append.mp inside with earlier | last
  · exact fits.links link earlier
  · rw [List.mem_singleton.mp last]
    have room := fits.room
    rw [Link.Fits, List.length_append, fastcgiHeader_length]
    exact room

/-- The bytes of a buffer between two of its positions. -/
def Data.range (data : Data) (buf : Buf) (start stop : Nat) : List UInt8 :=
  (List.range' start (stop - start)).map (if buf.inFile then data.file else data.memory)

theorem buf_slice (start stop : Nat) : data.buf (buf.slice start stop) = data.range buf start stop := by
  rw [Data.buf, Buf.slice, Data.range]
  cases buf.inFile <;> rfl

theorem buf_range : data.buf buf = data.range buf buf.start buf.stop := by
  rw [Data.buf, Data.range, Buf.start, Buf.stop]
  cases buf.inFile <;> rfl

theorem range_length (start stop : Nat) : (data.range buf start stop).length = stop - start := by
  rw [Data.range, List.length_map, List.length_range']

theorem range_append {start mid stop : Nat} (first : start ≤ mid) (second : mid ≤ stop) :
    data.range buf start mid ++ data.range buf mid stop = data.range buf start stop := by
  have middle : mid = start + (mid - start) := by omega
  have length : stop - start = mid - start + (stop - mid) := by omega
  rw [Data.range, Data.range, Data.range, ← List.map_append, length, ← List.range'_append_1,
    ← middle]

theorem slice_stream (start stop : Nat) :
    (Chain.stream data
        { links := cl.fill STDIN (stop - start) (paddingOf (stop - start)) ++
            [.part (buf.slice start stop)]
          bytes := List.replicate (paddingOf (stop - start)) 0
          size := 8 + paddingOf (stop - start) }) =
      cl.stream data ++ stdinFrame (data.range buf start stop) := by
  have record := fastcgiHeader_frame STDIN (data.range buf start stop) (paddingOf (stop - start))
  rw [range_length] at record
  rw [Chain.stream, List.flatMap_append, List.flatMap_singleton, fill_bytes, stdinFrame,
    range_length, ← record, Data.link, buf_slice]
  simp only [List.append_assoc]

theorem slice_fits (fits : cl.Fits) (len : Nat) (part : Buf) :
    Chain.Fits
      { links := cl.fill STDIN len (paddingOf len) ++ [.part part]
        bytes := List.replicate (paddingOf len) 0
        size := 8 + paddingOf len } := by
  refine ⟨?_, ?_⟩
  · intro link inside
    rcases List.mem_append.mp inside with filled | last
    · exact fill_fits fits _ _ _ link filled
    · rw [List.mem_singleton.mp last]
      trivial
  · simp only [List.length_replicate]
    omega

theorem slicesLoop_stream (data : Data) {fuel pos : Nat} (inside : pos < buf.stop) (enough : buf.stop - pos ≤ fuel)
    (fits : cl.Fits) :
    (slicesLoop buf fuel pos cl).Fits ∧
      ∃ slices : List (List UInt8),
        (slicesLoop buf fuel pos cl).stream data = cl.stream data ++ slices.flatMap stdinFrame ∧
          slices.flatten = data.range buf pos buf.stop ∧
          ∀ slice ∈ slices, slice ≠ [] ∧ slice.length ≤ 32 * 1024 := by
  induction fuel generalizing pos cl with
  | zero => omega
  | succ fuel ih =>
    rw [slicesLoop]
    by_cases next : buf.stop ≤ pos + 32 * 1024
    · rw [if_pos next, if_pos next]
      refine ⟨slice_fits fits _ _, [data.range buf pos buf.stop], ?_, ?_, ?_⟩
      · rw [slice_stream, List.flatMap_singleton]
      · rw [List.flatten_singleton]
      · intro slice member
        rw [List.mem_singleton.mp member, ← List.length_pos_iff, range_length]
        omega
    · rw [if_neg next, if_neg next]
      obtain ⟨fits', slices, stream, all, small⟩ :=
        ih (by omega : pos + 32 * 1024 < buf.stop) (by omega)
          (slice_fits fits (pos + 32 * 1024 - pos) (buf.slice pos (pos + 32 * 1024)))
      refine ⟨fits', data.range buf pos (pos + 32 * 1024) :: slices, ?_, ?_, ?_⟩
      · rw [stream, slice_stream, List.flatMap_cons, List.append_assoc]
      · rw [List.flatten_cons, all, range_append (by omega) (by omega)]
      · intro slice member
        rcases List.mem_cons.mp member with rfl | later
        · rw [← List.length_pos_iff, range_length]
          omega
        · exact small slice later

theorem bodyLoop_stream (data : Data) {body : List Buf} (filled : ∀ buf ∈ body, buf.start < buf.stop)
    (fits : cl.Fits) :
    (bodyLoop body cl).Fits ∧
      ∃ slices : List (List UInt8),
        (bodyLoop body cl).stream data = cl.stream data ++ slices.flatMap stdinFrame ∧
          slices.flatten = body.flatMap data.buf ∧
          ∀ slice ∈ slices, slice ≠ [] ∧ slice.length ≤ 32 * 1024 := by
  induction body generalizing cl with
  | nil => exact ⟨fits, [], (List.append_nil _).symm, rfl, by simp⟩
  | cons buf rest ih =>
    obtain ⟨fits', slices, stream, all, small⟩ :=
      slicesLoop_stream data (filled buf List.mem_cons_self)
        (by omega : buf.stop - buf.start ≤ buf.stop - buf.start + 1) fits
    obtain ⟨fits'', more, stream', all', small'⟩ :=
      ih (fun other member => filled other (List.mem_cons_of_mem _ member)) fits'
    refine ⟨fits'', slices ++ more, ?_, ?_, ?_⟩
    · rw [List.flatMap_append, ← List.append_assoc, ← stream]
      exact stream'
    · rw [List.flatten_append, all, all', List.flatMap_cons, buf_range]
    · intro slice member
      rcases List.mem_append.mp member with first | later
      · exact small slice first
      · exact small' slice later

end Body

section Request

variable {conf : Conf} {sources : List Source} {r : Request} {chain : List Link}

def sentBody (conf : Conf) (r : Request) : List Buf := if conf.passRequestBody then r.body else []

/-- The first buffer without its last header. -/
def requestHead (params : List UInt8) : List UInt8 :=
  frame BEGIN_REQUEST [0, 1, 0, 0, 0, 0, 0, 0] 0 ++ frame PARAMS params (paddingOf params.length) ++
    frame PARAMS [] 0

def headChain (params : List UInt8) : Chain :=
  { links := []
    bytes := requestHead params
    size := 8 + 8 + 8 + params.length + paddingOf params.length + 8 + 8 }

theorem headChain_fits (params : List UInt8) : (headChain params).Fits := by
  refine ⟨fun link inside => absurd inside List.not_mem_nil, ?_⟩
  simp only [headChain]
  simp only [requestHead, List.length_append, frame_length, List.length_nil, List.length_cons]
  omega

theorem requestHead_eq (params : List UInt8) :
    requestStart ++ fastcgiHeader PARAMS params.length (paddingOf params.length) ++ params ++
        List.replicate (paddingOf params.length) 0 ++ fastcgiHeader PARAMS 0 0 =
      requestHead params := by
  rw [requestHead, ← fastcgiHeader_frame PARAMS params, fastcgiHeader_empty]
  simp only [List.append_assoc]
  rfl

theorem create_request_chain (merged : conf.Merged sources)
    (names : ∀ src ∈ sources, src.key.length ≤ 127)
    (created : ngxHttpFastcgiCreateRequest conf r = some chain) :
    ((requestPairs conf sources r).flatMap encodePair).length ≤ 65535 ∧
      chain = (bodyLoop (sentBody conf r)
        (headChain ((requestPairs conf sources r).flatMap encodePair))).fill STDIN 0 0 := by
  obtain ⟨len, params⟩ := requestParams_eq (r := r) merged names
  rw [ngxHttpFastcgiCreateRequest] at created
  dsimp only at created
  split at created
  · cases created
  · rename_i short
    rw [Option.some.injEq, len, params, requestHead_eq] at created
    rw [len] at short
    refine ⟨by omega, ?_⟩
    rw [← created, sentBody, headChain]
    cases conf.passRequestBody <;> rfl

/-- A created request is a stream of records: BEGIN_REQUEST, the parameters and the headers that
are not overridden, the end of the parameters, the body, and its end. No buffer overflows. -/
theorem create_request_decodes (data : Data) (merged : conf.Merged sources)
    (names : ∀ src ∈ sources, src.key.length ≤ 127) (filled : ∀ buf ∈ r.body, buf.start < buf.stop)
    (created : ngxHttpFastcgiCreateRequest conf r = some chain) :
    (∀ link ∈ chain, link.Fits) ∧
      ∃ (params : List UInt8) (slices : List (List UInt8)),
        decodeRecords (chain.flatMap data.link) =
            some (⟨BEGIN_REQUEST, 1, [0, 1, 0, 0, 0, 0, 0, 0]⟩ :: ⟨PARAMS, 1, params⟩ ::
              ⟨PARAMS, 1, []⟩ :: (slices.map fun slice => ⟨STDIN, 1, slice⟩) ++ [⟨STDIN, 1, []⟩]) ∧
          decodePairs params = some (requestPairs conf sources r) ∧
          slices.flatten = (sentBody conf r).flatMap data.buf ∧ ∀ slice ∈ slices, slice ≠ [] := by
  obtain ⟨short, rfl⟩ := create_request_chain merged names created
  have filled' : ∀ buf ∈ sentBody conf r, buf.start < buf.stop := by
    intro buf member
    rw [sentBody] at member
    split at member
    · exact filled buf member
    · cases member
  obtain ⟨fits', slices, stream, all, small⟩ :=
    bodyLoop_stream data filled' (headChain_fits _)
  refine ⟨fill_fits fits' _ _ _, (requestPairs conf sources r).flatMap encodePair, slices, ?_, ?_,
    all, fun slice member => (small slice member).1⟩
  · rw [fill_bytes, stream, Chain.stream, headChain, requestHead, List.flatMap_nil,
      List.nil_append, fastcgiHeader_empty]
    simp only [List.append_assoc]
    have last : decodeRecords (frame STDIN [] 0 ++ []) = some [⟨STDIN, 1, []⟩] :=
      decodeRecords_frame (by decide) (by decide) decodeRecords_nil
    rw [List.append_nil] at last
    have body : decodeRecords (slices.flatMap stdinFrame ++ frame STDIN [] 0) =
        some (slices.map (fun slice => ⟨STDIN, 1, slice⟩) ++ [⟨STDIN, 1, []⟩]) :=
      decodeRecords_frames (fun slice member => by have := (small slice member).2; omega)
        (fun slice _ => paddingOf_small slice.length) last
    have params : decodeRecords (frame PARAMS [] 0 ++ (slices.flatMap stdinFrame ++ frame STDIN [] 0))
        = some (⟨PARAMS, 1, []⟩ ::
          (slices.map (fun slice => ⟨STDIN, 1, slice⟩) ++ [⟨STDIN, 1, []⟩])) :=
      decodeRecords_frame (by decide) (by decide) body
    exact decodeRecords_frame (by decide) (by decide)
      (decodeRecords_frame (Nat.lt_succ_of_le short) (paddingOf_small _) params)
  · apply decodePairs_encodePair
    intro pair member
    have part := encodePair_le member
    constructor <;> omega

/-- A parameter with a variable, an overridden header and one that is sent, and a body in memory. -/
theorem create_request_decodes_get :
    let param (name : String) (value : List ValueCode) : Source := ⟨name.toList.map chr, value⟩
    let sources := [param "QUERY" [.var 0], param "HTTP_HOST" []]
    let merged := ngxHttpFastcgiMergeParams sources
    let conf : Conf := ⟨some merged.paramsLen, merged.params, 1, fun key => key ∈ merged.headersNames,
      true, true⟩
    let r : Request := ⟨fun _ => [97, 61, 49], [⟨[72, 111, 115, 116], [120]⟩, ⟨[65, 45, 98], [121]⟩],
      [⟨false, 2, 5, 0, 0⟩]⟩
    let data : Data := ⟨fun p => UInt8.ofNat p, fun _ => 0⟩
    ∃ chain, ngxHttpFastcgiCreateRequest conf r = some chain ∧
      (∀ link ∈ chain, link.Fits) ∧
        ∃ (params : List UInt8) (slices : List (List UInt8)),
          decodeRecords (chain.flatMap data.link) =
              some (⟨BEGIN_REQUEST, 1, [0, 1, 0, 0, 0, 0, 0, 0]⟩ :: ⟨PARAMS, 1, params⟩ ::
                ⟨PARAMS, 1, []⟩ :: (slices.map fun slice => ⟨STDIN, 1, slice⟩) ++ [⟨STDIN, 1, []⟩]) ∧
            decodePairs params = some [([81, 85, 69, 82, 89], [97, 61, 49]),
              ([72, 84, 84, 80, 95, 65, 95, 66], [121])] ∧
            slices.flatten = [2, 3, 4] ∧ ∀ slice ∈ slices, slice ≠ [] := by
  intro param sources merged conf r data
  have created : ngxHttpFastcgiCreateRequest conf r =
      some ((ngxHttpFastcgiCreateRequest conf r).getD []) := by decide +kernel
  refine ⟨_, created, ?_⟩
  exact create_request_decodes data (Or.inr ⟨rfl, rfl⟩) (by decide +kernel) (by decide +kernel) created

end Request

end NgxFormal.Http.FastcgiRequest
