import NgxFormal.Lib.Window

/-! `ngx_http_read_client_request_body`: a request body comes from what was read with the header and
from the connection, and goes into buffers and a temporary file. A buffer is its number in the heap; a
chain is the list of its buffers. -/

namespace NgxFormal.Http.RequestBody

open NgxFormal.Lib.Window

/-- The two stretches of memory: the buffer of the header, and the one of `ngx_create_temp_buf`. -/
inductive Block where
  | headerIn
  | body
  deriving DecidableEq, Repr

/-- The part of `ngx_buf_t` that is used; `stop` is `end`. -/
structure Buf where
  block : Block
  start : Nat
  pos : Nat
  last : Nat
  stop : Nat
  inFile : Bool
  filePos : Nat
  fileLast : Nat
  deriving DecidableEq, Repr

/-- `ngx_temp_file_t`; `fileOffset` is the offset of its `ngx_file_t`. -/
structure TempFile where
  contents : Nat → UInt8
  fileOffset : Nat
  offset : Nat

/-- `ngx_http_request_body_t`; `toWrite` is the number of links of `bufs` in front of `to_write`. -/
structure Body where
  tempFile : Option TempFile
  bufs : List Nat
  buf : Nat
  rest : Nat
  toWrite : Nat

structure Conf where
  clientBodyBufferSize : Nat
  deriving DecidableEq, Repr

/-- What `post_handler` finds: the bytes of the buffers, what `header_in` still holds, and what the
connection still has. -/
structure Found where
  bufs : List (List UInt8)
  headerIn : List UInt8
  input : List UInt8
  deriving DecidableEq, Repr

/-- The request with its connection; `reading` says that its read events go to
`ngx_http_read_client_request_body_handler`. -/
structure Request where
  mem : Block → Nat → UInt8
  heap : Nat → Buf
  nbufs : Nat
  headerIn : Buf
  contentLength : Int
  inFileOnly : Bool
  inSingleBuf : Bool
  discardBody : Bool
  requestBody : Option Body
  reading : Bool
  input : List UInt8
  posted : List Found

/-- What `recv` returns: `bytes` says how many bytes more than one there are, and both say whether
`c->read->ready` is set behind it. -/
inductive Recv where
  | again (ready : Bool)
  | bytes (more : Nat) (ready : Bool)
  | closed
  deriving DecidableEq, Repr

inductive Rc where
  | ok
  | again
  | badRequest
  deriving DecidableEq, Repr

/-- What `ngx_pcalloc` makes. -/
def Body.zero : Body := ⟨none, [], 0, 0, 0⟩

def TempFile.zero : TempFile := ⟨fun _ => 0, 0, 0⟩

/-- `ngx_create_temp_buf` -/
@[simp] def Buf.temp (size : Nat) : Buf where
  block := .body
  start := 0
  pos := 0
  last := 0
  stop := size
  inFile := false
  filePos := 0
  fileLast := 0

def bufBytes (r : Request) (rb : Body) (b : Buf) : List UInt8 :=
  if b.inFile then window (rb.tempFile.getD TempFile.zero).contents b.filePos b.fileLast
  else window (r.mem b.block) b.pos b.last

def found (r : Request) : Found where
  bufs := match r.requestBody with
    | none => []
    | some rb => rb.bufs.map fun i => bufBytes r rb (r.heap i)
  headerIn := window (r.mem .headerIn) r.headerIn.pos r.headerIn.last
  input := r.input

def postHandler (r : Request) : Request := { r with posted := r.posted ++ [found r] }

/-- `ngx_write_chain_to_temp_file` -/
def TempFile.write (tf : TempFile) (bytes : List UInt8) : TempFile where
  contents := store tf.contents tf.offset bytes
  fileOffset := tf.fileOffset + bytes.length
  offset := tf.offset + bytes.length

/-- What the memory buffers of a chain hold. -/
def chainBytes (r : Request) (chain : List Nat) : List UInt8 :=
  (chain.map fun i => window (r.mem (r.heap i).block) (r.heap i).pos (r.heap i).last).flatten

/-- `ngx_http_write_request_body` -/
def writeRequestBody (r : Request) (rb : Body) (body : List Nat) : Body :=
  { rb with tempFile := some ((rb.tempFile.getD TempFile.zero).write (chainBytes r body)) }

/-- `rb->bufs->next ? rb->bufs->next : rb->bufs` -/
def lastLink (bufs : List Nat) : Nat := if bufs.tail ≠ [] then 1 else 0

def setBuf (i : Nat) (b : Buf) (r : Request) : Request := { r with heap := fun j => if j = i then b else r.heap j }

/-- A full buffer is written to the file and used again. -/
def spill (r : Request) (rb : Body) : Request × Body :=
  let b := r.heap rb.buf
  if b.last = b.stop then
    let rb := writeRequestBody r rb (rb.bufs.drop rb.toWrite)
    (setBuf rb.buf { b with last := b.start } r, { rb with toWrite := lastLink rb.bufs })
  else (r, rb)

/-- The number of bytes that `recv` returns when there are `more + 1` of them. -/
def recvSize (more : Nat) (r : Request) (rb : Body) : Nat :=
  min (more + 1) (min ((r.heap rb.buf).stop - (r.heap rb.buf).last) rb.rest)

/-- `n` bytes of the connection go behind what is in the buffer. -/
def recv (n : Nat) (r : Request) (rb : Body) : Request × Body :=
  let b := r.heap rb.buf
  let bytes := r.input.take n
  (setBuf rb.buf { b with last := b.last + n } { r with
      mem := fun block => if block = b.block then store (r.mem block) b.last bytes else r.mem block
      input := r.input.drop n },
    { rb with rest := rb.rest - n })

/-- The buffer of the file takes the place of the last buffer. -/
def saveLastPart (r : Request) (rb : Body) : Request × Body :=
  if rb.tempFile.isSome ∨ r.inFileOnly then
    let rb := writeRequestBody r rb (rb.bufs.drop rb.toWrite)
    let b := { Buf.temp 0 with
      inFile := true
      fileLast := (rb.tempFile.getD TempFile.zero).fileOffset }
    ({ setBuf r.nbufs b r with nbufs := r.nbufs + 1 },
      { rb with bufs := if rb.bufs.tail ≠ [] then rb.bufs.set 1 r.nbufs else rb.bufs.set 0 r.nbufs })
  else (r, rb)

/-- The end of `ngx_http_do_read_client_request_body`. -/
def finish (r : Request) (rb : Body) : Request :=
  let (r, rb) := saveLastPart r rb
  let rb := if rb.bufs.tail ≠ [] ∧ (r.inFileOnly ∨ r.inSingleBuf) then { rb with bufs := rb.bufs.tail } else rb
  postHandler { r with
    requestBody := some rb
    reading := false }

/-- `ngx_http_do_read_client_request_body`, with what `recv` returns; behind that it returns
`NGX_AGAIN`. -/
def doReadClientRequestBody : List Recv → Request → Body → Request × Rc
  | [], r, rb =>
    let (r, rb) := spill r rb
    ({ r with requestBody := some rb }, .again)
  | .again ready :: recvs, r, rb =>
    let (r, rb) := spill r rb
    if ready then doReadClientRequestBody recvs r rb else ({ r with requestBody := some rb }, .again)
  | .closed :: _, r, rb =>
    let (r, rb) := spill r rb
    ({ r with requestBody := some rb }, .badRequest)
  | .bytes more ready :: recvs, r, rb =>
    let (r, rb) := spill r rb
    let (r, rb) := recv (recvSize more r rb) r rb
    if rb.rest = 0 then (finish r rb, .ok)
    else if (r.heap rb.buf).last < (r.heap rb.buf).stop ∧ ready = false then
      ({ r with requestBody := some rb }, .again)
    else doReadClientRequestBody recvs r rb

/-- A buffer of its own for the rest of the body; `preread` is the number of bytes in front of it. -/
def createTempBuf (conf : Conf) (recvs : List Recv) (preread : Nat) (r : Request) (rb : Body) : Request × Rc :=
  let small := rb.rest < conf.clientBodyBufferSize + conf.clientBodyBufferSize / 4
  let size :=
    if small then if r.inSingleBuf then rb.rest + preread else rb.rest
    else conf.clientBodyBufferSize
  let buf := r.nbufs
  let copied := small ∧ preread ≠ 0 ∧ r.inSingleBuf
  let bytes := if copied then chainBytes r rb.bufs else []
  let bufs := if copied then [buf] else rb.bufs ++ [buf]
  let toWrite := if r.inFileOnly ∨ r.inSingleBuf then 0 else lastLink bufs
  let r := setBuf buf { Buf.temp size with last := bytes.length } { r with
    mem := fun block => if block = .body then store (r.mem block) 0 bytes else r.mem block
    nbufs := r.nbufs + 1
    reading := true }
  doReadClientRequestBody recvs r { rb with
    buf := buf
    bufs := bufs
    toWrite := toWrite }

/-- `ngx_http_read_client_request_body` -/
def readClientRequestBody (conf : Conf) (recvs : List Recv) (r : Request) : Request × Rc :=
  if r.requestBody.isSome ∨ r.discardBody then (postHandler r, .ok)
  else if r.contentLength < 0 then (postHandler { r with requestBody := some Body.zero }, .ok)
  else if r.contentLength = 0 then
    let tempFile := if r.inFileOnly then some TempFile.zero else none
    (postHandler { r with requestBody := some { Body.zero with tempFile := tempFile } }, .ok)
  else
    let n := r.contentLength.toNat
    let preread := r.headerIn.last - r.headerIn.pos
    if preread ≠ 0 then
      let b := { r.headerIn with start := r.headerIn.pos }
      let i := r.nbufs
      let rb := { Body.zero with
        bufs := [i]
        buf := i }
      let r := { r with nbufs := r.nbufs + 1 }
      if n ≤ preread then
        let headerIn := { r.headerIn with pos := r.headerIn.pos + n }
        let r := setBuf i { b with last := headerIn.pos } { r with headerIn := headerIn }
        let rb := if r.inFileOnly then writeRequestBody r rb rb.bufs else rb
        (postHandler { r with requestBody := some rb }, .ok)
      else
        let r := setBuf i b { r with headerIn := { r.headerIn with pos := r.headerIn.last } }
        let rb := { rb with rest := n - preread }
        if rb.rest ≤ b.stop - b.last then
          doReadClientRequestBody recvs { r with reading := true } { rb with toWrite := 0 }
        else createTempBuf conf recvs preread r rb
    else createTempBuf conf recvs 0 r { Body.zero with rest := n }

/-- A request that is finalized has no read events of its body any more. -/
def finalizeRequest : Request × Rc → Request
  | (r, .badRequest) => { r with reading := false }
  | (r, _) => r

/-- `ngx_http_read_client_request_body_handler` -/
def readClientRequestBodyHandler (r : Request) (recvs : List Recv) : Request :=
  match r.reading, r.requestBody with
  | true, some rb => finalizeRequest (doReadClientRequestBody recvs r rb)
  | _, _ => r

/-- The call, and the read events behind it. -/
def run (conf : Conf) (r : Request) (recvs : List Recv) (events : List (List Recv)) : Request :=
  events.foldl readClientRequestBodyHandler (finalizeRequest (readClientRequestBody conf recvs r))

end NgxFormal.Http.RequestBody

/-! What is in the buffers and the file while a body is read, and what `post_handler` finds. -/

namespace NgxFormal.Http.RequestBody

open NgxFormal.Lib.Window

variable {pre inp : List UInt8} {n k : Nat}

def written (rb : Body) : List UInt8 :=
  match rb.tempFile with
  | none => []
  | some tf => window tf.contents 0 tf.offset

/-- The buffers before the last one stay as they are. -/
def Kept (r : Request) (rb : Body) : Prop := rb.bufs ≠ [rb.buf] ∧ ¬(r.inFileOnly ∨ r.inSingleBuf)

instance (r : Request) (rb : Body) : Decidable (Kept r rb) := inferInstanceAs (Decidable (_ ∧ _))

/-- A buffer with the bytes `pre` in front of the one that is read into. -/
structure Front (pre : List UInt8) (r : Request) (rb : Body) (p : Nat) : Prop where
  bufs : rb.bufs = [p, rb.buf]
  other : p ≠ rb.buf
  memory : (r.heap p).inFile = false
  bytes : window (r.mem (r.heap p).block) (r.heap p).pos (r.heap p).last = pre
  apart : (r.heap p).block ≠ (r.heap rb.buf).block

/-- Behind `pre`, `k` bytes of `inp` have been read. -/
structure Going (pre inp : List UInt8) (n k : Nat) (r : Request) (rb : Body) : Prop where
  input : r.input = inp.drop k
  rest : pre.length + k + rb.rest = n
  enough : n ≤ pre.length + inp.length
  header : r.headerIn.pos = r.headerIn.last
  posted : r.posted = []
  memory : (r.heap rb.buf).inFile = false
  begins : (r.heap rb.buf).pos = (r.heap rb.buf).start
  bounds : (r.heap rb.buf).start ≤ (r.heap rb.buf).last ∧ (r.heap rb.buf).last ≤ (r.heap rb.buf).stop ∧
    (r.heap rb.buf).start < (r.heap rb.buf).stop
  chain : rb.bufs = [rb.buf] ∨ ∃ p, Front pre r rb p
  numbers : ∀ i ∈ rb.bufs, i < r.nbufs
  toWrite : rb.toWrite = 0 ∨ rb.toWrite = lastLink rb.bufs
  kept : Kept r rb → rb.toWrite = lastLink rb.bufs
  single : rb.bufs ≠ [rb.buf] → r.inSingleBuf = true → rb.tempFile = none →
    (r.heap rb.buf).stop - (r.heap rb.buf).last < rb.rest
  offsets : ∀ tf, rb.tempFile = some tf → tf.fileOffset = tf.offset
  saved : written rb ++ chainBytes r (rb.bufs.drop rb.toWrite) = (if Kept r rb then [] else pre) ++ inp.take k

/-- What `post_handler` should find. -/
structure Complete (pre inp : List UInt8) (n : Nat) (inSingleBuf : Bool) (found : Found) : Prop where
  body : found.bufs.flatten = (pre ++ inp).take n
  single : inSingleBuf = true → found.bufs.length = 1
  headerIn : found.headerIn = pre.drop n
  input : found.input = inp.drop (n - pre.length)

theorem written_writeRequestBody (r : Request) (rb : Body) (chain : List Nat) :
    written (writeRequestBody r rb chain) = written rb ++ chainBytes r chain := by
  have write : ∀ tf : TempFile, window (tf.write (chainBytes r chain)).contents 0 (tf.write (chainBytes r chain)).offset =
      window tf.contents 0 tf.offset ++ chainBytes r chain := fun tf => by
    simp only [TempFile.write]
    rw [← window_append (Nat.zero_le tf.offset) (Nat.le_add_right _ _), window_store,
      window_store_outside (.inl (Nat.le_refl _))]
  unfold written writeRequestBody
  cases rb.tempFile with
  | none => simpa [TempFile.zero, window_empty] using write TempFile.zero
  | some tf => exact write tf

theorem lastLink_drop {rb : Body} {r : Request} (chain : rb.bufs = [rb.buf] ∨ ∃ p, Front pre r rb p) :
    rb.bufs.drop (lastLink rb.bufs) = [rb.buf] := by
  rcases chain with only | ⟨p, front⟩
  · rw [only]
    rfl
  · rw [front.bufs]
    rfl

theorem Going.unwritten {r : Request} {rb : Body} (going : Going pre inp n k r rb) :
    ∃ front, rb.bufs.drop rb.toWrite = front ++ [rb.buf] ∧ rb.buf ∉ front ∧
      ∀ i ∈ front, (r.heap i).block ≠ (r.heap rb.buf).block := by
  rcases going.toWrite with zero | last
  · rw [zero, List.drop_zero]
    rcases going.chain with only | ⟨p, front⟩
    · exact ⟨[], only, by simp, by simp⟩
    · exact ⟨[p], front.bufs, by simpa using front.other.symm, by simpa using front.apart⟩
  · exact ⟨[], by rw [last, lastLink_drop going.chain, List.nil_append], by simp, by simp⟩

@[simp] theorem setBuf_heap_self (i : Nat) (b : Buf) (r : Request) : (setBuf i b r).heap i = b := by simp [setBuf]

@[simp] theorem setBuf_inFileOnly (i : Nat) (b : Buf) (r : Request) : (setBuf i b r).inFileOnly = r.inFileOnly := rfl

@[simp] theorem setBuf_inSingleBuf (i : Nat) (b : Buf) (r : Request) : (setBuf i b r).inSingleBuf = r.inSingleBuf := rfl

theorem setBuf_heap_other {i j : Nat} (b : Buf) (r : Request) (other : j ≠ i) : (setBuf i b r).heap j = r.heap j := by
  simp [setBuf, other]

theorem chainBytes_congr {r r' : Request} {chain : List Nat}
    (same : ∀ i ∈ chain, window (r'.mem (r'.heap i).block) (r'.heap i).pos (r'.heap i).last =
      window (r.mem (r.heap i).block) (r.heap i).pos (r.heap i).last) : chainBytes r' chain = chainBytes r chain := by
  rw [chainBytes, chainBytes, List.map_congr_left same]

theorem chainBytes_append (r : Request) (front back : List Nat) :
    chainBytes r (front ++ back) = chainBytes r front ++ chainBytes r back := by
  rw [chainBytes, List.map_append, List.flatten_append, chainBytes, chainBytes]

theorem chainBytes_single (r : Request) (i : Nat) :
    chainBytes r [i] = window (r.mem (r.heap i).block) (r.heap i).pos (r.heap i).last := by
  simp [chainBytes]

theorem Front.setBuf {r r' : Request} {rb rb' : Body} {p : Nat} {b : Buf} (front : Front pre r rb p)
    (bufs : rb'.bufs = rb.bufs) (buf : rb'.buf = rb.buf) (heap : r'.heap = (setBuf rb.buf b r).heap)
    (block : b.block = (r.heap rb.buf).block)
    (mem : ∀ other, other ≠ b.block → r'.mem other = r.mem other) : Front pre r' rb' p := by
  have same : r'.heap p = r.heap p := by rw [heap, setBuf_heap_other _ _ front.other]
  have self : r'.heap rb.buf = b := by rw [heap, setBuf_heap_self]
  refine ⟨by rw [bufs, buf]; exact front.bufs, by rw [buf]; exact front.other, by rw [same]; exact front.memory, ?_, ?_⟩
  · rw [same, mem _ (by rw [block]; exact front.apart)]
    exact front.bytes
  · rw [same, buf, self, block]
    exact front.apart

theorem going_spill {r : Request} {rb : Body} (going : Going pre inp n k r rb) :
    Going pre inp n k (spill r rb).1 (spill r rb).2 ∧
      ((spill r rb).1.heap (spill r rb).2.buf).last < ((spill r rb).1.heap (spill r rb).2.buf).stop ∧
      (spill r rb).2.rest = rb.rest ∧ (spill r rb).1.reading = r.reading ∧
      (spill r rb).1.inSingleBuf = r.inSingleBuf := by
  unfold spill
  dsimp only
  split
  next full =>
    have nothing : chainBytes (setBuf rb.buf { r.heap rb.buf with last := (r.heap rb.buf).start } r) [rb.buf] = [] := by
      rw [chainBytes_single, setBuf_heap_self]
      exact window_empty (by simp [going.begins])
    have saved : written (writeRequestBody r rb (rb.bufs.drop rb.toWrite)) ++
        chainBytes (setBuf rb.buf { r.heap rb.buf with last := (r.heap rb.buf).start } r)
          (rb.bufs.drop (lastLink rb.bufs)) = (if Kept r rb then [] else pre) ++ inp.take k := by
      rw [lastLink_drop going.chain, nothing, List.append_nil, written_writeRequestBody]
      exact going.saved
    refine ⟨⟨going.input, going.rest, going.enough, going.header, going.posted, ?_, ?_, ?_, ?_, going.numbers,
      .inr rfl, fun _ => rfl, fun _ _ none => ?_, fun tf file => ?_, ?_⟩, ?_, rfl, rfl, rfl⟩
    · simpa [writeRequestBody] using going.memory
    · simpa [writeRequestBody] using going.begins
    · have := going.bounds
      simp only [writeRequestBody, setBuf_heap_self]
      omega
    · rcases going.chain with only | ⟨p, front⟩
      · exact .inl only
      · exact .inr ⟨p, front.setBuf rfl rfl rfl rfl fun _ _ => rfl⟩
    · simp [writeRequestBody] at none
    · obtain rfl := Option.some.inj file
      cases spilled : rb.tempFile with
      | none => simp [TempFile.write, TempFile.zero]
      | some old => simp [TempFile.write, going.offsets old spilled]
    · exact saved
    · simpa [writeRequestBody] using going.bounds.2.2
  next room =>
    have bounds := going.bounds
    exact ⟨going, by dsimp only; omega, rfl, rfl, rfl⟩

theorem going_recv {r : Request} {rb : Body} (going : Going pre inp n k r rb) {m : Nat}
    (fits : m ≤ (r.heap rb.buf).stop - (r.heap rb.buf).last) (within : m ≤ rb.rest) :
    Going pre inp n (k + m) (recv m r rb).1 (recv m r rb).2 := by
  have rest := going.rest
  have enough := going.enough
  have bounds := going.bounds
  have length : (r.input.take m).length = m := by
    rw [going.input, List.length_take, List.length_drop]
    omega
  have heap : (recv m r rb).1.heap rb.buf = { r.heap rb.buf with last := (r.heap rb.buf).last + m } :=
    setBuf_heap_self _ _ _
  have mem : ∀ block, block ≠ (r.heap rb.buf).block → (recv m r rb).1.mem block = r.mem block := fun block other => by
    simp [recv, setBuf, other]
  have grown : chainBytes (recv m r rb).1 (rb.bufs.drop rb.toWrite) =
      chainBytes r (rb.bufs.drop rb.toWrite) ++ r.input.take m := by
    obtain ⟨front, drop, apart, blocks⟩ := going.unwritten
    have kept : chainBytes (recv m r rb).1 front = chainBytes r front := chainBytes_congr fun i mem' => by
      have other : i ≠ rb.buf := fun same => apart (same ▸ mem')
      have same : (recv m r rb).1.heap i = r.heap i := setBuf_heap_other _ _ other
      rw [same, mem _ (blocks i mem')]
    rw [drop, chainBytes_append, chainBytes_append, kept, List.append_assoc, chainBytes_single, chainBytes_single, heap]
    refine congrArg _ ?_
    have stored : (recv m r rb).1.mem (r.heap rb.buf).block =
        store (r.mem (r.heap rb.buf).block) (r.heap rb.buf).last (r.input.take m) := by simp [recv, setBuf]
    have fresh : window (store (r.mem (r.heap rb.buf).block) (r.heap rb.buf).last (r.input.take m))
        (r.heap rb.buf).last ((r.heap rb.buf).last + (r.input.take m).length) = r.input.take m := window_store
    rw [length] at fresh
    have begins : (r.heap rb.buf).pos ≤ (r.heap rb.buf).last := by
      rw [going.begins]
      exact bounds.1
    rw [stored, ← window_append begins (Nat.le_add_right _ m), fresh, window_store_outside (.inl (Nat.le_refl _))]
  refine ⟨?_, ?_, enough, going.header, going.posted, ?_, ?_, ?_, ?_, going.numbers, going.toWrite, going.kept,
    fun two single none => ?_, going.offsets, ?_⟩
  · show r.input.drop m = _
    rw [going.input, List.drop_drop]
  · show pre.length + (k + m) + (rb.rest - m) = n
    omega
  · show ((recv m r rb).1.heap rb.buf).inFile = false
    rw [heap]
    exact going.memory
  · show ((recv m r rb).1.heap rb.buf).pos = ((recv m r rb).1.heap rb.buf).start
    rw [heap]
    exact going.begins
  · show ((recv m r rb).1.heap rb.buf).start ≤ ((recv m r rb).1.heap rb.buf).last ∧
      ((recv m r rb).1.heap rb.buf).last ≤ ((recv m r rb).1.heap rb.buf).stop ∧
      ((recv m r rb).1.heap rb.buf).start < ((recv m r rb).1.heap rb.buf).stop
    rw [heap]
    dsimp only
    omega
  · rcases going.chain with only | ⟨p, front⟩
    · exact .inl only
    · exact .inr ⟨p, front.setBuf rfl rfl rfl rfl mem⟩
  · show ((recv m r rb).1.heap rb.buf).stop - ((recv m r rb).1.heap rb.buf).last < rb.rest - m
    have := going.single two single none
    rw [heap]
    dsimp only
    omega
  · show written rb ++ chainBytes (recv m r rb).1 (rb.bufs.drop rb.toWrite) = _
    rw [grown, ← List.append_assoc, going.saved, List.append_assoc, going.input, List.take_add]
    rfl

theorem Going.whole {r : Request} {rb : Body} (going : Going pre inp n k r rb) (none : rb.rest = 0) :
    (pre ++ inp).take n = pre ++ inp.take k := by
  have rest := going.rest
  have n_eq : n = pre.length + k := by omega
  rw [n_eq, List.take_length_add_append]

/-- The three ways in which the buffers are left: the file or the only buffer has everything, or the first
buffer has what was read with the header. -/
theorem Going.complete {r : Request} {rb : Body} (going : Going pre inp n k r rb) (none : rb.rest = 0)
    {inSingleBuf : Bool} {bufs : List (List UInt8)}
    (bytes : bufs = [pre ++ inp.take k] ∨ bufs = [pre, inp.take k] ∧ inSingleBuf = false) :
    Complete pre inp n inSingleBuf ⟨bufs, window (r.mem .headerIn) r.headerIn.pos r.headerIn.last, r.input⟩ := by
  have rest := going.rest
  refine ⟨?_, fun single => ?_, ?_, ?_⟩
  · rw [going.whole none]
    rcases bytes with rfl | ⟨rfl, _⟩ <;> simp
  · rcases bytes with rfl | ⟨_, apart⟩
    · rfl
    · simp [apart] at single
  · rw [window_empty (Nat.le_of_eq going.header.symm), List.drop_eq_nil_of_le (by omega)]
  · show r.input = _
    rw [going.input]
    congr 1
    omega

theorem written_file {r : Request} {rb : Body} (going : Going pre inp n k r rb) (chain : List Nat)
    (b : Buf) (inFile : b.inFile = true) (filePos : b.filePos = 0)
    (fileLast : b.fileLast = ((writeRequestBody r rb chain).tempFile.getD TempFile.zero).fileOffset) (r' : Request)
    (rb' : Body) (same : rb'.tempFile = (writeRequestBody r rb chain).tempFile) :
    bufBytes r' rb' b = written rb ++ chainBytes r chain := by
  rw [bufBytes, if_pos inFile, filePos, fileLast, same, ← written_writeRequestBody]
  simp only [written, writeRequestBody, Option.getD_some, TempFile.write]
  congr 2
  cases spilled : rb.tempFile with
  | none => rfl
  | some old => exact going.offsets old spilled

theorem posted_finish (r : Request) (rb : Body) :
    let saved := saveLastPart r rb
    let bufs := if saved.2.bufs.tail ≠ [] ∧ (r.inFileOnly ∨ r.inSingleBuf) then saved.2.bufs.tail else saved.2.bufs
    (finish r rb).posted = r.posted ++ [⟨bufs.map fun i => bufBytes saved.1 saved.2 (saved.1.heap i),
      window (r.mem .headerIn) r.headerIn.pos r.headerIn.last, r.input⟩] := by
  have same : (saveLastPart r rb).1.inFileOnly = r.inFileOnly ∧ (saveLastPart r rb).1.inSingleBuf = r.inSingleBuf ∧
      (saveLastPart r rb).1.posted = r.posted ∧ (saveLastPart r rb).1.mem = r.mem ∧
      (saveLastPart r rb).1.headerIn = r.headerIn ∧ (saveLastPart r rb).1.input = r.input := by
    unfold saveLastPart
    split <;> exact ⟨rfl, rfl, rfl, rfl, rfl, rfl⟩
  obtain ⟨inFileOnly, inSingleBuf, posted, mem, headerIn, input⟩ := same
  simp only [finish, postHandler, found, inFileOnly, inSingleBuf, posted, mem, headerIn, input]
  split
  · simp only [bufBytes, mem]
  · simp only [bufBytes, mem]

theorem saveLastPart_file {r : Request} {rb : Body} (going : Going pre inp n k r rb)
    (file : rb.tempFile.isSome ∨ r.inFileOnly = true) :
    (saveLastPart r rb).2.bufs = (if rb.bufs.tail ≠ [] then rb.bufs.set 1 r.nbufs else rb.bufs.set 0 r.nbufs) ∧
      (∀ i, i < r.nbufs → bufBytes (saveLastPart r rb).1 (saveLastPart r rb).2 ((saveLastPart r rb).1.heap i) =
        bufBytes r (saveLastPart r rb).2 (r.heap i)) ∧
      bufBytes (saveLastPart r rb).1 (saveLastPart r rb).2 ((saveLastPart r rb).1.heap r.nbufs) =
        written rb ++ chainBytes r (rb.bufs.drop rb.toWrite) := by
  simp only [saveLastPart, if_pos file]
  refine ⟨rfl, fun i old => ?_, ?_⟩
  · have other : i ≠ r.nbufs := Nat.ne_of_lt old
    simp only [setBuf, if_neg other]
    rfl
  · exact written_file going (rb.bufs.drop rb.toWrite) _ (by simp) (by simp) (by simp) _ _ rfl

theorem Going.left {r : Request} {rb : Body} (going : Going pre inp n k r rb) (none : rb.rest = 0) :
    let saved := saveLastPart r rb
    let bufs := if saved.2.bufs.tail ≠ [] ∧ (r.inFileOnly ∨ r.inSingleBuf) then saved.2.bufs.tail else saved.2.bufs
    let bytes := bufs.map fun i => bufBytes saved.1 saved.2 (saved.1.heap i)
    bytes = [pre ++ inp.take k] ∨ bytes = [pre, inp.take k] ∧ r.inSingleBuf = false := by
  have rest := going.rest
  by_cases file : rb.tempFile.isSome ∨ r.inFileOnly
  · have saved := going.saved
    obtain ⟨bufs, old, new⟩ := saveLastPart_file going file
    rw [saved] at new
    simp only [bufs]
    rcases going.chain with only | ⟨p, front⟩
    · have kept : ¬Kept r rb := fun kept => kept.1 only
      rw [if_neg kept] at new
      simp [only, new]
    · have below : p < r.nbufs := going.numbers p (by simp [front.bufs])
      have first : bufBytes (saveLastPart r rb).1 (saveLastPart r rb).2 ((saveLastPart r rb).1.heap p) = pre := by
        rw [old p below, bufBytes, front.memory]
        exact front.bytes
      have two : rb.bufs ≠ [rb.buf] := by simp [front.bufs]
      by_cases flags : r.inFileOnly = true ∨ r.inSingleBuf = true
      · have kept : ¬Kept r rb := fun kept => kept.2 flags
        rw [if_neg kept] at new
        simp [front.bufs, new, flags]
      · rw [if_pos ⟨two, flags⟩, List.nil_append] at new
        have neither : r.inFileOnly = false ∧ r.inSingleBuf = false := by simpa using flags
        simp [front.bufs, new, first, neither.1, neither.2]
  · have noFile : rb.tempFile = .none ∧ r.inFileOnly = false := by simpa using file
    have saved := going.saved
    simp only [written, noFile.1, List.nil_append] at saved
    simp only [saveLastPart, if_neg file]
    rcases going.chain with only | ⟨p, front⟩
    · have kept : ¬Kept r rb := fun kept => kept.1 only
      have first : rb.toWrite = 0 := going.toWrite.elim id fun last => by rw [last, only]; rfl
      rw [if_neg kept, first, only, List.drop_zero, chainBytes_single] at saved
      simp [only, bufBytes, going.memory, saved]
    · have two : rb.bufs ≠ [rb.buf] := by simp [front.bufs]
      have apart : r.inSingleBuf = false := by
        by_contra single
        have := going.single two (by simpa using single) noFile.1
        omega
      have kept : Kept r rb := ⟨two, by simp [noFile.2, apart]⟩
      rw [if_pos kept, going.kept kept, lastLink_drop going.chain, chainBytes_single, List.nil_append] at saved
      simp [front.bufs, bufBytes, going.memory, front.memory, front.bytes, saved, noFile.2, apart]

theorem finish_complete {r : Request} {rb : Body} (going : Going pre inp n k r rb) (none : rb.rest = 0) :
    ∃ found, (finish r rb).posted = [found] ∧ Complete pre inp n r.inSingleBuf found :=
  ⟨_, (posted_finish r rb).trans (by rw [going.posted, List.nil_append]), going.complete none (going.left none)⟩

theorem Going.keep {r : Request} {rb : Body} (going : Going pre inp n k r rb) (requestBody : Option Body)
    (reading : Bool) : Going pre inp n k { r with requestBody := requestBody, reading := reading } rb :=
  { going with
    chain := going.chain.imp_right fun ⟨p, front⟩ =>
      ⟨p, front.bufs, front.other, front.memory, front.bytes, front.apart⟩ }

/-- A body that is not there yet: `k` bytes have been read, and the read events go on. -/
structure Waiting (pre inp : List UInt8) (n k : Nat) (inSingleBuf : Bool) (r : Request) : Prop where
  going : ∃ rb, r.requestBody = some rb ∧ Going pre inp n k r rb ∧ 0 < rb.rest
  inSingleBuf : r.inSingleBuf = inSingleBuf
  reading : r.reading = true

/-- The body has been handed over. -/
structure Posted (pre inp : List UInt8) (n : Nat) (inSingleBuf : Bool) (r : Request) : Prop where
  posted : ∃ found, r.posted = [found] ∧ Complete pre inp n inSingleBuf found
  reading : r.reading = false
  input : r.input = inp.drop (n - pre.length)

/-- `recv` returns something at once. -/
def Gives : List Recv → Prop
  | .bytes _ _ :: _ => True
  | _ => False

instance : DecidablePred Gives := fun recvs => by
  unfold Gives
  split <;> infer_instance

theorem finish_posted {r : Request} {rb : Body} (going : Going pre inp n k r rb) (none : rb.rest = 0) :
    Posted pre inp n r.inSingleBuf (finish r rb) where
  posted := finish_complete going none
  reading := by
    simp only [finish, postHandler]
  input := by
    have rest := going.rest
    have input : (finish r rb).input = r.input := by
      simp only [finish, postHandler, saveLastPart]
      split <;> rfl
    rw [input, going.input]
    congr 1
    omega

/-- A call of `ngx_http_do_read_client_request_body`. -/
structure Call (pre inp : List UInt8) (n k : Nat) (inSingleBuf : Bool) (recvs : List Recv) (out : Request × Rc) :
    Prop where
  ok : out.2 = .ok → Posted pre inp n inSingleBuf out.1
  waits : out.2 ≠ .ok → ∃ k', k ≤ k' ∧ Waiting pre inp n k' inSingleBuf out.1 ∧ (Gives recvs → k < k')
  closed : out.2 = .badRequest → .closed ∈ recvs

theorem call_doReadClientRequestBody (recvs : List Recv) {r : Request} {rb : Body}
    (going : Going pre inp n k r rb) (more : 0 < rb.rest) (reading : r.reading = true) :
    Call pre inp n k r.inSingleBuf recvs (doReadClientRequestBody recvs r rb) := by
  induction recvs generalizing k r rb with
  | nil =>
    obtain ⟨spilled, _, rest, events, single⟩ := going_spill going
    have waiting : Waiting pre inp n k r.inSingleBuf { (spill r rb).1 with requestBody := some (spill r rb).2 } :=
      ⟨⟨_, rfl, spilled.keep _ _, rest.symm ▸ more⟩, single, events.trans reading⟩
    exact ⟨(fun never => by cases never), fun _ => ⟨k, Nat.le_refl _, waiting, (fun never => by cases never)⟩, (fun never => by cases never)⟩
  | cons result recvs ih =>
    obtain ⟨spilled, room, rest, events, single⟩ := going_spill going
    have waiting : Waiting pre inp n k r.inSingleBuf { (spill r rb).1 with requestBody := some (spill r rb).2 } :=
      ⟨⟨_, rfl, spilled.keep _ _, rest.symm ▸ more⟩, single, events.trans reading⟩
    unfold doReadClientRequestBody
    match result with
    | .closed => exact ⟨(fun never => by cases never), fun _ => ⟨k, Nat.le_refl _, waiting, (fun never => by cases never)⟩, fun _ => by simp⟩
    | .again ready =>
      dsimp only
      split
      · have call := ih spilled (rest.symm ▸ more) (events.trans reading)
        rw [single] at call
        refine ⟨call.ok, fun waits => ?_, fun closed => List.mem_cons_of_mem _ (call.closed closed)⟩
        obtain ⟨k', later, waiting, _⟩ := call.waits waits
        exact ⟨k', later, waiting, (fun never => by cases never)⟩
      · exact ⟨(fun never => by cases never), fun _ => ⟨k, Nat.le_refl _, waiting, (fun never => by cases never)⟩, (fun never => by cases never)⟩
    | .bytes some' ready =>
      dsimp only
      generalize spill r rb = s at spilled room rest events single
      obtain ⟨s, sb⟩ := s
      dsimp only at spilled room rest events single ⊢
      have size : recvSize some' s sb ≤ (s.heap sb.buf).stop - (s.heap sb.buf).last ∧ recvSize some' s sb ≤ sb.rest ∧
          0 < recvSize some' s sb := by
        simp only [recvSize]
        omega
      have going := going_recv spilled size.1 size.2.1
      have left : (recv (recvSize some' s sb) s sb).2.rest = sb.rest - recvSize some' s sb := rfl
      have same : (recv (recvSize some' s sb) s sb).1.reading = s.reading ∧
          (recv (recvSize some' s sb) s sb).1.inSingleBuf = s.inSingleBuf := ⟨rfl, rfl⟩
      generalize recv (recvSize some' s sb) s sb = t at going left same
      obtain ⟨t, tb⟩ := t
      dsimp only at going left same ⊢
      have flags : t.inSingleBuf = r.inSingleBuf := same.2.trans single
      split
      next done =>
        refine ⟨fun _ => flags ▸ finish_posted going done, (fun never => absurd rfl never), (fun never => by cases never)⟩
      next pending =>
        have pending := Nat.pos_of_ne_zero pending
        split
        · refine ⟨(fun never => by cases never), fun _ => ⟨_, Nat.le_add_right _ _, ⟨⟨tb, rfl, going.keep _ _, pending⟩, flags,
            same.1.trans (events.trans reading)⟩, fun _ => by omega⟩, (fun never => by cases never)⟩
        · have call := ih going pending (same.1.trans (events.trans reading))
          rw [flags] at call
          refine ⟨call.ok, fun waits => ?_, fun closed => List.mem_cons_of_mem _ (call.closed closed)⟩
          obtain ⟨k', later, waiting, _⟩ := call.waits waits
          exact ⟨k', by omega, waiting, fun _ => by omega⟩

/-- What `createTempBuf` finds: the bytes `pre` are in a buffer of `bufs`, unless there are none. -/
structure Preread (pre inp : List UInt8) (n : Nat) (r : Request) (rb : Body) : Prop where
  input : r.input = inp
  rest : pre.length + rb.rest = n
  more : 0 < rb.rest
  enough : n ≤ pre.length + inp.length
  header : r.headerIn.pos = r.headerIn.last
  posted : r.posted = []
  tempFile : rb.tempFile = none
  bufs : rb.bufs = [] ∧ pre = [] ∨ pre ≠ [] ∧ ∃ p, rb.bufs = [p] ∧ p < r.nbufs ∧ (r.heap p).inFile = false ∧
    (r.heap p).block = .headerIn ∧ window (r.mem .headerIn) (r.heap p).pos (r.heap p).last = pre

theorem going_createTempBuf {conf : Conf} (large : 4 ≤ conf.clientBodyBufferSize) (recvs : List Recv) {r : Request}
    {rb : Body} (preread : Preread pre inp n r rb) :
    ∃ r' rb', createTempBuf conf recvs pre.length r rb = doReadClientRequestBody recvs r' rb' ∧
      Going pre inp n 0 r' rb' ∧ 0 < rb'.rest ∧ r'.reading = true ∧ r'.inSingleBuf = r.inSingleBuf := by
  have rest := preread.rest
  have more := preread.more
  by_cases copied : rb.rest < conf.clientBodyBufferSize + conf.clientBodyBufferSize / 4 ∧ pre.length ≠ 0 ∧
      r.inSingleBuf = true
  · have held : chainBytes r rb.bufs = pre := by
      rcases preread.bufs with ⟨_, empty⟩ | ⟨_, p, bufs, _, _, block, bytes⟩
      · simp [empty] at copied
      · rw [bufs, chainBytes_single, block, bytes]
    simp only [createTempBuf, if_pos copied, if_pos copied.1, if_pos copied.2.2, held]
    refine ⟨_, _, rfl, ⟨preread.input, rest, preread.enough, preread.header, preread.posted, ?_, ?_, ?_, .inl rfl,
      ?_, ?_, fun kept => absurd rfl kept.1, fun two => absurd rfl two, fun tf file => ?_, ?_⟩, more, rfl, rfl⟩
    · simp
    · simp
    · simp only [setBuf_heap_self, Buf.temp]
      omega
    · simp [setBuf]
    · exact .inl (if_pos (.inr copied.2.2))
    · simp [preread.tempFile] at file
    · have stored : window (store (r.mem .body) 0 pre) 0 pre.length = pre := by
        have stored : window (store (r.mem .body) 0 pre) 0 (0 + pre.length) = pre := window_store
        rwa [Nat.zero_add] at stored
      simp [written, preread.tempFile, Kept, chainBytes_single, copied.2.2]
      simp [setBuf, stored]
  · have size : 0 < (if rb.rest < conf.clientBodyBufferSize + conf.clientBodyBufferSize / 4 then
        if r.inSingleBuf = true then rb.rest + pre.length else rb.rest else conf.clientBodyBufferSize) := by
      split_ifs <;> omega
    simp only [createTempBuf, if_neg copied]
    refine ⟨_, _, rfl, ⟨preread.input, rest, preread.enough, preread.header, preread.posted, ?_, ?_, ?_, ?_,
      ?_, ?_, fun kept => ?_, fun two single none => ?_, fun tf file => ?_, ?_⟩, more, rfl, rfl⟩
    · simp [Buf.temp]
    · simp [Buf.temp]
    · simpa [Buf.temp] using size
    · rcases preread.bufs with ⟨bufs, _⟩ | ⟨_, p, bufs, below, memory, block, bytes⟩
      · exact .inl (by simp [bufs])
      · have other : p ≠ r.nbufs := Nat.ne_of_lt below
        refine .inr ⟨p, ?_, other, ?_, ?_, ?_⟩
        · simp [bufs]
        · simpa [setBuf_heap_other _ _ other] using memory
        · simpa [setBuf, other, block] using bytes
        · simp [setBuf, other, block, Buf.temp]
    · rcases preread.bufs with ⟨bufs, _⟩ | ⟨_, p, bufs, below, _⟩
      · simp [bufs, setBuf]
      · simp only [bufs, setBuf]
        simp
        omega
    · dsimp only
      split
      · exact .inl rfl
      · exact .inr rfl
    · exact if_neg kept.2
    · have large' : ¬rb.rest < conf.clientBodyBufferSize + conf.clientBodyBufferSize / 4 := by
        intro small
        rcases preread.bufs with ⟨bufs, _⟩ | ⟨some', _⟩
        · exact two (by simp [bufs])
        · exact copied ⟨small, by simpa using some', single⟩
      simp only [setBuf_heap_self, Buf.temp, if_neg large']
      simp
      omega
    · simp [preread.tempFile] at file
    · rcases preread.bufs with ⟨bufs, empty⟩ | ⟨_, p, bufs, below, memory, block, bytes⟩
      · simp [written, preread.tempFile, bufs, empty, Kept, lastLink, chainBytes_single, window_empty]
      · have other : p ≠ r.nbufs := Nat.ne_of_lt below
        by_cases flags : r.inFileOnly = true ∨ r.inSingleBuf = true
        · simp [written, preread.tempFile, bufs, Kept, flags, chainBytes, window_empty, setBuf, other, block, bytes]
        · simp [written, preread.tempFile, bufs, Kept, flags, chainBytes_single, window_empty, lastLink]

end NgxFormal.Http.RequestBody
