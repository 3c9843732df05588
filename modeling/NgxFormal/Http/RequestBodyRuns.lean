import NgxFormal.Http.RequestBody

/-! Reading a request body to its end, over any read events. -/

namespace NgxFormal.Http.RequestBody

open NgxFormal.Lib.Window

variable {pre inp : List UInt8} {n k : Nat}

/-- A request whose body of `n` bytes has not been asked for; bytes of it may be in `header_in`. -/
structure Fresh (n : Nat) (r : Request) : Prop where
  requestBody : r.requestBody = none
  discardBody : r.discardBody = false
  posted : r.posted = []
  reading : r.reading = false
  contentLength : r.contentLength = n
  positive : 0 < n
  block : r.headerIn.block = .headerIn
  memory : r.headerIn.inFile = false
  bounds : r.headerIn.pos ≤ r.headerIn.last ∧ r.headerIn.last ≤ r.headerIn.stop

def prereadBytes (r : Request) : List UInt8 := window (r.mem .headerIn) r.headerIn.pos r.headerIn.last

theorem prereadBytes_length (r : Request) : (prereadBytes r).length = r.headerIn.last - r.headerIn.pos := window_length

/-- The body is in `header_in` already. -/
theorem posted_preread {r : Request} (fresh : Fresh n r) (whole : n ≤ (prereadBytes r).length)
    (tempFile : Option TempFile) (i nbufs : Nat) (inSingleBuf : Bool) :
    let b := { r.headerIn with
      start := r.headerIn.pos
      last := r.headerIn.pos + n }
    let rb := { Body.zero with
      tempFile := tempFile
      bufs := [i]
      buf := i }
    Posted (prereadBytes r) r.input n inSingleBuf (postHandler { setBuf i b { r with
      nbufs := nbufs
      headerIn := { r.headerIn with pos := r.headerIn.pos + n } } with requestBody := some rb }) := by
  have length := prereadBytes_length r
  have bounds := fresh.bounds
  have none : n - (prereadBytes r).length = 0 := by omega
  have inside : r.headerIn.pos + n ≤ r.headerIn.last := by omega
  refine ⟨⟨_, congrArg (· ++ _) fresh.posted, ?_, fun _ => rfl, ?_, ?_⟩, fresh.reading, ?_⟩
  · rw [List.take_append_of_le_length whole, prereadBytes, window_take inside]
    simp [found, bufBytes, setBuf, fresh.memory, fresh.block]
  · rw [prereadBytes, window_drop inside]
    rfl
  · rw [none]
    rfl
  · rw [none]
    rfl

theorem call_readClientRequestBody {conf : Conf} (large : 4 ≤ conf.clientBodyBufferSize) (recvs : List Recv)
    {r : Request} (fresh : Fresh n r) (enough : n ≤ (prereadBytes r).length + r.input.length) :
    Call (prereadBytes r) r.input n 0 r.inSingleBuf recvs (readClientRequestBody conf recvs r) := by
  have length := prereadBytes_length r
  have positive := fresh.positive
  have bounds := fresh.bounds
  have toNat : r.contentLength.toNat = n := by simp [fresh.contentLength]
  have notNegative : ¬r.contentLength < 0 := by simp [fresh.contentLength]
  have notZero : ¬r.contentLength = 0 := by simp [fresh.contentLength, positive.ne']
  have started : ∀ {s : Request} {rb : Body}, s.inSingleBuf = r.inSingleBuf →
      Going (prereadBytes r) r.input n 0 s rb → 0 < rb.rest → s.reading = true →
      Call (prereadBytes r) r.input n 0 r.inSingleBuf recvs (doReadClientRequestBody recvs s rb) := by
    intro s rb single going more reading
    rw [← single]
    exact call_doReadClientRequestBody recvs going more reading
  have buffered : ∀ {s : Request} {rb : Body}, s.inSingleBuf = r.inSingleBuf →
      Preread (prereadBytes r) r.input n s rb →
      Call (prereadBytes r) r.input n 0 r.inSingleBuf recvs
        (createTempBuf conf recvs (prereadBytes r).length s rb) := by
    intro s rb single preread
    obtain ⟨r', rb', eq, going, more, reading, same⟩ := going_createTempBuf large recvs preread
    rw [eq]
    exact started (same.trans single) going more reading
  have first : ¬(r.requestBody.isSome ∨ r.discardBody = true) := by simp [fresh.requestBody, fresh.discardBody]
  unfold readClientRequestBody
  rw [if_neg first, if_neg notNegative, if_neg notZero, toNat]
  dsimp only
  split
  next some' =>
    split
    next whole =>
      refine ⟨fun _ => ?_, fun failed => absurd rfl failed, (fun never => by cases never)⟩
      split
      · exact posted_preread fresh (length ▸ whole) _ _ _ _
      · exact posted_preread fresh (length ▸ whole) none _ _ _
    next part =>
      have rest : 0 < n - (prereadBytes r).length := by omega
      have bytes : window (r.mem .headerIn) r.headerIn.pos r.headerIn.last = prereadBytes r := rfl
      split
      next fits =>
        refine started rfl ⟨rfl, ?_, enough, rfl, fresh.posted, ?_, ?_, ?_, .inl rfl, ?_, .inl rfl, fun _ => rfl,
          fun two => absurd rfl two, (fun _ none => by cases none), ?_⟩ (by rwa [length] at rest) rfl
        · dsimp only
          omega
        · simp [fresh.memory]
        · simp
        · simp only [setBuf_heap_self]
          omega
        · simp [setBuf]
        · simp [written, Body.zero, Kept, chainBytes_single, fresh.block, setBuf, bytes]
      next =>
        rw [← length]
        refine buffered rfl ⟨rfl, ?_, rest, enough, rfl, fresh.posted, rfl, .inr ⟨?_, r.nbufs, rfl, ?_, ?_, ?_, ?_⟩⟩
        · dsimp only
          omega
        · exact List.ne_nil_of_length_pos (by omega)
        · simp [setBuf]
        · simp [fresh.memory]
        · simp [fresh.block]
        · simp [setBuf, bytes]
  next none' =>
    have nothing : r.headerIn.last - r.headerIn.pos = 0 := not_not.1 none'
    have empty : prereadBytes r = [] := List.eq_nil_of_length_eq_zero (length.trans nothing)
    have preread : Preread (prereadBytes r) r.input n r { Body.zero with rest := n } :=
      ⟨rfl, by simp [empty], positive, enough, by omega, fresh.posted, rfl, .inl ⟨rfl, empty⟩⟩
    have call := buffered rfl preread
    rwa [length, nothing] at call

/-- After some events of which `got` have given something: the body is handed over, it is waited for, or
the connection is lost. -/
inductive Reached (pre inp : List UInt8) (n : Nat) (inSingleBuf closed : Bool) (got : Nat) (r : Request) : Prop where
  | posted (posted : Posted pre inp n inSingleBuf r)
  | waiting (k : Nat) (enough : got ≤ k) (waiting : Waiting pre inp n k inSingleBuf r)
  | lost (closed : closed = true) (k : Nat) (short : k < n - pre.length) (input : r.input = inp.drop k)
      (posted : r.posted = []) (reading : r.reading = false)

def Recv.lost (recvs : List Recv) : Bool := .closed ∈ recvs

def gives (recvs : List Recv) : Nat := if Gives recvs then 1 else 0

theorem Waiting.short {inSingleBuf : Bool} {r : Request} (waiting : Waiting pre inp n k inSingleBuf r) :
    k < n - pre.length ∧ r.input = inp.drop k ∧ r.posted = [] := by
  obtain ⟨rb, _, going, more⟩ := waiting.going
  have rest := going.rest
  exact ⟨by omega, going.input, going.posted⟩

theorem Call.reached {inSingleBuf closed : Bool} {got : Nat} {recvs : List Recv} {out : Request × Rc}
    (call : Call pre inp n k inSingleBuf recvs out) (enough : got ≤ k) :
    Reached pre inp n inSingleBuf (closed || Recv.lost recvs) (got + gives recvs) (finalizeRequest out) := by
  obtain ⟨r, rc⟩ := out
  match rc with
  | .ok => exact .posted (call.ok rfl)
  | .again =>
    obtain ⟨k', later, waiting, gave⟩ := call.waits (by simp)
    refine .waiting k' ?_ waiting
    unfold gives
    split
    next some' => exact Nat.lt_of_le_of_lt enough (gave some')
    next => omega
  | .badRequest =>
    obtain ⟨k', _, waiting, _⟩ := call.waits (by simp)
    obtain ⟨short, input, posted⟩ := waiting.short
    exact .lost (by simp [Recv.lost, call.closed rfl]) k' short input posted rfl

theorem Reached.event {inSingleBuf closed : Bool} {got : Nat} {r : Request}
    (reached : Reached pre inp n inSingleBuf closed got r) (recvs : List Recv) :
    Reached pre inp n inSingleBuf (closed || Recv.lost recvs) (got + gives recvs)
      (readClientRequestBodyHandler r recvs) := by
  cases reached with
  | posted posted =>
    have settled : readClientRequestBodyHandler r recvs = r := by simp [readClientRequestBodyHandler, posted.reading]
    rw [settled]
    exact .posted posted
  | waiting k enough waiting =>
    obtain ⟨rb, requestBody, going, more⟩ := waiting.going
    have goes : readClientRequestBodyHandler r recvs = finalizeRequest (doReadClientRequestBody recvs r rb) := by
      simp [readClientRequestBodyHandler, waiting.reading, requestBody]
    rw [goes]
    have call := call_doReadClientRequestBody recvs going more waiting.reading
    rw [waiting.inSingleBuf] at call
    exact call.reached enough
  | lost closed k short input posted reading =>
    have settled : readClientRequestBodyHandler r recvs = r := by simp [readClientRequestBodyHandler, reading]
    rw [settled]
    exact .lost (by simp [closed]) k short input posted reading

theorem reached_events {inSingleBuf closed : Bool} {got : Nat} (events : List (List Recv)) {r : Request}
    (reached : Reached pre inp n inSingleBuf closed got r) :
    Reached pre inp n inSingleBuf (closed || events.any Recv.lost) (got + (events.map gives).sum)
      (events.foldl readClientRequestBodyHandler r) := by
  induction events generalizing closed got r with
  | nil => simpa using reached
  | cons recvs events ih =>
    have reached := ih (reached.event recvs)
    rwa [Bool.or_assoc, Nat.add_assoc] at reached

/-- However the rest of the body comes, `post_handler` is called at most once, and not before the body is
there; it then finds exactly the body in the buffers, in a single one if that was asked for, nothing
beyond the body has been read, and `header_in` has what was read with the header behind the body. Without
a lost connection it is called as soon as as many reads have given something as there were bytes to come. -/
theorem read_client_request_body (conf : Conf) (r : Request) (n : Nat) (recvs : List Recv)
    (events : List (List Recv)) (large : 4 ≤ conf.clientBodyBufferSize) (fresh : Fresh n r)
    (enough : n ≤ (prereadBytes r).length + r.input.length) :
    let after := run conf r recvs events
    let rest := n - (prereadBytes r).length
    (∃ received, received ≤ rest ∧ after.input = r.input.drop received ∧
      (after.posted = [] ∧ received < rest ∨ received = rest ∧
        ∃ found, after.posted = [found] ∧ Complete (prereadBytes r) r.input n r.inSingleBuf found)) ∧
    ((recvs :: events).any Recv.lost = false → rest ≤ ((recvs :: events).map gives).sum →
      ∃ found, after.posted = [found] ∧ Complete (prereadBytes r) r.input n r.inSingleBuf found) := by
  have call := call_readClientRequestBody large recvs fresh enough
  have first : Reached (prereadBytes r) r.input n r.inSingleBuf (false || Recv.lost recvs) (0 + gives recvs) _ :=
    call.reached (Nat.le_refl 0)
  have reached := reached_events events first
  rw [Bool.false_or, Nat.zero_add] at reached
  refine ⟨?_, fun kept come => ?_⟩
  · cases reached with
    | posted posted => exact ⟨_, Nat.le_refl _, posted.input, .inr ⟨rfl, posted.posted⟩⟩
    | waiting k _ waiting =>
      exact ⟨k, waiting.short.1.le, waiting.short.2.1, .inl ⟨waiting.short.2.2, waiting.short.1⟩⟩
    | lost _ k short input posted _ => exact ⟨k, short.le, input, .inl ⟨posted, short⟩⟩
  · cases reached with
    | posted posted => exact posted.posted
    | waiting k enough waiting =>
      have short := waiting.short.1
      simp only [List.map_cons, List.sum_cons] at come
      omega
    | lost closed => simp_all

/-- Three bytes are in `header_in`, and seven come in three reads through a buffer of four. -/
def uploadRequest : Request where
  mem block i := if block = .headerIn then UInt8.ofNat (i + 1) else 0
  heap _ := Buf.temp 0
  nbufs := 0
  headerIn := { Buf.temp 4 with
    block := .headerIn
    last := 3 }
  contentLength := 10
  inFileOnly := false
  inSingleBuf := true
  discardBody := false
  requestBody := none
  reading := false
  input := [4, 5, 6, 7, 8, 9, 10, 71]
  posted := []

theorem read_client_request_body_upload :
    let after := run ⟨4⟩ uploadRequest [.bytes 1 false] [[.bytes 7 true, .bytes 0 false], [.bytes 0 true, .bytes 7 true]]
    ∃ found, after.posted = [found] ∧ found.bufs = [[1, 2, 3, 4, 5, 6, 7, 8, 9, 10]] ∧ found.input = [71] := by
  intro after
  have fresh : Fresh 10 uploadRequest := ⟨rfl, rfl, rfl, rfl, rfl, by decide, rfl, rfl, by decide⟩
  obtain ⟨⟨received, _, _, posted⟩, _⟩ := read_client_request_body ⟨4⟩ uploadRequest 10 [.bytes 1 false]
    [[.bytes 7 true, .bytes 0 false], [.bytes 0 true, .bytes 7 true]] (by decide) fresh (by decide)
  have full : after.posted.map Found.bufs = [[[1, 2, 3, 4, 5, 6, 7, 8, 9, 10]]] := by decide +kernel
  rcases posted with ⟨none, _⟩ | ⟨_, found, posted, complete⟩
  · simp [after, none] at full
  · refine ⟨found, posted, ?_, complete.input⟩
    have posted : after.posted = [found] := posted
    rw [posted] at full
    simpa using full

end NgxFormal.Http.RequestBody
