import NgxFormal.Basic
import NgxFormal.Lib.Chunked

/-! `ngx_http_chunked_body_filter` over all the calls for one response. -/

namespace NgxFormal.Http.Chunked

open Lib

/-- `ngx_buf_t`: `data` is what lies between `pos` and `last`, or between `file_pos` and `file_last`.
The tag says whether the buffer is one of the filter's own. -/
structure Buf where
  data : List UInt8
  temporary : Bool
  memory : Bool
  mmap : Bool
  inFile : Bool
  flush : Bool
  sync : Bool
  lastBuf : Bool
  tag : Bool
  held : (temporary || memory || mmap || inFile) = false → data = []

def ngxBufInMemory (b : Buf) : Bool := b.temporary || b.memory || b.mmap

def ngxBufSize (b : Buf) : Nat := b.data.length

def ngxCallocBuf : Buf :=
  ⟨[], false, false, false, false, false, false, false, false, fun _ => rfl⟩

/-- `ngx_http_chunked_filter_ctx_t` -/
structure Ctx where
  free : List Buf
  busy : List Buf

def ngxChainGetFreeBuf : List Buf → Buf × List Buf
  | b :: free => (b, free)
  | [] => (ngxCallocBuf, [])

/-- The loop of `ngx_chain_update_chains`: a buffer of the filter that has been sent becomes free. -/
def updateLoop : List Buf → List Buf → Ctx
  | free, [] => ⟨free, []⟩
  | free, b :: busy =>
    if ngxBufSize b ≠ 0 then ⟨free, b :: busy⟩
    else if ¬b.tag then updateLoop free busy
    else updateLoop ({ b with data := [], held := fun _ => rfl } :: free) busy

def ngxChainUpdateChains (ctx : Ctx) (out : List Buf) : Ctx := updateLoop ctx.free (ctx.busy ++ out)

def hex (n : Nat) : UInt8 := "0123456789abcdef".toUTF8.toList.getD n 0

/-- The hexadecimal loop of `ngx_sprintf_num`, which writes from the end backwards. -/
def hexLoop : Nat → Nat → List UInt8 → List UInt8
  | 0, ui64, p => hex (ui64 % 16) :: p
  | turns + 1, ui64, p =>
    if ui64 / 16 = 0 then hex (ui64 % 16) :: p
    else hexLoop turns (ui64 / 16) (hex (ui64 % 16) :: p)

/-- `ngx_sprintf(chunk, "%xO" CRLF, size)` -/
def sizeLine (size : Nat) : List UInt8 := hexLoop size size [] ++ [CR, LF]

/-- The size of the chain, and the buffers that are passed on. -/
def gather : List Buf → Nat × List Buf
  | [] => (0, [])
  | b :: chain =>
    let (size, out) := gather chain
    (ngxBufSize b + size,
      if b.flush || b.sync || ngxBufInMemory b || b.inFile then b :: out else out)

/-- `CRLF "0" CRLF CRLF` -/
def lastChunk : List UInt8 := [CR, LF, chr '0', CR, LF, CR, LF]

/-- The last buffer has its `last_buf` cleared. -/
def clearLast : List Buf → List Buf
  | [] => []
  | [b] => [{ b with lastBuf := false }]
  | b :: chain => b :: clearLast chain

/-- The chain that is passed on, and the free buffers. -/
def frame (free : List Buf) (chain : List Buf) (last : Buf) : List Buf × List Buf :=
  let (size, out) := gather (if last.lastBuf then clearLast chain else chain)
  let (out, free) :=
    if size ≠ 0 then
      let (b, free) := ngxChainGetFreeBuf free
      ({ b with
          tag := true, memory := false, temporary := true, data := sizeLine size
          held := fun absurd => Bool.noConfusion absurd } :: out, free)
    else (out, free)
  if last.lastBuf then
    let (b, free) := ngxChainGetFreeBuf free
    (out ++ [{ b with
      tag := true, temporary := false, memory := true, lastBuf := true
      data := if size = 0 then lastChunk.drop 2 else lastChunk
      held := fun absurd => by simp at absurd }], free)
  else if size > 0 then
    let (b, free) := ngxChainGetFreeBuf free
    (out ++ [{ b with
      tag := true, temporary := false, memory := true, data := [CR, LF]
      held := fun absurd => by simp at absurd }], free)
  else (out, free)

/-- What the following filters have sent of the buffers that they hold: the bytes of each. -/
def sendSome (sent : Nat → Nat) (chain : List Buf) : List Buf :=
  chain.zipIdx.map fun (b, i) =>
    { b with
      data := b.data.drop (sent i)
      held := fun special => by rw [b.held special, List.drop_nil] }

/-- A call with the chain `chain`; the result is also the chain that is passed on. An empty chain is
passed on as it is. -/
def ngxHttpChunkedBodyFilter (sent : Nat → Nat) (ctx : Ctx) (chain : List Buf) : Ctx × List Buf :=
  match chain.getLast? with
  | none => (ctx, [])
  | some last =>
    let (out, free) := frame ctx.free chain last
    let held := sendSome sent (ctx.busy ++ out)
    (ngxChainUpdateChains ⟨free, held.take ctx.busy.length⟩ (held.drop ctx.busy.length), out)

/-- A call, with what is sent in its course. -/
structure Call where
  chain : List Buf
  sent : Nat → Nat

def passedOn : Ctx → List Call → List UInt8
  | _, [] => []
  | ctx, call :: calls =>
    let (ctx, out) := ngxHttpChunkedBodyFilter call.sent ctx call.chain
    out.flatMap Buf.data ++ passedOn ctx calls

def bytes (chain : List Buf) : List UInt8 := chain.flatMap Buf.data

section Frame

@[simp] theorem bytes_nil : bytes [] = [] := rfl

@[simp] theorem bytes_cons (b : Buf) (chain : List Buf) : bytes (b :: chain) = b.data ++ bytes chain := rfl

@[simp] theorem bytes_append (first second : List Buf) :
    bytes (first ++ second) = bytes first ++ bytes second := List.flatMap_append

theorem unlinked_empty {b : Buf} (unlinked : ¬(b.flush || b.sync || ngxBufInMemory b || b.inFile) = true) :
    b.data = [] := by
  apply b.held
  simp only [ngxBufInMemory, Bool.or_eq_true, not_or, Bool.not_eq_true] at unlinked
  obtain ⟨⟨⟨_, _⟩, ⟨temporary, memory⟩, mmap⟩, inFile⟩ := unlinked
  rw [temporary, memory, mmap, inFile]
  rfl

theorem gather_spec (chain : List Buf) :
    (gather chain).1 = (bytes chain).length ∧ bytes (gather chain).2 = bytes chain := by
  induction chain with
  | nil => exact ⟨rfl, rfl⟩
  | cons b chain ih =>
    obtain ⟨size, out⟩ := ih
    refine ⟨by simp only [gather, size, bytes_cons, ngxBufSize, List.length_append], ?_⟩
    simp only [gather]
    by_cases linked : (b.flush || b.sync || ngxBufInMemory b || b.inFile) = true
    · rw [if_pos linked, bytes_cons, bytes_cons, out]
    · rw [if_neg linked, bytes_cons, unlinked_empty linked, out, List.nil_append]

theorem bytes_clearLast (chain : List Buf) : bytes (clearLast chain) = bytes chain := by
  induction chain with
  | nil => rfl
  | cons b chain ih =>
    cases chain with
    | nil => rfl
    | cons next chain =>
      show b.data ++ bytes (clearLast (next :: chain)) = _
      rw [ih]
      rfl

def coded (data : List UInt8) (ended : Bool) : List UInt8 :=
  (if data = [] then [] else sizeLine data.length ++ data ++ crlf) ++
    if ended then lastChunk.drop 2 else []

theorem frame_spec (free chain : List Buf) (last : Buf) :
    bytes (frame free chain last).1 = coded (bytes chain) last.lastBuf := by
  have gathered : ∃ size out, gather (if last.lastBuf then clearLast chain else chain) = (size, out) ∧
      size = (bytes chain).length ∧ bytes out = bytes chain := by
    refine ⟨_, _, rfl, ?_⟩
    cases last.lastBuf with
    | true =>
      rw [if_pos rfl, ← bytes_clearLast chain]
      exact gather_spec (clearLast chain)
    | false => exact gather_spec chain
  obtain ⟨size, out, isGather, isSize, isOut⟩ := gathered
  have empty : size = 0 ↔ bytes chain = [] := by rw [isSize, List.length_eq_zero_iff]
  unfold frame coded
  rw [isGather]
  by_cases none : size = 0
  · have noBytes := empty.mp none
    rw [noBytes] at isOut
    cases ended : last.lastBuf with
    | true => simp [none, noBytes, isOut]
    | false => simp [none, noBytes, isOut]
  · have someBytes : bytes chain ≠ [] := fun absurd => none (empty.mpr absurd)
    have positive : size > 0 := Nat.pos_of_ne_zero none
    cases ended : last.lastBuf with
    | true => simp [none, someBytes, isOut, ← isSize, lastChunk, crlf]
    | false => simp [none, positive, someBytes, isOut, ← isSize, crlf]

end Frame

section Hex

theorem hexDigit_hex (digit : Nat) (small : digit < 16) : hexDigit (hex digit) = some digit := by
  have all : ∀ d : Fin 16, hexDigit (hex d.val) = some d.val := by decide +kernel
  exact all ⟨digit, small⟩

/-- The digits are read back in front of whatever follows them. -/
theorem readSize_hexLoop (turns n : Nat) (p : List UInt8) (enough : n ≤ turns) :
    ∃ k, ∀ read, readSize read (hexLoop turns n p) = readSize (some (read.getD 0 * 16 ^ k + n)) p := by
  have one : ∀ (n : Nat) (read : Option Nat) (p : List UInt8),
      readSize read (hex (n % 16) :: p) = readSize (some (read.getD 0 * 16 + n % 16)) p := by
    intro n read p
    rw [readSize, hexDigit_hex _ (Nat.mod_lt _ (by decide))]
  induction turns generalizing n p with
  | zero =>
    obtain rfl : n = 0 := by omega
    exact ⟨1, fun read => one 0 read p⟩
  | succ turns ih =>
    rw [hexLoop]
    by_cases single : n / 16 = 0
    · refine ⟨1, fun read => ?_⟩
      rw [if_pos single, one, Nat.mod_eq_of_lt (by omega), Nat.pow_one]
    · obtain ⟨k, reads⟩ := ih (n / 16) (hex (n % 16) :: p) (by omega)
      refine ⟨k + 1, fun read => ?_⟩
      rw [if_neg single, reads, one, Option.getD_some, Nat.pow_succ, ← Nat.mul_assoc, Nat.add_mul]
      congr 2
      omega

theorem sizeLine_spec (n : Nat) : SizeLine (sizeLine n) n := by
  intro rest
  obtain ⟨k, reads⟩ := readSize_hexLoop n n (crlf ++ rest) (Nat.le_refl n)
  have placed : ∀ turns n p q, hexLoop turns n (p ++ q) = hexLoop turns n p ++ q := by
    intro turns
    induction turns with
    | zero => intro n p q; rfl
    | succ turns ih =>
      intro n p q
      rw [hexLoop, hexLoop]
      split
      · rfl
      · exact ih (n / 16) (hex (n % 16) :: p) q
  have shape : sizeLine n ++ rest = hexLoop n n (crlf ++ rest) := by
    rw [sizeLine, List.append_assoc, ← List.nil_append (crlf ++ rest), placed]
    rfl
  rw [shape, reads none]
  simp [readSize, crlf, hexDigit]

end Hex

/-- Whether the last buffer of a chain has `last_buf`. -/
def ends (chain : List Buf) : Bool := chain.getLast?.any Buf.lastBuf

section Calls

variable {calls : List Call}

theorem passedOn_cons (ctx : Ctx) (call : Call) (calls : List Call) :
    ∃ next, passedOn ctx (call :: calls) =
      coded (bytes call.chain) (ends call.chain) ++ passedOn next calls := by
  refine ⟨(ngxHttpChunkedBodyFilter call.sent ctx call.chain).1, ?_⟩
  show bytes (ngxHttpChunkedBodyFilter call.sent ctx call.chain).2 ++ _ = _
  congr 1
  unfold ngxHttpChunkedBodyFilter ends
  cases found : call.chain.getLast? with
  | none =>
    rw [List.getLast?_eq_none_iff] at found
    rw [found]
    rfl
  | some last => exact frame_spec ctx.free call.chain last

theorem decode_open (turns : Nat) (data rest : List UInt8)
    (enough : (coded data false ++ rest).length ≤ turns) :
    ∃ later, rest.length ≤ later ∧ decodeLoop turns (coded data false ++ rest) =
      (decodeLoop later rest).map fun (more, ended) => (data ++ more, ended) := by
  unfold coded at *
  by_cases none : data = []
  · subst none
    refine ⟨turns, by simpa using enough, ?_⟩
    simp only [if_true, List.nil_append, Bool.false_eq_true, if_false]
    cases decodeLoop turns rest with
    | none => rfl
    | some result => rfl
  · simp only [if_neg none, Bool.false_eq_true, if_false, List.append_nil, List.length_append] at *
    have line : sizeLine data.length ≠ [] := (sizeLine_spec data.length).ne_nil
    have positive := List.length_pos_of_ne_nil line
    obtain ⟨later, rfl⟩ : ∃ later, turns = later + 1 := ⟨turns - 1, by omega⟩
    exact ⟨later, by omega, decodeLoop_chunk (sizeLine_spec _) none⟩

theorem decode_ended (turns : Nat) (data : List UInt8) (enough : (coded data true).length ≤ turns) :
    decodeLoop turns (coded data true) = some (data, true) := by
  have split : coded data true = coded data false ++ lastChunk.drop 2 := by simp [coded]
  rw [split] at enough ⊢
  obtain ⟨later, room, decoded⟩ := decode_open turns data _ enough
  have isLast : lastChunk.drop 2 = sizeLine 0 ++ crlf := by decide +kernel
  obtain ⟨more, rfl⟩ : ∃ more, later = more + 1 := by
    have length : (lastChunk.drop 2).length = 5 := rfl
    exact ⟨later - 1, by omega⟩
  rw [decoded, isLast, decodeLoop_last (sizeLine_spec 0)]
  simp

def input (calls : List Call) : List Buf := calls.flatMap Call.chain

theorem passedOn_empty (ctx : Ctx) (none : input calls = []) : passedOn ctx calls = [] := by
  induction calls generalizing ctx with
  | nil => rfl
  | cons call calls ih =>
    obtain ⟨first, rest⟩ := List.append_eq_nil_iff.mp (show call.chain ++ input calls = [] from none)
    obtain ⟨next, out⟩ := passedOn_cons ctx call calls
    rw [out, ih next rest, first]
    rfl

theorem decode_passedOn (ctx : Ctx) (turns : Nat) (calls : List Call)
    (last_only : ∀ b ∈ (input calls).dropLast, b.lastBuf = false)
    (enough : (passedOn ctx calls).length ≤ turns) :
    decodeLoop turns (passedOn ctx calls) = some (bytes (input calls), ends (input calls)) := by
  induction calls generalizing ctx turns with
  | nil => cases turns with
      | zero => rfl
      | succ turns => rfl
  | cons call calls ih =>
    obtain ⟨next, out⟩ := passedOn_cons ctx call calls
    have whole : input (call :: calls) = call.chain ++ input calls := rfl
    rw [out] at enough ⊢
    by_cases exceeds : input calls = []
    · -- the calls that follow have no buffers
      rw [whole, exceeds, List.append_nil]
      rw [passedOn_empty next exceeds, List.append_nil] at enough ⊢
      cases ended : ends call.chain with
      | true =>
        rw [ended] at enough
        exact decode_ended turns _ enough
      | false =>
        rw [ended] at enough
        rw [← List.append_nil (coded _ _)] at enough ⊢
        obtain ⟨later, _, decoded⟩ := decode_open turns _ _ enough
        rw [decoded]
        cases later with
        | zero => simp [decodeLoop]
        | succ later => simp [decodeLoop]
    · rw [whole, List.dropLast_append_of_ne_nil exceeds] at last_only
      have open_ : ends call.chain = false := by
        unfold ends
        cases found : call.chain.getLast? with
        | none => rfl
        | some last =>
          exact last_only last (List.mem_append_left _ (List.mem_of_getLast? found))
      rw [open_] at enough ⊢
      obtain ⟨later, room, decoded⟩ := decode_open turns _ _ enough
      have rest := ih next later (fun b member => last_only b (List.mem_append_right _ member)) room
      have end_ : ends (call.chain ++ input calls) = ends (input calls) := by
        unfold ends
        rw [List.getLast?_append_of_ne_nil _ exceeds]
      rw [decoded, rest, whole, end_, bytes_append]
      rfl

end Calls

/-- When only the last buffer of all may have `last_buf`, what is passed on decodes to the bytes of
the input, and ends in the last chunk if and only if `last_buf` was there. -/
theorem chunked_correct (calls : List Call)
    (last_only : ∀ b ∈ (input calls).dropLast, b.lastBuf = false) :
    ∃ ended, decodeChunked (passedOn ⟨[], []⟩ calls) = some (bytes (input calls), ended) ∧
      (ended = true ↔ ∃ b ∈ input calls, b.lastBuf = true) := by
  refine ⟨_, decode_passedOn ⟨[], []⟩ _ calls last_only (Nat.le_refl _), ?_⟩
  unfold ends
  constructor
  · intro ended
    obtain ⟨last, found, flag⟩ := (Option.any_eq_true _ _).mp ended
    exact ⟨last, List.mem_of_getLast? found, flag⟩
  · rintro ⟨b, member, flag⟩
    have some_buf : input calls ≠ [] := List.ne_nil_of_mem member
    rw [List.getLast?_eq_some_getLast some_buf, Option.any_some]
    rw [← List.dropLast_append_getLast some_buf, List.mem_append, List.mem_singleton] at member
    rcases member with early | rfl
    · rw [last_only b early] at flag
      cases flag
    · exact flag

def textBuf (data : List UInt8) (lastBuf : Bool) : Buf :=
  ⟨data, true, false, false, false, false, false, lastBuf, false, fun absurd => Bool.noConfusion absurd⟩

def flushBuf (lastBuf : Bool) : Buf :=
  ⟨[], false, false, false, false, true, false, lastBuf, false, fun _ => rfl⟩

/-- Two buffers in one call, a flush, and the end of the response. -/
def threeCalls : List Call :=
  [⟨[textBuf [1, 2, 3] false, textBuf (List.replicate 14 9) false], fun _ => 1⟩,
    ⟨[flushBuf false], fun _ => 100⟩, ⟨[textBuf [7] false, flushBuf true], fun _ => 0⟩]

theorem chunked_correct_three_calls :
    passedOn ⟨[], []⟩ threeCalls =
        [49, 49, 13, 10, 1, 2, 3] ++ List.replicate 14 9 ++
          [13, 10, 49, 13, 10, 7, 13, 10, 48, 13, 10, 13, 10] ∧
      ∃ ended, decodeChunked (passedOn ⟨[], []⟩ threeCalls) =
          some ([1, 2, 3] ++ List.replicate 14 9 ++ [7], ended) ∧
        (ended = true ↔ ∃ b ∈ input threeCalls, b.lastBuf = true) :=
  ⟨by decide +kernel, chunked_correct threeCalls (by decide +kernel)⟩

end NgxFormal.Http.Chunked
