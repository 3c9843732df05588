import NgxFormal.Core.HashInit
import NgxFormal.Lib.Window

/-! `ngx_http_memcached_filter_init` and `ngx_http_memcached_filter`: the data of a value, and the
trailer behind it. -/

namespace NgxFormal.Http.Memcached

open Core.Hash (ngxStrncmp)
open Lib.Window

/-- `ngx_http_memcached_end` -/
def memcachedEnd : List UInt8 := [CR, LF, chr 'E', chr 'N', chr 'D', CR, LF]

/-- `NGX_HTTP_MEMCACHED_END` -/
def endLength : Nat := 7

/-- `n - k` of a `size_t` -/
def sizeSub (n k : Nat) : Nat := (n + 2 ^ 64 - k) % 2 ^ 64

/-- `(ssize_t) n` -/
def ssize (n : Nat) : Int := if n < 2 ^ 63 then n else (n : Int) - 2 ^ 64

/-- What the filter uses of `u` and of its context: the bytes of `u->buffer` by their address, with
`u->buffer.last`, and the buffers of `u->out_bufs` from `pos` to `last`. `invalid` counts the
messages about an invalid trailer. -/
structure Upstream where
  mem : Nat → UInt8
  last : Nat
  length : Nat
  rest : Nat
  outBufs : List (Nat × Nat)
  invalid : Nat

def ngxHttpMemcachedFilterInit (u : Upstream) : Upstream :=
  { u with length := (u.length + endLength) % 2 ^ 64 }

/-- `ngx_http_memcached_filter` of the bytes behind `u->buffer.last` -/
def ngxHttpMemcachedFilter (u : Upstream) (bytes : Nat) : Upstream :=
  if u.length = u.rest then
    if ngxStrncmp bytes (window u.mem u.last (u.last + bytes))
        (memcachedEnd.drop (endLength - u.rest)) ≠ 0 then
      { u with length := 0, rest := 0, invalid := u.invalid + 1 }
    else { u with length := sizeSub u.length bytes, rest := sizeSub u.rest bytes }
  else
    let last := u.last
    let bufferLast := u.last + bytes
    if (bytes : Int) ≤ ssize (sizeSub u.length endLength) then
      { u with
          last := bufferLast
          outBufs := u.outBufs ++ [(last, bufferLast)]
          length := sizeSub u.length bytes }
    else
      let pos := last
      let last := last + sizeSub u.length endLength
      let invalid :=
        if ngxStrncmp (bufferLast - last) (window u.mem last bufferLast) memcachedEnd ≠ 0 then
          u.invalid + 1
        else u.invalid
      let rest := sizeSub u.rest (bufferLast - last)
      { u with
          last := last
          outBufs := u.outBufs ++ [(pos, last)]
          invalid := invalid
          rest := rest
          length := rest }

/-- What happens to the buffer: bytes are read behind its end and filtered, or all of `u->out_bufs`
is sent and the buffer is used from its start again. -/
inductive Move where
  | read (bytes : List UInt8)
  | send
  deriving DecidableEq, Repr

structure Transfer where
  u : Upstream
  sent : List UInt8

/-- What stands in `u->out_bufs`. -/
def content (u : Upstream) : List UInt8 :=
  u.outBufs.flatMap fun buf => window u.mem buf.1 buf.2

def move (start : Nat) (t : Transfer) : Move → Transfer
  | .read bytes =>
    { t with
        u := ngxHttpMemcachedFilter { t.u with mem := store t.u.mem t.u.last bytes } bytes.length }
  | .send => ⟨{ t.u with outBufs := [], last := start }, t.sent ++ content t.u⟩

def Move.bytes : Move → List UInt8
  | .read bytes => bytes
  | .send => []

def received (moves : List Move) : List UInt8 := moves.flatMap Move.bytes

/-- The transfer where `got` is read of the data and the trailer: the data of it are in
`u->out_bufs` or sent, and both counters say what is left. -/
structure Inv (data got : List UInt8) (t : Transfer) : Prop where
  output : t.sent ++ content t.u = data.take got.length
  length : t.u.length + got.length = data.length + endLength
  rest : t.u.rest = min endLength t.u.length
  inside : ∀ buf ∈ t.u.outBufs, buf.2 ≤ t.u.last
  invalid : t.u.invalid = 0

section Filter

variable {data got bytes more : List UInt8} {t : Transfer} {u : Upstream} {n k : Nat}

theorem sizeSub_of_le (le : k ≤ n) (word : n < 2 ^ 64) : sizeSub n k = n - k := by
  rw [sizeSub]
  omega

theorem ssize_of_lt (small : n < 2 ^ 63) : ssize n = n := if_pos small

theorem ngxStrncmp_prefix (more : List UInt8) : ngxStrncmp bytes.length bytes (bytes ++ more) = 0 := by
  induction bytes with
  | nil => rfl
  | cons b bytes ih =>
    have same : peek (b :: bytes) = peek (b :: (bytes ++ more)) := rfl
    rw [List.length_cons, List.cons_append, ngxStrncmp, if_neg (not_not.mpr same)]
    by_cases zero : peek (b :: bytes) = 0
    · rw [if_pos zero]
    · rw [if_neg zero]
      exact ih

theorem content_store (inside : ∀ buf ∈ u.outBufs, buf.2 ≤ u.last) (bytes : List UInt8) :
    content { u with mem := store u.mem u.last bytes } = content u := by
  rw [content, content]
  apply List.flatMap_congr
  intro buf member
  exact window_store_outside (Or.inl (inside buf member))

theorem content_append (u : Upstream) (pos last : Nat) :
    content { u with outBufs := u.outBufs ++ [(pos, last)] } = content u ++ window u.mem pos last := by
  rw [content, List.flatMap_append, List.flatMap_singleton, content]

theorem left_of_split (split : got ++ (bytes ++ more) = data ++ memcachedEnd) :
    bytes ++ more = data.drop got.length ++ memcachedEnd.drop (got.length - data.length) := by
  have both := congrArg (List.drop got.length) split
  rw [List.drop_left, List.drop_append] at both
  exact both

theorem Inv.stored (inv : Inv data got t) (bytes : List UInt8) :
    Inv data got { t with u := { t.u with mem := store t.u.mem t.u.last bytes } } where
  output := by
    rw [← inv.output]
    exact congrArg (t.sent ++ ·) (content_store inv.inside bytes)
  length := inv.length
  rest := inv.rest
  inside := inv.inside
  invalid := inv.invalid

theorem Inv.filterTrailer {sent : List UInt8} (inv : Inv data got ⟨u, sent⟩)
    (split : got ++ (bytes ++ more) = data ++ memcachedEnd) (short : data.length < 2 ^ 63)
    (there : window u.mem u.last (u.last + bytes.length) = bytes) (behind : u.length = u.rest) :
    Inv data (got ++ bytes) ⟨ngxHttpMemcachedFilter u bytes.length, sent⟩ := by
  obtain ⟨output, length, rest, inside, invalid⟩ := inv
  have total := congrArg List.length split
  have left := left_of_split split
  have seven : memcachedEnd.length = endLength := rfl
  simp only [List.length_append, seven] at total
  dsimp only at output length rest inside invalid
  have skipped : endLength - u.rest = got.length - data.length := by omega
  have nothing : data.drop got.length = [] := List.drop_eq_nil_of_le (by omega)
  rw [nothing, List.nil_append] at left
  have compared : ngxStrncmp bytes.length (window u.mem u.last (u.last + bytes.length))
      (memcachedEnd.drop (endLength - u.rest)) = 0 := by
    rw [there, skipped, ← left]
    exact ngxStrncmp_prefix more
  have end_ : endLength = 7 := rfl
  rw [ngxHttpMemcachedFilter, if_pos behind, if_neg (not_not.mpr compared),
    sizeSub_of_le (by omega) (by omega), sizeSub_of_le (by omega) (by omega)]
  refine ⟨?_, ?_, ?_, inside, invalid⟩
  · have whole : data.take (got ++ bytes).length = data.take got.length := by
      rw [List.take_of_length_le (by omega : data.length ≤ got.length),
        List.take_of_length_le (by rw [List.length_append]; omega)]
    rw [whole, ← output]
    rfl
  · rw [List.length_append]
    dsimp only
    omega
  · dsimp only
    omega

theorem Inv.filterData {sent : List UInt8} (inv : Inv data got ⟨u, sent⟩)
    (split : got ++ (bytes ++ more) = data ++ memcachedEnd) (short : data.length < 2 ^ 63)
    (there : window u.mem u.last (u.last + bytes.length) = bytes) (before : u.length ≠ u.rest) :
    Inv data (got ++ bytes) ⟨ngxHttpMemcachedFilter u bytes.length, sent⟩ := by
  obtain ⟨output, length, rest, inside, invalid⟩ := inv
  have total := congrArg List.length split
  have left := left_of_split split
  have seven : memcachedEnd.length = endLength := rfl
  simp only [List.length_append, seven] at total
  dsimp only at output length rest inside invalid
  have end_ : endLength = 7 := rfl
  have none_ : got.length - data.length = 0 := by omega
  have todo : u.length - endLength = (data.drop got.length).length := by
    rw [List.length_drop]
    omega
  rw [none_, List.drop_zero] at left
  have taken : data.take (got ++ bytes).length =
      sent ++ content u ++ (data.drop got.length).take bytes.length := by
    rw [List.length_append, List.take_add, output]
  have further : ∀ last, u.last ≤ last → ∀ buf ∈ u.outBufs ++ [(u.last, last)], buf.2 ≤ last := by
    intro last further buf member
    rcases List.mem_append.mp member with old | new
    · exact le_trans (inside buf old) further
    · rw [List.mem_singleton.mp new]
  rw [ngxHttpMemcachedFilter, if_neg before, sizeSub_of_le (by omega) (by omega),
    ssize_of_lt (by omega), todo]
  generalize data.drop got.length = rest_ at left todo taken
  by_cases within : bytes.length ≤ rest_.length
  · have read : rest_.take bytes.length = bytes := by
      have both := congrArg (List.take bytes.length) left
      rw [List.take_left, List.take_append_of_le_length within] at both
      exact both.symm
    rw [if_pos (by omega), sizeSub_of_le (by omega) (by omega)]
    refine ⟨?_, ?_, ?_, further _ (Nat.le_add_right _ _), invalid⟩
    · rw [taken, read, List.append_assoc]
      have appended := content_append u u.last (u.last + bytes.length)
      rw [there] at appended
      exact congrArg (sent ++ ·) appended
    · rw [List.length_append]
      dsimp only
      omega
    · dsimp only
      omega
  · obtain ⟨tail, rfl, ends⟩ : ∃ tail, bytes = rest_ ++ tail ∧ memcachedEnd = tail ++ more := by
      rcases List.append_eq_append_iff.mp left with ⟨other, longer, _⟩ | found
      · have shorter := congrArg List.length longer
        rw [List.length_append] at shorter
        omega
      · exact found
    rw [List.length_append] at there total within ⊢
    have front : window u.mem u.last (u.last + rest_.length) = rest_ := by
      rw [← window_take (by omega : u.last + rest_.length ≤ u.last + (rest_.length + tail.length)),
        there, List.take_left]
    have back : window u.mem (u.last + rest_.length) (u.last + (rest_.length + tail.length)) = tail := by
      rw [← window_drop (by omega), there, List.drop_left]
    have behind : u.last + (rest_.length + tail.length) - (u.last + rest_.length) = tail.length := by
      omega
    have compared : ngxStrncmp tail.length tail memcachedEnd = 0 := by
      rw [ends]
      exact ngxStrncmp_prefix more
    rw [if_neg (by omega)]
    dsimp only
    rw [behind, back, if_neg (not_not.mpr compared), sizeSub_of_le (by omega) (by omega)]
    refine ⟨?_, ?_, ?_, further _ (Nat.le_add_right _ _), invalid⟩
    · rw [taken, List.take_of_length_le (by rw [List.length_append]; omega), List.append_assoc]
      have appended := content_append u u.last (u.last + rest_.length)
      rw [front] at appended
      exact congrArg (sent ++ ·) appended
    · rw [List.length_append, List.length_append]
      dsimp only
      omega
    · dsimp only
      omega

theorem Inv.move {m : Move} (inv : Inv data got t) (start : Nat)
    (split : got ++ (m.bytes ++ more) = data ++ memcachedEnd) (short : data.length < 2 ^ 63) :
    Inv data (got ++ m.bytes) (move start t m) := by
  cases m with
  | send =>
    have nothing : got ++ Move.send.bytes = got := List.append_nil got
    rw [nothing]
    refine ⟨?_, inv.length, inv.rest, fun _ member => absurd member List.not_mem_nil, inv.invalid⟩
    have empty : content { t.u with outBufs := [], last := start } = [] := rfl
    rw [Memcached.move, empty, List.append_nil]
    exact inv.output
  | read bytes =>
    have stored := inv.stored bytes
    have there : window (store t.u.mem t.u.last bytes) t.u.last (t.u.last + bytes.length) = bytes :=
      window_store
    by_cases behind : t.u.length = t.u.rest
    · exact stored.filterTrailer split short there behind
    · exact stored.filterData split short there behind

theorem Inv.moves (start : Nat) (moves : List Move) (inv : Inv data got t)
    (split : got ++ (received moves ++ more) = data ++ memcachedEnd) (short : data.length < 2 ^ 63) :
    Inv data (got ++ received moves) (moves.foldl (Memcached.move start) t) := by
  induction moves generalizing got t with
  | nil =>
    have nothing : got ++ received [] = got := List.append_nil got
    rw [nothing]
    exact inv
  | cons m moves ih =>
    have cut : received (m :: moves) = m.bytes ++ received moves := rfl
    rw [cut, List.append_assoc] at split
    rw [cut, List.foldl_cons, ← List.append_assoc]
    refine ih (inv.move start split short) ?_
    rw [← split, List.append_assoc]

theorem inv_init (u : Upstream) (known : u.length = data.length) (rest : u.rest = endLength)
    (none_ : u.outBufs = []) (valid : u.invalid = 0) (short : data.length < 2 ^ 63) :
    Inv data [] ⟨ngxHttpMemcachedFilterInit u, []⟩ := by
  have end_ : endLength = 7 := rfl
  have length : (u.length + endLength) % 2 ^ 64 = data.length + endLength := by
    rw [known]
    omega
  refine ⟨?_, ?_, ?_, ?_, valid⟩
  · have empty : content (ngxHttpMemcachedFilterInit u) = [] := by
      rw [content, ngxHttpMemcachedFilterInit, none_, List.flatMap_nil]
    rw [empty]
    rfl
  · rw [ngxHttpMemcachedFilterInit, length]
    rfl
  · rw [ngxHttpMemcachedFilterInit, length]
    dsimp only
    omega
  · intro buf member
    rw [ngxHttpMemcachedFilterInit, none_] at member
    exact absurd member List.not_mem_nil

end Filter

/-- However the data and the trailer are split into reads, and whenever the buffers are sent: at any
time the data that are read are in `u->out_bufs` or sent, no message is logged, and `u->length` is 0
behind the last byte of the trailer only. -/
theorem memcached_filter_splits (data : List UInt8) (short : data.length < 2 ^ 63) (u : Upstream)
    (known : u.length = data.length) (rest : u.rest = endLength) (none_ : u.outBufs = [])
    (valid : u.invalid = 0) (start : Nat) (moves : List Move)
    (split : received moves = data ++ memcachedEnd) (before after : List Move)
    (point : moves = before ++ after) :
    let t := before.foldl (move start) ⟨ngxHttpMemcachedFilterInit u, []⟩
    t.sent ++ content t.u = data.take (received before).length ∧ t.u.invalid = 0 ∧
      (t.u.length = 0 ↔ received before = data ++ memcachedEnd) := by
  have cut : received before ++ received after = data ++ memcachedEnd := by
    rw [← split, point, received, received, received, List.flatMap_append]
  have inv := (inv_init u known rest none_ valid short).moves start before
    (by rw [List.nil_append]; exact cut) short
  rw [List.nil_append] at inv
  refine ⟨inv.output, inv.invalid, ?_⟩
  have length := inv.length
  have total := congrArg List.length cut
  have seven : memcachedEnd.length = endLength := rfl
  simp only [List.length_append, seven] at total
  constructor
  · intro zero
    have empty : received after = [] := List.length_eq_zero_iff.mp (by omega)
    rw [← cut, empty, List.append_nil]
  · intro all
    have count := congrArg List.length all
    rw [List.length_append, seven] at count
    omega

/-- Two bytes, of which the second one is read with the first half of the trailer. -/
theorem memcached_filter_splits_two_bytes :
    let u : Upstream := ⟨fun _ => 0, 100, 2, 7, [], 0⟩
    let before : List Move := [.read [0x61], .send, .read [0x62, 13, 10]]
    let t := before.foldl (move 0) ⟨ngxHttpMemcachedFilterInit u, []⟩
    t.sent ++ content t.u = [0x61, 0x62].take (received before).length ∧ t.u.invalid = 0 ∧
      (t.u.length = 0 ↔ received before = [0x61, 0x62] ++ memcachedEnd) :=
  memcached_filter_splits [0x61, 0x62] (by decide) ⟨fun _ => 0, 100, 2, 7, [], 0⟩ rfl rfl rfl rfl 0
    [.read [0x61], .send, .read [0x62, 13, 10], .read [0x45, 0x4e, 0x44], .read [13, 10]] (by decide)
    [.read [0x61], .send, .read [0x62, 13, 10]] _ rfl

end NgxFormal.Http.Memcached
