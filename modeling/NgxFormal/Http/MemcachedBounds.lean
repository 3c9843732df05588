import NgxFormal.Http.Memcached

/-! Whatever a server sends behind the `VALUE` line: when `ngx_http_memcached_filter` keeps its
counters in their range. -/

namespace NgxFormal.Http.Memcached

open Core.Hash (ngxStrncmp)
open Lib.Window

/-- The upstream with `bytes` behind `u->buffer.last`, as the filter is called. -/
def reading (u : Upstream) (bytes : List UInt8) : Upstream :=
  { u with mem := store u.mem u.last bytes }

def stepMove (start : Nat) (t : Transfer) (m : Move) : Option Transfer := some (move start t m)

/-- What the filter keeps to when `bytes` are read: `ctx->rest` stays in the trailer and `u->length`
does not pass zero, nothing but the bytes that are read is looked at, and no more than the announced
length is in the buffers or sent. -/
structure SafeRead (start announced : Nat) (t : Transfer) (bytes : List UInt8) : Prop where
  rest : (move start t (.read bytes)).u.rest ≤ endLength
  length : (move start t (.read bytes)).u.length ≤ t.u.length
  reads : ∀ mem, (∀ i, t.u.last ≤ i → i < t.u.last + bytes.length →
      mem i = (reading t.u bytes).mem i) →
    ngxHttpMemcachedFilter { t.u with mem := mem } bytes.length =
      { ngxHttpMemcachedFilter (reading t.u bytes) bytes.length with mem := mem }
  output : ((move start t (.read bytes)).sent ++ content (move start t (.read bytes)).u).length ≤
    announced

/-- Every read is safe; nothing can go wrong where the buffers are sent. -/
def Safe (start announced : Nat) (t : Transfer) : Move → Prop
  | .read bytes => SafeRead start announced t bytes
  | .send => True

/-- No more is read than the data and the trailer that are left, unless what is read behind the data
is not the trailer. -/
def FitsRead (u : Upstream) (bytes : List UInt8) : Prop :=
  bytes.length ≤ u.length ∨ u.length = u.rest ∧
    ngxStrncmp bytes.length bytes (memcachedEnd.drop (endLength - u.rest)) ≠ 0

def Fits (t : Transfer) : Move → Prop
  | .read bytes => FitsRead t.u bytes
  | .send => True

/-- The counters are in the data or in the trailer, and with the data that are to come there are not
more than announced. -/
structure Bounded (announced : Nat) (t : Transfer) : Prop where
  rest : t.u.rest ≤ endLength
  place : t.u.length = t.u.rest ∨ t.u.rest = endLength ∧ endLength ≤ t.u.length
  output : (t.sent ++ content t.u).length + (t.u.length - t.u.rest) ≤ announced
  inside : ∀ buf ∈ t.u.outBufs, buf.2 ≤ t.u.last

section Bounds

variable {announced start : Nat} {t : Transfer} {u : Upstream} {bytes sent : List UInt8}

theorem filter_reads (mem : Nat → UInt8) (n : Nat)
    (same : ∀ i, u.last ≤ i → i < u.last + n → mem i = u.mem i) :
    ngxHttpMemcachedFilter { u with mem := mem } n =
      { ngxHttpMemcachedFilter u n with mem := mem } := by
  have whole : window mem u.last (u.last + n) = window u.mem u.last (u.last + n) := window_congr same
  have part : ∀ k, window mem (u.last + k) (u.last + n) = window u.mem (u.last + k) (u.last + n) := by
    intro k
    apply window_congr
    intro i above below
    exact same i (by omega) below
  simp only [ngxHttpMemcachedFilter, whole, part]
  by_cases behind : u.length = u.rest
  · rw [if_pos behind, if_pos behind]
    split <;> rfl
  · rw [if_neg behind, if_neg behind]
    by_cases within : (n : Int) ≤ ssize (sizeSub u.length endLength)
    · rw [if_pos within, if_pos within]
    · rw [if_neg within, if_neg within]

theorem content_one_more (u : Upstream) (pos last : Nat) :
    (content { u with outBufs := u.outBufs ++ [(pos, last)] }).length =
      (content u).length + (last - pos) := by
  rw [content_append, List.length_append, window_length]

theorem Bounded.fits (bounded : Bounded announced ⟨u, sent⟩) (small : announced < 2 ^ 63)
    (word : bytes.length < 2 ^ 63)
    (there : window u.mem u.last (u.last + bytes.length) = bytes) (fits : FitsRead u bytes) :
    Bounded announced ⟨ngxHttpMemcachedFilter u bytes.length, sent⟩ ∧
      (ngxHttpMemcachedFilter u bytes.length).length ≤ u.length := by
  obtain ⟨rest, place, output, inside⟩ := bounded
  have end_ : endLength = 7 := rfl
  dsimp only at rest place output inside
  rw [List.length_append] at output
  have further : ∀ last, u.last ≤ last → ∀ buf ∈ u.outBufs ++ [(u.last, last)], buf.2 ≤ last := by
    intro last further buf member
    rcases List.mem_append.mp member with old | new
    · exact le_trans (inside buf old) further
    · rw [List.mem_singleton.mp new]
  rw [ngxHttpMemcachedFilter]
  by_cases behind : u.length = u.rest
  · rw [if_pos behind, there]
    by_cases other : ngxStrncmp bytes.length bytes (memcachedEnd.drop (endLength - u.rest)) ≠ 0
    · rw [if_pos other]
      refine ⟨⟨Nat.zero_le _, Or.inl rfl, ?_, inside⟩, Nat.zero_le _⟩
      rw [List.length_append]
      exact le_trans (Nat.add_le_add_left (Nat.zero_le _) _) output
    · rw [if_neg other]
      have room : bytes.length ≤ u.length := by
        rcases fits with room | mismatch
        · exact room
        · exact absurd mismatch.2 other
      rw [sizeSub_of_le room (by omega), sizeSub_of_le (by omega) (by omega)]
      refine ⟨⟨by dsimp only; omega, Or.inl (by dsimp only; omega), ?_, inside⟩, Nat.sub_le _ _⟩
      rw [List.length_append]
      dsimp only
      have kept : content { u with length := u.length - bytes.length,
                                   rest := u.rest - bytes.length } = content u := rfl
      rw [kept]
      omega
  · rw [if_neg behind]
    have data : u.rest = endLength ∧ endLength ≤ u.length := by
      rcases place with equal | data
      · exact absurd equal behind
      · exact data
    have room : bytes.length ≤ u.length := by
      rcases fits with room | mismatch
      · exact room
      · exact absurd mismatch.1 behind
    rw [sizeSub_of_le (by omega : endLength ≤ u.length) (by omega), ssize_of_lt (by omega)]
    by_cases within : bytes.length ≤ u.length - endLength
    · rw [if_pos (by omega), sizeSub_of_le room (by omega)]
      refine ⟨⟨rest, Or.inr ⟨data.1, by dsimp only; omega⟩, ?_, further _ (Nat.le_add_right _ _)⟩,
        Nat.sub_le _ _⟩
      have more := content_one_more u u.last (u.last + bytes.length)
      rw [List.length_append]
      dsimp only
      have kept : content { u with last := u.last + bytes.length,
                                   outBufs := u.outBufs ++ [(u.last, u.last + bytes.length)],
                                   length := u.length - bytes.length } =
          content { u with outBufs := u.outBufs ++ [(u.last, u.last + bytes.length)] } := rfl
      rw [kept, more]
      omega
    · rw [if_neg (by omega)]
      dsimp only
      rw [sizeSub_of_le (by omega) (by omega)]
      refine ⟨⟨by dsimp only; omega, Or.inl rfl, ?_, further _ (Nat.le_add_right _ _)⟩, by omega⟩
      have more := content_one_more u u.last (u.last + (u.length - endLength))
      rw [List.length_append]
      dsimp only
      rw [Nat.sub_self, Nat.add_zero]
      refine le_trans (Nat.add_le_add_left (Nat.le_of_eq more) _) ?_
      omega

theorem Bounded.wraps (bounded : Bounded announced ⟨u, sent⟩)
    (word : bytes.length < 2 ^ 63)
    (there : window u.mem u.last (u.last + bytes.length) = bytes) (missed : ¬ FitsRead u bytes) :
    endLength < (ngxHttpMemcachedFilter u bytes.length).rest := by
  obtain ⟨rest, place, output, inside⟩ := bounded
  have end_ : endLength = 7 := rfl
  dsimp only at rest place output
  rw [FitsRead, not_or, not_le, not_and] at missed
  obtain ⟨longer, equal⟩ := missed
  rw [ngxHttpMemcachedFilter]
  by_cases behind : u.length = u.rest
  · rw [if_pos behind, there, if_neg (equal behind)]
    dsimp only
    rw [sizeSub]
    omega
  · rw [if_neg behind]
    have data : u.rest = endLength ∧ endLength ≤ u.length := by
      rcases place with same | data
      · exact absurd same behind
      · exact data
    rw [sizeSub_of_le (by omega : endLength ≤ u.length) (by omega), ssize_of_lt (by omega),
      if_neg (by omega)]
    dsimp only
    rw [sizeSub]
    omega

theorem Bounded.stored (bounded : Bounded announced t) (bytes : List UInt8) :
    Bounded announced ⟨reading t.u bytes, t.sent⟩ where
  rest := bounded.rest
  place := bounded.place
  output := by
    have kept : content (reading t.u bytes) = content t.u := content_store bounded.inside bytes
    dsimp only
    rw [kept]
    exact bounded.output
  inside := bounded.inside

theorem Bounded.move (bounded : Bounded announced t) (small : announced < 2 ^ 63) {m : Move}
    (word : m.bytes.length < 2 ^ 63) (fits : Fits t m) :
    Bounded announced (move start t m) := by
  cases m with
  | send =>
    refine ⟨bounded.rest, bounded.place, ?_, fun _ member => absurd member List.not_mem_nil⟩
    have empty : content { t.u with outBufs := [], last := start } = [] := rfl
    rw [Memcached.move, empty, List.append_nil]
    exact bounded.output
  | read bytes => exact ((bounded.stored bytes).fits small word window_store fits).1

theorem Bounded.safe_iff (bounded : Bounded announced t) (small : announced < 2 ^ 63) {m : Move}
    (word : m.bytes.length < 2 ^ 63) : Safe start announced t m ↔ Fits t m := by
  cases m with
  | send => exact Iff.rfl
  | read bytes =>
    have stored := bounded.stored bytes
    constructor
    · intro safe
      by_contra missed
      exact absurd safe.rest (not_le.mpr (stored.wraps word window_store missed))
    · intro fits
      have kept := stored.fits small word window_store fits
      refine ⟨kept.1.rest, kept.2, ?_, ?_⟩
      · intro mem same
        have all := @filter_reads (reading t.u bytes) mem bytes.length same
        exact all
      · exact le_trans (Nat.le_add_right _ _) kept.1.output

theorem bounded_init (u : Upstream) (short : u.length < 2 ^ 63) (rest : u.rest = endLength)
    (none_ : u.outBufs = []) : Bounded u.length ⟨ngxHttpMemcachedFilterInit u, []⟩ := by
  have end_ : endLength = 7 := rfl
  have length : (u.length + endLength) % 2 ^ 64 = u.length + endLength := by omega
  rw [ngxHttpMemcachedFilterInit, length]
  refine ⟨by dsimp only; omega, Or.inr ⟨rest, Nat.le_add_left _ _⟩, ?_, ?_⟩
  · have empty : content { u with length := u.length + endLength } = [] := by
      rw [content, none_, List.flatMap_nil]
    rw [empty, List.append_nil]
    dsimp only
    rw [rest, Nat.add_sub_cancel, List.length_nil, Nat.zero_add]
  · intro buf member
    rw [none_] at member
    exact absurd member List.not_mem_nil

end Bounds

/-- However what a server sends is split into reads, and whenever the buffers are sent: every call
of the filter is safe if and only if none of them gets more than the data and the trailer that are
left, unless it finds that the trailer is wrong behind the data. -/
theorem memcached_filter_safe_iff (u : Upstream) (short : u.length < 2 ^ 63)
    (rest : u.rest = endLength) (none_ : u.outBufs = []) (start : Nat) (moves : List Move)
    (words : ∀ m ∈ moves, m.bytes.length < 2 ^ 63) :
    Lib.Meets (stepMove start) (Safe start u.length) ⟨ngxHttpMemcachedFilterInit u, []⟩ moves ↔
      Lib.Meets (stepMove start) Fits ⟨ngxHttpMemcachedFilterInit u, []⟩ moves := by
  refine Lib.meets_iff moves ?_ ?_ (bounded_init u short rest none_)
  · intro t m member bounded
    exact bounded.safe_iff short (words m member)
  · intro t m member next bounded fits stepped
    rw [← Option.some.inj stepped]
    exact bounded.move short (words m member) fits

/-- A byte of data, its trailer and a byte more in one read are one byte too many. -/
theorem memcached_filter_safe_one_more :
    let u : Upstream := ⟨fun _ => 0, 100, 1, 7, [], 0⟩
    Lib.Meets (stepMove 0) (Safe 0 u.length) ⟨ngxHttpMemcachedFilterInit u, []⟩
        [.read (0x61 :: memcachedEnd)] ↔
      Lib.Meets (stepMove 0) Fits ⟨ngxHttpMemcachedFilterInit u, []⟩
        [.read (0x61 :: memcachedEnd)] :=
  memcached_filter_safe_iff ⟨fun _ => 0, 100, 1, 7, [], 0⟩ (by decide) rfl rfl 0
    [.read (0x61 :: memcachedEnd)] (by decide)

/-- With the trailer of one byte of data another byte is read: `ctx->rest` and `u->length` are
2 ^ 64 - 1. -/
theorem memcached_filter_wraps :
    ¬ ∀ (u : Upstream) (start : Nat) (moves : List Move), u.length < 2 ^ 63 → u.rest = endLength →
      u.outBufs = [] → (∀ m ∈ moves, m.bytes.length < 2 ^ 63) →
      Lib.Meets (stepMove start) (Safe start u.length) ⟨ngxHttpMemcachedFilterInit u, []⟩ moves := by
  intro all
  have safe := all ⟨fun _ => 0, 100, 1, 7, [], 0⟩ 0 [.read (0x61 :: memcachedEnd ++ [0x78])]
    (by decide) rfl rfl (by decide)
  exact absurd safe.1.rest (by decide)

end NgxFormal.Http.Memcached
