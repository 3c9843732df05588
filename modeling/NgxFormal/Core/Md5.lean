import NgxFormal.Lib.Blocks
import NgxFormal.Lib.Bytes
import NgxFormal.Lib.Window

/-! `ngx_md5.c`, for systems without an MD5 of their own: the digest of a text that comes in pieces
of any size. -/

namespace NgxFormal.Core.Md5

open Lib Lib.Blocks Lib.Window

/-- The fields `a`, `b`, `c` and `d` of `ngx_md5_t`. -/
structure State where
  a : BitVec 32
  b : BitVec 32
  c : BitVec 32
  d : BitVec 32
  deriving DecidableEq, Repr

/-- `ngx_md5_t`. The buffer has 64 bytes. -/
structure Ctx where
  bytes : BitVec 64
  state : State
  buffer : Nat → UInt8

def F (x y z : BitVec 32) : BitVec 32 := z ^^^ (x &&& (y ^^^ z))
def G (x y z : BitVec 32) : BitVec 32 := y ^^^ (z &&& (x ^^^ y))
def H (x y z : BitVec 32) : BitVec 32 := x ^^^ y ^^^ z
def I (x y z : BitVec 32) : BitVec 32 := y ^^^ (x ||| ~~~z)

/-- The operands of a `STEP` that change from one to the next: the word, the constant, the shift. -/
abbrev Operands := Nat × BitVec 32 × Nat

def round1 : List Operands :=
  [(0, 0xd76aa478, 7), (1, 0xe8c7b756, 12), (2, 0x242070db, 17), (3, 0xc1bdceee, 22),
    (4, 0xf57c0faf, 7), (5, 0x4787c62a, 12), (6, 0xa8304613, 17), (7, 0xfd469501, 22),
    (8, 0x698098d8, 7), (9, 0x8b44f7af, 12), (10, 0xffff5bb1, 17), (11, 0x895cd7be, 22),
    (12, 0x6b901122, 7), (13, 0xfd987193, 12), (14, 0xa679438e, 17), (15, 0x49b40821, 22)]

def round2 : List Operands :=
  [(1, 0xf61e2562, 5), (6, 0xc040b340, 9), (11, 0x265e5a51, 14), (0, 0xe9b6c7aa, 20),
    (5, 0xd62f105d, 5), (10, 0x02441453, 9), (15, 0xd8a1e681, 14), (4, 0xe7d3fbc8, 20),
    (9, 0x21e1cde6, 5), (14, 0xc33707d6, 9), (3, 0xf4d50d87, 14), (8, 0x455a14ed, 20),
    (13, 0xa9e3e905, 5), (2, 0xfcefa3f8, 9), (7, 0x676f02d9, 14), (12, 0x8d2a4c8a, 20)]

def round3 : List Operands :=
  [(5, 0xfffa3942, 4), (8, 0x8771f681, 11), (11, 0x6d9d6122, 16), (14, 0xfde5380c, 23),
    (1, 0xa4beea44, 4), (4, 0x4bdecfa9, 11), (7, 0xf6bb4b60, 16), (10, 0xbebfbc70, 23),
    (13, 0x289b7ec6, 4), (0, 0xeaa127fa, 11), (3, 0xd4ef3085, 16), (6, 0x04881d05, 23),
    (9, 0xd9d4d039, 4), (12, 0xe6db99e5, 11), (15, 0x1fa27cf8, 16), (2, 0xc4ac5665, 23)]

def round4 : List Operands :=
  [(0, 0xf4292244, 6), (7, 0x432aff97, 10), (14, 0xab9423a7, 15), (5, 0xfc93a039, 21),
    (12, 0x655b59c3, 6), (3, 0x8f0ccc92, 10), (10, 0xffeff47d, 15), (1, 0x85845dd1, 21),
    (8, 0x6fa87e4f, 6), (15, 0xfe2ce6e0, 10), (6, 0xa3014314, 15), (13, 0x4e0811a1, 21),
    (4, 0xf7537e82, 6), (11, 0xbd3af235, 10), (2, 0x2ad7d2bb, 15), (9, 0xeb86d391, 21)]

/-- `SET` and `GET` -/
def get (p : List UInt8) (n : Nat) : BitVec 32 := BitVec.ofNat 32 (leValue ((p.drop (4 * n)).take 4))

/-- `STEP`. The registers take turns: the one that is written is the second one of the next step. -/
def step (f : BitVec 32 → BitVec 32 → BitVec 32 → BitVec 32) (p : List UInt8) (r : State)
    (operands : Operands) : State :=
  let (n, t, s) := operands
  let a := r.a + (f r.b r.c r.d + get p n + t)
  let a := a <<< s ||| a >>> (32 - s)
  ⟨r.d, a + r.b, r.b, r.c⟩

/-- One turn of the loop of `ngx_md5_body`. -/
def block (saved : State) (p : List UInt8) : State :=
  let r := round1.foldl (step F p) saved
  let r := round2.foldl (step G p) r
  let r := round3.foldl (step H p) r
  let r := round4.foldl (step I p) r
  ⟨r.a + saved.a, r.b + saved.b, r.c + saved.c, r.d + saved.d⟩

/-- `size` is a positive multiple of 64. -/
def ngxMd5Body (s : State) (data : List UInt8) (size : Nat) : State × List UInt8 :=
  (absorb 64 block (size / 64) s data, data.drop size)

def initial : State := ⟨0x67452301, 0xefcdab89, 0x98badcfe, 0x10325476⟩

/-- `memory` is what is in the buffer. -/
def ngxMd5Init (memory : Nat → UInt8) : Ctx := ⟨0, initial, memory⟩

/-- `ngx_md5_update` from the whole blocks on. -/
def updateBlocks (ctx : Ctx) (data : List UInt8) : Ctx :=
  if 64 ≤ data.length then
    let (state, rest) := ngxMd5Body ctx.state data (data.length / 64 * 64)
    { ctx with state := state, buffer := store ctx.buffer 0 rest }
  else
    { ctx with buffer := store ctx.buffer 0 data }

def ngxMd5Update (ctx : Ctx) (data : List UInt8) : Ctx :=
  let used := (ctx.bytes &&& 0x3f).toNat
  let free := 64 - used
  let ctx := { ctx with bytes := ctx.bytes + BitVec.ofNat 64 data.length }
  if used = 0 then updateBlocks ctx data
  else if data.length < free then { ctx with buffer := store ctx.buffer used data }
  else
    let buffer := store ctx.buffer used (data.take free)
    let (state, _) := ngxMd5Body ctx.state (window buffer 0 64) 64
    updateBlocks { ctx with state := state, buffer := buffer } (data.drop free)

/-- The bytes of the result, the lowest one of each register first. -/
def result (s : State) : List UInt8 :=
  leBytes 4 s.a.toNat ++ leBytes 4 s.b.toNat ++ leBytes 4 s.c.toNat ++ leBytes 4 s.d.toNat

def ngxMd5Final (ctx : Ctx) : List UInt8 :=
  let used := (ctx.bytes &&& 0x3f).toNat
  let buffer := store ctx.buffer used [0x80]
  let used := used + 1
  let free := 64 - used
  let (state, buffer, used, free) :=
    if free < 8 then
      let buffer := store buffer used (List.replicate free 0)
      ((ngxMd5Body ctx.state (window buffer 0 64) 64).1, buffer, 0, 64)
    else (ctx.state, buffer, used, free)
  let buffer := store buffer used (List.replicate (free - 8) 0)
  let buffer := store buffer 56 (leBytes 8 (ctx.bytes <<< 3).toNat)
  result (ngxMd5Body state (window buffer 0 64) 64).1

/-- The padding of a text of `length` bytes, up to a whole number of blocks. -/
def padding (length : Nat) : List UInt8 :=
  0x80 :: List.replicate ((119 - length % 64) % 64) 0 ++ leBytes 8 (8 * length % 2 ^ 64)

/-- The digest of a text that is there as a whole. -/
def md5 (text : List UInt8) : List UInt8 :=
  let padded := text ++ padding text.length
  result (absorb 64 block (padded.length / 64) initial padded)

/-- The context has the whole blocks of the text behind it and the rest of it in the buffer. -/
structure Holds (ctx : Ctx) (text : List UInt8) : Prop where
  bytes : ctx.bytes = BitVec.ofNat 64 text.length
  state : ctx.state = absorb 64 block (text.length / 64) initial text
  rest : window ctx.buffer 0 (text.length % 64) = text.drop (text.length / 64 * 64)

variable {ctx : Ctx} {text data : List UInt8}

theorem used_eq (length : Nat) : (BitVec.ofNat 64 length &&& 0x3f#64).toNat = length % 64 := by
  rw [BitVec.toNat_and, BitVec.toNat_ofNat, show (0x3f#64).toNat = 2 ^ 6 - 1 by rfl,
    Nat.and_two_pow_sub_one_eq_mod, Nat.mod_mod_of_dvd _ (by decide)]

theorem holds_updateBlocks (whole : text.length % 64 = 0)
    (bytes : ctx.bytes = BitVec.ofNat 64 (text ++ data).length)
    (state : ctx.state = absorb 64 block (text.length / 64) initial text) :
    Holds (updateBlocks ctx data) (text ++ data) := by
  have blocks : (text ++ data).length / 64 = text.length / 64 + data.length / 64 := by
    rw [List.length_append]
    omega
  have front : text.length / 64 * 64 = text.length := by omega
  have taken : absorb 64 block ((text ++ data).length / 64) initial (text ++ data) =
      absorb 64 block (data.length / 64) ctx.state data := by
    rw [blocks, absorb_add, absorb_append (by omega), front, List.drop_left, state]
  have left : (text ++ data).drop ((text ++ data).length / 64 * 64) =
      data.drop (data.length / 64 * 64) := by
    rw [blocks, Nat.add_mul, front, ← List.drop_drop, List.drop_left]
  have room : (text ++ data).length % 64 = 0 + (data.drop (data.length / 64 * 64)).length := by
    rw [List.length_append, List.length_drop]
    omega
  rw [updateBlocks]
  split
  · refine ⟨bytes, ?_, ?_⟩
    · rw [taken, ngxMd5Body, Nat.mul_div_cancel _ (by decide)]
    · rw [left, room]
      change window (store ctx.buffer 0 _) 0 _ = _
      exact window_store
  · have few : data.length / 64 = 0 := by omega
    rw [few, Nat.zero_mul, List.drop_zero] at left room
    refine ⟨bytes, ?_, ?_⟩
    · rw [taken, few, absorb]
    · rw [left, room]
      change window (store ctx.buffer 0 _) 0 _ = _
      exact window_store

theorem Holds.buffered (holds : Holds ctx text) (data : List UInt8) :
    window (store ctx.buffer (text.length % 64) data) 0 (text.length % 64 + data.length) =
      (text ++ data).drop (text.length / 64 * 64) := by
  rw [← window_append (Nat.zero_le _) (Nat.le_add_right _ _), window_store,
    window_store_outside (Or.inl (Nat.le_refl _)), holds.rest, List.drop_append_of_le_length (by omega)]

theorem Holds.update (holds : Holds ctx text) (data : List UInt8) :
    Holds (ngxMd5Update ctx data) (text ++ data) := by
  have used : (ctx.bytes &&& 0x3f).toNat = text.length % 64 := by
    rw [holds.bytes]
    exact used_eq _
  have bytes : ctx.bytes + BitVec.ofNat 64 data.length = BitVec.ofNat 64 (text ++ data).length := by
    rw [holds.bytes, List.length_append, BitVec.ofNat_add]
  rw [ngxMd5Update]
  dsimp only
  rw [used]
  split
  case isTrue none => exact holds_updateBlocks none bytes holds.state
  case isFalse some_bytes =>
    split
    case isTrue short =>
      have blocks : (text ++ data).length / 64 = text.length / 64 := by
        rw [List.length_append]
        omega
      have size : (text ++ data).length % 64 = text.length % 64 + data.length := by
        rw [List.length_append]
        omega
      refine ⟨bytes, ?_, ?_⟩
      · rw [blocks, absorb_append (by omega)]
        exact holds.state
      · rw [blocks, size]
        exact holds.buffered data
    case isFalse long =>
      have taken : (data.take (64 - text.length % 64)).length = 64 - text.length % 64 := by
        rw [List.length_take]
        omega
      have size : (text ++ data.take (64 - text.length % 64)).length / 64 = text.length / 64 + 1 := by
        rw [List.length_append, taken]
        omega
      have full := holds.buffered (data.take (64 - text.length % 64))
      rw [taken, Nat.add_sub_cancel' (by omega)] at full
      have split_data : text ++ data =
          (text ++ data.take (64 - text.length % 64)) ++ data.drop (64 - text.length % 64) := by
        rw [List.append_assoc, List.take_append_drop]
      rw [split_data]
      apply holds_updateBlocks
      · rw [List.length_append, taken]
        omega
      · rw [← split_data]
        exact bytes
      · rw [size, absorb_add, absorb_append (by omega), ← holds.state, ngxMd5Body, full]

theorem Holds.pieces (holds : Holds ctx text) (pieces : List (List UInt8)) :
    Holds (pieces.foldl ngxMd5Update ctx) (text ++ pieces.flatten) := by
  induction pieces generalizing ctx text with
  | nil =>
    rw [List.flatten_nil, List.append_nil]
    exact holds
  | cons data rest ih =>
    rw [List.flatten_cons, ← List.append_assoc]
    exact ih (holds.update data)

theorem md5_eq {k : Nat} (blocks : (text ++ padding text.length).length / 64 = text.length / 64 + k) :
    md5 text = result (absorb 64 block k (absorb 64 block (text.length / 64) initial text)
      (text.drop (text.length / 64 * 64) ++ padding text.length)) := by
  rw [md5, blocks, absorb_add, absorb_append (by omega), List.drop_append_of_le_length (by omega)]

theorem Holds.final (holds : Holds ctx text) : ngxMd5Final ctx = md5 text := by
  have used : (ctx.bytes &&& 0x3f).toNat = text.length % 64 := by
    rw [holds.bytes]
    exact used_eq _
  have bits : (ctx.bytes <<< 3).toNat = 8 * text.length % 2 ^ 64 := by
    rw [holds.bytes, BitVec.toNat_shiftLeft, BitVec.toNat_ofNat, Nat.shiftLeft_eq, Nat.mod_mul_mod,
      Nat.mul_comm]
  have marked (zeros : List UInt8) : store (store ctx.buffer (text.length % 64) [0x80])
      (text.length % 64 + 1) zeros = store ctx.buffer (text.length % 64) (0x80 :: zeros) := store_append
  rw [ngxMd5Final]
  dsimp only
  rw [used, bits]
  by_cases full : 64 - (text.length % 64 + 1) < 8
  · -- The mark and the length are in two blocks.
    obtain ⟨zeros, count⟩ : ∃ zeros, zeros = 64 - (text.length % 64 + 1) := ⟨_, rfl⟩
    have size : text.length % 64 + (0x80 :: List.replicate zeros (0 : UInt8)).length = 64 := by
      rw [List.length_cons, List.length_replicate]
      omega
    have first := holds.buffered (0x80 :: List.replicate zeros 0)
    rw [size, List.drop_append_of_le_length (by omega)] at first
    have joined (buffer : Nat → UInt8) (behind : List UInt8) :
        store (store buffer 0 (List.replicate 56 0)) 56 behind =
          store buffer 0 (List.replicate 56 0 ++ behind) := store_append
    have second (buffer : Nat → UInt8) : window (store buffer 0
        (List.replicate 56 0 ++ leBytes 8 (8 * text.length % 2 ^ 64))) 0 64 =
        List.replicate 56 0 ++ leBytes 8 (8 * text.length % 2 ^ 64) := window_store
    have pad : padding text.length = (0x80 :: List.replicate zeros 0) ++
        (List.replicate 56 0 ++ leBytes 8 (8 * text.length % 2 ^ 64)) := by
      rw [padding, show (119 - text.length % 64) % 64 = zeros + 56 by omega, List.replicate_add,
        List.cons_append, List.cons_append, List.append_assoc]
    have blocks : (text ++ padding text.length).length / 64 = text.length / 64 + (1 + 1) := by
      rw [pad, List.length_append, List.length_append, List.length_append, List.length_replicate,
        leBytes_length]
      omega
    have whole : (text.drop (text.length / 64 * 64) ++ 0x80 :: List.replicate zeros 0).length = 1 * 64 := by
      rw [List.length_append, List.length_drop]
      omega
    rw [if_pos full, ← count, marked]
    dsimp only
    rw [joined, first, second, md5_eq blocks, ← holds.state, pad, ← List.append_assoc, absorb_add,
      absorb_append (Nat.le_of_eq whole.symm), List.drop_left' whole]
    rfl
  · -- One block has room for both.
    obtain ⟨zeros, count⟩ : ∃ zeros, zeros = 64 - (text.length % 64 + 1) - 8 := ⟨_, rfl⟩
    have behind : text.length % 64 + (0x80 :: List.replicate zeros (0 : UInt8)).length = 56 := by
      rw [List.length_cons, List.length_replicate]
      omega
    have joined : store (store ctx.buffer (text.length % 64) (0x80 :: List.replicate zeros 0))
        (text.length % 64 + (0x80 :: List.replicate zeros (0 : UInt8)).length)
          (leBytes 8 (8 * text.length % 2 ^ 64)) = _ := store_append
    have pad : padding text.length =
        0x80 :: List.replicate zeros 0 ++ leBytes 8 (8 * text.length % 2 ^ 64) := by
      rw [padding, show (119 - text.length % 64) % 64 = zeros by omega]
    have last := holds.buffered (padding text.length)
    have size : text.length % 64 + (padding text.length).length = 64 := by
      rw [pad, List.length_append, leBytes_length]
      omega
    have blocks : (text ++ padding text.length).length / 64 = text.length / 64 + 1 := by
      rw [List.length_append]
      omega
    rw [size, List.drop_append_of_le_length (by omega)] at last
    rw [behind, ← pad] at joined
    rw [if_neg full]
    dsimp only
    rw [← count, marked, joined, last, md5_eq blocks, ← holds.state]
    rfl

theorem holds_init (memory : Nat → UInt8) : Holds (ngxMd5Init memory) [] := ⟨rfl, rfl, rfl⟩

/-- The digest of a text does not depend on the pieces it comes in. -/
theorem md5_pieces (memory : Nat → UInt8) (pieces : List (List UInt8)) :
    ngxMd5Final (pieces.foldl ngxMd5Update (ngxMd5Init memory)) = md5 pieces.flatten :=
  ((holds_init memory).pieces pieces).final

end NgxFormal.Core.Md5
