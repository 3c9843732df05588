import NgxFormal.Lib.Ranges
import Mathlib.Data.List.Nodup

/-! Memory pools. Pointers are addresses, with 0 for `NULL`; the links of the blocks and of the large
descriptors are lists in their order, and `current` is a place of the first list. -/

namespace NgxFormal.Core.Palloc

open Lib

/-- `sizeof(ngx_pool_t)` -/
def sizeofPool : Nat := 80

/-- `sizeof(ngx_pool_data_t)` -/
def sizeofPoolData : Nat := 32

/-- `sizeof(ngx_pool_large_t)` -/
def sizeofPoolLarge : Nat := 16

def ngxAlignment : Nat := 8

def ngxPoolAlignment : Nat := 16

/-- For a power of two. -/
def ngxAlignPtr (p a : Nat) : Nat := (p + (a - 1)) / a * a

/-- `NGX_MAX_ALLOC_FROM_POOL`; before `ngx_os_init` the page size is 0. -/
def ngxMaxAllocFromPool (pagesize : Nat) : Nat := (pagesize + (2 ^ 64 - 1)) % 2 ^ 64

/-- A block without `failed`. -/
structure Span where
  addr : Nat
  last : Nat
  stop : Nat
  deriving DecidableEq, Repr

/-- `ngx_pool_data_t` at its address; `stop` is `d.end`. -/
structure Block extends Span where
  failed : Nat
  deriving DecidableEq, Repr

/-- `ngx_pool_large_t` at its address -/
structure Large where
  addr : Nat
  alloc : Nat
  deriving DecidableEq, Repr

/-- `ngx_pool_t`, its first block being the pool itself. A large descriptor is a small allocation. -/
structure Pool where
  blocks : List Block
  max : Nat
  current : Nat
  large : List Large
  room : sizeofPoolLarge ≤ max

/-- `ngx_create_pool`, for a size with room for a descriptor. -/
def ngxCreatePool (pagesize size : Nat) (memory : Memory) : Memory × Option Pool :=
  let (memory, p) := memory.give ngxPoolAlignment size
  if p = 0 then (memory, none)
  else
    let max := min (size - sizeofPool) (ngxMaxAllocFromPool pagesize)
    if room : sizeofPoolLarge ≤ max then
      (memory, some
        { blocks := [⟨⟨p, p + sizeofPool, p + size⟩, 0⟩]
          max := max
          current := 0
          large := []
          room := room })
    else (memory, none)

/-- The address that a block would give. -/
def Block.place (aligned : Bool) (p : Block) : Nat :=
  if aligned then ngxAlignPtr p.last ngxAlignment else p.last

/-- `(size_t) (p->d.end - m)` -/
def Block.left (p : Block) (m : Nat) : Nat := (((p.stop : Int) - m) % 2 ^ 64).toNat

/-- The loop over the blocks from `current` on. -/
def searchBlocks (aligned : Bool) (size : Nat) : List Block → Option (Nat × List Block)
  | [] => none
  | p :: next =>
    let m := p.place aligned
    if p.left m ≥ size then some (m, { p with last := m + size } :: next)
    else (searchBlocks aligned size next).map fun (m, next) => (m, p :: next)

/-- `for (p = current; p->d.next; p = p->d.next)`: `i` is the place of `p`. -/
def failBlocks (i current : Nat) : List Block → Nat × List Block
  | [] => (current, [])
  | [p] => (current, [p])
  | p :: q :: next =>
    let (current, next) := failBlocks (i + 1) (if p.failed > 4 then i + 1 else current) (q :: next)
    (current, { p with failed := p.failed + 1 } :: next)

def ngxPallocBlock (memory : Memory) (pool : Pool) (size : Nat) : Memory × Pool × Nat :=
  match pool.blocks.head? with
  | none => (memory, pool, 0)
  | some first =>
    let psize := first.stop - first.addr
    let (memory, new) := memory.give ngxPoolAlignment psize
    if new = 0 then (memory, pool, 0)
    else
      let m := ngxAlignPtr (new + sizeofPoolData) ngxAlignment
      let (current, blocks) := failBlocks pool.current pool.current (pool.blocks.drop pool.current)
      (memory,
        { pool with
          blocks := pool.blocks.take pool.current ++ blocks ++ [⟨⟨new, m + size, new + psize⟩, 0⟩]
          current := current },
        m)

/-- `ngx_palloc` or `ngx_pnalloc` of at most `max` bytes. -/
def pallocSmall (aligned : Bool) (memory : Memory) (pool : Pool) (size : Nat) : Memory × Pool × Nat :=
  match searchBlocks aligned size (pool.blocks.drop pool.current) with
  | some (m, blocks) =>
    (memory, { pool with blocks := pool.blocks.take pool.current ++ blocks }, m)
  | none => ngxPallocBlock memory pool size

/-- `ngx_palloc(pool, sizeof(ngx_pool_large_t))`, and the new descriptor in front of the list; without
one, the allocation `p` is freed. -/
def addLarge (memory : Memory) (pool : Pool) (p : Nat) : Memory × Pool × Nat :=
  let (memory, pool, large) := pallocSmall true memory pool sizeofPoolLarge
  if large = 0 then (memory.free p, pool, 0)
  else (memory, { pool with large := ⟨large, p⟩ :: pool.large }, p)

/-- A freed descriptor takes the allocation, if there is one before `n++ > 3` ends the search. -/
def reuseLarge (p : Nat) : Nat → List Large → Option (List Large)
  | _, [] => none
  | n, large :: next =>
    if large.alloc = 0 then some ({ large with alloc := p } :: next)
    else if n > 3 then none
    else (reuseLarge p (n + 1) next).map (large :: ·)

def ngxPallocLarge (memory : Memory) (pool : Pool) (size : Nat) : Memory × Pool × Nat :=
  let (memory, p) := memory.give ngxAlignment size
  if p = 0 then (memory, pool, 0)
  else
    match reuseLarge p 0 pool.large with
    | some large => (memory, { pool with large := large }, p)
    | none => addLarge memory pool p

/-- `ngx_palloc`, and `ngx_pnalloc` for `aligned := false` -/
def palloc (aligned : Bool) (memory : Memory) (pool : Pool) (size : Nat) : Memory × Pool × Nat :=
  if size ≤ pool.max then pallocSmall aligned memory pool size else ngxPallocLarge memory pool size

def ngxPalloc : Memory → Pool → Nat → Memory × Pool × Nat := palloc true

def ngxPnalloc : Memory → Pool → Nat → Memory × Pool × Nat := palloc false

/-- The bytes that `ngx_memzero` clears are not part of the model. -/
def ngxPcalloc : Memory → Pool → Nat → Memory × Pool × Nat := ngxPalloc

def ngxPmemalign (memory : Memory) (pool : Pool) (size alignment : Nat) : Memory × Pool × Nat :=
  let (memory, p) := memory.give alignment size
  if p = 0 then (memory, pool, 0) else addLarge memory pool p

/-- The list with the first descriptor of `p` freed. -/
def freeLarge (p : Nat) : List Large → Option (List Large)
  | [] => none
  | l :: next =>
    if p = l.alloc then some ({ l with alloc := 0 } :: next) else (freeLarge p next).map (l :: ·)

/-- Whether `ngx_pfree` returns `NGX_OK`, else `NGX_DECLINED`. -/
def ngxPfree (memory : Memory) (pool : Pool) (p : Nat) : Memory × Pool × Bool :=
  match freeLarge p pool.large with
  | some large => (memory.free p, { pool with large := large }, true)
  | none => (memory, pool, false)

/-- What a call has returned and nobody has freed. -/
structure Result where
  region : Region
  aligned : Bool
  large : Bool
  deriving DecidableEq, Repr

structure State where
  heap : List Region
  pool : Pool
  live : List Result

inductive Call
  | palloc (size : Nat)
  | pnalloc (size : Nat)
  | pcalloc (size : Nat)
  | pmemalign (size alignment : Nat)
  | pfree (p : Nat)
  deriving DecidableEq, Repr

/-- A call has returned the pointer in `done` for `size` bytes. -/
def State.returned (s : State) (size : Nat) (aligned large : Bool) (done : Memory × Pool × Nat) : State :=
  let (memory, pool, p) := done
  { heap := memory.heap
    pool := pool
    live := if p = 0 then s.live else ⟨⟨p, size⟩, aligned, large⟩ :: s.live }

/-- A call, with the addresses that the system offers during it. -/
def perform (s : State) (offers : List Nat) : Call → State
  | .palloc size =>
    s.returned size true (s.pool.max < size) (ngxPalloc ⟨s.heap, offers⟩ s.pool size)
  | .pnalloc size =>
    s.returned size false (s.pool.max < size) (ngxPnalloc ⟨s.heap, offers⟩ s.pool size)
  | .pcalloc size =>
    s.returned size true (s.pool.max < size) (ngxPcalloc ⟨s.heap, offers⟩ s.pool size)
  | .pmemalign size alignment =>
    s.returned size false true (ngxPmemalign ⟨s.heap, offers⟩ s.pool size alignment)
  | .pfree p =>
    let (memory, pool, ok) := ngxPfree ⟨s.heap, offers⟩ s.pool p
    { heap := memory.heap
      pool := pool
      live :=
        if ok then s.live.eraseP fun result => result.large && result.region.start == p
        else s.live }

def performAll (s : State) (calls : List (List Nat × Call)) : State :=
  calls.foldl (fun s (offers, call) => perform s offers call) s

/-- A new pool. -/
def create (pagesize size offer : Nat) : Option State :=
  let (memory, pool) := ngxCreatePool pagesize size ⟨[], [offer]⟩
  pool.map fun pool => ⟨memory.heap, pool, []⟩

/-- The headers of the blocks: a whole `ngx_pool_t` in the first one. -/
def headers : List Span → List Region
  | [] => []
  | first :: rest => ⟨first.addr, sizeofPool⟩ :: rest.map fun p => ⟨p.addr, sizeofPoolData⟩

def Pool.descriptors (pool : Pool) : List Region :=
  headers (pool.blocks.map Block.toSpan) ++ pool.large.map fun l => ⟨l.addr, sizeofPoolLarge⟩

end NgxFormal.Core.Palloc

/-! The blocks of a pool: what is small stays apart in them. -/

namespace NgxFormal.Core.Palloc

open Lib Lib.Region

/-- The blocks are blocks of the system, and what is small is below `last` in one of them. -/
structure Sound (psize : Nat) (heap : List Region) (blocks : List Span) (small : List Region) : Prop where
  heapApart : heap.Pairwise Region.Apart
  heapSome : ∀ region ∈ heap, 0 < region.start ∧ 0 < region.size ∧ region.stop < 2 ^ 64
  blockIn : ∀ b ∈ blocks, ⟨b.addr, psize⟩ ∈ heap ∧ b.stop = b.addr + psize ∧ b.addr ≤ b.last ∧
    b.last ≤ b.stop ∧ 16 ∣ b.stop
  once : (blocks.map Span.addr).Nodup
  smallIn : ∀ region ∈ small, ∃ b ∈ blocks, b.addr ≤ region.start ∧ region.stop ≤ b.last
  smallApart : small.Pairwise Region.Apart

section Blocks

variable {psize size m : Nat} {heap : List Region} {blocks : List Span} {small : List Region}
  {aligned : Bool}

theorem ngxAlignPtr_dvd (p a : Nat) : a ∣ ngxAlignPtr p a := Nat.dvd_mul_left _ _

theorem le_ngxAlignPtr (p : Nat) : p ≤ ngxAlignPtr p ngxAlignment := by
  unfold ngxAlignPtr ngxAlignment
  omega

theorem ngxAlignPtr_le {p stop : Nat} (below : p ≤ stop) (multiple : 16 ∣ stop) :
    ngxAlignPtr p ngxAlignment ≤ stop := by
  unfold ngxAlignPtr ngxAlignment
  omega

theorem ngxAlignPtr_self {p : Nat} (multiple : 8 ∣ p) : ngxAlignPtr p ngxAlignment = p := by
  unfold ngxAlignPtr ngxAlignment
  omega

theorem place_bounds {b : Block} (below : b.last ≤ b.stop) (multiple : 16 ∣ b.stop) :
    b.last ≤ b.place aligned ∧ b.place aligned ≤ b.stop := by
  unfold Block.place
  cases aligned with
  | true => exact ⟨le_ngxAlignPtr _, ngxAlignPtr_le below multiple⟩
  | false => exact ⟨Nat.le_refl _, below⟩

theorem left_eq {b : Block} (below : m ≤ b.stop) (small : b.stop < 2 ^ 64) : b.left m = b.stop - m := by
  unfold Block.left
  omega

theorem searchBlocks_spec {list next : List Block}
    (ends : ∀ b ∈ list, b.last ≤ b.stop ∧ 16 ∣ b.stop ∧ b.stop < 2 ^ 64)
    (found : searchBlocks aligned size list = some (m, next)) :
    ∃ before b after, list = before ++ b :: after ∧ m = b.place aligned ∧ b.last ≤ m ∧
      m + size ≤ b.stop ∧
      next.map Block.toSpan = before.map Block.toSpan ++
        { b.toSpan with last := m + size } :: after.map Block.toSpan := by
  induction list generalizing next with
  | nil => cases found
  | cons b rest ih =>
    obtain ⟨below, multiple, small⟩ := ends b List.mem_cons_self
    obtain ⟨low, high⟩ := @place_bounds aligned b below multiple
    rw [searchBlocks] at found
    by_cases fits : b.left (b.place aligned) ≥ size
    · rw [if_pos fits] at found
      cases found
      rw [left_eq high small] at fits
      exact ⟨[], b, rest, rfl, rfl, low, by omega, rfl⟩
    · rw [if_neg fits] at found
      obtain ⟨⟨m', next'⟩, inRest, same⟩ := Option.map_eq_some_iff.mp found
      cases same
      obtain ⟨before, b', after, split, place, low', high', spans⟩ :=
        ih (fun b member => ends b (List.mem_cons_of_mem _ member)) inRest
      refine ⟨b :: before, b', after, by rw [split]; rfl, place, low', high', ?_⟩
      rw [List.map_cons, spans]
      rfl

theorem failBlocks_spans (i current : Nat) (list : List Block) :
    (failBlocks i current list).2.map Block.toSpan = list.map Block.toSpan := by
  induction list generalizing i current with
  | nil => rfl
  | cons p next ih =>
    cases next with
    | nil => rfl
    | cons q next =>
      rw [failBlocks, List.map_cons, ih]
      rfl

theorem failBlocks_current (i current : Nat) (list : List Block) :
    (failBlocks i current list).1 = current ∨ (failBlocks i current list).1 < i + list.length := by
  induction list generalizing i current with
  | nil => exact Or.inl rfl
  | cons p next ih =>
    cases next with
    | nil => exact Or.inl rfl
    | cons q next =>
      rw [failBlocks]
      rcases ih (i + 1) (if p.failed > 4 then i + 1 else current) with same | below
      · dsimp only at same ⊢
        rw [same]
        by_cases many : p.failed > 4
        · rw [if_pos many]
          simp only [List.length_cons]
          omega
        · rw [if_neg many]
          exact Or.inl rfl
      · right
        simp only [List.length_cons] at below ⊢
        omega

theorem Sound.block_apart (sound : Sound psize heap blocks small) {a b : Span} (memberA : a ∈ blocks)
    (memberB : b ∈ blocks) (different : a.addr ≠ b.addr) :
    Region.Apart ⟨a.addr, psize⟩ ⟨b.addr, psize⟩ := by
  refine apart_of_mem sound.heapApart (sound.blockIn a memberA).1 (sound.blockIn b memberB).1 ?_
  intro same
  exact different (Region.mk.inj same).1

theorem Sound.blocks_eq (sound : Sound psize heap blocks small) {a b : Span} (memberA : a ∈ blocks)
    (memberB : b ∈ blocks) (same : a.addr = b.addr) : a = b :=
  List.inj_on_of_nodup_map sound.once memberA memberB same

theorem Sound.small_within (sound : Sound psize heap blocks small) {region : Region}
    (member : region ∈ small) :
    ∃ b ∈ blocks, b.addr ≤ region.start ∧ region.stop ≤ b.last ∧ Within region ⟨b.addr, psize⟩ := by
  obtain ⟨b, inside, low, high⟩ := sound.smallIn region member
  obtain ⟨_, stop, _, last, _⟩ := sound.blockIn b inside
  refine ⟨b, inside, low, high, low, ?_⟩
  show region.stop ≤ b.addr + psize
  omega

theorem Sound.place {before after : List Span} {b : Span}
    (sound : Sound psize heap (before ++ b :: after) small) (low : b.last ≤ m)
    (high : m + size ≤ b.stop) :
    Sound psize heap (before ++ { b with last := m + size } :: after) (⟨m, size⟩ :: small) := by
  have inside : b ∈ before ++ b :: after := by simp
  obtain ⟨inHeap, stop, begins, last, multiple⟩ := sound.blockIn b inside
  have some_addr : b.addr ≤ m := by omega
  have others {c : Span} (member : c ∈ before ++ { b with last := m + size } :: after) :
      c = { b with last := m + size } ∨ c ∈ before ++ b :: after := by
    rcases List.mem_append.mp member with first | second
    · exact Or.inr (List.mem_append_left _ first)
    · rcases List.mem_cons.mp second with same | second
      · exact Or.inl same
      · exact Or.inr (List.mem_append_right _ (List.mem_cons_of_mem _ second))
  have kept {c : Span} (member : c ∈ before ++ b :: after) :
      ∃ d ∈ before ++ { b with last := m + size } :: after, d.addr = c.addr ∧ c.last ≤ d.last := by
    rcases List.mem_append.mp member with first | second
    · exact ⟨c, List.mem_append_left _ first, rfl, Nat.le_refl _⟩
    · rcases List.mem_cons.mp second with rfl | second
      · exact ⟨_, List.mem_append_right _ List.mem_cons_self, rfl, by show c.last ≤ m + size; omega⟩
      · exact ⟨c, List.mem_append_right _ (List.mem_cons_of_mem _ second), rfl, Nat.le_refl _⟩
  refine ⟨sound.heapApart, sound.heapSome, ?_, ?_, ?_, ?_⟩
  · intro c member
    rcases others member with rfl | old
    · exact ⟨inHeap, stop, by show b.addr ≤ m + size; omega, high, multiple⟩
    · exact sound.blockIn c old
  · have same : (before ++ { b with last := m + size } :: after).map Span.addr =
        (before ++ b :: after).map Span.addr := by simp
    rw [same]
    exact sound.once
  · intro region member
    rcases List.mem_cons.mp member with rfl | old
    · exact ⟨_, List.mem_append_right _ List.mem_cons_self, some_addr, Nat.le_refl _⟩
    · obtain ⟨c, inC, lowC, highC⟩ := sound.smallIn region old
      obtain ⟨d, inD, addr, last'⟩ := kept inC
      exact ⟨d, inD, by omega, by omega⟩
  · refine List.pairwise_cons.mpr ⟨?_, sound.smallApart⟩
    intro region member
    obtain ⟨c, inC, lowC, highC, within⟩ := sound.small_within member
    by_cases same : c.addr = b.addr
    · obtain rfl := sound.blocks_eq inC inside same
      right
      show region.stop ≤ m
      omega
    · refine (sound.block_apart inside inC fun h => same h.symm).within ⟨some_addr, ?_⟩ within
      show m + size ≤ b.addr + psize
      omega

theorem Sound.given {alignment a n : Nat} (sound : Sound psize heap blocks small)
    (fresh : Fresh heap alignment ⟨a, n⟩) (some_size : 0 < n) :
    Sound psize (⟨a, n⟩ :: heap) blocks small := by
  obtain ⟨positive, _, limit, apart⟩ := fresh
  refine ⟨List.pairwise_cons.mpr ⟨apart, sound.heapApart⟩, ?_, ?_, sound.once, sound.smallIn,
    sound.smallApart⟩
  · intro region member
    rcases List.mem_cons.mp member with rfl | old
    · exact ⟨positive, some_size, limit⟩
    · exact sound.heapSome region old
  · intro b member
    obtain ⟨inHeap, rest⟩ := sound.blockIn b member
    exact ⟨List.mem_cons_of_mem _ inHeap, rest⟩

theorem Sound.grow {a header : Nat} (sound : Sound psize heap blocks small) (inHeap : ⟨a, psize⟩ ∈ heap)
    (new : ∀ b ∈ blocks, b.addr ≠ a) (multiple : 16 ∣ a + psize) (fits : header ≤ psize) :
    Sound psize heap (blocks ++ [⟨a, a + header, a + psize⟩]) (⟨a, header⟩ :: small) := by
  refine ⟨sound.heapApart, sound.heapSome, ?_, ?_, ?_, ?_⟩
  · intro b member
    rcases List.mem_append.mp member with old | last
    · exact sound.blockIn b old
    · obtain rfl := List.mem_singleton.mp last
      exact ⟨inHeap, rfl, Nat.le_add_right _ _, by show a + header ≤ a + psize; omega, multiple⟩
  · rw [List.map_append, List.nodup_append]
    refine ⟨sound.once, List.nodup_singleton _, ?_⟩
    intro x member y memberY same
    obtain ⟨b, inBlocks, rfl⟩ := List.mem_map.mp member
    obtain rfl := List.mem_singleton.mp memberY
    exact new b inBlocks same
  · intro region member
    rcases List.mem_cons.mp member with rfl | old
    · exact ⟨_, List.mem_append_right _ List.mem_cons_self, Nat.le_refl _, Nat.le_refl _⟩
    · obtain ⟨b, inBlocks, bounds⟩ := sound.smallIn region old
      exact ⟨b, List.mem_append_left _ inBlocks, bounds⟩
  · refine List.pairwise_cons.mpr ⟨?_, sound.smallApart⟩
    intro region member
    obtain ⟨b, inBlocks, _, _, within⟩ := sound.small_within member
    have apart : Region.Apart ⟨a, psize⟩ ⟨b.addr, psize⟩ := by
      refine apart_of_mem sound.heapApart inHeap (sound.blockIn b inBlocks).1 ?_
      intro same
      exact new b inBlocks (Region.mk.inj same).1.symm
    refine apart.within ⟨Nat.le_refl _, ?_⟩ within
    show a + header ≤ a + psize
    omega

theorem Sound.perm {other : List Region} (sound : Sound psize heap blocks small) (perm : small.Perm other) :
    Sound psize heap blocks other where
  heapApart := sound.heapApart
  heapSome := sound.heapSome
  blockIn := sound.blockIn
  once := sound.once
  smallIn := fun region member => sound.smallIn region (perm.mem_iff.mpr member)
  smallApart := perm.pairwise sound.smallApart Region.Apart.symm

end Blocks

section Pools

theorem headers_congr {list other : List Span} (same : list.map Span.addr = other.map Span.addr) :
    headers list = headers other := by
  cases list with
  | nil =>
    cases other with
    | nil => rfl
    | cons b rest => cases same
  | cons a rest =>
    cases other with
    | nil => cases same
    | cons b rest' =>
      obtain ⟨first, tail⟩ := List.cons.inj same
      have later : rest.map (fun p => (⟨p.addr, sizeofPoolData⟩ : Region)) =
          rest'.map fun p => ⟨p.addr, sizeofPoolData⟩ := by
        have both := congrArg (List.map fun addr => (⟨addr, sizeofPoolData⟩ : Region)) tail
        rw [List.map_map, List.map_map] at both
        exact both
      rw [headers, headers, first, later]

theorem headers_append {list : List Span} (some_list : list ≠ []) (b : Span) :
    headers (list ++ [b]) = headers list ++ [⟨b.addr, sizeofPoolData⟩] := by
  cases list with
  | nil => exact absurd rfl some_list
  | cons a rest =>
    rw [List.cons_append, headers, headers, List.map_append]
    rfl

def Pool.spans (pool : Pool) : List Span := pool.blocks.map Block.toSpan

/-- The pool has its headers and `small` in its blocks. -/
structure Held (psize : Nat) (heap : List Region) (pool : Pool) (small : List Region) : Prop where
  sound : Sound psize heap pool.spans (headers pool.spans ++ small)
  current : pool.current < pool.blocks.length
  max : pool.max + sizeofPool ≤ psize
  multiple : 16 ∣ psize

/-- What a call leaves as it is: new blocks are new to the system, too. -/
structure Grows (heap heap' : List Region) (pool pool' : Pool) : Prop where
  large : pool'.large = pool.large
  max : pool'.max = pool.max
  kept : ∀ region ∈ heap, region ∈ heap'
  blocks : ∀ b ∈ pool'.spans,
    (∃ c ∈ pool.spans, c.addr = b.addr) ∨ ∀ region ∈ heap, region.start ≠ b.addr

theorem Grows.refl (heap : List Region) (pool : Pool) : Grows heap heap pool pool :=
  ⟨rfl, rfl, fun _ => id, fun b member => Or.inl ⟨b, member, rfl⟩⟩

variable {psize size : Nat} {memory : Memory} {pool : Pool} {small : List Region} {aligned : Bool}

theorem Held.perm {heap other : List Region} (held : Held psize heap pool small) (perm : small.Perm other) :
    Held psize heap pool other :=
  ⟨held.sound.perm (perm.append_left _), held.current, held.max, held.multiple⟩

theorem Held.first {heap : List Region} (held : Held psize heap pool small) :
    ∃ first, pool.blocks.head? = some first ∧ first.stop - first.addr = psize := by
  obtain ⟨sound, current, _, _⟩ := held
  cases list : pool.blocks with
  | nil =>
    rw [list] at current
    cases current
  | cons first rest =>
    have inside : first.toSpan ∈ pool.spans := by
      rw [Pool.spans, list]
      exact List.mem_cons_self
    obtain ⟨_, stop, _⟩ := sound.blockIn first.toSpan inside
    exact ⟨first, rfl, by omega⟩

theorem Held.searched {heap : List Region} {m : Nat} {blocks : List Block}
    (held : Held psize heap pool small)
    (found : searchBlocks aligned size (pool.blocks.drop pool.current) = some (m, blocks)) :
    let next : Pool := { pool with blocks := pool.blocks.take pool.current ++ blocks }
    Grows heap heap pool next ∧ 0 < m ∧ Held psize heap next (⟨m, size⟩ :: small) ∧
      (aligned = true → 8 ∣ m) := by
  intro next
  obtain ⟨sound, current, max, dvd⟩ := held
  have ends : ∀ b ∈ pool.blocks.drop pool.current, b.last ≤ b.stop ∧ 16 ∣ b.stop ∧ b.stop < 2 ^ 64 := by
    intro b member
    have inside : b.toSpan ∈ pool.spans := List.mem_map_of_mem (List.mem_of_mem_drop member)
    obtain ⟨inHeap, stop, _, last, multiple⟩ := sound.blockIn b.toSpan inside
    have limit := (sound.heapSome _ inHeap).2.2
    refine ⟨last, multiple, ?_⟩
    rw [stop]
    exact limit
  obtain ⟨before, b, after, split, place, low, high, spans⟩ := searchBlocks_spec ends found
  have whole : pool.spans = ((pool.blocks.take pool.current).map Block.toSpan ++ before.map Block.toSpan) ++
      b.toSpan :: after.map Block.toSpan := by
    have list : pool.blocks = pool.blocks.take pool.current ++ (before ++ b :: after) := by
      rw [← split, List.take_append_drop]
    refine (congrArg (List.map Block.toSpan) list).trans ?_
    simp only [List.map_append, List.map_cons, List.append_assoc]
  have result : next.spans = ((pool.blocks.take pool.current).map Block.toSpan ++ before.map Block.toSpan) ++
      { b.toSpan with last := m + size } :: after.map Block.toSpan := by
    show (pool.blocks.take pool.current ++ blocks).map Block.toSpan = _
    rw [List.map_append, spans, List.append_assoc]
  have addrs : next.spans.map Span.addr = pool.spans.map Span.addr := by
    rw [whole, result]
    simp
  have inside : b.toSpan ∈ pool.spans := by
    rw [whole]
    simp
  obtain ⟨inHeap, _, begins, _⟩ := sound.blockIn b.toSpan inside
  have positive := (sound.heapSome _ inHeap).1
  dsimp only at positive
  rw [whole] at sound
  have placed := sound.place low high
  refine ⟨⟨rfl, rfl, fun _ => id, ?_⟩, by omega, ⟨?_, ?_, max, dvd⟩, ?_⟩
  · intro c member
    have inAddrs : c.addr ∈ next.spans.map Span.addr := List.mem_map_of_mem member
    rw [addrs] at inAddrs
    obtain ⟨d, inD, same⟩ := List.mem_map.mp inAddrs
    exact Or.inl ⟨d, inD, same⟩
  · rw [result]
    refine placed.perm ?_
    rw [← whole, ← result, headers_congr addrs]
    exact List.perm_middle.symm
  · have lengths := congrArg List.length addrs
    simp only [List.length_map, Pool.spans] at lengths
    show pool.current < next.blocks.length
    omega
  · rintro rfl
    rw [place]
    exact ngxAlignPtr_dvd _ _

theorem Pool.spans_grown (pool : Pool) (b : Block) :
    (pool.blocks.take pool.current ++ (failBlocks pool.current pool.current
      (pool.blocks.drop pool.current)).2 ++ [b]).map Block.toSpan = pool.spans ++ [b.toSpan] := by
  rw [List.map_append, List.map_append, failBlocks_spans, ← List.map_append, List.take_append_drop]
  rfl

theorem Pool.length_grown (pool : Pool) (b : Block) :
    (pool.blocks.take pool.current ++ (failBlocks pool.current pool.current
      (pool.blocks.drop pool.current)).2 ++ [b]).length = pool.blocks.length + 1 := by
  have lengths := congrArg List.length (pool.spans_grown b)
  rw [List.length_map] at lengths
  rw [lengths, List.length_append, Pool.spans, List.length_map]
  rfl

theorem Held.pallocBlock (held : Held psize memory.heap pool small) (fits : size ≤ pool.max) :
    ∃ memory' pool' p, ngxPallocBlock memory pool size = (memory', pool', p) ∧
      Grows memory.heap memory'.heap pool pool' ∧
      (p = 0 ∧ memory'.heap = memory.heap ∧ pool' = pool ∨
        0 < p ∧ Held psize memory'.heap pool' (⟨p, size⟩ :: small) ∧ 8 ∣ p) := by
  obtain ⟨first, isFirst, isSize⟩ := held.first
  obtain ⟨sound, current, limit, dvd⟩ := held
  have room := pool.room
  have some_size : 0 < psize := by
    simp only [sizeofPool] at limit
    omega
  rw [ngxPallocBlock, isFirst]
  dsimp only
  rw [isSize]
  rcases memory.give_cases ngxPoolAlignment psize with ⟨none, same⟩ | ⟨a, given, fresh, heap⟩
  · rw [if_pos none]
    refine ⟨_, _, _, rfl, ?_, Or.inl ⟨rfl, same, rfl⟩⟩
    rw [same]
    exact Grows.refl _ _
  have positive : 0 < a := fresh.1
  have multiple : a % 16 = 0 := fresh.2.1
  rw [Nat.max_eq_left some_size] at fresh heap
  have place : ngxAlignPtr (a + sizeofPoolData) ngxAlignment = a + sizeofPoolData :=
    ngxAlignPtr_self (by simp only [sizeofPoolData]; omega)
  rw [given, if_neg (by omega), place]
  have new : ∀ region ∈ memory.heap, region.start ≠ a := fun region member same =>
    (fresh.2.2.2 region member).start_ne some_size (sound.heapSome region member).2.1 same.symm
  have newBlock : ∀ b ∈ pool.spans, b.addr ≠ a := fun b member => new _ (sound.blockIn b member).1
  have some_spans : pool.spans ≠ [] := by
    intro none
    have empty := congrArg List.length none
    simp only [Pool.spans, List.length_map, List.length_nil] at empty
    omega
  have fitsNew : a + sizeofPoolData + size ≤ a + psize := by
    simp only [sizeofPool, sizeofPoolData] at limit ⊢
    omega
  have grown := (sound.given fresh some_size).grow List.mem_cons_self newBlock (by omega)
    (show sizeofPoolData ≤ psize by omega)
  have placed := grown.place (Nat.le_refl (a + sizeofPoolData)) fitsNew
  have spans := pool.spans_grown ⟨⟨a, a + sizeofPoolData + size, a + psize⟩, 0⟩
  refine ⟨_, _, _, rfl, ⟨rfl, rfl, ?_, ?_⟩, Or.inr ⟨by omega, ⟨?_, ?_, limit, dvd⟩, ?_⟩⟩
  · intro region member
    rw [heap]
    exact List.mem_cons_of_mem _ member
  · intro b member
    rw [Pool.spans, spans] at member
    rcases List.mem_append.mp member with old | last
    · exact Or.inl ⟨b, old, rfl⟩
    · obtain rfl := List.mem_singleton.mp last
      exact Or.inr new
  · rw [heap, Pool.spans, spans, headers_append some_spans]
    refine placed.perm ?_
    rw [List.append_assoc]
    calc _ = _ := rfl
      List.Perm _ (⟨a, sizeofPoolData⟩ :: ⟨a + sizeofPoolData, size⟩ :: (headers pool.spans ++ small)) :=
        List.Perm.swap _ _ _
      List.Perm _ (⟨a, sizeofPoolData⟩ :: (headers pool.spans ++ ⟨a + sizeofPoolData, size⟩ :: small)) :=
        List.perm_middle.symm.cons _
      List.Perm _ _ := List.perm_middle.symm
  · have length := pool.length_grown ⟨⟨a, a + sizeofPoolData + size, a + psize⟩, 0⟩
    have place := failBlocks_current pool.current pool.current (pool.blocks.drop pool.current)
    rw [List.length_drop] at place
    show (failBlocks _ _ _).1 < (_ : List Block).length
    rw [length]
    omega
  · simp only [sizeofPoolData]
    omega

theorem Held.pallocSmall (held : Held psize memory.heap pool small) (fits : size ≤ pool.max) :
    ∃ memory' pool' p, pallocSmall aligned memory pool size = (memory', pool', p) ∧
      Grows memory.heap memory'.heap pool pool' ∧
      (p = 0 ∧ memory'.heap = memory.heap ∧ pool' = pool ∨
        0 < p ∧ Held psize memory'.heap pool' (⟨p, size⟩ :: small) ∧ (aligned = true → 8 ∣ p)) := by
  unfold Palloc.pallocSmall
  cases found : searchBlocks aligned size (pool.blocks.drop pool.current) with
  | some pair =>
    obtain ⟨m, blocks⟩ := pair
    obtain ⟨grows, positive, held', multiple⟩ := held.searched found
    exact ⟨memory, _, m, rfl, grows, Or.inr ⟨positive, held', multiple⟩⟩
  | none =>
    obtain ⟨memory', pool', p, done, grows, result⟩ := held.pallocBlock fits
    refine ⟨memory', pool', p, done, grows, ?_⟩
    rcases result with failed | ⟨positive, held', multiple⟩
    · exact Or.inl failed
    · exact Or.inr ⟨positive, held', fun _ => multiple⟩

end Pools

end NgxFormal.Core.Palloc
