import Mathlib.Algebra.Order.Ring.Int

/-! `ngx_slab_init`, `ngx_slab_alloc_locked` and `ngx_slab_free_locked` with pages of 4096 bytes,
words of 64 bits and `min_shift` 3. A result `none` is an access through a wild pointer or a loop
that does not end within its fuel. -/

namespace NgxFormal.Core.Slab

open Function

abbrev Word := BitVec 64

/-- A pointer to a page descriptor: `NULL`, `&pool->free`, `&slots[k]` or `&pool->pages[i]`. -/
inductive Ref where
  | null
  | free
  | slot (k : Nat)
  | page (i : Nat)
  deriving DecidableEq, Repr

/-- The low bits of `prev`. -/
inductive PageType where
  | page
  | big
  | exact
  | small
  deriving DecidableEq, Repr

structure Prev where
  ref : Ref
  type : PageType
  deriving DecidableEq, Repr

/-- `ngx_slab_page_t` -/
@[ext]
structure Page where
  slab : Word
  next : Ref
  prev : Prev
  deriving DecidableEq, Repr

/-- `ngx_slab_pool_t`, its descriptors, and the words of the pages from `start` on. -/
@[ext]
structure Pool where
  desc : Ref → Page
  mem : Nat → Nat → Word
  start : Nat
  stop : Nat

def pagesize : Nat := 4096

def pagesizeShift : Nat := 12

def maxSize : Nat := 2048

def exactShift : Nat := 6

def minShift : Nat := 3

def minSize : Nat := 8

/-- `NGX_SLAB_BUSY` and `NGX_SLAB_PAGE_BUSY` -/
def busyWord : Word := BitVec.allOnes 64

/-- `NGX_SLAB_PAGE_START` -/
def pageStart : Word := 0x8000000000000000#64

/-- `NGX_SLAB_SHIFT_MASK` -/
def shiftMask : Word := 0x000000000000000f#64

/-- `NGX_SLAB_MAP_MASK` -/
def mapMask : Word := 0xffffffff00000000#64

def Pool.setDesc (pool : Pool) (r : Ref) (page : Page) : Pool :=
  { pool with desc := update pool.desc r page }

def Pool.setSlab (pool : Pool) (r : Ref) (slab : Word) : Pool :=
  pool.setDesc r { pool.desc r with slab := slab }

def Pool.setNext (pool : Pool) (r next : Ref) : Pool :=
  pool.setDesc r { pool.desc r with next := next }

def Pool.setPrev (pool : Pool) (r : Ref) (prev : Prev) : Pool :=
  pool.setDesc r { pool.desc r with prev := prev }

def Pool.setWord (pool : Pool) (i n : Nat) (word : Word) : Pool :=
  { pool with mem := update pool.mem i (update (pool.mem i) n word) }

/-- The memory that `ngx_init_zone_pool` gives to `ngx_slab_init`: the address of the pool,
`sizeof(ngx_slab_pool_t)` and `pool->end`. -/
structure Zone where
  addr : Nat
  header : Nat
  stop : Nat

/-- `sizeof(ngx_slab_page_t)` -/
def pageSizeof : Nat := 24

def ngxAlignPtr (p a : Nat) : Nat := (p + (a - 1)) / a * a

/-- The number of pages and `pool->start`. The size of the slots is not taken off in front of the
division; `m` makes up for it. -/
def initLayout (zone : Zone) : Nat × Nat :=
  let p := zone.addr + zone.header
  let size := zone.stop - p
  let p := p + (pagesizeShift - minShift) * pageSizeof
  let pages := size / (pagesize + pageSizeof)
  let start := ngxAlignPtr (p + pages * pageSizeof) pagesize
  let fits := (((zone.stop : Int) - start) % 2 ^ 64).toNat / pagesize
  let m := ((pages : Int) - fits).bmod (2 ^ 64)
  (if m > 0 then pages - m.toNat else pages, start)

def ngxSlabInit (zone : Zone) (mem : Nat → Nat → Word) : Pool :=
  let (pages, start) := initLayout zone
  { desc := fun
      | .slot k => ⟨0, .slot k, ⟨.null, .page⟩⟩
      | .free => ⟨0, .page 0, ⟨.null, .page⟩⟩
      | .page 0 => ⟨BitVec.ofNat 64 pages, .free, ⟨.free, .page⟩⟩
      | _ => ⟨0, .null, ⟨.null, .page⟩⟩
    mem := mem
    start := start
    stop := zone.stop }

/-- `n` descriptors from `i` on are set to `page`. -/
def markPages (page : Page) : Nat → Nat → Pool → Pool
  | _, 0, pool => pool
  | i, n + 1, pool => markPages page (i + 1) n (pool.setDesc (.page i) page)

/-- `prev->next = page->next; page->next->prev = page->prev` -/
def unlink (pool : Pool) (r : Ref) : Option Pool :=
  let prev := (pool.desc r).prev.ref
  if prev = .null ∨ (pool.desc r).next = .null then none
  else
    let pool := pool.setNext prev (pool.desc r).next
    some (pool.setPrev (pool.desc r).next (pool.desc r).prev)

/-- The free run at page `i` gives up its first `n` pages. -/
def takePages (pool : Pool) (i n : Nat) : Option Pool :=
  let page := pool.desc (.page i)
  if page.prev.type ≠ .page ∨ page.prev.ref = .null ∨ page.next = .null then none
  else
    let pool :=
      if page.slab.toNat > n then
        let rest := Ref.page (i + n)
        let pool := pool.setDesc rest ⟨page.slab - BitVec.ofNat 64 n, page.next, page.prev⟩
        let pool := pool.setNext page.prev.ref rest
        pool.setPrev (pool.desc (.page i)).next ⟨rest, .page⟩
      else
        let pool := pool.setNext page.prev.ref page.next
        pool.setPrev (pool.desc (.page i)).next page.prev
    let pool := pool.setDesc (.page i) ⟨BitVec.ofNat 64 n ||| pageStart, .null, ⟨.null, .page⟩⟩
    some (markPages ⟨busyWord, .null, ⟨.null, .page⟩⟩ (i + 1) (n - 1) pool)

/-- The loop of `ngx_slab_alloc_pages` over the free list; the second part is the page, if any. -/
def allocPagesLoop (n : Nat) : Nat → Pool → Ref → Option (Pool × Option Nat)
  | 0, _, _ => none
  | _ + 1, pool, .free => some (pool, none)
  | fuel + 1, pool, .page i =>
    if n ≤ (pool.desc (.page i)).slab.toNat then
      (takePages pool i n).map fun pool => (pool, some i)
    else allocPagesLoop n fuel pool (pool.desc (.page i)).next
  | _ + 1, _, _ => none

def ngxSlabAllocPages (fuel : Nat) (pool : Pool) (n : Nat) : Option (Pool × Option Nat) :=
  allocPagesLoop n fuel pool (pool.desc .free).next

def ngxSlabFreePages (pool : Pool) (i n : Nat) : Option Pool :=
  let pool := pool.setSlab (.page i) (BitVec.ofNat 64 n)
  let pool := markPages ⟨0, .null, ⟨.null, .page⟩⟩ (i + 1) (n - 1) pool
  let unlinked := if (pool.desc (.page i)).next ≠ .null then unlink pool (.page i) else some pool
  unlinked.bind fun pool =>
    let pool := pool.setPrev (.page i) ⟨.free, .page⟩
    let pool := pool.setNext (.page i) (pool.desc .free).next
    if (pool.desc (.page i)).next = .null then none
    else
      let pool := pool.setPrev (pool.desc (.page i)).next ⟨.page i, .page⟩
      some (pool.setNext .free (.page i))

/-- The number of chunks of a page. -/
def chunkCount (shift : Nat) : Nat := 1 <<< (pagesizeShift - shift)

/-- The number of words of the bitmap of a small page, `map`. -/
def mapWords (shift : Nat) : Nat := chunkCount shift / 64

/-- The number of chunks that the bitmap of a small page takes. -/
def bitmapChunks (shift : Nat) : Nat :=
  let n := chunkCount shift / 8 / (1 <<< shift)
  if n = 0 then 1 else n

/-- The first clear bit, `for (m = 1, i = 0; m; m <<= 1, i++)`. -/
def clearBit (word : Word) : Option Nat := (List.range 64).find? fun i => !word.getLsbD i

def takeOut (pool : Pool) (r : Ref) (type : PageType) : Option Pool :=
  (unlink pool r).map fun pool => (pool.setNext r .null).setPrev r ⟨.null, type⟩

/-- A chunk of page `i`, as the address `shift` gives it. -/
def chunkAddr (pool : Pool) (i shift chunk : Nat) : Nat :=
  pool.start + (i <<< pagesizeShift) + (chunk <<< shift)

/-- The search in the bitmap of a small page: the pool and the chunk, or no free chunk. -/
def takeSmall (shift : Nat) (pool : Pool) (i : Nat) : Option (Option (Pool × Nat)) :=
  match (List.range (mapWords shift)).find? fun n => pool.mem i n ≠ busyWord with
  | none => some none
  | some n =>
    match clearBit (pool.mem i n) with
    | none => some none
    | some bit =>
      let pool := pool.setWord i n (pool.mem i n ||| 1#64 <<< bit)
      let chunk := n * 64 + bit
      if pool.mem i n = busyWord ∧
          ∀ k < mapWords shift, n < k → pool.mem i k = busyWord then
        (takeOut pool (.page i) .small).map fun pool => some (pool, chunk)
      else some (some (pool, chunk))

def takeExact (pool : Pool) (i : Nat) : Option (Option (Pool × Nat)) :=
  let slab := (pool.desc (.page i)).slab
  if slab ≠ busyWord then
    match clearBit slab with
    | none => some none
    | some bit =>
      let pool := pool.setSlab (.page i) (slab ||| 1#64 <<< bit)
      if (pool.desc (.page i)).slab = busyWord then
        (takeOut pool (.page i) .exact).map fun pool => some (pool, bit)
      else some (some (pool, bit))
  else some none

/-- The bits of the chunks of a big page, from the shift in its `slab`. -/
def chunkMask (slab : Word) : Word :=
  let n := 1 <<< (pagesizeShift - (slab &&& shiftMask).toNat)
  (1#64 <<< n - 1#64) <<< 32

def takeBig (mask : Word) (pool : Pool) (i : Nat) : Option (Option (Pool × Nat)) :=
  let slab := (pool.desc (.page i)).slab
  if slab &&& mapMask ≠ mask then
    let bits := (List.range 32).takeWhile fun bit => mask.getLsbD (32 + bit)
    match bits.find? fun bit => !slab.getLsbD (32 + bit) with
    | none => some none
    | some bit =>
      let pool := pool.setSlab (.page i) (slab ||| 1#64 <<< (32 + bit))
      if (pool.desc (.page i)).slab &&& mapMask = mask then
        (takeOut pool (.page i) .big).map fun pool => some (pool, bit)
      else some (some (pool, bit))
  else some none

/-- `do { ... page = page->next; } while (page);` over the pages of a slot. -/
def searchSlot (take : Pool → Nat → Option (Option (Pool × Nat))) :
    Nat → Pool → Ref → Option (Option (Pool × Nat × Nat))
  | 0, _, _ => none
  | fuel + 1, pool, .page i =>
    (take pool i).bind fun
      | some (pool, chunk) => some (some (pool, i, chunk))
      | none =>
        let next := (pool.desc (.page i)).next
        if next = .null then some none else searchSlot take fuel pool next
  | _ + 1, _, _ => none

def searchPages (fuel : Nat) (pool : Pool) (shift : Nat) (page : Ref) :
    Option (Option (Pool × Nat × Nat)) :=
  if shift < exactShift then searchSlot (takeSmall shift) fuel pool page
  else if shift = exactShift then searchSlot takeExact fuel pool page
  else searchSlot (takeBig (chunkMask (pool.desc page).slab)) fuel pool page

/-- `for (i = 1; i < map; i++) bitmap[i] = 0;` behind the first word. -/
def clearWords (pool : Pool) (i first : Nat) (word : Word) (map : Nat) : Pool :=
  { pool with
    mem := update pool.mem i fun n =>
      if n = first then word else if first < n ∧ n < map then 0 else pool.mem i n }

def pageType (shift : Nat) : PageType :=
  if shift < exactShift then .small else if shift = exactShift then .exact else .big

/-- A fresh page becomes a page of chunks; its first chunk behind the bitmap is taken. -/
def newPage (pool : Pool) (shift slot i : Nat) : Pool × Nat :=
  let link (pool : Pool) (slab : Word) : Pool :=
    (pool.setDesc (.page i) ⟨slab, .slot slot, ⟨.slot slot, pageType shift⟩⟩).setNext (.slot slot)
      (.page i)
  if shift < exactShift then
    let n := bitmapChunks shift
    let pool := clearWords pool i 0 (BitVec.ofNat 64 ((2 <<< n) - 1)) (mapWords shift)
    (link pool (BitVec.ofNat 64 shift), n)
  else if shift = exactShift then (link pool 1#64, 0)
  else (link pool (1#64 <<< 32 ||| BitVec.ofNat 64 shift), 0)

/-- `shift = 1; for (s = size - 1; s >>= 1; shift++)` -/
def shiftLoop : Nat → Nat → Nat → Nat
  | 0, _, shift => shift
  | fuel + 1, s, shift => if s / 2 = 0 then shift else shiftLoop fuel (s / 2) (shift + 1)

def sizeShift (size : Nat) : Nat := if size > minSize then shiftLoop 64 (size - 1) 1 else minShift

/-- The address of the block, `none` for `NULL`. -/
def ngxSlabAllocLocked (fuel : Nat) (pool : Pool) (size : Nat) : Option (Pool × Option Nat) :=
  if size ≥ maxSize then
    let pages := ((size + pagesize - 1) % 2 ^ 64) >>> pagesizeShift
    (ngxSlabAllocPages fuel pool pages).map fun (pool, page) =>
      (pool, page.map fun i => pool.start + (i <<< pagesizeShift))
  else
    let shift := sizeShift size
    let slot := shift - minShift
    let page := (pool.desc (.slot slot)).next
    let found :=
      if (pool.desc page).next ≠ page then searchPages fuel pool shift page else some none
    found.bind fun
      | some (pool, i, chunk) => some (pool, some (chunkAddr pool i shift chunk))
      | none =>
        (ngxSlabAllocPages fuel pool 1).map fun
          | (pool, some i) =>
            let (pool, chunk) := newPage pool shift slot i
            (pool, some (chunkAddr pool i shift chunk))
          | (pool, none) => (pool, none)

/-- A full page goes back to the list of its slot. -/
def relink (pool : Pool) (slot i : Nat) (type : PageType) : Option Pool :=
  let pool := pool.setNext (.page i) (pool.desc (.slot slot)).next
  let pool := pool.setNext (.slot slot) (.page i)
  let pool := pool.setPrev (.page i) ⟨.slot slot, type⟩
  if (pool.desc (.page i)).next = .null then none
  else some (pool.setPrev (pool.desc (.page i)).next ⟨.page i, type⟩)

/-- `case NGX_SLAB_SMALL` -/
def freeSmall (pool : Pool) (i p : Nat) : Option Pool :=
  let shift := ((pool.desc (.page i)).slab &&& shiftMask).toNat
  if p % (1 <<< shift) ≠ 0 then some pool
  else
    let chunk := (p % pagesize) >>> shift
    let n := chunk / 64
    let at_page := p / pagesize - pool.start / pagesize
    if (pool.mem at_page n).getLsbD (chunk % 64) then
      let linked :=
        if (pool.desc (.page i)).next = .null then relink pool (shift - minShift) i .small
        else some pool
      linked.bind fun pool =>
        let pool := pool.setWord at_page n (pool.mem at_page n &&& ~~~(1#64 <<< (chunk % 64)))
        if pool.mem at_page 0 &&& ~~~(1#64 <<< bitmapChunks shift - 1#64) ≠ 0 then some pool
        else if ∃ k < mapWords shift, 1 ≤ k ∧ pool.mem at_page k ≠ 0 then some pool
        else ngxSlabFreePages pool i 1
    else some pool

/-- `case NGX_SLAB_EXACT` -/
def freeExact (pool : Pool) (i p : Nat) : Option Pool :=
  let slab := (pool.desc (.page i)).slab
  let bit := (p % pagesize) >>> exactShift
  if p % (1 <<< exactShift) ≠ 0 then some pool
  else if slab.getLsbD bit then
    let linked :=
      if slab = busyWord then relink pool (exactShift - minShift) i .exact else some pool
    linked.bind fun pool =>
      let pool := pool.setSlab (.page i) ((pool.desc (.page i)).slab &&& ~~~(1#64 <<< bit))
      if (pool.desc (.page i)).slab ≠ 0 then some pool else ngxSlabFreePages pool i 1
  else some pool

/-- `case NGX_SLAB_BIG` -/
def freeBig (pool : Pool) (i p : Nat) : Option Pool :=
  let slab := (pool.desc (.page i)).slab
  let shift := (slab &&& shiftMask).toNat
  if p % (1 <<< shift) ≠ 0 then some pool
  else
    let bit := (p % pagesize) >>> shift
    if slab.getLsbD (bit + 32) then
      let linked :=
        if (pool.desc (.page i)).next = .null then relink pool (shift - minShift) i .big
        else some pool
      linked.bind fun pool =>
        let pool := pool.setSlab (.page i) ((pool.desc (.page i)).slab &&& ~~~(1#64 <<< (bit + 32)))
        if (pool.desc (.page i)).slab &&& mapMask ≠ 0 then some pool
        else ngxSlabFreePages pool i 1
    else some pool

/-- `case NGX_SLAB_PAGE` -/
def freePage (pool : Pool) (i p : Nat) : Option Pool :=
  let slab := (pool.desc (.page i)).slab
  if p % pagesize ≠ 0 ∨ slab = 0 ∨ slab = busyWord then some pool
  else ngxSlabFreePages pool i (slab &&& ~~~pageStart).toNat

def ngxSlabFreeLocked (pool : Pool) (p : Nat) : Option Pool :=
  if p < pool.start ∨ p > pool.stop then some pool
  else
    let i := (p - pool.start) >>> pagesizeShift
    match (pool.desc (.page i)).prev.type with
    | .small => freeSmall pool i p
    | .exact => freeExact pool i p
    | .big => freeBig pool i p
    | .page => freePage pool i p

end NgxFormal.Core.Slab
