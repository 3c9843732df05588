import NgxFormal.Core.SlabOps

/-! The small chunks of a slab pool for every page size: `1 << k` bytes a page, words of 64 bits and
`min_shift` 3. The rings of pages are lists, addresses count from `pool->start`, and the sizes of the
other classes are left to the model with pages of 4096 bytes. -/

namespace NgxFormal.Core.SlabSizes

open Function
open Slab (Word busyWord clearBit minShift sizeShift shiftLoop)

/-- `ngx_slab_max_size` -/
def maxSize (k : Nat) : Nat := (1 <<< k) / 2

/-- `for (n = ngx_slab_exact_size; n >>= 1; ngx_slab_exact_shift++)` -/
def exactShift (k : Nat) : Nat := shiftLoop 64 ((1 <<< k) / 64) 0

/-- The number of chunks of a page. -/
def chunkCount (k shift : Nat) : Nat := 1 <<< (k - shift)

/-- The number of words of the bitmap, `map`. -/
def mapWords (k shift : Nat) : Nat := chunkCount k shift / 64

/-- The number of chunks that the bitmap of a page takes. -/
def bitmapChunks (k shift : Nat) : Nat :=
  let n := chunkCount k shift / 8 / (1 <<< shift)
  if n = 0 then 1 else n

/-- `bitmap[0] = (2 << n) - 1`: an `int` of 32 bits, whose shift takes the count modulo 32, and a
conversion that extends its sign. -/
def firstWord (n : Nat) : Word := ((2#32 <<< (n % 32)) - 1#32).signExtend 64

/-- `~(((uintptr_t) 1 << n) - 1)` -/
def behindBitmap (n : Nat) : Word := ~~~(1#64 <<< (n % 64) - 1#64)

/-- The free runs with their lengths, the pages in the list of each slot, the `slab` of the pages of
type `NGX_SLAB_SMALL`, and the words of the pages. -/
@[ext]
structure Pool where
  free : List (Nat × Nat)
  slots : Nat → List Nat
  slab : Nat → Option Nat
  mem : Nat → Nat → Word

/-- A pool of `pages` pages that `ngx_slab_init` set up. -/
def initPool (pages : Nat) (mem : Nat → Nat → Word) : Pool :=
  ⟨[(0, pages)], fun _ => [], fun _ => none, mem⟩

def chunkAddr (k i shift chunk : Nat) : Nat := (i <<< k) + (chunk <<< shift)

def Pool.setWord (pool : Pool) (i n : Nat) (word : Word) : Pool :=
  { pool with mem := update pool.mem i (update (pool.mem i) n word) }

def Pool.unlink (pool : Pool) (slot i : Nat) : Pool :=
  { pool with slots := update pool.slots slot ((pool.slots slot).filter fun j => j ≠ i) }

def takeSmall (k shift : Nat) (pool : Pool) (i : Nat) : Option (Pool × Nat) :=
  match (List.range (mapWords k shift)).find? fun n => pool.mem i n ≠ busyWord with
  | none => none
  | some n =>
    match clearBit (pool.mem i n) with
    | none => none
    | some bit =>
      let pool := pool.setWord i n (pool.mem i n ||| 1#64 <<< bit)
      let chunk := n * 64 + bit
      if pool.mem i n = busyWord ∧
          ∀ j < mapWords k shift, n < j → pool.mem i j = busyWord then
        some (pool.unlink (shift - minShift) i, chunk)
      else some (pool, chunk)

/-- `do { ... page = page->next; } while (page);` over the pages of a slot; behind the last one the
header would be read as a page. -/
def searchSlot (k shift : Nat) (pool : Pool) : List Nat → Option (Pool × Nat × Nat)
  | [] => none
  | i :: rest =>
    match takeSmall k shift pool i with
    | some (pool, chunk) => some (pool, i, chunk)
    | none => searchSlot k shift pool rest

/-- `ngx_slab_alloc_pages(pool, 1)` -/
def allocPage : List (Nat × Nat) → Option (List (Nat × Nat) × Nat)
  | [] => none
  | (i, n) :: rest =>
    if 1 ≤ n then some (if n > 1 then (i + 1, n - 1) :: rest else rest, i)
    else (allocPage rest).map fun (runs, page) => ((i, n) :: runs, page)

/-- A fresh page becomes a page of chunks; the first chunk behind the bitmap is taken. -/
def newPage (k shift : Nat) (pool : Pool) (i : Nat) : Pool × Nat :=
  let n := bitmapChunks k shift
  let words := fun m =>
    if m = 0 then firstWord n else if m < mapWords k shift then 0 else pool.mem i m
  ({ pool with
      slots := update pool.slots (shift - minShift) [i]
      slab := update pool.slab i (some shift)
      mem := update pool.mem i words }, n)

/-- The address of a chunk of a small class, `none` for `NULL`. -/
def allocShift (k shift : Nat) (pool : Pool) : Option (Pool × Option Nat) :=
  if pool.slots (shift - minShift) ≠ [] then
    (searchSlot k shift pool (pool.slots (shift - minShift))).map fun (pool, i, chunk) =>
      (pool, some (chunkAddr k i shift chunk))
  else
    match allocPage pool.free with
    | none => some (pool, none)
    | some (runs, i) =>
      let (pool, chunk) := newPage k shift { pool with free := runs } i
      some (pool, some (chunkAddr k i shift chunk))

/-- `ngx_slab_alloc_locked` for a size below `exactSize` -/
def allocSmall (k : Nat) (pool : Pool) (size : Nat) : Option (Pool × Option Nat) :=
  allocShift k (sizeShift size) pool

/-- `ngx_slab_free_pages(pool, page, 1)` for a page in the list of its slot -/
def freePage (pool : Pool) (slot i : Nat) : Pool :=
  let pool := pool.unlink slot i
  { pool with free := (i, 1) :: pool.free, slab := update pool.slab i none }

/-- A full page, whose `next` is `NULL`, goes back to the list of its slot. -/
def Pool.relink (pool : Pool) (slot i : Nat) : Pool :=
  if i ∉ pool.slots slot then
    { pool with slots := update pool.slots slot (i :: pool.slots slot) }
  else pool

/-- `case NGX_SLAB_SMALL` of `ngx_slab_free_locked` -/
def freeSmall (k : Nat) (pool : Pool) (p : Nat) : Option Pool :=
  let i := p >>> k
  (pool.slab i).map fun shift =>
    let slot := shift - minShift
    if p % (1 <<< shift) ≠ 0 then pool
    else
      let chunk := (p % (1 <<< k)) >>> shift
      let n := chunk / 64
      if (pool.mem i n).getLsbD (chunk % 64) then
        let pool := pool.relink slot i
        let pool := pool.setWord i n (pool.mem i n &&& ~~~(1#64 <<< (chunk % 64)))
        if pool.mem i 0 &&& behindBitmap (bitmapChunks k shift) ≠ 0 then pool
        else if ∃ m < mapWords k shift, 1 ≤ m ∧ pool.mem i m ≠ 0 then pool
        else freePage pool slot i
      else pool

/-- A chunk at the address meets the bitmap of its page. -/
def OverlapsBitmap (k : Nat) (pool : Pool) (p : Nat) : Prop :=
  ∃ shift, pool.slab (p >>> k) = some shift ∧ p < (p >>> k) <<< k + chunkCount k shift / 8

section Sizes

variable {k shift size j : Nat}

theorem exactShift_eq : ∀ k < 17, 12 ≤ k → exactShift k = k - 6 := by decide

/-- A size of a small class. -/
def Small (k size : Nat) : Prop := size < maxSize k ∧ sizeShift size < exactShift k

/-- The sizes whose bitmaps take less than 32 chunks. -/
def Covered (k size : Nat) : Prop := k ≤ 13 ∨ k ≤ 15 ∧ 8 < size ∨ 16 < size

theorem maxSize_le : ∀ k < 17, maxSize k ≤ 32768 := by decide

theorem Small.bounds (small : Small k size) (low : 12 ≤ k) (high : k ≤ 16) :
    size < 2 ^ 64 ∧ minShift ≤ sizeShift size ∧ sizeShift size < k - 6 := by
  obtain ⟨within, small_class⟩ := small
  have largest := maxSize_le k (by omega)
  have short : size < 2 ^ 64 := by omega
  rw [exactShift_eq k (by omega) low] at small_class
  exact ⟨short, (Slab.sizeShift_bounds short).1, small_class⟩

theorem bitmapChunks_short_iff (low : 12 ≤ k) (high : k ≤ 16) (atLeast : minShift ≤ shift)
    (small : shift < k - 6) :
    bitmapChunks k shift < 32 ↔ k ≤ 13 ∨ k ≤ 15 ∧ ¬shift ≤ 3 ∨ ¬shift ≤ 4 := by
  simp only [minShift] at atLeast
  interval_cases k <;> interval_cases shift <;> decide

theorem bitmapChunks_covered_iff (low : 12 ≤ k) (high : k ≤ 16) (small : Small k size) :
    bitmapChunks k (sizeShift size) < 32 ↔ Covered k size := by
  obtain ⟨short, atLeast, small_class⟩ := small.bounds low high
  have within := (Slab.sizeShift_bounds short).2
  rw [bitmapChunks_short_iff low high atLeast small_class, within 3 (by decide),
    within 4 (by decide), Nat.not_le, Nat.not_le]
  exact Iff.rfl

/-- What the formulas of one class have to agree on. -/
structure Fits (k shift : Nat) : Prop where
  page : chunkCount k shift * 2 ^ shift = 2 ^ k
  words : chunkCount k shift = 64 * mapWords k shift
  some_words : 1 ≤ mapWords k shift
  bitmap : chunkCount k shift / 8 ≤ bitmapChunks k shift * 2 ^ shift
  room : bitmapChunks k shift + 1 < chunkCount k shift
  first : bitmapChunks k shift < 30

/-- Below 32 chunks the three formulas agree. -/
theorem fits_of_short (low : 12 ≤ k) (high : k ≤ 16) (atLeast : minShift ≤ shift)
    (small : shift < k - 6) (short : bitmapChunks k shift < 32) : Fits k shift := by
  simp only [minShift] at atLeast
  interval_cases k <;> interval_cases shift <;>
    first
      | exact absurd short (by decide)
      | exact ⟨by decide, by decide, by decide, by decide, by decide, by decide⟩

theorem firstWord_bit : ∀ n < 30, ∀ b < 64, (firstWord n).getLsbD b = decide (b ≤ n) := by
  decide +kernel

theorem behindBitmap_bit : ∀ n < 30, ∀ b < 64, (behindBitmap n).getLsbD b = decide (n ≤ b) := by
  decide +kernel

end Sizes

end NgxFormal.Core.SlabSizes
