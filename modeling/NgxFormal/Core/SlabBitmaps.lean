import NgxFormal.Core.SlabSizes
import NgxFormal.Lib.Runs

/-! Sequences of allocations and frees of small chunks keep off the bitmaps, for every page size with
less than 32 chunks under each bitmap. -/

namespace NgxFormal.Core.SlabSizes

open Function
open Slab (Word busyWord minShift sizeShift)
open Lib.Bitmap (bit bit_word bit_first word_of_clear full_from behind_iff)

def freePages (runs : List (Nat × Nat)) : List Nat := runs.flatMap fun run => List.range' run.1 run.2

/-- A page of chunks: which bits are set, and what its list needs. -/
structure Bits (k : Nat) (pool : Pool) (live : List Nat) (i shift : Nat) : Prop where
  low : minShift ≤ shift
  fits : Fits k shift
  used : ∀ c < chunkCount k shift, bit (pool.mem i) c = true ↔
    c < bitmapChunks k shift ∨ chunkAddr k i shift c ∈ live
  listed : i ∈ pool.slots (shift - minShift) → ∃ c < chunkCount k shift, bit (pool.mem i) c = false

structure Inv (k : Nat) (pool : Pool) (live : List Nat) : Prop where
  pages : ∀ i shift, pool.slab i = some shift → Bits k pool live i shift
  slots : ∀ slot, ∀ i ∈ pool.slots slot, pool.slab i = some (slot + minShift)
  distinct : (freePages pool.free).Nodup
  free : ∀ i ∈ freePages pool.free, pool.slab i = none
  chunks : ∀ p ∈ live, ∃ i shift c, pool.slab i = some shift ∧ bitmapChunks k shift ≤ c ∧
    c < chunkCount k shift ∧ p = chunkAddr k i shift c

section Address

variable {k shift i j c d : Nat}

theorem chunkAddr_spec (fits : Fits k shift) (inside : c < chunkCount k shift) :
    chunkAddr k i shift c >>> k = i ∧ chunkAddr k i shift c % (1 <<< shift) = 0 ∧
      (chunkAddr k i shift c % (1 <<< k)) >>> shift = c := by
  have page := fits.page
  have positive : 0 < 2 ^ shift := Nat.two_pow_pos shift
  have within : c * 2 ^ shift < 2 ^ k := by
    rw [← page]
    exact Nat.mul_lt_mul_of_pos_right inside positive
  have addr : chunkAddr k i shift c = c * 2 ^ shift + i * 2 ^ k := by
    rw [chunkAddr, Nat.shiftLeft_eq, Nat.shiftLeft_eq, Nat.add_comm]
  rw [addr, Nat.shiftRight_eq_div_pow, Nat.shiftRight_eq_div_pow, Nat.one_shiftLeft,
    Nat.one_shiftLeft]
  refine ⟨?_, ?_, ?_⟩
  · rw [Nat.add_mul_div_right _ _ (Nat.two_pow_pos k), Nat.div_eq_of_lt within, Nat.zero_add]
  · rw [← page, ← Nat.mul_assoc, ← Nat.add_mul, Nat.mul_mod_left]
  · rw [Nat.add_mul_mod_self_right, Nat.mod_eq_of_lt within, Nat.mul_div_cancel _ positive]

theorem chunkAddr_inj (fits : Fits k shift) {other : Nat} (fits' : Fits k other)
    (inside : c < chunkCount k shift) (inside' : d < chunkCount k other)
    (same : chunkAddr k i shift c = chunkAddr k j other d) : i = j := by
  rw [← (chunkAddr_spec (i := i) fits inside).1, same, (chunkAddr_spec fits' inside').1]

end Address

section Marks

variable {k shift i j c d : Nat} {pool : Pool} {v : Bool}

/-- The bit of a chunk is set or cleared. -/
def Pool.mark (pool : Pool) (i c : Nat) (v : Bool) : Pool :=
  pool.setWord i (c / 64) (Slab.setBit (pool.mem i (c / 64)) (c % 64) v)

@[simp] theorem mark_slab : (pool.mark i c v).slab = pool.slab := rfl

theorem mem_unlink {slot other : Nat} :
    j ∈ (pool.unlink slot i).slots other ↔ j ∈ pool.slots other ∧ (other = slot → j ≠ i) := by
  by_cases same : other = slot
  · subst same
    simp [Pool.unlink]
  · simp [Pool.unlink, same]

theorem relink_spec (pool : Pool) (slot i : Nat) :
    (pool.relink slot i).slab = pool.slab ∧ (pool.relink slot i).free = pool.free ∧
      (pool.relink slot i).mem = pool.mem ∧ ∀ other j, j ∈ (pool.relink slot i).slots other →
        j ∈ pool.slots other ∨ j = i ∧ other = slot := by
  unfold Pool.relink
  split
  · refine ⟨rfl, rfl, rfl, ?_⟩
    intro other j there
    dsimp only at there
    by_cases same : other = slot
    · subst same
      rw [update_self] at there
      rcases List.mem_cons.mp there with isFirst | old
      · exact Or.inr ⟨isFirst, rfl⟩
      · exact Or.inl old
    · rw [update_of_ne same] at there
      exact Or.inl there
  · exact ⟨rfl, rfl, rfl, fun other j there => Or.inl there⟩

theorem setWord_mem (n m : Nat) (word : Word) : (pool.setWord i n word).mem j m =
    if j = i ∧ m = n then word else pool.mem j m := by
  by_cases page : j = i
  · subst page
    by_cases same : m = n
    · subst same
      simp [Pool.setWord]
    · simp [Pool.setWord, same]
  · simp [Pool.setWord, page]

theorem bit_mark : bit ((pool.mark i c v).mem j) d =
    if j = i ∧ d = c then v else bit (pool.mem j) d := by
  simp only [bit, Pool.mark, setWord_mem]
  by_cases word : j = i ∧ d / 64 = c / 64
  · obtain ⟨rfl, sameWord⟩ := word
    rw [if_pos ⟨rfl, sameWord⟩, Slab.getLsbD_setBit _ _ _ (Nat.mod_lt _ (by decide)), sameWord]
    refine if_congr ?_ rfl rfl
    constructor
    · intro same
      exact ⟨rfl, by omega⟩
    · rintro ⟨_, rfl⟩
      rfl
  · rw [if_neg word, if_neg]
    rintro ⟨rfl, rfl⟩
    exact word ⟨rfl, rfl⟩

def takenPool (k shift : Nat) (pool : Pool) (i c : Nat) : Pool :=
  let pool := pool.mark i c true
  if ∀ d < chunkCount k shift, bit (pool.mem i) d = true then pool.unlink (shift - minShift) i
  else pool

theorem takeSmall_eq (words : chunkCount k shift = 64 * mapWords k shift)
    (free : ∃ c < chunkCount k shift, bit (pool.mem i) c = false) :
    ∃ c < chunkCount k shift, bit (pool.mem i) c = false ∧
      takeSmall k shift pool i = some (takenPool k shift pool i c, c) := by
  obtain ⟨c, inside, clear⟩ := free
  unfold takeSmall
  cases found : (List.range (mapWords k shift)).find? fun n => pool.mem i n ≠ busyWord with
  | none =>
    exfalso
    have all := List.find?_eq_none.mp found (c / 64) (List.mem_range.mpr (by omega))
    have busy : pool.mem i (c / 64) = busyWord := by simpa using all
    exact word_of_clear clear busy
  | some n =>
    obtain ⟨notBusy, member, first⟩ := List.find?_range_eq_some.mp found
    have within := List.mem_range.mp member
    obtain ⟨b, isBit, small, isClear⟩ := Slab.clearBit_spec _ (by simpa using notBusy)
    refine ⟨n * 64 + b, by omega, by rw [bit_word small, isClear], ?_⟩
    have taken : pool.mark i (n * 64 + b) true =
        pool.setWord i n (pool.mem i n ||| 1#64 <<< b) := by
      rw [Pool.mark, show (n * 64 + b) / 64 = n by omega, show (n * 64 + b) % 64 = b by omega]
      rfl
    simp only [isBit, takenPool, taken, words]
    set marked := pool.setWord i n (pool.mem i n ||| 1#64 <<< b) with marked_eq
    have full : (marked.mem i n = busyWord ∧
        ∀ m < mapWords k shift, n < m → marked.mem i m = busyWord) ↔
        ∀ d < 64 * mapWords k shift, bit (marked.mem i) d = true := by
      refine full_from within ?_
      intro m before
      have busy : pool.mem i m = busyWord := by simpa using first m before
      rw [marked_eq, setWord_mem, if_neg (by omega), busy]
      rfl
    by_cases all : ∀ d < 64 * mapWords k shift, bit (marked.mem i) d = true
    · rw [if_pos (full.mpr all), if_pos all]
    · rw [if_neg (fun whole => all (full.mp whole)), if_neg all]

end Marks

section Steps

variable {k shift i c p : Nat} {pool : Pool} {live live' : List Nat}

theorem Bits.congr {pool' : Pool} (bits : Bits k pool live i shift)
    (mem : pool'.mem i = pool.mem i)
    (blocks : ∀ c < chunkCount k shift, (chunkAddr k i shift c ∈ live' ↔ chunkAddr k i shift c ∈ live))
    (slots : i ∈ pool'.slots (shift - minShift) → i ∈ pool.slots (shift - minShift)) :
    Bits k pool' live' i shift := by
  refine ⟨bits.low, bits.fits, ?_, ?_⟩
  · intro c inside
    rw [mem, bits.used c inside, blocks c inside]
  · rw [mem]
    exact fun member => bits.listed (slots member)

theorem Bits.mark {v : Bool} (bits : Bits k pool live i shift) (inside : c < chunkCount k shift)
    (behind : bitmapChunks k shift ≤ c) (mine : v = true ↔ chunkAddr k i shift c ∈ live')
    (others : ∀ p, p ≠ chunkAddr k i shift c → (p ∈ live' ↔ p ∈ live)) :
    ∀ d < chunkCount k shift, bit ((pool.mark i c v).mem i) d = true ↔
      d < bitmapChunks k shift ∨ chunkAddr k i shift d ∈ live' := by
  intro d within
  rw [bit_mark]
  by_cases same : d = c
  · subst same
    rw [if_pos ⟨rfl, rfl⟩, mine]
    constructor
    · exact Or.inr
    · rintro (low | there)
      · omega
      · exact there
  · have differ : chunkAddr k i shift d ≠ chunkAddr k i shift c := by
      intro equal
      apply same
      rw [← (chunkAddr_spec (i := i) bits.fits within).2.2, equal,
        (chunkAddr_spec bits.fits inside).2.2]
    rw [if_neg (fun both => same both.2), bits.used d within, others _ differ]

theorem Inv.apart (inv : Inv k pool live) (owned : pool.slab i = some shift)
    (inside : c < chunkCount k shift) {j other d : Nat} (owned' : pool.slab j = some other)
    (inside' : d < chunkCount k other) (differ : j ≠ i) :
    chunkAddr k j other d ≠ chunkAddr k i shift c := fun same =>
  differ (chunkAddr_inj (inv.pages j other owned').fits (inv.pages i shift owned).fits inside' inside
    same)

theorem Inv.change {pool' : Pool} (inv : Inv k pool live) (owned : pool.slab i = some shift)
    (inside : c < chunkCount k shift) (behind : bitmapChunks k shift ≤ c)
    (bits : Bits k pool' live' i shift) (slab : pool'.slab = pool.slab) (free : pool'.free = pool.free)
    (mem : ∀ j, j ≠ i → pool'.mem j = pool.mem j)
    (slots : ∀ slot j, j ∈ pool'.slots slot → j ∈ pool.slots slot ∨ j = i ∧ slot = shift - minShift)
    (others : ∀ p, p ≠ chunkAddr k i shift c → (p ∈ live' ↔ p ∈ live)) : Inv k pool' live' := by
  refine ⟨?_, ?_, free ▸ inv.distinct, ?_, ?_⟩
  · intro j other owned'
    rw [slab] at owned'
    by_cases same : j = i
    · subst same
      rw [owned, Option.some.injEq] at owned'
      exact owned' ▸ bits
    · refine (inv.pages j other owned').congr (mem j same) ?_ ?_
      · intro d inside'
        exact others _ (inv.apart owned inside owned' inside' same)
      · intro member
        exact (slots _ j member).resolve_right fun both => same both.1
  · intro slot j member
    rw [slab]
    rcases slots slot j member with old | ⟨rfl, rfl⟩
    · exact inv.slots slot j old
    · rw [owned, Nat.sub_add_cancel bits.low]
  · rw [free, slab]
    exact inv.free
  · intro p member
    rw [slab]
    by_cases same : p = chunkAddr k i shift c
    · exact ⟨i, shift, c, owned, behind, inside, same⟩
    · exact inv.chunks p ((others p same).mp member)

theorem Inv.taken (inv : Inv k pool live) (owned : pool.slab i = some shift)
    (inside : c < chunkCount k shift) (clear : bit (pool.mem i) c = false) :
    Inv k (takenPool k shift pool i c) (chunkAddr k i shift c :: live) := by
  have bits := inv.pages i shift owned
  have behind : bitmapChunks k shift ≤ c := by
    by_contra low
    rw [(bits.used c inside).mpr (Or.inl (by omega))] at clear
    cases clear
  have others : ∀ p, p ≠ chunkAddr k i shift c → (p ∈ chunkAddr k i shift c :: live ↔ p ∈ live) := by
    intro p differ
    rw [List.mem_cons, or_iff_right differ]
  have used := bits.mark (v := true) inside behind (by simp) others
  have elsewhere : ∀ j, j ≠ i → (pool.mark i c true).mem j = pool.mem j := by
    intro j differ
    funext n
    rw [Pool.mark, setWord_mem, if_neg fun both => differ both.1]
  unfold takenPool
  dsimp only
  split
  · refine inv.change owned inside behind ⟨bits.low, bits.fits, used, ?_⟩ rfl rfl elsewhere ?_ others
    · intro member
      exact absurd rfl ((mem_unlink.mp member).2 rfl)
    · intro slot j member
      exact Or.inl (mem_unlink.mp member).1
  · rename_i notFull
    refine inv.change owned inside behind ⟨bits.low, bits.fits, used, ?_⟩ rfl rfl elsewhere ?_ others
    · intro _
      simpa using notFull
    · intro slot j member
      exact Or.inl member

theorem allocPage_spec {runs rest : List (Nat × Nat)} (done : allocPage runs = some (rest, i)) :
    ∃ before after, freePages runs = before ++ i :: after ∧ freePages rest = before ++ after := by
  induction runs generalizing rest with
  | nil => cases done
  | cons run runs ih =>
    obtain ⟨first, n⟩ := run
    rw [allocPage] at done
    split at done
    · rename_i some_pages
      obtain ⟨rfl, rfl⟩ := Prod.mk.inj (Option.some.inj done)
      obtain ⟨m, rfl⟩ : ∃ m, n = m + 1 := ⟨n - 1, by omega⟩
      refine ⟨[], List.range' (first + 1) m ++ freePages runs, rfl, ?_⟩
      split
      · rfl
      · rename_i single
        obtain rfl : m = 0 := by omega
        rfl
    · rename_i empty
      obtain ⟨result, isResult, same⟩ := Option.map_eq_some_iff.mp done
      obtain ⟨rfl, rfl⟩ := Prod.mk.inj same
      obtain ⟨before, after, whole, left⟩ := ih isResult
      obtain rfl : n = 0 := by omega
      exact ⟨before, after, whole, left⟩

theorem newPage_bit (fits : Fits k shift) {d : Nat} (inside : d < chunkCount k shift) :
    bit ((newPage k shift pool i).1.mem i) d = decide (d ≤ bitmapChunks k shift) := by
  have words := fits.words
  simp only [newPage, update_self, bit]
  by_cases first : d < 64
  · rw [if_pos (Nat.div_eq_of_lt first), Nat.mod_eq_of_lt first,
      firstWord_bit _ fits.first d first]
  · have short := fits.first
    rw [if_neg (by omega), if_pos (by omega), decide_eq_false (by omega)]
    exact BitVec.getLsbD_zero

theorem Inv.fresh {runs : List (Nat × Nat)} (inv : Inv k pool live) (low : minShift ≤ shift)
    (fits : Fits k shift) (done : allocPage pool.free = some (runs, i)) :
    Inv k (newPage k shift { pool with free := runs } i).1
      (chunkAddr k i shift (bitmapChunks k shift) :: live) := by
  have room := fits.room
  obtain ⟨before, after, whole, left⟩ := allocPage_spec done
  have distinct := inv.distinct
  have free := inv.free
  rw [whole] at distinct free
  have fresh : pool.slab i = none := free i (by simp)
  obtain ⟨notLeft, distinctLeft⟩ := List.nodup_cons.mp (List.nodup_middle.mp distinct)
  -- no block in use lies on a free page
  have elsewhere : ∀ p ∈ live, ∀ d < chunkCount k shift, p ≠ chunkAddr k i shift d := by
    intro p member d inside same
    obtain ⟨j, other, e, owned, _, inside', isChunk⟩ := inv.chunks p member
    have onPage := chunkAddr_inj fits (inv.pages j other owned).fits inside inside'
      (same.symm.trans isChunk)
    rw [← onPage, fresh] at owned
    cases owned
  have apart : ∀ d, d < chunkCount k shift → ∀ e, e < chunkCount k shift →
      chunkAddr k i shift d = chunkAddr k i shift e → d = e := by
    intro d insideD e insideE same
    rw [← (chunkAddr_spec (i := i) fits insideD).2.2, same, (chunkAddr_spec fits insideE).2.2]
  refine ⟨?_, ?_, ?_, ?_, ?_⟩
  · intro j other owned
    by_cases same : j = i
    · subst same
      have isShift : other = shift := by simpa [newPage] using owned.symm
      subst isShift
      refine ⟨low, fits, ?_, ?_⟩
      · intro d inside
        rw [newPage_bit fits inside, decide_eq_true_iff, List.mem_cons,
          or_iff_left fun member => elsewhere _ member d inside rfl]
        constructor
        · intro within
          rcases Nat.lt_or_eq_of_le within with below | equal
          · exact Or.inl below
          · exact Or.inr (by rw [equal])
        · rintro (below | equal)
          · omega
          · rw [apart d inside _ (by omega) equal]
      · intro _
        refine ⟨bitmapChunks k other + 1, room, ?_⟩
        rw [newPage_bit fits room, decide_eq_false (by omega)]
    · have owned' : pool.slab j = some other := by simpa [newPage, same] using owned
      refine (inv.pages j other owned').congr (update_of_ne same _ _) ?_ ?_
      · intro d inside
        rw [List.mem_cons, or_iff_right]
        intro equal
        exact same (chunkAddr_inj (inv.pages j other owned').fits fits inside (by omega) equal)
      · intro member
        by_cases slot : other - minShift = shift - minShift
        · simp [newPage, slot, same] at member
        · simpa [newPage, slot] using member
  · intro slot j member
    by_cases same : slot = shift - minShift
    · have isPage : j = i := by simpa [newPage, same] using member
      rw [isPage, same, Nat.sub_add_cancel low]
      exact update_self _ _ _
    · have old : j ∈ pool.slots slot := by simpa [newPage, same] using member
      have owned := inv.slots slot j old
      have differ : j ≠ i := by
        rintro rfl
        rw [fresh] at owned
        cases owned
      exact (update_of_ne differ _ _).trans owned
  · change (freePages runs).Nodup
    rw [left]
    exact distinctLeft
  · intro j member
    change j ∈ freePages runs at member
    rw [left] at member
    have differ : j ≠ i := by
      rintro rfl
      exact notLeft member
    refine (update_of_ne differ _ _).trans (free j ?_)
    rcases List.mem_append.mp member with inBefore | inAfter
    · exact List.mem_append_left _ inBefore
    · exact List.mem_append_right _ (List.mem_cons_of_mem _ inAfter)
  · intro p member
    rcases List.mem_cons.mp member with rfl | old
    · exact ⟨i, shift, _, update_self _ _ _, Nat.le_refl _, by omega, rfl⟩
    · obtain ⟨j, other, d, owned, behind, inside, isChunk⟩ := inv.chunks p old
      have differ : j ≠ i := by
        rintro rfl
        rw [fresh] at owned
        cases owned
      exact ⟨j, other, d, (update_of_ne differ _ _).trans owned, behind, inside, isChunk⟩

theorem Inv.freePage (inv : Inv k pool live) (owned : pool.slab i = some shift)
    (unused : ¬∃ c < chunkCount k shift, bitmapChunks k shift ≤ c ∧ bit (pool.mem i) c = true) :
    Inv k (freePage pool (shift - minShift) i) live := by
  have bits := inv.pages i shift owned
  have gone : ∀ slot j, j ∈ (pool.unlink (shift - minShift) i).slots slot →
      j ∈ pool.slots slot ∧ j ≠ i := by
    intro slot j member
    obtain ⟨old, notMine⟩ := mem_unlink.mp member
    refine ⟨old, ?_⟩
    rintro rfl
    have isShift := inv.slots slot j old
    rw [owned, Option.some.injEq] at isShift
    exact notMine (by omega) rfl
  refine ⟨?_, ?_, ?_, ?_, ?_⟩
  · intro j other owned'
    have differ : j ≠ i := by
      rintro rfl
      simp [SlabSizes.freePage] at owned'
    replace owned' : pool.slab j = some other := by
      rw [← owned']
      exact (update_of_ne differ _ _).symm
    exact (inv.pages j other owned').congr rfl (fun _ _ => Iff.rfl) fun member =>
      (gone _ j member).1
  · intro slot j member
    obtain ⟨old, differ⟩ := gone slot j member
    exact (update_of_ne differ _ _).trans (inv.slots slot j old)
  · refine List.nodup_cons.mpr ⟨?_, inv.distinct⟩
    intro member
    rw [inv.free i member] at owned
    cases owned
  · intro j member
    by_cases same : j = i
    · rw [same]
      exact update_self _ _ _
    · exact (update_of_ne same _ _).trans
        (inv.free j ((List.mem_cons.mp member).resolve_left same))
  · intro p member
    obtain ⟨j, other, c, owned', behind, inside, isChunk⟩ := inv.chunks p member
    have differ : j ≠ i := by
      rintro rfl
      rw [owned, Option.some.injEq] at owned'
      subst owned'
      refine unused ⟨c, inside, behind, (bits.used c inside).mpr (Or.inr ?_)⟩
      rw [← isChunk]
      exact member
    exact ⟨j, other, c, (update_of_ne differ _ _).trans owned', behind, inside, isChunk⟩

theorem Inv.alloc (inv : Inv k pool live) (low : minShift ≤ shift) (fits : Fits k shift) :
    allocShift k shift pool = some (pool, none) ∨
      ∃ pool' p, allocShift k shift pool = some (pool', some p) ∧ Inv k pool' (p :: live) := by
  unfold allocShift
  split
  · rename_i some_page
    right
    cases list : pool.slots (shift - minShift) with
    | nil => exact absurd list some_page
    | cons i rest =>
      have member : i ∈ pool.slots (shift - minShift) := by
        rw [list]
        exact List.mem_cons_self
      have owned := inv.slots _ i member
      rw [Nat.sub_add_cancel low] at owned
      obtain ⟨c, inside, clear, taken⟩ :=
        takeSmall_eq fits.words ((inv.pages i shift owned).listed member)
      rw [searchSlot, taken]
      exact ⟨_, _, rfl, inv.taken owned inside clear⟩
  · cases done : allocPage pool.free with
    | none => exact Or.inl rfl
    | some result =>
      obtain ⟨runs, i⟩ := result
      exact Or.inr ⟨_, _, rfl, inv.fresh low fits done⟩

theorem Inv.release (inv : Inv k pool live) (member : p ∈ live) :
    ∃ pool', freeSmall k pool p = some pool' ∧ Inv k pool' (live.filter fun q => q ≠ p) := by
  obtain ⟨i, shift, c, owned, behind, inside, rfl⟩ := inv.chunks p member
  have bits := inv.pages i shift owned
  have fits := bits.fits
  obtain ⟨isPage, multiple, isChunk⟩ := chunkAddr_spec (i := i) fits inside
  have set : (pool.mem i (c / 64)).getLsbD (c % 64) = true :=
    (bits.used c inside).mpr (Or.inr member)
  unfold freeSmall
  simp only [isPage, owned, multiple, isChunk, set, if_true, ne_eq, not_true_eq_false, if_false,
    Option.map_some]
  set linked := pool.relink (shift - minShift) i
  obtain ⟨slab, free, mem, slots⟩ := relink_spec pool (shift - minShift) i
  have cleared : linked.setWord i (c / 64) (linked.mem i (c / 64) &&& ~~~(1#64 <<< (c % 64))) =
      linked.mark i c false := rfl
  rw [cleared]
  set freed := linked.mark i c false with freed_eq
  have others : ∀ p, p ≠ chunkAddr k i shift c →
      (p ∈ live.filter (fun q => q ≠ chunkAddr k i shift c) ↔ p ∈ live) := by
    intro p differ
    simp [differ]
  have sameMem : freed.mem = (pool.mark i c false).mem := by
    rw [freed_eq, Pool.mark, Pool.mark, Pool.setWord, Pool.setWord, mem]
  have inv' : Inv k freed (live.filter fun q => q ≠ chunkAddr k i shift c) := by
    refine inv.change owned inside behind ⟨bits.low, fits, ?_, ?_⟩ slab free ?_ slots others
    · rw [sameMem]
      exact bits.mark inside behind (by simp) others
    · intro _
      exact ⟨c, inside, by rw [sameMem, bit_mark, if_pos ⟨rfl, rfl⟩]⟩
    · intro j differ
      funext n
      rw [sameMem, Pool.mark, setWord_mem, if_neg fun both => differ both.1]
  have owned' : freed.slab i = some shift := by
    rw [freed_eq, mark_slab, slab, owned]
  have rest := @behind_iff _ (freed.mem i) _ _ (behindBitmap_bit _ fits.first)
    (by have := fits.first; omega) fits.some_words
  rw [← fits.words] at rest
  by_cases first : freed.mem i 0 &&& behindBitmap (bitmapChunks k shift) ≠ 0
  · exact ⟨freed, by rw [if_pos first], inv'⟩
  · by_cases later : ∃ m < mapWords k shift, 1 ≤ m ∧ freed.mem i m ≠ 0
    · exact ⟨freed, by rw [if_neg first, if_pos later], inv'⟩
    · exact ⟨_, by rw [if_neg first, if_neg later],
        inv'.freePage owned' fun some_chunk => (rest.mp some_chunk).elim first later⟩

end Steps

/-- A pool with the chunks that are in use. -/
structure World where
  pool : Pool
  live : List Nat

inductive Op where
  | alloc (size : Nat)
  | free (p : Nat)

def step (k : Nat) (world : World) : Op → Option World
  | .alloc size =>
    (allocSmall k world.pool size).map fun
      | (pool, some p) => ⟨pool, p :: world.live⟩
      | (pool, none) => ⟨pool, world.live⟩
  | .free p =>
    (freeSmall k world.pool p).map fun pool => ⟨pool, world.live.filter fun q => q ≠ p⟩

/-- The sizes are small and permitted, and each pointer is freed once. -/
def Legal (k : Nat) (Permitted : Nat → Prop) (world : World) : Op → Prop
  | .alloc size => Permitted size ∧ Small k size
  | .free p => p ∈ world.live

section Runs

variable {k : Nat} {Permitted : Nat → Prop} {pool : Pool} {live : List Nat}

theorem initPool_inv (pages : Nat) (mem : Nat → Nat → Word) : Inv k (initPool pages mem) [] where
  pages i shift owned := by cases owned
  slots slot i member := by cases member
  distinct := by
    simpa [freePages, initPool] using @List.nodup_range' 0 pages 1
  free _ _ := rfl
  chunks p member := by cases member

theorem Inv.step (inv : Inv k pool live) (low : 12 ≤ k) (high : k ≤ 16)
    (covered : ∀ size, Permitted size → Small k size → Covered k size) {op : Op}
    (legal : Legal k Permitted ⟨pool, live⟩ op) :
    ∃ world, step k ⟨pool, live⟩ op = some world ∧ Inv k world.pool world.live := by
  cases op with
  | alloc size =>
    obtain ⟨permitted, small⟩ := legal
    obtain ⟨_, atLeast, small_class⟩ := small.bounds low high
    have short := (bitmapChunks_covered_iff low high small).mpr (covered size permitted small)
    rcases inv.alloc atLeast (fits_of_short low high atLeast small_class short) with
      out | ⟨pool', p, done, inv'⟩
    · exact ⟨⟨pool, live⟩, by rw [SlabSizes.step, allocSmall, out]; rfl, inv⟩
    · exact ⟨⟨pool', p :: live⟩, by rw [SlabSizes.step, allocSmall, done]; rfl, inv'⟩
  | free p =>
    obtain ⟨pool', done, inv'⟩ := inv.release legal
    exact ⟨⟨pool', _⟩, by rw [SlabSizes.step, done]; rfl, inv'⟩

theorem Inv.run (inv : Inv k pool live) (low : 12 ≤ k) (high : k ≤ 16)
    (covered : ∀ size, Permitted size → Small k size → Covered k size) (ops : List Op)
    (legal : Lib.Meets (SlabSizes.step k) (Legal k Permitted) ⟨pool, live⟩ ops) :
    ∃ final, Lib.run (SlabSizes.step k) ⟨pool, live⟩ ops = some final ∧
      Inv k final.pool final.live := by
  induction ops generalizing pool live with
  | nil => exact ⟨⟨pool, live⟩, rfl, inv⟩
  | cons op rest ih =>
    obtain ⟨world, stepped, inv'⟩ := inv.step low high covered legal.1
    obtain ⟨final, ran, done⟩ := ih inv' (legal.2 world stepped)
    refine ⟨final, ?_, done⟩
    rw [Lib.run_cons, stepped]
    exact ran

theorem Inv.not_overlaps (inv : Inv k pool live) {p : Nat} (member : p ∈ live) :
    ¬OverlapsBitmap k pool p := by
  obtain ⟨i, shift, c, owned, behind, inside, rfl⟩ := inv.chunks p member
  have fits := (inv.pages i shift owned).fits
  rintro ⟨other, owned', within⟩
  rw [(chunkAddr_spec fits inside).1] at owned' within
  rw [owned, Option.some.injEq] at owned'
  subst owned'
  have start : bitmapChunks k shift * 2 ^ shift ≤ c * 2 ^ shift := Nat.mul_le_mul_right _ behind
  have bitmap := fits.bitmap
  rw [chunkAddr, Nat.shiftLeft_eq c] at within
  omega

end Runs

theorem second_overlaps {k shift : Nat}
    (long : (k, shift) ∈ [(14, 3), (15, 3), (16, 3), (16, 4)]) : ∃ one p two q,
      allocShift k shift (initPool 1 fun _ _ => 0) = some (one, some p) ∧
      allocShift k shift one = some (two, some q) ∧ OverlapsBitmap k two q := by
  simp only [List.mem_cons, Prod.mk.injEq, List.not_mem_nil, or_false] at long
  rcases long with ⟨rfl, rfl⟩ | ⟨rfl, rfl⟩ | ⟨rfl, rfl⟩ | ⟨rfl, rfl⟩
  · exact ⟨_, _, _, _, rfl, rfl, 3, rfl, by decide⟩
  · exact ⟨_, _, _, _, rfl, rfl, 3, rfl, by decide⟩
  · exact ⟨_, _, _, _, rfl, rfl, 3, rfl, by decide⟩
  · exact ⟨_, _, _, _, rfl, rfl, 4, rfl, by decide⟩

theorem long_class {k size : Nat} (low : 12 ≤ k) (high : k ≤ 16) (small : Small k size)
    (uncovered : ¬Covered k size) :
    (k, sizeShift size) ∈ [(14, 3), (15, 3), (16, 3), (16, 4)] := by
  obtain ⟨short, atLeast, _⟩ := small.bounds low high
  have within := (Slab.sizeShift_bounds short).2
  have three := within 3 (by decide)
  have four := within 4 (by decide)
  simp only [Covered] at uncovered
  simp only [List.mem_cons, Prod.mk.injEq, List.not_mem_nil, or_false]
  simp only [minShift] at atLeast
  omega

/-- In all runs with the sizes of a set no chunk in use meets the bitmap of its page, if and only if
no bitmap of these sizes takes 32 chunks or more. -/
theorem bitmaps_apart_iff (k : Nat) (low : 12 ≤ k) (high : k ≤ 16) (Permitted : Nat → Prop) :
    (∀ (pages : Nat) (mem : Nat → Nat → Word) (ops : List Op),
      Lib.Meets (step k) (Legal k Permitted) ⟨initPool pages mem, []⟩ ops →
      ∃ final, Lib.run (step k) ⟨initPool pages mem, []⟩ ops = some final ∧
        ∀ p ∈ final.live, ¬OverlapsBitmap k final.pool p) ↔
      ∀ size, Permitted size → Small k size → Covered k size := by
  constructor
  · intro apart size permitted small
    by_contra uncovered
    obtain ⟨one, p, two, q, first, second, overlaps⟩ :=
      second_overlaps (long_class low high small uncovered)
    have stepOne : step k ⟨initPool 1 fun _ _ => 0, []⟩ (.alloc size) = some ⟨one, [p]⟩ := by
      rw [step, allocSmall, first]
      rfl
    have stepTwo : step k ⟨one, [p]⟩ (.alloc size) = some ⟨two, [q, p]⟩ := by
      rw [step, allocSmall, second]
      rfl
    obtain ⟨final, ran, clear⟩ := apart 1 (fun _ _ => 0) [.alloc size, .alloc size]
      ⟨⟨permitted, small⟩, fun _ _ => ⟨⟨permitted, small⟩, fun _ _ => trivial⟩⟩
    rw [Lib.run_cons, stepOne, Option.bind_some, Lib.run_cons, stepTwo, Option.bind_some,
      Lib.run_nil, Option.some.injEq] at ran
    subst ran
    exact clear q List.mem_cons_self overlaps
  · intro covered pages mem ops legal
    obtain ⟨final, ran, inv⟩ := (initPool_inv pages mem).run low high covered ops legal
    exact ⟨final, ran, fun p member => inv.not_overlaps member⟩

/-- With pages of 16384 bytes the sizes from 9 on stay off the bitmaps. -/
theorem bitmaps_apart_nine :
    (∀ (pages : Nat) (mem : Nat → Nat → Word) (ops : List Op),
      Lib.Meets (step 14) (Legal 14 fun size => 8 < size) ⟨initPool pages mem, []⟩ ops →
      ∃ final, Lib.run (step 14) ⟨initPool pages mem, []⟩ ops = some final ∧
        ∀ p ∈ final.live, ¬OverlapsBitmap 14 final.pool p) ∧
      12 ≤ 14 ∧ 14 ≤ 16 :=
  ⟨(bitmaps_apart_iff 14 (by decide) (by decide) fun size => 8 < size).mpr
    (fun _ large _ => Or.inr (Or.inl ⟨by decide, large⟩)), by decide, by decide⟩

/-- With pages of 65536 bytes the second chunk of 8 bytes lies in the bitmap. -/
theorem bitmap_returned :
    ¬∀ (k pages : Nat) (mem : Nat → Nat → Word) (ops : List Op) (final : World), 12 ≤ k → k ≤ 16 →
      Lib.Meets (step k) (Legal k fun _ => True) ⟨initPool pages mem, []⟩ ops →
      Lib.run (step k) ⟨initPool pages mem, []⟩ ops = some final →
      ∀ p ∈ final.live, ¬OverlapsBitmap k final.pool p := by
  intro claim
  have small : Small 16 8 := ⟨by decide, by decide⟩
  obtain ⟨one, p, two, q, first, second, overlaps⟩ :=
    @second_overlaps 16 3 (by decide)
  refine claim 16 1 (fun _ _ => 0) [.alloc 8, .alloc 8] ⟨two, [q, p]⟩ (by decide) (by decide)
    ⟨⟨trivial, small⟩, fun _ _ => ⟨⟨trivial, small⟩, fun _ _ => trivial⟩⟩ ?_ q
    List.mem_cons_self overlaps
  have isShift : sizeShift 8 = 3 := by decide
  rw [Lib.run_cons, step, allocSmall, isShift, first, Option.map_some, Option.bind_some,
    Lib.run_cons, step, allocSmall, isShift, second]
  rfl

end NgxFormal.Core.SlabSizes
