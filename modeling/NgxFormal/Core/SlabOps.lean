import NgxFormal.Core.SlabUse

/-! `ngx_slab_alloc_locked` and `ngx_slab_free_locked` keep the invariant. -/

namespace NgxFormal.Core.Slab

open Function Lib.Ring

section Shift

theorem shiftLoop_spec (fuel s shift : Nat) (enough : s < 2 ^ fuel) :
    ∃ k, shiftLoop fuel s shift = shift + k ∧ s < 2 ^ (k + 1) ∧ (1 ≤ s → 2 ^ k ≤ s) := by
  induction fuel generalizing s shift with
  | zero => exact ⟨0, rfl, by omega, by omega⟩
  | succ fuel ih =>
    rw [shiftLoop]
    by_cases last : s / 2 = 0
    · rw [if_pos last]
      exact ⟨0, rfl, by omega, by omega⟩
    · rw [if_neg last]
      obtain ⟨k, done, below, above⟩ := ih (s / 2) (shift + 1) (by
        rw [Nat.pow_succ] at enough
        omega)
      have above := above (by omega)
      refine ⟨k + 1, by omega, ?_, ?_⟩
      · rw [Nat.pow_succ]
        omega
      · intro _
        rw [Nat.pow_succ]
        omega

theorem sizeShift_bounds {size : Nat} (short : size < 2 ^ 64) :
    minShift ≤ sizeShift size ∧ ∀ j, minShift ≤ j → (sizeShift size ≤ j ↔ size ≤ 2 ^ j) := by
  unfold sizeShift
  by_cases large : size > minSize
  · rw [if_pos large]
    simp only [minSize] at large
    obtain ⟨n, done, below, above⟩ := shiftLoop_spec 64 (size - 1) 1 (by omega)
    have above := above (by omega)
    simp only [done, minShift]
    constructor
    · by_contra lowShift
      have grows : 2 ^ (n + 1) ≤ 2 ^ 3 := Nat.pow_le_pow_right (by decide) (by omega)
      omega
    · intro j _
      constructor
      · intro within
        have grows : 2 ^ (n + 1) ≤ 2 ^ j := Nat.pow_le_pow_right (by decide) (by omega)
        omega
      · intro within
        by_contra long
        have grows : 2 ^ j ≤ 2 ^ n := Nat.pow_le_pow_right (by decide) (by omega)
        omega
  · rw [if_neg large]
    simp only [minSize] at large
    refine ⟨Nat.le_refl _, fun j low => ?_⟩
    have grows : 2 ^ minShift ≤ 2 ^ j := Nat.pow_le_pow_right (by decide) low
    simp only [minShift] at grows low ⊢
    omega

theorem sizeShift_spec {size : Nat} (small : size < maxSize) :
    minShift ≤ sizeShift size ∧ sizeShift size ≤ 11 ∧ size ≤ 2 ^ sizeShift size := by
  simp only [maxSize] at small
  obtain ⟨low, within⟩ := @sizeShift_bounds size (by omega)
  exact ⟨low, (within 11 (by decide)).mpr (by omega), (within _ low).mp (Nat.le_refl _)⟩

end Shift

section Ops

variable {pool pool' : Pool} {lay lay' : Layout} {live live' : Live} {i n p size fuel : Nat}

theorem Inv.live_change (inv : Inv pool lay live)
    (addrs : ∀ i shift c, lay.owner i = .chunks shift → c < chunkCount shift →
      (chunkAddr pool i shift c ∈ live'.addrs ↔ chunkAddr pool i shift c ∈ live.addrs))
    (nodup : live'.addrs.Nodup) (blocks : ∀ block ∈ live', Block pool lay block) :
    Inv pool lay live' :=
  ⟨inv.aligned, inv.room, inv.bound, inv.rings, inv.free, inv.slots,
    fun i shift owned => (inv.chunks i shift owned).congr rfl rfl rfl rfl rfl Iff.rfl
      (fun _ => rfl) fun c within _ => addrs i shift c owned within,
    inv.others, nodup, blocks⟩

theorem Granted.inv (inv : Inv pool lay live) (inv' : Inv pool' lay' live)
    (granted : Granted pool pool' lay lay' i n) (some_pages : 1 ≤ n) (fits : size ≤ n * pagesize) :
    Inv pool' lay' ((pool'.start + i * pagesize, size) :: live) := by
  have first := granted.owned i (Nat.le_refl i) (by omega)
  refine inv'.live_change ?_ ?_ ?_
  · intro j shift c owned within
    have differ : chunkAddr pool' j shift c ≠ pool'.start + i * pagesize := by
      intro same
      have isPage := inv'.chunk_page owned within
      rw [same, pageAddr_page] at isPage
      rw [← isPage, first.2] at owned
      cases owned
    simp [Live.addrs, differ]
  · refine List.nodup_cons.mpr ⟨?_, inv'.nodup⟩
    intro there
    obtain ⟨block, member, same⟩ := List.mem_map.mp there
    refine @Inv.block_not_free _ _ _ inv block member i ?_
    rw [same, granted.start, pageAddr_page]
    exact granted.before i (Nat.le_refl i) (by omega)
  · intro block there
    rcases List.mem_cons.mp there with rfl | old
    · refine .pages some_pages fits ?_ ?_ ?_
      · rw [granted.first]
      · rw [granted.first]
      · intro j low high
        rw [granted.total]
        exact granted.owned j low high
    · exact inv'.blocks block old

theorem allocPages_spec (inv : Inv pool lay live) (enough : lay.total + 1 < fuel)
    (some_pages : 1 ≤ n) (fits : size ≤ n * pagesize) :
    ngxSlabAllocPages fuel pool n = some (pool, none) ∨
      ∃ i pool', ngxSlabAllocPages fuel pool n = some (pool', some i) ∧
        Returned pool pool' lay ((pool'.start + i * pagesize, size) :: live) := by
  rcases ngxSlabAllocPages_spec inv some_pages enough with out | ⟨i, pool', lay', done, inv', granted⟩
  · exact Or.inl out
  · exact Or.inr ⟨i, pool', done, granted.start, granted.stop, lay', granted.total,
      granted.inv inv inv' some_pages fits⟩

theorem freshChunk_spec (inv : Inv pool lay live) (enough : lay.total + 1 < fuel) {shift : Nat}
    (low : minShift ≤ shift) (high : shift ≤ 11) (fits : size ≤ 2 ^ shift)
    (empty : lay.lists (.slot (shift - minShift)) = []) :
    ngxSlabAllocPages fuel pool 1 = some (pool, none) ∨
      ∃ i pool', ngxSlabAllocPages fuel pool 1 = some (pool', some i) ∧
        Returned pool (newPage pool' shift (shift - minShift) i).1 lay
          ((chunkAddr pool' i shift (reserved shift), size) :: live) := by
  rcases ngxSlabAllocPages_spec inv (Nat.le_refl 1) enough with
    out | ⟨i, pool', lay', done, inv', granted⟩
  · exact Or.inl out
  · have first := granted.owned i (Nat.le_refl i) (by omega)
    refine Or.inr ⟨i, pool', done, newPage_start.trans granted.start,
      newPage_stop.trans granted.stop, chunkedLayout lay' i shift, granted.total, ?_⟩
    refine newPage_inv inv' low high first.2 (granted.total ▸ first.1) ?_
      ((granted.slots _).trans empty) fits
    intro block member isPage
    refine @Inv.block_not_free _ _ _ inv block member i ?_
    rw [← granted.start, isPage]
    exact granted.before i (Nat.le_refl i) (by omega)

theorem slotSearch_spec (inv : Inv pool lay live) {shift : Nat} (low : minShift ≤ shift)
    (high : shift ≤ 11) (some_fuel : 0 < fuel) :
    let page := (pool.desc (.slot (shift - minShift))).next
    let found := if (pool.desc page).next ≠ page then searchPages fuel pool shift page else some none
    (lay.lists (.slot (shift - minShift)) = [] ∧ found = some none) ∨
      ∃ i c, lay.owner i = .chunks shift ∧ .page i ∈ lay.lists (.slot (shift - minShift)) ∧
        c < chunkCount shift ∧ chunkUsed pool i shift c = false ∧
        found = (takenPool pool i shift c).map fun pool => some (pool, i, c) := by
  have slot_lt : shift - minShift < 9 := by
    simp only [minShift] at *
    omega
  have head := head_slot slot_lt
  have chain := inv.rings.chain _ head
  cases list : lay.lists (.slot (shift - minShift)) with
  | nil =>
    -- an empty list is the header that points to itself
    rw [list] at chain
    have self : (pool.desc (.slot (shift - minShift))).next = .slot (shift - minShift) := chain
    left
    simp only [self, ne_eq, not_true_eq_false, if_false, and_self]
  | cons r rest =>
    have listed : r ∈ lay.lists (.slot (shift - minShift)) := by
      rw [list]
      exact List.mem_cons_self
    rw [list] at chain
    have first : (pool.desc (.slot (shift - minShift))).next = r := chain.1
    obtain ⟨i, rfl, owned⟩ := inv.slots _ slot_lt r listed
    rw [Nat.sub_add_cancel low] at owned
    have page := inv.chunks i shift owned
    have notSelf : (pool.desc (.page i)).next ≠ .page i := (inv.neighbours head listed).2.2.2
    have free : ∃ c < chunkCount shift, chunkUsed pool i shift c = false := by
      rcases page.listed with ⟨_, free⟩ | ⟨_, outside, _⟩
      · exact free
      · exact absurd listed outside
    obtain ⟨k, rfl⟩ : ∃ k, fuel = k + 1 := ⟨fuel - 1, by omega⟩
    obtain ⟨c, within, clear, found⟩ := searchPages_eq k low high page.tagged free
    right
    refine ⟨i, c, owned, list ▸ listed, within, clear, ?_⟩
    rw [first, if_pos notSelf, found]

theorem ngxSlabAllocLocked_spec (inv : Inv pool lay live) (enough : lay.total + 1 < fuel)
    (noWrap : size + pagesize < 2 ^ 64) :
    ngxSlabAllocLocked fuel pool size = some (pool, none) ∨
      ∃ p pool', ngxSlabAllocLocked fuel pool size = some (pool', some p) ∧
        Returned pool pool' lay ((p, size) :: live) := by
  unfold ngxSlabAllocLocked
  by_cases large : size ≥ maxSize
  · simp only [if_pos large]
    simp only [pagesize, maxSize, pagesizeShift] at noWrap large ⊢
    have pages : ((size + 4096 - 1) % 2 ^ 64) >>> 12 = (size + 4095) / 4096 := by
      rw [Nat.shiftRight_eq_div_pow]
      omega
    rw [pages]
    rcases @allocPages_spec pool lay live _ size fuel inv enough
        (show 1 ≤ (size + 4095) / 4096 by omega) (by simp only [pagesize]; omega) with
      out | ⟨i, pool', done, returned⟩
    · exact Or.inl (by rw [out]; rfl)
    · refine Or.inr ⟨_, pool', by rw [done]; rfl, ?_⟩
      simp only [Nat.shiftLeft_eq]
      exact returned
  · obtain ⟨low, high, fits⟩ := sizeShift_spec (Nat.lt_of_not_ge large)
    simp only [if_neg large]
    set shift := sizeShift size
    have searched := @slotSearch_spec pool lay live fuel inv shift low high (by omega)
    simp only at searched
    rcases searched with ⟨empty, found⟩ | ⟨i, c, owned, listed, within, clear, found⟩
    · rw [found, Option.bind_some]
      rcases freshChunk_spec inv enough low high fits empty with out | ⟨i, pool', done, returned⟩
      · exact Or.inl (by rw [out]; rfl)
      · refine Or.inr ⟨_, _, by rw [done]; rfl, ?_⟩
        rw [newPage_chunk]
        have addr : chunkAddr (newPage pool' shift (shift - minShift) i).1 i shift (reserved shift) =
            chunkAddr pool' i shift (reserved shift) := by
          rw [chunkAddr, chunkAddr, newPage_start]
        rw [addr]
        exact returned
    · obtain ⟨pool', taken, returned⟩ := takenPool_spec inv owned listed within clear fits
      rw [found, taken]
      refine Or.inr ⟨_, pool', rfl, ?_⟩
      have addr : chunkAddr pool' i shift c = chunkAddr pool i shift c := by
        rw [chunkAddr, chunkAddr, returned.1]
      rw [addr]
      exact returned

theorem pageStart_spec (some_pages : 1 ≤ n) (bound : n < 2 ^ 52) :
    BitVec.ofNat 64 n ||| pageStart ≠ 0 ∧ BitVec.ofNat 64 n ||| pageStart ≠ busyWord ∧
      ((BitVec.ofNat 64 n ||| pageStart) &&& ~~~pageStart).toNat = n := by
  have startBit : ∀ j < 64, pageStart.getLsbD j = decide (j = 63) := by decide
  have short (j : Nat) (high : 52 ≤ j) : n.testBit j = false :=
    Nat.testBit_lt_two_pow (Nat.lt_of_lt_of_le bound (Nat.pow_le_pow_right (by decide) high))
  refine ⟨?_, ?_, ?_⟩
  · rw [Lib.Bitmap.ne_zero_iff]
    exact ⟨63, by decide, by rw [BitVec.getLsbD_or, startBit 63 (by decide)]; simp⟩
  · rw [Ne, eq_busyWord_iff]
    intro all
    have bit := all 60 (by decide)
    rw [BitVec.getLsbD_or, startBit 60 (by decide), BitVec.getLsbD_ofNat, short 60 (by decide)] at bit
    cases bit
  · have same : (BitVec.ofNat 64 n ||| pageStart) &&& ~~~pageStart = BitVec.ofNat 64 n := by
      apply BitVec.eq_of_getLsbD_eq
      intro j within
      rw [BitVec.getLsbD_and, BitVec.getLsbD_or, BitVec.getLsbD_not, startBit j within,
        BitVec.getLsbD_ofNat]
      by_cases last : j = 63
      · rw [last, short 63 (by decide)]
        rfl
      · simp [last, within]
    rw [same, BitVec.toNat_ofNat]
    exact Nat.mod_eq_of_lt (by omega)

theorem Inv.block_room (inv : Inv pool lay live) {block : Nat × Nat} (inside : block ∈ live) :
    pool.start ≤ block.1 ∧ block.1 + block.2 ≤ pool.start + lay.total * pagesize := by
  cases inv.blocks block inside with
  | @pages k n size some_pages fits slab next owner =>
    have last := (owner (k + n - 1) (by omega) (by omega)).1
    have within : (k + n) * pagesize ≤ lay.total * pagesize :=
      Nat.mul_le_mul_right _ (by omega)
    rw [Nat.add_mul] at within
    exact ⟨by omega, by simp only; omega⟩
  | @chunk k s c size owner behind within fits =>
    have page := inv.chunks k s owner
    have total : (k + 1) * pagesize ≤ lay.total * pagesize := Nat.mul_le_mul_right _ page.inside
    have room := (chunk_room page.low page.high).1
    have chunks : (c + 1) * 2 ^ s ≤ chunkCount s * 2 ^ s := Nat.mul_le_mul_right _ within
    rw [Nat.add_mul, Nat.one_mul] at total chunks
    have isPage : k <<< pagesizeShift = k * pagesize := Nat.shiftLeft_eq k 12
    simp only [chunkAddr, isPage, Nat.shiftLeft_eq c s]
    exact ⟨by omega, by omega⟩

theorem freePage_eq (inv : Inv pool lay live) (some_pages : 1 ≤ n)
    (slab : (pool.desc (.page i)).slab = BitVec.ofNat 64 n ||| pageStart) (bound : n < 2 ^ 52) :
    freePage pool i (pool.start + i * pagesize) = ngxSlabFreePages pool i n := by
  obtain ⟨notZero, notBusy, isCount⟩ := pageStart_spec some_pages bound
  have multiple : (pool.start + i * pagesize) % pagesize = 0 := by
    rw [Nat.add_mul_mod_self_right]
    exact inv.aligned
  unfold freePage
  simp only [slab, multiple, notZero, notBusy, ne_eq, not_true_eq_false, false_or, if_false, isCount]

/-- `case NGX_SLAB_PAGE` for a block of pages. -/
theorem freePage_spec (inv : Inv pool lay live) (some_pages : 1 ≤ n)
    (slab : (pool.desc (.page i)).slab = BitVec.ofNat 64 n ||| pageStart)
    (next : (pool.desc (.page i)).next = .null)
    (owned : ∀ j, i ≤ j → j < i + n → j < lay.total ∧ lay.owner j = .busy i) :
    ∃ pool', freePage pool i (pool.start + i * pagesize) = some pool' ∧
      Returned pool pool' lay (live.without (pool.start + i * pagesize)) := by
  have bound := inv.bound
  have within := (owned (i + n - 1) (by omega) (by omega)).1
  have inv' : Inv pool lay (live.without (pool.start + i * pagesize)) := by
    refine inv.live_change ?_ (Live.nodup_without inv.nodup _) ?_
    · intro j shift c chunks inside
      have differ : chunkAddr pool j shift c ≠ pool.start + i * pagesize := by
        intro same
        have isPage := inv.chunk_page chunks inside
        rw [same, pageAddr_page] at isPage
        rw [← isPage, (owned i (Nat.le_refl i) (by omega)).2] at chunks
        cases chunks
      rw [Live.mem_without]
      simp [differ]
    · intro block there
      exact inv.blocks block (Live.of_without there).1
  have unused : Unused pool lay (live.without (pool.start + i * pagesize)) i n := by
    refine ⟨some_pages, fun j low high => (owned j low high).1,
      Or.inl fun j low high => (owned j low high).2, ?_⟩
    rintro block there ⟨low, high⟩
    -- the only block of these pages is the one that goes
    have owner := (owned _ low high).2
    cases inv'.blocks block there with
    | @pages k m size some_pages' fits slab' next' owned' =>
      rw [pageAddr_page] at owner
      rw [(owned' k (Nat.le_refl k) (by omega)).2, Owner.busy.injEq] at owner
      exact (Live.of_without there).2 (by rw [owner])
    | @chunk k s c size chunks behind inside fits =>
      rw [inv.chunk_page chunks inside, chunks] at owner
      cases owner
  rw [freePage_eq inv some_pages slab (by omega)]
  exact freeBlock_spec inv' unused (fun j low high => (owned j low high).2) next

/-- `case NGX_SLAB_SMALL`, `case NGX_SLAB_EXACT` and `case NGX_SLAB_BIG` for a chunk. -/
theorem freeChunk_eq (inv : Inv pool lay live) {shift c : Nat} (owned : lay.owner i = .chunks shift)
    (inside : c < chunkCount shift) (used : chunkUsed pool i shift c = true)
    (within : chunkAddr pool i shift c ≤ pool.stop) :
    ngxSlabFreeLocked pool (chunkAddr pool i shift c) = freedPool pool i shift c := by
  have page := inv.chunks i shift owned
  have isPage := (@chunkAddr_spec pool i shift c inv.aligned page.low page.high inside).2.2.2
  have guarded : ¬(chunkAddr pool i shift c < pool.start ∨ chunkAddr pool i shift c > pool.stop) := by
    have low : pool.start ≤ chunkAddr pool i shift c := by
      rw [chunkAddr, Nat.add_assoc]
      exact Nat.le_add_right _ _
    omega
  unfold ngxSlabFreeLocked
  simp only [if_neg guarded, isPage, page.type, pageType]
  by_cases small : shift < exactShift
  · rw [if_pos small]
    exact freeSmall_eq inv.aligned page.low small inside page.tagged used
  · rw [if_neg small]
    by_cases exact : shift = exactShift
    · rw [if_pos exact]
      subst exact
      refine freeExact_eq inv.aligned inside used ?_
      rcases page.listed with ⟨listed, d, within, clear⟩ | ⟨isNull, _, full⟩
      · have real : (pool.desc (.page i)).next ≠ .null :=
          (inv.neighbours (head_slot page.slot_lt) listed).1
        refine ⟨fun isNull => absurd isNull real, fun full => ?_⟩
        rw [full d within] at clear
        cases clear
      · exact ⟨fun _ => full, fun _ => isNull⟩
    · rw [if_neg exact]
      exact freeBig_eq inv.aligned (by omega) page.high inside page.tagged used

/-- A block of pages is freed in `case NGX_SLAB_PAGE`. -/
theorem freeLocked_page (inv : Inv pool lay live) (owner : lay.owner i = .busy i)
    (within : pool.start + i * pagesize ≤ pool.stop) :
    ngxSlabFreeLocked pool (pool.start + i * pagesize) = freePage pool i (pool.start + i * pagesize) := by
  have guarded : ¬(pool.start + i * pagesize < pool.start ∨ pool.start + i * pagesize > pool.stop) := by omega
  have isPage : (pool.start + i * pagesize - pool.start) >>> pagesizeShift = i := by
    rw [Nat.shiftRight_eq_div_pow]
    exact pageAddr_page pool.start i
  have type : (pool.desc (.page i)).prev.type = .page := by
    apply inv.others
    intro shift
    rw [owner]
    simp
  unfold ngxSlabFreeLocked
  simp only [if_neg guarded, isPage, type]

theorem ngxSlabFreeLocked_spec (inv : Inv pool lay live) (member : p ∈ live.addrs) :
    ∃ pool', ngxSlabFreeLocked pool p = some pool' ∧ Returned pool pool' lay (live.without p) := by
  obtain ⟨block, inside, rfl⟩ := List.mem_map.mp member
  obtain ⟨low, high⟩ := inv.block_room inside
  have room := inv.room
  cases inv.blocks block inside with
  | @pages k n size some_pages fits slab next owner =>
    rw [freeLocked_page inv (owner k (Nat.le_refl k) (by omega)).2 (by omega)]
    exact freePage_spec inv some_pages slab next owner
  | @chunk k s c size owner behind within fits =>
    have used : chunkUsed pool k s c = true :=
      ((inv.chunks k s owner).used c within).mpr (Or.inr member)
    rw [freeChunk_eq inv owner within used (by omega)]
    exact freedPool_spec inv owner within behind

end Ops

end NgxFormal.Core.Slab
