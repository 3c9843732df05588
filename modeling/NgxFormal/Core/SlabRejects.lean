import NgxFormal.Core.SlabHeads

/-! What `ngx_slab_free_locked` reports, and which pointers it refuses in a pool after any calls. -/

namespace NgxFormal.Core.Slab

open Function Lib.Ring

/-- The texts of `ngx_slab_error` in `ngx_slab_free_locked`. -/
inductive Report where
  | outside
  | wrongChunk
  | chunkFree
  | pageFree
  | wrongPage
  deriving DecidableEq, Repr

/-- The labels `wrong_chunk` and `chunk_already_free`, for chunks of one size. -/
def reportChunk (shift : Nat) (used : Bool) (p : Nat) : Option Report :=
  if p % (1 <<< shift) ≠ 0 then some .wrongChunk else if used then none else some .chunkFree

/-- `case NGX_SLAB_SMALL` -/
def reportSmall (pool : Pool) (i p : Nat) : Option Report :=
  let shift := ((pool.desc (.page i)).slab &&& shiftMask).toNat
  let chunk := (p % pagesize) >>> shift
  let at_page := p / pagesize - pool.start / pagesize
  reportChunk shift ((pool.mem at_page (chunk / 64)).getLsbD (chunk % 64)) p

/-- `case NGX_SLAB_EXACT` -/
def reportExact (pool : Pool) (i p : Nat) : Option Report :=
  reportChunk exactShift ((pool.desc (.page i)).slab.getLsbD ((p % pagesize) >>> exactShift)) p

/-- `case NGX_SLAB_BIG` -/
def reportBig (pool : Pool) (i p : Nat) : Option Report :=
  let slab := (pool.desc (.page i)).slab
  let shift := (slab &&& shiftMask).toNat
  reportChunk shift (slab.getLsbD ((p % pagesize) >>> shift + 32)) p

/-- `case NGX_SLAB_PAGE` -/
def reportPage (pool : Pool) (i p : Nat) : Option Report :=
  let slab := (pool.desc (.page i)).slab
  if p % pagesize ≠ 0 then some .wrongChunk
  else if slab = 0 then some .pageFree
  else if slab = busyWord then some .wrongPage
  else none

/-- The error that `ngx_slab_free_locked` reports for a pointer, if any. -/
def report (pool : Pool) (p : Nat) : Option Report :=
  if p < pool.start ∨ p > pool.stop then some .outside
  else
    let i := (p - pool.start) >>> pagesizeShift
    match (pool.desc (.page i)).prev.type with
    | .small => reportSmall pool i p
    | .exact => reportExact pool i p
    | .big => reportBig pool i p
    | .page => reportPage pool i p

/-- The number of descriptors that `ngx_slab_init` clears. -/
def descriptors (zone : Zone) : Nat :=
  (zone.stop - (zone.addr + zone.header)) / (pagesize + pageSizeof)

/-- `ngx_slab_free_locked` with what it reports, or `none` where it reads a descriptor behind the
`descs` of the pool. -/
def freeReported (descs : Nat) (pool : Pool) (p : Nat) : Option (Option Report × Pool) :=
  if pool.start ≤ p ∧ p ≤ pool.stop ∧ descs ≤ (p - pool.start) >>> pagesizeShift then none
  else (ngxSlabFreeLocked pool p).map fun freed => (report pool p, freed)

/-- An error is reported and nothing changes. -/
def Rejected (descs : Nat) (pool : Pool) (p : Nat) : Prop :=
  ∃ error, freeReported descs pool p = some (some error, pool)

/-- A chunk that the bitmap of a small page takes. -/
def InBitmap (pool : Pool) (p : Nat) : Prop :=
  let page := pool.desc (.page ((p - pool.start) >>> pagesizeShift))
  let shift := (page.slab &&& shiftMask).toNat
  page.prev.type = .small ∧ p % (1 <<< shift) = 0 ∧ (p % pagesize) >>> shift < bitmapChunks shift

/-- The first page of a free run: its `slab` is the number of pages, without `NGX_SLAB_PAGE_START`. -/
def StartsFreeRun (pool : Pool) (p : Nat) : Prop :=
  let page := pool.desc (.page ((p - pool.start) >>> pagesizeShift))
  page.prev.type = .page ∧ p % pagesize = 0 ∧ page.slab ≠ 0 ∧ page.slab &&& pageStart = 0

def Refusable (descs : Nat) (pool : Pool) (p : Nat) : Prop :=
  p < pool.start ∨ p > pool.stop ∨
    (p - pool.start) >>> pagesizeShift < descs ∧ ¬InBitmap pool p ∧ ¬StartsFreeRun pool p

section Report

variable {pool : Pool} {lay : Layout} {live : Live} {error : Report} {descs i p shift : Nat}

theorem reportChunk_some {used : Bool} (reported : reportChunk shift used p = some error) :
    p % (1 <<< shift) ≠ 0 ∨ ¬used = true := by
  unfold reportChunk at reported
  split at reported
  · rename_i wrong
    exact Or.inl wrong
  · split at reported
    · cases reported
    · rename_i clear
      exact Or.inr clear

theorem report_unchanged (reported : report pool p = some error) :
    ngxSlabFreeLocked pool p = some pool := by
  unfold report at reported
  unfold ngxSlabFreeLocked
  split
  · rfl
  · rename_i within
    rw [if_neg within] at reported
    cases type : (pool.desc (.page ((p - pool.start) >>> pagesizeShift))).prev.type with
    | small =>
      simp only [type] at reported ⊢
      rcases reportChunk_some reported with wrong | clear
      · simp only [freeSmall, if_pos wrong]
      · simp only [freeSmall, if_neg clear, ite_self]
    | exact =>
      simp only [type] at reported ⊢
      rcases reportChunk_some reported with wrong | clear
      · simp only [freeExact, if_pos wrong]
      · simp only [freeExact, if_neg clear, ite_self]
    | big =>
      simp only [type] at reported ⊢
      rcases reportChunk_some reported with wrong | clear
      · simp only [freeBig, if_pos wrong]
      · simp only [freeBig, if_neg clear, ite_self]
    | page =>
      simp only [type] at reported ⊢
      unfold freePage
      unfold reportPage at reported
      dsimp only at reported ⊢
      split at reported
      · rename_i wrong
        rw [if_pos (Or.inl wrong)]
      · split at reported
        · rename_i free
          rw [if_pos (Or.inr (Or.inl free))]
        · split at reported
          · rename_i busy
            rw [if_pos (Or.inr (Or.inr busy))]
          · cases reported

theorem aligned_chunk (aligned : pool.start % pagesize = 0) (low : minShift ≤ shift)
    (high : shift ≤ 11) (within : pool.start ≤ p) (multiple : p % (1 <<< shift) = 0) :
    (p % pagesize) >>> shift < chunkCount shift ∧
      p = chunkAddr pool ((p - pool.start) >>> pagesizeShift) shift ((p % pagesize) >>> shift) := by
  simp only [minShift, pagesize] at low aligned
  interval_cases shift <;>
    simp [chunkAddr, chunkCount, pagesize, pagesizeShift, Nat.shiftLeft_eq,
      Nat.shiftRight_eq_div_pow] at multiple ⊢ <;> omega

theorem page_of_pool (aligned : pool.start % pagesize = 0) (within : pool.start ≤ p) :
    p / pagesize - pool.start / pagesize = (p - pool.start) >>> pagesizeShift := by
  simp only [pagesize, pagesizeShift, Nat.shiftRight_eq_div_pow] at *
  omega

theorem report_chunks (inv : Inv pool lay live) (within : pool.start ≤ p) (inside : p ≤ pool.stop)
    (owned : lay.owner ((p - pool.start) >>> pagesizeShift) = .chunks shift) :
    report pool p = reportChunk shift
      (chunkUsed pool ((p - pool.start) >>> pagesizeShift) shift ((p % pagesize) >>> shift)) p := by
  have page := inv.chunks _ shift owned
  have guarded : ¬(p < pool.start ∨ p > pool.stop) := by omega
  unfold report
  simp only [if_neg guarded, page.type, pageType]
  by_cases small : shift < exactShift
  · rw [if_pos small]
    simp only [reportSmall, slab_shift (Nat.ne_of_lt small) page.high page.tagged, chunkUsed,
      if_pos small, page_of_pool inv.aligned within]
  · rw [if_neg small]
    by_cases exact : shift = exactShift
    · subst exact
      simp only [reportExact, chunkUsed, if_neg small, if_true]
    · rw [if_neg exact]
      simp only [reportBig, slab_shift exact page.high page.tagged, chunkUsed, if_neg small,
        if_neg exact, Nat.add_comm 32]

theorem reportChunk_none {used : Bool} :
    reportChunk shift used p = none ↔ p % (1 <<< shift) = 0 ∧ used = true := by
  unfold reportChunk
  by_cases multiple : p % (1 <<< shift) = 0
  · cases used with
    | false => simp [multiple]
    | true => simp [multiple]
  · simp [multiple]

/-- In a page of chunks only the bitmap passes for blocks in use. -/
theorem report_chunks_none (inv : Inv pool lay live) (within : pool.start ≤ p)
    (inside : p ≤ pool.stop) (stale : p ∉ live.addrs)
    (owned : lay.owner ((p - pool.start) >>> pagesizeShift) = .chunks shift) :
    report pool p = none ↔ InBitmap pool p := by
  have page := inv.chunks _ shift owned
  rw [report_chunks inv within inside owned, reportChunk_none]
  constructor
  · rintro ⟨multiple, used⟩
    obtain ⟨bound, isChunk⟩ := aligned_chunk inv.aligned page.low page.high within multiple
    rw [page.used _ bound, ← isChunk] at used
    have low := used.resolve_right stale
    rw [reserved] at low
    split at low
    · rename_i small
      refine ⟨by rw [page.type, pageType, if_pos small], ?_, ?_⟩
      · rwa [slab_shift (Nat.ne_of_lt small) page.high page.tagged]
      · rwa [slab_shift (Nat.ne_of_lt small) page.high page.tagged]
    · exact absurd low (Nat.not_lt_zero _)
  · rintro ⟨type, multiple, low⟩
    have small : shift < exactShift := by
      by_contra large
      rw [page.type, pageType, if_neg large] at type
      split at type
      · cases type
      · cases type
    rw [slab_shift (Nat.ne_of_lt small) page.high page.tagged] at multiple low
    obtain ⟨bound, _⟩ := aligned_chunk inv.aligned page.low page.high within multiple
    refine ⟨multiple, (page.used _ bound).mpr (Or.inl ?_)⟩
    rwa [reserved, if_pos small]

theorem report_page_none (inv : Inv pool lay live) (heads : HeadsLive pool live)
    (within : pool.start ≤ p) (inside : p ≤ pool.stop) (stale : p ∉ live.addrs)
    (type : (pool.desc (.page ((p - pool.start) >>> pagesizeShift))).prev.type = .page) :
    report pool p = none ↔ StartsFreeRun pool p := by
  have guarded : ¬(p < pool.start ∨ p > pool.stop) := by omega
  unfold report
  simp only [if_neg guarded, type, reportPage]
  constructor
  · intro passed
    split at passed
    · cases passed
    · rename_i multiple
      split at passed
      · cases passed
      · rename_i counted
        split at passed
        · cases passed
        · rename_i notBusy
          rw [not_not] at multiple
          refine ⟨type, multiple, counted, ?_⟩
          by_contra marked
          have isLive := heads _ ⟨type, marked, notBusy⟩
          have addr : pool.start + ((p - pool.start) >>> pagesizeShift) * pagesize = p := by
            have aligned := inv.aligned
            simp only [pagesize, pagesizeShift, Nat.shiftRight_eq_div_pow] at *
            omega
          rw [addr] at isLive
          exact stale isLive
  · rintro ⟨_, multiple, counted, unmarked⟩
    have notBusy : (pool.desc (.page ((p - pool.start) >>> pagesizeShift))).slab ≠ busyWord := by
      intro busy
      rw [busy] at unmarked
      exact absurd unmarked (by decide)
    rw [if_neg (not_not.mpr multiple), if_neg counted, if_neg notBusy]

theorem report_none_iff (inv : Inv pool lay live) (heads : HeadsLive pool live)
    (within : pool.start ≤ p) (inside : p ≤ pool.stop) (stale : p ∉ live.addrs) :
    report pool p = none ↔ InBitmap pool p ∨ StartsFreeRun pool p := by
  by_cases chunks : ∃ shift, lay.owner ((p - pool.start) >>> pagesizeShift) = .chunks shift
  · obtain ⟨shift, owned⟩ := chunks
    rw [report_chunks_none inv within inside stale owned, or_iff_left]
    rintro ⟨type, _⟩
    rw [(inv.chunks _ shift owned).type] at type
    exact pageType_ne_page shift type
  · have type := inv.others _ (not_exists.mp chunks)
    rw [report_page_none inv heads within inside stale type, or_iff_right]
    rintro ⟨isSmall, _⟩
    rw [type] at isSmall
    cases isSmall

theorem rejected_iff (inv : Inv pool lay live) (heads : HeadsLive pool live)
    (stale : p ∉ live.addrs) : Rejected descs pool p ↔ Refusable descs pool p := by
  have reports : Rejected descs pool p ↔
      ¬(pool.start ≤ p ∧ p ≤ pool.stop ∧ descs ≤ (p - pool.start) >>> pagesizeShift) ∧
        ∃ error, report pool p = some error := by
    unfold Rejected freeReported
    constructor
    · rintro ⟨error, done⟩
      split at done
      · cases done
      · rename_i known
        obtain ⟨freed, _, same⟩ := Option.map_eq_some_iff.mp done
        exact ⟨known, error, (Prod.mk.inj same).1⟩
    · rintro ⟨known, error, reported⟩
      exact ⟨error, by rw [if_neg known, report_unchanged reported, Option.map_some, reported]⟩
  rw [reports, ← Option.ne_none_iff_exists']
  by_cases out : p < pool.start ∨ p > pool.stop
  · have outside : report pool p = some .outside := if_pos out
    rw [outside, Refusable, ← or_assoc]
    simp only [out, true_or, ne_eq, reduceCtorEq, not_false_eq_true, and_true, iff_true]
    omega
  · have within : pool.start ≤ p ∧ p ≤ pool.stop := by omega
    rw [Ne, report_none_iff inv heads within.1 within.2 stale, Refusable, ← or_assoc, not_or]
    simp only [out, false_or, within.1, within.2, true_and, Nat.not_le]

end Report

section Runs

variable {pool : Pool} {lay : Layout} {live : Live} {p fuel descs : Nat}

/-- Sizes do not wrap, stores stay in the blocks in use, and a pointer that is freed is in use or
will be refused. -/
def Careful (descs : Nat) (world : World) : Op → Prop
  | .alloc size => Legal world (.alloc size)
  | .free p => Legal world (.free p) ∨ Refusable descs world.pool p
  | .store mem => Legal world (.store mem)

theorem Live.without_stale (stale : p ∉ live.addrs) : live.without p = live := by
  refine List.filter_eq_self.mpr ?_
  intro block inside
  rw [decide_eq_true_iff]
  rintro rfl
  exact stale (List.mem_map_of_mem inside)

theorem HeadsLive.step (heads : HeadsLive pool live) (inv : Inv pool lay live)
    (enough : lay.total + 1 < fuel) {op : Op} (legal : Legal ⟨pool, live⟩ op) {world : World}
    (stepped : step fuel ⟨pool, live⟩ op = some world) : HeadsLive world.pool world.live := by
  cases op with
  | alloc size =>
    rcases ngxSlabAllocLocked_spec inv enough legal with out | ⟨p, pool', done, start, _⟩
    · rw [Slab.step, out] at stepped
      obtain rfl := Option.some.inj stepped
      exact heads
    · rw [Slab.step, done] at stepped
      obtain rfl := Option.some.inj stepped
      exact heads.alloc inv (by omega) legal done start
  | free p =>
    obtain ⟨pool', done, start, _⟩ := ngxSlabFreeLocked_spec inv legal
    rw [Slab.step, done] at stepped
    obtain rfl := Option.some.inj stepped
    exact heads.free inv legal done start
  | store mem =>
    obtain rfl := Option.some.inj stepped
    exact heads

theorem careful_step (inv : Inv pool lay live) (heads : HeadsLive pool live)
    (enough : lay.total + 1 < fuel) {op : Op} (careful : Careful descs ⟨pool, live⟩ op) :
    ∃ world lay', step fuel ⟨pool, live⟩ op = some world ∧ lay'.total = lay.total ∧
      Inv world.pool lay' world.live ∧ HeadsLive world.pool world.live := by
  have regular (legal : Legal ⟨pool, live⟩ op) : ∃ world lay', step fuel ⟨pool, live⟩ op = some world ∧
      lay'.total = lay.total ∧ Inv world.pool lay' world.live ∧ HeadsLive world.pool world.live := by
    obtain ⟨world, lay', stepped, total, inv'⟩ := inv.step enough legal
    exact ⟨world, lay', stepped, total, inv', heads.step inv enough legal stepped⟩
  cases op with
  | alloc size => exact regular careful
  | store mem => exact regular careful
  | free p =>
    by_cases member : p ∈ live.addrs
    · exact regular member
    · obtain ⟨error, done⟩ := (rejected_iff inv heads member).mpr (careful.resolve_left member)
      refine ⟨⟨pool, live⟩, lay, ?_, rfl, inv, heads⟩
      unfold freeReported at done
      split at done
      · cases done
      · obtain ⟨freed, isFreed, same⟩ := Option.map_eq_some_iff.mp done
        obtain rfl := (Prod.mk.inj same).2
        rw [Slab.step, isFreed, Option.map_some, Live.without_stale member]

theorem careful_run (inv : Inv pool lay live) (heads : HeadsLive pool live)
    (enough : lay.total + 1 < fuel) (ops : List Op)
    (careful : Lib.Meets (step fuel) (Careful descs) ⟨pool, live⟩ ops) :
    ∃ final lay', Lib.run (step fuel) ⟨pool, live⟩ ops = some final ∧
      Inv final.pool lay' final.live ∧ HeadsLive final.pool final.live := by
  induction ops generalizing pool lay live with
  | nil => exact ⟨⟨pool, live⟩, lay, rfl, inv, heads⟩
  | cons op rest ih =>
    obtain ⟨world, lay', stepped, total, inv', heads'⟩ := careful_step inv heads enough careful.1
    obtain ⟨final, lay'', ran, done⟩ := ih inv' heads' (total ▸ enough) (careful.2 world stepped)
    refine ⟨final, lay'', ?_, done⟩
    rw [Lib.run_cons, stepped]
    exact ran

end Runs

/-- After any calls, a pointer that is not in use is refused except for the chunks of bitmaps, the
first pages of free runs, and an address whose descriptor is behind the array. -/
theorem free_rejects_iff (zone : Zone) (usable : zone.Usable) (mem : Nat → Nat → Word) (fuel : Nat)
    (enough : (initLayout zone).1 + 1 < fuel) (ops : List Op)
    (careful : Lib.Meets (step fuel) (Careful (descriptors zone)) ⟨ngxSlabInit zone mem, []⟩ ops) :
    ∃ final, Lib.run (step fuel) ⟨ngxSlabInit zone mem, []⟩ ops = some final ∧
      ∀ p, p ∉ final.live.addrs →
        (Rejected (descriptors zone) final.pool p ↔ Refusable (descriptors zone) final.pool p) := by
  obtain ⟨final, lay, ran, inv, heads⟩ := careful_run (ngxSlabInit_inv usable mem)
    (ngxSlabInit_headsLive usable mem) enough ops careful
  exact ⟨final, ran, fun p stale => rejected_iff inv heads stale⟩

/-- A pointer outside of the pool is refused while one chunk is in use. -/
theorem free_rejects_outside :
    let zone : Zone := ⟨65536, 160, 98304⟩
    let start : World := ⟨ngxSlabInit zone fun _ _ => 0, []⟩
    let ops : List Op := [.alloc 10, .free 7]
    Lib.Meets (step 9) (Careful (descriptors zone)) start ops ∧
      ∃ final, Lib.run (step 9) start ops = some final ∧ ∀ p, p ∉ final.live.addrs →
        (Rejected (descriptors zone) final.pool p ↔ Refusable (descriptors zone) final.pool p) := by
  intro zone start ops
  have usable : zone.Usable := ⟨by decide, by decide, by decide, by decide⟩
  have starts : (Lib.run (step 9) start [.alloc 10]).map (fun world => world.pool.start) =
      some 69632 := by decide +kernel
  have careful : Lib.Meets (step 9) (Careful (descriptors zone)) start ops := by
    refine ⟨show 10 + pagesize < 2 ^ 64 by decide, fun one first =>
      ⟨Or.inr (Or.inl ?_), fun _ _ => trivial⟩⟩
    rw [Lib.run_cons, first] at starts
    have isStart : one.pool.start = 69632 := by simpa using starts
    rw [isStart]
    decide
  exact ⟨careful, free_rejects_iff zone usable _ 9 (by decide) ops careful⟩

/-- The address of a page of small chunks is taken for one of its chunks, and a bit of the bitmap
itself is cleared. -/
theorem bitmap_freed :
    ¬∀ (zone : Zone) (_ : zone.Usable) (mem : Nat → Nat → Word) (fuel : Nat) (ops : List Op)
      (final : World), (initLayout zone).1 + 1 < fuel →
      Lib.Meets (step fuel) Legal ⟨ngxSlabInit zone mem, []⟩ ops →
      Lib.run (step fuel) ⟨ngxSlabInit zone mem, []⟩ ops = some final →
      ∀ p, p ∉ final.live.addrs → Rejected (descriptors zone) final.pool p := by
  intro claim
  have ran : (Lib.run (step 9) ⟨ngxSlabInit ⟨65536, 160, 98304⟩ fun _ _ => 0, []⟩ [.alloc 10]).map
      (fun world => (world.live, report world.pool 69632)) = some ([(69664, 10)], none) := by
    decide +kernel
  obtain ⟨final, isFinal, same⟩ := Option.map_eq_some_iff.mp ran
  obtain ⟨isLive, passed⟩ := Prod.mk.inj same
  obtain ⟨error, done⟩ := claim ⟨65536, 160, 98304⟩ ⟨by decide, by decide, by decide, by decide⟩
    (fun _ _ => 0) 9 [.alloc 10] final (by decide)
    ⟨show 10 + pagesize < 2 ^ 64 by decide, fun _ _ => trivial⟩ isFinal 69632
    (by rw [isLive]; decide)
  unfold freeReported at done
  split at done
  · cases done
  · obtain ⟨freed, _, reported⟩ := Option.map_eq_some_iff.mp done
    rw [passed] at reported
    cases (Prod.mk.inj reported).1

end NgxFormal.Core.Slab
