import NgxFormal.Core.SlabRuns

/-! The first pages of blocks of pages: each one belongs to a block in use, after any calls. -/

namespace NgxFormal.Core.Slab

open Function Lib.Ring

/-- The descriptor of a page says that a block of pages starts there. -/
def StartsBlock (pool : Pool) (j : Nat) : Prop :=
  (pool.desc (.page j)).prev.type = .page ∧ (pool.desc (.page j)).slab &&& pageStart ≠ 0 ∧
    (pool.desc (.page j)).slab ≠ busyWord

/-- Every such block is in use. -/
def HeadsLive (pool : Pool) (live : Live) : Prop :=
  ∀ j, StartsBlock pool j → pool.start + j * pagesize ∈ live.addrs

section Heads

variable {pool pool' : Pool} {lay : Layout} {live : Live} {i j n shift chunk fuel : Nat}

theorem and_pageStart (w : Word) : w &&& pageStart ≠ 0 ↔ w.getLsbD 63 = true := by
  have startBit : ∀ k < 64, pageStart.getLsbD k = decide (k = 63) := by decide
  rw [Lib.Bitmap.ne_zero_iff]
  constructor
  · rintro ⟨k, small, set⟩
    rw [BitVec.getLsbD_and, startBit k small, Bool.and_eq_true, decide_eq_true_iff] at set
    rw [← set.2]
    exact set.1
  · intro set
    exact ⟨63, by decide, by rw [BitVec.getLsbD_and, set, startBit 63 (by decide)]; rfl⟩

theorem count_and_pageStart {w : Word} (small : w.toNat < 2 ^ 63) : w &&& pageStart = 0 := by
  by_contra marked
  have set := (and_pageStart w).mp marked
  rw [BitVec.getLsbD, Nat.testBit_lt_two_pow small] at set
  cases set

theorem startsBlock_congr (same : pool'.desc (.page j) = pool.desc (.page j)) :
    StartsBlock pool' j ↔ StartsBlock pool j := by
  rw [StartsBlock, StartsBlock, same]

/-- A page of chunks starts no block, whatever becomes of its bits. -/
theorem ChunkStep.startsBlock {lists : Ref → List Ref} (inv : Inv pool lay live)
    (owned : lay.owner i = .chunks shift) (step : ChunkStep pool pool' lay lists i shift)
    (starts : StartsBlock pool' j) : StartsBlock pool j := by
  obtain ⟨type, marked, notBusy⟩ := starts
  rw [step.type] at type
  have apart : j ≠ i := by
    rintro rfl
    have isType := (inv.chunks j shift owned).type
    rw [type, pageType] at isType
    split at isType
    · cases isType
    · split at isType
      · cases isType
      · cases isType
  rw [step.slab j apart] at marked notBusy
  exact ⟨type, marked, notBusy⟩

/-- `ngx_slab_alloc_pages` starts one block. -/
theorem takePages_startsBlock (inv : Inv pool lay live) (member : .page i ∈ lay.lists .free)
    (some_pages : 1 ≤ n) (taken : takePages pool i n = some pool') (starts : StartsBlock pool' j) :
    StartsBlock pool j ∨ j = i := by
  obtain ⟨carved, list, done, carve⟩ := takePages_carved inv member some_pages
  rw [taken] at done
  obtain rfl := Option.some.inj done
  have run := inv.free_run member
  by_cases first : j = i
  · exact Or.inr first
  · left
    obtain ⟨type, marked, notBusy⟩ := starts
    rw [markTaken, markPages_page, setDesc_desc,
      if_neg (show Ref.page j ≠ .page i by simpa using first)]
      at type marked notBusy
    by_cases inside : i + 1 ≤ j ∧ j < i + 1 + (n - 1)
    · rw [if_pos inside] at notBusy
      exact (notBusy rfl).elim
    · rw [if_neg inside] at type marked notBusy
      by_cases free : .page j ∈ lay.lists .free
      · rw [(carve.runs j free).1] at marked notBusy
        exact ⟨inv.free_type free, marked, notBusy⟩
      · by_cases rest : j = i + n ∧ n < (pool.desc (.page i)).slab.toNat
        · obtain ⟨rfl, more⟩ := rest
          have bound := inv.bound
          have last := (run.run (i + (pool.desc (.page i)).slab.toNat - 1) (by omega) (by omega)).1
          have length := (carve.rest more).1
          exact (marked (count_and_pageStart (by omega))).elim
        · have same := carve.same j free (fun isRest => by
            by_contra more
            exact rest ⟨isRest, by omega⟩)
          rw [same] at type marked notBusy
          exact ⟨type, marked, notBusy⟩

theorem allocPagesLoop_taken (inv : Inv pool lay live) (xs : List Ref) (a : Ref)
    (chain : Chain (linkNext pool) (linkPrev pool) .free a xs)
    (members : ∀ r ∈ xs, r ∈ lay.lists .free)
    (done : allocPagesLoop n fuel pool (linkNext pool a) = some (pool', some i)) :
    .page i ∈ lay.lists .free ∧ takePages pool i n = some pool' := by
  induction xs generalizing a fuel with
  | nil =>
    have ends : linkNext pool a = .free := chain
    rw [ends] at done
    cases fuel with
    | zero => cases done
    | succ fuel => cases done
  | cons r xs ih =>
    obtain ⟨first, _, rest⟩ := chain
    have member := members r List.mem_cons_self
    obtain ⟨k, rfl, _⟩ := inv.free r member
    rw [first] at done
    cases fuel with
    | zero => cases done
    | succ fuel =>
      rw [allocPagesLoop] at done
      split at done
      · obtain ⟨taken, isTaken, same⟩ := Option.map_eq_some_iff.mp done
        obtain ⟨rfl, isPage⟩ := Prod.mk.inj same
        obtain rfl := Option.some.inj isPage
        exact ⟨member, isTaken⟩
      · exact ih (.page k) rest (fun r inside => members r (List.mem_cons_of_mem _ inside)) done

theorem allocPages_startsBlock (inv : Inv pool lay live) (some_pages : 1 ≤ n)
    (done : ngxSlabAllocPages fuel pool n = some (pool', some i)) (starts : StartsBlock pool' j) :
    StartsBlock pool j ∨ j = i := by
  obtain ⟨member, taken⟩ := allocPagesLoop_taken inv (lay.lists .free) .free
    (inv.rings.chain .free (Or.inl rfl)) (fun _ inside => inside) done
  exact takePages_startsBlock inv member some_pages taken starts

theorem pageType_ne_page (shift : Nat) : pageType shift ≠ .page := by
  unfold pageType
  split
  · intro absurd
    cases absurd
  · split
    · intro absurd
      cases absurd
    · intro absurd
      cases absurd

theorem newPage_startsBlock {slot : Nat}
    (starts : StartsBlock (newPage pool shift slot i).1 j) : StartsBlock pool j ∧ j ≠ i := by
  have notSlot : Ref.page j ≠ .slot slot := by simp
  by_cases first : j = i
  · obtain ⟨type, _⟩ := starts
    rw [newPage_desc, if_neg notSlot, if_pos (congrArg Ref.page first)] at type
    exact (pageType_ne_page shift type).elim
  · have same : (newPage pool shift slot i).1.desc (.page j) = pool.desc (.page j) := by
      rw [newPage_desc, if_neg notSlot, if_neg (by simpa using first)]
    exact ⟨(startsBlock_congr same).mp starts, first⟩

theorem Inv.first_free (inv : Inv pool lay live) (isFirst : (pool.desc .free).next = .page j) :
    (pool.desc (.page j)).prev.type = .page := by
  have chain := inv.rings.chain .free (Or.inl rfl)
  cases list : lay.lists .free with
  | nil =>
    rw [list] at chain
    have ends : (pool.desc .free).next = .free := chain
    rw [isFirst] at ends
    cases ends
  | cons r rest =>
    rw [list] at chain
    have first : (pool.desc .free).next = r := chain.1
    rw [isFirst] at first
    obtain rfl := first
    exact inv.free_type (by rw [list]; exact List.mem_cons_self)

/-- The last part of `ngx_slab_free_pages` changes no `slab`, and no type but those of two pages. -/
theorem freePages_startsBlock (count : n < 2 ^ 52)
    (free : ∀ m, (pool.desc .free).next = .page m → (pool.desc (.page m)).prev.type = .page)
    (linked : (pool.desc (.page i)).next ≠ .null →
      (pool.desc (.page i)).prev.type ≠ .page ∧ (pool.desc (.page i)).prev.ref ≠ .free)
    (done : ngxSlabFreePages pool i n = some pool') (starts : StartsBlock pool' j) :
    StartsBlock pool j ∧ j ≠ i := by
  unfold ngxSlabFreePages at done
  set marked := markPages ⟨0, .null, ⟨.null, .page⟩⟩ (i + 1) (n - 1)
    (pool.setSlab (.page i) (BitVec.ofNat 64 n)) with marked_eq
  have atPage : ∀ k, marked.desc (.page k) = if i + 1 ≤ k ∧ k < i + 1 + (n - 1)
      then ⟨0, .null, ⟨.null, .page⟩⟩
      else (pool.setSlab (.page i) (BitVec.ofNat 64 n)).desc (.page k) := fun k =>
    markPages_page _ _ _ _ k
  have atFree : (marked.desc .free).next = (pool.desc .free).next := by
    rw [marked_eq, markPages_other _ _ _ _ (by simp), setSlab_next]
  have atFirst : marked.desc (.page i) = (pool.setSlab (.page i) (BitVec.ofNat 64 n)).desc (.page i) := by
    rw [atPage, if_neg (by omega)]
  dsimp only at done
  obtain ⟨unlinked, isUnlinked, done⟩ := Option.bind_eq_some_iff.mp done
  -- taking the page out of its list changes no `slab`, and makes no page of the type
  obtain ⟨slabs, types, first⟩ : (∀ r, (unlinked.desc r).slab = (marked.desc r).slab) ∧
      (∀ k, k ≠ i → (unlinked.desc (.page k)).prev.type = .page →
        (marked.desc (.page k)).prev.type = .page) ∧
      (unlinked.desc .free).next = (marked.desc .free).next := by
    split at isUnlinked
    · rename_i real
      rw [atFirst, setSlab_next] at real
      obtain ⟨notPage, notFree⟩ := linked real
      unfold Slab.unlink at isUnlinked
      rw [atFirst, setSlab_prev] at isUnlinked
      dsimp only at isUnlinked
      split at isUnlinked
      · cases isUnlinked
      · obtain rfl := Option.some.inj isUnlinked
        refine ⟨fun r => by rw [setPrev_slab, setNext_slab], ?_, ?_⟩
        · intro k _ type
          rw [setPrev_prev, setNext_prev, setNext_prev] at type
          split at type
          · rw [atFirst, setSlab_prev] at type
            exact (notPage type).elim
          · exact type
        · rw [setPrev_next, setNext_next, if_neg (Ne.symm notFree)]
    · obtain rfl := Option.some.inj isUnlinked
      exact ⟨fun _ => rfl, fun _ _ type => type, rfl⟩
  split at done
  · cases done
  · obtain rfl := Option.some.inj done
    obtain ⟨type, set, notBusy⟩ := starts
    simp only [setNext_slab, setPrev_slab, setNext_prev, setPrev_prev, setNext_next, setPrev_next,
      if_true, slabs, first, atFree] at type set notBusy
    have apart : j ≠ i := by
      rintro rfl
      rw [atFirst, setSlab_slab, if_pos rfl] at set
      refine set (count_and_pageStart ?_)
      rw [BitVec.toNat_ofNat, Nat.mod_eq_of_lt (by omega)]
      omega
    have differ : Ref.page j ≠ .page i := by simpa using apart
    have outside : ¬(i + 1 ≤ j ∧ j < i + 1 + (n - 1)) := by
      intro inside
      rw [atPage, if_pos inside] at set
      exact set rfl
    rw [atPage, if_neg outside, setSlab_slab, if_neg differ] at set notBusy
    refine ⟨⟨?_, set, notBusy⟩, apart⟩
    rw [if_neg differ] at type
    split at type
    · rename_i isFirst
      exact free j isFirst.symm
    · have old := types j apart type
      rw [atPage, if_neg outside, setSlab_prev] at old
      exact old

theorem Inv.prev_not_free (inv : Inv pool lay live) {k : Nat} (bound : k < 9)
    (listed : .page i ∈ lay.lists (.slot k)) : (pool.desc (.page i)).prev.ref ≠ .free := by
  have head := head_slot bound
  obtain ⟨front, back, split⟩ := List.append_of_mem listed
  obtain ⟨prevIn, _⟩ := inv.rings.neighbours head split
  intro isFree
  rw [linkPrev, isFree] at prevIn
  rcases List.mem_cons.mp prevIn with absurd | inFront
  · cases absurd
  · obtain ⟨k, isPage⟩ := inv.member_page head
      (show Ref.free ∈ lay.lists (.slot k) by rw [split]; exact List.mem_append_left _ inFront)
    cases isPage

theorem takenPool_startsBlock (inv : Inv pool lay live) (owned : lay.owner i = .chunks shift)
    (listed : .page i ∈ lay.lists (.slot (shift - minShift)))
    (taken : takenPool pool i shift chunk = some pool') (starts : StartsBlock pool' j) :
    StartsBlock pool j := by
  have step := (ChunkStep.refl inv i shift).setChunk chunk true
  unfold takenPool at taken
  dsimp only at taken
  split at taken
  · obtain ⟨out, lists, done, step', _⟩ := step.takeOut inv owned listed
    rw [done] at taken
    obtain rfl := Option.some.inj taken
    exact step'.startsBlock inv owned starts
  · obtain rfl := Option.some.inj taken
    exact step.startsBlock inv owned starts

theorem freedPool_startsBlock (inv : Inv pool lay live) (owned : lay.owner i = .chunks shift)
    (inside : chunk < chunkCount shift) (behind : reserved shift ≤ chunk)
    (freed : freedPool pool i shift chunk = some pool') (starts : StartsBlock pool' j) :
    StartsBlock pool j := by
  obtain ⟨linked, lists, done, step, listed, inv'⟩ := unchunked_spec inv owned inside behind
  unfold freedPool at freed
  simp only [done, Option.bind_some] at freed
  split at freed
  · obtain rfl := Option.some.inj freed
    exact step.startsBlock inv owned starts
  · have page := inv'.chunks i shift owned
    refine step.startsBlock inv owned
      (freePages_startsBlock (by decide) (fun m => inv'.first_free) ?_ freed starts).1
    intro _
    refine ⟨?_, inv'.prev_not_free page.slot_lt listed⟩
    rw [page.type]
    exact pageType_ne_page shift

end Heads

section Runs

variable {pool pool' : Pool} {lay : Layout} {live : Live} {p size fuel : Nat}

theorem ngxSlabInit_headsLive {zone : Zone} (usable : zone.Usable) (mem : Nat → Nat → Word) :
    HeadsLive (ngxSlabInit zone mem) [] := by
  rintro j ⟨_, set, _⟩
  cases j with
  | zero =>
    have bound := (initLayout_spec usable).2.2
    have isCount : ((ngxSlabInit zone mem).desc (.page 0)).slab =
        BitVec.ofNat 64 (initLayout zone).1 := rfl
    rw [isCount] at set
    refine (set (count_and_pageStart ?_)).elim
    rw [BitVec.toNat_ofNat, Nat.mod_eq_of_lt (by omega)]
    omega
  | succ j => exact (set (BitVec.zero_and)).elim

theorem HeadsLive.alloc (heads : HeadsLive pool live) (inv : Inv pool lay live)
    (some_fuel : 0 < fuel) (noWrap : size + pagesize < 2 ^ 64)
    (done : ngxSlabAllocLocked fuel pool size = some (pool', some p))
    (start : pool'.start = pool.start) : HeadsLive pool' ((p, size) :: live) := by
  intro j starts
  rw [start]
  suffices found : StartsBlock pool j ∨ pool.start + j * pagesize = p by
    rcases found with old | isNew
    · exact List.mem_cons_of_mem _ (heads j old)
    · rw [isNew]
      exact List.mem_cons_self
  unfold ngxSlabAllocLocked at done
  by_cases large : size ≥ maxSize
  · simp only [if_pos large] at done
    obtain ⟨result, isResult, same⟩ := Option.map_eq_some_iff.mp done
    obtain ⟨rfl, isAddr⟩ := Prod.mk.inj same
    obtain ⟨i, isPage, rfl⟩ := Option.map_eq_some_iff.mp isAddr
    rw [start, Nat.shiftLeft_eq]
    have some_pages : 1 ≤ ((size + pagesize - 1) % 2 ^ 64) >>> pagesizeShift := by
      simp only [pagesize, maxSize, pagesizeShift, Nat.shiftRight_eq_div_pow] at *
      omega
    rcases allocPages_startsBlock inv some_pages (by rw [isResult, ← isPage]) starts with old | rfl
    · exact Or.inl old
    · exact Or.inr rfl
  · obtain ⟨low, high, _⟩ := sizeShift_spec (Nat.lt_of_not_ge large)
    simp only [if_neg large] at done
    set shift := sizeShift size
    left
    have searched := @slotSearch_spec pool lay live fuel inv shift low high some_fuel
    simp only at searched
    rcases searched with ⟨_, found⟩ | ⟨i, c, owned, listed, _, _, found⟩
    · -- a fresh page is not a block of pages
      rw [found, Option.bind_some] at done
      obtain ⟨result, isResult, same⟩ := Option.map_eq_some_iff.mp done
      obtain ⟨granted, page⟩ := result
      cases page with
      | none => cases same
      | some i =>
        obtain ⟨rfl, _⟩ := Prod.mk.inj same
        obtain ⟨old, apart⟩ := newPage_startsBlock starts
        rcases allocPages_startsBlock inv (Nat.le_refl 1) isResult old with older | first
        · exact older
        · exact (apart first).elim
    · rw [found] at done
      obtain ⟨result, isResult, done⟩ := Option.bind_eq_some_iff.mp done
      obtain ⟨taken, isTaken, rfl⟩ := Option.map_eq_some_iff.mp isResult
      obtain ⟨rfl, _⟩ := Prod.mk.inj (Option.some.inj done)
      exact takenPool_startsBlock inv owned listed isTaken starts

theorem HeadsLive.free (heads : HeadsLive pool live) (inv : Inv pool lay live)
    (member : p ∈ live.addrs) (done : ngxSlabFreeLocked pool p = some pool')
    (start : pool'.start = pool.start) : HeadsLive pool' (live.without p) := by
  intro j starts
  rw [start, Live.mem_without]
  suffices kept : StartsBlock pool j ∧ pool.start + j * pagesize ≠ p from
    ⟨heads j kept.1, kept.2⟩
  obtain ⟨block, inside, rfl⟩ := List.mem_map.mp member
  obtain ⟨low, high⟩ := inv.block_room inside
  have room := inv.room
  cases inv.blocks block inside with
  | @pages k n size some_pages fits slab next owner =>
    have bound := inv.bound
    have within := (owner (k + n - 1) (by omega) (by omega)).1
    rw [freeLocked_page inv (owner k (Nat.le_refl k) (by omega)).2 (by omega), freePage_eq inv some_pages slab (by omega)] at done
    obtain ⟨old, apart⟩ := freePages_startsBlock (by omega) (fun m => inv.first_free)
      (fun real => absurd next real) done starts
    refine ⟨old, ?_⟩
    simpa [pagesize] using apart
  | @chunk k s c size owner behind within fits =>
    have used : chunkUsed pool k s c = true :=
      ((inv.chunks k s owner).used c within).mpr (Or.inr member)
    rw [freeChunk_eq inv owner within used (by omega)] at done
    have old := freedPool_startsBlock inv owner within behind done starts
    refine ⟨old, ?_⟩
    intro same
    have isPage := inv.chunk_page owner within
    change pool.start + j * pagesize = chunkAddr pool k s c at same
    rw [← same, pageAddr_page] at isPage
    subst isPage
    have type := (inv.chunks j s owner).type
    rw [old.1] at type
    exact pageType_ne_page s type.symm

end Runs

end NgxFormal.Core.Slab
