import NgxFormal.Core.Palloc

/-! What every sequence of calls keeps: the results of a pool and its descriptors are apart. -/

namespace NgxFormal.Core.Palloc

open Lib Lib.Region

section Large

variable {p n : Nat} {large next : List Large}

/-- The allocations in a list of descriptors. -/
def allocs (large : List Large) : List Nat := (large.map Large.alloc).filter (· ≠ 0)

theorem allocs_cons (l : Large) (large : List Large) :
    allocs (l :: large) = if l.alloc ≠ 0 then l.alloc :: allocs large else allocs large := by
  unfold allocs
  by_cases some_alloc : l.alloc ≠ 0
  · rw [if_pos some_alloc, List.map_cons, List.filter_cons_of_pos (by simpa using some_alloc)]
  · rw [if_neg some_alloc, List.map_cons, List.filter_cons_of_neg (by simpa using some_alloc)]

theorem reuseLarge_spec (some_alloc : p ≠ 0) (reused : reuseLarge p n large = some next) :
    next.map Large.addr = large.map Large.addr ∧ (allocs next).Perm (p :: allocs large) := by
  induction large generalizing n next with
  | nil => cases reused
  | cons l rest ih =>
    rw [reuseLarge] at reused
    by_cases free : l.alloc = 0
    · rw [if_pos free] at reused
      cases reused
      rw [allocs_cons, if_pos some_alloc, allocs_cons, if_neg (not_not.mpr free)]
      exact ⟨rfl, List.Perm.refl _⟩
    · rw [if_neg free] at reused
      by_cases last : n > 3
      · rw [if_pos last] at reused
        cases reused
      · rw [if_neg last] at reused
        obtain ⟨next, inRest, rfl⟩ := Option.map_eq_some_iff.mp reused
        obtain ⟨addrs, perm⟩ := ih inRest
        rw [allocs_cons, if_pos free, allocs_cons, if_pos free, List.map_cons, List.map_cons, addrs]
        exact ⟨rfl, (perm.cons _).trans (List.Perm.swap _ _ _)⟩

theorem freeLarge_spec (freed : freeLarge p large = some next) :
    next.map Large.addr = large.map Large.addr ∧
      (allocs large).Perm (if p ≠ 0 then p :: allocs next else allocs next) := by
  induction large generalizing next with
  | nil => cases freed
  | cons l rest ih =>
    rw [freeLarge] at freed
    by_cases here : p = l.alloc
    · rw [if_pos here] at freed
      cases freed
      have after : allocs ({ l with alloc := 0 } :: rest) = allocs rest := by
        rw [allocs_cons]
        exact if_neg (not_not.mpr rfl)
      rw [after, allocs_cons, here]
      exact ⟨rfl, List.Perm.refl _⟩
    · rw [if_neg here] at freed
      obtain ⟨next, inRest, rfl⟩ := Option.map_eq_some_iff.mp freed
      obtain ⟨addrs, perm⟩ := ih inRest
      rw [List.map_cons, List.map_cons, addrs]
      refine ⟨rfl, ?_⟩
      rw [allocs_cons, allocs_cons]
      by_cases some_alloc : l.alloc ≠ 0
      · rw [if_pos some_alloc, if_pos some_alloc]
        by_cases null : p ≠ 0
        · rw [if_pos null] at perm ⊢
          exact (perm.cons _).trans (List.Perm.swap _ _ _)
        · rw [if_neg null] at perm ⊢
          exact perm.cons _
      · rw [if_neg some_alloc, if_neg some_alloc]
        exact perm

theorem freeLarge_isSome (p : Nat) (large : List Large) :
    (freeLarge p large).isSome = true ↔ ∃ l ∈ large, l.alloc = p := by
  induction large with
  | nil => simp [freeLarge]
  | cons l rest ih =>
    rw [freeLarge]
    by_cases here : p = l.alloc
    · rw [if_pos here]
      simp [here]
    · rw [if_neg here, Option.isSome_map, ih]
      simp [Ne.symm here]

theorem mem_allocs : p ∈ allocs large ↔ p ≠ 0 ∧ ∃ l ∈ large, l.alloc = p := by
  simp [allocs, and_comm]

end Large

def bigs (live : List Result) : List Nat := (live.filter Result.large).map fun r => r.region.start

def smalls (live : List Result) : List Region := (live.filter fun r => !r.large).map Result.region

def larges (large : List Large) : List Region := large.map fun l => ⟨l.addr, sizeofPoolLarge⟩

theorem larges_congr {large large' : List Large} (same : large'.map Large.addr = large.map Large.addr) :
    larges large' = larges large := by
  have both := congrArg (List.map fun addr => (⟨addr, sizeofPoolLarge⟩ : Region)) same
  rw [List.map_map, List.map_map] at both
  exact both

/-- The invariant of a run. -/
structure Inv (psize : Nat) (s : State) : Prop where
  held : Held psize s.heap s.pool (larges s.pool.large ++ smalls s.live)
  bigIn : ∀ r ∈ s.live, r.large = true → ⟨r.region.start, max r.region.size 1⟩ ∈ s.heap ∧
    ∀ b ∈ s.pool.spans, b.addr ≠ r.region.start
  listed : (allocs s.pool.large).Perm (bigs s.live)
  once : (bigs s.live).Nodup
  aligned : ∀ r ∈ s.live, r.aligned = true → 8 ∣ r.region.start

section Steps

variable {psize size p alignment : Nat} {s : State} {pool : Pool} {offers : List Nat} {heap : List Region}
  {aligned : Bool} {r : Result}

theorem mem_bigs {live : List Result} :
    p ∈ bigs live ↔ ∃ r ∈ live, r.large = true ∧ r.region.start = p := by
  simp [bigs, and_assoc]

theorem Inv.big_ne (inv : Inv psize s) (fresh : Fresh s.heap alignment ⟨p, max size 1⟩) :
    p ∉ bigs s.live ∧ ∀ b ∈ s.pool.spans, b.addr ≠ p := by
  have apart := fresh.2.2.2
  have some_size : 0 < max size 1 := by omega
  constructor
  · intro member
    obtain ⟨r, inLive, large, rfl⟩ := mem_bigs.mp member
    exact (apart _ (inv.bigIn r inLive large).1).start_ne some_size (by show 0 < max _ 1; omega) rfl
  · intro b member same
    obtain ⟨inHeap, _⟩ := inv.held.sound.blockIn b member
    exact (apart _ inHeap).start_ne some_size (inv.held.sound.heapSome _ inHeap).2.1 same.symm

theorem Inv.grown (inv : Inv psize s) (grows : Grows s.heap heap s.pool pool) (r : Result)
    (member : r ∈ s.live) (large : r.large = true) :
    ⟨r.region.start, max r.region.size 1⟩ ∈ heap ∧ ∀ b ∈ pool.spans, b.addr ≠ r.region.start := by
  obtain ⟨inHeap, apart⟩ := inv.bigIn r member large
  refine ⟨grows.kept _ inHeap, ?_⟩
  intro b inside same
  rcases grows.blocks b inside with ⟨c, old, addr⟩ | new
  · exact apart c old (addr.trans same)
  · exact new _ inHeap same.symm

theorem Inv.small (inv : Inv psize s) (fits : size ≤ s.pool.max) :
    Inv psize (s.returned size aligned false (pallocSmall aligned ⟨s.heap, offers⟩ s.pool size)) := by
  obtain ⟨memory', pool', p, done, grows, result⟩ :=
    @Held.pallocSmall psize size ⟨s.heap, offers⟩ s.pool _ aligned inv.held fits
  rw [done, State.returned]
  rcases result with ⟨rfl, same, rfl⟩ | ⟨positive, held, multiple⟩
  · rw [if_pos rfl, same]
    exact ⟨inv.held, inv.bigIn, inv.listed, inv.once, inv.aligned⟩
  · rw [if_neg (by omega)]
    refine ⟨?_, ?_, ?_, inv.once, ?_⟩
    · show Held psize _ pool' (larges pool'.large ++ ⟨p, size⟩ :: smalls s.live)
      rw [grows.large]
      exact held.perm List.perm_middle.symm
    · intro r member large
      rcases List.mem_cons.mp member with rfl | old
      · cases large
      · exact inv.grown grows r old large
    · show (allocs pool'.large).Perm (bigs s.live)
      rw [grows.large]
      exact inv.listed
    · intro r member isAligned
      rcases List.mem_cons.mp member with rfl | old
      · exact multiple isAligned
      · exact inv.aligned r old isAligned

theorem Inv.attach {large : List Large} (inv : Inv psize s)
    (fresh : Fresh s.heap alignment ⟨p, max size 1⟩)
    (grows : Grows (⟨p, max size 1⟩ :: s.heap) heap s.pool pool)
    (held : Held psize heap pool (larges large ++ smalls s.live))
    (listed : (allocs large).Perm (p :: allocs s.pool.large)) (multiple : aligned = true → 8 ∣ p) :
    Inv psize ⟨heap, { pool with large := large }, ⟨⟨p, size⟩, aligned, true⟩ :: s.live⟩ := by
  obtain ⟨notBig, apart⟩ := inv.big_ne fresh
  have grows' : Grows s.heap heap s.pool pool := by
    refine ⟨grows.large, grows.max, fun region member => grows.kept _ (List.mem_cons_of_mem _ member), ?_⟩
    intro b member
    rcases grows.blocks b member with old | new
    · exact Or.inl old
    · exact Or.inr fun region old => new region (List.mem_cons_of_mem _ old)
  refine ⟨⟨held.sound, held.current, held.max, held.multiple⟩, ?_, listed.trans (inv.listed.cons p),
    List.nodup_cons.mpr ⟨notBig, inv.once⟩, ?_⟩
  · intro r member isLarge
    rcases List.mem_cons.mp member with rfl | old
    · refine ⟨grows.kept _ List.mem_cons_self, ?_⟩
      intro b inside same
      rcases grows.blocks b inside with ⟨c, old, addr⟩ | new
      · exact apart c old (addr.trans same)
      · exact new _ List.mem_cons_self same.symm
    · exact inv.grown grows' r old isLarge
  · intro r member isAligned
    rcases List.mem_cons.mp member with rfl | old
    · exact multiple isAligned
    · exact inv.aligned r old isAligned

theorem Inv.given (inv : Inv psize s) (fresh : Fresh s.heap alignment ⟨p, max size 1⟩) :
    Held psize (⟨p, max size 1⟩ :: s.heap) s.pool (larges s.pool.large ++ smalls s.live) :=
  ⟨inv.held.sound.given fresh (by omega), inv.held.current, inv.held.max, inv.held.multiple⟩

theorem Inv.addLarge (inv : Inv psize s) (fresh : Fresh s.heap alignment ⟨p, max size 1⟩)
    (multiple : aligned = true → 8 ∣ p) :
    Inv psize (s.returned size aligned true
      (addLarge ⟨⟨p, max size 1⟩ :: s.heap, offers⟩ s.pool p)) := by
  obtain ⟨memory', pool', large, done, grows, result⟩ :=
    @Held.pallocSmall psize sizeofPoolLarge ⟨⟨p, max size 1⟩ :: s.heap, offers⟩ s.pool _ true
      (inv.given fresh) s.pool.room
  have positive : p ≠ 0 := Nat.ne_of_gt fresh.1
  rw [Palloc.addLarge, done]
  rcases result with ⟨rfl, same, rfl⟩ | ⟨some_large, held, _⟩
  · have heap : (memory'.free p).heap = s.heap := by
      show memory'.heap.eraseP (fun block => block.start == p) = s.heap
      rw [same]
      exact List.eraseP_cons_of_pos (beq_self_eq_true p)
    dsimp only
    rw [if_pos rfl, State.returned, if_pos rfl, heap]
    exact inv
  · dsimp only
    rw [if_neg (by omega), State.returned, if_neg positive]
    refine inv.attach fresh grows ?_ ?_ multiple
    · rw [grows.large]
      exact held
    · rw [allocs_cons, if_pos positive, grows.large]

theorem Inv.pallocLarge (inv : Inv psize s) :
    Inv psize (s.returned size aligned true (ngxPallocLarge ⟨s.heap, offers⟩ s.pool size)) := by
  rw [ngxPallocLarge]
  rcases Memory.give_cases ⟨s.heap, offers⟩ ngxAlignment size with ⟨none, same⟩ | ⟨p, given, fresh, heap⟩
  · dsimp only
    rw [if_pos none, State.returned, if_pos rfl, same]
    exact inv
  · have positive : p ≠ 0 := Nat.ne_of_gt fresh.1
    have multiple : 8 ∣ p := Nat.dvd_of_mod_eq_zero fresh.2.1
    generalize Memory.give ⟨s.heap, offers⟩ ngxAlignment size = result at given heap
    obtain ⟨⟨heap', offers'⟩, p'⟩ := result
    dsimp only at given heap ⊢
    subst given heap
    rw [if_neg positive]
    cases reused : reuseLarge p' 0 s.pool.large with
    | some large =>
      obtain ⟨addrs, listed⟩ := reuseLarge_spec positive reused
      rw [State.returned, if_neg positive]
      refine inv.attach fresh (Grows.refl _ _) ?_ listed fun _ => multiple
      rw [larges_congr addrs]
      exact inv.given fresh
    | none => exact inv.addLarge fresh fun _ => multiple

theorem Inv.pmemalign (inv : Inv psize s) :
    Inv psize (s.returned size false true (ngxPmemalign ⟨s.heap, offers⟩ s.pool size alignment)) := by
  rw [ngxPmemalign]
  rcases Memory.give_cases ⟨s.heap, offers⟩ alignment size with ⟨none, same⟩ | ⟨p, given, fresh, heap⟩
  · dsimp only
    rw [if_pos none, State.returned, if_pos rfl, same]
    exact inv
  · generalize Memory.give ⟨s.heap, offers⟩ alignment size = result at given heap
    obtain ⟨⟨heap', offers'⟩, p'⟩ := result
    dsimp only at given heap ⊢
    subst given heap
    rw [if_neg (Nat.ne_of_gt fresh.1)]
    exact inv.addLarge fresh fun absurd => by cases absurd

theorem Inv.palloc (inv : Inv psize s) :
    Inv psize (s.returned size aligned (s.pool.max < size) (palloc aligned ⟨s.heap, offers⟩ s.pool size)) := by
  rw [Palloc.palloc]
  by_cases fits : size ≤ s.pool.max
  · rw [if_pos fits, decide_eq_false (Nat.not_lt.mpr fits)]
    exact inv.small fits
  · rw [if_neg fits, decide_eq_true (Nat.lt_of_not_le fits)]
    exact inv.pallocLarge

theorem Held.freed {small : List Region} (held : Held psize heap pool small)
    (apart : ∀ b ∈ pool.spans, b.addr ≠ p) :
    Held psize (heap.eraseP fun block => block.start == p) pool small := by
  obtain ⟨sound, current, limit, multiple⟩ := held
  have part : List.Sublist (heap.eraseP fun block => block.start == p) heap := List.eraseP_sublist
  refine ⟨⟨sound.heapApart.sublist part, fun region member => sound.heapSome region (part.subset member),
    ?_, sound.once, sound.smallIn, sound.smallApart⟩, current, limit, multiple⟩
  intro b member
  obtain ⟨inHeap, rest⟩ := sound.blockIn b member
  refine ⟨?_, rest⟩
  rw [List.mem_eraseP_of_neg (by simpa using apart b member)]
  exact inHeap

/-- What `ngx_pfree` takes out of the live results. -/
def freedResult (p : Nat) (r : Result) : Bool := r.large && r.region.start == p

theorem smalls_freed (p : Nat) (live : List Result) : smalls (live.eraseP (freedResult p)) = smalls live := by
  induction live with
  | nil => rfl
  | cons r rest ih =>
    by_cases here : freedResult p r = true
    · rw [List.eraseP_cons_of_pos here]
      have large : r.large = true := (Bool.and_eq_true _ _ ▸ here).1
      unfold smalls
      rw [List.filter_cons_of_neg (by simp [large])]
    · rw [List.eraseP_cons_of_neg here]
      unfold smalls at ih ⊢
      rw [List.filter_cons, List.filter_cons]
      split
      · rw [List.map_cons, List.map_cons, ih]
      · exact ih

theorem bigs_cons (r : Result) (live : List Result) :
    bigs (r :: live) = if r.large then r.region.start :: bigs live else bigs live := by
  unfold bigs
  rw [List.filter_cons]
  split
  · rfl
  · rfl

theorem bigs_freed {live : List Result} (member : p ∈ bigs live) :
    (bigs live).Perm (p :: bigs (live.eraseP (freedResult p))) := by
  induction live with
  | nil => cases member
  | cons r rest ih =>
    by_cases here : freedResult p r = true
    · obtain ⟨large, start⟩ : r.large = true ∧ r.region.start = p := by simpa [freedResult] using here
      rw [List.eraseP_cons_of_pos here, bigs_cons, if_pos large, start]
    · rw [List.eraseP_cons_of_neg here]
      rw [bigs_cons] at member ⊢
      rw [bigs_cons]
      by_cases large : r.large = true
      · rw [if_pos large] at member ⊢
        rw [if_pos large]
        have other : p ≠ r.region.start := fun same => here (by simp [freedResult, large, same])
        exact ((ih ((List.mem_cons.mp member).resolve_left other)).cons _).trans (List.Perm.swap _ _ _)
      · rw [if_neg large] at member ⊢
        rw [if_neg large]
        exact ih member

theorem Inv.pfree (inv : Inv psize s) : Inv psize (perform s offers (.pfree p)) := by
  rw [perform, ngxPfree]
  cases freed : freeLarge p s.pool.large with
  | none => exact inv
  | some large =>
    obtain ⟨addrs, listed⟩ := freeLarge_spec freed
    have inList : ∃ l ∈ s.pool.large, l.alloc = p := by
      rw [← freeLarge_isSome, freed]
      rfl
    have isBig : p ∈ bigs s.live ↔ p ≠ 0 := by
      rw [← inv.listed.mem_iff, mem_allocs]
      exact ⟨And.left, fun positive => ⟨positive, inList⟩⟩
    have apart : ∀ b ∈ s.pool.spans, b.addr ≠ p := by
      intro b member
      by_cases null : p = 0
      · rw [null]
        exact Nat.ne_of_gt (inv.held.sound.heapSome _ (inv.held.sound.blockIn b member).1).1
      · obtain ⟨r, inLive, isLarge, rfl⟩ := mem_bigs.mp (isBig.mpr null)
        exact (inv.bigIn r inLive isLarge).2 b member
    have rest : (allocs large).Perm (bigs (s.live.eraseP (freedResult p))) ∧
        (bigs (s.live.eraseP (freedResult p))).Nodup ∧ p ∉ bigs (s.live.eraseP (freedResult p)) := by
      by_cases null : p = 0
      · have notBig : p ∉ bigs s.live := fun member => isBig.mp member null
        have same : s.live.eraseP (freedResult p) = s.live := by
          refine List.eraseP_of_forall_not fun r member here => notBig ?_
          obtain ⟨isLarge, start⟩ : r.large = true ∧ r.region.start = p := by
            simpa [freedResult] using here
          exact mem_bigs.mpr ⟨r, member, isLarge, start⟩
        rw [if_neg (not_not.mpr null)] at listed
        rw [same]
        exact ⟨listed.symm.trans inv.listed, inv.once, notBig⟩
      · have perm := bigs_freed (isBig.mpr null)
        have once := inv.once
        rw [perm.nodup_iff, List.nodup_cons] at once
        rw [if_pos null] at listed
        exact ⟨((listed.symm.trans inv.listed).trans perm).cons_inv, once.2, once.1⟩
    obtain ⟨listed', once, gone⟩ := rest
    have part : List.Sublist (s.live.eraseP (freedResult p)) s.live := List.eraseP_sublist
    refine ⟨?_, ?_, listed', once, fun r member => inv.aligned r (part.subset member)⟩
    · show Held psize _ _ (larges large ++ smalls (s.live.eraseP (freedResult p)))
      rw [larges_congr addrs, smalls_freed]
      have kept := inv.held.freed apart
      exact ⟨kept.sound, kept.current, kept.max, kept.multiple⟩
    · intro r member isLarge
      obtain ⟨inHeap, others⟩ := inv.bigIn r (part.subset member) isLarge
      refine ⟨?_, others⟩
      have other : r.region.start ≠ p := fun same => gone (mem_bigs.mpr ⟨r, member, isLarge, same⟩)
      show _ ∈ s.heap.eraseP fun block => block.start == p
      rw [List.mem_eraseP_of_neg (by simpa using other)]
      exact inHeap

theorem Inv.perform (inv : Inv psize s) (call : Call) : Inv psize (perform s offers call) := by
  cases call with
  | palloc size => exact inv.palloc
  | pnalloc size => exact inv.palloc
  | pcalloc size => exact inv.palloc
  | pmemalign size alignment => exact inv.pmemalign
  | pfree p => exact inv.pfree

theorem Inv.performAll (inv : Inv psize s) (calls : List (List Nat × Call)) :
    Inv psize (performAll s calls) := by
  induction calls generalizing s with
  | nil => exact inv
  | cons call rest ih => exact ih (inv.perform call.2)

end Steps

/-- The result lies in one block of the pool, or is an allocation of the system. -/
def Placed (s : State) (r : Result) : Prop :=
  (∃ b ∈ s.pool.blocks, ⟨b.addr, b.stop - b.addr⟩ ∈ s.heap ∧ r.region.Within ⟨b.addr, b.stop - b.addr⟩) ∨
    ⟨r.region.start, max r.region.size 1⟩ ∈ s.heap

section Results

variable {psize : Nat} {s : State} {r other : Result}

theorem Inv.small_held (inv : Inv psize s) (member : r ∈ s.live) (isSmall : r.large = false) :
    ∃ b ∈ s.pool.spans, Within r.region ⟨b.addr, psize⟩ := by
  have inSmall : r.region ∈ headers s.pool.spans ++ (larges s.pool.large ++ smalls s.live) := by
    refine List.mem_append_right _ (List.mem_append_right _ (List.mem_map_of_mem ?_))
    exact List.mem_filter.mpr ⟨member, by rw [isSmall]; rfl⟩
  obtain ⟨b, inside, _, _, within⟩ := inv.held.sound.small_within inSmall
  exact ⟨b, inside, within⟩

theorem within_max (a : Region) : Within a ⟨a.start, max a.size 1⟩ := by
  refine ⟨Nat.le_refl _, ?_⟩
  unfold stop
  dsimp only
  omega

theorem Inv.placed (inv : Inv psize s) (member : r ∈ s.live) : Placed s r := by
  cases isLarge : r.large with
  | true => exact Or.inr (inv.bigIn r member isLarge).1
  | false =>
    obtain ⟨b, inside, within⟩ := inv.small_held member isLarge
    obtain ⟨inHeap, stop, _⟩ := inv.held.sound.blockIn b inside
    obtain ⟨block, inBlocks, rfl⟩ := List.mem_map.mp inside
    have size : block.stop - block.addr = psize := by
      rw [stop]
      exact Nat.add_sub_cancel_left _ _
    refine Or.inl ⟨block, inBlocks, ?_⟩
    rw [size]
    exact ⟨inHeap, within⟩

theorem Inv.big_apart (inv : Inv psize s) (member : r ∈ s.live) (isLarge : r.large = true) {b : Span}
    (inside : b ∈ s.pool.spans) {region : Region} (within : Within region ⟨b.addr, psize⟩) :
    Region.Apart r.region region := by
  obtain ⟨inHeap, others⟩ := inv.bigIn r member isLarge
  have apart : Region.Apart ⟨r.region.start, max r.region.size 1⟩ ⟨b.addr, psize⟩ := by
    refine apart_of_mem inv.held.sound.heapApart inHeap (inv.held.sound.blockIn b inside).1 ?_
    intro same
    exact others b inside (Region.mk.inj same).1.symm
  exact apart.within (within_max _) within

theorem Inv.apart (inv : Inv psize s) : s.live.Pairwise fun a b => a.region.Apart b.region := by
  have smallApart : (smalls s.live).Pairwise Region.Apart :=
    inv.held.sound.smallApart.sublist
      ((List.sublist_append_right _ _).trans (List.sublist_append_right _ _))
  have both := (List.pairwise_filter.mp (List.pairwise_map.mp smallApart)).and
    (List.pairwise_filter.mp (List.pairwise_map.mp inv.once))
  refine both.imp_of_mem ?_
  intro a b memberA memberB ⟨small, big⟩
  cases largeA : a.large with
  | false =>
    cases largeB : b.large with
    | false => exact small (by rw [largeA]; rfl) (by rw [largeB]; rfl)
    | true =>
      obtain ⟨block, inside, within⟩ := inv.small_held memberA largeA
      exact (inv.big_apart memberB largeB inside within).symm
  | true =>
    cases largeB : b.large with
    | false =>
      obtain ⟨block, inside, within⟩ := inv.small_held memberB largeB
      exact inv.big_apart memberA largeA inside within
    | true =>
      have different := big largeA largeB
      have apart : Region.Apart ⟨a.region.start, max a.region.size 1⟩ ⟨b.region.start, max b.region.size 1⟩ :=
        apart_of_mem inv.held.sound.heapApart (inv.bigIn a memberA largeA).1
          (inv.bigIn b memberB largeB).1 fun same => different (Region.mk.inj same).1
      exact apart.within (within_max _) (within_max _)

theorem Inv.descriptors_apart (inv : Inv psize s) (member : r ∈ s.live) {d : Region}
    (isDescriptor : d ∈ s.pool.descriptors) : r.region.Apart d := by
  have sound := inv.held.sound
  rw [← List.append_assoc] at sound
  have isDescriptor' : d ∈ headers s.pool.spans ++ larges s.pool.large := isDescriptor
  cases isLarge : r.large with
  | true =>
    obtain ⟨b, inside, _, _, within⟩ := sound.small_within (List.mem_append_left _ isDescriptor')
    exact inv.big_apart member isLarge inside within
  | false =>
    have inSmall : r.region ∈ smalls s.live :=
      List.mem_map_of_mem (List.mem_filter.mpr ⟨member, by rw [isLarge]; rfl⟩)
    exact ((List.pairwise_append.mp sound.smallApart).2.2 d isDescriptor' _ inSmall).symm

theorem Inv.pfree_iff (inv : Inv psize s) (offers : List Nat) (p : Nat) :
    (ngxPfree ⟨s.heap, offers⟩ s.pool p).2.2 = true ↔
      (∃ r ∈ s.live, r.large = true ∧ r.region.start = p) ∨ p = 0 ∧ ∃ l ∈ s.pool.large, l.alloc = 0 := by
  have rc : (ngxPfree ⟨s.heap, offers⟩ s.pool p).2.2 = (freeLarge p s.pool.large).isSome := by
    rw [ngxPfree]
    cases freeLarge p s.pool.large with
    | none => rfl
    | some large => rfl
  rw [rc, freeLarge_isSome, ← mem_bigs, ← inv.listed.mem_iff, mem_allocs]
  by_cases null : p = 0
  · simp [null]
  · simp [null]

end Results

theorem create_spec {pagesize size offer : Nat} (pages : pagesize = 0 ∨ 16 < pagesize ∧ pagesize < 2 ^ 64)
    (multiple : 16 ∣ size) (large : sizeofPool + sizeofPoolLarge < size)
    (fresh : Fresh [] ngxPoolAlignment ⟨offer, size⟩) :
    ∃ s, create pagesize size offer = some s ∧ Inv size s := by
  have sizes : max size 1 = size := by omega
  have room : sizeofPoolLarge ≤ min (size - sizeofPool) (ngxMaxAllocFromPool pagesize) := by
    unfold ngxMaxAllocFromPool
    simp only [sizeofPool, sizeofPoolLarge] at large ⊢
    omega
  have given : Memory.give ⟨[], [offer]⟩ ngxPoolAlignment size = (⟨[⟨offer, size⟩], []⟩, offer) := by
    rw [Memory.give, sizes]
    exact if_pos fresh
  obtain ⟨positive, onAlignment, limit, _⟩ := fresh
  rw [create, ngxCreatePool, given]
  dsimp only
  rw [if_neg (Nat.ne_of_gt positive), dif_pos room]
  refine ⟨_, rfl, ⟨⟨?_, Nat.one_pos, ?_, multiple⟩, ?_, List.Perm.nil, List.nodup_nil, ?_⟩⟩
  · refine ⟨List.pairwise_singleton _ _, ?_, ?_, List.nodup_cons.mpr ⟨List.not_mem_nil, List.nodup_nil⟩,
      ?_, List.pairwise_singleton _ _⟩
    · intro region member
      obtain rfl := List.mem_singleton.mp member
      exact ⟨positive, by show 0 < size; omega, limit⟩
    · intro b member
      obtain rfl := List.mem_singleton.mp member
      have onSixteen : offer % 16 = 0 := onAlignment
      refine ⟨List.mem_singleton_self _, rfl, Nat.le_add_right _ _, ?_, ?_⟩
      · show offer + sizeofPool ≤ offer + size
        omega
      · show 16 ∣ offer + size
        omega
    · intro region member
      obtain rfl := List.mem_singleton.mp member
      exact ⟨_, List.mem_singleton_self _, Nat.le_refl _, Nat.le_refl _⟩
  · show min (size - sizeofPool) _ + sizeofPool ≤ size
    omega
  · exact fun _ absurd => by cases absurd
  · exact fun _ absurd => by cases absurd

/-- Whatever is called, the live results of a pool lie in its blocks or are allocations of the system,
apart from each other and from the descriptors, and aligned for `ngx_palloc`; `ngx_pfree` frees exactly
the large ones, and also finds `NULL` in the descriptor of a freed one. -/
theorem pool_sound (pagesize size offer : Nat) (pages : pagesize = 0 ∨ 16 < pagesize ∧ pagesize < 2 ^ 64)
    (multiple : 16 ∣ size) (large : sizeofPool + sizeofPoolLarge < size)
    (fresh : Fresh [] ngxPoolAlignment ⟨offer, size⟩) (calls : List (List Nat × Call)) :
    ∃ start, create pagesize size offer = some start ∧
      let s := performAll start calls
      (∀ r ∈ s.live, Placed s r) ∧ (s.live.Pairwise fun a b => a.region.Apart b.region) ∧
        (∀ r ∈ s.live, ∀ d ∈ s.pool.descriptors, r.region.Apart d) ∧
        (∀ r ∈ s.live, r.aligned = true → ngxAlignment ∣ r.region.start) ∧
        ∀ offers p, (ngxPfree ⟨s.heap, offers⟩ s.pool p).2.2 = true ↔
          (∃ r ∈ s.live, r.large = true ∧ r.region.start = p) ∨
            p = 0 ∧ ∃ l ∈ s.pool.large, l.alloc = 0 := by
  obtain ⟨start, created, inv⟩ := create_spec pages multiple large fresh
  have final := inv.performAll calls
  exact ⟨start, created, fun r => final.placed, final.apart, fun r member d => final.descriptors_apart member,
    final.aligned, final.pfree_iff⟩

/-- A pool of 112 bytes: a small result, a large one that is freed, and one that is not. -/
def someCalls : List (List Nat × Call) :=
  [([], .palloc 10), ([4096], .pcalloc 100), ([], .pfree 4096), ([8192], .pnalloc 50)]

theorem pool_sound_112 :
    ∃ start, create 4096 112 1024 = some start ∧ (performAll start someCalls).live.length = 2 ∧
      (performAll start someCalls).live.Pairwise fun a b => a.region.Apart b.region := by
  obtain ⟨start, created, sound⟩ := pool_sound 4096 112 1024 (by decide) (by decide) (by decide)
    (by decide) someCalls
  refine ⟨start, created, ?_, sound.2.1⟩
  have length : (create 4096 112 1024).map (fun start => (performAll start someCalls).live.length) =
      some 2 := by
    decide +kernel
  rw [created] at length
  exact Option.some.inj length

def freedCalls : List (List Nat × Call) := [([4096], .palloc 100), ([], .pfree 4096)]

/-- Once a large result has been freed, `ngx_pfree(pool, NULL)` returns `NGX_OK`. -/
theorem pfree_null :
    ¬∀ (pagesize size offer : Nat) (calls : List (List Nat × Call)) (start : State),
      16 ∣ size → sizeofPool + sizeofPoolLarge < size → create pagesize size offer = some start →
      let s := performAll start calls
      ∀ offers p, (ngxPfree ⟨s.heap, offers⟩ s.pool p).2.2 = true ↔
        ∃ r ∈ s.live, r.large = true ∧ r.region.start = p := by
  intro claim
  obtain ⟨start, created⟩ : ∃ start, create 4096 112 1024 = some start :=
    Option.isSome_iff_exists.mp (by decide +kernel)
  have both := claim 4096 112 1024 freedCalls start (by decide) (by decide) created [] 0
  have result : (create 4096 112 1024).map (fun start =>
      ((ngxPfree ⟨(performAll start freedCalls).heap, []⟩ (performAll start freedCalls).pool 0).2.2,
        (performAll start freedCalls).live)) = some (true, []) := by
    decide +kernel
  rw [created, Option.map_some, Option.some.injEq, Prod.mk.injEq] at result
  obtain ⟨ok, none⟩ := result
  rw [ok, none] at both
  obtain ⟨r, member, _⟩ := both.mp rfl
  cases member

end NgxFormal.Core.Palloc
