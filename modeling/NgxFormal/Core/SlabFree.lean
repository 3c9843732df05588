import NgxFormal.Core.SlabPages

/-! `ngx_slab_free_pages` keeps the invariant, for a block of pages and for a page whose chunks
are all free. -/

namespace NgxFormal.Core.Slab

open Function Lib.Ring

section Free

variable {pool pool' : Pool} {lay : Layout} {live : Live} {lists : Ref → List Ref} {i n shift : Nat}

/-- The pages from `i` on are in no list any more. -/
structure Detached (pool pool' : Pool) (lay : Layout) (i n : Nat) (lists : Ref → List Ref) :
    Prop where
  rings : Rings (linkNext pool') (linkPrev pool') Head lists
  gone : ∀ k, Head k → .page i ∉ lists k
  free : lists .free = lay.lists .free
  slots : ∀ k j, j ≠ i → (.page j ∈ lists (.slot k) ↔ .page j ∈ lay.lists (.slot k))
  pages : ∀ k r, r ∈ lists (.slot k) → r ∈ lay.lists (.slot k)
  length : (pool'.desc (.page i)).slab = BitVec.ofNat 64 n
  marked : ∀ j, i < j → j < i + n → (pool'.desc (.page j)).prev.type = .page
  same : ∀ j, ¬(i ≤ j ∧ j < i + n) →
    (pool'.desc (.page j)).slab = (pool.desc (.page j)).slab ∧
      (pool'.desc (.page j)).prev.type = (pool.desc (.page j)).prev.type ∧
      ((∀ k < 9, .page j ∉ lay.lists (.slot k)) → .page j ∉ lay.lists .free →
        (pool'.desc (.page j)).next = (pool.desc (.page j)).next)
  mem : pool'.mem = pool.mem
  start : pool'.start = pool.start
  stop : pool'.stop = pool.stop

def freedLayout (lay : Layout) (i n : Nat) (lists : Ref → List Ref) : Layout where
  total := lay.total
  owner j := if i ≤ j ∧ j < i + n then .free i else lay.owner j
  lists := update lists .free (.page i :: lists .free)

/-- The pages may go: they are a block, or one page of chunks, and no block in use is there. -/
structure Unused (pool : Pool) (lay : Layout) (live : Live) (i n : Nat) : Prop where
  some_pages : 1 ≤ n
  inside : ∀ j, i ≤ j → j < i + n → j < lay.total
  owned : (∀ j, i ≤ j → j < i + n → lay.owner j = .busy i) ∨
    n = 1 ∧ ∃ shift, lay.owner i = .chunks shift
  clear : ∀ block ∈ live, ¬(i ≤ (block.1 - pool.start) / pagesize ∧
    (block.1 - pool.start) / pagesize < i + n)

theorem Unused.not_free (unused : Unused pool lay live i n) {j k : Nat} (low : i ≤ j)
    (high : j < i + n) : lay.owner j ≠ .free k := by
  rcases unused.owned with busy | ⟨one, shift, chunks⟩
  · rw [busy j low high]
    simp
  · rw [show j = i by omega, chunks]
    simp

theorem Unused.not_chunks (unused : Unused pool lay live i n) {j : Nat} (after : i < j)
    (high : j < i + n) : lay.owner j ≠ .chunks shift := by
  rcases unused.owned with busy | ⟨one, _⟩
  · rw [busy j (Nat.le_of_lt after) high]
    simp
  · omega

theorem Detached.frame (inv : Inv pool lay live) (unused : Unused pool lay live i n)
    (detached : Detached pool pool' lay i n lists)
    (relinked : Relinked pool' (enlisted pool' .free i .page) (.page i :: lists .free) .page) :
    Frame pool (enlisted pool' .free i .page) lay (freedLayout lay i n lists)
      (fun j => i ≤ j ∧ j < i + n) := by
  have some_pages := unused.some_pages
  refine ⟨rfl, relinked.start.trans detached.start, relinked.stop.trans detached.stop, ?_,
    fun j away => if_neg away, ?_, ?_, ?_, ?_, fun j _ => ?_⟩
  · rintro j k ⟨low, high⟩ away
    rcases unused.owned with busy | ⟨one, shift, chunks⟩
    · rw [busy j low high]
      intro same
      rw [Owner.busy.injEq] at same
      omega
    · rw [show j = i by omega, chunks]
      simp
  · intro k j away
    have apart : Ref.slot k ≠ .free := by simp
    simp only [freedLayout, update_of_ne apart]
    exact detached.slots _ j (by omega)
  · intro j away
    exact (relinked.slab (.page j)).trans (detached.same j away).1
  · intro j away
    rcases relinked.type j with same | ⟨inside, isPage⟩
    · exact same.trans (detached.same j away).2.1
    · rw [isPage]
      rcases List.mem_cons.mp inside with isFirst | inFree
      · cases isFirst
        omega
      · rw [detached.free] at inFree
        exact (inv.free_type inFree).symm
  · intro j away outside
    rw [relinked.same j]
    · exact (detached.same j away).2.2 (fun k bound => outside _ (head_slot bound))
        (outside _ (Or.inl rfl))
    · intro inside
      rcases List.mem_cons.mp inside with isFirst | inFree
      · cases isFirst
        omega
      · rw [detached.free] at inFree
        exact outside _ (Or.inl rfl) inFree
  · rw [relinked.mem, detached.mem]

theorem Detached.inv (inv : Inv pool lay live) (unused : Unused pool lay live i n)
    (detached : Detached pool pool' lay i n lists) :
    Inv (enlisted pool' .free i .page) (freedLayout lay i n lists) live := by
  have head : Head .free := Or.inl rfl
  have freePages : ∀ r ∈ lists .free, ∃ j, r = .page j := by
    intro r inside
    rw [detached.free] at inside
    exact inv.member_page head inside
  obtain ⟨_, _, rings, typeFirst, relinked⟩ :=
    enlisted_spec detached.rings freePages head detached.gone .page
  have frame := detached.frame inv unused relinked
  have some_pages := unused.some_pages
  have within := unused.inside (i + n - 1) (by omega) (by omega)
  have bound := inv.bound
  refine frame.inv inv rings ?_ ?_ ?_ ?_ (fun _ _ _ _ _ _ => Iff.rfl) inv.nodup ?_
  · intro r inside
    simp only [freedLayout, update_self] at inside
    rcases List.mem_cons.mp inside with rfl | old
    · have length : ((enlisted pool' .free i .page).desc (.page i)).slab.toNat = n := by
        rw [relinked.slab, detached.length, BitVec.toNat_ofNat]
        exact Nat.mod_eq_of_lt (by omega)
      refine ⟨i, rfl, Nat.le_of_lt (unused.inside i (by omega) (by omega)),
        if_pos ⟨by omega, by omega⟩, typeFirst, ?_⟩
      intro j low high
      rw [length] at high
      exact ⟨unused.inside j low high, if_pos ⟨low, high⟩⟩
    · rw [detached.free] at old
      obtain ⟨j, rfl, run⟩ := inv.free r old
      exact ⟨j, rfl, frame.free run fun m here => unused.not_free here.1 here.2⟩
  · intro k bound r inside
    have apart : Ref.slot k ≠ .free := by simp
    simp only [freedLayout, update_of_ne apart] at inside
    obtain ⟨j, rfl, owned⟩ := inv.slots k bound r (detached.pages k r inside)
    refine ⟨j, rfl, fun here => ?_⟩
    have first : j ≠ i := by
      rintro rfl
      exact detached.gone _ (head_slot bound) inside
    exact absurd owned (unused.not_chunks (by omega) here.2)
  · intro j shift here owned
    simp only [freedLayout, if_pos here] at owned
    cases owned
  · intro j here _
    by_cases first : j = i
    · rw [first]
      exact typeFirst
    · rcases relinked.type j with same | ⟨_, isPage⟩
      · rw [same]
        exact detached.marked j (by omega) here.2
      · exact isPage
  · intro block inside
    exact Or.inr ⟨inv.blocks block inside, unused.clear block inside⟩

/-- The last part of `ngx_slab_free_pages`. -/
theorem freePages_eq (unlinked : (if (((markPages ⟨0, .null, ⟨.null, .page⟩⟩ (i + 1) (n - 1)
      (pool.setSlab (.page i) (BitVec.ofNat 64 n))).desc (.page i)).next ≠ .null) then
      unlink (markPages ⟨0, .null, ⟨.null, .page⟩⟩ (i + 1) (n - 1)
        (pool.setSlab (.page i) (BitVec.ofNat 64 n))) (.page i)
      else some (markPages ⟨0, .null, ⟨.null, .page⟩⟩ (i + 1) (n - 1)
        (pool.setSlab (.page i) (BitVec.ofNat 64 n)))) = some pool')
    (real : (pool'.desc .free).next ≠ .null) :
    ngxSlabFreePages pool i n = some (enlisted pool' .free i .page) := by
  have apart : Ref.free ≠ .page i := by simp
  unfold ngxSlabFreePages
  simp only [unlinked, Option.bind_some, setNext_next, setPrev_next, if_true, if_neg real]
  congr 1
  ext r : 2
  · ext1
    · simp [enlisted]
    · simp [enlisted]
    · simp only [setPrev_prev, setNext_prev, enlisted]
  · rfl
  · rfl
  · rfl

theorem detach_block (inv : Inv pool lay live)
    (inside : ∀ j, i ≤ j → j < i + n → lay.owner j = .busy i) (some_pages : 1 ≤ n) :
    Detached pool (markPages ⟨0, .null, ⟨.null, .page⟩⟩ (i + 1) (n - 1)
      (pool.setSlab (.page i) (BitVec.ofNat 64 n))) lay i n lay.lists := by
  have noList {j : Nat} (low : i ≤ j) (high : j < i + n) {k : Ref} (head : Head k) :
      .page j ∉ lay.lists k := by
    have owned := inside j low high
    exact inv.not_member (by rw [owned]; simp) (by rw [owned]; simp) head
  have out {j : Nat} (outside : ¬(i < j ∧ j < i + n)) :
      (markPages ⟨0, .null, ⟨.null, .page⟩⟩ (i + 1) (n - 1)
        (pool.setSlab (.page i) (BitVec.ofNat 64 n))).desc (.page j) =
      (pool.setSlab (.page i) (BitVec.ofNat 64 n)).desc (.page j) := by
    rw [markPages_page, if_neg (by omega)]
  refine ⟨?_, fun k head => noList (Nat.le_refl i) (by omega) head, rfl, fun _ _ _ => Iff.rfl,
    fun _ _ there => there, ?_, ?_, ?_, markPages_mem _ _ _ _, markPages_start _ _ _ _,
    markPages_stop _ _ _ _⟩
  · refine inv.rings.congr ?_ ?_
    · intro r head
      rw [linkNext, markPages_other _ _ _ _ head.ne_page, setSlab_next]
      rfl
    · intro k r head there
      obtain ⟨j, rfl⟩ := inv.member_page head there
      have away : ¬(i < j ∧ j < i + n) := fun within =>
        noList (Nat.le_of_lt within.1) within.2 head there
      rw [linkNext, linkPrev, out away, setSlab_next, setSlab_prev]
      exact ⟨rfl, rfl⟩
  · rw [out (by omega), setSlab_slab, if_pos rfl]
  · intro j low high
    rw [markPages_page, if_pos (by omega)]
  · intro j outside
    have differ : Ref.page j ≠ .page i := by
      simp only [ne_eq, Ref.page.injEq]
      omega
    rw [out (by omega), setSlab_slab, if_neg differ, setSlab_prev, setSlab_next]
    exact ⟨rfl, rfl, fun _ _ => rfl⟩

theorem detach_chunks (inv : Inv pool lay live) (owned : lay.owner i = .chunks shift)
    (listed : .page i ∈ lay.lists (.slot (shift - minShift))) :
    ∃ pool' lists, unlink (pool.setSlab (.page i) 1#64) (.page i) = some pool' ∧
      Detached pool pool' lay i 1 lists := by
  have page := inv.chunks i shift owned
  have slot : shift - minShift < 9 := by
    have := page.high
    have := page.low
    simp only [minShift] at *
    omega
  have head := head_slot slot
  obtain ⟨front, back, split⟩ := List.append_of_mem listed
  have rings : Rings (linkNext (pool.setSlab (.page i) 1#64))
      (linkPrev (pool.setSlab (.page i) 1#64)) Head lay.lists := by
    refine inv.rings.congr (fun r _ => ?_) fun k r _ _ => ?_
    · simp [linkNext]
    · simp [linkNext, linkPrev]
  obtain ⟨pool', done, removed, first, relinked⟩ :=
    unlink_spec rings (fun r there => inv.member_page head there) head split
  have nodup := rings.nodup_split head split
  have distinct := List.nodup_cons.mp (List.nodup_middle.mp (List.nodup_cons.mp nodup).2)
  have member {r : Ref} (there : r ∈ front ++ back) : r ∈ lay.lists (.slot (shift - minShift)) := by
    rw [split]
    simp only [List.mem_append, List.mem_cons] at there ⊢
    tauto
  have notFree : Ref.free ≠ .slot (shift - minShift) := by simp
  refine ⟨pool', _, done, removed, ?_, ?_, ?_, ?_, ?_, by omega, ?_, ?_, ?_, ?_⟩
  · intro k headK there
    by_cases same : k = .slot (shift - minShift)
    · rw [same, update_self] at there
      exact distinct.1 there
    · rw [update_of_ne same] at there
      exact same (inv.rings.apart k _ _ headK head there listed)
  · rw [update_of_ne notFree]
  · intro k j apart
    by_cases same : Ref.slot k = .slot (shift - minShift)
    · rw [same, update_self, split]
      simp [apart]
    · rw [update_of_ne same]
  · intro k r there
    by_cases same : Ref.slot k = .slot (shift - minShift)
    · rw [same, update_self] at there
      rw [same]
      exact member there
    · rwa [update_of_ne same] at there
  · rw [first, setSlab_slab, if_pos rfl]
  · intro j outside
    have differ : Ref.page j ≠ .page i := by
      simp only [ne_eq, Ref.page.injEq]
      omega
    refine ⟨?_, ?_, ?_⟩
    · rw [relinked.slab, setSlab_slab, if_neg differ]
    · rcases relinked.type j with same | ⟨there, isType⟩
      · rw [same, setSlab_prev]
      · obtain ⟨j', same, owned'⟩ := inv.slots _ slot _ (member there)
        cases same
        rw [Nat.sub_add_cancel page.low] at owned'
        rw [isType, setSlab_prev, page.type, (inv.chunks j shift owned').type]
    · intro noSlot _
      rw [relinked.same j fun there => noSlot _ slot (member there), setSlab_next]
  · rw [relinked.mem]
    rfl
  · rw [relinked.start]
    rfl
  · rw [relinked.stop]
    rfl

/-- What giving pages back leaves alone, and the invariant behind it. -/
def Returned (pool pool' : Pool) (lay : Layout) (live : Live) : Prop :=
  pool'.start = pool.start ∧ pool'.stop = pool.stop ∧
    ∃ lay', lay'.total = lay.total ∧ Inv pool' lay' live

theorem Detached.returned (inv : Inv pool lay live) (unused : Unused pool lay live i n)
    (detached : Detached pool pool' lay i n lists)
    (unlinked : (if (((markPages ⟨0, .null, ⟨.null, .page⟩⟩ (i + 1) (n - 1)
      (pool.setSlab (.page i) (BitVec.ofNat 64 n))).desc (.page i)).next ≠ .null) then
      unlink (markPages ⟨0, .null, ⟨.null, .page⟩⟩ (i + 1) (n - 1)
        (pool.setSlab (.page i) (BitVec.ofNat 64 n))) (.page i)
      else some (markPages ⟨0, .null, ⟨.null, .page⟩⟩ (i + 1) (n - 1)
        (pool.setSlab (.page i) (BitVec.ofNat 64 n)))) = some pool') :
    ∃ freed, ngxSlabFreePages pool i n = some freed ∧ Returned pool freed lay live := by
  have head : Head .free := Or.inl rfl
  have freePages : ∀ r ∈ lists .free, ∃ j, r = .page j := by
    intro r inside
    rw [detached.free] at inside
    exact inv.member_page head inside
  obtain ⟨real, _⟩ := enlisted_spec detached.rings freePages head detached.gone .page
  exact ⟨_, freePages_eq unlinked real, detached.start, detached.stop, freedLayout lay i n lists, rfl,
    detached.inv inv unused⟩

theorem freeBlock_spec (inv : Inv pool lay live) (unused : Unused pool lay live i n)
    (busy : ∀ j, i ≤ j → j < i + n → lay.owner j = .busy i)
    (next : (pool.desc (.page i)).next = .null) :
    ∃ freed, ngxSlabFreePages pool i n = some freed ∧ Returned pool freed lay live := by
  refine (detach_block inv busy unused.some_pages).returned inv unused ?_
  rw [if_neg]
  rw [markPages_page, if_neg (by omega), setSlab_next, next]
  exact not_not.mpr rfl

theorem freeChunks_spec (inv : Inv pool lay live) (unused : Unused pool lay live i 1)
    (owned : lay.owner i = .chunks shift)
    (listed : .page i ∈ lay.lists (.slot (shift - minShift))) :
    ∃ freed, ngxSlabFreePages pool i 1 = some freed ∧ Returned pool freed lay live := by
  have page := inv.chunks i shift owned
  have slot : shift - minShift < 9 := by
    have := page.high
    have := page.low
    simp only [minShift] at *
    omega
  obtain ⟨pool', lists, done, detached⟩ := detach_chunks inv owned listed
  refine detached.returned inv unused ?_
  have linked : (pool.desc (.page i)).next ≠ .null := (inv.neighbours (head_slot slot) listed).1
  rw [if_pos]
  · exact done
  · rw [markPages_page, if_neg (by omega), setSlab_next]
    exact linked

end Free

end NgxFormal.Core.Slab
