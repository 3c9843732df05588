import NgxFormal.Core.SlabFree

/-! Chunks are taken and freed. -/

namespace NgxFormal.Core.Slab

open Function Lib.Ring

section Step

variable {pool pool' : Pool} {lay : Layout} {live live' : Live} {lists : Ref → List Ref}
  {i shift chunk : Nat}

/-- Only page `i` of the chunks of `shift` changes: its words, its bits and its place in the list of
its slot. -/
structure ChunkStep (pool pool' : Pool) (lay : Layout) (lists : Ref → List Ref) (i shift : Nat) :
    Prop where
  rings : Rings (linkNext pool') (linkPrev pool') Head lists
  elsewhere : ∀ h, h ≠ .slot (shift - minShift) → lists h = lay.lists h
  members : ∀ j, j ≠ i → (.page j ∈ lists (.slot (shift - minShift)) ↔
    .page j ∈ lay.lists (.slot (shift - minShift)))
  pages : ∀ r ∈ lists (.slot (shift - minShift)),
    r = .page i ∨ r ∈ lay.lists (.slot (shift - minShift))
  slab : ∀ j, j ≠ i → (pool'.desc (.page j)).slab = (pool.desc (.page j)).slab
  type : ∀ j, (pool'.desc (.page j)).prev.type = (pool.desc (.page j)).prev.type
  next : ∀ j, j ≠ i → .page j ∉ lay.lists (.slot (shift - minShift)) →
    (pool'.desc (.page j)).next = (pool.desc (.page j)).next
  mem : ∀ j, j ≠ i → pool'.mem j = pool.mem j
  start : pool'.start = pool.start
  stop : pool'.stop = pool.stop

theorem ChunkPage.slot_lt (page : ChunkPage pool lay live i shift) : shift - minShift < 9 := by
  have := page.high
  have := page.low
  simp only [minShift] at *
  omega

theorem Inv.chunk_apart (inv : Inv pool lay live) {j s c : Nat} (owned : lay.owner i = .chunks shift)
    (inside : chunk < chunkCount shift) (other : lay.owner j = .chunks s) (within : c < chunkCount s)
    (apart : j ≠ i) : chunkAddr pool j s c ≠ chunkAddr pool i shift chunk := by
  intro same
  have atJ := inv.chunk_page other within
  rw [same, inv.chunk_page owned inside] at atJ
  exact apart atJ.symm

theorem ChunkStep.frame (inv : Inv pool lay live) (owned : lay.owner i = .chunks shift)
    (step : ChunkStep pool pool' lay lists i shift) :
    Frame pool pool' lay { lay with lists := lists } (fun j => j = i) where
  total := rfl
  start := step.start
  stop := step.stop
  apart j k here _ busy := by
    rw [here, owned] at busy
    cases busy
  owner _ _ := rfl
  slots k j away := by
    by_cases same : k = shift - minShift
    · rw [same]
      exact step.members j away
    · exact iff_of_eq (congrArg (Ref.page j ∈ ·) (step.elsewhere _ (by simpa using same)))
  slab := step.slab
  type j _ := step.type j
  next j away outside := by
    refine step.next j away (outside _ (head_slot ?_))
    exact (inv.chunks i shift owned).slot_lt
  mem := step.mem

theorem ChunkStep.inv (inv : Inv pool lay live) (owned : lay.owner i = .chunks shift)
    (inside : chunk < chunkCount shift) (step : ChunkStep pool pool' lay lists i shift)
    (page : ChunkPage pool' { lay with lists := lists } live' i shift)
    (addrs : ∀ p, p ≠ chunkAddr pool i shift chunk → (p ∈ live'.addrs ↔ p ∈ live.addrs))
    (nodup : live'.addrs.Nodup) (blocks : ∀ block ∈ live', Block pool lay block) :
    Inv pool' { lay with lists := lists } live' := by
  have frame := step.frame inv owned
  have notFree : Ref.free ≠ .slot (shift - minShift) := by simp
  refine frame.inv inv step.rings ?_ ?_ ?_ ?_ ?_ nodup ?_
  · intro r there
    replace there : r ∈ lists .free := there
    rw [step.elsewhere _ notFree] at there
    obtain ⟨j, rfl, run⟩ := inv.free r there
    refine ⟨j, rfl, frame.free run ?_⟩
    rintro m rfl
    rw [owned]
    simp
  · intro k bound r there
    by_cases same : k = shift - minShift
    · subst same
      rcases step.pages r there with rfl | old
      · exact ⟨i, rfl, fun _ => by rw [Nat.sub_add_cancel page.low]; exact owned⟩
      · obtain ⟨j, rfl, owned'⟩ := inv.slots _ bound r old
        exact ⟨j, rfl, fun _ => owned'⟩
    · replace there : r ∈ lists (.slot k) := there
      rw [step.elsewhere _ (by simpa using same)] at there
      obtain ⟨j, rfl, owned'⟩ := inv.slots k bound r there
      exact ⟨j, rfl, fun _ => owned'⟩
  · rintro j s rfl owned'
    have same : shift = s := by simpa using owned.symm.trans owned'
    exact same ▸ page
  · rintro j rfl notChunks
    exact absurd owned (notChunks shift)
  · intro j s c away owned' within
    exact addrs _ (inv.chunk_apart owned inside owned' within away)
  · intro block there
    left
    refine (blocks block there).congr rfl step.start ?_ fun k s owned' _ => owned'
    intro k n some_pages _ busy
    have first := busy k (Nat.le_refl k) (by omega)
    have away : k ≠ i := by
      rintro rfl
      rw [owned] at first
      cases first
    refine ⟨step.slab k away, frame.next k away fun h head => ?_, fun _ _ _ => rfl⟩
    exact inv.not_member (by rw [first]; simp) (by rw [first]; simp) head

theorem ChunkStep.refl (inv : Inv pool lay live) (i shift : Nat) :
    ChunkStep pool pool lay lay.lists i shift where
  rings := inv.rings
  elsewhere _ _ := rfl
  members _ _ := Iff.rfl
  pages _ there := Or.inr there
  slab _ _ := rfl
  type _ := rfl
  next _ _ _ := rfl
  mem _ _ := rfl
  start := rfl
  stop := rfl

theorem ChunkStep.setChunk (step : ChunkStep pool pool' lay lists i shift) (chunk : Nat) (v : Bool) :
    ChunkStep pool (setChunk pool' i shift chunk v) lay lists i shift where
  rings := step.rings.congr (fun r _ => by simp [linkNext])
    fun _ r _ _ => by simp [linkNext, linkPrev]
  elsewhere := step.elsewhere
  members := step.members
  pages := step.pages
  slab j apart := by rw [setChunk_ne v (by simpa using apart), step.slab j apart]
  type j := by rw [setChunk_prev, step.type]
  next j apart outside := by rw [setChunk_next, step.next j apart outside]
  mem j apart := (setChunk_mem v apart).trans (step.mem j apart)
  start := (setChunk_start v).trans step.start
  stop := (setChunk_stop v).trans step.stop

theorem ChunkStep.takeOut {mid : Pool} (inv : Inv pool lay live)
    (owned : lay.owner i = .chunks shift) (step : ChunkStep pool mid lay lay.lists i shift)
    (listed : .page i ∈ lay.lists (.slot (shift - minShift))) :
    ∃ pool' lists, takeOut mid (.page i) (pageType shift) = some pool' ∧
      ChunkStep pool pool' lay lists i shift ∧ .page i ∉ lists (.slot (shift - minShift)) ∧
      (pool'.desc (.page i)).slab = (mid.desc (.page i)).slab ∧ pool'.mem = mid.mem ∧
      (pool'.desc (.page i)).next = .null := by
  have page := inv.chunks i shift owned
  have head := head_slot page.slot_lt
  obtain ⟨front, back, split⟩ := List.append_of_mem listed
  obtain ⟨unlinked, done, rings, first, relinked⟩ :=
    unlink_spec step.rings (fun r there => inv.member_page head there) head split
  have nodup := inv.rings.nodup_split head split
  have gone : .page i ∉ front ++ back :=
    (List.nodup_cons.mp (List.nodup_middle.mp (List.nodup_cons.mp nodup).2)).1
  have member {r : Ref} (there : r ∈ front ++ back) : r ∈ lay.lists (.slot (shift - minShift)) := by
    rw [split]
    simp only [List.mem_append, List.mem_cons] at there ⊢
    tauto
  have noList : ∀ k, Head k → .page i ∉ update lay.lists (.slot (shift - minShift)) (front ++ back) k := by
    intro k headK there
    by_cases same : k = .slot (shift - minShift)
    · rw [same, update_self] at there
      exact gone there
    · rw [update_of_ne same] at there
      exact same (inv.rings.apart k _ _ headK head there listed)
  have differ {j : Nat} (apart : j ≠ i) : Ref.page j ≠ .page i := by simpa using apart
  refine ⟨(unlinked.setNext (.page i) .null).setPrev (.page i) ⟨.null, pageType shift⟩,
    update lay.lists (.slot (shift - minShift)) (front ++ back), by rw [Slab.takeOut, done]; rfl,
    ⟨?_, fun h apart => update_of_ne apart _ _, ?_, ?_, ?_, ?_, ?_, ?_, relinked.start.trans step.start,
      relinked.stop.trans step.stop⟩, by rwa [update_self], ?_, relinked.mem, by simp⟩
  · refine rings.congr ?_ ?_
    · intro r headR
      simp [linkNext, headR.ne_page i]
    · intro k r headK there
      have apart : r ≠ .page i := by
        rintro rfl
        exact noList k headK there
      simp [linkNext, linkPrev, apart]
  · intro j apart
    rw [update_self, split]
    simp [apart]
  · intro r there
    rw [update_self] at there
    exact Or.inr (member there)
  · intro j apart
    simp [relinked.slab, step.slab j apart]
  · intro j
    simp only [setPrev_prev, setNext_prev]
    by_cases apart : Ref.page j = .page i
    · rw [if_pos apart, apart, page.type]
    · rw [if_neg apart]
      rcases relinked.type j with same | ⟨there, isType⟩
      · exact same.trans (step.type j)
      · obtain ⟨j', same, owned'⟩ := inv.slots _ page.slot_lt _ (member there)
        cases same
        rw [Nat.sub_add_cancel page.low] at owned'
        rw [isType, step.type, page.type, (inv.chunks j shift owned').type]
  · intro j apart outside
    simp only [setPrev_next, setNext_next, if_neg (differ apart)]
    rw [relinked.same j fun there => outside (member there), step.next j apart outside]
  · intro j apart
    exact (congrFun relinked.mem j).trans (step.mem j apart)
  · simp [relinked.slab]

theorem relink_step (inv : Inv pool lay live) (owned : lay.owner i = .chunks shift)
    (outside : .page i ∉ lay.lists (.slot (shift - minShift))) :
    ∃ pool' lists, relink pool (shift - minShift) i (pageType shift) = some pool' ∧
      ChunkStep pool pool' lay lists i shift ∧ .page i ∈ lists (.slot (shift - minShift)) ∧
      (pool'.desc (.page i)).slab = (pool.desc (.page i)).slab ∧ pool'.mem = pool.mem := by
  have page := inv.chunks i shift owned
  have head := head_slot page.slot_lt
  have fresh : ∀ k, Head k → .page i ∉ lay.lists k := by
    intro k headK there
    rcases headK with rfl | ⟨slot, bound, rfl⟩
    · rw [(inv.free_run there).owner] at owned
      cases owned
    · obtain ⟨j, same, owned'⟩ := inv.slots slot bound _ there
      cases same
      rw [owned, Owner.chunks.injEq] at owned'
      rw [owned', Nat.add_sub_cancel] at outside
      exact outside there
  obtain ⟨real, _, rings, typeFirst, relinked⟩ := enlisted_spec inv.rings
    (fun r there => inv.member_page head there) head fresh (pageType shift)
  refine ⟨_, _, relink_eq real, ⟨rings, fun h apart => update_of_ne apart _ _, ?_, ?_,
    fun j _ => relinked.slab _, ?_, ?_, fun j _ => congrFun relinked.mem j, relinked.start,
    relinked.stop⟩, by rw [update_self]; exact List.mem_cons_self, relinked.slab _, relinked.mem⟩
  · intro j apart
    rw [update_self]
    simp [apart]
  · intro r there
    rw [update_self] at there
    exact List.mem_cons.mp there
  · intro j
    rcases relinked.type j with same | ⟨there, isType⟩
    · exact same
    · rw [isType]
      rcases List.mem_cons.mp there with isFirst | old
      · cases isFirst
        exact page.type.symm
      · obtain ⟨j', same, owned'⟩ := inv.slots _ page.slot_lt _ old
        cases same
        rw [Nat.sub_add_cancel page.low] at owned'
        exact (inv.chunks j shift owned').type.symm
  · intro j apart away
    rw [relinked.same j]
    simp [apart, away]

end Step

/-- The blocks behind `ngx_slab_free`. -/
def Live.without (live : Live) (p : Nat) : Live := live.filter fun block => block.1 ≠ p

theorem Live.mem_without {live : Live} {p q : Nat} :
    q ∈ (live.without p).addrs ↔ q ∈ live.addrs ∧ q ≠ p := by
  simp only [Live.addrs, Live.without, List.mem_map, List.mem_filter, decide_eq_true_eq]
  constructor
  · rintro ⟨block, ⟨inside, differ⟩, rfl⟩
    exact ⟨⟨block, inside, rfl⟩, differ⟩
  · rintro ⟨⟨block, inside, rfl⟩, differ⟩
    exact ⟨block, ⟨inside, differ⟩, rfl⟩

theorem Live.nodup_without {live : Live} (nodup : live.addrs.Nodup) (p : Nat) :
    (live.without p).addrs.Nodup :=
  nodup.sublist (List.Sublist.map Prod.fst List.filter_sublist)

theorem Live.of_without {live : Live} {p : Nat} {block : Nat × Nat} (inside : block ∈ live.without p) :
    block ∈ live ∧ block.1 ≠ p := by
  simpa [Live.without] using inside

section Chunk

variable {pool pool' : Pool} {lay lay' : Layout} {live live' : Live} {i shift chunk size : Nat}

theorem ChunkPage.marked {v : Bool} (page : ChunkPage pool lay live i shift)
    (total : lay'.total = lay.total) (start : pool'.start = pool.start)
    (type : (pool'.desc (.page i)).prev.type = (pool.desc (.page i)).prev.type)
    (tagged : Tagged pool' i shift)
    (used : ∀ c, chunkUsed pool' i shift c = if c = chunk then v else chunkUsed pool i shift c)
    (behind : reserved shift ≤ chunk)
    (mine : v = true ↔ chunkAddr pool i shift chunk ∈ live'.addrs)
    (others : ∀ c < chunkCount shift, c ≠ chunk →
      (chunkAddr pool i shift c ∈ live'.addrs ↔ chunkAddr pool i shift c ∈ live.addrs))
    (listed : (.page i ∈ lay'.lists (.slot (shift - minShift)) ∧
        ∃ c < chunkCount shift, chunkUsed pool' i shift c = false) ∨
      ((pool'.desc (.page i)).next = .null ∧
        .page i ∉ lay'.lists (.slot (shift - minShift)) ∧
        ∀ c < chunkCount shift, chunkUsed pool' i shift c = true)) :
    ChunkPage pool' lay' live' i shift := by
  refine ⟨total ▸ page.inside, page.low, page.high, type.trans page.type, tagged, ?_, listed⟩
  intro c within
  have addr : chunkAddr pool' i shift c = chunkAddr pool i shift c := by
    rw [chunkAddr, chunkAddr, start]
  rw [used, addr]
  by_cases same : c = chunk
  · subst same
    rw [if_pos rfl, mine]
    constructor
    · exact Or.inr
    · rintro (low | there)
      · omega
      · exact there
  · rw [if_neg same, page.used c within, others c within same]

theorem Inv.block_chunk (inv : Inv pool lay live) (owned : lay.owner i = .chunks shift)
    {block : Nat × Nat} (inside : block ∈ live) (here : (block.1 - pool.start) / pagesize = i) :
    ∃ c < chunkCount shift, reserved shift ≤ c ∧ block.1 = chunkAddr pool i shift c := by
  cases inv.blocks block inside with
  | @pages k n size some_pages fits slab next owner =>
    rw [pageAddr_page] at here
    subst here
    rw [(owner k (Nat.le_refl k) (by omega)).2] at owned
    cases owned
  | @chunk k s c size owner behind within fits =>
    have same : k = i := (inv.chunk_page owner within).symm.trans here
    subst same
    rw [owned, Owner.chunks.injEq] at owner
    subst owner
    exact ⟨c, within, behind, rfl⟩

theorem takenPool_spec (inv : Inv pool lay live) (owned : lay.owner i = .chunks shift)
    (listed : .page i ∈ lay.lists (.slot (shift - minShift))) (inside : chunk < chunkCount shift)
    (clear : chunkUsed pool i shift chunk = false) (fits : size ≤ 2 ^ shift) :
    ∃ pool', takenPool pool i shift chunk = some pool' ∧
      Returned pool pool' lay ((chunkAddr pool i shift chunk, size) :: live) := by
  have page := inv.chunks i shift owned
  have notUsed : ¬(chunk < reserved shift ∨ chunkAddr pool i shift chunk ∈ live.addrs) := by
    rw [← page.used chunk inside, clear]
    exact Bool.false_ne_true
  obtain ⟨behind, fresh⟩ := not_or.mp notUsed
  rw [Nat.not_lt] at behind
  set live' : Live := (chunkAddr pool i shift chunk, size) :: live
  have addrs : live'.addrs = chunkAddr pool i shift chunk :: live.addrs := rfl
  have nodup : live'.addrs.Nodup := List.nodup_cons.mpr ⟨fresh, inv.nodup⟩
  have blocks : ∀ block ∈ live', Block pool lay block := by
    intro block there
    rcases List.mem_cons.mp there with rfl | old
    · exact .chunk owned behind inside fits
    · exact inv.blocks block old
  have elsewhere : ∀ p, p ≠ chunkAddr pool i shift chunk → (p ∈ live'.addrs ↔ p ∈ live.addrs) := by
    intro p differ
    rw [addrs, List.mem_cons]
    simp [differ]
  have others : ∀ c < chunkCount shift, c ≠ chunk →
      (chunkAddr pool i shift c ∈ live'.addrs ↔ chunkAddr pool i shift c ∈ live.addrs) := by
    intro c within differ
    exact elsewhere _ fun same => differ ((chunkAddr_inj inv.aligned page.low page.high within inside).mp same)
  have mine : true = true ↔ chunkAddr pool i shift chunk ∈ live'.addrs := by simp [addrs]
  have step := (ChunkStep.refl inv i shift).setChunk chunk true
  have tagged := tagged_setChunk page.low page.high inside true page.tagged
  have used (c : Nat) := @chunkUsed_setChunk pool i shift chunk page.low page.high inside i c true
  simp only [true_and] at used
  unfold takenPool
  simp only
  by_cases full : ∀ c < chunkCount shift, chunkUsed (setChunk pool i shift chunk true) i shift c = true
  · rw [if_pos full]
    obtain ⟨pool', lists, done, step', outside, slab, mem, next⟩ := step.takeOut inv owned listed
    have used' (c : Nat) := @chunkUsed_congr _ pool' i shift c slab (congrFun mem i)
    refine ⟨pool', done, step'.start, step'.stop, { lay with lists := lists }, rfl, ?_⟩
    refine step'.inv inv owned inside ?_ elsewhere nodup blocks
    refine page.marked rfl step'.start (step'.type i) ((tagged_congr slab).mpr tagged)
      (fun c => (used' c).trans (used c)) behind mine others ?_
    refine Or.inr ⟨next, outside, ?_⟩
    intro c within
    rw [used', full c within]
  · rw [if_neg full]
    refine ⟨_, rfl, step.start, step.stop, { lay with lists := lay.lists }, rfl, ?_⟩
    refine step.inv inv owned inside ?_ elsewhere nodup blocks
    refine page.marked rfl step.start (step.type i) tagged used behind mine others ?_
    refine Or.inl ⟨listed, ?_⟩
    simpa using full

theorem linked_step (inv : Inv pool lay live) (owned : lay.owner i = .chunks shift) :
    ∃ linked lists, (if (pool.desc (.page i)).next = .null then
        relink pool (shift - minShift) i (pageType shift) else some pool) = some linked ∧
      ChunkStep pool linked lay lists i shift ∧ .page i ∈ lists (.slot (shift - minShift)) ∧
      (linked.desc (.page i)).slab = (pool.desc (.page i)).slab ∧ linked.mem = pool.mem := by
  have page := inv.chunks i shift owned
  rcases page.listed with ⟨listed, _⟩ | ⟨isNull, outside, _⟩
  · have real : (pool.desc (.page i)).next ≠ .null :=
      (inv.neighbours (head_slot page.slot_lt) listed).1
    rw [if_neg real]
    exact ⟨pool, lay.lists, rfl, ChunkStep.refl inv i shift, listed, rfl, rfl⟩
  · rw [if_pos isNull]
    exact relink_step inv owned outside

theorem unchunked_spec (inv : Inv pool lay live) (owned : lay.owner i = .chunks shift)
    (inside : chunk < chunkCount shift) (behind : reserved shift ≤ chunk) :
    ∃ linked lists, (if (pool.desc (.page i)).next = .null then
        relink pool (shift - minShift) i (pageType shift) else some pool) = some linked ∧
      ChunkStep pool (setChunk linked i shift chunk false) lay lists i shift ∧
      .page i ∈ lists (.slot (shift - minShift)) ∧
      Inv (setChunk linked i shift chunk false) { lay with lists := lists }
        (live.without (chunkAddr pool i shift chunk)) := by
  have page := inv.chunks i shift owned
  obtain ⟨linked, lists, done, step, listed, slab, mem⟩ := linked_step inv owned
  set live' := live.without (chunkAddr pool i shift chunk)
  have step' := step.setChunk chunk false
  have tagged := tagged_setChunk page.low page.high inside false
    ((tagged_congr slab).mpr page.tagged)
  have used (c : Nat) : chunkUsed (setChunk linked i shift chunk false) i shift c =
      if c = chunk then false else chunkUsed pool i shift c := by
    rw [chunkUsed_setChunk page.low page.high inside]
    simp only [true_and, @chunkUsed_congr pool linked i shift c slab (congrFun mem i)]
  have elsewhere : ∀ p, p ≠ chunkAddr pool i shift chunk → (p ∈ live'.addrs ↔ p ∈ live.addrs) := by
    intro p differ
    rw [Live.mem_without]
    simp [differ]
  refine ⟨linked, lists, done, step', listed, ?_⟩
  refine step'.inv inv owned inside ?_ elsewhere (Live.nodup_without inv.nodup _) ?_
  · refine page.marked rfl step'.start (step'.type i) tagged used behind ?_ ?_ ?_
    · rw [Live.mem_without]
      simp
    · intro c within differ
      exact elsewhere _ fun same => differ ((chunkAddr_inj inv.aligned page.low page.high within inside).mp same)
    · exact Or.inl ⟨listed, chunk, inside, by rw [used, if_pos rfl]⟩
  · intro block there
    exact inv.blocks block (Live.of_without there).1

theorem freedPool_spec (inv : Inv pool lay live) (owned : lay.owner i = .chunks shift)
    (inside : chunk < chunkCount shift) (behind : reserved shift ≤ chunk) :
    ∃ pool', freedPool pool i shift chunk = some pool' ∧
      Returned pool pool' lay (live.without (chunkAddr pool i shift chunk)) := by
  have page := inv.chunks i shift owned
  obtain ⟨linked, lists, done, step', listed, inv'⟩ := unchunked_spec inv owned inside behind
  set live' := live.without (chunkAddr pool i shift chunk)
  unfold freedPool
  simp only [done, Option.bind_some]
  by_cases rest : ∃ c < chunkCount shift, reserved shift ≤ c ∧
      chunkUsed (setChunk linked i shift chunk false) i shift c = true
  · rw [if_pos rest]
    exact ⟨_, rfl, step'.start, step'.stop, { lay with lists := lists }, rfl, inv'⟩
  · rw [if_neg rest]
    have unused : Unused (setChunk linked i shift chunk false) { lay with lists := lists } live' i 1 := by
      refine ⟨Nat.le_refl 1, ?_, Or.inr ⟨rfl, shift, owned⟩, ?_⟩
      · intro j low high
        rw [show j = i by omega]
        exact page.inside
      · rintro block there ⟨low, high⟩
        obtain ⟨c, within, free, isChunk⟩ := inv'.block_chunk owned there (by omega)
        refine rest ⟨c, within, free, ?_⟩
        rw [(inv'.chunks i shift owned).used c within, ← isChunk]
        exact Or.inr (List.mem_map_of_mem there)
    obtain ⟨freed, isFreed, start, stop, lay', total, final⟩ :=
      freeChunks_spec inv' unused owned listed
    exact ⟨freed, isFreed, start.trans step'.start, stop.trans step'.stop, lay', total, final⟩

end Chunk

end NgxFormal.Core.Slab

/-! A fresh page becomes a page of chunks. -/

namespace NgxFormal.Core.Slab

open Function Lib.Ring

section NewPage

variable {pool : Pool} {lay : Layout} {live : Live} {shift slot i size : Nat}

/-- The `slab` of a fresh page of chunks. -/
def newSlab (shift : Nat) : Word :=
  if shift < exactShift then BitVec.ofNat 64 shift
  else if shift = exactShift then 1#64
  else 1#64 <<< 32 ||| BitVec.ofNat 64 shift

theorem newPage_chunk : (newPage pool shift slot i).2 = reserved shift := by
  unfold newPage reserved
  by_cases small : shift < exactShift
  · simp only [if_pos small]
  · by_cases exact : shift = exactShift
    · simp only [if_neg small, if_pos exact]
    · simp only [if_neg small, if_neg exact]

theorem newPage_desc (r : Ref) :
    (newPage pool shift slot i).1.desc r =
      if r = .slot slot then { pool.desc r with next := .page i }
      else if r = .page i then ⟨newSlab shift, .slot slot, ⟨.slot slot, pageType shift⟩⟩
      else pool.desc r := by
  have apart : Ref.slot slot ≠ .page i := by simp
  have desc (q : Ref) (pool' : Pool) (same : pool'.desc = pool.desc) (slab : Word) :
      ((pool'.setDesc (.page i) ⟨slab, .slot slot, ⟨.slot slot, pageType shift⟩⟩).setNext
        (.slot slot) (.page i)).desc q =
      if q = .slot slot then { pool.desc q with next := .page i }
      else if q = .page i then ⟨slab, .slot slot, ⟨.slot slot, pageType shift⟩⟩
      else pool.desc q := by
    rw [Pool.setNext, setDesc_desc, setDesc_desc, setDesc_desc, if_neg apart, same]
    by_cases isSlot : q = .slot slot
    · rw [if_pos isSlot, if_pos isSlot, isSlot]
    · rw [if_neg isSlot, if_neg isSlot]
  unfold newPage newSlab
  by_cases small : shift < exactShift
  · simp only [if_pos small]
    exact desc r _ rfl _
  · by_cases exact : shift = exactShift
    · simp only [if_neg small, if_pos exact]
      exact desc r _ rfl _
    · simp only [if_neg small, if_neg exact]
      exact desc r _ rfl _

theorem newPage_mem {j : Nat} (apart : j ≠ i) :
    (newPage pool shift slot i).1.mem j = pool.mem j := by
  unfold newPage
  split
  · exact update_of_ne apart _ _
  · split <;> rfl

@[simp] theorem newPage_start : (newPage pool shift slot i).1.start = pool.start := by
  unfold newPage
  split
  · rfl
  · split <;> rfl

@[simp] theorem newPage_stop : (newPage pool shift slot i).1.stop = pool.stop := by
  unfold newPage
  split
  · rfl
  · split <;> rfl

theorem newPage_slab :
    ((newPage pool shift slot i).1.desc (.page i)).slab = newSlab shift := by
  rw [newPage_desc, if_neg (by simp), if_pos rfl]

theorem newSlab_big (big : exactShift < shift) (high : shift ≤ 11) :
    (∀ j < 32, (newSlab shift).getLsbD j = (BitVec.ofNat 64 shift).getLsbD j) ∧
      ∀ j < 32, (newSlab shift).getLsbD (32 + j) = decide (j = 0) := by
  simp only [exactShift] at big
  interval_cases shift <;> decide

theorem newPage_tagged (high : shift ≤ 11) :
    Tagged (newPage pool shift slot i).1 i shift := by
  unfold Tagged
  simp only [newPage_slab]
  by_cases small : shift < exactShift
  · rw [if_pos small, newSlab, if_pos small]
  · rw [if_neg small]
    by_cases exact : shift = exactShift
    · rw [if_pos exact]
      exact True.intro
    · rw [if_neg exact]
      obtain ⟨lowBits, mapBits⟩ := newSlab_big (by omega) high
      refine ⟨lowBits, ?_⟩
      intro j beyond
      by_cases within : j < 32
      · have some_chunks : 0 < chunkCount shift := by simp [chunkCount, Nat.shiftLeft_eq]
        rw [mapBits j within]
        simp
        omega
      · exact BitVec.getLsbD_of_ge _ _ (by omega)

theorem firstWord_bit (low : minShift ≤ shift) (small : shift < exactShift) :
    ∀ j < 64, (BitVec.ofNat 64 ((2 <<< bitmapChunks shift) - 1)).getLsbD j =
      decide (j ≤ bitmapChunks shift) := by
  simp only [minShift, exactShift] at low small
  interval_cases shift <;> decide

theorem newPage_used (low : minShift ≤ shift) (high : shift ≤ 11) {c : Nat}
    (inside : c < chunkCount shift) :
    chunkUsed (newPage pool shift slot i).1 i shift c = decide (c ≤ reserved shift) := by
  obtain ⟨smallCount, exactCount, bigCount⟩ := chunkCount_cases low high
  unfold chunkUsed reserved
  simp only [newPage_slab]
  by_cases small : shift < exactShift
  · simp only [if_pos small]
    have words : (newPage pool shift slot i).1.mem i = fun n =>
        if n = 0 then BitVec.ofNat 64 ((2 <<< bitmapChunks shift) - 1)
        else if 0 < n ∧ n < mapWords shift then 0 else pool.mem i n := by
      unfold newPage
      simp only [if_pos small]
      exact update_self _ _ _
    have short := (bitmapChunks_le low small).1
    have count := (smallCount small).1
    rw [words]
    by_cases first : c < 64
    · simp only [Nat.div_eq_of_lt first, Nat.mod_eq_of_lt first, if_true]
      exact firstWord_bit low small c first
    · simp only [if_neg (show ¬c / 64 = 0 by omega),
        if_pos (show 0 < c / 64 ∧ c / 64 < mapWords shift by omega)]
      simp
      omega
  · simp only [if_neg small]
    by_cases exact : shift = exactShift
    · have count := exactCount exact
      simp only [if_pos exact, newSlab, if_neg small]
      rw [BitVec.getLsbD_one]
      simp
    · have count := bigCount (by omega)
      simp only [if_neg exact]
      rw [(newSlab_big (by omega) high).2 c (by omega)]
      simp

theorem reserved_lt (low : minShift ≤ shift) (high : shift ≤ 11) :
    reserved shift + 1 < chunkCount shift := by
  simp only [minShift] at low
  interval_cases shift <;> decide

def chunkedLayout (lay : Layout) (i shift : Nat) : Layout where
  total := lay.total
  owner := update lay.owner i (.chunks shift)
  lists := update lay.lists (.slot (shift - minShift)) [.page i]

theorem newPage_rings (inv : Inv pool lay live) (slot_lt : slot < 9)
    (fresh : ∀ k, Head k → .page i ∉ lay.lists k) :
    Rings (linkNext (newPage pool shift slot i).1) (linkPrev (newPage pool shift slot i).1) Head
      (update lay.lists (.slot slot) [.page i]) := by
  have head := head_slot slot_lt
  have notHead : ¬Head (.page i) := fun isHead => isHead.ne_page i rfl
  have apart : Ref.page i ≠ .slot slot := by simp
  refine inv.rings.change head ?_ (List.nodup_singleton _) ?_ ?_
  · simp only [Chain, linkNext, linkPrev, newPage_desc, if_true, if_neg apart]
    exact ⟨trivial, trivial, trivial⟩
  · intro r there
    rw [List.mem_singleton.mp there]
    exact Or.inr ⟨notHead, fresh⟩
  · intro k headK differ r there
    have notSlot : r ≠ .slot slot := by
      rcases List.mem_cons.mp there with rfl | member
      · exact differ
      · obtain ⟨j, rfl⟩ := inv.member_page headK member
        simp
    have notPage : r ≠ .page i := by
      rcases List.mem_cons.mp there with rfl | member
      · exact headK.ne_page i
      · rintro rfl
        exact fresh k headK member
    simp only [linkNext, linkPrev, newPage_desc, if_neg notSlot, if_neg notPage]
    exact ⟨trivial, trivial⟩

theorem newPage_frame (owned : lay.owner i = .busy i)
    (empty : lay.lists (.slot (shift - minShift)) = []) :
    Frame pool (newPage pool shift (shift - minShift) i).1 lay (chunkedLayout lay i shift)
      (fun j => j = i) := by
  have desc : ∀ j, j ≠ i → (newPage pool shift (shift - minShift) i).1.desc (.page j) =
      pool.desc (.page j) := by
    intro j away
    rw [newPage_desc, if_neg (by simp), if_neg (by simpa using away)]
  refine ⟨rfl, newPage_start, newPage_stop, ?_, fun j away => update_of_ne away _ _, ?_,
    fun j away => by rw [desc j away], fun j away => by rw [desc j away],
    fun j away _ => by rw [desc j away], fun j away => newPage_mem away⟩
  · rintro j k rfl away busy
    rw [owned, Owner.busy.injEq] at busy
    exact away busy.symm
  · intro k j away
    by_cases same : Ref.slot k = .slot (shift - minShift)
    · rw [same, empty]
      simp [chunkedLayout, away]
    · simp only [chunkedLayout, update_of_ne same]

theorem newPage_page (inv : Inv pool lay live) (low : minShift ≤ shift) (high : shift ≤ 11)
    (inside : i < lay.total) (clear : ∀ block ∈ live, (block.1 - pool.start) / pagesize ≠ i) :
    ChunkPage (newPage pool shift (shift - minShift) i).1 (chunkedLayout lay i shift)
      ((chunkAddr pool i shift (reserved shift), size) :: live) i shift := by
  have room := reserved_lt low high
  refine ⟨inside, low, high, ?_, newPage_tagged high, ?_, Or.inl ⟨?_, ?_⟩⟩
  · rw [newPage_desc, if_neg (by simp), if_pos rfl]
  · intro c within
    have addr : chunkAddr (newPage pool shift (shift - minShift) i).1 i shift c =
        chunkAddr pool i shift c := by
      rw [chunkAddr, chunkAddr, newPage_start]
    have notLive : chunkAddr pool i shift c ∉ live.addrs := by
      intro there
      obtain ⟨block, member, same⟩ := List.mem_map.mp there
      apply clear block member
      rw [same]
      exact chunkAddr_page inv.aligned low high within
    have mine := @chunkAddr_inj pool i shift inv.aligned low high c (reserved shift) within (by omega)
    have addrs : Live.addrs ((chunkAddr pool i shift (reserved shift), size) :: live) =
        chunkAddr pool i shift (reserved shift) :: live.addrs := rfl
    rw [newPage_used low high within, addr, decide_eq_true_eq, addrs, List.mem_cons, mine,
      or_iff_left notLive]
    omega
  · simp [chunkedLayout]
  · refine ⟨reserved shift + 1, room, ?_⟩
    rw [newPage_used low high room]
    simp

theorem newPage_inv (inv : Inv pool lay live) (low : minShift ≤ shift) (high : shift ≤ 11)
    (owned : lay.owner i = .busy i) (inside : i < lay.total)
    (clear : ∀ block ∈ live, (block.1 - pool.start) / pagesize ≠ i)
    (empty : lay.lists (.slot (shift - minShift)) = []) (fits : size ≤ 2 ^ shift) :
    Inv (newPage pool shift (shift - minShift) i).1 (chunkedLayout lay i shift)
      ((chunkAddr pool i shift (reserved shift), size) :: live) := by
  have slot_lt : shift - minShift < 9 := by
    simp only [minShift] at *
    omega
  have room := reserved_lt low high
  have atReserved := @chunkAddr_page pool i shift (reserved shift) inv.aligned low high (by omega)
  have noList : ∀ k, Head k → .page i ∉ lay.lists k := fun k head =>
    inv.not_member (by rw [owned]; simp) (by rw [owned]; simp) head
  have ownerI : (chunkedLayout lay i shift).owner i = .chunks shift := update_self _ _ _
  have frame := @newPage_frame pool lay shift i owned empty
  refine frame.inv inv (newPage_rings inv slot_lt noList) ?_ ?_ ?_ ?_ ?_ ?_ ?_
  · intro r there
    have apart : Ref.free ≠ .slot (shift - minShift) := by simp
    simp only [chunkedLayout, update_of_ne apart] at there
    obtain ⟨j, rfl, run⟩ := inv.free r there
    refine ⟨j, rfl, frame.free run ?_⟩
    rintro m rfl
    rw [owned]
    simp
  · intro k bound r there
    by_cases same : k = shift - minShift
    · subst same
      simp only [chunkedLayout, update_self, List.mem_singleton] at there
      exact ⟨i, there, fun _ => by rw [ownerI, Nat.sub_add_cancel low]⟩
    · have apart : Ref.slot k ≠ .slot (shift - minShift) := by simpa using same
      simp only [chunkedLayout, update_of_ne apart] at there
      obtain ⟨j, rfl, chunks⟩ := inv.slots k bound r there
      refine ⟨j, rfl, ?_⟩
      rintro rfl
      exact absurd there (noList _ (head_slot bound))
  · rintro j s rfl chunks
    have isShift : shift = s := by simpa using ownerI.symm.trans chunks
    subst isShift
    exact newPage_page inv low high inside clear
  · rintro j rfl notChunks
    exact absurd ownerI (notChunks shift)
  · intro j s c away chunks within
    have differ : chunkAddr pool j s c ≠ chunkAddr pool i shift (reserved shift) := by
      intro same
      have atJ := inv.chunk_page chunks within
      rw [same, atReserved] at atJ
      exact away atJ.symm
    simp [Live.addrs, differ]
  · refine List.nodup_cons.mpr ⟨?_, inv.nodup⟩
    intro there
    obtain ⟨block, member, same⟩ := List.mem_map.mp there
    apply clear block member
    rw [same]
    exact atReserved
  · intro block there
    rcases List.mem_cons.mp there with rfl | old
    · left
      have addr : chunkAddr (newPage pool shift (shift - minShift) i).1 i shift (reserved shift) =
          chunkAddr pool i shift (reserved shift) := by
        rw [chunkAddr, chunkAddr, newPage_start]
      rw [← addr]
      exact .chunk ownerI (Nat.le_refl _) (by omega) fits
    · exact Or.inr ⟨inv.blocks block old, clear block old⟩

end NewPage

end NgxFormal.Core.Slab
