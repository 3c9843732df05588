import NgxFormal.Core.SlabChunks
import NgxFormal.Lib.Ring

/-! Who owns each page, and the invariant of a pool with the blocks that are in use. -/

namespace NgxFormal.Core.Slab

open Function Lib.Ring

/-- What a page belongs to: a run of free pages or a block of pages by its first page, or the
chunks of a slot by their shift. -/
inductive Owner where
  | nobody
  | free (head : Nat)
  | busy (head : Nat)
  | chunks (shift : Nat)
  deriving DecidableEq, Repr

structure Layout where
  total : Nat
  owner : Nat → Owner
  lists : Ref → List Ref

/-- The blocks in use: the addresses that were returned and the sizes that were asked for. -/
abbrev Live := List (Nat × Nat)

def Live.addrs (live : Live) : List Nat := live.map Prod.fst

def Head (r : Ref) : Prop := r = .free ∨ ∃ k < 9, r = .slot k

def linkNext (pool : Pool) (r : Ref) : Ref := (pool.desc r).next

def linkPrev (pool : Pool) (r : Ref) : Ref := (pool.desc r).prev.ref

structure ChunkPage (pool : Pool) (lay : Layout) (live : Live) (i shift : Nat) : Prop where
  inside : i < lay.total
  low : minShift ≤ shift
  high : shift ≤ 11
  type : (pool.desc (.page i)).prev.type = pageType shift
  tagged : Tagged pool i shift
  used : ∀ c < chunkCount shift, chunkUsed pool i shift c = true ↔
    c < reserved shift ∨ chunkAddr pool i shift c ∈ live.addrs
  listed : (.page i ∈ lay.lists (.slot (shift - minShift)) ∧
      ∃ c < chunkCount shift, chunkUsed pool i shift c = false) ∨
    ((pool.desc (.page i)).next = .null ∧
      .page i ∉ lay.lists (.slot (shift - minShift)) ∧
      ∀ c < chunkCount shift, chunkUsed pool i shift c = true)

inductive Block (pool : Pool) (lay : Layout) : Nat × Nat → Prop where
  | pages {i n size : Nat} (some_pages : 1 ≤ n) (fits : size ≤ n * pagesize)
      (slab : (pool.desc (.page i)).slab = BitVec.ofNat 64 n ||| pageStart)
      (next : (pool.desc (.page i)).next = .null)
      (owned : ∀ j, i ≤ j → j < i + n → j < lay.total ∧ lay.owner j = .busy i) :
      Block pool lay (pool.start + i * pagesize, size)
  | chunk {i shift c size : Nat} (owned : lay.owner i = .chunks shift)
      (behind : reserved shift ≤ c) (inside : c < chunkCount shift) (fits : size ≤ 2 ^ shift) :
      Block pool lay (chunkAddr pool i shift c, size)

structure FreeRun (pool : Pool) (lay : Layout) (i : Nat) : Prop where
  bound : i ≤ lay.total
  owner : lay.owner i = .free i
  type : (pool.desc (.page i)).prev.type = .page
  run : ∀ j, i ≤ j → j < i + (pool.desc (.page i)).slab.toNat →
    j < lay.total ∧ lay.owner j = .free i

structure Inv (pool : Pool) (lay : Layout) (live : Live) : Prop where
  aligned : pool.start % pagesize = 0
  room : pool.start + lay.total * pagesize ≤ pool.stop
  bound : lay.total < 2 ^ 52
  rings : Rings (linkNext pool) (linkPrev pool) Head lay.lists
  free : ∀ r ∈ lay.lists .free, ∃ i, r = .page i ∧ FreeRun pool lay i
  slots : ∀ k < 9, ∀ r ∈ lay.lists (.slot k), ∃ i, r = .page i ∧ lay.owner i = .chunks (k + minShift)
  chunks : ∀ i shift, lay.owner i = .chunks shift → ChunkPage pool lay live i shift
  others : ∀ i, (∀ shift, lay.owner i ≠ .chunks shift) → (pool.desc (.page i)).prev.type = .page
  nodup : live.addrs.Nodup
  blocks : ∀ block ∈ live, Block pool lay block

section Congr

variable {pool pool' : Pool} {lay lay' : Layout} {live live' : Live} {i shift : Nat}

theorem ChunkPage.congr (page : ChunkPage pool lay live i shift) (total : lay'.total = lay.total)
    (start : pool'.start = pool.start)
    (slab : (pool'.desc (.page i)).slab = (pool.desc (.page i)).slab)
    (type : (pool'.desc (.page i)).prev.type = (pool.desc (.page i)).prev.type)
    (mem : pool'.mem i = pool.mem i)
    (member : .page i ∈ lay'.lists (.slot (shift - minShift)) ↔
      .page i ∈ lay.lists (.slot (shift - minShift)))
    (next : .page i ∉ lay.lists (.slot (shift - minShift)) →
      (pool'.desc (.page i)).next = (pool.desc (.page i)).next)
    (addrs : ∀ c < chunkCount shift, reserved shift ≤ c →
      (chunkAddr pool i shift c ∈ live'.addrs ↔ chunkAddr pool i shift c ∈ live.addrs)) :
    ChunkPage pool' lay' live' i shift := by
  have used (c : Nat) : chunkUsed pool' i shift c = chunkUsed pool i shift c :=
    chunkUsed_congr slab mem
  have addr (c : Nat) : chunkAddr pool' i shift c = chunkAddr pool i shift c := by
    rw [chunkAddr, chunkAddr, start]
  refine ⟨total ▸ page.inside, page.low, page.high, type.trans page.type,
    (tagged_congr slab).mpr page.tagged, ?_, ?_⟩
  · intro c inside
    rw [used, addr, page.used c inside]
    by_cases low : c < reserved shift
    · simp [low]
    · rw [addrs c inside (by omega)]
  · simp only [used, member]
    rcases page.listed with inList | ⟨isNull, outside, full⟩
    · exact Or.inl inList
    · exact Or.inr ⟨(next outside).trans isNull, outside, full⟩

theorem Block.congr {block : Nat × Nat} (held : Block pool lay block)
    (total : lay'.total = lay.total) (start : pool'.start = pool.start)
    (busy : ∀ i n, 1 ≤ n → block.1 = pool.start + i * pagesize →
      (∀ j, i ≤ j → j < i + n → lay.owner j = .busy i) →
      (pool'.desc (.page i)).slab = (pool.desc (.page i)).slab ∧
      (pool'.desc (.page i)).next = (pool.desc (.page i)).next ∧
      ∀ j, i ≤ j → j < i + n → lay'.owner j = lay.owner j)
    (chunks : ∀ i shift, lay.owner i = .chunks shift →
      (∃ c < chunkCount shift, reserved shift ≤ c ∧ block.1 = chunkAddr pool i shift c) →
      lay'.owner i = .chunks shift) :
    Block pool' lay' block := by
  cases held with
  | @pages i n size some_pages fits slab next owned =>
    obtain ⟨slab', next', owner'⟩ :=
      busy i n some_pages rfl fun j low high => (owned j low high).2
    rw [← start]
    refine .pages some_pages fits (slab'.trans slab) (next'.trans next) ?_
    intro j low high
    rw [total, owner' j low high]
    exact owned j low high
  | @chunk i shift c size owned behind inside fits =>
    have addr : chunkAddr pool i shift c = chunkAddr pool' i shift c := by
      rw [chunkAddr, chunkAddr, start]
    have owned' := chunks i shift owned ⟨c, inside, behind, rfl⟩
    rw [addr]
    exact .chunk owned' behind inside fits

end Congr

section Members

variable {pool : Pool} {lay : Layout} {live : Live} {r h : Ref}

theorem Head.ne_null (head : Head h) : h ≠ .null := by
  rcases head with rfl | ⟨k, _, rfl⟩ <;> simp

theorem Head.ne_page (head : Head h) (i : Nat) : h ≠ .page i := by
  rcases head with rfl | ⟨k, _, rfl⟩ <;> simp

theorem head_slot {k : Nat} (inside : k < 9) : Head (.slot k) := Or.inr ⟨k, inside, rfl⟩

theorem Inv.member_page (inv : Inv pool lay live) (head : Head h) (member : r ∈ lay.lists h) :
    ∃ i, r = .page i := by
  rcases head with rfl | ⟨k, inside, rfl⟩
  · obtain ⟨i, isPage, _⟩ := inv.free r member
    exact ⟨i, isPage⟩
  · obtain ⟨i, isPage, _⟩ := inv.slots k inside r member
    exact ⟨i, isPage⟩

theorem Inv.neighbours (inv : Inv pool lay live) (head : Head h) (member : r ∈ lay.lists h) :
    linkNext pool r ≠ .null ∧ linkPrev pool r ≠ .null ∧ linkPrev pool r ≠ r ∧
      linkNext pool r ≠ r := by
  obtain ⟨front, back, split⟩ := List.append_of_mem member
  obtain ⟨prevIn, nextIn⟩ := inv.rings.neighbours head split
  have nodup := inv.rings.nodup_split head split
  have real {q : Ref} (inside : q ∈ h :: lay.lists h) : q ≠ .null := by
    rcases List.mem_cons.mp inside with rfl | inside
    · exact head.ne_null
    · obtain ⟨i, rfl⟩ := inv.member_page head inside
      simp
  simp only [List.nodup_cons, List.mem_append, List.mem_cons, not_or, List.nodup_append] at nodup
  obtain ⟨⟨_, notHead, _⟩, _, ⟨notBack, _⟩, frontApart⟩ := nodup
  refine ⟨real ?_, real ?_, ?_, ?_⟩
  · rw [split]
    simp only [List.mem_cons, List.mem_append] at nextIn ⊢
    tauto
  · rw [split]
    simp only [List.mem_cons, List.mem_append] at prevIn ⊢
    tauto
  · intro same
    rw [same] at prevIn
    rcases List.mem_cons.mp prevIn with isHead | inFront
    · exact notHead isHead.symm
    · exact frontApart r inFront r (Or.inl rfl) rfl
  · intro same
    rw [same] at nextIn
    rcases List.mem_cons.mp nextIn with isHead | inBack
    · exact notHead isHead.symm
    · exact notBack inBack

theorem Inv.not_member (inv : Inv pool lay live) {i : Nat} (notFree : lay.owner i ≠ .free i)
    (notChunks : ∀ shift, lay.owner i ≠ .chunks shift) (head : Head h) : .page i ∉ lay.lists h := by
  intro member
  rcases head with rfl | ⟨k, inside, rfl⟩
  · obtain ⟨j, same, run⟩ := inv.free _ member
    cases same
    exact notFree run.owner
  · obtain ⟨j, same, owned⟩ := inv.slots k inside _ member
    cases same
    exact notChunks _ owned

theorem Inv.chunk_page (inv : Inv pool lay live) {i shift c : Nat}
    (owned : lay.owner i = .chunks shift) (within : c < chunkCount shift) :
    (chunkAddr pool i shift c - pool.start) / pagesize = i := by
  have page := inv.chunks i shift owned
  exact chunkAddr_page inv.aligned page.low page.high within

theorem Inv.block_not_free (inv : Inv pool lay live) {block : Nat × Nat} (inside : block ∈ live)
    {head : Nat} : lay.owner ((block.1 - pool.start) / pagesize) ≠ .free head := by
  cases inv.blocks block inside with
  | @pages k n size some_pages fits slab next owner =>
    rw [pageAddr_page, (owner k (Nat.le_refl k) (by omega)).2]
    simp
  | @chunk k s c size owner behind within fits =>
    rw [inv.chunk_page owner within, owner]
    simp

end Members

section Frames

variable {pool pool' : Pool} {lay lay' : Layout} {live live' : Live} {touched : Nat → Prop} {j : Nat}

/-- What stays of the pages that a step does not touch. -/
structure Frame (pool pool' : Pool) (lay lay' : Layout) (touched : Nat → Prop) : Prop where
  total : lay'.total = lay.total
  start : pool'.start = pool.start
  stop : pool'.stop = pool.stop
  apart : ∀ j k, touched j → ¬touched k → lay.owner j ≠ .busy k
  owner : ∀ j, ¬touched j → lay'.owner j = lay.owner j
  slots : ∀ k j, ¬touched j → (.page j ∈ lay'.lists (.slot k) ↔ .page j ∈ lay.lists (.slot k))
  slab : ∀ j, ¬touched j → (pool'.desc (.page j)).slab = (pool.desc (.page j)).slab
  type : ∀ j, ¬touched j → (pool'.desc (.page j)).prev.type = (pool.desc (.page j)).prev.type
  next : ∀ j, ¬touched j → (∀ h, Head h → .page j ∉ lay.lists h) →
    (pool'.desc (.page j)).next = (pool.desc (.page j)).next
  mem : ∀ j, ¬touched j → pool'.mem j = pool.mem j

theorem Frame.free (frame : Frame pool pool' lay lay' touched) (run : FreeRun pool lay j)
    (others : ∀ m, touched m → lay.owner m ≠ .free j) : FreeRun pool' lay' j := by
  have away : ¬touched j := fun here => others j here run.owner
  refine ⟨frame.total ▸ run.bound, (frame.owner j away).trans run.owner,
    (frame.type j away).trans run.type, ?_⟩
  intro m low high
  rw [frame.slab j away] at high
  obtain ⟨inTotal, owned⟩ := run.run m low high
  refine ⟨frame.total ▸ inTotal, ?_⟩
  rw [frame.owner m fun here => others m here owned, owned]

theorem Frame.chunks (frame : Frame pool pool' lay lay' touched) (inv : Inv pool lay live)
    {shift : Nat} (away : ¬touched j) (owned : lay.owner j = .chunks shift)
    (addrs : ∀ c < chunkCount shift,
      (chunkAddr pool j shift c ∈ live'.addrs ↔ chunkAddr pool j shift c ∈ live.addrs)) :
    ChunkPage pool' lay' live' j shift := by
  refine (inv.chunks j shift owned).congr frame.total frame.start (frame.slab j away)
    (frame.type j away) (frame.mem j away) (frame.slots _ j away) ?_ fun c within _ => addrs c within
  intro outside
  apply frame.next j away
  rintro h (rfl | ⟨k, bound, rfl⟩) member
  · obtain ⟨m, same, run⟩ := inv.free _ member
    cases same
    rw [run.owner] at owned
    cases owned
  · obtain ⟨m, same, owned'⟩ := inv.slots k bound _ member
    cases same
    rw [owned, Owner.chunks.injEq] at owned'
    apply outside
    rw [owned', Nat.add_sub_cancel]
    exact member

theorem Frame.block (frame : Frame pool pool' lay lay' touched) (inv : Inv pool lay live)
    {block : Nat × Nat} (held : Block pool lay block)
    (away : ¬touched ((block.1 - pool.start) / pagesize)) : Block pool' lay' block := by
  refine held.congr frame.total frame.start ?_ ?_
  · intro k n some_pages isAddr busy
    have first := busy k (Nat.le_refl k) (by omega)
    rw [isAddr, pageAddr_page] at away
    refine ⟨frame.slab k away, frame.next k away fun h head => ?_, ?_⟩
    · exact inv.not_member (by rw [first]; simp) (by rw [first]; simp) head
    · intro m low high
      exact frame.owner m fun here => frame.apart m k here away (busy m low high)
  · rintro k shift owned ⟨c, within, _, isAddr⟩
    rw [isAddr, inv.chunk_page owned within] at away
    rw [frame.owner k away, owned]

theorem Frame.inv (frame : Frame pool pool' lay lay' touched) (inv : Inv pool lay live)
    (rings : Rings (linkNext pool') (linkPrev pool') Head lay'.lists)
    (free : ∀ r ∈ lay'.lists .free, ∃ i, r = .page i ∧ FreeRun pool' lay' i)
    (slots : ∀ k < 9, ∀ r ∈ lay'.lists (.slot k), ∃ i, r = .page i ∧
      (touched i → lay'.owner i = .chunks (k + minShift)))
    (chunks : ∀ i shift, touched i → lay'.owner i = .chunks shift → ChunkPage pool' lay' live' i shift)
    (others : ∀ i, touched i → (∀ shift, lay'.owner i ≠ .chunks shift) →
      (pool'.desc (.page i)).prev.type = .page)
    (addrs : ∀ i shift c, ¬touched i → lay.owner i = .chunks shift → c < chunkCount shift →
      (chunkAddr pool i shift c ∈ live'.addrs ↔ chunkAddr pool i shift c ∈ live.addrs))
    (nodup : live'.addrs.Nodup)
    (blocks : ∀ block ∈ live', Block pool' lay' block ∨
      Block pool lay block ∧ ¬touched ((block.1 - pool.start) / pagesize)) :
    Inv pool' lay' live' := by
  refine ⟨frame.start ▸ inv.aligned, ?_, frame.total ▸ inv.bound, rings, free, ?_, ?_, ?_, nodup, ?_⟩
  · rw [frame.start, frame.total, frame.stop]
    exact inv.room
  · intro k bound r there
    obtain ⟨i, rfl, owned⟩ := slots k bound r there
    refine ⟨i, rfl, ?_⟩
    by_cases here : touched i
    · exact owned here
    · obtain ⟨m, same, old⟩ := inv.slots k bound _ ((frame.slots k i here).mp there)
      cases same
      rw [frame.owner i here, old]
  · intro i shift owned
    by_cases here : touched i
    · exact chunks i shift here owned
    · rw [frame.owner i here] at owned
      exact frame.chunks inv here owned fun c within => addrs i shift c here owned within
  · intro i notChunks
    by_cases here : touched i
    · exact others i here notChunks
    · rw [frame.type i here]
      apply inv.others
      intro shift owned
      exact notChunks shift ((frame.owner i here).trans owned)
  · intro block there
    rcases blocks block there with held | ⟨old, away⟩
    · exact held
    · exact frame.block inv old away

end Frames

end NgxFormal.Core.Slab
