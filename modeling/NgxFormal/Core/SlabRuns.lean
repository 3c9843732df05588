import NgxFormal.Core.SlabOps
import NgxFormal.Lib.Runs

/-! Sequences of allocations and frees on a pool that `ngx_slab_init` set up. -/

namespace NgxFormal.Core.Slab

open Function Lib.Ring

/-- What the owners of zones see to: they map whole pages, and the configuration asks for at least
two of them. -/
structure Zone.Usable (zone : Zone) : Prop where
  aligned : zone.addr % pagesize = 0
  header : zone.header ≤ 160
  room : zone.addr + 2 * pagesize ≤ zone.stop
  bound : zone.stop < 2 ^ 64

section Init

variable {zone : Zone}

theorem initLayout_spec (usable : zone.Usable) :
    (initLayout zone).2 % pagesize = 0 ∧
      (initLayout zone).2 + (initLayout zone).1 * pagesize ≤ zone.stop ∧
      (initLayout zone).1 < 2 ^ 52 := by
  obtain ⟨aligned, header, room, bound⟩ := usable
  simp only [pagesize] at aligned room
  set pages := (zone.stop - (zone.addr + zone.header)) / (pagesize + pageSizeof) with pages_eq
  set start := ngxAlignPtr (zone.addr + zone.header + (pagesizeShift - minShift) * pageSizeof +
    pages * pageSizeof) pagesize with start_eq
  have start_spec : start % 4096 = 0 ∧ start ≤ zone.stop := by
    simp only [pagesizeShift, minShift, pagesize, pageSizeof, ngxAlignPtr] at pages_eq start_eq
    omega
  obtain ⟨multiple, within⟩ := start_spec
  have short : pages < 2 ^ 52 := by
    simp only [pagesize, pageSizeof] at pages_eq
    omega
  have fits : (((zone.stop : Int) - start) % 2 ^ 64).toNat / pagesize = (zone.stop - start) / 4096 := by
    simp only [pagesize]
    omega
  have layout : initLayout zone =
      (if ((pages : Int) - ((zone.stop - start) / 4096 : Nat)).bmod (2 ^ 64) > 0 then
        pages - (((pages : Int) - ((zone.stop - start) / 4096 : Nat)).bmod (2 ^ 64)).toNat
        else pages, start) := by
    rw [← fits]
    rfl
  have noWrap : ((pages : Int) - ((zone.stop - start) / 4096 : Nat)).bmod (2 ^ 64) =
      (pages : Int) - ((zone.stop - start) / 4096 : Nat) := by
    clear_value pages
    have low : -(2 ^ 62 : Int) ≤ (pages : Int) - ((zone.stop - start) / 4096 : Nat) := by omega
    have high : (pages : Int) - ((zone.stop - start) / 4096 : Nat) ≤ 2 ^ 62 := by omega
    exact Int.bmod_eq_of_le (Int.le_trans (by decide) low) (Int.lt_of_le_of_lt high (by decide))
  rw [layout, noWrap]
  simp only [pagesize]
  split <;> omega

def initPages (total : Nat) : Layout where
  total := total
  owner _ := .free 0
  lists := update (fun _ => []) .free [.page 0]

theorem ngxSlabInit_inv (usable : zone.Usable) (mem : Nat → Nat → Word) :
    Inv (ngxSlabInit zone mem) (initPages (initLayout zone).1) [] := by
  obtain ⟨aligned, room, bound⟩ := initLayout_spec usable
  have lists {h : Ref} (apart : h ≠ .free) : (initPages (initLayout zone).1).lists h = [] := by
    simp only [initPages, update_of_ne apart]
  have free : (initPages (initLayout zone).1).lists .free = [.page 0] := by
    simp only [initPages, update_self]
  have length : BitVec.toNat ((ngxSlabInit zone mem).desc (.page 0)).slab = (initLayout zone).1 := by
    change (BitVec.ofNat 64 (initLayout zone).1).toNat = (initLayout zone).1
    rw [BitVec.toNat_ofNat]
    exact Nat.mod_eq_of_lt (by omega)
  refine ⟨aligned, room, bound, ?_, ?_, ?_, ?_, ?_, List.nodup_nil, ?_⟩
  · refine ⟨?_, ?_, ?_, ?_⟩
    · rintro h (rfl | ⟨k, _, rfl⟩)
      · rw [free]
        exact ⟨rfl, rfl, rfl⟩
      · rw [lists (by simp)]
        rfl
    · intro h _
      by_cases isFree : h = .free
      · rw [isFree, free]
        exact List.nodup_singleton _
      · rw [lists isFree]
        exact List.nodup_nil
    · intro h k r _ _ inH inK
      have isFree {g : Ref} (there : r ∈ (initPages (initLayout zone).1).lists g) : g = .free := by
        by_contra apart
        rw [lists apart] at there
        cases there
      rw [isFree inH, isFree inK]
    · intro h r _ there isHead
      by_cases isFree : h = .free
      · rw [isFree, free, List.mem_singleton] at there
        exact isHead.ne_page 0 there
      · rw [lists isFree] at there
        cases there
  · intro r there
    rw [free, List.mem_singleton] at there
    refine ⟨0, there, Nat.zero_le _, rfl, rfl, ?_⟩
    intro j _ within
    rw [length, Nat.zero_add] at within
    exact ⟨within, rfl⟩
  · intro k _ r there
    rw [lists (by simp)] at there
    cases there
  · intro i shift owned
    cases owned
  · intro i _
    cases i <;> rfl
  · intro block there
    cases there

end Init

section Sound

variable {pool : Pool} {lay : Layout} {live : Live}

theorem Inv.span (inv : Inv pool lay live) {block : Nat × Nat} (inside : block ∈ live) :
    ∃ k n, 1 ≤ n ∧ pool.start + k * pagesize ≤ block.1 ∧
      block.1 + block.2 ≤ pool.start + (k + n) * pagesize ∧
      ((block.1 = pool.start + k * pagesize ∧ ∀ j, k ≤ j → j < k + n → lay.owner j = .busy k) ∨
        n = 1 ∧ ∃ s c, lay.owner k = .chunks s ∧ reserved s ≤ c ∧ c < chunkCount s ∧
          block.1 = pool.start + k * pagesize + c * 2 ^ s ∧ block.2 ≤ 2 ^ s) := by
  cases inv.blocks block inside with
  | @pages k n size some_pages fits slab next owner =>
    refine ⟨k, n, some_pages, Nat.le_refl _, ?_,
      Or.inl ⟨rfl, fun j low high => (owner j low high).2⟩⟩
    rw [Nat.add_mul]
    simp only
    omega
  | @chunk k s c size owner behind within fits =>
    have page := inv.chunks k s owner
    have room := (chunk_room page.low page.high).1
    have chunks : (c + 1) * 2 ^ s ≤ chunkCount s * 2 ^ s := Nat.mul_le_mul_right _ within
    rw [Nat.add_mul, Nat.one_mul] at chunks
    have isPage : k <<< pagesizeShift = k * pagesize := Nat.shiftLeft_eq k 12
    have addr : chunkAddr pool k s c = pool.start + k * pagesize + c * 2 ^ s := by
      rw [chunkAddr, isPage, Nat.shiftLeft_eq]
    refine ⟨k, 1, Nat.le_refl 1, ?_, ?_, Or.inr ⟨rfl, s, c, owner, behind, within, addr, fits⟩⟩
    · simp only [addr]
      omega
    · rw [Nat.add_mul, Nat.one_mul]
      simp only [addr]
      omega

theorem Inv.disjoint (inv : Inv pool lay live) {a b : Nat × Nat} (inA : a ∈ live) (inB : b ∈ live)
    (apart : a.1 ≠ b.1) : a.1 + a.2 ≤ b.1 ∨ b.1 + b.2 ≤ a.1 := by
  obtain ⟨k, n, someK, lowA, highA, placeA⟩ := inv.span inA
  obtain ⟨l, m, someL, lowB, highB, placeB⟩ := inv.span inB
  rcases Nat.lt_or_ge l (k + n) with meetA | clearA
  · rcases Nat.lt_or_ge k (l + m) with meetB | clearB
    · rcases placeA with ⟨addrA, busyA⟩ | ⟨oneA, s, c, ownA, _, _, addrA, fitsA⟩
      · rcases placeB with ⟨addrB, busyB⟩ | ⟨oneB, t, d, ownB, _⟩
        · -- a common page has both heads as its owner
          have ownerA := busyA (max k l) (by omega) (by omega)
          have ownerB := busyB (max k l) (by omega) (by omega)
          rw [ownerA, Owner.busy.injEq] at ownerB
          rw [addrA, addrB, ownerB] at apart
          exact absurd rfl apart
        · rw [busyA l (by omega) meetA] at ownB
          cases ownB
      · rcases placeB with ⟨addrB, busyB⟩ | ⟨oneB, t, d, ownB, _, _, addrB, fitsB⟩
        · rw [busyB k (by omega) meetB] at ownA
          cases ownA
        · have same : l = k := by omega
          subst same
          rw [ownA, Owner.chunks.injEq] at ownB
          subst ownB
          rcases Nat.lt_trichotomy c d with below | equal | above
          · have gap : (c + 1) * 2 ^ s ≤ d * 2 ^ s := Nat.mul_le_mul_right _ below
            rw [Nat.add_mul, Nat.one_mul] at gap
            omega
          · rw [addrA, addrB, equal] at apart
            exact absurd rfl apart
          · have gap : (d + 1) * 2 ^ s ≤ c * 2 ^ s := Nat.mul_le_mul_right _ above
            rw [Nat.add_mul, Nat.one_mul] at gap
            omega
    · have gap : (l + m) * pagesize ≤ k * pagesize := Nat.mul_le_mul_right _ clearB
      omega
  · have gap : (k + n) * pagesize ≤ l * pagesize := Nat.mul_le_mul_right _ clearA
    omega

theorem Inv.bitmap_apart (inv : Inv pool lay live) {i shift : Nat}
    (owned : lay.owner i = .chunks shift) (small : shift < exactShift) {block : Nat × Nat}
    (inside : block ∈ live) :
    pool.start + i * pagesize + mapWords shift * 8 ≤ block.1 ∨
      block.1 + block.2 ≤ pool.start + i * pagesize := by
  have page := inv.chunks i shift owned
  obtain ⟨wholePage, bitmap⟩ := chunk_room page.low page.high
  have short := (bitmapChunks_le page.low small).2
  have within : bitmapChunks shift * 2 ^ shift ≤ chunkCount shift * 2 ^ shift :=
    Nat.mul_le_mul_right _ (Nat.le_of_lt short)
  obtain ⟨k, n, someK, low, high, place⟩ := inv.span inside
  rcases Nat.lt_trichotomy k i with before | same | behind
  · right
    have clear : k + n ≤ i := by
      rcases place with ⟨_, busy⟩ | ⟨one, _⟩
      · by_contra meets
        rw [busy i (by omega) (by omega)] at owned
        cases owned
      · omega
    have gap : (k + n) * pagesize ≤ i * pagesize := Nat.mul_le_mul_right _ clear
    omega
  · left
    subst same
    rcases place with ⟨_, busy⟩ | ⟨_, s, c, own, past, _, addr, _⟩
    · rw [busy k (Nat.le_refl k) (by omega)] at owned
      cases owned
    · rw [owned, Owner.chunks.injEq] at own
      subst own
      rw [reserved, if_pos small] at past
      have gap : bitmapChunks shift * 2 ^ shift ≤ c * 2 ^ shift := Nat.mul_le_mul_right _ past
      omega
  · left
    have gap : (i + 1) * pagesize ≤ k * pagesize := Nat.mul_le_mul_right _ behind
    rw [Nat.add_mul, Nat.one_mul] at gap
    omega

/-- The pages that the search from `slots[k]` passes. -/
inductive Linked (pool : Pool) (k : Nat) : Ref → Prop where
  | first (some_page : (pool.desc (.slot k)).next ≠ .slot k) : Linked pool k (pool.desc (.slot k)).next
  | next {r : Ref} (linked : Linked pool k r) (more : (pool.desc r).next ≠ .slot k) :
      Linked pool k (pool.desc r).next

theorem Inv.linked_mem (inv : Inv pool lay live) {k : Nat} (bound : k < 9) {r : Ref}
    (linked : Linked pool k r) : r ∈ lay.lists (.slot k) := by
  have head := head_slot bound
  induction linked with
  | first some_page =>
    have chain := inv.rings.chain _ head
    cases list : lay.lists (.slot k) with
    | nil =>
      rw [list] at chain
      exact absurd chain some_page
    | cons x rest =>
      rw [list] at chain
      have first : (pool.desc (.slot k)).next = x := chain.1
      rw [first]
      exact List.mem_cons_self
  | @next r linked more ih =>
    obtain ⟨front, back, split⟩ := List.append_of_mem ih
    obtain ⟨_, nextIn⟩ := inv.rings.neighbours head split
    rcases List.mem_cons.mp nextIn with isHead | inBack
    · exact absurd isHead more
    · rw [split]
      exact List.mem_append_right _ (List.mem_cons_of_mem _ inBack)

end Sound

/-- A pool with the blocks that are in use. -/
structure World where
  pool : Pool
  live : Live

/-- A call, or stores by the users of the blocks. -/
inductive Op where
  | alloc (size : Nat)
  | free (p : Nat)
  | store (mem : Nat → Nat → Word)

def wordAddr (pool : Pool) (i n : Nat) : Nat := pool.start + i * pagesize + n * 8

def step (fuel : Nat) (world : World) : Op → Option World
  | .alloc size =>
    (ngxSlabAllocLocked fuel world.pool size).map fun
      | (pool, some p) => ⟨pool, (p, size) :: world.live⟩
      | (pool, none) => ⟨pool, world.live⟩
  | .free p => (ngxSlabFreeLocked world.pool p).map fun pool => ⟨pool, world.live.without p⟩
  | .store mem => some ⟨{ world.pool with mem := mem }, world.live⟩

/-- What the callers see to: sizes do not wrap, each pointer is freed once, and stores stay in the
blocks in use. -/
def Legal (world : World) : Op → Prop
  | .alloc size => size + pagesize < 2 ^ 64
  | .free p => p ∈ world.live.addrs
  | .store mem => ∀ i n, (∀ block ∈ world.live, wordAddr world.pool i n + 8 ≤ block.1 ∨
      block.1 + block.2 ≤ wordAddr world.pool i n) → mem i n = world.pool.mem i n

/-- What the callers rely on. -/
structure Sound (world : World) : Prop where
  inside : ∀ block ∈ world.live,
    world.pool.start ≤ block.1 ∧ block.1 + block.2 ≤ world.pool.stop
  disjoint : world.live.Pairwise fun a b => a.1 + a.2 ≤ b.1 ∨ b.1 + b.2 ≤ a.1
  bitmaps : ∀ i, (world.pool.desc (.page i)).prev.type = .small → ∀ block ∈ world.live,
    world.pool.start + i * pagesize +
        mapWords ((world.pool.desc (.page i)).slab &&& shiftMask).toNat * 8 ≤ block.1 ∨
      block.1 + block.2 ≤ world.pool.start + i * pagesize
  slots : ∀ k < 9, ∀ r, Linked world.pool k r → ∃ i, r = .page i ∧
    (world.pool.desc (.page i)).prev.type = pageType (k + minShift) ∧
    ∃ c < chunkCount (k + minShift), chunkUsed world.pool i (k + minShift) c = false ∧
      chunkAddr world.pool i (k + minShift) c ∉ world.live.addrs

theorem Inv.sound {pool : Pool} {lay : Layout} {live : Live} (inv : Inv pool lay live) :
    Sound ⟨pool, live⟩ := by
  refine ⟨?_, ?_, ?_, ?_⟩
  · intro block inside
    obtain ⟨low, high⟩ := inv.block_room inside
    exact ⟨low, Nat.le_trans high inv.room⟩
  · have distinct : live.Pairwise fun a b => a.1 ≠ b.1 := List.pairwise_map.mp inv.nodup
    refine List.Pairwise.imp_of_mem ?_ distinct
    intro a b inA inB apart
    exact inv.disjoint inA inB apart
  · intro i type block inside
    cases owner : lay.owner i with
    | chunks shift =>
      have page := inv.chunks i shift owner
      have small : shift < exactShift := by
        by_contra large
        have isType := page.type.symm.trans type
        rw [pageType, if_neg large] at isType
        split at isType <;> cases isType
      rw [slab_shift (Nat.ne_of_lt small) page.high page.tagged]
      exact inv.bitmap_apart owner small inside
    | _ =>
      have isPage := inv.others i (by rw [owner]; simp)
      rw [isPage] at type
      cases type
  · intro k bound r linked
    obtain ⟨i, rfl, owned⟩ := inv.slots k bound r (inv.linked_mem bound linked)
    have page := inv.chunks i _ owned
    refine ⟨i, rfl, page.type, ?_⟩
    rcases page.listed with ⟨_, c, within, clear⟩ | ⟨_, outside, _⟩
    · refine ⟨c, within, clear, ?_⟩
      intro there
      rw [(page.used c within).mpr (Or.inr there)] at clear
      cases clear
    · rw [Nat.add_sub_cancel] at outside
      exact absurd (inv.linked_mem bound linked) outside

section Steps

variable {pool : Pool} {lay : Layout} {live : Live} {fuel : Nat}

theorem Inv.store (inv : Inv pool lay live) {mem : Nat → Nat → Word}
    (legal : Legal ⟨pool, live⟩ (.store mem)) : Inv { pool with mem := mem } lay live := by
  refine ⟨inv.aligned, inv.room, inv.bound, inv.rings, ?_, inv.slots, ?_, inv.others, inv.nodup, ?_⟩
  · intro r there
    obtain ⟨i, isPage, run⟩ := inv.free r there
    exact ⟨i, isPage, run.bound, run.owner, run.type, run.run⟩
  · intro i shift owned
    have page := inv.chunks i shift owned
    have used : ∀ c < chunkCount shift,
        chunkUsed { pool with mem := mem } i shift c = chunkUsed pool i shift c := by
      intro c within
      by_cases small : shift < exactShift
      · have count := ((chunkCount_cases page.low page.high).1 small).1
        have word : mem i (c / 64) = pool.mem i (c / 64) := by
          apply legal
          intro block inside
          simp only [wordAddr]
          have apart := inv.bitmap_apart owned small inside
          omega
        rw [chunkUsed, chunkUsed, if_pos small, if_pos small]
        exact congrArg (fun w : Word => w.getLsbD (c % 64)) word
      · rw [chunkUsed, chunkUsed, if_neg small, if_neg small]
    refine ⟨page.inside, page.low, page.high, page.type, page.tagged, ?_, ?_⟩
    · intro c within
      rw [used c within]
      exact page.used c within
    · rcases page.listed with ⟨listed, c, within, clear⟩ | ⟨isNull, outside, full⟩
      · exact Or.inl ⟨listed, c, within, (used c within).trans clear⟩
      · exact Or.inr ⟨isNull, outside, fun c within => (used c within).trans (full c within)⟩
  · intro block inside
    exact (inv.blocks block inside).congr rfl rfl (fun _ _ _ _ _ => ⟨rfl, rfl, fun _ _ _ => rfl⟩)
      fun _ _ owned _ => owned

theorem Inv.step (inv : Inv pool lay live) (enough : lay.total + 1 < fuel) {op : Op}
    (legal : Legal ⟨pool, live⟩ op) :
    ∃ world lay', step fuel ⟨pool, live⟩ op = some world ∧ lay'.total = lay.total ∧
      Inv world.pool lay' world.live := by
  cases op with
  | alloc size =>
    rcases ngxSlabAllocLocked_spec inv enough legal with
      out | ⟨p, pool', done, _, _, lay', total, inv'⟩
    · exact ⟨⟨pool, live⟩, lay, by rw [Slab.step, out]; rfl, rfl, inv⟩
    · exact ⟨⟨pool', (p, size) :: live⟩, lay', by rw [Slab.step, done]; rfl, total, inv'⟩
  | free p =>
    obtain ⟨pool', done, _, _, lay', total, inv'⟩ := ngxSlabFreeLocked_spec inv legal
    exact ⟨⟨pool', live.without p⟩, lay', by rw [Slab.step, done]; rfl, total, inv'⟩
  | store mem => exact ⟨_, lay, rfl, rfl, inv.store legal⟩

theorem Inv.run (inv : Inv pool lay live) (enough : lay.total + 1 < fuel) (ops : List Op)
    (legal : Lib.Meets (Slab.step fuel) Legal ⟨pool, live⟩ ops) :
    ∃ final lay', Lib.run (Slab.step fuel) ⟨pool, live⟩ ops = some final ∧
      Inv final.pool lay' final.live := by
  induction ops generalizing pool lay live with
  | nil => exact ⟨⟨pool, live⟩, lay, rfl, inv⟩
  | cons op rest ih =>
    obtain ⟨world, lay', stepped, total, inv'⟩ := inv.step enough legal.1
    obtain ⟨final, lay'', ran, done⟩ := ih inv' (total ▸ enough) (legal.2 world stepped)
    refine ⟨final, lay'', ?_, done⟩
    rw [Lib.run_cons, stepped]
    exact ran

end Steps

/-- Every sequence of allocations and frees runs to its end, and the blocks in use are then inside
the pool, apart from each other and from the bitmaps, and every page in a list has a free chunk. -/
theorem slab_sound (zone : Zone) (usable : zone.Usable) (mem : Nat → Nat → Word) (fuel : Nat)
    (enough : (initLayout zone).1 + 1 < fuel) (ops : List Op)
    (legal : Lib.Meets (step fuel) Legal ⟨ngxSlabInit zone mem, []⟩ ops) :
    ∃ final, Lib.run (step fuel) ⟨ngxSlabInit zone mem, []⟩ ops = some final ∧ Sound final := by
  obtain ⟨final, lay, ran, inv⟩ := (ngxSlabInit_inv usable mem).run enough ops legal
  exact ⟨final, ran, inv.sound⟩

/-- A chunk behind a bitmap and a block of two pages are taken in a zone of eight pages, and the chunk
is freed with its page. -/
theorem slab_sound_two_blocks :
    let zone : Zone := ⟨65536, 160, 98304⟩
    let start : World := ⟨ngxSlabInit zone fun _ _ => 0, []⟩
    let ops : List Op := [.alloc 10, .alloc 5000, .free 69664]
    Lib.Meets (step 9) Legal start ops ∧
      ∃ final, Lib.run (step 9) start ops = some final ∧ Sound final := by
  intro zone start ops
  have usable : zone.Usable := ⟨by decide, by decide, by decide, by decide⟩
  have blocks : (Lib.run (step 9) start [.alloc 10, .alloc 5000]).map World.live =
      some [(73728, 5000), (69664, 10)] := by decide +kernel
  have legal : Lib.Meets (step 9) Legal start ops := by
    refine ⟨show 10 + pagesize < 2 ^ 64 by decide, fun one first =>
      ⟨show 5000 + pagesize < 2 ^ 64 by decide, fun two second => ⟨?_, fun _ _ => trivial⟩⟩⟩
    rw [Lib.run_cons, first, Option.bind_some, Lib.run_cons, second] at blocks
    have isLive : two.live = [(73728, 5000), (69664, 10)] := by simpa using blocks
    show 69664 ∈ two.live.addrs
    rw [isLive]
    decide
  exact ⟨legal, slab_sound zone usable _ 9 (by decide) ops legal⟩

end NgxFormal.Core.Slab
