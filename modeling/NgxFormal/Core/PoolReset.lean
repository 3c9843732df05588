import NgxFormal.Core.PallocRuns

/-! `ngx_alloc_chain_link`, `ngx_free_chain` and `ngx_reset_pool`. -/

namespace NgxFormal.Core.Palloc

open Lib

/-- `sizeof(ngx_chain_t)` -/
def sizeofChain : Nat := 16

/-- `ngx_reset_pool`; `pool->current` stays, and `pool->chain` is not part of the pool here. -/
def ngxResetPool (memory : Memory) (pool : Pool) : Memory × Pool :=
  (pool.large.foldl (fun memory l => if l.alloc = 0 then memory else memory.free l.alloc) memory,
    { pool with
      large := []
      blocks := pool.blocks.map fun p => { p with last := p.addr + sizeofPool } })

/-- A pool with `pool->chain`, and what has been handed out and not returned. -/
structure Linked where
  state : State
  chain : List Nat
  out : List Region

inductive Use
  | palloc (size : Nat)
  | pnalloc (size : Nat)
  | allocChainLink
  | freeChain (cl : Nat)
  | reset
  deriving DecidableEq

/-- An allocation, with what it hands out. -/
def Linked.handed (s : Linked) (offers : List Nat) (aligned : Bool) (size : Nat) : Linked :=
  let done := palloc aligned ⟨s.state.heap, offers⟩ s.state.pool size
  { s with
    state := s.state.returned size aligned (s.state.pool.max < size) done
    out := if done.2.2 = 0 then s.out else ⟨done.2.2, size⟩ :: s.out }

/-- A link can be returned if it has been handed out. -/
def performUse (s : Linked) (offers : List Nat) : Use → Linked
  | .palloc size => s.handed offers true size
  | .pnalloc size => s.handed offers false size
  | .allocChainLink =>
    match s.chain with
    | [] => s.handed offers true sizeofChain
    | cl :: next =>
      { s with
        chain := next
        out := ⟨cl, sizeofChain⟩ :: s.out }
  | .freeChain cl =>
    if ⟨cl, sizeofChain⟩ ∈ s.out then
      { s with
        chain := cl :: s.chain
        out := s.out.erase ⟨cl, sizeofChain⟩ }
    else s
  | .reset =>
    let (memory, pool) := ngxResetPool ⟨s.state.heap, offers⟩ s.state.pool
    { s with
      state := ⟨memory.heap, pool, []⟩
      out := [] }

def performUses (s : Linked) (uses : List (List Nat × Use)) : Linked :=
  uses.foldl (fun s (offers, use) => performUse s offers use) s

section Reset

variable {psize : Nat} {heap : List Region} {pool : Pool} {small : List Region} {s : Linked} {offers : List Nat}

theorem Held.freedAll (large : List Large) (held : Held psize heap pool small)
    (apart : ∀ p ∈ allocs large, ∀ b ∈ pool.spans, b.addr ≠ p) :
    Held psize (large.foldl (fun memory l => if l.alloc = 0 then memory else memory.free l.alloc)
      (⟨heap, offers⟩ : Memory)).heap pool small := by
  induction large generalizing heap with
  | nil => exact held
  | cons l rest ih =>
    rw [allocs_cons] at apart
    rw [List.foldl_cons]
    by_cases none_ : l.alloc = 0
    · rw [if_neg (not_not.2 none_)] at apart
      rw [if_pos none_]
      exact ih held apart
    · rw [if_pos none_] at apart
      rw [if_neg none_]
      exact ih (held.freed (apart l.alloc List.mem_cons_self)) fun p mem => apart p (List.mem_cons_of_mem _ mem)

/-- A header is at the beginning of its block. -/
theorem mem_headers {blocks : List Span} {region : Region} (mem : region ∈ headers blocks) :
    ∃ b ∈ blocks, region.start = b.addr ∧ region.size ≤ sizeofPool := by
  cases blocks with
  | nil => cases mem
  | cons first rest =>
    rcases List.mem_cons.1 mem with rfl | later
    · exact ⟨first, List.mem_cons_self, rfl, Nat.le_refl _⟩
    · obtain ⟨b, inside, rfl⟩ := List.mem_map.1 later
      exact ⟨b, List.mem_cons_of_mem _ inside, rfl, (by decide : sizeofPoolData ≤ sizeofPool)⟩

theorem Held.rewound (held : Held psize heap pool small) :
    Held psize heap (ngxResetPool ⟨heap, offers⟩ pool).2 [] := by
  obtain ⟨sound, current, max, multiple⟩ := held
  have spans : (ngxResetPool ⟨heap, offers⟩ pool).2.spans =
      pool.spans.map fun b => { b with last := b.addr + sizeofPool } := by
    unfold ngxResetPool Pool.spans
    rw [List.map_map, List.map_map]
    rfl
  have addrs : (ngxResetPool ⟨heap, offers⟩ pool).2.spans.map Span.addr = pool.spans.map Span.addr := by
    rw [spans, List.map_map]
    rfl
  have same : headers (ngxResetPool ⟨heap, offers⟩ pool).2.spans = headers pool.spans := headers_congr addrs
  refine ⟨⟨sound.heapApart, sound.heapSome, ?_, by rw [addrs]; exact sound.once, ?_, ?_⟩, ?_, max, multiple⟩
  · rw [spans]
    intro b mem
    obtain ⟨old, inside, rfl⟩ := List.mem_map.1 mem
    obtain ⟨inHeap, stop, _, _, dvd⟩ := sound.blockIn old inside
    exact ⟨inHeap, stop, Nat.le_add_right _ _, by dsimp only; omega, dvd⟩
  · rw [same, List.append_nil, spans]
    intro region mem
    obtain ⟨b, inside, start, size⟩ := mem_headers mem
    refine ⟨_, List.mem_map_of_mem inside, Nat.le_of_eq start.symm, ?_⟩
    unfold Region.stop
    dsimp only
    omega
  · rw [same, List.append_nil]
    exact sound.smallApart.sublist (List.sublist_append_left _ _)
  · unfold ngxResetPool
    rw [List.length_map]
    exact current

theorem Inv.reset {s : State} (inv : Inv psize s) :
    Inv psize ⟨(ngxResetPool ⟨s.heap, offers⟩ s.pool).1.heap, (ngxResetPool ⟨s.heap, offers⟩ s.pool).2, []⟩ := by
  have apart : ∀ p ∈ allocs s.pool.large, ∀ b ∈ s.pool.spans, b.addr ≠ p := by
    intro p mem
    obtain ⟨r, inLive, isLarge, rfl⟩ := mem_bigs.1 (inv.listed.subset mem)
    exact (inv.bigIn r inLive isLarge).2
  have freed := @Held.freedAll psize s.heap s.pool _ offers s.pool.large inv.held apart
  have rewound := @Held.rewound psize _ s.pool _ offers freed
  exact ⟨rewound, fun _ mem => absurd mem List.not_mem_nil, List.Perm.refl _, List.nodup_nil,
    fun _ mem => absurd mem List.not_mem_nil⟩

/-- What has been handed out, and the links that have been returned, are the results of the pool. -/
structure Kept (psize : Nat) (s : Linked) : Prop where
  inv : Inv psize s.state
  parts : (s.out ++ s.chain.map fun cl => (⟨cl, sizeofChain⟩ : Region)).Perm (s.state.live.map Result.region)

theorem Kept.handed (kept : Kept psize s) (aligned : Bool) (size : Nat) : Kept psize (s.handed offers aligned size) := by
  refine ⟨kept.inv.palloc, ?_⟩
  unfold Linked.handed State.returned
  dsimp only
  split
  · exact kept.parts
  · exact kept.parts.cons _

theorem Kept.use {use : Use} (kept : Kept psize s) (empty : use = .reset → s.chain = []) :
    Kept psize (performUse s offers use) := by
  cases use with
  | palloc size => exact kept.handed true size
  | pnalloc size => exact kept.handed false size
  | allocChainLink =>
    rw [performUse]
    cases chain : s.chain with
    | nil => exact kept.handed true sizeofChain
    | cons cl next =>
      have parts := kept.parts
      rw [chain, List.map_cons] at parts
      exact ⟨kept.inv, List.perm_middle.symm.trans parts⟩
  | freeChain cl =>
    rw [performUse]
    split
    · rename_i mem
      refine ⟨kept.inv, List.Perm.trans ?_ kept.parts⟩
      exact List.perm_middle.trans ((List.perm_cons_erase mem).symm.append_right _)
    · exact kept
  | reset =>
    refine ⟨kept.inv.reset, ?_⟩
    rw [performUse, empty rfl]
    exact List.Perm.refl _

/-- The chain is empty at every reset. -/
def EmptyAtReset (s : Linked) : List (List Nat × Use) → Prop
  | [] => True
  | (offers, use) :: rest => (use = .reset → s.chain = []) ∧ EmptyAtReset (performUse s offers use) rest

theorem Kept.uses (uses : List (List Nat × Use)) (kept : Kept psize s) (empty : EmptyAtReset s uses) :
    Kept psize (performUses s uses) := by
  induction uses generalizing s with
  | nil => exact kept
  | cons use rest ih => exact ih (kept.use empty.1) empty.2

end Reset

/-- What has been handed out is apart and lies in the pool, if no link is in the chain at a reset. -/
def HandedOut (s : Linked) : Prop :=
  s.out.Pairwise Region.Apart ∧ ∀ region ∈ s.out, ∃ r ∈ s.state.live, r.region = region ∧ Placed s.state r

theorem Kept.handedOut {psize : Nat} {s : Linked} (kept : Kept psize s) : HandedOut s := by
  have apart : (s.state.live.map Result.region).Pairwise Region.Apart := List.pairwise_map.2 kept.inv.apart
  have both := kept.parts.symm.pairwise apart Region.Apart.symm
  refine ⟨both.sublist (List.sublist_append_left _ _), fun region mem => ?_⟩
  obtain ⟨r, inLive, rfl⟩ := List.mem_map.1 (kept.parts.subset (List.mem_append_left _ mem))
  exact ⟨r, inLive, rfl, kept.inv.placed inLive⟩

/-- In every run that resets the pool only while no link has been returned, what is handed out is sound. -/
theorem reset_sound (pagesize size offer : Nat) (pages : pagesize = 0 ∨ 16 < pagesize ∧ pagesize < 2 ^ 64)
    (multiple : 16 ∣ size) (large : sizeofPool + sizeofPoolLarge < size)
    (fresh : Fresh [] ngxPoolAlignment ⟨offer, size⟩) (start : State)
    (created : create pagesize size offer = some start) (uses : List (List Nat × Use))
    (empty : EmptyAtReset ⟨start, [], []⟩ uses) : HandedOut (performUses ⟨start, [], []⟩ uses) := by
  obtain ⟨same, created', inv⟩ := create_spec pages multiple large fresh
  obtain rfl : start = same := Option.some.inj (created.symm.trans created')
  obtain ⟨pool, _, rfl⟩ := Option.map_eq_some_iff.1 created
  exact (Kept.uses uses ⟨inv, List.Perm.refl _⟩ empty).handedOut

def firstPool : State := (create 4096 1024 1024).get (by decide +kernel)

theorem firstPool_created : create 4096 1024 1024 = some firstPool := (Option.some_get _).symm

/-- A link is used, returned, and taken again before the reset. -/
def linkUses : List (List Nat × Use) :=
  [([], .allocChainLink), ([], .freeChain 1104), ([], .allocChainLink), ([], .reset), ([], .palloc 16)]

theorem linkUses_empty : EmptyAtReset ⟨firstPool, [], []⟩ linkUses :=
  ⟨(fun never => by cases never), (fun never => by cases never), (fun never => by cases never),
    fun _ => by decide +kernel, (fun never => by cases never), trivial⟩

theorem reset_sound_1024 : HandedOut (performUses ⟨firstPool, [], []⟩ linkUses) :=
  reset_sound 4096 1024 1024 (by decide) (by decide) (by decide) (by decide) firstPool firstPool_created linkUses
    linkUses_empty

/-- A link that has been returned is handed out after the reset, and so is its memory. -/
def staleLink : List (List Nat × Use) :=
  [([], .allocChainLink), ([], .freeChain 1104), ([], .reset), ([], .palloc 16), ([], .allocChainLink)]

theorem reset_overlaps :
    create 4096 1024 1024 = some firstPool ∧ ¬HandedOut (performUses ⟨firstPool, [], []⟩ staleLink) := by
  refine ⟨firstPool_created, fun handed => ?_⟩
  have apart := handed.1
  revert apart
  decide +kernel

end NgxFormal.Core.Palloc
