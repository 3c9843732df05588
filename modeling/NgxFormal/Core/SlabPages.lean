import NgxFormal.Core.SlabLayout
import Mathlib.Data.List.Perm.Subperm

/-! `ngx_slab_alloc_pages` and `ngx_slab_free_pages` keep the invariant. -/

namespace NgxFormal.Core.Slab

open Function Lib.Ring

section Mark

variable (page : Page) (i n : Nat) (pool : Pool)

theorem markPages_page (j : Nat) :
    (markPages page i n pool).desc (.page j) =
      if i ≤ j ∧ j < i + n then page else pool.desc (.page j) := by
  induction n generalizing i pool with
  | zero => rw [markPages, if_neg (by omega)]
  | succ n ih =>
    rw [markPages, ih, setDesc_desc]
    simp only [Ref.page.injEq]
    by_cases later : i + 1 ≤ j ∧ j < i + 1 + n
    · rw [if_pos later, if_pos (by omega)]
    · rw [if_neg later]
      by_cases here : j = i
      · rw [if_pos here, if_pos (by omega)]
      · rw [if_neg here, if_neg (by omega)]

theorem markPages_other {r : Ref} (notPage : ∀ j, r ≠ .page j) :
    (markPages page i n pool).desc r = pool.desc r := by
  induction n generalizing i pool with
  | zero => rfl
  | succ n ih => rw [markPages, ih, setDesc_desc, if_neg (notPage i)]

@[simp] theorem markPages_mem : (markPages page i n pool).mem = pool.mem := by
  induction n generalizing i pool with
  | zero => rfl
  | succ n ih => rw [markPages, ih, setDesc_mem]

@[simp] theorem markPages_start : (markPages page i n pool).start = pool.start := by
  induction n generalizing i pool with
  | zero => rfl
  | succ n ih => rw [markPages, ih, setDesc_start]

@[simp] theorem markPages_stop : (markPages page i n pool).stop = pool.stop := by
  induction n generalizing i pool with
  | zero => rfl
  | succ n ih => rw [markPages, ih, setDesc_stop]

end Mark

section Take

variable {pool : Pool} {lay : Layout} {live : Live} {i n : Nat}

/-- The free list behind the change that `ngx_slab_alloc_pages` makes to it. -/
structure Carved (pool pool' : Pool) (lay : Layout) (i n : Nat) (list : List Ref) : Prop where
  rings : Rings (linkNext pool') (linkPrev pool') Head (update lay.lists .free list)
  members : ∀ r ∈ list, (r = .page (i + n) ∧ n < (pool.desc (.page i)).slab.toNat) ∨
    r ∈ lay.lists .free ∧ r ≠ .page i
  rest : n < (pool.desc (.page i)).slab.toNat →
    (pool'.desc (.page (i + n))).slab.toNat = (pool.desc (.page i)).slab.toNat - n ∧
      (pool'.desc (.page (i + n))).prev.type = .page
  runs : ∀ j, .page j ∈ lay.lists .free →
    (pool'.desc (.page j)).slab = (pool.desc (.page j)).slab ∧
      (pool'.desc (.page j)).prev.type = .page
  same : ∀ j, .page j ∉ lay.lists .free → (j = i + n → (pool.desc (.page i)).slab.toNat ≤ n) →
    pool'.desc (.page j) = pool.desc (.page j)
  mem : pool'.mem = pool.mem
  start : pool'.start = pool.start
  stop : pool'.stop = pool.stop

theorem Inv.free_type (inv : Inv pool lay live) {j : Nat} (inside : .page j ∈ lay.lists .free) :
    (pool.desc (.page j)).prev.type = .page := by
  obtain ⟨k, same, run⟩ := inv.free _ inside
  cases same
  exact run.type

theorem Inv.free_run (inv : Inv pool lay live) {j : Nat} (inside : .page j ∈ lay.lists .free) :
    FreeRun pool lay j := by
  obtain ⟨k, same, run⟩ := inv.free _ inside
  cases same
  exact run

theorem Inv.free_neighbours (inv : Inv pool lay live) (member : .page i ∈ lay.lists .free) :
    (pool.desc (.page i)).prev.ref ∈ Ref.free :: lay.lists .free ∧
      (pool.desc (.page i)).next ∈ Ref.free :: lay.lists .free := by
  obtain ⟨front, back, split⟩ := List.append_of_mem member
  obtain ⟨prevIn, nextIn⟩ := inv.rings.neighbours (Or.inl rfl) split
  rw [split]
  simp only [List.mem_cons, List.mem_append, linkPrev, linkNext] at prevIn nextIn ⊢
  tauto

theorem carve_whole (inv : Inv pool lay live) (member : .page i ∈ lay.lists .free)
    (whole : (pool.desc (.page i)).slab.toNat ≤ n) :
    let page := pool.desc (.page i)
    let unlinked := pool.setNext page.prev.ref page.next
    ∃ list, Carved pool (unlinked.setPrev (unlinked.desc (.page i)).next page.prev) lay i n list := by
  intro page unlinked
  have head : Head .free := Or.inl rfl
  obtain ⟨front, back, split⟩ := List.append_of_mem member
  obtain ⟨prevNear, nextNear⟩ := inv.free_neighbours member
  obtain ⟨_, _, notSelf, _⟩ := inv.neighbours head member
  have removed := inv.rings.remove head split
  have nodup := inv.rings.nodup .free head
  rw [split] at nodup
  have after : (unlinked.desc (.page i)).next = page.next := by
    simp only [unlinked, setNext_next]
    exact if_neg (Ne.symm notSelf)
  refine ⟨front ++ back, ?_, ?_, by omega, ?_, ?_, rfl, rfl, rfl⟩
  · rw [after]
    convert removed using 1
    · funext r
      simp [linkNext, linkPrev, unlinked, page, update_apply]
    · funext r
      simp only [linkNext, linkPrev, unlinked, page, update_apply, setPrev_prev, setNext_prev]
      split <;> rfl
  · intro r inside
    refine Or.inr ⟨?_, ?_⟩
    · rw [split]
      simp only [List.mem_append, List.mem_cons] at inside ⊢
      tauto
    · rintro rfl
      have distinct := List.nodup_middle.mp nodup
      exact (List.nodup_cons.mp distinct).1 inside
  · intro j inside
    refine ⟨by simp [unlinked], ?_⟩
    simp only [setPrev_prev, after, unlinked, setNext_prev]
    split
    · exact inv.free_type member
    · exact inv.free_type inside
  · intro j outside _
    have away {q : Ref} (near : q ∈ Ref.free :: lay.lists .free) : Ref.page j ≠ q := by
      rintro rfl
      rcases List.mem_cons.mp near with isHead | inside
      · cases isHead
      · exact outside inside
    rw [after]
    simp [Pool.setPrev, Pool.setNext, unlinked, page, away prevNear, away nextNear]

theorem carve_part (inv : Inv pool lay live) (member : .page i ∈ lay.lists .free) (some_pages : 1 ≤ n)
    (part : n < (pool.desc (.page i)).slab.toNat) :
    let page := pool.desc (.page i)
    let rest := Ref.page (i + n)
    let placed := (pool.setDesc rest
      ⟨page.slab - BitVec.ofNat 64 n, page.next, page.prev⟩).setNext page.prev.ref rest
    ∃ list, Carved pool (placed.setPrev (placed.desc (.page i)).next ⟨rest, .page⟩) lay i n list := by
  intro page rest placed
  have head : Head .free := Or.inl rfl
  obtain ⟨front, back, split⟩ := List.append_of_mem member
  obtain ⟨prevNear, nextNear⟩ := inv.free_neighbours member
  obtain ⟨_, _, notSelf, _⟩ := inv.neighbours head member
  have owned := (inv.free_run member).run (i + n) (by omega) (by omega)
  have fresh : ∀ k, Head k → rest ∉ lay.lists k := by
    intro k headK
    refine inv.not_member ?_ ?_ headK
    · rw [owned.2]
      simp only [ne_eq, Owner.free.injEq]
      omega
    · rw [owned.2]
      simp
  have notHead : ¬Head rest := fun isHead => isHead.ne_page (i + n) rfl
  have replaced := inv.rings.replace head split notHead fresh
  have nodup := inv.rings.nodup .free head
  rw [split] at nodup
  have apart : Ref.page i ≠ rest := by
    simp only [rest, ne_eq, Ref.page.injEq]
    omega
  have after : (placed.desc (.page i)).next = page.next := by
    have notPrev : Ref.page i ≠ page.prev.ref := Ne.symm notSelf
    simp only [placed, setNext_next]
    rw [if_neg notPrev, setDesc_desc, if_neg apart]
  refine ⟨front ++ rest :: back, ?_, ?_, ?_, ?_, ?_, rfl, rfl, rfl⟩
  · rw [after]
    convert replaced using 1
    · funext r
      simp only [linkNext, linkPrev, placed, page, update_apply, setPrev_next, setNext_next,
        setDesc_desc]
      split
      · rfl
      · split <;> rfl
    · funext r
      simp only [linkNext, linkPrev, placed, page, update_apply, setPrev_prev, setNext_prev,
        setDesc_desc]
      split
      · rfl
      · split <;> rfl
  · intro r inside
    simp only [List.mem_append, List.mem_cons] at inside
    have distinct := List.nodup_cons.mp (List.nodup_middle.mp nodup)
    have old (there : r ∈ front ∨ r ∈ back) : r ∈ lay.lists .free ∧ r ≠ .page i := by
      refine ⟨?_, ?_⟩
      · rw [split]
        simp only [List.mem_append, List.mem_cons]
        tauto
      · rintro rfl
        exact distinct.1 (List.mem_append.mpr there)
    rcases inside with inFront | rfl | inBack
    · exact Or.inr (old (Or.inl inFront))
    · exact Or.inl ⟨rfl, part⟩
    · exact Or.inr (old (Or.inr inBack))
  · intro _
    refine ⟨?_, ?_⟩
    · simp only [setPrev_slab, placed, setNext_slab, setDesc_desc, rest, if_true]
      have isLen : BitVec.toNat page.slab = (pool.desc (.page i)).slab.toNat := rfl
      have bound := page.slab.isLt
      rw [BitVec.toNat_sub, BitVec.toNat_ofNat, Nat.mod_eq_of_lt (show n < 2 ^ 64 by omega)]
      omega
    · simp only [setPrev_prev, placed, setNext_prev, setDesc_desc, rest, if_true]
      split
      · rfl
      · exact inv.free_type member
  · intro j inside
    have notRest : Ref.page j ≠ rest := by
      rintro same
      exact fresh .free head (same ▸ inside)
    simp only [setPrev_slab, setPrev_prev, placed, setNext_slab, setNext_prev, setDesc_desc,
      if_neg notRest, true_and]
    split
    · rfl
    · exact inv.free_type inside
  · intro j outside notRest
    have away {q : Ref} (near : q ∈ Ref.free :: lay.lists .free) : Ref.page j ≠ q := by
      rintro rfl
      rcases List.mem_cons.mp near with isHead | inside
      · cases isHead
      · exact outside inside
    have apart : j ≠ i + n := fun same => by
      have := notRest same
      omega
    rw [after]
    simp [Pool.setPrev, Pool.setNext, placed, page, rest, apart, away prevNear, away nextNear]

/-- `n` pages from `i` on are a block now, and the others of the run stay free. -/
def takenLayout (lay : Layout) (i n len : Nat) (list : List Ref) : Layout where
  total := lay.total
  owner j :=
    if i ≤ j ∧ j < i + n then .busy i
    else if i + n ≤ j ∧ j < i + len then .free (i + n)
    else lay.owner j
  lists := update lay.lists .free list

/-- What `ngx_slab_alloc_pages` gives: a run of pages that nothing else uses. -/
structure Granted (pool pool' : Pool) (lay lay' : Layout) (i n : Nat) : Prop where
  total : lay'.total = lay.total
  start : pool'.start = pool.start
  stop : pool'.stop = pool.stop
  mem : pool'.mem = pool.mem
  first : pool'.desc (.page i) = ⟨BitVec.ofNat 64 n ||| pageStart, .null, ⟨.null, .page⟩⟩
  owned : ∀ j, i ≤ j → j < i + n → j < lay.total ∧ lay'.owner j = .busy i
  before : ∀ j, i ≤ j → j < i + n → lay.owner j = .free i
  slots : ∀ k, lay'.lists (.slot k) = lay.lists (.slot k)

/-- The pool behind `ngx_slab_alloc_pages`. -/
def markTaken (carved : Pool) (i n : Nat) : Pool :=
  markPages ⟨busyWord, .null, ⟨.null, .page⟩⟩ (i + 1) (n - 1)
    (carved.setDesc (.page i) ⟨BitVec.ofNat 64 n ||| pageStart, .null, ⟨.null, .page⟩⟩)

theorem markTaken_inside (carved : Pool) {j : Nat} (low : i ≤ j) (high : j < i + n) :
    ((markTaken carved i n).desc (.page j)).prev.type = .page := by
  simp only [markTaken, markPages_page, setDesc_desc]
  split
  · rfl
  · rw [if_pos (by simp only [Ref.page.injEq]; omega)]

theorem markTaken_outside (carved : Pool) {j : Nat} (some_pages : 1 ≤ n)
    (outside : ¬(i ≤ j ∧ j < i + n)) :
    (markTaken carved i n).desc (.page j) = carved.desc (.page j) := by
  simp only [markTaken, markPages_page]
  rw [if_neg (by omega), setDesc_desc, if_neg (by simp only [Ref.page.injEq]; omega)]

theorem markTaken_head (carved : Pool) {r : Ref} (head : Head r) :
    (markTaken carved i n).desc r = carved.desc r := by
  rw [markTaken, markPages_other _ _ _ _ head.ne_page, setDesc_desc, if_neg (head.ne_page i)]

theorem Carved.frame {carved : Pool} {list : List Ref} (inv : Inv pool lay live)
    (member : .page i ∈ lay.lists .free) (some_pages : 1 ≤ n)
    (enough : n ≤ (pool.desc (.page i)).slab.toNat) (carve : Carved pool carved lay i n list) :
    Frame pool (markTaken carved i n) lay (takenLayout lay i n (pool.desc (.page i)).slab.toNat list)
      (fun j => i ≤ j ∧ j < i + (pool.desc (.page i)).slab.toNat) := by
  have run := inv.free_run member
  have kept : ∀ j, ¬(i ≤ j ∧ j < i + (pool.desc (.page i)).slab.toNat) →
      (markTaken carved i n).desc (.page j) = carved.desc (.page j) := fun j away =>
    markTaken_outside carved some_pages (by omega)
  have same : ∀ j, ¬(i ≤ j ∧ j < i + (pool.desc (.page i)).slab.toNat) →
      .page j ∉ lay.lists .free → carved.desc (.page j) = pool.desc (.page j) := fun j away notFree =>
    carve.same j notFree (by omega)
  refine ⟨rfl, ?_, ?_, ?_, ?_, ?_, ?_, ?_, ?_, ?_⟩
  · simp [markTaken, carve.start]
  · simp [markTaken, carve.stop]
  · intro j k here _
    rw [(run.run j here.1 here.2).2]
    simp
  · intro j away
    simp only [takenLayout]
    rw [if_neg (by omega), if_neg (by omega)]
  · intro k j _
    have apart : Ref.slot k ≠ .free := by simp
    simp only [takenLayout, update_of_ne apart]
  · intro j away
    rw [kept j away]
    by_cases inFree : .page j ∈ lay.lists .free
    · exact (carve.runs j inFree).1
    · rw [same j away inFree]
  · intro j away
    rw [kept j away]
    by_cases inFree : .page j ∈ lay.lists .free
    · rw [(carve.runs j inFree).2, inv.free_type inFree]
    · rw [same j away inFree]
  · intro j away outside
    rw [kept j away, same j away (outside _ (Or.inl rfl))]
  · intro j _
    simp [markTaken, carve.mem]

theorem Carved.taken_rings {carved : Pool} {list : List Ref} (inv : Inv pool lay live)
    (member : .page i ∈ lay.lists .free) (some_pages : 1 ≤ n)
    (enough : n ≤ (pool.desc (.page i)).slab.toNat) (carve : Carved pool carved lay i n list) :
    Rings (linkNext (markTaken carved i n)) (linkPrev (markTaken carved i n)) Head
      (update lay.lists .free list) := by
  have run := inv.free_run member
  refine carve.rings.congr (fun r head => by rw [linkNext, markTaken_head carved head]; rfl) ?_
  intro k r head inside
  obtain ⟨j, rfl, away⟩ : ∃ j, r = .page j ∧ ¬(i ≤ j ∧ j < i + n) := by
    by_cases isFree : k = .free
    · rw [isFree, update_self] at inside
      rcases carve.members r inside with ⟨rfl, _⟩ | ⟨old, notFirst⟩
      · exact ⟨i + n, rfl, by omega⟩
      · obtain ⟨j, rfl, other⟩ := inv.free r old
        refine ⟨j, rfl, fun within => notFirst ?_⟩
        have owned := (run.run j within.1 (by omega)).2
        rw [other.owner, Owner.free.injEq] at owned
        rw [owned]
    · rw [update_of_ne isFree] at inside
      obtain ⟨slot, bound, rfl⟩ := head.resolve_left isFree
      obtain ⟨j, rfl, owned⟩ := inv.slots slot bound r inside
      refine ⟨j, rfl, fun within => ?_⟩
      rw [(run.run j within.1 (by omega)).2] at owned
      cases owned
  rw [linkNext, linkPrev, markTaken_outside carved some_pages away]
  exact ⟨rfl, rfl⟩

theorem Carved.rest_run {carved : Pool} {list : List Ref} (inv : Inv pool lay live)
    (member : .page i ∈ lay.lists .free) (some_pages : 1 ≤ n)
    (carve : Carved pool carved lay i n list) (part : n < (pool.desc (.page i)).slab.toNat) :
    FreeRun (markTaken carved i n) (takenLayout lay i n (pool.desc (.page i)).slab.toNat list)
      (i + n) := by
  have run := inv.free_run member
  obtain ⟨slab, type⟩ := carve.rest part
  have last := (run.run (i + n) (by omega) (by omega)).1
  have kept := markTaken_outside carved some_pages (j := i + n) (i := i) (n := n) (by omega)
  refine ⟨Nat.le_of_lt last, ?_, ?_, ?_⟩
  · simp only [takenLayout]
    rw [if_neg (by omega), if_pos (by omega)]
  · rw [kept]
    exact type
  · intro j low high
    rw [kept, slab] at high
    refine ⟨(run.run j (by omega) (by omega)).1, ?_⟩
    simp only [takenLayout]
    rw [if_neg (by omega), if_pos (by omega)]

theorem Carved.inv {carved : Pool} {list : List Ref} (inv : Inv pool lay live)
    (member : .page i ∈ lay.lists .free) (some_pages : 1 ≤ n)
    (enough : n ≤ (pool.desc (.page i)).slab.toNat) (carve : Carved pool carved lay i n list) :
    Inv (markTaken carved i n) (takenLayout lay i n (pool.desc (.page i)).slab.toNat list) live := by
  have run := inv.free_run member
  have frame := carve.frame inv member some_pages enough
  refine frame.inv inv (carve.taken_rings inv member some_pages enough) ?_ ?_ ?_ ?_
    (fun _ _ _ _ _ _ => Iff.rfl) inv.nodup ?_
  · intro r inside
    simp only [takenLayout, update_self] at inside
    rcases carve.members r inside with ⟨rfl, part⟩ | ⟨old, notFirst⟩
    · exact ⟨i + n, rfl, carve.rest_run inv member some_pages part⟩
    · obtain ⟨j, rfl, other⟩ := inv.free r old
      refine ⟨j, rfl, frame.free other fun m here => ?_⟩
      rw [(run.run m here.1 here.2).2, ne_eq, Owner.free.injEq]
      exact fun same => notFirst (by rw [same])
  · intro k bound r inside
    have apart : Ref.slot k ≠ .free := by simp
    simp only [takenLayout, update_of_ne apart] at inside
    obtain ⟨j, rfl, owned⟩ := inv.slots k bound r inside
    refine ⟨j, rfl, fun here => ?_⟩
    rw [(run.run j here.1 here.2).2] at owned
    cases owned
  · intro j shift here owned
    simp only [takenLayout] at owned
    split at owned
    · cases owned
    · rw [if_pos (by omega)] at owned
      cases owned
  · intro j here notChunks
    by_cases first : j < i + n
    · exact markTaken_inside carved here.1 first
    · rw [markTaken_outside carved some_pages (by omega)]
      by_cases inFree : .page j ∈ lay.lists .free
      · exact (carve.runs j inFree).2
      · by_cases rest : j = i + n
        · rw [rest]
          exact (carve.rest (by omega)).2
        · rw [carve.same j inFree fun isRest => absurd isRest rest]
          apply inv.others
          intro shift owned
          rw [(run.run j here.1 here.2).2] at owned
          cases owned
  · intro block inside
    refine Or.inr ⟨inv.blocks block inside, fun here => ?_⟩
    exact inv.block_not_free inside (run.run _ here.1 here.2).2

theorem takePages_carved (inv : Inv pool lay live) (member : .page i ∈ lay.lists .free)
    (some_pages : 1 ≤ n) :
    ∃ carved list, takePages pool i n = some (markTaken carved i n) ∧
      Carved pool carved lay i n list := by
  have run := inv.free_run member
  obtain ⟨nextReal, prevReal, _, _⟩ := inv.neighbours (Or.inl rfl) member
  have guarded : ¬((pool.desc (.page i)).prev.type ≠ .page ∨ (pool.desc (.page i)).prev.ref = .null ∨
      (pool.desc (.page i)).next = .null) := by
    simp only [not_or, not_not]
    exact ⟨run.type, prevReal, nextReal⟩
  unfold takePages
  simp only [if_neg guarded]
  by_cases part : n < (pool.desc (.page i)).slab.toNat
  · obtain ⟨list, carved⟩ := carve_part inv member some_pages part
    refine ⟨_, list, ?_, carved⟩
    rw [if_pos part]
    rfl
  · obtain ⟨list, carved⟩ := carve_whole inv member (Nat.not_lt.mp part)
    refine ⟨_, list, ?_, carved⟩
    rw [if_neg part]
    rfl

theorem takePages_spec (inv : Inv pool lay live) (member : .page i ∈ lay.lists .free)
    (some_pages : 1 ≤ n) (enough : n ≤ (pool.desc (.page i)).slab.toNat) :
    ∃ pool' lay', takePages pool i n = some pool' ∧ Inv pool' lay' live ∧
      Granted pool pool' lay lay' i n := by
  set len := (pool.desc (.page i)).slab.toNat with len_eq
  have run := inv.free_run member
  obtain ⟨carvedPool, list, done, carved⟩ := takePages_carved inv member some_pages
  refine ⟨_, takenLayout lay i n len list, done, carved.inv inv member some_pages enough, ?_⟩
  · refine ⟨rfl, ?_, ?_, ?_, ?_, ?_, ?_, ?_⟩
    · simp [markTaken, carved.start]
    · simp [markTaken, carved.stop]
    · simp [markTaken, carved.mem]
    · rw [markTaken, markPages_page, if_neg (by omega), setDesc_desc, if_pos rfl]
    · intro j low high
      exact ⟨(run.run j low (by omega)).1, if_pos ⟨low, high⟩⟩
    · intro j low high
      exact (run.run j low (by omega)).2
    · intro k
      have apart : Ref.slot k ≠ .free := by simp
      simp only [takenLayout, update_of_ne apart]

theorem Inv.free_length (inv : Inv pool lay live) :
    (lay.lists .free).length ≤ lay.total + 1 := by
  have nodup := inv.rings.nodup .free (Or.inl rfl)
  have within : lay.lists .free ⊆ (List.range (lay.total + 1)).map Ref.page := by
    intro r inside
    obtain ⟨i, rfl, run⟩ := inv.free r inside
    exact List.mem_map_of_mem (List.mem_range.mpr (Nat.lt_succ_of_le run.bound))
  have short := (nodup.subperm within).length_le
  rwa [List.length_map, List.length_range] at short

theorem allocPagesLoop_spec (inv : Inv pool lay live) (some_pages : 1 ≤ n) (fuel : Nat)
    (xs : List Ref) (a : Ref) (chain : Chain (linkNext pool) (linkPrev pool) .free a xs)
    (members : ∀ r ∈ xs, r ∈ lay.lists .free) (enough : xs.length < fuel) :
    allocPagesLoop n fuel pool (linkNext pool a) = some (pool, none) ∨
      ∃ i pool' lay', allocPagesLoop n fuel pool (linkNext pool a) = some (pool', some i) ∧
        Inv pool' lay' live ∧ Granted pool pool' lay lay' i n := by
  induction xs generalizing a fuel with
  | nil =>
    obtain ⟨fuel, rfl⟩ : ∃ m, fuel = m + 1 := ⟨fuel - 1, by simp at enough; omega⟩
    rw [show linkNext pool a = .free from chain]
    exact Or.inl rfl
  | cons r xs ih =>
    obtain ⟨fuel, rfl⟩ : ∃ m, fuel = m + 1 := ⟨fuel - 1, by simp at enough; omega⟩
    obtain ⟨first, _, rest⟩ := chain
    have member := members r List.mem_cons_self
    obtain ⟨i, rfl, _⟩ := inv.free r member
    rw [first, allocPagesLoop]
    by_cases large : n ≤ (pool.desc (.page i)).slab.toNat
    · rw [if_pos large]
      obtain ⟨pool', lay', done, inv', granted⟩ := takePages_spec inv member some_pages large
      exact Or.inr ⟨i, pool', lay', by rw [done]; rfl, inv', granted⟩
    · rw [if_neg large]
      exact ih fuel (.page i) rest (fun r inside => members r (List.mem_cons_of_mem _ inside))
        (by simp at enough; omega)

/-- `ngx_slab_alloc_pages` gives pages, or `NULL` and the pool as it was. -/
theorem ngxSlabAllocPages_spec (inv : Inv pool lay live) (some_pages : 1 ≤ n) {fuel : Nat}
    (enough : lay.total + 1 < fuel) :
    ngxSlabAllocPages fuel pool n = some (pool, none) ∨
      ∃ i pool' lay', ngxSlabAllocPages fuel pool n = some (pool', some i) ∧
        Inv pool' lay' live ∧ Granted pool pool' lay lay' i n := by
  have length := inv.free_length
  exact allocPagesLoop_spec inv some_pages fuel (lay.lists .free) .free
    (inv.rings.chain .free (Or.inl rfl)) (fun _ inside => inside) (by omega)

end Take

end NgxFormal.Core.Slab

/-! Pages leave the list of a slot and come back to it. -/

namespace NgxFormal.Core.Slab

open Function Lib.Ring

section Links

variable {pool : Pool} {lists : Ref → List Ref} {h : Ref} {front back : List Ref} {i : Nat}

structure Relinked (pool pool' : Pool) (list : List Ref) (type : PageType) : Prop where
  slab : ∀ r, (pool'.desc r).slab = (pool.desc r).slab
  same : ∀ j, .page j ∉ list → pool'.desc (.page j) = pool.desc (.page j)
  type : ∀ j, (pool'.desc (.page j)).prev.type = (pool.desc (.page j)).prev.type ∨
    .page j ∈ list ∧ (pool'.desc (.page j)).prev.type = type
  mem : pool'.mem = pool.mem
  start : pool'.start = pool.start
  stop : pool'.stop = pool.stop

/-- `prev->next = page->next; page->next->prev = page->prev` -/
theorem unlink_spec (rings : Rings (linkNext pool) (linkPrev pool) Head lists)
    (pages : ∀ r ∈ lists h, ∃ j, r = .page j) (head : Head h)
    (split : lists h = front ++ .page i :: back) :
    ∃ pool', unlink pool (.page i) = some pool' ∧
      Rings (linkNext pool') (linkPrev pool') Head (update lists h (front ++ back)) ∧
      pool'.desc (.page i) = pool.desc (.page i) ∧
      Relinked pool pool' (front ++ back) (pool.desc (.page i)).prev.type := by
  obtain ⟨prevIn, nextIn⟩ := rings.neighbours head split
  have nodup := rings.nodup_split head split
  have removed := rings.remove head split
  have member {r : Ref} (inside : r ∈ front ++ back) : r ∈ lists h := by
    rw [split]
    simp only [List.mem_append, List.mem_cons] at inside ⊢
    tauto
  have prevNear : linkPrev pool (.page i) ∈ h :: (front ++ back) := by
    simp only [List.mem_cons, List.mem_append] at prevIn ⊢
    tauto
  have nextNear : linkNext pool (.page i) ∈ h :: (front ++ back) := by
    simp only [List.mem_cons, List.mem_append] at nextIn ⊢
    tauto
  have real {r : Ref} (near : r ∈ h :: (front ++ back)) : r ≠ .null ∧ r ≠ .page i := by
    rcases List.mem_cons.mp near with rfl | inside
    · exact ⟨head.ne_null, head.ne_page i⟩
    · obtain ⟨j, rfl⟩ := pages r (member inside)
      refine ⟨by simp, ?_⟩
      intro same
      rw [same] at inside
      have distinct := List.nodup_cons.mp (List.nodup_middle.mp (List.nodup_cons.mp nodup).2)
      exact distinct.1 inside
  obtain ⟨prevReal, prevApart⟩ := real prevNear
  obtain ⟨nextReal, nextApart⟩ := real nextNear
  have guarded : ¬((pool.desc (.page i)).prev.ref = .null ∨ (pool.desc (.page i)).next = .null) :=
    not_or.mpr ⟨prevReal, nextReal⟩
  have notPrev : Ref.page i ≠ (pool.desc (.page i)).prev.ref := Ne.symm prevApart
  have notNext : Ref.page i ≠ (pool.desc (.page i)).next := Ne.symm nextApart
  have away {j : Nat} (outside : .page j ∉ front ++ back) {r : Ref}
      (near : r ∈ h :: (front ++ back)) : Ref.page j ≠ r := by
    rintro rfl
    rcases List.mem_cons.mp near with same | inside
    · exact head.ne_page j same.symm
    · exact outside inside
  refine ⟨(pool.setNext (pool.desc (.page i)).prev.ref (pool.desc (.page i)).next).setPrev
    (pool.desc (.page i)).next (pool.desc (.page i)).prev, ?_, ?_, ?_, ?_⟩
  · unfold unlink
    simp only [if_neg guarded, setNext_next, if_neg notPrev, setNext_prev]
  · convert removed using 1
    · funext r
      simp [linkNext, linkPrev, update_apply]
    · funext r
      simp only [linkNext, linkPrev, update_apply, setPrev_prev, setNext_prev]
      split <;> rfl
  · simp [Pool.setPrev, Pool.setNext, notPrev, notNext]
  · refine ⟨by simp, ?_, ?_, rfl, rfl, rfl⟩
    · intro j outside
      have one := away outside prevNear
      have two := away outside nextNear
      simp only [linkPrev] at one
      simp only [linkNext] at two
      simp [Pool.setPrev, Pool.setNext, one, two]
    · intro j
      simp only [setPrev_prev, setNext_prev]
      by_cases isNext : Ref.page j = (pool.desc (.page i)).next
      · rw [if_pos isNext]
        refine Or.inr ⟨?_, rfl⟩
        rcases List.mem_cons.mp nextNear with same | inside
        · exact absurd (isNext.trans same) (Ne.symm (head.ne_page j))
        · rw [isNext]
          exact inside
      · rw [if_neg isNext]
        exact Or.inl rfl

/-- Page `i` is the first of the list `h`. -/
def enlisted (pool : Pool) (h : Ref) (i : Nat) (type : PageType) : Pool :=
  let next := (pool.desc h).next
  (((pool.setNext (.page i) next).setPrev (.page i) ⟨h, type⟩).setPrev next ⟨.page i, type⟩).setNext h
    (.page i)

theorem enlisted_spec (rings : Rings (linkNext pool) (linkPrev pool) Head lists)
    (pages : ∀ r ∈ lists h, ∃ j, r = .page j) (head : Head h)
    (fresh : ∀ k, Head k → .page i ∉ lists k) (type : PageType) :
    (pool.desc h).next ≠ .null ∧ (pool.desc h).next ≠ .page i ∧
      Rings (linkNext (enlisted pool h i type)) (linkPrev (enlisted pool h i type)) Head
        (update lists h (.page i :: lists h)) ∧
      ((enlisted pool h i type).desc (.page i)).prev.type = type ∧
      Relinked pool (enlisted pool h i type) (.page i :: lists h) type := by
  have notHead : ¬Head (.page i) := fun isHead => isHead.ne_page i rfl
  have inserted := rings.insert head notHead fresh
  have chain := rings.chain h head
  have near : linkNext pool h ∈ h :: lists h := by
    cases split : lists h with
    | nil =>
      rw [split] at chain
      rw [show linkNext pool h = h from chain]
      exact List.mem_cons_self
    | cons b bs =>
      rw [split] at chain
      rw [chain.1]
      simp
  have real : linkNext pool h ≠ .null ∧ linkNext pool h ≠ .page i := by
    rcases List.mem_cons.mp near with same | inside
    · rw [same]
      exact ⟨head.ne_null, head.ne_page i⟩
    · obtain ⟨j, same⟩ := pages _ inside
      refine ⟨by rw [same]; simp, fun isI => fresh h head (isI ▸ inside)⟩
  have notI : Ref.page i ≠ (pool.desc h).next := Ne.symm real.2
  have notH : Ref.page i ≠ h := Ne.symm (head.ne_page i)
  refine ⟨real.1, real.2, ?_, ?_, ?_, ?_, ?_, rfl, rfl, rfl⟩
  · convert inserted using 1
    · funext r
      simp only [linkNext, enlisted, update_apply, setNext_next, setPrev_next]
    · funext r
      simp only [linkNext, linkPrev, enlisted, update_apply, setNext_prev, setPrev_prev]
      split
      · rfl
      · split <;> rfl
  · simp [enlisted, notI]
  · simp [enlisted]
  · intro j outside
    simp only [List.mem_cons, not_or] at outside
    have away : Ref.page j ≠ (pool.desc h).next := by
      intro same
      rcases List.mem_cons.mp near with isHead | inside
      · exact head.ne_page j (isHead.symm.trans same.symm)
      · exact outside.2 (same ▸ inside)
    have notHead : Ref.page j ≠ h := Ne.symm (head.ne_page j)
    ext1 <;> simp [enlisted, outside.1, away, notHead]
  · intro j
    simp only [enlisted, setNext_prev, setPrev_prev]
    by_cases isNext : Ref.page j = (pool.desc h).next
    · rw [if_pos isNext]
      refine Or.inr ⟨?_, rfl⟩
      rcases List.mem_cons.mp near with isHead | inside
      · exact absurd (isNext.trans isHead) (Ne.symm (head.ne_page j))
      · rw [isNext]
        exact List.mem_cons_of_mem _ inside
    · rw [if_neg isNext]
      by_cases isI : Ref.page j = .page i
      · rw [if_pos isI, isI]
        exact Or.inr ⟨List.mem_cons_self, rfl⟩
      · rw [if_neg isI]
        exact Or.inl rfl

theorem relink_eq {slot : Nat} {type : PageType} (real : (pool.desc (.slot slot)).next ≠ .null) :
    relink pool slot i type = some (enlisted pool (.slot slot) i type) := by
  have apart : Ref.page i ≠ .slot slot := by simp
  unfold relink
  simp only [setPrev_next, setNext_next, if_neg apart, if_true, if_neg real]
  congr 1
  ext r : 2
  · ext1
    · simp [enlisted]
    · simp only [setPrev_next, setNext_next, enlisted]
    · simp only [setPrev_prev, setNext_prev, enlisted]
  · rfl
  · rfl
  · rfl

end Links

end NgxFormal.Core.Slab
