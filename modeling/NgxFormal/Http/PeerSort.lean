import Mathlib.Data.List.Induction
import NgxFormal.Http.RoundRobin

/-! `ngx_sort`, and the order in which an upstream has its peers. -/

namespace NgxFormal.Http.RoundRobin

section Sorting

variable {α : Type}

/-- The inner loop of `ngx_sort`: `p` is the element in hand, and there is room for it at `p2`. -/
def ngxSortShift (cmp : α → α → Int) (p : α) : Nat → List α → List α
  | 0, base => base.set 0 p
  | p2 + 1, base =>
    match base[p2]? with
    | none => base
    | some before =>
      if 0 < cmp before p then ngxSortShift cmp p p2 (base.set (p2 + 1) before) else base.set (p2 + 1) p

/-- The outer loop, with `turns` elements from `p1` on. -/
def ngxSortFrom (cmp : α → α → Int) : Nat → Nat → List α → List α
  | 0, _, base => base
  | turns + 1, p1, base =>
    match base[p1]? with
    | none => base
    | some p => ngxSortFrom cmp turns (p1 + 1) (ngxSortShift cmp p p1 base)

/-- `ngx_sort`; without room for the element in hand nothing is sorted. -/
def ngxSort (cmp : α → α → Int) (allocated : Bool) (base : List α) : List α :=
  if allocated then ngxSortFrom cmp (base.length - 1) 1 base else base

/-- A total preorder; `0 < cmp x y` says that `x` is after `y`. -/
structure TotalPreorder (cmp : α → α → Int) : Prop where
  total : ∀ x y, 0 < cmp x y → cmp y x ≤ 0
  trans : ∀ x y z, cmp x y ≤ 0 → cmp y z ≤ 0 → cmp x z ≤ 0

def sameRank (cmp : α → α → Int) (x y : α) : Bool := decide (cmp x y ≤ 0) && decide (cmp y x ≤ 0)

/-- The same elements in order, those of one rank as they were. -/
structure Sorted (cmp : α → α → Int) (before after : List α) : Prop where
  perm : after.Perm before
  ordered : after.Pairwise (fun x y => cmp x y ≤ 0)
  stable : ∀ x, after.filter (sameRank cmp x) = before.filter (sameRank cmp x)

variable {cmp : α → α → Int}

/-- The element goes behind the last one that is not after it. -/
theorem ngxSortShift_eq (p hole : α) (done after : List α) :
    ∃ kept moved, done = kept ++ moved ∧ (∀ x ∈ moved, 0 < cmp x p) ∧ (∀ x ∈ kept.getLast?, cmp x p ≤ 0) ∧
      ngxSortShift cmp p done.length (done ++ hole :: after) = kept ++ p :: moved ++ after := by
  induction done using List.reverseRecOn generalizing hole after with
  | nil => exact ⟨[], [], rfl, by simp, by simp, rfl⟩
  | append_singleton done x ih =>
    have at_ : (done ++ [x] ++ hole :: after)[done.length]? = some x := by simp
    rw [List.length_append, List.length_singleton, ngxSortShift, at_]
    dsimp only
    split
    · rename_i moves
      obtain ⟨kept, moved, same, behind, last, eq⟩ := ih x (x :: after)
      refine ⟨kept, moved ++ [x], by rw [same, List.append_assoc], fun y mem => ?_, last, ?_⟩
      · rcases List.mem_append.1 mem with old | new
        · exact behind y old
        · rwa [List.mem_singleton.1 new]
      · have put : (done ++ [x] ++ hole :: after).set (done.length + 1) x = done ++ x :: x :: after := by simp
        rw [put, eq]
        simp
    · rename_i stays
      exact ⟨done ++ [x], [], by simp, by simp, by simpa using stays, by simp⟩

theorem Sorted.insert (order : TotalPreorder cmp) {before kept moved : List α} {p : α}
    (sorted : Sorted cmp before (kept ++ moved)) (behind : ∀ x ∈ moved, 0 < cmp x p)
    (last : ∀ x ∈ kept.getLast?, cmp x p ≤ 0) : Sorted cmp (before ++ [p]) (kept ++ p :: moved) := by
  obtain ⟨keptOrdered, movedOrdered, across⟩ := List.pairwise_append.1 sorted.ordered
  have below : ∀ x ∈ kept, cmp x p ≤ 0 := by
    intro x mem
    obtain ⟨front, y, same⟩ := (List.eq_nil_or_concat kept).resolve_left (List.ne_nil_of_mem mem)
    rw [List.concat_eq_append] at same
    subst same
    have top : cmp y p ≤ 0 := last y (by simp)
    rcases List.mem_append.1 mem with old | new
    · exact order.trans x y p ((List.pairwise_append.1 keptOrdered).2.2 x old y (by simp)) top
    · rwa [List.mem_singleton.1 new]
  refine ⟨?_, List.pairwise_append.2 ⟨keptOrdered, List.pairwise_cons.2 ⟨fun x mem => ?_, movedOrdered⟩, ?_⟩,
    fun a => ?_⟩
  · have moved_ : (kept ++ p :: moved).Perm (p :: before) := List.perm_middle.trans (sorted.perm.cons p)
    exact moved_.trans (List.perm_append_singleton p before).symm
  · exact order.total x p (behind x mem)
  · intro x inKept y mem
    rcases List.mem_cons.1 mem with same | inMoved
    · rw [same]
      exact below x inKept
    · exact across x inKept y inMoved
  · have old := sorted.stable a
    rw [List.filter_append] at old
    rw [List.filter_append, List.filter_append, ← old, List.append_assoc]
    congr 1
    by_cases rank : sameRank cmp a p = true
    · have none_ : moved.filter (sameRank cmp a) = [] := by
        refine List.filter_eq_nil_iff.2 fun x mem same => ?_
        simp only [sameRank, Bool.and_eq_true, decide_eq_true_eq] at rank same
        exact absurd (order.trans x a p same.2 rank.1) (Int.not_le.2 (behind x mem))
      rw [List.filter_cons_of_pos rank, none_, List.nil_append, List.filter_singleton, rank]
      rfl
    · rw [List.filter_cons_of_neg rank, List.filter_singleton, Bool.eq_false_iff.2 rank]
      simp

theorem ngxSortFrom_sorted (order : TotalPreorder cmp) (rest before done : List α)
    (sorted : Sorted cmp before done) :
    Sorted cmp (before ++ rest) (ngxSortFrom cmp rest.length done.length (done ++ rest)) := by
  induction rest generalizing before done with
  | nil => simpa [ngxSortFrom] using sorted
  | cons p rest ih =>
    obtain ⟨kept, moved, same, behind, last, eq⟩ := @ngxSortShift_eq α cmp p p done rest
    have at_ : (done ++ p :: rest)[done.length]? = some p := by simp
    have next := ih (before ++ [p]) (kept ++ p :: moved) ((same ▸ sorted).insert order behind last)
    have length : (kept ++ p :: moved).length = done.length + 1 := by
      rw [same, List.length_append, List.length_append, List.length_cons]
      omega
    rw [length, List.append_assoc before] at next
    rw [List.length_cons, ngxSortFrom, at_]
    dsimp only
    rw [eq]
    exact next

theorem ngxSort_sorted (order : TotalPreorder cmp) (base : List α) : Sorted cmp base (ngxSort cmp true base) := by
  cases base with
  | nil => exact ⟨List.Perm.refl _, List.Pairwise.nil, fun _ => rfl⟩
  | cons p rest =>
    exact ngxSortFrom_sorted order rest [p] [p] ⟨List.Perm.refl _, List.pairwise_singleton _ _, fun _ => rfl⟩

end Sorting

def ngxHttpUpstreamCmpServers (first second : Peer) : Int := if first.weight < second.weight then 1 else 0

theorem cmpServers_le {first second : Peer} :
    ngxHttpUpstreamCmpServers first second ≤ 0 ↔ second.weight ≤ first.weight := by
  rw [ngxHttpUpstreamCmpServers]
  split
  · omega
  · omega

/-- Only one direction of the comparison is used. -/
theorem cmpServers_order : TotalPreorder ngxHttpUpstreamCmpServers where
  total first second after := by
    rw [cmpServers_le]
    by_contra less
    have le : ngxHttpUpstreamCmpServers first second ≤ 0 := cmpServers_le.2 (by omega)
    omega
  trans first second third le le' := by
    rw [cmpServers_le] at le le' ⊢
    omega

end NgxFormal.Http.RoundRobin
