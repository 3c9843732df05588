import Mathlib.Algebra.Order.Ring.Int
import Mathlib.Data.List.Basic
import Mathlib.Data.List.Pairwise

/-! Regions of memory, and what a system allocator hands out: the address is an offer of the
environment, which counts only if nothing else is there. -/

namespace NgxFormal.Lib

structure Region where
  start : Nat
  size : Nat
  deriving DecidableEq, Repr

namespace Region

def stop (a : Region) : Nat := a.start + a.size

def Apart (a b : Region) : Prop := a.stop ≤ b.start ∨ b.stop ≤ a.start

def Within (a b : Region) : Prop := b.start ≤ a.start ∧ a.stop ≤ b.stop

instance (a b : Region) : Decidable (Apart a b) :=
  inferInstanceAs (Decidable (a.stop ≤ b.start ∨ b.stop ≤ a.start))

instance (a b : Region) : Decidable (Within a b) :=
  inferInstanceAs (Decidable (b.start ≤ a.start ∧ a.stop ≤ b.stop))

theorem Apart.symm {a b : Region} (apart : Apart a b) : Apart b a := Or.symm apart

instance : Std.Symm Apart := ⟨fun _ _ => Apart.symm⟩

theorem Apart.within {a b c d : Region} (apart : Apart a b) (inA : Within c a) (inB : Within d b) :
    Apart c d := by
  rcases apart with before | behind
  · exact Or.inl (inA.2.trans (before.trans inB.1))
  · exact Or.inr (inB.2.trans (behind.trans inA.1))

theorem Apart.start_ne {a b : Region} (apart : Apart a b) (someA : 0 < a.size) (someB : 0 < b.size) :
    a.start ≠ b.start := by
  rcases apart with before | behind
  · unfold stop at before
    omega
  · unfold stop at behind
    omega

theorem apart_of_mem {regions : List Region} {a b : Region} (apart : regions.Pairwise Apart)
    (memberA : a ∈ regions) (memberB : b ∈ regions) (different : a ≠ b) : Apart a b :=
  apart.forall memberA memberB different

end Region

/-- What the system has given, and the addresses that it is going to offer. -/
structure Memory where
  heap : List Region
  offers : List Nat

/-- The system keeps to its contract with the block: it is apart from all others, aligned, and ends
inside the address space. -/
def Fresh (heap : List Region) (alignment : Nat) (block : Region) : Prop :=
  0 < block.start ∧ block.start % alignment = 0 ∧ block.stop < 2 ^ 64 ∧ ∀ other ∈ heap, block.Apart other

instance (heap : List Region) (alignment : Nat) (block : Region) :
    Decidable (Fresh heap alignment block) :=
  inferInstanceAs (Decidable (_ ∧ _ ∧ _ ∧ _))

/-- The block, or address 0. A block of no bytes has an address of its own. -/
def Memory.give (memory : Memory) (alignment size : Nat) : Memory × Nat :=
  match memory.offers with
  | [] => (memory, 0)
  | a :: offers =>
    if Fresh memory.heap alignment ⟨a, max size 1⟩ then
      (⟨⟨a, max size 1⟩ :: memory.heap, offers⟩, a)
    else ({ memory with offers := offers }, 0)

def Memory.free (memory : Memory) (p : Nat) : Memory :=
  { memory with heap := memory.heap.eraseP fun block => block.start == p }

theorem Memory.give_cases (memory : Memory) (alignment size : Nat) :
    ((memory.give alignment size).2 = 0 ∧ (memory.give alignment size).1.heap = memory.heap) ∨
      ∃ a, (memory.give alignment size).2 = a ∧ Fresh memory.heap alignment ⟨a, max size 1⟩ ∧
        (memory.give alignment size).1.heap = ⟨a, max size 1⟩ :: memory.heap := by
  unfold Memory.give
  split
  · exact Or.inl ⟨rfl, rfl⟩
  · rename_i a offers _
    by_cases fresh : Fresh memory.heap alignment ⟨a, max size 1⟩
    · rw [if_pos fresh]
      exact Or.inr ⟨a, rfl, fresh, rfl⟩
    · rw [if_neg fresh]
      exact Or.inl ⟨rfl, rfl⟩

end NgxFormal.Lib

/-! Lists of labelled closed intervals: lookup by first hit, and the sorted disjoint lists. -/

namespace NgxFormal.Lib

structure Labelled (V : Type) where
  start : Nat
  stop : Nat
  value : V
  deriving DecidableEq, Repr

variable {V : Type}

/-- The label of the first interval that covers `n`. -/
def firstHit : List (Labelled V) → Nat → Option V
  | [], _ => none
  | range :: rest, n =>
    if range.start ≤ n ∧ n ≤ range.stop then some range.value else firstHit rest n

/-- Non-empty intervals, each ending before the next one starts. -/
structure Ordered (bound : Nat) (ranges : List (Labelled V)) : Prop where
  apart : ranges.Pairwise fun left right => left.stop < right.start
  proper : ∀ range ∈ ranges, range.start ≤ range.stop ∧ range.stop ≤ bound

@[simp] theorem firstHit_nil (n : Nat) : firstHit ([] : List (Labelled V)) n = none := rfl

theorem firstHit_cons (range : Labelled V) (rest : List (Labelled V)) (n : Nat) :
    firstHit (range :: rest) n =
      if range.start ≤ n ∧ n ≤ range.stop then some range.value else firstHit rest n := rfl

theorem firstHit_append (left right : List (Labelled V)) (n : Nat) :
    firstHit (left ++ right) n = (firstHit left n).or (firstHit right n) := by
  induction left with
  | nil => simp
  | cons range rest ih =>
    rw [List.cons_append, firstHit_cons, firstHit_cons, ih]
    by_cases covers : range.start ≤ n ∧ n ≤ range.stop
    · simp [covers]
    · simp [covers]

theorem firstHit_eq_none {ranges : List (Labelled V)} {n : Nat}
    (missed : ∀ range ∈ ranges, ¬ (range.start ≤ n ∧ n ≤ range.stop)) :
    firstHit ranges n = none := by
  induction ranges with
  | nil => rfl
  | cons range rest ih =>
    rw [firstHit_cons, if_neg (missed range List.mem_cons_self)]
    exact ih fun other member => missed other (List.mem_cons_of_mem range member)

theorem firstHit_above {ranges : List (Labelled V)} {n : Nat}
    (above : ∀ range ∈ ranges, range.stop < n) : firstHit ranges n = none := by
  apply firstHit_eq_none
  intro range member covers
  have := above range member
  have := covers.2
  omega

theorem ordered_nil (bound : Nat) : Ordered bound ([] : List (Labelled V)) :=
  ⟨List.Pairwise.nil, by simp⟩

theorem ordered_append {bound : Nat} {left right : List (Labelled V)} :
    Ordered bound (left ++ right) ↔
      Ordered bound left ∧ Ordered bound right ∧
        ∀ first ∈ left, ∀ second ∈ right, first.stop < second.start := by
  constructor
  · intro ordered
    have parts := List.pairwise_append.mp ordered.apart
    refine ⟨⟨parts.1, ?_⟩, ⟨parts.2.1, ?_⟩, parts.2.2⟩
    · intro range member
      exact ordered.proper range (List.mem_append_left right member)
    · intro range member
      exact ordered.proper range (List.mem_append_right left member)
  · rintro ⟨orderedLeft, orderedRight, across⟩
    refine ⟨List.pairwise_append.mpr ⟨orderedLeft.apart, orderedRight.apart, across⟩, ?_⟩
    intro range member
    rcases List.mem_append.mp member with inLeft | inRight
    · exact orderedLeft.proper range inLeft
    · exact orderedRight.proper range inRight

theorem ordered_cons {bound : Nat} {range : Labelled V} {rest : List (Labelled V)} :
    Ordered bound (range :: rest) ↔
      (range.start ≤ range.stop ∧ range.stop ≤ bound) ∧ Ordered bound rest ∧
        ∀ other ∈ rest, range.stop < other.start := by
  constructor
  · intro ordered
    have parts := List.pairwise_cons.mp ordered.apart
    refine ⟨ordered.proper range List.mem_cons_self, ⟨parts.2, ?_⟩, parts.1⟩
    intro other member
    exact ordered.proper other (List.mem_cons_of_mem range member)
  · rintro ⟨proper, ordered, before⟩
    refine ⟨List.pairwise_cons.mpr ⟨before, ordered.apart⟩, ?_⟩
    intro other member
    rcases List.mem_cons.mp member with rfl | inRest
    · exact proper
    · exact ordered.proper other inRest

end NgxFormal.Lib
