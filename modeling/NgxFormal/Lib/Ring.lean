import Mathlib.Algebra.Order.Ring.Int
import Mathlib.Data.List.Nodup

/-! Doubly linked lists that start and end at a header: taking a node out, putting one in, and
one node in the place of another, among several lists that share the nodes' memory. -/

namespace NgxFormal.Lib.Ring

open Function

variable {ρ : Type}

/-- From `a` the links lead through `xs` to `z`; every node of `xs` points back. -/
def Chain (next prev : ρ → ρ) (z : ρ) : ρ → List ρ → Prop
  | a, [] => next a = z
  | a, x :: xs => next a = x ∧ prev x = a ∧ Chain next prev z x xs

section Chain

variable {next prev next' prev' : ρ → ρ} {a x y z : ρ} {xs ys : List ρ}

theorem chain_append :
    Chain next prev z a (xs ++ y :: ys) ↔
      Chain next prev y a xs ∧ prev y = xs.getLastD a ∧ Chain next prev z y ys := by
  induction xs generalizing a with
  | nil => exact Iff.rfl
  | cons x xs ih =>
    rw [List.cons_append, Chain, ih, Chain, List.getLastD_cons]
    tauto

theorem Chain.congr (chain : Chain next prev z a xs) (nexts : ∀ i ∈ a :: xs, next' i = next i)
    (prevs : ∀ i ∈ xs, prev' i = prev i) : Chain next' prev' z a xs := by
  induction xs generalizing a with
  | nil => exact (nexts a List.mem_cons_self).trans chain
  | cons x xs ih =>
    obtain ⟨first, back, rest⟩ := chain
    refine ⟨(nexts a List.mem_cons_self).trans first,
      (prevs x List.mem_cons_self).trans back, ?_⟩
    exact ih rest (fun i inside => nexts i (List.mem_cons_of_mem _ inside))
      fun i inside => prevs i (List.mem_cons_of_mem _ inside)

theorem getLastD_mem (a : ρ) (xs : List ρ) : xs.getLastD a ∈ a :: xs := by
  induction xs generalizing a with
  | nil => exact List.mem_cons_self
  | cons x xs ih =>
    rw [List.getLastD_cons]
    exact List.mem_cons_of_mem _ (ih x)

theorem Chain.retarget [DecidableEq ρ] (chain : Chain next prev y a xs) (nodup : (a :: xs).Nodup) (z : ρ) :
    Chain (update next (xs.getLastD a) z) prev z a xs := by
  induction xs generalizing a with
  | nil => exact update_self ..
  | cons x xs ih =>
    obtain ⟨first, back, rest⟩ := chain
    have distinct := List.nodup_cons.mp nodup
    rw [List.getLastD_cons]
    refine ⟨?_, back, ih rest distinct.2⟩
    rw [update_of_ne]
    · exact first
    · intro same
      exact distinct.1 (same ▸ getLastD_mem x xs)

end Chain

/-- Lists with the headers `Head` that share no node. -/
structure Rings (next prev : ρ → ρ) (Head : ρ → Prop) (lists : ρ → List ρ) : Prop where
  chain : ∀ h, Head h → Chain next prev h h (lists h)
  nodup : ∀ h, Head h → (lists h).Nodup
  apart : ∀ h k x, Head h → Head k → x ∈ lists h → x ∈ lists k → h = k
  heads : ∀ h x, Head h → x ∈ lists h → ¬Head x

section Rings

variable {next prev next' prev' : ρ → ρ} {Head : ρ → Prop} {lists : ρ → List ρ} {h x y : ρ}
  {front back : List ρ}

theorem Rings.congr (rings : Rings next prev Head lists)
    (heads : ∀ i, Head i → next' i = next i)
    (members : ∀ k i, Head k → i ∈ lists k → next' i = next i ∧ prev' i = prev i) :
    Rings next' prev' Head lists where
  chain := by
    intro k head
    refine (rings.chain k head).congr ?_ fun i inside => (members k i head inside).2
    intro i inside
    rcases List.mem_cons.mp inside with rfl | inside
    · exact heads i head
    · exact (members k i head inside).1
  nodup := rings.nodup
  apart := rings.apart
  heads := rings.heads

theorem Rings.foreign (rings : Rings next prev Head lists) {k i j : ρ} (head : Head h)
    (other : Head k) (differ : k ≠ h) (inside : i ∈ h :: lists h) (there : j ∈ k :: lists k) :
    j ≠ i := by
  rintro rfl
  rcases List.mem_cons.mp inside with rfl | inside
  · rcases List.mem_cons.mp there with same | there
    · exact differ same.symm
    · exact rings.heads k j other there head
  · rcases List.mem_cons.mp there with rfl | there
    · exact rings.heads h j head inside other
    · exact differ (rings.apart k h j other head there inside)

theorem Rings.split (rings : Rings next prev Head lists) (head : Head h)
    (split : lists h = front ++ x :: back) :
    Chain next prev x h front ∧ prev x = front.getLastD h ∧ Chain next prev h x back := by
  have chain := rings.chain h head
  rwa [split, chain_append] at chain

theorem Rings.neighbours (rings : Rings next prev Head lists) (head : Head h)
    (split : lists h = front ++ x :: back) :
    prev x ∈ h :: front ∧ next x ∈ h :: back := by
  obtain ⟨_, before, after⟩ := rings.split head split
  constructor
  · rw [before]
    exact getLastD_mem h front
  · cases back with
    | nil => rw [show next x = h from after]; exact List.mem_cons_self
    | cons b bs => rw [after.1]; simp

theorem Rings.nodup_split (rings : Rings next prev Head lists) (head : Head h)
    (split : lists h = front ++ x :: back) : (h :: (front ++ x :: back)).Nodup := by
  rw [← split]
  exact List.nodup_cons.mpr ⟨fun inside => rings.heads h h head inside head, rings.nodup h head⟩

variable [DecidableEq ρ]

theorem Rings.change (rings : Rings next prev Head lists) (head : Head h) {xs : List ρ}
    (chain : Chain next' prev' h h xs) (nodup : xs.Nodup)
    (mine : ∀ i ∈ xs, i ∈ lists h ∨ ¬Head i ∧ ∀ k, Head k → i ∉ lists k)
    (others : ∀ k, Head k → k ≠ h → ∀ i ∈ k :: lists k, next' i = next i ∧ prev' i = prev i) :
    Rings next' prev' Head (update lists h xs) where
  chain := by
    intro k headK
    by_cases same : k = h
    · rw [same, update_self]
      exact chain
    · rw [update_of_ne same]
      exact (rings.chain k headK).congr (fun i inside => (others k headK same i inside).1)
        fun i inside => (others k headK same i (List.mem_cons_of_mem _ inside)).2
  nodup := by
    intro k headK
    by_cases same : k = h
    · rw [same, update_self]
      exact nodup
    · rw [update_of_ne same]
      exact rings.nodup k headK
  apart := by
    intro k l i headK headL inK inL
    by_cases sameK : k = h <;> by_cases sameL : l = h
    · rw [sameK, sameL]
    · rw [sameK, update_self] at inK
      rw [update_of_ne sameL] at inL
      rcases mine i inK with old | ⟨_, fresh⟩
      · rw [sameK]
        exact rings.apart h l i head headL old inL
      · exact absurd inL (fresh l headL)
    · rw [sameL, update_self] at inL
      rw [update_of_ne sameK] at inK
      rcases mine i inL with old | ⟨_, fresh⟩
      · rw [sameL]
        exact rings.apart k h i headK head inK old
      · exact absurd inK (fresh k headK)
    · rw [update_of_ne sameK] at inK
      rw [update_of_ne sameL] at inL
      exact rings.apart k l i headK headL inK inL
  heads := by
    intro k i headK inside
    by_cases same : k = h
    · rw [same, update_self] at inside
      rcases mine i inside with old | ⟨fresh, _⟩
      · exact rings.heads h i head old
      · exact fresh
    · rw [update_of_ne same] at inside
      exact rings.heads k i headK inside

/-- `prev->next = x->next; x->next->prev = x->prev` -/
theorem Rings.remove (rings : Rings next prev Head lists) (head : Head h)
    (split : lists h = front ++ x :: back) :
    Rings (update next (prev x) (next x)) (update prev (next x) (prev x)) Head
      (update lists h (front ++ back)) := by
  obtain ⟨before, prevX, after⟩ := rings.split head split
  obtain ⟨prevIn, nextIn⟩ := rings.neighbours head split
  have nodup := rings.nodup_split head split
  have nodupFront : (h :: front).Nodup :=
    nodup.sublist (List.Sublist.cons_cons h (List.sublist_append_left _ _))
  simp only [List.nodup_cons, List.nodup_append, List.mem_append, List.mem_cons, not_or]
    at nodup
  obtain ⟨⟨hFront, hx, hBack⟩, front_nodup, ⟨xBack, back_nodup⟩, frontApart⟩ := nodup
  apply rings.change head
  · cases back with
    | nil =>
      have toHead : next x = h := after
      rw [List.append_nil, toHead, prevX]
      refine (before.retarget nodupFront h).congr (fun _ _ => rfl) ?_
      intro i inside
      have away : i ≠ h := fun same => hFront (same ▸ inside)
      exact update_of_ne away _ _
    | cons b bs =>
      obtain ⟨toB, _, rest⟩ := after
      simp only [List.mem_cons, not_or, List.nodup_cons] at hBack back_nodup
      rw [toB, prevX, chain_append]
      refine ⟨(before.retarget nodupFront b).congr (fun _ _ => rfl) ?_, update_self .., ?_⟩
      · intro i inside
        exact update_of_ne (frontApart i inside b (by simp)) _ _
      · refine rest.congr ?_ ?_
        · intro i inside
          refine update_of_ne ?_ _ _
          rintro rfl
          rw [prevX] at prevIn
          rcases List.mem_cons.mp prevIn with same | inFront
          · rw [same] at inside
            rcases List.mem_cons.mp inside with same | inBs
            · exact hBack.1 same
            · exact hBack.2 inBs
          · exact frontApart _ inFront _ (Or.inr inside) rfl
        · intro i inside
          have away : i ≠ b := fun same => back_nodup.1 (same ▸ inside)
          exact update_of_ne away _ _
  · exact List.nodup_append.mpr ⟨front_nodup, back_nodup, fun a inA b inB =>
      frontApart a inA b (Or.inr inB)⟩
  · intro i inside
    rw [split]
    simp only [List.mem_append, List.mem_cons] at inside ⊢
    tauto
  · intro k headK differ i inside
    have away {j : ρ} (near : j ∈ h :: lists h) : i ≠ j :=
      rings.foreign head headK differ near inside
    refine ⟨update_of_ne (away ?_) _ _, update_of_ne (away ?_) _ _⟩
    · rw [split]
      simp only [List.mem_cons, List.mem_append] at prevIn ⊢
      tauto
    · rw [split]
      simp only [List.mem_cons, List.mem_append] at nextIn ⊢
      tauto

/-- `x->next = h->next; h->next = x; x->prev = h; x->next->prev = x` -/
theorem Rings.insert (rings : Rings next prev Head lists) (head : Head h) (notHead : ¬Head x)
    (fresh : ∀ k, Head k → x ∉ lists k) :
    Rings (update (update next x (next h)) h x) (update (update prev x h) (next h) x) Head
      (update lists h (x :: lists h)) := by
  have chain := rings.chain h head
  have nodup := rings.nodup h head
  have outside : h ∉ lists h := fun inside => rings.heads h h head inside head
  have apart : x ≠ h := fun same => notHead (same ▸ head)
  have xFresh := fresh h head
  have nextIn : next h ∈ h :: lists h := by
    cases split : lists h with
    | nil => rw [split] at chain; rw [show next h = h from chain]; exact List.mem_cons_self
    | cons b bs => rw [split] at chain; rw [chain.1]; simp
  have xNext : x ≠ next h := by
    intro same
    rw [← same] at nextIn
    rcases List.mem_cons.mp nextIn with isHead | inside
    · exact apart isHead
    · exact xFresh inside
  apply rings.change head
  · refine ⟨update_self .., ?_, ?_⟩
    · rw [update_of_ne xNext, update_self]
    · cases split : lists h with
      | nil =>
        rw [split] at chain
        have empty : next h = h := chain
        change update (update next x (next h)) h x x = h
        rw [update_of_ne apart, update_self, empty]
      | cons b bs =>
        rw [split] at chain nodup outside xFresh
        obtain ⟨first, _, rest⟩ := chain
        simp only [List.mem_cons, not_or, List.nodup_cons] at outside nodup xFresh
        refine ⟨?_, ?_, rest.congr ?_ ?_⟩
        · rw [update_of_ne apart, update_self, first]
        · rw [first, update_self]
        · intro i inside
          rw [update_of_ne, update_of_ne]
          · rintro rfl
            rcases List.mem_cons.mp inside with same | inBs
            · exact xFresh.1 same
            · exact xFresh.2 inBs
          · rintro rfl
            rcases List.mem_cons.mp inside with same | inBs
            · exact outside.1 same
            · exact outside.2 inBs
        · intro i inside
          rw [first, update_of_ne, update_of_ne]
          · exact fun same => xFresh.2 (same ▸ inside)
          · exact fun same => nodup.1 (same ▸ inside)
  · exact List.nodup_cons.mpr ⟨xFresh, nodup⟩
  · intro i inside
    rcases List.mem_cons.mp inside with rfl | old
    · exact Or.inr ⟨notHead, fresh⟩
    · exact Or.inl old
  · intro k headK differ i inside
    have away {j : ρ} (near : j ∈ h :: lists h) : i ≠ j :=
      rings.foreign head headK differ near inside
    have notX : i ≠ x := by
      rintro rfl
      rcases List.mem_cons.mp inside with rfl | inK
      · exact notHead headK
      · exact fresh k headK inK
    rw [update_of_ne (away List.mem_cons_self), update_of_ne notX, update_of_ne (away nextIn),
      update_of_ne notX]
    exact ⟨rfl, rfl⟩

theorem Rings.replace (rings : Rings next prev Head lists) (head : Head h)
    (split : lists h = front ++ x :: back) (notHead : ¬Head y) (fresh : ∀ k, Head k → y ∉ lists k) :
    Rings (update (update next y (next x)) (prev x) y) (update (update prev y (prev x)) (next x) y)
      Head (update lists h (front ++ y :: back)) := by
  obtain ⟨before, prevX, after⟩ := rings.split head split
  obtain ⟨prevIn, nextIn⟩ := rings.neighbours head split
  have nodup := rings.nodup_split head split
  have nodupFront : (h :: front).Nodup :=
    nodup.sublist (List.Sublist.cons_cons h (List.sublist_append_left _ _))
  have yFresh := fresh h head
  have yHead : y ≠ h := fun same => notHead (same ▸ head)
  rw [split] at yFresh
  simp only [List.nodup_cons, List.nodup_append, List.mem_append, List.mem_cons, not_or]
    at nodup yFresh
  obtain ⟨⟨hFront, hx, hBack⟩, front_nodup, ⟨xBack, back_nodup⟩, frontApart⟩ := nodup
  obtain ⟨yFront, _, yBack⟩ := yFresh
  have yPrev : y ≠ prev x := by
    intro same
    rw [← same] at prevIn
    rcases List.mem_cons.mp prevIn with isHead | inside
    · exact yHead isHead
    · exact yFront inside
  have yNext : y ≠ next x := by
    intro same
    rw [← same] at nextIn
    rcases List.mem_cons.mp nextIn with isHead | inside
    · exact yHead isHead
    · exact yBack inside
  apply rings.change head
  · rw [chain_append]
    refine ⟨?_, ?_, ?_⟩
    · refine (before.retarget nodupFront y).congr ?_ ?_
      · intro i inside
        have notY : i ≠ y := by
          rintro rfl
          rcases List.mem_cons.mp inside with isHead | inside
          · exact yHead isHead
          · exact yFront inside
        by_cases last : i = prev x
        · rw [last, update_self, prevX, update_self]
        · rw [update_of_ne last, update_of_ne notY, ← prevX, update_of_ne last]
      · intro i inside
        rw [update_of_ne, update_of_ne]
        · exact fun same => yFront (same ▸ inside)
        · rintro rfl
          rcases List.mem_cons.mp nextIn with isHead | inBack
          · exact hFront (isHead ▸ inside)
          · exact frontApart _ inside _ (Or.inr inBack) rfl
    · rw [update_of_ne yNext, update_self, prevX]
    · cases back with
      | nil =>
        change update (update next y (next x)) (prev x) y y = h
        rw [update_of_ne yPrev, update_self]
        exact after
      | cons b bs =>
        obtain ⟨toB, _, rest⟩ := after
        simp only [List.mem_cons, not_or, List.nodup_cons] at hBack back_nodup yBack
        refine ⟨?_, ?_, rest.congr ?_ ?_⟩
        · rw [update_of_ne yPrev, update_self, toB]
        · rw [toB, update_self]
        · intro i inside
          rw [update_of_ne, update_of_ne]
          · rintro rfl
            rcases List.mem_cons.mp inside with same | inBs
            · exact yBack.1 same
            · exact yBack.2 inBs
          · rintro rfl
            rcases List.mem_cons.mp prevIn with same | inFront
            · rw [same] at inside
              rcases List.mem_cons.mp inside with same | inBs
              · exact hBack.1 same
              · exact hBack.2 inBs
            · exact frontApart _ inFront _ (Or.inr inside) rfl
        · intro i inside
          rw [toB, update_of_ne, update_of_ne]
          · exact fun same => yBack.2 (same ▸ inside)
          · exact fun same => back_nodup.1 (same ▸ inside)
  · refine List.nodup_append.mpr ⟨front_nodup, List.nodup_cons.mpr ⟨yBack, back_nodup⟩, ?_⟩
    intro a inA b inB
    rcases List.mem_cons.mp inB with rfl | inB
    · exact fun same => yFront (same ▸ inA)
    · exact frontApart a inA b (Or.inr inB)
  · intro i inside
    rw [split]
    simp only [List.mem_append, List.mem_cons] at inside ⊢
    rcases inside with inFront | rfl | inBack
    · exact Or.inl (Or.inl inFront)
    · exact Or.inr ⟨notHead, fresh⟩
    · exact Or.inl (Or.inr (Or.inr inBack))
  · intro k headK differ i inside
    have away {j : ρ} (near : j ∈ h :: lists h) : i ≠ j :=
      rings.foreign head headK differ near inside
    have notY : i ≠ y := by
      rintro rfl
      rcases List.mem_cons.mp inside with rfl | inK
      · exact notHead headK
      · exact fresh k headK inK
    have prevNear : prev x ∈ h :: lists h := by
      rw [split]
      simp only [List.mem_cons, List.mem_append] at prevIn ⊢
      tauto
    have nextNear : next x ∈ h :: lists h := by
      rw [split]
      simp only [List.mem_cons, List.mem_append] at nextIn ⊢
      tauto
    rw [update_of_ne (away prevNear), update_of_ne notY, update_of_ne (away nextNear),
      update_of_ne notY]
    exact ⟨rfl, rfl⟩

end Rings

end NgxFormal.Lib.Ring
