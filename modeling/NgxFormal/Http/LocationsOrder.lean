import NgxFormal.Http.Locations
import NgxFormal.Lib.Words
import Mathlib.Data.List.TakeWhile
import Mathlib.Data.Prod.Lex

/-! The order of locations: the comparisons, the sorted queue and the joined queue. -/

namespace NgxFormal.Http.Locations

open Lib.Words

scoped instance byteOrder : LinearOrder UInt8 where
  le_refl a := UInt8.le_refl a
  le_trans _ _ _ := UInt8.le_trans
  lt_iff_le_not_ge a b := by
    rw [UInt8.not_le]
    exact ⟨fun less => ⟨UInt8.le_of_lt less, less⟩, fun both => both.2⟩
  le_antisymm _ _ := UInt8.le_antisymm
  le_total := UInt8.le_total
  toDecidableLE := inferInstance
  toDecidableLT := inferInstance
  toDecidableEq := inferInstance

section Compare

variable {u v : List UInt8}

theorem strcmp_cases (plain : ∀ b ∈ u, b ≠ 0) (plain' : ∀ b ∈ v, b ≠ 0) :
    (ngxStrcmp u v = .lt ∧ u < v) ∨ (ngxStrcmp u v = .eq ∧ u = v) ∨ (ngxStrcmp u v = .gt ∧ v < u) := by
  have positive (b : UInt8) (some_byte : b ≠ 0) : 0 < b := UInt8.pos_iff_ne_zero.mpr some_byte
  induction u generalizing v with
  | nil =>
    cases v with
    | nil => exact Or.inr (Or.inl ⟨rfl, rfl⟩)
    | cons b v =>
      refine Or.inl ⟨?_, List.nil_lt_cons b v⟩
      exact if_pos (positive b (plain' b List.mem_cons_self))
  | cons a u ih =>
    cases v with
    | nil =>
      refine Or.inr (Or.inr ⟨?_, List.nil_lt_cons a u⟩)
      exact if_pos (positive a (plain a List.mem_cons_self))
    | cons b v =>
      rw [ngxStrcmp, lt_cons_iff, lt_cons_iff, List.cons.injEq]
      rcases lt_trichotomy a b with less | rfl | greater
      · exact Or.inl ⟨if_pos less, Or.inl less⟩
      · have later := ih (fun b inside => plain b (List.mem_cons_of_mem _ inside))
          (fun b inside => plain' b (List.mem_cons_of_mem _ inside))
        rw [if_neg (lt_irrefl a), if_neg (lt_irrefl a), if_neg (plain a List.mem_cons_self)]
        simpa using later
      · refine Or.inr (Or.inr ⟨?_, Or.inl greater⟩)
        rw [if_neg (lt_asymm greater), if_pos greater]

theorem memcmp_cases {n : Nat} (inLeft : n ≤ u.length) (inRight : n ≤ v.length) :
    (ngxMemcmp u v n = .lt ∧ u < v ∧ ¬u <+: v) ∨
    (ngxMemcmp u v n = .eq ∧ u.take n = v.take n) ∨
    (ngxMemcmp u v n = .gt ∧ v < u ∧ ¬v <+: u) := by
  induction n generalizing u v with
  | zero =>
    refine Or.inr (Or.inl ⟨?_, rfl⟩)
    unfold ngxMemcmp
    split
    · rename_i equal
      cases equal
    · rfl
  | succ n ih =>
    obtain ⟨a, u, rfl⟩ := List.exists_cons_of_length_pos (by omega : 0 < u.length)
    obtain ⟨b, v, rfl⟩ := List.exists_cons_of_length_pos (by omega : 0 < v.length)
    rw [List.length_cons] at inLeft inRight
    rw [ngxMemcmp, lt_cons_iff, lt_cons_iff, List.cons_prefix_cons, List.cons_prefix_cons,
      List.take_succ_cons, List.take_succ_cons, List.cons.injEq]
    rcases lt_trichotomy a b with less | rfl | greater
    · exact Or.inl ⟨if_pos less, Or.inl less, fun same => less.ne same.1⟩
    · rw [if_neg (lt_irrefl a), if_neg (lt_irrefl a)]
      simpa using ih (by omega : n ≤ u.length) (by omega : n ≤ v.length)
    · refine Or.inr (Or.inr ⟨?_, Or.inl greater, fun same => greater.ne same.1⟩)
      rw [if_neg (lt_asymm greater), if_pos greater]

theorem isPrefixOf_iff (lx : Lq) : isPrefixOf u lx = true ↔ u <+: lx.name := by
  rw [isPrefixOf, Bool.and_eq_true, decide_eq_true_iff, decide_eq_true_iff]
  constructor
  · rintro ⟨short, same⟩
    rcases memcmp_cases le_rfl short with ⟨differ, _⟩ | ⟨_, equal⟩ | ⟨differ, _⟩
    · rw [differ] at same
      cases same
    · rw [List.take_length] at equal
      exact equal ▸ List.take_prefix ..
    · rw [differ] at same
      cases same
  · intro start
    refine ⟨start.length_le, ?_⟩
    rcases memcmp_cases le_rfl start.length_le with ⟨_, _, part⟩ | ⟨same, _⟩ | ⟨_, less, _⟩
    · exact absurd start part
    · exact same
    · exact absurd (le_of_beginning start) (not_le.mpr less)

end Compare

section Sorting

variable {α κ : Type} [LinearOrder κ] {cmp : α → α → Ordering} {key : α → κ}

theorem insertBack_spec {q : α} {before : List α}
    (agrees : ∀ prev ∈ before, cmp prev q ≠ .gt ↔ key prev ≤ key q)
    (sorted : before.Pairwise fun a b => key b ≤ key a) :
    (insertBack cmp q before).Perm (q :: before) ∧
      (insertBack cmp q before).Pairwise fun a b => key b ≤ key a := by
  induction before with
  | nil => exact ⟨List.Perm.refl _, List.pairwise_singleton ..⟩
  | cons prev before ih =>
    have here := agrees prev List.mem_cons_self
    have later := ih (fun p inside => agrees p (List.mem_cons_of_mem _ inside)) sorted.of_cons
    rw [List.pairwise_cons] at sorted
    rw [insertBack]
    by_cases stops : cmp prev q ≠ .gt
    · rw [if_pos stops, List.pairwise_cons, List.pairwise_cons]
      refine ⟨List.Perm.refl _, ?_, sorted⟩
      intro p inside
      rcases List.mem_cons.mp inside with rfl | old
      · exact here.mp stops
      · exact (sorted.1 p old).trans (here.mp stops)
    · rw [if_neg stops, List.pairwise_cons]
      refine ⟨(later.1.cons prev).trans (List.Perm.swap ..), ?_, later.2⟩
      intro p inside
      rcases List.mem_cons.mp (later.1.mem_iff.mp inside) with rfl | old
      · exact (not_le.mp (mt here.mpr stops)).le
      · exact sorted.1 p old

theorem sortLoop_spec {before queue : List α}
    (agrees : ∀ a ∈ before ++ queue, ∀ b ∈ before ++ queue, cmp a b ≠ .gt ↔ key a ≤ key b)
    (sorted : before.Pairwise fun a b => key b ≤ key a) :
    (sortLoop cmp before queue).Perm (before ++ queue) ∧
      (sortLoop cmp before queue).Pairwise fun a b => key a ≤ key b := by
  induction queue generalizing before with
  | nil =>
    rw [sortLoop, List.append_nil, List.pairwise_reverse]
    exact ⟨List.reverse_perm before, sorted⟩
  | cons q next ih =>
    have isLast : q ∈ before ++ q :: next := List.mem_append_right _ List.mem_cons_self
    obtain ⟨perm, sorted'⟩ := insertBack_spec
      (fun p inside => agrees p (List.mem_append_left _ inside) q isLast) sorted
    have moved : (insertBack cmp q before ++ next).Perm (before ++ q :: next) :=
      (perm.append_right next).trans List.perm_middle.symm
    obtain ⟨perm', sorted''⟩ := ih
      (fun a inA b inB => agrees a (moved.mem_iff.mp inA) b (moved.mem_iff.mp inB)) sorted'
    exact ⟨perm'.trans moved, sorted''⟩

theorem ngxQueueSort_spec {queue : List α}
    (agrees : ∀ a ∈ queue, ∀ b ∈ queue, cmp a b ≠ .gt ↔ key a ≤ key b) :
    (ngxQueueSort cmp queue).Perm queue ∧
      (ngxQueueSort cmp queue).Pairwise fun a b => key a ≤ key b :=
  sortLoop_spec agrees List.Pairwise.nil

variable {β : Type} (f : β → α)

theorem insertBack_map (q : β) (before : List β) :
    insertBack cmp (f q) (before.map f) =
      (insertBack (fun a b => cmp (f a) (f b)) q before).map f := by
  induction before with
  | nil => rfl
  | cons prev before ih =>
    rw [List.map_cons, insertBack, insertBack, ih]
    split <;> rfl

theorem ngxQueueSort_map (queue : List β) :
    ngxQueueSort cmp (queue.map f) = (ngxQueueSort (fun a b => cmp (f a) (f b)) queue).map f := by
  suffices loop : ∀ before : List β, sortLoop cmp (before.map f) (queue.map f) =
      (sortLoop (fun a b => cmp (f a) (f b)) before queue).map f from loop []
  induction queue with
  | nil =>
    intro before
    exact (List.map_reverse ..).symm
  | cons q next ih =>
    intro before
    rw [List.map_cons, sortLoop, sortLoop, insertBack_map]
    exact ih _

end Sorting

/-- Exact and inclusive locations, whose names are strings. -/
def Static (l : Location) : Prop :=
  (l.kind = .exact ∨ l.kind = .inclusive) ∧ ∀ b ∈ l.name, b ≠ 0

/-- An exact location stands before the inclusive one of the same name. -/
def sortKey (l : Location) : List UInt8 ×ₗ Bool := toLex (l.name, l.kind = .inclusive)

/-- The element of `ngx_http_add_location`. -/
def element (l : Location) : Lq :=
  if l.kind = .inclusive then .mk none (some l) l.name [] else .mk (some l) none l.name []

@[simp] theorem element_name (l : Location) : (element l).name = l.name := by
  unfold element
  split <;> rfl

@[simp] theorem element_kind (l : Location) : (element l).kind = some l.kind := by
  unfold element
  split <;> rfl

theorem foldl_addLocation (locations : List Location) (queue : List Lq) :
    locations.foldl ngxHttpAddLocation queue = queue ++ locations.map element := by
  induction locations generalizing queue with
  | nil => exact (List.append_nil queue).symm
  | cons l rest ih =>
    rw [List.foldl_cons, ih, ngxHttpAddLocation, List.append_assoc]
    rfl

theorem cmpLocations_static {first second : Location} (static : Static first)
    (static' : Static second) :
    ngxHttpCmpLocations (element first) (element second) ≠ .gt ↔ sortKey first ≤ sortKey second := by
  have reduced : ngxHttpCmpLocations (element first) (element second) =
      if ngxStrcmp first.name second.name = .eq ∧ first.kind ≠ .exact ∧ second.kind = .exact then .gt
      else ngxStrcmp first.name second.name := by
    rcases static.1 with kind | kind <;> rcases static'.1 with kind' | kind' <;>
      simp [ngxHttpCmpLocations, kind, kind']
  rw [reduced, sortKey, sortKey, Prod.Lex.toLex_le_toLex]
  rcases strcmp_cases static.2 static'.2 with ⟨rc, less⟩ | ⟨rc, same⟩ | ⟨rc, greater⟩
  · simp [rc, less]
  · rw [rc, same]
    rcases static.1 with kind | kind <;> rcases static'.1 with kind' | kind' <;>
      simp [kind, kind']
  · simp [rc, greater.le, greater.ne']

theorem sortKey_inj {first second : Location} (static : Static first) (static' : Static second)
    (same : sortKey first = sortKey second) :
    (first.name, first.kind) = (second.name, second.kind) := by
  have both := Prod.ext_iff.mp (toLex.injective same)
  refine Prod.ext both.1 ?_
  rcases static.1 with kind | kind <;> rcases static'.1 with kind' | kind' <;>
    simp_all

theorem splitAtKind_none {kind : Kind} {locations : List Location}
    (none : ∀ l ∈ locations, l.kind ≠ kind) :
    splitAtKind kind (locations.map element) = (locations.map element, []) := by
  have all : ∀ lq ∈ locations.map element, decide (lq.kind ≠ some kind) = true := by
    simpa using none
  rw [splitAtKind, List.span_eq_takeWhile_dropWhile, List.takeWhile_eq_self_iff.mpr all,
    List.dropWhile_eq_nil_iff.mpr all]

theorem initLocations_static {locations : List Location} (static : ∀ l ∈ locations, Static l)
    (distinct : (locations.map fun l => (l.name, l.kind)).Nodup) :
    ∃ sorted : List Location, sorted.Perm locations ∧
      (sorted.Pairwise fun a b => sortKey a < sortKey b) ∧
      (ngxHttpInitLocations (locations.foldl ngxHttpAddLocation [])).locations =
        sorted.map element := by
  have agrees : ∀ a ∈ locations, ∀ b ∈ locations,
      ngxHttpCmpLocations (element a) (element b) ≠ .gt ↔ sortKey a ≤ sortKey b :=
    fun a inA b inB => cmpLocations_static (static a inA) (static b inB)
  obtain ⟨perm, ordered⟩ := ngxQueueSort_spec agrees
  refine ⟨_, perm, ?_, ?_⟩
  · have keys := (perm.map fun l => (l.name, l.kind)).nodup_iff.mpr distinct
    rw [List.Nodup, List.pairwise_map] at keys
    refine (ordered.and keys).imp_of_mem ?_
    intro a b inA inB both
    refine lt_of_le_of_ne both.1 fun same => both.2 ?_
    exact sortKey_inj (static a (perm.mem_iff.mp inA)) (static b (perm.mem_iff.mp inB)) same
  · have kinds : ∀ l ∈ ngxQueueSort (fun a b => ngxHttpCmpLocations (element a) (element b))
        locations, l.kind = .exact ∨ l.kind = .inclusive :=
      fun l inside => (static l (perm.mem_iff.mp inside)).1
    have other {kind : Kind} (notExact : kind ≠ .exact) (notInclusive : kind ≠ .inclusive) :
        ∀ l ∈ ngxQueueSort (fun a b => ngxHttpCmpLocations (element a) (element b)) locations,
          l.kind ≠ kind := by
      intro l inside same
      rcases kinds l inside with isExact | isInclusive
      · exact notExact (same.symm.trans isExact)
      · exact notInclusive (same.symm.trans isInclusive)
    rw [foldl_addLocation, List.nil_append, ngxHttpInitLocations, ngxQueueSort_map,
      splitAtKind_none (other (by decide) (by decide))]
    dsimp only
    rw [splitAtKind_none (other (by decide) (by decide))]
    dsimp only
    rw [splitAtKind_none (other (by decide) (by decide))]

/-- The queue has one element for each name, with the locations of that name. -/
structure Joined (locations : List Location) (queue : List Lq) : Prop where
  sorted : queue.Pairwise fun a b => a.name < b.name
  bare : ∀ lq ∈ queue, lq.list = []
  used : ∀ lq ∈ queue, lq.exact ≠ none ∨ lq.inclusive ≠ none
  exact_iff : ∀ lq ∈ queue, ∀ l, lq.exact = some l ↔
    l ∈ locations ∧ l.kind = .exact ∧ l.name = lq.name
  inclusive_iff : ∀ lq ∈ queue, ∀ l, lq.inclusive = some l ↔
    l ∈ locations ∧ l.kind = .inclusive ∧ l.name = lq.name
  complete : ∀ l ∈ locations, ∃ lq ∈ queue, lq.name = l.name

section Join

variable {past rest : List Location} {lq : Lq} {queue : List Lq} {m : Location}

theorem Joined.cons (one : Joined past [lq]) (joined : Joined rest queue)
    (after : ∀ lx ∈ queue, lq.name < lx.name) : Joined (past ++ rest) (lq :: queue) := by
  have apart : ∀ l ∈ rest, l.name ≠ lq.name := by
    intro l inside same
    obtain ⟨lx, inQueue, name⟩ := joined.complete l inside
    exact (after lx inQueue).ne (same.symm.trans name.symm)
  have before : ∀ l ∈ past, ∀ lx ∈ queue, l.name ≠ lx.name := by
    intro l inside lx inQueue same
    obtain ⟨own, isOwn, name⟩ := one.complete l inside
    rw [List.mem_singleton.mp isOwn] at name
    exact (after lx inQueue).ne (name.trans same)
  refine ⟨List.pairwise_cons.mpr ⟨after, joined.sorted⟩, ?_, ?_, ?_, ?_, ?_⟩
  · intro lx inside
    rcases List.mem_cons.mp inside with rfl | old
    · exact one.bare lx List.mem_cons_self
    · exact joined.bare lx old
  · intro lx inside
    rcases List.mem_cons.mp inside with rfl | old
    · exact one.used lx List.mem_cons_self
    · exact joined.used lx old
  · intro lx inside l
    rw [List.mem_append]
    rcases List.mem_cons.mp inside with rfl | old
    · rw [one.exact_iff lx List.mem_cons_self]
      have := apart l
      tauto
    · rw [joined.exact_iff lx old]
      have := fun member : l ∈ past => before l member lx old
      tauto
  · intro lx inside l
    rw [List.mem_append]
    rcases List.mem_cons.mp inside with rfl | old
    · rw [one.inclusive_iff lx List.mem_cons_self]
      have := apart l
      tauto
    · rw [joined.inclusive_iff lx old]
      have := fun member : l ∈ past => before l member lx old
      tauto
  · intro l inside
    rcases List.mem_append.mp inside with old | new
    · obtain ⟨lx, inQueue, name⟩ := one.complete l old
      exact ⟨lx, List.mem_cons.mpr (Or.inl (List.mem_singleton.mp inQueue)), name⟩
    · obtain ⟨lx, inQueue, name⟩ := joined.complete l new
      exact ⟨lx, List.mem_cons_of_mem _ inQueue, name⟩

theorem joined_element (static : Static m) : Joined [m] [element m] := by
  rcases static.1 with kind | kind <;>
  · have shape : element m = if m.kind = .inclusive then .mk none (some m) m.name []
      else .mk (some m) none m.name [] := rfl
    rw [kind] at shape
    simp only [reduceCtorEq, if_true, if_false] at shape
    rw [shape]
    refine ⟨List.pairwise_singleton .., ?_, ?_, ?_, ?_, ?_⟩ <;>
    simp [kind]
    intro l
    constructor
    · rintro rfl
      exact ⟨rfl, kind, rfl⟩
    · rintro ⟨rfl, _⟩
      rfl

theorem Joined.merge (one : Joined past [lq]) (name : lq.name = m.name) (free : lq.inclusive = none)
    (kind : m.kind = .inclusive) :
    Joined (past ++ [m]) [.mk lq.exact (some m) lq.name lq.list] := by
  have exact_iff := one.exact_iff lq List.mem_cons_self
  have inclusive_iff := one.inclusive_iff lq List.mem_cons_self
  have bare := one.bare lq List.mem_cons_self
  refine ⟨List.pairwise_singleton .., ?_, ?_, ?_, ?_, ?_⟩ <;>
    simp only [List.mem_singleton, forall_eq, Lq.mk_list, Lq.mk_exact, Lq.mk_inclusive, Lq.mk_name,
      List.mem_append, exists_eq_left]
  · exact bare
  · exact Or.inr (Option.some_ne_none m)
  · intro l
    rw [exact_iff]
    constructor
    · rintro ⟨member, isExact, same⟩
      exact ⟨Or.inl member, isExact, same⟩
    · rintro ⟨member | rfl, isExact, same⟩
      · exact ⟨member, isExact, same⟩
      · rw [kind] at isExact
        cases isExact
  · intro l
    rw [Option.some.injEq]
    constructor
    · rintro rfl
      exact ⟨Or.inr rfl, kind, name.symm⟩
    · rintro ⟨member | rfl, isInclusive, same⟩
      · have found := (inclusive_iff l).mpr ⟨member, isInclusive, same⟩
        rw [free] at found
        cases found
      · rfl
  · rintro l (member | rfl)
    · obtain ⟨lx, inside, same⟩ := one.complete l member
      rw [List.mem_singleton.mp inside] at same
      exact same
    · exact name

theorem sortKey_lt {a b : Location} :
    sortKey a < sortKey b ↔ a.name < b.name ∨
      (a.name = b.name ∧ a.kind ≠ .inclusive ∧ b.kind = .inclusive) := by
  rw [sortKey, sortKey, Prod.Lex.toLex_lt_toLex]
  by_cases first : a.kind = .inclusive <;> by_cases second : b.kind = .inclusive <;>
    simp [first, second]

theorem element_after (sorted : ∀ l ∈ rest, sortKey m < sortKey l) :
    ∀ l ∈ rest, (element m).name < l.name ∨
      ((element m).name = l.name ∧ (element m).inclusive = none ∧ l.kind = .inclusive) := by
  intro l inside
  rw [element_name]
  rcases sortKey_lt.mp (sorted l inside) with first | ⟨name, kind, kind'⟩
  · exact Or.inl first
  · refine Or.inr ⟨name, ?_, kind'⟩
    rw [element, if_neg kind]
    rfl

theorem joinLoop_spec (one : Joined past [lq]) (plain : ∀ b ∈ lq.name, b ≠ 0)
    (static : ∀ l ∈ rest, Static l) (sorted : rest.Pairwise fun a b => sortKey a < sortKey b)
    (after : ∀ l ∈ rest, lq.name < l.name ∨
      (lq.name = l.name ∧ lq.inclusive = none ∧ l.kind = .inclusive)) :
    ∃ queue, joinLoop lq (rest.map element) = some queue ∧ Joined (past ++ rest) queue ∧
      ∀ lx ∈ queue, lq.name ≤ lx.name := by
  induction rest generalizing past lq with
  | nil =>
    refine ⟨[lq], rfl, ?_, ?_⟩
    · rw [List.append_nil]
      exact one
    · intro lx inside
      rw [List.mem_singleton.mp inside]
  | cons m rest ih =>
    have here := static m List.mem_cons_self
    have later := fun l inside => static l (List.mem_cons_of_mem m inside)
    rw [List.pairwise_cons] at sorted
    rw [List.map_cons, joinLoop, element_name]
    rcases strcmp_cases plain here.2 with ⟨rc, less⟩ | ⟨rc, same⟩ | ⟨rc, greater⟩
    · rw [if_neg (by rw [rc]; decide)]
      obtain ⟨queue, joined, spec, least⟩ := ih (joined_element here)
        (by rw [element_name]; exact here.2) later sorted.2 (element_after sorted.1)
      refine ⟨lq :: queue, by rw [joined]; rfl, one.cons spec ?_, ?_⟩
      · intro lx inside
        have := least lx inside
        rw [element_name] at this
        exact less.trans_le this
      · intro lx inside
        rcases List.mem_cons.mp inside with rfl | old
        · exact le_rfl
        · have := least lx old
          rw [element_name] at this
          exact less.le.trans this
    · have free : lq.inclusive = none ∧ m.kind = .inclusive := by
        rcases after m List.mem_cons_self with less | ⟨_, free, kind⟩
        · exact absurd same less.ne
        · exact ⟨free, kind⟩
      have noExact : (element m).exact = none := by
        rw [element, if_pos free.2]
        rfl
      have inclusive : (element m).inclusive = some m := by
        rw [element, if_pos free.2]
        rfl
      rw [if_pos rc, if_neg (by simp [noExact, free.1]), inclusive]
      obtain ⟨queue, joined, spec, least⟩ := ih (one.merge same free.1 free.2) plain later sorted.2 (by
        intro l inside
        rcases sortKey_lt.mp (sorted.1 l inside) with first | ⟨_, kind, _⟩
        · exact Or.inl (lt_of_eq_of_lt same first)
        · exact absurd free.2 kind)
      refine ⟨queue, joined, ?_, least⟩
      rw [List.append_assoc] at spec
      exact spec
    · rcases after m List.mem_cons_self with less | ⟨same, _⟩
      · exact absurd less (lt_asymm greater)
      · exact absurd same greater.ne'

theorem joinExactLocations_spec {locations : List Location} (static : ∀ l ∈ locations, Static l)
    (sorted : locations.Pairwise fun a b => sortKey a < sortKey b) :
    ∃ queue, ngxHttpJoinExactLocations (locations.map element) = some queue ∧
      Joined locations queue := by
  cases locations with
  | nil =>
    refine ⟨[], rfl, List.Pairwise.nil, ?_, ?_, ?_, ?_, ?_⟩ <;>
      simp
  | cons l rest =>
    have here := static l List.mem_cons_self
    rw [List.pairwise_cons] at sorted
    obtain ⟨queue, joined, spec, -⟩ := joinLoop_spec (joined_element here)
      (by rw [element_name]; exact here.2)
      (fun m inside => static m (List.mem_cons_of_mem l inside)) sorted.2 (element_after sorted.1)
    exact ⟨queue, joined, spec⟩

end Join

end NgxFormal.Http.Locations

/-! The nested queues of `ngx_http_create_locations_list`. -/

namespace NgxFormal.Http.Locations

open Lib.Words

/-- The nested queues of a flat one: behind an inclusive location, all that extends its name. -/
inductive Forest : List Lq → List Lq → Prop where
  | nil : Forest [] []
  | cons {lq : Lq} {inner rest list others : List Lq} (nested : Forest inner list)
      (after : Forest rest others)
      (extend : ∀ lx ∈ inner, lq.inclusive ≠ none ∧ lq.name <+: lx.name)
      (apart : lq.inclusive ≠ none → ∀ lx ∈ rest, ¬lq.name <+: lx.name) :
      Forest (lq :: (inner ++ rest)) (.mk lq.exact lq.inclusive lq.name list :: others)

theorem lq_eta (lq : Lq) : Lq.mk lq.exact lq.inclusive lq.name lq.list = lq := by
  cases lq
  rfl

theorem Forest.single {lq : Lq} {rest others : List Lq} (after : Forest rest others)
    (bare : lq.list = []) (apart : lq.inclusive ≠ none → ∀ lx ∈ rest, ¬lq.name <+: lx.name) :
    Forest (lq :: rest) (lq :: others) := by
  have shape := Forest.cons Forest.nil after (fun _ inside => absurd inside List.not_mem_nil) apart
  rwa [List.nil_append, ← bare, lq_eta] at shape

/-- Behind the first element that does not extend the name, no element does. -/
theorem dropWhile_apart {lq : Lq} {rest : List Lq} (first : ∀ lx ∈ rest, lq.name < lx.name)
    (sorted : rest.Pairwise fun a b => a.name < b.name) :
    ∀ lx ∈ rest.dropWhile (isPrefixOf lq.name), ¬lq.name <+: lx.name := by
  intro lx inside extend
  cases left : rest.dropWhile (isPrefixOf lq.name) with
  | nil =>
    rw [left] at inside
    exact absurd inside List.not_mem_nil
  | cons x next =>
    have suffix : (x :: next).Sublist rest := left ▸ (List.dropWhile_sublist _)
    have stops : ¬isPrefixOf lq.name x = true := by
      have head := List.head?_dropWhile_not (isPrefixOf lq.name) rest
      rw [left] at head
      simpa using head
    apply stops
    rw [isPrefixOf_iff]
    have low := (first x (suffix.subset List.mem_cons_self)).le
    have order := sorted.sublist suffix
    rw [List.pairwise_cons] at order
    rw [left] at inside
    rcases List.mem_cons.mp inside with rfl | later
    · exact extend
    · exact prefix_of_between extend low (order.1 lx later).le

theorem createLocationsList_spec {queue : List Lq} (fuel : Nat)
    (sorted : queue.Pairwise fun a b => a.name < b.name) (bare : ∀ lq ∈ queue, lq.list = [])
    (enough : queue.length ≤ fuel) :
    ∃ nested, ngxHttpCreateLocationsList fuel queue = some nested ∧ Forest queue nested := by
  induction fuel generalizing queue with
  | zero =>
    obtain rfl := List.length_eq_zero_iff.mp (Nat.le_zero.mp enough)
    exact ⟨[], by rw [ngxHttpCreateLocationsList], Forest.nil⟩
  | succ fuel ih =>
    match queue with
    | [] => exact ⟨[], by rw [ngxHttpCreateLocationsList], Forest.nil⟩
    | [lq] =>
      refine ⟨[lq], by rw [ngxHttpCreateLocationsList], ?_⟩
      exact Forest.nil.single (bare lq List.mem_cons_self) (by simp)
    | lq :: second :: next =>
      have ordered := List.pairwise_cons.mp sorted
      have here := bare lq List.mem_cons_self
      have short : (second :: next).length ≤ fuel := by
        rw [List.length_cons] at enough
        omega
      rw [ngxHttpCreateLocationsList]
      case x_2 => exact fun empty => List.cons_ne_nil _ _ empty
      by_cases plain : lq.inclusive = none
      · obtain ⟨nested, created, forest⟩ := ih ordered.2
          (fun lx inside => bare lx (List.mem_cons_of_mem _ inside)) short
        rw [if_pos plain, created]
        exact ⟨_, rfl, forest.single here fun some_inclusive => absurd plain some_inclusive⟩
      · rw [if_neg plain, List.span_eq_takeWhile_dropWhile]
        dsimp only
        have both := List.takeWhile_append_dropWhile (p := isPrefixOf lq.name)
          (l := second :: next)
        have apart := dropWhile_apart ordered.1 ordered.2
        have extend : ∀ lx ∈ (second :: next).takeWhile (isPrefixOf lq.name),
            lq.name <+: lx.name :=
          fun lx inside => (isPrefixOf_iff lx).mp (List.mem_takeWhile_imp inside)
        generalize (second :: next).takeWhile (isPrefixOf lq.name) = tail at both extend ⊢
        generalize (second :: next).dropWhile (isPrefixOf lq.name) = x at both apart ⊢
        rw [← both, List.length_append] at short
        rw [← both] at ordered
        have bareTail : ∀ lx ∈ tail, lx.list = [] := fun lx inside =>
          bare lx (both ▸ List.mem_cons_of_mem _ (List.mem_append_left x inside))
        have bareRest : ∀ lx ∈ x, lx.list = [] := fun lx inside =>
          bare lx (both ▸ List.mem_cons_of_mem _ (List.mem_append_right tail inside))
        obtain ⟨others, created', after⟩ := ih (List.pairwise_append.mp ordered.2).2.1 bareRest
          (by omega)
        by_cases empty : tail = []
        · rw [if_pos empty, created', ← both, empty, List.nil_append]
          exact ⟨_, rfl, after.single here fun _ => apart⟩
        · obtain ⟨list, created, nested⟩ := ih (List.pairwise_append.mp ordered.2).1 bareTail
            (by omega)
          rw [if_neg empty, here, List.nil_append, created, created', ← both]
          exact ⟨_, rfl, Forest.cons nested after (fun lx inside => ⟨plain, extend lx inside⟩)
            fun _ => apart⟩

end NgxFormal.Http.Locations
