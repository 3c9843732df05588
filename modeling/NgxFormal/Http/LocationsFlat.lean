import NgxFormal.Http.LocationsSearch
import Mathlib.Data.List.Sort

/-! The answer of the nested queues in terms of the flat one. -/

namespace NgxFormal.Http.Locations

open Lib.Words

def Lq.bare (lq : Lq) : Lq := .mk lq.exact lq.inclusive lq.name []

theorem bare_eq {lq : Lq} (bare : lq.list = []) : lq.bare = lq := by
  rw [Lq.bare, ← bare, lq_eta]

section Forest

variable {queue nested left right : List Lq} {f : Lq}

/-- The part of the flat queue that a top element stands for. -/
structure Block (queue left right : List Lq) (f : Lq) (ahead inner behind : List Lq) : Prop where
  whole : queue = ahead ++ f.bare :: (inner ++ behind)
  forest : Forest ahead left
  nested : Forest inner f.list
  rest : Forest behind right
  extend : ∀ lx ∈ inner, f.inclusive ≠ none ∧ f.name <+: lx.name
  apart : f.inclusive ≠ none → ∀ lx ∈ behind, ¬f.name <+: lx.name
  top : ∀ lx ∈ ahead, lx.inclusive ≠ none → ¬lx.name <+: f.name

theorem Forest.block (forest : Forest queue (left ++ f :: right)) (bare : ∀ lq ∈ queue, lq.list = []) :
    ∃ ahead inner behind, Block queue left right f ahead inner behind := by
  induction left generalizing queue with
  | nil =>
    cases forest with
    | cons nested after extend apart =>
      rename_i lq inner rest list
      refine ⟨[], inner, rest, ?_, Forest.nil, nested, after, extend, apart, by simp⟩
      rw [List.nil_append, ← bare_eq (bare lq List.mem_cons_self)]
      rfl
  | cons t left ih =>
    cases forest with
    | cons nested after extend apart =>
      rename_i lq inner rest list
      obtain ⟨ahead, inner', behind, block⟩ := ih after fun lx inside =>
        bare lx (List.mem_cons_of_mem _ (List.mem_append_right inner inside))
      have member : f.bare ∈ rest := block.whole ▸ List.mem_append_right _ List.mem_cons_self
      refine ⟨lq :: (inner ++ ahead), inner', behind, ?_, Forest.cons nested block.forest extend ?_,
        block.nested, block.rest, block.extend, block.apart, ?_⟩
      · rw [block.whole, List.cons_append, List.append_assoc]
      · intro inclusive lx inside
        exact apart inclusive lx (block.whole ▸ List.mem_append_left _ inside)
      · intro lx inside inclusive start
        rcases List.mem_cons.mp inside with rfl | later
        · exact apart inclusive f.bare member start
        · rcases List.mem_append.mp later with here | there
          · exact apart (extend lx here).1 f.bare member ((extend lx here).2.trans start)
          · exact block.top lx there inclusive start

theorem Forest.top_or_below (forest : Forest queue nested)
    (sorted : queue.Pairwise fun a b => a.name < b.name) (bare : ∀ lq ∈ queue, lq.list = []) {x : Lq}
    (member : x ∈ queue) :
    (∃ f ∈ nested, f.bare = x) ∨
      ∃ f ∈ nested, f.inclusive ≠ none ∧ f.name <+: x.name ∧ f.name < x.name := by
  induction forest with
  | nil => exact absurd member List.not_mem_nil
  | @cons lq inner rest list others nested after extend apart _ ih =>
    rw [List.pairwise_cons, List.pairwise_append] at sorted
    rcases List.mem_cons.mp member with rfl | later
    · refine Or.inl ⟨_, List.mem_cons_self, ?_⟩
      exact bare_eq (bare x List.mem_cons_self)
    · rcases List.mem_append.mp later with here | there
      · refine Or.inr ⟨_, List.mem_cons_self, (extend x here).1, (extend x here).2, ?_⟩
        exact sorted.1 x later
      · rcases ih sorted.2.2.1 (fun lx inside =>
          bare lx (List.mem_cons_of_mem _ (List.mem_append_right inner inside))) there with
          ⟨f, inside, same⟩ | ⟨f, inside, below⟩
        · exact Or.inl ⟨f, List.mem_cons_of_mem _ inside, same⟩
        · exact Or.inr ⟨f, List.mem_cons_of_mem _ inside, below⟩

theorem Forest.top_mem (forest : Forest queue nested) (bare : ∀ lq ∈ queue, lq.list = [])
    (member : f ∈ nested) : f.bare ∈ queue := by
  obtain ⟨left, right, rfl⟩ := List.append_of_mem member
  obtain ⟨ahead, inner, behind, block⟩ := forest.block bare
  rw [block.whole]
  exact List.mem_append_right _ List.mem_cons_self

theorem Forest.sorted (forest : Forest queue nested)
    (sorted : queue.Pairwise fun a b => a.name < b.name) (bare : ∀ lq ∈ queue, lq.list = []) :
    nested.Pairwise fun a b => a.name < b.name := by
  induction forest with
  | nil => exact List.Pairwise.nil
  | @cons lq inner rest list others nested after extend apart _ ih =>
    have bareRest : ∀ lx ∈ rest, lx.list = [] := fun lx inside =>
      bare lx (List.mem_cons_of_mem _ (List.mem_append_right inner inside))
    rw [List.pairwise_cons, List.pairwise_append] at sorted
    refine List.pairwise_cons.mpr ⟨?_, ih sorted.2.2.1 bareRest⟩
    intro f inside
    exact sorted.1 f.bare (List.mem_append_right inner (after.top_mem bareRest inside))

theorem eq_of_name {x y : Lq} (sorted : queue.Pairwise fun a b => a.name < b.name)
    (inX : x ∈ queue) (inY : y ∈ queue) (name : x.name = y.name) : x = y := by
  have distinct : (queue.map Lq.name).Nodup :=
    (List.pairwise_map.mpr sorted).imp fun less => less.ne
  exact List.inj_on_of_nodup_map distinct inX inY name

end Forest

section Flat

variable (uri : List UInt8) (queue : List Lq)

/-- The last element that covers the URI has the longest name of those. -/
def coverOf (rv : Found) : Found :=
  match (queue.filter (covers uri)).getLast? with
  | some lq => (.again, lq.inclusive)
  | none => rv

/-- The inclusive locations that the element is nested in are those that cover the URI. -/
def beside (x : Lq) : Bool :=
  ∀ y ∈ queue, y.inclusive ≠ none → ((y.name <+: x.name ∧ y.name ≠ x.name) ↔ y.name <+: uri)

def besides : List (List UInt8) := (queue.filter (beside uri queue)).map Lq.name

/-- The answer that the elements of all nested queues give together. -/
def flat (rv : Found) : Found :=
  match queue.find? (named uri) with
  | some lq => lq.hit
  | none =>
    match queue.find? (redirects uri) with
    | some lq => if hidden uri lq.name (besides uri queue) then coverOf uri queue rv else lq.redirected
    | none => coverOf uri queue rv

end Flat

section Blocks

variable {uri : List UInt8} {queue left right ahead inner behind : List Lq} {f : Lq} {rv : Found}

structure Below (uri : List UInt8) (queue left right : List Lq) (f : Lq)
    (ahead inner behind : List Lq) : Prop extends Block queue left right f ahead inner behind where
  sorted : queue.Pairwise fun a b => a.name < b.name
  inclusive : f.inclusive ≠ none
  start : f.name <+: uri
  differ : f.name ≠ uri

namespace Below

variable (below : Below uri queue left right f ahead inner behind)

include below

theorem ahead_lt : ∀ x ∈ ahead, x.name < f.name := by
  have sorted := below.sorted
  rw [below.whole, List.pairwise_append] at sorted
  exact fun x inside => sorted.2.2 x inside f.bare List.mem_cons_self

theorem lt_behind : ∀ x ∈ behind, f.name < x.name := by
  have sorted := below.sorted
  rw [below.whole, List.pairwise_append, List.pairwise_cons] at sorted
  exact fun x inside => sorted.2.1.1 x (List.mem_append_right inner inside)

theorem inner_lt : ∀ x ∈ inner, f.name < x.name := by
  have sorted := below.sorted
  rw [below.whole, List.pairwise_append, List.pairwise_cons] at sorted
  exact fun x inside => sorted.2.1.1 x (List.mem_append_left behind inside)

theorem inner_lt_behind : ∀ x ∈ inner, ∀ y ∈ behind, x.name < y.name := by
  have sorted := below.sorted
  rw [below.whole, List.pairwise_append, List.pairwise_cons, List.pairwise_append] at sorted
  exact sorted.2.1.2.2.2

theorem find_inner {p : Lq → Bool} (extend : ∀ x, p x = true → uri <+: x.name) :
    queue.find? p = inner.find? p := by
  have noAhead : ahead.find? p = none := by
    rw [List.find?_eq_none]
    intro x inside found
    exact not_le.mpr (below.ahead_lt x inside) (le_of_beginning (below.start.trans (extend x found)))
  have noMiddle : ¬p f.bare = true := by
    intro found
    have back : uri <+: f.name := extend f.bare found
    exact below.differ (below.start.eq_of_length_le back.length_le)
  have noBehind : behind.find? p = none := by
    rw [List.find?_eq_none]
    intro x inside found
    exact below.apart below.inclusive x inside (below.start.trans (extend x found))
  rw [below.whole, List.find?_append, noAhead, Option.none_or, List.find?_cons_of_neg noMiddle,
    List.find?_append, noBehind, Option.or_none]

theorem filter_covers : queue.filter (covers uri) = f.bare :: inner.filter (covers uri) := by
  have noAhead : ahead.filter (covers uri) = [] := by
    rw [List.filter_eq_nil_iff]
    intro x inside covered
    obtain ⟨inclusive, first⟩ := covers_iff.mp covered
    exact below.top x inside inclusive (prefix_of_both first below.start (below.ahead_lt x inside).le)
  have here : covers uri f.bare = true := covers_iff.mpr ⟨below.inclusive, below.start⟩
  have noBehind : behind.filter (covers uri) = [] := by
    rw [List.filter_eq_nil_iff]
    intro x inside covered
    obtain ⟨_, first⟩ := covers_iff.mp covered
    exact below.apart below.inclusive x inside
      (prefix_of_both below.start first (below.lt_behind x inside).le)
  rw [below.whole, List.filter_append, noAhead, List.nil_append, List.filter_cons_of_pos here,
    List.filter_append, noBehind, List.append_nil]

theorem coverOf_inner : coverOf uri queue rv = coverOf uri inner (.again, f.inclusive) := by
  rw [coverOf, coverOf, below.filter_covers]
  cases last : (inner.filter (covers uri)).getLast? with
  | none =>
    rw [List.getLast?_eq_none_iff] at last
    rw [last]
    rfl
  | some lq =>
    rw [List.getLast?_cons, last]
    rfl

theorem mem_whole {x : Lq} :
    x ∈ queue ↔ x ∈ ahead ∨ x = f.bare ∨ x ∈ inner ∨ x ∈ behind := by
  rw [below.whole, List.mem_append, List.mem_cons, List.mem_append]

theorem beside_extends {x : Lq} (isBeside : beside uri queue x = true) :
    f.name <+: x.name ∧ f.name ≠ x.name := by
  rw [beside, decide_eq_true_iff] at isBeside
  exact (isBeside f.bare (below.mem_whole.mpr (Or.inr (Or.inl rfl))) below.inclusive).mpr below.start

theorem beside_inner {x : Lq} (inside : x ∈ inner) :
    beside uri queue x = beside uri inner x := by
  have extend := (below.extend x inside).2
  rw [beside, beside, decide_eq_decide]
  constructor
  · intro isBeside y inInner
    exact isBeside y (below.mem_whole.mpr (Or.inr (Or.inr (Or.inl inInner))))
  · intro isBeside y inQueue inclusive
    rcases below.mem_whole.mp inQueue with inAhead | rfl | inInner | inBehind
    · have apart := below.top y inAhead inclusive
      have le := (below.ahead_lt y inAhead).le
      constructor
      · rintro ⟨first, _⟩
        exact absurd (prefix_of_both first extend le) apart
      · intro first
        exact absurd (prefix_of_both first below.start le) apart
    · exact ⟨fun _ => below.start, fun _ => ⟨extend, (below.inner_lt x inside).ne⟩⟩
    · exact isBeside y inInner inclusive
    · have apart := below.apart below.inclusive y inBehind
      constructor
      · rintro ⟨first, _⟩
        exact absurd (le_of_beginning first) (not_le.mpr (below.inner_lt_behind x inside y inBehind))
      · intro first
        exact absurd (prefix_of_both below.start first (below.lt_behind y inBehind).le) apart

theorem besides_inner : besides uri queue = besides uri inner := by
  have noAhead : ahead.filter (beside uri queue) = [] := by
    rw [List.filter_eq_nil_iff]
    intro x inside isBeside
    exact not_le.mpr (below.ahead_lt x inside) (le_of_beginning (below.beside_extends isBeside).1)
  have noMiddle : ¬beside uri queue f.bare = true := fun isBeside =>
    (below.beside_extends isBeside).2 rfl
  have noBehind : behind.filter (beside uri queue) = [] := by
    rw [List.filter_eq_nil_iff]
    intro x inside isBeside
    exact below.apart below.inclusive x inside (below.beside_extends isBeside).1
  have same : inner.filter (beside uri queue) = inner.filter (beside uri inner) :=
    List.filter_congr fun x inside => below.beside_inner inside
  have parts : queue.filter (beside uri queue) = ahead.filter (beside uri queue) ++
      (f.bare :: (inner ++ behind)).filter (beside uri queue) := by
    rw [← List.filter_append, ← below.whole]
  rw [besides, besides, parts, noAhead, List.nil_append, List.filter_cons_of_neg noMiddle,
    List.filter_append, noBehind, List.append_nil, same]

theorem flat_inner : flat uri queue rv = flat uri inner (.again, f.inclusive) := by
  have isNamed (x : Lq) (same : named uri x = true) : uri <+: x.name :=
    (of_decide_eq_true same : x.name = uri) ▸ List.prefix_rfl
  have isRedirect (x : Lq) (redirected : redirects uri x = true) : uri <+: x.name :=
    (redirects_iff.mp redirected).2 ▸ List.prefix_append ..
  rw [flat, flat, below.find_inner isNamed, below.find_inner isRedirect, below.besides_inner,
    below.coverOf_inner]

end Below

end Blocks

/-- No top element covers the URI or has its name. -/
structure Beyond (uri : List UInt8) (queue nested : List Lq) : Prop where
  forest : Forest queue nested
  sorted : queue.Pairwise fun a b => a.name < b.name
  bare : ∀ lq ∈ queue, lq.list = []
  noNamed : ∀ f ∈ nested, f.name ≠ uri
  noCover : ∀ f ∈ nested, f.inclusive ≠ none → ¬f.name <+: uri

namespace Beyond

variable {uri : List UInt8} {queue nested : List Lq} {rv : Found}
  (beyond : Beyond uri queue nested)

include beyond

theorem unnamed {x : Lq} (member : x ∈ queue) : x.name ≠ uri := by
  rintro rfl
  rcases beyond.forest.top_or_below beyond.sorted beyond.bare member with
    ⟨f, inside, rfl⟩ | ⟨f, inside, inclusive, start, _⟩
  · exact beyond.noNamed f inside rfl
  · exact beyond.noCover f inside inclusive start

theorem uncovered {x : Lq} (member : x ∈ queue) (inclusive : x.inclusive ≠ none) :
    ¬x.name <+: uri := by
  intro covered
  rcases beyond.forest.top_or_below beyond.sorted beyond.bare member with
    ⟨f, inside, rfl⟩ | ⟨f, inside, inclusive', start, _⟩
  · exact beyond.noCover f inside inclusive covered
  · exact beyond.noCover f inside inclusive' (start.trans covered)

theorem top_of_redirect {x : Lq} (member : x ∈ queue) (redirected : redirects uri x = true) :
    ∃ f ∈ nested, f.bare = x := by
  rcases beyond.forest.top_or_below beyond.sorted beyond.bare member with
    top | ⟨f, inside, inclusive, start, less⟩
  · exact top
  · rw [(redirects_iff.mp redirected).2] at start less
    rcases List.prefix_concat_iff.mp start with whole | short
    · exact absurd whole less.ne
    · exact absurd short (beyond.noCover f inside inclusive)

theorem top_beside {f : Lq} (member : f ∈ nested) : beside uri queue f.bare = true := by
  obtain ⟨left, right, rfl⟩ := List.append_of_mem member
  obtain ⟨ahead, inner, behind, block⟩ := beyond.forest.block beyond.bare
  have sorted := beyond.sorted
  rw [block.whole, List.pairwise_append, List.pairwise_cons] at sorted
  rw [beside, decide_eq_true_iff]
  intro y inQueue inclusive
  have noStart : ¬(y.name <+: f.bare.name ∧ y.name ≠ f.bare.name) := by
    rintro ⟨start, differ⟩
    have split := inQueue
    rw [block.whole] at split
    rcases List.mem_append.mp split with inAhead | later
    · exact block.top y inAhead inclusive start
    · rcases List.mem_cons.mp later with rfl | behind
      · exact differ rfl
      · exact not_le.mpr (sorted.2.1.1 y behind) (le_of_beginning start)
  exact ⟨fun both => absurd both noStart, fun covered => absurd covered (beyond.uncovered inQueue inclusive)⟩

theorem besides_top : besides uri queue = nested.map Lq.name := by
  have sorted := List.pairwise_map.mpr (beyond.sorted.filter (beside uri queue))
  have sorted' := List.pairwise_map.mpr (beyond.forest.sorted beyond.sorted beyond.bare)
  apply sorted.eq_of_mem_iff sorted'
  intro name
  rw [List.mem_map, List.mem_map]
  constructor
  · rintro ⟨x, member, rfl⟩
    obtain ⟨inQueue, isBeside⟩ := List.mem_filter.mp member
    rcases beyond.forest.top_or_below beyond.sorted beyond.bare inQueue with
      ⟨f, inside, rfl⟩ | ⟨f, inside, inclusive, start, less⟩
    · exact ⟨f, inside, rfl⟩
    · rw [beside, decide_eq_true_iff] at isBeside
      have covered := (isBeside f.bare (beyond.forest.top_mem beyond.bare inside) inclusive).mp
        ⟨start, less.ne⟩
      exact absurd covered (beyond.noCover f inside inclusive)
  · rintro ⟨f, inside, rfl⟩
    exact ⟨f.bare, List.mem_filter.mpr
      ⟨beyond.forest.top_mem beyond.bare inside, beyond.top_beside inside⟩, rfl⟩

theorem find_redirect : queue.find? (redirects uri) = (nested.find? (redirects uri)).map Lq.bare := by
  cases found : nested.find? (redirects uri) with
  | none =>
    rw [Option.map_none, List.find?_eq_none]
    intro x member redirected
    obtain ⟨f, inside, rfl⟩ := beyond.top_of_redirect member redirected
    exact List.find?_eq_none.mp found f inside redirected
  | some f =>
    have inside := List.mem_of_find?_eq_some found
    have redirected : redirects uri f = true := List.find?_some found
    have inQueue := beyond.forest.top_mem beyond.bare inside
    cases found' : queue.find? (redirects uri) with
    | none => exact absurd redirected (List.find?_eq_none.mp found' f.bare inQueue)
    | some x =>
      have name := (redirects_iff.mp (List.find?_some found')).2
      rw [← (redirects_iff.mp redirected).2] at name
      have same := eq_of_name beyond.sorted (List.mem_of_find?_eq_some found') inQueue name
      rw [same]
      rfl

theorem coverOf_top : coverOf uri queue rv = rv := by
  have nothing : queue.filter (covers uri) = [] := by
    rw [List.filter_eq_nil_iff]
    intro x member covered
    obtain ⟨inclusive, start⟩ := covers_iff.mp covered
    exact beyond.uncovered member inclusive start
  rw [coverOf, nothing]
  rfl

end Beyond

theorem answer_flat {uri : List UInt8} {queue nested : List Lq} {depth : Nat} {rv : Found}
    (forest : Forest queue nested) (sorted : queue.Pairwise fun a b => a.name < b.name)
    (bare : ∀ lq ∈ queue, lq.list = []) (enough : queue.length ≤ depth) :
    answer uri depth nested rv = flat uri queue rv := by
  induction depth generalizing queue nested rv with
  | zero =>
    obtain rfl := List.length_eq_zero_iff.mp (Nat.le_zero.mp enough)
    cases forest
    rfl
  | succ depth ih =>
    rw [answer]
    cases isNamed : nested.find? (named uri) with
    | some f =>
      have found' : named uri f = true := List.find?_some isNamed
      have name : f.name = uri := of_decide_eq_true found'
      have inQueue := forest.top_mem bare (List.mem_of_find?_eq_some isNamed)
      cases found : queue.find? (named uri) with
      | none => exact absurd (decide_eq_true name) (List.find?_eq_none.mp found f.bare inQueue)
      | some x =>
        have found'' : named uri x = true := List.find?_some found
        have same : x = f.bare := eq_of_name sorted (List.mem_of_find?_eq_some found) inQueue
          ((of_decide_eq_true found'').trans name.symm)
        rw [flat, found, same]
        rfl
    | none =>
      have noNamed : ∀ f ∈ nested, f.name ≠ uri := fun f inside same =>
        List.find?_eq_none.mp isNamed f inside (decide_eq_true same)
      cases covered : nested.find? (covers uri) with
      | some f =>
        have inside := List.mem_of_find?_eq_some covered
        obtain ⟨inclusive, start⟩ := covers_iff.mp (List.find?_some covered)
        obtain ⟨left, right, rfl⟩ := List.append_of_mem inside
        obtain ⟨ahead, inner, behind, block⟩ := forest.block bare
        have below : Below uri queue left right f ahead inner behind :=
          ⟨block, sorted, inclusive, start, noNamed f inside⟩
        have short := congrArg List.length block.whole
        simp only [List.length_append, List.length_cons] at short
        have sorted' := sorted
        rw [block.whole, List.pairwise_append, List.pairwise_cons,
          List.pairwise_append] at sorted'
        rw [below.flat_inner]
        exact ih block.nested sorted'.2.1.2.1 (fun x member =>
          bare x (below.mem_whole.mpr (Or.inr (Or.inr (Or.inl member))))) (by omega)
      | none =>
        have beyond : Beyond uri queue nested :=
          ⟨forest, sorted, bare, noNamed, fun f inside inclusive start =>
            List.find?_eq_none.mp covered f inside (covers_iff.mpr ⟨inclusive, start⟩)⟩
        have unnamed : queue.find? (named uri) = none := by
          rw [List.find?_eq_none]
          exact fun x member same => beyond.unnamed member (of_decide_eq_true same)
        rw [flat, unnamed, beyond.find_redirect, beyond.besides_top, beyond.coverOf_top]
        cases nested.find? (redirects uri) <;> rfl

end NgxFormal.Http.Locations
