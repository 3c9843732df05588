import NgxFormal.Http.LocationsFlat
import Mathlib.Data.List.Dedup

/-! `ngx_http_core_find_static_location` in the trees of any static locations. -/

namespace NgxFormal.Http.Locations

open Lib.Words

theorem Level.mono {small size : Nat} {before : List UInt8} {locations : List Lq}
    (level : Level small before locations) (le : small ≤ size) : Level size before locations := by
  obtain ⟨room, sorted, apart, inside, slashed, nested⟩ := level
  exact .mk (room.trans le) sorted apart inside slashed nested

theorem Forest.level {queue nested : List Lq} {before : List UInt8} (forest : Forest queue nested)
    (sorted : queue.Pairwise fun a b => a.name < b.name) (bare : ∀ lq ∈ queue, lq.list = [])
    (inside : ∀ lq ∈ queue, before <+: lq.name ∧ lq.name.length ≤ 255)
    (slashed : ∀ lq ∈ queue, lq.autoRedirect = true → lq.name.getLast? = some slash) :
    Level queue.length before nested := by
  induction forest generalizing before with
  | nil =>
    exact @Level.mk _ 0 _ _ le_rfl List.Pairwise.nil List.Pairwise.nil (by simp) (by simp) (by simp)
  | @cons lq inner rest list others nested after extend apart ihNested ihAfter =>
    have inInner : ∀ lx ∈ inner, lx ∈ lq :: (inner ++ rest) := fun lx member =>
      List.mem_cons_of_mem _ (List.mem_append_left rest member)
    have inRest : ∀ lx ∈ rest, lx ∈ lq :: (inner ++ rest) := fun lx member =>
      List.mem_cons_of_mem _ (List.mem_append_right inner member)
    rw [List.pairwise_cons, List.pairwise_append] at sorted
    have below := ihNested sorted.2.1 (fun lx member => bare lx (inInner lx member))
      (fun lx member => ⟨(extend lx member).2, (inside lx (inInner lx member)).2⟩)
      fun lx member => slashed lx (inInner lx member)
    obtain ⟨room, sorted', apart', inside', slashed', nested'⟩ := ihAfter sorted.2.2.1
      (fun lx member => bare lx (inRest lx member))
      (fun lx member => inside lx (inRest lx member))
      fun lx member => slashed lx (inRest lx member)
    rename_i deeper
    have top (f : Lq) (member : f ∈ others) : f.bare ∈ rest :=
      after.top_mem (fun lx member => bare lx (inRest lx member)) member
    refine @Level.mk _ (max inner.length deeper) _ _ ?_ (List.pairwise_cons.mpr ⟨?_, sorted'⟩)
      (List.pairwise_cons.mpr ⟨?_, apart'⟩) ?_ ?_ ?_
    · simp only [List.length_cons, List.length_append]
      omega
    · exact fun f member => sorted.1 f.bare (List.mem_append_right inner (top f member))
    · exact fun f member inclusive => apart inclusive f.bare (top f member)
    · intro f member
      rcases List.mem_cons.mp member with rfl | later
      · exact inside lq List.mem_cons_self
      · exact inside' f later
    · intro f member
      rcases List.mem_cons.mp member with rfl | later
      · exact slashed lq List.mem_cons_self
      · exact slashed' f later
    · intro f member
      rcases List.mem_cons.mp member with rfl | later
      · exact below.mono (le_max_left ..)
      · exact (nested' f later).mono (le_max_right ..)

/-- Different static locations; the modules that set `auto_redirect` do it for names that end with
a slash. -/
structure Admissible (locations : List Location) : Prop where
  static : ∀ l ∈ locations, Static l
  distinct : (locations.map fun l => (l.name, l.kind)).Nodup
  nonempty : ∀ l ∈ locations, l.name ≠ []
  short : ∀ l ∈ locations, l.name.length ≤ 255
  slashed : ∀ l ∈ locations, l.autoRedirect = true → l.name.getLast? = some slash

instance (l : Location) : Decidable (Static l) := inferInstanceAs (Decidable (_ ∧ _))

instance (locations : List Location) : Decidable (Admissible locations) :=
  decidable_of_iff ((∀ l ∈ locations, Static l) ∧
      (locations.map fun l => (l.name, l.kind)).Nodup ∧ (∀ l ∈ locations, l.name ≠ []) ∧
      (∀ l ∈ locations, l.name.length ≤ 255) ∧
      ∀ l ∈ locations, l.autoRedirect = true → l.name.getLast? = some slash)
    ⟨fun all => ⟨all.1, all.2.1, all.2.2.1, all.2.2.2.1, all.2.2.2.2⟩,
      fun all => ⟨all.static, all.distinct, all.nonempty, all.short, all.slashed⟩⟩

section Purpose

variable (locations : List Location) (uri : List UInt8)

/-- A redirect is due: an automatic one is declared, and no location has the name of the URI. -/
def Due : Prop :=
  (∀ l ∈ locations, l.name ≠ uri) ∧ ∃ l ∈ locations, l.autoRedirect = true ∧ l.name = uri ++ [slash]

instance : Decidable (Due locations uri) := inferInstanceAs (Decidable (_ ∧ _))

/-- What the search is for: the exact location, else the redirect, else the longest prefix. -/
structure Meets (res : Found) : Prop where
  exact : ∀ l ∈ locations, l.kind = .exact → l.name = uri → res = (.ok, some l)
  redirect : Due locations uri →
    ∃ l ∈ locations, l.autoRedirect = true ∧ l.name = uri ++ [slash] ∧ res = (.done, some l)
  longest : (∀ l ∈ locations, l.kind = .exact → l.name ≠ uri) → ¬Due locations uri →
    ∀ l ∈ locations, l.kind = .inclusive → l.name <+: uri →
      (∀ m ∈ locations, m.kind = .inclusive → m.name <+: uri → m.name.length ≤ l.name.length) →
      res = (.again, some l)
  nothing : (∀ l ∈ locations, l.kind = .exact → l.name ≠ uri) → ¬Due locations uri →
    (∀ l ∈ locations, l.kind = .inclusive → ¬l.name <+: uri) → res = (.declined, none)

/-- The names of the locations that are nested in the same inclusive ones as the URI, in order. -/
def level : List (List UInt8) :=
  (((locations.filter fun x => ∀ y ∈ locations, y.kind = .inclusive →
    ((y.name <+: x.name ∧ y.name ≠ x.name) ↔ y.name <+: uri)).map Location.name).dedup).insertionSort
    (· ≤ ·)

/-- The search by halves comes to the redirect, and its location is the automatic one. -/
def Reached : Prop :=
  hidden uri (uri ++ [slash]) (level locations uri) = false ∧
    ∀ l ∈ locations, l.kind = .exact → l.name = uri ++ [slash] → l.autoRedirect = true

instance : Decidable (Reached locations uri) := inferInstanceAs (Decidable (_ ∧ _))

end Purpose

section Queue

variable {locations : List Location} {queue : List Lq} {uri : List UInt8}

theorem Joined.inclusive_name (joined : Joined locations queue) {name : List UInt8} :
    (∃ lq ∈ queue, lq.inclusive ≠ none ∧ lq.name = name) ↔
      ∃ l ∈ locations, l.kind = .inclusive ∧ l.name = name := by
  constructor
  · rintro ⟨lq, member, inclusive, rfl⟩
    obtain ⟨l, isSome⟩ := Option.ne_none_iff_exists'.mp inclusive
    obtain ⟨inside, kind, same⟩ := (joined.inclusive_iff lq member l).mp isSome
    exact ⟨l, inside, kind, same⟩
  · rintro ⟨l, inside, kind, rfl⟩
    obtain ⟨lq, member, same⟩ := joined.complete l inside
    have isSome := (joined.inclusive_iff lq member l).mpr ⟨inside, kind, same.symm⟩
    exact ⟨lq, member, by rw [isSome]; exact Option.some_ne_none l, same⟩

theorem Joined.mem_name (joined : Joined locations queue) {name : List UInt8} :
    (∃ lq ∈ queue, lq.name = name) ↔ ∃ l ∈ locations, l.name = name := by
  constructor
  · rintro ⟨lq, member, rfl⟩
    rcases joined.used lq member with exact | inclusive
    · obtain ⟨l, isSome⟩ := Option.ne_none_iff_exists'.mp exact
      obtain ⟨inside, _, same⟩ := (joined.exact_iff lq member l).mp isSome
      exact ⟨l, inside, same⟩
    · obtain ⟨l, isSome⟩ := Option.ne_none_iff_exists'.mp inclusive
      obtain ⟨inside, _, same⟩ := (joined.inclusive_iff lq member l).mp isSome
      exact ⟨l, inside, same⟩
  · rintro ⟨l, inside, rfl⟩
    exact joined.complete l inside

theorem besides_eq_level (joined : Joined locations queue) :
    besides uri queue = level locations uri := by
  have sorted := List.pairwise_map.mpr (joined.sorted.filter (beside uri queue))
  have sorted' : (level locations uri).Pairwise (· < ·) := by
    have distinct := (List.perm_insertionSort (· ≤ ·) _).nodup_iff.mpr (List.nodup_dedup
      ((locations.filter fun x => ∀ y ∈ locations, y.kind = .inclusive →
        ((y.name <+: x.name ∧ y.name ≠ x.name) ↔ y.name <+: uri)).map Location.name))
    exact ((List.pairwise_insertionSort (· ≤ ·) _).and distinct).imp fun both =>
      lt_of_le_of_ne both.1 both.2
  apply sorted.eq_of_mem_iff sorted'
  intro name
  have nestedAlike : (∀ y ∈ queue, y.inclusive ≠ none →
      ((y.name <+: name ∧ y.name ≠ name) ↔ y.name <+: uri)) ↔
      ∀ y ∈ locations, y.kind = .inclusive → ((y.name <+: name ∧ y.name ≠ name) ↔ y.name <+: uri) := by
    constructor
    · intro alike l inside kind
      obtain ⟨lq, member, inclusive, same⟩ := joined.inclusive_name.mpr ⟨l, inside, kind, rfl⟩
      rw [← same]
      exact alike lq member inclusive
    · intro alike lq member inclusive
      obtain ⟨l, inside, kind, same⟩ := joined.inclusive_name.mp ⟨lq, member, inclusive, rfl⟩
      rw [← same]
      exact alike l inside kind
  rw [level, List.mem_insertionSort, List.mem_dedup, List.mem_map, List.mem_map]
  simp only [List.mem_filter, beside, decide_eq_true_iff]
  constructor
  · rintro ⟨lq, ⟨member, alike⟩, rfl⟩
    obtain ⟨l, inside, same⟩ := joined.mem_name.mp ⟨lq, member, rfl⟩
    rw [← same] at alike nestedAlike ⊢
    exact ⟨l, ⟨inside, nestedAlike.mp alike⟩, rfl⟩
  · rintro ⟨l, ⟨inside, alike⟩, rfl⟩
    obtain ⟨lq, member, same⟩ := joined.mem_name.mpr ⟨l, inside, rfl⟩
    rw [← same] at alike nestedAlike ⊢
    exact ⟨lq, ⟨member, nestedAlike.mpr alike⟩, rfl⟩

theorem Joined.length_le (joined : Joined locations queue) : queue.length ≤ locations.length := by
  have distinct : (queue.map Lq.name).Nodup :=
    (List.pairwise_map.mpr joined.sorted).imp fun less => less.ne
  have inside : queue.map Lq.name ⊆ locations.map Location.name := by
    intro name member
    obtain ⟨lq, inQueue, rfl⟩ := List.mem_map.mp member
    obtain ⟨l, inLocations, same⟩ := joined.mem_name.mp ⟨lq, inQueue, rfl⟩
    exact List.mem_map.mpr ⟨l, inLocations, same⟩
  have shorter := (List.subperm_of_subset distinct inside).length_le
  rwa [List.length_map, List.length_map] at shorter

theorem Joined.redirect (joined : Joined locations queue) {lq : Lq} (member : lq ∈ queue) :
    lq.autoRedirect = true ↔ ∃ l ∈ locations, l.autoRedirect = true ∧
      ((l.kind = .exact ∧ lq.exact = some l) ∨ (l.kind = .inclusive ∧ lq.inclusive = some l)) ∧
      l.name = lq.name := by
  have exact_iff := joined.exact_iff lq member
  have inclusive_iff := joined.inclusive_iff lq member
  rw [Lq.autoRedirect, Bool.or_eq_true, Option.any_eq_true, Option.any_eq_true]
  constructor
  · rintro (⟨l, isSome, redirect⟩ | ⟨l, isSome, redirect⟩)
    · obtain ⟨inside, kind, same⟩ := (exact_iff l).mp isSome
      exact ⟨l, inside, redirect, Or.inl ⟨kind, isSome⟩, same⟩
    · obtain ⟨inside, kind, same⟩ := (inclusive_iff l).mp isSome
      exact ⟨l, inside, redirect, Or.inr ⟨kind, isSome⟩, same⟩
  · rintro ⟨l, _, redirect, ⟨_, isSome⟩ | ⟨_, isSome⟩, _⟩
    · exact Or.inl ⟨l, isSome, redirect⟩
    · exact Or.inr ⟨l, isSome, redirect⟩

theorem lookup_flat (admissible : Admissible locations) {fuel : Nat}
    (enough : locations.length ≤ fuel) (uri : List UInt8) :
    ∃ queue, Joined locations queue ∧
      lookup fuel locations uri = some (flat uri queue (.declined, none)) := by
  obtain ⟨sorted, perm, ordered, initialized⟩ :=
    initLocations_static admissible.static admissible.distinct
  have static : ∀ l ∈ sorted, Static l := fun l inside =>
    admissible.static l (perm.mem_iff.mp inside)
  obtain ⟨queue, joins, joined⟩ := joinExactLocations_spec static ordered
  have joined' : Joined locations queue := by
    refine ⟨joined.sorted, joined.bare, joined.used, ?_, ?_, ?_⟩
    · intro lq member l
      rw [joined.exact_iff lq member l, perm.mem_iff]
    · intro lq member l
      rw [joined.inclusive_iff lq member l, perm.mem_iff]
    · intro l inside
      exact joined.complete l (perm.mem_iff.mpr inside)
  refine ⟨queue, joined', ?_⟩
  have shorter := joined'.length_le
  rw [lookup, initialized, ngxHttpInitStaticLocationTrees]
  by_cases empty : sorted.map element = []
  · have none : sorted = [] := List.map_eq_nil_iff.mp empty
    rw [none] at joins
    cases joins
    rw [if_pos empty]
    rfl
  · obtain ⟨nested, created, forest⟩ := createLocationsList_spec fuel joined.sorted joined.bare
      (shorter.trans enough)
    have inside : ∀ lq ∈ queue, [] <+: lq.name ∧ lq.name.length ≤ 255 := by
      intro lq member
      obtain ⟨l, inLocations, same⟩ := joined'.mem_name.mp ⟨lq, member, rfl⟩
      exact ⟨List.nil_prefix, same ▸ admissible.short l inLocations⟩
    have slashed : ∀ lq ∈ queue, lq.autoRedirect = true → lq.name.getLast? = some slash := by
      intro lq member redirect
      obtain ⟨l, inLocations, isRedirect, _, same⟩ := (joined'.redirect member).mp redirect
      exact same ▸ admissible.slashed l inLocations isRedirect
    have full : nested ≠ [] := by
      rintro rfl
      cases forest
      obtain ⟨l, rest, isCons⟩ := List.exists_cons_of_ne_nil fun none : sorted = [] =>
        empty (none ▸ rfl)
      obtain ⟨lq, member, _⟩ := joined.complete l (isCons ▸ List.mem_cons_self)
      exact absurd member List.not_mem_nil
    obtain ⟨tree, made, answers⟩ := createLocationsTree_spec
      (forest.level joined.sorted joined.bare inside slashed) full (shorter.trans enough)
    have found := answers uri queue.length (.declined, none) le_rfl
    rw [List.nil_append, answer_flat forest joined.sorted joined.bare le_rfl] at found
    rw [if_neg empty, joins, Option.bind_eq_bind, Option.bind_some, created, Option.bind_some]
    rw [List.length_nil] at made
    rw [made, Option.map_some, ngxHttpCoreFindStaticLocation, found]

theorem find_named {lq : Lq} (joined : Joined locations queue) (member : lq ∈ queue) :
    queue.find? (named lq.name) = some lq := by
  cases found : queue.find? (named lq.name) with
  | none => exact absurd (decide_eq_true rfl) (List.find?_eq_none.mp found lq member)
  | some x =>
    have isNamed : named lq.name x = true := List.find?_some found
    rw [eq_of_name joined.sorted (List.mem_of_find?_eq_some found) member
      (of_decide_eq_true isNamed)]

theorem coverOf_longest (joined : Joined locations queue) {l : Location} (inside : l ∈ locations)
    (kind : l.kind = .inclusive) (start : l.name <+: uri)
    (longest : ∀ m ∈ locations, m.kind = .inclusive → m.name <+: uri →
      m.name.length ≤ l.name.length) (rv : Found) :
    coverOf uri queue rv = (.again, some l) := by
  obtain ⟨lq, member, same⟩ := joined.complete l inside
  have isSome := (joined.inclusive_iff lq member l).mpr ⟨inside, kind, same.symm⟩
  have covered : lq ∈ queue.filter (covers uri) := by
    rw [List.mem_filter, covers_iff, isSome, same]
    exact ⟨member, Option.some_ne_none l, start⟩
  cases last : (queue.filter (covers uri)).getLast? with
  | none =>
    rw [List.getLast?_eq_none_iff] at last
    rw [last] at covered
    exact absurd covered List.not_mem_nil
  | some x =>
    obtain ⟨front, isFront⟩ := List.getLast?_eq_some_iff.mp last
    have sorted := joined.sorted.filter (covers uri)
    have inFilter : x ∈ queue.filter (covers uri) := by
      rw [isFront]
      exact List.mem_append_right _ List.mem_cons_self
    obtain ⟨inQueue, xCovered⟩ := List.mem_filter.mp inFilter
    obtain ⟨xInclusive, xStart⟩ := covers_iff.mp xCovered
    have le : lq.name ≤ x.name := by
      rw [isFront, List.pairwise_append] at sorted
      rw [isFront] at covered
      rcases List.mem_append.mp covered with ahead | here
      · exact (sorted.2.2 lq ahead x List.mem_cons_self).le
      · rw [List.mem_singleton.mp here]
    obtain ⟨m, mInside, mKind, mSame⟩ := joined.inclusive_name.mp ⟨x, inQueue, xInclusive, rfl⟩
    have shorter := longest m mInside mKind (mSame ▸ xStart)
    have extend := prefix_of_both (same ▸ start : lq.name <+: uri) xStart le
    have name : lq.name = x.name := by
      apply extend.eq_of_length_le
      rw [same, ← mSame]
      exact shorter
    rw [coverOf, last, ← eq_of_name joined.sorted member inQueue name]
    dsimp only
    rw [isSome]

theorem coverOf_none (joined : Joined locations queue)
    (nothing : ∀ l ∈ locations, l.kind = .inclusive → ¬l.name <+: uri) (rv : Found) :
    coverOf uri queue rv = rv := by
  have empty : queue.filter (covers uri) = [] := by
    rw [List.filter_eq_nil_iff]
    intro lq member covered
    obtain ⟨inclusive, start⟩ := covers_iff.mp covered
    obtain ⟨l, inside, kind, same⟩ := joined.inclusive_name.mp ⟨lq, member, inclusive, rfl⟩
    exact nothing l inside kind (same ▸ start)
  rw [coverOf, empty]
  rfl

theorem meets_named (joined : Joined locations queue) {l : Location} (inside : l ∈ locations)
    (name : l.name = uri) : Meets locations uri (flat uri queue (.declined, none)) := by
  obtain ⟨lq, member, same⟩ := joined.complete l inside
  have isUri := same.trans name
  have found := find_named joined member
  rw [isUri] at found
  have hit : flat uri queue (.declined, none) = lq.hit := by
    rw [flat, found]
  have notDue : ¬Due locations uri := fun due => due.1 l inside name
  have noExact (none : ∀ l ∈ locations, l.kind = .exact → l.name ≠ uri) : lq.exact = Option.none := by
    by_contra some_exact
    obtain ⟨e, isSome⟩ := Option.ne_none_iff_exists'.mp some_exact
    obtain ⟨eInside, kind, eSame⟩ := (joined.exact_iff lq member e).mp isSome
    exact none e eInside kind (eSame.trans isUri)
  have inclusive (none : ∀ l ∈ locations, l.kind = .exact → l.name ≠ uri) :
      ∃ i ∈ locations, i.kind = .inclusive ∧ i.name = uri := by
    have some_inclusive := (joined.used lq member).resolve_left fun used => used (noExact none)
    rw [← isUri]
    exact joined.inclusive_name.mp ⟨lq, member, some_inclusive, rfl⟩
  rw [hit, Lq.hit]
  refine ⟨?_, fun due => absurd due notDue, ?_, ?_⟩
  · intro e eInside kind eName
    have isSome := (joined.exact_iff lq member e).mpr ⟨eInside, kind, eName.trans isUri.symm⟩
    rw [isSome]
    rfl
  · intro none _ i iInside kind start longest
    obtain ⟨m, mInside, mKind, mName⟩ := inclusive none
    have long := longest m mInside mKind (mName ▸ List.prefix_rfl)
    have whole : i.name = uri := start.eq_of_length_le (mName ▸ long)
    have isSome := (joined.inclusive_iff lq member i).mpr ⟨iInside, kind, whole.trans isUri.symm⟩
    rw [noExact none, isSome]
    rfl
  · intro none _ uncovered
    obtain ⟨m, mInside, mKind, mName⟩ := inclusive none
    exact absurd (mName ▸ List.prefix_rfl) (uncovered m mInside mKind)

theorem meets_inclusive (joined : Joined locations queue) (unnamed : ∀ l ∈ locations, l.name ≠ uri)
    (notDue : ¬Due locations uri) :
    Meets locations uri (coverOf uri queue (.declined, none)) := by
  refine ⟨fun l inside _ name => absurd name (unnamed l inside), fun due => absurd due notDue, ?_, ?_⟩
  · intro _ _ l inside kind start longest
    exact coverOf_longest joined inside kind start longest _
  · intro _ _ nothing
    exact coverOf_none joined nothing _

theorem coverOf_rc (rv : Found) :
    (coverOf uri queue rv).1 = .again ∨ coverOf uri queue rv = rv := by
  rw [coverOf]
  cases (queue.filter (covers uri)).getLast? with
  | none => exact Or.inr rfl
  | some lq => exact Or.inl rfl

theorem meets_redirected (joined : Joined locations queue) (unnamed : ∀ l ∈ locations, l.name ≠ uri)
    {lq : Lq} (member : lq ∈ queue) (redirected : redirects uri lq = true) :
    Meets locations uri lq.redirected ↔
      ∀ l ∈ locations, l.kind = .exact → l.name = uri ++ [slash] → l.autoRedirect = true := by
  obtain ⟨redirect, name⟩ := redirects_iff.mp redirected
  obtain ⟨r, rInside, rRedirect, rPlace, rName⟩ := (joined.redirect member).mp redirect
  have due : Due locations uri := ⟨unnamed, r, rInside, rRedirect, rName.trans name⟩
  rw [Lq.redirected]
  constructor
  · intro meets l inside kind same
    obtain ⟨d, _, dRedirect, _, result⟩ := meets.redirect due
    have isSome := (joined.exact_iff lq member l).mpr ⟨inside, kind, same.trans name.symm⟩
    rw [isSome] at result
    have equal : l = d := by simpa using result
    rw [equal]
    exact dRedirect
  · intro twin
    refine ⟨fun l inside _ same => absurd same (unnamed l inside), fun _ => ?_,
      fun _ notDue => absurd due notDue, fun _ notDue => absurd due notDue⟩
    cases exact : lq.exact with
    | some e =>
      obtain ⟨inside, kind, same⟩ := (joined.exact_iff lq member e).mp exact
      exact ⟨e, inside, twin e inside kind (same.trans name), same.trans name, rfl⟩
    | none =>
      rcases rPlace with ⟨_, isSome⟩ | ⟨_, isSome⟩
      · rw [exact] at isSome
        cases isSome
      · exact ⟨r, rInside, rRedirect, rName.trans name, by rw [isSome]; rfl⟩

end Queue

/-- The search gives what it is for, unless a redirect is due that it passes by or that has a
location of its own. -/
theorem static_location_correct (locations : List Location) (admissible : Admissible locations)
    (uri : List UInt8) (fuel : Nat) (enough : locations.length ≤ fuel) :
    (∃ res, lookup fuel locations uri = some res ∧ Meets locations uri res) ↔
      (Due locations uri → Reached locations uri) := by
  obtain ⟨queue, joined, isFlat⟩ := lookup_flat admissible enough uri
  have reduced : (∃ res, lookup fuel locations uri = some res ∧ Meets locations uri res) ↔
      Meets locations uri (flat uri queue (.declined, none)) := by
    rw [isFlat]
    simp
  rw [reduced]
  by_cases unnamed : ∀ l ∈ locations, l.name ≠ uri
  · have noNamed : queue.find? (named uri) = none := by
      rw [List.find?_eq_none]
      intro lq member isNamed
      obtain ⟨l, inside, same⟩ := joined.mem_name.mp ⟨lq, member, of_decide_eq_true isNamed⟩
      exact unnamed l inside same
    rw [flat, noNamed]
    dsimp only
    cases found : queue.find? (redirects uri) with
    | none =>
      have notDue : ¬Due locations uri := by
        rintro ⟨_, l, inside, redirect, name⟩
        obtain ⟨lq, member, same⟩ := joined.complete l inside
        have place : (l.kind = .exact ∧ lq.exact = some l) ∨
            (l.kind = .inclusive ∧ lq.inclusive = some l) := by
          rcases (admissible.static l inside).1 with kind | kind
          · exact Or.inl ⟨kind, (joined.exact_iff lq member l).mpr ⟨inside, kind, same.symm⟩⟩
          · exact Or.inr ⟨kind, (joined.inclusive_iff lq member l).mpr ⟨inside, kind, same.symm⟩⟩
        have automatic := (joined.redirect member).mpr ⟨l, inside, redirect, place, same.symm⟩
        exact List.find?_eq_none.mp found lq member
          (redirects_iff.mpr ⟨automatic, same.trans name⟩)
      exact iff_of_true (meets_inclusive joined unnamed notDue) fun due => absurd due notDue
    | some lq =>
      have member := List.mem_of_find?_eq_some found
      have redirected : redirects uri lq = true := List.find?_some found
      obtain ⟨redirect, name⟩ := redirects_iff.mp redirected
      obtain ⟨r, rInside, rRedirect, _, rName⟩ := (joined.redirect member).mp redirect
      have due : Due locations uri := ⟨unnamed, r, rInside, rRedirect, rName.trans name⟩
      have meets := meets_redirected joined unnamed member redirected
      dsimp only
      rw [name, besides_eq_level joined, Reached]
      by_cases passed : hidden uri (uri ++ [slash]) (level locations uri) = true
      · rw [if_pos passed]
        refine iff_of_false ?_ fun reached => ?_
        · intro meets
          obtain ⟨d, _, _, _, result⟩ := meets.redirect due
          rcases @coverOf_rc queue uri (.declined, none) with again | same
          · rw [result] at again
            cases again
          · rw [result] at same
            cases same
        · rw [(reached due).1] at passed
          cases passed
      · rw [if_neg passed, meets]
        rw [Bool.not_eq_true] at passed
        exact ⟨fun twin _ => ⟨passed, twin⟩, fun reached => (reached due).2⟩
  · push Not at unnamed
    obtain ⟨l, inside, name⟩ := unnamed
    exact iff_of_true (meets_named joined inside name) fun due => absurd name (due.1 l inside)

/-- The redirect to `/ab/` is passed by at `/ab-c`. -/
theorem static_location_hidden :
    let text (s : String) : List UInt8 := s.toList.map chr
    let locations : List Location := [⟨text "/aa", .inclusive, false⟩,
      ⟨text "/ab-c", .inclusive, false⟩, ⟨text "/ab/", .inclusive, true⟩]
    Admissible locations ∧
      ¬∃ res, lookup 3 locations (text "/ab") = some res ∧ Meets locations (text "/ab") res := by
  intro text locations
  refine ⟨by decide +kernel, ?_⟩
  rintro ⟨res, found, meets⟩
  have declined : lookup 3 locations (text "/ab") = some (.declined, none) := by decide +kernel
  have due : Due locations (text "/ab") := by decide +kernel
  obtain ⟨l, _, _, _, result⟩ := meets.redirect due
  rw [declined, result] at found
  cases found

theorem static_location_correct_redirect :
    let text (s : String) : List UInt8 := s.toList.map chr
    let locations : List Location := [⟨text "/ab-c", .inclusive, false⟩,
      ⟨text "/ab/", .inclusive, true⟩]
    Admissible locations ∧
      ((∃ res, lookup 3 locations (text "/ab") = some res ∧ Meets locations (text "/ab") res) ↔
        (Due locations (text "/ab") → Reached locations (text "/ab"))) := by
  intro text locations
  have admissible : Admissible locations := by decide +kernel
  exact ⟨admissible, static_location_correct locations admissible (text "/ab") 3 (by decide)⟩

end NgxFormal.Http.Locations
