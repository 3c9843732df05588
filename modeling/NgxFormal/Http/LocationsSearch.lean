import NgxFormal.Http.LocationsOrder

/-! The search in the tree of `ngx_http_create_locations_tree` finds what the nested queues hold,
except for a redirect that the search by halves passes by. -/

namespace NgxFormal.Http.Locations

open Lib.Words

def slash : UInt8 := chr '/'

def Lq.autoRedirect (lq : Lq) : Bool :=
  lq.exact.any Location.autoRedirect || lq.inclusive.any Location.autoRedirect

/-- What `ngx_http_core_find_static_location` returns at the node of an element. -/
def Lq.hit (lq : Lq) : Found := if lq.exact.isSome then (.ok, lq.exact) else (.again, lq.inclusive)

def Lq.redirected (lq : Lq) : Found :=
  (.done, if lq.exact.isSome then lq.exact else lq.inclusive)

section Answer

variable (uri : List UInt8)

def named (lq : Lq) : Bool := lq.name = uri

def covers (lq : Lq) : Bool := lq.inclusive.isSome && lq.name.isPrefixOf uri

def redirects (lq : Lq) : Bool := lq.autoRedirect && lq.name = uri ++ [slash]

def answer : Nat → List Lq → Found → Found
  | 0, _, rv => rv
  | depth + 1, locations, rv =>
    match locations.find? (named uri) with
    | some lq => lq.hit
    | none =>
      match locations.find? (covers uri) with
      | some lq => answer depth lq.list (.again, lq.inclusive)
      | none =>
        match locations.find? (redirects uri) with
        | some lq => if hidden uri lq.name (locations.map Lq.name) then rv else lq.redirected
        | none => rv

end Answer

/-- Queues whose names extend `before`, with at most `size` elements. -/
inductive Level : Nat → List UInt8 → List Lq → Prop where
  | mk {size deeper : Nat} {before : List UInt8} {locations : List Lq}
      (room : locations.length + deeper ≤ size)
      (sorted : locations.Pairwise fun a b => a.name < b.name)
      (apart : locations.Pairwise fun a b => a.inclusive ≠ none → ¬a.name <+: b.name)
      (inside : ∀ lq ∈ locations, before <+: lq.name ∧ lq.name.length ≤ 255)
      (slashed : ∀ lq ∈ locations, lq.autoRedirect = true → lq.name.getLast? = some slash)
      (nested : ∀ lq ∈ locations, Level deeper lq.name lq.list) : Level size before locations

section Middle

variable {α : Type}

theorem middleLoop_eq {last turns middle next : Nat} (double : next = 2 * middle)
    (early : next < last) (enough : last ≤ next + turns) :
    middleLoop last turns middle next = (last + 1) / 2 := by
  induction turns generalizing middle next with
  | zero => omega
  | succ turns ih =>
    rw [middleLoop]
    dsimp only
    by_cases odd : next + 1 = last
    · rw [if_pos odd]
      omega
    · rw [if_neg odd]
      by_cases even : next + 1 + 1 = last
      · rw [if_pos even]
        omega
      · rw [if_neg even]
        exact ih (by omega) (by omega) (by omega)

theorem ngxQueueMiddle_eq (queue : List α) : ngxQueueMiddle queue = queue.length / 2 := by
  rw [ngxQueueMiddle]
  split
  · omega
  · rw [middleLoop_eq rfl (by omega) (by omega)]
    omega

end Middle

section Split

variable {α : Type} {p : α → Bool} {f : α} {before after : List α}

theorem find_before (nothing : ∀ g ∈ f :: after, p g = false) :
    (before ++ f :: after).find? p = before.find? p := by
  have behind : (f :: after).find? p = none := by
    rw [List.find?_eq_none]
    intro g inside
    exact Bool.eq_false_iff.mp (nothing g inside)
  rw [List.find?_append, behind, Option.or_none]

theorem find_after (nothing : ∀ g ∈ before, p g = false) (noMiddle : p f = false) :
    (before ++ f :: after).find? p = after.find? p := by
  have ahead : before.find? p = none := by
    rw [List.find?_eq_none]
    intro g inside
    exact Bool.eq_false_iff.mp (nothing g inside)
  rw [List.find?_append, ahead, Option.none_or,
    List.find?_cons_of_neg (Bool.eq_false_iff.mp noMiddle)]

end Split

section Around

variable {uri : List UInt8} {f : Lq} {before after : List Lq} {depth : Nat} {rv : Found}

theorem covers_iff {lq : Lq} :
    covers uri lq = true ↔ lq.inclusive ≠ none ∧ lq.name <+: uri := by
  simp [covers, Option.isSome_iff_ne_none]

theorem redirects_iff {lq : Lq} :
    redirects uri lq = true ↔ lq.autoRedirect = true ∧ lq.name = uri ++ [slash] := by
  simp [redirects]

theorem lt_redirect (uri : List UInt8) : uri < uri ++ [slash] :=
  lt_of_beginning (List.prefix_append ..) (by simp)

theorem hidden_names {target : List UInt8}
    (balanced : before.length = (before.length + (after.length + 1)) / 2) :
    hidden uri target ((before ++ f :: after).map Lq.name) =
      if target = f.name then false
      else if target < f.name then hidden uri target (before.map Lq.name)
      else uri.isPrefixOf f.name || hidden uri target (after.map Lq.name) := by
  have lengths : (before.map Lq.name).length =
      ((before.map Lq.name).length + ((after.map Lq.name).length + 1)) / 2 := by
    rwa [List.length_map, List.length_map]
  rw [List.map_append, List.map_cons]
  exact hidden_split lengths

/-- Behind a name that is larger than the URI, only a redirect may matter. -/
theorem none_behind (sorted : ∀ g ∈ after, f.name < g.name) (late : uri < f.name) :
    (∀ g ∈ f :: after, named uri g = false) ∧ ∀ g ∈ f :: after, covers uri g = false := by
  have larger : ∀ g ∈ f :: after, uri < g.name := by
    intro g inside
    rcases List.mem_cons.mp inside with rfl | behind
    · exact late
    · exact late.trans (sorted g behind)
  constructor
  · intro g inside
    exact decide_eq_false (larger g inside).ne'
  · intro g inside
    rw [Bool.eq_false_iff]
    intro covered
    exact not_le.mpr (larger g inside) (le_of_beginning (covers_iff.mp covered).2)

theorem answer_before (balanced : before.length = (before.length + (after.length + 1)) / 2)
    (sorted : ∀ g ∈ after, f.name < g.name) (sorted' : ∀ g ∈ before, g.name < f.name)
    (late : uri < f.name) (part : ¬uri <+: f.name) :
    answer uri depth (before ++ f :: after) rv = answer uri depth before rv := by
  obtain ⟨noNamed, noCovers⟩ := none_behind sorted late
  have noRedirect : ∀ g ∈ f :: after, redirects uri g = false := by
    intro g inside
    rw [Bool.eq_false_iff]
    intro redirected
    have extend : uri <+: g.name := (redirects_iff.mp redirected).2 ▸ List.prefix_append ..
    rcases List.mem_cons.mp inside with rfl | behind
    · exact part extend
    · exact part (prefix_of_between extend late.le (sorted g behind).le)
  cases depth with
  | zero => rfl
  | succ depth =>
    rw [answer, answer, find_before noNamed, find_before noCovers, find_before noRedirect]
    cases redirect : before.find? (redirects uri) with
    | none => rfl
    | some lq =>
      have smaller := sorted' lq (List.mem_of_find?_eq_some redirect)
      dsimp only
      rw [hidden_names balanced, if_neg smaller.ne, if_pos smaller]

/-- The URI is larger than a name that does not cover it: the search goes right. -/
theorem answer_after (balanced : before.length = (before.length + (after.length + 1)) / 2)
    (sorted : ∀ g ∈ after, f.name < g.name) (sorted' : ∀ g ∈ before, g.name < f.name)
    (apart : ∀ g ∈ before, g.inclusive ≠ none → ¬g.name <+: f.name)
    (early : f.name < uri) (noCover : covers uri f = false) :
    answer uri depth (before ++ f :: after) rv = answer uri depth after rv := by
  have noNamed : ∀ g ∈ before, named uri g = false := fun g inside =>
    decide_eq_false ((sorted' g inside).trans early).ne
  have noCovers : ∀ g ∈ before, covers uri g = false := by
    intro g inside
    rw [Bool.eq_false_iff]
    intro covered
    obtain ⟨inclusive, start⟩ := covers_iff.mp covered
    exact apart g inside inclusive (prefix_of_between start (sorted' g inside).le early.le)
  have small : ∀ g : Lq, g.name < uri → redirects uri g = false := by
    intro g less
    rw [Bool.eq_false_iff]
    intro redirected
    exact lt_asymm less ((redirects_iff.mp redirected).2 ▸ lt_redirect uri)
  have noRedirect : ∀ g ∈ before, redirects uri g = false := fun g inside =>
    small g ((sorted' g inside).trans early)
  cases depth with
  | zero => rfl
  | succ depth =>
    rw [answer, answer, find_after noNamed (decide_eq_false early.ne), find_after noCovers noCover,
      find_after noRedirect (small f early)]
    cases redirect : after.find? (redirects uri) with
    | none => rfl
    | some lq =>
      have larger := sorted lq (List.mem_of_find?_eq_some redirect)
      have noStart : uri.isPrefixOf f.name = false := by
        rw [Bool.eq_false_iff]
        intro start
        exact not_le.mpr early (le_of_beginning (List.isPrefixOf_iff_prefix.mp start))
      dsimp only
      rw [hidden_names balanced, if_neg larger.ne', if_neg (lt_asymm larger), noStart,
        Bool.false_or]

theorem answer_prefix (balanced : before.length = (before.length + (after.length + 1)) / 2)
    (sorted : ∀ g ∈ after, f.name < g.name) (sorted' : ∀ g ∈ before, g.name < f.name)
    (apart : ∀ g ∈ before, g.inclusive ≠ none → ¬g.name <+: f.name)
    (start : uri <+: f.name) (differ : uri ≠ f.name) :
    answer uri (depth + 1) (before ++ f :: after) rv =
      answer uri (depth + 1) before (if redirects uri f then f.redirected else rv) := by
  have late := lt_of_beginning start differ
  obtain ⟨noNamed, noCovers⟩ := none_behind sorted late
  have uncovered : before.find? (covers uri) = none := by
    rw [List.find?_eq_none]
    intro g inside covered
    obtain ⟨inclusive, first⟩ := covers_iff.mp covered
    exact apart g inside inclusive (first.trans start)
  rw [answer, answer, find_before noNamed, find_before noCovers, uncovered, List.find?_append]
  by_cases here : redirects uri f = true
  · have noEarlier : before.find? (redirects uri) = none := by
      rw [List.find?_eq_none]
      intro g inside redirected
      have same := (redirects_iff.mp redirected).2.trans (redirects_iff.mp here).2.symm
      exact (sorted' g inside).ne same
    rw [noEarlier, Option.none_or, List.find?_cons_of_pos here, if_pos here]
    dsimp only
    rw [hidden_names balanced, if_pos rfl]
    rfl
  · rw [List.find?_cons_of_neg here, if_neg here]
    cases earlier : before.find? (redirects uri) with
    | some lq =>
      have smaller := sorted' lq (List.mem_of_find?_eq_some earlier)
      rw [Option.some_or]
      dsimp only
      rw [hidden_names balanced, if_neg smaller.ne, if_pos smaller]
    | none =>
      rw [Option.none_or]
      cases later : after.find? (redirects uri) with
      | none => rfl
      | some lq =>
        have larger := sorted lq (List.mem_of_find?_eq_some later)
        dsimp only
        rw [hidden_names balanced, if_neg larger.ne', if_neg (lt_asymm larger),
          List.isPrefixOf_iff_prefix.mpr start, Bool.true_or, if_pos rfl]

end Around

section Tree

variable {size fuel : Nat} {before : List UInt8} {locations left right : List Lq} {f : Lq}

theorem Level.sublist {fewer : List Lq} (level : Level size before locations)
    (part : fewer.Sublist locations) (shorter : fewer.length < locations.length) : Level (size - 1) before fewer := by
  obtain ⟨room, sorted, apart, inside, slashed, nested⟩ := level
  refine .mk ?_ (sorted.sublist part) (apart.sublist part)
    (fun lq member => inside lq (part.subset member))
    (fun lq member => slashed lq (part.subset member))
    fun lq member => nested lq (part.subset member)
  omega

theorem answer_nil (uri : List UInt8) (depth : Nat) (rv : Found) : answer uri depth [] rv = rv := by
  cases depth <;> rfl

def Answers (before : List UInt8) (size : Nat) (locations : List Lq) (tree : Node) : Prop :=
  ∀ rest depth rv, size ≤ depth → findLoop tree rest rv = answer (before ++ rest) depth locations rv

theorem answer_nested {uri : List UInt8} {depth : Nat} {rv : Found}
    (sorted' : ∀ g ∈ left, g.name < f.name)
    (apart : ∀ g ∈ left, g.inclusive ≠ none → ¬g.name <+: f.name)
    (apart' : ∀ g ∈ right, ¬f.name <+: g.name) (inclusive : f.inclusive ≠ none)
    (start : f.name <+: uri) (differ : f.name ≠ uri) :
    answer uri (depth + 1) (left ++ f :: right) rv =
      answer uri depth f.list (.again, f.inclusive) := by
  have early := lt_of_beginning start differ
  have noNamed : (left ++ f :: right).find? (named uri) = none := by
    rw [List.find?_eq_none]
    intro g inside same
    have name : g.name = uri := of_decide_eq_true same
    rcases List.mem_append.mp inside with ahead | behind
    · exact lt_asymm early (name ▸ sorted' g ahead)
    · rcases List.mem_cons.mp behind with rfl | later
      · exact differ name
      · exact apart' g later (name ▸ start)
  have noEarlier : ∀ g ∈ left, covers uri g = false := by
    intro g inside
    rw [Bool.eq_false_iff]
    intro covered
    obtain ⟨some_inclusive, first⟩ := covers_iff.mp covered
    exact apart g inside some_inclusive (prefix_of_between first (sorted' g inside).le early.le)
  have ahead : left.find? (covers uri) = none := by
    rw [List.find?_eq_none]
    intro g inside
    exact Bool.eq_false_iff.mp (noEarlier g inside)
  rw [answer, noNamed, List.find?_append, ahead, Option.none_or,
    List.find?_cons_of_pos (covers_iff.mpr ⟨inclusive, start⟩)]

theorem answer_named {depth : Nat} {rv : Found} (sorted' : ∀ g ∈ left, g.name < f.name) :
    answer f.name (depth + 1) (left ++ f :: right) rv = f.hit := by
  have ahead : left.find? (named f.name) = none := by
    rw [List.find?_eq_none]
    intro g inside same
    exact (sorted' g inside).ne (of_decide_eq_true same)
  have here : named f.name f = true := decide_eq_true rfl
  rw [answer, List.find?_append, ahead, Option.none_or, List.find?_cons_of_pos here]

theorem redirects_of_length {uri : List UInt8} (start : uri <+: f.name)
    (slashed : f.autoRedirect = true → f.name.getLast? = some slash) :
    (uri.length + 1 = f.name.length ∧ f.autoRedirect = true) ↔ redirects uri f = true := by
  rw [redirects_iff]
  constructor
  · rintro ⟨long, redirect⟩
    obtain ⟨more, isName⟩ := start
    rw [← isName, List.length_append] at long
    obtain ⟨c, rfl⟩ := List.length_eq_one_iff.mp (by omega : more.length = 1)
    have last := slashed redirect
    rw [← isName, List.getLast?_concat, Option.some.injEq] at last
    exact ⟨redirect, by rw [← isName, last]⟩
  · rintro ⟨redirect, isName⟩
    rw [isName, List.length_append]
    exact ⟨rfl, redirect⟩

theorem node_answers {leftTree rightTree tree : Node}
    (level : Level size before (left ++ f :: right))
    (balanced : left.length = (left.length + (right.length + 1)) / 2)
    (leftAnswers : Answers before (size - 1) left leftTree)
    (rightAnswers : Answers before (size - 1) right rightTree)
    (treeAnswers : Answers f.name (size - 1) f.list tree) :
    Answers before size (left ++ f :: right)
      (.node leftTree rightTree tree f.exact f.inclusive f.autoRedirect
        ((f.name.length - before.length) % 256) (f.name.drop before.length)) := by
  intro rest depth rv enough
  obtain ⟨room, sorted, apart, inside, slashed, -⟩ := level
  rw [List.length_append, List.length_cons] at room
  rw [List.pairwise_append, List.pairwise_cons] at sorted apart
  have member : f ∈ left ++ f :: right := List.mem_append_right _ List.mem_cons_self
  have sortedLeft : ∀ g ∈ left, g.name < f.name := fun g here =>
    sorted.2.2 g here f List.mem_cons_self
  have apartLeft : ∀ g ∈ left, g.inclusive ≠ none → ¬g.name <+: f.name := fun g here =>
    apart.2.2 g here f List.mem_cons_self
  obtain ⟨⟨s, isName⟩, short⟩ := inside f member
  have length := congrArg List.length isName
  rw [List.length_append] at length
  have len : (f.name.length - before.length) % 256 = s.length := by omega
  have name : f.name.drop before.length = s := by rw [← isName, List.drop_left]
  obtain ⟨depth, rfl⟩ : ∃ d, depth = d + 1 := ⟨depth - 1, by omega⟩
  have inLeft : (if rest.length ≤ s.length then rest.length else s.length) ≤ rest.length := by
    split <;> omega
  have inRight : (if rest.length ≤ s.length then rest.length else s.length) ≤ s.length := by
    split <;> omega
  rw [len, name, findLoop]
  rcases memcmp_cases inLeft inRight with ⟨rc, less, part⟩ | ⟨rc, same⟩ | ⟨rc, greater, part⟩
  · rw [rc]
    dsimp only
    rw [answer_before balanced sorted.2.1.1 sortedLeft
      (by rwa [← isName, append_lt_append]) (by rwa [← isName, List.prefix_append_right_inj])]
    exact leftAnswers rest _ rv (by omega)
  · rw [rc]
    dsimp only
    by_cases longer : s.length < rest.length
    · rw [if_neg (by omega), List.take_length] at same
      have start : f.name <+: before ++ rest := by
        rw [← isName, List.prefix_append_right_inj, ← same]
        exact List.take_prefix ..
      have differ : f.name ≠ before ++ rest := by
        intro equal
        have lengths := congrArg List.length equal
        rw [List.length_append] at lengths
        omega
      rw [if_pos longer, if_neg (by omega : ¬rest.length ≤ s.length)]
      by_cases inclusive : f.inclusive = none
      · have noCover : covers (before ++ rest) f = false := by
          rw [covers, inclusive]
          rfl
        rw [inclusive, if_neg (by decide), answer_after balanced sorted.2.1.1 sortedLeft apartLeft
          (lt_of_beginning start differ) noCover]
        exact rightAnswers rest _ rv (by omega)
      · have whole : f.name ++ rest.drop s.length = before ++ rest := by
          rw [← isName, List.append_assoc]
          nth_rewrite 1 [← same]
          rw [List.take_append_drop]
        rw [if_pos (Option.isSome_iff_ne_none.mpr inclusive), answer_nested sortedLeft apartLeft
          (fun g here => apart.2.1.1 g here inclusive) inclusive start differ, ← whole]
        exact treeAnswers _ depth _ (by omega)
    · rw [if_pos (by omega), List.take_length] at same
      rw [if_neg longer]
      by_cases equal : rest.length = s.length
      · rw [equal, List.take_length] at same
        rw [if_pos equal, same, isName, answer_named sortedLeft]
        rfl
      · have start : before ++ rest <+: f.name := by
          rw [← isName, List.prefix_append_right_inj, same]
          exact List.take_prefix ..
        have differ : before ++ rest ≠ f.name := by
          intro whole
          have lengths := congrArg List.length whole
          rw [List.length_append] at lengths
          omega
        have redirect := redirects_of_length start (slashed f member)
        rw [List.length_append] at redirect
        rw [if_neg equal, answer_prefix balanced sorted.2.1.1 sortedLeft apartLeft start differ]
        by_cases redirected : redirects (before ++ rest) f = true
        · have found := redirect.mpr redirected
          rw [if_pos redirected, if_pos ⟨by omega, found.2⟩]
          exact leftAnswers rest _ _ (by omega)
        · have missed : ¬(rest.length + 1 = s.length ∧ f.autoRedirect = true) := by
            intro both
            exact redirected (redirect.mp ⟨by omega, both.2⟩)
          rw [if_neg redirected, if_neg missed]
          exact leftAnswers rest _ rv (by omega)
  · have early : f.name < before ++ rest := by rwa [← isName, append_lt_append]
    have noCover : covers (before ++ rest) f = false := by
      rw [Bool.eq_false_iff]
      intro covered
      have start := (covers_iff.mp covered).2
      rw [← isName, List.prefix_append_right_inj] at start
      exact part start
    rw [rc]
    dsimp only
    rw [answer_after balanced sorted.2.1.1 sortedLeft apartLeft early noCover]
    exact rightAnswers rest _ rv (by omega)

theorem null_answers : Answers before size [] .null := by
  intro rest depth rv _
  rw [answer_nil]
  rfl

theorem Answers.mono {small : Nat} {tree : Node} (answers : Answers before small locations tree)
    (le : small ≤ size) : Answers before size locations tree :=
  fun rest depth rv enough => answers rest depth rv (le.trans enough)

theorem createLocationsTree_spec (level : Level size before locations) (full : locations ≠ [])
    (enough : size ≤ fuel) :
    ∃ tree, ngxHttpCreateLocationsTree fuel locations before.length = some tree ∧
      Answers before size locations tree := by
  induction fuel generalizing size before locations with
  | zero =>
    obtain ⟨room, -⟩ := level
    have := List.length_pos_of_ne_nil full
    omega
  | succ fuel ih =>
    have child {small : Nat} {start : List UInt8} {queue : List Lq} (level : Level small start queue)
        (le : small ≤ fuel) :
        ∃ tree, (if queue = [] then some .null
          else ngxHttpCreateLocationsTree fuel queue start.length) = some tree ∧
          Answers start small queue tree := by
      by_cases empty : queue = []
      · rw [if_pos empty, empty]
        exact ⟨.null, rfl, null_answers⟩
      · rw [if_neg empty]
        exact ih level empty le
    have positive := List.length_pos_of_ne_nil full
    obtain ⟨f, right, half⟩ : ∃ f right, locations.drop (locations.length / 2) = f :: right :=
      List.exists_cons_of_length_pos (by rw [List.length_drop]; omega)
    have both := List.take_append_drop (locations.length / 2) locations
    have head : (locations.take (locations.length / 2)).length = locations.length / 2 := by
      rw [List.length_take]
      omega
    rw [half] at both
    rw [ngxHttpCreateLocationsTree, ngxQueueMiddle_eq, half]
    generalize locations.take (locations.length / 2) = left at both head ⊢
    subst both
    rw [List.length_append, List.length_cons] at head
    have level' := level
    obtain ⟨room, -, -, inside, -, nested⟩ := level'
    rw [List.length_append, List.length_cons] at room
    have member : f ∈ left ++ f :: right := List.mem_append_right _ List.mem_cons_self
    obtain ⟨leftTree, leftMade, leftAnswers⟩ := child (level.sublist (List.sublist_append_left ..) (by
      rw [List.length_append, List.length_cons]
      omega)) (by omega)
    obtain ⟨rightTree, rightMade, rightAnswers⟩ := child (level.sublist
      ((List.sublist_cons_self f right).trans (List.sublist_append_right ..)) (by
      rw [List.length_append, List.length_cons]
      omega)) (by omega)
    obtain ⟨tree, treeMade, treeAnswers⟩ := child (nested f member) (by omega)
    have prefixLength : before.length + (f.name.length - before.length) = f.name.length := by
      have := (inside f member).1.length_le
      omega
    have noRight : (left = [] ∨ right = []) = (right = []) := by
      apply propext
      constructor
      · rintro (empty | empty)
        · rw [empty, List.length_nil] at head
          exact List.eq_nil_of_length_eq_zero (by omega)
        · exact empty
      · exact Or.inr
    refine ⟨_, ?_, node_answers level head leftAnswers rightAnswers
      (treeAnswers.mono (by omega))⟩
    simp only [noRight, leftMade, rightMade, prefixLength, treeMade, Option.bind_some,
      Lq.autoRedirect]

end Tree

end NgxFormal.Http.Locations
