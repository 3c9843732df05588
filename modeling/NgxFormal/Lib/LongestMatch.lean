import Mathlib.Algebra.Order.Ring.Int
import Mathlib.Data.List.Infix
import Mathlib.Data.List.Nodup

/-! Rules on the prefixes of a path: the value of the longest rule that matches, found by
descending one step of the path at a time. A value of zero stands for no rule. -/

namespace NgxFormal.Lib.LongestMatch

structure Rule (α : Type) where
  path : List α
  ending : Bool
  value : Nat
  deriving DecidableEq, Repr

variable {α : Type}

/-- A rule matches what its path is a prefix of; whether it matches the path itself depends on
its ending. -/
def Rule.Matches (exact : Bool → Bool) (rule : Rule α) (query : List α) : Prop :=
  rule.path <+: query ∧ (rule.path = query → exact rule.ending = true)

def Longest (exact : Bool → Bool) (rules : List (Rule α)) (query : List α) (value : Nat) : Prop :=
  (∃ rule ∈ rules, rule.Matches exact query ∧ rule.value = value ∧
    ∀ other ∈ rules, other.Matches exact query → other.path.length ≤ rule.path.length) ∨
  (value = 0 ∧ ∀ rule ∈ rules, ¬rule.Matches exact query)

section Descent

variable [DecidableEq α]

/-- What is left of a rule behind the step `a`. -/
def Rule.behind (a : α) (rule : Rule α) : Option (Rule α) :=
  match rule.path with
  | b :: c :: rest => if b = a then some { rule with path := c :: rest } else none
  | _ => none

def below (a : α) (rules : List (Rule α)) : List (Rule α) := rules.filterMap (Rule.behind a)

/-- The rule for the step `a` alone. -/
def single (a : α) (rules : List (Rule α)) : Option (Rule α) :=
  rules.find? fun rule => rule.path = [a]

/-- The value at the step `a` when nothing deeper matches. -/
def singleValue (exact : Bool → Bool) (last : Bool) : Option (Rule α) → Nat
  | none => 0
  | some rule => if last ∧ exact rule.ending = false then 0 else rule.value

def walk (exact : Bool → Bool) : List (Rule α) → List α → Nat
  | _, [] => 0
  | rules, a :: rest =>
    let deeper := walk exact (below a rules) rest
    if deeper = 0 then singleValue exact rest.isEmpty (single a rules) else deeper

variable {exact : Bool → Bool} {rules : List (Rule α)} {rule : Rule α} {a : α} {query : List α}

theorem behind_some {left : Rule α} :
    rule.behind a = some left ↔
      rule.path = a :: left.path ∧ left.path ≠ [] ∧ left.ending = rule.ending ∧
        left.value = rule.value := by
  obtain ⟨path, ending, value⟩ := rule
  obtain ⟨leftPath, leftEnding, leftValue⟩ := left
  match path with
  | [] => simp [Rule.behind]
  | [b] =>
    simp only [Rule.behind, reduceCtorEq, List.cons.injEq, ne_eq, false_iff, not_and]
    rintro ⟨_, empty⟩ used
    exact absurd empty.symm used
  | b :: c :: rest =>
    simp only [Rule.behind, List.cons.injEq, ne_eq]
    by_cases same : b = a
    · rw [if_pos same, Option.some.injEq, Rule.mk.injEq]
      constructor
      · rintro ⟨rfl, rfl, rfl⟩
        exact ⟨⟨same, rfl⟩, by simp, rfl, rfl⟩
      · rintro ⟨⟨_, rfl⟩, _, rfl, rfl⟩
        exact ⟨rfl, rfl, rfl⟩
    · rw [if_neg same]
      simp [same]

theorem mem_below {left : Rule α} :
    left ∈ below a rules ↔ ∃ rule ∈ rules, rule.path = a :: left.path ∧ left.path ≠ [] ∧
      left.ending = rule.ending ∧ left.value = rule.value := by
  simp only [below, List.mem_filterMap, behind_some]

theorem single_some (found : single a rules = some rule) : rule ∈ rules ∧ rule.path = [a] :=
  ⟨List.mem_of_find?_eq_some found, by simpa using List.find?_some found⟩

theorem single_none (none : single a rules = none) : ∀ rule ∈ rules, rule.path ≠ [a] := by
  simpa [single] using none

theorem below_length (a : α) (rules : List (Rule α)) : (below a rules).length ≤ rules.length :=
  List.length_filterMap_le _ _

omit [DecidableEq α] in
theorem matches_behind {left : Rule α} (path : rule.path = a :: left.path)
    (ending : left.ending = rule.ending) :
    rule.Matches exact (a :: query) ↔ left.Matches exact query := by
  rw [Rule.Matches, Rule.Matches, path, ending]
  simp [List.cons_prefix_cons]

omit [DecidableEq α] in
theorem matches_single (path : rule.path = [a]) :
    rule.Matches exact (a :: query) ↔ (query = [] → exact rule.ending = true) := by
  rw [Rule.Matches, path, List.cons_prefix_cons, List.cons.injEq]
  constructor
  · rintro ⟨_, whole⟩ rfl
    exact whole ⟨rfl, rfl⟩
  · intro last
    refine ⟨⟨rfl, List.nil_prefix⟩, ?_⟩
    rintro ⟨_, rfl⟩
    exact last rfl

theorem Rule.Matches.cases (found : rule.Matches exact (a :: query)) (member : rule ∈ rules)
    (used : rule.path ≠ []) :
    rule.path = [a] ∨ ∃ left ∈ below a rules, left.Matches exact query ∧
      rule.path = a :: left.path := by
  match shape : rule.path with
  | [] => exact absurd shape used
  | [b] =>
    have first := found.1
    rw [shape, List.cons_prefix_cons] at first
    exact Or.inl (by rw [first.1])
  | b :: c :: rest =>
    have first := found.1
    rw [shape, List.cons_prefix_cons] at first
    have path : rule.path = a :: c :: rest := by rw [shape, first.1]
    refine Or.inr ⟨{ rule with path := c :: rest }, ?_, ?_, by rw [← shape, path]⟩
    · exact mem_below.mpr ⟨rule, member, path, by simp, rfl, rfl⟩
    · exact (@matches_behind _ exact rule a query { rule with path := c :: rest } path rfl).mp found

theorem below_distinct (a : α) (distinct : (rules.map Rule.path).Nodup) :
    ((below a rules).map Rule.path).Nodup := by
  induction rules with
  | nil => exact List.nodup_nil
  | cons rule rest ih =>
    rw [List.map_cons, List.nodup_cons] at distinct
    rw [below, List.filterMap_cons]
    cases left : rule.behind a with
    | none => exact ih distinct.2
    | some first =>
      rw [List.map_cons, List.nodup_cons]
      refine ⟨?_, ih distinct.2⟩
      intro again
      obtain ⟨second, inBelow, same⟩ := List.mem_map.mp again
      obtain ⟨other, member, path, _⟩ := mem_below.mp inBelow
      apply distinct.1
      rw [(behind_some.mp left).1, ← same, ← path]
      exact List.mem_map_of_mem member

theorem walk_longest (rules : List (Rule α)) (query : List α)
    (used : ∀ rule ∈ rules, rule.path ≠ []) (valued : ∀ rule ∈ rules, rule.value ≠ 0)
    (distinct : (rules.map Rule.path).Nodup) :
    Longest exact rules query (walk exact rules query) := by
  induction query generalizing rules with
  | nil =>
    refine Or.inr ⟨rfl, fun rule member found => ?_⟩
    exact used rule member (List.prefix_nil.mp found.1)
  | cons a rest ih =>
    have deeper := ih (below a rules)
      (fun left member => by
        obtain ⟨rule, _, _, nonempty, _⟩ := mem_below.mp member
        exact nonempty)
      (fun left member => by
        obtain ⟨rule, inRules, _, _, _, value⟩ := mem_below.mp member
        rw [value]
        exact valued rule inRules)
      (below_distinct a distinct)
    rw [walk]
    rcases deeper with ⟨left, inBelow, found, value, longest⟩ | ⟨zero, nothing⟩
    · obtain ⟨rule, member, path, nonempty, ending, same⟩ := mem_below.mp inBelow
      rw [← value, if_neg (by rw [same]; exact valued rule member)]
      refine Or.inl ⟨rule, member, (matches_behind path ending).mpr found, same.symm, ?_⟩
      intro other inRules alsoFound
      rcases alsoFound.cases inRules (used other inRules) with alone | ⟨more, inMore, fits, longer⟩
      · rw [alone, path]
        simp
      · have bound := longest more inMore fits
        rw [longer, path]
        simpa using bound
    · rw [if_pos zero]
      have alone : ∀ other ∈ rules, other.Matches exact (a :: rest) → other.path = [a] := by
        intro other inRules alsoFound
        rcases alsoFound.cases inRules (used other inRules) with same | ⟨more, inMore, fits, _⟩
        · exact same
        · exact absurd fits (nothing more inMore)
      cases found : single a rules with
      | none =>
        refine Or.inr ⟨rfl, fun other inRules alsoFound => ?_⟩
        exact single_none found other inRules (alone other inRules alsoFound)
      | some rule =>
        obtain ⟨member, path⟩ := single_some found
        rw [singleValue]
        by_cases blocked : rest.isEmpty = true ∧ exact rule.ending = false
        · rw [if_pos blocked]
          refine Or.inr ⟨rfl, fun other inRules alsoFound => ?_⟩
          have same : other = rule := List.inj_on_of_nodup_map distinct inRules member
            ((alone other inRules alsoFound).trans path.symm)
          rw [same, matches_single path] at alsoFound
          have ends := alsoFound (List.isEmpty_iff.mp blocked.1)
          rw [blocked.2] at ends
          cases ends
        · rw [if_neg blocked]
          refine Or.inl ⟨rule, member, ?_, rfl, ?_⟩
          · rw [matches_single path]
            intro empty
            rw [empty] at blocked
            simpa using blocked
          · intro other inRules alsoFound
            rw [alone other inRules alsoFound, path]

end Descent

end NgxFormal.Lib.LongestMatch
