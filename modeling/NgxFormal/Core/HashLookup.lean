import NgxFormal.Core.HashTrees

/-! `ngx_hash_find_wc_head` and `ngx_hash_find_wc_tail` on a tree of hashes are the descent along
the labels of the host name. -/

namespace NgxFormal.Core.Hash

open Lib Lib.LongestMatch

/-- A `*.s` has its dot behind the label in the stored form and does not match `s`. -/
def headExact (ending : Bool) : Bool := !ending

/-- A `p.*` never matches `p`. -/
def tailExact (_ : Bool) : Bool := false

/-- The value of the enclosing wildcard where the search below found nothing. -/
def orElse (found enclosing : Nat) : Nat := if found = 0 then enclosing else found

section Text

variable {front h : List UInt8} {labels : List Label}

theorem dotted_snoc (labels : List Label) (h : Label) :
    dotted (labels ++ [h]) = if labels = [] then h else dotted labels ++ dot :: h := by
  induction labels with
  | nil => rfl
  | cons l rest ih =>
    cases rest with
    | nil => rfl
    | cons m rest =>
      rw [List.cons_append, List.cons_append, dotted, ← List.cons_append, ih]
      simp [dotted]

theorem labelStart_dot (free : dot ∉ h) (k : Nat) (inside : k ≤ h.length) :
    labelStart (front ++ dot :: h) (front.length + 1 + k) = front.length + 1 := by
  induction k with
  | zero =>
    rw [Nat.add_zero, labelStart, if_pos]
    rw [List.getD_append_right _ _ _ _ (Nat.le_refl _), Nat.sub_self]
    rfl
  | succ k ih =>
    rw [← Nat.add_assoc, labelStart, if_neg, ih (by omega)]
    intro dotted
    rw [List.getD_append_right _ _ _ _ (by omega), show front.length + 1 + k - front.length = k + 1
      by omega, List.getD_cons_succ, List.getD_eq_getElem _ _ (by omega)] at dotted
    exact free (dotted ▸ List.getElem_mem _)

theorem labelStart_free (free : dot ∉ h) (n : Nat) (inside : n ≤ h.length) :
    labelStart h n = 0 := by
  induction n with
  | zero => rfl
  | succ n ih =>
    rw [labelStart, if_neg, ih (by omega)]
    intro dotted
    rw [List.getD_eq_getElem _ _ (by omega)] at dotted
    exact free (dotted ▸ List.getElem_mem _)

/-- The last label of a host name, and what stands before its dot. -/
theorem last_label (free : dot ∉ h) :
    let name := dotted (labels ++ [h])
    let n := labelStart name name.length
    name.drop n = h ∧ (n = 0 ↔ labels = []) ∧ (labels ≠ [] → name.take (n - 1) = dotted labels) := by
  dsimp only
  rw [dotted_snoc]
  by_cases alone : labels = []
  · rw [if_pos alone, labelStart_free free _ (Nat.le_refl _)]
    exact ⟨rfl, by simp [alone], fun some_label => absurd alone some_label⟩
  · have length : (dotted labels ++ dot :: h).length = (dotted labels).length + 1 + h.length := by
      rw [List.length_append, List.length_cons]
      omega
    rw [if_neg alone, length, labelStart_dot free _ (Nat.le_refl _)]
    refine ⟨?_, by simp [alone], fun _ => ?_⟩
    · rw [← List.drop_drop, List.drop_left]
      rfl
    · rw [Nat.add_sub_cancel, List.take_left]

/-- The first label of a host name, and what stands behind its dot. -/
theorem first_label (free : dot ∉ h) :
    labelOf (dotted (h :: labels)) = h ∧
      (h.length = (dotted (h :: labels)).length ↔ labels = []) ∧
      (labels ≠ [] → (dotted (h :: labels)).drop (h.length + 1) = dotted labels) := by
  cases labels with
  | nil =>
    refine ⟨?_, by simp [dotted], fun some_label => absurd rfl some_label⟩
    rw [dotted, ← List.append_nil h, labelOf_append free (Or.inl rfl), List.append_nil]
  | cons m rest =>
    rw [dotted]
    refine ⟨labelOf_append free (Or.inr ⟨_, rfl⟩), ?_, fun _ => ?_⟩
    · simp only [List.length_append, List.length_cons, reduceCtorEq, iff_false]
      omega
    · rw [← List.drop_drop, List.drop_left]
      rfl

end Text

section Tags

variable {value : Nat}

theorem testBit_one (value : Nat) : value.testBit 1 = decide (value / 2 % 2 = 1) := by
  rw [Nat.testBit_eq_decide_div_mod_eq, Nat.pow_one]

theorem walk_no_rules (exact : Bool → Bool) (query : List Label) : walk exact [] query = 0 := by
  cases query with
  | nil => rfl
  | cons a rest =>
    have deeper := walk_no_rules exact rest
    rw [walk, below, List.filterMap_nil, if_pos deeper]
    rfl

end Tags

variable {heap : Wildcards} {fuel : Nat}

/-- What a lookup returns is the walk, up to the value of the wildcard hash it starts in. -/
def Finds (result : Option Nat) (walked enclosing : Nat) : Prop :=
  ∃ found, result = some found ∧ orElse found enclosing = orElse walked enclosing

theorem orElse_self (value : Nat) : orElse value value = orElse 0 value := by
  rw [orElse, orElse, if_pos rfl]
  split
  · rfl
  · rfl

theorem clearTag_add {a t : Nat} (aligned : 4 ∣ a) (small : t < 4) : clearTag (a + t) = a := by
  rw [clearTag]
  omega

/-- A pointer with its tag: the second bit tells it from data, the first that no name ends at
its label. -/
theorem pointer_bits (rule : Option (Rule Label)) {a : Nat} (pointer : Pointer a) :
    a + tagOf rule ≠ 0 ∧ (a + tagOf rule).testBit 1 = true ∧ clearTag (a + tagOf rule) = a ∧
      ((a + tagOf rule).testBit 0 = true ↔ tagOf rule = 3) := by
  have range : tagOf rule = 2 ∨ tagOf rule = 3 := by
    cases rule with
    | none => exact Or.inr rfl
    | some rule =>
      rw [tagOf]
      split
      · exact Or.inr rfl
      · exact Or.inl rfl
  obtain ⟨positive, _, aligned⟩ := pointer
  rw [testBit_one, Nat.testBit_zero, decide_eq_true_eq, decide_eq_true_eq, clearTag]
  omega

theorem Rep.deep {depth addr value : Nat} {rules : List (Rule Label)}
    (rep : Rep heap depth addr rules value) : ∃ d, depth = d + 1 := by
  cases depth with
  | zero => exact absurd rep id
  | succ d => exact ⟨d, rfl⟩

theorem walk_deeper (exact : Bool → Bool) (rules : List (Rule Label)) (h : Label)
    {rest : List Label} (more : rest ≠ []) :
    walk exact rules (h :: rest) =
      orElse (walk exact (below h rules) rest) (ownValue (single h rules)) := by
  have notLast : rest.isEmpty = false := by simpa using more
  have own : singleValue exact false (single h rules) = ownValue (single h rules) := by
    cases single h rules with
    | none => rfl
    | some rule => simp [singleValue, ownValue]
  rw [walk, notLast, own]
  rfl

theorem walk_leaf (exact : Bool → Bool) {rules : List (Rule Label)} {h : Label}
    (leaf : below h rules = []) (rest : List Label) :
    walk exact rules (h :: rest) = singleValue exact rest.isEmpty (single h rules) := by
  rw [walk, leaf, walk_no_rules, if_pos rfl]

theorem walk_last (exact : Bool → Bool) (rules : List (Rule Label)) (h : Label) :
    walk exact rules [h] = singleValue exact true (single h rules) := by
  rw [walk, walk, if_pos rfl]
  rfl

theorem Finds.deeper {exact : Bool → Bool} {rules : List (Rule Label)} {h : Label}
    {rest : List Label} {result : Option Nat} (more : rest ≠ [])
    (finds : Finds result (walk exact (below h rules) rest) (ownValue (single h rules)))
    (value : Nat) :
    Finds (result.bind fun found =>
        if found ≠ 0 then some found else some (ownValue (single h rules)))
      (walk exact rules (h :: rest)) value := by
  obtain ⟨found, rfl, agree⟩ := finds
  rw [walk_deeper exact rules h more, ← agree]
  refine ⟨orElse found (ownValue (single h rules)), ?_, rfl⟩
  rw [Option.bind_some, orElse]
  by_cases zero : found = 0
  · simp [zero]
  · simp [zero]

/-- `ngx_hash_find_wc_head` descends from the last label of the host name to the first. -/
theorem findHead_spec (query : List Label) (rules : List (Rule Label)) (depth steps addr value : Nat)
    (level : Level rules) (rep : Rep heap depth addr rules value) (used : query ≠ [])
    (free : ∀ l ∈ query, dot ∉ l) (enough : rules.length < fuel)
    (long : (dotted query.reverse).length < steps) :
    Finds (findHead heap fuel steps addr (dotted query.reverse)) (walk headExact rules query)
      value := by
  induction query generalizing rules depth steps addr value with
  | nil => exact absurd rfl used
  | cons h rest ih =>
    obtain ⟨depth, rfl⟩ := rep.deep
    obtain ⟨steps, rfl⟩ : ∃ s, steps = s + 1 := ⟨steps - 1, by omega⟩
    obtain ⟨table, held, holds⟩ := rep
    obtain ⟨v, found, entry⟩ := holds h fuel enough
    have freeH := free h List.mem_cons_self
    obtain ⟨label, first, front⟩ := @last_label h rest.reverse freeH
    rw [List.reverse_cons] at long ⊢
    rw [findHead]
    simp only [held, Option.bind_eq_bind, Option.bind_some, label, found, Option.pure_def]
    generalize labelStart (dotted (rest.reverse ++ [h])) _ = n at first front ⊢
    rw [List.reverse_eq_nil_iff] at first
    rw [ne_eq, List.reverse_eq_nil_iff] at front
    rcases entry with ⟨leaf, isValue⟩ | ⟨some_below, a, pointer, isValue, deeper⟩
    · rw [walk_leaf headExact leaf]
      cases alone : single h rules with
      | none =>
        rw [alone, dataValue] at isValue
        rw [isValue, if_neg (by decide)]
        exact ⟨value, rfl, orElse_self value⟩
      | some rule =>
        obtain ⟨positive, _, aligned⟩ := level.valued rule (single_some alone).1
        rw [alone, dataValue] at isValue
        rw [singleValue, testBit_one, Nat.testBit_zero]
        by_cases ending : rule.ending = true
        · rw [if_pos ending] at isValue
          rw [isValue, if_pos (by omega), if_neg (by simp; omega), if_pos (by simp; omega),
            clearTag_add aligned (by decide)]
          simp only [first, List.isEmpty_iff, headExact, ending, Bool.not_true, and_true]
          split
          · exact ⟨0, rfl, rfl⟩
          · exact ⟨rule.value, rfl, rfl⟩
        · rw [if_neg ending] at isValue
          rw [isValue, if_pos (by omega), if_neg (by simp; omega), if_neg (by simp; omega)]
          simp only [headExact, ending, Bool.not_false, Bool.true_eq_false, and_false, if_false]
          exact ⟨rule.value, rfl, rfl⟩
    · obtain ⟨nonzero, bit, cleared, low⟩ := pointer_bits (single h rules) pointer
      obtain ⟨depth, rfl⟩ := deeper.deep
      have heldInner := deeper
      obtain ⟨inner, heldInner, _⟩ := heldInner
      rw [isValue, if_pos nonzero, if_pos bit, cleared, heldInner, Option.bind_some,
        Option.bind_some]
      by_cases last : rest = []
      · rw [if_pos (first.mpr last), last, walk_last]
        by_cases three : tagOf (single h rules) = 3
        · rw [if_pos (low.mpr three)]
          refine ⟨0, rfl, congrArg (orElse · value) ?_⟩
          cases alone : single h rules with
          | none => rfl
          | some rule =>
            rw [alone, tagOf] at three
            have ending : rule.ending = true := by
              by_contra plain
              rw [if_neg plain] at three
              cases three
            simp [singleValue, headExact, ending]
        · rw [if_neg (fun set => three (low.mp set))]
          refine ⟨ownValue (single h rules), rfl, congrArg (orElse · value) ?_⟩
          cases alone : single h rules with
          | none => exact absurd (by rw [alone]; rfl) three
          | some rule =>
            rw [alone, tagOf] at three
            have plain : rule.ending = false := by
              by_contra ending
              rw [if_pos (by simpa using ending)] at three
              exact three rfl
            simp [singleValue, ownValue, headExact, plain]
      · rw [if_neg (fun zero => last (first.mp zero)), front last]
        apply Finds.deeper last
        apply ih (below h rules) (depth + 1) steps a _ (level.below h) deeper last
          (fun l member => free l (List.mem_cons_of_mem h member))
          (Nat.lt_of_le_of_lt (below_length h rules) enough)
        rw [dotted_snoc, if_neg (by simpa using last), List.length_append] at long
        simp only [List.length_cons] at long
        omega

/-- `ngx_hash_find_wc_tail` descends from the first label to the last, which has no dot. -/
theorem findTail_spec (query : List Label) (rules : List (Rule Label)) (depth steps addr value : Nat)
    (level : Level rules) (plain : ∀ rule ∈ rules, rule.ending = false)
    (rep : Rep heap depth addr rules value) (used : query ≠ [])
    (free : ∀ l ∈ query, dot ∉ l) (enough : rules.length < fuel)
    (long : (dotted query).length < steps) :
    Finds (findTail heap fuel steps addr (dotted query)) (walk tailExact rules query) value := by
  induction query generalizing rules depth steps addr value with
  | nil => exact absurd rfl used
  | cons h rest ih =>
    obtain ⟨depth, rfl⟩ := rep.deep
    obtain ⟨steps, rfl⟩ : ∃ s, steps = s + 1 := ⟨steps - 1, by omega⟩
    obtain ⟨label, whole, behind⟩ := @first_label h rest (free h List.mem_cons_self)
    rw [findTail]
    simp only [label, Option.bind_eq_bind, Option.pure_def]
    by_cases last : rest = []
    · rw [if_pos (whole.mpr last), last, walk_last]
      refine ⟨0, rfl, congrArg (orElse · value) ?_⟩
      cases single h rules with
      | none => rfl
      | some rule => rfl
    · obtain ⟨table, held, holds⟩ := rep
      obtain ⟨v, found, entry⟩ := holds h fuel enough
      rw [if_neg (fun same => last (whole.mp same)), behind last]
      simp only [held, Option.bind_some, found]
      rcases entry with ⟨leaf, isValue⟩ | ⟨some_below, a, pointer, isValue, deeper⟩
      · rw [walk_leaf tailExact leaf]
        cases alone : single h rules with
        | none =>
          rw [alone, dataValue] at isValue
          rw [isValue, if_neg (by decide)]
          exact ⟨value, rfl, orElse_self value⟩
        | some rule =>
          obtain ⟨positive, _, aligned⟩ := level.valued rule (single_some alone).1
          rw [alone, dataValue, plain rule (single_some alone).1, if_neg (by decide)] at isValue
          rw [singleValue, testBit_one, isValue, if_pos (by omega), if_neg (by simp; omega)]
          have notLast : rest.isEmpty = false := by simpa using last
          simp only [notLast, Bool.false_eq_true, false_and, if_false]
          exact ⟨rule.value, rfl, rfl⟩
      · obtain ⟨nonzero, bit, cleared, _⟩ := pointer_bits (single h rules) pointer
        obtain ⟨depth, rfl⟩ := deeper.deep
        have heldInner := deeper
        obtain ⟨inner, heldInner, _⟩ := heldInner
        rw [isValue, if_pos nonzero, if_pos bit, cleared, heldInner, Option.bind_some]
        apply Finds.deeper last
        apply ih (below h rules) (depth + 1) steps a _ (level.below h) _ deeper last
          (fun l member => free l (List.mem_cons_of_mem h member))
          (Nat.lt_of_le_of_lt (below_length h rules) enough)
        · obtain ⟨m, more, rfl⟩ := List.exists_cons_of_ne_nil last
          rw [dotted, List.length_append, List.length_cons] at long
          omega
        · intro left member
          obtain ⟨rule, inRules, _, _, ending, _⟩ := mem_below.mp member
          rw [ending]
          exact plain rule inRules

end NgxFormal.Core.Hash
