import Mathlib.Algebra.Order.Ring.Int
import Mathlib.Data.List.Infix

/-! One-pass search for a pattern that gives up an attempt at its first mismatch and never
goes back into it. `low` normalises a letter before it is compared. -/

namespace NgxFormal.Lib

/-- What a replacing search makes of its text. -/
inductive Token (α : Type) where
  | keep (a : α)
  | hit
  deriving DecidableEq, Repr

namespace Search

variable {α : Type} [DecidableEq α] (low : α → α) (pattern : List α)

/-- The tokens of the text behind the open attempt `held`, and what is held at its end. -/
def scan : List α → List α → List (Token α) × List α
  | held, [] => ([], held)
  | held, a :: rest =>
    if (held ++ [a]).map low <+: pattern then
      if held.length + 1 = pattern.length then
        (.hit :: (scan [] rest).1, (scan [] rest).2)
      else scan (held ++ [a]) rest
    else if [low a] <+: pattern then
      (held.map .keep ++ (scan [a] rest).1, (scan [a] rest).2)
    else (held.map .keep ++ .keep a :: (scan [] rest).1, (scan [] rest).2)

/-- Every leftmost occurrence that does not overlap the one before it is a hit. -/
def leftmost : Nat → List α → List (Token α)
  | _, [] => []
  | skip + 1, _ :: rest => leftmost skip rest
  | 0, a :: rest =>
    if pattern <+: (a :: rest).map low then .hit :: leftmost (pattern.length - 1) rest
    else .keep a :: leftmost 0 rest

def agree : List α → List α → Nat
  | p :: pattern, t :: text => if p = t then agree pattern text + 1 else 0
  | _, _ => 0

/-- The text behind the attempt at its first letter, or behind that letter. -/
def advance (text : List α) : List α := text.drop (max 1 (agree pattern (text.map low)))

/-- No occurrence begins inside an attempt that breaks off. -/
def NoneMissed (text : List α) : Prop :=
  ∀ n, let rest := (advance low pattern)^[n] text
    agree pattern (rest.map low) < pattern.length →
      ∀ j, 0 < j → j < agree pattern (rest.map low) → ¬ pattern <+: (rest.drop j).map low

/-- The attempt `held` is still open at the end of the text. -/
structure Open (text held : List α) : Prop where
  reached : ∃ n, (advance low pattern)^[n] text = held
  nonempty : held ≠ []
  agrees : held.map low <+: pattern
  short : held.length < pattern.length

variable {low pattern}

section Agree

theorem take_agree_prefix (pattern text : List α) : text.take (agree pattern text) <+: pattern := by
  induction pattern, text using agree.induct with
  | case1 pattern t text ih =>
    rw [agree, if_pos rfl, List.take_succ_cons]
    exact List.cons_prefix_cons.mpr ⟨rfl, ih⟩
  | case2 p pattern t text differ =>
    rw [agree, if_neg differ, List.take_zero]
    exact List.nil_prefix
  | case3 pattern text none =>
    rw [agree]
    · rw [List.take_zero]
      exact List.nil_prefix
    · exact none

theorem le_agree {pattern text : List α} {j : Nat} (inside : j ≤ text.length)
    (agrees : text.take j <+: pattern) : j ≤ agree pattern text := by
  induction pattern, text using agree.induct generalizing j with
  | case1 pattern t text ih =>
    rw [agree, if_pos rfl]
    cases j with
    | zero => exact Nat.zero_le _
    | succ j =>
      rw [List.take_succ_cons, List.cons_prefix_cons] at agrees
      exact Nat.succ_le_succ (ih (Nat.le_of_succ_le_succ inside) agrees.2)
  | case2 p pattern t text differ =>
    cases j with
    | zero => exact Nat.zero_le _
    | succ j =>
      rw [List.take_succ_cons, List.cons_prefix_cons] at agrees
      exact absurd agrees.1.symm differ
  | case3 pattern text none =>
    cases j with
    | zero => exact Nat.zero_le _
    | succ j =>
      cases text with
      | nil => exact absurd inside (Nat.not_succ_le_zero j)
      | cons t text =>
        cases pattern with
        | nil =>
          rw [List.take_succ_cons] at agrees
          exact absurd (List.prefix_nil.mp agrees) (List.cons_ne_nil _ _)
        | cons p pattern => exact absurd rfl (none p pattern t text rfl)

theorem agree_le (pattern text : List α) :
    agree pattern text ≤ text.length ∧ agree pattern text ≤ pattern.length := by
  induction pattern, text using agree.induct with
  | case1 pattern t text ih =>
    rw [agree, if_pos rfl, List.length_cons, List.length_cons]
    omega
  | case2 p pattern t text differ =>
    rw [agree, if_neg differ]
    omega
  | case3 pattern text none =>
    rw [agree]
    · omega
    · exact none

end Agree

section Scan

/-- The letters of an attempt that goes on are held back. -/
theorem scan_hold {held more : List α} (rest : List α)
    (agrees : (held ++ more).map low <+: pattern)
    (short : (held ++ more).length < pattern.length) :
    scan low pattern held (more ++ rest) = scan low pattern (held ++ more) rest := by
  induction more generalizing held with
  | nil => rw [List.nil_append, List.append_nil]
  | cons a more ih =>
    have regroup : held ++ a :: more = (held ++ [a]) ++ more := by simp
    have first : (held ++ [a]).map low <+: pattern := by
      rw [regroup, List.map_append] at agrees
      exact (List.prefix_append _ _).trans agrees
    have unfinished : held.length + 1 ≠ pattern.length := by
      rw [List.length_append, List.length_cons] at short
      omega
    rw [List.cons_append, scan, if_pos first, if_neg unfinished, regroup]
    rw [regroup] at agrees short
    exact ih agrees short

/-- A mismatch releases the attempt, and its letter is looked at afresh. -/
theorem scan_break {held rest : List α} {a : α}
    (mismatch : ¬ (held ++ [a]).map low <+: pattern) (short : held.length < pattern.length) :
    scan low pattern held (a :: rest) =
      (held.map .keep ++ (scan low pattern [] (a :: rest)).1,
        (scan low pattern [] (a :: rest)).2) := by
  rw [scan, if_neg mismatch, scan]
  by_cases starts : [low a] <+: pattern
  · have long : ([] : List α).length + 1 ≠ pattern.length := by
      intro single
      have empty : held = [] := List.eq_nil_of_length_eq_zero (by simp at single; omega)
      rw [empty] at mismatch
      exact mismatch starts
    rw [if_pos starts, List.nil_append, List.map_singleton, if_pos starts, if_neg long]
  · rw [if_neg starts, List.nil_append, List.map_singleton, if_neg starts, if_neg starts]
    rfl

theorem scan_attempt {text : List α} (some_text : text ≠ []) (some_pattern : pattern ≠ []) :
    let k := agree pattern (text.map low)
    (k = pattern.length ∧ scan low pattern [] text =
        (.hit :: (scan low pattern [] (advance low pattern text)).1,
          (scan low pattern [] (advance low pattern text)).2)) ∨
      (k < pattern.length ∧ k = text.length ∧ scan low pattern [] text = ([], text)) ∨
      (k < pattern.length ∧ k < text.length ∧ scan low pattern [] text =
        ((text.take (max 1 k)).map .keep ++ (scan low pattern [] (advance low pattern text)).1,
          (scan low pattern [] (advance low pattern text)).2)) := by
  intro k
  have bounds := agree_le pattern (text.map low)
  rw [List.length_map] at bounds
  have agrees : (text.take k).map low <+: pattern := by
    rw [List.map_take]
    exact take_agree_prefix pattern (text.map low)
  have longest {j : Nat} (inside : j ≤ text.length)
      (prefixed : (text.take j).map low <+: pattern) : j ≤ k := by
    apply le_agree
    · rwa [List.length_map]
    · rwa [← List.map_take]
  have lengths : 0 < pattern.length ∧ 0 < text.length :=
    ⟨List.length_pos_iff.mpr some_pattern, List.length_pos_iff.mpr some_text⟩
  rcases Nat.lt_or_ge k pattern.length with shorter | full
  · rcases Nat.lt_or_ge k text.length with broken | ended
    · right; right
      refine ⟨shorter, broken, ?_⟩
      obtain ⟨a, rest, suffix⟩ : ∃ a rest, text.drop k = a :: rest :=
        ⟨_, _, (List.getElem_cons_drop (h := broken)).symm⟩
      have whole : text = text.take k ++ a :: rest := by rw [← suffix, List.take_append_drop]
      have mismatch : ¬ (text.take k ++ [a]).map low <+: pattern := by
        intro prefixed
        have longer : text.take (k + 1) = text.take k ++ [a] := by
          conv_lhs => rw [whole]
          rw [List.take_append, List.length_take, Nat.min_eq_left (Nat.le_of_lt broken),
            List.take_take, Nat.min_eq_right (Nat.le_succ k), Nat.add_sub_cancel_left]
          rfl
        have := longest broken (by rw [longer]; exact prefixed)
        omega
      have lengthTake : (text.take k).length < pattern.length := by
        rw [List.length_take]
        omega
      rcases Nat.eq_zero_or_pos k with zero | positive
      · -- the letter starts no attempt
        have front : text = a :: rest := by rw [← suffix, zero, List.drop_zero]
        have single : ¬ [low a] <+: pattern := by
          rw [zero, List.take_zero] at mismatch
          exact mismatch
        have next : advance low pattern text = rest := by
          rw [advance]
          change text.drop (max 1 k) = rest
          rw [zero, front]
          rfl
        rw [next, zero, front, scan, List.nil_append, List.map_singleton, if_neg single,
          if_neg single]
        rfl
      · have next : advance low pattern text = a :: rest := by
          rw [advance]
          change text.drop (max 1 k) = _
          rw [Nat.max_eq_right positive, suffix]
        rw [next, Nat.max_eq_right positive]
        conv_lhs => rw [whole]
        rw [@scan_hold _ _ _ _ [] _ _ agrees lengthTake, List.nil_append,
          scan_break mismatch lengthTake]
    · right; left
      have all : k = text.length := by omega
      refine ⟨shorter, all, ?_⟩
      have same : text.take k = text := by rw [all, List.take_length]
      rw [same] at agrees
      have held := @scan_hold _ _ low _ [] text [] agrees
        (by rw [List.nil_append]; omega)
      rw [List.append_nil, List.nil_append] at held
      rw [held, scan]
  · left
    have exact_length : k = pattern.length := by omega
    refine ⟨exact_length, ?_⟩
    have inside : k - 1 < text.length := by omega
    obtain ⟨a, suffix⟩ : ∃ a, text.drop (k - 1) = a :: text.drop k := by
      refine ⟨text[k - 1], ?_⟩
      have := (List.getElem_cons_drop (h := inside)).symm
      rwa [show k - 1 + 1 = k by omega] at this
    have whole : text = text.take (k - 1) ++ a :: text.drop k := by
      rw [← suffix, List.take_append_drop]
    have extended : text.take (k - 1) ++ [a] = text.take k := by
      conv_rhs => rw [whole]
      rw [List.take_append, List.length_take, Nat.min_eq_left (by omega), List.take_take,
        Nat.min_eq_right (by omega), show k - (k - 1) = 1 by omega]
      rfl
    have front : (text.take (k - 1)).map low <+: pattern := by
      refine List.IsPrefix.trans ?_ agrees
      rw [← extended, List.map_append]
      exact List.prefix_append _ _
    have lengthTake : (text.take (k - 1)).length = pattern.length - 1 := by
      rw [List.length_take]
      omega
    have next : advance low pattern text = text.drop k := by
      rw [advance]
      change text.drop (max 1 k) = _
      rw [Nat.max_eq_right (by omega)]
    rw [next]
    conv_lhs => rw [whole]
    rw [@scan_hold _ _ _ _ [] _ _ front (by rw [List.nil_append]; omega), List.nil_append, scan,
      extended, if_pos agrees, if_pos (by omega)]

theorem scan_append (held first second : List α) :
    scan low pattern held (first ++ second) =
      ((scan low pattern held first).1 ++
          (scan low pattern (scan low pattern held first).2 second).1,
        (scan low pattern (scan low pattern held first).2 second).2) := by
  induction first generalizing held with
  | nil => rfl
  | cons a first ih =>
    rw [List.cons_append, scan, scan]
    split
    · split
      · rw [ih []]
        rfl
      · exact ih _
    · split
      · rw [ih [a], List.append_assoc]
      · rw [ih [], List.append_assoc]
        rfl

/-- What is held is an attempt: a proper prefix of the pattern. -/
theorem scan_held {held : List α} (text : List α) (agrees : held.map low <+: pattern)
    (short : held.length < pattern.length) :
    (scan low pattern held text).2.map low <+: pattern ∧
      (scan low pattern held text).2.length < pattern.length := by
  induction text generalizing held with
  | nil => exact ⟨agrees, short⟩
  | cons a text ih =>
    rw [scan]
    have nothing : ([] : List α).map low <+: pattern := List.nil_prefix
    have none : ([] : List α).length < pattern.length := Nat.lt_of_le_of_lt (Nat.zero_le _) short
    split
    · rename_i goes
      split
      · exact ih nothing none
      · refine ih goes ?_
        rw [List.length_append, List.length_singleton]
        omega
    · rename_i mismatch
      split
      · rename_i starts
        apply @ih [a] starts
        -- a pattern of one letter has no attempt to break
        by_contra single
        have empty : held = [] := List.eq_nil_of_length_eq_zero (by simp at single; omega)
        rw [empty] at mismatch
        exact mismatch starts
      · exact ih nothing none

end Scan

section Leftmost

theorem leftmost_skip (skip : Nat) (text : List α) :
    leftmost low pattern skip text = leftmost low pattern 0 (text.drop skip) := by
  induction skip generalizing text with
  | zero => rw [List.drop_zero]
  | succ skip ih =>
    cases text with
    | nil => rw [List.drop_nil, leftmost, leftmost]
    | cons a text => rw [leftmost, List.drop_succ_cons, ih]

theorem leftmost_keep {text : List α} {k : Nat} (inside : k ≤ text.length)
    (none : ∀ j < k, ¬ pattern <+: (text.drop j).map low) :
    leftmost low pattern 0 text =
      (text.take k).map .keep ++ leftmost low pattern 0 (text.drop k) := by
  induction k generalizing text with
  | zero => rw [List.take_zero, List.drop_zero]; rfl
  | succ k ih =>
    cases text with
    | nil => exact absurd inside (Nat.not_succ_le_zero k)
    | cons a text =>
      have first := none 0 (Nat.succ_pos k)
      rw [List.drop_zero] at first
      rw [leftmost, if_neg first, List.take_succ_cons, List.drop_succ_cons,
        ih (Nat.le_of_succ_le_succ inside) fun j below => by
          have later := none (j + 1) (Nat.succ_lt_succ below)
          rwa [List.drop_succ_cons] at later]
      rfl

theorem leftmost_hit {text : List α} (some_pattern : pattern ≠ [])
    (occurs : pattern <+: text.map low) :
    leftmost low pattern 0 text =
      .hit :: leftmost low pattern 0 (text.drop pattern.length) := by
  cases text with
  | nil => exact absurd (List.prefix_nil.mp occurs) some_pattern
  | cons a text =>
    have positive : 0 < pattern.length := List.length_pos_iff.mpr some_pattern
    rw [leftmost, if_pos occurs, leftmost_skip]
    congr 2
    obtain ⟨n, length⟩ : ∃ n, pattern.length = n + 1 := ⟨pattern.length - 1, by omega⟩
    rw [length, List.drop_succ_cons, Nat.add_sub_cancel]

theorem occurs_iff {text : List α} :
    pattern <+: text.map low ↔ agree pattern (text.map low) = pattern.length := by
  have bounds := agree_le pattern (text.map low)
  constructor
  · intro occurs
    have whole : (text.map low).take pattern.length = pattern :=
      (List.prefix_iff_eq_take.mp occurs).symm
    have := @le_agree _ _ pattern _ _ occurs.length_le (by rw [whole])
    omega
  · intro full
    have front := take_agree_prefix pattern (text.map low)
    have same : (text.map low).take (agree pattern (text.map low)) = pattern :=
      front.eq_of_length (by rw [List.length_take]; omega)
    rw [← same]
    exact List.take_prefix _ _

end Leftmost

section Found

variable (low pattern) in
/-- The tokens of the whole text, with an attempt that is open at its end kept. -/
def scanned (text : List α) : List (Token α) :=
  (scan low pattern [] text).1 ++ (scan low pattern [] text).2.map .keep

theorem advance_nil : advance low pattern [] = [] := List.drop_nil

theorem advance_length {text : List α} (some_text : text ≠ []) :
    (advance low pattern text).length < text.length := by
  have := List.length_pos_iff.mpr some_text
  rw [advance, List.length_drop]
  omega

theorem scanned_hit {text : List α} (some_text : text ≠ []) (some_pattern : pattern ≠ [])
    (full : agree pattern (text.map low) = pattern.length) :
    scanned low pattern text = .hit :: scanned low pattern (advance low pattern text) := by
  rcases @scan_attempt _ _ low _ _ some_text some_pattern with hit | held | broken
  · rw [scanned, hit.2]
    rfl
  · exact absurd full (Nat.ne_of_lt held.1)
  · exact absurd full (Nat.ne_of_lt broken.1)

theorem scanned_keep {text : List α} (some_text : text ≠ []) (some_pattern : pattern ≠ [])
    (shorter : agree pattern (text.map low) < pattern.length) :
    scanned low pattern text =
      (text.take (max 1 (agree pattern (text.map low)))).map .keep ++
        scanned low pattern (advance low pattern text) := by
  have positive := List.length_pos_iff.mpr some_text
  rcases @scan_attempt _ _ low _ _ some_text some_pattern with hit | ⟨_, all, held⟩ | broken
  · exact absurd hit.1 (Nat.ne_of_lt shorter)
  · have whole : max 1 (agree pattern (text.map low)) = text.length := by omega
    have nothing : advance low pattern text = [] := by
      rw [advance, whole, List.drop_length]
    rw [nothing, whole, List.take_length, scanned, held]
    exact (List.append_nil _).symm
  · rw [scanned, broken.2.2, List.append_assoc]
    rfl

/-- No occurrence begins at a letter that the scan keeps. -/
theorem none_kept {text : List α} (inner : ∀ j, 0 < j → j < agree pattern (text.map low) →
      ¬ pattern <+: (text.drop j).map low)
    (shorter : agree pattern (text.map low) < pattern.length) :
    ∀ j < max 1 (agree pattern (text.map low)), ¬ pattern <+: (text.drop j).map low := by
  intro j below
  rcases Nat.eq_zero_or_pos j with rfl | positive
  · rw [List.drop_zero, occurs_iff]
    omega
  · exact inner j positive (by omega)

theorem max_agree_le {text : List α} (some_text : text ≠ []) :
    max 1 (agree pattern (text.map low)) ≤ text.length := by
  have positive := List.length_pos_iff.mpr some_text
  have bounds := agree_le pattern (text.map low)
  rw [List.length_map] at bounds
  omega

theorem scanned_of_noneMissed (some_pattern : pattern ≠ []) (text : List α)
    (noneMissed : NoneMissed low pattern text) :
    scanned low pattern text = leftmost low pattern 0 text := by
  induction length : text.length using Nat.strong_induction_on generalizing text with
  | _ n ih =>
    by_cases empty : text = []
    · rw [empty]
      rfl
    have next : NoneMissed low pattern (advance low pattern text) := fun n =>
      noneMissed (n + 1)
    have rest := ih _ (by rw [← length]; exact advance_length empty) _ next rfl
    have bounds := agree_le pattern (text.map low)
    rcases Nat.eq_or_lt_of_le bounds.2 with full | shorter
    · have occurs := occurs_iff.mpr full
      have positive := List.length_pos_iff.mpr some_pattern
      have behind : advance low pattern text = text.drop pattern.length := by
        rw [advance, full, Nat.max_eq_right positive]
      rw [scanned_hit empty some_pattern full, leftmost_hit some_pattern occurs, rest, behind]
    · rw [scanned_keep empty some_pattern shorter, rest,
        leftmost_keep (max_agree_le empty) (none_kept (noneMissed 0 shorter) shorter)]
      rfl

theorem no_inner_occurrence (some_pattern : pattern ≠ []) {text : List α}
    (same : scanned low pattern text = leftmost low pattern 0 text)
    (shorter : agree pattern (text.map low) < pattern.length) :
    ∀ j, 0 < j → j < agree pattern (text.map low) → ¬ pattern <+: (text.drop j).map low := by
  intro j
  induction j using Nat.strong_induction_on with
  | _ j ih =>
    intro positive below occurs
    have bounds := agree_le pattern (text.map low)
    rw [List.length_map] at bounds
    have some_text : text ≠ [] := List.length_pos_iff.mp (by omega)
    have earlier : ∀ i < j, ¬ pattern <+: (text.drop i).map low := by
      intro i before
      rcases Nat.eq_zero_or_pos i with rfl | inner
      · rw [List.drop_zero, occurs_iff]
        omega
      · exact ih i before inner (by omega)
    rw [scanned_keep some_text some_pattern shorter, leftmost_keep (k := j) (by omega) earlier,
      leftmost_hit some_pattern occurs] at same
    have letters := congrArg (fun tokens => tokens[j]?) same
    have inTake : j < (text.take (max 1 (agree pattern (text.map low)))).length := by
      rw [List.length_take]
      omega
    have length : ((text.take j).map Token.keep).length = j := by
      rw [List.length_map, List.length_take]
      omega
    simp only [@List.getElem?_append_left _ ((text.take _).map Token.keep) _ _
        (by rw [List.length_map]; exact inTake), List.getElem?_map,
      List.getElem?_append_right (Nat.le_of_eq length), length, Nat.sub_self,
      List.getElem?_cons_zero, List.getElem?_eq_getElem inTake] at letters
    cases letters

theorem noneMissed_of_scanned (some_pattern : pattern ≠ []) {text : List α}
    (same : scanned low pattern text = leftmost low pattern 0 text) :
    NoneMissed low pattern text := by
  intro n
  induction n generalizing text with
  | zero => exact no_inner_occurrence some_pattern same
  | succ n ih =>
    apply ih
    by_cases empty : text = []
    · rw [empty, advance_nil]
      rfl
    have bounds := agree_le pattern (text.map low)
    rcases Nat.eq_or_lt_of_le bounds.2 with full | shorter
    · have occurs := occurs_iff.mpr full
      have positive := List.length_pos_iff.mpr some_pattern
      have behind : advance low pattern text = text.drop pattern.length := by
        rw [advance, full, Nat.max_eq_right positive]
      rw [scanned_hit empty some_pattern full, leftmost_hit some_pattern occurs,
        List.cons.injEq, ← behind] at same
      exact same.2
    · have inner := no_inner_occurrence some_pattern same shorter
      rw [scanned_keep empty some_pattern shorter,
        leftmost_keep (max_agree_le empty) (none_kept inner shorter)] at same
      exact List.append_cancel_left same

/-- The scan finds the leftmost occurrences exactly if it misses none inside an attempt. -/
theorem scanned_iff (some_pattern : pattern ≠ []) (text : List α) :
    scanned low pattern text = leftmost low pattern 0 text ↔ NoneMissed low pattern text :=
  ⟨noneMissed_of_scanned some_pattern, scanned_of_noneMissed some_pattern text⟩

end Found

section Held

theorem open_iff (some_pattern : pattern ≠ []) (text held : List α) :
    Open low pattern text held ↔ held ≠ [] ∧ (scan low pattern [] text).2 = held := by
  have positive := List.length_pos_iff.mpr some_pattern
  constructor
  · rintro ⟨⟨n, reached⟩, nonempty, agrees, short⟩
    refine ⟨nonempty, ?_⟩
    induction n generalizing text with
    | zero =>
      rw [Function.iterate_zero, id_eq] at reached
      have hold := @scan_hold _ _ low pattern [] text []
        (by rw [List.nil_append, reached]; exact agrees)
        (by rw [List.nil_append, reached]; exact short)
      rw [List.append_nil] at hold
      rw [hold, scan, List.nil_append, reached]
    | succ n ih =>
      rw [Function.iterate_succ_apply] at reached
      have rest := ih _ reached
      by_cases empty : text = []
      · rw [empty, advance_nil] at rest
        rwa [empty]
      rcases @scan_attempt _ _ low _ _ empty some_pattern with hit | ⟨_, all, _⟩ | broken
      · rw [hit.2]
        exact rest
      · have whole : max 1 (agree pattern (text.map low)) = text.length := by
          have := List.length_pos_iff.mpr empty
          omega
        rw [advance, whole, List.drop_length] at rest
        exact absurd rest.symm nonempty
      · rw [broken.2.2]
        exact rest
  · rintro ⟨nonempty, holds⟩
    have valid := @scan_held _ _ low _ [] text List.nil_prefix positive
    rw [holds] at valid
    refine ⟨?_, nonempty, valid.1, valid.2⟩
    clear valid
    induction length : text.length using Nat.strong_induction_on generalizing text with
    | _ n ih =>
      by_cases empty : text = []
      · rw [empty, scan] at holds
        exact absurd holds.symm nonempty
      have shorter : (advance low pattern text).length < n := by
        rw [← length]
        exact advance_length empty
      rcases @scan_attempt _ _ low _ _ empty some_pattern with hit | ⟨_, _, whole⟩ | broken
      · rw [hit.2] at holds
        obtain ⟨m, reached⟩ := ih _ shorter _ holds rfl
        exact ⟨m + 1, reached⟩
      · rw [whole] at holds
        exact ⟨0, holds⟩
      · rw [broken.2.2] at holds
        obtain ⟨m, reached⟩ := ih _ shorter _ holds rfl
        exact ⟨m + 1, reached⟩

end Held

section Weight

variable (pattern) in
/-- How many letters of the text a token stands for. -/
def weight : Token α → Nat
  | .keep _ => 1
  | .hit => pattern.length

omit [DecidableEq α] in
theorem weight_keep (letters : List α) :
    ((letters.map Token.keep).map (weight pattern)).sum = letters.length := by
  induction letters with
  | nil => rfl
  | cons a letters ih =>
    rw [List.map_cons, List.map_cons, List.sum_cons, ih, weight, List.length_cons,
      Nat.add_comm]

theorem scan_weight (held text : List α) :
    ((scan low pattern held text).1.map (weight pattern)).sum +
      (scan low pattern held text).2.length = held.length + text.length := by
  induction text generalizing held with
  | nil => simp [scan]
  | cons a text ih =>
    rw [scan, List.length_cons]
    split
    · split
      · have rest := ih []
        rw [List.length_nil] at rest
        simp only [List.map_cons, List.sum_cons, weight]
        omega
      · have rest := ih (held ++ [a])
        rw [List.length_append, List.length_singleton] at rest
        omega
    · split
      · have rest := ih [a]
        rw [List.length_singleton] at rest
        simp only [List.map_append, List.sum_append, weight_keep]
        omega
      · have rest := ih []
        rw [List.length_nil] at rest
        simp only [List.map_append, List.sum_append, weight_keep, List.map_cons,
          List.sum_cons, weight]
        omega

theorem leftmost_weight (some_pattern : pattern ≠ []) (text : List α) (skip : Nat)
    (inside : skip ≤ text.length) :
    ((leftmost low pattern skip text).map (weight pattern)).sum + skip = text.length := by
  have positive := List.length_pos_iff.mpr some_pattern
  induction text generalizing skip with
  | nil =>
    rw [leftmost]
    simpa using inside
  | cons a text ih =>
    rw [List.length_cons] at inside ⊢
    cases skip with
    | succ skip =>
      have rest := ih skip (by omega)
      rw [leftmost]
      omega
    | zero =>
      rw [leftmost]
      split
      · rename_i occurs
        have fits := occurs.length_le
        rw [List.length_map, List.length_cons] at fits
        have rest := ih (pattern.length - 1) (by omega)
        rw [List.map_cons, List.sum_cons, weight]
        omega
      · have rest := ih 0 (Nat.zero_le _)
        rw [List.map_cons, List.sum_cons, weight]
        omega

end Weight

section Render

/-- The text of the tokens, with the hits replaced. -/
def render (replacement : List α) : List (Token α) → List α
  | [] => []
  | .keep a :: rest => a :: render replacement rest
  | .hit :: rest => replacement ++ render replacement rest

omit [DecidableEq α] in
theorem eq_of_render {x y : α} (differ : x ≠ y) {left right : List (Token α)}
    (withX : render [x] left = render [x] right) (withY : render [y] left = render [y] right) :
    left = right := by
  induction left generalizing right with
  | nil =>
    rcases right with _ | ⟨_ | _, _⟩
    · rfl
    · exact absurd withX (List.cons_ne_nil _ _).symm
    · exact absurd withX (List.cons_ne_nil _ _).symm
  | cons first left ih =>
    rcases right with _ | ⟨second, right⟩
    · cases first <;> exact absurd withX (List.cons_ne_nil _ _)
    cases first with
    | keep a =>
      cases second with
      | keep b =>
        simp only [render, List.cons.injEq] at withX withY
        rw [withX.1, ih withX.2 withY.2]
      | hit =>
        simp only [render, List.singleton_append, List.cons.injEq] at withX withY
        exact absurd (withX.1.symm.trans withY.1) differ
    | hit =>
      cases second with
      | keep b =>
        simp only [render, List.singleton_append, List.cons.injEq] at withX withY
        exact absurd (withX.1.trans withY.1.symm) differ
      | hit =>
        simp only [render, List.singleton_append, List.cons.injEq] at withX withY
        rw [ih withX.2 withY.2]

end Render

section ToHit

variable (low pattern) in
/-- The scan up to its first hit: the letters it kept, the text behind the hit if there is
one, and what is held if there is none. -/
def toHit : List α → List α → List α × Option (List α) × List α
  | held, [] => ([], none, held)
  | held, a :: rest =>
    if (held ++ [a]).map low <+: pattern then
      if held.length + 1 = pattern.length then ([], some rest, [])
      else toHit (held ++ [a]) rest
    else if [low a] <+: pattern then
      (held ++ (toHit [a] rest).1, (toHit [a] rest).2)
    else (held ++ a :: (toHit [] rest).1, (toHit [] rest).2)

theorem scan_toHit (held text : List α) :
    scan low pattern held text =
      match toHit low pattern held text with
      | (kept, none, left) => (kept.map .keep, left)
      | (kept, some rest, _) =>
        (kept.map .keep ++ .hit :: (scan low pattern [] rest).1,
          (scan low pattern [] rest).2) := by
  induction text generalizing held with
  | nil => rfl
  | cons a text ih =>
    rw [scan, toHit]
    split
    · split
      · rfl
      · exact ih _
    · split
      · rw [ih [a]]
        split <;> simp_all
      · rw [ih []]
        split <;> simp_all

theorem toHit_length (held text : List α) :
    match toHit low pattern held text with
    | (kept, none, left) => held.length + text.length = kept.length + left.length
    | (kept, some rest, _) =>
      held.length + text.length = kept.length + pattern.length + rest.length := by
  induction text generalizing held with
  | nil => simp [toHit]
  | cons a text ih =>
    rw [toHit, List.length_cons]
    split_ifs with goes full starts
    · simp only [List.length_nil]
      omega
    · have rest := ih (held ++ [a])
      rw [List.length_append, List.length_singleton] at rest
      split at rest <;> simp_all <;> omega
    · have rest := ih [a]
      rw [List.length_singleton] at rest
      split at rest <;> simp_all <;> omega
    · have rest := ih []
      rw [List.length_nil] at rest
      split at rest <;> simp_all <;> omega

theorem toHit_kept (held text : List α) :
    (toHit low pattern held text).1 = [] ∨
      ∃ more, (toHit low pattern held text).1 = held ++ more ∧ more <+: text := by
  induction text generalizing held with
  | nil => exact Or.inl rfl
  | cons a text ih =>
    rw [toHit]
    split_ifs with goes full starts
    · exact Or.inl rfl
    · rcases ih (held ++ [a]) with nothing | ⟨more, kept, front⟩
      · exact Or.inl nothing
      · exact Or.inr ⟨a :: more, by rw [kept]; simp, List.cons_prefix_cons.mpr ⟨rfl, front⟩⟩
    · right
      rcases ih [a] with nothing | ⟨more, kept, front⟩
      · exact ⟨[], by rw [nothing], List.nil_prefix⟩
      · exact ⟨a :: more, by rw [kept]; rfl, List.cons_prefix_cons.mpr ⟨rfl, front⟩⟩
    · right
      rcases ih [] with nothing | ⟨more, kept, front⟩
      · exact ⟨[a], by rw [nothing], List.cons_prefix_cons.mpr ⟨rfl, List.nil_prefix⟩⟩
      · exact ⟨a :: more, by rw [kept]; rfl, List.cons_prefix_cons.mpr ⟨rfl, front⟩⟩

theorem toHit_rest {held text rest left kept : List α}
    (found : toHit low pattern held text = (kept, some rest, left)) :
    ∃ used, text = used ++ rest ∧ used ≠ [] := by
  induction text generalizing held kept left with
  | nil => cases found
  | cons a text ih =>
    rw [toHit] at found
    split_ifs at found with goes full starts
    · simp only [Prod.mk.injEq, Option.some.injEq] at found
      exact ⟨[a], by rw [found.2.1]; rfl, List.cons_ne_nil _ _⟩
    · obtain ⟨used, split, _⟩ := ih found
      exact ⟨a :: used, by rw [split]; rfl, List.cons_ne_nil _ _⟩
    · rw [Prod.mk.injEq] at found
      obtain ⟨used, split, _⟩ := ih (Prod.ext rfl found.2)
      exact ⟨a :: used, by rw [split]; rfl, List.cons_ne_nil _ _⟩
    · rw [Prod.mk.injEq] at found
      obtain ⟨used, split, _⟩ := ih (Prod.ext rfl found.2)
      exact ⟨a :: used, by rw [split]; rfl, List.cons_ne_nil _ _⟩

omit [DecidableEq α] in
theorem goes_of_either {held text : List α} {a : α} (short : held.length < pattern.length)
    (either : pattern <+: (held ++ a :: text).map low ∨
      (held ++ a :: text).map low <+: pattern) : (held ++ [a]).map low <+: pattern := by
  have front : (held ++ [a]).map low <+: (held ++ a :: text).map low := by
    have regroup : held ++ a :: text = (held ++ [a]) ++ text := by simp
    rw [regroup]
    exact (List.prefix_append _ _).map low
  rcases either with occurs | ends
  · apply List.prefix_of_prefix_length_le front occurs
    rw [List.length_map, List.length_append, List.length_singleton]
    omega
  · exact front.trans ends

theorem toHit_nil_iff {held : List α} (text : List α) (some_held : held ≠ [])
    (agrees : held.map low <+: pattern) (short : held.length < pattern.length) :
    (toHit low pattern held text).1 = [] ↔
      pattern <+: (held ++ text).map low ∨ (held ++ text).map low <+: pattern := by
  induction text generalizing held with
  | nil =>
    rw [List.append_nil]
    exact ⟨fun _ => Or.inr agrees, fun _ => rfl⟩
  | cons a text ih =>
    have regroup : held ++ a :: text = (held ++ [a]) ++ text := by simp
    rw [toHit]
    split_ifs with goes full starts
    · refine ⟨fun _ => Or.inl ?_, fun _ => rfl⟩
      have whole : (held ++ [a]).map low = pattern :=
        goes.eq_of_length (by simp only [List.length_map, List.length_append,
          List.length_singleton]; exact full)
      rw [regroup, List.map_append, whole]
      exact List.prefix_append _ _
    · rw [regroup]
      apply ih (by simp) goes
      rw [List.length_append, List.length_singleton]
      omega
    · refine ⟨fun nothing => absurd (List.append_eq_nil_iff.mp nothing).1 some_held, ?_⟩
      intro either
      exact absurd (goes_of_either short either) goes
    · refine ⟨fun nothing => absurd (List.append_eq_nil_iff.mp nothing).1 some_held, ?_⟩
      intro either
      exact absurd (goes_of_either short either) goes

end ToHit

end Search

end NgxFormal.Lib
