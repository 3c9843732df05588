import NgxFormal.Http.Ssi
import Mathlib.Data.List.Infix

/-! Bodies without a command: what is kept of partial tags from buffer to buffer. -/

namespace NgxFormal.Http.Ssi

def openTag : List UInt8 := [0x3c, 0x21, 0x2d, 0x2d, 0x23]

/-- How much of the tag has been seen, with one more byte. -/
def tagNext (k : Nat) (ch : UInt8) : Nat :=
  if openTag[k]? = some ch then k + 1 else if ch = 0x3c then 1 else 0

def tagRun (k : Nat) (text : List UInt8) : Nat := text.foldl tagNext k

def EndsWithTag (text : List UInt8) : Prop := ∃ j ∈ [1, 2, 3, 4], openTag.take j <:+ text

instance (text : List UInt8) : Decidable (EndsWithTag text) :=
  inferInstanceAs (Decidable (∃ j ∈ [1, 2, 3, 4], openTag.take j <:+ text))

theorem tagPart_bounds {j : Nat} (member : j ∈ [1, 2, 3, 4]) : 1 ≤ j ∧ j ≤ 4 := by
  revert j
  decide

theorem mem_tagPart {j : Nat} (positive : 1 ≤ j) (inside : j ≤ 4) : j ∈ [1, 2, 3, 4] := by
  match j, positive, inside with
  | 1, _, _ | 2, _, _ | 3, _, _ | 4, _, _ => decide

section Tags

variable {k : Nat} {ch : UInt8} {text rest : List UInt8}

@[simp] theorem tagRun_nil (k : Nat) : tagRun k [] = k := rfl

@[simp] theorem tagRun_cons (k : Nat) (ch : UInt8) (rest : List UInt8) :
    tagRun k (ch :: rest) = tagRun (tagNext k ch) rest := rfl

theorem tagRun_append (k : Nat) (first second : List UInt8) :
    tagRun k (first ++ second) = tagRun (tagRun k first) second := List.foldl_append

theorem tagNext_le (k : Nat) (ch : UInt8) : tagNext k ch ≤ k + 1 := by
  unfold tagNext
  split
  · exact Nat.le_refl _
  · split
    · omega
    · omega

theorem tagRun_le (k : Nat) (text : List UInt8) : tagRun k text ≤ k + text.length := by
  induction text generalizing k with
  | nil => exact Nat.le_refl _
  | cons ch rest ih =>
    have first := tagNext_le k ch
    have later := ih (tagNext k ch)
    rw [tagRun_cons, List.length_cons]
    omega

theorem take_tagNext (here : openTag[k]? = some ch) :
    openTag.take k ++ [ch] = openTag.take (k + 1) := by
  rw [List.take_add_one, here]
  rfl

theorem tagRun_text (inside : k ≤ 5) (text : List UInt8) :
    (tagRun k text = k + text.length ∧ openTag.take k ++ text = openTag.take (tagRun k text)) ∨
      tagRun k text ≤ text.length ∧
        text = text.take (text.length - tagRun k text) ++ openTag.take (tagRun k text) := by
  induction text generalizing k with
  | nil => exact Or.inl ⟨rfl, List.append_nil _⟩
  | cons ch rest ih =>
    rw [tagRun_cons, List.length_cons]
    by_cases here : openTag[k]? = some ch
    · have small : k ≤ 4 := by
        have := (List.getElem?_eq_some_iff.mp here).1
        simp only [openTag, List.length_cons, List.length_nil] at this
        omega
      have next : tagNext k ch = k + 1 := if_pos here
      rw [next]
      rcases ih (show k + 1 ≤ 5 by omega) with ⟨all, same⟩ | ⟨shorter, same⟩
      · refine Or.inl ⟨by omega, ?_⟩
        rw [← same, ← take_tagNext here, List.append_assoc]
        rfl
      · refine Or.inr ⟨by omega, ?_⟩
        rw [Nat.sub_add_comm shorter, List.take_succ_cons, List.cons_append, ← same]
    · by_cases opens : ch = 0x3c
      · have next : tagNext k ch = 1 := by rw [tagNext, if_neg here, if_pos opens]
        rw [next]
        rcases ih (show 1 ≤ 5 by omega) with ⟨all, same⟩ | ⟨shorter, same⟩
        · refine Or.inr ⟨by omega, ?_⟩
          rw [show rest.length + 1 - tagRun 1 rest = 0 by omega, List.take_zero, List.nil_append, ← same,
            opens]
          rfl
        · refine Or.inr ⟨by omega, ?_⟩
          rw [Nat.sub_add_comm shorter, List.take_succ_cons, List.cons_append, ← same]
      · have next : tagNext k ch = 0 := by rw [tagNext, if_neg here, if_neg opens]
        rw [next]
        rcases ih (show 0 ≤ 5 by omega) with ⟨all, same⟩ | ⟨shorter, same⟩
        · refine Or.inr ⟨by omega, ?_⟩
          rw [← same, show rest.length + 1 - tagRun 0 rest = 1 by omega, List.take_zero, List.nil_append]
          rfl
        · refine Or.inr ⟨by omega, ?_⟩
          rw [Nat.sub_add_comm shorter, List.take_succ_cons, List.cons_append, ← same]

theorem tagRun_le_five (inside : k ≤ 5) (text : List UInt8) : tagRun k text ≤ 5 := by
  induction text generalizing k with
  | nil => exact inside
  | cons ch rest ih =>
    rw [tagRun_cons]
    apply ih
    unfold tagNext
    split
    · rename_i here
      have := (List.getElem?_eq_some_iff.mp here).1
      simp only [openTag, List.length_cons, List.length_nil] at this
      omega
    · split
      · omega
      · omega

/-- Only a tag begins with `<`, so that one that is open ends there. -/
theorem tagNext_opens (k : Nat) : tagNext k 0x3c = 1 := by
  unfold tagNext
  by_cases zero : k = 0
  · subst zero
    rfl
  · have other : openTag[k]? ≠ some 0x3c := by
      match k with
      | 0 => exact absurd rfl zero
      | 1 | 2 | 3 | 4 => decide
      | k + 5 => simp [openTag]
    rw [if_neg other, if_pos rfl]

theorem tagRun_take (k : Nat) {j : Nat} (positive : 1 ≤ j) (inside : j ≤ 4) :
    tagRun k (openTag.take j) = j := by
  obtain ⟨j, rfl⟩ : ∃ i, j = i + 1 := ⟨j - 1, by omega⟩
  rw [openTag, List.take_succ_cons, tagRun_cons, tagNext_opens]
  match j, inside with
  | 0, _ | 1, _ | 2, _ | 3, _ => rfl

theorem tagRun_lt_five (absent : ¬openTag <:+: text) (begins : rest <+: text) : tagRun 0 rest ≤ 4 := by
  have bound := tagRun_le_five (Nat.zero_le 5) rest
  refine Nat.lt_succ_iff.mp (lt_of_le_of_ne bound fun five => absent ?_)
  refine List.IsInfix.trans ?_ begins.isInfix
  rcases tagRun_text (Nat.zero_le 5) rest with ⟨_, same⟩ | ⟨_, same⟩
  · rw [five] at same
    have whole : rest = openTag := same
    rw [whole]
  · rw [five] at same
    exact ⟨rest.take (rest.length - 5), [], by rw [List.append_nil]; exact same.symm⟩

theorem endsWithTag_iff (few : tagRun 0 text ≤ 4) : EndsWithTag text ↔ tagRun 0 text ≠ 0 := by
  constructor
  · rintro ⟨j, member, before, rfl⟩
    have bounds := tagPart_bounds member
    rw [tagRun_append, tagRun_take _ bounds.1 bounds.2]
    omega
  · intro positive
    refine ⟨tagRun 0 text, mem_tagPart (by omega) few, ?_⟩
    · rcases tagRun_text (Nat.zero_le 5) text with ⟨_, same⟩ | ⟨_, same⟩
      · rw [← same]
        exact List.suffix_refl _
      · exact ⟨_, same.symm⟩

end Tags

/-- What a buffer gives to the chain when `k` bytes of a tag are held back. -/
def emitted (k : Nat) (bytes : List UInt8) : List UInt8 :=
  let kept := bytes.take (bytes.length - tagRun k bytes)
  if tagRun k bytes = k + bytes.length ∨ kept = [] then [] else openTag.take k ++ kept

/-- The held bytes do not become part of the chain: the buffer is the beginning of a new tag. -/
def Lost (k : Nat) (bytes : List UInt8) : Prop := 0 < k ∧ tagRun k bytes = bytes.length

section Emitted

variable {k : Nat} {bytes : List UInt8}

theorem emitted_kept (inside : k ≤ 5) (some_bytes : bytes ≠ []) (kept : ¬Lost k bytes) :
    emitted k bytes ++ openTag.take (tagRun k bytes) = openTag.take k ++ bytes := by
  have positive := List.length_pos_iff.mpr some_bytes
  unfold emitted
  dsimp only
  rcases tagRun_text inside bytes with ⟨all, same⟩ | ⟨shorter, same⟩
  · rw [if_pos (Or.inl all), ← same, List.nil_append]
  · by_cases none : bytes.take (bytes.length - tagRun k bytes) = []
    · -- the whole buffer is held back, which is no loss if nothing was before
      have zero : k = 0 := by
        refine Nat.eq_zero_of_not_pos fun some_tag => kept ⟨some_tag, ?_⟩
        have length := congrArg List.length none
        rw [List.length_take, List.length_nil] at length
        omega
      rw [if_pos (Or.inr none), zero]
      rw [none, zero] at same
      exact same.symm
    · by_cases all : tagRun k bytes = k + bytes.length
      · have zero : k = 0 := by omega
        rw [all, zero, Nat.zero_add, Nat.sub_self] at none
        exact absurd rfl none
      · rw [if_neg (by tauto), List.append_assoc, ← same]

theorem emitted_lost (lost : Lost k bytes) :
    (emitted k bytes).length + tagRun k bytes < k + bytes.length := by
  obtain ⟨positive, all⟩ := lost
  have none : bytes.take (bytes.length - tagRun k bytes) = [] := by rw [all, Nat.sub_self, List.take_zero]
  unfold emitted
  dsimp only
  rw [if_pos (Or.inr none), List.length_nil]
  omega

/-- What is lost is a beginning of the tag behind another one. -/
theorem lost_iff (inside : k ≤ 4) (few : tagRun k bytes ≤ 4) (some_bytes : bytes ≠ []) :
    Lost k bytes ↔ 0 < k ∧ ∃ j ∈ [1, 2, 3, 4], bytes = openTag.take j := by
  have positive := List.length_pos_iff.mpr some_bytes
  constructor
  · rintro ⟨some_tag, all⟩
    refine ⟨some_tag, tagRun k bytes, mem_tagPart (by omega) few, ?_⟩
    · rcases tagRun_text (show k ≤ 5 by omega) bytes with ⟨more, _⟩ | ⟨_, same⟩
      · omega
      · rw [all, Nat.sub_self, List.take_zero, List.nil_append] at same
        rw [all]
        exact same
  · rintro ⟨some_tag, j, member, rfl⟩
    have bounds := tagPart_bounds member
    refine ⟨some_tag, ?_⟩
    rw [tagRun_take _ bounds.1 bounds.2, List.length_take]
    simp only [openTag, List.length_cons, List.length_nil]
    omega

/-- What a sequence of buffers gives to the chain. -/
def emittedAll : Nat → List (List UInt8) → List UInt8
  | _, [] => []
  | k, bytes :: rest => emitted k bytes ++ emittedAll (tagRun k bytes) rest

/-- A buffer of the sequence is the place of a loss. -/
def LostIn : Nat → List (List UInt8) → Prop
  | _, [] => False
  | k, bytes :: rest => Lost k bytes ∨ LostIn (tagRun k bytes) rest

theorem emittedAll_kept {bufs : List (List UInt8)} (inside : k ≤ 5) (some_bytes : ∀ bytes ∈ bufs, bytes ≠ [])
    (kept : ¬LostIn k bufs) :
    emittedAll k bufs ++ openTag.take (tagRun k bufs.flatten) = openTag.take k ++ bufs.flatten := by
  induction bufs generalizing k with
  | nil => rw [emittedAll, List.flatten_nil, List.nil_append, List.append_nil, tagRun_nil]
  | cons bytes rest ih =>
    have first := emitted_kept inside (some_bytes bytes List.mem_cons_self) fun lost => kept (Or.inl lost)
    have later := ih (tagRun_le_five inside bytes)
      (fun other member => some_bytes other (List.mem_cons_of_mem _ member)) fun lost => kept (Or.inr lost)
    rw [emittedAll, List.flatten_cons, tagRun_append, List.append_assoc, later, ← List.append_assoc, first,
      List.append_assoc]

theorem emittedAll_length {bufs : List (List UInt8)} (inside : k ≤ 5)
    (some_bytes : ∀ bytes ∈ bufs, bytes ≠ []) :
    (emittedAll k bufs).length + (openTag.take (tagRun k bufs.flatten)).length ≤
        (openTag.take k).length + bufs.flatten.length ∧
      (LostIn k bufs → (emittedAll k bufs).length + (openTag.take (tagRun k bufs.flatten)).length <
        (openTag.take k).length + bufs.flatten.length) := by
  have size : ∀ j, j ≤ 5 → (openTag.take j).length = j := by
    intro j small
    rw [List.length_take]
    simp only [openTag, List.length_cons, List.length_nil]
    omega
  induction bufs generalizing k with
  | nil => exact ⟨by simp [emittedAll], fun lost => lost.elim⟩
  | cons bytes rest ih =>
    have small := tagRun_le_five inside bytes
    obtain ⟨le, lt⟩ := ih small fun other member => some_bytes other (List.mem_cons_of_mem _ member)
    rw [size _ small] at le lt
    rw [emittedAll, List.flatten_cons, tagRun_append, List.length_append, List.length_append, size _ inside]
    by_cases lost : Lost k bytes
    · have less := emitted_lost lost
      exact ⟨by omega, fun _ => by omega⟩
    · have same := congrArg List.length (emitted_kept inside (some_bytes bytes List.mem_cons_self) lost)
      rw [List.length_append, List.length_append, size _ small, size _ inside] at same
      refine ⟨by omega, ?_⟩
      rintro (here | later)
      · exact absurd here lost
      · have less := lt later
        omega

theorem lostIn_iff {bufs : List (List UInt8)} :
    LostIn k bufs ↔ ∃ before bytes after, bufs = before ++ bytes :: after ∧
      Lost (tagRun k before.flatten) bytes := by
  induction bufs generalizing k with
  | nil =>
    constructor
    · exact False.elim
    · rintro ⟨before, bytes, after, split, _⟩
      cases before <;> cases split
  | cons first rest ih =>
    constructor
    · rintro (here | later)
      · exact ⟨[], first, rest, rfl, here⟩
      · obtain ⟨before, bytes, after, rfl, lost⟩ := ih.mp later
        refine ⟨first :: before, bytes, after, rfl, ?_⟩
        rw [List.flatten_cons, tagRun_append]
        exact lost
    · rintro ⟨before, bytes, after, split, lost⟩
      cases before with
      | nil =>
        cases split
        exact Or.inl lost
      | cons other before =>
        cases split
        rw [List.flatten_cons, tagRun_append] at lost
        exact Or.inr (ih.mpr ⟨before, bytes, after, rfl, lost⟩)

end Emitted

end NgxFormal.Http.Ssi
