import Mathlib.Algebra.Order.Ring.Int
import Mathlib.Data.List.Infix
import Mathlib.Data.List.Nodup

/-! Segments between separators: where a word without separator stands in the list it is a
segment of. -/

namespace NgxFormal.Lib.Segments

variable {α : Type} [DecidableEq α] {sep : α} {word text : List α}

/-- A segment is the whole text, the first, the last, or stands between two separators. -/
theorem mem_splitOn_iff (whole : sep ∉ word) :
    word ∈ text.splitOn sep ↔
      text = word ∨ (∃ after, text = word ++ sep :: after) ∨
        (∃ before, text = before ++ sep :: word) ∨
        ∃ before after, text = before ++ sep :: (word ++ sep :: after) := by
  constructor
  · intro member
    induction count : text.length using Nat.strong_induction_on generalizing text with
    | _ size ih =>
      by_cases inside : sep ∈ text
      · obtain ⟨first, rest, rfl, clear⟩ := List.eq_append_cons_of_mem inside
        rw [List.splitOn_append_cons_self_of_not_mem clear, List.mem_cons] at member
        rcases member with rfl | member
        · exact Or.inr (Or.inl ⟨rest, rfl⟩)
        · have shorter : rest.length < size := by
            rw [← count, List.length_append, List.length_cons]
            omega
          rcases ih rest.length shorter member rfl with
            rfl | ⟨after, rfl⟩ | ⟨before, rfl⟩ | ⟨before, after, rfl⟩
          · exact Or.inr (Or.inr (Or.inl ⟨first, rfl⟩))
          · exact Or.inr (Or.inr (Or.inr ⟨first, after, rfl⟩))
          · exact Or.inr (Or.inr (Or.inl ⟨first ++ sep :: before, by simp⟩))
          · exact Or.inr (Or.inr (Or.inr ⟨first ++ sep :: before, after, by simp⟩))
      · rw [List.splitOn_eq_singleton inside, List.mem_singleton] at member
        exact Or.inl member.symm
  · rintro (rfl | ⟨after, rfl⟩ | ⟨before, rfl⟩ | ⟨before, after, rfl⟩)
    · rw [List.splitOn_eq_singleton whole]
      exact List.mem_singleton_self _
    · rw [List.splitOn_append_cons_self_of_not_mem whole]
      exact List.mem_cons_self
    · rw [List.splitOn_append_cons_self, List.splitOn_eq_singleton whole]
      simp
    · rw [List.splitOn_append_cons_self, List.splitOn_append_cons_self_of_not_mem whole]
      simp

/-- Every line has its end, and nothing stands behind the last one. -/
theorem splitOn_lines {lines : List (List α)} (free : ∀ line ∈ lines, sep ∉ line) :
    (lines.flatMap (· ++ [sep])).splitOn sep = lines ++ [[]] := by
  induction lines with
  | nil => rfl
  | cons line rest ih =>
    obtain ⟨first, others⟩ := List.forall_mem_cons.1 free
    rw [List.flatMap_cons, List.append_assoc, List.singleton_append,
      List.splitOn_append_cons_self_of_not_mem first, ih others, List.cons_append]
theorem mem_splitOn_iff_infix (whole : sep ∉ word) :
    word ∈ text.splitOn sep ↔
      (text = word ∨ word ++ [sep] <+: text ∨ sep :: word <:+ text) ∨
        sep :: (word ++ [sep]) <:+: text := by
  rw [mem_splitOn_iff whole, or_assoc, or_assoc]
  refine or_congr Iff.rfl (or_congr ?_ (or_congr ?_ ?_))
  · constructor
    · rintro ⟨after, rfl⟩
      exact ⟨after, by simp⟩
    · rintro ⟨after, rfl⟩
      exact ⟨after, by simp⟩
  · constructor
    · rintro ⟨before, rfl⟩
      exact ⟨before, rfl⟩
    · rintro ⟨before, rfl⟩
      exact ⟨before, rfl⟩
  · constructor
    · rintro ⟨before, after, rfl⟩
      exact ⟨before, after, by simp⟩
    · rintro ⟨before, after, rfl⟩
      exact ⟨before, after, by simp⟩

theorem splitOn_eq_first (sep : α) (text : List α) :
    text.splitOn sep = text.takeWhile (· ≠ sep) :: (text.splitOn sep).tail := by
  cases text with
  | nil => rfl
  | cons a text =>
    by_cases same : a = sep
    · simp [List.splitOn_cons_eq_if_modifyHead, same]
    · obtain ⟨first, rest, split⟩ := List.exists_cons_of_ne_nil (List.splitOn_ne_nil sep text)
      have ih := splitOn_eq_first sep text
      rw [split, List.cons.injEq] at ih
      rw [List.splitOn_cons_eq_if_modifyHead, if_neg (by simpa using same), split,
        List.modifyHead_cons, List.tail_cons, List.takeWhile_cons_of_pos (by simpa using same),
        ← ih.1]

theorem tail_splitOn_cons (sep a : α) (text : List α) :
    ((a :: text).splitOn sep).tail =
      if a = sep then text.splitOn sep else (text.splitOn sep).tail := by
  rw [List.splitOn_cons_eq_if_modifyHead]
  by_cases same : a = sep
  · simp [same]
  · simp [same]

theorem takeWhile_append_mark (first rest : List α) (clear : sep ∉ first) :
    (first ++ sep :: rest).takeWhile (· ≠ sep) = first := by
  have all : ∀ a ∈ first, decide (a ≠ sep) = true := by
    intro a member
    exact decide_eq_true fun same => clear (same ▸ member)
  rw [List.takeWhile_append_of_pos all, List.takeWhile_cons_of_neg (by simp), List.append_nil]

theorem dropWhile_append_mark (first rest : List α) (clear : sep ∉ first) :
    (first ++ sep :: rest).dropWhile (· ≠ sep) = sep :: rest := by
  have all : ∀ a ∈ first, decide (a ≠ sep) = true := by
    intro a member
    exact decide_eq_true fun same => clear (same ▸ member)
  rw [List.dropWhile_append_of_pos all, List.dropWhile_cons_of_neg (by simp)]

theorem mem_inner_of_infix (whole : sep ∉ word) (inside : sep :: (word ++ [sep]) <:+: text) :
    word ∈ (text.splitOn sep).tail.dropLast := by
  obtain ⟨before, after, rfl⟩ := inside
  have shape : before ++ sep :: (word ++ [sep]) ++ after =
      before ++ sep :: (word ++ sep :: after) := by simp
  rw [shape, List.splitOn_append_cons_self, List.splitOn_append_cons_self_of_not_mem whole,
    List.tail_append_of_ne_nil (List.splitOn_ne_nil sep before),
    List.dropLast_append_of_ne_nil (by simp),
    List.dropLast_cons_of_ne_nil (List.splitOn_ne_nil sep after)]
  exact List.mem_append_right _ List.mem_cons_self

/-- How far below the root a walk along the segments ends; `none` if it goes above the root.
The empty name and `here` stay, and `up` goes to the directory above. -/
def walk (here up : List α) : Nat → List (List α) → Option Nat
  | depth, [] => some depth
  | depth, segment :: rest =>
    if segment = [] ∨ segment = here then walk here up depth rest
    else if segment = up then
      if depth = 0 then none else walk here up (depth - 1) rest
    else walk here up (depth + 1) rest

theorem walk_names {here up : List α} (names rest : List (List α)) (depth : Nat)
    (plain : ∀ name ∈ names, name ≠ here ∧ name ≠ up) :
    walk here up depth (names ++ rest) =
      walk here up (depth + names.countP (· ≠ [])) rest := by
  induction names generalizing depth with
  | nil => rfl
  | cons name names ih =>
    have first := plain name List.mem_cons_self
    have others (depth : Nat) :=
      ih depth fun name member => plain name (List.mem_cons_of_mem _ member)
    rw [List.cons_append, walk]
    by_cases empty : name = []
    · rw [if_pos (Or.inl empty), others, List.countP_cons_of_neg (by simpa using empty)]
    · rw [if_neg (by rintro (same | same); exacts [empty same, first.1 same]),
        if_neg first.2, others, List.countP_cons_of_pos (by simpa using empty)]
      congr 1
      omega

end NgxFormal.Lib.Segments

/-! Singly linked lists by their `next` pointers, and a list that is built through a pointer to
its last link. -/

namespace NgxFormal.Lib.Links

variable {ι : Type} {next next' : ι → Option ι} {first stop : Option ι} {front back links : List ι}

/-- From the pointer `first` the links `links` lead to the pointer `stop`. -/
def Leads (next : ι → Option ι) : Option ι → List ι → Option ι → Prop
  | first, [], stop => first = stop
  | first, i :: rest, stop => first = some i ∧ Leads next (next i) rest stop

/-- The links of a list whose end is `NULL`. -/
def Follows (next : ι → Option ι) (first : Option ι) (links : List ι) : Prop :=
  Leads next first links none

theorem leads_append :
    Leads next first (front ++ back) stop ↔
      ∃ middle, Leads next first front middle ∧ Leads next middle back stop := by
  induction front generalizing first with
  | nil => simp [Leads]
  | cons i front ih =>
    simp only [List.cons_append, Leads, ih]
    constructor
    · rintro ⟨here, middle, lead, rest⟩
      exact ⟨middle, ⟨here, lead⟩, rest⟩
    · rintro ⟨middle, ⟨here, lead⟩, rest⟩
      exact ⟨here, middle, lead, rest⟩

theorem Leads.congr (leads : Leads next first links stop)
    (same : ∀ i ∈ links, next' i = next i) : Leads next' first links stop := by
  induction links generalizing first with
  | nil => exact leads
  | cons i rest ih =>
    refine ⟨leads.1, ?_⟩
    rw [same i List.mem_cons_self]
    exact ih leads.2 fun j member => same j (List.mem_cons_of_mem i member)

theorem Follows.unique (one : Follows next first front) (other : Follows next first back) :
    front = back := by
  induction front generalizing first back with
  | nil =>
    cases back with
    | nil => rfl
    | cons j back =>
      have empty : first = none := one
      rw [other.1] at empty
      cases empty
  | cons i front ih =>
    cases back with
    | nil =>
      have empty : first = none := other
      rw [one.1] at empty
      cases empty
    | cons j back =>
      have same : i = j := Option.some.inj (one.1.symm.trans other.1)
      subst same
      rw [ih one.2 other.2]

theorem Follows.nodup (follows : Follows next first links) : links.Nodup := by
  induction links generalizing first with
  | nil => exact List.nodup_nil
  | cons i rest ih =>
    refine List.nodup_cons.mpr ⟨fun again => ?_, ih follows.2⟩
    obtain ⟨before, after, split⟩ := List.append_of_mem again
    have whole := follows.2
    rw [split] at whole
    obtain ⟨middle, _, back⟩ := leads_append.mp whole
    -- the links behind both occurrences are the same list
    have same := Follows.unique (show Follows next (next i) (before ++ i :: after) from whole)
      (show Follows next (next i) after from back.2)
    have count := congrArg List.length same
    rw [List.length_append, List.length_cons] at count
    omega

variable [DecidableEq ι]

/-- `*ll = v`, where `ll` points to `first` or to the `next` of a link. -/
def setTail (first : Option ι) (next : ι → Option ι) (ll v : Option ι) :
    Option ι × (ι → Option ι) :=
  match ll with
  | none => (v, next)
  | some i => (first, fun j => if j = i then v else next j)

/-- With `ll` at the last link, `*ll = v` makes the list lead to `v`, and changes no link
outside it. -/
theorem setTail_leads {links : List ι} {stop v : Option ι} (leads : Leads next first links stop)
    (distinct : links.Nodup) :
    Leads (setTail first next links.getLast? v).2 (setTail first next links.getLast? v).1 links v ∧
      ∀ i, i ∉ links → (setTail first next links.getLast? v).2 i = next i := by
  rcases List.eq_nil_or_concat links with rfl | ⟨front, last, rfl⟩
  · exact ⟨rfl, fun _ _ => rfl⟩
  · rw [List.concat_eq_append] at leads distinct ⊢
    obtain ⟨middle, front_leads, here⟩ := leads_append.mp leads
    rw [List.getLast?_append, List.getLast?_singleton, Option.some_or, setTail]
    have apart : ∀ i ∈ front, i ≠ last := fun i member =>
      (List.nodup_append.mp distinct).2.2 i member last (List.mem_singleton_self _)
    refine ⟨leads_append.mpr ⟨middle, ?_, here.1, if_pos rfl⟩, ?_⟩
    · exact front_leads.congr fun i member => if_neg (apart i member)
    · intro i outside
      refine if_neg fun same => outside ?_
      rw [same]
      exact List.mem_append_right front (List.mem_singleton_self _)

end NgxFormal.Lib.Links
