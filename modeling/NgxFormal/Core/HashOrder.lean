import NgxFormal.Core.HashInit
import NgxFormal.Lib.LongestMatch
import Mathlib.Data.List.GetD
import Mathlib.Data.List.TakeWhile

/-! What the order of `ngx_dns_strcmp` does to the labels of the sorted names. -/

namespace NgxFormal.Core.Hash

open Lib Lib.Runs

def Lowered (s : List UInt8) : Prop := ∀ c ∈ s, ngxTolower c = c

/-- `s` sorts in front of `t`. -/
def Before (s t : List UInt8) : Prop := ngxDnsStrcmp s t < 0

/-- Where one name ends and another goes on with a dot, none goes on with a byte below the
space: such a name would stand between the two. -/
def Untorn (keys : List (List UInt8)) : Prop :=
  ∀ w s y t, w ∈ keys → w ++ dot :: s ∈ keys → w ++ y :: t ∈ keys → chr ' ' ≤ y

/-- Names that the order of `ngx_dns_strcmp` keeps apart, and whose labels it does not tear. -/
structure Separable (keys : List (List UInt8)) : Prop where
  distinct : ∀ s ∈ keys, ∀ t ∈ keys, ngxDnsStrcmp s t = 0 → s = t
  untorn : Untorn keys

theorem Lowered.tail {c : UInt8} {s : List UInt8} (lowered : Lowered (c :: s)) : Lowered s :=
  fun d member => lowered d (List.mem_cons_of_mem c member)

theorem Lowered.head {c : UInt8} {s : List UInt8} (lowered : Lowered (c :: s)) :
    ngxTolower c = c :=
  lowered c List.mem_cons_self

section Order

variable {x y : UInt8} {s t w : List UInt8}

theorem not_before_nil (lowered : Lowered s) : ¬Before s [] := by
  cases s with
  | nil => exact (by decide : ¬ngxDnsStrcmp [] [] < 0)
  | cons x s =>
    have zero : ngxTolower (peek []) = 0 := by decide
    rw [Before, ngxDnsStrcmp, lowered.head, zero]
    have rank : dnsRank 0 = 0 := by decide
    by_cases same : x = 0
    · simp [same]
    · simp [same, rank]

theorem before_cons (first : Lowered (x :: s)) (second : Lowered (y :: t)) :
    Before (x :: s) (y :: t) ↔ (x = y ∧ x ≠ 0 ∧ Before s t) ∨ (x ≠ y ∧ dnsRank x < dnsRank y) := by
  have shown : peek (y :: t) = y := rfl
  rw [Before, ngxDnsStrcmp, shown, first.head, second.head, List.tail_cons]
  by_cases same : x = y
  · subst same
    by_cases zero : x = 0
    · simp [zero]
    · simp [zero, Before]
  · simp only [same, if_false, false_and, false_or, ne_eq, not_false_eq_true, true_and,
      UInt8.lt_iff_toNat_lt]
    omega

theorem before_nil_cons (later : Before [] (y :: t)) : ngxTolower y ≠ 0 := by
  intro zero
  have shown : peek (y :: t) = y := rfl
  rw [Before, ngxDnsStrcmp, shown, zero] at later
  exact absurd later (by decide)

theorem before_irrefl (lowered : Lowered s) : ¬Before s s := by
  induction s with
  | nil => exact not_before_nil lowered
  | cons x s ih =>
    rw [before_cons lowered lowered]
    rintro (⟨_, _, later⟩ | ⟨differ, _⟩)
    · exact ih lowered.tail later
    · exact differ rfl

theorem before_append (first : Lowered (w ++ s)) (second : Lowered (w ++ t))
    (before : Before (w ++ s) (w ++ t)) : Before s t := by
  induction w with
  | nil => exact before
  | cons x w ih =>
    rcases (before_cons first second).mp before with ⟨_, _, later⟩ | ⟨differ, _⟩
    · exact ih first.tail second.tail later
    · exact absurd rfl differ

/-- Two names that the order tells apart agree in their first bytes exactly if `ngx_strncmp`
says so: a NUL byte in the way would have made them equal. -/
theorem strncmp_eq_zero (n : Nat) (first : Lowered s) (second : Lowered t) (before : Before s t) :
    ngxStrncmp n s t = 0 ↔ s.take n = t.take n := by
  induction n generalizing s t with
  | zero => simp [ngxStrncmp]
  | succ n ih =>
    match s, t with
    | s, [] => exact absurd before (not_before_nil first)
    | [], y :: t =>
      have used := before_nil_cons before
      rw [second.head] at used
      have differ : (0 : UInt8) ≠ y := Ne.symm used
      rw [ngxStrncmp]
      simp only [peek, List.headD_nil, List.headD_cons, ne_eq, differ, not_false_eq_true, if_true,
        List.take_nil, List.take_succ_cons, reduceCtorEq, iff_false]
      have := UInt8.toNat_inj.not.mpr differ
      omega
    | x :: s, y :: t =>
      rw [ngxStrncmp]
      simp only [peek, List.headD_cons, List.tail_cons, List.take_succ_cons, List.cons.injEq]
      rcases (before_cons first second).mp before with ⟨rfl, used, later⟩ | ⟨differ, _⟩
      · simp only [ne_eq, not_true_eq_false, if_false, used, true_and]
        exact ih first.tail second.tail later
      · simp only [ne_eq, differ, not_false_eq_true, if_true, false_and, iff_false]
        have := UInt8.toNat_inj.not.mpr differ
        omega

end Order

section Labels

variable {l s t a b c : List UInt8}

/-- What can stand behind the first label of a name. -/
def Ends (rest : List UInt8) : Prop := rest = [] ∨ ∃ more, rest = dot :: more

theorem labelOf_eq (key : List UInt8) : ∃ rest, key = labelOf key ++ rest ∧ Ends rest := by
  refine ⟨key.dropWhile (· ≠ dot), (List.takeWhile_append_dropWhile).symm, ?_⟩
  cases shape : key.dropWhile (· ≠ dot) with
  | nil => exact Or.inl rfl
  | cons first more =>
    have stopped := List.head?_dropWhile_not (fun c : UInt8 => decide (c ≠ dot)) key
    rw [shape] at stopped
    simp at stopped
    exact Or.inr ⟨more, by rw [stopped]⟩

theorem dot_notMem_labelOf (key : List UInt8) : dot ∉ labelOf key := by
  intro member
  have := List.mem_takeWhile_imp member
  simp at this

theorem labelOf_append (free : dot ∉ l) (ends : Ends s) : labelOf (l ++ s) = l := by
  have kept : ∀ c ∈ l, decide (c ≠ dot) = true := by
    intro c member
    simp only [ne_eq, decide_not, Bool.not_eq_eq_eq_not, Bool.not_true, decide_eq_false_iff_not]
    rintro rfl
    exact free member
  rw [labelOf, List.takeWhile_append_of_pos kept]
  rcases ends with rfl | ⟨more, rfl⟩
  · simp
  · simp

theorem labelOf_iff (free : dot ∉ l) : labelOf s = l ↔ ∃ rest, s = l ++ rest ∧ Ends rest := by
  constructor
  · rintro rfl
    exact labelOf_eq s
  · rintro ⟨rest, rfl, ends⟩
    exact labelOf_append free ends

/-- The breaks of the inner loop are where the label changes. -/
theorem sameLabel_iff (first next : HashKey) (lowFirst : Lowered first.key)
    (lowNext : Lowered next.key) (before : Before first.key next.key) :
    sameLabel first next = true ↔ labelOf next.key = labelOf first.key := by
  obtain ⟨rest, split, ends⟩ := labelOf_eq first.key
  have free := dot_notMem_labelOf first.key
  have compare := strncmp_eq_zero (labelLen first.key) lowFirst lowNext before
  generalize labelOf first.key = l at split free
  rw [labelOf_iff free]
  simp only [sameLabel, compare, decide_eq_true_eq]
  rcases ends with rfl | ⟨more, rfl⟩
  · rw [List.append_nil] at split
    have noDot : dot ∉ first.key := by rwa [split]
    have len : labelLen first.key = l.length := by
      rw [labelLen, if_neg noDot, split, ← List.append_nil l, labelOf_append free (Or.inl rfl),
        List.append_nil]
    rw [len, split, List.take_length]
    simp only [free, not_false_eq_true, true_and, not_and, not_not]
    constructor
    · rintro ⟨front, follows⟩
      have joined := List.take_append_drop l.length next.key
      rw [← front] at joined
      refine ⟨next.key.drop l.length, joined.symm, ?_⟩
      cases shape : next.key.drop l.length with
      | nil => exact Or.inl rfl
      | cons byte more =>
        rw [shape] at joined
        rw [← joined] at follows
        have dotted := follows (by simp)
        rw [List.getD_append_right _ _ _ _ (Nat.le_refl _), Nat.sub_self] at dotted
        exact Or.inr ⟨more, by rw [← dotted]; rfl⟩
    · rintro ⟨after, joined, ends⟩
      rw [joined]
      refine ⟨by simp, fun longer => ?_⟩
      rw [List.getD_append_right _ _ _ _ (Nat.le_refl _), Nat.sub_self]
      rcases ends with rfl | ⟨more, rfl⟩
      · simp at longer
      · rfl
  · have hasDot : dot ∈ first.key := by simp [split]
    have len : labelLen first.key = l.length + 1 := by
      rw [labelLen, if_pos hasDot, split, labelOf_append free (Or.inr ⟨more, rfl⟩)]
    have front : first.key.take (l.length + 1) = l ++ [dot] := by
      rw [split, List.take_append, List.take_of_length_le (by omega)]
      simp
    rw [len, front]
    simp only [hasDot, not_true_eq_false, false_and, not_false_eq_true, and_true]
    constructor
    · intro same
      have joined := List.take_append_drop (l.length + 1) next.key
      rw [← same] at joined
      exact ⟨dot :: next.key.drop (l.length + 1), by rw [← joined]; simp, Or.inr ⟨_, rfl⟩⟩
    · rintro ⟨after, joined, ends⟩
      rcases ends with rfl | ⟨rest, rfl⟩
      · rw [split, joined] at before
        rw [split] at lowFirst
        rw [joined] at lowNext
        have impossible := before_append lowFirst lowNext before
        exact absurd impossible
          (not_before_nil fun byte member => lowFirst byte (List.mem_append_right l member))
      · rw [joined, List.take_append, List.take_of_length_le (by omega)]
        simp

theorem dnsRank_dot : dnsRank dot = chr ' ' := by decide

theorem dnsRank_other {y : UInt8} (other : y ≠ dot) : dnsRank y = y := if_neg other

theorem between_append (l : List UInt8) {ra rc b : List UInt8} (endsA : Ends ra) (endsC : Ends rc)
    (lowA : Lowered (l ++ ra)) (lowB : Lowered b) (lowC : Lowered (l ++ rc))
    (below : Before (l ++ ra) b) (above : Before b (l ++ rc))
    (whole : ∀ s y t, ra = [] → rc = dot :: s → b = l ++ y :: t → chr ' ' ≤ y) :
    ∃ rest, b = l ++ rest ∧ Ends rest := by
  induction l generalizing b with
  | nil =>
    rw [List.nil_append] at below above lowA lowC
    cases b with
    | nil => exact ⟨[], rfl, Or.inl rfl⟩
    | cons y t =>
      by_cases dotted : y = dot
      · exact ⟨y :: t, rfl, Or.inr ⟨t, by rw [dotted]⟩⟩
      · rcases endsC with rfl | ⟨s, rfl⟩
        · exact absurd above (not_before_nil lowB)
        · have low : y < chr ' ' := by
            rcases (before_cons lowB lowC).mp above with ⟨same, _⟩ | ⟨_, rank⟩
            · exact absurd same dotted
            · rwa [dnsRank_dot, dnsRank_other dotted] at rank
          rcases endsA with rfl | ⟨more, rfl⟩
          · exact absurd (whole s y t rfl rfl rfl) (UInt8.not_le.mpr low)
          · rcases (before_cons lowA lowB).mp below with ⟨same, _⟩ | ⟨_, rank⟩
            · exact absurd same.symm dotted
            · rw [dnsRank_dot, dnsRank_other dotted] at rank
              exact absurd (UInt8.lt_trans low rank) (UInt8.lt_irrefl _)
  | cons x l ih =>
    cases b with
    | nil => exact absurd below (not_before_nil lowA)
    | cons y t =>
      rcases (before_cons lowA lowB).mp below with ⟨rfl, _, belowRest⟩ | ⟨differ, up⟩
      · rcases (before_cons lowB lowC).mp above with ⟨_, _, aboveRest⟩ | ⟨other, _⟩
        · obtain ⟨rest, joined, ends⟩ := ih lowA.tail lowB.tail lowC.tail belowRest aboveRest
            (fun s y more first last split => whole s y more first last (by rw [split]; rfl))
          exact ⟨rest, by rw [joined]; rfl, ends⟩
        · exact absurd rfl other
      · rcases (before_cons lowB lowC).mp above with ⟨same, _⟩ | ⟨_, down⟩
        · exact absurd same.symm differ
        · exact absurd (UInt8.lt_trans up down) (UInt8.lt_irrefl _)

theorem label_between (lowA : Lowered a) (lowB : Lowered b) (lowC : Lowered c) (below : Before a b)
    (above : Before b c)
    (whole : ∀ w s y t, a = w → c = w ++ dot :: s → b = w ++ y :: t → chr ' ' ≤ y)
    (same : labelOf c = labelOf a) : labelOf b = labelOf a := by
  have free := dot_notMem_labelOf a
  obtain ⟨ra, splitA, endsA⟩ := labelOf_eq a
  obtain ⟨rc, splitC, endsC⟩ := labelOf_eq c
  rw [same] at splitC
  rw [labelOf_iff free]
  generalize labelOf a = l at *
  subst splitA splitC
  exact between_append l endsA endsC lowA lowB lowC below above
    fun s y t first last split => whole l s y t (by rw [first, List.append_nil]) (by rw [last]) split

/-- In the order of `ngx_dns_strcmp` the names with one label stand together. -/
theorem clustered_of_sorted {names : List HashKey} (lowered : ∀ name ∈ names, Lowered name.key)
    (sorted : names.Pairwise fun a b => Before a.key b.key)
    (untorn : Untorn (names.map HashKey.key)) :
    Clustered sameLabel (fun name => labelOf name.key) names where
  agree := by
    intro a b pair
    have before : Before a.key b.key := by
      simpa using sorted.sublist pair
    exact sameLabel_iff a b (lowered a (pair.subset (by simp))) (lowered b (pair.subset (by simp)))
      before
  between := by
    intro a b c triple same
    have order := sorted.sublist triple
    simp only [List.pairwise_cons, List.mem_cons, List.not_mem_nil, or_false, forall_eq_or_imp,
      forall_eq] at order
    have inA := triple.subset (by simp : a ∈ [a, b, c])
    have inB : b ∈ names := triple.subset (by simp)
    have inC : c ∈ names := triple.subset (by simp)
    apply label_between (lowered a inA) (lowered b inB) (lowered c inC) order.1.1 order.2.1 _ same
    intro w s y t isA isC isB
    apply untorn w s y t
    · rw [← isA]
      exact List.mem_map_of_mem inA
    · rw [← isC]
      exact List.mem_map_of_mem inC
    · rw [← isB]
      exact List.mem_map_of_mem inB

end Labels

end NgxFormal.Core.Hash

/-! One level of the wildcard hash: the names of the level as rules on label paths, and the
runs of `ngx_hash_wildcard_init` as the rules below one label. -/

namespace NgxFormal.Core.Hash

open Lib Lib.Runs Lib.LongestMatch

abbrev Label := List UInt8

def dotted : List Label → List UInt8
  | [] => []
  | [l] => l
  | l :: m :: rest => l ++ dot :: dotted (m :: rest)

/-- The stored form of a wildcard; the ending is the dot behind the last label. -/
def ruleText (rule : Rule Label) : List UInt8 :=
  if rule.ending then dotted rule.path ++ [dot] else dotted rule.path

def storedKey (rule : Rule Label) : HashKey := ⟨ruleText rule, false, 0, rule.value⟩

structure GoodLabel (l : Label) : Prop where
  nonempty : l ≠ []
  free : dot ∉ l
  lowered : Lowered l

/-- The rules whose texts are the names of one level. -/
structure Level (rules : List (Rule Label)) : Prop where
  used : ∀ rule ∈ rules, rule.path ≠ []
  labels : ∀ rule ∈ rules, ∀ l ∈ rule.path, GoodLabel l
  valued : ∀ rule ∈ rules, 0 < rule.value ∧ rule.value < 2 ^ 64 ∧ 4 ∣ rule.value
  distinct : (rules.map Rule.path).Nodup
  sorted : rules.Pairwise fun a b => Before (ruleText a) (ruleText b)
  untorn : Untorn (rules.map ruleText)

section Text

variable {rule left : Rule Label} {h : Label}

theorem ruleText_single (path : rule.path = [h]) :
    ruleText rule = h ++ if rule.ending then [dot] else [] := by
  rw [ruleText, path]
  split <;> simp [dotted]

theorem ruleText_behind (found : rule.behind h = some left) :
    ruleText rule = h ++ dot :: ruleText left := by
  obtain ⟨path, used, ending, _⟩ := behind_some.mp found
  obtain ⟨m, rest, more⟩ := List.exists_cons_of_ne_nil used
  rw [ruleText, ruleText, path, ending, more, dotted]
  split <;> simp

theorem lowered_append {s t : List UInt8} (first : Lowered s) (second : Lowered t) :
    Lowered (s ++ t) := by
  intro c member
  rcases List.mem_append.mp member with left | right
  · exact first c left
  · exact second c right

theorem lowered_dot : Lowered [dot] := by
  intro c member
  rw [List.mem_singleton.mp member]
  decide

theorem lowered_dotted {path : List Label} (lowered : ∀ l ∈ path, Lowered l) :
    Lowered (dotted path) := by
  induction path with
  | nil => exact fun c member => absurd member List.not_mem_nil
  | cons l rest ih =>
    have later := ih fun m member => lowered m (List.mem_cons_of_mem l member)
    cases rest with
    | nil => exact lowered l List.mem_cons_self
    | cons m rest =>
      exact lowered_append (lowered l List.mem_cons_self) (lowered_append lowered_dot later)

theorem lowered_ruleText (labels : ∀ l ∈ rule.path, GoodLabel l) : Lowered (ruleText rule) := by
  have path := lowered_dotted fun l member => (labels l member).lowered
  rw [ruleText]
  split
  · exact lowered_append path lowered_dot
  · exact path

theorem ruleText_ne_nil (used : rule.path ≠ []) (labels : ∀ l ∈ rule.path, GoodLabel l) :
    ruleText rule ≠ [] := by
  obtain ⟨l, rest, path⟩ := List.exists_cons_of_ne_nil used
  have nonempty := (labels l (by simp [path])).nonempty
  rw [ruleText, path]
  cases rest <;> split <;> simp [dotted, nonempty]

theorem path_cases (path : ∃ rest, rule.path = h :: rest) :
    (rule.path = [h] ∧ rule.behind h = none) ∨ ∃ left, rule.behind h = some left := by
  obtain ⟨rest, path⟩ := path
  cases rest with
  | nil =>
    refine Or.inl ⟨path, ?_⟩
    rw [Rule.behind, path]
  | cons m rest =>
    refine Or.inr ⟨{ rule with path := m :: rest }, ?_⟩
    rw [Rule.behind, path]
    exact if_pos rfl

theorem ruleText_ends (path : ∃ rest, rule.path = h :: rest) :
    ∃ rest, ruleText rule = h ++ rest ∧ Ends rest := by
  rcases path_cases path with ⟨alone, _⟩ | ⟨left, found⟩
  · refine ⟨_, ruleText_single alone, ?_⟩
    split
    · exact Or.inr ⟨[], rfl⟩
    · exact Or.inl rfl
  · exact ⟨_, ruleText_behind found, Or.inr ⟨_, rfl⟩⟩

end Text

namespace Level

variable {rules : List (Rule Label)} {rule : Rule Label} {h : Label}

theorem path_iff (level : Level rules) (member : rule ∈ rules) :
    labelOf (ruleText rule) = h ↔ ∃ rest, rule.path = h :: rest := by
  obtain ⟨l, rest, path⟩ := List.exists_cons_of_ne_nil (level.used rule member)
  have good := level.labels rule member l (by simp [path])
  obtain ⟨more, text, ends⟩ := ruleText_ends ⟨rest, path⟩
  rw [text, labelOf_append good.free ends, path]
  simp

theorem below (level : Level rules) (h : Label) : Level (below h rules) := by
  have origin : ∀ left ∈ LongestMatch.below h rules, ∃ rule ∈ rules, rule.behind h = some left :=
    fun left member => List.mem_filterMap.mp member
  refine ⟨?_, ?_, ?_, below_distinct h level.distinct, ?_, ?_⟩
  · intro left member
    obtain ⟨rule, _, found⟩ := origin left member
    exact (behind_some.mp found).2.1
  · intro left member l inPath
    obtain ⟨rule, inRules, found⟩ := origin left member
    apply level.labels rule inRules l
    rw [(behind_some.mp found).1]
    exact List.mem_cons_of_mem h inPath
  · intro left member
    obtain ⟨rule, inRules, found⟩ := origin left member
    rw [(behind_some.mp found).2.2.2]
    exact level.valued rule inRules
  · have lowered : rules.Pairwise fun a b => a ∈ rules ∧ b ∈ rules :=
      List.pairwise_of_forall_mem_list fun a inA b inB => ⟨inA, inB⟩
    apply List.Pairwise.filterMap _ _ (level.sorted.and lowered)
    rintro a b ⟨before, inA, inB⟩ left foundA right foundB
    have textA := ruleText_behind foundA
    have textB := ruleText_behind foundB
    have lowA := lowered_ruleText (level.labels a inA)
    have lowB := lowered_ruleText (level.labels b inB)
    rw [textA, textB] at before
    rw [textA] at lowA
    rw [textB] at lowB
    exact @before_append _ _ (h ++ [dot]) (by simpa using lowA) (by simpa using lowB)
      (by simpa using before)
  · have inside : ∀ text, text ∈ (LongestMatch.below h rules).map ruleText →
        h ++ dot :: text ∈ rules.map ruleText := by
      intro text member
      obtain ⟨left, inBelow, rfl⟩ := List.mem_map.mp member
      obtain ⟨rule, inRules, found⟩ := origin left inBelow
      exact List.mem_map.mpr ⟨rule, inRules, ruleText_behind found⟩
    intro w s y t first second third
    apply level.untorn (h ++ dot :: w) s y t (inside w first)
    · simpa using inside _ second
    · simpa using inside _ third

theorem lowered (level : Level rules) : ∀ name ∈ rules.map storedKey, Lowered name.key := by
  intro name member
  obtain ⟨rule, inRules, rfl⟩ := List.mem_map.mp member
  exact lowered_ruleText (level.labels rule inRules)

theorem clustered (level : Level rules) :
    Clustered sameLabel (fun name => labelOf name.key) (rules.map storedKey) := by
  apply clustered_of_sorted level.lowered
  · exact List.pairwise_map.mpr level.sorted
  · rw [List.map_map]
    exact level.untorn

end Level

/-- A run holds the rules of one label, and only the first can stand for that label alone. -/
structure RunOf (rules : List (Rule Label)) (h : Label) (first : Rule Label)
    (others : List (Rule Label)) : Prop where
  member : first ∈ rules
  path : ∃ rest, first.path = h :: rest
  deeper : ∀ rule ∈ others, ∃ left, rule.behind h = some left
  below : below h rules = (first :: others).filterMap (Rule.behind h)
  alone : ∀ rule ∈ rules, rule.path = [h] → rule = first

section Run

variable {rules others : List (Rule Label)} {first : Rule Label} {h : Label}

/-- A later rule of the run is not its label alone: that text would sort in front. -/
theorem Level.later_deeper (level : Level rules) {rule : Rule Label} (inFirst : first ∈ rules)
    (inRules : rule ∈ rules) (before : Before (ruleText first) (ruleText rule))
    (pathFirst : ∃ rest, first.path = h :: rest) (path : ∃ rest, rule.path = h :: rest) :
    ∃ left, rule.behind h = some left := by
  have lowFirst := lowered_ruleText (level.labels first inFirst)
  have lowRule := lowered_ruleText (level.labels rule inRules)
  rcases path_cases path with ⟨alone, _⟩ | found
  · exfalso
    have text := ruleText_single alone
    rcases path_cases pathFirst with ⟨alsoAlone, _⟩ | ⟨left, found⟩
    · have same : first = rule := List.inj_on_of_nodup_map level.distinct inFirst inRules
        (alsoAlone.trans alone.symm)
      rw [same] at before
      exact before_irrefl lowRule before
    · rw [text, ruleText_behind found] at before
      rw [ruleText_behind found] at lowFirst
      rw [text] at lowRule
      have rest := before_append lowFirst lowRule before
      have lowRest : Lowered (dot :: ruleText left) := fun c inside =>
        lowFirst c (List.mem_append_right h inside)
      split at rest
      · have last := @before_append (ruleText left) [] [dot] lowRest lowered_dot rest
        exact not_before_nil lowRest.tail last
      · exact not_before_nil lowRest rest
  · exact found

theorem Level.run_of (level : Level rules) {group : HashKey × List HashKey}
    (member : group ∈ runs sameLabel (rules.map storedKey)) :
    ∃ first others, group = (storedKey first, others.map storedKey) ∧
      RunOf rules (labelOf group.1.key) first others := by
  have whole := (runs_spec level.clustered).2 group member
  generalize labelOf group.1.key = h at whole ⊢
  rw [List.filter_map, eq_comm, List.map_eq_cons_iff] at whole
  obtain ⟨first, others, selected, firstKey, otherKeys⟩ := whole
  have inside : ∀ rule ∈ first :: others, rule ∈ rules ∧ ∃ rest, rule.path = h :: rest := by
    intro rule inSelected
    rw [← selected, List.mem_filter] at inSelected
    have label : labelOf (ruleText rule) = h := of_decide_eq_true inSelected.2
    exact ⟨inSelected.1, (level.path_iff inSelected.1).mp label⟩
  have order : (first :: others).Pairwise fun a b => Before (ruleText a) (ruleText b) := by
    rw [← selected]
    exact level.sorted.sublist List.filter_sublist
  have inFirst := inside first List.mem_cons_self
  have deeper : ∀ rule ∈ others, ∃ left, rule.behind h = some left := by
    intro rule inOthers
    obtain ⟨inRules, path⟩ := inside rule (List.mem_cons_of_mem first inOthers)
    exact level.later_deeper inFirst.1 inRules ((List.pairwise_cons.mp order).1 rule inOthers)
      inFirst.2 path
  refine ⟨first, others, by rw [firstKey, otherKeys], inFirst.1, inFirst.2, deeper, ?_, ?_⟩
  · rw [← selected, List.filterMap_filter, LongestMatch.below]
    apply List.filterMap_congr
    intro rule inRules
    by_cases label : labelOf (ruleText rule) = h
    · simp [storedKey, label]
    · have none : rule.behind h = none := by
        cases found : rule.behind h with
        | none => rfl
        | some left =>
          exact absurd ((level.path_iff inRules).mpr ⟨_, (behind_some.mp found).1⟩) label
      simp [storedKey, label, none]
  · intro rule inRules path
    have inSelected : rule ∈ first :: others := by
      rw [← selected, List.mem_filter]
      exact ⟨inRules, decide_eq_true ((level.path_iff inRules).mpr ⟨[], path⟩)⟩
    rcases List.mem_cons.mp inSelected with same | inOthers
    · exact same
    · obtain ⟨left, found⟩ := deeper rule inOthers
      rw [Rule.behind, path] at found
      cases found

theorem labelLen_single (free : dot ∉ h) (path : first.path = [h]) :
    (ruleText first).length = labelLen (ruleText first) ∧ (dot ∈ ruleText first ↔ first.ending) := by
  have label : labelOf (ruleText first) = h := by
    obtain ⟨rest, text, ends⟩ := ruleText_ends ⟨[], path⟩
    rw [text, labelOf_append free ends]
  rw [labelLen, label, ruleText_single path]
  split <;> simp_all

theorem labelLen_behind {left : Rule Label} (free : dot ∉ h) (found : first.behind h = some left) :
    dot ∈ ruleText first ∧ labelLen (ruleText first) = h.length + 1 := by
  have text := ruleText_behind found
  have inside : dot ∈ ruleText first := by simp [text]
  refine ⟨inside, ?_⟩
  rw [labelLen, if_pos inside, text, labelOf_append free (Or.inr ⟨_, rfl⟩)]

theorem drop_behind {rule left : Rule Label} (found : rule.behind h = some left) :
    (ruleText rule).drop (h.length + 1) = ruleText left := by
  rw [ruleText_behind found, ← List.drop_drop, List.drop_left]
  rfl

theorem Level.longer_behind (level : Level rules) {left : Rule Label} (member : first ∈ rules)
    (found : first.behind h = some left) : (ruleText first).length ≠ h.length + 1 := by
  have some_text : ruleText left ≠ [] := by
    obtain ⟨path, used, _⟩ := behind_some.mp found
    apply ruleText_ne_nil used
    intro l inside
    apply level.labels first member l
    rw [path]
    exact List.mem_cons_of_mem h inside
  rw [ruleText_behind found, List.length_append, List.length_cons]
  have := List.length_pos_of_ne_nil some_text
  omega

theorem RunOf.nextNames_eq (level : Level rules) (free : dot ∉ h)
    (run : RunOf rules h first others) :
    nextNames (storedKey first) (others.map storedKey) =
      (LongestMatch.below h rules).map storedKey := by
  have label : labelOf (ruleText first) = h := (level.path_iff run.member).mpr run.path
  have rest : (others.map storedKey).map
      (fun name => (⟨name.key.drop (h.length + 1), false, 0, name.value⟩ : HashKey)) =
      (others.filterMap (Rule.behind h)).map storedKey := by
    have deeper := run.deeper
    clear run
    induction others with
    | nil => rfl
    | cons rule others ih =>
      obtain ⟨left, found⟩ := deeper rule List.mem_cons_self
      rw [List.map_cons, List.map_cons, List.filterMap_cons, found, List.map_cons,
        ih fun other member => deeper other (List.mem_cons_of_mem rule member)]
      simp only [storedKey, drop_behind found, (behind_some.mp found).2.2.2]
  rw [run.below, nextNames, List.filterMap_cons]
  simp only [show (storedKey first).key = ruleText first from rfl, label, rest]
  rcases path_cases run.path with ⟨alone, none⟩ | ⟨left, found⟩
  · rw [if_neg (not_not.mpr (labelLen_single free alone).1), none, List.nil_append]
  · obtain ⟨_, len⟩ := labelLen_behind free found
    rw [len, if_pos (level.longer_behind run.member found), found, drop_behind found, List.map_cons, List.singleton_append]
    simp only [storedKey, (behind_some.mp found).2.2.2]

end Run

end NgxFormal.Core.Hash
