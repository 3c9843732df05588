import Mathlib.Algebra.Order.Ring.Int
import Mathlib.Data.List.Infix
import Mathlib.Data.List.Lex
import Mathlib.Data.List.Pairwise
import Mathlib.Data.List.Perm.Basic
import Mathlib.Data.Nat.Bitwise

/-! Bitmaps as sequences of words of 64 bits: full ones, and bits behind a reserved front. -/

namespace NgxFormal.Lib.Bitmap

/-- Bit `c` of a bitmap. -/
def bit (words : Nat → BitVec 64) (c : Nat) : Bool := (words (c / 64)).getLsbD (c % 64)

variable {w mask : BitVec 64} {words : Nat → BitVec 64} {m n k c b : Nat}

theorem eq_allOnes_iff : w = BitVec.allOnes 64 ↔ ∀ i < 64, w.getLsbD i = true := by
  constructor
  · rintro rfl i inside
    rw [BitVec.getLsbD_allOnes, decide_eq_true inside]
  · intro all
    apply BitVec.eq_of_getLsbD_eq
    intro i inside
    rw [all i inside, BitVec.getLsbD_allOnes, decide_eq_true inside]

theorem ne_zero_iff : w ≠ 0 ↔ ∃ i < 64, w.getLsbD i = true := by
  constructor
  · intro notZero
    by_contra none
    apply notZero
    apply BitVec.eq_of_getLsbD_eq
    intro i inside
    by_contra differ
    exact none ⟨i, inside, by simpa using differ⟩
  · rintro ⟨i, _, set⟩ rfl
    simp at set

theorem bit_word (small : b < 64) : bit words (n * 64 + b) = (words n).getLsbD b := by
  rw [bit, show (n * 64 + b) / 64 = n by omega, show (n * 64 + b) % 64 = b by omega]

theorem bit_first (small : b < 64) : bit words b = (words 0).getLsbD b := by
  rw [bit, Nat.div_eq_of_lt small, Nat.mod_eq_of_lt small]

theorem word_of_clear (clear : bit words c = false) : words (c / 64) ≠ BitVec.allOnes 64 := by
  intro full
  rw [bit, eq_allOnes_iff.mp full _ (Nat.mod_lt _ (by decide))] at clear
  cases clear

theorem full_iff :
    (∀ c < 64 * m, bit words c = true) ↔ ∀ k < m, words k = BitVec.allOnes 64 := by
  constructor
  · intro all k within
    rw [eq_allOnes_iff]
    intro b small
    rw [← bit_word small]
    exact all _ (by omega)
  · intro all c inside
    exact eq_allOnes_iff.mp (all (c / 64) (by omega)) _ (Nat.mod_lt _ (by decide))

theorem full_from (within : n < m) (before : ∀ k < n, words k = BitVec.allOnes 64) :
    (words n = BitVec.allOnes 64 ∧ ∀ k < m, n < k → words k = BitVec.allOnes 64) ↔
      ∀ c < 64 * m, bit words c = true := by
  rw [full_iff]
  constructor
  · rintro ⟨here, behind⟩ k inside
    rcases Nat.lt_trichotomy k n with low | same | high
    · exact before k low
    · rw [same]
      exact here
    · exact behind k inside high
  · intro all
    exact ⟨all n within, fun k inside _ => all k inside⟩

theorem behind_iff (isMask : ∀ b < 64, mask.getLsbD b = decide (n ≤ b)) (short : n ≤ 64)
    (some_words : 1 ≤ m) : (∃ c < 64 * m, n ≤ c ∧ bit words c = true) ↔
      words 0 &&& mask ≠ 0 ∨ ∃ k < m, 1 ≤ k ∧ words k ≠ 0 := by
  simp only [ne_zero_iff]
  constructor
  · rintro ⟨c, inside, free, set⟩
    by_cases first : c < 64
    · refine Or.inl ⟨c, first, ?_⟩
      rw [bit_first first] at set
      rw [BitVec.getLsbD_and, isMask c first, set]
      simpa using free
    · exact Or.inr ⟨c / 64, by omega, by omega, c % 64, Nat.mod_lt _ (by decide), set⟩
  · rintro (⟨b, small, set⟩ | ⟨k, inside, later, b, small, set⟩)
    · rw [BitVec.getLsbD_and, isMask b small, Bool.and_eq_true, decide_eq_true_eq] at set
      exact ⟨b, by omega, set.2, by rw [bit_first small, set.1]⟩
    · exact ⟨k * 64 + b, by omega, by omega, by rw [bit_word small, set]⟩

end NgxFormal.Lib.Bitmap

/-! Masks of the form `2^k - 1` and their complements, in terms of quotient and remainder. -/

namespace NgxFormal.Lib

theorem or_low_ones (n k : Nat) : n ||| (2 ^ k - 1) = 2 ^ k * (n / 2 ^ k) + (2 ^ k - 1) := by
  have positive : 0 < 2 ^ k := Nat.two_pow_pos k
  have ones : 2 ^ k - 1 < 2 ^ k := by omega
  have low : n % 2 ^ k ||| (2 ^ k - 1) = 2 ^ k - 1 := by
    apply Nat.le_antisymm
    · have := Nat.or_lt_two_pow (Nat.mod_lt n positive) ones
      omega
    · exact Nat.right_le_or
  calc
    n ||| (2 ^ k - 1) = (2 ^ k * (n / 2 ^ k) + n % 2 ^ k) ||| (2 ^ k - 1) := by
      rw [Nat.div_add_mod]
    _ = 2 ^ k * (n / 2 ^ k) ||| (n % 2 ^ k ||| (2 ^ k - 1)) := by
      rw [Nat.two_pow_add_eq_or_of_lt (Nat.mod_lt n positive), Nat.or_assoc]
    _ = 2 ^ k * (n / 2 ^ k) + (2 ^ k - 1) := by
      rw [low, ← Nat.two_pow_add_eq_or_of_lt ones]

theorem and_high_ones (n k m : Nat) (small : n < 2 ^ m) (le : k ≤ m) :
    n &&& (2 ^ m - 2 ^ k) = 2 ^ k * (n / 2 ^ k) := by
  apply Nat.eq_of_testBit_eq
  intro i
  have mask : 2 ^ m - 2 ^ k = 2 ^ k * (2 ^ (m - k) - 1) := by
    rw [Nat.mul_sub, ← Nat.pow_add, Nat.mul_one]
    congr 2
    omega
  rw [Nat.testBit_and, mask, Nat.testBit_two_pow_mul, Nat.testBit_two_pow_mul,
    Nat.testBit_two_pow_sub_one, Nat.testBit_div_two_pow]
  by_cases low : k ≤ i
  · have shift : i - k + k = i := by omega
    by_cases high : i < m
    · have inside : i - k < m - k := by omega
      simp [low, inside, shift]
    · have zero : n.testBit i = false :=
        Nat.testBit_lt_two_pow (lt_of_lt_of_le small (Nat.pow_le_pow_right (by decide) (by omega)))
      simp [low, zero, shift]
  · simp [low]

end NgxFormal.Lib

/-! Words in lexicographic order, where a prefix stands before what extends it, and the part of a
sorted list of words in which a search by halves ends up. -/

namespace NgxFormal.Lib.Words

variable {α : Type} [LinearOrder α] {u v w x y : List α}

theorem lt_cons_iff {a b : α} : a :: u < b :: v ↔ a < b ∨ (a = b ∧ u < v) :=
  List.cons_lt_cons_iff

theorem le_of_beginning (start : u <+: v) : u ≤ v := by
  induction u generalizing v with
  | nil => exact not_lt.mp (List.not_lt_nil v)
  | cons a u ih =>
    obtain ⟨rest, rfl⟩ := start
    apply not_lt.mp
    intro less
    rcases lt_cons_iff.mp less with first | ⟨_, later⟩
    · exact lt_irrefl a first
    · exact not_lt.mpr (ih (List.prefix_append u rest)) later

theorem lt_of_beginning (start : u <+: v) (differ : u ≠ v) : u < v :=
  lt_of_le_of_ne (le_of_beginning start) differ

theorem lt_of_parting (less : u < v) (part : ¬u <+: v) (longer : u <+: x) (other : v <+: y) :
    x < y := by
  induction u generalizing v x y with
  | nil => exact absurd List.nil_prefix part
  | cons a u ih =>
    cases v with
    | nil => exact absurd less (List.not_lt_nil _)
    | cons b v =>
      obtain ⟨more, rfl⟩ := longer
      obtain ⟨rest, rfl⟩ := other
      rw [List.cons_append, List.cons_append, lt_cons_iff]
      rcases lt_cons_iff.mp less with first | ⟨rfl, later⟩
      · exact Or.inl first
      · refine Or.inr ⟨rfl, ih later ?_ (List.prefix_append ..) (List.prefix_append ..)⟩
        intro start
        exact part ((List.cons_prefix_cons).mpr ⟨rfl, start⟩)

theorem prefix_of_both (first : u <+: w) (second : v <+: w) (le : u ≤ v) : u <+: v := by
  by_contra part
  have less : u < v := lt_of_le_of_ne le fun same => part (same ▸ List.prefix_rfl)
  exact lt_irrefl w (lt_of_parting less part first second)

theorem append_lt_append (w : List α) : w ++ u < w ++ v ↔ u < v := by
  induction w with
  | nil => rfl
  | cons a w ih =>
    rw [List.cons_append, List.cons_append, lt_cons_iff, ih]
    simp

theorem prefix_of_between (start : u <+: w) (low : u ≤ v) (high : v ≤ w) : u <+: v := by
  by_contra part
  have less : u < v := lt_of_le_of_ne low fun same => part (same ▸ List.prefix_rfl)
  exact not_lt.mpr high (lt_of_parting less part start List.prefix_rfl)

section Halves

/-- The search by halves for `target` passes a word before it that begins with `start`. -/
def hiddenLoop (start target : List α) : Nat → List (List α) → Bool
  | 0, _ => false
  | fuel + 1, words =>
    match words.drop (words.length / 2) with
    | [] => false
    | middle :: after =>
      if target = middle then false
      else if target < middle then hiddenLoop start target fuel (words.take (words.length / 2))
      else start.isPrefixOf middle || hiddenLoop start target fuel after

def hidden (start target : List α) (words : List (List α)) : Bool :=
  hiddenLoop start target words.length words

variable {start target middle : List α} {words before after : List (List α)}

theorem hiddenLoop_nil (fuel : Nat) : hiddenLoop start target fuel [] = false := by
  cases fuel with
  | zero => rfl
  | succ fuel => simp [hiddenLoop]

theorem hiddenLoop_fuel {fuel fuel' : Nat} (enough : words.length ≤ fuel)
    (enough' : words.length ≤ fuel') :
    hiddenLoop start target fuel words = hiddenLoop start target fuel' words := by
  induction fuel generalizing fuel' words with
  | zero =>
    rw [List.length_eq_zero_iff.mp (Nat.le_zero.mp enough), hiddenLoop_nil, hiddenLoop_nil]
  | succ fuel ih =>
    cases fuel' with
    | zero =>
      rw [List.length_eq_zero_iff.mp (Nat.le_zero.mp enough'), hiddenLoop_nil, hiddenLoop_nil]
    | succ fuel' =>
      rw [hiddenLoop, hiddenLoop]
      cases half : words.drop (words.length / 2) with
      | nil => rfl
      | cons middle after =>
        have tail := congrArg List.length half
        rw [List.length_drop, List.length_cons] at tail
        have head : (words.take (words.length / 2)).length = words.length / 2 := by
          rw [List.length_take]
          omega
        dsimp only
        rw [ih (by omega) (by omega : _ ≤ fuel'), ih (by omega) (by omega : _ ≤ fuel')]

theorem hidden_split (balanced : before.length = (before.length + (after.length + 1)) / 2) :
    hidden start target (before ++ middle :: after) =
      if target = middle then false
      else if target < middle then hidden start target before
      else start.isPrefixOf middle || hidden start target after := by
  have half : (before ++ middle :: after).length / 2 = before.length := by
    rw [List.length_append, List.length_cons]
    exact balanced.symm
  have long : (before ++ middle :: after).length = before.length + after.length + 1 := by
    rw [List.length_append, List.length_cons]
    omega
  have step : hidden start target (before ++ middle :: after) =
      hiddenLoop start target (before.length + after.length + 1) (before ++ middle :: after) := by
    rw [hidden, long]
  rw [step, hiddenLoop, half, List.drop_left, List.take_left]
  dsimp only
  rw [hidden, hidden, hiddenLoop_fuel (Nat.le_add_right _ after.length) le_rfl,
    hiddenLoop_fuel (Nat.le_add_left _ before.length) le_rfl]

end Halves

end NgxFormal.Lib.Words
