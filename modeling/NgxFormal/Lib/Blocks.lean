import Mathlib.Algebra.Order.Ring.Int
import Mathlib.Data.List.Basic

/-! A text that is taken block by block. -/

namespace NgxFormal.Lib.Blocks

variable {σ α : Type} (n : Nat) (f : σ → List α → σ)

/-- The state after the first `k` blocks of `n` elements. -/
def absorb : Nat → σ → List α → σ
  | 0, s, _ => s
  | k + 1, s, text => absorb k (f s (text.take n)) (text.drop n)

variable {n f} {j k : Nat} {s : σ} {text more : List α}

theorem absorb_add : absorb n f (j + k) s text = absorb n f k (absorb n f j s text) (text.drop (j * n)) := by
  induction j generalizing s text with
  | zero => rw [Nat.zero_add, Nat.zero_mul, List.drop_zero, absorb]
  | succ j ih => rw [Nat.succ_add, absorb, ih, absorb, List.drop_drop, Nat.succ_mul, Nat.add_comm]

/-- What stands behind the blocks does not matter. -/
theorem absorb_append (enough : k * n ≤ text.length) :
    absorb n f k s (text ++ more) = absorb n f k s text := by
  induction k generalizing s text with
  | zero => rfl
  | succ k ih =>
    rw [Nat.succ_mul] at enough
    rw [absorb, absorb, List.take_append_of_le_length (by omega),
      List.drop_append_of_le_length (by omega), ih]
    rw [List.length_drop]
    omega

end NgxFormal.Lib.Blocks
