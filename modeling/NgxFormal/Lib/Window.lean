import Mathlib.Algebra.Order.Ring.Int
import Mathlib.Data.List.Nodup
import Mathlib.Data.List.Range

/-! Memory as a function on addresses: the window between two addresses, and a store that
overwrites a stretch. -/

namespace NgxFormal.Lib.Window

variable {α : Type} {mem mem' : Nat → α} {pos mid last start : Nat} {bytes : List α}

/-- The cells from `pos` up to `last`. -/
def window (mem : Nat → α) (pos last : Nat) : List α := (List.range' pos (last - pos)).map mem

/-- The memory after `bytes` are written from `start` on. -/
def store (mem : Nat → α) (start : Nat) (bytes : List α) : Nat → α := fun i =>
  if i < start then mem i else bytes[i - start]?.getD (mem i)

@[simp] theorem window_length : (window mem pos last).length = last - pos := by
  rw [window, List.length_map, List.length_range']

theorem window_empty (empty : last ≤ pos) : window mem pos last = [] := by
  rw [← List.length_eq_zero_iff, window_length]
  omega

theorem window_append (first : pos ≤ mid) (second : mid ≤ last) :
    window mem pos mid ++ window mem mid last = window mem pos last := by
  have middle : mid = pos + (mid - pos) := by omega
  have length : last - pos = mid - pos + (last - mid) := by omega
  rw [window, window, window, ← List.map_append, length, ← List.range'_append_1, ← middle]

theorem window_cons (room : pos < last) :
    window mem pos last = mem pos :: window mem (pos + 1) last := by
  have length : last - pos = last - (pos + 1) + 1 := by omega
  rw [window, window, length, List.range'_succ, List.map_cons]

theorem window_congr (same : ∀ i, pos ≤ i → i < last → mem i = mem' i) :
    window mem pos last = window mem' pos last := by
  rw [window, window]
  apply List.map_congr_left
  intro i inside
  have bounds := List.mem_range'_1.mp inside
  exact same i bounds.1 (by omega)

theorem store_outside {i : Nat} (outside : i < start ∨ start + bytes.length ≤ i) :
    store mem start bytes i = mem i := by
  rw [store]
  rcases outside with before | after
  · rw [if_pos before]
  · rw [if_neg (by omega), List.getElem?_eq_none (by omega)]
    rfl

theorem window_store : window (store mem start bytes) start (start + bytes.length) = bytes := by
  apply List.ext_getElem
  · rw [window_length]
    omega
  · intro i inside inside'
    simp only [window, List.getElem_map, List.getElem_range', Nat.one_mul, store]
    rw [if_neg (by omega), Nat.add_sub_cancel_left, List.getElem?_eq_getElem inside']
    rfl

theorem window_store_outside (apart : last ≤ start ∨ start + bytes.length ≤ pos) :
    window (store mem start bytes) pos last = window mem pos last := by
  apply window_congr
  intro i above below
  apply store_outside
  omega

theorem store_empty : store mem start [] = mem := by
  funext i
  apply store_outside
  exact (Nat.lt_or_ge i start).imp_right fun above => above

theorem store_append {more : List α} :
    store (store mem start bytes) (start + bytes.length) more = store mem start (bytes ++ more) := by
  funext i
  by_cases before : i < start + bytes.length
  · rw [store_outside (Or.inl before), store, store]
    split
    · rfl
    · rw [List.getElem?_append_left (by omega)]
  · have offset : i - start - bytes.length = i - (start + bytes.length) := by omega
    rw [store, if_neg before, store_outside (Or.inr (by omega)), store, if_neg (by omega),
      List.getElem?_append_right (by omega), offset]

theorem window_take {n : Nat} (inside : pos + n ≤ last) :
    (window mem pos last).take n = window mem pos (pos + n) := by
  rw [← window_append (Nat.le_add_right pos n) inside]
  apply List.take_left'
  rw [window_length]
  omega

theorem window_drop {n : Nat} (inside : pos + n ≤ last) :
    (window mem pos last).drop n = window mem (pos + n) last := by
  rw [← window_append (Nat.le_add_right pos n) inside]
  apply List.drop_left'
  rw [window_length]
  omega

end NgxFormal.Lib.Window

/-! A walk of a function: the places that it visits in front of the one where it stops. -/

namespace NgxFormal.Lib

variable {α : Type} {stops : α → Prop} {next : α → α}

/-- From `a` over the places of the list to the place where the walk stops. -/
inductive Walk (stops : α → Prop) (next : α → α) : α → List α → α → Prop
  | done {a : α} (here : stops a) : Walk stops next a [] a
  | step {a b : α} {steps : List α} (onward : ¬stops a) (rest : Walk stops next (next a) steps b) :
      Walk stops next a (a :: steps) b

namespace Walk

variable {a b c : α} {steps others : List α}

theorem onward (walk : Walk stops next a steps b) : ∀ q ∈ steps, ¬stops q := by
  induction walk with
  | done => exact fun q member => (List.not_mem_nil member).elim
  | step onward _ ih => exact List.forall_mem_cons.mpr ⟨onward, ih⟩

theorem unique (walk : Walk stops next a steps b) (other : Walk stops next a others c) :
    others = steps ∧ c = b := by
  induction walk generalizing others with
  | done here =>
    cases other with
    | done => exact ⟨rfl, rfl⟩
    | step onward _ => exact (onward here).elim
  | step onward _ ih =>
    cases other with
    | done here => exact (onward here).elim
    | step _ rest =>
      obtain ⟨rfl, rfl⟩ := ih rest
      exact ⟨rfl, rfl⟩

theorem within (bound : α → Prop) (walk : Walk stops next a steps b) (start : bound a)
    (kept : ∀ q ∈ steps, bound (next q)) : (∀ q ∈ steps, bound q) ∧ bound b := by
  induction walk with
  | done => exact ⟨fun q member => (List.not_mem_nil member).elim, start⟩
  | step _ _ ih =>
    obtain ⟨first, rest⟩ := List.forall_mem_cons.mp kept
    obtain ⟨visited, stopped⟩ := ih first rest
    exact ⟨List.forall_mem_cons.mpr ⟨start, visited⟩, stopped⟩

end Walk

end NgxFormal.Lib
