import NgxFormal.Http.GeoCidr

/-! The slots the loop of `ngx_http_geo_add_range` visits, and when it returns.

`n = (n + 0x10000) & 0xffff0000` is 0 after the last slot of the address space, and 0 never
exceeds `end`: a range that reaches 255.255.0.0 keeps the loop going from slot 0. -/

namespace NgxFormal.Http.Geo

open Lib

variable {V : Type}

/-- `addLoop` with the list of the slots `h` whose body it ran. -/
def visitLoop (start stop : Nat) (value : V) :
    Nat → Nat → Low V → Option (List Nat × Except Overlaps (Low V))
  | 0, _, _ => none
  | fuel + 1, n, low =>
    if n ≤ stop then
      match addSlot low (n >>> 16) (pieceStart start n) (pieceEnd stop n) value with
      | .ok low' =>
        (visitLoop start stop value fuel (nextSlot n) low').map fun out =>
          (n >>> 16 :: out.1, out.2)
      | .error overlap => some ([n >>> 16], .error overlap)
    else some ([], .ok low)

theorem visitLoop_result (start stop : Nat) (value : V) (fuel n : Nat) (low : Low V) :
    (visitLoop start stop value fuel n low).map Prod.snd =
      addLoop start stop value fuel n low := by
  induction fuel generalizing n low with
  | zero => rfl
  | succ fuel ih =>
    rw [visitLoop, addLoop]
    split
    · cases addSlot low (n >>> 16) (pieceStart start n) (pieceEnd stop n) value with
      | error overlap => rfl
      | ok low' =>
        dsimp only
        rw [← ih, Option.map_map]
        rfl
    · rfl

/-- The slots from `first` to the one of `stop`. -/
def slotsFrom (first stop : Nat) : List Nat := List.range' first (stop >>> 16 + 1 - first)

theorem slotsFrom_cons (first stop : Nat) (le : first ≤ stop >>> 16) :
    slotsFrom first stop = first :: slotsFrom (first + 1) stop := by
  have count : stop >>> 16 + 1 - first = (stop >>> 16 + 1 - (first + 1)) + 1 := by omega
  rw [slotsFrom, slotsFrom, count, List.range'_succ]

theorem slotsFrom_past (first stop : Nat) (past : stop >>> 16 < first) :
    slotsFrom first stop = [] := by
  have count : stop >>> 16 + 1 - first = 0 := by omega
  rw [slotsFrom, count, List.range'_zero]

theorem mem_slotsFrom {first stop h : Nat} :
    h ∈ slotsFrom first stop ↔ first ≤ h ∧ h ≤ stop >>> 16 := by
  rw [slotsFrom, List.mem_range'_1]
  omega

/-- The scan from the end of the slot meets a range that shares an address with `s-e`,
and that neither is `s-e` nor contains it. -/
def Overlapping (s e : Nat) (a : List (GeoRange V)) : Prop :=
  ∃ before range after, a = before ++ range :: after ∧ (∀ later ∈ after, e < later.start) ∧
    range.start ≤ e ∧ s ≤ range.stop ∧ ¬ (range.start ≤ s ∧ e ≤ range.stop)

/-- `Overlapping` for the list in the order of the scan. -/
def Meeting (s e : Nat) (before : List (GeoRange V)) : Prop :=
  ∃ nearer range farther, before = nearer ++ range :: farther ∧
    (∀ later ∈ nearer, e < later.start) ∧
    range.start ≤ e ∧ s ≤ range.stop ∧ ¬ (range.start ≤ s ∧ e ≤ range.stop)

theorem overlapping_iff (s e : Nat) (a : List (GeoRange V)) :
    Overlapping s e a ↔ Meeting s e a.reverse := by
  constructor
  · rintro ⟨before, range, after, rfl, clear, meets⟩
    refine ⟨after.reverse, range, before.reverse, by simp, ?_, meets⟩
    intro later member
    exact clear later (List.mem_reverse.mp member)
  · rintro ⟨nearer, range, farther, split, clear, meets⟩
    refine ⟨farther.reverse, range, nearer.reverse, ?_, ?_, meets⟩
    · rw [← List.reverse_reverse a, split]
      simp
    · intro later member
      exact clear later (List.mem_reverse.mp member)

theorem meeting_nil (s e : Nat) : ¬ Meeting s e ([] : List (GeoRange V)) := by
  rintro ⟨nearer, range, farther, split, _⟩
  simp at split

theorem meeting_cons (s e : Nat) (range : GeoRange V) (before : List (GeoRange V)) :
    Meeting s e (range :: before) ↔
      if e < range.start then Meeting s e before
      else s ≤ range.stop ∧ ¬ (range.start ≤ s ∧ e ≤ range.stop) := by
  split
  · case _ above =>
      constructor
      · rintro ⟨nearer, hit, farther, split, clear, reach, meets⟩
        cases nearer with
        | nil =>
          cases split
          omega
        | cons first nearer =>
          cases split
          exact ⟨nearer, hit, farther, rfl,
            fun later member => clear later (List.mem_cons_of_mem _ member), reach, meets⟩
      · rintro ⟨nearer, hit, farther, rfl, clear, meets⟩
        exact ⟨range :: nearer, hit, farther, rfl, List.forall_mem_cons.mpr ⟨above, clear⟩, meets⟩
  · case _ reach =>
      constructor
      · rintro ⟨nearer, hit, farther, split, clear, _, meets⟩
        cases nearer with
        | nil =>
          cases split
          exact meets
        | cons first nearer =>
          cases split
          exact absurd (clear range List.mem_cons_self) reach
      · intro meets
        exact ⟨[], range, before, rfl, by simp, by omega, meets⟩

theorem scanSlot_error_iff (h s e : Nat) (value : V) (before after : List (GeoRange V)) :
    (∃ overlap, scanSlot h s e value before after = .error overlap) ↔ Meeting s e before := by
  induction before generalizing after with
  | nil => simp [scanSlot, meeting_nil]
  | cons range before ih =>
    rw [scanSlot, meeting_cons]
    by_cases above : e < range.start
    · rw [if_pos above, if_pos above]
      exact ih (range :: after)
    rw [if_neg above, if_neg above]
    split_ifs with below same inside prefixed suffixed
    · simp
      omega
    · simp
      omega
    · simp
      omega
    · simp
      omega
    · simp
      omega
    · simp only [Except.error.injEq, exists_eq', true_iff]
      omega

theorem addSlot_error_iff (low : Low V) (h s e : Nat) (value : V) :
    (∃ overlap, addSlot low h s e value = .error overlap) ↔ Overlapping s e (slotArray low h) := by
  rw [overlapping_iff, ← scanSlot_error_iff h s e value _ [], addSlot, slotArray]
  cases scanSlot h s e value ((low h).getD []).reverse [] with
  | ok a => simp
  | error overlap => simp

/-- A slot of `start-end` in which the piece to be added cuts a range stored there. -/
def Cut (start stop : Nat) (low : Low V) (h : Nat) : Prop :=
  Overlapping (slotStart start h) (slotEnd stop h) (slotArray low h)

/-- The loop returns; it ran the body for the slots of `start-end` in order, once each,
up to the one in which it reports an overlap if there is such a slot. -/
def VisitsEachOnce (low : Low V) (start stop : Nat) (value : V) : Prop :=
  ∃ fuel visits result,
    visitLoop start stop value fuel start low = some (visits, result) ∧
      visits <+: slotsFrom (start >>> 16) stop ∧
      ∀ final, result = .ok final → visits = slotsFrom (start >>> 16) stop

theorem addSlot_piece (start stop n : Nat) (value : V) (low : Low V) (le : start ≤ n)
    (aligned : n = start ∨ n % 65536 = 0) (more : n ≤ stop) :
    (Cut start stop low (n >>> 16) ∧ ∃ overlap,
        addSlot low (n >>> 16) (pieceStart start n) (pieceEnd stop n) value = .error overlap) ∨
      (¬ Cut start stop low (n >>> 16) ∧ ∃ low',
        addSlot low (n >>> 16) (pieceStart start n) (pieceEnd stop n) value = .ok low' ∧
          ∀ h, h ≠ n >>> 16 → low' h = low h) := by
  have cut := addSlot_error_iff low (n >>> 16) (pieceStart start n) (pieceEnd stop n) value
  rw [pieceStart_eq start n le aligned, pieceEnd_eq stop n more] at cut ⊢
  cases added : addSlot low (n >>> 16) (slotStart start (n >>> 16)) (slotEnd stop (n >>> 16))
      value with
  | error overlap => exact Or.inl ⟨cut.mp ⟨overlap, added⟩, overlap, rfl⟩
  | ok low' =>
    refine Or.inr ⟨fun cuts => ?_, low', rfl, ?_⟩
    · obtain ⟨overlap, refused⟩ := cut.mpr cuts
      rw [added] at refused
      cases refused
    · intro h other
      obtain ⟨a, _, rfl⟩ := addSlot_ok added
      exact if_neg other

theorem cut_congr {start stop h : Nat} {low low' : Low V} (same : low' h = low h) :
    Cut start stop low' h ↔ Cut start stop low h := by
  rw [Cut, Cut, slotArray, slotArray, same]

/-- Below 255.255.0.0, or with a cut slot ahead, the loop returns from any iteration:
induction on the number of slots ahead. -/
theorem visitLoop_returns (start stop : Nat) (value : V) (ahead n : Nat) (low : Low V)
    (count : stop >>> 16 - n >>> 16 = ahead) (le : start ≤ n)
    (aligned : n = start ∨ n % 65536 = 0) (more : n ≤ stop) (word : stop < 2 ^ 32)
    (ends : stop < 0xffff0000 ∨ ∃ h, n >>> 16 ≤ h ∧ h ≤ stop >>> 16 ∧ Cut start stop low h) :
    ∃ fuel visits result, visitLoop start stop value fuel n low = some (visits, result) ∧
      visits <+: slotsFrom (n >>> 16) stop ∧
      ∀ final, result = .ok final → visits = slotsFrom (n >>> 16) stop := by
  have here : n >>> 16 ≤ stop >>> 16 := by
    rw [shiftRight_slot, shiftRight_slot]
    omega
  rw [slotsFrom_cons _ _ here]
  induction ahead generalizing n low with
  | zero =>
    rcases addSlot_piece start stop n value low le aligned more with
      ⟨cut, overlap, refused⟩ | ⟨whole, low', added, kept⟩
    · exact ⟨1, [n >>> 16], .error overlap, by simp [visitLoop, more, refused], by simp,
        fun final done => by cases done⟩
    · have low : stop < 0xffff0000 := by
        rcases ends with low | ⟨h, first, last, cut⟩
        · exact low
        · have same : h = n >>> 16 := by omega
          exact absurd (same ▸ cut) whole
      have past : ¬ nextSlot n ≤ stop := by
        rw [nextSlot_eq n (by omega)]
        rw [shiftRight_slot, shiftRight_slot] at count
        omega
      refine ⟨2, [n >>> 16], .ok low', by simp [visitLoop, more, added, past], by simp,
        fun _ _ => ?_⟩
      rw [slotsFrom_past _ _ (by omega)]
  | succ ahead ih =>
    rcases addSlot_piece start stop n value low le aligned more with
      ⟨cut, overlap, refused⟩ | ⟨whole, low', added, kept⟩
    · exact ⟨1, [n >>> 16], .error overlap, by simp [visitLoop, more, refused], by simp,
        fun final done => by cases done⟩
    · have next : nextSlot n = 65536 * (n / 65536 + 1) := by
        rw [shiftRight_slot, shiftRight_slot] at count
        exact nextSlot_eq n (by omega)
      have slot : nextSlot n >>> 16 = n >>> 16 + 1 := by
        rw [next, shiftRight_slot, shiftRight_slot]
        omega
      have inside : nextSlot n ≤ stop := by
        rw [shiftRight_slot, shiftRight_slot] at count
        omega
      have fewer : stop >>> 16 - nextSlot n >>> 16 = ahead := by
        rw [slot, ← Nat.sub_sub, count, Nat.add_sub_cancel]
      have later : start ≤ nextSlot n := by omega
      obtain ⟨fuel, visits, result, returned, prefixed, all⟩ := ih (nextSlot n) low'
        fewer later (Or.inr (by omega)) inside (by
          rcases ends with low | ⟨h, first, last, cut⟩
          · exact Or.inl low
          · have other : h ≠ n >>> 16 := fun same => whole (same ▸ cut)
            exact Or.inr ⟨h, by omega, last, (cut_congr (kept h other)).mpr cut⟩)
        (by omega)
      rw [slot] at prefixed all
      rw [slotsFrom_cons (n >>> 16 + 1) stop (by omega)]
      refine ⟨fuel + 1, n >>> 16 :: visits, result, by simp [visitLoop, more, added, returned],
        List.cons_prefix_cons.mpr ⟨rfl, prefixed⟩, ?_⟩
      intro final done
      rw [all final done]

theorem visitLoop_first {start stop fuel n : Nat} {value : V} {low : Low V} (more : n ≤ stop)
    {visits : List Nat} {result : Except Overlaps (Low V)}
    (returned : visitLoop start stop value fuel n low = some (visits, result)) :
    ∃ rest, visits = n >>> 16 :: rest := by
  cases fuel with
  | zero => cases returned
  | succ fuel =>
    rw [visitLoop, if_pos more] at returned
    cases added : addSlot low (n >>> 16) (pieceStart start n) (pieceEnd stop n) value with
    | error overlap =>
      rw [added] at returned
      cases returned
      exact ⟨[], rfl⟩
    | ok low' =>
      rw [added] at returned
      obtain ⟨out, _, same⟩ := Option.map_eq_some_iff.mp returned
      cases same
      exact ⟨out.1, rfl⟩

theorem visitLoop_whole {start stop fuel n : Nat} {value : V} {low : Low V} (le : start ≤ n)
    (aligned : n = start ∨ n % 65536 = 0) (more : n ≤ stop)
    (whole : ¬ Cut start stop low (n >>> 16)) {visits : List Nat}
    {result : Except Overlaps (Low V)}
    (returned : visitLoop start stop value fuel n low = some (visits, result)) :
    ∃ fuel low' rest,
      addSlot low (n >>> 16) (pieceStart start n) (pieceEnd stop n) value = .ok low' ∧
      (∀ h, h ≠ n >>> 16 → low' h = low h) ∧
      visitLoop start stop value fuel (nextSlot n) low' = some (rest, result) ∧
      visits = n >>> 16 :: rest := by
  cases fuel with
  | zero => cases returned
  | succ fuel =>
    rcases addSlot_piece start stop n value low le aligned more with
      ⟨cut, _⟩ | ⟨_, low', added, kept⟩
    · exact absurd cut whole
    · rw [visitLoop, if_pos more, added] at returned
      obtain ⟨⟨rest, last⟩, went, same⟩ := Option.map_eq_some_iff.mp returned
      cases same
      exact ⟨fuel, low', rest, added, kept, went, rfl⟩

/-- `0xffff0000 + 0x10000` does not fit into 32 bits. -/
theorem nextSlot_last (n : Nat) (top : 0xffff0000 ≤ n) (word : n < 2 ^ 32) : nextSlot n = 0 := by
  have wraps : (n + 0x10000) % 2 ^ 32 = n - 0xffff0000 := by omega
  have cleared := and_high_ones (n - 0xffff0000) 16 32 (by omega) (by decide)
  have quotient : (n - 0xffff0000) / 2 ^ 16 = 0 := by omega
  rw [quotient] at cleared
  rw [nextSlot, wraps]
  exact cleared

theorem visitLoop_wraps (start stop : Nat) (value : V) (ahead n fuel : Nat) (low : Low V)
    (count : stop >>> 16 - n >>> 16 = ahead) (le : start ≤ n)
    (aligned : n = start ∨ n % 65536 = 0) (more : n ≤ stop) (word : stop < 2 ^ 32)
    (top : 0xffff0000 ≤ stop)
    (whole : ∀ h, n >>> 16 ≤ h → h ≤ stop >>> 16 → ¬ Cut start stop low h)
    (visits : List Nat) (result : Except Overlaps (Low V))
    (returned : visitLoop start stop value fuel n low = some (visits, result)) :
    ∃ again, visits = slotsFrom (n >>> 16) stop ++ 0 :: again := by
  have here : n >>> 16 ≤ stop >>> 16 := by
    rw [shiftRight_slot, shiftRight_slot]
    omega
  rw [slotsFrom_cons _ _ here]
  induction ahead generalizing n low fuel visits with
  | zero =>
    obtain ⟨fuel, low', rest, added, _, went, rfl⟩ := visitLoop_whole le aligned more
      (whole _ (le_refl _) here) returned
    have zero : nextSlot n = 0 := by
      rw [shiftRight_slot, shiftRight_slot] at count
      exact nextSlot_last n (by omega) (by omega)
    rw [zero] at went
    obtain ⟨again, rfl⟩ := visitLoop_first (Nat.zero_le stop) went
    rw [slotsFrom_past _ _ (by omega)]
    exact ⟨again, rfl⟩
  | succ ahead ih =>
    obtain ⟨fuel, low', rest, added, kept, went, rfl⟩ := visitLoop_whole le aligned more
      (whole _ (le_refl _) here) returned
    have next : nextSlot n = 65536 * (n / 65536 + 1) := by
      rw [shiftRight_slot, shiftRight_slot] at count
      exact nextSlot_eq n (by omega)
    have slot : nextSlot n >>> 16 = n >>> 16 + 1 := by
      rw [next, shiftRight_slot, shiftRight_slot]
      omega
    have inside : nextSlot n ≤ stop := by
      rw [shiftRight_slot, shiftRight_slot] at count
      omega
    have ahead' : nextSlot n >>> 16 ≤ stop >>> 16 := by omega
    obtain ⟨again, rfl⟩ := ih (nextSlot n) fuel low' (by omega) (by omega)
      (Or.inr (by omega)) inside
      (fun h first last => by
        rw [cut_congr (kept h (by omega))]
        exact whole h (by omega) last)
      rest went ahead'
    rw [slot, slotsFrom_cons (n >>> 16 + 1) stop (by omega)]
    exact ⟨again, rfl⟩

/-- Given `start <= end` below 255.255.255.255, which is all that `ngx_http_geo_range` admits,
the slot loop runs the body once for each slot of the range and returns, or it stops at an
overlap on the way, if and only if the range ends below 255.255.0.0 or such an overlap stops
it. -/
theorem slot_loop_visits_each_once_iff (low : Low V) (start stop : Nat) (value : V)
    (admitted : start ≤ stop ∧ stop < 0xffffffff) :
    VisitsEachOnce low start stop value ↔
      stop < 0xffff0000 ∨ ∃ h ∈ slotsFrom (start >>> 16) stop, Cut start stop low h := by
  have word : stop < 2 ^ 32 := by omega
  constructor
  · rintro ⟨fuel, visits, result, returned, prefixed, _⟩
    by_contra neither
    push Not at neither
    obtain ⟨again, rfl⟩ := visitLoop_wraps start stop value _ start fuel low rfl (le_refl _)
      (Or.inl rfl) admitted.1 word neither.1
      (fun h first last => neither.2 h (mem_slotsFrom.mpr ⟨first, last⟩)) visits result returned
    have longer := prefixed.length_le
    rw [List.length_append, List.length_cons] at longer
    omega
  · intro ends
    apply visitLoop_returns start stop value _ start low rfl (le_refl _) (Or.inl rfl)
      admitted.1 word
    rcases ends with below | ⟨h, member, cut⟩
    · exact Or.inl below
    · have inside := mem_slotsFrom.mp member
      exact Or.inr ⟨h, inside.1, inside.2, cut⟩

/-- 1.0.0.0-1.1.255.255 into an empty table. -/
theorem slot_loop_two_slots :
    ((0x01000000 ≤ 0x0101ffff ∧ 0x0101ffff < 0xffffffff) ∧ 0x0101ffff < 0xffff0000) ∧
      VisitsEachOnce (emptyLow : Low Nat) 0x01000000 0x0101ffff 1 :=
  ⟨by decide, (slot_loop_visits_each_once_iff emptyLow 0x01000000 0x0101ffff 1
    (by decide)).mpr (Or.inl (by decide))⟩

/-- Every slot is `NULL` or holds one range from its first address on, labelled `value`. -/
def OnlyPieces (stop : Nat) (value : V) (low : Low V) : Prop :=
  ∀ h, low h = none ∨ low h = some [⟨0, slotEnd stop h, value⟩]

theorem pieceStart_boundary (start n : Nat) (boundary : start % 65536 = 0) :
    pieceStart start n = 0 := by
  rw [pieceStart, and_slot]
  split <;> omega

theorem onlyPieces_addSlot (start stop n : Nat) (value : V) (low : Low V)
    (boundary : start % 65536 = 0) (more : n ≤ stop) (pieces : OnlyPieces stop value low) :
    ∃ low', addSlot low (n >>> 16) (pieceStart start n) (pieceEnd stop n) value = .ok low' ∧
      OnlyPieces stop value low' := by
  have top := slotEnd_le stop (n >>> 16)
  refine ⟨fun slot => if slot = n >>> 16 then some [⟨0, slotEnd stop (n >>> 16), value⟩]
    else low slot, ?_, ?_⟩
  · rw [pieceStart_boundary start n boundary, pieceEnd_eq stop n more, addSlot]
    rcases pieces (n >>> 16) with empty | filled
    · rw [empty]
      simp [scanSlot, uShort_of_le top, uShort_of_le]
    · rw [filled]
      simp [scanSlot]
  · intro h
    dsimp only
    split
    · case _ here => exact Or.inr (by rw [here])
    · exact pieces h

/-- A range from a slot's first address up to 255.255.0.0 or above never leaves the loop. -/
theorem addLoop_forever (start stop fuel n : Nat) (value : V) (low : Low V)
    (boundary : start % 65536 = 0) (top : 0xffff0000 ≤ stop) (more : n ≤ stop)
    (word : stop < 2 ^ 32) (pieces : OnlyPieces stop value low) :
    addLoop start stop value fuel n low = none := by
  induction fuel generalizing n low with
  | zero => rfl
  | succ fuel ih =>
    obtain ⟨low', added, kept⟩ := onlyPieces_addSlot start stop n value low boundary more pieces
    have next : nextSlot n ≤ stop := by
      by_cases last : 0xffff0000 ≤ n
      · rw [nextSlot_last n last (by omega)]
        exact Nat.zero_le stop
      · rw [nextSlot_eq n (by omega)]
        omega
    rw [addLoop, if_pos more, added]
    exact ih (nextSlot n) low' next kept

/-- 255.0.0.0-255.255.255.254 into an empty table: no number of iterations is enough. -/
theorem slot_loop_top_of_space :
    (0xff000000 ≤ 0xfffffffe ∧ 0xfffffffe < 0xffffffff) ∧
      (∀ fuel, addLoop 0xff000000 0xfffffffe 1 fuel 0xff000000 (emptyLow : Low Nat) = none) ∧
      ¬ VisitsEachOnce (emptyLow : Low Nat) 0xff000000 0xfffffffe 1 := by
  have forever (fuel : Nat) :
      addLoop 0xff000000 0xfffffffe 1 fuel 0xff000000 (emptyLow : Low Nat) = none :=
    addLoop_forever _ _ fuel _ 1 emptyLow (by decide) (by decide) (by decide) (by decide)
      (fun _ => Or.inl rfl)
  refine ⟨by decide, forever, ?_⟩
  rintro ⟨fuel, visits, result, returned, _⟩
  have result := visitLoop_result 0xff000000 0xfffffffe 1 fuel 0xff000000 (emptyLow : Low Nat)
  rw [returned, forever] at result
  cases result

end NgxFormal.Http.Geo
