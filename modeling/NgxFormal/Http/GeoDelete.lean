import NgxFormal.Http.GeoVisits

/-! `ngx_http_geo_delete_range`, and when it takes an added range out of the table.

The slots are stepped through by `n += 0x10000` here, which keeps the low half of `start`; a
range whose end lies lower in its slot than its start does never gets to its last slot. -/

namespace NgxFormal.Http.Geo

open Lib

variable {V : Type}

/-- The loop over the array of one slot, and whether it sets `warn`. -/
def deleteSlot (s e : Nat) : List (GeoRange V) → List (GeoRange V) × Bool
  | [] => ([], false)
  | range :: rest =>
    if s = range.start ∧ e = range.stop then (rest, false)
    else
      let out := deleteSlot s e rest
      if s ≠ range.start ∧ e ≠ range.stop then (range :: out.1, out.2)
      else (range :: out.1, true)

/-- The loop over the slots. `none` means that it is still running when the fuel is spent. -/
def deleteLoop (start stop : Nat) : Nat → Nat → Low V → Bool → Option (Low V × Bool)
  | 0, _, _, _ => none
  | fuel + 1, n, low, warn =>
    if n ≤ stop then
      let h := n >>> 16
      match low h with
      | none => deleteLoop start stop fuel ((n + 0x10000) % 2 ^ 32) low true
      | some a =>
        let out := deleteSlot (pieceStart start n) (pieceEnd stop n) a
        deleteLoop start stop fuel ((n + 0x10000) % 2 ^ 32)
          (fun slot => if slot = h then some out.1 else low slot) (warn || out.2)
    else some (low, warn)

/-- The table and the returned `warn`. -/
def ngxHttpGeoDeleteRange (low : Low V) (start stop : Nat) : Option (Low V × Bool) :=
  deleteLoop start stop slotFuel start low false

/-- The directives of a `ranges` block that passed `ngx_http_geo_range`. -/
inductive Directive (V : Type) where
  | add (range : RangeDirective V)
  | delete (start stop : Nat) (ordered : start ≤ stop)

/-- One directive; `none` when the configuration is refused, or the slot loop does not end. -/
def perform (low : Low V) : Directive V → Option (Low V)
  | .add range => accept low range
  | .delete start stop _ => (ngxHttpGeoDeleteRange low start stop).map Prod.fst

/-- The piece of a range in slot `h`, as `ngx_http_geo_add_range` stores it. -/
def piece (range : RangeDirective V) (h : Nat) : GeoRange V :=
  ⟨slotStart range.start h, slotEnd range.stop h, range.value⟩

/-- The range is stored in every slot it spans, as it was added. -/
def Present (low : Low V) (range : RangeDirective V) : Prop :=
  ∀ h ∈ slotsFrom (range.start >>> 16) range.stop, ∃ a, low h = some a ∧ piece range h ∈ a

/-- What `delete` is to do with a range: it returns no warning, takes the piece of the range out
of each slot and leaves the rest, and the finished table has the default for its addresses. -/
def Deleted (low : Low V) (range : RangeDirective V) : Prop :=
  ∃ low', ngxHttpGeoDeleteRange low range.start range.stop = some (low', false) ∧
    (∀ h ∈ slotsFrom (range.start >>> 16) range.stop, ∃ before after,
      low h = some (before ++ piece range h :: after) ∧ low' h = some (before ++ after)) ∧
    (∀ h, h ∉ slotsFrom (range.start >>> 16) range.stop → low' h = low h) ∧
    ∀ (defaultValue : V) (addr : Nat), range.start ≤ addr → addr ≤ range.stop →
      ngxHttpGeoRangeVariable (ngxHttpGeoBlock low') defaultValue addr = some defaultValue

/-- In slot `h` there are other ranges, and none of them has an address of the piece. -/
def Apart (low : Low V) (range : RangeDirective V) (h : Nat) : Prop :=
  ∃ before after, low h = some (before ++ piece range h :: after) ∧ before ++ after ≠ [] ∧
    ∀ other ∈ before ++ after, ∀ x, (piece range h).start ≤ x → x ≤ (piece range h).stop →
      ¬ (other.start ≤ x ∧ x ≤ other.stop)

/-- Every stored range has an address. -/
def Proper (low : Low V) : Prop :=
  ∀ h a, low h = some a → ∀ range ∈ a, range.start ≤ range.stop ∧ range.stop ≤ 0xffff

section Slots

variable {s e : Nat} {a before after : List (GeoRange V)} {range : GeoRange V}

theorem deleteSlot_subset : ∀ other ∈ (deleteSlot s e a).1, other ∈ a := by
  induction a with
  | nil => simp [deleteSlot]
  | cons first rest ih =>
    intro other member
    rw [deleteSlot] at member
    dsimp only at member
    split_ifs at member with hit apart
    · exact List.mem_cons_of_mem first member
    · rcases List.mem_cons.mp member with rfl | later
      · exact List.mem_cons_self
      · exact List.mem_cons_of_mem first (ih other later)
    · rcases List.mem_cons.mp member with rfl | later
      · exact List.mem_cons_self
      · exact List.mem_cons_of_mem first (ih other later)

theorem deleteSlot_apart (start : s = range.start) (stop : e = range.stop)
    (clear : ∀ other ∈ before, s ≠ other.start ∧ e ≠ other.stop) :
    deleteSlot s e (before ++ range :: after) = (before ++ after, false) := by
  induction before with
  | nil => rw [List.nil_append, deleteSlot, if_pos ⟨start, stop⟩, List.nil_append]
  | cons first rest ih =>
    have here := clear first List.mem_cons_self
    rw [List.cons_append, deleteSlot, if_neg (fun both => here.1 both.1),
      ih fun other member => clear other (List.mem_cons_of_mem first member)]
    dsimp only
    rw [if_pos here, List.cons_append]

end Slots

/-- `delete` gets to slot `h`. -/
def Visited (start stop h : Nat) : Prop :=
  start >>> 16 ≤ h ∧ 65536 * h + start % 65536 ≤ stop

instance (start stop h : Nat) : Decidable (Visited start stop h) :=
  inferInstanceAs (Decidable (_ ∧ _))

/-- What the visit of slot `h` makes of it. -/
def slotDeleted (start stop h : Nat) (slot : Option (List (GeoRange V))) :
    Option (List (GeoRange V)) :=
  slot.map fun a => (deleteSlot (slotStart start h) (slotEnd stop h) a).1

/-- The visit of slot `h` sets `warn`. -/
def slotWarns (start stop h : Nat) (slot : Option (List (GeoRange V))) : Bool :=
  match slot with
  | none => true
  | some a => (deleteSlot (slotStart start h) (slotEnd stop h) a).2

theorem deleteLoop_step (start stop fuel n : Nat) (low : Low V) (warn : Bool) (more : n ≤ stop)
    (phase : n % 65536 = start % 65536) (bound : stop < 0xffff0000) :
    deleteLoop start stop (fuel + 1) n low warn =
      deleteLoop start stop fuel (n + 0x10000)
        (fun slot => if slot = n >>> 16 then slotDeleted start stop slot (low slot)
          else low slot)
        (warn || slotWarns start stop (n >>> 16) (low (n >>> 16))) := by
  have next : (n + 0x10000) % 2 ^ 32 = n + 0x10000 := Nat.mod_eq_of_lt (by omega)
  have starts : pieceStart start n = slotStart start (n >>> 16) := by
    rw [pieceStart, slotStart, and_slot, and_slot, shiftRight_slot, shiftRight_slot]
    split_ifs with first same same
    · rw [first]
    · omega
    · omega
    · rfl
  rw [deleteLoop, if_pos more, next, starts, pieceEnd_eq stop n more]
  dsimp only
  cases slot : low (n >>> 16) with
  | none =>
    have same : (fun h => if h = n >>> 16 then slotDeleted start stop h (low h) else low h) =
        low := by
      funext h
      split_ifs with here
      · rw [here, slot]
        rfl
      · rfl
    rw [same]
    simp [slotWarns]
  | some a =>
    have same : (fun h => if h = n >>> 16 then slotDeleted start stop h (low h) else low h) =
        fun h => if h = n >>> 16 then
          some (deleteSlot (slotStart start (n >>> 16)) (slotEnd stop (n >>> 16)) a).1
          else low h := by
      funext h
      split_ifs with here
      · rw [here, slot]
        rfl
      · rfl
    rw [same]
    rfl

/-- The loop returns: it deletes the piece in each slot it gets to, and warns if one of them
does. Induction on the number of addresses `n` is still to take. -/
theorem deleteLoop_spec (start stop count fuel n : Nat) (low : Low V) (warn : Bool)
    (le : start ≤ n) (phase : n % 65536 = start % 65536) (bound : stop < 0xffff0000)
    (ahead : (stop + 65536 - n) / 65536 = count) (enough : count < fuel) :
    ∃ low' warn', deleteLoop start stop fuel n low warn = some (low', warn') ∧
      (∀ h, low' h = if n >>> 16 ≤ h ∧ 65536 * h + start % 65536 ≤ stop
        then slotDeleted start stop h (low h) else low h) ∧
      (warn' = true ↔ warn = true ∨ ∃ h, n >>> 16 ≤ h ∧ 65536 * h + start % 65536 ≤ stop ∧
        slotWarns start stop h (low h) = true) := by
  obtain ⟨fuel, rfl⟩ : ∃ more, fuel = more + 1 := ⟨fuel - 1, by omega⟩
  induction count generalizing n low warn fuel with
  | zero =>
    have past : ¬ n ≤ stop := by omega
    have nowhere (h : Nat) : ¬ (n >>> 16 ≤ h ∧ 65536 * h + start % 65536 ≤ stop) := by
      rw [shiftRight_slot]
      omega
    refine ⟨low, warn, by rw [deleteLoop, if_neg past], fun h => by rw [if_neg (nowhere h)], ?_⟩
    constructor
    · exact Or.inl
    · rintro (old | ⟨h, first, last, _⟩)
      · exact old
      · exact absurd ⟨first, last⟩ (nowhere h)
  | succ count ih =>
    have more : n ≤ stop := by omega
    obtain ⟨fuel, rfl⟩ : ∃ more, fuel = more + 1 := ⟨fuel - 1, by omega⟩
    have slot : (n + 0x10000) >>> 16 = n >>> 16 + 1 := by
      rw [shiftRight_slot, shiftRight_slot]
      omega
    have here : 65536 * (n >>> 16) + start % 65536 ≤ stop := by
      rw [shiftRight_slot]
      omega
    obtain ⟨low', warn', ran, slots, warns⟩ := ih (n + 0x10000)
      (fun h => if h = n >>> 16 then slotDeleted start stop h (low h) else low h)
      (warn || slotWarns start stop (n >>> 16) (low (n >>> 16))) (by omega) (by omega)
      (by omega) fuel (by omega)
    rw [slot] at slots warns
    refine ⟨low', warn', ?_, ?_, ?_⟩
    · rw [deleteLoop_step start stop _ n low warn more phase bound, ran]
    · intro h
      rw [slots h]
      by_cases first : h = n >>> 16
      · rw [if_neg (by omega), if_pos first, if_pos ⟨by omega, first ▸ here⟩]
      · rw [if_neg first]
        by_cases later : n >>> 16 + 1 ≤ h ∧ 65536 * h + start % 65536 ≤ stop
        · rw [if_pos later, if_pos ⟨by omega, later.2⟩]
        · rw [if_neg later, if_neg (fun both => later ⟨by omega, both.2⟩)]
    · rw [warns, Bool.or_eq_true, or_assoc]
      refine or_congr Iff.rfl ⟨?_, ?_⟩
      · rintro (now | ⟨h, first, last, warned⟩)
        · exact ⟨n >>> 16, le_refl _, here, now⟩
        · rw [if_neg (by omega)] at warned
          exact ⟨h, by omega, last, warned⟩
      · rintro ⟨h, first, last, warned⟩
        by_cases same : h = n >>> 16
        · exact Or.inl (same ▸ warned)
        · refine Or.inr ⟨h, by omega, last, ?_⟩
          rw [if_neg same]
          exact warned

theorem ngxHttpGeoDeleteRange_spec (low : Low V) (start stop : Nat) (ordered : start ≤ stop)
    (bound : stop < 0xffff0000) :
    ∃ low' warn, ngxHttpGeoDeleteRange low start stop = some (low', warn) ∧
      (∀ h, low' h = if Visited start stop h then slotDeleted start stop h (low h) else low h) ∧
      (warn = true ↔ ∃ h, Visited start stop h ∧ slotWarns start stop h (low h) = true) := by
  obtain ⟨low', warn, ran, slots, warns⟩ := deleteLoop_spec start stop _ slotFuel start low false
    (le_refl _) rfl bound rfl (by rw [slotFuel]; omega)
  refine ⟨low', warn, ran, slots, ?_⟩
  rw [warns]
  simp only [Bool.false_eq_true, false_or, Visited, and_assoc]

section Tables

variable {low low' : Low V} {range : RangeDirective V}

theorem scanSlot_mem {h s e : Nat} {value : V} {before after a : List (GeoRange V)}
    (small : s ≤ 0xffff ∧ e ≤ 0xffff) (done : scanSlot h s e value before after = .ok a) :
    (⟨s, e, value⟩ : GeoRange V) ∈ a := by
  have starts := uShort_of_le small.1
  have ends := uShort_of_le small.2
  induction before generalizing after with
  | nil =>
    rw [scanSlot, starts, ends] at done
    cases done
    simp
  | cons first rest ih =>
    rw [scanSlot, starts, ends] at done
    split_ifs at done with above below same
    · exact ih done
    · cases done
      simp
    · cases done
      obtain ⟨rfl, rfl⟩ := same
      simp
    all_goals
      cases done
      simp

theorem scanSlot_proper {h s e : Nat} {value : V} {before after a : List (GeoRange V)}
    (ordered : s ≤ e) (small : e ≤ 0xffff)
    (proper : ∀ range ∈ before ++ after, range.start ≤ range.stop ∧ range.stop ≤ 0xffff)
    (done : scanSlot h s e value before after = .ok a) :
    ∀ range ∈ a, range.start ≤ range.stop ∧ range.stop ≤ 0xffff := by
  have starts : uShort s = s := uShort_of_le (by omega)
  have ends : uShort e = e := uShort_of_le small
  induction before generalizing after with
  | nil =>
    rw [scanSlot, starts, ends] at done
    cases done
    intro range member
    rcases List.mem_append.mp member with old | new
    · exact proper range old
    · rw [List.mem_singleton.mp new]
      exact ⟨ordered, small⟩
  | cons first rest ih =>
    have here := proper first (by simp)
    have others (other : GeoRange V) (member : other ∈ rest.reverse ∨ other ∈ after) :
        other.start ≤ other.stop ∧ other.stop ≤ 0xffff := by
      apply proper other
      rcases member with old | old
      · exact List.mem_append_left _ (List.mem_cons_of_mem _ (List.mem_reverse.mp old))
      · exact List.mem_append_right _ old
    have replaced (mid : List (GeoRange V))
        (each : ∀ piece ∈ mid, piece.start ≤ piece.stop ∧ piece.stop ≤ 0xffff) :
        ∀ range ∈ rest.reverse ++ (mid ++ after),
          range.start ≤ range.stop ∧ range.stop ≤ 0xffff := by
      intro range member
      rcases List.mem_append.mp member with old | member
      · exact others range (Or.inl old)
      rcases List.mem_append.mp member with new | old
      · exact each range new
      · exact others range (Or.inr old)
    have starts' : uShort (s - 1) = s - 1 := uShort_of_le (by omega)
    rw [scanSlot, starts, ends, starts'] at done
    split_ifs at done with above below same inside head last
    · apply ih _ done
      intro range member
      apply proper range
      rcases List.mem_append.mp member with old | member
      · exact List.mem_append_left _ (List.mem_cons_of_mem _ old)
      rcases List.mem_cons.mp member with rfl | old
      · exact List.mem_append_left _ List.mem_cons_self
      · exact List.mem_append_right _ old
    · cases done
      apply replaced [first, ⟨s, e, value⟩]
      simp only [List.mem_cons, List.not_mem_nil, or_false]
      rintro piece (rfl | rfl)
      · exact here
      · exact ⟨ordered, small⟩
    · cases done
      apply replaced [{ first with value := value }]
      simp only [List.mem_cons, List.not_mem_nil, or_false]
      rintro piece rfl
      exact here
    · have ends' : uShort (e + 1) = e + 1 := uShort_of_le (by omega)
      rw [ends'] at done
      cases done
      apply replaced [{ first with stop := s - 1 }, ⟨s, e, value⟩, { first with start := e + 1 }]
      simp only [List.mem_cons, List.not_mem_nil, or_false]
      rintro piece (rfl | rfl | rfl) <;> dsimp only <;> omega
    · have ends' : uShort (e + 1) = e + 1 := uShort_of_le (by omega)
      rw [ends'] at done
      cases done
      apply replaced [⟨s, e, value⟩, { first with start := e + 1 }]
      simp only [List.mem_cons, List.not_mem_nil, or_false]
      rintro piece (rfl | rfl) <;> dsimp only <;> omega
    · cases done
      apply replaced [{ first with stop := s - 1 }, ⟨s, e, value⟩]
      simp only [List.mem_cons, List.not_mem_nil, or_false]
      rintro piece (rfl | rfl) <;> dsimp only <;> omega

/-- `end` at 255.255.0.0 or above keeps the add loop going until it reports an overlap. -/
theorem addLoop_top {start stop fuel n : Nat} {value : V} {final : Low V} (more : n ≤ stop)
    (top : 0xffff0000 ≤ stop) : addLoop start stop value fuel n low ≠ some (.ok final) := by
  induction fuel generalizing n low with
  | zero => simp [addLoop]
  | succ fuel ih =>
    have next : nextSlot n ≤ stop := le_trans Nat.and_le_right top
    rw [addLoop, if_pos more]
    cases addSlot low (n >>> 16) (pieceStart start n) (pieceEnd stop n) value with
    | error overlap => simp
    | ok low' => exact ih next

theorem accept_below (accepted : accept low range = some low') : range.stop < 0xffff0000 := by
  by_contra top
  rw [accept] at accepted
  split at accepted
  · case _ added => exact addLoop_top range.ordered (by omega) added
  · cases accepted

theorem accept_present (accepted : accept low range = some low') : Present low' range := by
  intro h member
  have bound := accept_below accepted
  obtain ⟨a, scanned, stored⟩ := (accept_slots bound accepted h).1 (mem_slotsFrom.mp member)
  have small := slotEnd_le range.stop h
  have le := slotStart_le_slotEnd range.start range.stop h range.ordered
  exact ⟨a, stored, scanSlot_mem ⟨by omega, small⟩ scanned⟩

theorem accept_proper (proper : Proper low) (accepted : accept low range = some low') :
    Proper low' := by
  intro h a stored
  have slots := accept_slots (accept_below accepted) accepted h
  by_cases visited : range.start >>> 16 ≤ h ∧ h ≤ range.stop >>> 16
  · obtain ⟨b, scanned, filled⟩ := slots.1 visited
    rw [stored] at filled
    cases filled
    apply scanSlot_proper (slotStart_le_slotEnd _ _ h range.ordered) (slotEnd_le _ h) _ scanned
    intro other member
    rw [List.append_nil, List.mem_reverse] at member
    cases old : low h with
    | none =>
      rw [old] at member
      cases member
    | some b =>
      rw [old] at member
      exact proper h b old other member
  · rw [slots.2 visited] at stored
    exact proper h a stored

theorem deleteLoop_proper {start stop fuel n : Nat} {warn warn' : Bool} (proper : Proper low)
    (done : deleteLoop start stop fuel n low warn = some (low', warn')) : Proper low' := by
  induction fuel generalizing n low warn with
  | zero => cases done
  | succ fuel ih =>
    rw [deleteLoop] at done
    dsimp only at done
    split at done
    · cases slot : low (n >>> 16) with
      | none =>
        rw [slot] at done
        exact ih proper done
      | some a =>
        rw [slot] at done
        refine ih ?_ done
        intro h b stored other member
        dsimp only at stored
        split_ifs at stored with here
        · cases stored
          exact proper _ a slot other (deleteSlot_subset other member)
        · exact proper h b stored other member
    · cases done
      exact proper

theorem perform_proper (proper : Proper low) {directive : Directive V}
    (performed : perform low directive = some low') : Proper low' := by
  cases directive with
  | add range => exact accept_proper proper performed
  | delete start stop ordered =>
    obtain ⟨⟨low'', warn⟩, done, rfl⟩ := Option.map_eq_some_iff.mp performed
    exact deleteLoop_proper proper done

theorem run_proper (directives : List (Directive V)) (proper : Proper low)
    (performed : run perform low directives = some low') : Proper low' := by
  induction directives generalizing low with
  | nil =>
    cases performed
    exact proper
  | cons directive rest ih =>
    obtain ⟨next, stepped, remaining⟩ := run_cons_some performed
    exact ih (perform_proper proper stepped) remaining

theorem run_below (directives : List (Directive V)) (added : .add range ∈ directives)
    (performed : run perform low directives = some low') : range.stop < 0xffff0000 := by
  obtain ⟨before, after, rfl⟩ := List.append_of_mem added
  obtain ⟨middle, _, remaining⟩ := run_append_some performed
  obtain ⟨next, stepped, _⟩ := run_cons_some remaining
  exact accept_below stepped

end Tables

section Deletes

variable {low : Low V} {range : RangeDirective V} {h : Nat}

theorem slotDeleted_apart (proper : Proper low) (apart : Apart low range h) :
    slotWarns range.start range.stop h (low h) = false ∧
      ∃ before after, low h = some (before ++ piece range h :: after) ∧ before ++ after ≠ [] ∧
        slotDeleted range.start range.stop h (low h) = some (before ++ after) ∧
        ∀ n, (piece range h).start ≤ n → n ≤ (piece range h).stop →
          firstHit (before ++ after) n = none := by
  obtain ⟨before, after, stored, more, clear⟩ := apart
  have le : (piece range h).start ≤ (piece range h).stop :=
    slotStart_le_slotEnd range.start range.stop h range.ordered
  have ends : ∀ other ∈ before,
      (piece range h).start ≠ other.start ∧ (piece range h).stop ≠ other.stop := by
    intro other member
    have whole := proper h _ stored other (List.mem_append_left _ member)
    have free := clear other (List.mem_append_left _ member)
    constructor
    · intro same
      exact free _ (le_refl _) le ⟨by omega, by omega⟩
    · intro same
      exact free _ le (le_refl _) ⟨by omega, by omega⟩
  have deleted : deleteSlot (slotStart range.start h) (slotEnd range.stop h)
      (before ++ piece range h :: after) = (before ++ after, false) :=
    deleteSlot_apart rfl rfl ends
  rw [stored]
  refine ⟨?_, before, after, rfl, more, ?_, ?_⟩
  · rw [slotWarns, deleted]
  · rw [slotDeleted, Option.map_some, deleted]
  · intro n first last
    exact firstHit_eq_none fun other member => clear other member n first last

theorem visited_iff {start stop : Nat} (halves : start % 65536 ≤ stop % 65536) :
    Visited start stop h ↔ h ∈ slotsFrom (start >>> 16) stop := by
  rw [mem_slotsFrom, Visited, shiftRight_slot, shiftRight_slot]
  omega

theorem piece_address (member : h ∈ slotsFrom (range.start >>> 16) range.stop) {x : Nat}
    (first : (piece range h).start ≤ x) (last : x ≤ (piece range h).stop) :
    ∃ addr, addr >>> 16 = h ∧ addr &&& 0xffff = x ∧ range.start ≤ addr ∧ addr ≤ range.stop := by
  have small : x ≤ 0xffff := le_trans last (slotEnd_le range.stop h)
  have slot : (65536 * h + x) >>> 16 = h := by
    rw [shiftRight_slot]
    omega
  have place : (65536 * h + x) &&& 0xffff = x := by
    rw [and_slot]
    omega
  refine ⟨65536 * h + x, slot, place, (in_slot_iff range.start range.stop _).mpr ?_⟩
  rw [slot, place]
  exact ⟨mem_slotsFrom.mp member, first, last⟩

theorem firstHit_some_of_mem {ranges : List (GeoRange V)} {other : GeoRange V} {n : Nat}
    (member : other ∈ ranges) (covers : other.start ≤ n ∧ n ≤ other.stop) :
    ∃ value, firstHit ranges n = some value := by
  induction ranges with
  | nil => cases member
  | cons first rest ih =>
    rw [firstHit_cons]
    split
    · exact ⟨first.value, rfl⟩
    · case _ missed =>
        rcases List.mem_cons.mp member with rfl | later
        · exact absurd covers missed
        · exact ih later

theorem deleted_of_apart (proper : Proper low) (bound : range.stop < 0xffff0000)
    (halves : range.start % 65536 ≤ range.stop % 65536)
    (apart : ∀ h ∈ slotsFrom (range.start >>> 16) range.stop, Apart low range h) :
    Deleted low range := by
  obtain ⟨low', warn, ran, slots, warns⟩ :=
    ngxHttpGeoDeleteRange_spec low range.start range.stop range.ordered bound
  have quiet : warn = false := by
    rw [Bool.eq_false_iff]
    intro warned
    obtain ⟨h, visited, warned⟩ := warns.mp warned
    have clear := (slotDeleted_apart proper (apart h ((visited_iff halves).mp visited))).1
    rw [clear] at warned
    cases warned
  rw [quiet] at ran
  refine ⟨low', ran, ?_, ?_, ?_⟩
  · intro h member
    obtain ⟨_, before, after, stored, _, deleted, _⟩ := slotDeleted_apart proper (apart h member)
    refine ⟨before, after, stored, ?_⟩
    rw [slots h, if_pos ((visited_iff halves).mpr member), deleted]
  · intro h outside
    rw [slots h, if_neg (fun visited => outside ((visited_iff halves).mp visited))]
  · intro defaultValue addr first last
    have inside := (in_slot_iff range.start range.stop addr).mp ⟨first, last⟩
    have member := mem_slotsFrom.mpr inside.1
    obtain ⟨_, before, after, _, more, deleted, missed⟩ :=
      slotDeleted_apart proper (apart _ member)
    have now : low' (addr >>> 16) = some (before ++ after) := by
      rw [slots, if_pos ((visited_iff halves).mpr member), deleted]
    have none := missed (addr &&& 0xffff) inside.2.1 inside.2.2
    rw [ngxHttpGeoRangeVariable, ngxHttpGeoBlock, now]
    cases rest : before ++ after with
    | nil => exact absurd rest more
    | cons other others =>
      rw [rest] at none
      dsimp only
      rw [none, Option.getD_none]

/-- What a slot must have been like for the promise to be kept. -/
theorem apart_of_deleted [Nontrivial V] (deleted : Deleted low range)
    (member : h ∈ slotsFrom (range.start >>> 16) range.stop) : Apart low range h := by
  obtain ⟨low', _, removed, _, lookup⟩ := deleted
  obtain ⟨before, after, stored, now⟩ := removed h member
  refine ⟨before, after, stored, ?_, ?_⟩
  · intro empty
    have le := slotStart_le_slotEnd range.start range.stop h range.ordered
    obtain ⟨addr, slot, _, first, last⟩ := piece_address member (le_refl _) le
    obtain ⟨value⟩ : Nonempty V := inferInstance
    have found := lookup value addr first last
    rw [ngxHttpGeoRangeVariable, ngxHttpGeoBlock, slot, now, empty] at found
    cases found
  · intro other inside x first last covers
    obtain ⟨addr, slot, place, low, high⟩ := piece_address member first last
    obtain ⟨value, hit⟩ := firstHit_some_of_mem inside covers
    obtain ⟨another, different⟩ := exists_ne value
    have found := lookup another addr low high
    rw [ngxHttpGeoRangeVariable, ngxHttpGeoBlock, slot, place, now] at found
    cases rest : before ++ after with
    | nil =>
      rw [rest] at inside
      cases inside
    | cons _ _ =>
      rw [rest] at found hit
      dsimp only at found
      rw [hit, Option.getD_some] at found
      exact different (Option.some.inj found).symm

/-- `delete` stops short of a last slot that ends below where the range starts in its own. -/
theorem halves_of_deleted (bound : range.stop < 0xffff0000) (deleted : Deleted low range) :
    range.start % 65536 ≤ range.stop % 65536 := by
  by_contra crossed
  obtain ⟨low', done, removed, _, _⟩ := deleted
  obtain ⟨low'', warn, ran, slots, _⟩ :=
    ngxHttpGeoDeleteRange_spec low range.start range.stop range.ordered bound
  rw [done] at ran
  cases ran
  have ordered := range.ordered
  have member : range.stop >>> 16 ∈ slotsFrom (range.start >>> 16) range.stop := by
    rw [mem_slotsFrom, shiftRight_slot, shiftRight_slot]
    omega
  have skipped : ¬ Visited range.start range.stop (range.stop >>> 16) := by
    rw [Visited, shiftRight_slot, shiftRight_slot]
    omega
  obtain ⟨before, after, stored, now⟩ := removed _ member
  rw [slots, if_neg skipped, stored] at now
  have lengths := congrArg List.length (Option.some.inj now)
  rw [List.length_append, List.length_append, List.length_cons] at lengths
  omega

end Deletes

/-- After every run of `ranges` directives, deleting a range that one of them added keeps the
promise if and only if the range does not end lower in its last slot than it starts in its
first, and each of its slots holds other ranges, none of which shares an address with it. -/
theorem delete_added_range_iff [Nontrivial V] (directives : List (Directive V)) (low : Low V)
    (range : RangeDirective V) (performed : run perform emptyLow directives = some low)
    (added : .add range ∈ directives) :
    Deleted low range ↔ range.start % 65536 ≤ range.stop % 65536 ∧
      ∀ h ∈ slotsFrom (range.start >>> 16) range.stop, Apart low range h := by
  have empty : Proper (emptyLow : Low V) := by
    intro h a stored
    cases stored
  have proper : Proper low := run_proper directives empty performed
  have bound := run_below directives added performed
  constructor
  · intro deleted
    exact ⟨halves_of_deleted bound deleted, fun h member => apart_of_deleted deleted member⟩
  · rintro ⟨halves, apart⟩
    exact deleted_of_apart proper bound halves apart

/-- 0.0.0.10-0.0.0.20 and 0.0.0.30-0.0.0.40 are added, and the first is deleted. -/
theorem delete_first_of_two :
    ∃ low : Low Nat,
      run perform emptyLow [.add ⟨10, 20, 1, by decide⟩, .add ⟨30, 40, 2, by decide⟩] =
        some low ∧ Deleted low ⟨10, 20, 1, by decide⟩ := by
  have accepted : ∃ low : Low Nat,
      run perform emptyLow [.add ⟨10, 20, 1, by decide⟩, .add ⟨30, 40, 2, by decide⟩] =
        some low ∧ low 0 = some [⟨10, 20, 1⟩, ⟨30, 40, 2⟩] := ⟨_, rfl, rfl⟩
  obtain ⟨low, performed, slot⟩ := accepted
  refine ⟨low, performed, (delete_added_range_iff _ low ⟨10, 20, 1, by decide⟩ performed
    List.mem_cons_self).mpr ⟨by decide, ?_⟩⟩
  intro h member
  have zero : h = 0 := by simpa [mem_slotsFrom] using member
  subst zero
  refine ⟨[], [⟨30, 40, 2⟩], slot, by simp, ?_⟩
  intro other inside x first last covers
  rw [List.nil_append, List.mem_singleton] at inside
  subst inside
  have high : (piece ⟨10, 20, 1, by decide⟩ 0 : GeoRange Nat).stop = 20 := by decide
  rw [high] at last
  dsimp only at covers
  omega

/-- 0.0.0.10-0.0.0.20 is added and deleted: its slot is left as an empty `ngx_array_t`, which
the lookup takes for a list of ranges. -/
theorem delete_only_range_of_slot :
    (∃ low low' : Low Nat, run perform emptyLow [.add ⟨10, 20, 1, by decide⟩] = some low ∧
      ngxHttpGeoDeleteRange low 10 20 = some (low', false) ∧
      ngxHttpGeoRangeVariable (ngxHttpGeoBlock low') 0 10 = none) ∧
    ¬ ∀ (directives : List (Directive Nat)) (low : Low Nat) (range : RangeDirective Nat),
      run perform emptyLow directives = some low → .add range ∈ directives →
        Present low range → Deleted low range := by
  have runs : ∃ low low' : Low Nat,
      run perform emptyLow [.add ⟨10, 20, 1, by decide⟩] = some low ∧
      ngxHttpGeoDeleteRange low 10 20 = some (low', false) ∧
      ngxHttpGeoRangeVariable (ngxHttpGeoBlock low') 0 10 = none := ⟨_, _, rfl, rfl, rfl⟩
  refine ⟨runs, ?_⟩
  intro claim
  obtain ⟨low, low', performed, deletes, found⟩ := runs
  obtain ⟨next, accepted, same⟩ := run_cons_some performed
  cases same
  rw [perform] at accepted
  obtain ⟨low'', done, _, _, lookup⟩ := claim _ low ⟨10, 20, 1, by decide⟩ performed
    List.mem_cons_self (accept_present accepted)
  rw [deletes] at done
  cases done
  rw [lookup 0 10 (by decide) (by decide)] at found
  cases found

end NgxFormal.Http.Geo
