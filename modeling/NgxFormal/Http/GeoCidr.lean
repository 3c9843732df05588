import NgxFormal.Core.RadixDelete
import NgxFormal.Http.Geo
import NgxFormal.Lib.Words

/-! The networks of a geo block: `ngx_http_geo_cidr` on the radix tree, the end of
`ngx_http_geo_block` without ranges, and what `ngx_radix32tree_find` gives for an address. -/

namespace NgxFormal.Http.Geo

open Lib Core.Radix

/-- A pointer to a variable value: neither `NULL` nor `NGX_RADIX_NO_VALUE`. -/
abbrev Pointer := { v : UInt64 // v ≠ 0 ∧ v ≠ noValue }

/-- The directives that passed `ngx_http_geo_cidr_value`, in host byte order. -/
inductive CidrDirective where
  | default (value : Pointer)
  | network (addr mask : BitVec 32) (value : Pointer)
  | delete (addr mask : BitVec 32)
  deriving DecidableEq

/-- The loop of `ngx_http_geo_cidr`: a value that is there is deleted, and the insertion made again.
`none` when the configuration is refused. -/
def insertNetwork : Nat → Tree → BitVec 32 → BitVec 32 → UInt64 → Option Tree
  | 0, _, _, _, _ => none
  | i + 1, t, addr, mask, val =>
    match ngxRadix32treeInsert t addr mask val with
    | (.ok, t) => some t
    | (.error, _) => none
    | (.busy, t) =>
      match tryDelete t addr mask with
      | none => none
      | some (.error, _) => none
      | some (_, t) => insertNetwork i t addr mask val

def ngxHttpGeoCidr (t : Tree) : CidrDirective → Option Tree
  | .default value => insertNetwork 2 t 0 0 value.val
  | .network addr mask value => insertNetwork 2 t addr mask value.val
  | .delete addr mask => (tryDelete t addr mask).map Prod.snd

/-- The end of `ngx_http_geo_block`: the null value is put at the root when the address 0 has none. -/
def finishTree (nullValue : Pointer) (t : Tree) : Option Tree :=
  if ngxRadix32treeFind t 0 ≠ noValue then some t
  else
    match ngxRadix32treeInsert t 0 0 nullValue.val with
    | (.error, _) => none
    | (_, t) => some t

/-- What a directive means for the networks. -/
def CidrDirective.store (table : Table) : CidrDirective → Table
  | default value => Function.update table (entry 0 0) (some value.val)
  | network addr mask value => Function.update table (entry addr mask) (some value.val)
  | delete addr mask => table.remove addr mask

/-- The networks that a list of directives leaves. -/
def networks (directives : List CidrDirective) : Table :=
  directives.foldl CidrDirective.store fun _ => none

def Covers (table : Table) (addr : BitVec 32) : Prop :=
  ∃ n ≤ 32, (table (addr &&& prefixMask n, prefixMask n)).isSome = true

/-- The values of a table are pointers that a predicate is true of. -/
def Valued (table : Table) (configured : Pointer → Prop) : Prop :=
  ∀ e value, table e = some value → ∃ pointer : Pointer, configured pointer ∧ value = pointer.val

section Cidr

variable {t u : Tree} {table : Table} {addr mask : BitVec 32} {val : UInt64} {i : Nat}
  {configured : Pointer → Prop}

theorem insertNetwork_fresh (stores : Stores t table) (valued : val ≠ noValue)
    (fresh : table (entry addr mask) = none) (done : insertNetwork (i + 1) t addr mask val = some u) :
    Stores u (Function.update table (entry addr mask) (some val)) := by
  obtain ⟨stored, rc⟩ := stores.insert addr mask val
  have absent : ¬(table (entry addr mask)).isSome = true := by
    rw [fresh]
    exact Bool.false_ne_true
  rw [if_neg absent] at rc
  rw [Table.store, if_neg (not_or.mpr ⟨absent, valued⟩)] at stored
  rw [insertNetwork] at done
  cases result : ngxRadix32treeInsert t addr mask val with
  | mk code v =>
    rw [result] at rc stored done
    obtain rfl : code = .ok := rc
    obtain rfl := Option.some.inj done
    exact stored

theorem insertNetwork_stores (stores : Stores t table) (valued : val ≠ noValue)
    (done : insertNetwork (i + 2) t addr mask val = some u) :
    Stores u (Function.update table (entry addr mask) (some val)) := by
  cases there : table (entry addr mask) with
  | none => exact insertNetwork_fresh stores valued there done
  | some old =>
    obtain ⟨stored, rc⟩ := stores.insert addr mask val
    have present : (table (entry addr mask)).isSome = true := by
      rw [there]
      rfl
    rw [if_pos present] at rc
    rw [Table.store, if_pos (Or.inl present)] at stored
    rw [insertNetwork] at done
    cases result : ngxRadix32treeInsert t addr mask val with
    | mk code v =>
      rw [result] at rc stored done
      obtain rfl : code = .busy := rc
      dsimp only at done stored
      cases deleted : tryDelete v addr mask with
      | none =>
        rw [deleted] at done
        cases done
      | some outcome =>
        obtain ⟨code, w⟩ := outcome
        rw [deleted] at done
        have removed := stored.delete deleted
        have again : insertNetwork (i + 1) w addr mask val = some u := by
          cases code with
          | ok => exact done
          | error => cases done
          | busy => exact done
        have final := insertNetwork_fresh removed valued (Function.update_self _ _ _) again
        rw [Table.remove, Function.update_idem] at final
        exact final

theorem ngxHttpGeoCidr_stores {directive : CidrDirective} (stores : Stores t table)
    (done : ngxHttpGeoCidr t directive = some u) : Stores u (directive.store table) := by
  cases directive with
  | default value => exact insertNetwork_stores stores value.property.2 done
  | network addr mask value => exact insertNetwork_stores stores value.property.2 done
  | delete addr mask =>
    obtain ⟨⟨code, v⟩, deleted, same⟩ := Option.map_eq_some_iff.mp done
    obtain rfl : v = u := same
    exact stores.delete deleted

theorem run_stores (directives : List CidrDirective) (stores : Stores t table)
    (done : run ngxHttpGeoCidr t directives = some u) :
    Stores u (directives.foldl CidrDirective.store table) := by
  induction directives generalizing t table with
  | nil =>
    obtain rfl := Option.some.inj done
    exact stores
  | cons directive rest ih =>
    obtain ⟨next, stepped, remaining⟩ := run_cons_some done
    exact ih (ngxHttpGeoCidr_stores stores stepped) remaining

def CidrDirective.Gives : CidrDirective → Pointer → Prop
  | default value, pointer => value = pointer
  | network _ _ value, pointer => value = pointer
  | delete _ _, _ => False

theorem Valued.update (valued : Valued table configured) {pointer : Pointer}
    (given : configured pointer) (e : BitVec 32 × BitVec 32) :
    Valued (Function.update table e (some pointer.val)) configured := by
  intro other value there
  by_cases same : other = e
  · rw [same, Function.update_self] at there
    exact ⟨pointer, given, (Option.some.inj there).symm⟩
  · rw [Function.update_of_ne same] at there
    exact valued other value there

theorem Valued.store {directive : CidrDirective} (valued : Valued table configured)
    (given : ∀ pointer, directive.Gives pointer → configured pointer) :
    Valued (directive.store table) configured := by
  cases directive with
  | default value => exact valued.update (given value rfl) _
  | network addr mask value => exact valued.update (given value rfl) _
  | delete addr mask =>
    intro other value there
    rw [CidrDirective.store, Table.remove] at there
    by_cases same : other = entry addr mask
    · rw [same, Function.update_self] at there
      cases there
    · rw [Function.update_of_ne same] at there
      exact valued other value there

theorem Valued.networks (directives : List CidrDirective)
    (given : ∀ directive ∈ directives, ∀ pointer, directive.Gives pointer → configured pointer)
    (valued : Valued table configured) :
    Valued (directives.foldl CidrDirective.store table) configured := by
  induction directives generalizing table with
  | nil => exact valued
  | cons directive rest ih =>
    obtain ⟨here, later⟩ := List.forall_mem_cons.mp given
    exact ih later (valued.store here)

theorem longest_cases (valued : Valued table configured) (addr : BitVec 32) :
    (¬Covers table addr ∧ table.longest addr = noValue) ∨
      (Covers table addr ∧ ∃ pointer : Pointer, configured pointer ∧
        table.longest addr = pointer.val) := by
  unfold Table.longest
  cases found : (List.range 33).reverse.findSome? fun n =>
      table (addr &&& prefixMask n, prefixMask n) with
  | none =>
    refine Or.inl ⟨?_, rfl⟩
    rintro ⟨n, small, there⟩
    have missing := List.findSome?_eq_none_iff.mp found n
      (List.mem_reverse.mpr (List.mem_range.mpr (by omega)))
    rw [missing] at there
    cases there
  | some value =>
    obtain ⟨n, member, there⟩ := List.exists_of_findSome?_eq_some found
    obtain ⟨pointer, given, same⟩ := valued _ value there
    have small := List.mem_range.mp (List.mem_reverse.mp member)
    refine Or.inr ⟨⟨n, by omega, ?_⟩, pointer, given, same⟩
    rw [there]
    rfl

theorem entry_zero (addr : BitVec 32) : (addr &&& prefixMask 0, prefixMask 0) = entry 0 0 := by
  have none : prefixMask 0 = 0#32 := by decide
  have first : leading 0 = 0 := by decide
  rw [entry, first, none, BitVec.and_zero, BitVec.and_zero]

theorem covers_root (addr : BitVec 32) (val : UInt64) :
    Covers (Function.update table (entry 0 0) (some val)) addr := by
  refine ⟨0, Nat.zero_le _, ?_⟩
  rw [entry_zero, Function.update_self]
  rfl

theorem finishTree_stores {nullValue : Pointer} (stores : Stores t table)
    (valued : Valued table configured) (done : finishTree nullValue t = some u) :
    (Covers table 0 ∧ Stores u table) ∨
      (¬Covers table 0 ∧ Stores u (Function.update table (entry 0 0) (some nullValue.val))) := by
  have answer := stores.find 0
  unfold finishTree at done
  rcases longest_cases valued 0 with ⟨absent, none⟩ | ⟨covers, pointer, _, found⟩
  · rw [answer, none, if_neg (fun absurd => absurd rfl)] at done
    obtain ⟨stored, rc⟩ := stores.insert 0 0 nullValue.val
    have missing : ¬(table (entry 0 0)).isSome = true := by
      intro there
      rw [← entry_zero 0] at there
      exact absent ⟨0, Nat.zero_le _, there⟩
    rw [if_neg missing] at rc
    rw [Table.store, if_neg (not_or.mpr ⟨missing, nullValue.property.2⟩)] at stored
    cases result : ngxRadix32treeInsert t 0 0 nullValue.val with
    | mk code v =>
      rw [result] at rc stored done
      obtain rfl : code = .ok := rc
      obtain rfl := Option.some.inj done
      exact Or.inr ⟨absent, stored⟩
  · rw [answer, found, if_pos pointer.property.2] at done
    obtain rfl := Option.some.inj done
    exact Or.inl ⟨covers, stores⟩

/-- The finished tree has a pointer for every address exactly when no network has the address 0, or
each address has one. -/
theorem finishTree_find_iff {nullValue : Pointer} (stores : Stores t table)
    (valued : Valued table configured) (done : finishTree nullValue t = some u) :
    (∀ addr, ∃ pointer : Pointer, (pointer = nullValue ∨ configured pointer) ∧
        ngxRadix32treeFind u addr = pointer.val) ↔
      ¬Covers table 0 ∨ ∀ addr, Covers table addr := by
  rcases finishTree_stores stores valued done with ⟨covers, stored⟩ | ⟨absent, stored⟩
  · constructor
    · intro all
      refine Or.inr fun addr => ?_
      obtain ⟨pointer, _, found⟩ := all addr
      rw [stored.find] at found
      rcases longest_cases valued addr with ⟨_, none⟩ | ⟨here, _⟩
      · rw [none] at found
        exact (pointer.property.2 found.symm).elim
      · exact here
    · rintro (absurd | all)
      · exact (absurd covers).elim
      · intro addr
        rcases longest_cases valued addr with ⟨absurd, _⟩ | ⟨_, pointer, given, found⟩
        · exact (absurd (all addr)).elim
        · exact ⟨pointer, Or.inr given, (stored.find addr).trans found⟩
  · refine ⟨fun _ => Or.inl absent, fun _ addr => ?_⟩
    have widened : Valued table fun pointer => pointer = nullValue ∨ configured pointer := by
      intro e value there
      obtain ⟨pointer, given, same⟩ := valued e value there
      exact ⟨pointer, Or.inr given, same⟩
    have both := widened.update (Or.inl rfl) (entry 0 0)
    rcases longest_cases both addr with ⟨absurd, _⟩ | ⟨_, pointer, given, found⟩
    · exact (absurd (covers_root addr _)).elim
    · exact ⟨pointer, given, (stored.find addr).trans found⟩

end Cidr

end NgxFormal.Http.Geo

/-! Sequences of geo range directives: the slot loop, and the table after every add. -/

namespace NgxFormal.Http.Geo

open Lib

variable {V : Type}

/-- The piece of `start-end` that falls into slot `h`. -/
def slotStart (start h : Nat) : Nat := if h = start >>> 16 then start &&& 0xffff else 0

def slotEnd (stop h : Nat) : Nat := if h = stop >>> 16 then stop &&& 0xffff else 0xffff

theorem shiftRight_slot (n : Nat) : n >>> 16 = n / 65536 := by
  rw [Nat.shiftRight_eq_div_pow]

theorem and_slot (n : Nat) : n &&& 0xffff = n % 65536 :=
  Nat.and_two_pow_sub_one_eq_mod n 16

theorem or_slot (n : Nat) : n ||| 0xffff = 65536 * (n / 65536) + 65535 :=
  or_low_ones n 16

theorem nextSlot_eq (n : Nat) (low : n < 0xffff0000) :
    nextSlot n = 65536 * (n / 65536 + 1) := by
  have small : n + 0x10000 < 2 ^ 32 := by omega
  rw [nextSlot, Nat.mod_eq_of_lt small]
  have cleared := and_high_ones (n + 0x10000) 16 32 small (by decide)
  have quotient : (n + 0x10000) / 2 ^ 16 = n / 65536 + 1 := by omega
  rw [quotient] at cleared
  exact cleared

theorem pieceEnd_eq (stop n : Nat) (le : n ≤ stop) :
    pieceEnd stop n = slotEnd stop (n >>> 16) := by
  rw [pieceEnd, slotEnd, or_slot, and_slot, shiftRight_slot, shiftRight_slot]
  split_ifs with exceeds same same <;> omega

theorem pieceStart_eq (start n : Nat) (le : start ≤ n) (aligned : n = start ∨ n % 65536 = 0) :
    pieceStart start n = slotStart start (n >>> 16) := by
  rw [pieceStart, slotStart, and_slot, and_slot, shiftRight_slot, shiftRight_slot]
  split_ifs with first same same
  · rw [first]
  · subst first
    exact absurd rfl same
  · omega
  · rfl

theorem slotEnd_le (stop h : Nat) : slotEnd stop h ≤ 0xffff := by
  rw [slotEnd, and_slot]
  split <;> omega

theorem slotStart_le_slotEnd (start stop h : Nat) (ordered : start ≤ stop) :
    slotStart start h ≤ slotEnd stop h := by
  rw [slotStart, slotEnd, and_slot, and_slot, shiftRight_slot, shiftRight_slot]
  split_ifs <;> omega

theorem addSlot_ok {low low' : Low V} {h s e : Nat} {value : V}
    (added : addSlot low h s e value = .ok low') :
    ∃ a, scanSlot h s e value ((low h).getD []).reverse [] = .ok a ∧
      low' = fun slot => if slot = h then some a else low slot := by
  rw [addSlot] at added
  cases scanned : scanSlot h s e value ((low h).getD []).reverse [] with
  | error overlap => simp [scanned] at added
  | ok a =>
    rw [scanned] at added
    exact ⟨a, rfl, (Except.ok.inj added).symm⟩

/-- What one accepted directive did to slot `h`. -/
def SlotAdded (start stop : Nat) (value : V) (low low' : Low V) (h : Nat) : Prop :=
  ∃ a, scanSlot h (slotStart start h) (slotEnd stop h) value ((low h).getD []).reverse [] =
    .ok a ∧ low' h = some a

/-- The loop visits each remaining slot once: induction on the fuel, with `n` either the
first address or a slot boundary. -/
theorem addLoop_slots (start stop : Nat) (value : V) (bound : stop < 0xffff0000)
    (ordered : start ≤ stop) (fuel n : Nat) (low low' : Low V) (le : start ≤ n)
    (aligned : n = start ∨ n % 65536 = 0)
    (done : addLoop start stop value fuel n low = some (.ok low')) (h : Nat) :
    (n >>> 16 ≤ h ∧ h ≤ stop >>> 16 → SlotAdded start stop value low low' h) ∧
      (¬ (n >>> 16 ≤ h ∧ h ≤ stop >>> 16) → low' h = low h) := by
  induction fuel generalizing n low with
  | zero => simp [addLoop] at done
  | succ fuel ih =>
    rw [addLoop] at done
    by_cases more : n ≤ stop
    · rw [if_pos more, pieceStart_eq start n le aligned, pieceEnd_eq stop n more] at done
      cases added : addSlot low (n >>> 16) (slotStart start (n >>> 16))
          (slotEnd stop (n >>> 16)) value with
      | error overlap => simp [added] at done
      | ok middle =>
        rw [added] at done
        obtain ⟨a, scanned, rfl⟩ := addSlot_ok added
        have next := nextSlot_eq n (by omega)
        have tail := ih (nextSlot n) _ (by rw [next]; omega)
          (Or.inr (by rw [next]; omega)) done
        rw [next] at tail
        simp only [shiftRight_slot] at tail scanned ⊢
        have quotient : 65536 * (n / 65536 + 1) / 65536 = n / 65536 + 1 := by omega
        rw [quotient] at tail
        by_cases here : h = n / 65536
        · subst here
          refine ⟨fun _ => ⟨a, scanned, ?_⟩, fun outside => absurd ?_ outside⟩
          · have kept := tail.2 (by omega)
            rw [if_pos rfl] at kept
            exact kept
          · omega
        · constructor
          · rintro ⟨lower, upper⟩
            obtain ⟨b, later, stored⟩ := tail.1 ⟨by omega, upper⟩
            simp only [if_neg here] at later
            exact ⟨b, later, stored⟩
          · intro outside
            have kept := tail.2 (by omega)
            rw [if_neg here] at kept
            exact kept
    · rw [if_neg more] at done
      simp only [Option.some.injEq, Except.ok.injEq] at done
      subst done
      simp only [shiftRight_slot]
      refine ⟨fun inside => absurd inside ?_, fun _ => trivial⟩
      rcases aligned with rfl | boundary <;> omega

theorem accept_slots {low low' : Low V} {directive : RangeDirective V}
    (bound : directive.stop < 0xffff0000) (accepted : accept low directive = some low')
    (h : Nat) :
    (directive.start >>> 16 ≤ h ∧ h ≤ directive.stop >>> 16 →
        SlotAdded directive.start directive.stop directive.value low low' h) ∧
      (¬ (directive.start >>> 16 ≤ h ∧ h ≤ directive.stop >>> 16) → low' h = low h) := by
  rw [accept] at accepted
  split at accepted
  · case _ added =>
      cases accepted
      exact addLoop_slots directive.start directive.stop directive.value bound
        directive.ordered slotFuel directive.start low low' (le_refl _) (Or.inl rfl) added h
  · cases accepted

/-- The value of the last directive that contains the address. -/
def latest (directives : List (RangeDirective V)) (addr : Nat) : Option V :=
  (directives.reverse.find? fun directive =>
    directive.start ≤ addr ∧ addr ≤ directive.stop).map RangeDirective.value

theorem latest_snoc (past : List (RangeDirective V)) (directive : RangeDirective V)
    (addr : Nat) :
    latest (past ++ [directive]) addr =
      if directive.start ≤ addr ∧ addr ≤ directive.stop then some directive.value
      else latest past addr := by
  rw [latest, List.reverse_append, List.reverse_singleton, List.singleton_append,
    List.find?_cons]
  by_cases inside : directive.start ≤ addr ∧ addr ≤ directive.stop
  · simp [inside]
  · simp [inside, latest]

/-- The array of a slot, empty for a `NULL` one. -/
def slotArray (low : Low V) (h : Nat) : List (GeoRange V) := (low h).getD []

/-- The table after `past`: every array that was created holds a range, all are sorted and
disjoint, and each address carries the label of the last directive that contains it. -/
structure TableInv (past : List (RangeDirective V)) (low : Low V) : Prop where
  filled : ∀ h, low h ≠ some []
  sorted : ∀ h, Ordered 0xffff (slotArray low h)
  labels : ∀ addr, firstHit (slotArray low (addr >>> 16)) (addr &&& 0xffff) = latest past addr

/-- The piece added to a slot in use does not lie wholly below the ranges stored there. -/
def NotBelow (low : Low V) (directive : RangeDirective V) : Prop :=
  ∀ h, directive.start >>> 16 ≤ h ∧ h ≤ directive.stop >>> 16 →
    slotArray low h = [] ∨ ∃ range ∈ slotArray low h, range.start ≤ slotEnd directive.stop h

theorem tableInv_empty : TableInv ([] : List (RangeDirective V)) emptyLow := by
  constructor
  · intro h
    simp [emptyLow]
  · intro h
    exact ordered_nil _
  · intro addr
    rfl

/-- One accepted directive that meets `NotBelow` relabels its addresses slot by slot. -/
theorem accept_relabels {past : List (RangeDirective V)} {low low' : Low V}
    {directive : RangeDirective V} (inv : TableInv past low)
    (bound : directive.stop < 0xffff0000) (guard : NotBelow low directive)
    (accepted : accept low directive = some low') (h : Nat)
    (visited : directive.start >>> 16 ≤ h ∧ h ≤ directive.stop >>> 16) :
    Relabelled (slotArray low h) (slotArray low' h) (slotStart directive.start h)
      (slotEnd directive.stop h) directive.value := by
  obtain ⟨a, scanned, stored⟩ := (accept_slots bound accepted h).1 visited
  have reachable : (∃ range ∈ (slotArray low h).reverse,
      range.start ≤ slotEnd directive.stop h) ∨
      ((slotArray low h).reverse = [] ∧ ([] : List (GeoRange V)) = []) := by
    rcases guard h visited with empty | ⟨range, member, reach⟩
    · exact Or.inr ⟨by rw [empty, List.reverse_nil], rfl⟩
    · exact Or.inl ⟨range, List.mem_reverse.mpr member, reach⟩
  have result := scanSlot_relabels h _ _ directive.value
    (slotStart_le_slotEnd _ _ h directive.ordered) (slotEnd_le _ h)
    (slotArray low h).reverse [] a (by simpa using inv.sorted h) (by simp) reachable scanned
  have array : slotArray low' h = a := by rw [slotArray, stored, Option.getD_some]
  rw [array]
  simpa using result

theorem in_slot_iff (start stop addr : Nat) :
    (start ≤ addr ∧ addr ≤ stop) ↔
      ((start >>> 16 ≤ addr >>> 16 ∧ addr >>> 16 ≤ stop >>> 16) ∧
        (slotStart start (addr >>> 16) ≤ addr &&& 0xffff ∧
          addr &&& 0xffff ≤ slotEnd stop (addr >>> 16))) := by
  rw [slotStart, slotEnd, and_slot, and_slot, and_slot, shiftRight_slot, shiftRight_slot,
    shiftRight_slot]
  split_ifs <;> omega

theorem tableInv_step {past : List (RangeDirective V)} {low low' : Low V}
    {directive : RangeDirective V} (inv : TableInv past low)
    (bound : directive.stop < 0xffff0000) (guard : NotBelow low directive)
    (accepted : accept low directive = some low') :
    TableInv (past ++ [directive]) low' := by
  have slots := accept_slots bound accepted
  have relabels := accept_relabels inv bound guard accepted
  have kept (h : Nat)
      (outside : ¬ (directive.start >>> 16 ≤ h ∧ h ≤ directive.stop >>> 16)) :
      slotArray low' h = slotArray low h := by
    rw [slotArray, slotArray, (slots h).2 outside]
  constructor
  · intro h
    by_cases visited : directive.start >>> 16 ≤ h ∧ h ≤ directive.stop >>> 16
    · obtain ⟨a, _, stored⟩ := (slots h).1 visited
      intro empty
      -- an added slot labels its own start, so its array is not empty
      have array : slotArray low' h = [] := by rw [slotArray, empty, Option.getD_some]
      have hit := (relabels h visited).labels (slotEnd directive.stop h)
      rw [array, if_pos ⟨slotStart_le_slotEnd _ _ h directive.ordered,
        le_refl _⟩] at hit
      cases hit
    · rw [(slots h).2 visited]
      exact inv.filled h
  · intro h
    by_cases visited : directive.start >>> 16 ≤ h ∧ h ≤ directive.stop >>> 16
    · exact (relabels h visited).ordered
    · rw [kept h visited]
      exact inv.sorted h
  · intro addr
    rw [latest_snoc]
    by_cases visited : directive.start >>> 16 ≤ addr >>> 16 ∧
        addr >>> 16 ≤ directive.stop >>> 16
    · rw [(relabels _ visited).labels, inv.labels addr]
      simp only [in_slot_iff directive.start directive.stop addr, visited, true_and, and_self]
    · have outside : ¬ (directive.start ≤ addr ∧ addr ≤ directive.stop) := by
        intro inside
        exact visited ((in_slot_iff _ _ addr).mp inside).1
      rw [kept _ visited, inv.labels addr, if_neg outside]

theorem lookup_latest {past : List (RangeDirective V)} {low : Low V} (inv : TableInv past low)
    (defaultValue : V) (addr : Nat) :
    ngxHttpGeoRangeVariable (ngxHttpGeoBlock low) defaultValue addr =
      some ((latest past addr).getD defaultValue) := by
  have labels := inv.labels addr
  rw [ngxHttpGeoRangeVariable, ngxHttpGeoBlock]
  cases slot : low (addr >>> 16) with
  | none =>
    rw [slotArray, slot, Option.getD_none, firstHit_nil] at labels
    rw [← labels]
    rfl
  | some a =>
    rw [slotArray, slot, Option.getD_some] at labels
    cases a with
    | nil => exact absurd slot (inv.filled _)
    | cons range rest => rw [← labels]

theorem unsorted_of_below {low low' : Low V} {directive : RangeDirective V}
    (sorted : ∀ h, Ordered 0xffff (slotArray low h)) (bound : directive.stop < 0xffff0000)
    (accepted : accept low directive = some low') (below : ¬ NotBelow low directive) :
    ∃ h, ¬ Ordered 0xffff (slotArray low' h) := by
  rw [NotBelow] at below
  push Not at below
  obtain ⟨h, visited, used, above⟩ := below
  refine ⟨h, ?_⟩
  obtain ⟨a, scanned, stored⟩ := (accept_slots bound accepted h).1 visited
  have appended := scanSlot_below h (slotStart directive.start h) (slotEnd directive.stop h)
    directive.value (slotArray low h).reverse []
    (fun range member => above range (List.mem_reverse.mp member))
  rw [List.reverse_reverse, List.append_nil] at appended
  rw [slotArray] at appended
  rw [scanned] at appended
  have array : slotArray low' h = a := by rw [slotArray, stored, Option.getD_some]
  rw [array, Except.ok.inj appended]
  intro ordered
  obtain ⟨range, member⟩ := List.exists_mem_of_ne_nil _ used
  have proper := (sorted h).proper range member
  have apart := (ordered_append.mp ordered).2.2 range member _ List.mem_cons_self
  have clear := above range member
  have le := slotStart_le_slotEnd _ _ h directive.ordered
  have top := slotEnd_le directive.stop h
  rw [uShort_of_le (by omega)] at apart
  dsimp only at apart
  omega

/-- What the table is to be after `past`: the lookup returns the label of the last range that
contains the address, and every slot is sorted and disjoint. -/
def TableCorrect (past : List (RangeDirective V)) (low : Low V) : Prop :=
  (∀ (defaultValue : V) (addr : Nat), addr < 2 ^ 32 →
    ngxHttpGeoRangeVariable (ngxHttpGeoBlock low) defaultValue addr =
      some ((latest past addr).getD defaultValue)) ∧
    ∀ h, Ordered 0xffff (slotArray low h)

/-- Along an accepted sequence the table is correct after every add if and only if no
directive puts a piece wholly below the ranges of a slot already in use. -/
theorem geo_table_correct_iff (directives : List (RangeDirective V))
    (ends : ∀ directive ∈ directives, directive.stop < 0xffff0000)
    (final : Low V) (accepted : run accept emptyLow directives = some final) :
    (∀ before after low, directives = before ++ after →
        run accept emptyLow before = some low → TableCorrect before low) ↔
      Meets accept NotBelow emptyLow directives := by
  constructor
  · intro correct
    apply meets_of_prefixes
    intro before directive after low split performed
    by_contra below
    have sorted := (correct before (directive :: after) low split performed).2
    have rest := accepted
    rw [split, run_append, performed] at rest
    obtain ⟨low', stepped, _⟩ := run_cons_some rest
    have bound := ends directive (by rw [split]; simp)
    obtain ⟨h, unsorted⟩ := unsorted_of_below sorted bound stepped below
    apply unsorted
    apply (correct (before ++ [directive]) after low' (by rw [split]; simp) ?_).2 h
    rw [run_append, performed, Option.bind_some, run_cons, stepped]
    rfl
  · intro meets before after low split performed
    rw [split] at meets
    have inv := @run_history _ _ _ _ TableInv before
      (fun past state directive next member inv guard stepped => tableInv_step inv
        (ends directive (by rw [split]; exact List.mem_append_left after member)) guard stepped)
      [] emptyLow tableInv_empty low (meets_append meets performed).1 performed
    rw [List.nil_append] at inv
    exact ⟨fun defaultValue addr _ => lookup_latest inv defaultValue addr, inv.sorted⟩

/-- 0.0.0.10-0.0.0.20, then a range nested in it: both pieces meet the condition. -/
theorem geo_table_correct_nested :
    Meets accept NotBelow (emptyLow : Low Nat)
      [⟨10, 20, 1, by decide⟩, ⟨12, 13, 2, by decide⟩] ∧
    ∀ before after low,
      ([⟨10, 20, 1, by decide⟩, ⟨12, 13, 2, by decide⟩] : List (RangeDirective Nat)) =
          before ++ after →
        run accept emptyLow before = some low → TableCorrect before low := by
  have accepted : ∃ final, run accept (emptyLow : Low Nat)
      [⟨10, 20, 1, by decide⟩, ⟨12, 13, 2, by decide⟩] = some final := ⟨_, rfl⟩
  obtain ⟨final, accepted⟩ := accepted
  have iff := geo_table_correct_iff [⟨10, 20, 1, by decide⟩, ⟨12, 13, 2, by decide⟩]
    (by simp) final accepted
  have meets : Meets accept NotBelow (emptyLow : Low Nat)
      [⟨10, 20, 1, by decide⟩, ⟨12, 13, 2, by decide⟩] := by
    refine ⟨fun h _ => Or.inl rfl, ?_⟩
    intro next stepped
    refine ⟨?_, fun _ _ => trivial⟩
    intro h visited
    have zero : h = 0 := by simpa using visited
    subst zero
    have stored : slotArray next 0 = [⟨10, 20, 1⟩] := by
      have := congrArg (Option.map fun low => slotArray low 0) stepped
      exact (Option.some.inj this).symm
    rw [stored]
    exact Or.inr ⟨⟨10, 20, 1⟩, List.mem_cons_self, by decide⟩
  exact ⟨meets, iff.mpr meets⟩

/-- 0.0.0.10-0.0.0.20, then 0.0.0.1-0.0.0.5 and 0.0.0.12-0.0.0.13: all three directives are
accepted, and 0.0.0.12 still has the label of the first. -/
theorem geo_below_first_range_wrong :
    ¬ ∀ (directives : List (RangeDirective Nat)) (final : Low Nat),
      (∀ directive ∈ directives, directive.stop < 0xffff0000) →
      run accept emptyLow directives = some final → TableCorrect directives final := by
  intro claim
  have accepted : ∃ final, run accept (emptyLow : Low Nat)
      [⟨10, 20, 1, by decide⟩, ⟨1, 5, 2, by decide⟩, ⟨12, 13, 3, by decide⟩] = some final ∧
      ngxHttpGeoRangeVariable (ngxHttpGeoBlock final) 0 12 = some 1 := ⟨_, rfl, rfl⟩
  obtain ⟨final, accepted, found⟩ := accepted
  have wanted := (claim _ final (by simp) accepted).1 0 12 (by decide)
  rw [found] at wanted
  revert wanted
  decide

end NgxFormal.Http.Geo
