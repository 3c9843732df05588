import NgxFormal.Core.RadixRuns
import Mathlib.Data.List.TakeWhile

/-! Any mask stands for its leading ones: insertions and deletions with it are those with a mask of
that length. -/

namespace NgxFormal.Core.Radix

/-- The number of ones that a mask starts with. -/
def leading (mask : BitVec 32) : Nat := ((List.range 32).takeWhile mask.getMsbD).length

/-- The mask has `n` ones, and then a zero. -/
structure Leads (mask : BitVec 32) (n : Nat) : Prop where
  small : n ≤ 32
  ones : ∀ i < n, mask.getMsbD i = true
  zero : n < 32 → mask.getMsbD n = false

section Masks

variable {mask key bit : BitVec 32} {i n turns node next : Nat} {t : Tree}

theorem takeWhile_range (p : Nat → Bool) (m : Nat) :
    let n := ((List.range m).takeWhile p).length
    n ≤ m ∧ (∀ i < n, p i = true) ∧ (n < m → p n = false) := by
  intro n
  have split : List.range m = (List.range m).takeWhile p ++ (List.range m).dropWhile p :=
    List.takeWhile_append_dropWhile.symm
  have length := congrArg List.length split
  rw [List.length_range, List.length_append] at length
  have at_ : ∀ i < m, (List.range m)[i]? = some i := fun i inside => by
    rw [List.getElem?_range inside]
  refine ⟨by omega, ?_, ?_⟩
  · intro i inside
    have here := at_ i (by omega)
    rw [split, List.getElem?_append_left inside] at here
    exact List.mem_takeWhile_imp (List.mem_of_getElem? here)
  · intro inside
    have here := at_ n inside
    rw [split, List.getElem?_append_right (Nat.le_refl _), Nat.sub_self] at here
    cases behind : (List.range m).dropWhile p with
    | nil =>
      rw [behind] at here
      cases here
    | cons a rest =>
      rw [behind] at here
      obtain rfl := Option.some.inj here
      have stopped := List.head?_dropWhile_not p (List.range m)
      rw [behind] at stopped
      simpa using stopped

theorem leads_leading (mask : BitVec 32) : Leads mask (leading mask) := by
  obtain ⟨small, ones, zero⟩ := takeWhile_range mask.getMsbD 32
  exact ⟨small, ones, zero⟩

theorem Leads.bitAt_and (leads : Leads mask n) (le : i ≤ n) : bitAt i &&& mask = 0 ↔ ¬i < n := by
  by_cases inside : i < 32
  · rw [BitVec.and_comm, ← not_iff_not, ← ne_eq, and_bitAt _ inside, not_not]
    constructor
    · intro set
      by_contra reached
      obtain rfl : i = n := by omega
      rw [leads.zero inside] at set
      cases set
    · exact leads.ones i
  · have small := leads.small
    obtain rfl : i = n := by omega
    obtain rfl : i = 32 := by omega
    have none : bitAt 32 &&& mask = 0 := by
      have zero : bitAt 32 = 0#32 := by decide
      rw [zero, BitVec.zero_and]
      rfl
    exact ⟨fun _ => Nat.lt_irrefl _, fun _ => none⟩

theorem Leads.same (leads : Leads mask n) (le : i ≤ n) :
    bitAt i &&& mask = 0 ↔ bitAt i &&& prefixMask n = 0 :=
  (leads.bitAt_and le).trans (bitAt_and_mask leads.small).symm

theorem Leads.insertDescend (leads : Leads mask n) (le : i ≤ n) :
    insertDescend t key mask turns (bitAt i) node next =
        insertDescend t key (prefixMask n) turns (bitAt i) node next ∧
      ∃ j ≤ n, (Radix.insertDescend t key mask turns (bitAt i) node next).1 = bitAt j := by
  induction turns generalizing i node next with
  | zero => exact ⟨rfl, i, le, rfl⟩
  | succ turns ih =>
    rw [Radix.insertDescend, Radix.insertDescend]
    by_cases done : bitAt i &&& mask = 0
    · rw [if_pos done, if_pos ((leads.same le).mp done)]
      exact ⟨rfl, i, le, rfl⟩
    · rw [if_neg done, if_neg (fun other => done ((leads.same le).mpr other))]
      have inside : i < n := not_not.mp fun reached => done ((leads.bitAt_and le).mpr reached)
      dsimp only
      split
      · exact ⟨rfl, i, le, rfl⟩
      · rw [bitAt_succ]
        exact ih inside

theorem Leads.insertExtend (leads : Leads mask n) (le : i ≤ n) :
    insertExtend key mask turns (bitAt i) node t =
      insertExtend key (prefixMask n) turns (bitAt i) node t := by
  induction turns generalizing i node t with
  | zero => rfl
  | succ turns ih =>
    rw [Radix.insertExtend, Radix.insertExtend]
    by_cases done : bitAt i &&& mask = 0
    · rw [if_pos done, if_pos ((leads.same le).mp done)]
    · rw [if_neg done, if_neg (fun other => done ((leads.same le).mpr other))]
      have inside : i < n := not_not.mp fun reached => done ((leads.bitAt_and le).mpr reached)
      rw [bitAt_succ]
      exact ih inside

theorem Leads.deleteDescend (leads : Leads mask n) (le : i ≤ n) :
    deleteDescend t key mask turns (bitAt i) node =
      deleteDescend t key (prefixMask n) turns (bitAt i) node := by
  induction turns generalizing i node with
  | zero => rfl
  | succ turns ih =>
    rw [Radix.deleteDescend, Radix.deleteDescend]
    by_cases done : node = 0 ∨ bitAt i &&& mask = 0
    · rw [if_pos done, if_pos (done.imp_right (leads.same le).mp)]
    · rw [if_neg done, if_neg (fun other => done (other.imp_right (leads.same le).mpr))]
      have inside : i < n := not_not.mp fun reached =>
        done (Or.inr ((leads.bitAt_and le).mpr reached))
      rw [bitAt_succ]
      exact ih inside

theorem insert_leading (t : Tree) (key mask : BitVec 32) (value : UInt64) :
    ngxRadix32treeInsert t key mask value =
      ngxRadix32treeInsert t key (prefixMask (leading mask)) value := by
  have leads := leads_leading mask
  obtain ⟨same, j, le, bit⟩ :=
    @Leads.insertDescend mask key 0 _ 32 t.root t.root t leads (Nat.zero_le _)
  have top : (0x80000000 : BitVec 32) = bitAt 0 := rfl
  unfold ngxRadix32treeInsert
  rw [top, ← same]
  dsimp only
  rw [bit, leads.insertExtend le]

theorem delete_leading (t : Tree) (key mask : BitVec 32) :
    tryDelete t key mask = tryDelete t key (prefixMask (leading mask)) := by
  have top : (0x80000000 : BitVec 32) = bitAt 0 := rfl
  unfold tryDelete
  rw [top, (leads_leading mask).deleteDescend (Nat.zero_le _)]

end Masks

end NgxFormal.Core.Radix

/-! A tree that stores a table may have nodes of no use: insertions and deletions without a dereference
of `NULL`, and `ngx_radix_tree_create` with preallocated nodes. -/

namespace NgxFormal.Core.Radix

/-- `sizeof(ngx_radix_tree_t)` -/
def treeSizeof : Nat := 40

/-- The levels that `preallocate` stands for. -/
def levels (pagesize : Nat) (preallocate : Int) : Nat :=
  if preallocate = -1 then
    if pagesize / treeSizeof = 128 then 6
    else if pagesize / treeSizeof = 256 then 7
    else 8
  else preallocate.toNat

/-- The inner loop of `ngx_radix_tree_create`. -/
def insertKeys (mask inc : BitVec 32) : Nat → BitVec 32 → Tree → Option Tree
  | 0, _, _ => none
  | turns + 1, key, t =>
    let (rc, t) := ngxRadix32treeInsert t key mask noValue
    if rc ≠ .ok then none
    else if key + inc = 0 then some t
    else insertKeys mask inc turns (key + inc) t

def insertLevels : Nat → BitVec 32 → BitVec 32 → Tree → Option Tree
  | 0, _, _, t => some t
  | preallocate + 1, mask, inc, t =>
    let mask := mask >>> 1 ||| 0x80000000
    (insertKeys mask inc (2 ^ 32) 0 t).bind fun t => insertLevels preallocate mask (inc >>> 1) t

/-- `ngx_radix_tree_create` with any `preallocate`. -/
def createPreallocated (memory : Nat → Node) (pagesize : Nat) (preallocate : Int) : Option Tree :=
  insertLevels (levels pagesize preallocate) 0 0x80000000 (ngxRadixTreeCreate memory)

def entry (key mask : BitVec 32) : BitVec 32 × BitVec 32 :=
  (key &&& prefixMask (leading mask), prefixMask (leading mask))

/-- An insertion keeps the value that is there, and `NGX_RADIX_NO_VALUE` is none. -/
def Table.store (table : Table) (key mask : BitVec 32) (value : UInt64) : Table :=
  if (table (entry key mask)).isSome ∨ value = noValue then table
  else Function.update table (entry key mask) (some value)

def Table.remove (table : Table) (key mask : BitVec 32) : Table :=
  Function.update table (entry key mask) none

/-- The tree holds the table, in whatever nodes. -/
def Stores (t : Tree) (table : Table) : Prop :=
  ∃ place list, Linked t place list ∧ Holds t place table

section Stores

variable {t : Tree} {place : List Bool → Nat} {list : List Nat} {table : Table} {key mask : BitVec 32}
  {n : Nat}

theorem Holds.congr {u : Tree} {place' : List Bool → Nat} (holds : Holds t place table)
    (same : ∀ other, content u place' other = content t place other) : Holds u place' table :=
  ⟨holds.valued, fun key n small => (same _).trans (holds.same key n small)⟩

theorem stores_create (memory : Nat → Node) : Stores (ngxRadixTreeCreate memory) fun _ => none :=
  ⟨_, _, (represents_create memory).linked, (represents_create memory).holds⟩

theorem Stores.insert (stores : Stores t table) (key mask : BitVec 32) (value : UInt64) :
    Stores (ngxRadix32treeInsert t key mask value).2 (table.store key mask value) ∧
      (ngxRadix32treeInsert t key mask value).1 =
        if (table (entry key mask)).isSome then .busy else .ok := by
  obtain ⟨place, list, linked, holds⟩ := stores
  have small := (leads_leading mask).small
  rw [insert_leading, entry, Table.store, entry]
  have result := linked.insert small key value
  have held := holds.isSome small key
  by_cases there : content t place (bits key (leading mask)) ≠ noValue
  · rw [if_pos there] at result
    rw [if_pos (Or.inl (held.mp there)), if_pos (held.mp there), result]
    exact ⟨⟨place, list, linked, holds⟩, rfl⟩
  · rw [if_neg there] at result
    obtain ⟨done, place', list', linked', _, changed⟩ := result
    have absent := fun isSome => there (held.mpr isSome)
    rw [if_neg absent]
    refine ⟨⟨place', list', linked', ?_⟩, done⟩
    by_cases nothing : value = noValue
    · rw [if_pos (Or.inr nothing)]
      refine holds.congr fun other => ?_
      rw [changed]
      split
      · rename_i same
        rw [nothing, same]
        exact (not_not.mp there).symm
      · rfl
    · rw [if_neg (not_or.mpr ⟨absent, nothing⟩)]
      exact holds.update small key (fun absurd => nothing (Option.some.inj absurd)) changed

theorem Stores.find (stores : Stores t table) (key : BitVec 32) :
    ngxRadix32treeFind t key = table.longest key := by
  obtain ⟨place, list, linked, holds⟩ := stores
  exact linked.find holds key

theorem Table.store_none (key mask : BitVec 32) (table : Table) :
    table.store key mask noValue = table := if_pos (Or.inr rfl)

theorem Stores.insertKeys {inc : BitVec 32} {turns k m : Nat} (stores : Stores t fun _ => none)
    (whole : m * inc.toNat = 2 ^ 32) (here : key.toNat = k * inc.toNat) (inside : k < m)
    (enough : m ≤ k + turns) :
    ∃ u, insertKeys mask inc turns key t = some u ∧ Stores u fun _ => none := by
  induction turns generalizing k key t with
  | zero => omega
  | succ turns ih =>
    obtain ⟨stores', done⟩ := stores.insert key mask noValue
    rw [Table.store_none] at stores'
    rw [Radix.insertKeys]
    dsimp only
    rw [if_neg (fun failed => failed done)]
    have sum : (key + inc).toNat = (k + 1) * inc.toNat % 2 ^ 32 := by
      rw [BitVec.toNat_add, here, Nat.succ_mul]
    by_cases last : key + inc = 0
    · rw [if_pos last]
      exact ⟨_, rfl, stores'⟩
    · rw [if_neg last]
      have more : k + 1 < m := by
        by_contra reached
        obtain rfl : m = k + 1 := by omega
        apply last
        apply BitVec.eq_of_toNat_eq
        rw [sum, whole]
        rfl
      have positive : 0 < inc.toNat := by
        by_contra zero
        obtain zero : inc.toNat = 0 := by omega
        rw [zero] at whole
        cases whole
      have below : (k + 1) * inc.toNat < 2 ^ 32 := by
        rw [← whole]
        exact Nat.mul_lt_mul_of_pos_right more positive
      exact ih stores' (by rw [sum, Nat.mod_eq_of_lt below]) more (by omega)

theorem Stores.insertLevels {i preallocate : Nat} (stores : Stores t fun _ => none) :
    ∃ u, insertLevels preallocate mask (bitAt i) t = some u ∧ Stores u fun _ => none := by
  induction preallocate generalizing i mask t with
  | zero => exact ⟨t, rfl, stores⟩
  | succ preallocate ih =>
    rw [Radix.insertLevels]
    have filled : ∃ u, Radix.insertKeys (mask >>> 1 ||| 0x80000000) (bitAt i) (2 ^ 32) 0 t = some u ∧
        Stores u fun _ => none := by
      by_cases inside : i < 32
      · have power : (bitAt i).toNat = 2 ^ (31 - i) := by
          rw [bitAt_eq inside, BitVec.toNat_twoPow, Nat.mod_eq_of_lt]
          exact Nat.pow_lt_pow_right Nat.one_lt_two (by omega)
        have whole : 2 ^ (i + 1) * (bitAt i).toNat = 2 ^ 32 := by
          rw [power, ← Nat.pow_add]
          congr 1
          omega
        refine @Stores.insertKeys t 0 _ (bitAt i) (2 ^ 32) 0 (2 ^ (i + 1)) stores whole ?_
          (Nat.two_pow_pos _) ?_
        · rw [Nat.zero_mul]
          rfl
        · rw [Nat.zero_add]
          exact Nat.pow_le_pow_right Nat.two_pos (by omega)
      · -- the increment is gone, so that the only key is 0
        have none : bitAt i = 0 := by
          have zero := (bitAt_and_mask (n := 32) (Nat.le_refl _)).mpr inside
          have ones : prefixMask 32 = BitVec.allOnes 32 := by decide
          rw [ones, BitVec.and_allOnes] at zero
          exact zero
        obtain ⟨stores', done⟩ := stores.insert 0 (mask >>> 1 ||| 0x80000000) noValue
        rw [Table.store_none] at stores'
        have turns : (2 : Nat) ^ 32 = (2 ^ 32 - 1) + 1 := by decide
        rw [turns, Radix.insertKeys, none]
        dsimp only
        rw [if_neg (fun failed => failed done), if_pos (by decide)]
        exact ⟨_, rfl, stores'⟩
    obtain ⟨u, isFilled, stored⟩ := filled
    rw [isFilled, Option.bind_some, bitAt_succ]
    exact ih stored

/-- A tree is made for any page size and any number of levels, and stores nothing. -/
theorem create_stores (memory : Nat → Node) (pagesize : Nat) (preallocate : Int) :
    ∃ t, createPreallocated memory pagesize preallocate = some t ∧ Stores t fun _ => none :=
  @Stores.insertLevels _ 0 0 _ (stores_create memory)

end Stores

end NgxFormal.Core.Radix

/-! When `ngx_radix32tree_delete` keeps off the parent of the root, and says `NGX_OK` only for a value
that was there. -/

namespace NgxFormal.Core.Radix

/-- The trees that can be made, each with the values stored in it. -/
inductive Reachable : Tree → Table → Prop
  | create (memory : Nat → Node) (pagesize : Nat) {preallocate : Int} {t : Tree}
      (bound : -1 ≤ preallocate) (created : createPreallocated memory pagesize preallocate = some t) :
      Reachable t fun _ => none
  | insert {t : Tree} {table : Table} (reachable : Reachable t table) (key mask : BitVec 32)
      (value : UInt64) :
      Reachable (ngxRadix32treeInsert t key mask value).2 (table.store key mask value)
  | delete {t u : Tree} {table : Table} {rc : Rc} (reachable : Reachable t table)
      (key mask : BitVec 32) (done : tryDelete t key mask = some (rc, u)) :
      Reachable u (table.remove key mask)

def nodeAt (t : Tree) (path : List Bool) : Nat :=
  path.foldl (fun a side => if a = 0 then 0 else (t.nodes a).child side) t.root

section Delete

variable {t : Tree} {place : List Bool → Nat} {list : List Nat} {table : Table} {n : Nat}
  {key mask : BitVec 32}

theorem Linked.nodeAt (linked : Linked t place list) (path : List Bool) :
    nodeAt t path = place path := by
  induction path using List.reverseRecOn with
  | nil => exact linked.root.symm
  | append_singleton path side ih =>
    unfold Radix.nodeAt at ih ⊢
    rw [List.foldl_append, ih]
    by_cases none : place path = 0
    · have below : place (path ++ [side]) = 0 := by
        by_contra there
        exact linked.closed path side there none
      rw [below]
      exact if_pos none
    · exact (if_neg none).trans (linked.child path side none)

theorem Linked.place_eq_root (linked : Linked t place list) (key : BitVec 32) :
    place (bits key n) = t.root ↔ n = 0 := by
  constructor
  · intro same
    rw [← linked.root] at same
    have top : place [] ≠ 0 := by rw [linked.root]; exact linked.top
    have path := linked.single (bits key n) [] (same ▸ top) same
    have length := congrArg List.length path
    rw [bits_length] at length
    exact length
  · rintro rfl
    exact linked.root

/-- The node of the prefix can go: it is not there, it keeps a child, or it is below the root and has a
value. -/
def Removable (t : Tree) (key mask : BitVec 32) : Prop :=
  let a := nodeAt t (bits key (leading mask))
  a = 0 ∨ ((t.nodes a).right ≠ 0 ∨ (t.nodes a).left ≠ 0) ∨ (a ≠ t.root ∧ (t.nodes a).value ≠ noValue)

/-- The deletion returns, and has deleted something when it says so. -/
def DeleteSafe (t : Tree) (table : Table) (key mask : BitVec 32) : Prop :=
  ∃ rc u, tryDelete t key mask = some (rc, u) ∧
    (rc = .ok → (table (entry key mask)).isSome = true)

theorem Linked.tryDelete_walk (linked : Linked t place list) (small : n ≤ 32) (key : BitVec 32) :
    tryDelete t key (prefixMask n) =
      if place (bits key n) = 0 then some (.error, t)
      else if place (bits key n ++ [true]) ≠ 0 ∨ place (bits key n ++ [false]) ≠ 0 then
        if content t place (bits key n) ≠ noValue then
          some (.ok, t.setValue (place (bits key n)) noValue)
        else some (.error, t)
      else (Radix.tryPrune 32 (place (bits key n)) t).map fun t => (.ok, t) := by
  have walked : Radix.deleteDescend t key (prefixMask n) 32 0x80000000 t.root = place (bits key n) := by
    rw [← linked.root]
    exact @Linked.deleteDescend t place list key 0 n 32 linked small (by omega) (Nat.zero_le _)
  unfold tryDelete
  simp only [walked]
  by_cases none : place (bits key n) = 0
  · rw [if_pos none, if_pos none]
  · have right : (t.nodes (place (bits key n))).right = place (bits key n ++ [true]) :=
      linked.child _ true none
    have left : (t.nodes (place (bits key n))).left = place (bits key n ++ [false]) :=
      linked.child _ false none
    rw [if_neg none, if_neg none, right, left, ← content_of_node none]

theorem Linked.tryDelete_leaf (linked : Linked t place list) (key : BitVec 32) (small : n ≤ 32)
    (some_bits : n ≠ 0) (there : place (bits key n) ≠ 0)
    (leaf : ¬(place (bits key n ++ [true]) ≠ 0 ∨ place (bits key n ++ [false]) ≠ 0)) :
    ∃ u place' list', Radix.tryPrune 32 (place (bits key n)) t = some u ∧ Linked u place' list' ∧
      ∀ other, content u place' other =
        if other = bits key n then noValue else content t place other := by
  obtain ⟨m, rfl⟩ : ∃ m, n = m + 1 := ⟨n - 1, by omega⟩
  rw [bits_succ] at there leaf ⊢
  have childless : ∀ side, place (bits key m ++ [key.getMsbD m] ++ [side]) = 0 := by
    intro side
    by_contra child
    cases side with
    | true => exact leaf (Or.inl child)
    | false => exact leaf (Or.inr child)
  obtain ⟨u, place', list', done, linked', _, changed⟩ :=
    @Linked.tryPrune t place list 32 _ _ linked there childless (by rw [bits_length]; omega)
  exact ⟨u, place', list', done, linked', changed⟩

/-- The root without children is not deleted: its parent is read. -/
theorem Linked.tryPrune_root (linked : Linked t place list) :
    Radix.tryPrune 32 t.root t = none := if_pos linked.rootParent

theorem Stores.delete {u : Tree} {rc : Rc} (stores : Stores t table)
    (done : tryDelete t key mask = some (rc, u)) : Stores u (table.remove key mask) := by
  obtain ⟨place, list, linked, holds⟩ := stores
  have small := (leads_leading mask).small
  rw [delete_leading, linked.tryDelete_walk small] at done
  have update : ∀ {v : Tree} {place' : List Bool → Nat} {list' : List Nat}, Linked v place' list' →
      (∀ other, content v place' other =
        if other = bits key (leading mask) then noValue else content t place other) →
      Stores v (table.remove key mask) := by
    intro v place' list' linked' changed
    exact ⟨place', list', linked', holds.update small key (fun absurd => by cases absurd) changed⟩
  have unchanged : content t place (bits key (leading mask)) = noValue → ∀ other,
      content t place other =
        if other = bits key (leading mask) then noValue else content t place other := by
    intro nothing other
    split
    · rename_i same
      rw [same, nothing]
    · rfl
  split at done
  · rename_i none
    obtain ⟨_, rfl⟩ := Prod.mk.inj (Option.some.inj done)
    exact update linked (unchanged (content_of_none none))
  · rename_i there
    split at done
    · split at done
      · obtain ⟨_, rfl⟩ := Prod.mk.inj (Option.some.inj done)
        exact update (linked.setValue _ _) (linked.content_setValue there noValue)
      · rename_i nothing
        obtain ⟨_, rfl⟩ := Prod.mk.inj (Option.some.inj done)
        exact update linked (unchanged (not_not.mp nothing))
    · rename_i leaf
      obtain ⟨v, pruned, shape⟩ := Option.map_eq_some_iff.mp done
      obtain ⟨_, rfl⟩ := Prod.mk.inj shape
      by_cases top : leading mask = 0
      · rw [(linked.place_eq_root key).mpr top, linked.tryPrune_root] at pruned
        cases pruned
      · obtain ⟨w, place', list', isDone, linked', changed⟩ :=
          linked.tryDelete_leaf key small top there leaf
        rw [isDone] at pruned
        obtain rfl := Option.some.inj pruned
        exact update linked' changed

theorem Reachable.stores (reachable : Reachable t table) : Stores t table := by
  induction reachable with
  | create memory pagesize _ created =>
    obtain ⟨u, isCreated, stores⟩ := create_stores memory pagesize _
    rw [created] at isCreated
    obtain rfl := Option.some.inj isCreated
    exact stores
  | insert _ key mask value ih => exact (ih.insert key mask value).1
  | delete _ key mask done ih => exact ih.delete done

end Delete

/-- A deletion from any tree is safe exactly when the node of the prefix is removable. -/
theorem delete_safe_iff {t : Tree} {table : Table} (reachable : Reachable t table)
    (key mask : BitVec 32) : DeleteSafe t table key mask ↔ Removable t key mask := by
  obtain ⟨place, list, linked, holds⟩ := reachable.stores
  have small := (leads_leading mask).small
  have held := holds.isSome small key
  unfold DeleteSafe Removable
  rw [delete_leading, linked.tryDelete_walk small, linked.nodeAt, entry, ← held]
  dsimp only
  by_cases none : place (bits key (leading mask)) = 0
  · rw [if_pos none]
    exact ⟨fun _ => Or.inl none, fun _ => ⟨.error, t, rfl, fun absurd => by cases absurd⟩⟩
  · have right : (t.nodes (place (bits key (leading mask)))).right =
        place (bits key (leading mask) ++ [true]) := linked.child _ true none
    have left : (t.nodes (place (bits key (leading mask)))).left =
        place (bits key (leading mask) ++ [false]) := linked.child _ false none
    rw [if_neg none, right, left, ← content_of_node none]
    by_cases children : place (bits key (leading mask) ++ [true]) ≠ 0 ∨
        place (bits key (leading mask) ++ [false]) ≠ 0
    · rw [if_pos children]
      refine ⟨fun _ => Or.inr (Or.inl children), fun _ => ?_⟩
      by_cases value : content t place (bits key (leading mask)) ≠ noValue
      · rw [if_pos value]
        exact ⟨.ok, _, rfl, fun _ => value⟩
      · rw [if_neg value]
        exact ⟨.error, t, rfl, fun absurd => by cases absurd⟩
    · rw [if_neg children]
      by_cases top : leading mask = 0
      · have isRoot := (linked.place_eq_root key).mpr top
        rw [isRoot, linked.tryPrune_root]
        constructor
        · rintro ⟨rc, u, absurd, _⟩
          cases absurd
        · rintro (absurd | absurd | ⟨absurd, _⟩)
          · exact (linked.top absurd).elim
          · exact (children absurd).elim
          · exact (absurd rfl).elim
      · obtain ⟨u, _, _, done, _, _⟩ := linked.tryDelete_leaf key small top none children
        rw [done]
        constructor
        · rintro ⟨rc, v, isDone, stored⟩
          obtain ⟨rfl, _⟩ := Prod.mk.inj (Option.some.inj isDone)
          exact Or.inr (Or.inr ⟨fun same => top ((linked.place_eq_root key).mp same), stored rfl⟩)
        · rintro (absurd | absurd | ⟨_, value⟩)
          · exact (none absurd).elim
          · exact (children absurd).elim
          · exact ⟨.ok, u, rfl, fun _ => value⟩

/-- The root of a tree without other nodes is deleted through its parent. -/
theorem delete_root : ¬∀ (t : Tree) (table : Table), Reachable t table →
    ∀ key mask, DeleteSafe t table key mask := by
  intro all
  obtain ⟨rc, u, done, _⟩ := all (ngxRadixTreeCreate fun _ => ⟨0, 0, 0, 0⟩) _
    (.create (fun _ => ⟨0, 0, 0, 0⟩) 4096 (by decide : (-1 : Int) ≤ 0) rfl) 0 0
  have crashed : (tryDelete (ngxRadixTreeCreate fun _ => ⟨0, 0, 0, 0⟩) 0 0).isNone = true := by
    decide +kernel
  rw [done] at crashed
  cases crashed

/-- A preallocated node without a value is deleted, too. -/
example : ((createPreallocated (fun _ => ⟨0, 0, 0, 0⟩) 4096 1).bind fun t =>
    (tryDelete t 0 0x80000000).map Prod.fst) = some .ok := by decide +kernel

theorem delete_safe_stored : DeleteSafe
    (ngxRadix32treeInsert (ngxRadixTreeCreate fun _ => ⟨0, 0, 0, 0⟩) 0x0A000000 0xFF000000 1).2
    (Table.store (fun _ => none) 0x0A000000 0xFF000000 1) 0x0A000000 0xFF000000 := by
  have reachable : Reachable _ _ := (Reachable.create (fun _ => ⟨0, 0, 0, 0⟩) 4096
    (by decide : (-1 : Int) ≤ 0) rfl).insert 0x0A000000 0xFF000000 1
  apply (delete_safe_iff reachable 0x0A000000 0xFF000000).mpr
  unfold Removable
  decide +kernel

end NgxFormal.Core.Radix
