import Mathlib.Algebra.Order.Ring.Int
import Mathlib.Data.BitVec

/-! `ngx_radix32tree_insert`, `ngx_radix32tree_delete` and `ngx_radix32tree_find` on nodes in memory.
The address 0 is `NULL`. -/

namespace NgxFormal.Core.Radix

/-- `NGX_RADIX_NO_VALUE` -/
def noValue : UInt64 := 0xFFFFFFFFFFFFFFFF

/-- `ngx_radix_node_t` -/
structure Node where
  right : Nat
  left : Nat
  parent : Nat
  value : UInt64
  deriving DecidableEq, Repr

/-- `ngx_radix_tree_t`. A page from the pool is memory that no node has been in, so the nodes that
are cut from the pages are numbered in that order; `start` is the next one. -/
structure Tree where
  root : Nat
  free : Nat
  start : Nat
  nodes : Nat → Node

inductive Rc
  | ok
  | error
  | busy
  deriving DecidableEq, Repr

def Tree.write (t : Tree) (a : Nat) (node : Node) : Tree :=
  { t with nodes := Function.update t.nodes a node }

def Tree.setRight (t : Tree) (a next : Nat) : Tree := t.write a { t.nodes a with right := next }

def Tree.setLeft (t : Tree) (a next : Nat) : Tree := t.write a { t.nodes a with left := next }

def Tree.setValue (t : Tree) (a : Nat) (value : UInt64) : Tree :=
  t.write a { t.nodes a with value := value }

def ngxRadixAlloc (t : Tree) : Nat × Tree :=
  if t.free ≠ 0 then (t.free, { t with free := (t.nodes t.free).right })
  else (t.start, { t with start := t.start + 1 })

/-- `ngx_radix_tree_create` with `preallocate` 0; `memory` is what the pages happen to hold. -/
def ngxRadixTreeCreate (memory : Nat → Node) : Tree :=
  let (root, t) := ngxRadixAlloc ⟨0, 0, 1, memory⟩
  { t.write root ⟨0, 0, 0, noValue⟩ with root := root }

/-- The pointer that the test of `key & bit` selects. -/
def follow (node : Node) (key bit : BitVec 32) : Nat :=
  if key &&& bit ≠ 0 then node.right else node.left

/-- The first loop of `ngx_radix32tree_insert`: `bit`, `node` and `next` behind it. The bit is zero
after 32 turns. -/
def insertDescend (t : Tree) (key mask : BitVec 32) :
    Nat → BitVec 32 → Nat → Nat → BitVec 32 × Nat × Nat
  | 0, bit, node, next => (bit, node, next)
  | turns + 1, bit, node, next =>
    if bit &&& mask = 0 then (bit, node, next)
    else
      let next := follow (t.nodes node) key bit
      if next = 0 then (bit, node, next)
      else insertDescend t key mask turns (bit >>> 1) next next

/-- The second loop: the last node, and the tree. -/
def insertExtend (key mask : BitVec 32) : Nat → BitVec 32 → Nat → Tree → Nat × Tree
  | 0, _, node, t => (node, t)
  | turns + 1, bit, node, t =>
    if bit &&& mask = 0 then (node, t)
    else
      let (next, t) := ngxRadixAlloc t
      let t := t.write next ⟨0, 0, node, noValue⟩
      let t := if key &&& bit ≠ 0 then t.setRight node next else t.setLeft node next
      insertExtend key mask turns (bit >>> 1) next t

def ngxRadix32treeInsert (t : Tree) (key mask : BitVec 32) (value : UInt64) : Rc × Tree :=
  let (bit, node, next) := insertDescend t key mask 32 0x80000000 t.root t.root
  if next ≠ 0 then
    if (t.nodes node).value ≠ noValue then (.busy, t) else (.ok, t.setValue node value)
  else
    let (node, t) := insertExtend key mask 32 bit node t
    (.ok, t.setValue node value)

/-- The first loop of `ngx_radix32tree_delete`. -/
def deleteDescend (t : Tree) (key mask : BitVec 32) : Nat → BitVec 32 → Nat → Nat
  | 0, _, node => node
  | turns + 1, bit, node =>
    if node = 0 ∨ bit &&& mask = 0 then node
    else deleteDescend t key mask turns (bit >>> 1) (follow (t.nodes node) key bit)

/-- The node leaves the tree and becomes the first free one. -/
def unlink (t : Tree) (node : Nat) : Tree :=
  let parent := (t.nodes node).parent
  let t := if (t.nodes parent).right = node then t.setRight parent 0 else t.setLeft parent 0
  { t.setRight node t.free with free := node }

/-- The second loop, over at most the depth of the tree. -/
def deletePrune : Nat → Nat → Tree → Tree
  | 0, _, t => t
  | turns + 1, node, t =>
    let t := unlink t node
    let node := (t.nodes node).parent
    if (t.nodes node).right ≠ 0 ∨ (t.nodes node).left ≠ 0 then t
    else if (t.nodes node).value ≠ noValue then t
    else if (t.nodes node).parent = 0 then t
    else deletePrune turns node t

def ngxRadix32treeDelete (t : Tree) (key mask : BitVec 32) : Rc × Tree :=
  let node := deleteDescend t key mask 32 0x80000000 t.root
  if node = 0 then (.error, t)
  else if (t.nodes node).right ≠ 0 ∨ (t.nodes node).left ≠ 0 then
    if (t.nodes node).value ≠ noValue then (.ok, t.setValue node noValue) else (.error, t)
  else (.ok, deletePrune 32 node t)

/-- The second loop of `ngx_radix32tree_delete` with the read of `node->parent->right` in view: `none`
when the parent is `NULL`, or when the turns are not enough. -/
def tryPrune : Nat → Nat → Tree → Option Tree
  | 0, _, _ => none
  | turns + 1, node, t =>
    if (t.nodes node).parent = 0 then none
    else
      let t := unlink t node
      let node := (t.nodes node).parent
      if (t.nodes node).right ≠ 0 ∨ (t.nodes node).left ≠ 0 then some t
      else if (t.nodes node).value ≠ noValue then some t
      else if (t.nodes node).parent = 0 then some t
      else tryPrune turns node t

/-- `ngx_radix32tree_delete`, with that read in view. -/
def tryDelete (t : Tree) (key mask : BitVec 32) : Option (Rc × Tree) :=
  let node := deleteDescend t key mask 32 0x80000000 t.root
  if node = 0 then some (.error, t)
  else if (t.nodes node).right ≠ 0 ∨ (t.nodes node).left ≠ 0 then
    if (t.nodes node).value ≠ noValue then some (.ok, t.setValue node noValue) else some (.error, t)
  else (tryPrune 32 node t).map fun t => (.ok, t)

/-- The loop of `ngx_radix32tree_find`, over at most the depth of the tree. -/
def findLoop (t : Tree) (key : BitVec 32) : Nat → BitVec 32 → Nat → UInt64 → UInt64
  | 0, _, _, value => value
  | turns + 1, bit, node, value =>
    if node = 0 then value
    else
      let value := if (t.nodes node).value ≠ noValue then (t.nodes node).value else value
      findLoop t key turns (bit >>> 1) (follow (t.nodes node) key bit) value

def ngxRadix32treeFind (t : Tree) (key : BitVec 32) : UInt64 :=
  findLoop t key 33 0x80000000 t.root noValue

/-- The mask of the first `n` bits. -/
def prefixMask (n : Nat) : BitVec 32 := BitVec.allOnes 32 <<< (32 - n)

/-- The first `n` bits of a key. -/
def bits (key : BitVec 32) (n : Nat) : List Bool := (List.range n).map key.getMsbD

/-- `bit` after `i` turns of a loop. -/
def bitAt (i : Nat) : BitVec 32 := 0x80000000#32 >>> i

section Bits

variable {key : BitVec 32} {i n : Nat}

theorem bits_succ (key : BitVec 32) (n : Nat) : bits key (n + 1) = bits key n ++ [key.getMsbD n] := by
  rw [bits, List.range_succ, List.map_append]
  rfl

@[simp] theorem bits_length (key : BitVec 32) (n : Nat) : (bits key n).length = n := by
  simp [bits]

theorem bitAt_succ (i : Nat) : bitAt i >>> 1 = bitAt (i + 1) := by
  rw [bitAt, bitAt, BitVec.shiftRight_add]

theorem bitAt_eq (inside : i < 32) : bitAt i = BitVec.twoPow 32 (31 - i) := by
  have all : ∀ i : Fin 32, bitAt i.val = BitVec.twoPow 32 (31 - i.val) := by decide
  exact all ⟨i, inside⟩

theorem and_bitAt (x : BitVec 32) (inside : i < 32) : x &&& bitAt i ≠ 0 ↔ x.getMsbD i = true := by
  rw [bitAt_eq inside, BitVec.and_twoPow, BitVec.getMsbD]
  have shift : 32 - 1 - i = 31 - i := rfl
  rw [shift]
  by_cases set : x.getLsbD (31 - i) = true
  · have some_bit : BitVec.twoPow 32 (31 - i) ≠ 0#32 := by
      rw [← bitAt_eq inside]
      have all : ∀ i : Fin 32, bitAt i.val ≠ 0#32 := by decide
      exact all ⟨i, inside⟩
    simp [set, inside, some_bit]
  · simp [set]

theorem prefixMask_getMsbD (small : n ≤ 32) (i : Nat) : (prefixMask n).getMsbD i = decide (i < n) := by
  rw [prefixMask, BitVec.getMsbD_shiftLeft, BitVec.getMsbD_allOnes]
  by_cases inside : i < n
  · have sum : i + (32 - n) < 32 := by omega
    simp [inside, sum]
  · have sum : ¬i + (32 - n) < 32 := by omega
    simp [inside, sum]

/-- The loops run as long as the mask has a bit. -/
theorem bitAt_and_mask (small : n ≤ 32) : bitAt i &&& prefixMask n = 0 ↔ ¬i < n := by
  by_cases inside : i < 32
  · rw [BitVec.and_comm, ← not_iff_not, ← ne_eq, and_bitAt _ inside, prefixMask_getMsbD small]
    simp
  · have none : bitAt i = 0 := by
      obtain ⟨j, rfl⟩ : ∃ j, i = 32 + j := ⟨i - 32, by omega⟩
      rw [bitAt, BitVec.shiftRight_add]
      have zero : (0x80000000#32 >>> 32) = 0#32 := by decide
      rw [zero, BitVec.zero_ushiftRight]
      rfl
    rw [none]
    have outside : ¬i < n := by omega
    simp [outside]

theorem bits_eq_iff (small : n ≤ 32) (key other : BitVec 32) :
    bits key n = bits other n ↔ key &&& prefixMask n = other &&& prefixMask n := by
  constructor
  · intro same
    apply BitVec.eq_of_getMsbD_eq
    intro i inside
    rw [BitVec.getMsbD_and, BitVec.getMsbD_and, prefixMask_getMsbD small]
    by_cases early : i < n
    · have here := List.map_inj_left.mp same i (List.mem_range.mpr early)
      rw [here]
    · simp [early]
  · intro same
    apply List.map_congr_left
    intro i member
    have early := List.mem_range.mp member
    have here := congrArg (·.getMsbD i) same
    simpa [prefixMask_getMsbD small, early] using here

theorem prefixMask_injective {m n : Nat} (first : m ≤ 32) (second : n ≤ 32)
    (same : prefixMask m = prefixMask n) : m = n := by
  have all : ∀ i, decide (i < m) = decide (i < n) := by
    intro i
    rw [← prefixMask_getMsbD first, same, prefixMask_getMsbD second]
  have left := all m
  have right := all n
  simp at left right
  omega

end Bits

end NgxFormal.Core.Radix
