import NgxFormal.Core.RbtreeDelete
import NgxFormal.Lib.Runs

/-! The search loops over a tree, for any comparison that respects the order of its nodes. -/

namespace NgxFormal.Core.Rbtree

open Lib.RedBlack

/-- `while (node != sentinel) { ... }`: `turn` compares the key that is looked up with a node. -/
def findNode (turn : Nat → Ordering) (h : Heap) (sentinel : Nat) : Nat → Nat → Option (Option Nat)
  | 0, _ => none
  | fuel + 1, node =>
    if node = sentinel then some none
    else
      match turn node with
      | .lt => findNode turn h sentinel fuel (h node).left
      | .gt => findNode turn h sentinel fuel (h node).right
      | .eq => some (some node)

section Find

variable {κ : Type} [LinearOrder κ] {ord : Nat → κ} {k : κ} {turn : Nat → Ordering}

theorem findNode_rep {h : Heap} {sentinel : Nat} {up : Option Nat} {t : ColorTree Nat} (fuel : Nat)
    (rep : Rep h sentinel up t) (sorted : Sorted ord t.toList)
    (agrees : ∀ i ∈ t.toList, turn i = cmp k (ord i)) (enough : t.height < fuel) :
    (∃ i ∈ t.toList, ord i = k ∧ findNode turn h sentinel fuel (ptr sentinel t) = some (some i)) ∨
      (∀ i ∈ t.toList, ord i ≠ k) ∧ findNode turn h sentinel fuel (ptr sentinel t) = some none := by
  induction t generalizing up fuel with
  | nil =>
    obtain ⟨fuel, rfl⟩ : ∃ m, fuel = m + 1 := ⟨fuel - 1, by omega⟩
    exact Or.inr ⟨by simp [ColorTree.toList], if_pos rfl⟩
  | node c l i r inLeft inRight =>
    obtain ⟨real, _, left, right, _, repLeft, repRight⟩ := rep
    obtain ⟨sortedLeft, rest, across⟩ := List.pairwise_append.mp sorted
    obtain ⟨behind, sortedRight⟩ := List.pairwise_cons.mp rest
    rw [ColorTree.height] at enough
    obtain ⟨fuel, rfl⟩ : ∃ m, fuel = m + 1 := ⟨fuel - 1, by omega⟩
    have here : turn i = cmp k (ord i) := agrees i (by simp [ColorTree.toList])
    have opened : ptr sentinel (.node c l i r) = i := rfl
    rw [opened, findNode, if_neg real, here]
    rcases lt_trichotomy k (ord i) with below | equal | above
    · -- everything from `i` on is too large
      rw [cmp, cmpUsing, if_pos below]
      have next : (h i).left = ptr sentinel l := left
      simp only [next]
      rcases inLeft fuel repLeft sortedLeft (fun j member => agrees j (by simp [ColorTree.toList, member]))
        (by omega) with ⟨j, member, same, found⟩ | ⟨none, found⟩
      · exact Or.inl ⟨j, by simp [ColorTree.toList, member], same, found⟩
      · refine Or.inr ⟨?_, found⟩
        intro j member
        simp only [ColorTree.toList, List.mem_append, List.mem_cons] at member
        rcases member with inL | rfl | inR
        · exact none j inL
        · exact ne_of_gt below
        · exact ne_of_gt (lt_of_lt_of_le below (behind j inR))
    · rw [equal, cmp, cmpUsing, if_neg (lt_irrefl _), if_neg (lt_irrefl _)]
      exact Or.inl ⟨i, by simp [ColorTree.toList], rfl, rfl⟩
    · rw [cmp, cmpUsing, if_neg (not_lt_of_gt above), if_pos above]
      have next : (h i).right = ptr sentinel r := right
      simp only [next]
      rcases inRight fuel repRight sortedRight
        (fun j member => agrees j (by simp [ColorTree.toList, member])) (by omega) with
        ⟨j, member, same, found⟩ | ⟨none, found⟩
      · exact Or.inl ⟨j, by simp [ColorTree.toList, member], same, found⟩
      · refine Or.inr ⟨?_, found⟩
        intro j member
        simp only [ColorTree.toList, List.mem_append, List.mem_cons] at member
        rcases member with inL | rfl | inR
        · exact ne_of_lt (lt_of_le_of_lt (across j inL i List.mem_cons_self) above)
        · exact ne_of_lt above
        · exact none j inR

theorem findNode_spec {tree : RbTree} {whole : ColorTree Nat} (fuel : Nat) (shaped : Shaped tree whole)
    (sorted : Sorted ord whole.toList) (agrees : ∀ i ∈ whole.toList, turn i = cmp k (ord i))
    (enough : whole.toList.length < fuel) :
    (∃ i ∈ whole.toList, ord i = k ∧
        findNode turn tree.heap tree.sentinel fuel tree.root = some (some i)) ∨
      (∀ i ∈ whole.toList, ord i ≠ k) ∧
        findNode turn tree.heap tree.sentinel fuel tree.root = some none := by
  have root : tree.root = ptr tree.sentinel whole := shaped.focus.root
  rw [root]
  exact findNode_rep fuel shaped.focus.here sorted agrees (whole.height_le.trans_lt enough)

end Find

end NgxFormal.Core.Rbtree

/-! What holds of a tree after every sequence of insertions and deletions. -/

namespace NgxFormal.Core.Rbtree

open Lib Lib.RedBlack

/-- A call: `content` is what the caller has in the node, with the key, when it inserts it. -/
inductive Op where
  | insert (node : Nat) (content : Node)
  | delete (node : Nat)
  deriving DecidableEq, Repr

def Heap.put (h : Heap) (i : Nat) (content : Node) : Heap := fun j =>
  if j = i then content else h j

def perform (fuel : Nat) (tree : RbTree) : Op → Option RbTree
  | .insert node content =>
    ngxRbtreeInsert keyLess fuel { tree with heap := tree.heap.put node content } node
  | .delete node => ngxRbtreeDelete fuel tree node

/-- The nodes with the keys they were inserted with. -/
def track (live : List (Nat × Nat)) : Op → List (Nat × Nat)
  | .insert node content => (node, content.key) :: live
  | .delete node => live.filter fun entry => entry.1 ≠ node

/-- The inserted nodes minus the deleted ones. -/
def liveAfter (ops : List Op) : List (Nat × Nat) := ops.foldl track []

/-- A node outside the tree is inserted, a node of the tree is deleted. -/
def Allowed (sentinel : Nat) (live : List (Nat × Nat)) : Op → Prop
  | .insert node _ => node ≠ sentinel ∧ node ∉ live.map Prod.fst
  | .delete node => node ∈ live.map Prod.fst

instance (sentinel : Nat) (live : List (Nat × Nat)) : DecidablePred (Allowed sentinel live)
  | .insert node _ => inferInstanceAs (Decidable (node ≠ sentinel ∧ node ∉ live.map Prod.fst))
  | .delete node => inferInstanceAs (Decidable (node ∈ live.map Prod.fst))

def Legal (sentinel : Nat) : List (Nat × Nat) → List Op → Prop
  | _, [] => True
  | live, op :: rest => Allowed sentinel live op ∧ Legal sentinel (track live op) rest

instance decideLegal (sentinel : Nat) :
    (live : List (Nat × Nat)) → (ops : List Op) → Decidable (Legal sentinel live ops)
  | _, [] => isTrue trivial
  | live, op :: rest =>
    haveI := decideLegal sentinel (track live op) rest
    inferInstanceAs (Decidable (Allowed sentinel live op ∧ _))

/-- The heap holds the tree `whole`, which is a red-black tree of exactly the live nodes. -/
structure Valid (tree : RbTree) (live : List (Nat × Nat)) (whole : ColorTree Nat) : Prop where
  /-- Colours and children are those of `whole`, and every child points back to its parent. -/
  linked : Rep tree.heap tree.sentinel none whole
  root : tree.root = ptr tree.sentinel whole
  rootBlack : (tree.heap tree.root).color = .black
  noRedRed : whole.NoRedRed
  sameBlack : ∃ n, ∀ k ∈ whole.blackPaths, k = n
  sorted : (whole.toList.map fun i => (tree.heap i).key).Pairwise (· ≤ ·)
  once : whole.toList.Nodup
  members : ∀ i, i ∈ whole.toList ↔ i ∈ live.map Prod.fst
  keys : ∀ entry ∈ live, (tree.heap entry.1).key = entry.2

/-- The invariant of a run. -/
structure Tracks (tree : RbTree) (live : List (Nat × Nat)) (whole : ColorTree Nat) : Prop where
  holds : Holds tree whole
  members : whole.toList.Perm (live.map Prod.fst)
  keys : ∀ entry ∈ live, keyOf tree entry.1 = entry.2

theorem Tracks.valid {tree : RbTree} {live : List (Nat × Nat)} {whole : ColorTree Nat}
    (tracks : Tracks tree live whole) : Valid tree live whole := by
  obtain ⟨⟨focus, ⟨n, balanced⟩, sorted⟩, members, keys⟩ := tracks
  have nodup := focus.nodup
  rw [ids, List.append_nil] at nodup
  refine ⟨focus.here, focus.root, ?_, balanced.noRedRed, ⟨n, balanced.blackPaths⟩, ?_, nodup,
    fun i => members.mem_iff, keys⟩
  · have root : tree.root = ptr tree.sentinel whole := focus.root
    rw [root, focus.color, balanced.color]
  · exact List.pairwise_map.mpr sorted

theorem Holds.put {tree : RbTree} {whole : ColorTree Nat} {node : Nat} (holds : Holds tree whole)
    (real : node ≠ tree.sentinel) (fresh : node ∉ whole.toList) (content : Node) :
    Holds { tree with heap := tree.heap.put node content } whole := by
  have off : ∀ i, i ≠ node → tree.heap.put node content i = tree.heap i := fun i differ =>
    if_neg differ
  have focus := holds.focus
  refine ⟨focus.congr ?_ ?_, holds.balanced, ?_⟩
  · intro i member
    rw [ids, List.append_nil] at member
    exact off i fun same => fresh (same ▸ member)
  · rw [off _ (Ne.symm real)]
    exact focus.black
  · apply holds.sorted.sublist (List.Sublist.refl _)
    intro i member
    exact congrArg Node.key (off i fun same => fresh (same ▸ member))

theorem Tracks.perform {tree : RbTree} {live : List (Nat × Nat)} {whole : ColorTree Nat} {op : Op}
    (fuel : Nat) (tracks : Tracks tree live whole) (allowed : Allowed tree.sentinel live op)
    (enough : 2 * live.length < fuel) :
    ∃ tree' whole', perform fuel tree op = some tree' ∧ Tracks tree' (track live op) whole' ∧
      tree'.sentinel = tree.sentinel := by
  obtain ⟨holds, members, keys⟩ := tracks
  have length := members.length_eq
  rw [List.length_map] at length
  cases op with
  | insert node content =>
    obtain ⟨real, outside⟩ := allowed
    have fresh : node ∉ whole.toList := fun member => outside (members.mem_iff.mp member)
    obtain ⟨tree', whole', run, holds', perm, kept⟩ :=
      ngxRbtreeInsert_spec fuel (holds.put real fresh content) real fresh (by omega)
    refine ⟨tree', whole', run, ⟨holds', perm.trans (members.cons node), ?_⟩, kept.sentinel⟩
    intro entry member
    have key : keyOf tree' entry.1 = (tree.heap.put node content entry.1).key := kept.keys _
    rcases List.mem_cons.mp member with rfl | old
    · rw [key]
      exact congrArg Node.key (if_pos rfl)
    · have differ : entry.1 ≠ node := by
        intro same
        exact outside (same ▸ List.mem_map_of_mem old)
      rw [key, ← keys entry old]
      exact congrArg Node.key (if_neg differ)
  | delete node =>
    have member : node ∈ whole.toList := members.mem_iff.mpr allowed
    obtain ⟨tree', whole', run, holds', perm, sentinel, kept⟩ :=
      ngxRbtreeDelete_spec fuel holds member (by omega)
    refine ⟨tree', whole', run, ⟨holds', ?_, ?_⟩, sentinel⟩
    · have nodup := holds.focus.nodup
      rw [ids, List.append_nil, perm.nodup_iff, List.nodup_cons] at nodup
      have others : whole'.toList.filter (fun i => i ≠ node) = whole'.toList := by
        rw [List.filter_eq_self]
        intro i inside
        simpa using fun same : i = node => nodup.1 (same ▸ inside)
      have both := (perm.symm.trans members).filter fun i => decide (i ≠ node)
      rw [List.filter_cons_of_neg (by simp), others, List.filter_map] at both
      exact both
    · intro entry inside
      obtain ⟨old, differ⟩ := List.mem_filter.mp inside
      rw [kept entry.1 (by simpa using differ)]
      exact keys entry old

theorem track_length (live : List (Nat × Nat)) (op : Op) :
    (track live op).length ≤ live.length + 1 := by
  cases op with
  | insert node content => simp [track]
  | delete node =>
    have shorter := List.length_filter_le (fun entry : Nat × Nat => decide (entry.1 ≠ node)) live
    rw [track]
    omega

/-- A whole run. -/
theorem Tracks.run {tree : RbTree} {live : List (Nat × Nat)} {whole : ColorTree Nat} (fuel : Nat)
    (ops : List Op) (tracks : Tracks tree live whole) (legal : Legal tree.sentinel live ops)
    (enough : 2 * (live.length + ops.length) < fuel + 2) :
    ∃ final whole', Lib.run (Rbtree.perform fuel) tree ops = some final ∧
      Tracks final (ops.foldl track live) whole' := by
  induction ops generalizing tree live whole with
  | nil => exact ⟨tree, whole, rfl, tracks⟩
  | cons op rest ih =>
    rw [List.length_cons] at enough
    obtain ⟨next, whole', stepped, tracks', sentinel⟩ :=
      tracks.perform fuel legal.1 (by omega)
    have shorter := track_length live op
    obtain ⟨final, whole'', ran, done⟩ := ih tracks' (sentinel ▸ legal.2) (by omega)
    refine ⟨final, whole'', ?_, done⟩
    rw [run_cons, stepped]
    exact ran

theorem tracks_init (heap : Heap) (sentinel : Nat) :
    Tracks (ngxRbtreeInit heap sentinel) [] .nil := by
  refine ⟨⟨⟨trivial, trivial, rfl, List.nodup_nil, ?_⟩, ⟨0, .nil⟩, List.Pairwise.nil⟩,
    List.Perm.nil, by simp⟩
  simp [ngxRbtreeInit]

/-- Every sequence of insertions and deletions leaves a red-black tree of exactly the nodes that
were inserted and not deleted. -/
theorem rbtree_valid (heap : Heap) (sentinel : Nat) (ops : List Op)
    (legal : Legal sentinel [] ops) (fuel : Nat) (enough : 2 * ops.length ≤ fuel) :
    ∃ final whole, run (perform fuel) (ngxRbtreeInit heap sentinel) ops = some final ∧
      Valid final (liveAfter ops) whole := by
  obtain ⟨final, whole, ran, tracks⟩ := (tracks_init heap sentinel).run fuel ops legal (by
    rw [List.length_nil]
    omega)
  exact ⟨final, whole, ran, tracks.valid⟩

/-- Four nodes are inserted, two of them with the same key, and the root is deleted. -/
theorem rbtree_valid_four_nodes :
    let content (key : Nat) : Node := ⟨key, 7, 7, 7, .red⟩
    let ops : List Op := [.insert 1 (content 5), .insert 2 (content 3), .insert 3 (content 5),
      .insert 4 (content 9), .delete 1]
    Legal 100 [] ops ∧
      ∃ final whole,
        run (perform 10) (ngxRbtreeInit (fun _ => content 0) 100) ops = some final ∧
        Valid final (liveAfter ops) whole :=
  ⟨by decide, rbtree_valid _ 100 _ (by decide) 10 (by decide)⟩

end NgxFormal.Core.Rbtree
