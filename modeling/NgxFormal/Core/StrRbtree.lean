import NgxFormal.Http.LimitReqZone

/-! The trees of strings: `ngx_str_rbtree_insert_value` and `ngx_str_rbtree_lookup`. -/

namespace NgxFormal.Core.StrRbtree

open Core.Rbtree Lib Lib.RedBlack
open Http.LimitReq (ngxMemcmp ngxMemn2cmp ngxMemn2cmp_spec bytes bytes_injective)

/-- `ngx_str_node_t`: what is compared of a node. -/
structure StrNode where
  key : Nat
  str : List UInt8
  deriving DecidableEq, Repr

/-- The comparisons look at the whole node, so a tree node has its own address for a key. -/
structure StrTree where
  tree : RbTree
  nodes : Nat → StrNode

/-- The side of `ngx_str_rbtree_insert_value` -/
def strLess (nodes : Nat → StrNode) (node temp : Nat) : Bool :=
  let n := nodes node
  let t := nodes temp
  if n.key ≠ t.key then decide (n.key < t.key)
  else if n.str.length ≠ t.str.length then decide (n.str.length < t.str.length)
  else decide (ngxMemcmp n.str t.str n.str.length < 0)

/-- The turn of `ngx_str_rbtree_lookup` at a node. -/
def strTurn (nodes : Nat → StrNode) (val : List UInt8) (hash node : Nat) : Ordering :=
  let n := nodes node
  if hash ≠ n.key then (if hash < n.key then .lt else .gt)
  else if val.length ≠ n.str.length then (if val.length < n.str.length then .lt else .gt)
  else
    let rc := ngxMemcmp val n.str val.length
    if rc < 0 then .lt else if rc > 0 then .gt else .eq

def ngxStrRbtreeLookup (fuel : Nat) (strs : StrTree) (val : List UInt8) (hash : Nat) :
    Option (Option Nat) :=
  findNode (strTurn strs.nodes val hash) strs.tree.heap strs.tree.sentinel fuel strs.tree.root

/-- A call: `content` is what the caller has in the node when it inserts it. -/
inductive Op where
  | insert (node : Nat) (content : Node) (str : StrNode)
  | delete (node : Nat)
  deriving DecidableEq, Repr

def setNode (nodes : Nat → StrNode) (node : Nat) (str : StrNode) : Nat → StrNode := fun i =>
  if i = node then str else nodes i

/-- `ngx_rbtree_insert` and `ngx_rbtree_delete` of a tree of strings -/
def perform (fuel : Nat) (strs : StrTree) : Op → Option StrTree
  | .insert node content str =>
    let nodes := setNode strs.nodes node str
    let tree := { strs.tree with heap := strs.tree.heap.put node { content with key := node } }
    (ngxRbtreeInsert (strLess nodes) fuel tree node).map fun tree => ⟨tree, nodes⟩
  | .delete node => (ngxRbtreeDelete fuel strs.tree node).map fun tree => ⟨tree, strs.nodes⟩

/-- `ngx_rbtree_init` -/
def init (heap : Heap) (sentinel : Nat) (nodes : Nat → StrNode) : StrTree :=
  ⟨ngxRbtreeInit heap sentinel, nodes⟩

/-- The nodes with the hash and the string they were inserted with. -/
def track (live : List (Nat × StrNode)) : Op → List (Nat × StrNode)
  | .insert node _ str => (node, str) :: live
  | .delete node => live.filter fun entry => entry.1 ≠ node

def liveAfter (ops : List Op) : List (Nat × StrNode) := ops.foldl track []

/-- A node outside the tree is inserted, a node of the tree is deleted. -/
def Allowed (sentinel : Nat) (live : List (Nat × StrNode)) : Op → Prop
  | .insert node _ _ => node ≠ sentinel ∧ node ∉ live.map Prod.fst
  | .delete node => node ∈ live.map Prod.fst

instance (sentinel : Nat) (live : List (Nat × StrNode)) : DecidablePred (Allowed sentinel live)
  | .insert node _ _ => inferInstanceAs (Decidable (node ≠ sentinel ∧ node ∉ live.map Prod.fst))
  | .delete node => inferInstanceAs (Decidable (node ∈ live.map Prod.fst))

def Legal (sentinel : Nat) : List (Nat × StrNode) → List Op → Prop
  | _, [] => True
  | live, op :: rest => Allowed sentinel live op ∧ Legal sentinel (track live op) rest

instance decideLegal (sentinel : Nat) :
    (live : List (Nat × StrNode)) → (ops : List Op) → Decidable (Legal sentinel live ops)
  | _, [] => isTrue trivial
  | live, op :: rest =>
    haveI := decideLegal sentinel (track live op) rest
    inferInstanceAs (Decidable (Allowed sentinel live op ∧ _))

/-- The order of the hash, the length and the bytes. -/
def order (str : StrNode) : Nat ×ₗ Nat ×ₗ List Nat :=
  toLex (str.key, toLex (str.str.length, bytes str.str))

def ord (nodes : Nat → StrNode) (i : Nat) : Nat ×ₗ Nat ×ₗ List Nat := order (nodes i)

section Order

variable {nodes : Nat → StrNode} {i j hash : Nat} {val : List UInt8}

theorem order_injective {str str' : StrNode} (same : order str = order str') : str = str' := by
  have outer := Prod.ext_iff.mp (toLex.injective same)
  have inner := Prod.ext_iff.mp (toLex.injective outer.2)
  cases str
  cases str'
  rw [StrNode.mk.injEq]
  exact ⟨outer.1, bytes_injective inner.2⟩

theorem ngxMemcmp_spec {x y : List UInt8} (length : x.length = y.length) :
    (ngxMemcmp x y x.length < 0 ↔ bytes x < bytes y) ∧ (ngxMemcmp x y x.length = 0 ↔ x = y) := by
  have both := ngxMemn2cmp_spec x y
  have compared : ngxMemn2cmp x y x.length y.length = ngxMemcmp x y x.length := by
    unfold ngxMemn2cmp
    rw [if_pos (Nat.le_of_eq length)]
    exact if_pos (Or.inr length)
  rw [compared] at both
  exact both

theorem strLess_eq : strLess nodes i j = decide (ord nodes i < ord nodes j) := by
  simp only [strLess, ord, order, Prod.Lex.toLex_lt_toLex]
  by_cases keys : (nodes i).key = (nodes j).key
  · rw [if_neg (not_not.mpr keys)]
    by_cases lengths : (nodes i).str.length = (nodes j).str.length
    · rw [if_neg (not_not.mpr lengths)]
      rw [decide_eq_decide, (ngxMemcmp_spec lengths).1]
      simp [keys, lengths]
    · rw [if_pos lengths]
      simp [keys, lengths]
  · rw [if_pos keys]
    simp [keys]

theorem strTurn_eq : strTurn nodes val hash i = cmp (order ⟨hash, val⟩) (ord nodes i) := by
  simp only [strTurn, ord, order, cmp, cmpUsing, Prod.Lex.toLex_lt_toLex]
  by_cases keys : hash = (nodes i).key
  · rw [if_neg (not_not.mpr keys)]
    by_cases lengths : val.length = (nodes i).str.length
    · obtain ⟨less, equal⟩ := ngxMemcmp_spec lengths
      rw [if_neg (not_not.mpr lengths)]
      simp only [← keys, ← lengths, lt_irrefl, false_or, true_and]
      rcases lt_trichotomy (ngxMemcmp val (nodes i).str val.length) 0 with neg | zero | pos
      · rw [if_pos neg, if_pos (less.mp neg)]
      · rw [if_neg (by omega), if_neg (by omega), equal.mp zero, if_neg (lt_irrefl _),
          if_neg (lt_irrefl _)]
      · have notLess : ¬bytes val < bytes (nodes i).str := fun below => by
          have := less.mpr below
          omega
        have notSame : bytes val ≠ bytes (nodes i).str := fun same => by
          have := equal.mpr (bytes_injective same)
          omega
        rw [if_neg (by omega), if_pos pos, if_neg notLess,
          if_pos (lt_of_le_of_ne (not_lt.mp notLess) (Ne.symm notSame))]
    · rw [if_pos lengths]
      rcases Nat.lt_or_gt_of_ne lengths with below | above
      · simp [keys, below]
      · simp [keys, above, Nat.not_lt_of_gt above, Ne.symm lengths, lengths]
  · rw [if_pos keys]
    rcases Nat.lt_or_gt_of_ne keys with below | above
    · simp [below]
    · simp [above, Nat.not_lt_of_gt above, Ne.symm keys, keys]

end Order

/-- What a lookup finds is a live node with the string; it finds none if there is none. -/
def Answers (live : List (Nat × StrNode)) (val : List UInt8) (hash : Nat) (found : Option (Option Nat)) : Prop :=
  (∃ node, (node, ⟨hash, val⟩) ∈ live ∧ found = some (some node)) ∨
    (∀ node, (node, ⟨hash, val⟩) ∉ live) ∧ found = some none

/-- The invariant of a run. -/
structure Tracks (strs : StrTree) (live : List (Nat × StrNode)) (whole : ColorTree Nat) : Prop where
  shaped : Shaped strs.tree whole
  sorted : Sorted (ord strs.nodes) whole.toList
  members : whole.toList.Perm (live.map Prod.fst)
  keys : ∀ i ∈ whole.toList, keyOf strs.tree i = i
  nodes : ∀ entry ∈ live, strs.nodes entry.1 = entry.2

section Runs

variable {strs : StrTree} {live : List (Nat × StrNode)} {whole : ColorTree Nat}

theorem Tracks.length (tracks : Tracks strs live whole) : whole.toList.length = live.length := by
  rw [tracks.members.length_eq, List.length_map]

theorem Tracks.insert {node : Nat} (fuel : Nat) (tracks : Tracks strs live whole)
    (real : node ≠ strs.tree.sentinel) (outside : node ∉ live.map Prod.fst) (content : Node)
    (str : StrNode) (enough : live.length < fuel) :
    ∃ strs' whole', perform fuel strs (.insert node content str) = some strs' ∧
      Tracks strs' ((node, str) :: live) whole' ∧ strs'.tree.sentinel = strs.tree.sentinel := by
  set nodes := setNode strs.nodes node str with nodes_eq
  set tree : RbTree :=
    { strs.tree with heap := strs.tree.heap.put node { content with key := node } } with tree_eq
  have fresh : node ∉ whole.toList := fun member => outside (tracks.members.mem_iff.mp member)
  have apart {i : Nat} (member : i ∈ whole.toList) : i ≠ node := fun same => fresh (same ▸ member)
  have heap {i : Nat} (differ : i ≠ node) : tree.heap i = strs.tree.heap i := if_neg differ
  have old {i : Nat} (differ : i ≠ node) : nodes i = strs.nodes i := if_neg differ
  have shaped : Shaped tree whole := by
    refine ⟨tracks.shaped.focus.congr ?_ ?_, tracks.shaped.balanced⟩
    · intro i member
      rw [ids, List.append_nil] at member
      exact heap (apart member)
    · exact (congrArg Node.color (heap (Ne.symm real))).trans tracks.shaped.focus.black
  have sorted : Sorted (ord nodes) whole.toList := by
    apply tracks.sorted.sublist (List.Sublist.refl _)
    intro i member
    rw [ord, ord, old (apart member)]
  have keyNode : keyOf tree node = node := congrArg Node.key (if_pos rfl)
  have keyOld : ∀ i ∈ whole.toList, keyOf tree i = i := by
    intro i member
    rw [keyOf, heap (apart member)]
    exact tracks.keys i member
  have agrees : ∀ i ∈ whole.toList,
      strLess nodes (keyOf tree node) (keyOf tree i) = decide (ord nodes node < ord nodes i) := by
    intro i member
    rw [keyNode, keyOld i member]
    exact strLess_eq
  obtain ⟨tree', whole', run, shaped', sorted', perm, kept⟩ :=
    ngxRbtreeInsert_order fuel shaped sorted agrees real fresh (by rw [tracks.length]; exact enough)
  refine ⟨⟨tree', nodes⟩, whole', ?_, ⟨shaped', sorted', ?_, ?_, ?_⟩, kept.sentinel⟩
  · rw [perform]
    simp only [← nodes_eq, ← tree_eq, run, Option.map_some]
  · exact perm.trans (tracks.members.cons node)
  · intro i member
    have same : keyOf tree' i = keyOf tree i := kept.keys i
    rw [same]
    rcases List.mem_cons.mp (perm.mem_iff.mp member) with rfl | inside
    · exact keyNode
    · exact keyOld i inside
  · intro entry member
    rcases List.mem_cons.mp member with rfl | inside
    · exact if_pos rfl
    · have differ : entry.1 ≠ node := fun same => outside (same ▸ List.mem_map_of_mem inside)
      exact (old differ).trans (tracks.nodes entry inside)

theorem Tracks.delete {node : Nat} (fuel : Nat) (tracks : Tracks strs live whole)
    (inside : node ∈ live.map Prod.fst) (enough : 2 * live.length ≤ fuel) :
    ∃ strs' whole', perform fuel strs (.delete node) = some strs' ∧
      Tracks strs' (track live (.delete node)) whole' ∧
      strs'.tree.sentinel = strs.tree.sentinel := by
  obtain ⟨tree', whole', run, shaped, part, perm, sentinel, kept⟩ :=
    ngxRbtreeDelete_order fuel tracks.shaped (tracks.members.mem_iff.mpr inside)
      (by rw [tracks.length]; exact enough)
  have nodup := tracks.shaped.focus.nodup
  rw [ids, List.append_nil, perm.nodup_iff, List.nodup_cons] at nodup
  have apart {i : Nat} (member : i ∈ whole'.toList) : i ≠ node :=
    fun same => nodup.1 (same ▸ member)
  refine ⟨⟨tree', strs.nodes⟩, whole', ?_, ⟨shaped, ?_, ?_, ?_, ?_⟩, sentinel⟩
  · rw [perform, run, Option.map_some]
  · exact tracks.sorted.sublist part fun _ _ => rfl
  · have others : whole'.toList.filter (fun i => i ≠ node) = whole'.toList := by
      rw [List.filter_eq_self]
      intro i member
      simpa using apart member
    have both := (perm.symm.trans tracks.members).filter fun i => decide (i ≠ node)
    rw [List.filter_cons_of_neg (by simp), others, List.filter_map] at both
    exact both
  · intro i member
    exact (kept i (apart member)).trans (tracks.keys i (part.subset member))
  · intro entry member
    exact tracks.nodes entry (List.mem_filter.mp member).1

theorem track_length (live : List (Nat × StrNode)) (op : Op) :
    (track live op).length ≤ live.length + 1 := by
  cases op with
  | insert node content str => exact Nat.le_refl _
  | delete node => exact le_trans (List.length_filter_le _ _) (Nat.le_succ _)

theorem tracked_length (ops : List Op) (live : List (Nat × StrNode)) :
    (ops.foldl track live).length ≤ live.length + ops.length := by
  induction ops generalizing live with
  | nil => exact Nat.le_refl _
  | cons op rest ih =>
    have first := track_length live op
    have others := ih (track live op)
    rw [List.foldl_cons, List.length_cons]
    omega

theorem Tracks.perform {op : Op} (fuel : Nat) (tracks : Tracks strs live whole)
    (allowed : Allowed strs.tree.sentinel live op) (enough : 2 * live.length < fuel) :
    ∃ strs' whole', perform fuel strs op = some strs' ∧ Tracks strs' (track live op) whole' ∧
      strs'.tree.sentinel = strs.tree.sentinel := by
  cases op with
  | insert node content str =>
    exact tracks.insert fuel allowed.1 allowed.2 content str (by omega)
  | delete node => exact tracks.delete fuel allowed (by omega)

/-- A whole run. -/
theorem Tracks.run (fuel : Nat) (ops : List Op) (tracks : Tracks strs live whole)
    (legal : Legal strs.tree.sentinel live ops)
    (enough : 2 * (live.length + ops.length) < fuel + 2) :
    ∃ final whole', Lib.run (StrRbtree.perform fuel) strs ops = some final ∧
      Tracks final (ops.foldl track live) whole' := by
  induction ops generalizing strs live whole with
  | nil => exact ⟨strs, whole, rfl, tracks⟩
  | cons op rest ih =>
    rw [List.length_cons] at enough
    obtain ⟨next, whole', stepped, tracks', sentinel⟩ :=
      tracks.perform fuel legal.1 (by omega)
    have shorter := track_length live op
    obtain ⟨final, whole'', ran, done⟩ := ih tracks' (sentinel ▸ legal.2) (by omega)
    refine ⟨final, whole'', ?_, done⟩
    rw [run_cons, stepped]
    exact ran

theorem tracks_init (heap : Heap) (sentinel : Nat) (nodes : Nat → StrNode) :
    Tracks (init heap sentinel nodes) [] .nil := by
  obtain ⟨⟨focus, balanced, _⟩, _⟩ := Rbtree.tracks_init heap sentinel
  exact ⟨⟨focus, balanced⟩, List.Pairwise.nil, List.Perm.nil,
    fun _ member => absurd member List.not_mem_nil, fun _ member => absurd member List.not_mem_nil⟩

theorem Tracks.search (tracks : Tracks strs live whole) (fuel : Nat) (val : List UInt8) (hash : Nat)
    (enough : whole.height < fuel) :
    Answers live val hash (ngxStrRbtreeLookup fuel strs val hash) := by
  have agrees : ∀ i ∈ whole.toList, strTurn strs.nodes val hash i =
      cmp (order ⟨hash, val⟩) (ord strs.nodes i) := fun _ _ => strTurn_eq
  have root : strs.tree.root = ptr strs.tree.sentinel whole := tracks.shaped.focus.root
  rw [ngxStrRbtreeLookup, root]
  rcases findNode_rep fuel tracks.shaped.focus.here tracks.sorted agrees enough with
    ⟨i, member, same, found⟩ | ⟨none_, found⟩
  · obtain ⟨⟨node, str⟩, there, rfl⟩ :=
      List.mem_map.mp (tracks.members.mem_iff.mp member)
    have stored : strs.nodes node = str := tracks.nodes _ there
    rw [ord, stored] at same
    rw [order_injective same] at there
    exact Or.inl ⟨node, there, found⟩
  · refine Or.inr ⟨fun node there => ?_, found⟩
    have inside : node ∈ whole.toList :=
      tracks.members.mem_iff.mpr (List.mem_map.mpr ⟨_, there, rfl⟩)
    apply none_ node inside
    rw [ord, tracks.nodes _ there]

theorem Tracks.lookup (tracks : Tracks strs live whole) (fuel : Nat) (val : List UInt8) (hash : Nat)
    (enough : live.length < fuel) :
    Answers live val hash (ngxStrRbtreeLookup fuel strs val hash) :=
  tracks.search fuel val hash (whole.height_le.trans_lt (by rw [tracks.length]; exact enough))

end Runs

/-- After every sequence of insertions and deletions, a lookup returns a node with the hash and the
string if there is one, and NULL otherwise. -/
theorem str_rbtree_lookup (heap : Heap) (sentinel : Nat) (nodes : Nat → StrNode) (ops : List Op)
    (legal : Legal sentinel [] ops) (fuel : Nat) (enough : 2 * ops.length < fuel) :
    ∃ final, run (perform fuel) (init heap sentinel nodes) ops = some final ∧
      ∀ (val : List UInt8) (hash : Nat), ∃ found,
        ngxStrRbtreeLookup fuel final val hash = some found ∧
          (∀ node, found = some node → (node, ⟨hash, val⟩) ∈ liveAfter ops) ∧
          (found.isSome ↔ ∃ node, (node, ⟨hash, val⟩) ∈ liveAfter ops) := by
  have few := tracked_length ops []
  rw [List.length_nil] at few
  obtain ⟨final, whole, ran, tracks⟩ := (tracks_init heap sentinel nodes).run fuel ops legal (by
    rw [List.length_nil]
    omega)
  refine ⟨final, ran, fun val hash => ?_⟩
  rcases tracks.lookup fuel val hash (by omega) with ⟨node, there, found⟩ | ⟨none_, found⟩
  · refine ⟨some node, found, ?_, iff_of_true rfl ⟨node, there⟩⟩
    intro node' same
    cases same
    exact there
  · refine ⟨none, found, fun node same => absurd same.symm (Option.some_ne_none node),
      iff_of_false Bool.false_ne_true ?_⟩
    rintro ⟨node, there⟩
    exact none_ node there

/-- After every sequence of insertions and deletions that leaves `n` nodes, a lookup is right and looks at
2 log (n + 1) nodes at most. -/
theorem str_rbtree_lookup_steps (heap : Heap) (sentinel : Nat) (nodes : Nat → StrNode) (ops : List Op)
    (legal : Legal sentinel [] ops) (fuel : Nat) (enough : 2 * ops.length < fuel) :
    ∃ final, run (perform fuel) (init heap sentinel nodes) ops = some final ∧
      ∀ (val : List UInt8) (hash steps : Nat), 2 * ((liveAfter ops).length + 1).log2 < steps →
        Answers (liveAfter ops) val hash (ngxStrRbtreeLookup steps final val hash) := by
  have few := tracked_length ops []
  rw [List.length_nil] at few
  obtain ⟨final, whole, ran, tracks⟩ := (tracks_init heap sentinel nodes).run fuel ops legal (by
    rw [List.length_nil]
    omega)
  obtain ⟨n, balanced⟩ := tracks.shaped.balanced
  have height := balanced.height_log
  rw [tracks.length] at height
  exact ⟨final, ran, fun val hash steps more => tracks.search steps val hash (height.trans_lt more)⟩

/-- Two strings with one hash, one of them twice, behind a deletion of the root. -/
theorem str_rbtree_lookup_collision :
    let content : Node := ⟨0, 7, 7, 7, .red⟩
    let ops : List Op := [.insert 1 content ⟨5, [0x62]⟩, .insert 2 content ⟨5, [0x61]⟩,
      .insert 3 content ⟨5, [0x62]⟩, .insert 4 content ⟨3, []⟩, .delete 1]
    Legal 100 [] ops ∧
      ∃ final, run (perform 11) (init (fun _ => content) 100 fun _ => ⟨0, []⟩) ops = some final ∧
        ∀ (val : List UInt8) (hash : Nat), ∃ found,
          ngxStrRbtreeLookup 11 final val hash = some found ∧
            (∀ node, found = some node → (node, ⟨hash, val⟩) ∈ liveAfter ops) ∧
            (found.isSome ↔ ∃ node, (node, ⟨hash, val⟩) ∈ liveAfter ops) :=
  ⟨by decide, str_rbtree_lookup _ 100 _ _ (by decide) 11 (by decide)⟩

theorem str_rbtree_lookup_steps_row :
    let content : Node := ⟨0, 7, 7, 7, .red⟩
    let ops : List Op := [1, 2, 3, 4].map fun node => .insert node content ⟨node, []⟩
    ∃ final, run (perform 9) (init (fun _ => content) 100 fun _ => ⟨0, []⟩) ops = some final ∧
      ∀ (val : List UInt8) (hash steps : Nat), 2 * ((liveAfter ops).length + 1).log2 < steps →
        Answers (liveAfter ops) val hash (ngxStrRbtreeLookup steps final val hash) :=
  str_rbtree_lookup_steps _ 100 _ _ (by decide) 9 (by decide)

end NgxFormal.Core.StrRbtree
