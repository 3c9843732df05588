import NgxFormal.Core.Radix

/-! The nodes of a radix tree by their paths from the root, and how each change of the tree keeps
the links between them. -/

namespace NgxFormal.Core.Radix

def Node.child (node : Node) (side : Bool) : Nat := if side then node.right else node.left

/-- The free nodes from `free` on. -/
def FreeList (nodes : Nat → Node) : Nat → List Nat → Prop
  | free, [] => free = 0
  | free, a :: list => free = a ∧ a ≠ 0 ∧ FreeList nodes (nodes a).right list

/-- `place` gives the node of a path, or 0 where there is none. -/
structure Linked (t : Tree) (place : List Bool → Nat) (list : List Nat) : Prop where
  root : place [] = t.root
  top : t.root ≠ 0
  child : ∀ path side, place path ≠ 0 → (t.nodes (place path)).child side = place (path ++ [side])
  parent : ∀ path side, place (path ++ [side]) ≠ 0 →
    (t.nodes (place (path ++ [side]))).parent = place path
  rootParent : (t.nodes t.root).parent = 0
  closed : ∀ path side, place (path ++ [side]) ≠ 0 → place path ≠ 0
  single : ∀ path other, place path ≠ 0 → place path = place other → path = other
  depth : ∀ path, place path ≠ 0 → path.length ≤ 32
  used : ∀ path, place path < t.start
  free : FreeList t.nodes t.free list
  once : list.Nodup
  apart : ∀ a ∈ list, a < t.start ∧ ∀ path, place path ≠ a

def content (t : Tree) (place : List Bool → Nat) (path : List Bool) : UInt64 :=
  if place path = 0 then noValue else (t.nodes (place path)).value

section Links

variable {t : Tree} {place : List Bool → Nat} {list : List Nat} {path : List Bool} {side : Bool}

theorem FreeList.congr {nodes nodes' : Nat → Node} {free : Nat}
    (same : ∀ a ∈ list, (nodes' a).right = (nodes a).right) (chain : FreeList nodes free list) :
    FreeList nodes' free list := by
  induction list generalizing free with
  | nil => exact chain
  | cons a list ih =>
    obtain ⟨first, some_node, rest⟩ := chain
    refine ⟨first, some_node, ?_⟩
    rw [same a List.mem_cons_self]
    exact ih (fun b member => same b (List.mem_cons_of_mem _ member)) rest

theorem FreeList.some_node {nodes : Nat → Node} {free : Nat} (chain : FreeList nodes free list) :
    ∀ a ∈ list, a ≠ 0 := by
  induction list generalizing free with
  | nil => simp
  | cons a list ih =>
    obtain ⟨_, some_node, rest⟩ := chain
    exact List.forall_mem_cons.mpr ⟨some_node, ih rest⟩

theorem append_ne_self (path : List Bool) (side : Bool) : path ++ [side] ≠ path := by
  intro same
  have lengths := congrArg List.length same
  simp at lengths

theorem Linked.setValue (linked : Linked t place list) (a : Nat) (value : UInt64) :
    Linked (t.setValue a value) place list := by
  have node : ∀ b, ((t.setValue a value).nodes b).right = (t.nodes b).right ∧
      ((t.setValue a value).nodes b).left = (t.nodes b).left ∧
      ((t.setValue a value).nodes b).parent = (t.nodes b).parent := by
    intro b
    by_cases same : b = a
    · subst same
      simp [Tree.setValue, Tree.write]
    · simp [Tree.setValue, Tree.write, same]
  obtain ⟨root, top, child, parent, rootParent, closed, single, depth, used, free, once, apart⟩ := linked
  refine ⟨root, top, ?_, ?_, ?_, closed, single, depth, used, free.congr fun b _ => (node b).1, once,
    apart⟩
  · intro path side there
    have old := child path side there
    unfold Node.child at old ⊢
    rw [(node _).1, (node _).2.1]
    exact old
  · intro path side there
    rw [(node _).2.2]
    exact parent path side there
  · rw [← rootParent]
    exact (node _).2.2

theorem Linked.content_setValue (linked : Linked t place list) (there : place path ≠ 0)
    (value : UInt64) (other : List Bool) :
    content (t.setValue (place path) value) place other =
      if other = path then value else content t place other := by
  unfold content
  by_cases same : other = path
  · subst same
    rw [if_neg there, if_pos rfl]
    simp [Tree.setValue, Tree.write]
  · rw [if_neg same]
    by_cases none : place other = 0
    · rw [if_pos none, if_pos none]
    · have differ : place other ≠ place path := fun equal => same (linked.single _ _ none equal)
      rw [if_neg none, if_neg none]
      simp [Tree.setValue, Tree.write, differ]

theorem Linked.alloc (linked : Linked t place list) :
    ∃ a rest, (ngxRadixAlloc t).1 = a ∧ a ≠ 0 ∧ (∀ path, place path ≠ a) ∧ a ∉ rest ∧
      a < (ngxRadixAlloc t).2.start ∧ (ngxRadixAlloc t).2.nodes = t.nodes ∧
      Linked (ngxRadixAlloc t).2 place rest := by
  obtain ⟨root, top, child, parent, rootParent, closed, single, depth, used, free, once, apart⟩ := linked
  unfold ngxRadixAlloc
  cases list with
  | nil =>
    have none : t.free = 0 := free
    rw [if_neg (by rw [none]; exact fun absurd => absurd rfl)]
    have positive : 0 < t.start := lt_of_le_of_lt (Nat.zero_le _) (used [])
    refine ⟨t.start, [], rfl, by omega, fun path => Nat.ne_of_lt (used path), List.not_mem_nil,
      Nat.lt_succ_self _, rfl, root, top, child, parent, rootParent, closed, single, depth, ?_, free, once, ?_⟩
    · intro path
      exact Nat.lt_succ_of_lt (used path)
    · intro a member
      cases member
  | cons a rest =>
    obtain ⟨first, some_node, chain⟩ := free
    rw [if_pos (by rw [first]; exact some_node)]
    obtain ⟨fresh, once⟩ := List.nodup_cons.mp once
    obtain ⟨old, unused⟩ := apart a List.mem_cons_self
    refine ⟨a, rest, first, some_node, unused, fresh, old, rfl, root, top, child, parent, rootParent,
      closed, single, depth, used, ?_, once, fun b member => apart b (List.mem_cons_of_mem _ member)⟩
    show FreeList t.nodes (t.nodes t.free).right rest
    rw [first]
    exact chain

/-- A pointer to the next node is written. -/
def Tree.setChild (t : Tree) (a : Nat) (side : Bool) (next : Nat) : Tree :=
  if side then t.setRight a next else t.setLeft a next

theorem setChild_nodes (t : Tree) (a : Nat) (side : Bool) (next b : Nat) :
    (∀ other, ((t.setChild a side next).nodes b).child other =
      if b = a ∧ other = side then next else (t.nodes b).child other) ∧
      ((t.setChild a side next).nodes b).parent = (t.nodes b).parent ∧
      ((t.setChild a side next).nodes b).value = (t.nodes b).value := by
  by_cases same : b = a
  · subst same
    cases side with
    | false =>
      refine ⟨fun other => ?_, by simp [Tree.setChild, Tree.setLeft, Tree.write],
        by simp [Tree.setChild, Tree.setLeft, Tree.write]⟩
      cases other with
      | false => simp [Tree.setChild, Tree.setLeft, Tree.write, Node.child]
      | true => simp [Tree.setChild, Tree.setLeft, Tree.write, Node.child]
    | true =>
      refine ⟨fun other => ?_, by simp [Tree.setChild, Tree.setRight, Tree.write],
        by simp [Tree.setChild, Tree.setRight, Tree.write]⟩
      cases other with
      | false => simp [Tree.setChild, Tree.setRight, Tree.write, Node.child]
      | true => simp [Tree.setChild, Tree.setRight, Tree.write, Node.child]
  · cases side with
    | false => simp [Tree.setChild, Tree.setLeft, Tree.write, same]
    | true => simp [Tree.setChild, Tree.setRight, Tree.write, same]

@[simp] theorem setChild_start (t : Tree) (a : Nat) (side : Bool) (next : Nat) :
    (t.setChild a side next).start = t.start := by
  cases side with
  | false => rfl
  | true => rfl

@[simp] theorem setChild_root (t : Tree) (a : Nat) (side : Bool) (next : Nat) :
    (t.setChild a side next).root = t.root := by
  cases side with
  | false => rfl
  | true => rfl

@[simp] theorem setChild_free (t : Tree) (a : Nat) (side : Bool) (next : Nat) :
    (t.setChild a side next).free = t.free := by
  cases side with
  | false => rfl
  | true => rfl

theorem append_inj_iff (path other : List Bool) (side s : Bool) :
    other ++ [s] = path ++ [side] ↔ other = path ∧ s = side := by
  constructor
  · intro same
    obtain ⟨first, second⟩ := List.append_inj' same rfl
    exact ⟨first, List.head_eq_of_cons_eq second⟩
  · rintro ⟨rfl, rfl⟩
    rfl

/-- A fresh node below `node`. -/
def grow (t : Tree) (node : Nat) (side : Bool) : Nat × Tree :=
  let (next, t) := ngxRadixAlloc t
  (next, (t.write next ⟨0, 0, node, noValue⟩).setChild node side next)

theorem grow_nodes {node a : Nat} (nodes : (ngxRadixAlloc t).2.nodes = t.nodes)
    (isNext : (ngxRadixAlloc t).1 = a) (differ : node ≠ a) :
    (∀ b s, ((grow t node side).2.nodes b).child s =
      if b = a then 0 else if b = node ∧ s = side then a else (t.nodes b).child s) ∧
      (∀ b, ((grow t node side).2.nodes b).parent = if b = a then node else (t.nodes b).parent) ∧
      ∀ b, ((grow t node side).2.nodes b).value = if b = a then noValue else (t.nodes b).value := by
  have news := setChild_nodes ((ngxRadixAlloc t).2.write a ⟨0, 0, node, noValue⟩) node side a
  have isGrow : (grow t node side).2 =
      ((ngxRadixAlloc t).2.write a ⟨0, 0, node, noValue⟩).setChild node side a := by
    rw [← isNext]
    rfl
  have written : ∀ b, ((ngxRadixAlloc t).2.write a ⟨0, 0, node, noValue⟩).nodes b =
      if b = a then ⟨0, 0, node, noValue⟩ else t.nodes b := by
    intro b
    simp only [Tree.write, Function.update_apply, nodes]
  rw [isGrow]
  refine ⟨fun b s => ?_, fun b => ?_, fun b => ?_⟩
  · rw [(news b).1, written]
    by_cases same : b = a
    · subst same
      rw [if_neg (fun both => differ both.1.symm), if_pos rfl, if_pos rfl]
      simp [Node.child]
    · rw [if_neg same, if_neg same]
  · rw [(news b).2.1, written]
    by_cases same : b = a
    · rw [if_pos same, if_pos same]
    · rw [if_neg same, if_neg same]
  · rw [(news b).2.2, written]
    by_cases same : b = a
    · rw [if_pos same, if_pos same]
    · rw [if_neg same, if_neg same]

theorem Linked.grow (linked : Linked t place list) (there : place path ≠ 0)
    (none : place (path ++ [side]) = 0) (room : path.length < 32) :
    ∃ a rest, (Radix.grow t (place path) side).1 = a ∧ a ≠ 0 ∧
      Linked (Radix.grow t (place path) side).2 (Function.update place (path ++ [side]) a) rest ∧
      ∀ other, content (Radix.grow t (place path) side).2
        (Function.update place (path ++ [side]) a) other = content t place other := by
  obtain ⟨a, rest, isNext, some_node, unused, fresh, old, nodes, linked'⟩ := linked.alloc
  obtain ⟨children, parents, values⟩ := @grow_nodes t side (place path) a nodes isNext (unused path)
  have below : ∀ s, place (path ++ [side] ++ [s]) = 0 := by
    intro s
    by_contra some_below
    exact linked.closed _ _ some_below none
  have self : Function.update place (path ++ [side]) a (path ++ [side]) = a :=
    Function.update_self _ _ _
  have move : ∀ other, other ≠ path ++ [side] →
      Function.update place (path ++ [side]) a other = place other := fun other differ =>
    Function.update_of_ne differ _ _
  have free' : (Radix.grow t (place path) side).2.free = (ngxRadixAlloc t).2.free :=
    setChild_free _ _ _ _
  have start' : (Radix.grow t (place path) side).2.start = (ngxRadixAlloc t).2.start :=
    setChild_start _ _ _ _
  have root' : (Radix.grow t (place path) side).2.root = (ngxRadixAlloc t).2.root :=
    setChild_root _ _ _ _
  have top' : (ngxRadixAlloc t).2.root = place [] := linked'.root.symm
  refine ⟨a, rest, isNext, some_node, ⟨?_, ?_, ?_, ?_, ?_, ?_, ?_, ?_, ?_, ?_, linked'.once, ?_⟩, ?_⟩
  · rw [move [] (by simp), root', top']
  · rw [root']
    exact linked'.top
  · intro p s here
    by_cases new : p = path ++ [side]
    · subst new
      rw [self, children, if_pos rfl, move _ (append_ne_self _ _), below]
    · rw [move p new] at here ⊢
      rw [children, if_neg (unused p)]
      by_cases edge : p = path ∧ s = side
      · obtain ⟨rfl, rfl⟩ := edge
        rw [if_pos ⟨rfl, rfl⟩, self]
      · have notEdge : ¬(place p = place path ∧ s = side) := fun both =>
          edge ⟨linked.single p path here both.1, both.2⟩
        rw [if_neg notEdge, move _ (fun same => edge ((append_inj_iff _ _ _ _).mp same))]
        exact linked.child p s here
  · intro p s here
    by_cases new : p ++ [s] = path ++ [side]
    · obtain ⟨rfl, rfl⟩ := (append_inj_iff _ _ _ _).mp new
      rw [self, parents, if_pos rfl, move _ (append_ne_self _ _).symm]
    · rw [move _ new] at here ⊢
      have parentOld : p ≠ path ++ [side] := by
        rintro rfl
        exact here (below s)
      rw [move _ parentOld, parents, if_neg (unused _)]
      exact linked.parent p s here
  · rw [root', top', parents, if_neg (unused []), linked.root]
    exact linked.rootParent
  · intro p s here
    by_cases new : p ++ [s] = path ++ [side]
    · obtain ⟨rfl, rfl⟩ := (append_inj_iff _ _ _ _).mp new
      rw [move _ (append_ne_self _ _).symm]
      exact there
    · rw [move _ new] at here
      have parentOld : p ≠ path ++ [side] := by
        rintro rfl
        exact here (below s)
      rw [move _ parentOld]
      exact linked.closed p s here
  · intro p q here same
    by_cases newP : p = path ++ [side]
    · by_cases newQ : q = path ++ [side]
      · rw [newP, newQ]
      · rw [newP, self, move q newQ] at same
        exact (unused q same.symm).elim
    · by_cases newQ : q = path ++ [side]
      · rw [newQ, self, move p newP] at same
        exact (unused p same).elim
      · rw [move p newP] at here same
        rw [move q newQ] at same
        exact linked.single p q here same
  · intro p here
    by_cases new : p = path ++ [side]
    · rw [new, List.length_append, List.length_singleton]
      omega
    · rw [move p new] at here
      exact linked.depth p here
  · intro p
    rw [start']
    by_cases new : p = path ++ [side]
    · rw [new, self]
      exact old
    · rw [move p new]
      exact linked'.used p
  · rw [free']
    refine linked'.free.congr fun b member => ?_
    have other : b ≠ a := by
      rintro rfl
      exact fresh member
    have notNode : b ≠ place path := fun same => (linked'.apart b member).2 path same.symm
    have right := children b true
    rw [if_neg other, if_neg (fun both => notNode both.1)] at right
    rw [nodes]
    exact right
  · intro b member
    rw [start']
    refine ⟨(linked'.apart b member).1, fun p => ?_⟩
    by_cases new : p = path ++ [side]
    · rw [new, self]
      rintro rfl
      exact fresh member
    · rw [move p new]
      exact (linked'.apart b member).2 p
  · intro other
    unfold content
    by_cases new : other = path ++ [side]
    · rw [new, self, if_neg some_node, none, if_pos rfl, values, if_pos rfl]
    · rw [move other new, values, if_neg (unused other)]

/-- What `unlink` does to the nodes: the pointer to the node, and the node's own link. -/
theorem Linked.unlink_nodes (linked : Linked t place list) (there : place (path ++ [side]) ≠ 0) :
    let a := place (path ++ [side])
    (∀ b s, b ≠ a → ((unlink t a).nodes b).child s =
      if b = place path ∧ s = side then 0 else (t.nodes b).child s) ∧
      ((unlink t a).nodes a).right = t.free ∧
      (∀ b, ((unlink t a).nodes b).parent = (t.nodes b).parent) ∧
      ∀ b, ((unlink t a).nodes b).value = (t.nodes b).value := by
  have above := linked.closed path side there
  have isParent := linked.parent path side there
  have differ : place path ≠ place (path ++ [side]) := fun same =>
    append_ne_self path side (linked.single path _ above same).symm
  have isChild : (if (t.nodes (place path)).right = place (path ++ [side])
      then t.setRight (place path) 0 else t.setLeft (place path) 0) = t.setChild (place path) side 0 := by
    have right : (t.nodes (place path)).right = place (path ++ [true]) := linked.child path true above
    rw [right]
    cases side with
    | true => rw [if_pos rfl]; rfl
    | false =>
      rw [if_neg]
      · rfl
      · intro same
        have equal := linked.single _ _ (same ▸ there) same
        simp at equal
  have news := setChild_nodes t (place path) side 0
  have isUnlink : unlink t (place (path ++ [side])) =
      { (t.setChild (place path) side 0).setRight (place (path ++ [side])) t.free with
        free := place (path ++ [side]) } := by
    unfold unlink
    simp only [isParent, isChild, setChild_free]
  have nodes : ∀ b, (unlink t (place (path ++ [side]))).nodes b =
      if b = place (path ++ [side])
      then { (t.setChild (place path) side 0).nodes (place (path ++ [side])) with right := t.free }
      else (t.setChild (place path) side 0).nodes b := by
    intro b
    rw [isUnlink]
    simp only [Tree.setRight, Tree.write, Function.update_apply]
  refine ⟨fun b s other => ?_, ?_, fun b => ?_, fun b => ?_⟩
  · rw [nodes, if_neg other, (news b).1]
  · rw [nodes, if_pos rfl]
  · rw [nodes]
    by_cases same : b = place (path ++ [side])
    · rw [if_pos same, same]
      exact (news _).2.1
    · rw [if_neg same]
      exact (news b).2.1
  · rw [nodes]
    by_cases same : b = place (path ++ [side])
    · rw [if_pos same, same]
      exact (news _).2.2
    · rw [if_neg same]
      exact (news b).2.2

theorem unlink_same (t : Tree) (a : Nat) :
    (unlink t a).root = t.root ∧ (unlink t a).start = t.start ∧ (unlink t a).free = a := by
  unfold unlink
  dsimp only
  split
  · exact ⟨rfl, rfl, rfl⟩
  · exact ⟨rfl, rfl, rfl⟩

theorem Linked.unlink (linked : Linked t place list) (there : place (path ++ [side]) ≠ 0)
    (leaf : ∀ s, place (path ++ [side] ++ [s]) = 0) :
    Linked (Radix.unlink t (place (path ++ [side]))) (Function.update place (path ++ [side]) 0)
        (place (path ++ [side]) :: list) ∧
      ((Radix.unlink t (place (path ++ [side]))).nodes (place (path ++ [side]))).parent = place path ∧
      ∀ other, content (Radix.unlink t (place (path ++ [side])))
          (Function.update place (path ++ [side]) 0) other =
        if other = path ++ [side] then noValue else content t place other := by
  obtain ⟨children, isFree, parents, values⟩ := linked.unlink_nodes there
  obtain ⟨root', start', free'⟩ := unlink_same t (place (path ++ [side]))
  have self : Function.update place (path ++ [side]) 0 (path ++ [side]) = 0 :=
    Function.update_self _ _ _
  have move : ∀ other, other ≠ path ++ [side] →
      Function.update place (path ++ [side]) 0 other = place other := fun other differ =>
    Function.update_of_ne differ _ _
  have stays : ∀ p, Function.update place (path ++ [side]) 0 p ≠ 0 →
      p ≠ path ++ [side] ∧ place p ≠ 0 ∧ place p ≠ place (path ++ [side]) := by
    intro p here
    have other : p ≠ path ++ [side] := by
      rintro rfl
      exact here self
    rw [move p other] at here
    exact ⟨other, here, fun same => other (linked.single p _ here same)⟩
  refine ⟨⟨?_, ?_, ?_, ?_, ?_, ?_, ?_, ?_, ?_, ?_, ?_, ?_⟩, ?_, ?_⟩
  · rw [move [] (by simp), root', linked.root]
  · rw [root']
    exact linked.top
  · intro p s here
    obtain ⟨other, old, differ⟩ := stays p here
    rw [move p other, children _ _ differ]
    by_cases edge : p = path ∧ s = side
    · obtain ⟨rfl, rfl⟩ := edge
      rw [if_pos ⟨rfl, rfl⟩, self]
    · have notEdge : ¬(place p = place path ∧ s = side) := fun both =>
        edge ⟨linked.single p path old both.1, both.2⟩
      rw [if_neg notEdge, move _ (fun same => edge ((append_inj_iff _ _ _ _).mp same))]
      exact linked.child p s old
  · intro p s here
    obtain ⟨other, old, _⟩ := stays _ here
    have parentStays : p ≠ path ++ [side] := by
      rintro rfl
      exact old (leaf s)
    rw [move _ other, move _ parentStays, parents]
    exact linked.parent p s old
  · rw [root', parents]
    exact linked.rootParent
  · intro p s here
    obtain ⟨_, old, _⟩ := stays _ here
    have parentStays : p ≠ path ++ [side] := by
      rintro rfl
      exact old (leaf s)
    rw [move _ parentStays]
    exact linked.closed p s old
  · intro p q here same
    obtain ⟨otherP, old, _⟩ := stays _ here
    rw [same] at here
    obtain ⟨otherQ, _, _⟩ := stays _ here
    rw [move p otherP, move q otherQ] at same
    exact linked.single p q old same
  · intro p here
    exact linked.depth p (stays p here).2.1
  · intro p
    rw [start']
    by_cases gone : p = path ++ [side]
    · rw [gone, self]
      exact lt_of_le_of_lt (Nat.zero_le _) (linked.used [])
    · rw [move p gone]
      exact linked.used p
  · refine ⟨free', there, ?_⟩
    rw [isFree]
    refine linked.free.congr fun b member => ?_
    have notNode : b ≠ place (path ++ [side]) := fun same =>
      (linked.apart b member).2 _ same.symm
    have notParent : b ≠ place path := fun same => (linked.apart b member).2 path same.symm
    have right := children b true notNode
    rw [if_neg (fun both => notParent both.1)] at right
    exact right
  · exact List.nodup_cons.mpr ⟨fun member => (linked.apart _ member).2 _ rfl, linked.once⟩
  · intro b member
    rw [start']
    rcases List.mem_cons.mp member with rfl | later
    · refine ⟨linked.used _, fun p => ?_⟩
      by_cases gone : p = path ++ [side]
      · rw [gone, self]
        exact there.symm
      · rw [move p gone]
        intro same
        exact gone (linked.single p _ (same ▸ there) same)
    · refine ⟨(linked.apart b later).1, fun p => ?_⟩
      by_cases gone : p = path ++ [side]
      · rw [gone, self]
        exact (linked.free.some_node b later).symm
      · rw [move p gone]
        exact (linked.apart b later).2 p
  · rw [parents]
    exact linked.parent path side there
  · intro other
    unfold content
    by_cases gone : other = path ++ [side]
    · rw [gone, self, if_pos rfl, if_pos rfl]
    · rw [move other gone, if_neg gone, values]

end Links

end NgxFormal.Core.Radix
