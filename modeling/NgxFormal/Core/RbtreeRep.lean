import NgxFormal.Lib.RedBlack
import Mathlib.Data.List.Nodup
import Mathlib.Data.List.Perm.Basic

/-! `ngx_rbtree_insert`, `ngx_rbtree_delete` and the rotations on a heap of nodes. Mirrored
branches of the source are one definition with the side as a parameter. -/

namespace NgxFormal.Core.Rbtree

open Lib.RedBlack

/-- `ngx_rbtree_node_t`; a pointer is the address of a node. -/
structure Node where
  key : Nat
  left : Nat
  right : Nat
  parent : Nat
  color : Color
  deriving DecidableEq, Repr

abbrev Heap := Nat → Node

abbrev null : Nat := 0

def Node.child (node : Node) : Side → Nat
  | .left => node.left
  | .right => node.right

def Heap.setKey (h : Heap) (i v : Nat) : Heap := fun j => if j = i then { h j with key := v } else h j

def Heap.setChild (h : Heap) (s : Side) (i v : Nat) : Heap := fun j =>
  if j = i then
    match s with
    | .left => { h j with left := v }
    | .right => { h j with right := v }
  else h j

def Heap.setParent (h : Heap) (i v : Nat) : Heap := fun j =>
  if j = i then { h j with parent := v } else h j

def Heap.setColor (h : Heap) (i : Nat) (c : Color) : Heap := fun j =>
  if j = i then { h j with color := c } else h j

/-- `ngx_rbtree_t`, with the memory its nodes are in. -/
structure RbTree where
  heap : Heap
  root : Nat
  sentinel : Nat

def ngxRbtreeInit (heap : Heap) (sentinel : Nat) : RbTree :=
  { heap := heap.setColor sentinel .black, root := sentinel, sentinel := sentinel }

/-- `if (node == node->parent->left) ...`, with the side that is looked at first. -/
def relink (h : Heap) (s : Side) (parent node temp : Nat) : Heap :=
  if node = (h parent).child s then h.setChild s parent temp
  else h.setChild s.other parent temp

/-- The rotation that moves `node` down on side `s`. -/
def rotate (s : Side) (tree : RbTree) (node : Nat) : RbTree :=
  let h := tree.heap
  let temp := (h node).child s.other
  let h := h.setChild s.other node ((h temp).child s)
  let h :=
    if (h temp).child s ≠ tree.sentinel then h.setParent ((h temp).child s) node else h
  let h := h.setParent temp (h node).parent
  let (h, root) :=
    if node = tree.root then (h, temp)
    else (relink h s (h node).parent node temp, tree.root)
  let h := h.setChild s temp node
  let h := h.setParent node temp
  { tree with heap := h, root := root }

def ngxRbtreeLeftRotate : RbTree → Nat → RbTree := rotate .left

def ngxRbtreeRightRotate : RbTree → Nat → RbTree := rotate .right

/-- The loop of `ngx_rbtree_insert_value` and its likes: the address and the side of the place
for `key`. -/
def findPlace (less : Nat → Nat → Bool) (h : Heap) (sentinel key : Nat) :
    Nat → Nat → Option (Nat × Side)
  | 0, _ => none
  | fuel + 1, temp =>
    let side := if less key (h temp).key then Side.left else Side.right
    let next := (h temp).child side
    if next = sentinel then some (temp, side)
    else findPlace less h sentinel key fuel next

/-- `node->key < temp->key`, the comparison of `ngx_rbtree_insert_value`. -/
def keyLess (key temp : Nat) : Bool := decide (key < temp)

/-- `ngx_rbtree_insert_value` for `less := keyLess`. -/
def insertValue (less : Nat → Nat → Bool) (fuel : Nat) (tree : RbTree) (node : Nat) :
    Option RbTree :=
  (findPlace less tree.heap tree.sentinel (tree.heap node).key fuel tree.root).map
    fun (temp, side) =>
      let h := tree.heap.setChild side temp node
      let h := h.setParent node temp
      let h := (h.setChild .left node tree.sentinel).setChild .right node tree.sentinel
      { tree with heap := h.setColor node .red }

/-- The body of the rebalancing loop of `ngx_rbtree_insert` for a parent on side `g`. -/
def insertTurn (g : Side) (tree : RbTree) (node : Nat) : RbTree × Nat :=
  let h := tree.heap
  let parent := (h node).parent
  let grand := (h parent).parent
  let temp := (h grand).child g.other
  if (h temp).color = .red then
    let h := ((h.setColor parent .black).setColor temp .black).setColor grand .red
    ({ tree with heap := h }, grand)
  else
    let (tree, node) :=
      if node = (h parent).child g.other then (rotate g tree parent, parent) else (tree, node)
    let h := tree.heap
    let parent := (h node).parent
    let grand := (h parent).parent
    let h := (h.setColor parent .black).setColor grand .red
    (rotate g.other { tree with heap := h } grand, node)

/-- `while (node != *root && ngx_rbt_is_red(node->parent))` -/
def insertLoop : Nat → RbTree → Nat → Option RbTree
  | 0, _, _ => none
  | fuel + 1, tree, node =>
    let h := tree.heap
    if node ≠ tree.root ∧ (h (h node).parent).color = .red then
      let grand := (h (h node).parent).parent
      let (tree, node) :=
        if (h node).parent = (h grand).left then insertTurn .left tree node
        else insertTurn .right tree node
      insertLoop fuel tree node
    else some { tree with heap := h.setColor tree.root .black }

def ngxRbtreeInsert (less : Nat → Nat → Bool) (fuel : Nat) (tree : RbTree) (node : Nat) :
    Option RbTree :=
  if tree.root = tree.sentinel then
    let h := tree.heap.setParent node null
    let h := (h.setChild .left node tree.sentinel).setChild .right node tree.sentinel
    some { tree with heap := h.setColor node .black, root := node }
  else (insertValue less fuel tree node).bind fun tree => insertLoop fuel tree node

def ngxRbtreeMin (h : Heap) (sentinel : Nat) : Nat → Nat → Option Nat
  | 0, _ => none
  | fuel + 1, node =>
    if (h node).left ≠ sentinel then ngxRbtreeMin h sentinel fuel (h node).left else some node

/-- `if (ngx_rbt_is_red(w))`: the sibling `w` of `temp`, on side `s`, gets black. -/
def siblingTurn (s : Side) (tree : RbTree) (temp : Nat) : RbTree :=
  let h := tree.heap
  let w := (h (h temp).parent).child s.other
  if (h w).color = .red then
    let h := (h.setColor w .black).setColor (h temp).parent .red
    rotate s { tree with heap := h } (h temp).parent
  else tree

/-- `if (ngx_rbt_is_black(w->right))`: the child of `w` on the far side gets red. -/
def nephewTurn (s : Side) (tree : RbTree) (temp : Nat) : RbTree :=
  let h := tree.heap
  let w := (h (h temp).parent).child s.other
  if (h ((h w).child s.other)).color = .black then
    let h := (h.setColor ((h w).child s) .black).setColor w .red
    rotate s.other { tree with heap := h } w
  else tree

/-- The colours and the rotation in front of `temp = *root`. -/
def closingTurn (s : Side) (tree : RbTree) (temp : Nat) : RbTree :=
  let h := tree.heap
  let w := (h (h temp).parent).child s.other
  let h := h.setColor w (h (h temp).parent).color
  let h := h.setColor (h temp).parent .black
  let h := h.setColor ((h w).child s.other) .black
  rotate s { tree with heap := h } (h temp).parent

/-- The body of the loop of `ngx_rbtree_delete` for a `temp` on side `s`. -/
def deleteTurn (s : Side) (tree : RbTree) (temp : Nat) : RbTree × Nat :=
  let tree := siblingTurn s tree temp
  let h := tree.heap
  let w := (h (h temp).parent).child s.other
  if (h (h w).left).color = .black ∧ (h (h w).right).color = .black then
    ({ tree with heap := h.setColor w .red }, (h temp).parent)
  else
    let tree := closingTurn s (nephewTurn s tree temp) temp
    (tree, tree.root)

/-- `while (temp != *root && ngx_rbt_is_black(temp))` -/
def deleteLoop : Nat → RbTree → Nat → Option RbTree
  | 0, _, _ => none
  | fuel + 1, tree, temp =>
    let h := tree.heap
    if temp ≠ tree.root ∧ (h temp).color = .black then
      let (tree, temp) :=
        if temp = (h (h temp).parent).left then deleteTurn .left tree temp
        else deleteTurn .right tree temp
      deleteLoop fuel tree temp
    else some { tree with heap := h.setColor temp .black }

/-- The DEBUG stuff. -/
def clearNode (h : Heap) (node : Nat) : Heap :=
  (((h.setChild .left node null).setChild .right node null).setParent node null).setKey node 0

/-- `subst` takes the place of `node`, whose links it copies. -/
def substitute (tree : RbTree) (node subst : Nat) : RbTree :=
  let h := tree.heap
  let h := h.setChild .left subst (h node).left
  let h := h.setChild .right subst (h node).right
  let h := h.setParent subst (h node).parent
  let h := h.setColor subst (h node).color
  let (h, root) :=
    if node = tree.root then (h, subst) else (relink h .left (h node).parent node subst, tree.root)
  let h := if (h subst).left ≠ tree.sentinel then h.setParent (h subst).left subst else h
  let h := if (h subst).right ≠ tree.sentinel then h.setParent (h subst).right subst else h
  { tree with heap := h, root := root }

/-- `ngx_rbtree_delete` behind the choice of `temp` and `subst`. -/
def unlink (fuel : Nat) (tree : RbTree) (node temp subst : Nat) : Option RbTree :=
  let h := tree.heap
  if subst = tree.root then
    some { tree with heap := clearNode (h.setColor temp .black) node, root := temp }
  else
    let red := (h subst).color = .red
    let h := relink h .left (h subst).parent subst temp
    let tree :=
      if subst = node then { tree with heap := h.setParent temp (h subst).parent }
      else
        let h :=
          if (h subst).parent = node then h.setParent temp subst
          else h.setParent temp (h subst).parent
        substitute { tree with heap := h } node subst
    let tree := { tree with heap := clearNode tree.heap node }
    if red then some tree else deleteLoop fuel tree temp

def ngxRbtreeDelete (fuel : Nat) (tree : RbTree) (node : Nat) : Option RbTree :=
  let h := tree.heap
  if (h node).left = tree.sentinel then unlink fuel tree node (h node).right node
  else if (h node).right = tree.sentinel then unlink fuel tree node (h node).left node
  else
    (ngxRbtreeMin h tree.sentinel fuel (h node).right).bind fun subst =>
      let temp :=
        if (h subst).left ≠ tree.sentinel then (h subst).left else (h subst).right
      unlink fuel tree node temp subst

end NgxFormal.Core.Rbtree

/-! Which heaps hold which tree, seen from a node in the middle of it. -/

namespace NgxFormal.Core.Rbtree

open Lib.RedBlack

section Setters

variable (h : Heap) (s s' : Side) (i j v : Nat) (c : Color)

theorem setChild_ne (differ : j ≠ i) : h.setChild s i v j = h j := if_neg differ

theorem setParent_ne (differ : j ≠ i) : h.setParent i v j = h j := if_neg differ

theorem setColor_ne (differ : j ≠ i) : h.setColor i c j = h j := if_neg differ

theorem setKey_ne (differ : j ≠ i) : h.setKey i v j = h j := if_neg differ

@[simp] theorem setChild_child :
    (h.setChild s i v j).child s' = if j = i ∧ s' = s then v else (h j).child s' := by
  unfold Heap.setChild
  by_cases same : j = i
  · cases s <;> cases s' <;> simp [same, Node.child]
  · simp [same]

@[simp] theorem setChild_parent : (h.setChild s i v j).parent = (h j).parent := by
  unfold Heap.setChild
  by_cases same : j = i
  · cases s <;> simp [same]
  · simp [same]

@[simp] theorem setChild_color : (h.setChild s i v j).color = (h j).color := by
  unfold Heap.setChild
  by_cases same : j = i
  · cases s <;> simp [same]
  · simp [same]

@[simp] theorem setChild_key : (h.setChild s i v j).key = (h j).key := by
  unfold Heap.setChild
  by_cases same : j = i
  · cases s <;> simp [same]
  · simp [same]

@[simp] theorem setParent_child : (h.setParent i v j).child s = (h j).child s := by
  rw [Heap.setParent]
  split <;> cases s <;> rfl

@[simp] theorem setParent_parent :
    (h.setParent i v j).parent = if j = i then v else (h j).parent := by
  rw [Heap.setParent]
  split <;> rfl

@[simp] theorem setParent_color : (h.setParent i v j).color = (h j).color := by
  rw [Heap.setParent]
  split <;> rfl

@[simp] theorem setParent_key : (h.setParent i v j).key = (h j).key := by
  rw [Heap.setParent]
  split <;> rfl

@[simp] theorem setColor_child : (h.setColor i c j).child s = (h j).child s := by
  rw [Heap.setColor]
  split <;> cases s <;> rfl

@[simp] theorem setColor_parent : (h.setColor i c j).parent = (h j).parent := by
  rw [Heap.setColor]
  split <;> rfl

@[simp] theorem setColor_color :
    (h.setColor i c j).color = if j = i then c else (h j).color := by
  rw [Heap.setColor]
  split <;> rfl

@[simp] theorem setColor_key : (h.setColor i c j).key = (h j).key := by
  rw [Heap.setColor]
  split <;> rfl

end Setters

def ptr (sentinel : Nat) : ColorTree Nat → Nat
  | .nil => sentinel
  | .node _ _ i _ => i

/-- The nodes of the heap form the tree; `up` is the parent of its root, if that matters. -/
def Rep (h : Heap) (sentinel : Nat) : Option Nat → ColorTree Nat → Prop
  | _, .nil => True
  | up, .node c l i r =>
    i ≠ sentinel ∧ (h i).color = c ∧ (h i).child .left = ptr sentinel l ∧
      (h i).child .right = ptr sentinel r ∧ (∀ p, up = some p → (h i).parent = p) ∧
      Rep h sentinel (some i) l ∧ Rep h sentinel (some i) r

def holder : Ctx Nat → Option Nat
  | .top => none
  | .frame _ _ a _ _ => some a

/-- The nodes of the heap form the tree around the hole, which holds the address `q`. -/
def RepCtx (h : Heap) (sentinel : Nat) : Ctx Nat → Nat → Prop
  | .top, _ => True
  | .frame s c a sibling up, q =>
    a ≠ sentinel ∧ (h a).color = c ∧ (h a).child s = q ∧
      (h a).child s.other = ptr sentinel sibling ∧ (∀ p, holder up = some p → (h a).parent = p) ∧
      Rep h sentinel (some a) sibling ∧ RepCtx h sentinel up a

/-- The root of a tree with `q` in the hole. -/
def rootPtr : Ctx Nat → Nat → Nat
  | .top, q => q
  | .frame _ _ a _ up, _ => rootPtr up a

def ids : Ctx Nat → List Nat
  | .top => []
  | .frame _ _ a sibling up => a :: (sibling.toList ++ ids up)

/-- The heap holds the tree `t` inside `ctx`, each node once. -/
structure Focus (tree : RbTree) (ctx : Ctx Nat) (t : ColorTree Nat) : Prop where
  around : RepCtx tree.heap tree.sentinel ctx (ptr tree.sentinel t)
  here : Rep tree.heap tree.sentinel (holder ctx) t
  root : tree.root = rootPtr ctx (ptr tree.sentinel t)
  nodup : (t.toList ++ ids ctx).Nodup
  black : (tree.heap tree.sentinel).color = .black

section Rep

variable {h h' : Heap} {sentinel : Nat} {up : Option Nat} {t near far : ColorTree Nat} {a : Nat}
  {c : Color}

theorem join_perm (s : Side) (c : Color) (near : ColorTree Nat) (a : Nat) (far : ColorTree Nat) :
    (join s c near a far).toList.Perm (a :: (near.toList ++ far.toList)) := by
  cases s with
  | left => exact List.perm_middle
  | right =>
    refine List.perm_middle.trans (List.Perm.cons a ?_)
    exact List.perm_append_comm

@[simp] theorem ptr_join (s : Side) : ptr sentinel (join s c near a far) = a := by
  cases s <;> rfl

theorem rep_join (s : Side) :
    Rep h sentinel up (join s c near a far) ↔
      a ≠ sentinel ∧ (h a).color = c ∧ (h a).child s = ptr sentinel near ∧
        (h a).child s.other = ptr sentinel far ∧ (∀ p, up = some p → (h a).parent = p) ∧
        Rep h sentinel (some a) near ∧ Rep h sentinel (some a) far := by
  cases s with
  | left => exact Iff.rfl
  | right =>
    simp only [join, Rep, Side.other]
    tauto

theorem Rep.congr (rep : Rep h sentinel up t) (same : ∀ i ∈ t.toList, h' i = h i) :
    Rep h' sentinel up t := by
  induction t generalizing up with
  | nil => trivial
  | node c l i r inLeft inRight =>
    obtain ⟨real, color, left, right, parent, repLeft, repRight⟩ := rep
    have here : h' i = h i := same i (by simp [ColorTree.toList])
    rw [← here] at color left right parent
    exact ⟨real, color, left, right, parent,
      inLeft repLeft fun j member => same j (by simp [ColorTree.toList, member]),
      inRight repRight fun j member => same j (by simp [ColorTree.toList, member])⟩

theorem Rep.reparent {p : Nat} (rep : Rep h sentinel up t) (nodup : t.toList.Nodup)
    (off : ∀ i ∈ t.toList, i ≠ ptr sentinel t → h' i = h i)
    (at_root : ptr sentinel t ≠ sentinel →
      h' (ptr sentinel t) = { h (ptr sentinel t) with parent := p }) :
    Rep h' sentinel (some p) t := by
  cases t with
  | nil => trivial
  | node c l i r =>
    obtain ⟨real, color, left, right, _, repLeft, repRight⟩ := rep
    have changed : h' i = { h i with parent := p } := at_root real
    rw [ColorTree.toList, List.nodup_append] at nodup
    have here : i ∉ l.toList := fun member => nodup.2.2 i member i List.mem_cons_self rfl
    have there : i ∉ r.toList := (List.nodup_cons.mp nodup.2.1).1
    refine ⟨real, by rw [changed]; exact color, by rw [changed]; exact left,
      by rw [changed]; exact right, ?_, ?_, ?_⟩
    · intro q given
      rw [changed]
      exact Option.some.inj given
    · apply repLeft.congr
      intro j member
      refine off j (by simp [ColorTree.toList, member]) ?_
      rintro (rfl : j = i)
      exact here member
    · apply repRight.congr
      intro j member
      refine off j (by simp [ColorTree.toList, member]) ?_
      rintro (rfl : j = i)
      exact there member

theorem Rep.forget (rep : Rep h sentinel up t) : Rep h sentinel none t := by
  cases t with
  | nil => trivial
  | node c l i r =>
    obtain ⟨real, color, left, right, _, rest⟩ := rep
    exact ⟨real, color, left, right, by simp, rest⟩

theorem Rep.ptr_mem (rep : Rep h sentinel up t) (some_tree : ptr sentinel t ≠ sentinel) :
    ptr sentinel t ∈ t.toList := by
  cases t with
  | nil => exact absurd rfl some_tree
  | node c l i r => simp [ptr, ColorTree.toList]

theorem Rep.sentinel_not_mem (rep : Rep h sentinel up t) : sentinel ∉ t.toList := by
  induction t generalizing up with
  | nil => exact List.not_mem_nil
  | node c l i r inLeft inRight =>
    obtain ⟨real, _, _, _, _, repLeft, repRight⟩ := rep
    simp only [ColorTree.toList, List.mem_append, List.mem_cons, not_or]
    exact ⟨inLeft repLeft, Ne.symm real, inRight repRight⟩

theorem RepCtx.congr {ctx : Ctx Nat} {q : Nat} (rep : RepCtx h sentinel ctx q)
    (same : ∀ i ∈ ids ctx, h' i = h i) : RepCtx h' sentinel ctx q := by
  induction ctx generalizing q with
  | top => trivial
  | frame s c a sibling up inUp =>
    obtain ⟨real, color, hole, other, parent, repSibling, repUp⟩ := rep
    have here : h' a = h a := same a (by simp [ids])
    rw [← here] at color hole other parent
    exact ⟨real, color, hole, other, parent,
      repSibling.congr fun j member => same j (by simp [ids, member]),
      inUp repUp fun j member => same j (by simp [ids, member])⟩

theorem RepCtx.sentinel_not_mem {ctx : Ctx Nat} {q : Nat} (rep : RepCtx h sentinel ctx q) :
    sentinel ∉ ids ctx := by
  induction ctx generalizing q with
  | top => exact List.not_mem_nil
  | frame s c a sibling up inUp =>
    obtain ⟨real, _, _, _, _, repSibling, repUp⟩ := rep
    simp only [ids, List.mem_cons, List.mem_append, not_or]
    exact ⟨Ne.symm real, repSibling.sentinel_not_mem, inUp repUp⟩

end Rep

section Focus

variable {tree : RbTree} {ctx up : Ctx Nat} {t sibling : ColorTree Nat} {s : Side} {c : Color} {a : Nat}

theorem frame_perm : (t.toList ++ ids (.frame s c a sibling up)).Perm
    ((join s c t a sibling).toList ++ ids up) := by
  refine List.Perm.trans ?_ ((join_perm s c t a sibling).symm.append_right _)
  simp only [ids, List.cons_append, List.append_assoc]
  exact List.perm_middle

theorem plug_perm (ctx : Ctx Nat) (t : ColorTree Nat) :
    (plug ctx t).toList.Perm (t.toList ++ ids ctx) := by
  induction ctx generalizing t with
  | top => simp [plug, ids]
  | frame s c a sibling up inUp => exact (inUp _).trans frame_perm.symm

theorem focus_frame :
    Focus tree (.frame s c a sibling up) t ↔ Focus tree up (join s c t a sibling) := by
  constructor
  · rintro ⟨⟨real, color, hole, other, parent, repSibling, repUp⟩, here, root, nodup, black⟩
    refine ⟨by rwa [ptr_join], (rep_join s).mpr ⟨real, color, hole, other, parent, here, repSibling⟩,
      by rw [root, ptr_join]; rfl, frame_perm.nodup_iff.mp nodup, black⟩
  · rintro ⟨around, here, root, nodup, black⟩
    rw [ptr_join] at around root
    obtain ⟨real, color, hole, other, parent, repHere, repSibling⟩ := (rep_join s).mp here
    exact ⟨⟨real, color, hole, other, parent, repSibling, around⟩, repHere, root,
      frame_perm.nodup_iff.mpr nodup, black⟩

theorem ids_append (inner outer : Ctx Nat) : ids (inner.append outer) = ids inner ++ ids outer := by
  induction inner with
  | top => rfl
  | frame s c a sibling up ih => simp [Ctx.append, ids, ih]

theorem focus_append {inner outer : Ctx Nat} :
    Focus tree (inner.append outer) t ↔ Focus tree outer (plug inner t) := by
  induction inner generalizing t with
  | top => exact Iff.rfl
  | frame s c a sibling up ih => rw [Ctx.append, focus_frame, ih, plug]

theorem focus_top : Focus tree ctx t ↔ Focus tree .top (plug ctx t) := by
  induction ctx generalizing t with
  | top => exact Iff.rfl
  | frame s c a sibling up ih => rw [focus_frame, ih, plug]

end Focus

end NgxFormal.Core.Rbtree
