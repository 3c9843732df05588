import NgxFormal.Core.RbtreeFixup

/-! `ngx_rbtree_delete`: a node is taken out, a substitute takes its place, and the loop
rebalances the tree. -/

namespace NgxFormal.Core.Rbtree

open Lib.RedBlack

section Splice

variable {tree : RbTree} {ctx up inner : Ctx Nat} {t child l r : ColorTree Nat} {s : Side} {c d : Color}
  {a node subst : Nat}

theorem Focus.congr (focus : Focus tree ctx t) {h : Heap}
    (same : ∀ i ∈ t.toList ++ ids ctx, h i = tree.heap i)
    (black : (h tree.sentinel).color = .black) : Focus { tree with heap := h } ctx t where
  around := focus.around.congr fun i member => same i (List.mem_append_right _ member)
  here := focus.here.congr fun i member => same i (List.mem_append_left _ member)
  root := focus.root
  nodup := focus.nodup
  black := black

@[simp] theorem relink_parent (h : Heap) (s : Side) (p q q' i : Nat) :
    (relink h s p q q' i).parent = (h i).parent := by
  rw [relink]
  split <;> simp

theorem clearNode_ne {h : Heap} {i : Nat} (differ : i ≠ node) : clearNode h node i = h i := by
  rw [clearNode, setKey_ne _ _ _ _ differ, setParent_ne _ _ _ _ differ,
    setChild_ne _ _ _ _ _ differ, setChild_ne _ _ _ _ _ differ]

theorem Focus.splice (focus : Focus tree ctx (join s c .nil a child)) (below : a ≠ tree.root) :
    let parent := (tree.heap a).parent
    let temp := ptr tree.sentinel child
    let spliced := { tree with
      heap := (relink tree.heap .left parent a temp).setParent temp parent }
    Focus spliced ctx child ∧ Noted spliced ctx child ∧
      (∀ i, keyOf spliced i = keyOf tree i) ∧
      ∀ i, i ∉ ids ctx → i ≠ temp → spliced.heap i = tree.heap i := by
  intro parent temp spliced
  obtain ⟨real, color, _, childA, parentA, _, repChild⟩ := (rep_join s).mp focus.here
  have around := focus.around
  have root := focus.root
  rw [ptr_join] at around root
  have distinct := focus.nodup_join
  simp only [ColorTree.toList, List.nil_append, List.nodup_cons, List.mem_append, not_or,
    List.nodup_append] at distinct
  obtain ⟨⟨aChild, aCtx⟩, nodupChild, nodupCtx, childCtx⟩ := distinct
  have replaced := around.replace .left temp root nodupCtx aCtx real parentA
  rw [if_neg below, if_neg below] at replaced
  have tempCtx : temp ∉ ids ctx := by
    by_cases empty : temp = tree.sentinel
    · rw [empty]
      exact focus.around.sentinel_not_mem
    · exact fun inside => childCtx temp (repChild.ptr_mem empty) temp inside rfl
  have off : ∀ i, i ∉ ids ctx → i ≠ temp → spliced.heap i = tree.heap i := by
    intro i outside differ
    exact (setParent_ne _ _ _ _ differ).trans (replaced.off i outside)
  have noted : (spliced.heap temp).parent = parent := by simp [spliced]
  refine ⟨⟨?_, ?_, replaced.root, ?_, ?_⟩, ?_, ?_, off⟩
  · apply replaced.around.congr
    intro i member
    exact setParent_ne _ _ _ _ fun same => tempCtx (same ▸ member)
  · have child_rep : Rep spliced.heap tree.sentinel (some parent) child := by
      apply repChild.reparent nodupChild
      · intro i member notRoot
        exact off i (fun inside => childCtx i member i inside rfl) notRoot
      · intro _
        have at_temp : relink tree.heap .left parent a temp temp = tree.heap temp :=
          replaced.off temp tempCtx
        exact (if_pos rfl).trans (by rw [at_temp])
    cases ctx with
    | top => exact child_rep.forget
    | frame s' c' p sibling up =>
      rw [← parentA p rfl]
      exact child_rep
  · exact List.nodup_append.mpr ⟨nodupChild, nodupCtx, childCtx⟩
  · have same : (spliced.heap tree.sentinel).color = (tree.heap tree.sentinel).color := by
      simp only [spliced, setParent_color]
      rw [replaced.off _ focus.around.sentinel_not_mem]
    exact same.trans focus.black
  · intro p given
    exact noted.trans (parentA p given)
  · intro i
    simp only [keyOf, spliced, setParent_key]
    exact replaced.keys i

end Splice

section Substitute

variable {tree : RbTree} {ctx : Ctx Nat} {t l r : ColorTree Nat} {c : Color} {node subst : Nat}

/-- `if (q != sentinel) q->parent = p` -/
def adopt (h : Heap) (sentinel q p : Nat) : Heap := if q ≠ sentinel then h.setParent q p else h

theorem adopt_ne {h : Heap} {sentinel q p i : Nat} (differ : i = q → i = sentinel) :
    adopt h sentinel q p i = h i := by
  rw [adopt]
  by_cases empty : q = sentinel
  · rw [if_neg (not_not.mpr empty)]
  · rw [if_pos empty]
    exact setParent_ne _ _ _ _ fun same => empty (same ▸ differ same)

theorem adopt_self {h : Heap} {sentinel q p : Nat} (real : q ≠ sentinel) :
    adopt h sentinel q p q = { h q with parent := p } := by
  rw [adopt, if_pos real]
  exact if_pos rfl

@[simp] theorem adopt_child {h : Heap} {sentinel q p i : Nat} {s : Side} :
    (adopt h sentinel q p i).child s = (h i).child s := by
  rw [adopt]
  split <;> simp

@[simp] theorem adopt_key {h : Heap} {sentinel q p i : Nat} :
    (adopt h sentinel q p i).key = (h i).key := by
  rw [adopt]
  split <;> simp

/-- The links and the colour of `node` are copied to `subst`. -/
def copied (h : Heap) (node subst : Nat) : Heap :=
  (((h.setChild .left subst (h node).left).setChild .right subst (h node).right).setParent subst
    (h node).parent).setColor subst (h node).color

theorem copied_ne {h : Heap} {i : Nat} (differ : i ≠ subst) : copied h node subst i = h i := by
  rw [copied, setColor_ne _ _ _ _ differ, setParent_ne _ _ _ _ differ,
    setChild_ne _ _ _ _ _ differ, setChild_ne _ _ _ _ _ differ]

theorem substitute_eq (differ : node ≠ subst) :
    substitute tree node subst =
      let h := copied tree.heap node subst
      let linked := if node = tree.root then h else relink h .left (h node).parent node subst
      let left := adopt linked tree.sentinel ((linked subst).child .left) subst
      { tree with
        heap := adopt left tree.sentinel ((left subst).child .right) subst
        root := if node = tree.root then subst else tree.root } := by
  have same : tree.heap.setChild .left subst (tree.heap node).left node = tree.heap node :=
    setChild_ne _ _ _ _ _ differ
  have same' : (tree.heap.setChild .left subst (tree.heap node).left).setChild .right subst
      (tree.heap node).right node = tree.heap node :=
    (setChild_ne _ _ _ _ _ differ).trans same
  unfold substitute
  simp only [same, same', setParent_color, copied]
  by_cases atRoot : node = tree.root
  · simp only [if_pos atRoot]
    rfl
  · simp only [if_neg atRoot]
    rfl

/-- A node that is linked as `Focus` says, but for the parents of its subtrees. -/
structure Loose (tree : RbTree) (ctx : Ctx Nat) (l : ColorTree Nat) (node : Nat) (r : ColorTree Nat) :
    Prop where
  around : RepCtx tree.heap tree.sentinel ctx node
  real : node ≠ tree.sentinel
  left : (tree.heap node).left = ptr tree.sentinel l
  right : (tree.heap node).right = ptr tree.sentinel r
  parent : ∀ p, holder ctx = some p → (tree.heap node).parent = p
  inLeft : Rep tree.heap tree.sentinel none l
  inRight : Rep tree.heap tree.sentinel none r
  root : tree.root = rootPtr ctx node
  black : (tree.heap tree.sentinel).color = .black

theorem Loose.substituted (loose : Loose tree ctx l node r) (real : subst ≠ tree.sentinel)
    (distinct : (subst :: node :: (l.toList ++ (r.toList ++ ids ctx))).Nodup) :
    Focus (substitute tree node subst) ctx (.node (tree.heap node).color l subst r) ∧
      Kept tree (substitute tree node subst) := by
  simp only [List.nodup_cons, List.mem_cons, List.mem_append, not_or, List.nodup_append] at distinct
  obtain ⟨⟨apart, substLeft, substRight, substCtx⟩, ⟨nodeLeft, nodeRight, nodeCtx⟩, nodupLeft,
    ⟨nodupRight, nodupCtx, rightCtx⟩, leftOther⟩ := distinct
  set h := copied tree.heap node subst with h_eq
  have off : ∀ i, i ≠ subst → h i = tree.heap i := fun i differ => copied_ne differ
  have replaced := (loose.around.congr fun i member =>
      off i fun same => substCtx (same ▸ member)).replace .left subst loose.root nodupCtx nodeCtx
    loose.real (by
      intro p given
      rw [off node (Ne.symm apart)]
      exact loose.parent p given)
  rw [substitute_eq (Ne.symm apart)]
  simp only [← h_eq]
  set linked := if node = tree.root then h else relink h .left (h node).parent node subst
  have atSubst : linked subst = h subst := replaced.off subst substCtx
  have leftPtr : (linked subst).child .left = ptr tree.sentinel l := by
    rw [atSubst, h_eq, ← loose.left]
    simp [copied]
  have rightPtr : (linked subst).child .right = ptr tree.sentinel r := by
    rw [atSubst, h_eq, ← loose.right]
    simp [copied]
  simp only [adopt_child, leftPtr, rightPtr]
  set final := adopt (adopt linked tree.sentinel (ptr tree.sentinel l) subst) tree.sentinel
    (ptr tree.sentinel r) subst with final_eq
  have kept : ∀ i, (i = ptr tree.sentinel l → i = tree.sentinel) →
      (i = ptr tree.sentinel r → i = tree.sentinel) → final i = linked i := by
    intro i notLeft notRight
    rw [final_eq, adopt_ne notRight, adopt_ne notLeft]
  have outside : ∀ {i : Nat} {t : ColorTree Nat}, Rep tree.heap tree.sentinel none t → i ∉ t.toList →
      i = ptr tree.sentinel t → i = tree.sentinel := by
    intro i t rep notMem same
    by_contra notSentinel
    exact notMem (same ▸ rep.ptr_mem (same ▸ notSentinel))
  have plain : ∀ i, i ∉ ids ctx → i ≠ subst → linked i = tree.heap i :=
    fun i notCtx differ => (replaced.off i notCtx).trans (off i differ)
  have finalSubst : final subst = h subst :=
    (kept subst (outside loose.inLeft substLeft) (outside loose.inRight substRight)).trans atSubst
  have finalSentinel : final tree.sentinel = tree.heap tree.sentinel :=
    (kept _ (fun _ => rfl) fun _ => rfl).trans
      (plain _ loose.around.sentinel_not_mem (Ne.symm real))
  have apartTrees : ∀ i ∈ l.toList, i ∉ r.toList := fun i member other =>
    leftOther i member i (Or.inl other) rfl
  have inLeft : Rep final tree.sentinel (some subst) l := by
    apply loose.inLeft.reparent nodupLeft
    · intro i member notRoot
      refine (kept i (fun same => absurd same notRoot)
        (outside loose.inRight (apartTrees i member))).trans (plain i ?_ ?_)
      · exact fun inside => leftOther i member i (Or.inr inside) rfl
      · exact fun same => substLeft (same ▸ member)
    · intro notEmpty
      have member := loose.inLeft.ptr_mem notEmpty
      rw [final_eq, adopt_ne (outside loose.inRight (apartTrees _ member)), adopt_self notEmpty,
        plain]
      · exact fun inside => leftOther _ member _ (Or.inr inside) rfl
      · exact fun same => substLeft (same ▸ member)
  have inRight : Rep final tree.sentinel (some subst) r := by
    apply loose.inRight.reparent nodupRight
    · intro i member notRoot
      refine (kept i (outside loose.inLeft fun inside => apartTrees i inside member)
        (fun same => absurd same notRoot)).trans (plain i ?_ ?_)
      · exact fun inside => rightCtx i member i inside rfl
      · exact fun same => substRight (same ▸ member)
    · intro notEmpty
      have member := loose.inRight.ptr_mem notEmpty
      rw [final_eq, adopt_self notEmpty,
        adopt_ne (outside loose.inLeft fun inside => apartTrees _ inside member), plain]
      · exact fun inside => rightCtx _ member _ inside rfl
      · exact fun same => substRight (same ▸ member)
  have here : Rep final tree.sentinel (holder ctx) (.node (tree.heap node).color l subst r) := by
    refine ⟨real, ?_, ?_, ?_, ?_, inLeft, inRight⟩
    · rw [finalSubst, h_eq]
      simp [copied]
    · rw [finalSubst, ← atSubst]
      exact leftPtr
    · rw [finalSubst, ← atSubst]
      exact rightPtr
    · intro p given
      rw [finalSubst, h_eq, ← loose.parent p given]
      simp [copied]
  refine ⟨⟨?_, here, replaced.root, ?_, ?_⟩, rfl, ?_, ?_⟩
  · apply replaced.around.congr
    intro i member
    exact kept i (outside loose.inLeft fun inside => leftOther i inside i (Or.inr member) rfl)
      (outside loose.inRight fun inside => rightCtx i inside i member rfl)
  · refine ((join_perm .left (tree.heap node).color l subst r).append_right (ids ctx)).nodup_iff.mpr ?_
    simp only [List.cons_append, List.append_assoc, List.nodup_cons, List.mem_append, not_or,
      List.nodup_append]
    exact ⟨⟨substLeft, substRight, substCtx⟩, nodupLeft, ⟨nodupRight, nodupCtx, rightCtx⟩,
      leftOther⟩
  · exact (congrArg Node.color finalSentinel).trans loose.black
  · intro i
    rw [final_eq, adopt_key, adopt_key, replaced.keys, h_eq]
    simp [copied]
  · exact congrArg Node.parent finalSentinel

theorem Focus.loose (focus : Focus tree ctx (.node c l node r)) : Loose tree ctx l node r where
  around := focus.around
  real := focus.here.1
  left := focus.here.2.2.1
  right := focus.here.2.2.2.1
  parent := focus.here.2.2.2.2.1
  inLeft := focus.here.2.2.2.2.2.1.forget
  inRight := focus.here.2.2.2.2.2.2.forget
  root := focus.root
  black := focus.black

theorem Loose.noteRight (loose : Loose tree ctx l node r)
    (distinct : (node :: (l.toList ++ (r.toList ++ ids ctx))).Nodup) (v : Nat) :
    Loose { tree with heap := tree.heap.setParent (ptr tree.sentinel r) v } ctx l node r := by
  simp only [List.nodup_cons, List.mem_append, not_or, List.nodup_append] at distinct
  obtain ⟨⟨nodeLeft, nodeRight, nodeCtx⟩, nodupLeft, ⟨nodupRight, nodupCtx, rightCtx⟩,
    leftOther⟩ := distinct
  have member : ptr tree.sentinel r ≠ tree.sentinel → ptr tree.sentinel r ∈ r.toList :=
    loose.inRight.ptr_mem
  have apart : ∀ i, i ≠ tree.sentinel → i ∉ r.toList →
      tree.heap.setParent (ptr tree.sentinel r) v i = tree.heap i := by
    intro i real notMem
    exact setParent_ne _ _ _ _ fun same => notMem (same ▸ member (same ▸ real))
  have atNode := apart node loose.real nodeRight
  refine ⟨?_, loose.real, ?_, ?_, ?_, ?_, ?_, loose.root, ?_⟩
  · apply loose.around.congr
    intro i inside
    exact apart i (fun same => loose.around.sentinel_not_mem (same ▸ inside))
      fun there => rightCtx i there i inside rfl
  · exact (congrArg Node.left atNode).trans loose.left
  · exact (congrArg Node.right atNode).trans loose.right
  · intro p given
    exact (congrArg Node.parent atNode).trans (loose.parent p given)
  · apply loose.inLeft.congr
    intro i inside
    exact apart i (fun same => loose.inLeft.sentinel_not_mem (same ▸ inside))
      fun there => leftOther i inside i (Or.inl there) rfl
  · refine (loose.inRight.reparent (p := v) nodupRight ?_ ?_).forget
    · intro i _ notRoot
      exact setParent_ne _ _ _ _ notRoot
    · intro _
      exact if_pos rfl
  · exact (setParent_color _ _ _ _).trans loose.black

end Substitute

section Delete

variable {tree : RbTree} {ctx : Ctx Nat} {t l r child whole : ColorTree Nat} {s : Side} {c d : Color}
  {node subst : Nat}

/-- `ngx_rbtree_min` goes down the left links. -/
theorem ngxRbtreeMin_spec (fuel : Nat) (focus : Focus tree ctx t) (some_tree : t ≠ .nil)
    (enough : t.toList.length ≤ fuel) :
    ∃ inner d subst r, ngxRbtreeMin tree.heap tree.sentinel fuel (ptr tree.sentinel t) = some subst ∧
      t = plug inner (.node d .nil subst r) ∧ inner.before = [] := by
  induction t generalizing ctx fuel with
  | nil => exact absurd rfl some_tree
  | node c l i r inLeft _ =>
    have below : Focus tree (.frame .left c i r ctx) l := focus_frame.mpr focus
    have next : (tree.heap i).left = ptr tree.sentinel l := below.hole
    simp only [ColorTree.toList, List.length_append, List.length_cons] at enough
    obtain ⟨fuel, rfl⟩ : ∃ m, fuel = m + 1 := ⟨fuel - 1, by omega⟩
    rw [ngxRbtreeMin, ptr, next]
    by_cases empty : l = .nil
    · subst empty
      exact ⟨.top, c, i, r, if_neg (not_not.mpr rfl), rfl, rfl⟩
    · rw [if_pos (ptr_ne below empty)]
      obtain ⟨inner, d, subst, rest, found, rfl, front⟩ :=
        inLeft fuel below empty (by omega)
      refine ⟨inner.append (.frame .left c i r .top), d, subst, rest, found, ?_, ?_⟩
      · rw [plug_append]
        rfl
      · rw [before_append, front]
        rfl

/-- `if (red) return;` and the loop. -/
theorem finish_spec (fuel : Nat) (focus : Focus tree ctx child) (noted : Noted tree ctx child)
    (ifRed : c = .red → ∃ m, Balanced (plug ctx child) .black m)
    (ifBlack : c = .black → DeleteFocus ctx child)
    (enough : 2 * (plug ctx child).toList.length + 1 < fuel) :
    ∃ tree' whole n,
      (if c = .red then some tree else deleteLoop fuel tree (ptr tree.sentinel child)) =
        some tree' ∧
      Focus tree' .top whole ∧ Balanced whole .black n ∧
      whole.toList = (plug ctx child).toList ∧ Kept tree tree' := by
  cases c with
  | red =>
    obtain ⟨m, balanced⟩ := ifRed rfl
    exact ⟨tree, _, m, if_pos rfl, focus_top.mp focus, balanced, rfl, Kept.refl tree⟩
  | black =>
    rw [if_neg (by decide)]
    have spread := Ctx.depth_le ctx child
    have measure : deleteMeasure ctx child ≤ 2 * ctx.depth + 1 := by
      rw [deleteMeasure]
      split <;> omega
    exact deleteLoop_spec fuel focus noted (ifBlack rfl) (by omega)

/-- What the heap is left with when `node` is taken out. -/
structure Removed (tree tree' : RbTree) (node : Nat) (xs : List Nat) : Prop where
  shaped : ∃ whole, Shaped tree' whole ∧ whole.toList = xs
  sentinel : tree'.sentinel = tree.sentinel
  keys : ∀ i, i ≠ node → keyOf tree' i = keyOf tree i

theorem Removed.intro {tree' tree'' : RbTree} {xs : List Nat} {n : Nat}
    (kept : Kept tree' tree'') (sentinel : tree'.sentinel = tree.sentinel)
    (keys : ∀ i, i ≠ node → keyOf tree' i = keyOf tree i) (focus : Focus tree'' .top whole)
    (balanced : Balanced whole .black n) (order : whole.toList = xs) : Removed tree tree'' node xs :=
  ⟨⟨whole, ⟨focus, ⟨n, balanced⟩⟩, order⟩, kept.sentinel.trans sentinel,
    fun i differ => (kept.keys i).trans (keys i differ)⟩

theorem Focus.clear (focus : Focus tree ctx t) (noted : Noted tree ctx t)
    (gone : node ∉ t.toList ++ ids ctx) (real : node ≠ tree.sentinel) :
    let cleared := { tree with heap := clearNode tree.heap node }
    Focus cleared ctx t ∧ Noted cleared ctx t := by
  intro cleared
  have off : ∀ i, i ≠ node → cleared.heap i = tree.heap i := fun i differ => clearNode_ne differ
  have focus' : Focus cleared ctx t := focus.congr
    (fun i member => off i fun same => gone (same ▸ member))
    ((congrArg Node.color (off _ (Ne.symm real))).trans focus.black)
  refine ⟨focus', ?_⟩
  cases t with
  | nil =>
    intro p given
    exact (congrArg Node.parent (off _ (Ne.symm real))).trans (noted p given)
  | node => exact focus'.noted (by simp)

theorem keyOf_clear {i : Nat} (differ : i ≠ node) :
    keyOf { tree with heap := clearNode tree.heap node } i = keyOf tree i :=
  congrArg Node.key (clearNode_ne differ)

theorem toList_splice (ctx : Ctx Nat) (s : Side) (c : Color) (node : Nat) (child : ColorTree Nat) :
    (plug ctx child).toList.Sublist (plug ctx (join s c .nil node child)).toList ∧
      (plug ctx (join s c .nil node child)).toList.Perm (node :: (plug ctx child).toList) := by
  have part : child.toList.Sublist (join s c .nil node child).toList := by
    cases s <;> simp [join, ColorTree.toList]
  constructor
  · rw [toList_plug, toList_plug]
    exact (part.append_right _).append_left _
  · refine (plug_perm ctx _).trans (List.Perm.trans ?_ ((plug_perm ctx _).symm.cons node))
    exact (join_perm s c .nil node child).append_right (ids ctx)

theorem unlink_end (fuel : Nat) (shaped : Shaped tree (plug ctx (join s c .nil node child)))
    (enough : 2 * (plug ctx (join s c .nil node child)).toList.length ≤ fuel) :
    ∃ tree', unlink fuel tree node (ptr tree.sentinel child) node = some tree' ∧
      Removed tree tree' node (plug ctx child).toList := by
  obtain ⟨whole, ⟨n, balanced⟩⟩ := shaped
  obtain ⟨part, perm⟩ := toList_splice ctx s c node child
  have nodup := whole.nodup
  rw [ids, List.append_nil, perm.nodup_iff] at nodup
  have gone : node ∉ (plug ctx child).toList := (List.nodup_cons.mp nodup).1
  have length := perm.length_eq
  rw [List.length_cons] at length
  have focus := focus_top.mpr whole
  obtain ⟨d, onlyBlack, m, inNode, fits, _⟩ := balanced.fits
  obtain ⟨ifRed, ifBlack⟩ := fits.splice inNode
  have real : node ≠ tree.sentinel := ((rep_join s).mp focus.here).1
  have apart : node ∉ child.toList ++ ids ctx :=
    fun member => gone ((plug_perm ctx child).mem_iff.mpr member)
  unfold unlink
  by_cases atRoot : node = tree.root
  · rw [if_pos atRoot]
    have top : ctx = .top := by
      by_contra below
      have notRoot := focus.ne_root below
      rw [ptr_join] at notRoot
      exact notRoot atRoot
    subst top
    have alone : Focus { tree with root := ptr tree.sentinel child } .top child :=
      ⟨trivial, ((rep_join s).mp focus.here).2.2.2.2.2.2.forget, rfl,
        (List.nodup_cons.mp nodup).2.append (by simp [ids]) (by simp [ids]), focus.black⟩
    obtain ⟨painted, kept⟩ := @Focus.paint _ _ _ .black alone (Or.inr rfl)
    obtain ⟨cleared, _⟩ := @Focus.clear _ _ _ node painted (fun p given => by cases given)
      (by simpa using apart) real
    obtain ⟨_, _, _, _, inChild⟩ := inNode.of_join
    obtain ⟨k, balanced', _⟩ := inChild.paint_black
    refine ⟨_, rfl, Removed.intro (Kept.refl _) rfl ?_ cleared balanced'
      (paint_toList _ _)⟩
    intro i differ
    exact (keyOf_clear differ).trans (kept.keys i)
  · simp only [if_neg atRoot, if_true, relink_parent]
    obtain ⟨spliced, noted, keys, _⟩ := focus.splice atRoot
    obtain ⟨cleared, noted'⟩ := spliced.clear noted apart real
    have color : (tree.heap node).color = c := ((rep_join s).mp focus.here).2.1
    obtain ⟨tree', whole', k, run, focus', balanced', order, kept⟩ :=
      finish_spec fuel cleared noted' ifRed ifBlack (by omega)
    refine ⟨tree', ?_, ?_⟩
    · rw [color]
      exact run
    · exact Removed.intro kept rfl
        (fun i differ => (keyOf_clear differ).trans (keys i)) focus' balanced' order

theorem setParent_setParent (h : Heap) (i v w : Nat) :
    (h.setParent i v).setParent i w = h.setParent i w := by
  funext j
  by_cases same : j = i <;> simp [Heap.setParent, same]

/-- The tree in front of `substitute`: `temp` hangs where `subst` was and notes its parent, which
is `subst` when that is about to take the place of it. -/
def detached (tree : RbTree) (node temp subst : Nat) : RbTree :=
  let parent := (tree.heap subst).parent
  { tree with
    heap := (relink tree.heap .left parent subst temp).setParent temp
      (if parent = node then subst else parent) }

theorem unlink_eq (fuel temp : Nat) (below : subst ≠ tree.root) (apart : subst ≠ node) :
    unlink fuel tree node temp subst =
      let tree' := substitute (detached tree node temp subst) node subst
      let cleared := { tree' with heap := clearNode tree'.heap node }
      if (tree.heap subst).color = .red then some cleared else deleteLoop fuel cleared temp := by
  unfold unlink detached
  simp only [if_neg below, if_neg apart, relink_parent]
  by_cases same : (tree.heap subst).parent = node
  · simp only [if_pos same]
  · simp only [if_neg same]

theorem detached_spec {inner : Ctx Nat}
    (focus : Focus tree (inner.append (.frame .right c node l ctx)) (.node d .nil subst r))
    (below : subst ≠ tree.root) :
    let noted := detached tree node (ptr tree.sentinel r) subst
    Loose noted ctx l node (plug inner r) ∧
      (∀ p, holder (inner.append (.frame .right c subst l ctx)) = some p →
        (noted.heap (ptr tree.sentinel r)).parent = p) ∧
      (∀ i, keyOf noted i = keyOf tree i) ∧ (noted.heap node).color = c := by
  intro noted
  set temp := ptr tree.sentinel r with temp_eq
  set h := relink tree.heap .left (tree.heap subst).parent subst temp with h_eq
  have parent := focus.here.2.2.2.2.1
  have opened : Focus tree _ (join .left d .nil subst r) := focus
  obtain ⟨spliced, atTemp, keys, _⟩ := opened.splice below
  have whole := focus_frame.mp (focus_append.mp spliced)
  have colors : (noted.heap node).color = c := by
    have color := whole.here.2.1
    simp only [setParent_color] at color
    simpa only [noted, detached, setParent_color] using color
  have keys' : ∀ i, keyOf noted i = keyOf tree i := by
    intro i
    have key := keys i
    simp only [keyOf, setParent_key] at key
    simpa only [keyOf, noted, detached, setParent_key] using key
  cases inner with
  | top =>
    have here : (tree.heap subst).parent = node := parent node rfl
    have twice : noted = { tree with
        heap := (h.setParent temp (tree.heap subst).parent).setParent temp subst } := by
      simp only [noted, detached]
      rw [if_pos here, setParent_setParent]
    have distinct := @Focus.nodup_join _ _ _ _ .left _ _ whole
    refine ⟨twice ▸ whole.loose.noteRight distinct subst, ?_, keys', colors⟩
    intro p given
    rw [twice]
    have same : subst = p := Option.some.inj given
    simpa using same
  | frame s' c' q sibling up =>
    have here : (tree.heap subst).parent = q := parent q rfl
    have apart : q ≠ node := by
      rintro rfl
      have nodup := (List.nodup_append.mp focus.nodup).2.1
      simp [Ctx.append, ids, ids_append] at nodup
    have once : noted = { tree with heap := h.setParent temp (tree.heap subst).parent } := by
      simp only [noted, detached]
      rw [if_neg (here ▸ apart)]
    refine ⟨once ▸ whole.loose, ?_, keys', colors⟩
    intro p given
    rw [once]
    exact atTemp p given

theorem toList_substitute {inner : Ctx Nat} (front : inner.before = []) :
    (plug ctx (.node c l subst (plug inner r))).toList.Sublist
        (plug ctx (.node c l node (plug inner (.node d .nil subst r)))).toList ∧
      (plug ctx (.node c l node (plug inner (.node d .nil subst r)))).toList.Perm
        (node :: (plug ctx (.node c l subst (plug inner r))).toList) := by
  have order : (plug inner (.node d .nil subst r)).toList = subst :: (plug inner r).toList := by
    rw [toList_plug, toList_plug, front]
    simp [ColorTree.toList]
  rw [toList_plug, toList_plug, ColorTree.toList, ColorTree.toList, order]
  constructor
  · refine (List.Sublist.append_right ?_ _).append_left _
    exact (List.sublist_cons_self _ _).append_left _
  · refine (List.Perm.append_left _ (List.perm_middle.append_right _)).trans ?_
    exact List.perm_middle

/-- A node with two subtrees: the least node of the right one takes its place. -/
theorem unlink_inner (fuel : Nat) {inner : Ctx Nat}
    (shaped : Shaped tree (plug ctx (.node c l node (plug inner (.node d .nil subst r)))))
    (front : inner.before = [])
    (enough : 2 * (plug ctx (.node c l node (plug inner (.node d .nil subst r)))).toList.length ≤
      fuel) :
    ∃ tree', unlink fuel tree node (ptr tree.sentinel r) subst = some tree' ∧
      Removed tree tree' node (plug ctx (.node c l subst (plug inner r))).toList := by
  obtain ⟨whole, ⟨n, balanced⟩⟩ := shaped
  have order : (plug inner (.node d .nil subst r)).toList = subst :: (plug inner r).toList := by
    rw [toList_plug, toList_plug, front]
    simp [ColorTree.toList]
  have atNode : Focus tree ctx (join .left c l node (plug inner (.node d .nil subst r))) :=
    focus_top.mpr whole
  have distinct := atNode.nodup_join
  rw [order] at distinct
  have perm : (node :: (l.toList ++ (subst :: (plug inner r).toList ++ ids ctx))).Perm
      (subst :: node :: (l.toList ++ ((plug inner r).toList ++ ids ctx))) :=
    (List.perm_middle.cons node).trans (List.Perm.swap subst node _)
  rw [perm.nodup_iff] at distinct
  have atSubst : Focus tree (inner.append (.frame .right c node l ctx)) (.node d .nil subst r) :=
    focus_append.mpr (focus_frame.mpr atNode)
  have notTop : inner.append (.frame .right c node l ctx) ≠ .top := by
    cases inner <;> simp [Ctx.append]
  have below : subst ≠ tree.root := atSubst.ne_root notTop
  have apart : subst ≠ node := by
    rintro rfl
    simp at distinct
  obtain ⟨loose, atTemp, keys, color⟩ := detached_spec atSubst below
  obtain ⟨placed, kept⟩ := loose.substituted atSubst.here.1 distinct
  rw [color] at placed
  set tree' := substitute (detached tree node (ptr tree.sentinel r) subst) node subst
  have atRest : Focus tree' (inner.append (.frame .right c subst l ctx)) r :=
    focus_append.mpr (focus_frame.mpr placed)
  have noted : Noted tree' (inner.append (.frame .right c subst l ctx)) r := by
    cases r with
    | nil =>
      intro p given
      exact kept.scratch.trans (atTemp p given)
    | node => exact atRest.noted (by simp)
  have rebuilt : plug (inner.append (.frame .right c subst l ctx)) r =
      plug ctx (.node c l subst (plug inner r)) := by
    rw [plug_append]
    rfl
  have members : (plug ctx (.node c l subst (plug inner r))).toList.Perm
      (subst :: (l.toList ++ ((plug inner r).toList ++ ids ctx))) := by
    refine (plug_perm ctx _).trans (((join_perm .left c l subst _).append_right _).trans ?_)
    rw [List.cons_append, List.append_assoc]
  have gone : node ∉ (plug ctx (.node c l subst (plug inner r))).toList := by
    rw [members.mem_iff]
    simp only [List.nodup_cons, List.mem_cons, not_or] at distinct ⊢
    exact ⟨Ne.symm distinct.1.1, distinct.2.1⟩
  obtain ⟨part, less⟩ := @toList_substitute ctx l r c d node subst inner front
  obtain ⟨cleared, noted'⟩ := atRest.clear noted
    (fun member => gone (rebuilt ▸ (plug_perm _ r).mem_iff.mpr member)) loose.real
  have place : Balanced (plug (inner.append (.frame .right c node l ctx))
      (join .left d .nil subst r)) .black n := by
    rw [plug_append]
    exact balanced
  obtain ⟨_, onlyBlack, m, inSubst, fits, _⟩ := place.fits
  obtain ⟨ifRed, ifBlack⟩ := (fits.relabel subst).splice inSubst
  have shorter := less.length_eq
  rw [List.length_cons] at shorter
  obtain ⟨final, whole', k, run, focus', balanced', order', kept'⟩ :=
    finish_spec fuel cleared noted' ifRed ifBlack (by
      rw [rebuilt]
      omega)
  rw [rebuilt] at order'
  refine ⟨final, ?_, ?_⟩
  · have substColor : (tree.heap subst).color = d := atSubst.here.2.1
    rw [unlink_eq fuel _ below apart, substColor]
    exact run
  · refine Removed.intro kept' kept.sentinel ?_ focus' balanced' order'
    intro i differ
    exact (keyOf_clear differ).trans ((kept.keys i).trans (keys i))

theorem ngxRbtreeDelete_order (fuel : Nat) (shaped : Shaped tree whole)
    (member : node ∈ whole.toList) (enough : 2 * whole.toList.length ≤ fuel) :
    ∃ tree' whole', ngxRbtreeDelete fuel tree node = some tree' ∧ Shaped tree' whole' ∧
      whole'.toList.Sublist whole.toList ∧ whole.toList.Perm (node :: whole'.toList) ∧ tree'.sentinel = tree.sentinel ∧
      ∀ i, i ≠ node → keyOf tree' i = keyOf tree i := by
  obtain ⟨ctx, c, l, r, rfl⟩ := exists_plug member
  have focus : Focus tree ctx (.node c l node r) := focus_top.mpr shaped.focus
  have left : (tree.heap node).left = ptr tree.sentinel l := focus.loose.left
  have right : (tree.heap node).right = ptr tree.sentinel r := focus.loose.right
  have inLeft : Focus tree (.frame .left c node r ctx) l := focus_frame.mpr focus
  have inRight : Focus tree (.frame .right c node l ctx) r := focus_frame.mpr focus
  rw [ngxRbtreeDelete, left, right]
  by_cases noLeft : l = .nil
  · subst noLeft
    obtain ⟨tree', run, ⟨whole', shaped', order⟩, sentinel, keys⟩ :=
      @unlink_end tree ctx r .left c node fuel shaped enough
    refine ⟨tree', whole', ?_, shaped', ?_, ?_, sentinel, keys⟩
    · rw [if_pos (by rfl)]
      exact run
    · rw [order]
      exact (toList_splice ctx .left c node r).1
    · rw [order]
      exact (toList_splice ctx .left c node r).2
  rw [if_neg (ptr_ne inLeft noLeft)]
  by_cases noRight : r = .nil
  · subst noRight
    obtain ⟨tree', run, ⟨whole', shaped', order⟩, sentinel, keys⟩ :=
      @unlink_end tree ctx l .right c node fuel shaped enough
    refine ⟨tree', whole', ?_, shaped', ?_, ?_, sentinel, keys⟩
    · rw [if_pos (by rfl)]
      exact run
    · rw [order]
      exact (toList_splice ctx .right c node l).1
    · rw [order]
      exact (toList_splice ctx .right c node l).2
  rw [if_neg (ptr_ne inRight noRight)]
  have spread := Ctx.depth_le ctx (.node c l node r)
  simp only [ColorTree.toList, List.length_append, List.length_cons] at spread
  obtain ⟨inner, d, subst, rest, found, rfl, front⟩ :=
    ngxRbtreeMin_spec fuel inRight noRight (by omega)
  have atSubst := focus_append.mpr inRight
  obtain ⟨tree', run, ⟨whole', shaped', order⟩, sentinel, keys⟩ :=
    unlink_inner fuel shaped front enough
  refine ⟨tree', whole', ?_, shaped', ?_, ?_, sentinel, keys⟩
  · have substLeft : (tree.heap subst).left = tree.sentinel := atSubst.loose.left
    have substRight : (tree.heap subst).right = ptr tree.sentinel rest := atSubst.loose.right
    rw [found, Option.bind_some, substLeft, substRight, if_neg (not_not.mpr rfl)]
    exact run
  · rw [order]
    exact (toList_substitute front).1
  · rw [order]
    exact (toList_substitute front).2

theorem ngxRbtreeDelete_spec (fuel : Nat) (holds : Holds tree whole) (member : node ∈ whole.toList)
    (enough : 2 * whole.toList.length ≤ fuel) :
    ∃ tree' whole', ngxRbtreeDelete fuel tree node = some tree' ∧ Holds tree' whole' ∧
      whole.toList.Perm (node :: whole'.toList) ∧ tree'.sentinel = tree.sentinel ∧
      ∀ i, i ≠ node → keyOf tree' i = keyOf tree i := by
  obtain ⟨tree', whole', run, shaped, part, perm, sentinel, keys⟩ :=
    ngxRbtreeDelete_order fuel ⟨holds.focus, holds.balanced⟩ member enough
  have nodup := holds.focus.nodup
  rw [ids, List.append_nil, perm.nodup_iff] at nodup
  have gone := (List.nodup_cons.mp nodup).1
  refine ⟨tree', whole', run, ⟨shaped.focus, shaped.balanced, ?_⟩, perm, sentinel, keys⟩
  exact holds.sorted.sublist part fun i inside => keys i fun same => gone (same ▸ inside)

end Delete

end NgxFormal.Core.Rbtree
