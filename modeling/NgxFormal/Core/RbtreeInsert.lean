import NgxFormal.Core.RbtreeRep

/-! Recolouring and rotating: what they make of the tree around a focus. -/

namespace NgxFormal.Core.Rbtree

open Lib.RedBlack

/-- What no move touches: the keys, and the parent that a deletion notes in the sentinel. -/
structure Kept (tree tree' : RbTree) : Prop where
  sentinel : tree'.sentinel = tree.sentinel
  keys : ∀ i, (tree'.heap i).key = (tree.heap i).key
  scratch : (tree'.heap tree.sentinel).parent = (tree.heap tree.sentinel).parent

theorem Kept.refl (tree : RbTree) : Kept tree tree := ⟨rfl, fun _ => rfl, rfl⟩

theorem Kept.trans {first second third : RbTree} (before : Kept first second)
    (after : Kept second third) : Kept first third where
  sentinel := after.sentinel.trans before.sentinel
  keys := fun i => (after.keys i).trans (before.keys i)
  scratch := by
    have here := after.scratch
    rw [before.sentinel] at here
    exact here.trans before.scratch

section Moves

variable {tree : RbTree} {ctx up : Ctx Nat} {t near mid far sibling : ColorTree Nat} {s : Side}
  {c d : Color} {a x y : Nat}

theorem Focus.nodup_join (focus : Focus tree ctx (join s c near a far)) :
    (a :: (near.toList ++ (far.toList ++ ids ctx))).Nodup := by
  have perm := (join_perm s c near a far).append_right (ids ctx)
  rw [List.cons_append, List.append_assoc] at perm
  exact perm.nodup_iff.mp focus.nodup

theorem Focus.other (focus : Focus tree (.frame s c a sibling up) t) :
    Focus tree (.frame s.other c a t up) sibling := by
  rw [focus_frame] at focus ⊢
  rwa [join_other]

theorem Focus.setColor (focus : Focus tree ctx (join s c near a far)) (d : Color) :
    Focus { tree with heap := tree.heap.setColor a d } ctx (join s d near a far) ∧
      Kept tree { tree with heap := tree.heap.setColor a d } := by
  have distinct := focus.nodup_join
  obtain ⟨real, color, nearPtr, farPtr, parent, repNear, repFar⟩ := (rep_join s).mp focus.here
  rw [List.nodup_cons, List.mem_append, List.mem_append, not_or, not_or] at distinct
  obtain ⟨⟨notNear, notFar, notCtx⟩, _⟩ := distinct
  have off {i : Nat} (differ : i ≠ a) : tree.heap.setColor a d i = tree.heap i :=
    setColor_ne _ _ _ _ differ
  refine ⟨⟨?_, ?_, ?_, ?_, ?_⟩, ⟨rfl, by simp, by simp⟩⟩
  · have around := focus.around
    rw [ptr_join] at around ⊢
    exact around.congr fun i member => off fun same => notCtx (same ▸ member)
  · rw [rep_join]
    refine ⟨real, by simp, by simpa using nearPtr, by simpa using farPtr, ?_, ?_, ?_⟩
    · intro p given
      simpa using parent p given
    · exact repNear.congr fun i member => off fun same => notNear (same ▸ member)
    · exact repFar.congr fun i member => off fun same => notFar (same ▸ member)
  · have root := focus.root
    rw [ptr_join] at root ⊢
    exact root
  · exact ((join_perm s d near a far).trans
      (join_perm s c near a far).symm).append_right _ |>.nodup_iff.mpr focus.nodup
  · change (tree.heap.setColor a d tree.sentinel).color = .black
    rw [off (Ne.symm real)]
    exact focus.black

theorem rootPtr_mem (ctx : Ctx Nat) {q : Nat} (below : ctx ≠ .top) : rootPtr ctx q ∈ ids ctx := by
  induction ctx generalizing q with
  | top => exact absurd rfl below
  | frame s c a sibling up inUp =>
    cases up with
    | top => simp [rootPtr, ids]
    | frame s' c' a' sibling' up' =>
      have above := @inUp a (by simp)
      simp only [rootPtr, ids, List.mem_cons, List.mem_append] at above ⊢
      tauto

/-- What changing the parent of `q`, or the root, over to `q'` leaves. -/
structure Replaced (h linked : Heap) (sentinel root' : Nat) (ctx : Ctx Nat) (q' : Nat) : Prop where
  around : RepCtx linked sentinel ctx q'
  root : root' = rootPtr ctx q'
  off : ∀ i, i ∉ ids ctx → linked i = h i
  parents : ∀ i, (linked i).parent = (h i).parent
  keys : ∀ i, (linked i).key = (h i).key

theorem RepCtx.replace {h : Heap} {sentinel root q : Nat} (first : Side) (q' : Nat)
    (rep : RepCtx h sentinel ctx q) (isRoot : root = rootPtr ctx q) (nodup : (ids ctx).Nodup)
    (fresh : q ∉ ids ctx) (real : q ≠ sentinel)
    (parent : ∀ p, holder ctx = some p → (h q).parent = p) :
    Replaced h (if q = root then h else relink h first (h q).parent q q') sentinel
      (if q = root then q' else root) ctx q' := by
  cases ctx with
  | top =>
    have atRoot : q = root := isRoot.symm
    rw [if_pos atRoot, if_pos atRoot]
    exact ⟨trivial, rfl, fun _ _ => rfl, fun _ => rfl, fun _ => rfl⟩
  | frame s c a sibling up =>
    have below : q ≠ root := by
      rintro rfl
      rw [isRoot] at fresh
      exact fresh (rootPtr_mem _ (by simp))
    rw [if_neg below, if_neg below, parent a rfl]
    obtain ⟨realA, color, hole, other, parentA, repSibling, repUp⟩ := rep
    have turned : relink h first a q q' = h.setChild s a q' := by
      rw [relink]
      by_cases same : first = s
      · rw [same, if_pos hole.symm]
      · have opposite : first = s.other := by cases first <;> cases s <;> simp_all [Side.other]
        rw [opposite, Side.other_other, other, if_neg]
        intro isSibling
        have member := repSibling.ptr_mem (isSibling ▸ real)
        rw [← isSibling] at member
        exact fresh (by simp [ids, member])
    rw [turned]
    rw [ids, List.nodup_cons, List.mem_append, not_or] at nodup
    have off {i : Nat} (differ : i ≠ a) : h.setChild s a q' i = h i :=
      setChild_ne _ _ _ _ _ differ
    refine ⟨⟨realA, by simpa using color, by simp, by simpa using other, ?_, ?_, ?_⟩, isRoot, ?_,
      by simp, by simp⟩
    · intro p given
      simpa using parentA p given
    · exact repSibling.congr fun i member => off fun same => nodup.1.1 (same ▸ member)
    · exact repUp.congr fun i member => off fun same => nodup.1.2 (same ▸ member)
    · intro i outside
      exact off fun same => outside (by simp [ids, same])

/-- The heap of a rotation in front of the change to the parent of `x`. -/
def lowered (h : Heap) (sentinel : Nat) (s : Side) (x y : Nat) : Heap :=
  let m := (h y).child s
  let h := h.setChild s.other x m
  let h := if m ≠ sentinel then h.setParent m x else h
  h.setParent y (h x).parent

theorem rotate_eq (right : (tree.heap x).child s.other = y) (differ : y ≠ x) :
    rotate s tree x =
      let h := lowered tree.heap tree.sentinel s x y
      let linked := if x = tree.root then h else relink h s (h x).parent x y
      { tree with
        heap := (linked.setChild s y x).setParent x y
        root := if x = tree.root then y else tree.root } := by
  unfold rotate lowered
  simp only [right, setChild_child, if_neg (fun both : y = x ∧ s = s.other => differ both.1)]
  by_cases top : x = tree.root
  · simp [top]
  · simp [top]

section Lowered

variable {h : Heap} {sentinel i : Nat} {s' : Side}

@[simp] theorem lowered_child :
    (lowered h sentinel s x y i).child s' =
      if i = x ∧ s' = s.other then (h y).child s else (h i).child s' := by
  unfold lowered
  simp only [setParent_child]
  split <;> simp

@[simp] theorem lowered_color : (lowered h sentinel s x y i).color = (h i).color := by
  unfold lowered
  simp only [setParent_color]
  split <;> simp

@[simp] theorem lowered_key : (lowered h sentinel s x y i).key = (h i).key := by
  unfold lowered
  simp only [setParent_key]
  split <;> simp

theorem lowered_parent (differ : (h y).child s ≠ x) :
    (lowered h sentinel s x y i).parent =
      if i = y then (h x).parent
      else if i = (h y).child s ∧ (h y).child s ≠ sentinel then x else (h i).parent := by
  unfold lowered
  simp only [setParent_parent]
  by_cases empty : (h y).child s = sentinel
  · simp [empty]
  · simp [empty, Ne.symm differ]

end Lowered

theorem Node.ext_child {first second : Node} (children : ∀ s, first.child s = second.child s)
    (parent : first.parent = second.parent) (color : first.color = second.color)
    (key : first.key = second.key) : first = second := by
  have left := children .left
  have right := children .right
  cases first
  cases second
  simp_all [Node.child]

/-- `ngx_rbtree_left_rotate` and `ngx_rbtree_right_rotate`. -/
theorem Focus.rotated (focus : Focus tree ctx (join s c near x (join s d mid y far))) :
    Focus (rotate s tree x) ctx (join s d (join s c near x mid) y far) ∧
      Kept tree (rotate s tree x) := by
  obtain ⟨realX, colorX, nearX, farX, parentX, repNear, repRight⟩ := (rep_join s).mp focus.here
  obtain ⟨realY, colorY, nearY, farY, _, repMid, repFar⟩ := (rep_join s).mp repRight
  rw [ptr_join] at farX
  have distinct := ((((join_perm s d mid y far).append_right (ids ctx)).append_left
    near.toList).cons x).nodup_iff.mp focus.nodup_join
  simp only [List.cons_append, List.append_assoc, List.nodup_cons, List.mem_append,
    List.mem_cons, not_or, List.nodup_append] at distinct
  obtain ⟨⟨xNear, xy, xMid, xFar, xCtx⟩, nodupNear, ⟨⟨yMid, yFar, yCtx⟩, nodupMid,
    ⟨nodupFar, nodupCtx, farCtx⟩, midOther⟩, nearOther⟩ := distinct
  set h := tree.heap with heap
  set m := ptr tree.sentinel mid with mid_root
  have midMem : m ≠ tree.sentinel → m ∈ mid.toList := repMid.ptr_mem
  have notX : m ≠ x := by
    intro same
    exact xMid (same ▸ midMem (same ▸ realX))
  have notY : m ≠ y := by
    intro same
    exact yMid (same ▸ midMem (same ▸ realY))
  have root := focus.root
  have around := focus.around
  rw [ptr_join] at root around
  have untouched : ∀ i, i ≠ x → i ≠ y → (i = m → i = tree.sentinel) →
      lowered h tree.sentinel s x y i = h i := by
    intro i iX iY iM
    apply Node.ext_child
    · simp [iX]
    · rw [lowered_parent (by rwa [nearY])]
      rw [nearY, if_neg iY, if_neg fun both => both.2 (both.1 ▸ iM both.1)]
    · simp
    · simp
  have offCtx : ∀ i ∈ ids ctx, lowered h tree.sentinel s x y i = h i := by
    intro i member
    refine untouched i (fun same => xCtx (same ▸ member)) (fun same => yCtx (same ▸ member)) ?_
    intro same
    by_contra real
    exact midOther m (midMem (same ▸ real)) m (Or.inr (same ▸ member)) rfl
  have replaced := (around.congr offCtx).replace s y root nodupCtx xCtx realX (by
    intro p given
    rw [lowered_parent (by rwa [nearY]), if_neg xy, nearY, if_neg fun both => notX both.1.symm]
    exact parentX p given)
  rw [rotate_eq farX (Ne.symm xy)]
  simp only [← heap]
  set linked := if x = tree.root then lowered h tree.sentinel s x y
    else relink (lowered h tree.sentinel s x y) s (lowered h tree.sentinel s x y x).parent x y
  set final := (linked.setChild s y x).setParent x y with final_eq
  -- the heap behind the rotation, off the tree around it
  have keeps : ∀ i, i ≠ x → i ≠ y → final i = linked i := by
    intro i iX iY
    rw [final_eq, setParent_ne _ _ _ _ iX, setChild_ne _ _ _ _ _ iY]
  have kept : ∀ i, i ∉ ids ctx → i ≠ x → i ≠ y → (i = m → i = tree.sentinel) → final i = h i := by
    intro i outside iX iY iM
    rw [keeps i iX iY, replaced.off i outside, untouched i iX iY iM]
  have atSentinel := kept tree.sentinel focus.around.sentinel_not_mem (Ne.symm realX)
    (Ne.symm realY) fun _ => rfl
  have atX := replaced.off x xCtx
  have atY := replaced.off y yCtx
  refine ⟨⟨?_, ?_, ?_, ?_, ?_⟩, ⟨rfl, ?_, ?_⟩⟩
  · rw [ptr_join]
    apply replaced.around.congr
    intro i member
    exact keeps i (fun same => xCtx (same ▸ member)) fun same => yCtx (same ▸ member)
  · rw [rep_join, rep_join]
    refine ⟨realY, ?_, ?_, ?_, ?_, ⟨realX, ?_, ?_, ?_, ?_, ?_, ?_⟩, ?_⟩
    · simp [final_eq, atY, colorY]
    · simp [final_eq]
    · simp [final_eq, atY, Ne.symm xy, farY]
    · intro p given
      simp only [final_eq, setParent_parent, if_neg (Ne.symm xy), setChild_parent, atY]
      rw [lowered_parent (by rwa [nearY]), if_pos rfl]
      exact parentX p given
    · simp [final_eq, atX, colorX]
    · simp [final_eq, atX, xy, Ne.symm (Side.other_ne s), nearX]
    · simp [final_eq, atX, xy, nearY, mid_root]
    · intro p given
      simpa [final_eq] using given
    · apply repNear.congr
      intro i member
      refine kept i (fun inside => nearOther i member i (by simp [inside]) rfl)
        (fun same => xNear (same ▸ member)) (fun same => nearOther i member y (by simp) same) ?_
      intro same
      by_contra real
      exact nearOther i member m (by simp [midMem (same ▸ real)]) same
    · apply repMid.reparent nodupMid
      · intro i member notRoot
        exact kept i (fun inside => midOther i member i (by simp [inside]) rfl)
          (fun same => xMid (same ▸ member)) (fun same => yMid (same ▸ member))
          fun same => absurd same notRoot
      · intro real
        have midCtx : m ∉ ids ctx := fun inside => midOther m (midMem real) m (Or.inr inside) rfl
        change final m = _
        rw [keeps m notX notY, replaced.off m midCtx]
        apply Node.ext_child
        · intro s'
          rw [lowered_child, if_neg fun both => notX both.1]
          cases s' <;> rfl
        · rw [lowered_parent (by rwa [nearY]), if_neg notY, nearY, if_pos ⟨rfl, real⟩]
        · exact lowered_color
        · exact lowered_key
    · apply repFar.congr
      intro i member
      refine kept i (fun inside => farCtx i member i inside rfl) (fun same => xFar (same ▸ member))
        (fun same => yFar (same ▸ member)) ?_
      intro same
      by_contra real
      exact midOther m (midMem (same ▸ real)) i (Or.inl member) same.symm
  · rw [ptr_join]
    exact replaced.root
  · rw [← toList_rotate s c d d c near x mid y far]
    exact focus.nodup
  · exact (congrArg Node.color atSentinel).trans focus.black
  · intro i
    simp [final_eq, replaced.keys, heap]
  · exact congrArg Node.parent atSentinel

end Moves

end NgxFormal.Core.Rbtree

/-! The rebalancing loop of `ngx_rbtree_insert` follows the turns of the abstract tree. -/

namespace NgxFormal.Core.Rbtree

open Lib.RedBlack

section Reading

variable {tree : RbTree} {ctx up : Ctx Nat} {t sibling : ColorTree Nat} {s : Side} {c d : Color}
  {a : Nat}

theorem Focus.color (focus : Focus tree ctx t) :
    (tree.heap (ptr tree.sentinel t)).color = t.color := by
  cases t with
  | nil => exact focus.black
  | node c l i r => exact focus.here.2.1

theorem ptr_ne {tree : RbTree} (focus : Focus tree ctx t) (some_tree : t ≠ .nil) :
    ptr tree.sentinel t ≠ tree.sentinel := by
  cases t with
  | nil => exact absurd rfl some_tree
  | node c l i r => exact focus.here.1

theorem Focus.frame_color (focus : Focus tree (.frame s c a sibling up) t) :
    (tree.heap a).color = c := focus.around.2.1

theorem Focus.hole (focus : Focus tree (.frame s c a sibling up) t) :
    (tree.heap a).child s = ptr tree.sentinel t := focus.around.2.2.1

theorem Focus.beside (focus : Focus tree (.frame s c a sibling up) t) :
    (tree.heap a).child s.other = ptr tree.sentinel sibling := focus.around.2.2.2.1

theorem Focus.parent (focus : Focus tree (.frame s c a sibling up) t) (some_tree : t ≠ .nil) :
    (tree.heap (ptr tree.sentinel t)).parent = a := by
  cases t with
  | nil => exact absurd rfl some_tree
  | node c l i r => exact focus.here.2.2.2.2.1 a rfl

theorem Focus.frame_parent (focus : Focus tree (.frame s c a sibling up) t) {p : Nat}
    (given : holder up = some p) : (tree.heap a).parent = p :=
  focus.around.2.2.2.2.1 p given

theorem Focus.ptr_mem (focus : Focus tree ctx t) (some_tree : t ≠ .nil) :
    ptr tree.sentinel t ∈ t.toList := focus.here.ptr_mem (ptr_ne focus some_tree)

theorem Focus.ptr_not_mem (focus : Focus tree ctx t) : ptr tree.sentinel t ∉ ids ctx := by
  intro inside
  by_cases empty : t = .nil
  · subst empty
    exact focus.around.sentinel_not_mem inside
  · have nodup := focus.nodup
    rw [List.nodup_append] at nodup
    exact nodup.2.2 _ (focus.ptr_mem empty) _ inside rfl

theorem Focus.ptr_ne_sibling (focus : Focus tree (.frame s c a sibling up) t)
    (some_tree : t ≠ .nil) : ptr tree.sentinel t ≠ ptr tree.sentinel sibling := by
  intro same
  have real := ptr_ne focus some_tree
  rw [same] at real
  have member := focus.around.2.2.2.2.2.1.ptr_mem real
  rw [← same] at member
  exact focus.ptr_not_mem (by simp [ids, member])

theorem Focus.is_left (focus : Focus tree (.frame s c a sibling up) t) (some_tree : t ≠ .nil) :
    ptr tree.sentinel t = (tree.heap a).left ↔ s = .left := by
  cases s with
  | left =>
    have hole : (tree.heap a).left = _ := focus.hole
    simp [hole]
  | right =>
    have other : (tree.heap a).left = _ := focus.beside
    simp [other, focus.ptr_ne_sibling some_tree]

theorem Focus.ne_root (focus : Focus tree ctx t) (below : ctx ≠ .top) :
    ptr tree.sentinel t ≠ tree.root := by
  rw [focus.root]
  intro same
  have member := @rootPtr_mem ctx (ptr tree.sentinel t) below
  rw [← same] at member
  exact focus.ptr_not_mem member

theorem Focus.paint (focus : Focus tree ctx t) (allowed : t ≠ .nil ∨ d = .black) :
    Focus { tree with heap := tree.heap.setColor (ptr tree.sentinel t) d } ctx (t.paint d) ∧
      Kept tree { tree with heap := tree.heap.setColor (ptr tree.sentinel t) d } := by
  cases t with
  | node c l i r => exact @Focus.setColor tree ctx l r .left c i focus d
  | nil =>
    have black : d = .black := by simpa using allowed
    have same : tree.heap.setColor tree.sentinel d = tree.heap := by
      funext i
      rw [Heap.setColor]
      split
      · rename_i isSentinel
        rw [isSentinel, black, ← focus.black]
      · rfl
    simp only [ptr, same]
    exact ⟨focus, Kept.refl tree⟩

end Reading

section Insert

variable {tree : RbTree} {up : Ctx Nat} {t sibling uncle near far : ColorTree Nat} {s g : Side}
  {c d : Color} {a p x : Nat}

theorem Focus.outer (focus : Focus tree (.frame g c p sibling (.frame g d a uncle up)) t) :
    let painted := { tree with heap := (tree.heap.setColor p .black).setColor a .red }
    Focus (rotate g.other painted a) (.frame g .black p (join g .red sibling a uncle) up) t ∧
      Kept tree (rotate g.other painted a) := by
  obtain ⟨below, keptBelow⟩ := (focus_frame.mp focus).setColor .black
  obtain ⟨above, keptAbove⟩ := (focus_frame.mp below).setColor .red
  rw [← join_other g, ← join_other g] at above
  obtain ⟨turned, keptTurned⟩ := above.rotated
  refine ⟨?_, (keptBelow.trans keptAbove).trans keptTurned⟩
  rw [focus_frame, ← join_other g, ← join_other g]
  exact turned

theorem insertTurn_follows
    (focus : Focus tree (.frame s .red p sibling (.frame g .black a uncle up)) t)
    (red : t.color = .red) :
    ∃ tree' ctx' t', insertTurn g tree (ptr tree.sentinel t) = (tree', ptr tree.sentinel t') ∧
      insertStep (.frame s .red p sibling (.frame g .black a uncle up)) t = some (ctx', t') ∧
      Focus tree' ctx' t' ∧ Kept tree tree' := by
  have some_tree : t ≠ .nil := by
    rintro rfl
    cases red
  have parent := focus.parent some_tree
  have grand := focus.frame_parent (p := a) rfl
  have above := focus_frame.mp focus
  have temp := above.beside
  unfold insertTurn
  simp only [parent, grand, temp, above.other.color]
  rcases color : uncle.color with _ | _
  · rw [if_pos rfl, insertStep_uncle t color]
    refine ⟨_, _, _, by rw [ptr_join], rfl, ?_⟩
    obtain ⟨one, keptOne⟩ := above.setColor .black
    have uncle_tree : uncle ≠ .nil := by
      rintro rfl
      cases color
    obtain ⟨two, keptTwo⟩ := @Focus.paint _ _ _ .black one.other (Or.inl uncle_tree)
    obtain ⟨three, keptThree⟩ := (focus_frame.mp two.other).setColor .red
    rw [Side.other_other] at three
    exact ⟨three, (keptOne.trans keptTwo).trans keptThree⟩
  · rw [if_neg (by decide)]
    by_cases same : s = g
    · subst same
      rw [insertStep_outer t color]
      have outside : ptr tree.sentinel t ≠ (tree.heap p).child s.other := by
        rw [focus.beside]
        exact focus.ptr_ne_sibling some_tree
      rw [if_neg outside]
      simp only [parent, grand]
      exact ⟨_, _, t, rfl, rfl, focus.outer⟩
    · have inner : s = g.other := by cases s <;> cases g <;> simp_all [Side.other]
      subst inner
      cases t with
      | nil => exact absurd rfl some_tree
      | node d l x r =>
        obtain ⟨near, far, opened⟩ := exists_join g d l x r
        rw [opened] at focus above red parent ⊢
        rw [join_color] at red
        rw [ptr_join] at parent ⊢
        have hole := focus.hole
        rw [ptr_join] at hole
        rw [insertStep_inner color, if_pos hole.symm]
        rw [join_other] at above
        obtain ⟨turned, keptTurned⟩ := above.rotated
        have below := focus_frame.mpr turned
        have parent' := below.parent (by cases g <;> simp [join])
        rw [ptr_join] at parent'
        have grand' := below.frame_parent (p := a) rfl
        simp only [parent', grand']
        obtain ⟨done, keptDone⟩ := below.outer
        exact ⟨_, _, _, by rw [ptr_join], rfl, done, keptTurned.trans keptDone⟩

/-- The loop of `ngx_rbtree_insert` ends with a balanced tree in the same order. -/
theorem insertLoop_spec (fuel : Nat) {tree : RbTree} {ctx : Ctx Nat} {t : ColorTree Nat}
    (focus : Focus tree ctx t) (shape : InsertFocus ctx t) (enough : ctx.depth < fuel) :
    ∃ tree' whole n, insertLoop fuel tree (ptr tree.sentinel t) = some tree' ∧
      Focus tree' .top whole ∧ Balanced whole .black n ∧
      whole.toList = (plug ctx t).toList ∧ Kept tree tree' := by
  induction fuel generalizing tree ctx t with
  | zero => omega
  | succ fuel ih =>
    have red : t.color = .red := by
      obtain ⟨n, onlyBlack, balanced, _⟩ := shape
      exact balanced.color
    have some_tree : t ≠ .nil := by
      rintro rfl
      cases red
    -- the loop ends here
    have ends (ended : insertStep ctx t = none)
        (stop : ¬(ptr tree.sentinel t ≠ tree.root ∧
          (tree.heap (tree.heap (ptr tree.sentinel t)).parent).color = .red)) :
        ∃ tree' whole n, insertLoop (fuel + 1) tree (ptr tree.sentinel t) = some tree' ∧
          Focus tree' .top whole ∧ Balanced whole .black n ∧
          whole.toList = (plug ctx t).toList ∧ Kept tree tree' := by
      obtain ⟨n, balanced⟩ := insertStep_none shape ended
      have top := focus_top.mp focus
      obtain ⟨painted, kept⟩ := @Focus.paint _ _ _ .black top (Or.inr rfl)
      have root : tree.root = ptr tree.sentinel (plug ctx t) := top.root
      refine ⟨_, _, n, ?_, painted, balanced, paint_toList _ _, kept⟩
      rw [insertLoop, if_neg stop, root]
    match ctx with
    | .top => exact ends rfl fun both => both.1 focus.root.symm
    | .frame s .black p sibling up =>
      refine ends rfl fun both => ?_
      rw [focus.parent some_tree, focus.frame_color] at both
      cases both.2
    | .frame s .red p sibling up =>
      obtain ⟨g, a, uncle, rest, rfl⟩ := shape.grandparent
      have above := focus_frame.mp focus
      have parent := focus.parent some_tree
      have grand := focus.frame_parent (p := a) rfl
      obtain ⟨tree', ctx', t', turn, step, focus', kept⟩ := insertTurn_follows focus red
      obtain ⟨shape', order, closer⟩ := insertStep_spec shape step
      obtain ⟨final, whole, n, run, rest⟩ := ih focus' shape' (by omega)
      rw [kept.sentinel] at run
      refine ⟨final, whole, n, ?_, rest.1, rest.2.1, rest.2.2.1.trans order,
        kept.trans rest.2.2.2⟩
      rw [insertLoop, if_pos ⟨focus.ne_root (by simp), by rw [parent, focus.frame_color]⟩]
      have side : (p = (tree.heap a).left) ↔ g = .left := by
        have := above.is_left (by cases s <;> simp [join])
        rwa [ptr_join] at this
      simp only [parent, grand]
      cases g with
      | left =>
        rw [if_pos (side.mpr rfl), turn]
        exact run
      | right =>
        have notLeft : p ≠ (tree.heap a).left := fun same => by cases side.mp same
        rw [if_neg notLeft, turn]
        exact run

end Insert

section Place

variable {tree : RbTree} {ctx : Ctx Nat} {t whole : ColorTree Nat}

def keyOf (tree : RbTree) (i : Nat) : Nat := (tree.heap i).key

/-- The descent of `ngx_rbtree_insert_value` ends at an empty place between the nodes, in every order
that the comparison respects. -/
theorem findPlace_spec {κ : Type} [LinearOrder κ] {ord : Nat → κ} {less : Nat → Nat → Bool}
    (key : Nat) (k : κ) (fuel : Nat) (focus : Focus tree ctx t) (some_tree : t ≠ .nil)
    (agrees : ∀ i ∈ t.toList, less key (keyOf tree i) = decide (k < ord i))
    (sorted : Sorted ord t.toList) (between : Between ord k ctx)
    (enough : t.toList.length ≤ fuel) :
    ∃ s c a sibling up,
      findPlace less tree.heap tree.sentinel key fuel (ptr tree.sentinel t) = some (a, s) ∧
      plug ctx t = plug (.frame s c a sibling up) .nil ∧
      Focus tree (.frame s c a sibling up) .nil ∧
      Between ord k (.frame s c a sibling up) := by
  induction t generalizing ctx fuel with
  | nil => exact absurd rfl some_tree
  | node c l i r inLeft inRight =>
    obtain ⟨sortedLeft, rest, _⟩ := List.pairwise_append.mp sorted
    have sortedRight := (List.pairwise_cons.mp rest).2
    have opened : ptr tree.sentinel (.node c l i r) = i := rfl
    have here : less key (tree.heap i).key = decide (k < ord i) :=
      agrees i (by simp [ColorTree.toList])
    simp only [ColorTree.toList, List.length_append, List.length_cons] at enough
    obtain ⟨fuel, rfl⟩ : ∃ m, fuel = m + 1 := ⟨fuel - 1, by omega⟩
    rw [findPlace, opened]
    by_cases smaller : k < ord i
    · have below : Focus tree (.frame .left c i r ctx) l := focus_frame.mpr focus
      have fits := between.left sorted smaller
      have next : (tree.heap i).child .left = ptr tree.sentinel l := below.hole
      simp only [here, decide_eq_true_eq, if_pos smaller, next]
      by_cases empty : l = .nil
      · subst empty
        exact ⟨.left, c, i, r, ctx, if_pos rfl, rfl, below, fits⟩
      · rw [if_neg (ptr_ne below empty)]
        exact inLeft fuel below empty (fun j member => agrees j (by simp [ColorTree.toList, member]))
          sortedLeft fits (by omega)
    · have below : Focus tree (.frame .right c i l ctx) r := focus_frame.mpr focus
      have fits := between.right sorted smaller
      have next : (tree.heap i).child .right = ptr tree.sentinel r := below.hole
      simp only [here, decide_eq_true_eq, if_neg smaller, next]
      by_cases empty : r = .nil
      · subst empty
        exact ⟨.right, c, i, l, ctx, if_pos rfl, rfl, below, fits⟩
      · rw [if_neg (ptr_ne below empty)]
        exact inRight fuel below empty (fun j member => agrees j (by simp [ColorTree.toList, member]))
          sortedRight fits (by omega)

variable {s : Side} {c : Color} {a node : Nat} {sibling : ColorTree Nat} {up : Ctx Nat}

/-- A new node with empty subtrees and the parent `parent`. -/
def leaf (h : Heap) (sentinel node parent : Nat) (color : Color) : Heap :=
  (((h.setParent node parent).setChild .left node sentinel).setChild .right node sentinel).setColor
    node color

theorem leaf_ne {h : Heap} {sentinel parent i : Nat} {color : Color} (differ : i ≠ node) :
    leaf h sentinel node parent color i = h i := by
  rw [leaf, setColor_ne _ _ _ _ differ, setChild_ne _ _ _ _ _ differ,
    setChild_ne _ _ _ _ _ differ, setParent_ne _ _ _ _ differ]

theorem rep_leaf {h : Heap} {sentinel parent : Nat} {color : Color} (real : node ≠ sentinel) :
    Rep (leaf h sentinel node parent color) sentinel (some parent)
      (.node color .nil node .nil) := by
  refine ⟨real, by simp [leaf], by simp [leaf, ptr], by simp [leaf, ptr], ?_, trivial, trivial⟩
  intro p given
  simpa [leaf] using given

theorem Focus.link (focus : Focus tree (.frame s c a sibling up) .nil) (real : node ≠ tree.sentinel)
    (fresh : node ∉ ids (.frame s c a sibling up)) :
    let linked := { tree with
      heap := leaf (tree.heap.setChild s a node) tree.sentinel node a .red }
    Focus linked (.frame s c a sibling up) (.node .red .nil node .nil) ∧ Kept tree linked := by
  intro linked
  obtain ⟨realA, color, hole, other, parent, repSibling, repUp⟩ := focus.around
  have nodup : (ids (.frame s c a sibling up)).Nodup := focus.nodup
  have apart : a ≠ node := fun same => fresh (by simp [ids, same])
  have atA : linked.heap a = tree.heap.setChild s a node a := leaf_ne apart
  have off : ∀ i ∈ sibling.toList ++ ids up, linked.heap i = tree.heap i := by
    intro i member
    have differ : i ≠ node := fun same => fresh (by simp only [ids, same ▸ member, List.mem_cons_of_mem])
    have notA : i ≠ a := fun same => (List.nodup_cons.mp nodup).1 (same ▸ member)
    exact (leaf_ne differ).trans (setChild_ne _ _ _ _ _ notA)
  have atSentinel : linked.heap tree.sentinel = tree.heap tree.sentinel :=
    (leaf_ne (Ne.symm real)).trans (setChild_ne _ _ _ _ _ (Ne.symm realA))
  refine ⟨⟨⟨realA, ?_, ?_, ?_, ?_, ?_, ?_⟩, rep_leaf real, focus.root, ?_, ?_⟩, rfl, ?_, ?_⟩
  · rw [atA]
    simpa using color
  · rw [atA]
    simp [ptr]
  · rw [atA]
    simpa using other
  · intro p given
    rw [atA]
    simpa using parent p given
  · exact repSibling.congr fun i member => off i (List.mem_append_left _ member)
  · exact repUp.congr fun i member => off i (List.mem_append_right _ member)
  · exact List.nodup_cons.mpr ⟨fresh, nodup⟩
  · exact (congrArg Node.color atSentinel).trans focus.black
  · intro i
    simp [linked, leaf]
  · rw [atSentinel]

/-- A heap that holds a red-black tree in the order of the keys. -/
structure Holds (tree : RbTree) (whole : ColorTree Nat) : Prop where
  focus : Focus tree .top whole
  balanced : ∃ n, Balanced whole .black n
  sorted : Sorted (keyOf tree) whole.toList

structure Shaped (tree : RbTree) (whole : ColorTree Nat) : Prop where
  focus : Focus tree .top whole
  balanced : ∃ n, Balanced whole .black n

theorem ngxRbtreeInsert_order {κ : Type} [LinearOrder κ] {ord : Nat → κ} {less : Nat → Nat → Bool}
    (fuel : Nat) (shaped : Shaped tree whole) (sorted : Sorted ord whole.toList)
    (agrees : ∀ i ∈ whole.toList, less (keyOf tree node) (keyOf tree i) = decide (ord node < ord i))
    (real : node ≠ tree.sentinel) (fresh : node ∉ whole.toList)
    (enough : whole.toList.length < fuel) :
    ∃ tree' whole', ngxRbtreeInsert less fuel tree node = some tree' ∧ Shaped tree' whole' ∧
      Sorted ord whole'.toList ∧ whole'.toList.Perm (node :: whole.toList) ∧ Kept tree tree' := by
  obtain ⟨focus, ⟨n, balanced⟩⟩ := shaped
  have root : tree.root = ptr tree.sentinel whole := focus.root
  rw [ngxRbtreeInsert]
  by_cases empty : whole = .nil
  · subst empty
    have atRoot : tree.root = tree.sentinel := root
    rw [if_pos atRoot]
    refine ⟨_, .node .black .nil node .nil, rfl, ⟨⟨trivial, ?_, rfl, ?_, ?_⟩, ?_⟩, ?_, ?_, ?_⟩
    · exact (@rep_leaf node _ tree.sentinel null .black real).forget
    · simp [ColorTree.toList, ids]
    · exact (congrArg Node.color (leaf_ne (Ne.symm real))).trans focus.black
    · exact ⟨1, .black .nil .nil⟩
    · exact List.pairwise_singleton _ _
    · exact List.Perm.refl _
    · refine ⟨rfl, by simp, ?_⟩
      exact congrArg Node.parent (leaf_ne (Ne.symm real))
  · rw [if_neg (root ▸ ptr_ne focus empty), insertValue]
    obtain ⟨s, c, a, sibling, up, found, rebuilt, below, between⟩ :=
      findPlace_spec (keyOf tree node) (ord node) fuel focus empty agrees sorted
        ⟨by simp [Ctx.before], by simp [Ctx.after]⟩ (Nat.le_of_lt enough)
    rw [plug] at rebuilt
    rw [rebuilt] at balanced sorted fresh enough ⊢
    have spread := Ctx.depth_le (.frame s c a sibling up) (.nil : ColorTree Nat)
    have apart : node ∉ ids (.frame s c a sibling up) :=
      fun member => fresh ((plug_perm _ .nil).mem_iff.mpr member)
    obtain ⟨linked, kept⟩ := below.link real apart
    obtain ⟨color, onlyBlack, m, inNil, fits, _⟩ := balanced.fits
    cases inNil
    have shape : InsertFocus (.frame s c a sibling up) (.node .red .nil node .nil) :=
      ⟨0, onlyBlack, .red .nil .nil, fits⟩
    obtain ⟨tree', whole', k, run, focus', balanced', order, kept'⟩ :=
      insertLoop_spec fuel linked shape (by omega)
    refine ⟨tree', whole', ?_, ⟨focus', ⟨k, balanced'⟩⟩, ?_, ?_, kept.trans kept'⟩
    · have place : findPlace less tree.heap tree.sentinel (tree.heap node).key fuel
          tree.root = some (a, s) := by
        rw [root]
        exact found
      rw [place]
      exact run
    · rw [order]
      exact @Between.sorted _ _ _ _ _ .red _ between sorted .left
    · rw [order, toList_plug, toList_plug]
      exact List.perm_middle

theorem ngxRbtreeInsert_spec (fuel : Nat) (holds : Holds tree whole) (real : node ≠ tree.sentinel)
    (fresh : node ∉ whole.toList) (enough : whole.toList.length < fuel) :
    ∃ tree' whole', ngxRbtreeInsert keyLess fuel tree node = some tree' ∧ Holds tree' whole' ∧
      whole'.toList.Perm (node :: whole.toList) ∧ Kept tree tree' := by
  have agrees : ∀ i ∈ whole.toList, keyLess (keyOf tree node) (keyOf tree i) =
      decide (keyOf tree node < keyOf tree i) := fun _ _ => rfl
  obtain ⟨tree', whole', run, shaped, sorted, perm, kept⟩ :=
    ngxRbtreeInsert_order fuel ⟨holds.focus, holds.balanced⟩ holds.sorted agrees real fresh enough
  have same : keyOf tree' = keyOf tree := funext kept.keys
  exact ⟨tree', whole', run, ⟨shaped.focus, shaped.balanced, same ▸ sorted⟩, perm, kept⟩

end Place

end NgxFormal.Core.Rbtree
