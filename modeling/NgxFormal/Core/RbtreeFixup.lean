import NgxFormal.Core.RbtreeInsert

/-! The rebalancing loop of `ngx_rbtree_delete` follows the turns of the abstract tree. The
sentinel stands for an empty focus, so its parent pointer is part of the state. -/

namespace NgxFormal.Core.Rbtree

open Lib.RedBlack

section Turn

variable {tree : RbTree} {ctx up : Ctx Nat} {t sibling near far inner outer : ColorTree Nat} {s : Side}
  {c d : Color} {p w n : Nat}

/-- `temp->parent`, also for an empty focus. -/
def Noted (tree : RbTree) (ctx : Ctx Nat) (t : ColorTree Nat) : Prop :=
  ∀ p, holder ctx = some p → (tree.heap (ptr tree.sentinel t)).parent = p

theorem Focus.noted (focus : Focus tree ctx t) (some_tree : t ≠ .nil) : Noted tree ctx t := by
  intro p given
  cases t with
  | nil => exact absurd rfl some_tree
  | node c l i r => exact focus.here.2.2.2.2.1 p given

theorem Noted.kept {tree' : RbTree} {ctx' : Ctx Nat} (noted : Noted tree ctx t)
    (focus : Focus tree' ctx' t) (same : holder ctx' = holder ctx) (kept : Kept tree tree') :
    Noted tree' ctx' t := by
  cases t with
  | nil =>
    intro p given
    have scratch := kept.scratch
    rw [← kept.sentinel] at scratch
    rw [same] at given
    have before := noted p given
    rw [ptr] at before ⊢
    rw [scratch, kept.sentinel]
    exact before
  | node c l i r => exact focus.noted (by simp)

theorem Focus.child_colors (focus : Focus tree ctx (join s c near w far)) :
    (tree.heap ((tree.heap w).child s)).color = near.color ∧
      (tree.heap ((tree.heap w).child s.other)).color = far.color := by
  have below : Focus tree (.frame s c w far ctx) near := focus_frame.mpr focus
  rw [below.hole, below.beside]
  exact ⟨below.color, below.other.color⟩

theorem siblingTurn_follows (focus : Focus tree (.frame s c p sibling up) t)
    (noted : Noted tree (.frame s c p sibling up) t) :
    Focus (siblingTurn s tree (ptr tree.sentinel t)) (blackSibling (.frame s c p sibling up)) t ∧
      Kept tree (siblingTurn s tree (ptr tree.sentinel t)) := by
  have parent := noted p rfl
  have beside := focus.beside
  unfold siblingTurn
  simp only [parent, beside, focus.other.color]
  rcases color : sibling.color with _ | _
  · rw [if_pos rfl]
    cases sibling with
    | nil => cases color
    | node d l x r =>
      cases color
      obtain ⟨near, far, opened⟩ := exists_join s .red l x r
      rw [opened] at focus ⊢
      obtain ⟨one, keptOne⟩ := focus.other.setColor .black
      have back := one.other
      rw [Side.other_other] at back
      obtain ⟨two, keptTwo⟩ := (focus_frame.mp back).setColor .red
      obtain ⟨three, keptThree⟩ := two.rotated
      rw [blackSibling_red]
      refine ⟨focus_frame.mpr (focus_frame.mpr ?_), ?_⟩
      · simpa [parent] using three
      · simpa [parent] using (keptOne.trans keptTwo).trans keptThree
  · rw [if_neg (by decide), blackSibling_black color]
    exact ⟨focus, Kept.refl tree⟩

theorem nephewTurn_far (focus : Focus tree (.frame s c p (join s .black near w far) up) t)
    (noted : Noted tree (.frame s c p (join s .black near w far) up) t) (red : far.color = .red) :
    nephewTurn s tree (ptr tree.sentinel t) = tree := by
  have beside := focus.beside
  rw [ptr_join] at beside
  unfold nephewTurn
  simp only [noted p rfl, beside, focus.other.child_colors.2, red]
  exact if_neg (by decide)

theorem nephewTurn_near
    (focus : Focus tree (.frame s c p (join s .black (join s .red inner n outer) w far) up) t)
    (noted : Noted tree
      (.frame s c p (join s .black (join s .red inner n outer) w far) up) t)
    (black : far.color = .black) :
    Focus (nephewTurn s tree (ptr tree.sentinel t))
        (.frame s c p (join s .black inner n (join s .red outer w far)) up) t ∧
      Kept tree (nephewTurn s tree (ptr tree.sentinel t)) := by
  have beside := focus.beside
  rw [ptr_join] at beside
  have atNear := focus_frame.mpr focus.other
  have hole := atNear.hole
  rw [ptr_join] at hole
  unfold nephewTurn
  simp only [noted p rfl, beside, focus.other.child_colors.2, black, hole, if_true]
  obtain ⟨one, keptOne⟩ := atNear.setColor .black
  obtain ⟨two, keptTwo⟩ := (focus_frame.mp one).setColor .red
  rw [← join_other s, ← join_other s] at two
  obtain ⟨three, keptThree⟩ := two.rotated
  rw [join_other, join_other] at three
  have back := three.other
  rw [Side.other_other] at back
  exact ⟨back, (keptOne.trans keptTwo).trans keptThree⟩

theorem closingTurn_follows (focus : Focus tree (.frame s c p (join s d near w far) up) t)
    (noted : Noted tree (.frame s c p (join s d near w far) up) t) :
    Focus (closingTurn s tree (ptr tree.sentinel t)) up
        (join s c (join s .black t p near) w (far.paint .black)) ∧
      Kept tree (closingTurn s tree (ptr tree.sentinel t)) := by
  have beside := focus.beside
  rw [ptr_join] at beside
  unfold closingTurn
  simp only [setColor_parent, setColor_child, noted p rfl, beside, focus.frame_color]
  obtain ⟨one, keptOne⟩ := focus.other.setColor c
  obtain ⟨two, keptTwo⟩ := (focus_frame.mp one).setColor .black
  have atFar := focus_frame.mpr two
  rw [← join_other s] at atFar
  have farPtr : (tree.heap w).child s.other = ptr tree.sentinel far :=
    (focus_frame.mpr focus.other).beside
  obtain ⟨three, keptThree⟩ := @Focus.paint _ _ _ .black (focus_frame.mpr atFar) (Or.inr rfl)
  have back := focus_frame.mp (focus_frame.mp three)
  rw [join_other, join_other] at back
  obtain ⟨four, keptFour⟩ := back.rotated
  rw [farPtr]
  exact ⟨four, ((keptOne.trans keptTwo).trans keptThree).trans keptFour⟩

theorem deleteTurn_follows (focus : Focus tree (.frame s c p sibling up) t)
    (noted : Noted tree (.frame s c p sibling up) t)
    (shape : DeleteFocus (.frame s c p sibling up) t) (black : t.color = .black) :
    ∃ tree' ctx' t', deleteTurn s tree (ptr tree.sentinel t) = (tree', ptr tree.sentinel t') ∧
      deleteStep (.frame s c p sibling up) t = some (ctx', t') ∧
      Focus tree' ctx' t' ∧ Noted tree' ctx' t' ∧ Kept tree tree' := by
  obtain ⟨c', w, near, far, up', n, d₁, d₂, _, opened, _, inNear, _⟩ := shape.sibling black
  obtain ⟨first, keptFirst⟩ := siblingTurn_follows focus noted
  rw [opened] at first
  have noted' := noted.kept first rfl keptFirst
  unfold deleteTurn
  set one := siblingTurn s tree (ptr tree.sentinel t)
  simp only [← keptFirst.sentinel]
  have parent : (one.heap (ptr one.sentinel t)).parent = p := noted' p rfl
  have beside := first.beside
  rw [ptr_join] at beside
  obtain ⟨colorNear, colorFar⟩ := first.other.child_colors
  have blacks : ((one.heap (one.heap w).left).color = .black ∧
      (one.heap (one.heap w).right).color = .black) ↔
      near.color = .black ∧ far.color = .black := by
    cases s with
    | left => exact Iff.and (by rw [← colorNear]; rfl) (by rw [← colorFar]; rfl)
    | right =>
      rw [And.comm]
      exact Iff.and (by rw [← colorNear]; rfl) (by rw [← colorFar]; rfl)
  simp only [parent, beside]
  -- a turn that ends at the root
  have ends {near' far' : ColorTree Nat} {w' : Nat} {two : RbTree} (kept : Kept one two)
      (second : Focus two (.frame s c' p (join s .black near' w' far') up') t) :
      let last := closingTurn s two (ptr one.sentinel t)
      let whole := plug up' (join s c' (join s .black t p near') w' (far'.paint .black))
      last.root = ptr one.sentinel whole ∧ Focus last .top whole ∧ Noted last .top whole ∧
        Kept tree last := by
    intro last whole
    obtain ⟨third, keptThird⟩ := closingTurn_follows second (noted'.kept second rfl kept)
    rw [kept.sentinel] at third keptThird
    have top := focus_top.mp third
    have kept' : Kept one last := kept.trans keptThird
    refine ⟨?_, top, fun p given => (by cases given), keptFirst.trans kept'⟩
    rw [← kept'.sentinel]
    exact top.root
  by_cases farRed : far.color = .red
  · rw [if_neg (by rw [blacks, farRed]; simp), nephewTurn_far first noted' farRed,
      deleteStep_far black opened farRed]
    obtain ⟨root, rest⟩ := ends (Kept.refl one) first
    exact ⟨_, _, _, by rw [root], rfl, rest⟩
  · have farBlack : far.color = .black := by
      rcases color : far.color with _ | _
      · exact absurd color farRed
      · rfl
    cases d₁ with
    | red =>
      obtain ⟨inner, a, outer, rfl, _, _⟩ := inNear.join_of_red s
      rw [if_neg (by rw [blacks, join_color]; simp), deleteStep_near black opened farBlack]
      obtain ⟨second, kept⟩ := nephewTurn_near first noted' farBlack
      obtain ⟨root, rest⟩ := ends kept second
      rw [paint_join] at root rest
      exact ⟨_, _, _, by rw [root], rfl, rest⟩
    | black =>
      have nearBlack : near.color = .black := inNear.color
      rw [if_pos (blacks.mpr ⟨nearBlack, farBlack⟩),
        deleteStep_up black opened nearBlack farBlack]
      obtain ⟨painted, kept⟩ := first.other.setColor .red
      have back := painted.other
      rw [Side.other_other] at back
      have above := focus_frame.mp back
      exact ⟨_, _, _, by rw [ptr_join], rfl, above,
        above.noted (by cases s <;> simp [join]), keptFirst.trans kept⟩

end Turn

/-- The loop of `ngx_rbtree_delete` ends with a balanced tree in the same order. -/
theorem deleteLoop_spec (fuel : Nat) {tree : RbTree} {ctx : Ctx Nat} {t : ColorTree Nat}
    (focus : Focus tree ctx t) (noted : Noted tree ctx t) (shape : DeleteFocus ctx t)
    (enough : deleteMeasure ctx t < fuel) :
    ∃ tree' whole n, deleteLoop fuel tree (ptr tree.sentinel t) = some tree' ∧
      Focus tree' .top whole ∧ Balanced whole .black n ∧
      whole.toList = (plug ctx t).toList ∧ Kept tree tree' := by
  induction fuel generalizing tree ctx t with
  | zero => omega
  | succ fuel ih =>
    have ends (ended : deleteStep ctx t = none)
        (stop : ¬(ptr tree.sentinel t ≠ tree.root ∧
          (tree.heap (ptr tree.sentinel t)).color = .black)) :
        ∃ tree' whole n, deleteLoop (fuel + 1) tree (ptr tree.sentinel t) = some tree' ∧
          Focus tree' .top whole ∧ Balanced whole .black n ∧
          whole.toList = (plug ctx t).toList ∧ Kept tree tree' := by
      obtain ⟨n, balanced⟩ := deleteStep_none shape ended
      obtain ⟨painted, kept⟩ := @Focus.paint _ _ _ .black focus (Or.inr rfl)
      refine ⟨_, _, n, ?_, focus_top.mp painted, balanced,
        toList_plug_congr ctx (paint_toList _ _), kept⟩
      rw [deleteLoop, if_neg stop]
    rcases color : t.color with _ | _
    · refine ends (by rw [deleteStep, if_pos color]) fun both => ?_
      rw [focus.color, color] at both
      cases both.2
    · cases ctx with
      | top =>
        refine ends ?_ fun both => both.1 focus.root.symm
        rw [deleteStep, if_neg (by simp [color])]
        rfl
      | frame s c p sibling up =>
        obtain ⟨tree', ctx', t', turn, step, focus', noted', kept⟩ :=
          deleteTurn_follows focus noted shape color
        obtain ⟨shape', order, closer⟩ := deleteStep_spec shape step
        obtain ⟨final, whole, n, run, rest⟩ := ih focus' noted' shape' (by omega)
        rw [kept.sentinel] at run
        refine ⟨final, whole, n, ?_, rest.1, rest.2.1, rest.2.2.1.trans order,
          kept.trans rest.2.2.2⟩
        rw [deleteLoop, if_pos ⟨focus.ne_root (by simp), by rw [focus.color, color]⟩]
        have parent := noted p rfl
        simp only [parent]
        -- an empty focus has a sibling, so that the test tells the sides apart
        have apart : ptr tree.sentinel t ≠ ptr tree.sentinel sibling :=
          Ne.symm (focus.other.ptr_ne_sibling shape.some_sibling)
        cases s with
        | left =>
          have hole : (tree.heap p).left = ptr tree.sentinel t := focus.hole
          rw [if_pos hole.symm, turn]
          exact run
        | right =>
          have beside : (tree.heap p).left = ptr tree.sentinel sibling := focus.beside
          rw [beside, if_neg apart, turn]
          exact run

end NgxFormal.Core.Rbtree
