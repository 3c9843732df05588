import Mathlib.Algebra.Order.Ring.Int
import Mathlib.Data.List.Basic

/-! Red-black trees with a focus: the tree around a position, the colour and height rules, and
the rebalancing steps of insertion and deletion as moves of the focus. -/

namespace NgxFormal.Lib.RedBlack

inductive Color where
  | red
  | black
  deriving DecidableEq, Repr

inductive Side where
  | left
  | right
  deriving DecidableEq, Repr

def Side.other : Side → Side
  | .left => .right
  | .right => .left

@[simp] theorem Side.other_other (s : Side) : s.other.other = s := by cases s <;> rfl

@[simp] theorem Side.other_ne (s : Side) : s.other ≠ s := by cases s <;> decide

inductive ColorTree (α : Type) where
  | nil
  | node (color : Color) (left : ColorTree α) (a : α) (right : ColorTree α)
  deriving DecidableEq, Repr

/-- The tree around a hole; `side` is the side of its parent that the hole is on. -/
inductive Ctx (α : Type) where
  | top
  | frame (side : Side) (color : Color) (a : α) (sibling : ColorTree α) (up : Ctx α)
  deriving DecidableEq, Repr

variable {α : Type}

/-- A node given by its subtree on a side and the one on the other side. -/
def join (s : Side) (color : Color) (near : ColorTree α) (a : α) (far : ColorTree α) : ColorTree α :=
  match s with
  | .left => .node color near a far
  | .right => .node color far a near

def ColorTree.toList : ColorTree α → List α
  | .nil => []
  | .node _ l a r => l.toList ++ a :: r.toList

def ColorTree.color : ColorTree α → Color
  | .nil => .black
  | .node c _ _ _ => c

def ColorTree.paint (color : Color) : ColorTree α → ColorTree α
  | .nil => .nil
  | .node _ l a r => .node color l a r

def plug : Ctx α → ColorTree α → ColorTree α
  | .top, t => t
  | .frame s c a sibling up, t => plug up (join s c t a sibling)

def Ctx.depth : Ctx α → Nat
  | .top => 0
  | .frame _ _ _ _ up => up.depth + 1

/-- The elements in front of the hole, and behind it. -/
def Ctx.before : Ctx α → List α
  | .top => []
  | .frame .left _ _ _ up => up.before
  | .frame .right _ a sibling up => up.before ++ (sibling.toList ++ [a])

def Ctx.after : Ctx α → List α
  | .top => []
  | .frame .left _ a sibling up => a :: sibling.toList ++ up.after
  | .frame .right _ _ _ up => up.after

theorem join_other (s : Side) (c : Color) (near : ColorTree α) (a : α) (far : ColorTree α) :
    join s.other c near a far = join s c far a near := by
  cases s <;> rfl

/-- Every node has a subtree on a side and one on the other. -/
theorem exists_join (s : Side) (c : Color) (l : ColorTree α) (a : α) (r : ColorTree α) :
    ∃ near far, ColorTree.node c l a r = join s c near a far := by
  cases s with
  | left => exact ⟨l, r, rfl⟩
  | right => exact ⟨r, l, rfl⟩

@[simp] theorem join_color (s : Side) (c : Color) (near : ColorTree α) (a : α) (far : ColorTree α) :
    (join s c near a far).color = c := by
  cases s <;> rfl

@[simp] theorem paint_join (s : Side) (c d : Color) (near : ColorTree α) (a : α) (far : ColorTree α) :
    (join s c near a far).paint d = join s d near a far := by
  cases s <;> rfl

@[simp] theorem paint_toList (c : Color) (t : ColorTree α) : (t.paint c).toList = t.toList := by
  cases t <;> rfl

theorem toList_join (s : Side) (c d : Color) (near : ColorTree α) (a : α) (far : ColorTree α) :
    (join s c near a far).toList = (join s d near a far).toList := by
  cases s <;> rfl

theorem toList_join_congr (s : Side) (c d : Color) {near near' : ColorTree α} (a : α)
    {far far' : ColorTree α} (sameNear : near.toList = near'.toList)
    (sameFar : far.toList = far'.toList) :
    (join s c near a far).toList = (join s d near' a far').toList := by
  cases s <;> simp [join, ColorTree.toList, sameNear, sameFar]

theorem toList_rotate (s : Side) (c₁ c₂ d₁ d₂ : Color) (near : ColorTree α) (a : α)
    (mid : ColorTree α) (b : α) (far : ColorTree α) :
    (join s c₁ near a (join s c₂ mid b far)).toList =
      (join s d₁ (join s d₂ near a mid) b far).toList := by
  cases s <;> simp [join, ColorTree.toList]

theorem toList_plug (ctx : Ctx α) (t : ColorTree α) :
    (plug ctx t).toList = ctx.before ++ (t.toList ++ ctx.after) := by
  induction ctx generalizing t with
  | top => simp [plug, Ctx.before, Ctx.after]
  | frame s c a sibling up ih =>
    rw [plug, ih]
    cases s <;> simp [join, ColorTree.toList, Ctx.before, Ctx.after]

theorem toList_plug_congr (ctx : Ctx α) {t t' : ColorTree α} (same : t.toList = t'.toList) :
    (plug ctx t).toList = (plug ctx t').toList := by
  rw [toList_plug, toList_plug, same]

theorem exists_plug {whole : ColorTree α} {a : α} (member : a ∈ whole.toList) :
    ∃ ctx c l r, whole = plug ctx (.node c l a r) := by
  suffices within : ∀ outer : Ctx α, ∃ ctx c l r, plug outer whole = plug ctx (.node c l a r) from
    within .top
  induction whole with
  | nil => cases member
  | node c l i r inLeft inRight =>
    intro outer
    simp only [ColorTree.toList, List.mem_append, List.mem_cons] at member
    rcases member with left | rfl | right
    · exact inLeft left (.frame .left c i r outer)
    · exact ⟨outer, c, l, r, rfl⟩
    · exact inRight right (.frame .right c i l outer)

/-- A tree with a black root or an empty one, no red node under a red one, and `n` black nodes
on every path. -/
inductive Balanced : ColorTree α → Color → Nat → Prop where
  | nil : Balanced .nil .black 0
  | red {l r : ColorTree α} {a : α} {n : Nat} :
      Balanced l .black n → Balanced r .black n → Balanced (.node .red l a r) .red n
  | black {l r : ColorTree α} {a : α} {c d : Color} {n : Nat} :
      Balanced l c n → Balanced r d n → Balanced (.node .black l a r) .black (n + 1)

/-- The hole takes trees with `n` black nodes on every path, and only black ones if
`onlyBlack`. -/
inductive Fits : Ctx α → Bool → Nat → Prop where
  | top (n : Nat) : Fits .top true n
  | red {s : Side} {a : α} {sibling : ColorTree α} {up : Ctx α} {n : Nat} :
      Balanced sibling .black n → Fits up false n → Fits (.frame s .red a sibling up) true n
  | black {s : Side} {a : α} {sibling : ColorTree α} {up : Ctx α} {c : Color} {b : Bool} {n : Nat} :
      Balanced sibling c n → Fits up b (n + 1) → Fits (.frame s .black a sibling up) false n

section Balance

variable {t near far : ColorTree α} {a : α} {c d : Color} {n : Nat}

theorem Balanced.color (balanced : Balanced t c n) : t.color = c := by
  cases balanced <;> rfl

theorem balanced_join_red (s : Side) (inNear : Balanced near .black n)
    (inFar : Balanced far .black n) : Balanced (join s .red near a far) .red n := by
  cases s with
  | left => exact .red inNear inFar
  | right => exact .red inFar inNear

theorem balanced_join_black (s : Side) (inNear : Balanced near c n) (inFar : Balanced far d n) :
    Balanced (join s .black near a far) .black (n + 1) := by
  cases s with
  | left => exact .black inNear inFar
  | right => exact .black inFar inNear

theorem Balanced.red_join {s : Side} (balanced : Balanced (join s .red near a far) c n) :
    c = .red ∧ Balanced near .black n ∧ Balanced far .black n := by
  cases s with
  | left =>
    cases balanced with
    | red l r => exact ⟨rfl, l, r⟩
  | right =>
    cases balanced with
    | red l r => exact ⟨rfl, r, l⟩

theorem Balanced.black_join {s : Side} (balanced : Balanced (join s .black near a far) c n) :
    ∃ m c₁ c₂, c = .black ∧ n = m + 1 ∧ Balanced near c₁ m ∧ Balanced far c₂ m := by
  cases s with
  | left =>
    cases balanced with
    | black l r => exact ⟨_, _, _, rfl, rfl, l, r⟩
  | right =>
    cases balanced with
    | black l r => exact ⟨_, _, _, rfl, rfl, r, l⟩

theorem Balanced.of_join {s : Side} (balanced : Balanced (join s d near a far) c n) :
    ∃ m c₁ c₂, Balanced near c₁ m ∧ Balanced far c₂ m := by
  cases d with
  | red => exact ⟨n, _, _, balanced.red_join.2⟩
  | black =>
    obtain ⟨m, c₁, c₂, _, _, inNear, inFar⟩ := balanced.black_join
    exact ⟨m, c₁, c₂, inNear, inFar⟩

theorem Balanced.join_of_red {t : ColorTree α} (s : Side) (balanced : Balanced t .red n) :
    ∃ near a far, t = join s .red near a far ∧ Balanced near .black n ∧ Balanced far .black n := by
  cases balanced with
  | @red l r a _ inLeft inRight =>
    cases s with
    | left => exact ⟨l, a, r, rfl, inLeft, inRight⟩
    | right => exact ⟨r, a, l, rfl, inRight, inLeft⟩

theorem Balanced.join_of_black {t : ColorTree α} (s : Side) (balanced : Balanced t .black (n + 1)) :
    ∃ near a far c d, t = join s .black near a far ∧ Balanced near c n ∧ Balanced far d n := by
  cases balanced with
  | @black l r a c d _ inLeft inRight =>
    cases s with
    | left => exact ⟨l, a, r, c, d, rfl, inLeft, inRight⟩
    | right => exact ⟨r, a, l, d, c, rfl, inRight, inLeft⟩

theorem Balanced.paint_black (balanced : Balanced t c n) :
    ∃ m, Balanced (t.paint .black) .black m ∧ (c = .red → m = n + 1) ∧ (c = .black → m = n) := by
  cases balanced with
  | nil => exact ⟨0, .nil, by simp, fun _ => rfl⟩
  | red l r => exact ⟨_, .black l r, fun _ => rfl, by simp⟩
  | black l r => exact ⟨_, .black l r, by simp, fun _ => rfl⟩

theorem Fits.plug_balanced {ctx : Ctx α} {onlyBlack : Bool} (fits : Fits ctx onlyBlack n)
    (balanced : Balanced t c n) (allowed : onlyBlack = true → c = .black) :
    ∃ m, Balanced (plug ctx t) .black m := by
  induction fits generalizing t c with
  | top n =>
    rw [allowed rfl] at balanced
    exact ⟨n, balanced⟩
  | red sibling _ ih =>
    rw [allowed rfl] at balanced
    exact ih (balanced_join_red _ balanced sibling) (by simp)
  | black sibling _ ih => exact ih (balanced_join_black _ balanced sibling) fun _ => rfl

theorem Balanced.fits {ctx : Ctx α} {t : ColorTree α} (balanced : Balanced (plug ctx t) .black n) :
    ∃ c onlyBlack m, Balanced t c m ∧ Fits ctx onlyBlack m ∧ (onlyBlack = true → c = .black) := by
  induction ctx generalizing t with
  | top => exact ⟨.black, true, n, balanced, .top n, fun _ => rfl⟩
  | frame s c a sibling up ih =>
    obtain ⟨d, onlyBlack, m, inJoin, fits, allowed⟩ := ih balanced
    cases c with
    | red =>
      obtain ⟨rfl, inT, inSibling⟩ := inJoin.red_join
      cases onlyBlack with
      | true => cases allowed rfl
      | false => exact ⟨.black, true, m, inT, .red inSibling fits, fun _ => rfl⟩
    | black =>
      obtain ⟨k, c₁, c₂, rfl, rfl, inT, inSibling⟩ := inJoin.black_join
      exact ⟨c₁, false, k, inT, .black inSibling fits, by simp⟩

end Balance

def Ctx.append : Ctx α → Ctx α → Ctx α
  | .top, outer => outer
  | .frame s c a sibling up, outer => .frame s c a sibling (up.append outer)

theorem plug_append (inner outer : Ctx α) (t : ColorTree α) :
    plug (inner.append outer) t = plug outer (plug inner t) := by
  induction inner generalizing t with
  | top => rfl
  | frame s c a sibling up ih => exact ih _

theorem before_append (inner outer : Ctx α) :
    (inner.append outer).before = outer.before ++ inner.before := by
  induction inner with
  | top => simp [Ctx.append, Ctx.before]
  | frame s c a sibling up ih => cases s <;> simp [Ctx.append, Ctx.before, ih]

/-- The rules do not look at the elements. -/
theorem Fits.relabel {inner up : Ctx α} {s : Side} {c : Color} {a : α} {sibling : ColorTree α}
    {onlyBlack : Bool} {n : Nat} (b : α)
    (fits : Fits (inner.append (.frame s c a sibling up)) onlyBlack n) :
    Fits (inner.append (.frame s c b sibling up)) onlyBlack n := by
  induction inner generalizing onlyBlack n with
  | top =>
    cases fits with
    | red inSibling outer => exact .red inSibling outer
    | black inSibling outer => exact .black inSibling outer
  | frame s' c' a' sibling' up' ih =>
    cases fits with
    | red inSibling outer => exact .red inSibling (ih outer)
    | black inSibling outer => exact .black inSibling (ih outer)

theorem Ctx.depth_le (ctx : Ctx α) (t : ColorTree α) :
    ctx.depth + t.toList.length ≤ (plug ctx t).toList.length := by
  induction ctx generalizing t with
  | top => simp [Ctx.depth, plug]
  | frame s c a sibling up ih =>
    have above := ih (join s c t a sibling)
    have length : t.toList.length + 1 ≤ (join s c t a sibling).toList.length := by
      cases s <;> simp [join, ColorTree.toList]
    rw [plug, Ctx.depth]
    omega

def ColorTree.NoRedRed : ColorTree α → Prop
  | .nil => True
  | .node c l _ r =>
    (c = .red → l.color = .black ∧ r.color = .black) ∧ l.NoRedRed ∧ r.NoRedRed

/-- The numbers of black nodes on the paths to the empty places. -/
def ColorTree.blackPaths : ColorTree α → List Nat
  | .nil => [0]
  | .node c l _ r =>
    (l.blackPaths ++ r.blackPaths).map fun n => n + if c = .black then 1 else 0

theorem Balanced.noRedRed {t : ColorTree α} {c : Color} {n : Nat} (balanced : Balanced t c n) :
    t.NoRedRed := by
  induction balanced with
  | nil => trivial
  | red inLeft inRight left right => exact ⟨fun _ => ⟨inLeft.color, inRight.color⟩, left, right⟩
  | black inLeft inRight left right => exact ⟨by simp, left, right⟩

theorem Balanced.blackPaths {t : ColorTree α} {c : Color} {n : Nat} (balanced : Balanced t c n) :
    ∀ k ∈ t.blackPaths, k = n := by
  induction balanced with
  | nil => simp [ColorTree.blackPaths]
  | red inLeft inRight left right =>
    simp only [ColorTree.blackPaths, List.mem_map, List.mem_append]
    rintro k ⟨m, inside, rfl⟩
    rcases inside with inside | inside
    · exact left m inside
    · exact right m inside
  | black inLeft inRight left right =>
    simp only [ColorTree.blackPaths, List.mem_map, List.mem_append]
    rintro k ⟨m, inside, rfl⟩
    rcases inside with inside | inside
    · simp [left m inside]
    · simp [right m inside]

/-- The number of nodes on the longest path. -/
def ColorTree.height : ColorTree α → Nat
  | .nil => 0
  | .node _ l _ r => max l.height r.height + 1

theorem ColorTree.height_le (t : ColorTree α) : t.height ≤ t.toList.length := by
  induction t with
  | nil => exact Nat.le_refl 0
  | node c l a r left right =>
    simp only [ColorTree.height, ColorTree.toList, List.length_append, List.length_cons]
    omega

/-- Every second node of a path is black, and the black nodes alone make a full tree. -/
theorem Balanced.height {t : ColorTree α} {c : Color} {n : Nat} (balanced : Balanced t c n) :
    t.height ≤ 2 * n + (if c = .red then 1 else 0) ∧ 2 ^ n ≤ t.toList.length + 1 := by
  induction balanced with
  | nil => exact ⟨Nat.le_refl 0, Nat.le_refl 1⟩
  | red inLeft inRight left right =>
    simp only [ColorTree.height, ColorTree.toList, List.length_append, List.length_cons, reduceCtorEq, if_false,
      if_true] at left right ⊢
    omega
  | black inLeft inRight left right =>
    simp only [ColorTree.height, ColorTree.toList, List.length_append, List.length_cons, reduceCtorEq, if_false,
      Nat.pow_succ] at left right ⊢
    split_ifs at left right <;> omega

theorem Balanced.height_log {t : ColorTree α} {n : Nat} (balanced : Balanced t .black n) :
    t.height ≤ 2 * (t.toList.length + 1).log2 := by
  obtain ⟨short, full⟩ := balanced.height
  have blacks : n ≤ (t.toList.length + 1).log2 := (Nat.le_log2 (Nat.succ_ne_zero _)).2 full
  exact short.trans (Nat.mul_le_mul_left 2 blacks)

section Order

variable {κ : Type} [LinearOrder κ] (key : α → κ)

def Sorted (xs : List α) : Prop := xs.Pairwise fun a b => key a ≤ key b

variable {key} in
theorem Sorted.sublist {key' : α → κ} {xs ys : List α} (sorted : Sorted key xs)
    (part : ys.Sublist xs) (same : ∀ a ∈ ys, key' a = key a) : Sorted key' ys := by
  refine (List.Pairwise.sublist part sorted).imp_of_mem ?_
  intro a b inA inB le
  rwa [same a inA, same b inB]

/-- A new element with the key `k` may stand in the hole. -/
def Between (k : κ) (ctx : Ctx α) : Prop :=
  (∀ a ∈ ctx.before, key a ≤ k) ∧ ∀ a ∈ ctx.after, k ≤ key a

variable {key} {k : κ} {ctx up : Ctx α} {t near far : ColorTree α} {a : α} {c : Color}

theorem Between.left (between : Between key k ctx)
    (sorted : Sorted key (ColorTree.node c near a far).toList) (less : k < key a) :
    Between key k (.frame .left c a far ctx) := by
  refine ⟨between.1, ?_⟩
  intro b member
  simp only [Ctx.after, List.cons_append, List.mem_cons, List.mem_append] at member
  rcases member with rfl | inFar | above
  · exact le_of_lt less
  · have behind := (List.pairwise_cons.mp (List.pairwise_append.mp sorted).2.1).1 b inFar
    exact le_trans (le_of_lt less) behind
  · exact between.2 b above

theorem Between.right (between : Between key k ctx)
    (sorted : Sorted key (ColorTree.node c near a far).toList) (notLess : ¬k < key a) :
    Between key k (.frame .right c a near ctx) := by
  refine ⟨?_, between.2⟩
  intro b member
  simp only [Ctx.before, List.mem_append, List.mem_singleton] at member
  rcases member with above | inNear | rfl
  · exact between.1 b above
  · have front := (List.pairwise_append.mp sorted).2.2 b inNear a List.mem_cons_self
    exact le_trans front (not_lt.mp notLess)
  · exact not_lt.mp notLess

theorem Between.sorted {b : α} (between : Between key (key b) ctx)
    (sorted : Sorted key (plug ctx .nil).toList) (s : Side) :
    Sorted key (plug ctx (join s c .nil b .nil)).toList := by
  have single : (join s c (.nil : ColorTree α) b .nil).toList = [b] := by cases s <;> rfl
  rw [toList_plug] at sorted ⊢
  rw [single]
  obtain ⟨front, rest, across⟩ := List.pairwise_append.mp sorted
  refine List.pairwise_append.mpr ⟨front, ?_, ?_⟩
  · exact List.pairwise_cons.mpr ⟨between.2, rest⟩
  · intro x inFront y inRest
    rcases List.mem_cons.mp inRest with rfl | behind
    · exact between.1 x inFront
    · exact across x inFront y behind

end Order

section Insert

/-- One turn of the rebalancing after an insertion. The focus is red; `none` ends the loop. -/
def insertStep : Ctx α → ColorTree α → Option (Ctx α × ColorTree α)
  | .frame s .red p sibling (.frame g _ a uncle up), t =>
    if uncle.color = .red then
      some (up, join g .red (join s .black t p sibling) a (uncle.paint .black))
    else if s = g then some (.frame g .black p (join g .red sibling a uncle) up, t)
    else
      match g, t with
      | _, .nil => none
      | .left, .node _ l x r =>
        some (.frame g .black x (join g .red r a uncle) up, join g .red sibling p l)
      | .right, .node _ l x r =>
        some (.frame g .black x (join g .red l a uncle) up, join g .red sibling p r)
  | _, _ => none

/-- The tree is balanced but for a red focus that may have a red parent. -/
def InsertFocus (ctx : Ctx α) (t : ColorTree α) : Prop :=
  ∃ n onlyBlack, Balanced t .red n ∧ Fits ctx onlyBlack n

theorem insertStep_inner {g : Side} {c d : Color} {p a x : α} {sibling uncle near far : ColorTree α}
    {up : Ctx α} (black : uncle.color = .black) :
    insertStep (.frame g.other .red p sibling (.frame g c a uncle up)) (join g d near x far) =
      some (.frame g .black x (join g .red far a uncle) up, join g .red sibling p near) := by
  cases g <;> simp [insertStep, join, Side.other, black]

theorem insertStep_outer {g : Side} {c : Color} {p a : α} {sibling uncle : ColorTree α}
    {up : Ctx α} (t : ColorTree α) (black : uncle.color = .black) :
    insertStep (.frame g .red p sibling (.frame g c a uncle up)) t =
      some (.frame g .black p (join g .red sibling a uncle) up, t) := by
  simp [insertStep, black]

theorem insertStep_uncle {s g : Side} {c : Color} {p a : α} {sibling uncle : ColorTree α}
    {up : Ctx α} (t : ColorTree α) (red : uncle.color = .red) :
    insertStep (.frame s .red p sibling (.frame g c a uncle up)) t =
      some (up, join g .red (join s .black t p sibling) a (uncle.paint .black)) := by
  simp [insertStep, red]

/-- A red parent of a red focus has a black parent of its own. -/
theorem InsertFocus.grandparent {s : Side} {p : α} {sibling t : ColorTree α} {up : Ctx α}
    (focus : InsertFocus (.frame s .red p sibling up) t) :
    ∃ g a uncle rest, up = .frame g .black a uncle rest := by
  obtain ⟨n, onlyBlack, _, fits⟩ := focus
  cases fits with
  | red inSibling outer =>
    cases outer with
    | black inUncle rest => exact ⟨_, _, _, _, rfl⟩

theorem insertStep_spec {ctx ctx' : Ctx α} {t t' : ColorTree α} (focus : InsertFocus ctx t)
    (step : insertStep ctx t = some (ctx', t')) :
    InsertFocus ctx' t' ∧ (plug ctx' t').toList = (plug ctx t).toList ∧
      ctx'.depth < ctx.depth := by
  match ctx with
  | .top => cases step
  | .frame _ .black _ _ _ => cases step
  | .frame s .red p sibling up =>
    obtain ⟨g, a, uncle, rest, rfl⟩ := focus.grandparent
    obtain ⟨n, onlyBlack, inT, fits⟩ := focus
    cases fits with
    | red inSibling outer =>
    cases outer with
    | @black _ _ _ _ c b _ inUncle fitsRest =>
    rcases color : uncle.color with _ | _
    · -- a red uncle: the colours move up
      rw [insertStep_uncle t color, Option.some.injEq, Prod.mk.injEq] at step
      obtain ⟨rfl, rfl⟩ := step
      have red : c = .red := by rw [← inUncle.color, color]
      obtain ⟨m, painted, height, _⟩ := inUncle.paint_black
      rw [height red] at painted
      refine ⟨⟨n + 1, b, balanced_join_red g (balanced_join_black s inT inSibling) painted,
        fitsRest⟩, ?_, by simp only [Ctx.depth]; omega⟩
      rw [plug, plug]
      apply toList_plug_congr
      exact toList_join_congr g .red .black a (toList_join s .black .red t p sibling)
        (paint_toList .black uncle)
    · have black : c = .black := by rw [← inUncle.color, color]
      subst black
      by_cases same : s = g
      · subst same
        rw [insertStep_outer t color, Option.some.injEq, Prod.mk.injEq] at step
        obtain ⟨rfl, rfl⟩ := step
        refine ⟨⟨n, false, inT, .black (balanced_join_red s inSibling inUncle) fitsRest⟩, ?_,
          by simp only [Ctx.depth]; omega⟩
        rw [plug, plug, plug]
        apply toList_plug_congr
        rw [← join_other s, ← join_other s, ← join_other s, ← join_other s]
        exact (toList_rotate s.other .black .red .black .red uncle a sibling p t).symm
      · have inner : s = g.other := by cases s <;> cases g <;> simp_all [Side.other]
        subst inner
        obtain ⟨near, x, far, rfl, inNear, inFar⟩ := inT.join_of_red g
        rw [insertStep_inner color, Option.some.injEq, Prod.mk.injEq] at step
        obtain ⟨rfl, rfl⟩ := step
        refine ⟨⟨n, false, balanced_join_red g inSibling inNear,
          .black (balanced_join_red g inFar inUncle) fitsRest⟩, ?_, by simp only [Ctx.depth]; omega⟩
        rw [plug, plug, plug]
        apply toList_plug_congr
        cases g <;> simp [join, Side.other, ColorTree.toList]

theorem insertStep_none {ctx : Ctx α} {t : ColorTree α} (focus : InsertFocus ctx t)
    (ended : insertStep ctx t = none) :
    ∃ n, Balanced ((plug ctx t).paint .black) .black n := by
  obtain ⟨n, onlyBlack, inT, fits⟩ := id focus
  cases fits with
  | top =>
    obtain ⟨m, painted, _⟩ := inT.paint_black
    exact ⟨m, painted⟩
  | black inSibling rest =>
    obtain ⟨m, balanced⟩ := (Fits.black inSibling rest).plug_balanced inT (by simp)
    obtain ⟨k, painted, _⟩ := balanced.paint_black
    exact ⟨k, painted⟩
  | red inSibling outer =>
    -- a red parent leaves a turn to make
    obtain ⟨g, a, uncle, rest, rfl⟩ := focus.grandparent
    rcases color : uncle.color with _ | _
    · rw [insertStep_uncle t color] at ended
      cases ended
    · rename_i s p sibling
      by_cases same : s = g
      · subst same
        rw [insertStep_outer t color] at ended
        cases ended
      · have inner : s = g.other := by cases s <;> cases g <;> simp_all [Side.other]
        subst inner
        obtain ⟨near, x, far, rfl, _, _⟩ := inT.join_of_red g
        rw [insertStep_inner color] at ended
        cases ended

end Insert

section Delete

/-- A red sibling is rotated above the parent, so that the focus gets a black one. -/
def blackSibling : Ctx α → Ctx α
  | .frame .left _ p (.node .red wl w wr) up => .frame .left .red p wl (.frame .left .black w wr up)
  | .frame .right _ p (.node .red wl w wr) up =>
    .frame .right .red p wr (.frame .right .black w wl up)
  | ctx => ctx

theorem blackSibling_red {s : Side} {c : Color} {p w : α} {near far : ColorTree α} {up : Ctx α} :
    blackSibling (.frame s c p (join s .red near w far) up) =
      .frame s .red p near (.frame s .black w far up) := by
  cases s <;> rfl

theorem blackSibling_black {s : Side} {c : Color} {p : α} {sibling : ColorTree α} {up : Ctx α}
    (black : sibling.color = .black) :
    blackSibling (.frame s c p sibling up) = .frame s c p sibling up := by
  cases sibling with
  | nil => cases s <;> rfl
  | node d l a r =>
    cases d with
    | red => cases black
    | black => cases s <;> rfl

/-- A black sibling with a red child on the side of the focus only is rotated, so that its
other child is red. -/
def redFar : Side → ColorTree α → ColorTree α
  | .left, .node _ (.node .red nl n nr) w (.node .red fl f fr) =>
    .node .black (.node .red nl n nr) w (.node .red fl f fr)
  | .left, .node _ (.node .red nl n nr) w wr => .node .black nl n (.node .red nr w wr)
  | .right, .node _ (.node .red fl f fr) w (.node .red nl n nr) =>
    .node .black (.node .red fl f fr) w (.node .red nl n nr)
  | .right, .node _ wl w (.node .red nl n nr) => .node .black (.node .red wl w nl) n nr
  | _, sibling => sibling

theorem redFar_red {s : Side} {near far : ColorTree α} {w : α} (red : far.color = .red) :
    redFar s (join s .black near w far) = join s .black near w far := by
  cases far with
  | nil => cases red
  | node c l a r =>
    cases red
    cases s with
    | left =>
      cases near with
      | nil => rfl
      | node d => cases d <;> rfl
    | right =>
      cases near with
      | nil => rfl
      | node d => cases d <;> rfl

theorem redFar_near {s : Side} {c : Color} {inner outer far : ColorTree α} {n w : α}
    (black : far.color = .black) :
    redFar s (join s c (join s .red inner n outer) w far) =
      join s .black inner n (join s .red outer w far) := by
  cases far with
  | nil => cases s <;> rfl
  | node d l a r =>
    cases d with
    | red => cases black
    | black => cases s <;> rfl

/-- One turn of the rebalancing after a deletion. The focus is short of one black node; a turn
that makes up for it goes on at the root. -/
def deleteStep (ctx : Ctx α) (t : ColorTree α) : Option (Ctx α × ColorTree α) :=
  if t.color = .red then none
  else
    match blackSibling ctx with
    | .frame s c p (.node d l w r) up =>
      if l.color = .black ∧ r.color = .black then some (up, join s c t p (.node .red l w r))
      else
        match s, redFar s (.node d l w r) with
        | .left, .node _ near w far =>
          some (.top, plug up (join s c (join s .black t p near) w (far.paint .black)))
        | .right, .node _ far w near =>
          some (.top, plug up (join s c (join s .black t p near) w (far.paint .black)))
        | _, .nil => none
    | _ => none

/-- The tree is balanced but for a focus with one black node less than its place wants; a red
focus makes up for it when it is painted black. -/
def DeleteFocus (ctx : Ctx α) (t : ColorTree α) : Prop :=
  ∃ n onlyBlack, Fits ctx onlyBlack (n + 1) ∧
    (t.color = .black → Balanced t .black n) ∧
    (t.color = .red → Balanced (t.paint .black) .black (n + 1))

theorem Fits.splice {ctx : Ctx α} {onlyBlack : Bool} {n : Nat} {s : Side} {c d : Color} {a : α}
    {child : ColorTree α} (fits : Fits ctx onlyBlack n)
    (balanced : Balanced (join s c .nil a child) d n) :
    (c = .red → ∃ m, Balanced (plug ctx child) .black m) ∧ (c = .black → DeleteFocus ctx child) := by
  constructor
  · rintro rfl
    exact fits.plug_balanced balanced.red_join.2.2 fun _ => rfl
  · rintro rfl
    obtain ⟨m, c₁, c₂, _, rfl, inNil, inChild⟩ := balanced.black_join
    refine ⟨m, onlyBlack, fits, ?_, ?_⟩
    · intro black
      rwa [← inChild.color, black] at inChild
    · intro red
      obtain ⟨k, painted, height, _⟩ := inChild.paint_black
      rw [height (inChild.color.symm.trans red)] at painted
      exact painted

theorem DeleteFocus.some_sibling {s : Side} {c : Color} {p : α} {sibling t : ColorTree α} {up : Ctx α}
    (focus : DeleteFocus (.frame s c p sibling up) t) : sibling ≠ .nil := by
  obtain ⟨n, onlyBlack, fits, _⟩ := focus
  rintro rfl
  cases fits with
  | red inSibling outer => cases inSibling
  | black inSibling outer => cases inSibling

theorem DeleteFocus.sibling {s : Side} {c : Color} {p : α} {sibling t : ColorTree α} {up : Ctx α}
    (focus : DeleteFocus (.frame s c p sibling up) t) (black : t.color = .black) :
    ∃ c' w near far up' n d₁ d₂ onlyBlack,
      blackSibling (.frame s c p sibling up) =
        .frame s c' p (join s .black near w far) up' ∧
      Balanced t .black n ∧ Balanced near d₁ n ∧ Balanced far d₂ n ∧
      Fits up' onlyBlack (if c' = .black then n + 2 else n + 1) ∧
      (c' = .red → onlyBlack = false) ∧
      (plug (blackSibling (.frame s c p sibling up)) t).toList =
        (plug (.frame s c p sibling up) t).toList ∧
      (sibling.color = .red → c' = .red) ∧ (sibling.color = .black → up' = up ∧ c' = c) := by
  obtain ⟨n, onlyBlack, fits, ifBlack, _⟩ := focus
  have inT := ifBlack black
  cases fits with
  | red inSibling outer =>
    obtain ⟨near, w, far, d₁, d₂, rfl, inNear, inFar⟩ := inSibling.join_of_black s
    refine ⟨.red, w, near, far, up, n, d₁, d₂, false, blackSibling_black (by simp), inT, inNear,
      inFar, by simpa using outer, fun _ => rfl, ?_, by simp, fun _ => ⟨rfl, rfl⟩⟩
    rw [blackSibling_black (by simp)]
  | @black _ _ _ _ d b _ inSibling outer =>
    cases d with
    | black =>
      obtain ⟨near, w, far, d₁, d₂, rfl, inNear, inFar⟩ := inSibling.join_of_black s
      refine ⟨.black, w, near, far, up, n, d₁, d₂, b, blackSibling_black (by simp), inT,
        inNear, inFar, by simpa using outer, by simp, ?_, by simp, fun _ => ⟨rfl, rfl⟩⟩
      rw [blackSibling_black (by simp)]
    | red =>
      obtain ⟨near, w, far, rfl, inNear, inFar⟩ := inSibling.join_of_red s
      obtain ⟨near', w', far', d₁, d₂, rfl, inNear', inFar'⟩ := inNear.join_of_black s
      refine ⟨.red, w', near', far', .frame s .black w far up, n, d₁, d₂, false,
        blackSibling_red, inT, inNear', inFar', ?_, fun _ => rfl, ?_, fun _ => rfl, by simp⟩
      · simpa using Fits.black inFar outer
      · rw [blackSibling_red]
        simp only [plug]
        apply toList_plug_congr
        exact (toList_rotate s .black .red .black .red t p _ w far).symm

variable {ctx up : Ctx α} {t near far inner outer : ColorTree α} {s : Side} {c : Color} {p w n : α}

theorem deleteStep_up (black : t.color = .black)
    (sibling : blackSibling ctx = .frame s c p (join s .black near w far) up)
    (nearBlack : near.color = .black) (farBlack : far.color = .black) :
    deleteStep ctx t = some (up, join s c t p (join s .red near w far)) := by
  rw [deleteStep, if_neg (by simp [black]), sibling]
  cases s <;> simp [join, nearBlack, farBlack]

theorem deleteStep_far (black : t.color = .black)
    (sibling : blackSibling ctx = .frame s c p (join s .black near w far) up)
    (farRed : far.color = .red) :
    deleteStep ctx t =
      some (.top, plug up (join s c (join s .black t p near) w (far.paint .black))) := by
  rw [deleteStep, if_neg (by simp [black]), sibling]
  have kept := @redFar_red _ s near _ w farRed
  cases s with
  | left =>
    simp only [join] at kept ⊢
    rw [if_neg (by simp [farRed]), kept]
  | right =>
    simp only [join] at kept ⊢
    rw [if_neg (by simp [farRed]), kept]

theorem deleteStep_near (black : t.color = .black)
    (sibling : blackSibling ctx =
      .frame s c p (join s .black (join s .red inner n outer) w far) up)
    (farBlack : far.color = .black) :
    deleteStep ctx t =
      some (.top, plug up
        (join s c (join s .black t p inner) n (join s .black outer w far))) := by
  rw [deleteStep, if_neg (by simp [black]), sibling]
  have turned := @redFar_near _ s .black inner outer _ n w farBlack
  cases s with
  | left =>
    simp only [join] at turned ⊢
    rw [if_neg (by simp [ColorTree.color]), turned]
    rfl
  | right =>
    simp only [join] at turned ⊢
    rw [if_neg (by simp [ColorTree.color]), turned]
    rfl

/-- What is left to do: the levels above the focus, and a focus that is not red yet. -/
def deleteMeasure (ctx : Ctx α) (t : ColorTree α) : Nat :=
  2 * ctx.depth + if t.color = .black then 1 else 0

theorem blackSibling_depth (ctx : Ctx α) :
    ∀ {s c p sibling} {up : Ctx α}, blackSibling ctx = .frame s c p sibling up →
      up.depth ≤ ctx.depth ∧ (c = .black → up.depth < ctx.depth) := by
  intro s c p sibling up same
  cases ctx with
  | top => cases same
  | frame s' c' p' sibling' up' =>
    rcases color : sibling'.color with _ | _
    · cases sibling' with
      | nil => cases color
      | node d l a r =>
        cases color
        obtain ⟨near, far, opened⟩ := exists_join s' .red l a r
        rw [opened, blackSibling_red] at same
        cases same
        exact ⟨by simp [Ctx.depth], Color.noConfusion⟩
    · rw [blackSibling_black color] at same
      cases same
      simp only [Ctx.depth]
      omega

theorem deleteStep_spec {ctx' : Ctx α} {t' : ColorTree α} (focus : DeleteFocus ctx t)
    (step : deleteStep ctx t = some (ctx', t')) :
    DeleteFocus ctx' t' ∧ (plug ctx' t').toList = (plug ctx t).toList ∧
      deleteMeasure ctx' t' < deleteMeasure ctx t := by
  have black : t.color = .black := by
    by_contra notBlack
    have red : t.color = .red := by
      rcases color : t.color with _ | _
      · rfl
      · exact absurd color notBlack
    rw [deleteStep, if_pos red] at step
    cases step
  cases ctx with
  | top =>
    rw [deleteStep, if_neg (by simp [black])] at step
    cases step
  | frame s c p sibling up =>
    obtain ⟨c', w, near, far, up', n, d₁, d₂, onlyBlack, opened, inT, inNear, inFar, fits,
      allowed, order, _, _⟩ := focus.sibling black
    have depth := blackSibling_depth _ opened
    rw [opened, plug] at order
    have measure : deleteMeasure (.frame s c p sibling up) t = 2 * (up.depth + 1) + 1 := by
      simp [deleteMeasure, black, Ctx.depth]
    simp only [Ctx.depth] at depth
    have root_focus {whole : ColorTree α} {k : Nat} (balanced : Balanced whole .black k) :
        DeleteFocus .top whole :=
      ⟨k, true, .top _, fun _ => balanced, fun red => by rw [balanced.color] at red; cases red⟩
    -- what a turn that goes on at the root leaves
    have at_root {far' near' : ColorTree α} (w' : α) {e₁ e₂ : Color}
        (inNear' : Balanced near' e₁ n) (inFar' : Balanced far' e₂ (n + 1))
        (farColor : c' = .red → e₂ = .black) :
        ∃ m, Balanced (plug up' (join s c' (join s .black t p near') w' far')) .black m := by
      have inFocus := balanced_join_black (a := p) s inT inNear'
      cases c' with
      | red =>
        rw [farColor rfl] at inFar'
        exact fits.plug_balanced (balanced_join_red s inFocus inFar') (by simp [allowed rfl])
      | black => exact fits.plug_balanced (balanced_join_black s inFocus inFar') fun _ => rfl
    by_cases farRed : far.color = .red
    · rw [deleteStep_far black opened farRed, Option.some.injEq, Prod.mk.injEq] at step
      obtain ⟨rfl, rfl⟩ := step
      have d₂Red : d₂ = .red := by rw [← inFar.color, farRed]
      obtain ⟨m, painted, height, _⟩ := inFar.paint_black
      rw [height d₂Red] at painted
      obtain ⟨k, whole⟩ := at_root w inNear painted fun _ => rfl
      refine ⟨root_focus whole, ?_, ?_⟩
      · rw [← order, plug]
        apply toList_plug_congr
        rw [toList_rotate s c' .black c' .black t p near w far]
        exact toList_join_congr s c' c' w rfl (paint_toList .black far)
      · rw [measure]
        simp only [deleteMeasure, Ctx.depth]
        split <;> omega
    · have farBlack : far.color = .black := by
        rcases color : far.color with _ | _
        · exact absurd color farRed
        · rfl
      have d₂Black : d₂ = .black := by rw [← inFar.color, farBlack]
      subst d₂Black
      cases d₁ with
      | red =>
        obtain ⟨inner, a, outer, rfl, inInner, inOuter⟩ := inNear.join_of_red s
        rw [deleteStep_near black opened farBlack, Option.some.injEq, Prod.mk.injEq] at step
        obtain ⟨rfl, rfl⟩ := step
        obtain ⟨k, whole⟩ := at_root a inInner
          (balanced_join_black (a := w) s inOuter inFar) fun _ => rfl
        refine ⟨root_focus whole, ?_, ?_⟩
        · rw [← order, plug]
          apply toList_plug_congr
          cases s <;> simp [join, ColorTree.toList]
        · rw [measure]
          simp only [deleteMeasure, Ctx.depth]
          split <;> omega
      | black =>
        rw [deleteStep_up black opened inNear.color farBlack, Option.some.injEq,
          Prod.mk.injEq] at step
        obtain ⟨rfl, rfl⟩ := step
        have inSibling := balanced_join_red (a := w) s inNear inFar
        refine ⟨?_, ?_, ?_⟩
        · cases c' with
          | red =>
            refine ⟨n, onlyBlack, by simpa using fits, by simp, fun _ => ?_⟩
            rw [paint_join]
            exact balanced_join_black s inT inSibling
          | black =>
            exact ⟨n + 1, onlyBlack, by simpa using fits,
              fun _ => balanced_join_black s inT inSibling, by simp⟩
        · rw [← order]
          apply toList_plug_congr
          exact toList_join_congr s c' c' p rfl (toList_join s .red .black near w far)
        · rw [measure, deleteMeasure, join_color]
          cases c' with
          | red =>
            rw [if_neg (by decide)]
            omega
          | black =>
            have := depth.2 rfl
            rw [if_pos rfl]
            omega

theorem deleteStep_none (focus : DeleteFocus ctx t) (ended : deleteStep ctx t = none) :
    ∃ n, Balanced (plug ctx (t.paint .black)) .black n := by
  rcases color : t.color with _ | _
  · obtain ⟨n, onlyBlack, fits, _, ifRed⟩ := focus
    exact fits.plug_balanced (ifRed color) fun _ => rfl
  · cases ctx with
    | top =>
      obtain ⟨n, onlyBlack, _, ifBlack, _⟩ := focus
      obtain ⟨m, painted, _⟩ := (ifBlack color).paint_black
      exact ⟨m, painted⟩
    | frame s c p sibling up =>
      -- a black focus below the root leaves a turn to make
      obtain ⟨c', w, near, far, up', n, d₁, d₂, onlyBlack, opened, _, inNear, inFar, _⟩ :=
        focus.sibling color
      by_cases farRed : far.color = .red
      · rw [deleteStep_far color opened farRed] at ended
        cases ended
      · have farBlack : far.color = .black := by
          rcases other : far.color with _ | _
          · exact absurd other farRed
          · rfl
        cases d₁ with
        | red =>
          obtain ⟨inner, a, outer, rfl, _, _⟩ := inNear.join_of_red s
          rw [deleteStep_near color opened farBlack] at ended
          cases ended
        | black =>
          rw [deleteStep_up color opened inNear.color farBlack] at ended
          cases ended

end Delete

end NgxFormal.Lib.RedBlack
