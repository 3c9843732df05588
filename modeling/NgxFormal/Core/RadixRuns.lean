import NgxFormal.Core.RadixLinks

/-! What an insertion, a deletion and a search do to the values of the paths. -/

namespace NgxFormal.Core.Radix

/-- Every node but the root, and but the one at `spared`, has a value or a child. -/
def Pruned (t : Tree) (place : List Bool → Nat) (spared : List Bool) : Prop :=
  ∀ path side, path ++ [side] ≠ spared → place (path ++ [side]) ≠ 0 →
    content t place (path ++ [side]) ≠ noValue ∨ ∃ s, place (path ++ [side] ++ [s]) ≠ 0

section Ops

variable {t : Tree} {place : List Bool → Nat} {list : List Nat} {key : BitVec 32} {i j n turns : Nat}

theorem content_of_node {path : List Bool} (there : place path ≠ 0) :
    content t place path = (t.nodes (place path)).value := if_neg there

theorem content_of_none {path : List Bool} (none : place path = 0) :
    content t place path = noValue := if_pos none

theorem Linked.follow (linked : Linked t place list) (inside : i < 32)
    (there : place (bits key i) ≠ 0) :
    follow (t.nodes (place (bits key i))) key (bitAt i) = place (bits key (i + 1)) := by
  rw [bits_succ, ← linked.child _ _ there]
  unfold Radix.follow Node.child
  by_cases set : key.getMsbD i = true
  · rw [if_pos ((and_bitAt key inside).mpr set), if_pos set]
  · rw [if_neg (fun some_bit => set ((and_bitAt key inside).mp some_bit)), if_neg set]

theorem Linked.none_below (linked : Linked t place list) (none : place (bits key i) = 0)
    (below : i ≤ j) : place (bits key j) = 0 := by
  induction j, below using Nat.le_induction with
  | base => exact none
  | succ j _ ih =>
    by_contra there
    rw [bits_succ] at there
    exact linked.closed _ _ there ih

theorem Linked.insertDescend (linked : Linked t place list) (small : n ≤ 32) (enough : n - i ≤ turns)
    (le : i ≤ n) (there : place (bits key i) ≠ 0) :
    ∃ j next, j ≤ n ∧ place (bits key j) ≠ 0 ∧
      insertDescend t key (prefixMask n) turns (bitAt i) (place (bits key i)) (place (bits key i)) =
        (bitAt j, place (bits key j), next) ∧
      ((j = n ∧ next ≠ 0) ∨ (j < n ∧ next = 0 ∧ place (bits key (j + 1)) = 0)) := by
  induction turns generalizing i with
  | zero =>
    obtain rfl : i = n := by omega
    exact ⟨i, _, Nat.le_refl _, there, rfl, Or.inl ⟨rfl, there⟩⟩
  | succ turns ih =>
    rw [Radix.insertDescend]
    by_cases inside : i < n
    · have below : i < 32 := by omega
      rw [if_neg (fun exceeds => (bitAt_and_mask small).mp exceeds inside), linked.follow below there]
      by_cases none : place (bits key (i + 1)) = 0
      · simp only [if_pos none]
        exact ⟨i, _, le, there, rfl, Or.inr ⟨inside, none, none⟩⟩
      · simp only [if_neg none]
        rw [bitAt_succ]
        exact ih (by omega) inside none
    · obtain rfl : i = n := by omega
      rw [if_pos ((bitAt_and_mask small).mpr inside)]
      exact ⟨i, _, Nat.le_refl _, there, rfl, Or.inl ⟨rfl, there⟩⟩

theorem Pruned.grow {path : List Bool} {side : Bool} {u : Tree} {a : Nat}
    (pruned : Pruned t place path) (some_node : a ≠ 0)
    (same : ∀ other, content u (Function.update place (path ++ [side]) a) other = content t place other) :
    Pruned u (Function.update place (path ++ [side]) a) (path ++ [side]) := by
  intro q s spared there
  rw [Function.update_of_ne spared] at there
  have child : ∀ p, place p ≠ 0 → Function.update place (path ++ [side]) a p ≠ 0 := by
    intro p old
    by_cases new : p = path ++ [side]
    · rw [new, Function.update_self]
      exact some_node
    · rw [Function.update_of_ne new]
      exact old
  by_cases end_ : q ++ [s] = path
  · refine Or.inr ⟨side, ?_⟩
    rw [end_, Function.update_self]
    exact some_node
  · rcases pruned q s end_ there with value | ⟨below, some_below⟩
    · exact Or.inl (by rw [same]; exact value)
    · exact Or.inr ⟨below, child _ some_below⟩

theorem Linked.insertExtend (linked : Linked t place list) (small : n ≤ 32) (enough : n - j ≤ turns)
    (le : j ≤ n) (there : place (bits key j) ≠ 0) (none : j < n → place (bits key (j + 1)) = 0) :
    ∃ place' list' t', insertExtend key (prefixMask n) turns (bitAt j) (place (bits key j)) t =
        (place' (bits key n), t') ∧
      Linked t' place' list' ∧ place' (bits key n) ≠ 0 ∧
      (Pruned t place (bits key j) → Pruned t' place' (bits key n)) ∧
      ∀ other, content t' place' other = content t place other := by
  induction turns generalizing j t place list with
  | zero =>
    obtain rfl : j = n := by omega
    exact ⟨place, list, t, rfl, linked, there, id, fun _ => rfl⟩
  | succ turns ih =>
    rw [Radix.insertExtend]
    by_cases inside : j < n
    · have below : j < 32 := by omega
      rw [if_neg (fun exceeds => (bitAt_and_mask small).mp exceeds inside)]
      have nothing := none inside
      rw [bits_succ] at nothing
      obtain ⟨a, rest, isNext, some_node, linked', same⟩ :=
        linked.grow there nothing (by rw [bits_length]; exact below)
      have isGrow : (if key &&& bitAt j ≠ 0
          then ((ngxRadixAlloc t).2.write (ngxRadixAlloc t).1
            ⟨0, 0, place (bits key j), noValue⟩).setRight (place (bits key j)) (ngxRadixAlloc t).1
          else ((ngxRadixAlloc t).2.write (ngxRadixAlloc t).1
            ⟨0, 0, place (bits key j), noValue⟩).setLeft (place (bits key j)) (ngxRadixAlloc t).1) =
          (Radix.grow t (place (bits key j)) (key.getMsbD j)).2 := by
        by_cases set : key.getMsbD j = true
        · rw [if_pos ((and_bitAt key below).mpr set), set]
          rfl
        · rw [if_neg (fun some_bit => set ((and_bitAt key below).mp some_bit))]
          rw [Bool.not_eq_true] at set
          rw [set]
          rfl
      have isNext' : (ngxRadixAlloc t).1 = a := isNext
      simp only [isGrow, bitAt_succ]
      rw [← bits_succ] at linked' same
      have here : Function.update place (bits key (j + 1)) a (bits key (j + 1)) = a :=
        Function.update_self _ _ _
      rw [isNext', ← here]
      have nextNone : Function.update place (bits key (j + 1)) a (bits key (j + 1 + 1)) = 0 := by
        have longer : bits key (j + 1 + 1) ≠ bits key (j + 1) := by
          rw [bits_succ key (j + 1)]
          exact append_ne_self _ _
        rw [Function.update_of_ne longer]
        exact linked.none_below (none inside) (Nat.le_succ _)
      obtain ⟨place', list', t', isResult, linked'', there', kept, same'⟩ :=
        ih linked' (by omega) inside (by rw [here]; exact some_node) (fun _ => nextNone)
      refine ⟨place', list', t', isResult, linked'', there', fun pruned => kept ?_, fun other =>
        (same' other).trans (same other)⟩
      rw [bits_succ] at same ⊢
      exact pruned.grow some_node same
    · obtain rfl : j = n := by omega
      rw [if_pos ((bitAt_and_mask small).mpr inside)]
      exact ⟨place, list, t, rfl, linked, there, id, fun _ => rfl⟩

theorem Linked.pruned_setValue {path : List Bool} {value : UInt64} (linked : Linked t place list)
    (there : place path ≠ 0) (pruned : Pruned t place path) (valued : value ≠ noValue) :
    Pruned (t.setValue (place path) value) place [] := by
  intro q s _ here
  rw [linked.content_setValue there]
  by_cases same : q ++ [s] = path
  · rw [if_pos same]
    exact Or.inl valued
  · rw [if_neg same]
    exact pruned q s same here

theorem Pruned.spare {path : List Bool} (pruned : Pruned t place []) : Pruned t place path :=
  fun q s _ there => pruned q s (by simp) there

theorem Linked.insert (linked : Linked t place list) (small : n ≤ 32) (key : BitVec 32)
    (value : UInt64) :
    if content t place (bits key n) ≠ noValue then
      ngxRadix32treeInsert t key (prefixMask n) value = (.busy, t)
    else (ngxRadix32treeInsert t key (prefixMask n) value).1 = .ok ∧
      ∃ place' list', Linked (ngxRadix32treeInsert t key (prefixMask n) value).2 place' list' ∧
        (Pruned t place [] → value ≠ noValue →
          Pruned (ngxRadix32treeInsert t key (prefixMask n) value).2 place' []) ∧
        ∀ other, content (ngxRadix32treeInsert t key (prefixMask n) value).2 place' other =
          if other = bits key n then value else content t place other := by
  have start : place (bits key 0) = t.root := linked.root
  have top : place (bits key 0) ≠ 0 := by rw [start]; exact linked.top
  obtain ⟨j, next, le, there, descended, found | ⟨inside, none, nothing⟩⟩ :=
    @Linked.insertDescend t place list key 0 n 32 linked small (by omega) (Nat.zero_le _) top
  · obtain ⟨rfl, some_next⟩ := found
    have first : Radix.insertDescend t key (prefixMask j) 32 0x80000000 t.root t.root =
        (bitAt j, place (bits key j), next) := by
      rw [← start]
      exact descended
    have isInsert : ngxRadix32treeInsert t key (prefixMask j) value =
        if (t.nodes (place (bits key j))).value ≠ noValue then (.busy, t)
        else (.ok, t.setValue (place (bits key j)) value) := by
      unfold ngxRadix32treeInsert
      simp only [first]
      exact if_pos some_next
    rw [isInsert, content_of_node there]
    by_cases held : (t.nodes (place (bits key j))).value ≠ noValue
    · rw [if_pos held, if_pos held]
    · rw [if_neg held, if_neg held]
      exact ⟨rfl, place, list, linked.setValue _ _,
        fun pruned valued => linked.pruned_setValue there pruned.spare valued,
        linked.content_setValue there value⟩
  · obtain ⟨place', list', t', extended, linked', there', kept, same⟩ :=
      @Linked.insertExtend t place list key j n 32 linked small (by omega) le there
        (fun _ => nothing)
    have first : Radix.insertDescend t key (prefixMask n) 32 0x80000000 t.root t.root =
        (bitAt j, place (bits key j), next) := by
      rw [← start]
      exact descended
    have isInsert : ngxRadix32treeInsert t key (prefixMask n) value =
        (.ok, t'.setValue (place' (bits key n)) value) := by
      unfold ngxRadix32treeInsert
      simp only [first, none, extended]
      rfl
    have free : content t place (bits key n) = noValue :=
      content_of_none (linked.none_below nothing inside)
    rw [if_neg (fun held => held free), isInsert]
    refine ⟨rfl, place', list', linked'.setValue _ _, fun pruned valued =>
      linked'.pruned_setValue there' (kept pruned.spare) valued, ?_⟩
    intro other
    rw [linked'.content_setValue there', same]

theorem Linked.deleteDescend (linked : Linked t place list) (small : n ≤ 32) (enough : n - i ≤ turns)
    (le : i ≤ n) :
    deleteDescend t key (prefixMask n) turns (bitAt i) (place (bits key i)) = place (bits key n) := by
  induction turns generalizing i with
  | zero =>
    obtain rfl : i = n := by omega
    rfl
  | succ turns ih =>
    rw [Radix.deleteDescend]
    by_cases inside : i < n
    · by_cases none : place (bits key i) = 0
      · rw [if_pos (Or.inl none), none, linked.none_below none le]
      · have goes : ¬(place (bits key i) = 0 ∨ bitAt i &&& prefixMask n = 0) := by
          rintro (absurd | exceeds)
          · exact none absurd
          · exact (bitAt_and_mask small).mp exceeds inside
        rw [if_neg goes, linked.follow (by omega) none, bitAt_succ]
        exact ih (by omega) inside
    · obtain rfl : i = n := by omega
      rw [if_pos (Or.inr ((bitAt_and_mask small).mpr inside))]

theorem Pruned.unlink {path : List Bool} {side : Bool} {u : Tree}
    (pruned : Pruned t place (path ++ [side]))
    (same : ∀ other, content u (Function.update place (path ++ [side]) 0) other =
      if other = path ++ [side] then noValue else content t place other) :
    Pruned u (Function.update place (path ++ [side]) 0) path := by
  intro q s spared there
  have stays : q ++ [s] ≠ path ++ [side] := by
    intro gone
    rw [gone, Function.update_self] at there
    exact there rfl
  rw [Function.update_of_ne stays] at there
  rcases pruned q s stays there with value | ⟨below, some_below⟩
  · refine Or.inl ?_
    rw [same, if_neg stays]
    exact value
  · refine Or.inr ⟨below, ?_⟩
    rw [Function.update_of_ne (fun gone => spared ((append_inj_iff _ _ _ _).mp gone).1)]
    exact some_below

theorem Pruned.whole {path : List Bool} (pruned : Pruned t place path)
    (kept : path = [] ∨ content t place path ≠ noValue ∨ ∃ s, place (path ++ [s]) ≠ 0) :
    Pruned t place [] := by
  intro q s _ there
  by_cases same : q ++ [s] = path
  · rcases kept with rfl | value | child
    · simp at same
    · exact Or.inl (by rw [same]; exact value)
    · exact Or.inr (by rw [same]; exact child)
  · exact pruned q s same there

theorem deletePrune_of_tryPrune {node : Nat} {u : Tree} (done : tryPrune turns node t = some u) :
    deletePrune turns node t = u := by
  induction turns generalizing node t with
  | zero => cases done
  | succ turns ih =>
    rw [tryPrune] at done
    rw [deletePrune]
    split at done
    · cases done
    · dsimp only at done ⊢
      split at done
      · rename_i children
        rw [if_pos children]
        exact Option.some.inj done
      · rename_i children
        rw [if_neg children]
        split at done
        · rename_i held
          rw [if_pos held]
          exact Option.some.inj done
        · rename_i held
          rw [if_neg held]
          split at done
          · rename_i top
            rw [if_pos top]
            exact Option.some.inj done
          · rename_i top
            rw [if_neg top]
            exact ih done

theorem Linked.tryPrune {path : List Bool} {side : Bool} (linked : Linked t place list)
    (there : place (path ++ [side]) ≠ 0) (leaf : ∀ s, place (path ++ [side] ++ [s]) = 0)
    (enough : path.length < turns) :
    ∃ u place' list', tryPrune turns (place (path ++ [side])) t = some u ∧ Linked u place' list' ∧
      (Pruned t place (path ++ [side]) → Pruned u place' []) ∧
      ∀ other, content u place' other =
        if other = path ++ [side] then noValue else content t place other := by
  induction turns generalizing path side t place list with
  | zero => omega
  | succ turns ih =>
    obtain ⟨linked', isParent, same⟩ := linked.unlink there leaf
    have unlinked : Pruned t place (path ++ [side]) → _ := fun pruned => pruned.unlink same
    have above := linked.closed path side there
    have moved : Function.update place (path ++ [side]) 0 path = place path :=
      Function.update_of_ne (append_ne_self _ _).symm _ _
    rw [Radix.tryPrune, if_neg (by rw [linked.parent path side there]; exact above)]
    generalize Radix.unlink t (place (path ++ [side])) = u at *
    generalize Function.update place (path ++ [side]) 0 = place₁ at *
    have above₁ : place₁ path ≠ 0 := by rw [moved]; exact above
    have right : (u.nodes (place₁ path)).right = place₁ (path ++ [true]) := linked'.child path true above₁
    have left : (u.nodes (place₁ path)).left = place₁ (path ++ [false]) := linked'.child path false above₁
    simp only [isParent]
    rw [← moved, right, left, ← content_of_node above₁]
    by_cases children : place₁ (path ++ [true]) ≠ 0 ∨ place₁ (path ++ [false]) ≠ 0
    · rw [if_pos children]
      have kept : ∃ s, place₁ (path ++ [s]) ≠ 0 := by
        rcases children with some_right | some_left
        · exact ⟨true, some_right⟩
        · exact ⟨false, some_left⟩
      exact ⟨u, place₁, _, rfl, linked', fun pruned => (unlinked pruned).whole (Or.inr (Or.inr kept)), same⟩
    · rw [if_neg children]
      by_cases value : content u place₁ path ≠ noValue
      · rw [if_pos value]
        exact ⟨u, place₁, _, rfl, linked', fun pruned => (unlinked pruned).whole (Or.inr (Or.inl value)), same⟩
      · rw [if_neg value]
        rcases List.eq_nil_or_concat path with rfl | ⟨q, s, isConcat⟩
        · rw [linked'.root, if_pos linked'.rootParent]
          exact ⟨u, place₁, _, rfl, linked', fun pruned => (unlinked pruned).whole (Or.inl rfl), same⟩
        · rw [List.concat_eq_append] at isConcat
          subst isConcat
          rw [linked'.parent q s above₁, if_neg (linked'.closed q s above₁)]
          have leaf' : ∀ b, place₁ (q ++ [s] ++ [b]) = 0 := by
            intro b
            by_contra some_child
            cases b with
            | true => exact children (Or.inl some_child)
            | false => exact children (Or.inr some_child)
          obtain ⟨v, place', list', done, linked'', kept, same'⟩ :=
            ih linked' above₁ leaf' (by simpa using enough)
          refine ⟨v, place', list', done, linked'', fun pruned => kept (unlinked pruned), fun other => ?_⟩
          rw [same']
          by_cases isParent : other = q ++ [s]
          · have noLonger : content u place₁ (q ++ [s]) = noValue := not_not.mp value
            rw [if_pos isParent, ← same, isParent]
            exact noLonger.symm
          · rw [if_neg isParent]
            exact same other

theorem Linked.delete (linked : Linked t place list) (pruned : Pruned t place []) (small : n ≤ 32)
    (some_bits : n ≠ 0) (key : BitVec 32) :
    (ngxRadix32treeDelete t key (prefixMask n)).1 =
        (if content t place (bits key n) ≠ noValue then .ok else .error) ∧
      ∃ place' list', Linked (ngxRadix32treeDelete t key (prefixMask n)).2 place' list' ∧
        Pruned (ngxRadix32treeDelete t key (prefixMask n)).2 place' [] ∧
        ∀ other, content (ngxRadix32treeDelete t key (prefixMask n)).2 place' other =
          if other = bits key n then noValue else content t place other := by
  have walked : Radix.deleteDescend t key (prefixMask n) 32 0x80000000 t.root = place (bits key n) := by
    rw [← linked.root]
    exact @Linked.deleteDescend t place list key 0 n 32 linked small (by omega) (Nat.zero_le _)
  unfold ngxRadix32treeDelete
  simp only [walked]
  have unchanged : content t place (bits key n) = noValue → ∀ other,
      content t place other = if other = bits key n then noValue else content t place other := by
    intro none other
    by_cases same : other = bits key n
    · rw [if_pos same, same, none]
    · rw [if_neg same]
  by_cases none : place (bits key n) = 0
  · have free : content t place (bits key n) = noValue := content_of_none none
    rw [if_pos none, if_neg (fun held => held free)]
    exact ⟨rfl, place, list, linked, pruned, unchanged free⟩
  · rw [if_neg none]
    have right : (t.nodes (place (bits key n))).right = place (bits key n ++ [true]) :=
      linked.child _ true none
    have left : (t.nodes (place (bits key n))).left = place (bits key n ++ [false]) :=
      linked.child _ false none
    rw [right, left, ← content_of_node none]
    by_cases children : place (bits key n ++ [true]) ≠ 0 ∨ place (bits key n ++ [false]) ≠ 0
    · rw [if_pos children]
      by_cases held : content t place (bits key n) ≠ noValue
      · rw [if_pos held, if_pos held]
        have kept : ∃ s, place (bits key n ++ [s]) ≠ 0 := by
          rcases children with some_right | some_left
          · exact ⟨true, some_right⟩
          · exact ⟨false, some_left⟩
        refine ⟨rfl, place, list, linked.setValue _ _, ?_, linked.content_setValue none noValue⟩
        intro q s spared there
        rw [linked.content_setValue none]
        by_cases same : q ++ [s] = bits key n
        · exact Or.inr (by rw [same]; exact kept)
        · rw [if_neg same]
          exact pruned q s spared there
      · rw [if_neg held, if_neg held]
        exact ⟨rfl, place, list, linked, pruned, unchanged (not_not.mp held)⟩
    · rw [if_neg children]
      obtain ⟨m, rfl⟩ : ∃ m, n = m + 1 := ⟨n - 1, by omega⟩
      rw [bits_succ] at none children ⊢
      have leaf : ∀ b, place (bits key m ++ [key.getMsbD m] ++ [b]) = 0 := by
        intro b
        by_contra some_child
        cases b with
        | true => exact children (Or.inl some_child)
        | false => exact children (Or.inr some_child)
      have held : content t place (bits key m ++ [key.getMsbD m]) ≠ noValue := by
        rcases pruned _ _ (by simp) none with value | ⟨s, some_child⟩
        · exact value
        · exact (some_child (leaf s)).elim
      rw [if_pos held]
      obtain ⟨u, place', list', done, linked', kept, changed⟩ :=
        @Linked.tryPrune t place list 32 _ _ linked none leaf (by rw [bits_length]; omega)
      rw [deletePrune_of_tryPrune done]
      exact ⟨rfl, place', list', linked', kept pruned.spare, changed⟩

/-- The last value that is there among `turns` of them from `i` on. -/
def lastValue (values : Nat → UInt64) : Nat → Nat → UInt64 → UInt64
  | _, 0, value => value
  | i, turns + 1, value =>
    lastValue values (i + 1) turns (if values i ≠ noValue then values i else value)

theorem lastValue_none {values : Nat → UInt64} {value : UInt64} (none : ∀ j, i ≤ j → values j = noValue) :
    lastValue values i turns value = value := by
  induction turns generalizing i with
  | zero => rfl
  | succ turns ih =>
    rw [lastValue, if_neg (fun held => held (none i (Nat.le_refl i)))]
    exact ih fun j later => none j (by omega)

theorem Linked.findLoop (linked : Linked t place list) (key : BitVec 32) (value : UInt64)
    (whole : i + turns = 33) :
    findLoop t key turns (bitAt i) (place (bits key i)) value =
      lastValue (fun j => content t place (bits key j)) i turns value := by
  induction turns generalizing i value with
  | zero => rfl
  | succ turns ih =>
    rw [Radix.findLoop]
    by_cases none : place (bits key i) = 0
    · rw [if_pos none, lastValue_none]
      intro j later
      exact content_of_none (linked.none_below none later)
    · rw [if_neg none, ← content_of_node none, lastValue]
      by_cases last : turns = 0
      · rw [last]
        rfl
      · rw [linked.follow (by omega) none, bitAt_succ]
        exact ih _ (by omega)

end Ops

end NgxFormal.Core.Radix

/-! A radix tree over any sequence of insertions and deletions is a table of prefixes. -/

namespace NgxFormal.Core.Radix

inductive Op
  | insert (key mask : BitVec 32) (value : UInt64)
  | delete (key mask : BitVec 32)
  deriving DecidableEq, Repr

/-- A mask of ones followed by zeros. -/
def Contiguous (mask : BitVec 32) : Prop := ∃ n ≤ 32, mask = prefixMask n

def Op.Valid : Op → Prop
  | insert _ mask value => Contiguous mask ∧ value ≠ noValue
  | delete _ mask => Contiguous mask ∧ mask ≠ 0

def perform (t : Tree) : Op → Tree
  | .insert key mask value => (ngxRadix32treeInsert t key mask value).2
  | .delete key mask => (ngxRadix32treeDelete t key mask).2

/-- The value of each prefix and mask. -/
abbrev Table := BitVec 32 × BitVec 32 → Option UInt64

/-- What an operation means for the table: an insertion keeps the value that is there. -/
def Table.perform (table : Table) : Op → Table
  | .insert key mask value =>
    if (table (key &&& mask, mask)).isSome then table
    else Function.update table (key &&& mask, mask) (some value)
  | .delete key mask => Function.update table (key &&& mask, mask) none

/-- The value of the longest prefix in the table that matches the key. -/
def Table.longest (table : Table) (key : BitVec 32) : UInt64 :=
  ((List.range 33).reverse.findSome? fun n => table (key &&& prefixMask n, prefixMask n)).getD noValue

/-- The tree holds what is in the table. -/
structure Holds (t : Tree) (place : List Bool → Nat) (table : Table) : Prop where
  valued : ∀ entry, table entry ≠ some noValue
  same : ∀ key n, n ≤ 32 →
    content t place (bits key n) = (table (key &&& prefixMask n, prefixMask n)).getD noValue

section Runs

variable {t : Tree} {place : List Bool → Nat} {list : List Nat} {table : Table} {n : Nat}

theorem Holds.isSome (holds : Holds t place table) (small : n ≤ 32) (key : BitVec 32) :
    content t place (bits key n) ≠ noValue ↔
      (table (key &&& prefixMask n, prefixMask n)).isSome = true := by
  rw [holds.same key n small]
  cases entry : table (key &&& prefixMask n, prefixMask n) with
  | none => simp
  | some value =>
    have valued : value ≠ noValue := by
      rintro rfl
      exact holds.valued _ entry
    simp [valued]

theorem Holds.update {u : Tree} {place' : List Bool → Nat} {value : Option UInt64}
    (holds : Holds t place table) (small : n ≤ 32) (key : BitVec 32) (valued : value ≠ some noValue)
    (changed : ∀ other, content u place' other =
      if other = bits key n then value.getD noValue else content t place other) :
    Holds u place' (Function.update table (key &&& prefixMask n, prefixMask n) value) := by
  constructor
  · intro entry
    by_cases same : entry = (key &&& prefixMask n, prefixMask n)
    · rw [same, Function.update_self]
      exact valued
    · rw [Function.update_of_ne same]
      exact holds.valued entry
  · intro other m smallM
    rw [changed]
    by_cases same : bits other m = bits key n
    · have length : m = n := by simpa using congrArg List.length same
      subst length
      rw [if_pos same, (bits_eq_iff small other key).mp same, Function.update_self]
    · have differ : (other &&& prefixMask m, prefixMask m) ≠ (key &&& prefixMask n, prefixMask n) := by
        intro equal
        obtain ⟨keys, masks⟩ := Prod.mk.inj equal
        obtain rfl := prefixMask_injective smallM small masks
        exact same ((bits_eq_iff small other key).mpr keys)
      rw [if_neg same, Function.update_of_ne differ]
      exact holds.same other m smallM

/-- A tree that some operations have made, and its table. -/
structure Represents (t : Tree) (table : Table) (place : List Bool → Nat) (list : List Nat) : Prop where
  linked : Linked t place list
  pruned : Pruned t place []
  holds : Holds t place table

theorem represents_create (memory : Nat → Node) :
    Represents (ngxRadixTreeCreate memory) (fun _ => none) (fun path => if path = [] then 1 else 0) [] := by
  have node : (ngxRadixTreeCreate memory).nodes 1 = ⟨0, 0, 0, noValue⟩ := by
    simp [ngxRadixTreeCreate, ngxRadixAlloc, Tree.write]
  have only : ∀ path : List Bool, (if path = [] then 1 else 0) ≠ 0 → path = [] := by
    intro path there
    by_contra long
    exact there (if_neg long)
  refine ⟨⟨rfl, Nat.one_ne_zero, ?_, ?_, ?_, ?_, ?_, ?_, ?_, rfl, List.nodup_nil, ?_⟩, ?_, ?_, ?_⟩
  · intro path side there
    rw [only path there, if_pos rfl, node]
    cases side with
    | false => rfl
    | true => rfl
  · intro path side there
    have absurd := only _ there
    simp at absurd
  · show ((ngxRadixTreeCreate memory).nodes 1).parent = 0
    rw [node]
  · intro path side there
    have absurd := only _ there
    simp at absurd
  · intro path other there same
    rw [only path there]
    rw [same] at there
    exact (only other there).symm
  · intro path there
    rw [only path there]
    exact Nat.zero_le _
  · intro path
    show _ < 2
    split
    · exact Nat.one_lt_two
    · exact Nat.zero_lt_two
  · intro a member
    cases member
  · intro path side _ there
    have absurd := only _ there
    simp at absurd
  · intro entry absurd
    cases absurd
  · intro key n _
    unfold content
    by_cases top : bits key n = []
    · rw [top]
      simp [node]
    · simp [top]

theorem prefixMask_ne_zero (some_mask : prefixMask n ≠ 0) : n ≠ 0 := by
  rintro rfl
  exact some_mask (by decide)

theorem Represents.perform (represents : Represents t table place list) {op : Op} (valid : op.Valid) :
    ∃ place' list', Represents (perform t op) (table.perform op) place' list' := by
  obtain ⟨linked, pruned, holds⟩ := represents
  cases op with
  | insert key mask value =>
    obtain ⟨⟨n, small, rfl⟩, valued⟩ := valid
    have result := linked.insert small key value
    unfold Radix.perform Table.perform
    by_cases held : content t place (bits key n) ≠ noValue
    · rw [if_pos held] at result
      simp only [result, if_pos ((holds.isSome small key).mp held)]
      exact ⟨place, list, linked, pruned, holds⟩
    · rw [if_neg held] at result
      obtain ⟨_, place', list', linked', kept, changed⟩ := result
      simp only [if_neg (fun there => held ((holds.isSome small key).mpr there))]
      refine ⟨place', list', linked', kept pruned valued, ?_⟩
      exact holds.update small key (fun absurd => valued (Option.some.inj absurd)) changed
  | delete key mask =>
    obtain ⟨⟨n, small, rfl⟩, some_mask⟩ := valid
    obtain ⟨_, place', list', linked', pruned', changed⟩ :=
      linked.delete pruned small (prefixMask_ne_zero some_mask) key
    exact ⟨place', list', linked', pruned',
      holds.update small key (fun absurd => by cases absurd) changed⟩

theorem Represents.run (ops : List Op) (valid : ∀ op ∈ ops, op.Valid)
    (represents : Represents t table place list) :
    ∃ place' list', Represents (ops.foldl Radix.perform t) (ops.foldl Table.perform table) place' list' := by
  induction ops generalizing t table place list with
  | nil => exact ⟨place, list, represents⟩
  | cons op ops ih =>
    obtain ⟨validOp, validRest⟩ := List.forall_mem_cons.mp valid
    obtain ⟨place', list', next⟩ := represents.perform validOp
    exact ih validRest next

theorem lastValue_eq {values : Nat → UInt64} {entries : Nat → Option UInt64} (i turns : Nat)
    (value : UInt64) (same : ∀ j < i + turns, values j = (entries j).getD noValue)
    (valued : ∀ j, entries j ≠ some noValue) :
    lastValue values i turns value = ((List.range' i turns).reverse.findSome? entries).getD value := by
  induction turns generalizing i value with
  | zero => rfl
  | succ turns ih =>
    rw [lastValue, ih (i + 1) _ (fun j below => same j (by omega)), List.range'_succ,
      List.reverse_cons, List.findSome?_append, same i (by omega)]
    generalize List.findSome? _ (List.range' (i + 1) turns).reverse = found
    cases found with
    | some later => rfl
    | none =>
      have entry := valued i
      cases here : entries i with
      | none => simp [here]
      | some held =>
        rw [here] at entry
        have differ : held ≠ noValue := fun same => entry (congrArg some same)
        simp [here, differ]

theorem Linked.find (linked : Linked t place list) (holds : Holds t place table) (key : BitVec 32) :
    ngxRadix32treeFind t key = table.longest key := by
  unfold ngxRadix32treeFind Table.longest
  have looped := @Linked.findLoop t place list 0 33 linked key noValue rfl
  have start : Radix.findLoop t key 33 0x80000000 t.root noValue =
      Radix.findLoop t key 33 (bitAt 0) (place (bits key 0)) noValue := by
    rw [← linked.root]
    rfl
  rw [start, looped, List.range_eq_range']
  exact lastValue_eq 0 33 noValue (fun n below => holds.same key n (by omega))
    fun n => holds.valued _

theorem Represents.find (represents : Represents t table place list) (key : BitVec 32) :
    ngxRadix32treeFind t key = table.longest key :=
  represents.linked.find represents.holds key

theorem Represents.insert_rc (represents : Represents t table place list) (small : n ≤ 32)
    (key : BitVec 32) (value : UInt64) :
    if (table (key &&& prefixMask n, prefixMask n)).isSome
    then ngxRadix32treeInsert t key (prefixMask n) value = (.busy, t)
    else (ngxRadix32treeInsert t key (prefixMask n) value).1 = .ok := by
  have result := represents.linked.insert small key value
  have held := represents.holds.isSome small key
  by_cases there : content t place (bits key n) ≠ noValue
  · rw [if_pos there] at result
    rw [if_pos (held.mp there)]
    exact result
  · rw [if_neg there] at result
    rw [if_neg (fun isSome => there (held.mpr isSome))]
    exact result.1

theorem Represents.delete_rc (represents : Represents t table place list) (small : n ≤ 32)
    (some_mask : prefixMask n ≠ 0) (key : BitVec 32) :
    (ngxRadix32treeDelete t key (prefixMask n)).1 =
      if (table (key &&& prefixMask n, prefixMask n)).isSome then .ok else .error := by
  have result :=
    (represents.linked.delete represents.pruned small (prefixMask_ne_zero some_mask) key).1
  have held := represents.holds.isSome small key
  rw [result]
  by_cases there : content t place (bits key n) ≠ noValue
  · rw [if_pos there, if_pos (held.mp there)]
  · rw [if_neg there, if_neg (fun isSome => there (held.mpr isSome))]

end Runs

/-- After any operations, with whatever was in the memory before: an insertion is refused, and
changes nothing, exactly when the prefix has a value; a deletion succeeds exactly when it has one; a
search gives the value of the longest prefix. -/
theorem radix_correct (memory : Nat → Node) (ops : List Op) (valid : ∀ op ∈ ops, op.Valid) :
    let t := ops.foldl perform (ngxRadixTreeCreate memory)
    let table : Table := ops.foldl Table.perform fun _ => none
    (∀ key mask value, Contiguous mask → value ≠ noValue →
      if (table (key &&& mask, mask)).isSome then ngxRadix32treeInsert t key mask value = (.busy, t)
      else (ngxRadix32treeInsert t key mask value).1 = .ok) ∧
    (∀ key mask, Contiguous mask → mask ≠ 0 → (ngxRadix32treeDelete t key mask).1 =
      if (table (key &&& mask, mask)).isSome then .ok else .error) ∧
    ∀ key, ngxRadix32treeFind t key = table.longest key := by
  obtain ⟨place, list, represents⟩ := (represents_create memory).run ops valid
  refine ⟨?_, ?_, represents.find⟩
  · rintro key mask value ⟨n, small, rfl⟩ _
    exact represents.insert_rc small key value
  · rintro key mask ⟨n, small, rfl⟩ some_mask
    exact represents.delete_rc small some_mask key

/-- 10.0.0.0/8, then 10.1.0.0/16 with a node of the first one freed and used again in between. -/
def someOps : List Op :=
  [.insert 0x0A000000 0xFF000000 1, .insert 0x0B000000 0xFF000000 2, .delete 0x0B000000 0xFF000000,
    .insert 0x0A010000 0xFFFF0000 3]

theorem radix_correct_some_ops :
    ngxRadix32treeFind (someOps.foldl perform (ngxRadixTreeCreate fun _ => ⟨7, 7, 7, 7⟩)) 0x0A010203 = 3 ∧
      ngxRadix32treeFind (someOps.foldl perform (ngxRadixTreeCreate fun _ => ⟨7, 7, 7, 7⟩)) 0x0A020203 =
        1 := by
  have masks : Contiguous 0xFF000000 ∧ Contiguous 0xFFFF0000 :=
    ⟨⟨8, by decide, by decide⟩, ⟨16, by decide, by decide⟩⟩
  have valid : ∀ op ∈ someOps, op.Valid := by
    simp only [someOps, List.forall_mem_cons, Op.Valid]
    exact ⟨⟨masks.1, by decide⟩, ⟨masks.1, by decide⟩, ⟨masks.1, by decide⟩, ⟨masks.2, by decide⟩,
      fun _ absurd => by cases absurd⟩
  have found := (radix_correct (fun _ => ⟨7, 7, 7, 7⟩) someOps valid).2.2
  rw [found, found]
  decide +kernel

end NgxFormal.Core.Radix
