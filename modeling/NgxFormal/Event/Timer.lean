import NgxFormal.Core.RbtreeRuns

/-! The timers of `ngx_event_timer.c` and `ngx_event_timer.h` on 64-bit words, without threads. A
timer node has the number of its event. Handlers do not touch timers. -/

namespace NgxFormal.Event.Timer

open Core.Rbtree

def msecRange : Nat := 2 ^ 64

/-- A difference of two `ngx_msec_t` as `ngx_msec_int_t`. -/
def signed (difference : Int) : Int := (difference + 2 ^ 63) % 2 ^ 64 - 2 ^ 63

/-- The comparison of `ngx_rbtree_insert_timer_value`. -/
def timerLess (key temp : Nat) : Bool := signed ((key : Int) - temp) < 0

def ngxAbs (value : Int) : Int := if 0 ≤ value then value else signed (-value)

/-- `NGX_TIMER_LAZY_DELAY` -/
def lazyDelay : Int := 300

/-- `NGX_TIMER_INFINITE` -/
def timerInfinite : Nat := msecRange - 1

/-- `ngx_event_timer_rbtree`, the `timer_set` bits of the events and `ngx_current_msec`. -/
structure State where
  tree : RbTree
  timerSet : Nat → Bool
  currentMsec : Nat

def ngxEventTimerInit (heap : Heap) (sentinel currentMsec : Nat) : State where
  tree := ngxRbtreeInit heap sentinel
  timerSet := fun _ => false
  currentMsec := currentMsec

def ngxEventDelTimer (fuel : Nat) (s : State) (ev : Nat) : Option State :=
  (ngxRbtreeDelete fuel s.tree ev).map fun tree =>
    { s with tree := tree, timerSet := Function.update s.timerSet ev false }

/-- The end of `ngx_event_add_timer`, for an event that is not set. -/
def insertTimer (fuel : Nat) (s : State) (ev key : Nat) : Option State :=
  (ngxRbtreeInsert timerLess fuel { s.tree with heap := s.tree.heap.setKey ev key } ev).map
    fun tree => { s with tree := tree, timerSet := Function.update s.timerSet ev true }

def ngxEventAddTimer (fuel : Nat) (s : State) (ev timer : Nat) : Option State :=
  let key := (s.currentMsec + timer) % msecRange
  if s.timerSet ev then
    let diff := signed ((key : Int) - (s.tree.heap ev).key)
    if ngxAbs diff < lazyDelay then some s
    else (ngxEventDelTimer fuel s ev).bind fun s => insertTimer fuel s ev key
  else insertTimer fuel s ev key

/-- The result is 0 if the earliest timer has passed. -/
def ngxEventFindTimer (fuel : Nat) (s : State) : Option Nat :=
  if s.tree.root = s.tree.sentinel then some timerInfinite
  else
    (ngxRbtreeMin s.tree.heap s.tree.sentinel fuel s.tree.root).map fun node =>
      let timer := signed (((s.tree.heap node).key : Int) - s.currentMsec)
      if 0 < timer then timer.toNat else 0

/-- The loop of `ngx_event_expire_timers`, with the events whose handlers it calls. -/
def expireLoop (fuel : Nat) : Nat → State → Option (State × List Nat)
  | 0, _ => none
  | turns + 1, s =>
    if s.tree.root = s.tree.sentinel then some (s, [])
    else
      (ngxRbtreeMin s.tree.heap s.tree.sentinel fuel s.tree.root).bind fun node =>
        if signed (((s.tree.heap node).key : Int) - s.currentMsec) ≤ 0 then
          (ngxEventDelTimer fuel s node).bind fun s =>
            (expireLoop fuel turns s).map fun (s, fired) => (s, node :: fired)
        else some (s, [])

def ngxEventExpireTimers (fuel : Nat) (s : State) : Option (State × List Nat) :=
  expireLoop fuel fuel s

/-- A step of a run; `advance` is an update of the cached time. -/
inductive Op where
  | add (ev timer : Nat)
  | del (ev : Nat)
  | advance (msec : Nat)
  | expire
  deriving DecidableEq, Repr

def perform (fuel : Nat) (s : State) : Op → Option State
  | .add ev timer => ngxEventAddTimer fuel s ev timer
  | .del ev => ngxEventDelTimer fuel s ev
  | .advance msec => some { s with currentMsec := (s.currentMsec + msec) % msecRange }
  | .expire => (ngxEventExpireTimers fuel s).map Prod.fst

end NgxFormal.Event.Timer

/-! Timers over whole runs. A ledger keeps the true times, which never wrap: the machine has them
modulo `2^64`, and its comparisons are right as long as they lie within half of the range. -/

namespace NgxFormal.Event.Timer

open Lib Lib.RedBlack Core.Rbtree

/-- The set events, the time each of them is stored with and the time last asked for it. -/
structure Ledger where
  clock : Nat
  set : List Nat
  due : Nat → Nat
  asked : Nat → Nat

/-- Closer than `NGX_TIMER_LAZY_DELAY`. -/
def Near (one other : Nat) : Prop := one < other + 300 ∧ other < one + 300

instance (one other : Nat) : Decidable (Near one other) :=
  inferInstanceAs (Decidable (_ ∧ _))

/-- A timer that is set close to its stored time keeps that time. -/
def Ledger.step (l : Ledger) : Op → Ledger
  | .add ev timer =>
    let asked := Function.update l.asked ev (l.clock + timer)
    if ev ∈ l.set ∧ Near (l.clock + timer) (l.due ev) then { l with asked := asked }
    else { l with
      set := ev :: l.set.filter (· ≠ ev)
      due := Function.update l.due ev (l.clock + timer)
      asked := asked }
  | .del ev => { l with set := l.set.filter (· ≠ ev) }
  | .advance msec => { l with clock := l.clock + msec }
  | .expire => { l with set := l.set.filter fun ev => l.clock < l.due ev }

def Ledger.start (clock : Nat) : Ledger := ⟨clock, [], fun _ => 0, fun _ => 0⟩

/-- Within half of the `ngx_msec_t` range of each other. -/
def Window (times : List Nat) : Prop := ∀ x ∈ times, ∀ y ∈ times, x < y + 2 ^ 63

instance (times : List Nat) : Decidable (Window times) :=
  inferInstanceAs (Decidable (∀ x ∈ times, ∀ y ∈ times, x < y + 2 ^ 63))

/-- The keys in the tree and the current time. -/
def Ledger.times (l : Ledger) : List Nat := l.clock :: l.set.map l.due

/-- Only set timers are deleted, and the keys and the current time stay within the window. -/
def Allowed (sentinel : Nat) (l : Ledger) : Op → Prop
  | .add ev timer => ev ≠ sentinel ∧ Window ((l.clock + timer) :: l.times)
  | .del ev => ev ∈ l.set
  | .advance msec => Window ((l.clock + msec) :: l.set.map l.due)
  | .expire => True

instance (sentinel : Nat) (l : Ledger) : DecidablePred (Allowed sentinel l)
  | .add ev _ => inferInstanceAs (Decidable (ev ≠ sentinel ∧ Window _))
  | .del ev => inferInstanceAs (Decidable (ev ∈ l.set))
  | .advance _ => inferInstanceAs (Decidable (Window _))
  | .expire => isTrue trivial

def Legal (sentinel : Nat) : Ledger → List Op → Prop
  | _, [] => True
  | l, op :: rest => Allowed sentinel l op ∧ Legal sentinel (l.step op) rest

instance decideLegal (sentinel : Nat) :
    (l : Ledger) → (ops : List Op) → Decidable (Legal sentinel l ops)
  | _, [] => isTrue trivial
  | l, op :: rest =>
    haveI := decideLegal sentinel (l.step op) rest
    inferInstanceAs (Decidable (Allowed sentinel l op ∧ _))

section Arithmetic

variable {a b : Nat}

theorem signed_mod (below : a < b + 2 ^ 63) (above : b < a + 2 ^ 63) :
    signed (((a % msecRange : Nat) : Int) - (b % msecRange : Nat)) = (a : Int) - b := by
  simp only [signed, msecRange]
  omega

theorem timerLess_mod (below : a < b + 2 ^ 63) (above : b < a + 2 ^ 63) :
    timerLess (a % msecRange) (b % msecRange) = decide (a < b) := by
  rw [timerLess, signed_mod below above]
  simp only [decide_eq_decide]
  omega

theorem lazy_iff (below : a < b + 2 ^ 63) (above : b < a + 2 ^ 63) :
    ngxAbs (signed (((a % msecRange : Nat) : Int) - (b % msecRange : Nat))) < lazyDelay ↔
      Near a b := by
  rw [signed_mod below above, ngxAbs, lazyDelay, Near]
  split
  · omega
  · rw [signed]
    omega

theorem Window.subset {small large : List Nat} (window : Window large)
    (inside : ∀ x ∈ small, x ∈ large) : Window small :=
  fun x inX y inY => window x (inside x inX) y (inside y inY)

end Arithmetic

/-- The machine state of a ledger. -/
structure Tracks (s : State) (l : Ledger) (whole : ColorTree Nat) : Prop where
  shaped : Shaped s.tree whole
  sorted : Sorted l.due whole.toList
  members : whole.toList.Perm l.set
  keys : ∀ ev ∈ l.set, keyOf s.tree ev = l.due ev % msecRange
  isSet : ∀ ev, s.timerSet ev = true ↔ ev ∈ l.set
  now : s.currentMsec = l.clock % msecRange
  window : Window l.times
  lazy : ∀ ev ∈ l.set, Near (l.asked ev) (l.due ev)

section Steps

variable {s : State} {l : Ledger} {whole : ColorTree Nat} {fuel ev timer : Nat}

theorem Tracks.nodup (tracks : Tracks s l whole) : whole.toList.Nodup := by
  have nodup := tracks.shaped.focus.nodup
  rwa [ids, List.append_nil] at nodup

theorem Tracks.length (tracks : Tracks s l whole) : whole.toList.length = l.set.length :=
  tracks.members.length_eq

theorem Tracks.del (tracks : Tracks s l whole) (member : ev ∈ l.set)
    (enough : 2 * l.set.length ≤ fuel) :
    ∃ s' whole', ngxEventDelTimer fuel s ev = some s' ∧
      Tracks s' { l with set := l.set.filter (· ≠ ev) } whole' ∧
      s'.tree.sentinel = s.tree.sentinel ∧ whole'.toList.Sublist whole.toList := by
  have inTree : ev ∈ whole.toList := tracks.members.mem_iff.mpr member
  obtain ⟨tree, whole', deleted, shaped, part, perm, sentinel, keys⟩ :=
    ngxRbtreeDelete_order fuel tracks.shaped inTree (by rw [tracks.length]; exact enough)
  have nodup := tracks.nodup
  rw [perm.nodup_iff, List.nodup_cons] at nodup
  have others : whole'.toList.filter (fun i => i ≠ ev) = whole'.toList := by
    rw [List.filter_eq_self]
    intro i inside
    simpa using fun same : i = ev => nodup.1 (same ▸ inside)
  refine ⟨_, whole', by rw [ngxEventDelTimer, deleted, Option.map_some], ?_, sentinel, part⟩
  refine ⟨shaped, tracks.sorted.sublist part fun _ _ => rfl, ?_, ?_, ?_, tracks.now, ?_, ?_⟩
  · have both := (perm.symm.trans tracks.members).filter fun i => decide (i ≠ ev)
    rwa [List.filter_cons_of_neg (by simp), others] at both
  · intro i inside
    rw [List.mem_filter] at inside
    exact (keys i (by simpa using inside.2)).trans (tracks.keys i inside.1)
  · intro i
    dsimp only
    rw [List.mem_filter]
    by_cases same : i = ev
    · simp [same]
    · rw [Function.update_of_ne same, tracks.isSet]
      simp [same]
  · apply tracks.window.subset
    intro time inside
    rcases List.mem_cons.mp inside with rfl | key
    · exact List.mem_cons_self
    · obtain ⟨i, kept, rfl⟩ := List.mem_map.mp key
      exact List.mem_cons_of_mem _ (List.mem_map_of_mem (List.mem_of_mem_filter kept))
  · intro i inside
    exact tracks.lazy i (List.mem_of_mem_filter inside)

theorem Tracks.insert (tracks : Tracks s l whole) (outside : ev ∉ l.set)
    (real : ev ≠ s.tree.sentinel) {time : Nat} (window : Window (time :: l.times))
    (enough : l.set.length < fuel) :
    ∃ s' whole', insertTimer fuel s ev (time % msecRange) = some s' ∧
      Tracks s' { l with
        set := ev :: l.set
        due := Function.update l.due ev time
        asked := Function.update l.asked ev time } whole' ∧
      s'.tree.sentinel = s.tree.sentinel := by
  have fresh : ev ∉ whole.toList := fun member => outside (tracks.members.mem_iff.mp member)
  have apart {i : Nat} (member : i ∈ whole.toList) : i ≠ ev := fun same => fresh (same ▸ member)
  set tree : RbTree := { s.tree with heap := s.tree.heap.setKey ev (time % msecRange) } with isTree
  have heap {i : Nat} (differ : i ≠ ev) : tree.heap i = s.tree.heap i := setKey_ne _ _ _ _ differ
  have shaped : Shaped tree whole := by
    refine ⟨tracks.shaped.focus.congr ?_ ?_, tracks.shaped.balanced⟩
    · intro i member
      rw [ids, List.append_nil] at member
      exact heap (apart member)
    · exact (congrArg Node.color (heap (Ne.symm real))).trans tracks.shaped.focus.black
  have mine : keyOf tree ev = time % msecRange := by simp [keyOf, isTree, Heap.setKey]
  have sorted : Sorted (Function.update l.due ev time) whole.toList := by
    apply tracks.sorted.sublist (List.Sublist.refl _)
    intro i member
    exact Function.update_of_ne (apart member) ..
  have agrees : ∀ i ∈ whole.toList, timerLess (keyOf tree ev) (keyOf tree i) =
      decide (Function.update l.due ev time ev < Function.update l.due ev time i) := by
    intro i member
    have inSet := tracks.members.mem_iff.mp member
    have inTimes : l.due i ∈ time :: l.times :=
      List.mem_cons_of_mem _ (List.mem_cons_of_mem _ (List.mem_map_of_mem inSet))
    have key : keyOf tree i = l.due i % msecRange := by
      rw [keyOf, heap (apart member)]
      exact tracks.keys i inSet
    rw [mine, key, Function.update_self, Function.update_of_ne (apart member)]
    exact timerLess_mod (window _ List.mem_cons_self _ inTimes)
      (window _ inTimes _ List.mem_cons_self)
  obtain ⟨tree', whole', inserted, shaped', sorted', perm, kept⟩ :=
    ngxRbtreeInsert_order fuel shaped sorted agrees real fresh (by rw [tracks.length]; exact enough)
  refine ⟨_, whole', by rw [insertTimer, ← isTree, inserted, Option.map_some], ?_, kept.sentinel⟩
  have differs {i : Nat} (inside : i ∈ l.set) : i ≠ ev := fun same => outside (same ▸ inside)
  refine ⟨shaped', sorted', perm.trans (tracks.members.cons ev), ?_, ?_, tracks.now, ?_, ?_⟩
  · intro i inside
    dsimp only
    rw [show keyOf tree' i = keyOf tree i from kept.keys i]
    rcases List.mem_cons.mp inside with rfl | old
    · rw [mine, Function.update_self]
    · rw [Function.update_of_ne (differs old), keyOf, heap (differs old)]
      exact tracks.keys i old
  · intro i
    dsimp only
    by_cases same : i = ev
    · simp [same]
    · rw [Function.update_of_ne same, tracks.isSet]
      simp [same]
  · apply window.subset
    intro x inside
    rcases List.mem_cons.mp inside with rfl | key
    · exact List.mem_cons_of_mem _ List.mem_cons_self
    · obtain ⟨i, inSet, rfl⟩ := List.mem_map.mp key
      dsimp only
      rcases List.mem_cons.mp inSet with rfl | old
      · rw [Function.update_self]
        exact List.mem_cons_self
      · rw [Function.update_of_ne (differs old)]
        exact List.mem_cons_of_mem _ (List.mem_cons_of_mem _ (List.mem_map_of_mem old))
  · intro i inside
    dsimp only
    rcases List.mem_cons.mp inside with rfl | old
    · rw [Function.update_self, Function.update_self, Near]
      omega
    · rw [Function.update_of_ne (differs old), Function.update_of_ne (differs old)]
      exact tracks.lazy i old

theorem Ledger.mem_times {i : Nat} (inside : i ∈ l.set) : l.due i ∈ l.times :=
  List.mem_cons_of_mem _ (List.mem_map_of_mem inside)

/-- The lazy case: only the time asked for changes. -/
theorem Tracks.ask (tracks : Tracks s l whole) {time : Nat} (near : Near time (l.due ev)) :
    Tracks s { l with asked := Function.update l.asked ev time } whole := by
  refine ⟨tracks.shaped, tracks.sorted, tracks.members, tracks.keys, tracks.isSet, tracks.now,
    tracks.window, ?_⟩
  intro i inside
  dsimp only
  by_cases same : i = ev
  · rw [same, Function.update_self]
    exact near
  · rw [Function.update_of_ne same]
    exact tracks.lazy i inside

theorem Tracks.add (tracks : Tracks s l whole) (allowed : Allowed s.tree.sentinel l (.add ev timer))
    (enough : 2 * l.set.length < fuel) :
    ∃ s' whole', ngxEventAddTimer fuel s ev timer = some s' ∧
      Tracks s' (l.step (.add ev timer)) whole' ∧ s'.tree.sentinel = s.tree.sentinel := by
  obtain ⟨real, window⟩ := allowed
  have key : (s.currentMsec + timer) % msecRange = (l.clock + timer) % msecRange := by
    rw [tracks.now, Nat.mod_add_mod]
  rw [ngxEventAddTimer, key]
  dsimp only
  by_cases isSet : s.timerSet ev = true
  · have inside := (tracks.isSet ev).mp isSet
    have old : l.due ev ∈ (l.clock + timer) :: l.times :=
      List.mem_cons_of_mem _ (Ledger.mem_times inside)
    have decision := lazy_iff (window _ List.mem_cons_self _ old) (window _ old _ List.mem_cons_self)
    rw [← tracks.keys ev inside, keyOf] at decision
    rw [if_pos isSet]
    by_cases near : Near (l.clock + timer) (l.due ev)
    · rw [if_pos (decision.mpr near), Ledger.step, if_pos ⟨inside, near⟩]
      exact ⟨s, whole, rfl, tracks.ask near, rfl⟩
    · obtain ⟨s', whole', deleted, tracks', sentinel, -⟩ := tracks.del inside enough.le
      have window' : Window ((l.clock + timer) ::
          Ledger.times { l with set := l.set.filter (· ≠ ev) }) := by
        apply window.subset
        intro x member
        simp only [Ledger.times, List.mem_cons, List.mem_map, List.mem_filter] at member ⊢
        rcases member with rfl | rfl | ⟨i, kept, rfl⟩
        · exact Or.inl rfl
        · exact Or.inr (Or.inl rfl)
        · exact Or.inr (Or.inr ⟨i, kept.1, rfl⟩)
      have shorter : (l.set.filter (· ≠ ev)).length < fuel :=
        (List.length_filter_le _ l.set).trans_lt (by omega)
      obtain ⟨s'', whole'', inserted, tracks'', sentinel'⟩ :=
        tracks'.insert (by simp) (sentinel ▸ real) window' shorter
      refine ⟨s'', whole'', ?_, ?_, sentinel'.trans sentinel⟩
      · rw [if_neg (fun close => near (decision.mp close)), deleted]
        exact inserted
      · rw [Ledger.step, if_neg (fun both => near both.2)]
        exact tracks''
  · have outside : ev ∉ l.set := fun inside => isSet ((tracks.isSet ev).mpr inside)
    have same : l.set.filter (fun i => decide (i ≠ ev)) = l.set := by
      rw [List.filter_eq_self]
      intro i inside
      simpa using fun equal : i = ev => outside (equal ▸ inside)
    have shorter : l.set.length < fuel := by omega
    obtain ⟨s', whole', inserted, tracks', sentinel⟩ := tracks.insert outside real window shorter
    refine ⟨s', whole', ?_, ?_, sentinel⟩
    · rw [if_neg isSet]
      exact inserted
    · rw [Ledger.step, if_neg (fun both => outside both.1), same]
      exact tracks'

theorem Tracks.advance (tracks : Tracks s l whole) {msec : Nat}
    (window : Window ((l.clock + msec) :: l.set.map l.due)) :
    Tracks { s with currentMsec := (s.currentMsec + msec) % msecRange }
      (l.step (.advance msec)) whole := by
  refine ⟨tracks.shaped, tracks.sorted, tracks.members, tracks.keys, tracks.isSet, ?_, window,
    tracks.lazy⟩
  show (s.currentMsec + msec) % msecRange = (l.clock + msec) % msecRange
  rw [tracks.now, Nat.mod_add_mod]

theorem Tracks.nil_iff (tracks : Tracks s l whole) : whole = .nil ↔ l.set = [] := by
  constructor
  · intro empty
    have members := tracks.members
    rw [empty, ColorTree.toList] at members
    exact members.symm.eq_nil
  · intro empty
    have members := tracks.members
    rw [empty] at members
    cases whole with
    | nil => rfl
    | node c left i right =>
      have nothing := members.eq_nil
      simp [ColorTree.toList] at nothing

theorem Tracks.root_eq (tracks : Tracks s l whole) :
    s.tree.root = s.tree.sentinel ↔ l.set = [] := by
  rw [← tracks.nil_iff, tracks.shaped.focus.root, rootPtr]
  constructor
  · intro same
    by_contra full
    exact ptr_ne tracks.shaped.focus full same
  · intro empty
    rw [empty, ptr]

theorem Tracks.first (tracks : Tracks s l whole) (full : l.set ≠ [])
    (enough : l.set.length ≤ fuel) :
    ∃ node rest, ngxRbtreeMin s.tree.heap s.tree.sentinel fuel s.tree.root = some node ∧
      whole.toList = node :: rest ∧ node ∈ l.set ∧ ∀ ev ∈ l.set, l.due node ≤ l.due ev := by
  obtain ⟨inner, d, node, right, found, isPlug, before⟩ :=
    ngxRbtreeMin_spec fuel tracks.shaped.focus (fun empty => full (tracks.nil_iff.mp empty))
      (by rw [tracks.length]; exact enough)
  have list : whole.toList = node :: (right.toList ++ inner.after) := by
    rw [isPlug, toList_plug, before, ColorTree.toList, ColorTree.toList]
    rfl
  have inside : node ∈ whole.toList := list ▸ List.mem_cons_self
  have sorted := tracks.sorted
  rw [list, Sorted, List.pairwise_cons] at sorted
  refine ⟨node, _, ?_, list, tracks.members.mem_iff.mp inside, ?_⟩
  · rw [tracks.shaped.focus.root]
    exact found
  · intro ev member
    have inTree := tracks.members.mem_iff.mpr member
    rw [list] at inTree
    rcases List.mem_cons.mp inTree with rfl | later
    · exact le_rfl
    · exact sorted.1 ev later

theorem Tracks.distance (tracks : Tracks s l whole) (inside : ev ∈ l.set) :
    signed (((s.tree.heap ev).key : Int) - s.currentMsec) = (l.due ev : Int) - l.clock := by
  have key : (s.tree.heap ev).key = l.due ev % msecRange := tracks.keys ev inside
  have here : l.clock ∈ l.times := List.mem_cons_self
  have there := Ledger.mem_times inside
  rw [key, tracks.now]
  exact signed_mod (tracks.window _ there _ here) (tracks.window _ here _ there)

theorem Ledger.expire_idle (future : ∀ ev ∈ l.set, l.clock < l.due ev) : l.step .expire = l := by
  have same : l.set.filter (fun ev => decide (l.clock < l.due ev)) = l.set := by
    rw [List.filter_eq_self]
    intro ev inside
    exact decide_eq_true (future ev inside)
  rw [Ledger.step, same]

theorem Ledger.expire_del {node : Nat} (passed : l.due node ≤ l.clock) :
    Ledger.step { l with set := l.set.filter (· ≠ node) } .expire = l.step .expire := by
  rw [Ledger.step, Ledger.step, List.filter_filter]
  congr 1
  apply List.filter_congr
  intro ev _
  by_cases same : ev = node
  · simp [same, passed]
  · simp [same]

theorem length_filter_ne {node : Nat} {set : List Nat} (nodup : set.Nodup) (inside : node ∈ set) :
    (set.filter (· ≠ node)).length + 1 = set.length := by
  have erased : set.filter (· ≠ node) = set.erase node := by
    rw [nodup.erase_eq_filter]
    apply List.filter_congr
    intro ev _
    rw [bne, Bool.beq_eq_decide_eq, decide_not]
  rw [erased, List.length_erase_of_mem inside]
  have := List.length_pos_of_mem inside
  omega

theorem rest_of_sublist {node : Nat} {rest others : List Nat}
    (part : others.Sublist (node :: rest)) (length : others.length = rest.length)
    (gone : node ∉ others) : others = rest := by
  cases part with
  | cons _ part => exact part.eq_of_length length
  | cons_cons _ part => exact absurd List.mem_cons_self gone

theorem Tracks.expireLoop (tracks : Tracks s l whole) (enough : 2 * l.set.length ≤ fuel)
    (turns : Nat) (many : l.set.length < turns) :
    ∃ s' whole', Timer.expireLoop fuel turns s =
        some (s', whole.toList.filter fun ev => l.due ev ≤ l.clock) ∧
      Tracks s' (l.step .expire) whole' ∧ s'.tree.sentinel = s.tree.sentinel := by
  induction turns generalizing s l whole with
  | zero => omega
  | succ turns ih =>
    rw [Timer.expireLoop]
    by_cases empty : l.set = []
    · refine ⟨s, whole, ?_, ?_, rfl⟩
      · rw [if_pos (tracks.root_eq.mpr empty), tracks.nil_iff.mpr empty]
        rfl
      · rw [Ledger.expire_idle (by simp [empty])]
        exact tracks
    · have few : l.set.length ≤ fuel := by omega
      obtain ⟨node, rest, found, list, inside, earliest⟩ := tracks.first empty few
      rw [if_neg (fun same => empty (tracks.root_eq.mp same)), found, Option.bind_some,
        tracks.distance inside]
      by_cases passed : l.due node ≤ l.clock
      · obtain ⟨s', whole', deleted, tracks', sentinel, part⟩ := tracks.del inside enough
        have fewer := length_filter_ne (tracks.members.nodup_iff.mp tracks.nodup) inside
        have gone : node ∉ whole'.toList := by
          rw [tracks'.members.mem_iff]
          simp
        have order : whole'.toList = rest := by
          apply rest_of_sublist (list ▸ part) _ gone
          rw [tracks'.length]
          have whole_length := tracks.length
          rw [list, List.length_cons] at whole_length
          dsimp only
          omega
        obtain ⟨final, whole'', ran, done, sentinel'⟩ := ih tracks' (by dsimp only; omega)
          (by dsimp only; omega)
        refine ⟨final, whole'', ?_, Ledger.expire_del passed ▸ done, sentinel'.trans sentinel⟩
        rw [if_pos (by omega), deleted, Option.bind_some, ran, order, list,
          List.filter_cons_of_pos (by simpa using passed)]
        rfl
      · have future : ∀ ev ∈ l.set, l.clock < l.due ev := by
          intro ev member
          have := earliest ev member
          omega
        refine ⟨s, whole, ?_, ?_, rfl⟩
        · rw [if_neg (by omega)]
          congr 2
          symm
          rw [List.filter_eq_nil_iff]
          intro ev member
          have := future ev (tracks.members.mem_iff.mp member)
          simpa using this
        · rw [Ledger.expire_idle future]
          exact tracks

theorem Tracks.perform {op : Op} (tracks : Tracks s l whole) (allowed : Allowed s.tree.sentinel l op)
    (enough : 2 * l.set.length < fuel) :
    ∃ s' whole', Timer.perform fuel s op = some s' ∧ Tracks s' (l.step op) whole' ∧
      s'.tree.sentinel = s.tree.sentinel := by
  cases op with
  | add ev timer => exact tracks.add allowed enough
  | del ev =>
    obtain ⟨s', whole', deleted, tracks', sentinel, -⟩ := tracks.del allowed enough.le
    exact ⟨s', whole', deleted, tracks', sentinel⟩
  | advance msec => exact ⟨_, whole, rfl, tracks.advance allowed, rfl⟩
  | expire =>
    obtain ⟨s', whole', expired, tracks', sentinel⟩ :=
      tracks.expireLoop enough.le fuel (by omega)
    refine ⟨s', whole', ?_, tracks', sentinel⟩
    rw [Timer.perform, ngxEventExpireTimers, expired]
    rfl

theorem Ledger.step_length (l : Ledger) (op : Op) : (l.step op).set.length ≤ l.set.length + 1 := by
  have shorter (keep : Nat → Bool) := List.length_filter_le keep l.set
  cases op with
  | add ev timer =>
    rw [Ledger.step]
    split
    · exact Nat.le_succ _
    · simpa using shorter fun i => decide (i ≠ ev)
  | del ev => exact (shorter _).trans (Nat.le_succ _)
  | advance msec => exact Nat.le_succ _
  | expire => exact (shorter _).trans (Nat.le_succ _)

theorem Ledger.run_length (ops : List Op) (l : Ledger) :
    (ops.foldl Ledger.step l).set.length ≤ l.set.length + ops.length := by
  induction ops generalizing l with
  | nil => exact Nat.le_refl _
  | cons op rest ih =>
    have step := l.step_length op
    have later := ih (l.step op)
    rw [List.foldl_cons, List.length_cons]
    omega

/-- A whole run. -/
theorem Tracks.run (ops : List Op) (tracks : Tracks s l whole) (legal : Legal s.tree.sentinel l ops)
    (enough : 2 * (l.set.length + ops.length) < fuel + 2) :
    ∃ final whole', Lib.run (Timer.perform fuel) s ops = some final ∧
      Tracks final (ops.foldl Ledger.step l) whole' := by
  induction ops generalizing s l whole with
  | nil => exact ⟨s, whole, rfl, tracks⟩
  | cons op rest ih =>
    rw [List.length_cons] at enough
    have few : 2 * l.set.length < fuel := by omega
    obtain ⟨next, whole', stepped, tracks', sentinel⟩ := tracks.perform legal.1 few
    have length := l.step_length op
    obtain ⟨final, whole'', ran, done⟩ := ih tracks' (sentinel ▸ legal.2) (by omega)
    refine ⟨final, whole'', ?_, done⟩
    rw [run_cons, stepped]
    exact ran

theorem tracks_init (heap : Heap) (sentinel clock : Nat) :
    Tracks (ngxEventTimerInit heap sentinel (clock % msecRange)) (Ledger.start clock) .nil := by
  refine ⟨⟨⟨trivial, trivial, rfl, List.nodup_nil, ?_⟩, ⟨0, .nil⟩⟩, List.Pairwise.nil,
    List.Perm.nil, by simp [Ledger.start], by simp [Ledger.start, ngxEventTimerInit], rfl, ?_,
    by simp [Ledger.start]⟩
  · simp [ngxEventTimerInit, ngxRbtreeInit]
  · simp [Window, Ledger.times, Ledger.start]

end Steps

/-- The stored keys are the times of the ledger, modulo the range of the counter. -/
structure Stores (s : State) (l : Ledger) : Prop where
  isSet : ∀ ev, s.timerSet ev = true ↔ ev ∈ l.set
  keys : ∀ ev ∈ l.set, (s.tree.heap ev).key = l.due ev % msecRange
  now : s.currentMsec = l.clock % msecRange

/-- What a call of `ngx_event_expire_timers` fires and leaves. -/
structure Fires (s s' : State) (l : Ledger) (fired : List Nat) : Prop where
  passed : ∀ ev, ev ∈ fired ↔ s.timerSet ev = true ∧ l.due ev ≤ l.clock
  once : fired.Nodup
  inOrder : fired.Pairwise fun a b => l.due a ≤ l.due b
  notEarly : ∀ ev ∈ fired, l.asked ev < l.clock + 300
  left : ∀ ev, s'.timerSet ev = true ↔ s.timerSet ev = true ∧ l.clock < l.due ev

/-- The wait until the earliest set timer. -/
structure Waits (s : State) (l : Ledger) (timer : Nat) : Prop where
  none : (∀ ev, s.timerSet ev = false) → timer = timerInfinite
  earliest : ∀ ev, s.timerSet ev = true → (∀ other, s.timerSet other = true → l.due ev ≤ l.due other) →
    timer = l.due ev - l.clock

section Results

variable {s : State} {l : Ledger} {whole : ColorTree Nat} {fuel : Nat}

theorem Tracks.fires (tracks : Tracks s l whole) (enough : 2 * l.set.length < fuel) :
    ∃ s' fired, ngxEventExpireTimers fuel s = some (s', fired) ∧ Fires s s' l fired := by
  obtain ⟨s', whole', expired, tracks', -⟩ := tracks.expireLoop enough.le fuel (by omega)
  have fired_iff (ev : Nat) : (ev ∈ whole.toList.filter fun ev => l.due ev ≤ l.clock) ↔
      ev ∈ l.set ∧ l.due ev ≤ l.clock := by
    rw [List.mem_filter, tracks.members.mem_iff, decide_eq_true_iff]
  refine ⟨s', _, expired, ?_, tracks.nodup.filter _, tracks.sorted.filter _, ?_, ?_⟩
  · intro ev
    rw [fired_iff, tracks.isSet]
  · intro ev fired
    obtain ⟨inside, passed⟩ := (fired_iff ev).mp fired
    have near := tracks.lazy ev inside
    rw [Near] at near
    omega
  · intro ev
    rw [tracks'.isSet, tracks.isSet, Ledger.step, List.mem_filter, decide_eq_true_iff]

theorem Tracks.waits (tracks : Tracks s l whole) (enough : 2 * l.set.length < fuel) :
    ∃ timer, ngxEventFindTimer fuel s = some timer ∧ Waits s l timer := by
  rw [ngxEventFindTimer]
  by_cases empty : l.set = []
  · refine ⟨timerInfinite, if_pos (tracks.root_eq.mpr empty), fun _ => rfl, ?_⟩
    intro ev isSet
    rw [tracks.isSet, empty] at isSet
    exact absurd isSet List.not_mem_nil
  · have few : l.set.length ≤ fuel := by omega
    obtain ⟨node, rest, found, -, inside, earliest⟩ := tracks.first empty few
    rw [if_neg (fun same => empty (tracks.root_eq.mp same)), found, Option.map_some,
      tracks.distance inside]
    refine ⟨_, rfl, ?_, ?_⟩
    · intro unset
      have isSet := (tracks.isSet node).mpr inside
      rw [unset] at isSet
      exact absurd isSet Bool.false_ne_true
    · intro ev isSet first
      have member := (tracks.isSet ev).mp isSet
      have lower := earliest ev member
      have upper := first node ((tracks.isSet node).mpr inside)
      dsimp only
      split <;> omega

end Results

/-- After every run whose keys and clock stay within half of the counter's range, the next
expiration fires the events whose time has passed, in order and once, and the wait is the one for
the earliest timer. -/
theorem timers_correct (heap : Heap) (sentinel clock : Nat) (ops : List Op)
    (legal : Legal sentinel (Ledger.start clock) ops) (fuel : Nat) (enough : 2 * ops.length < fuel) :
    ∃ s, run (perform fuel) (ngxEventTimerInit heap sentinel (clock % msecRange)) ops = some s ∧
      let l := ops.foldl Ledger.step (Ledger.start clock)
      Stores s l ∧
      (∃ s' fired, ngxEventExpireTimers fuel s = some (s', fired) ∧ Fires s s' l fired) ∧
      ∃ timer, ngxEventFindTimer fuel s = some timer ∧ Waits s l timer := by
  have start := tracks_init heap sentinel clock
  obtain ⟨s, whole, ran, tracks⟩ := start.run ops legal (by
    show 2 * (0 + ops.length) < fuel + 2
    omega)
  have few : 2 * (ops.foldl Ledger.step (Ledger.start clock)).set.length < fuel :=
    (Nat.mul_le_mul_left 2 (Ledger.run_length ops _)).trans_lt (by
      show 2 * (0 + ops.length) < fuel
      omega)
  exact ⟨s, ran, ⟨tracks.isSet, tracks.keys, tracks.now⟩, tracks.fires few, tracks.waits few⟩

/-- The counter wraps between the two requests, and the second timer is asked for twice. -/
theorem timers_correct_wrapped :
    let ops : List Op := [.add 1 40, .add 2 1000, .advance 90, .add 2 1100, .expire, .advance 20]
    let heap : Heap := fun _ => ⟨0, 0, 0, 0, .red⟩
    Legal 9 (Ledger.start (2 ^ 64 - 50)) ops ∧
    ∃ s, run (perform 20) (ngxEventTimerInit heap 9 ((2 ^ 64 - 50) % msecRange)) ops = some s ∧
      let l := ops.foldl Ledger.step (Ledger.start (2 ^ 64 - 50))
      Stores s l ∧
      (∃ s' fired, ngxEventExpireTimers 20 s = some (s', fired) ∧ Fires s s' l fired) ∧
      ∃ timer, ngxEventFindTimer 20 s = some timer ∧ Waits s l timer :=
  ⟨by decide +kernel, timers_correct _ 9 _ _ (by decide +kernel) 20 (by decide)⟩

end NgxFormal.Event.Timer
