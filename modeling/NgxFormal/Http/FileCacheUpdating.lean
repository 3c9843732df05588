import NgxFormal.Http.FileCacheUses

/-! The flag `updating`, of a node and of the request that refreshes it. -/

namespace NgxFormal.Http.FileCache

open Lib

def refreshes (c : Req) (a : Nat) : Bool := c.updating && held c == some a

def State.updaters (s : State) (a : Nat) : Nat := s.requests.countP fun c => refreshes c a

/-- Only requests with a node refresh, and the flag of a node in the tree says whether one does. -/
structure Marked (s : State) : Prop where
  sound : Sound s
  holds : ∀ c ∈ s.requests, c.updating = true → held c ≠ none
  one : ∀ a ∈ s.queue, s.updaters a = (s.nodes a).updating.toNat

section Updating

variable {s next : State} {a r : Nat} {c d : Req} {node : Node}

theorem refreshes_idle (idle : c.updating = false) (a : Nat) : refreshes c a = false := by
  rw [refreshes, idle, Bool.false_and]

theorem updaters_append (requests : next.requests = s.requests ++ [c]) (idle : c.updating = false) (a : Nat) :
    next.updaters a = s.updaters a := by
  rw [State.updaters, requests, List.countP_append, List.countP_singleton, refreshes_idle idle]
  rfl

theorem updaters_set (old : s.requests[r]? = some c) (requests : next.requests = s.requests.set r d) (a : Nat) :
    next.updaters a + (refreshes c a).toNat = s.updaters a + (refreshes d a).toNat := by
  obtain ⟨inside, get⟩ := List.getElem?_eq_some_iff.1 old
  have counted : refreshes c a = true → 0 < s.requests.countP fun c => refreshes c a := fun is =>
    List.countP_pos_iff.2 ⟨c, List.mem_of_getElem? old, is⟩
  rw [State.updaters, State.updaters, requests, List.countP_set inside, get]
  cases oldFlag : refreshes c a with
  | false => cases refreshes d a <;> simp
  | true =>
    have := counted oldFlag
    cases refreshes d a <;> simp <;> omega

/-- A node that is not in the tree is not refreshed. -/
theorem Marked.unseen (marked : Marked s) (outside : a ∉ s.queue) : s.updaters a = 0 := by
  rcases Nat.eq_zero_or_pos (s.updaters a) with zero | positive
  · exact zero
  · obtain ⟨c, mem, is⟩ := List.countP_pos_iff.1 positive
    refine absurd (marked.sound.inTree a (List.countP_pos_iff.2 ⟨c, mem, ?_⟩)) outside
    exact (Bool.and_eq_true _ _ ▸ is).2

theorem Marked.held_inside (marked : Marked s) (old : s.requests[r]? = some c) (isHeld : held c = some a) :
    a ∈ s.queue :=
  marked.sound.inTree a (List.countP_pos_iff.2 ⟨c, List.mem_of_getElem? old, by rw [isHeld]; exact beq_self_eq_true _⟩)

theorem Marked.flag (marked : Marked s) (old : s.requests[r]? = some c) (isHeld : held c = some a)
    (updating : c.updating = true) : (s.nodes a).updating = true := by
  have one := marked.one a (marked.held_inside old isHeld)
  have positive : 0 < s.updaters a := by
    refine List.countP_pos_iff.2 ⟨c, List.mem_of_getElem? old, ?_⟩
    rw [refreshes, updating, isHeld, beq_self_eq_true, Bool.and_true]
  cases flag : (s.nodes a).updating with
  | true => rfl
  | false =>
    rw [one, flag] at positive
    exact absurd positive (Nat.lt_irrefl 0)

theorem Marked.quiet (marked : Marked s) (sound : Sound next) (quiet : Quiet s next) : Marked next where
  sound := sound
  holds := by
    rw [quiet.requests]
    exact marked.holds
  one a inside := by
    rw [State.updaters, quiet.requests, (quiet.nodes a).2]
    exact marked.one a (quiet.queue inside)

theorem Marked.same (marked : Marked s) (sound : Sound next)
    (holds : ∀ c ∈ next.requests, c.updating = true → held c ≠ none) (updaters : ∀ b, next.updaters b = s.updaters b)
    (nodes : ∀ b ∈ next.queue, b ∈ s.queue ∧ (next.nodes b).updating = (s.nodes b).updating ∨
      b ∉ s.queue ∧ (next.nodes b).updating = false) : Marked next where
  sound := sound
  holds := holds
  one b inside := by
    rw [updaters]
    rcases nodes b inside with ⟨old, same⟩ | ⟨outside, none_⟩
    · rw [same]
      exact marked.one b old
    · rw [none_]
      exact marked.unseen outside

theorem Marked.change (marked : Marked s) (sound : Sound next) (old : s.requests[r]? = some c)
    (isHeld : held c = some a) (requests : next.requests = s.requests.set r d)
    (later : d.updating = true → held d = some a) (queue : next.queue ⊆ s.queue)
    (nodes : ∀ b, b ≠ a → next.nodes b = s.nodes b)
    (own : (next.nodes a).updating.toNat + c.updating.toNat = (s.nodes a).updating.toNat + d.updating.toNat) :
    Marked next where
  sound := sound
  holds e mem updating := by
    rw [requests] at mem
    rcases List.mem_or_eq_of_mem_set mem with before | rfl
    · exact marked.holds e before updating
    · rw [later updating]
      exact Option.some_ne_none a
  one b inside := by
    have counts := updaters_set old requests b
    rw [marked.one b (queue inside)] at counts
    by_cases same : b = a
    · subst same
      have was : refreshes c b = c.updating := by rw [refreshes, isHeld, beq_self_eq_true, Bool.and_true]
      have is : refreshes d b = d.updating := by
        cases updating : d.updating with
        | false => exact refreshes_idle updating b
        | true => rw [refreshes, updating, later updating, beq_self_eq_true, Bool.and_true]
      rw [was, is] at counts
      omega
    · have was : refreshes c b = false := by
        rw [refreshes, isHeld, beq_eq_false_iff_ne.2 fun is => same (Option.some.inj is).symm, Bool.and_false]
      have is : refreshes d b = false := by
        cases updating : d.updating with
        | false => exact refreshes_idle updating b
        | true =>
          rw [refreshes, later updating, beq_eq_false_iff_ne.2 fun is => same (Option.some.inj is).symm,
            Bool.and_false]
      rw [was, is] at counts
      rw [nodes b same]
      exact counts

theorem takeNode_updating (now : Int) (minUses : Nat) (node : Node) :
    (takeNode now minUses node).2.updating = node.updating := by
  unfold takeNode
  dsimp only
  split_ifs <;> rfl

/-- A request that stores a response refreshes the node, unless none does. -/
def Refreshes (s : State) : Action → Prop
  | .update r _ _ _ _ => ∀ c ∈ s.requests[r]?, ∀ a ∈ held c, (s.nodes a).updating = true → c.updating = true
  | _ => True

instance (s : State) : (action : Action) → Decidable (Refreshes s action)
  | .update r _ _ _ _ => inferInstanceAs (Decidable
      (∀ c ∈ s.requests[r]?, ∀ a ∈ held c, (s.nodes a).updating = true → c.updating = true))
  | .exists_ .. | .existsAgain .. | .read .. | .stale .. | .free .. | .expire .. | .forcedExpire | .deleted ..
  | .add .. | .loaded => isTrue trivial

/-- And the count of no node wraps. -/
def Refreshing (s : State) (action : Action) : Prop := Room s action ∧ Refreshes s action

instance (s : State) (action : Action) : Decidable (Refreshing s action) :=
  inferInstanceAs (Decidable (Room s action ∧ Refreshes s action))

theorem Marked.step {action : Action} (marked : Marked s) (meets : Refreshing s action)
    (stepped : step s action = some next) : Marked next := by
  have sound := marked.sound.step meets.1 stepped
  have joined (c : Req) (idle : c.updating = false) : ∀ d ∈ s.requests ++ [c], d.updating = true → held d ≠ none := by
    intro d mem updating
    rcases List.mem_append.1 mem with old | new
    · exact marked.holds d old updating
    · rw [List.mem_singleton.1 new, idle] at updating
      cases updating
  have entered {b : Nat} {node : Node} (other : ∀ b' ∈ next.queue, b' = b ∨ b' ∈ s.queue)
      (nodes : next.nodes = Function.update s.nodes b node) (outside : b ∉ s.queue) (clear : node.updating = false) :
      ∀ b' ∈ next.queue, b' ∈ s.queue ∧ (next.nodes b').updating = (s.nodes b').updating ∨
        b' ∉ s.queue ∧ (next.nodes b').updating = false := by
    intro b' inside
    by_cases same : b' = b
    · rw [same, nodes, Function.update_self]
      exact Or.inr ⟨outside, clear⟩
    · rw [nodes, Function.update_of_ne same]
      exact Or.inl ⟨(other b' inside).resolve_left same, rfl⟩
  cases step_cases stepped with
  | updated => exact marked
  | freed => exact marked
  | @exists_ key minUses now found fresh finds unused =>
    cases found with
    | some b =>
      refine marked.same sound (joined _ rfl) (updaters_append rfl rfl) fun b' inside => Or.inl ⟨?_, ?_⟩
      · exact (toHead_perm finds.1).subset inside
      · refine kept_updating rfl ?_ b'
        exact takeNode_updating now minUses (s.nodes b)
    | none =>
      cases fresh with
      | some b =>
        exact marked.same sound (joined _ rfl) (updaters_append rfl rfl)
          (entered (fun _ inside => (List.mem_cons.1 inside).imp_right fun old => List.erase_subset old) rfl
            (unused b rfl) rfl)
      | none =>
        exact marked.same sound (joined _ rfl) (updaters_append rfl rfl) fun _ inside => Or.inl ⟨inside, rfl⟩
  | @existsAgain r c now fresh old waits unused =>
    have idle : c.updating = false := by
      refine Bool.eq_false_iff.2 fun updating => marked.holds c (List.mem_of_getElem? old) updating ?_
      rw [held, (marked.sound.waiting c (List.mem_of_getElem? old) waits).1]
      split <;> rfl
    have holds (node : Option Nat) : ∀ d ∈ s.requests.set r { c with node := node, waiting := false },
        d.updating = true → held d ≠ none := by
      intro d mem updating
      rcases List.mem_or_eq_of_mem_set mem with before | rfl
      · exact marked.holds d before updating
      · rw [idle] at updating
        cases updating
    have updaters (d : Req) (idle' : d.updating = false) {next : State}
        (requests : next.requests = s.requests.set r d) (b : Nat) : next.updaters b = s.updaters b := by
      have counts := updaters_set old requests b
      rw [refreshes_idle idle, refreshes_idle idle'] at counts
      exact counts
    cases fresh with
    | some b =>
      exact marked.same sound (holds _) (updaters { c with node := some b, waiting := false } idle rfl)
        (entered (fun _ inside => (List.mem_cons.1 inside).imp_right fun old => List.erase_subset old) rfl
          (unused b rfl) rfl)
    | none =>
      refine marked.same sound (holds c.node) (updaters { c with waiting := false } idle rfl) fun _ inside => ?_
      exact Or.inl ⟨inside, rfl⟩
  | @read r b c bodyStart uniq fsSize old isHeld =>
    unfold readNode at sound ⊢
    split at sound
    · rename_i cold
      rw [if_pos cold]
      refine marked.same sound marked.holds (fun _ => rfl) fun b' inside => Or.inl ⟨inside, ?_⟩
      refine kept_updating rfl ?_ b'
      rfl
    · rename_i warm
      rw [if_neg warm]
      exact marked
  | @stale r b c old isHeld =>
    unfold staleNode at sound ⊢
    split at sound
    · rename_i busy
      rw [if_pos busy]
      exact marked
    · rename_i free
      rw [if_neg free]
      have clear : (s.nodes b).updating = false := Bool.eq_false_iff.2 free
      have idle : c.updating = false := Bool.eq_false_iff.2 fun updating => free (marked.flag old isHeld updating)
      refine marked.change sound old isHeld rfl (fun _ => isHeld) (List.Subset.refl _)
        (fun b' other => setNode_other s b _ other) ?_
      rw [clear, idle]
      exact congrArg (fun node => node.updating.toNat + 0) (setNode_self s b { s.nodes b with updating := true })
  | @update r b c renamed uniq bodyStart fsSize old isHeld =>
    have same : c.updating = (s.nodes b).updating :=
      Bool.eq_iff_iff.2 ⟨marked.flag old isHeld, meets.2 c old b isHeld⟩
    refine marked.change sound old isHeld rfl (fun never => by cases never) (List.Subset.refl _)
      (fun b' other => setNode_other _ b _ other) ?_
    have clear : ((ngxHttpFileCacheUpdate s r c b renamed uniq bodyStart fsSize).nodes b).updating = false :=
      congrArg Node.updating (setNode_self _ b _)
    rw [clear, same, Nat.add_comm]
  | @free r b c error validSec validMsec old isHeld =>
    have flag := marked.flag old isHeld
    have own : (freeNode c error validSec validMsec (s.nodes b)).updating.toNat + c.updating.toNat =
        (s.nodes b).updating.toNat + false.toNat := by
      rw [(freeNode_uses c error validMsec validSec _).2]
      cases updating : c.updating with
      | false => rw [Bool.not_false, Bool.and_true]
      | true =>
        rw [flag updating]
        rfl
    have here := setNode_self s b (freeNode c error validSec validMsec (s.nodes b))
    unfold ngxHttpFileCacheFree at sound ⊢
    dsimp only at sound ⊢
    split at sound
    · rename_i removed
      rw [if_pos removed]
      refine marked.change sound old isHeld rfl (fun never => by cases never) List.erase_subset
        (fun b' other => setNode_other s b _ other) ?_
      exact (congrArg (fun node => node.updating.toNat + c.updating.toNat) here).trans own
    · rename_i kept
      rw [if_neg kept]
      refine marked.change sound old isHeld rfl (fun never => by cases never) (List.Subset.refl _)
        (fun b' other => setNode_other s b _ other) ?_
      exact (congrArg (fun node => node.updating.toNat + c.updating.toNat) here).trans own
  | @expire now => exact marked.quiet sound (quiet_expire s now)
  | forcedExpire => exact marked.quiet sound (quiet_forcedExpire s)
  | @deleted b deleting => exact marked.quiet sound (quiet_deleted s b)
  | @add key now fsSize found fresh finds unused =>
    cases found with
    | some b => exact marked.quiet sound (quiet_touch finds.1 _)
    | none =>
      cases fresh with
      | some b =>
        exact marked.same sound marked.holds (fun _ => rfl)
          (entered (fun _ inside => (List.mem_cons.1 inside).imp_right fun old => List.erase_subset old) rfl
            (unused b rfl) rfl)
      | none => exact marked
  | loaded => exact marked.quiet sound (quiet_loaded s)

theorem Marked.init (memory : Nat → Node) (inactive : Int) (cold : Bool) :
    Marked (State.init memory inactive cold) :=
  ⟨Sound.init memory inactive cold, fun _ mem => absurd mem List.not_mem_nil, fun _ mem => absurd mem List.not_mem_nil⟩

end Updating

/-- In every run in which only a request that refreshes a node stores a response under it while it is
refreshed, at most one request refreshes a node, and the flag of the node says whether one does. -/
theorem one_updating (memory : Nat → Node) (inactive : Int) (cold : Bool) (actions : List Action) (s : State)
    (performed : run step (State.init memory inactive cold) actions = some s)
    (meets : Meets step Refreshing (State.init memory inactive cold) actions) :
    ∀ a ∈ s.queue, s.updaters a ≤ 1 ∧ ((s.nodes a).updating = true ↔ s.updaters a = 1) := by
  have marked : Marked s := @run_history _ _ step Refreshing (fun _ state => Marked state) actions
    (fun _ _ _ _ _ before meets stepped => before.step meets stepped) [] _ (Marked.init memory inactive cold) s meets
    performed
  intro a inside
  rw [marked.one a inside]
  cases (s.nodes a).updating with
  | false => exact ⟨Nat.zero_le 1, (fun never => by cases never), (fun never => by cases never)⟩
  | true => exact ⟨Nat.le_refl 1, fun _ => rfl, fun _ => rfl⟩

/-- A response is stored and read when it is no longer valid. -/
def refreshed : List Action :=
  [.exists_ 0 1 0 none (some 1), .update 0 true 7 9 5, .exists_ 0 1 10 (some 1) none, .stale 1]

theorem one_updating_refreshed :
    ∃ s, run step (State.init (fun _ => blank) 600 false) refreshed = some s ∧ s.updaters 1 ≤ 1 ∧
      ((s.nodes 1).updating = true ↔ s.updaters 1 = 1) := by
  have right := one_updating (fun _ => blank) 600 false refreshed _ rfl (by decide +kernel)
  exact ⟨_, rfl, right 1 (by decide +kernel)⟩

/-- Two requests miss; the second one stores its response while a third refreshes that of the first. -/
def storedLate : List Action :=
  [.exists_ 0 1 0 none (some 1), .exists_ 0 1 0 (some 1) none, .update 0 true 7 9 5,
    .exists_ 0 1 10 (some 1) none, .stale 2, .update 1 true 8 9 5, .exists_ 0 1 11 (some 1) none, .stale 3]

/-- Two requests refresh the node. -/
theorem two_updating :
    ∃ s, run step (State.init (fun _ => blank) 600 false) storedLate = some s ∧ 1 ∈ s.queue ∧
      ¬s.updaters 1 ≤ 1 :=
  ⟨_, rfl, by decide +kernel, by decide +kernel⟩

end NgxFormal.Http.FileCache
