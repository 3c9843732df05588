import NgxFormal.Http.FileCacheCount

/-! The keys of the nodes in the tree. -/

namespace NgxFormal.Http.FileCache

open Lib

def Distinct (s : State) : Prop := s.queue.Pairwise fun a b => (s.nodes a).key ≠ (s.nodes b).key

section Changes

variable {s next : State} {a b : Nat} {node : Node} {key : Key}

theorem Distinct.same (distinct : Distinct s) (queue : next.queue.Subperm s.queue)
    (keys : ∀ b, (next.nodes b).key = (s.nodes b).key) : Distinct next := by
  have before : next.queue.Pairwise fun a b => (s.nodes a).key ≠ (s.nodes b).key := by
    obtain ⟨queue, perm, part⟩ := queue
    exact perm.pairwise (List.Pairwise.sublist part distinct) fun different => Ne.symm different
  refine before.imp ?_
  intro a b different
  rw [keys, keys]
  exact different

theorem setNode_key (kept : node.key = (s.nodes a).key) (b : Nat) :
    ((s.setNode a node).nodes b).key = (s.nodes b).key := by
  by_cases same : b = a
  · rw [same, setNode_self]
    exact kept
  · rw [setNode_other _ _ _ same]

theorem Distinct.change (distinct : Distinct s) (queue : next.queue.Subperm s.queue)
    (nodes : next.nodes = Function.update s.nodes a node) (kept : node.key = (s.nodes a).key) :
    Distinct next := by
  refine distinct.same queue fun b => ?_
  rw [nodes]
  exact setNode_key kept b

theorem Distinct.remove (distinct : Distinct s) (a : Nat) : Distinct (s.remove a) :=
  distinct.same List.erase_sublist.subperm fun _ => rfl

theorem Distinct.insert (distinct : Distinct s) (outside : a ∉ s.queue) (isKey : node.key = key)
    (alone : ∀ b ∈ s.queue, (s.nodes b).key ≠ key) : Distinct ((s.setNode a node).toHead a) := by
  have queue : ((s.setNode a node).toHead a).queue = a :: s.queue :=
    @toHead_new (s.setNode a node) a outside
  have others : ∀ b ∈ s.queue, (((s.setNode a node).toHead a).nodes b) = s.nodes b := fun b inside =>
    setNode_other _ _ _ fun same => outside (same ▸ inside)
  have here : ((s.setNode a node).toHead a).nodes a = node := setNode_self _ _ _
  rw [Distinct, queue, List.pairwise_cons]
  constructor
  · intro b inside
    rw [here, others b inside, isKey]
    exact Ne.symm (alone b inside)
  · refine List.Pairwise.imp_of_mem ?_ distinct
    intro b c insideB insideC different
    rw [others b insideB, others c insideC]
    exact different

theorem Distinct.delete (distinct : Distinct s) (a : Nat) : Distinct (deleteNode s a) := by
  unfold deleteNode
  dsimp only
  split
  · exact distinct.change (List.Subperm.refl _) rfl rfl
  · split
    · exact distinct.remove a
    · exact distinct

theorem Distinct.deleted (distinct : Distinct s) (a : Nat) : Distinct (deletedNode s a) := by
  unfold deletedNode
  dsimp only
  have kept : Distinct { s.setNode a { s.nodes a with
      count := (s.nodes a).count - 1
      deleting := false } with deletes := s.deletes.erase a } :=
    distinct.change (List.Subperm.refl _) rfl rfl
  split
  · exact kept.remove a
  · exact kept

end Changes

section Steps

variable {s : State} {a r : Nat} {c : Req} {now : Int}

theorem freeNode_key (c : Req) (error validMsec : BitVec 10) (validSec : Int) (node : Node) :
    (freeNode c error validSec validMsec node).key = node.key := by
  unfold freeNode
  dsimp only
  split
  · split
    · rfl
    · rfl
  · rfl

/-- No node has the key of a request that gets memory on its second attempt. -/
def Alone (s : State) : Action → Prop
  | .existsAgain r _ (some _) => ∀ c ∈ s.requests[r]?, ∀ b ∈ s.queue, (s.nodes b).key ≠ c.key
  | _ => True

instance (s : State) : (action : Action) → Decidable (Alone s action)
  | .existsAgain r _ (some _) =>
    inferInstanceAs (Decidable (∀ c ∈ s.requests[r]?, ∀ b ∈ s.queue, (s.nodes b).key ≠ c.key))
  | .existsAgain _ _ none => isTrue trivial
  | .exists_ .. | .read .. | .stale _ | .update .. | .free .. | .expire _ | .forcedExpire
  | .deleted _ | .add .. | .loaded => isTrue trivial

theorem Distinct.exists_ {key : Key} {minUses : Nat} {found fresh : Option Nat}
    (distinct : Distinct s) (finds : Finds s key found) (unused : Unused s fresh) :
    Distinct (ngxHttpFileCacheExists s key minUses now found fresh).2 := by
  match found, fresh with
  | some a, _ =>
    obtain ⟨inside, _⟩ := finds
    obtain ⟨_, _, kept⟩ := takeNode_spec now minUses (s.nodes a)
    exact distinct.change (toHead_perm inside).subperm rfl kept
  | none, some a =>
    have entered : Distinct ((s.setNode a { newNode key (s.nodes a) with
        expire := now + s.inactive }).toHead a) :=
      distinct.insert (unused a rfl) rfl finds
    exact entered.same (List.Subperm.refl _) fun _ => rfl
  | none, none => exact distinct

theorem Distinct.existsAgain {fresh : Option Nat} (distinct : Distinct s)
    (old : s.requests[r]? = some c) (unused : Unused s fresh)
    (alone : Alone s (.existsAgain r now fresh)) : Distinct (existsAgain s r c now fresh).2 := by
  match fresh with
  | some a =>
    have entered : Distinct ((s.setNode a { newNode c.key (s.nodes a) with
        expire := now + s.inactive }).toHead a) :=
      distinct.insert (unused a rfl) rfl (alone c old)
    exact entered.same (List.Subperm.refl _) fun _ => rfl
  | none => exact distinct

theorem Distinct.free {error validMsec : BitVec 10} {validSec : Int} (distinct : Distinct s) :
    Distinct (ngxHttpFileCacheFree s r c a error validSec validMsec) := by
  have kept : Distinct (s.setNode a (freeNode c error validSec validMsec (s.nodes a))) :=
    distinct.change (List.Subperm.refl _) rfl (freeNode_key c error validMsec validSec _)
  unfold ngxHttpFileCacheFree
  dsimp only
  split
  · exact (kept.remove a).same (List.Subperm.refl _) fun _ => rfl
  · exact kept.same (List.Subperm.refl _) fun _ => rfl

theorem Distinct.add {key : Key} {fsSize : Int} {found fresh : Option Nat} (distinct : Distinct s)
    (finds : Finds s key found) (unused : Unused s fresh) :
    Distinct (ngxHttpFileCacheAdd s key now fsSize found fresh) := by
  match found, fresh with
  | some a, _ =>
    exact distinct.change (toHead_perm finds.1).subperm rfl rfl
  | none, some a =>
    have entered : Distinct ((s.setNode a { newNode key (s.nodes a) with
        count := 0
        exists_ := true
        fsSize := fsSize
        expire := now + s.inactive }).toHead a) :=
      distinct.insert (unused a rfl) rfl finds
    exact entered.same (List.Subperm.refl _) fun _ => rfl
  | none, none => exact distinct

theorem Distinct.step {action : Action} {next : State} (distinct : Distinct s)
    (alone : Alone s action) (stepped : step s action = some next) : Distinct next := by
  cases step_cases stepped with
  | updated => exact distinct
  | freed => exact distinct
  | exists_ finds unused => exact distinct.exists_ finds unused
  | existsAgain old waits unused => exact distinct.existsAgain old unused alone
  | read old isHeld =>
    unfold readNode
    split
    · exact distinct.change (List.Subperm.refl _) rfl rfl
    · exact distinct
  | stale old isHeld =>
    unfold staleNode
    split
    · exact distinct
    · exact distinct.change (List.Subperm.refl _) rfl rfl
  | update old isHeld => exact distinct.change (List.Subperm.refl _) rfl rfl
  | free old isHeld => exact distinct.free
  | @expire now =>
    rcases expire_cases s now with same | ⟨a, _, _, deleted⟩ | ⟨a, inside, moved⟩
    · rw [same]
      exact distinct
    · rw [deleted]
      exact distinct.delete a
    · rw [moved]
      exact distinct.change (toHead_perm inside).subperm rfl rfl
  | forcedExpire =>
    rcases forcedExpire_cases s with same | ⟨a, _, _, deleted⟩
    · rw [same]
      exact distinct
    · rw [deleted]
      exact distinct.delete a
  | @deleted a deleting => exact distinct.deleted a
  | add finds unused => exact distinct.add finds unused
  | loaded => exact distinct

end Steps

/-- In every run in which no request gets memory on its second attempt while a node has its key, no
two nodes of the tree have one key. -/
theorem keys_distinct (memory : Nat → Node) (inactive : Int) (cold : Bool) (actions : List Action)
    (s : State) (performed : run step (State.init memory inactive cold) actions = some s)
    (meets : Meets step Alone (State.init memory inactive cold) actions) :
    s.queue.Pairwise fun a b => (s.nodes a).key ≠ (s.nodes b).key := by
  have start : Distinct (State.init memory inactive cold) := List.Pairwise.nil
  exact @run_history _ _ step Alone (fun _ state => Distinct state) actions
    (fun _ _ _ _ _ before alone stepped => before.step alone stepped) [] _ start s meets performed

/-- The loader has filled the zone, and two requests wait until the manager has freed two nodes. -/
def twoWaiting (second : Key) : List Action :=
  [.add 5 0 1 none (some 1), .add 6 0 1 none (some 2), .exists_ 7 1 0 none none,
    .exists_ second 1 0 none none, .forcedExpire, .deleted 1, .forcedExpire, .deleted 2,
    .existsAgain 0 0 (some 1), .existsAgain 1 0 (some 2)]

theorem keys_distinct_other_keys :
    ∃ s, run step (State.init (fun _ => blank) 600 true) (twoWaiting 8) = some s ∧ s.queue = [2, 1] ∧
      s.queue.Pairwise fun a b => (s.nodes a).key ≠ (s.nodes b).key :=
  ⟨_, rfl, by decide +kernel,
    keys_distinct (fun _ => blank) 600 true (twoWaiting 8) _ rfl (by decide +kernel)⟩

/-- Both requests insert a node when they wait for one key. -/
theorem keys_twice :
    ¬∀ (memory : Nat → Node) (inactive : Int) (cold : Bool) (actions : List Action) (s : State),
      run step (State.init memory inactive cold) actions = some s →
        s.queue.Pairwise fun a b => (s.nodes a).key ≠ (s.nodes b).key := by
  intro claim
  have distinct := claim (fun _ => blank) 600 true (twoWaiting 7) _ rfl
  revert distinct
  decide +kernel

end NgxFormal.Http.FileCache
