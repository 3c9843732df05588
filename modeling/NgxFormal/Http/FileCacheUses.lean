import NgxFormal.Http.FileCacheCount

/-! The answers to the requests for one key whose responses are not stored. -/

namespace NgxFormal.Http.FileCache

section Steps

variable {s next : State} {a b r : Nat} {node : Node} {action : Action}

/-- No request is touched, no node comes into the tree, and the nodes keep their uses and their flag. -/
structure Quiet (s next : State) : Prop where
  queue : next.queue ⊆ s.queue
  requests : next.requests = s.requests
  nodes : ∀ b, (next.nodes b).uses = (s.nodes b).uses ∧ (next.nodes b).updating = (s.nodes b).updating

theorem kept_uses (nodes : next.nodes = Function.update s.nodes a node) (uses : node.uses = (s.nodes a).uses)
    (b : Nat) : (next.nodes b).uses = (s.nodes b).uses := by
  rw [nodes]
  by_cases same : b = a
  · rw [same, Function.update_self]
    exact uses
  · rw [Function.update_of_ne same]

theorem kept_updating (nodes : next.nodes = Function.update s.nodes a node)
    (updating : node.updating = (s.nodes a).updating) (b : Nat) :
    (next.nodes b).updating = (s.nodes b).updating := by
  rw [nodes]
  by_cases same : b = a
  · rw [same, Function.update_self]
    exact updating
  · rw [Function.update_of_ne same]

theorem kept_nodes (nodes : next.nodes = Function.update s.nodes a node) (uses : node.uses = (s.nodes a).uses)
    (updating : node.updating = (s.nodes a).updating) (b : Nat) :
    (next.nodes b).uses = (s.nodes b).uses ∧ (next.nodes b).updating = (s.nodes b).updating :=
  ⟨kept_uses nodes uses b, kept_updating nodes updating b⟩

theorem quiet_refl (s : State) : Quiet s s := ⟨List.Subset.refl _, rfl, fun _ => ⟨rfl, rfl⟩⟩

theorem quiet_delete (s : State) (a : Nat) : Quiet s (deleteNode s a) := by
  unfold deleteNode
  dsimp only
  split
  · exact ⟨List.Subset.refl _, rfl, kept_nodes rfl rfl rfl⟩
  · split
    · exact ⟨List.erase_subset, rfl, fun _ => ⟨rfl, rfl⟩⟩
    · exact quiet_refl s

theorem quiet_deleted (s : State) (a : Nat) : Quiet s (deletedNode s a) := by
  unfold deletedNode
  dsimp only
  split
  · exact ⟨List.erase_subset, rfl, kept_nodes rfl rfl rfl⟩
  · exact ⟨List.Subset.refl _, rfl, kept_nodes rfl rfl rfl⟩

theorem quiet_touch (inside : a ∈ s.queue) (expire : Int) :
    Quiet s ((s.setNode a { s.nodes a with expire := expire }).toHead a) :=
  ⟨fun _ mem => (toHead_perm inside).subset mem, rfl, kept_nodes rfl rfl rfl⟩

theorem quiet_expire (s : State) (now : Int) : Quiet s (ngxHttpFileCacheExpire s now) := by
  rcases expire_cases s now with same | ⟨a, _, _, same⟩ | ⟨a, inside, same⟩
  · rw [same]
    exact quiet_refl s
  · rw [same]
    exact quiet_delete s a
  · rw [same]
    exact quiet_touch inside _

theorem quiet_forcedExpire (s : State) : Quiet s (ngxHttpFileCacheForcedExpire s) := by
  rcases forcedExpire_cases s with same | ⟨a, _, _, same⟩
  · rw [same]
    exact quiet_refl s
  · rw [same]
    exact quiet_delete s a

theorem quiet_loaded (s : State) : Quiet s { s with cold := false } :=
  ⟨List.Subset.refl _, rfl, fun _ => ⟨rfl, rfl⟩⟩

/-- What `ngx_http_file_cache_exists` answers a request that gets the node. -/
def answer (s : State) (a : Nat) : Action → Option Rc
  | .exists_ key minUses now found fresh =>
    if found.or fresh = some a then (ngxHttpFileCacheExists s key minUses now found fresh).1 else none
  | .existsAgain r now fresh =>
    if fresh = some a then s.requests[r]?.map fun c => (existsAgain s r c now fresh).1 else none
  | _ => none

def Asks (minUses : Nat) : Action → Prop
  | .exists_ _ asked _ _ _ => asked = minUses
  | _ => True

/-- The node is in the tree, and nothing has been stored under it. -/
structure Stays (a : Nat) (s : State) : Prop where
  inTree : a ∈ s.queue
  error : (s.nodes a).error = 0
  exists_ : (s.nodes a).exists_ = false

/-- The runs from the request on that makes the node, with the answers. -/
inductive Asked (a minUses : Nat) : State → List Rc → Prop
  | first {s next : State} {action : Action} (outside : a ∉ s.queue) (asks : Asks minUses action)
      (stepped : step s action = some next) (stays : Stays a next) :
      Asked a minUses next (answer s a action).toList
  | later {s next : State} {action : Action} {answers : List Rc} (before : Asked a minUses s answers)
      (asks : Asks minUses action) (stepped : step s action = some next) (stays : Stays a next) :
      Asked a minUses next (answers ++ (answer s a action).toList)

/-- A step makes the node, or asks for it, or does not touch its uses. -/
structure Told (minUses : Nat) (s : State) (a : Nat) (action : Action) (next : State) : Prop where
  makes : a ∉ s.queue → answer s a action = some .declined ∧ (next.nodes a).uses = 1
  counts : a ∈ s.queue → (answer s a action = none ∧ (next.nodes a).uses = (s.nodes a).uses) ∨
    ((next.nodes a).uses = (s.nodes a).uses + 1 ∧
      answer s a action = some (if minUses ≤ ((s.nodes a).uses + 1).toNat then .ok else .again))

variable {minUses : Nat}

theorem told_same (inside : a ∈ s.queue) (none_ : answer s a action = none)
    (uses : (next.nodes a).uses = (s.nodes a).uses) : Told minUses s a action next :=
  ⟨fun outside => absurd inside outside, fun _ => Or.inl ⟨none_, uses⟩⟩

theorem Quiet.told (quiet : Quiet s next) (none_ : answer s a action = none) (stays : Stays a next) :
    Told minUses s a action next := told_same (quiet.queue stays.inTree) none_ (quiet.nodes a).1

theorem takeNode_asked (now : Int) (minUses : Nat) (error : node.error = 0) (exists_ : node.exists_ = false) :
    takeNode now minUses node = (if minUses ≤ (node.uses + 1).toNat then .ok else .again,
      { node with uses := node.uses + 1, count := node.count + 1 }) := by
  unfold takeNode
  dsimp only
  rw [if_neg (not_not.2 error), exists_]
  by_cases many : minUses ≤ (node.uses + 1).toNat
  · rw [if_pos (Or.inr many), if_pos many]
  · rw [if_neg (by simpa using many), if_neg many]

theorem freeNode_uses (c : Req) (error validMsec : BitVec 10) (validSec : Int) (node : Node) :
    (freeNode c error validSec validMsec node).uses = node.uses ∧
      (freeNode c error validSec validMsec node).updating = (node.updating && !c.updating) := by
  unfold freeNode
  dsimp only
  split_ifs <;> exact ⟨rfl, rfl⟩

theorem told_exists {key : Key} {now : Int} {found fresh : Option Nat} (finds : Finds s key found)
    (unused : Unused s fresh) (before : a ∈ s.queue → Stays a s)
    (stays : Stays a (ngxHttpFileCacheExists s key minUses now found fresh).2) :
    Told minUses s a (.exists_ key minUses now found fresh)
      (ngxHttpFileCacheExists s key minUses now found fresh).2 := by
  match found, fresh with
  | some b, _ =>
    have inside : a ∈ s.queue := (toHead_perm finds.1).subset stays.inTree
    by_cases same : b = a
    · subst same
      have old := before inside
      have taken := takeNode_asked now minUses old.error old.exists_
      refine ⟨fun outside => absurd inside outside, fun _ => Or.inr ⟨?_, ?_⟩⟩
      · dsimp only [ngxHttpFileCacheExists]
        rw [taken]
        exact congrArg Node.uses (setNode_self s b _)
      · dsimp only [answer, ngxHttpFileCacheExists]
        rw [taken]
        exact if_pos rfl
    · refine told_same inside (if_neg fun is => same (Option.some.inj is)) ?_
      exact congrArg Node.uses (setNode_other s b _ (Ne.symm same))
  | none, some b =>
    have outside : b ∉ s.queue := unused b rfl
    by_cases same : b = a
    · subst same
      exact ⟨fun _ => ⟨if_pos rfl, congrArg Node.uses (setNode_self s b _)⟩, fun inside => absurd inside outside⟩
    · have inside : a ∈ s.queue := List.erase_subset
        ((List.mem_cons.1 stays.inTree).resolve_left fun is => same is.symm)
      refine told_same inside (if_neg fun is => same (Option.some.inj is)) ?_
      exact congrArg Node.uses (setNode_other s b _ (Ne.symm same))
  | none, none => exact told_same stays.inTree (by simp [answer]) rfl

theorem told_existsAgain {now : Int} {c : Req} {fresh : Option Nat} (old : s.requests[r]? = some c)
    (unused : Unused s fresh) (stays : Stays a (existsAgain s r c now fresh).2) :
    Told minUses s a (.existsAgain r now fresh) (existsAgain s r c now fresh).2 := by
  match fresh with
  | some b =>
    have outside : b ∉ s.queue := unused b rfl
    by_cases same : b = a
    · subst same
      refine ⟨fun _ => ⟨?_, congrArg Node.uses (setNode_self s b _)⟩, fun inside => absurd inside outside⟩
      rw [answer, if_pos rfl, old]
      rfl
    · have inside : a ∈ s.queue := List.erase_subset
        ((List.mem_cons.1 stays.inTree).resolve_left fun is => same is.symm)
      refine told_same inside (if_neg fun is => same (Option.some.inj is)) ?_
      exact congrArg Node.uses (setNode_other s b _ (Ne.symm same))
  | none => exact told_same stays.inTree (by simp [answer]) rfl

theorem told_step (asks : Asks minUses action) (before : a ∈ s.queue → Stays a s)
    (stepped : step s action = some next) (stays : Stays a next) : Told minUses s a action next := by
  cases step_cases stepped with
  | updated => exact (quiet_refl s).told rfl stays
  | freed => exact (quiet_refl s).told rfl stays
  | @exists_ key asked now found fresh finds unused =>
    obtain rfl : asked = minUses := asks
    exact told_exists finds unused before stays
  | existsAgain old waits unused => exact told_existsAgain old unused stays
  | @read r b c bodyStart uniq fsSize old isHeld =>
    unfold readNode at stays ⊢
    split
    · rename_i cold
      rw [if_pos cold] at stays
      refine told_same stays.inTree rfl ?_
      by_cases same : a = b
      · have stored := stays.exists_
        rw [same] at stored
        dsimp only at stored
        rw [setNode_self] at stored
        cases stored
      · exact congrArg Node.uses (setNode_other s b _ same)
    · rename_i warm
      rw [if_neg warm] at stays
      exact (quiet_refl s).told rfl stays
  | @stale r b c old isHeld =>
    unfold staleNode at stays ⊢
    split
    · rename_i updating
      rw [if_pos updating] at stays
      exact told_same stays.inTree rfl rfl
    · rename_i free
      rw [if_neg free] at stays
      refine told_same stays.inTree rfl (kept_uses rfl ?_ a)
      rfl
  | update old isHeld =>
    refine told_same stays.inTree rfl (kept_uses rfl ?_ a)
    rfl
  | @free r b c error validSec validMsec old isHeld =>
    have uses : ((ngxHttpFileCacheFree s r c b error validSec validMsec).nodes a).uses = (s.nodes a).uses := by
      have kept : ((s.setNode b (freeNode c error validSec validMsec (s.nodes b))).nodes a).uses =
          (s.nodes a).uses :=
        kept_uses rfl (freeNode_uses c error validMsec validSec _).1 a
      unfold ngxHttpFileCacheFree
      dsimp only
      split
      · exact kept
      · exact kept
    have inside : a ∈ s.queue := by
      have mem := stays.inTree
      unfold ngxHttpFileCacheFree at mem
      dsimp only at mem
      split at mem
      · exact List.erase_subset mem
      · exact mem
    exact told_same inside rfl uses
  | @expire now => exact (quiet_expire s now).told rfl stays
  | forcedExpire => exact (quiet_forcedExpire s).told rfl stays
  | @deleted b deleting => exact (quiet_deleted s b).told rfl stays
  | @add key now fsSize found fresh finds unused =>
    cases found with
    | some b => exact (quiet_touch finds.1 _).told rfl stays
    | none =>
      cases fresh with
      | some b =>
        by_cases same : a = b
        · have stored := stays.exists_
          rw [same] at stored
          dsimp only [ngxHttpFileCacheAdd] at stored
          rw [State.toHead, setNode_self] at stored
          cases stored
        · refine told_same (List.erase_subset ((List.mem_cons.1 stays.inTree).resolve_left same)) rfl ?_
          exact congrArg Node.uses (setNode_other s b _ same)
      | none => exact (quiet_refl s).told rfl stays
  | loaded => exact (quiet_loaded s).told rfl stays

end Steps

/-- What the `k`-th request is answered. -/
def kthAnswer (minUses k : Nat) : Rc := if k = 1 then .declined else if minUses ≤ k % 2 ^ 10 then .ok else .again

variable {a minUses : Nat} {s : State} {answers : List Rc}

theorem kthAnswer_snoc (more : ∀ k, k < answers.length → answers[k]? = some (kthAnswer minUses (k + 1))) {rc : Rc}
    (last : rc = kthAnswer minUses (answers.length + 1)) :
    ∀ k, k < (answers ++ [rc]).length → (answers ++ [rc])[k]? = some (kthAnswer minUses (k + 1)) := by
  intro k inside
  rw [List.length_append, List.length_singleton] at inside
  rcases Nat.lt_or_eq_of_le (Nat.le_of_lt_succ inside) with old | rfl
  · rw [List.getElem?_append_left old]
    exact more k old
  · rw [List.getElem?_concat_length, last]

/-- The uses are the number of requests modulo `2^10`. -/
theorem Asked.uses (asked : Asked a minUses s answers) :
    Stays a s ∧ answers ≠ [] ∧ (s.nodes a).uses = BitVec.ofNat 10 answers.length ∧
      ∀ k, k < answers.length → answers[k]? = some (kthAnswer minUses (k + 1)) := by
  induction asked with
  | first outside asks stepped stays =>
    obtain ⟨told, uses⟩ := (told_step asks (fun inside => absurd inside outside) stepped stays).makes outside
    rw [told]
    refine ⟨stays, List.cons_ne_nil _ _, uses, fun k inside => ?_⟩
    obtain rfl : k = 0 := Nat.lt_one_iff.1 inside
    rfl
  | later before asks stepped stays ih =>
    rename_i answers
    obtain ⟨here, some_, uses, right⟩ := ih
    rcases (told_step asks (fun _ => here) stepped stays).counts here.inTree with ⟨told, same⟩ | ⟨more, told⟩
    · rw [told, Option.toList_none, List.append_nil, same]
      exact ⟨stays, some_, uses, right⟩
    · have sum : BitVec.ofNat 10 answers.length + 1 = BitVec.ofNat 10 (answers.length + 1) :=
        (BitVec.ofNat_add answers.length 1).symm
      rw [uses, sum, BitVec.toNat_ofNat] at told
      rw [told, Option.toList_some]
      refine ⟨stays, by simp, by rw [more, uses, sum, List.length_append]; rfl, kthAnswer_snoc right ?_⟩
      rw [kthAnswer, if_neg fun one => some_ (List.eq_nil_of_length_eq_zero (Nat.succ.inj one))]

def wantedAnswer (minUses k : Nat) : Rc := if k = 1 then .declined else if k < minUses then .again else .ok

/-- A zone with nothing in it. -/
def noNodes : State := .init (fun _ => blank) 600 false

theorem asked_once : Asked 1 2 (ngxHttpFileCacheExists noNodes 0 2 0 none (some 1)).2 [.declined] :=
  @Asked.first 1 2 noNodes _ (.exists_ 0 2 0 none (some 1)) List.not_mem_nil rfl rfl ⟨by decide, by decide, by decide⟩

/-- Any number of requests can ask for the node. -/
theorem asked_many (k : Nat) : ∃ s answers, Asked 1 2 s answers ∧ answers.length = k + 1 ∧ (s.nodes 1).key = 0 := by
  induction k with
  | zero => exact ⟨_, _, asked_once, rfl, by decide⟩
  | succ k ih =>
    obtain ⟨s, answers, asked, length, key⟩ := ih
    obtain ⟨here, _, _, _⟩ := asked.uses
    have stepped : step s (.exists_ 0 2 0 (some 1) none) =
        some (ngxHttpFileCacheExists s 0 2 0 (some 1) none).2 :=
      if_pos ⟨⟨here.inTree, key⟩, fun _ absurd => by cases absurd⟩
    have taken := takeNode_asked 0 2 here.error here.exists_
    have node : (ngxHttpFileCacheExists s 0 2 0 (some 1) none).2.nodes 1 =
        { (takeNode 0 2 (s.nodes 1)).2 with expire := 0 + s.inactive } := setNode_self s 1 _
    rw [taken] at node
    have stays : Stays 1 (ngxHttpFileCacheExists s 0 2 0 (some 1) none).2 := by
      refine ⟨List.mem_cons_self, ?_, ?_⟩
      · rw [node]
        exact here.error
      · rw [node]
        exact here.exists_
    have asks : Asks 2 (.exists_ 0 2 0 (some 1) none) := rfl
    refine ⟨_, _, asked.later asks stepped stays, ?_, by rw [node]; exact key⟩
    rcases (told_step asks (fun _ => here) stepped stays).counts here.inTree with ⟨told, _⟩ | ⟨_, told⟩
    · rw [answer, Option.some_or, if_pos rfl] at told
      cases told
    · rw [told, Option.toList_some, List.length_append, length]
      rfl

end NgxFormal.Http.FileCache
