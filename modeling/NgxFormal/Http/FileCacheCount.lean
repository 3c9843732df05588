import NgxFormal.Http.FileCache
import NgxFormal.Lib.Runs

/-! The reference counts of the nodes. -/

namespace NgxFormal.Http.FileCache

open Lib

/-- Each node counts the requests that hold it and the deletion of its file, and what is held or
being deleted is in the tree. -/
structure Sound (s : State) : Prop where
  once : s.queue.Nodup
  deletesOnce : s.deletes.Nodup
  deletes : ∀ a ∈ s.deletes, a ∈ s.queue
  inTree : ∀ a, 0 < s.holders a → a ∈ s.queue
  count : ∀ a ∈ s.queue, (s.nodes a).count.toNat = s.holders a + s.deletes.count a
  flag : ∀ a ∈ s.queue, (s.nodes a).deleting = true ↔ a ∈ s.deletes
  waiting : ∀ c ∈ s.requests, c.waiting = true → c.node = none ∧ c.updated = false

section Counts

variable {s next : State} {a b r : Nat} {c d : Req}

def share (c : Req) (a : Nat) : Nat := if held c = some a then 1 else 0

theorem holders_append (requests : List Req) (c : Req) (a : Nat) :
    (requests ++ [c]).countP (fun c => held c == some a) =
      requests.countP (fun c => held c == some a) + share c a := by
  rw [List.countP_append, share]
  by_cases here : held c = some a
  · simp [here]
  · simp [here]

theorem holders_set {requests : List Req} (old : requests[r]? = some c) (d : Req) (a : Nat) :
    (requests.set r d).countP (fun c => held c == some a) + share c a =
      requests.countP (fun c => held c == some a) + share d a := by
  unfold share
  induction requests generalizing r with
  | nil => simp at old
  | cons first rest ih =>
    cases r with
    | zero =>
      obtain rfl : first = c := by simpa using old
      simp only [List.set_cons_zero, List.countP_cons, beq_iff_eq]
      omega
    | succ r =>
      have tail := @ih r (by simpa using old)
      simp only [List.set_cons_succ, List.countP_cons]
      omega

theorem Sound.change (sound : Sound s) (a : Nat) (queue : next.queue.Perm s.queue)
    (deletesOnce : next.deletes.Nodup) (deletes : ∀ b ∈ next.deletes, b ∈ s.queue)
    (waiting : ∀ c ∈ next.requests, c.waiting = true → c.node = none ∧ c.updated = false)
    (others : ∀ b, b ≠ a → (next.nodes b).count = (s.nodes b).count ∧
      (next.nodes b).deleting = (s.nodes b).deleting ∧ next.holders b = s.holders b ∧
      next.deletes.count b = s.deletes.count b)
    (inside : a ∈ s.queue)
    (count : (next.nodes a).count.toNat = next.holders a + next.deletes.count a)
    (flag : (next.nodes a).deleting = true ↔ a ∈ next.deletes) : Sound next := by
  refine ⟨queue.nodup_iff.mpr sound.once, deletesOnce, fun b member => queue.mem_iff.mpr (deletes b member),
    ?_, ?_, ?_, waiting⟩
  · intro b some_holder
    rw [queue.mem_iff]
    by_cases same : b = a
    · rw [same]
      exact inside
    · rw [(others b same).2.2.1] at some_holder
      exact sound.inTree b some_holder
  · intro b member
    by_cases same : b = a
    · rw [same]
      exact count
    · obtain ⟨counts, _, holders, dels⟩ := others b same
      rw [counts, holders, dels]
      exact sound.count b (queue.mem_iff.mp member)
  · intro b member
    by_cases same : b = a
    · rw [same]
      exact flag
    · obtain ⟨_, flags, _, dels⟩ := others b same
      have mem : b ∈ next.deletes ↔ b ∈ s.deletes := by
        rw [← List.count_pos_iff, ← List.count_pos_iff, dels]
      rw [flags, mem]
      exact sound.flag b (queue.mem_iff.mp member)

theorem Sound.remove (sound : Sound s) (inside : a ∈ s.queue) (none : (s.nodes a).count = 0) :
    Sound (s.remove a) := by
  have count := sound.count a inside
  rw [none] at count
  have zero : (0 : BitVec 20).toNat = 0 := rfl
  have noHolder : s.holders a = 0 := by omega
  have noDelete : a ∉ s.deletes := by
    rw [← List.count_eq_zero]
    omega
  have stays : ∀ b, b ∈ (s.remove a).queue ↔ b ≠ a ∧ b ∈ s.queue := fun b =>
    List.Nodup.mem_erase_iff sound.once
  refine ⟨sound.once.erase a, sound.deletesOnce, ?_, ?_, ?_, ?_, sound.waiting⟩
  · intro b member
    exact (stays b).mpr ⟨fun same => noDelete (same ▸ member), sound.deletes b member⟩
  · intro b some_holder
    refine (stays b).mpr ⟨?_, sound.inTree b some_holder⟩
    rintro rfl
    have here : 0 < s.holders b := some_holder
    omega
  · intro b member
    exact sound.count b ((stays b).mp member).2
  · intro b member
    exact sound.flag b ((stays b).mp member).2

theorem Sound.insert (sound : Sound s) (outside : a ∉ s.queue) (queue : next.queue.Perm (a :: s.queue))
    (deletes : next.deletes = s.deletes)
    (waiting : ∀ c ∈ next.requests, c.waiting = true → c.node = none ∧ c.updated = false)
    (others : ∀ b, b ≠ a → next.nodes b = s.nodes b ∧ next.holders b = s.holders b)
    (count : (next.nodes a).count.toNat = next.holders a)
    (flag : (next.nodes a).deleting = false) : Sound next := by
  have noDelete : a ∉ s.deletes := fun member => outside (sound.deletes a member)
  have inside : ∀ b, b ∈ next.queue ↔ b = a ∨ b ∈ s.queue := by
    intro b
    rw [queue.mem_iff, List.mem_cons]
  refine ⟨queue.nodup_iff.mpr (List.nodup_cons.mpr ⟨outside, sound.once⟩), ?_, ?_, ?_, ?_, ?_, waiting⟩
  · rw [deletes]
    exact sound.deletesOnce
  · intro b member
    rw [deletes] at member
    exact (inside b).mpr (Or.inr (sound.deletes b member))
  · intro b some_holder
    by_cases same : b = a
    · exact (inside b).mpr (Or.inl same)
    · rw [(others b same).2] at some_holder
      exact (inside b).mpr (Or.inr (sound.inTree b some_holder))
  · intro b member
    rw [deletes]
    by_cases same : b = a
    · rw [same, List.count_eq_zero.mpr noDelete]
      exact count
    · rw [(others b same).1, (others b same).2]
      exact sound.count b (((inside b).mp member).resolve_left same)
  · intro b member
    rw [deletes]
    by_cases same : b = a
    · rw [same, flag]
      simp [noDelete]
    · rw [(others b same).1]
      exact sound.flag b (((inside b).mp member).resolve_left same)

theorem count_succ (count : BitVec 20) (room : count.toNat + 1 < 2 ^ 20) :
    (count + 1).toNat = count.toNat + 1 := by
  rw [BitVec.toNat_add]
  exact Nat.mod_eq_of_lt room

theorem count_pred (count : BitVec 20) (positive : 0 < count.toNat) :
    (count - 1).toNat = count.toNat - 1 := by
  have small := count.isLt
  rw [BitVec.toNat_sub]
  have one : (1 : BitVec 20).toNat = 1 := rfl
  omega

theorem Sound.same (sound : Sound s)
    (nodes : ∀ b, (next.nodes b).count = (s.nodes b).count ∧
      (next.nodes b).deleting = (s.nodes b).deleting)
    (queue : next.queue.Perm s.queue) (deletes : next.deletes = s.deletes)
    (holders : ∀ b, next.holders b = s.holders b)
    (waiting : ∀ c ∈ next.requests, c.waiting = true → c.node = none ∧ c.updated = false) : Sound next := by
  refine ⟨queue.nodup_iff.mpr sound.once, ?_, ?_, ?_, ?_, ?_, waiting⟩
  · rw [deletes]
    exact sound.deletesOnce
  · intro b member
    rw [deletes] at member
    exact queue.mem_iff.mpr (sound.deletes b member)
  · intro b some_holder
    rw [holders] at some_holder
    exact queue.mem_iff.mpr (sound.inTree b some_holder)
  · intro b member
    rw [(nodes b).1, holders, deletes]
    exact sound.count b (queue.mem_iff.mp member)
  · intro b member
    rw [(nodes b).2, deletes]
    exact sound.flag b (queue.mem_iff.mp member)

theorem setNode_same {node : Node} (count : node.count = (s.nodes a).count)
    (flag : node.deleting = (s.nodes a).deleting) (b : Nat) :
    ((s.setNode a node).nodes b).count = (s.nodes b).count ∧
      ((s.setNode a node).nodes b).deleting = (s.nodes b).deleting := by
  by_cases same : b = a
  · subst same
    rw [setNode_self]
    exact ⟨count, flag⟩
  · rw [setNode_other _ _ _ same]
    exact ⟨rfl, rfl⟩

theorem toHead_perm (inside : a ∈ s.queue) : (s.toHead a).queue.Perm s.queue :=
  (List.perm_cons_erase inside).symm

theorem toHead_new (outside : a ∉ s.queue) : (s.toHead a).queue = a :: s.queue := by
  rw [State.toHead, List.erase_of_not_mem outside]

theorem takeNode_spec (now : Int) (minUses : Nat) (node : Node) :
    (takeNode now minUses node).2.count = node.count + 1 ∧
      (takeNode now minUses node).2.deleting = node.deleting ∧
      (takeNode now minUses node).2.key = node.key := by
  unfold takeNode
  dsimp only
  split
  · split
    · exact ⟨rfl, rfl, rfl⟩
    · exact ⟨rfl, rfl, rfl⟩
  · split
    · exact ⟨rfl, rfl, rfl⟩
    · exact ⟨rfl, rfl, rfl⟩

/-- The count of the node that is taken is below its limit. -/
def Room (s : State) : Action → Prop
  | .exists_ _ _ _ (some a) _ => (s.nodes a).count.toNat + 1 < 2 ^ 20
  | _ => True

instance (s : State) : (action : Action) → Decidable (Room s action)
  | .exists_ _ _ _ (some a) _ => inferInstanceAs (Decidable ((s.nodes a).count.toNat + 1 < 2 ^ 20))
  | .exists_ _ _ _ none _ => isTrue trivial
  | .existsAgain .. | .read .. | .stale _ | .update .. | .free .. | .expire _ | .forcedExpire
  | .deleted _ | .add .. | .loaded => isTrue trivial

theorem waiting_append (sound : Sound s) (fresh : c.waiting = true → c.node = none ∧ c.updated = false) :
    ∀ d ∈ s.requests ++ [c], d.waiting = true → d.node = none ∧ d.updated = false := by
  intro d member
  rcases List.mem_append.mp member with old | new
  · exact sound.waiting d old
  · rw [List.mem_singleton] at new
    rw [new]
    exact fresh

theorem waiting_set (sound : Sound s) (fresh : c.waiting = true → c.node = none ∧ c.updated = false) :
    ∀ d ∈ s.requests.set r c, d.waiting = true → d.node = none ∧ d.updated = false := by
  intro d member
  rcases List.mem_or_eq_of_mem_set member with old | rfl
  · exact sound.waiting d old
  · exact fresh

theorem Sound.take (sound : Sound s) (inside : a ∈ s.queue) {node : Node}
    (nodes : next.nodes = Function.update s.nodes a node) (queue : next.queue.Perm s.queue)
    (deletes : next.deletes = s.deletes) (requests : next.requests = s.requests ++ [c])
    (isHeld : held c = some a) (notWaiting : c.waiting = false)
    (count : node.count = (s.nodes a).count + 1) (room : (s.nodes a).count.toNat + 1 < 2 ^ 20)
    (flag : node.deleting = (s.nodes a).deleting) : Sound next := by
  have here : next.nodes a = node := by rw [nodes, Function.update_self]
  have holders : ∀ b, next.holders b = s.holders b + share c b := by
    intro b
    rw [State.holders, requests, holders_append]
    rfl
  refine sound.change a queue (by rw [deletes]; exact sound.deletesOnce)
    (by rw [deletes]; exact sound.deletes) ?_ ?_ inside ?_ ?_
  · rw [requests]
    refine waiting_append sound fun absurd => ?_
    rw [notWaiting] at absurd
    cases absurd
  · intro b other
    have none : share c b = 0 := by
      rw [share, isHeld]
      exact if_neg fun same => other (Option.some.inj same).symm
    rw [nodes, Function.update_of_ne other, holders, none, deletes]
    exact ⟨rfl, rfl, rfl, rfl⟩
  · have one : share c a = 1 := if_pos isHeld
    have old := sound.count a inside
    rw [here, count, count_succ _ room, holders, one, deletes]
    omega
  · rw [here, flag, deletes]
    exact sound.flag a inside

theorem Sound.create (sound : Sound s) (outside : a ∉ s.queue) {node : Node}
    (nodes : next.nodes = Function.update s.nodes a node) (queue : next.queue = a :: s.queue)
    (deletes : next.deletes = s.deletes) (count : node.count = 1) (flag : node.deleting = false)
    (holders : ∀ b, next.holders b = s.holders b + if b = a then 1 else 0)
    (waiting : ∀ c ∈ next.requests, c.waiting = true → c.node = none ∧ c.updated = false) : Sound next := by
  have here : next.nodes a = node := by rw [nodes, Function.update_self]
  have none : s.holders a = 0 := by
    rcases Nat.eq_zero_or_pos (s.holders a) with zero | positive
    · exact zero
    · exact (outside (sound.inTree a positive)).elim
  refine sound.insert outside (by rw [queue]) deletes waiting ?_ ?_ (by rw [here]; exact flag)
  · intro b other
    rw [nodes, Function.update_of_ne other, holders, if_neg other]
    exact ⟨rfl, rfl⟩
  · rw [here, count, holders, if_pos rfl, none]
    rfl

theorem Sound.release (sound : Sound s) {node : Node} (old : s.requests[r]? = some c)
    (isHeld : held c = some a) (nodes : next.nodes = Function.update s.nodes a node)
    (queue : next.queue = s.queue) (deletes : next.deletes = s.deletes)
    (requests : next.requests = s.requests.set r d) (released : held d = none)
    (kept : d.waiting = c.waiting) (count : node.count = (s.nodes a).count - 1) (flag : node.deleting = (s.nodes a).deleting) :
    Sound next ∧ a ∈ s.queue := by
  have here : next.nodes a = node := by rw [nodes, Function.update_self]
  have given : ∀ b, share d b = 0 := fun b => if_neg (by rw [released]; exact fun absurd => by cases absurd)
  have holders : ∀ b, next.holders b + share c b = s.holders b := by
    intro b
    have set := holders_set old d b
    rw [given, ← requests] at set
    exact set
  have positive : 0 < s.holders a := by
    have one : share c a = 1 := if_pos isHeld
    have some_share := holders a
    omega
  have inside := sound.inTree a positive
  refine ⟨sound.change a (by rw [queue]) (by rw [deletes]; exact sound.deletesOnce)
    (by rw [deletes]; exact sound.deletes) ?_ ?_ inside ?_ ?_, inside⟩
  · rw [requests]
    refine waiting_set sound fun waits => ?_
    obtain ⟨noNode, _⟩ := sound.waiting c (List.mem_of_getElem? old) (kept.symm.trans waits)
    rw [held, noNode, ite_self] at isHeld
    cases isHeld
  · intro b other
    have none : share c b = 0 := by
      rw [share, isHeld]
      exact if_neg fun same => other (Option.some.inj same).symm
    have same := holders b
    rw [none] at same
    rw [nodes, Function.update_of_ne other, deletes]
    exact ⟨rfl, rfl, same, rfl⟩
  · have one : share c a = 1 := if_pos isHeld
    have before := sound.count a inside
    have same := holders a
    rw [here, count, count_pred _ (by omega), deletes]
    omega
  · rw [here, flag, deletes]
    exact sound.flag a inside

end Counts

section Steps

variable {s : State} {a r : Nat} {c : Req} {now : Int}

theorem Sound.exists_ {key : Key} {minUses : Nat} {found fresh : Option Nat}
    (sound : Sound s) (finds : Finds s key found) (unused : Unused s fresh)
    (room : Room s (.exists_ key minUses now found fresh)) :
    Sound (ngxHttpFileCacheExists s key minUses now found fresh).2 := by
  match found, fresh with
  | some a, _ =>
    obtain ⟨inside, _⟩ := finds
    obtain ⟨counts, flags, _⟩ := takeNode_spec now minUses (s.nodes a)
    exact sound.take inside rfl (toHead_perm inside) rfl rfl rfl rfl counts room flags
  | none, some a =>
    have outside : a ∉ s.queue := unused a rfl
    refine sound.create outside rfl (toHead_new outside) rfl rfl rfl ?_
      (@waiting_append s _ sound fun absurd => by cases absurd)
    intro b
    have appended := holders_append s.requests ⟨key, minUses, some a, false, false, false⟩ b
    refine appended.trans (congrArg _ ?_)
    simp [share, held, eq_comm]
  | none, none =>
    refine sound.same (fun _ => ⟨rfl, rfl⟩) (List.Perm.refl _) rfl (fun b => ?_)
      (@waiting_append s _ sound fun _ => ⟨rfl, rfl⟩)
    have appended := holders_append s.requests ⟨key, minUses, none, true, false, false⟩ b
    refine appended.trans ?_
    simp [share, held, State.holders]

theorem holders_kept {next : State} {d : Req} (old : s.requests[r]? = some c)
    (requests : next.requests = s.requests.set r d) (same : held d = held c) (b : Nat) :
    next.holders b = s.holders b := by
  have set := holders_set old d b
  have shares : share d b = share c b := by rw [share, share, same]
  rw [← requests] at set
  have counts : next.holders b + share c b = s.holders b + share d b := set
  omega

theorem Sound.existsAgain {fresh : Option Nat} (sound : Sound s) (old : s.requests[r]? = some c)
    (waits : c.waiting = true) (unused : Unused s fresh) :
    Sound (existsAgain s r c now fresh).2 := by
  obtain ⟨noNode, notUpdated⟩ := sound.waiting c (List.mem_of_getElem? old) waits
  have waiting : ∀ node, ∀ d ∈ s.requests.set r { c with node := node, waiting := false },
      d.waiting = true → d.node = none ∧ d.updated = false := fun node =>
    waiting_set sound fun absurd => by cases absurd
  match fresh with
  | some a =>
    have outside : a ∉ s.queue := unused a rfl
    refine sound.create outside rfl (toHead_new outside) rfl rfl rfl (fun b => ?_) (waiting (some a))
    have set := holders_set old { c with node := some a, waiting := false } b
    have before : share c b = 0 := by simp [share, held, noNode]
    have after : share { c with node := some a, waiting := false } b = if b = a then 1 else 0 := by
      simp [share, held, notUpdated, eq_comm]
    rw [before, after] at set
    exact set
  | none =>
    refine sound.same (fun _ => ⟨rfl, rfl⟩) (List.Perm.refl _) rfl (holders_kept old rfl rfl) ?_
    exact waiting_set sound fun absurd => by cases absurd

theorem Sound.read {bodyStart uniq : Nat} {fsSize : Int} (sound : Sound s) :
    Sound (readNode s a bodyStart uniq fsSize) := by
  unfold readNode
  split
  · exact sound.same (setNode_same rfl rfl) (List.Perm.refl _) rfl (fun _ => rfl) sound.waiting
  · exact sound

theorem Sound.stale (sound : Sound s) (old : s.requests[r]? = some c) : Sound (staleNode s r c a) := by
  unfold staleNode
  split
  · exact sound
  · refine sound.same (setNode_same rfl rfl) (List.Perm.refl _) rfl (holders_kept old rfl rfl) ?_
    exact waiting_set sound fun waits => sound.waiting c (List.mem_of_getElem? old) waits

theorem Sound.update {renamed : Bool} {uniq bodyStart : Nat} {fsSize : Int} (sound : Sound s)
    (old : s.requests[r]? = some c) (isHeld : held c = some a) :
    Sound (ngxHttpFileCacheUpdate s r c a renamed uniq bodyStart fsSize) := by
  have result : Sound (ngxHttpFileCacheUpdate s r c a renamed uniq bodyStart fsSize) ∧ a ∈ s.queue :=
    sound.release old isHeld rfl rfl rfl rfl rfl rfl rfl rfl
  exact result.1

theorem freeNode_spec (c : Req) (error validMsec : BitVec 10) (validSec : Int) (node : Node) :
    (freeNode c error validSec validMsec node).count = node.count - 1 ∧
      (freeNode c error validSec validMsec node).deleting = node.deleting := by
  unfold freeNode
  dsimp only
  split
  · split
    · exact ⟨rfl, rfl⟩
    · exact ⟨rfl, rfl⟩
  · exact ⟨rfl, rfl⟩

theorem Sound.free {error validMsec : BitVec 10} {validSec : Int} (sound : Sound s)
    (old : s.requests[r]? = some c) (isHeld : held c = some a) :
    Sound (ngxHttpFileCacheFree s r c a error validSec validMsec) := by
  obtain ⟨counts, flags⟩ := freeNode_spec c error validMsec validSec (s.nodes a)
  unfold ngxHttpFileCacheFree
  dsimp only
  have result : ∀ node, Sound { s.setNode a (freeNode c error validSec validMsec (s.nodes a)) with
      requests := s.requests.set r { c with node := node, updated := true, updating := false } } ∧
      a ∈ s.queue := fun node =>
    sound.release old isHeld rfl rfl rfl rfl rfl rfl counts flags
  split
  · rename_i gone
    exact (result none).1.remove (result none).2 (by rw [← gone.2.2.1]; exact setNode_self _ _ _ ▸ rfl)
  · exact (result c.node).1

theorem Sound.delete (sound : Sound s) (inside : a ∈ s.queue) (unheld : (s.nodes a).count = 0) :
    Sound (deleteNode s a) := by
  unfold deleteNode
  dsimp only
  have count := sound.count a inside
  have zero : (s.nodes a).count.toNat = 0 := by rw [unheld]; rfl
  have notDeleting : a ∉ s.deletes := by
    rw [← List.count_eq_zero]
    omega
  by_cases exists_ : (s.nodes a).exists_ = true
  · rw [if_pos exists_]
    refine sound.change a (List.Perm.refl _) (List.nodup_cons.mpr ⟨notDeleting, sound.deletesOnce⟩) ?_
      sound.waiting ?_ inside ?_ ?_
    · intro b member
      rcases List.mem_cons.mp member with rfl | old
      · exact inside
      · exact sound.deletes b old
    · intro b other
      refine ⟨?_, ?_, rfl, List.count_cons_of_ne (Ne.symm other)⟩
      · exact congrArg Node.count (setNode_other _ _ _ other)
      · exact congrArg Node.deleting (setNode_other _ _ _ other)
    · have node := setNode_self s a { s.nodes a with count := (s.nodes a).count + 1, deleting := true }
      have more := count_succ (s.nodes a).count (by omega)
      show ((s.setNode a _).nodes a).count.toNat = s.holders a + (a :: s.deletes).count a
      rw [node, List.count_cons_self, more]
      omega
    · show ((s.setNode a _).nodes a).deleting = true ↔ a ∈ a :: s.deletes
      rw [setNode_self]
      exact ⟨fun _ => List.mem_cons_self, fun _ => rfl⟩
  · rw [if_neg exists_, if_pos unheld]
    exact sound.remove inside unheld

theorem Sound.deleted (sound : Sound s) (deleting : a ∈ s.deletes) : Sound (deletedNode s a) := by
  have inside := sound.deletes a deleting
  have count := sound.count a inside
  have once : s.deletes.count a = 1 := List.count_eq_one_of_mem sound.deletesOnce deleting
  have gone : a ∉ s.deletes.erase a := List.Nodup.not_mem_erase sound.deletesOnce
  have kept : Sound { s.setNode a { s.nodes a with count := (s.nodes a).count - 1, deleting := false } with
      deletes := s.deletes.erase a } := by
    refine sound.change a (List.Perm.refl _) (sound.deletesOnce.erase a)
      (fun b member => sound.deletes b (List.mem_of_mem_erase member)) sound.waiting ?_ inside ?_ ?_
    · intro b other
      refine ⟨?_, ?_, rfl, List.count_erase_of_ne other⟩
      · exact congrArg Node.count (setNode_other _ _ _ other)
      · exact congrArg Node.deleting (setNode_other _ _ _ other)
    · have less := count_pred (s.nodes a).count (by omega)
      show ((s.setNode a _).nodes a).count.toNat = s.holders a + (s.deletes.erase a).count a
      rw [setNode_self, List.count_eq_zero.mpr gone, less]
      omega
    · show ((s.setNode a _).nodes a).deleting = true ↔ a ∈ s.deletes.erase a
      rw [setNode_self]
      exact ⟨fun absurd => Bool.noConfusion absurd, fun member => (gone member).elim⟩
  unfold deletedNode
  dsimp only
  split
  · rename_i zero
    exact kept.remove inside (by rw [← zero]; exact setNode_self _ _ _ ▸ rfl)
  · exact kept

theorem forcedLoop_spec (tries : Nat) (list : List Nat) :
    forcedLoop s tries list = s ∨
      ∃ a ∈ list, (s.nodes a).count = 0 ∧ forcedLoop s tries list = deleteNode s a := by
  induction list generalizing tries with
  | nil => exact Or.inl rfl
  | cons a rest ih =>
    rw [forcedLoop]
    by_cases unheld : (s.nodes a).count = 0
    · rw [if_pos unheld]
      exact Or.inr ⟨a, List.mem_cons_self, unheld, rfl⟩
    · rw [if_neg unheld]
      by_cases last : tries - 1 = 0
      · rw [if_pos last]
        exact Or.inl rfl
      · rw [if_neg last]
        rcases ih (tries - 1) with same | ⟨b, member, free, deleted⟩
        · exact Or.inl same
        · exact Or.inr ⟨b, List.mem_cons_of_mem _ member, free, deleted⟩

theorem forcedExpire_cases (s : State) :
    ngxHttpFileCacheForcedExpire s = s ∨
      ∃ a ∈ s.queue, (s.nodes a).count = 0 ∧ ngxHttpFileCacheForcedExpire s = deleteNode s a := by
  rcases @forcedLoop_spec s 20 s.queue.reverse with same | ⟨a, member, unheld, deleted⟩
  · exact Or.inl same
  · exact Or.inr ⟨a, List.mem_reverse.mp member, unheld, deleted⟩

theorem expire_cases (s : State) (now : Int) :
    ngxHttpFileCacheExpire s now = s ∨
      (∃ a ∈ s.queue, (s.nodes a).count = 0 ∧ ngxHttpFileCacheExpire s now = deleteNode s a) ∨
      ∃ a ∈ s.queue, ngxHttpFileCacheExpire s now =
        (s.setNode a { s.nodes a with expire := now + s.inactive }).toHead a := by
  unfold ngxHttpFileCacheExpire
  cases last : s.queue.getLast? with
  | none => exact Or.inl rfl
  | some a =>
    have inside := List.mem_of_getLast? last
    dsimp only
    split
    · exact Or.inl rfl
    · split
      · rename_i unheld
        exact Or.inr (Or.inl ⟨a, inside, unheld, rfl⟩)
      · split
        · exact Or.inl rfl
        · exact Or.inr (Or.inr ⟨a, inside, rfl⟩)

theorem Sound.add {key : Key} {fsSize : Int} {found fresh : Option Nat} (sound : Sound s)
    (finds : Finds s key found) (unused : Unused s fresh) :
    Sound (ngxHttpFileCacheAdd s key now fsSize found fresh) := by
  match found, fresh with
  | some a, _ =>
    exact sound.same (setNode_same rfl rfl) (toHead_perm finds.1) rfl (fun _ => rfl) sound.waiting
  | none, some a =>
    have outside : a ∉ s.queue := unused a rfl
    have noHolder : s.holders a = 0 := by
      rcases Nat.eq_zero_or_pos (s.holders a) with zero | positive
      · exact zero
      · exact (outside (sound.inTree a positive)).elim
    refine sound.insert outside (List.Perm.of_eq (toHead_new outside)) rfl sound.waiting ?_ ?_ ?_
    · intro b other
      exact ⟨setNode_other _ _ _ other, rfl⟩
    · show ((s.setNode a _).nodes a).count.toNat = s.holders a
      rw [setNode_self, noHolder]
      rfl
    · show ((s.setNode a _).nodes a).deleting = false
      rw [setNode_self]
      rfl
  | none, none => exact sound

theorem withHeld_some {next : State} {act : Req → Nat → State} (acted : withHeld s r act = some next) :
    ∃ c a, s.requests[r]? = some c ∧ held c = some a ∧ next = act c a := by
  obtain ⟨c, old, rest⟩ := Option.bind_eq_some_iff.mp acted
  obtain ⟨a, isHeld, same⟩ := Option.map_eq_some_iff.mp rest
  exact ⟨c, a, old, isHeld, same.symm⟩

inductive Stepped (s : State) : Action → State → Prop where
  | updated {r : Nat} {renamed uniq bodyStart fsSize} : Stepped s (.update r renamed uniq bodyStart fsSize) s
  | freed {r : Nat} {error validSec validMsec} : Stepped s (.free r error validSec validMsec) s
  | exists_ {key minUses now found fresh} (finds : Finds s key found) (unused : Unused s fresh) :
    Stepped s (.exists_ key minUses now found fresh) (ngxHttpFileCacheExists s key minUses now found fresh).2
  | existsAgain {r : Nat} {c : Req} {now fresh} (old : s.requests[r]? = some c)
      (waits : c.waiting = true) (unused : Unused s fresh) :
    Stepped s (.existsAgain r now fresh) (existsAgain s r c now fresh).2
  | read {r a : Nat} {c : Req} {bodyStart uniq fsSize} (old : s.requests[r]? = some c) (isHeld : held c = some a) :
    Stepped s (.read r bodyStart uniq fsSize) (readNode s a bodyStart uniq fsSize)
  | stale {r a : Nat} {c : Req} (old : s.requests[r]? = some c) (isHeld : held c = some a) :
    Stepped s (.stale r) (staleNode s r c a)
  | update {r a : Nat} {c : Req} {renamed uniq bodyStart fsSize} (old : s.requests[r]? = some c)
      (isHeld : held c = some a) :
    Stepped s (.update r renamed uniq bodyStart fsSize) (ngxHttpFileCacheUpdate s r c a renamed uniq bodyStart fsSize)
  | free {r a : Nat} {c : Req} {error validSec validMsec} (old : s.requests[r]? = some c)
      (isHeld : held c = some a) :
    Stepped s (.free r error validSec validMsec) (ngxHttpFileCacheFree s r c a error validSec validMsec)
  | expire {now : Int} : Stepped s (.expire now) (ngxHttpFileCacheExpire s now)
  | forcedExpire : Stepped s .forcedExpire (ngxHttpFileCacheForcedExpire s)
  | deleted {a : Nat} (deleting : a ∈ s.deletes) : Stepped s (.deleted a) (deletedNode s a)
  | add {key now fsSize found fresh} (finds : Finds s key found) (unused : Unused s fresh) :
    Stepped s (.add key now fsSize found fresh) (ngxHttpFileCacheAdd s key now fsSize found fresh)
  | loaded : Stepped s .loaded { s with cold := false }

theorem step_cases {action : Action} {next : State} (stepped : step s action = some next) :
    Stepped s action next := by
  cases action with
  | exists_ key minUses now found fresh =>
    rw [FileCache.step, Option.ite_none_right_eq_some] at stepped
    obtain ⟨⟨finds, unused⟩, same⟩ := stepped
    obtain rfl := Option.some.inj same
    exact .exists_ finds unused
  | existsAgain r now fresh =>
    obtain ⟨c, old, rest⟩ := Option.bind_eq_some_iff.mp stepped
    rw [Option.ite_none_right_eq_some] at rest
    obtain ⟨⟨waits, unused⟩, same⟩ := rest
    obtain rfl := Option.some.inj same
    exact .existsAgain old waits unused
  | read r bodyStart uniq fsSize =>
    obtain ⟨c, a, old, isHeld, rfl⟩ := withHeld_some stepped
    exact .read old isHeld
  | stale r =>
    obtain ⟨c, a, old, isHeld, rfl⟩ := withHeld_some stepped
    exact .stale old isHeld
  | update r renamed uniq bodyStart fsSize =>
    obtain ⟨c, old, rest⟩ := Option.bind_eq_some_iff.mp stepped
    by_cases updated : c.updated = true
    · rw [if_pos updated] at rest
      obtain rfl := Option.some.inj rest
      exact .updated
    · rw [if_neg updated] at rest
      obtain ⟨a, node, rfl⟩ := Option.map_eq_some_iff.mp rest
      exact .update old (by rw [held, if_neg updated, node])
  | free r error validSec validMsec =>
    obtain ⟨c, old, rest⟩ := Option.map_eq_some_iff.mp stepped
    cases isHeld : held c with
    | none =>
      rw [isHeld] at rest
      obtain rfl : s = next := rest
      exact .freed
    | some a =>
      rw [isHeld] at rest
      obtain rfl := rest
      exact .free old isHeld
  | expire now =>
    obtain rfl := Option.some.inj stepped
    exact .expire
  | forcedExpire =>
    obtain rfl := Option.some.inj stepped
    exact .forcedExpire
  | deleted a =>
    rw [step, Option.ite_none_right_eq_some] at stepped
    obtain rfl := Option.some.inj stepped.2
    exact .deleted stepped.1
  | add key now fsSize found fresh =>
    rw [step, Option.ite_none_right_eq_some] at stepped
    obtain ⟨⟨finds, unused⟩, same⟩ := stepped
    obtain rfl := Option.some.inj same
    exact .add finds unused
  | loaded =>
    obtain rfl := Option.some.inj stepped
    exact .loaded

theorem Sound.step {action : Action} {next : State} (sound : Sound s) (room : Room s action)
    (stepped : step s action = some next) : Sound next := by
  cases step_cases stepped with
  | updated => exact sound
  | freed => exact sound
  | exists_ finds unused => exact sound.exists_ finds unused room
  | existsAgain old waits unused => exact sound.existsAgain old waits unused
  | read old isHeld => exact sound.read
  | stale old isHeld => exact sound.stale old
  | update old isHeld => exact sound.update old isHeld
  | free old isHeld => exact sound.free old isHeld
  | @expire now =>
    rcases expire_cases s now with same | ⟨a, inside, unheld, deleted⟩ | ⟨a, inside, moved⟩
    · rw [same]
      exact sound
    · rw [deleted]
      exact sound.delete inside unheld
    · rw [moved]
      exact sound.same (setNode_same rfl rfl) (toHead_perm inside) rfl (fun _ => rfl) sound.waiting
  | forcedExpire =>
    rcases forcedExpire_cases s with same | ⟨a, inside, unheld, deleted⟩
    · rw [same]
      exact sound
    · rw [deleted]
      exact sound.delete inside unheld
  | deleted deleting => exact sound.deleted deleting
  | add finds unused => exact sound.add finds unused
  | loaded => exact sound.same (fun _ => ⟨rfl, rfl⟩) (List.Perm.refl _) rfl (fun _ => rfl) sound.waiting

theorem Sound.init (memory : Nat → Node) (inactive : Int) (cold : Bool) :
    Sound (State.init memory inactive cold) where
  once := List.nodup_nil
  deletesOnce := List.nodup_nil
  deletes := fun _ absurd => by cases absurd
  inTree := fun _ absurd => by cases absurd
  count := fun _ absurd => by cases absurd
  flag := fun _ absurd => by cases absurd
  waiting := fun _ absurd => by cases absurd

theorem Sound.run {actions : List Action} {final : State} (sound : Sound s)
    (meets : Meets FileCache.step Room s actions) (performed : run FileCache.step s actions = some final) :
    Sound final := by
  exact @run_history _ _ FileCache.step Room (fun _ state => Sound state) actions
    (fun _ _ _ _ _ before room stepped => before.step room stepped) [] s sound final meets performed

end Steps

/-- The number of references that a node should count. -/
def State.references (s : State) (a : Nat) : Nat := s.holders a + if a ∈ s.deletes then 1 else 0

theorem Sound.references {s : State} (sound : Sound s) {a : Nat} (inside : a ∈ s.queue) :
    (s.nodes a).count.toNat = s.references a := by
  rw [sound.count a inside, State.references]
  by_cases deleting : a ∈ s.deletes
  · rw [if_pos deleting, List.count_eq_one_of_mem sound.deletesOnce deleting]
  · rw [if_neg deleting, List.count_eq_zero.mpr deleting]

/-- In every run in which no request takes a node that has all the references that its count has
room for, each count is right, and a node leaves the tree only when no request holds it. -/
theorem count_correct (memory : Nat → Node) (inactive : Int) (cold : Bool) (actions : List Action)
    (s : State) (performed : run step (State.init memory inactive cold) actions = some s)
    (meets : Meets step Room (State.init memory inactive cold) actions) :
    (∀ a ∈ s.queue, (s.nodes a).count.toNat = s.references a) ∧
      (∀ a, 0 < s.holders a → a ∈ s.queue) ∧
      ∀ action next, Room s action → step s action = some next →
        ∀ a ∈ s.queue, a ∉ next.queue → next.holders a = 0 := by
  have sound := (Sound.init memory inactive cold).run meets performed
  refine ⟨fun a inside => sound.references inside, sound.inTree, ?_⟩
  intro action next room stepped a _ gone
  rcases Nat.eq_zero_or_pos (next.holders a) with zero | positive
  · exact zero
  · exact (gone ((sound.step room stepped).inTree a positive)).elim

def blank : Node := ⟨0, 0, 0, 0, 0, false, false, false, 0, 0, 0, 0, 0⟩

/-- Requests for one key. -/
def sameKey (k : Nat) : List Action :=
  .exists_ 0 1 0 none (some 1) :: List.replicate k (.exists_ 0 1 0 (some 1) none)

theorem sameKey_run (k : Nat) :
    ∃ s, run step (State.init (fun _ => blank) 600 false) (sameKey k) = some s ∧ s.queue = [1] ∧
      (s.nodes 1).key = 0 ∧ (s.nodes 1).count = BitVec.ofNat 20 (k + 1) ∧ s.holders 1 = k + 1 ∧
      s.deletes = [] := by
  induction k with
  | zero => exact ⟨_, rfl, by decide, by decide, by decide, by decide, by decide⟩
  | succ k ih =>
    obtain ⟨s, performed, queue, key, count, holders, deletes⟩ := ih
    have split : sameKey (k + 1) = sameKey k ++ [.exists_ 0 1 0 (some 1) none] := by
      rw [sameKey, List.replicate_succ']
      rfl
    have inside : 1 ∈ s.queue := by rw [queue]; exact List.mem_singleton_self 1
    have stepped : step s (.exists_ 0 1 0 (some 1) none) =
        some (ngxHttpFileCacheExists s 0 1 0 (some 1) none).2 :=
      if_pos ⟨⟨inside, key⟩, fun _ absurd => by cases absurd⟩
    obtain ⟨counts, _, keys⟩ := takeNode_spec 0 1 (s.nodes 1)
    refine ⟨(ngxHttpFileCacheExists s 0 1 0 (some 1) none).2, ?_, ?_, ?_, ?_, ?_, deletes⟩
    · rw [split, run_append, performed]
      exact (run_cons _ _ _ _).trans (by rw [stepped]; rfl)
    · show 1 :: s.queue.erase 1 = [1]
      rw [queue]
      rfl
    · show ((s.setNode 1 _).nodes 1).key = 0
      rw [setNode_self]
      exact keys.trans key
    · show ((s.setNode 1 _).nodes 1).count = _
      rw [setNode_self]
      refine counts.trans ?_
      rw [count]
      exact (BitVec.ofNat_add (k + 1) 1).symm
    · refine (holders_append s.requests _ 1).trans ?_
      have before : s.requests.countP (fun c => held c == some 1) = k + 1 := holders
      rw [before]
      rfl

/-- With `2^20` requests for one key, the count of its node is 0. -/
theorem count_wraps :
    ¬∀ (memory : Nat → Node) (inactive : Int) (cold : Bool) (actions : List Action) (s : State),
      run step (State.init memory inactive cold) actions = some s →
        ∀ a ∈ s.queue, (s.nodes a).count.toNat = s.references a := by
  intro claim
  obtain ⟨s, performed, queue, _, count, holders, deletes⟩ := sameKey_run (2 ^ 20 - 1)
  have inside : 1 ∈ s.queue := by rw [queue]; exact List.mem_singleton_self 1
  have equal := claim _ _ _ _ s performed 1 inside
  rw [count, State.references, holders, deletes, BitVec.toNat_ofNat] at equal
  simp at equal

/-- Two requests hold a node and release it, and then its file is deleted. -/
def twoRequests : List Action :=
  sameKey 1 ++ [.update 0 true 7 9 5, .free 1 0 0 0, .expire 700]

theorem count_correct_two_requests :
    ∃ s, run step (State.init (fun _ => blank) 600 false) twoRequests = some s ∧
      (s.nodes 1).count.toNat = s.references 1 ∧ s.references 1 = 1 := by
  have right := count_correct (fun _ => blank) 600 false twoRequests _ rfl (by decide +kernel)
  exact ⟨_, rfl, right.1 1 (by decide +kernel), by decide +kernel⟩

end NgxFormal.Http.FileCache
