import Mathlib.Algebra.BigOperators.Group.List.Basic
import NgxFormal.Http.FileCacheCount

/-! The size of the files of a cache zone. -/

namespace NgxFormal.Http.FileCache

open Lib

def State.part (s : State) (a : Nat) : Int :=
  if (s.nodes a).exists_ = true ∧ a ∉ s.deletes then (s.nodes a).fsSize else 0

/-- The size of the files of all nodes that exist and are not being deleted. -/
def State.total (s : State) : Int := (s.queue.map s.part).sum

/-- The size is right, and a node without a file has no size. -/
structure Sized (s : State) : Prop where
  sound : Sound s
  empty : ∀ a ∈ s.queue, (s.nodes a).exists_ = false → (s.nodes a).fsSize = 0
  size : s.size = s.total

section Sums

variable {s next : State} {a : Nat}

theorem total_split (inside : a ∈ s.queue) :
    s.total = s.part a + ((s.queue.erase a).map s.part).sum := by
  rw [State.total, ((List.perm_cons_erase inside).map s.part).sum_eq, List.map_cons, List.sum_cons]

theorem erase_same (sound : Sound s) (others : ∀ b ∈ s.queue, b ≠ a → next.part b = s.part b) :
    (s.queue.erase a).map next.part = (s.queue.erase a).map s.part := by
  apply List.map_congr_left
  intro b member
  obtain ⟨differ, inside⟩ := (List.Nodup.mem_erase_iff sound.once).mp member
  exact others b inside differ

theorem Sized.change (sized : Sized s) (sound : Sound next) (inside : a ∈ s.queue)
    (queue : next.queue.Perm s.queue)
    (others : ∀ b ∈ s.queue, b ≠ a → next.part b = s.part b ∧ next.nodes b = s.nodes b)
    (empty : (next.nodes a).exists_ = false → (next.nodes a).fsSize = 0)
    (size : next.size = s.size - s.part a + next.part a) : Sized next := by
  refine ⟨sound, ?_, ?_⟩
  · intro b member
    by_cases same : b = a
    · rw [same]
      exact empty
    · have old := queue.mem_iff.mp member
      rw [(others b old same).2]
      exact sized.empty b old
  · have erased := @erase_same s next a sized.sound fun b old differ => (others b old differ).1
    have before := total_split inside
    have whole : next.total = next.part a + ((s.queue.erase a).map next.part).sum := by
      rw [State.total, (queue.map next.part).sum_eq, ((List.perm_cons_erase inside).map next.part).sum_eq,
        List.map_cons, List.sum_cons]
    rw [size, sized.size, whole, erased, before]
    omega

theorem Sized.drop (sized : Sized s) (sound : Sound next) (inside : a ∈ s.queue)
    (queue : next.queue = s.queue.erase a)
    (others : ∀ b ∈ s.queue, b ≠ a → next.part b = s.part b ∧ next.nodes b = s.nodes b)
    (size : next.size = s.size - s.part a) : Sized next := by
  refine ⟨sound, ?_, ?_⟩
  · intro b member
    rw [queue] at member
    obtain ⟨differ, old⟩ := (List.Nodup.mem_erase_iff sized.sound.once).mp member
    rw [(others b old differ).2]
    exact sized.empty b old
  · have erased := @erase_same s next a sized.sound fun b old differ => (others b old differ).1
    have whole : next.total = ((s.queue.erase a).map next.part).sum := by rw [State.total, queue]
    rw [size, sized.size, whole, erased, total_split inside]
    omega

theorem Sized.insert (sized : Sized s) (sound : Sound next) (outside : a ∉ s.queue)
    (queue : next.queue = a :: s.queue)
    (others : ∀ b ∈ s.queue, b ≠ a → next.part b = s.part b ∧ next.nodes b = s.nodes b)
    (empty : (next.nodes a).exists_ = false → (next.nodes a).fsSize = 0)
    (size : next.size = s.size + next.part a) : Sized next := by
  have differ : ∀ b ∈ s.queue, b ≠ a := fun b member same => outside (same ▸ member)
  refine ⟨sound, ?_, ?_⟩
  · intro b member
    rw [queue] at member
    rcases List.mem_cons.mp member with rfl | old
    · exact empty
    · rw [(others b old (differ b old)).2]
      exact sized.empty b old
  · have same : s.queue.map next.part = s.queue.map s.part :=
      List.map_congr_left fun b member => (others b member (differ b member)).1
    rw [size, sized.size, State.total, State.total, queue, List.map_cons, List.sum_cons, same]
    omega

theorem Sized.same (sized : Sized s) (sound : Sound next) (queue : next.queue.Perm s.queue)
    (deletes : next.deletes = s.deletes)
    (nodes : ∀ b, (next.nodes b).exists_ = (s.nodes b).exists_ ∧
      (next.nodes b).fsSize = (s.nodes b).fsSize)
    (size : next.size = s.size) : Sized next := by
  have parts : next.part = s.part := by
    funext b
    rw [State.part, State.part, (nodes b).1, (nodes b).2, deletes]
  refine ⟨sound, ?_, ?_⟩
  · intro b member
    rw [(nodes b).1, (nodes b).2]
    exact sized.empty b (queue.mem_iff.mp member)
  · rw [size, sized.size, State.total, State.total, (queue.map next.part).sum_eq, parts]

end Sums

def State.heldBy (s : State) (r : Nat) : Option Nat := s.requests[r]?.bind held

/-- The sizes that a step moves agree: a request that renews a node finds no size in it; one that
updates a node whose file is being deleted finds the same size; one that reads such a node's file has
none to add; and a deletion ends for a node that no request holds, or that has no size. -/
def Adjusted (s : State) : Action → Prop
  | .exists_ _ _ now (some a) _ =>
    (s.nodes a).count.toNat + 1 < 2 ^ 20 ∧
      ((s.nodes a).error ≠ 0 → (s.nodes a).validSec < now →
        (s.nodes a).deleting = true ∨ (s.nodes a).exists_ = false ∨ (s.nodes a).fsSize = 0)
  | .read r _ _ fsSize =>
    ∀ a ∈ s.heldBy r, (s.nodes a).exists_ = true ∨ (s.nodes a).deleting = false ∨ fsSize = 0
  | .update r renamed _ _ fsSize =>
    ∀ a ∈ s.heldBy r, (s.nodes a).deleting = false ∨
      (if renamed then fsSize else 0) = (s.nodes a).fsSize
  | .deleted a =>
    (s.nodes a).count = 1 ∨ (s.nodes a).exists_ = false ∨ (s.nodes a).fsSize = 0
  | _ => True

instance (s : State) : (action : Action) → Decidable (Adjusted s action)
  | .exists_ _ _ _ (some _) _ => inferInstanceAs (Decidable (_ ∧ (_ → _ → _ ∨ _ ∨ _)))
  | .exists_ _ _ _ none _ => isTrue trivial
  | .read r _ _ _ => inferInstanceAs (Decidable (∀ a ∈ s.heldBy r, _ ∨ _ ∨ _))
  | .update r _ _ _ _ => inferInstanceAs (Decidable (∀ a ∈ s.heldBy r, _ ∨ _))
  | .deleted _ => inferInstanceAs (Decidable (_ ∨ _ ∨ _))
  | .existsAgain .. | .stale _ | .free .. | .expire _ | .forcedExpire | .add .. | .loaded =>
    isTrue trivial

theorem Adjusted.room {s : State} {action : Action} (adjusted : Adjusted s action) : Room s action := by
  cases action with
  | exists_ key minUses now found fresh =>
    cases found with
    | none => trivial
    | some a => exact adjusted.1
  | _ => trivial

section Steps

variable {s next : State} {a r : Nat} {c : Req} {now : Int}

theorem Sized.part_deleting (sized : Sized s) (inside : a ∈ s.queue)
    (none : (s.nodes a).deleting = true ∨ (s.nodes a).exists_ = false ∨ (s.nodes a).fsSize = 0) :
    s.part a = 0 := by
  unfold State.part
  rcases none with deleting | missing | zero
  · have member := (sized.sound.flag a inside).mp deleting
    rw [if_neg (fun both => both.2 member)]
  · rw [if_neg (fun both => by rw [missing] at both; cases both.1)]
  · rw [zero, ite_self]

theorem part_other {node : Node} (nodes : next.nodes = Function.update s.nodes a node)
    (deletes : ∀ b, b ≠ a → (b ∈ next.deletes ↔ b ∈ s.deletes)) :
    ∀ b ∈ s.queue, b ≠ a → next.part b = s.part b ∧ next.nodes b = s.nodes b := by
  intro b _ other
  have same : next.nodes b = s.nodes b := by rw [nodes, Function.update_of_ne other]
  refine ⟨?_, same⟩
  unfold State.part
  rw [same]
  simp only [deletes b other]

theorem takeNode_parts (now : Int) (minUses : Nat) (node : Node) :
    ((takeNode now minUses node).2.exists_ = node.exists_ ∧
        (takeNode now minUses node).2.fsSize = node.fsSize) ∨
      (node.error ≠ 0 ∧ node.validSec < now ∧ (takeNode now minUses node).2.exists_ = false ∧
        (takeNode now minUses node).2.fsSize = 0) := by
  unfold takeNode
  dsimp only
  split
  · rename_i error
    split
    · rename_i old
      exact Or.inr ⟨error, old, rfl, rfl⟩
    · exact Or.inl ⟨rfl, rfl⟩
  · split
    · exact Or.inl ⟨rfl, rfl⟩
    · exact Or.inl ⟨rfl, rfl⟩

theorem Sized.write {node : Node} (sized : Sized s) (sound : Sound next) (inside : a ∈ s.queue)
    (nodes : next.nodes = Function.update s.nodes a node) (queue : next.queue.Perm s.queue)
    (deletes : next.deletes = s.deletes) (size : next.size = s.size)
    (parts : (node.exists_ = (s.nodes a).exists_ ∧ node.fsSize = (s.nodes a).fsSize) ∨
      (s.part a = 0 ∧ node.exists_ = false ∧ node.fsSize = 0)) : Sized next := by
  have here : next.nodes a = node := by rw [nodes, Function.update_self]
  refine sized.change sound inside queue (part_other nodes fun b _ => by rw [deletes]) ?_ ?_
  · rw [here]
    rcases parts with ⟨exists_, fsSize⟩ | ⟨_, _, zero⟩
    · rw [exists_, fsSize]
      exact sized.empty a inside
    · exact fun _ => zero
  · have same : next.part a = s.part a := by
      unfold State.part
      rw [here, deletes]
      rcases parts with ⟨exists_, fsSize⟩ | ⟨none, missing, _⟩
      · rw [exists_, fsSize]
      · rw [missing]
        exact none.symm
    rw [size, same]
    omega

theorem Sized.exists_ {key : Key} {minUses : Nat} {found fresh : Option Nat} (sized : Sized s)
    (finds : Finds s key found) (unused : Unused s fresh)
    (adjusted : Adjusted s (.exists_ key minUses now found fresh)) :
    Sized (ngxHttpFileCacheExists s key minUses now found fresh).2 := by
  have sound := sized.sound.exists_ finds unused adjusted.room
  match found, fresh with
  | some a, _ =>
    obtain ⟨inside, _⟩ := finds
    refine sized.write sound inside rfl (toHead_perm inside) rfl rfl ?_
    rcases takeNode_parts now minUses (s.nodes a) with same | ⟨error, old, missing, zero⟩
    · exact Or.inl same
    · exact Or.inr ⟨sized.part_deleting inside (adjusted.2 error old), missing, zero⟩
  | none, some a =>
    have outside : a ∉ s.queue := unused a rfl
    have here : ((ngxHttpFileCacheExists s key minUses now none (some a)).2.nodes a).exists_ = false ∧
        ((ngxHttpFileCacheExists s key minUses now none (some a)).2.nodes a).fsSize = 0 := by
      show ((s.setNode a _).nodes a).exists_ = false ∧ ((s.setNode a _).nodes a).fsSize = 0
      rw [setNode_self]
      exact ⟨rfl, rfl⟩
    refine sized.insert sound outside (toHead_new outside) (part_other rfl fun _ _ => Iff.rfl)
      (fun _ => here.2) ?_
    rw [State.part, here.2, ite_self]
    exact (Int.add_zero _).symm
  | none, none =>
    exact sized.same sound (List.Perm.refl _) rfl (fun _ => ⟨rfl, rfl⟩) rfl

theorem Sized.existsAgain {fresh : Option Nat} (sized : Sized s) (old : s.requests[r]? = some c)
    (waits : c.waiting = true) (unused : Unused s fresh) :
    Sized (existsAgain s r c now fresh).2 := by
  have sound := @Sound.existsAgain s r c now fresh sized.sound old waits unused
  match fresh with
  | some a =>
    have outside : a ∉ s.queue := unused a rfl
    have here : ((FileCache.existsAgain s r c now (some a)).2.nodes a).exists_ = false ∧
        ((FileCache.existsAgain s r c now (some a)).2.nodes a).fsSize = 0 := by
      show ((s.setNode a _).nodes a).exists_ = false ∧ ((s.setNode a _).nodes a).fsSize = 0
      rw [setNode_self]
      exact ⟨rfl, rfl⟩
    refine sized.insert sound outside (toHead_new outside) (part_other rfl fun _ _ => Iff.rfl)
      (fun _ => here.2) ?_
    rw [State.part, here.2, ite_self]
    exact (Int.add_zero _).symm
  | none => exact sized.same sound (List.Perm.refl _) rfl (fun _ => ⟨rfl, rfl⟩) rfl

theorem Sized.read {bodyStart uniq : Nat} {fsSize : Int} (sized : Sized s) (inside : a ∈ s.queue)
    (adjusted : (s.nodes a).exists_ = true ∨ (s.nodes a).deleting = false ∨ fsSize = 0) :
    Sized (readNode s a bodyStart uniq fsSize) := by
  have sound := @Sound.read s a bodyStart uniq fsSize sized.sound
  unfold readNode at *
  by_cases adds : s.cold = true ∧ ¬(s.nodes a).exists_ = true
  · simp only [if_pos adds] at *
    have missing : (s.nodes a).exists_ = false := by simpa using adds.2
    have before : s.part a = 0 := sized.part_deleting inside (Or.inr (Or.inl missing))
    refine sized.change sound inside (List.Perm.refl _) (part_other rfl fun _ _ => Iff.rfl) ?_ ?_
    · show ((s.setNode a _).nodes a).exists_ = false → _
      rw [setNode_self]
      exact fun absurd => by cases absurd
    · rw [before]
      unfold State.part
      show s.size + fsSize = s.size - 0 + if ((s.setNode a _).nodes a).exists_ = true ∧ a ∉ s.deletes
        then ((s.setNode a _).nodes a).fsSize else 0
      rw [setNode_self]
      by_cases deleting : a ∈ s.deletes
      · rw [if_neg (fun both => both.2 deleting)]
        have flag := (sized.sound.flag a inside).mpr deleting
        rcases adjusted with present | alive | zero
        · rw [missing] at present
          cases present
        · rw [flag] at alive
          cases alive
        · omega
      · rw [if_pos ⟨rfl, deleting⟩]
        show s.size + fsSize = s.size - 0 + fsSize
        omega
  · simp only [if_neg adds] at *
    exact sized

theorem Sized.stale (sized : Sized s) (old : s.requests[r]? = some c) (inside : a ∈ s.queue) :
    Sized (staleNode s r c a) := by
  have sound := @Sound.stale s a r c sized.sound old
  unfold staleNode at *
  split at sound
  · rename_i updating
    rw [if_pos updating]
    exact sized
  · rename_i updating
    rw [if_neg updating]
    exact sized.write sound inside rfl (List.Perm.refl _) rfl rfl (Or.inl ⟨rfl, rfl⟩)

theorem Sized.update {renamed : Bool} {uniq bodyStart : Nat} {fsSize : Int} (sized : Sized s)
    (old : s.requests[r]? = some c) (isHeld : held c = some a) (inside : a ∈ s.queue)
    (adjusted : (s.nodes a).deleting = false ∨ (if renamed then fsSize else 0) = (s.nodes a).fsSize) :
    Sized (ngxHttpFileCacheUpdate s r c a renamed uniq bodyStart fsSize) := by
  have sound := @Sound.update s a r c renamed uniq bodyStart fsSize sized.sound old isHeld
  have node : (ngxHttpFileCacheUpdate s r c a renamed uniq bodyStart fsSize).nodes a = _ :=
    setNode_self _ _ _
  refine sized.change sound inside (List.Perm.refl _) (part_other rfl fun _ _ => Iff.rfl) ?_ ?_
  · rw [node]
    intro missing
    cases renamed with
    | true => cases missing
    | false => rfl
  · unfold State.part
    rw [node]
    show s.size + ((if renamed = true then fsSize else 0) - (s.nodes a).fsSize) =
      s.size - (if (s.nodes a).exists_ = true ∧ a ∉ s.deletes then (s.nodes a).fsSize else 0) +
        if (renamed || (s.nodes a).exists_) = true ∧ a ∉ s.deletes
        then (if renamed = true then fsSize else 0) else 0
    generalize isSize : (if renamed = true then fsSize else 0) = size at *
    by_cases deleting : a ∈ s.deletes
    · rw [if_neg (fun both => both.2 deleting), if_neg (fun both => both.2 deleting)]
      have flag := (sized.sound.flag a inside).mpr deleting
      rcases adjusted with alive | same
      · rw [flag] at alive
        cases alive
      · omega
    · cases exists_ : (s.nodes a).exists_ with
      | true =>
        rw [if_pos ⟨rfl, deleting⟩, if_pos ⟨by simp, deleting⟩]
        omega
      | false =>
        have zero := sized.empty a inside exists_
        cases renamed with
        | true => simp [deleting, zero]
        | false =>
          have none : size = 0 := isSize.symm
          simp [zero, none]

theorem freeNode_parts (c : Req) (error validMsec : BitVec 10) (validSec : Int) (node : Node) :
    (freeNode c error validSec validMsec node).exists_ = node.exists_ ∧
      (freeNode c error validSec validMsec node).fsSize = node.fsSize := by
  unfold freeNode
  dsimp only
  split
  · split
    · exact ⟨rfl, rfl⟩
    · exact ⟨rfl, rfl⟩
  · exact ⟨rfl, rfl⟩

theorem Sized.free {error validMsec : BitVec 10} {validSec : Int} (sized : Sized s)
    (old : s.requests[r]? = some c) (isHeld : held c = some a) (inside : a ∈ s.queue) :
    Sized (ngxHttpFileCacheFree s r c a error validSec validMsec) := by
  have sound := @Sound.free s a r c error validMsec validSec sized.sound old isHeld
  have parts := freeNode_parts c error validMsec validSec (s.nodes a)
  unfold ngxHttpFileCacheFree at *
  dsimp only at *
  split at sound
  · rename_i gone
    rw [if_pos gone]
    have missing : (s.nodes a).exists_ = false := by
      rw [← parts.1]
      simpa using gone.2.1
    refine sized.drop sound inside rfl (part_other rfl fun _ _ => Iff.rfl) ?_
    rw [sized.part_deleting inside (Or.inr (Or.inl missing))]
    exact (Int.sub_zero _).symm
  · rename_i stays
    rw [if_neg stays]
    exact sized.write sound inside rfl (List.Perm.refl _) rfl rfl (Or.inl parts)

theorem Sized.delete (sized : Sized s) (inside : a ∈ s.queue) (unheld : (s.nodes a).count = 0) :
    Sized (deleteNode s a) := by
  have sound := sized.sound.delete inside unheld
  have zero : (s.nodes a).count.toNat = 0 := by rw [unheld]; rfl
  have notDeleting : a ∉ s.deletes := by
    have count := sized.sound.count a inside
    rw [← List.count_eq_zero]
    omega
  unfold deleteNode at *
  dsimp only at *
  by_cases exists_ : (s.nodes a).exists_ = true
  · rw [if_pos exists_] at *
    have before : s.part a = (s.nodes a).fsSize := if_pos ⟨exists_, notDeleting⟩
    refine sized.change sound inside (List.Perm.refl _) (part_other rfl fun b other => ?_) ?_ ?_
    · rw [List.mem_cons]
      exact or_iff_right other
    · show ((s.setNode a _).nodes a).exists_ = false → _
      rw [setNode_self]
      intro missing
      rw [exists_] at missing
      cases missing
    · have after : State.part { s.setNode a { s.nodes a with count := (s.nodes a).count + 1, deleting := true }
          with size := s.size - (s.nodes a).fsSize, deletes := a :: s.deletes } a = 0 :=
        if_neg fun both => both.2 List.mem_cons_self
      rw [before, after]
      exact (Int.add_zero _).symm
  · rw [if_neg exists_, if_pos unheld] at *
    have missing : (s.nodes a).exists_ = false := by simpa using exists_
    refine sized.drop sound inside rfl (fun _ _ _ => ⟨rfl, rfl⟩) ?_
    rw [sized.part_deleting inside (Or.inr (Or.inl missing))]
    exact (Int.sub_zero _).symm

theorem Sized.deleted (sized : Sized s) (deleting : a ∈ s.deletes)
    (adjusted : (s.nodes a).count = 1 ∨ (s.nodes a).exists_ = false ∨ (s.nodes a).fsSize = 0) :
    Sized (deletedNode s a) := by
  have sound := sized.sound.deleted deleting
  have inside := sized.sound.deletes a deleting
  have before : s.part a = 0 := if_neg fun both => both.2 deleting
  have others : ∀ b, b ≠ a → (b ∈ s.deletes.erase a ↔ b ∈ s.deletes) := fun b other =>
    List.mem_erase_of_ne other
  unfold deletedNode at *
  dsimp only at *
  by_cases last : (s.nodes a).count - 1 = 0
  · rw [if_pos last] at *
    refine sized.drop sound inside rfl (part_other rfl others) ?_
    rw [before]
    exact (Int.sub_zero _).symm
  · rw [if_neg last] at *
    have none : (s.nodes a).exists_ = false ∨ (s.nodes a).fsSize = 0 := by
      rcases adjusted with one | none
      · exact (last (by rw [one]; rfl)).elim
      · exact none
    have zero : (s.nodes a).fsSize = 0 := none.elim (sized.empty a inside) id
    refine sized.change sound inside (List.Perm.refl _) (part_other rfl others) ?_ ?_
    · show _ → ((s.setNode a _).nodes a).fsSize = 0
      rw [setNode_self]
      exact fun _ => zero
    · have after : State.part { s.setNode a { s.nodes a with count := (s.nodes a).count - 1, deleting := false }
          with deletes := s.deletes.erase a } a = 0 := by
        unfold State.part
        show (if _ then ((s.setNode a _).nodes a).fsSize else 0) = 0
        rw [setNode_self]
        simp only [zero, ite_self]
      rw [before, after]
      show s.size = s.size - 0 + 0
      omega

theorem Sized.add {key : Key} {fsSize : Int} {found fresh : Option Nat} (sized : Sized s)
    (finds : Finds s key found) (unused : Unused s fresh) :
    Sized (ngxHttpFileCacheAdd s key now fsSize found fresh) := by
  have sound := @Sound.add s now key fsSize found fresh sized.sound finds unused
  match found, fresh with
  | some a, _ =>
    exact sized.write sound finds.1 rfl (toHead_perm finds.1) rfl rfl (Or.inl ⟨rfl, rfl⟩)
  | none, some a =>
    have outside : a ∉ s.queue := unused a rfl
    have notDeleting : a ∉ s.deletes := fun member => outside (sized.sound.deletes a member)
    refine sized.insert sound outside (toHead_new outside) (part_other rfl fun _ _ => Iff.rfl) ?_ ?_
    · show ((s.setNode a _).nodes a).exists_ = false → _
      rw [setNode_self]
      exact fun absurd => by cases absurd
    · have after : (ngxHttpFileCacheAdd s key now fsSize none (some a)).part a = fsSize := by
        unfold State.part
        show (if ((s.setNode a _).nodes a).exists_ = true ∧ a ∉ s.deletes
          then ((s.setNode a _).nodes a).fsSize else 0) = fsSize
        rw [setNode_self]
        exact if_pos ⟨rfl, notDeleting⟩
      rw [after]
      rfl
  | none, none => exact sized

theorem Sized.step {action : Action} (sized : Sized s) (adjusted : Adjusted s action)
    (stepped : step s action = some next) : Sized next := by
  have inTree : ∀ {r : Nat} {c a}, s.requests[r]? = some c → held c = some a → a ∈ s.queue := by
    intro r c a old isHeld
    apply sized.sound.inTree
    exact List.countP_pos_iff.mpr ⟨c, List.mem_of_getElem? old, by simpa using isHeld⟩
  have by_ : ∀ {r : Nat} {c a}, s.requests[r]? = some c → held c = some a → a ∈ s.heldBy r := by
    intro r c a old isHeld
    rw [State.heldBy, old]
    exact isHeld
  cases step_cases stepped with
  | updated => exact sized
  | freed => exact sized
  | exists_ finds unused => exact sized.exists_ finds unused adjusted
  | existsAgain old waits unused => exact sized.existsAgain old waits unused
  | @read _ a _ _ _ _ old isHeld => exact sized.read (inTree old isHeld) (adjusted a (by_ old isHeld))
  | stale old isHeld => exact sized.stale old (inTree old isHeld)
  | @update _ a _ _ _ _ _ old isHeld =>
    exact sized.update old isHeld (inTree old isHeld) (adjusted a (by_ old isHeld))
  | free old isHeld => exact sized.free old isHeld (inTree old isHeld)
  | @expire now =>
    have sound := sized.sound.step adjusted.room stepped
    rcases expire_cases s now with same | ⟨a, inside, unheld, deleted⟩ | ⟨a, inside, moved⟩
    · rw [same]
      exact sized
    · rw [deleted]
      exact sized.delete inside unheld
    · rw [moved] at sound ⊢
      exact sized.write sound inside rfl (toHead_perm inside) rfl rfl (Or.inl ⟨rfl, rfl⟩)
  | forcedExpire =>
    rcases forcedExpire_cases s with same | ⟨a, inside, unheld, deleted⟩
    · rw [same]
      exact sized
    · rw [deleted]
      exact sized.delete inside unheld
  | deleted deleting => exact sized.deleted deleting adjusted
  | add finds unused => exact sized.add finds unused
  | loaded =>
    have sound := sized.sound.step adjusted.room stepped
    exact sized.same sound (List.Perm.refl _) rfl (fun _ => ⟨rfl, rfl⟩) rfl

theorem Sized.init (memory : Nat → Node) (inactive : Int) (cold : Bool) :
    Sized (State.init memory inactive cold) where
  sound := Sound.init memory inactive cold
  empty := fun _ absurd => by cases absurd
  size := rfl

end Steps

/-- In every run whose steps are all adjusted, the size is that of the files of the nodes that exist
and are not being deleted. -/
theorem size_correct (memory : Nat → Node) (inactive : Int) (cold : Bool) (actions : List Action)
    (s : State) (performed : run step (State.init memory inactive cold) actions = some s)
    (meets : Meets step Adjusted (State.init memory inactive cold) actions) : s.size = s.total := by
  have sized := @run_history _ _ step Adjusted (fun _ state => Sized state) actions
    (fun _ _ _ _ _ before adjusted stepped => before.step adjusted stepped) [] _
    (Sized.init memory inactive cold) s meets performed
  exact sized.size

/-- A file of five blocks is stored, and its deletion begins. -/
def stored : List Action := [.exists_ 0 1 0 none (some 1), .update 0 true 7 9 5, .expire 700]

/-- A request comes while the file is being deleted: the node stays, without its part of the size. -/
theorem size_drifts :
    ¬∀ (memory : Nat → Node) (inactive : Int) (cold : Bool) (actions : List Action) (s : State),
      run step (State.init memory inactive cold) actions = some s → s.size = s.total := by
  intro claim
  have equal := claim (fun _ => blank) 600 false (stored ++ [.exists_ 0 1 700 (some 1) none, .deleted 1])
    _ rfl
  exact absurd equal (by decide +kernel)

/-- The file is deleted, and the next request finds no node. -/
def storedAgain : List Action :=
  stored ++ [.deleted 1, .exists_ 0 1 800 none (some 1), .update 1 true 8 9 6]

theorem size_correct_deleted :
    ∃ s, run step (State.init (fun _ => blank) 600 false) storedAgain = some s ∧
      s.size = s.total ∧ s.total = 6 := by
  have right := size_correct (fun _ => blank) 600 false storedAgain _ rfl (by decide +kernel)
  exact ⟨_, rfl, right, by decide +kernel⟩

end NgxFormal.Http.FileCache
