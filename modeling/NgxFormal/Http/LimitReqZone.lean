import NgxFormal.Http.LimitReq
import Mathlib.Data.List.Lex
import Mathlib.Data.Prod.Lex

/-! The order of the nodes of a zone, and what each function does to the tree and the queue. -/

namespace NgxFormal.Http.LimitReq

open Core.Rbtree Lib.RedBlack

section Compare

/-- The bytes of a key, in the order of `ngx_memn2cmp`. -/
def bytes (data : List UInt8) : List Nat := data.map UInt8.toNat

theorem bytes_injective {x y : List UInt8} (same : bytes x = bytes y) : x = y :=
  List.map_injective_iff.mpr (fun _ _ equal => UInt8.toNat_inj.mp equal) same

@[simp] theorem ngxMemcmp_zero (s1 s2 : List UInt8) : ngxMemcmp s1 s2 0 = 0 := by
  cases s1 <;> cases s2 <;> rfl

theorem ngxMemcmp_take (s1 s2 : List UInt8) (n n1 n2 : Nat) (first : n ≤ n1) (second : n ≤ n2) :
    ngxMemcmp (s1.take n1) (s2.take n2) n = ngxMemcmp s1 s2 n := by
  induction n generalizing s1 s2 n1 n2 with
  | zero => rw [ngxMemcmp_zero, ngxMemcmp_zero]
  | succ n ih =>
    obtain ⟨n1, rfl⟩ : ∃ m, n1 = m + 1 := ⟨n1 - 1, by omega⟩
    obtain ⟨n2, rfl⟩ : ∃ m, n2 = m + 1 := ⟨n2 - 1, by omega⟩
    cases s1 with
    | nil => cases s2 <;> rfl
    | cons a s1 =>
      cases s2 with
      | nil => rfl
      | cons b s2 =>
        simp only [List.take_succ_cons, ngxMemcmp]
        rw [ih s1 s2 n1 n2 (by omega) (by omega)]

theorem ngxMemn2cmp_take (s1 s2 : List UInt8) (n1 n2 : Nat) :
    ngxMemn2cmp (s1.take n1) (s2.take n2) n1 n2 = ngxMemn2cmp s1 s2 n1 n2 := by
  unfold ngxMemn2cmp
  by_cases shorter : n1 ≤ n2
  · simp only [if_pos shorter, ngxMemcmp_take s1 s2 n1 n1 n2 (Nat.le_refl _) shorter]
  · simp only [if_neg shorter, ngxMemcmp_take s1 s2 n2 n1 n2 (by omega) (Nat.le_refl _)]

theorem ngxMemn2cmp_cons (a b : UInt8) (x y : List UInt8) (n1 n2 : Nat) :
    ngxMemn2cmp (a :: x) (b :: y) (n1 + 1) (n2 + 1) =
      if a = b then ngxMemn2cmp x y n1 n2 else (a.toNat : Int) - b.toNat := by
  have apart : a ≠ b → (a.toNat : Int) - b.toNat ≠ 0 := by
    intro differ zero
    apply differ
    apply UInt8.toNat_inj.mp
    omega
  unfold ngxMemn2cmp
  by_cases shorter : n1 ≤ n2
  · simp only [if_pos shorter, if_pos (Nat.succ_le_succ shorter), ngxMemcmp]
    by_cases same : a = b
    · simp only [if_pos same, Nat.add_right_cancel_iff]
    · simp only [if_neg same, if_pos (Or.inl (apart same))]
  · simp only [if_neg shorter, if_neg (show ¬n1 + 1 ≤ n2 + 1 by omega), ngxMemcmp]
    by_cases same : a = b
    · simp only [if_pos same, Nat.add_right_cancel_iff]
    · simp only [if_neg same, if_pos (Or.inl (apart same))]

theorem ngxMemn2cmp_spec (x y : List UInt8) :
    (ngxMemn2cmp x y x.length y.length < 0 ↔ bytes x < bytes y) ∧
      (ngxMemn2cmp x y x.length y.length = 0 ↔ x = y) := by
  induction x generalizing y with
  | nil =>
    cases y with
    | nil => simp [ngxMemn2cmp, bytes]
    | cons b y => simp [ngxMemn2cmp, bytes]
  | cons a x ih =>
    cases y with
    | nil => simp [ngxMemn2cmp, bytes]
    | cons b y =>
      rw [List.length_cons, List.length_cons, ngxMemn2cmp_cons]
      by_cases same : a = b
      · subst same
        rw [if_pos rfl, (ih y).1, (ih y).2]
        simp [bytes]
      · have differ : a.toNat ≠ b.toNat := fun equal => same (UInt8.toNat_inj.mp equal)
        rw [if_neg same]
        constructor
        · simp only [bytes, List.map_cons, List.cons_lt_cons_iff, differ, false_and, or_false]
          omega
        · simp only [List.cons.injEq, same, false_and, iff_false]
          omega

end Compare

def stored (lr : Entry) : List UInt8 := lr.data.take lr.len

def order (hash : Nat) (data : List UInt8) : Nat ×ₗ List Nat := toLex (hash, bytes data)

def ord (entries : Nat → Entry) (i : Nat) : Nat ×ₗ List Nat :=
  order (entries i).hash (stored (entries i))

section Order

variable {entries : Nat → Entry} {i j hash : Nat} {data : List UInt8}

theorem stored_length (fits : (entries i).len ≤ (entries i).data.length) :
    (stored (entries i)).length = (entries i).len := by
  rw [stored, List.length_take, Nat.min_eq_left fits]

theorem order_injective {hash' : Nat} {data' : List UInt8} (same : order hash data = order hash' data') :
    hash = hash' ∧ data = data' := by
  have pair := Prod.ext_iff.mp (toLex.injective same)
  exact ⟨pair.1, bytes_injective pair.2⟩

theorem entryLess_eq (fits : (entries i).len ≤ (entries i).data.length)
    (fits' : (entries j).len ≤ (entries j).data.length) :
    entryLess entries i j = decide (ord entries i < ord entries j) := by
  have compare := (ngxMemn2cmp_spec (stored (entries i)) (stored (entries j))).1
  rw [stored_length fits, stored_length fits', stored, stored, ngxMemn2cmp_take] at compare
  simp only [entryLess, ord, order, Prod.Lex.toLex_lt_toLex]
  rcases Nat.lt_trichotomy (entries i).hash (entries j).hash with below | equal | above
  · simp [below]
  · simp [equal, compare, stored]
  · simp [above, Nat.not_lt_of_gt above, Nat.ne_of_gt above]

theorem entryTurn_eq (fits : (entries i).len ≤ (entries i).data.length) :
    entryTurn entries hash data i = cmp (order hash data) (ord entries i) := by
  obtain ⟨less, equal⟩ := ngxMemn2cmp_spec data (stored (entries i))
  have whole : data.take data.length = data := List.take_length
  have same := ngxMemn2cmp_take data (entries i).data data.length (entries i).len
  rw [whole] at same
  rw [stored_length fits, stored, same] at less equal
  simp only [entryTurn, ord, order, cmp, cmpUsing, Prod.Lex.toLex_lt_toLex]
  rcases Nat.lt_trichotomy hash (entries i).hash with below | equalHash | above
  · simp [below]
  · simp only [equalHash, Nat.lt_irrefl, if_false, false_or, true_and, stored, gt_iff_lt]
    rcases Int.lt_trichotomy (ngxMemn2cmp data (entries i).data data.length (entries i).len) 0 with
      neg | zero | pos
    · rw [if_neg (by omega), if_pos neg, if_pos (less.mp neg)]
    · have sameData := equal.mp zero
      rw [if_pos zero, ← sameData, if_neg (lt_irrefl _), if_neg (lt_irrefl _)]
    · have notLess : ¬bytes data < bytes ((entries i).data.take (entries i).len) := fun lt => by
        have := less.mpr lt
        omega
      have notSame : bytes data ≠ bytes ((entries i).data.take (entries i).len) := fun eq => by
        have := equal.mpr (bytes_injective eq)
        omega
      rw [if_neg (by omega), if_neg (by omega), if_neg notLess,
        if_pos (lt_of_le_of_ne (not_lt.mp notLess) (Ne.symm notSame))]
  · simp [above, Nat.not_lt_of_gt above, Nat.ne_of_gt above]

end Order

/-- The tree of a zone holds the nodes of its queue, in order. -/
structure ZoneInv (zone : Zone) (whole : ColorTree Nat) : Prop where
  shaped : Shaped zone.tree whole
  sorted : Sorted (ord zone.entries) whole.toList
  members : whole.toList.Perm zone.queue
  keys : ∀ i ∈ zone.queue, keyOf zone.tree i = i
  lens : ∀ i ∈ zone.queue, (zone.entries i).len ≤ (zone.entries i).data.length

section Zone

variable {zone : Zone} {whole : ColorTree Nat} {fuel burst now hash node n : Nat} {data : List UInt8}

theorem ZoneInv.nodup (inv : ZoneInv zone whole) : zone.queue.Nodup := by
  have nodup := inv.shaped.focus.nodup
  rw [ids, List.append_nil] at nodup
  exact inv.members.nodup_iff.mp nodup

theorem ZoneInv.length (inv : ZoneInv zone whole) : whole.toList.length = zone.queue.length :=
  inv.members.length_eq

theorem ZoneInv.touch (inv : ZoneInv zone whole) (entries : Nat → Entry) (queue : List Nat)
    (same : ∀ i, (entries i).hash = (zone.entries i).hash ∧ (entries i).len = (zone.entries i).len ∧
      (entries i).data = (zone.entries i).data)
    (perm : queue.Perm zone.queue) :
    ZoneInv { zone with entries := entries, queue := queue } whole := by
  have sameOrd : ord entries = ord zone.entries := by
    funext i
    obtain ⟨hash, len, data⟩ := same i
    rw [ord, ord, stored, stored, hash, len, data]
  refine ⟨inv.shaped, ?_, inv.members.trans perm.symm, ?_, ?_⟩
  · show Sorted (ord entries) whole.toList
    rw [sameOrd]
    exact inv.sorted
  · intro i member
    exact inv.keys i (perm.mem_iff.mp member)
  · intro i member
    obtain ⟨_, len, data⟩ := same i
    show (entries i).len ≤ (entries i).data.length
    rw [len, data]
    exact inv.lens i (perm.mem_iff.mp member)

theorem account_key (rate burst now : Nat) (lr : Entry) :
    (account rate burst now lr).2.2.hash = lr.hash ∧ (account rate burst now lr).2.2.len = lr.len ∧
      (account rate burst now lr).2.2.data = lr.data := by
  unfold account
  simp only
  split <;> exact ⟨rfl, rfl, rfl⟩

theorem ZoneInv.find (inv : ZoneInv zone whole) (enough : zone.queue.length < fuel) :
    (∃ i ∈ zone.queue, ord zone.entries i = order hash data ∧
        findNode (entryTurn zone.entries hash data) zone.tree.heap zone.tree.sentinel fuel
          zone.tree.root = some (some i)) ∨
      (∀ i ∈ zone.queue, ord zone.entries i ≠ order hash data) ∧
        findNode (entryTurn zone.entries hash data) zone.tree.heap zone.tree.sentinel fuel
          zone.tree.root = some none := by
  have agrees : ∀ i ∈ whole.toList, entryTurn zone.entries hash data i =
      cmp (order hash data) (ord zone.entries i) := by
    intro i member
    exact entryTurn_eq (inv.lens i (inv.members.mem_iff.mp member))
  rcases findNode_spec fuel inv.shaped inv.sorted agrees (by rw [inv.length]; exact enough) with
    ⟨i, member, same, found⟩ | ⟨none, found⟩
  · exact Or.inl ⟨i, inv.members.mem_iff.mp member, same, found⟩
  · exact Or.inr ⟨fun i member => none i (inv.members.mem_iff.mpr member), found⟩

theorem ZoneInv.lookup (inv : ZoneInv zone whole) (burst now hash : Nat) (data : List UInt8)
    (enough : zone.queue.length < fuel) :
    (∃ i ∈ zone.queue, ord zone.entries i = order hash data ∧
      ngxHttpLimitReqLookup fuel burst now zone hash data =
        some ({ zone with
            queue := i :: zone.queue.erase i
            entries := setEntry zone.entries i (account zone.rate burst now (zone.entries i)).2.2 },
          some i, (account zone.rate burst now (zone.entries i)).1,
          (account zone.rate burst now (zone.entries i)).2.1) ∧
      ZoneInv { zone with
          queue := i :: zone.queue.erase i
          entries := setEntry zone.entries i (account zone.rate burst now (zone.entries i)).2.2 }
        whole) ∨
    (∀ i ∈ zone.queue, ord zone.entries i ≠ order hash data) ∧
      ngxHttpLimitReqLookup fuel burst now zone hash data = some (zone, none, .declined, 0) := by
  rcases @ZoneInv.find zone whole fuel hash data inv enough with ⟨i, member, same, found⟩ | ⟨none, found⟩
  · refine Or.inl ⟨i, member, same, by rw [ngxHttpLimitReqLookup, found]; rfl, ?_⟩
    refine inv.touch _ _ ?_ (List.perm_cons_erase member).symm
    intro j
    by_cases here : j = i
    · subst here
      simp only [setEntry, if_true]
      exact account_key zone.rate burst now (zone.entries j)
    · simp only [setEntry, if_neg here]
      exact ⟨trivial, trivial, trivial⟩
  · exact Or.inr ⟨none, by rw [ngxHttpLimitReqLookup, found]; rfl⟩

def Idle (rate now : Nat) (lr : Entry) : Prop :=
  60000 ≤ elapsed now lr.last ∧
    signed ((lr.excess : Int) - drained rate (elapsed now lr.last)) ≤ 0

structure Expired (zone zone' : Zone) (whole : ColorTree Nat) (removed : List Nat) : Prop where
  inv : ZoneInv zone' whole
  queue : zone.queue = zone'.queue ++ removed
  entries : zone'.entries = zone.entries
  rate : zone'.rate = zone.rate
  sentinel : zone'.tree.sentinel = zone.tree.sentinel

theorem ZoneInv.removeLast (inv : ZoneInv zone whole) {front : List Nat}
    (split : zone.queue = front ++ [node]) (enough : 2 * zone.queue.length ≤ fuel) :
    ∃ tree whole', ngxRbtreeDelete fuel zone.tree node = some tree ∧
      Expired zone { zone with tree := tree, queue := zone.queue.dropLast } whole' [node] := by
  have inTree : node ∈ whole.toList := inv.members.mem_iff.mpr (by rw [split]; simp)
  obtain ⟨tree, whole', run, shaped, part, perm, sentinel, keys⟩ :=
    ngxRbtreeDelete_order fuel inv.shaped inTree (by rw [inv.length]; exact enough)
  have front_eq : zone.queue.dropLast = front := by rw [split, List.dropLast_concat]
  have members : whole'.toList.Perm front := by
    have both := perm.symm.trans inv.members
    rw [split] at both
    exact (both.trans (List.perm_append_singleton node front)).cons_inv
  have nodup := inv.nodup
  rw [split] at nodup
  have gone : ∀ i ∈ front, i ≠ node := by
    rintro i member rfl
    exact (List.nodup_append.mp nodup).2.2 i member i (by simp) rfl
  refine ⟨tree, whole', run, ⟨shaped, ?_, ?_, ?_, ?_⟩, ?_, rfl, rfl, sentinel⟩
  · exact inv.sorted.sublist part fun _ _ => rfl
  · rw [front_eq]
    exact members
  · intro i member
    simp only [front_eq] at member
    rw [keys i (gone i member)]
    exact inv.keys i (by rw [split]; exact List.mem_append_left _ member)
  · intro i member
    simp only [front_eq] at member
    exact inv.lens i (by rw [split]; exact List.mem_append_left _ member)
  · show zone.queue = zone.queue.dropLast ++ [node]
    rw [front_eq, split]

theorem Expired.trans {mid zone' : Zone} {whole' : ColorTree Nat} {first second : List Nat}
    (one : Expired zone mid whole first) (two : Expired mid zone' whole' second) :
    Expired zone zone' whole' (second ++ first) := by
  refine ⟨two.inv, ?_, two.entries.trans one.entries, two.rate.trans one.rate,
    two.sentinel.trans one.sentinel⟩
  rw [one.queue, two.queue, List.append_assoc]

theorem expireLoop_spec (turns : Nat) (inv : ZoneInv zone whole) (enough : 2 * zone.queue.length ≤ fuel) :
    ∃ zone' whole' removed, expireLoop fuel now turns n zone = some zone' ∧
      Expired zone zone' whole' removed ∧
      (n ≠ 0 → ∀ i ∈ removed, Idle zone.rate now (zone.entries i)) := by
  have stays : Expired zone zone whole [] := ⟨inv, by simp, rfl, rfl, rfl⟩
  induction turns generalizing zone whole n with
  | zero => exact ⟨zone, whole, [], rfl, stays, by simp⟩
  | succ turns ih =>
    rw [expireLoop]
    cases last : zone.queue.getLast? with
    | none => exact ⟨zone, whole, [], rfl, stays, by simp⟩
    | some node =>
      obtain ⟨front, split⟩ := List.getLast?_eq_some_iff.mp last
      simp only
      by_cases busy : n ≠ 0 ∧ (elapsed now (zone.entries node).last < 60000 ∨
          signed (((zone.entries node).excess : Int) -
            drained zone.rate (elapsed now (zone.entries node).last)) > 0)
      · rw [if_pos busy]
        exact ⟨zone, whole, [], rfl, stays, by simp⟩
      · rw [if_neg busy]
        obtain ⟨tree, whole', run, gone⟩ := inv.removeLast split enough
        have shorter : 2 * zone.queue.dropLast.length ≤ fuel := by
          rw [List.length_dropLast]
          omega
        obtain ⟨zone', whole'', removed, done, rest, idle⟩ :=
          @ih { zone with tree := tree, queue := zone.queue.dropLast } whole' (n + 1) gone.inv
            shorter ⟨gone.inv, by simp, rfl, rfl, rfl⟩
        refine ⟨zone', whole'', removed ++ [node], by rw [run]; exact done, gone.trans rest, ?_⟩
        intro notForced i member
        rcases List.mem_append.mp member with inRest | isNode
        · exact idle (by omega) i inRest
        · rw [List.mem_singleton.mp isNode]
          by_contra notIdle
          apply busy
          refine ⟨notForced, ?_⟩
          by_contra both
          rw [not_or, Nat.not_lt, gt_iff_lt, Int.not_lt] at both
          exact notIdle ⟨both.1, both.2⟩

theorem ZoneInv.expire (inv : ZoneInv zone whole) (now : Nat) (enough : 2 * zone.queue.length ≤ fuel) :
    ∃ zone' whole' removed, ngxHttpLimitReqExpire fuel now zone n = some zone' ∧
      Expired zone zone' whole' removed ∧
      (n ≠ 0 → ∀ i ∈ removed, Idle zone.rate now (zone.entries i)) :=
  expireLoop_spec (3 - n) inv enough

theorem ZoneInv.addNode (inv : ZoneInv zone whole) (now : Nat) (data : List UInt8)
    (fresh : node ∉ zone.queue) (real : node ≠ zone.tree.sentinel)
    (enough : zone.queue.length < fuel) :
    ∃ zone' whole', addNode fuel now zone node data = some zone' ∧ ZoneInv zone' whole' ∧
      zone'.queue = node :: zone.queue ∧
      zone'.entries = setEntry zone.entries node (newEntry (ngxCrc32Short data) now data) ∧
      zone'.rate = zone.rate ∧ zone'.tree.sentinel = zone.tree.sentinel := by
  set entries := setEntry zone.entries node (newEntry (ngxCrc32Short data) now data) with entries_eq
  set tree : RbTree := { zone.tree with heap := zone.tree.heap.setKey node node } with tree_eq
  have outside : node ∉ whole.toList := fun member => fresh (inv.members.mem_iff.mp member)
  have old {i : Nat} (differ : i ≠ node) : entries i = zone.entries i := if_neg differ
  have mine : entries node = newEntry (ngxCrc32Short data) now data := if_pos rfl
  have apart {i : Nat} (member : i ∈ whole.toList) : i ≠ node := fun same => outside (same ▸ member)
  have heap {i : Nat} (differ : i ≠ node) : tree.heap i = zone.tree.heap i :=
    setKey_ne _ _ _ _ differ
  have shaped : Shaped tree whole := by
    refine ⟨inv.shaped.focus.congr ?_ ?_, inv.shaped.balanced⟩
    · intro i member
      rw [ids, List.append_nil] at member
      exact heap (apart member)
    · exact (congrArg Node.color (heap (Ne.symm real))).trans inv.shaped.focus.black
  have sameOrd : ∀ i ∈ whole.toList, ord entries i = ord zone.entries i := by
    intro i member
    rw [ord, ord, old (apart member)]
  have sorted : Sorted (ord entries) whole.toList :=
    inv.sorted.sublist (List.Sublist.refl _) sameOrd
  have keyNode : keyOf tree node = node := by simp [keyOf, tree_eq, Heap.setKey]
  have lenNode : (entries node).len ≤ (entries node).data.length := by
    rw [mine]
    exact Nat.mod_le _ _
  have agrees : ∀ i ∈ whole.toList,
      entryLess entries (keyOf tree node) (keyOf tree i) = decide (ord entries node < ord entries i) := by
    intro i member
    have inQueue := inv.members.mem_iff.mp member
    have keyI : keyOf tree i = i := by
      rw [keyOf, heap (apart member)]
      exact inv.keys i inQueue
    rw [keyNode, keyI]
    refine entryLess_eq lenNode ?_
    rw [old (apart member)]
    exact inv.lens i inQueue
  obtain ⟨tree', whole', run, shaped', sorted', perm, kept⟩ :=
    ngxRbtreeInsert_order fuel shaped sorted agrees real outside (by rw [inv.length]; exact enough)
  refine ⟨{ zone with tree := tree', entries := entries, queue := node :: zone.queue }, whole', ?_,
    ⟨shaped', sorted', perm.trans (inv.members.cons node), ?_, ?_⟩, rfl, rfl, rfl, kept.sentinel⟩
  · rw [LimitReq.addNode]
    simp only [← entries_eq, ← tree_eq, run, Option.map_some]
  · intro i member
    show keyOf tree' i = i
    have same : keyOf tree' i = keyOf tree i := kept.keys i
    rw [same]
    rcases List.mem_cons.mp member with rfl | inQueue
    · exact keyNode
    · rw [keyOf, heap fun same => fresh (same ▸ inQueue)]
      exact inv.keys i inQueue
  · intro i member
    show (entries i).len ≤ (entries i).data.length
    rcases List.mem_cons.mp member with rfl | inQueue
    · exact lenNode
    · rw [old fun same => fresh (same ▸ inQueue)]
      exact inv.lens i inQueue

end Zone

/-- `ngx_slab_alloc_locked` returns memory that is not in use. -/
def Fresh (alloc : Zone → Option Nat) : Prop :=
  ∀ zone node, alloc zone = some node → node ∉ zone.queue ∧ node ≠ zone.tree.sentinel

inductive Served (alloc : Zone → Option Nat) (burst now : Nat) (data : List UInt8)
    (zone zone' : Zone) : Outcome → Prop where
  | found {node : Nat} {kept removed : List Nat} (queue : zone.queue = kept ++ removed)
      (idle : ∀ i ∈ removed, Idle zone.rate now (zone.entries i)) (member : node ∈ kept)
      (key : ord zone.entries node = order (ngxCrc32Short data) data)
      (queue' : zone'.queue = node :: kept.erase node)
      (entries' : zone'.entries =
        setEntry zone.entries node (account zone.rate burst now (zone.entries node)).2.2) :
      Served alloc burst now data zone zone'
        (.found node (account zone.rate burst now (zone.entries node)).1
          (account zone.rate burst now (zone.entries node)).2.1)
  | created {node : Nat} {kept forced removed : List Nat}
      (queue : zone.queue = kept ++ forced ++ removed)
      (idle : ∀ i ∈ removed, Idle zone.rate now (zone.entries i))
      (absent : ∀ i ∈ kept ++ forced, ord zone.entries i ≠ order (ngxCrc32Short data) data)
      (full : forced = [] ∨ ∃ zone, alloc zone = none)
      (fresh : node ∉ kept) (queue' : zone'.queue = node :: kept)
      (entries' : zone'.entries =
        setEntry zone.entries node (newEntry (ngxCrc32Short data) now data)) :
      Served alloc burst now data zone zone' (.created node)
  | noMemory {removed : List Nat} (queue : zone.queue = zone'.queue ++ removed)
      (full : ∃ zone, alloc zone = none) (entries' : zone'.entries = zone.entries) :
      Served alloc burst now data zone zone' .noMemory

section Serve

variable {alloc : Zone → Option Nat} {zone zone' : Zone} {whole : ColorTree Nat}
  {fuel burst now : Nat} {data : List UInt8} {outcome : Outcome}

theorem Served.length (served : Served alloc burst now data zone zone' outcome) :
    zone'.queue.length ≤ zone.queue.length + 1 := by
  cases served with
  | found queue _ member _ queue' _ =>
    rw [queue, queue', List.length_cons, List.length_erase_of_mem member, List.length_append]
    omega
  | created queue _ _ _ _ queue' _ =>
    rw [queue, queue', List.length_cons, List.length_append, List.length_append]
    omega
  | noMemory queue _ _ =>
    rw [queue, List.length_append]
    omega

theorem ZoneInv.serve (inv : ZoneInv zone whole) (fresh : Fresh alloc) (burst now : Nat)
    (data : List UInt8) (enough : 2 * (zone.queue.length + 1) ≤ fuel) :
    ∃ zone' whole' outcome, underMutex alloc fuel burst now zone data = some (zone', outcome) ∧
      ZoneInv zone' whole' ∧ zone'.rate = zone.rate ∧
      zone'.tree.sentinel = zone.tree.sentinel ∧
      Served alloc burst now data zone zone' outcome := by
  obtain ⟨first, whole1, removed, expired, one, idle⟩ :=
    @ZoneInv.expire zone whole fuel 1 inv now (by omega)
  have idle := idle (by decide)
  have length1 : zone.queue.length = first.queue.length + removed.length := by
    rw [one.queue, List.length_append]
  rw [underMutex, expired, Option.bind_some]
  rcases one.inv.lookup burst now (ngxCrc32Short data) data (show first.queue.length < fuel by omega)
    with ⟨i, member, same, looked, inv'⟩ | ⟨absent, looked⟩
  · rw [looked, Option.bind_some]
    rw [one.entries] at same
    refine ⟨_, whole1, _, rfl, inv', one.rate, one.sentinel, ?_⟩
    have found := @Served.found alloc burst now data zone
      { first with
        queue := i :: first.queue.erase i
        entries := setEntry first.entries i
          (account first.rate burst now (first.entries i)).2.2 } i first.queue removed one.queue idle
      member same rfl (by rw [one.entries, one.rate])
    rw [one.entries, one.rate]
    rw [one.entries, one.rate] at found
    exact found
  · rw [looked, Option.bind_some]
    rw [one.entries] at absent
    cases given : alloc first with
    | some node =>
      obtain ⟨outside, real⟩ := fresh first node given
      obtain ⟨zone', whole', added, inv', queue', entries', rate', sentinel'⟩ :=
        one.inv.addNode now data outside real (show first.queue.length < fuel by omega)
      simp only [given, added, Option.map_some]
      rw [one.entries] at entries'
      exact ⟨zone', whole', _, rfl, inv', rate'.trans one.rate, sentinel'.trans one.sentinel,
        .created (show zone.queue = first.queue ++ [] ++ removed by rw [List.append_nil, one.queue])
          idle (by rwa [List.append_nil]) (Or.inl rfl) outside queue' entries'⟩
    | none =>
      obtain ⟨second, whole2, forced, expired', two, _⟩ :=
        @ZoneInv.expire first whole1 fuel 0 one.inv now (by omega)
      have length2 : first.queue.length = second.queue.length + forced.length := by
        rw [two.queue, List.length_append]
      have both : zone.queue = second.queue ++ forced ++ removed := by rw [one.queue, two.queue]
      simp only [given, expired', Option.bind_some]
      cases again : alloc second with
      | some node =>
        obtain ⟨outside, real⟩ := fresh second node again
        obtain ⟨zone', whole', added, inv', queue', entries', rate', sentinel'⟩ :=
          two.inv.addNode now data outside real (show second.queue.length < fuel by omega)
        simp only [added, Option.map_some]
        rw [two.entries, one.entries] at entries'
        exact ⟨zone', whole', _, rfl, inv', rate'.trans (two.rate.trans one.rate),
          sentinel'.trans (two.sentinel.trans one.sentinel),
          .created both idle (by rwa [← two.queue]) (Or.inr ⟨first, given⟩) outside queue'
            entries'⟩
      | none =>
        exact ⟨second, whole2, _, rfl, two.inv, two.rate.trans one.rate,
          two.sentinel.trans one.sentinel,
          .noMemory (by rw [both, List.append_assoc]) ⟨first, given⟩
            (two.entries.trans one.entries)⟩

theorem initZone_inv (rate : Nat) (heap : Heap) (sentinel : Nat) (entries : Nat → Entry) :
    ZoneInv (ngxHttpLimitReqInitZone rate heap sentinel entries) .nil := by
  obtain ⟨⟨focus, balanced, _⟩, _⟩ := tracks_init heap sentinel
  exact ⟨⟨focus, balanced⟩, List.Pairwise.nil, List.Perm.nil, by simp [ngxHttpLimitReqInitZone],
    by simp [ngxHttpLimitReqInitZone]⟩

end Serve

/-- A request for the key `key` at the time `now`. -/
structure Request where
  now : Nat
  key : List UInt8
  deriving DecidableEq, Repr

/-- What became of a request, and the zone behind it. -/
structure Event where
  now : Nat
  outcome : Outcome
  zone : Zone

def trace (alloc : Zone → Option Nat) (fuel burst : Nat) : Zone → List Request → Option (List Event)
  | _, [] => some []
  | zone, request :: rest =>
    (underMutex alloc fuel burst request.now zone request.key).bind fun (zone, outcome) =>
      (trace alloc fuel burst zone rest).map fun events => ⟨request.now, outcome, zone⟩ :: events

end NgxFormal.Http.LimitReq
