import Mathlib.Data.List.Count
import Mathlib.Data.List.GetD
import NgxFormal.Http.RoundRobin

/-! How often each of several healthy peers is chosen. -/

namespace NgxFormal.Http.RoundRobin

def left (peers : List Peer) (i : Nat) : Int := (peers.getD i default).currentWeight

def Calm (peers : List Peer) : Prop :=
  ∀ peer ∈ peers, peer.down = false ∧ 0 < peer.weight ∧ peer.fails = 0 ∧ 0 ≤ peer.currentWeight

section Choice

variable {peers rest : List Peer} {mine : Peer} {i n : Nat}

theorem compareNext_spec (calm : Calm rest) :
    compareNext n mine i rest = some n ∨
      ∃ j < rest.length, 0 < left rest j ∧ compareNext n mine i rest = some (i + j) := by
  induction rest generalizing n mine i with
  | nil => exact Or.inl rfl
  | cons peer rest ih =>
    obtain ⟨⟨_, weight, _, _⟩, calmRest⟩ := List.forall_mem_cons.mp calm
    rw [compareNext]
    by_cases empty : peer.currentWeight ≤ 0
    · rw [if_pos empty]
      rcases @ih mine (i + 1) n calmRest with same | ⟨j, inside, positive, found⟩
      · exact Or.inl same
      · refine Or.inr ⟨j + 1, by rw [List.length_cons]; omega, positive, ?_⟩
        rw [found]
        congr 1
        omega
    · rw [if_neg empty, if_neg (by omega)]
      by_cases larger : (scaled mine.currentWeight).tdiv peer.currentWeight >
          (scaled mine.weight).tdiv peer.weight
      · rw [if_pos larger]
        exact Or.inl rfl
      · rw [if_neg larger]
        rcases @ih peer (i + 1) i calmRest with same | ⟨j, inside, positive, found⟩
        · exact Or.inr ⟨0, by simp, by simpa [left] using empty, same⟩
        · refine Or.inr ⟨j + 1, by rw [List.length_cons]; omega, positive, ?_⟩
          rw [found]
          congr 1
          omega

theorem findPeer_spec (calm : Calm peers) :
    ((∀ peer ∈ peers, peer.currentWeight = 0) ∧ findPeer i peers = some none) ∨
      ∃ j < peers.length, 0 < left peers j ∧ findPeer i peers = some (some (i + j)) := by
  induction peers generalizing i with
  | nil => exact Or.inl ⟨by simp, rfl⟩
  | cons peer rest ih =>
    obtain ⟨⟨_, _, _, nonneg⟩, calmRest⟩ := List.forall_mem_cons.mp calm
    rw [findPeer]
    by_cases empty : peer.currentWeight ≤ 0
    · rw [if_pos empty]
      rcases @ih (i + 1) calmRest with ⟨zero, found⟩ | ⟨j, inside, positive, found⟩
      · exact Or.inl ⟨List.forall_mem_cons.mpr ⟨by omega, zero⟩, found⟩
      · refine Or.inr ⟨j + 1, by rw [List.length_cons]; omega, positive, ?_⟩
        rw [found]
        congr 2
        omega
    · rw [if_neg empty]
      rcases @compareNext_spec rest peer (i + 1) i calmRest with
        same | ⟨j, inside, positive, found⟩
      · exact Or.inr ⟨0, by simp, by simpa [left] using empty, by rw [same]; rfl⟩
      · refine Or.inr ⟨j + 1, by rw [List.length_cons]; omega, positive, ?_⟩
        rw [found]
        simp only [Option.map_some]
        congr 2
        omega

theorem Calm.reset (calm : Calm peers) : Calm (resetWeights peers) := by
  intro peer member
  obtain ⟨old, inside, rfl⟩ := List.mem_map.mp member
  obtain ⟨down, weight, fails, _⟩ := calm old inside
  exact ⟨down, weight, fails, Int.le_of_lt weight⟩

/-- The peers that a choice is made from. -/
def base (peers : List Peer) : List Peer :=
  if ∀ peer ∈ peers, peer.currentWeight = 0 then resetWeights peers else peers

theorem ngxHttpUpstreamGetPeer_spec (calm : Calm peers) (some_peer : peers ≠ []) :
    ∃ n < peers.length, 0 < left (base peers) n ∧
      ngxHttpUpstreamGetPeer peers = some (n, base peers) ∧
      ngxHttpUpstreamGetPeer peers = ngxHttpUpstreamGetPeer (base peers) := by
  unfold ngxHttpUpstreamGetPeer base
  rcases @findPeer_spec peers 0 calm with ⟨zero, found⟩ | ⟨j, inside, positive, found⟩
  · rw [if_pos zero, found]
    rcases @findPeer_spec (resetWeights peers) 0 calm.reset with ⟨none, _⟩ | ⟨j, inside, positive, found'⟩
    · obtain ⟨peer, member⟩ := List.exists_mem_of_ne_nil peers some_peer
      have weight := (calm peer member).2.1
      have noWeight : peer.weight = 0 :=
        none { peer with currentWeight := peer.weight } (List.mem_map_of_mem member)
      omega
    · refine ⟨0 + j, by simpa [resetWeights] using inside, by simpa using positive, ?_, ?_⟩
      · simp [found']
      · simp [found']
  · have some_left : ¬∀ peer ∈ peers, peer.currentWeight = 0 := by
      intro zero
      have member : peers.getD j default ∈ peers := by
        rw [List.getD_eq_getElem _ _ inside]
        exact List.getElem_mem inside
      have none := zero _ member
      rw [left] at positive
      omega
    rw [if_neg some_left, found]
    exact ⟨0 + j, by omega, by simpa using positive, rfl, rfl⟩

end Choice

def pick (peers : List Peer) : Nat × List Peer :=
  let (n, peers) := (ngxHttpUpstreamGetPeer peers).getD (0, peers)
  let peer := peers.getD n default
  (n, peers.set n { peer with currentWeight := peer.currentWeight - 1 })

/-- The choices of `m` requests. -/
def picks : Nat → List Peer → List Nat × List Peer
  | 0, peers => ([], peers)
  | m + 1, peers =>
    let (n, peers) := pick peers
    let (later, peers) := picks m peers
    (n :: later, peers)

section Pick

variable {peers : List Peer}

theorem left_set (peers : List Peer) (n : Nat) (peer : Peer) (inside : n < peers.length) (i : Nat) :
    left (peers.set n peer) i = if i = n then peer.currentWeight else left peers i := by
  unfold left
  by_cases same : i = n
  · subst same
    simp [List.getD_eq_getElem?_getD, inside]
  · simp [List.getD_eq_getElem?_getD, Ne.symm same, same]

theorem reset_set (peers : List Peer) (n : Nat) (w : Int) :
    resetWeights (peers.set n { peers.getD n default with currentWeight := w }) =
      resetWeights peers := by
  unfold resetWeights
  apply List.ext_getElem
  · simp
  · intro i first second
    simp only [List.length_map, List.length_set] at first
    simp only [List.getElem_map, List.getElem_set]
    by_cases same : n = i
    · subst same
      rw [if_pos rfl, List.getD_eq_getElem _ _ first]
    · rw [if_neg same]

theorem reset_base (peers : List Peer) : resetWeights (base peers) = resetWeights peers := by
  unfold base
  split
  · unfold resetWeights
    rw [List.map_map]
    rfl
  · rfl

theorem base_length (peers : List Peer) : (base peers).length = peers.length := by
  unfold base
  split
  · simp [resetWeights]
  · rfl

theorem Calm.base (calm : Calm peers) : Calm (base peers) := by
  unfold RoundRobin.base
  split
  · exact calm.reset
  · exact calm

theorem pick_spec (calm : Calm peers) (some_peer : peers ≠ []) :
    (pick peers).1 < peers.length ∧ 0 < left (base peers) (pick peers).1 ∧
      (pick peers).2 = (base peers).set (pick peers).1
        { (base peers).getD (pick peers).1 default with
          currentWeight := left (base peers) (pick peers).1 - 1 } ∧
      Calm (pick peers).2 ∧ resetWeights (pick peers).2 = resetWeights peers ∧
      (pick peers).2.length = peers.length ∧ pick peers = pick (base peers) := by
  obtain ⟨n, inside, positive, found, same⟩ := ngxHttpUpstreamGetPeer_spec calm some_peer
  have isPick : pick peers = (n, (base peers).set n
      { (base peers).getD n default with currentWeight := left (base peers) n - 1 }) := by
    rw [pick, found]
    rfl
  have again : pick peers = pick (base peers) := by
    have atBase := found
    rw [same] at atBase
    rw [isPick, pick, atBase]
    rfl
  rw [← again, isPick]
  have inBase : n < (base peers).length := by rw [base_length]; exact inside
  have member : (base peers).getD n default ∈ base peers := by
    rw [List.getD_eq_getElem _ _ inBase]
    exact List.getElem_mem inBase
  refine ⟨inside, positive, rfl, ?_, ?_, ?_, rfl⟩
  · intro peer there
    rcases List.mem_or_eq_of_mem_set there with old | rfl
    · exact calm.base peer old
    · obtain ⟨down, weight, fails, _⟩ := calm.base _ member
      exact ⟨down, weight, fails, show 0 ≤ left (base peers) n - 1 by omega⟩
  · rw [reset_set, reset_base]
  · rw [List.length_set, base_length]

def total (peers : List Peer) : Int := (peers.map Peer.currentWeight).sum

theorem total_set (peers : List Peer) (n : Nat) (inside : n < peers.length) (w : Int) :
    total (peers.set n { peers.getD n default with currentWeight := w }) =
      total peers + w - left peers n := by
  unfold total left
  induction peers generalizing n with
  | nil => cases inside
  | cons peer rest ih =>
    cases n with
    | zero =>
      simp only [List.set_cons_zero, List.map_cons, List.sum_cons, List.getD_cons_zero]
      omega
    | succ n =>
      have tail := ih n (by simpa using inside)
      simp only [List.set_cons_succ, List.map_cons, List.sum_cons, List.getD_cons_succ]
      rw [tail]
      omega

theorem total_nonneg (calm : Calm peers) : 0 ≤ total peers := by
  unfold total
  induction peers with
  | nil => simp
  | cons peer rest ih =>
    obtain ⟨⟨_, _, _, nonneg⟩, calmRest⟩ := List.forall_mem_cons.mp calm
    have tail := ih calmRest
    simp only [List.map_cons, List.sum_cons]
    omega

theorem total_zero (calm : Calm peers) (none : total peers = 0) :
    ∀ peer ∈ peers, peer.currentWeight = 0 := by
  unfold total at none
  induction peers with
  | nil => simp
  | cons peer rest ih =>
    obtain ⟨⟨_, _, _, nonneg⟩, calmRest⟩ := List.forall_mem_cons.mp calm
    have tail : 0 ≤ (rest.map Peer.currentWeight).sum := total_nonneg calmRest
    simp only [List.map_cons, List.sum_cons] at none
    exact List.forall_mem_cons.mpr ⟨by omega, ih calmRest (by omega)⟩

theorem base_of_left (positive : 0 < total peers) : base peers = peers := by
  unfold base
  rw [if_neg]
  intro zero
  have none : peers.map Peer.currentWeight = peers.map fun _ => 0 :=
    List.map_congr_left zero
  rw [total, none] at positive
  simp at positive

theorem picks_count (m : Nat) (calm : Calm peers) (enough : (m : Int) ≤ total peers) :
    Calm (picks m peers).2 ∧ resetWeights (picks m peers).2 = resetWeights peers ∧
      total (picks m peers).2 = total peers - m ∧ (picks m peers).1.length = m ∧
      ∀ i, ((picks m peers).1.count i : Int) + left (picks m peers).2 i = left peers i := by
  induction m generalizing peers with
  | zero => exact ⟨calm, rfl, by simp [picks], rfl, by simp [picks]⟩
  | succ m ih =>
    have positive : 0 < total peers := by omega
    have some_peer : peers ≠ [] := by
      rintro rfl
      simp [total] at positive
    obtain ⟨inside, _, next, calm', reset, _, _⟩ := pick_spec calm some_peer
    rw [base_of_left positive] at next
    have less : total (pick peers).2 = total peers - 1 := by
      rw [next, total_set _ _ inside]
      omega
    obtain ⟨calm'', reset', rest, length, counts⟩ := ih calm' (by rw [less]; omega)
    refine ⟨calm'', reset'.trans reset, ?_, by simp [picks, length], ?_⟩
    · simp only [picks]
      omega
    · intro i
      have count := counts i
      have here := left_set peers (pick peers).1
        { peers.getD (pick peers).1 default with
          currentWeight := left peers (pick peers).1 - 1 } inside i
      rw [← next] at here
      simp only [picks, List.count_cons]
      by_cases same : i = (pick peers).1
      · subst same
        simp only [if_true, beq_self_eq_true] at here ⊢
        omega
      · have differ : ¬((pick peers).1 == i) = true := by simpa using Ne.symm same
        rw [if_neg same] at here
        rw [if_neg differ]
        omega

theorem picks_add (a b : Nat) (peers : List Peer) :
    picks (a + b) peers =
      ((picks a peers).1 ++ (picks b (picks a peers).2).1, (picks b (picks a peers).2).2) := by
  induction a generalizing peers with
  | zero => rw [Nat.zero_add]; rfl
  | succ a ih =>
    rw [Nat.add_right_comm]
    simp only [picks, ih, List.cons_append]

theorem picks_length (m : Nat) (peers : List Peer) : (picks m peers).1.length = m := by
  induction m generalizing peers with
  | zero => rfl
  | succ m ih => simp [picks, ih]

end Pick

section Cycle

variable {full : List Peer} {cycle : Nat}

/-- All peers have their whole weight; `cycle` is the sum of the weights. -/
structure Full (full : List Peer) (cycle : Nat) : Prop where
  calm : Calm full
  some_peer : full ≠ []
  whole : resetWeights full = full
  sum : total full = cycle

theorem Full.positive (start : Full full cycle) : 0 < cycle := by
  rcases Nat.eq_zero_or_pos cycle with zero | positive
  · obtain ⟨peer, member⟩ := List.exists_mem_of_ne_nil full start.some_peer
    have sum := start.sum
    rw [zero] at sum
    have none := total_zero start.calm sum
    have weight := (start.calm peer member).2.1
    rw [← start.whole] at member
    obtain ⟨old, inside, rfl⟩ := List.mem_map.mp member
    have oldNone := none _ (by rw [← start.whole]; exact List.mem_map_of_mem inside)
    simp only at weight oldNone
    omega
  · exact positive

theorem Full.again (start : Full full cycle) {m : Nat} (positive : 0 < m) :
    picks m (picks cycle full).2 = picks m full := by
  obtain ⟨calm, reset, rest, _⟩ := picks_count cycle start.calm (Int.le_of_eq start.sum.symm)
  rw [start.sum, Int.sub_self] at rest
  have isBase : base (picks cycle full).2 = full := by
    rw [base, if_pos (total_zero calm rest), reset, start.whole]
  have some_peer : (picks cycle full).2 ≠ [] := by
    intro empty
    rw [empty] at isBase
    exact start.some_peer (isBase.symm.trans (by simp [base, resetWeights]))
  obtain ⟨_, _, _, _, _, _, same⟩ := pick_spec calm some_peer
  obtain ⟨n, rfl⟩ : ∃ n, m = n + 1 := ⟨m - 1, by omega⟩
  simp only [picks, same, isBase]

theorem Full.reached (start : Full full cycle) (m : Nat) :
    ∃ k ≤ cycle, (picks m full).2 = (picks k full).2 := by
  have positive := start.positive
  induction m with
  | zero => exact ⟨0, Nat.zero_le _, rfl⟩
  | succ m ih =>
    obtain ⟨k, inside, same⟩ := ih
    have next : (picks (m + 1) full).2 = (picks 1 (picks k full).2).2 := by
      rw [picks_add, same]
    rcases Nat.lt_or_eq_of_le inside with less | rfl
    · exact ⟨k + 1, less, by rw [next, picks_add k 1]⟩
    · exact ⟨1, positive, by rw [next, start.again Nat.one_pos]⟩

theorem Full.count (start : Full full cycle) (m i : Nat) :
    ((picks cycle (picks m full).2).1.count i : Int) = left full i := by
  obtain ⟨k, inside, same⟩ := start.reached m
  obtain ⟨j, rfl⟩ : ∃ j, cycle = k + j := ⟨cycle - k, by omega⟩
  obtain ⟨calm, _, rest, _, counts⟩ := picks_count (k + j) start.calm (Int.le_of_eq start.sum.symm)
  rw [start.sum, Int.sub_self] at rest
  have none : left (picks (k + j) full).2 i = 0 := by
    unfold left
    by_cases there : i < (picks (k + j) full).2.length
    · rw [List.getD_eq_getElem _ _ there]
      exact total_zero calm rest _ (List.getElem_mem there)
    · rw [List.getD_eq_default _ _ (by omega)]
      rfl
  have whole := counts i
  rw [none, picks_add k j, List.count_append] at whole
  have tail : (picks k (picks j (picks k full).2).2).1 = (picks k full).1 := by
    rcases Nat.eq_zero_or_pos k with rfl | positive
    · rfl
    · have again := start.again positive
      rw [picks_add k j] at again
      rw [again]
  rw [same, Nat.add_comm k j, picks_add j k, List.count_append, tail]
  omega

end Cycle

/-- Requests at the times of `nows`, each on its first try. -/
def serveAll : List Int → Upstream → Option (List (Option PeerId))
  | [], _ => some []
  | now :: later, up =>
    (ngxHttpUpstreamGetRoundRobinPeer now (ngxHttpUpstreamInitRoundRobinPeer up)).bind
      fun (up, peer) => (serveAll later up).map (peer :: ·)

section Requests

variable {up : Upstream}

theorem tryCurrent_calm {peers : List Peer} {n tries : Nat} (calm : Calm peers)
    (inside : n < peers.length) (now : Int) :
    tryCurrent now ⟨peers, n, fun _ => 0, tries⟩ = (true, ⟨peers, n, fun _ => 0, tries⟩) := by
  have untried : isTried (fun _ => 0) n = false := by simp [isTried]
  have member : peers.getD n default ∈ peers := by
    rw [List.getD_eq_getElem _ _ inside]
    exact List.getElem_mem inside
  obtain ⟨up, _, fails, _⟩ := calm _ member
  have healthy : (peers.getD n default).maxFails = 0 ∨
      (peers.getD n default).fails < (peers.getD n default).maxFails := by omega
  unfold tryCurrent
  simp only [untried, up, if_pos healthy, Bool.false_eq_true, if_false, not_false_eq_true, if_true]

theorem get_calm (calm : Calm up.primary) (several : 2 ≤ up.primary.length)
    (single : up.single = false) (now : Int) :
    ∃ next, ngxHttpUpstreamGetRoundRobinPeer now (ngxHttpUpstreamInitRoundRobinPeer up) =
        some (next, some (false, (pick up.primary).1)) ∧
      next.primary = (pick up.primary).2 ∧ next.single = false := by
  have some_peer : up.primary ≠ [] := by
    intro empty
    rw [empty] at several
    simp at several
  obtain ⟨n, inside, _, found, _⟩ := ngxHttpUpstreamGetPeer_spec calm some_peer
  have isPick : pick up.primary = (n, (take ⟨base up.primary, n, fun _ => 0, up.primary.length⟩).peers) := by
    rw [pick, found]
    rfl
  have searched : search now ⟨up.primary, 0, fun _ => 0, up.primary.length⟩ =
      some (true, take ⟨base up.primary, n, fun _ => 0, up.primary.length⟩) := by
    unfold search
    obtain ⟨m, length⟩ : ∃ m, up.primary.length = m + 1 := ⟨up.primary.length - 1, by omega⟩
    have taken := @tryCurrent_calm (base up.primary) n up.primary.length calm.base
      (by rw [base_length]; exact inside) now
    simp only [if_true]
    rw [length] at taken ⊢
    simp only [firstLoop, found, Option.bind_some, taken, if_true, Option.map_some]
  unfold ngxHttpUpstreamGetRoundRobinPeer ngxHttpUpstreamInitRoundRobinPeer
  simp only [single, searched, isPick, Option.bind_some, Bool.false_eq_true, if_false]
  cases up.backup with
  | none => exact ⟨_, rfl, rfl, rfl⟩
  | some backup =>
    have notLast : ¬(take ⟨base up.primary, n, fun _ => 0, up.primary.length⟩).tries = 1 := by
      simp only [take]
      omega
    simp only [if_neg notLast]
    exact ⟨_, rfl, rfl, rfl⟩

theorem serveAll_eq (nows : List Int) (calm : Calm up.primary) (several : 2 ≤ up.primary.length)
    (single : up.single = false) :
    serveAll nows up = some ((picks nows.length up.primary).1.map fun n => some (false, n)) := by
  induction nows generalizing up with
  | nil => rfl
  | cons now later ih =>
    obtain ⟨next, served, primary, single'⟩ := get_calm calm several single now
    have some_peer : up.primary ≠ [] := by
      intro empty
      rw [empty] at several
      simp at several
    obtain ⟨_, _, _, calm', _, length, _⟩ := pick_spec calm some_peer
    rw [← primary] at calm' length
    have rest := ih calm' (by omega) single'
    rw [serveAll, served, Option.bind_some]
    show (serveAll later next).map _ = _
    rw [rest, primary]
    rfl

end Requests

/-- In every block of as many requests as the weights sum up to, each peer is chosen as often as its
weight says; that there is a list of choices means that no division by zero occurs. -/
theorem every_cycle_fair (up : Upstream) (several : 2 ≤ up.primary.length)
    (single : up.single = false)
    (healthy : ∀ peer ∈ up.primary, peer.down = false ∧ 0 < peer.weight ∧ peer.fails = 0 ∧
      peer.currentWeight = peer.weight) (nows : List Int) :
    ∃ chosen, serveAll nows up = some chosen ∧ chosen.length = nows.length ∧
      ∀ start cycle : Nat, (cycle : Int) = (up.primary.map Peer.weight).sum →
        start + cycle ≤ nows.length → ∀ i (inside : i < up.primary.length),
          (((chosen.drop start).take cycle).count (some (false, i)) : Int) =
            (up.primary.get ⟨i, inside⟩).weight := by
  have calm : Calm up.primary := by
    intro peer member
    obtain ⟨down, weight, fails, current⟩ := healthy peer member
    exact ⟨down, weight, fails, by omega⟩
  refine ⟨_, serveAll_eq nows calm several single, by simp [picks_length], ?_⟩
  intro start cycle sum enough i inside
  have weights : up.primary.map Peer.currentWeight = up.primary.map Peer.weight :=
    List.map_congr_left fun peer member => (healthy peer member).2.2.2
  have full : Full up.primary cycle := by
    refine ⟨calm, ?_, ?_, ?_⟩
    · intro empty
      rw [empty] at several
      simp at several
    · unfold resetWeights
      have same : ∀ peer ∈ up.primary, { peer with currentWeight := peer.weight } = id peer := by
        intro peer member
        have current := (healthy peer member).2.2.2
        cases peer
        simp only at current
        rw [current]
        rfl
      rw [List.map_congr_left same, List.map_id]
    · rw [total, weights, sum]
  obtain ⟨rest, length⟩ : ∃ rest, nows.length = start + (cycle + rest) :=
    ⟨nows.length - start - cycle, by omega⟩
  have window : ((picks nows.length up.primary).1.drop start).take cycle =
      (picks cycle (picks start up.primary).2).1 := by
    rw [length, picks_add, picks_add cycle rest]
    rw [List.drop_left' (picks_length start _), List.take_left' (picks_length cycle _)]
  have injective : Function.Injective fun n : Nat => (some (false, n) : Option PeerId) := by
    intro a b same
    simpa using same
  rw [← List.map_drop, ← List.map_take, window, List.count_map_of_injective _ _ injective,
    full.count, left, List.getD_eq_getElem _ _ inside]
  exact (healthy _ (List.getElem_mem inside)).2.2.2

/-- Two peers of weights two and one, over two cycles. -/
def twoToOne : Upstream :=
  { single := false
    primary := [⟨2, 2, 0, 0, 1, 10, false⟩, ⟨1, 1, 0, 0, 1, 10, false⟩]
    backup := none
    onBackup := false
    current := 0
    tried := fun _ => 0
    tries := 0 }

theorem every_cycle_fair_two_to_one :
    ∃ chosen, serveAll [5, 5, 6, 7, 8, 9] twoToOne = some chosen ∧
      ((chosen.drop 2).take 3).count (some (false, 0)) = 2 := by
  obtain ⟨chosen, served, _, counts⟩ :=
    every_cycle_fair twoToOne (by decide) rfl (by decide) [5, 5, 6, 7, 8, 9]
  have two := counts 2 3 (by decide) (by decide) 0 (by decide)
  exact ⟨chosen, served, Int.ofNat.inj two⟩

end NgxFormal.Http.RoundRobin
