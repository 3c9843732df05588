import NgxFormal.Http.LimitReqZone

/-! How many requests a zone admits in an interval. -/

namespace NgxFormal.Http.LimitReq

open Core.Rbtree Lib.RedBlack

/-- The request was put to the account of `node` and admitted. -/
def Event.admits (node : Nat) (event : Event) : Bool :=
  match event.outcome with
  | .created i => i = node
  | .found i .ok _ => i = node
  | .found i .again _ => i = node
  | _ => false

/-- The admitted requests of `node` in the `T` milliseconds from `t` on. -/
def admittedIn (node t T : Nat) (events : List Event) : Nat :=
  (events.filter fun event => event.admits node ∧ t ≤ event.now ∧ event.now ≤ t + T).length

/-- The node is not removed in the course of the events. -/
def Stays (node : Nat) (events : List Event) : Prop :=
  ∀ event ∈ events, node ∈ event.zone.queue ∧ event.outcome ≠ .created node

section Account

variable {rate burst now : Nat} {lr : Entry}

theorem signed_eq {x : Int} (low : -(2 ^ 63) ≤ x) (high : x < 2 ^ 63) : signed x = x :=
  Int.bmod_eq_of_le (by omega) (by omega)

theorem elapsed_le (ordered : lr.last ≤ now) : elapsed now lr.last ≤ now - lr.last := by
  unfold elapsed signed
  rw [Int.bmod_def]
  split <;> omega

theorem drained_le (rate ms d : Nat) (shorter : ms ≤ d) : drained rate ms ≤ rate * d / 1000 := by
  unfold drained
  apply Nat.div_le_div_right
  exact Nat.le_trans (Nat.mod_le _ _) (Nat.mul_le_mul_left _ shorter)

theorem drained_lt (rate ms : Nat) : drained rate ms < 2 ^ 62 := by
  unfold drained
  have := Nat.mod_lt (rate * ms) (show 0 < 2 ^ 64 by decide)
  omega

theorem newExcess_ge (ordered : lr.last ≤ now) (small : lr.excess + 1000 < 2 ^ 63) :
    lr.excess + 1000 ≤ newExcess rate now lr + rate * (now - lr.last) / 1000 := by
  have less := drained_le rate _ _ (elapsed_le ordered)
  have bound := drained_lt rate (elapsed now lr.last)
  unfold newExcess
  rw [signed_eq (by omega) (by omega)]
  simp only
  split <;> omega

theorem account_cases :
    (burst < newExcess rate now lr ∧ account rate burst now lr = (.busy, newExcess rate now lr, lr)) ∨
    (newExcess rate now lr ≤ burst ∧ ∃ rc, (rc = .ok ∨ rc = .again) ∧
      account rate burst now lr =
        (rc, newExcess rate now lr, { lr with excess := newExcess rate now lr, last := now })) := by
  unfold account
  by_cases exceeds : newExcess rate now lr > burst
  · exact Or.inl ⟨exceeds, by simp only [if_pos exceeds]⟩
  · refine Or.inr ⟨Nat.le_of_not_gt exceeds, if newExcess rate now lr ≠ 0 then .again else .ok, ?_,
      by simp only [if_neg exceeds]⟩
    split
    · exact Or.inr rfl
    · exact Or.inl rfl

end Account

section Window

variable {alloc : Zone → Option Nat} {zone zone' : Zone} {whole : ColorTree Nat}
  {fuel burst now node : Nat} {data : List UInt8} {outcome : Outcome}

theorem Served.account (served : Served alloc burst now data zone zone' outcome)
    (other : outcome ≠ .created node) :
    (Event.admits node ⟨now, outcome, zone'⟩ = false ∧ zone'.entries node = zone.entries node) ∨
      (Event.admits node ⟨now, outcome, zone'⟩ = true ∧
        newExcess zone.rate now (zone.entries node) ≤ burst ∧
        (zone'.entries node).last = now ∧
        (zone'.entries node).excess = newExcess zone.rate now (zone.entries node)) := by
  cases served with
  | @found i kept removed queue idle member key queue' entries' =>
    by_cases same : i = node
    · subst same
      rw [entries', setEntry, if_pos rfl]
      rcases @account_cases zone.rate burst now (zone.entries i) with
        ⟨_, busy⟩ | ⟨within, rc, isRc, admitted⟩
      · rw [busy]
        exact Or.inl ⟨rfl, rfl⟩
      · rw [admitted]
        refine Or.inr ⟨?_, within, rfl, rfl⟩
        rcases isRc with rfl | rfl <;> simp [Event.admits]
    · refine Or.inl ⟨?_, by rw [entries', setEntry, if_neg (Ne.symm same)]⟩
      simp only [Event.admits]
      split
      all_goals simp_all
  | @created i kept forced removed queue idle absent full fresh queue' entries' =>
    have differ : i ≠ node := fun same => other (by rw [same])
    refine Or.inl ⟨by simpa [Event.admits] using differ, ?_⟩
    rw [entries', setEntry, if_neg (Ne.symm differ)]
  | noMemory _ _ entries' => exact Or.inl ⟨rfl, by rw [entries']⟩

theorem trace_cons {request : Request} {rest : List Request} {events : List Event}
    (inv : ZoneInv zone whole) (fresh : Fresh alloc) (enough : 2 * (zone.queue.length + 1) ≤ fuel)
    (traced : trace alloc fuel burst zone (request :: rest) = some events) :
    ∃ zone' whole' outcome later, events = ⟨request.now, outcome, zone'⟩ :: later ∧
      ZoneInv zone' whole' ∧ zone'.rate = zone.rate ∧
      Served alloc burst request.now request.key zone zone' outcome ∧
      trace alloc fuel burst zone' rest = some later := by
  obtain ⟨zone', whole', outcome, done, inv', rate, _, served⟩ :=
    inv.serve fresh burst request.now request.key enough
  rw [trace, done, Option.bind_some] at traced
  obtain ⟨later, tail, rfl⟩ := Option.map_eq_some_iff.mp traced
  exact ⟨zone', whole', outcome, later, rfl, inv', rate, served, tail⟩

theorem trace_late {requests : List Request} {events : List Event} {limit : Nat}
    (traced : trace alloc fuel burst zone requests = some events)
    (late : ∀ request ∈ requests, limit ≤ request.now) : ∀ event ∈ events, limit ≤ event.now := by
  induction requests generalizing zone events with
  | nil =>
    cases traced
    simp
  | cons request rest ih =>
    rw [trace] at traced
    obtain ⟨⟨next, outcome⟩, _, tail⟩ := Option.bind_eq_some_iff.mp traced
    obtain ⟨later, traced', rfl⟩ := Option.map_eq_some_iff.mp tail
    intro event member
    rcases List.mem_cons.mp member with rfl | inLater
    · exact late request List.mem_cons_self
    · exact ih traced' (fun other inRest => late other (List.mem_cons_of_mem _ inRest)) event inLater

theorem admittedIn_cons (node t T : Nat) (event : Event) (events : List Event) :
    admittedIn node t T (event :: events) =
      (if event.admits node ∧ t ≤ event.now ∧ event.now ≤ t + T then 1 else 0) +
        admittedIn node t T events := by
  unfold admittedIn
  rw [List.filter_cons]
  by_cases counted : event.admits node ∧ t ≤ event.now ∧ event.now ≤ t + T
  · rw [if_pos (by simpa using counted), if_pos counted, List.length_cons, Nat.add_comm]
  · rw [if_neg (by simpa using counted), if_neg counted, Nat.zero_add]

theorem admittedIn_late {t T : Nat} {events : List Event}
    (late : ∀ event ∈ events, t + T < event.now) : admittedIn node t T events = 0 := by
  unfold admittedIn
  rw [List.length_eq_zero_iff, List.filter_eq_nil_iff]
  intro event member
  have := late event member
  simp
  omega

theorem admitted_after {requests : List Request} {events : List Event} {t T : Nat}
    (inv : ZoneInv zone whole) (fresh : Fresh alloc)
    (enough : 2 * (zone.queue.length + requests.length) ≤ fuel)
    (traced : trace alloc fuel burst zone requests = some events)
    (ordered : (requests.map Request.now).Pairwise (· ≤ ·))
    (later : ∀ request ∈ requests, (zone.entries node).last ≤ request.now)
    (stays : Stays node events) (small : burst + 1000 < 2 ^ 63)
    (within : (zone.entries node).excess ≤ burst) (started : (zone.entries node).last ≤ t + T) :
    1000 * admittedIn node t T events + (zone.entries node).excess ≤
      burst + zone.rate * (t + T - (zone.entries node).last) / 1000 := by
  induction requests generalizing zone whole events with
  | nil =>
    cases traced
    have none : admittedIn node t T [] = 0 := rfl
    omega
  | cons request rest ih =>
    rw [List.length_cons] at enough
    obtain ⟨zone', whole', outcome, events', rfl, inv', rate, served, traced'⟩ :=
      trace_cons inv fresh (by omega) traced
    have length := served.length
    rw [List.map_cons, List.pairwise_cons] at ordered
    have behind : ∀ other ∈ rest, request.now ≤ other.now := fun other member =>
      ordered.1 _ (List.mem_map_of_mem member)
    have first := later request List.mem_cons_self
    obtain ⟨⟨_, other⟩, stays'⟩ := List.forall_mem_cons.mp stays
    rcases served.account other with ⟨rejected, same⟩ | ⟨admitted, fits, last', excess'⟩
    · have rest_le := ih inv' (by omega) traced' ordered.2
        (fun r member => by rw [same]; exact later r (List.mem_cons_of_mem _ member)) stays'
        (by rw [same]; exact within) (by rw [same]; exact started)
      rw [admittedIn_cons, rejected, if_neg (by simp), Nat.zero_add]
      rw [same, rate] at rest_le
      exact rest_le
    · by_cases exceeds : t + T < request.now
      · have late := trace_late traced' behind
        rw [admittedIn_cons, if_neg (by simp only; omega),
          admittedIn_late fun event member => Nat.lt_of_lt_of_le exceeds (late event member)]
        omega
      · have grows := @newExcess_ge zone.rate request.now (zone.entries node) first (by omega)
        have rest_le := ih inv' (by omega) traced' ordered.2
          (fun r member => by rw [last']; exact behind r member) stays'
          (by rw [excess']; exact fits) (by rw [last']; omega)
        rw [excess', last', rate] at rest_le
        have joined : zone.rate * (t + T - request.now) / 1000 +
            zone.rate * (request.now - (zone.entries node).last) / 1000 ≤
            zone.rate * (t + T - (zone.entries node).last) / 1000 := by
          have sum : zone.rate * (t + T - request.now) +
              zone.rate * (request.now - (zone.entries node).last) ≤
              zone.rate * (t + T - (zone.entries node).last) := by
            rw [← Nat.mul_add]
            exact Nat.mul_le_mul_left _ (by omega)
          omega
        have one : (if Event.admits node ⟨request.now, outcome, zone'⟩ ∧ t ≤ request.now ∧
            request.now ≤ t + T then 1 else 0) ≤ 1 := by split <;> omega
        rw [admittedIn_cons]
        simp only at one ⊢
        omega

/-- The bound for a node with any account. -/
theorem admitted_bound {requests : List Request} {events : List Event} {t T : Nat}
    (inv : ZoneInv zone whole) (fresh : Fresh alloc)
    (enough : 2 * (zone.queue.length + requests.length) ≤ fuel)
    (traced : trace alloc fuel burst zone requests = some events)
    (ordered : (requests.map Request.now).Pairwise (· ≤ ·))
    (stays : Stays node events) (small : burst + 1000 < 2 ^ 63) :
    admittedIn node t T events ≤ 1 + (burst + zone.rate * T / 1000) / 1000 := by
  induction requests generalizing zone whole events with
  | nil =>
    cases traced
    exact Nat.zero_le _
  | cons request rest ih =>
    rw [List.length_cons] at enough
    obtain ⟨zone', whole', outcome, events', rfl, inv', rate, served, traced'⟩ :=
      trace_cons inv fresh (by omega) traced
    have length := served.length
    rw [List.map_cons, List.pairwise_cons] at ordered
    have behind : ∀ other ∈ rest, request.now ≤ other.now := fun other member =>
      ordered.1 _ (List.mem_map_of_mem member)
    obtain ⟨⟨_, other⟩, stays'⟩ := List.forall_mem_cons.mp stays
    rw [admittedIn_cons]
    by_cases counted : Event.admits node ⟨request.now, outcome, zone'⟩ ∧ t ≤ request.now ∧
        request.now ≤ t + T
    · rcases served.account other with ⟨rejected, _⟩ | ⟨_, fits, last', excess'⟩
      · rw [rejected] at counted
        cases counted.1
      · -- the first one of the interval is free
        have rest_le := @admitted_after alloc zone' whole' fuel burst node rest events' t T inv' fresh
          (by omega) traced' ordered.2 (fun r member => by rw [last']; exact behind r member)
          stays' small (by rw [excess']; exact fits) (by rw [last']; exact counted.2.2)
        rw [last', rate] at rest_le
        have shorter : zone.rate * (t + T - request.now) / 1000 ≤ zone.rate * T / 1000 :=
          Nat.div_le_div_right (Nat.mul_le_mul_left _ (by omega))
        rw [if_pos counted]
        omega
    · have rest_le := ih inv' (by omega) traced' ordered.2 stays'
      rw [if_neg counted, Nat.zero_add, ← rate]
      exact rest_le

end Window

/-- In a zone with the rate and the burst, whatever the requests and the memory are, no node admits
more than its share in any interval while it stays. -/
def RateBound (rate burst : Nat) : Prop :=
  ∀ (alloc : Zone → Option Nat) (heap : Heap) (sentinel : Nat) (entries : Nat → Entry) (fuel : Nat)
    (requests : List Request), Fresh alloc → 2 * requests.length ≤ fuel →
    (requests.map Request.now).Pairwise (· ≤ ·) →
    ∃ events, trace alloc fuel burst (ngxHttpLimitReqInitZone rate heap sentinel entries) requests =
        some events ∧
      ∀ before creation after node, events = before ++ creation :: after →
        creation.outcome = .created node → Stays node after →
        ∀ t T, admittedIn node t T (creation :: after) ≤ 1 + (burst + rate * T / 1000) / 1000

section Bound

variable {alloc : Zone → Option Nat} {zone : Zone} {whole : ColorTree Nat} {fuel burst : Nat}

theorem trace_some (requests : List Request) (inv : ZoneInv zone whole) (fresh : Fresh alloc)
    (enough : 2 * (zone.queue.length + requests.length) ≤ fuel) :
    ∃ events, trace alloc fuel burst zone requests = some events := by
  induction requests generalizing zone whole with
  | nil => exact ⟨[], rfl⟩
  | cons request rest ih =>
    rw [List.length_cons] at enough
    obtain ⟨zone', whole', outcome, done, inv', _, _, served⟩ :=
      inv.serve fresh burst request.now request.key (show 2 * (zone.queue.length + 1) ≤ fuel by omega)
    have length := served.length
    obtain ⟨events, traced⟩ := ih inv' (by omega)
    exact ⟨⟨request.now, outcome, zone'⟩ :: events, by
      simp only [trace, done, Option.bind_some, traced, Option.map_some]⟩

theorem created_bound {requests : List Request} {before after : List Event} {creation : Event}
    {node : Nat} (inv : ZoneInv zone whole) (fresh : Fresh alloc)
    (enough : 2 * (zone.queue.length + requests.length) ≤ fuel)
    (traced : trace alloc fuel burst zone requests = some (before ++ creation :: after))
    (ordered : (requests.map Request.now).Pairwise (· ≤ ·))
    (created : creation.outcome = .created node) (stays : Stays node after)
    (small : burst + 1000 < 2 ^ 63) (t T : Nat) :
    admittedIn node t T (creation :: after) ≤ 1 + (burst + zone.rate * T / 1000) / 1000 := by
  induction requests generalizing zone whole before with
  | nil => simp [trace] at traced
  | cons request rest ih =>
    rw [List.length_cons] at enough
    obtain ⟨zone', whole', outcome, events', split, inv', rate, served, traced'⟩ :=
      trace_cons inv fresh (by omega) traced
    have length := served.length
    rw [List.map_cons, List.pairwise_cons] at ordered
    have behind : ∀ other ∈ rest, request.now ≤ other.now := fun other member =>
      ordered.1 _ (List.mem_map_of_mem member)
    cases before with
    | cons event before =>
      rw [List.cons_append, List.cons.injEq] at split
      rw [← split.2] at traced'
      have tail := ih inv' (by omega) traced' ordered.2
      rwa [rate] at tail
    | nil =>
      rw [List.nil_append, List.cons.injEq] at split
      obtain ⟨rfl, rfl⟩ := split
      simp only at created
      subst created
      cases served with
      | created _ _ _ _ _ _ entries' =>
        have entry : zone'.entries node = newEntry (ngxCrc32Short request.key) request.now
            request.key := by
          rw [entries', setEntry, if_pos rfl]
        rw [admittedIn_cons]
        by_cases counted : t ≤ request.now ∧ request.now ≤ t + T
        · have rest_le := @admitted_after alloc zone' whole' fuel burst node rest after t T inv'
            fresh (by omega) traced' ordered.2
            (fun r member => by rw [entry]; exact behind r member) stays small
            (by rw [entry]; exact Nat.zero_le _) (by rw [entry]; exact counted.2)
          rw [entry, rate] at rest_le
          have shorter : zone.rate * (t + T - request.now) / 1000 ≤ zone.rate * T / 1000 :=
            Nat.div_le_div_right (Nat.mul_le_mul_left _ (by omega))
          simp only [newEntry] at rest_le
          rw [if_pos ⟨by simp [Event.admits], counted⟩]
          omega
        · have rest_le := @admitted_bound alloc zone' whole' fuel burst node rest after t T inv'
            fresh (by omega) traced' ordered.2 stays small
          rw [rate] at rest_le
          rw [if_neg fun both => counted both.2, Nat.zero_add]
          exact rest_le

theorem rateBound_of_small (rate : Nat) (small : burst + 1000 < 2 ^ 63) : RateBound rate burst := by
  intro alloc heap sentinel entries fuel requests fresh enough ordered
  have inv := initZone_inv rate heap sentinel entries
  have length : (ngxHttpLimitReqInitZone rate heap sentinel entries).queue.length = 0 := rfl
  obtain ⟨events, traced⟩ := @trace_some alloc _ _ fuel burst requests inv fresh (by omega)
  refine ⟨events, traced, ?_⟩
  intro before creation after node split created stays t T
  subst split
  exact created_bound inv fresh (by omega) traced ordered created stays small t T

end Bound

section Overflow

def nextFree (zone : Zone) : Option Nat := some (zone.queue.foldr max zone.tree.sentinel + 1)

theorem le_foldr_max (start : Nat) (xs : List Nat) :
    start ≤ xs.foldr max start ∧ ∀ x ∈ xs, x ≤ xs.foldr max start := by
  induction xs with
  | nil => simp
  | cons x xs ih =>
    refine ⟨Nat.le_trans ih.1 (Nat.le_max_right _ _), ?_⟩
    intro y member
    rcases List.mem_cons.mp member with rfl | inside
    · exact Nat.le_max_left _ _
    · exact Nat.le_trans (ih.2 y inside) (Nat.le_max_right _ _)

theorem nextFree_fresh : Fresh nextFree := by
  intro zone node given
  obtain ⟨low, above⟩ := le_foldr_max zone.tree.sentinel zone.queue
  have isNext : zone.queue.foldr max zone.tree.sentinel + 1 = node := Option.some.inj given
  refine ⟨?_, by omega⟩
  intro member
  have := above node member
  omega

variable {zone : Zone} {whole : ColorTree Nat} {fuel node rate : Nat} {key : List UInt8}

theorem not_idle {now : Nat} {lr : Entry} (recent : lr.last = now) : ¬Idle rate now lr := by
  rintro ⟨long, _⟩
  have none : elapsed now lr.last = 0 := by simp [elapsed, recent, signed]
  omega

theorem newExcess_same {now : Nat} {lr : Entry} (recent : lr.last = now) :
    newExcess rate now lr = (signed ((lr.excess : Int) + 1000)).toNat := by
  have none : elapsed now lr.last = 0 := by simp [elapsed, recent, signed]
  have nothing : drained rate (elapsed now lr.last) = 0 := by rw [none, drained]; simp
  have same : (lr.excess : Int) - ((0 : Nat) : Int) + 1000 = lr.excess + 1000 := by omega
  unfold newExcess
  rw [nothing, same]
  simp only
  split
  · omega
  · rfl

theorem serve_same {burst k : Nat} (inv : ZoneInv zone whole) (alone : zone.queue = [node])
    (entry : zone.entries node = { newEntry (ngxCrc32Short key) 0 key with excess := k })
    (short : key.length < 256) (enough : 4 ≤ fuel)
    (within : (signed ((k : Int) + 1000)).toNat ≤ burst) :
    ∃ zone' whole' outcome, underMutex nextFree fuel burst 0 zone key = some (zone', outcome) ∧
      ZoneInv zone' whole' ∧ zone'.queue = [node] ∧ zone'.rate = zone.rate ∧
      zone'.entries node =
        { newEntry (ngxCrc32Short key) 0 key with excess := (signed ((k : Int) + 1000)).toNat } ∧
      Event.admits node ⟨0, outcome, zone'⟩ = true ∧ outcome ≠ .created node := by
  obtain ⟨zone', whole', outcome, done, inv', rate', _, served⟩ :=
    inv.serve nextFree_fresh burst 0 key (show 2 * (zone.queue.length + 1) ≤ fuel by
      rw [alone, List.length_singleton]
      omega)
  have recent : (zone.entries node).last = 0 := by rw [entry]; rfl
  have isKey : ord zone.entries node = order (ngxCrc32Short key) key := by
    rw [ord, entry]
    simp [newEntry, stored, Nat.mod_eq_of_lt short]
  have stillThere {kept removed : List Nat} (queue : zone.queue = kept ++ removed)
      (idle : ∀ i ∈ removed, Idle zone.rate 0 (zone.entries i)) : kept = [node] ∧ removed = [] := by
    rw [alone] at queue
    cases kept with
    | nil =>
      rw [List.nil_append] at queue
      exact absurd (idle node (by rw [← queue]; simp)) (not_idle recent)
    | cons i kept =>
      simp only [List.cons_append, List.cons.injEq, List.nil_eq, List.append_eq_nil_iff] at queue
      obtain ⟨rfl, rfl, rfl⟩ := queue
      exact ⟨rfl, rfl⟩
  have excess : newExcess zone.rate 0 (zone.entries node) = (signed ((k : Int) + 1000)).toNat := by
    rw [newExcess_same recent, entry]
  refine ⟨zone', whole', outcome, done, inv', ?_⟩
  cases served with
  | @found i kept removed queue idle member key' queue' entries' =>
    obtain ⟨rfl, rfl⟩ := stillThere queue idle
    have isNode := List.mem_singleton.mp member
    subst isNode
    rcases @account_cases zone.rate burst 0 (zone.entries i) with
      ⟨exceeds, _⟩ | ⟨_, rc, isRc, admitted⟩
    · omega
    · refine ⟨by rw [queue']; simp, rate', ?_, ?_, by simp⟩
      · rw [entries', setEntry, if_pos rfl, admitted, excess, entry]
        rfl
      · rw [admitted]
        rcases isRc with rfl | rfl <;> simp [Event.admits]
  | @created i kept forced removed queue idle absent full fresh queue' entries' =>
    obtain ⟨both, _⟩ := stillThere queue idle
    exact absurd isKey (absent node (by rw [both]; simp))
  | noMemory _ full _ =>
    obtain ⟨_, isNone⟩ := full
    cases isNone

theorem trace_same {b m j : Nat} (inv : ZoneInv zone whole) (alone : zone.queue = [node])
    (entry : zone.entries node = { newEntry (ngxCrc32Short key) 0 key with excess := 1000 * j })
    (short : key.length < 256) (enough : 4 ≤ fuel) (fits : 1000 * b < 2 ^ 63)
    (wraps : 2 ^ 63 ≤ 1000 * b + 1000) (left : j + m = b + 1) :
    ∃ events, trace nextFree fuel (1000 * b) zone (List.replicate m ⟨0, key⟩) = some events ∧
      events.length = m ∧ Stays node events ∧
      ∀ event ∈ events, event.admits node = true ∧ event.now = 0 := by
  induction m generalizing zone whole j with
  | zero => exact ⟨[], rfl, rfl, by simp [Stays], by simp⟩
  | succ m ih =>
    have turn : (signed (((1000 * j : Nat) : Int) + 1000)).toNat =
        if j = b then 0 else 1000 * (j + 1) := by
      split
      · unfold signed
        rw [Int.bmod_def]
        split <;> omega
      · rw [signed_eq (by omega) (by omega)]
        omega
    have within : (signed (((1000 * j : Nat) : Int) + 1000)).toNat ≤ 1000 * b := by
      rw [turn]
      split <;> omega
    obtain ⟨zone', whole', outcome, done, inv', alone', _, entry', admitted, other⟩ :=
      serve_same inv alone entry short enough within
    have rest : ∃ events, trace nextFree fuel (1000 * b) zone' (List.replicate m ⟨0, key⟩) =
        some events ∧ events.length = m ∧ Stays node events ∧
        ∀ event ∈ events, event.admits node = true ∧ event.now = 0 := by
      by_cases last : j = b
      · obtain rfl : m = 0 := by omega
        exact ⟨[], rfl, rfl, by simp [Stays], by simp⟩
      · rw [turn, if_neg last] at entry'
        exact ih inv' alone' entry' (by omega)
    obtain ⟨events, traced, length, stays, all⟩ := rest
    refine ⟨⟨0, outcome, zone'⟩ :: events, ?_, by rw [List.length_cons, length], ?_, ?_⟩
    · rw [List.replicate_succ]
      simp only [trace, done, Option.bind_some, traced, Option.map_some]
    · exact List.forall_mem_cons.mpr ⟨⟨by rw [alone']; simp, other⟩, stays⟩
    · exact List.forall_mem_cons.mpr ⟨⟨admitted, rfl⟩, all⟩

/-- The largest burst of the directive does not keep the bound: the sum overflows to a negative
excess, which is taken for none. -/
theorem not_rateBound (rate b : Nat) (fits : 1000 * b < 2 ^ 63) (wraps : 2 ^ 63 ≤ 1000 * b + 1000) :
    ¬RateBound rate (1000 * b) := by
  intro bound
  let start : Zone := ngxHttpLimitReqInitZone rate (fun _ => ⟨0, 0, 0, 0, .black⟩) 0
    fun _ => newEntry 0 0 []
  let key : List UInt8 := [97]
  obtain ⟨events, traced, all⟩ := bound nextFree (fun _ => ⟨0, 0, 0, 0, .black⟩) 0
    (fun _ => newEntry 0 0 []) (2 * (b + 2)) (List.replicate (b + 2) ⟨0, key⟩) nextFree_fresh
    (by rw [List.length_replicate])
    (by rw [List.map_replicate]; exact List.pairwise_replicate.mpr (Or.inr (Nat.le_refl 0)))
  have inv : ZoneInv start .nil := initZone_inv _ _ _ _
  have empty : start.queue = [] := rfl
  rw [List.replicate_succ] at traced
  obtain ⟨zone', whole', outcome, later, split, inv', _, served, traced'⟩ :=
    trace_cons inv nextFree_fresh (by rw [empty, List.length_nil]; omega) traced
  cases served with
  | found queue _ member _ _ _ =>
    rw [empty] at queue
    have none := List.append_eq_nil_iff.mp queue.symm
    rw [none.1] at member
    cases member
  | noMemory _ full _ =>
    obtain ⟨_, isNone⟩ := full
    cases isNone
  | @created node kept forced removed queue _ _ _ _ queue' entries' =>
    rw [empty] at queue
    have none := List.append_eq_nil_iff.mp queue.symm
    have alone : zone'.queue = [node] := by rw [queue', (List.append_eq_nil_iff.mp none.1).1]
    have entry : zone'.entries node =
        { newEntry (ngxCrc32Short key) 0 key with excess := 1000 * 0 } := by
      rw [entries', setEntry, if_pos rfl]
      rfl
    obtain ⟨rest, traced'', length, stays, admitted⟩ :=
      @trace_same zone' whole' (2 * (b + 2)) node key b (b + 1) 0 inv' alone entry (by decide)
        (by omega) fits wraps (by omega)
    have same : rest = later := by
      rw [traced''] at traced'
      exact Option.some.inj traced'
    subst same
    have counted := all [] _ rest node split rfl stays 0 0
    have everyone : admittedIn node 0 0 (⟨0, .created node, zone'⟩ :: rest) = b + 2 := by
      rw [admittedIn_cons, if_pos ⟨by simp [Event.admits], by simp, by simp⟩, admittedIn,
        List.filter_eq_self.mpr, length]
      · omega
      · intro event member
        obtain ⟨admits, now⟩ := admitted event member
        simp [admits, now]
    rw [Nat.mul_zero, Nat.zero_div, Nat.add_zero, Nat.mul_div_cancel_left b (by decide)] at counted
    simp only at counted everyone
    omega

end Overflow

/-- `limit_req` with `burst=b`, where the product fits the word it is put in: the bound holds for
every burst but the largest one. -/
theorem rateBound_iff (rate b : Nat) (accepted : 1000 * b < 2 ^ 63) :
    RateBound rate (1000 * b) ↔ b < 9223372036854775 := by
  constructor
  · intro bound
    by_contra large
    exact not_rateBound rate b accepted (by omega) bound
  · intro small
    exact rateBound_of_small rate (by omega)

/-- One request a second with a burst of five. -/
theorem rateBound_iff_five : RateBound 1000 5000 ↔ 5 < 9223372036854775 :=
  rateBound_iff 1000 5 (by decide)

/-- `burst=9223372036854775` -/
theorem not_rateBound_largest : ¬RateBound 1000 9223372036854775000 :=
  not_rateBound 1000 9223372036854775 (by decide) (by decide)

end NgxFormal.Http.LimitReq
