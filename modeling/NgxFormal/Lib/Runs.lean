import Mathlib.Algebra.Order.Ring.Int
import Mathlib.Data.List.Nodup

/-! Machines that take turns until one of them ends with an answer, and views of their states under
which two machines take the same turns. -/

namespace NgxFormal.Lib.Turns

variable {ρ σ τ : Type}

inductive Turn (ρ σ : Type) where
  | again (state : σ)
  | done (answer : ρ) (state : σ)
  deriving DecidableEq, Repr

def Turn.map (view : σ → τ) : Turn ρ σ → Turn ρ τ
  | .again state => .again (view state)
  | .done answer state => .done answer (view state)

def Turn.state : Turn ρ σ → σ
  | .again state => state
  | .done _ state => state

/-- `n` turns, or as many as there are. -/
def turns (turn : σ → Turn ρ σ) : Nat → σ → Turn ρ σ
  | 0, state => .again state
  | n + 1, state =>
    match turn state with
    | .again next => turns turn n next
    | .done answer last => .done answer last

def finish (turn : σ → Turn ρ σ) : Nat → σ → Option (ρ × σ)
  | 0, _ => none
  | fuel + 1, state =>
    match turn state with
    | .again next => finish turn fuel next
    | .done answer last => some (answer, last)

theorem turns_again {turn : σ → Turn ρ σ} {state next : σ} (n : Nat)
    (taken : turn state = .again next) : turns turn (n + 1) state = turns turn n next := by
  rw [turns, taken]

theorem turns_done {turn : σ → Turn ρ σ} {state last : σ} {answer : ρ} (n : Nat)
    (taken : turn state = .done answer last) : turns turn (n + 1) state = .done answer last := by
  rw [turns, taken]

theorem turns_add (turn : σ → Turn ρ σ) {state next : σ} {n : Nat} (m : Nat)
    (taken : turns turn n state = .again next) : turns turn (n + m) state = turns turn m next := by
  induction n generalizing state with
  | zero =>
    cases taken
    rw [Nat.zero_add]
  | succ n ih =>
    rw [turns] at taken
    rw [Nat.succ_add, turns]
    cases first : turn state with
    | again middle =>
      rw [first] at taken
      exact ih taken
    | done answer last =>
      rw [first] at taken
      cases taken

theorem turns_add_done (turn : σ → Turn ρ σ) {state last : σ} {answer : ρ} {n : Nat} (m : Nat)
    (taken : turns turn n state = .done answer last) :
    turns turn (n + m) state = .done answer last := by
  induction n generalizing state with
  | zero => cases taken
  | succ n ih =>
    rw [turns] at taken
    rw [Nat.succ_add, turns]
    cases first : turn state with
    | again middle =>
      rw [first] at taken
      exact ih taken
    | done answer last =>
      rw [first] at taken
      exact taken

theorem finish_some {turn : σ → Turn ρ σ} (left : σ → Nat)
    (fewer : ∀ state next, turn state = .again next → left next < left state)
    {fuel : Nat} (state : σ) (enough : left state < fuel) :
    ∃ answer last, finish turn fuel state = some (answer, last) := by
  induction fuel generalizing state with
  | zero => exact absurd enough (Nat.not_lt_zero _)
  | succ fuel ih =>
    rw [finish]
    cases taken : turn state with
    | again next =>
      have less := fewer state next taken
      exact ih next (by omega)
    | done answer last => exact ⟨answer, last, rfl⟩

theorem finish_turns {turn : σ → Turn ρ σ} {fuel n : Nat} {state last last' : σ}
    {answer answer' : ρ} (taken : turns turn n state = .done answer last)
    (ended : finish turn fuel state = some (answer', last')) :
    answer' = answer ∧ last' = last := by
  induction n generalizing fuel state with
  | zero => cases taken
  | succ n ih =>
    cases fuel with
    | zero => cases ended
    | succ fuel =>
      rw [turns] at taken
      rw [finish] at ended
      cases first : turn state with
      | again next =>
        rw [first] at taken ended
        exact ih taken ended
      | done answer'' last'' =>
        rw [first] at taken ended
        cases taken
        cases ended
        exact ⟨rfl, rfl⟩

/-- The second machine takes the turns of the first one as `view` shows them. -/
structure Simulates (Inv : σ → Prop) (view : σ → τ) (turn : σ → Turn ρ σ)
    (turn' : τ → Turn ρ τ) : Prop where
  same : ∀ state, Inv state → (turn state).map view = turn' (view state)
  keeps : ∀ state, Inv state → Inv (turn state).state

section Simulation

variable {Inv : σ → Prop} {view : σ → τ} {turn : σ → Turn ρ σ} {turn' : τ → Turn ρ τ}

theorem Simulates.again (simulates : Simulates Inv view turn turn') {state next : σ}
    (inv : Inv state) (taken : turn state = .again next) :
    Inv next ∧ turn' (view state) = .again (view next) := by
  have same := simulates.same state inv
  have keeps := simulates.keeps state inv
  rw [taken] at same keeps
  exact ⟨keeps, same.symm⟩

theorem Simulates.done (simulates : Simulates Inv view turn turn') {state last : σ} {answer : ρ}
    (inv : Inv state) (taken : turn state = .done answer last) :
    Inv last ∧ turn' (view state) = .done answer (view last) := by
  have same := simulates.same state inv
  have keeps := simulates.keeps state inv
  rw [taken] at same keeps
  exact ⟨keeps, same.symm⟩

theorem Simulates.turns (simulates : Simulates Inv view turn turn') (n : Nat) {state : σ}
    (inv : Inv state) :
    (turns turn n state).map view = Turns.turns turn' n (view state) ∧
      Inv (Turns.turns turn n state).state := by
  induction n generalizing state with
  | zero => exact ⟨rfl, inv⟩
  | succ n ih =>
    cases taken : turn state with
    | again next =>
      obtain ⟨kept, seen⟩ := simulates.again inv taken
      rw [turns_again n taken, turns_again n seen]
      exact ih kept
    | done answer last =>
      obtain ⟨kept, seen⟩ := simulates.done inv taken
      rw [turns_done n taken, turns_done n seen]
      exact ⟨rfl, kept⟩

theorem Simulates.finish (simulates : Simulates Inv view turn turn') (fuel : Nat) {state : σ}
    (inv : Inv state) :
    (finish turn fuel state).map (Prod.map id view) = Turns.finish turn' fuel (view state) := by
  induction fuel generalizing state with
  | zero => rfl
  | succ fuel ih =>
    rw [Turns.finish, Turns.finish]
    cases taken : turn state with
    | again next =>
      obtain ⟨kept, seen⟩ := simulates.again inv taken
      rw [seen]
      exact ih kept
    | done answer last =>
      rw [(simulates.done inv taken).2]
      rfl

theorem Simulates.finish_inv (simulates : Simulates Inv view turn turn') {fuel : Nat}
    {state last : σ} {answer : ρ} (inv : Inv state)
    (ended : Turns.finish turn fuel state = some (answer, last)) : Inv last := by
  induction fuel generalizing state with
  | zero => cases ended
  | succ fuel ih =>
    rw [Turns.finish] at ended
    cases taken : turn state with
    | again next =>
      rw [taken] at ended
      exact ih (simulates.again inv taken).1 ended
    | done answer' last' =>
      rw [taken] at ended
      cases ended
      exact (simulates.done inv taken).1

end Simulation

end NgxFormal.Lib.Turns

/-! A list cut into runs, each of which a test compares with its first element. Where the
elements with equal labels stand together, the runs are the labels. -/

namespace NgxFormal.Lib.Runs

variable {α κ : Type}

def runsFrom (same : α → α → Bool) (first : α) (run : List α) : List α → List (α × List α)
  | [] => [(first, run)]
  | next :: rest =>
    if same first next then runsFrom same first (run ++ [next]) rest
    else (first, run) :: runsFrom same next [] rest

def runs (same : α → α → Bool) : List α → List (α × List α)
  | [] => []
  | first :: rest => runsFrom same first [] rest

/-- Elements with the same label stand together, and `same` tells labels apart in the order of
the list. -/
structure Clustered (same : α → α → Bool) (label : α → κ) (xs : List α) : Prop where
  agree : ∀ a b, List.Sublist [a, b] xs → (same a b = true ↔ label b = label a)
  between : ∀ a b c, List.Sublist [a, b, c] xs → label c = label a → label b = label a

variable {same : α → α → Bool} {label : α → κ} {first : α} {run xs rest : List α}

theorem Clustered.sublist {ys : List α} (clustered : Clustered same label xs) (fewer : List.Sublist ys xs) :
    Clustered same label ys where
  agree a b pair := clustered.agree a b (pair.trans fewer)
  between a b c triple := clustered.between a b c (triple.trans fewer)

theorem runsFrom_flatten (first : α) (run rest : List α) :
    (runsFrom same first run rest).flatMap (fun group => group.1 :: group.2) =
      first :: run ++ rest := by
  induction rest generalizing first run with
  | nil => simp [runsFrom]
  | cons next rest ih =>
    rw [runsFrom]
    split
    · rw [ih]
      simp
    · rw [List.flatMap_cons, ih]
      simp

/-- Nothing is lost and the order stays. -/
theorem runs_flatten (xs : List α) :
    (runs same xs).flatMap (fun group => group.1 :: group.2) = xs := by
  cases xs with
  | nil => rfl
  | cons first rest => exact runsFrom_flatten first [] rest

theorem runs_length (xs : List α) : (runs same xs).length ≤ xs.length := by
  have total := congrArg List.length (@runs_flatten _ same xs)
  rw [List.length_flatMap] at total
  rw [← total]
  generalize runs same xs = groups
  induction groups with
  | nil => exact Nat.le_refl 0
  | cons group groups ih =>
    simp only [List.length_cons, List.map_cons, List.sum_cons]
    simp only [List.length_cons] at ih
    omega

theorem Clustered.gone {next : α} (clustered : Clustered same label (first :: next :: rest))
    (ended : same first next = false) : ∀ x ∈ next :: rest, label x ≠ label first := by
  have apart : label next ≠ label first := by
    intro equal
    have again := (clustered.agree first next (by simp)).mpr equal
    rw [ended] at again
    cases again
  intro x member equal
  rcases List.mem_cons.mp member with rfl | later
  · exact apart equal
  · apply apart (clustered.between first next x _ equal)
    simpa using List.singleton_sublist.mpr later

variable [DecidableEq κ]

theorem runsFrom_spec (first : α) (run rest : List α)
    (clustered : Clustered same label (first :: rest))
    (sameRun : ∀ x ∈ run, label x = label first) :
    ((runsFrom same first run rest).map fun group => label group.1).Nodup ∧
      ∀ group ∈ runsFrom same first run rest, group.1 :: group.2 =
        (first :: run ++ rest).filter fun x => label x = label group.1 := by
  induction rest generalizing first run with
  | nil =>
    refine ⟨by simp [runsFrom], ?_⟩
    intro group member
    rw [runsFrom, List.mem_singleton] at member
    subst member
    rw [List.append_nil, eq_comm, List.filter_eq_self]
    simpa using sameRun
  | cons next rest ih =>
    rw [runsFrom]
    by_cases goesOn : same first next = true
    · rw [if_pos goesOn]
      have equal := (clustered.agree first next (by simp)).mp goesOn
      have spec := ih first (run ++ [next])
        (clustered.sublist ((List.sublist_cons_self next rest).cons_cons first))
        (by
          intro x member
          rcases List.mem_append.mp member with inRun | last
          · exact sameRun x inRun
          · rw [List.mem_singleton.mp last]
            exact equal)
      refine ⟨spec.1, fun group member => ?_⟩
      rw [spec.2 group member]
      simp
    · rw [if_neg goesOn]
      have gone := clustered.gone (by simpa using goesOn)
      obtain ⟨distinct, groups⟩ := ih next []
        (clustered.sublist (List.sublist_cons_self first _)) (by simp)
      have later : ∀ group ∈ runsFrom same next [] rest, group.1 ∈ next :: rest := by
        intro group member
        have inside : group.1 ∈ (runsFrom same next [] rest).flatMap
            (fun group => group.1 :: group.2) :=
          List.mem_flatMap.mpr ⟨group, member, List.mem_cons_self⟩
        rw [runsFrom_flatten] at inside
        simpa using inside
      refine ⟨?_, ?_⟩
      · rw [List.map_cons, List.nodup_cons]
        refine ⟨?_, distinct⟩
        intro again
        obtain ⟨group, member, equal⟩ := List.mem_map.mp again
        exact gone group.1 (later group member) equal
      · intro group member
        rcases List.mem_cons.mp member with rfl | inRest
        · have here : (first :: run).filter (fun x => label x = label first) = first :: run := by
            simpa [List.filter_eq_self] using sameRun
          have none : (next :: rest).filter (fun x => label x = label first) = [] := by
            simpa [List.filter_eq_nil_iff] using gone
          rw [List.filter_append, here, none, List.append_nil]
        · have other := gone group.1 (later group inRest)
          have none : (first :: run).filter (fun x => label x = label group.1) = [] := by
            rw [List.filter_eq_nil_iff]
            intro x inside
            have equal : label x = label first := by
              rcases List.mem_cons.mp inside with rfl | inRun
              · rfl
              · exact sameRun x inRun
            simpa [equal] using Ne.symm other
          have rest_only : (first :: run ++ next :: rest).filter
              (fun x => label x = label group.1) =
              (next :: rest).filter fun x => label x = label group.1 := by
            rw [List.filter_append, none, List.nil_append]
          rw [rest_only, groups group inRest]
          rfl

theorem runs_spec (clustered : Clustered same label xs) :
    ((runs same xs).map fun group => label group.1).Nodup ∧
      ∀ group ∈ runs same xs, group.1 :: group.2 =
        xs.filter fun x => label x = label group.1 := by
  cases xs with
  | nil => exact ⟨List.nodup_nil, by simp [runs]⟩
  | cons first rest =>
    have spec := runsFrom_spec first [] rest clustered (by simp)
    simpa [runs] using spec

/-- Every label has a run. -/
theorem exists_run (clustered : Clustered same label xs) {x : α} (member : x ∈ xs) :
    ∃ group ∈ runs same xs, label group.1 = label x := by
  have inside := member
  rw [← @runs_flatten _ same xs] at inside
  obtain ⟨group, inRuns, held⟩ := List.mem_flatMap.mp inside
  refine ⟨group, inRuns, ?_⟩
  rw [(runs_spec clustered).2 group inRuns, List.mem_filter] at held
  simpa [eq_comm] using held.2

end NgxFormal.Lib.Runs

/-! Runs of a partial step function, and the induction rules for what holds along them. -/

namespace NgxFormal.Lib

variable {σ α : Type}

/-- Performs the actions in order; a refused action refuses the whole run. -/
def run (step : σ → α → Option σ) : σ → List α → Option σ
  | state, [] => some state
  | state, action :: rest => (step state action).bind fun next => run step next rest

/-- Every action of the run meets `guard` in the state in which it is performed. -/
def Meets (step : σ → α → Option σ) (guard : σ → α → Prop) : σ → List α → Prop
  | _, [] => True
  | state, action :: rest =>
    guard state action ∧ ∀ next, step state action = some next → Meets step guard next rest

theorem meets_cons {step : σ → α → Option σ} {guard : σ → α → Prop} {state next : σ} {action : α}
    {rest : List α} (stepped : step state action = some next) :
    Meets step guard state (action :: rest) ↔ guard state action ∧ Meets step guard next rest := by
  rw [Meets, stepped]
  simp

instance decidableMeets (step : σ → α → Option σ) (guard : σ → α → Prop)
    [∀ state action, Decidable (guard state action)] :
    ∀ state actions, Decidable (Meets step guard state actions)
  | _, [] => isTrue trivial
  | state, action :: rest =>
    match stepped : step state action with
    | none => decidable_of_iff (guard state action) (by simp [Meets, stepped])
    | some next =>
      have := decidableMeets step guard next rest
      decidable_of_iff _ (meets_cons stepped).symm

@[simp] theorem run_nil (step : σ → α → Option σ) (state : σ) :
    run step state [] = some state := rfl

theorem run_cons (step : σ → α → Option σ) (state : σ) (action : α) (rest : List α) :
    run step state (action :: rest) =
      (step state action).bind fun next => run step next rest := rfl

theorem run_cons_some {step : σ → α → Option σ} {state final : σ} {action : α}
    {rest : List α} (performed : run step state (action :: rest) = some final) :
    ∃ next, step state action = some next ∧ run step next rest = some final := by
  rw [run_cons] at performed
  exact Option.bind_eq_some_iff.mp performed

theorem run_append (step : σ → α → Option σ) (state : σ) (first second : List α) :
    run step state (first ++ second) =
      (run step state first).bind fun middle => run step middle second := by
  induction first generalizing state with
  | nil => rfl
  | cons action rest ih =>
    rw [List.cons_append, run_cons, run_cons, Option.bind_assoc]
    congr 1
    funext next
    exact ih next

theorem run_append_some {step : σ → α → Option σ} {state final : σ} {first second : List α}
    (performed : run step state (first ++ second) = some final) :
    ∃ middle, run step state first = some middle ∧ run step middle second = some final := by
  rw [run_append] at performed
  exact Option.bind_eq_some_iff.mp performed

/-- A property of the past actions and the state that every guarded step keeps holds after
every guarded run. The history is explicit because most specifications here speak of it. -/
theorem run_history {step : σ → α → Option σ} {guard : σ → α → Prop}
    {Inv : List α → σ → Prop} (actions : List α)
    (keeps : ∀ past state action next, action ∈ actions → Inv past state →
      guard state action → step state action = some next → Inv (past ++ [action]) next)
    (past : List α) (state : σ) (start : Inv past state)
    (final : σ) (meets : Meets step guard state actions)
    (performed : run step state actions = some final) : Inv (past ++ actions) final := by
  induction actions generalizing past state with
  | nil =>
    rw [run_nil] at performed
    cases performed
    simpa using start
  | cons action rest ih =>
    obtain ⟨next, stepped, remaining⟩ := run_cons_some performed
    have advanced := keeps past state action next List.mem_cons_self start meets.1 stepped
    have result := ih
      (fun past state other next member =>
        keeps past state other next (List.mem_cons_of_mem action member))
      (past ++ [action]) next advanced (meets.2 next stepped) remaining
    simpa using result

theorem meets_append {step : σ → α → Option σ} {guard : σ → α → Prop} {state middle : σ}
    {first second : List α} (meets : Meets step guard state (first ++ second))
    (performed : run step state first = some middle) :
    Meets step guard state first ∧ Meets step guard middle second := by
  induction first generalizing state with
  | nil =>
    rw [run_nil] at performed
    cases performed
    exact ⟨trivial, meets⟩
  | cons action rest ih =>
    obtain ⟨next, stepped, remaining⟩ := run_cons_some performed
    have tail := ih (meets.2 next stepped) remaining
    refine ⟨⟨meets.1, ?_⟩, tail.2⟩
    intro other otherStep
    rw [stepped] at otherStep
    cases otherStep
    exact tail.1

/-- A run meets the guard as soon as every action does in the state its predecessors reach. -/
theorem meets_of_prefixes {step : σ → α → Option σ} {guard : σ → α → Prop}
    (state : σ) (actions : List α)
    (each : ∀ before action after middle, actions = before ++ action :: after →
      run step state before = some middle → guard middle action) :
    Meets step guard state actions := by
  induction actions generalizing state with
  | nil => trivial
  | cons action rest ih =>
    refine ⟨each [] action rest state rfl rfl, ?_⟩
    intro next stepped
    apply ih
    intro before other after middle split performed
    apply each (action :: before) other after middle
    · rw [split, List.cons_append]
    · rw [run_cons, stepped]
      exact performed

/-- Guards that agree wherever `Inv` holds, and that keep it, hold along the same runs. -/
theorem meets_iff {step : σ → α → Option σ} {guard guard' : σ → α → Prop} {Inv : σ → Prop}
    (actions : List α)
    (agree : ∀ state, ∀ action ∈ actions, Inv state → (guard state action ↔ guard' state action))
    (keeps : ∀ state, ∀ action ∈ actions, ∀ next, Inv state → guard' state action →
      step state action = some next → Inv next) {state : σ} (inv : Inv state) :
    Meets step guard state actions ↔ Meets step guard' state actions := by
  induction actions generalizing state with
  | nil => exact Iff.rfl
  | cons action rest ih =>
    have later : ∀ {next : σ}, Inv next →
        (Meets step guard next rest ↔ Meets step guard' next rest) :=
      ih (fun state other member => agree state other (List.mem_cons_of_mem _ member))
        (fun state other member => keeps state other (List.mem_cons_of_mem _ member))
    rw [Meets, Meets, agree state action List.mem_cons_self inv]
    apply and_congr_right
    intro met
    apply forall_congr'
    intro next
    apply imp_congr_right
    intro stepped
    exact later (keeps state action List.mem_cons_self next inv met stepped)

end NgxFormal.Lib
