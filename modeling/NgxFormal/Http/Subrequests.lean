import NgxFormal.Lib.Runs
import Mathlib.Data.BitVec

/-! The subrequests of a main request, which has the number 0: `ngx_http_subrequest`, and what
`ngx_http_finalize_request` does for a subrequest. -/

namespace NgxFormal.Http.Subrequests

open Lib

/-- `NGX_HTTP_MAX_SUBREQUESTS` -/
def maxSubrequests : Nat := 50

/-- The counters of the main request, `c->data`, and the subrequests that have been created and not been
finalised, with their parents. -/
structure State where
  subrequests : BitVec 8
  count : BitVec 8
  active : Nat
  live : List (Nat × Nat)
  next : Nat
  deriving DecidableEq

def State.init (count : BitVec 8) : State := ⟨BitVec.ofNat 8 (maxSubrequests + 1), count, 0, [], 1⟩

inductive Rc
  | ok
  | error
  deriving DecidableEq

/-- `ngx_http_subrequest`: `allocated` is whether there is memory for the subrequest, `first` whether
`r->postponed` is `NULL`, `linked` whether there is memory for its place in that list. -/
def ngxHttpSubrequest (s : State) (r : Nat) (allocated first linked : Bool) (post : Rc) : State × Rc :=
  let s := { s with subrequests := s.subrequests - 1 }
  if s.subrequests = 0 then ({ s with subrequests := 1 }, .error)
  else if allocated = false then (s, .error)
  else
    let sr := s.next
    let s := { s with
      next := sr + 1
      active := if s.active = r ∧ first = true then sr else s.active }
    if linked = false then (s, .error)
    else
      ({ s with
        subrequests := s.subrequests + 1
        count := s.count + 1
        live := (sr, r) :: s.live }, post)

/-- `ngx_http_finalize_request` of a subrequest: `waits` is `r->buffered || r->postponed`, `written` the
result of `ngx_http_set_write_handler`. With `none` the main request is terminated. -/
def ngxHttpFinalizeRequest (s : State) (r parent : Nat) (waits : Bool) (written post : Rc) : Option State :=
  if waits then if written = .ok then some s else none
  else
    let s :=
      if r = s.active then
        { s with
          count := s.count - 1
          active := parent
          live := s.live.erase (r, parent) }
      else s
    if post = .ok then some s else none

/-- A call for a request that is not finalised; the postpone filter makes one of them active. -/
inductive Action
  | subrequest (r : Nat) (allocated first linked : Bool) (post : Rc)
  | finalize (r parent : Nat) (waits : Bool) (written post : Rc)
  | activate (r parent : Nat)
  deriving DecidableEq

def step (s : State) : Action → Option State
  | .subrequest r allocated first linked post =>
    if r = 0 ∨ ∃ sr ∈ s.live, sr.1 = r then some (ngxHttpSubrequest s r allocated first linked post).1 else none
  | .finalize r parent waits written post =>
    if (r, parent) ∈ s.live then ngxHttpFinalizeRequest s r parent waits written post else none
  | .activate r parent => if (r, parent) ∈ s.live then some { s with active := r } else none

/-- The subrequests that are not finalised are within the limit, and counted. -/
structure Within (count : BitVec 8) (s : State) : Prop where
  few : s.live.length ≤ maxSubrequests
  counted : s.count.toNat = count.toNat + s.live.length

/-- Fewer than the limit are not finalised when another one is created. -/
def Free (s : State) : Action → Prop
  | .subrequest _ _ _ _ _ => s.live.length < maxSubrequests
  | _ => True

instance (s : State) : (action : Action) → Decidable (Free s action)
  | .subrequest .. => inferInstanceAs (Decidable (s.live.length < maxSubrequests))
  | .finalize .. | .activate .. => isTrue trivial

section Runs

variable {count : BitVec 8} {s next : State}

theorem Within.subrequest (within : Within count s) (small : count.toNat + maxSubrequests < 2 ^ 8)
    (free : s.live.length < maxSubrequests) (r : Nat) (allocated first linked : Bool) (post : Rc) :
    Within count (ngxHttpSubrequest s r allocated first linked post).1 := by
  obtain ⟨few, counted⟩ := within
  unfold ngxHttpSubrequest
  dsimp only
  split
  · exact ⟨few, counted⟩
  split
  · exact ⟨few, counted⟩
  split
  · exact ⟨few, counted⟩
  · refine ⟨free, ?_⟩
    have one : (1 : BitVec 8).toNat = 1 := rfl
    rw [BitVec.toNat_add, counted, one, List.length_cons]
    omega

theorem Within.finalize (within : Within count s) {r parent : Nat} (member : (r, parent) ∈ s.live) {waits : Bool}
    {written post : Rc} (stepped : ngxHttpFinalizeRequest s r parent waits written post = some next) :
    Within count next := by
  have some_ : 0 < s.live.length := List.length_pos_of_mem member
  obtain ⟨few, counted⟩ := within
  unfold ngxHttpFinalizeRequest at stepped
  split at stepped
  · rw [Option.ite_none_right_eq_some, Option.some.injEq] at stepped
    obtain ⟨_, rfl⟩ := stepped
    exact ⟨few, counted⟩
  · rw [Option.ite_none_right_eq_some, Option.some.injEq] at stepped
    obtain ⟨_, rfl⟩ := stepped
    split
    · refine ⟨?_, ?_⟩
      · dsimp only
        rw [List.length_erase_of_mem member]
        omega
      · have one : (1 : BitVec 8).toNat = 1 := rfl
        have limit := s.count.isLt
        dsimp only
        rw [BitVec.toNat_sub, counted, one, List.length_erase_of_mem member]
        omega
    · exact ⟨few, counted⟩

theorem Within.step {action : Action} (within : Within count s) (small : count.toNat + maxSubrequests < 2 ^ 8)
    (free : Free s action) (stepped : step s action = some next) : Within count next := by
  cases action with
  | subrequest r allocated first linked post =>
    rw [Subrequests.step, Option.ite_none_right_eq_some, Option.some.injEq] at stepped
    obtain ⟨_, rfl⟩ := stepped
    exact within.subrequest small free r allocated first linked post
  | finalize r parent waits written post =>
    rw [Subrequests.step, Option.ite_none_right_eq_some] at stepped
    exact within.finalize stepped.1 stepped.2
  | activate r parent =>
    rw [Subrequests.step, Option.ite_none_right_eq_some, Option.some.injEq] at stepped
    obtain ⟨_, rfl⟩ := stepped
    exact ⟨within.few, within.counted⟩

end Runs

/-- A subrequest with one of its own, which is finalised first. -/
def nested : List Action :=
  [.subrequest 0 true true true .ok, .subrequest 1 true true true .ok, .finalize 2 1 false .ok .ok,
    .finalize 1 0 false .ok .ok]

/-- A page that includes other ones, or itself. -/
def includes (n : Nat) : List Action := List.replicate n (.subrequest 0 true false true .ok)

theorem includes_run (n : Nat) : ∃ s, run step (State.init 1) (includes n) = some s ∧
    s.live.length = n ∧ s.subrequests = 51 ∧ s.count = BitVec.ofNat 8 (n + 1) := by
  induction n with
  | zero => exact ⟨_, rfl, rfl, rfl, rfl⟩
  | succ n ih =>
    obtain ⟨s, performed, live, budget, count⟩ := ih
    have created : ngxHttpSubrequest s 0 true false true .ok =
        ({ s with
          count := s.count + 1
          live := (s.next, 0) :: s.live
          next := s.next + 1 }, .ok) := by
      obtain ⟨_, count, active, live, next⟩ := s
      obtain rfl := budget
      unfold ngxHttpSubrequest
      simp
    refine ⟨(ngxHttpSubrequest s 0 true false true .ok).1, ?_, ?_, ?_, ?_⟩
    · rw [includes, List.replicate_succ', run_append, ← includes, performed]
      rfl
    · rw [created]
      exact congrArg Nat.succ live
    · rw [created]
      exact budget
    · rw [created, count]
      exact (BitVec.ofNat_add (n + 1) 1).symm

end NgxFormal.Http.Subrequests
