import Mathlib.Data.List.GetD
import Mathlib.Data.List.Nodup
import NgxFormal.Http.RoundRobin

/-! Whether one request gets a peer twice. -/

namespace NgxFormal.Http.RoundRobin

/-- The test of both loops. -/
def available (now : Int) (peer : Peer) : Bool :=
  !peer.down &&
    (peer.maxFails == 0 || decide (peer.fails < peer.maxFails) ||
      decide (now - peer.accessed > peer.failTimeout))

theorem available_iff {now : Int} {peer : Peer} :
    available now peer = true ↔ peer.down = false ∧
      (peer.maxFails = 0 ∨ peer.fails < peer.maxFails ∨ now - peer.accessed > peer.failTimeout) := by
  simp [available, or_assoc]

section Bitmap

variable {tried : Tried} {i j : Nat}

theorem isTried_setTried_self : isTried (setTried tried i) i = true := by
  unfold isTried setTried
  have bit : i % 64 < 64 := Nat.mod_lt _ (by decide)
  simp [bit]

theorem isTried_setTried (before : isTried tried j = true) : isTried (setTried tried i) j = true := by
  unfold isTried setTried at *
  by_cases same : j / 64 = i / 64
  · rw [if_pos same, BitVec.getLsbD_or, before]
    rfl
  · rw [if_neg same]
    exact before

end Bitmap

/-- What a search does to the peers and to the marks while it takes none. -/
structure Later (now : Int) (s next : Search) : Prop where
  health : ∀ i, available now (next.peers.getD i default) = available now (s.peers.getD i default)
  marks : ∀ i, isTried s.tried i = true → isTried next.tried i = true

section Search

variable {now : Int} {s next : Search} {taken : Bool}

theorem Later.refl (s : Search) : Later now s s := ⟨fun _ => rfl, fun _ => id⟩

theorem Later.trans {mid : Search} (first : Later now s mid) (second : Later now mid next) :
    Later now s next :=
  ⟨fun i => (second.health i).trans (first.health i), fun i mark => second.marks i (first.marks i mark)⟩

theorem available_set (peers : List Peer) (n i : Nat) (w : Int) :
    available now ((peers.set n { peers.getD n default with currentWeight := w }).getD i default) =
      available now (peers.getD i default) := by
  by_cases same : n = i
  · subst same
    by_cases inside : n < peers.length
    · simp only [List.getD_eq_getElem?_getD, List.getElem?_set_self inside, Option.getD_some]
      rfl
    · rw [List.set_eq_of_length_le (by omega)]
  · simp only [List.getD_eq_getElem?_getD, List.getElem?_set_ne same]

theorem available_reset (peers : List Peer) (i : Nat) :
    available now ((resetWeights peers).getD i default) = available now (peers.getD i default) := by
  unfold resetWeights
  simp only [List.getD_eq_getElem?_getD, List.getElem?_map]
  cases peers[i]? with
  | none => rfl
  | some peer => rfl

theorem tryCurrent_spec (tried : tryCurrent now s = (taken, next)) :
    next.current = s.current ∧
      if taken then
        available now (s.peers.getD s.current default) = true ∧ isTried s.tried s.current = false ∧
          next.tried = s.tried
      else Later now s next := by
  unfold tryCurrent at tried
  split at tried
  · obtain ⟨rfl, rfl⟩ := Prod.mk.inj tried
    exact ⟨rfl, Later.refl s⟩
  · rename_i unmarked
    simp only [Bool.not_eq_true] at unmarked
    dsimp only at tried
    split at tried
    · rename_i up
      simp only [Bool.not_eq_true] at up
      split at tried
      · rename_i healthy
        obtain ⟨rfl, rfl⟩ := Prod.mk.inj tried
        exact ⟨rfl, available_iff.mpr ⟨up, healthy.imp_right Or.inl⟩, unmarked, rfl⟩
      · split at tried
        · rename_i old
          obtain ⟨rfl, rfl⟩ := Prod.mk.inj tried
          exact ⟨rfl, available_iff.mpr ⟨up, Or.inr (Or.inr old)⟩, unmarked, rfl⟩
        · obtain ⟨rfl, rfl⟩ := Prod.mk.inj tried
          exact ⟨rfl, fun i => available_set s.peers s.current i 0, fun _ => id⟩
    · obtain ⟨rfl, rfl⟩ := Prod.mk.inj tried
      exact ⟨rfl, fun _ => rfl, fun _ => isTried_setTried⟩

def Found (now : Int) (s next : Search) (taken : Bool) : Prop :=
  if taken then
    available now (s.peers.getD next.current default) = true ∧
      isTried s.tried next.current = false ∧ ∀ i, isTried s.tried i = true → isTried next.tried i = true
  else Later now s next

theorem Found.after {mid : Search} (later : Later now s mid) (found : Found now mid next taken) :
    Found now s next taken := by
  unfold Found at *
  cases taken with
  | false => exact later.trans found
  | true =>
    obtain ⟨healthy, unmarked, marks⟩ := found
    refine ⟨by rw [← later.health]; exact healthy, ?_, fun i mark => marks i (later.marks i mark)⟩
    by_contra marked
    rw [Bool.not_eq_false] at marked
    rw [later.marks _ marked] at unmarked
    cases unmarked

theorem ngxHttpUpstreamGetPeer_health {peers next : List Peer} {n : Nat}
    (got : ngxHttpUpstreamGetPeer peers = some (n, next)) (i : Nat) :
    available now (next.getD i default) = available now (peers.getD i default) := by
  unfold ngxHttpUpstreamGetPeer at got
  obtain ⟨found, _, got⟩ := Option.bind_eq_some_iff.mp got
  cases found with
  | some m =>
    obtain ⟨rfl, rfl⟩ := Prod.mk.inj (Option.some.inj got)
    rfl
  | none =>
    obtain ⟨_, _, got⟩ := Option.map_eq_some_iff.mp got
    obtain ⟨_, rfl⟩ := Prod.mk.inj got
    exact available_reset peers i

theorem tryCurrent_found (tried : tryCurrent now s = (taken, next)) :
    Found now s next taken := by
  obtain ⟨same, spec⟩ := tryCurrent_spec tried
  cases taken with
  | false => exact spec
  | true =>
    obtain ⟨healthy, unmarked, marks⟩ := spec
    exact ⟨by rw [same]; exact healthy, by rw [same]; exact unmarked, fun i mark => by rw [marks]; exact mark⟩

theorem firstLoop_spec (i : Nat) (done : firstLoop now i s = some (taken, next)) :
    Found now s next taken := by
  induction i generalizing s with
  | zero =>
    obtain ⟨rfl, rfl⟩ := Prod.mk.inj (Option.some.inj done)
    exact Later.refl s
  | succ i ih =>
    rw [firstLoop] at done
    obtain ⟨⟨n, peers⟩, got, done⟩ := Option.bind_eq_some_iff.mp done
    have moved : Later now s { s with current := n, peers := peers } :=
      ⟨ngxHttpUpstreamGetPeer_health got, fun _ => id⟩
    apply Found.after moved
    obtain ⟨first, mid, tried⟩ : ∃ first mid,
      tryCurrent now { s with current := n, peers := peers } = (first, mid) := ⟨_, _, rfl⟩
    have found := tryCurrent_found tried
    simp only [tried] at done
    cases first with
    | true =>
      obtain ⟨rfl, rfl⟩ := Prod.mk.inj (Option.some.inj done)
      exact found
    | false =>
      simp only [Bool.false_eq_true, if_false] at done
      split at done
      · obtain ⟨rfl, rfl⟩ := Prod.mk.inj (Option.some.inj done)
        exact found
      · split at done
        · obtain ⟨rfl, rfl⟩ := Prod.mk.inj (Option.some.inj done)
          exact found
        · exact Found.after found (ih done)

theorem nextLoop_spec (i : Nat) (done : nextLoop now i s = (taken, next)) :
    Found now s next taken := by
  induction i generalizing s with
  | zero =>
    obtain ⟨rfl, rfl⟩ := Prod.mk.inj done
    exact Later.refl s
  | succ i ih =>
    rw [nextLoop] at done
    obtain ⟨first, mid, tried⟩ : ∃ first mid, tryCurrent now s = (first, mid) := ⟨_, _, rfl⟩
    have found := tryCurrent_found tried
    simp only [tried] at done
    cases first with
    | true =>
      obtain ⟨rfl, rfl⟩ := Prod.mk.inj done
      exact found
    | false =>
      have moved : ∀ current, Later now s { mid with current := current } := fun _ =>
        ⟨found.health, found.marks⟩
      simp only [Bool.false_eq_true, if_false] at done
      split at done
      · obtain ⟨rfl, rfl⟩ := Prod.mk.inj done
        exact moved _
      · split at done
        · obtain ⟨rfl, rfl⟩ := Prod.mk.inj done
          exact moved _
        · exact Found.after (moved _) (ih done)

theorem search_spec (done : search now s = some (taken, next)) :
    Found now s next taken ∧ (taken = true → isTried next.tried next.current = true) := by
  unfold search at done
  obtain ⟨⟨first, mid⟩, looped, done⟩ := Option.map_eq_some_iff.mp done
  have found : Found now s mid first := by
    split at looped
    · exact firstLoop_spec _ looped
    · exact nextLoop_spec _ (Option.some.inj looped)
  cases first with
  | false =>
    obtain ⟨rfl, rfl⟩ := Prod.mk.inj done
    exact ⟨found, fun absurd => Bool.noConfusion absurd⟩
  | true =>
    obtain ⟨rfl, rfl⟩ := Prod.mk.inj done
    obtain ⟨healthy, unmarked, marks⟩ := found
    exact ⟨⟨healthy, unmarked, fun i mark => isTried_setTried (marks i mark)⟩,
      fun _ => isTried_setTried_self⟩

end Search

/-- What other requests do to the states of the peers. -/
structure Others where
  change : List Peer → List Peer
  length : ∀ peers, (change peers).length = peers.length

/-- One attempt of a request: when a peer is asked for, what the others have done since, and how the
peer is given back. -/
structure Attempt where
  now : Int
  primary : Others
  backup : Others
  failed : Bool
  freed : Int

def change (attempt : Attempt) (up : Upstream) : Upstream :=
  { up with
    primary := attempt.primary.change up.primary
    backup := up.backup.map attempt.backup.change }

/-- A peer is asked for and given back, as `ngx_http_upstream_next` does it. -/
def tryPeer (attempt : Attempt) (up : Upstream) : Option (Upstream × Option PeerId) :=
  (ngxHttpUpstreamGetRoundRobinPeer attempt.now (change attempt up)).map fun (up, found) =>
    (if found.isSome then ngxHttpUpstreamFreeRoundRobinPeer attempt.freed attempt.failed up else up,
      found)

/-- The peers that a request gets; it ends when there are no tries left. -/
def request : List Attempt → Upstream → List PeerId
  | [], _ => []
  | attempt :: later, up =>
    if up.tries = 0 then []
    else
      match tryPeer attempt up with
      | none => []
      | some (up, found) => found.toList ++ request later up

/-- Among the primary peers, none that was used and has lost its mark is available. -/
def NoneAgain (attempt : Attempt) (up : Upstream) (used : List PeerId) : Prop :=
  up.onBackup = false → ∀ peer ∈ used, peer.1 = false → isTried up.tried peer.2 = false →
    available attempt.now ((attempt.primary.change up.primary).getD peer.2 default) = false

instance (attempt : Attempt) (up : Upstream) (used : List PeerId) :
    Decidable (NoneAgain attempt up used) := inferInstanceAs (Decidable (_ → _))

/-- `NoneAgain` before every attempt. -/
def NeverAgain : List Attempt → Upstream → List PeerId → Prop
  | [], _, _ => True
  | attempt :: later, up, used =>
    up.tries ≠ 0 → NoneAgain attempt up used ∧
      match tryPeer attempt up with
      | none => True
      | some (next, found) => NeverAgain later next (used ++ found.toList)

instance decidableNeverAgain : ∀ attempts up used, Decidable (NeverAgain attempts up used)
  | [], _, _ => isTrue trivial
  | attempt :: later, up, used =>
    have : Decidable (match tryPeer attempt up with
        | none => True
        | some (next, found) => NeverAgain later next (used ++ found.toList)) :=
      match tryPeer attempt up with
      | none => isTrue trivial
      | some (next, found) => decidableNeverAgain later next (used ++ found.toList)
    inferInstanceAs (Decidable (_ → _ ∧ _))

/-- The peers that a request has used, and their marks. -/
structure Marked (up : Upstream) (used : List PeerId) : Prop where
  once : used.Nodup
  single : up.single = true → up.tries ≠ 0 → used = []
  there : up.onBackup = true → up.backup.isSome = true ∧ up.single = false
  primary : up.onBackup = false → ∀ i, (true, i) ∉ used
  backup : up.onBackup = true → ∀ i, (true, i) ∈ used → isTried up.tried i = true

section Attempts

variable {up next : Upstream} {used : List PeerId} {attempt : Attempt} {found : Option PeerId}
variable {now : Int}

theorem getBackup_spec {backup : List Peer} (got : getBackup now up backup = some (next, found)) :
    next.single = up.single ∧ next.onBackup = up.onBackup ∧ next.backup.isSome = true ∧
      (∀ i, isTried up.tried i = true → isTried next.tried i = true) ∧
      ∀ peer, found = some peer → peer.1 = true ∧ isTried up.tried peer.2 = false ∧
        isTried next.tried peer.2 = true := by
  unfold getBackup at got
  obtain ⟨⟨taken, s⟩, searched, same⟩ := Option.map_eq_some_iff.mp got
  obtain ⟨done, marked⟩ := search_spec searched
  obtain ⟨rfl, rfl⟩ := Prod.mk.inj same
  cases taken with
  | false => exact ⟨rfl, rfl, rfl, done.marks, fun peer absurd => by cases absurd⟩
  | true =>
    obtain ⟨_, unmarked, marks⟩ := done
    refine ⟨rfl, rfl, rfl, marks, fun peer same => ?_⟩
    obtain rfl := Option.some.inj same
    exact ⟨rfl, unmarked, marked rfl⟩

theorem get_cases (several : up.single = false) (first : up.onBackup = false)
    (got : ngxHttpUpstreamGetRoundRobinPeer now up = some (next, found)) :
    next.single = false ∧
      ((next.onBackup = false ∧ ∀ peer, found = some peer → peer.1 = false ∧
          available now (up.primary.getD peer.2 default) = true ∧ isTried up.tried peer.2 = false) ∨
        (next.onBackup = true ∧ next.backup.isSome = true ∧
          ∀ peer, found = some peer → peer.1 = true ∧ isTried next.tried peer.2 = true)) := by
  unfold ngxHttpUpstreamGetRoundRobinPeer at got
  simp only [first, several, Bool.false_eq_true, if_false] at got
  obtain ⟨⟨taken, s⟩, searched, got⟩ := Option.bind_eq_some_iff.mp got
  obtain ⟨done, _⟩ := search_spec searched
  cases taken with
  | true =>
    obtain ⟨healthy, unmarked, _⟩ := done
    have primary : ∀ peer, some (false, s.current) = some peer → peer.1 = false ∧
        available now (up.primary.getD peer.2 default) = true ∧ isTried up.tried peer.2 = false := by
      intro peer same
      obtain rfl := Option.some.inj same
      exact ⟨rfl, healthy, unmarked⟩
    cases hasBackup : up.backup with
    | none =>
      simp only [hasBackup] at got
      obtain ⟨rfl, rfl⟩ := Prod.mk.inj (Option.some.inj got)
      exact ⟨rfl, Or.inl ⟨rfl, primary⟩⟩
    | some backup =>
      simp only [hasBackup] at got
      obtain ⟨rfl, rfl⟩ := Prod.mk.inj (Option.some.inj got)
      split
      · exact ⟨rfl, Or.inl ⟨rfl, primary⟩⟩
      · exact ⟨rfl, Or.inl ⟨rfl, primary⟩⟩
  | false =>
    cases hasBackup : up.backup with
    | none =>
      simp only [hasBackup] at got
      obtain ⟨rfl, rfl⟩ := Prod.mk.inj (Option.some.inj got)
      exact ⟨rfl, Or.inl ⟨rfl, fun peer absurd => by cases absurd⟩⟩
    | some backup =>
      simp only [hasBackup] at got
      obtain ⟨⟨mid, peer⟩, fromBackup, same⟩ := Option.map_eq_some_iff.mp got
      obtain ⟨single, onBackup, there, _, marks⟩ := getBackup_spec fromBackup
      cases peer with
      | none =>
        obtain ⟨rfl, rfl⟩ := Prod.mk.inj same
        exact ⟨single, Or.inr ⟨onBackup, there, fun peer absurd => by cases absurd⟩⟩
      | some peer =>
        obtain ⟨rfl, rfl⟩ := Prod.mk.inj same
        refine ⟨single, Or.inr ⟨onBackup, there, fun other same => ?_⟩⟩
        obtain ⟨kind, _, mark⟩ := marks other same
        exact ⟨kind, mark⟩

theorem Marked.change (marked : Marked up used) (attempt : Attempt) :
    Marked (change attempt up) used := by
  obtain ⟨once, single, there, primary, backup⟩ := marked
  refine ⟨once, single, fun onBackup => ?_, primary, backup⟩
  obtain ⟨some_backup, several⟩ := there onBackup
  exact ⟨by simpa [RoundRobin.change] using some_backup, several⟩

theorem free_same (now : Int) (failed : Bool) (up : Upstream) :
    let next := ngxHttpUpstreamFreeRoundRobinPeer now failed up
    next.single = up.single ∧ next.onBackup = up.onBackup ∧ next.tried = up.tried ∧
      (up.backup.isSome = true → next.backup.isSome = true) ∧
      (up.single = true → up.onBackup = false → next.tries = 0) := by
  unfold ngxHttpUpstreamFreeRoundRobinPeer
  by_cases alone : up.single = true ∧ ¬up.onBackup = true
  · rw [if_pos alone]
    exact ⟨rfl, rfl, rfl, id, fun _ _ => rfl⟩
  · rw [if_neg alone]
    cases on : up.onBackup with
    | true => exact ⟨rfl, rfl, rfl, fun _ => rfl, fun _ absurd => by cases absurd⟩
    | false =>
      refine ⟨rfl, rfl, rfl, id, fun single _ => ?_⟩
      exact (alone ⟨single, by simp [on]⟩).elim

/-- As `Marked`, between a peer being handed out and given back. -/
structure Given (up : Upstream) (used : List PeerId) (found : Option PeerId) : Prop where
  once : (used ++ found.toList).Nodup
  single : up.single = true → found.isSome = true ∧ up.onBackup = false
  there : up.onBackup = true → up.backup.isSome = true ∧ up.single = false
  primary : up.onBackup = false → ∀ i, (true, i) ∉ used ++ found.toList
  backup : up.onBackup = true → ∀ i, (true, i) ∈ used ++ found.toList → isTried up.tried i = true

theorem Given.free (given : Given up used found) (now : Int) (failed : Bool) :
    Marked (if found.isSome then ngxHttpUpstreamFreeRoundRobinPeer now failed up else up)
      (used ++ found.toList) := by
  obtain ⟨once, single, there, primary, backup⟩ := given
  cases found with
  | none =>
    refine ⟨once, fun alone => ?_, there, primary, backup⟩
    cases (single alone).1
  | some peer =>
    obtain ⟨sameSingle, sameList, sameMarks, stillThere, exceeds⟩ := free_same now failed up
    show Marked (ngxHttpUpstreamFreeRoundRobinPeer now failed up) _
    refine ⟨once, fun alone tries => ?_, fun onBackup => ?_, fun onBackup => ?_, fun onBackup => ?_⟩
    · rw [sameSingle] at alone
      exact (tries (exceeds alone (single alone).2)).elim
    · rw [sameList] at onBackup
      obtain ⟨some_backup, several⟩ := there onBackup
      exact ⟨stillThere some_backup, sameSingle.trans several⟩
    · rw [sameList] at onBackup
      exact primary onBackup
    · rw [sameList] at onBackup
      rw [sameMarks]
      exact backup onBackup

theorem Marked.append (marked : Marked up used) (fresh : ∀ peer, found = some peer → peer ∉ used) :
    (used ++ found.toList).Nodup := by
  cases found with
  | none => simpa using marked.once
  | some peer =>
    rw [Option.toList_some, List.nodup_append]
    refine ⟨marked.once, List.nodup_singleton _, ?_⟩
    rintro a inside b last rfl
    rw [List.mem_singleton] at last
    exact fresh a (congrArg some last.symm) inside

theorem mem_append_found {peer : PeerId} (member : peer ∈ used ++ found.toList) :
    peer ∈ used ∨ found = some peer := by
  simpa using member

theorem Marked.get_backup (marked : Marked up used) (onBackup : up.onBackup = true)
    (got : ngxHttpUpstreamGetRoundRobinPeer now up = some (next, found)) : Given next used found := by
  obtain ⟨some_backup, several⟩ := marked.there onBackup
  obtain ⟨backup, hasBackup⟩ := Option.isSome_iff_exists.mp some_backup
  unfold ngxHttpUpstreamGetRoundRobinPeer at got
  simp only [onBackup, hasBackup] at got
  obtain ⟨single, list, there, kept, marks⟩ := getBackup_spec got
  rw [several] at single
  rw [onBackup] at list
  refine ⟨marked.append ?_, ?_, fun _ => ⟨there, single⟩, ?_, ?_⟩
  · rintro ⟨kind, i⟩ same member
    obtain ⟨rfl, unmarked, _⟩ := marks _ same
    rw [marked.backup onBackup i member] at unmarked
    cases unmarked
  · intro alone
    rw [single] at alone
    cases alone
  · intro off
    rw [list] at off
    cases off
  · intro _ i member
    rcases mem_append_found member with old | same
    · exact kept i (marked.backup onBackup i old)
    · exact (marks _ same).2.2

theorem Marked.get_primary (marked : Marked up used) (first : up.onBackup = false)
    (several : up.single = false)
    (none_again : ∀ i, (false, i) ∈ used → isTried up.tried i = false →
      available now (up.primary.getD i default) = false)
    (got : ngxHttpUpstreamGetRoundRobinPeer now up = some (next, found)) : Given next used found := by
  obtain ⟨single, cases⟩ := get_cases several first got
  have alone : next.single = true → found.isSome = true ∧ next.onBackup = false := by
    intro alone
    rw [single] at alone
    cases alone
  rcases cases with ⟨list, spec⟩ | ⟨list, there, spec⟩
  · refine ⟨marked.append ?_, alone, ?_, ?_, ?_⟩
    · rintro ⟨kind, i⟩ same member
      obtain ⟨rfl, healthy, unmarked⟩ := spec _ same
      rw [none_again i member unmarked] at healthy
      cases healthy
    · intro onBackup
      rw [list] at onBackup
      cases onBackup
    · intro _ i member
      rcases mem_append_found member with old | same
      · exact marked.primary first i old
      · cases (spec _ same).1
    · intro onBackup
      rw [list] at onBackup
      cases onBackup
  · refine ⟨marked.append ?_, alone, fun _ => ⟨there, single⟩, ?_, ?_⟩
    · rintro ⟨kind, i⟩ same member
      obtain ⟨rfl, _⟩ := spec _ same
      exact marked.primary first i member
    · intro off
      rw [list] at off
      cases off
    · intro _ i member
      rcases mem_append_found member with old | same
      · exact (marked.primary first i old).elim
      · exact (spec _ same).2

theorem Marked.get_single (marked : Marked up used) (alone : up.single = true) (tries : up.tries ≠ 0)
    (got : ngxHttpUpstreamGetRoundRobinPeer now up = some (next, found)) : Given next used found := by
  have first : up.onBackup = false := by
    by_contra onBackup
    rw [Bool.not_eq_false] at onBackup
    rw [(marked.there onBackup).2] at alone
    cases alone
  have unused := marked.single alone tries
  unfold ngxHttpUpstreamGetRoundRobinPeer at got
  simp only [first, alone, if_true] at got
  obtain ⟨rfl, rfl⟩ := Prod.mk.inj (Option.some.inj got)
  subst unused
  refine ⟨by simp, fun _ => ⟨rfl, first⟩, marked.there, fun _ i member => by simp at member, ?_⟩
  intro onBackup
  rw [first] at onBackup
  cases onBackup

theorem Marked.tryPeer (marked : Marked up used) (tries : up.tries ≠ 0)
    (none_again : NoneAgain attempt up used) (tried : tryPeer attempt up = some (next, found)) :
    Marked next (used ++ found.toList) := by
  have before := marked.change attempt
  obtain ⟨⟨mid, peer⟩, got, same⟩ := Option.map_eq_some_iff.mp tried
  obtain ⟨rfl, rfl⟩ := Prod.mk.inj same
  apply Given.free
  cases alone : up.single with
  | true => exact before.get_single alone tries got
  | false =>
    cases list : up.onBackup with
    | true => exact before.get_backup list got
    | false => exact before.get_primary list alone (fun i member => none_again list _ member rfl) got

theorem Marked.request (attempts : List Attempt) (marked : Marked up used)
    (never : NeverAgain attempts up used) : (used ++ request attempts up).Nodup := by
  induction attempts generalizing up used with
  | nil => simpa [RoundRobin.request] using marked.once
  | cons attempt later ih =>
    rw [RoundRobin.request]
    by_cases exceeds : up.tries = 0
    · rw [if_pos exceeds, List.append_nil]
      exact marked.once
    · rw [if_neg exceeds]
      obtain ⟨none_again, rest⟩ := never exceeds
      cases tried : RoundRobin.tryPeer attempt up with
      | none => simpa using marked.once
      | some result =>
        obtain ⟨next, found⟩ := result
        simp only [tried] at rest ⊢
        rw [← List.append_assoc]
        exact ih (marked.tryPeer exceeds none_again tried) rest

theorem Marked.init (up : Upstream) : Marked (ngxHttpUpstreamInitRoundRobinPeer up) [] :=
  ⟨List.nodup_nil, fun _ _ => rfl, fun absurd => Bool.noConfusion absurd,
    fun _ _ => List.not_mem_nil, fun absurd => Bool.noConfusion absurd⟩

end Attempts

/-- A request gets no peer twice if, each time it searches the primary peers, those it has used and
whose marks were cleared are not available. -/
theorem request_distinct (up : Upstream) (attempts : List Attempt)
    (never : NeverAgain attempts (ngxHttpUpstreamInitRoundRobinPeer up) []) :
    (request attempts (ngxHttpUpstreamInitRoundRobinPeer up)).Nodup := by
  simpa using (Marked.init up).request attempts never

def noOthers : Others := ⟨id, fun _ => rfl⟩

/-- Two primary peers and a backup peer that are taken to be down after `maxFails` failures. -/
def withBackup (maxFails : Nat) : Upstream :=
  { single := false
    primary := [⟨1, 1, 0, 0, maxFails, 10, false⟩, ⟨1, 1, 0, 0, maxFails, 10, false⟩]
    backup := some [⟨1, 1, 0, 0, maxFails, 10, false⟩]
    onBackup := false
    current := 0
    tried := fun _ => 0
    tries := 0 }

def failures : List Attempt := List.replicate 3 ⟨5, noOthers, noOthers, true, 5⟩

/-- With `max_fails=0` the peer that was tried first is tried again, and the backup peer is not reached. -/
theorem request_repeats :
    ¬(request failures (ngxHttpUpstreamInitRoundRobinPeer (withBackup 0))).Nodup := by
  have repeats : request failures (ngxHttpUpstreamInitRoundRobinPeer (withBackup 0)) =
      [(false, 1), (false, 0), (false, 1)] := by
    decide +kernel
  rw [repeats]
  decide

/-- With `max_fails=1` the third try goes to the backup peer. -/
theorem request_distinct_one_failure :
    request failures (ngxHttpUpstreamInitRoundRobinPeer (withBackup 1)) =
        [(false, 1), (false, 0), (true, 0)] ∧
      (request failures (ngxHttpUpstreamInitRoundRobinPeer (withBackup 1))).Nodup := by
  exact ⟨by decide +kernel, request_distinct _ _ (by decide +kernel)⟩

end NgxFormal.Http.RoundRobin
