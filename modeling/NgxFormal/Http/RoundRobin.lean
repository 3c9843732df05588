import Mathlib.Algebra.Order.Ring.Int
import Mathlib.Data.List.Basic

/-! `ngx_http_upstream_get_round_robin_peer`, `ngx_http_upstream_get_peer` and
`ngx_http_upstream_free_round_robin_peer`. A result `none` is a division by zero. -/

namespace NgxFormal.Http.RoundRobin

/-- `ngx_http_upstream_rr_peer_t` -/
structure Peer where
  currentWeight : Int
  weight : Int
  fails : Nat
  accessed : Int
  maxFails : Nat
  failTimeout : Int
  down : Bool
  deriving DecidableEq, Repr, Inhabited

/-- The product of a weight in `ngx_int_t`. -/
def scaled (weight : Int) : Int := (weight * 1000).bmod (2 ^ 64)

/-- The inner loop of `ngx_http_upstream_get_peer`: `n` is the peer in hand, `i` the index of the
next one. The test behind the loop changes nothing, since `n` is then the last index with a positive
weight. -/
def compareNext (n : Nat) (mine : Peer) : Nat → List Peer → Option Nat
  | _, [] => some n
  | i, peer :: rest =>
    if peer.currentWeight ≤ 0 then compareNext n mine (i + 1) rest
    else if peer.weight = 0 then none
    else if (scaled mine.currentWeight).tdiv peer.currentWeight >
        (scaled mine.weight).tdiv peer.weight then some n
    else compareNext i peer (i + 1) rest

/-- The outer loop; the inner result is `none` when no peer has a positive weight. -/
def findPeer : Nat → List Peer → Option (Option Nat)
  | _, [] => some none
  | i, peer :: rest =>
    if peer.currentWeight ≤ 0 then findPeer (i + 1) rest
    else (compareNext i peer (i + 1) rest).map some

def resetWeights (peers : List Peer) : List Peer :=
  peers.map fun peer => { peer with currentWeight := peer.weight }

def ngxHttpUpstreamGetPeer (peers : List Peer) : Option (Nat × List Peer) :=
  (findPeer 0 peers).bind fun
    | some n => some (n, peers)
    | none =>
      let peers := resetWeights peers
      (findPeer 0 peers).map fun found => (found.getD 0, peers)

abbrev Tried := Nat → BitVec 64

/-- `rrp->tried[n] & m` -/
def isTried (tried : Tried) (current : Nat) : Bool := (tried (current / 64)).getLsbD (current % 64)

/-- `rrp->tried[n] |= m` -/
def setTried (tried : Tried) (current : Nat) : Tried := fun n =>
  if n = current / 64 then tried n ||| 1#64 <<< (current % 64) else tried n

/-- `for (i = 0; i < n; i++) rrp->tried[i] = 0;` for the peers of `number`. -/
def clearTried (tried : Tried) (number : Nat) : Tried := fun n =>
  if n < number / 64 + 1 then 0 else tried n

/-- The part of `ngx_http_upstream_rr_peer_data_t` and of the connection that a search works on. -/
structure Search where
  peers : List Peer
  current : Nat
  tried : Tried
  tries : Nat

/-- The body of both search loops: whether the current peer is taken. -/
def tryCurrent (now : Int) (s : Search) : Bool × Search :=
  if isTried s.tried s.current then (false, s)
  else
    let peer := s.peers.getD s.current default
    if ¬peer.down then
      if peer.maxFails = 0 ∨ peer.fails < peer.maxFails then (true, s)
      else if now - peer.accessed > peer.failTimeout then
        (true, { s with peers := s.peers.set s.current { peer with fails := 0 } })
      else
        (false, { s with
          peers := s.peers.set s.current { peer with currentWeight := 0 }
          tries := s.tries - 1 })
    else (false, { s with tried := setTried s.tried s.current, tries := s.tries - 1 })

/-- The loop of a first try; `i` turns are left. -/
def firstLoop (now : Int) : Nat → Search → Option (Bool × Search)
  | 0, s => some (false, s)
  | i + 1, s =>
    (ngxHttpUpstreamGetPeer s.peers).bind fun (n, peers) =>
      let (taken, s) := tryCurrent now { s with current := n, peers := peers }
      if taken then some (true, s)
      else if s.tries = 0 then some (false, s)
      else if i = 0 then some (false, s)
      else firstLoop now i s

/-- The loop of a later try. -/
def nextLoop (now : Int) : Nat → Search → Bool × Search
  | 0, s => (false, s)
  | i + 1, s =>
    let (taken, s) := tryCurrent now s
    if taken then (true, s)
    else
      let current := if s.current + 1 ≥ s.peers.length then 0 else s.current + 1
      let s := { s with current := current }
      if s.tries = 0 then (false, s)
      else if i = 0 then (false, s)
      else nextLoop now i s

/-- `peer->current_weight--` and `rrp->tried[n] |= m` for a peer that was taken. -/
def take (s : Search) : Search :=
  let peer := s.peers.getD s.current default
  { s with
    peers := s.peers.set s.current { peer with currentWeight := peer.currentWeight - 1 }
    tried := setTried s.tried s.current }

def search (now : Int) (s : Search) : Option (Bool × Search) :=
  let found :=
    if s.tries = s.peers.length then firstLoop now s.tries s else some (nextLoop now s.tries s)
  found.map fun (taken, s) => if taken then (true, take s) else (false, s)

/-- The peers of an upstream, and where a request is in them. -/
structure Upstream where
  single : Bool
  primary : List Peer
  backup : Option (List Peer)
  onBackup : Bool
  current : Nat
  tried : Tried
  tries : Nat

/-- `ngx_http_upstream_init_round_robin_peer`: a new request on the upstream. -/
def ngxHttpUpstreamInitRoundRobinPeer (up : Upstream) : Upstream :=
  { up with onBackup := false, current := 0, tried := fun _ => 0, tries := up.primary.length }

/-- A peer: whether it is a backup, and its index. -/
abbrev PeerId := Bool × Nat

def clearFails (peers : List Peer) : List Peer := peers.map fun peer => { peer with fails := 0 }

/-- The search among the backup peers, for a request that has come to them. -/
def getBackup (now : Int) (up : Upstream) (backup : List Peer) : Option (Upstream × Option PeerId) :=
  (search now ⟨backup, up.current, up.tried, up.tries⟩).map fun (taken, s) =>
    let peers := if taken then s.peers else clearFails s.peers
    ({ up with backup := some peers, current := s.current, tried := s.tried, tries := s.tries },
      if taken then some (true, s.current) else none)

/-- The peer of `NGX_OK`; no peer is `NGX_BUSY`. -/
def ngxHttpUpstreamGetRoundRobinPeer (now : Int) (up : Upstream) :
    Option (Upstream × Option PeerId) :=
  match up.onBackup, up.backup with
  | true, some backup => getBackup now up backup
  | _, _ =>
    if up.single then some (up, some (false, 0))
    else
      (search now ⟨up.primary, up.current, up.tried, up.tries⟩).bind fun (taken, s) =>
        let up :=
          { up with primary := s.peers, current := s.current, tried := s.tried, tries := s.tries }
        match taken, up.backup with
        | true, none => some (up, some (false, s.current))
        | true, some backup =>
          let up :=
            if up.tries = 1 then
              { up with
                tries := up.tries + backup.length
                tried := clearTried up.tried backup.length }
            else up
          some (up, some (false, s.current))
        | false, none => some ({ up with primary := clearFails up.primary }, none)
        | false, some backup =>
          (getBackup now
            { up with
              onBackup := true
              tries := backup.length
              tried := clearTried up.tried backup.length } backup).map fun (up, found) =>
            match found with
            | some peer => (up, some peer)
            | none => ({ up with primary := clearFails up.primary }, none)

/-- `peer->fails++` and what goes with it. -/
def failPeer (now : Int) (peer : Peer) : Peer :=
  let weight :=
    if peer.maxFails ≠ 0 then peer.currentWeight - peer.weight.tdiv peer.maxFails
    else peer.currentWeight
  { peer with
    fails := peer.fails + 1
    accessed := now
    currentWeight := if weight < 0 then 0 else weight }

/-- `ngx_http_upstream_free_round_robin_peer` for a state other than 0; `failed` is
`state & NGX_PEER_FAILED`. -/
def ngxHttpUpstreamFreeRoundRobinPeer (now : Int) (failed : Bool) (up : Upstream) : Upstream :=
  if up.single ∧ ¬up.onBackup then { up with tries := 0 }
  else
    let peers := if up.onBackup then up.backup.getD [] else up.primary
    let peers :=
      if failed then peers.set up.current (failPeer now (peers.getD up.current default)) else peers
    let up := if up.onBackup then { up with backup := some peers } else { up with primary := peers }
    { up with
      current := if up.current + 1 ≥ peers.length then 0 else up.current + 1
      tries := up.tries - 1 }

end NgxFormal.Http.RoundRobin
