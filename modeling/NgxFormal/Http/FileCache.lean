import Mathlib.Algebra.Order.Ring.Int
import Mathlib.Data.BitVec

/-! The nodes of a cache zone in shared memory. Each action is what one process does between taking
and releasing the mutex of the zone. -/

namespace NgxFormal.Http.FileCache

abbrev Key := BitVec 128

/-- `ngx_http_file_cache_node_t` -/
structure Node where
  key : Key
  count : BitVec 20
  uses : BitVec 10
  validMsec : BitVec 10
  error : BitVec 10
  exists_ : Bool
  updating : Bool
  deleting : Bool
  uniq : Nat
  expire : Int
  validSec : Int
  bodyStart : Nat
  fsSize : Int
  deriving DecidableEq, Repr

/-- The fields of `ngx_http_cache_t` that decide what a request does to its node. A request is
`waiting` between the two attempts to allocate a node. -/
structure Req where
  key : Key
  minUses : Nat
  node : Option Nat
  waiting : Bool
  updated : Bool
  updating : Bool
  deriving DecidableEq, Repr

/-- The shared memory, the requests of all workers, and the nodes whose files are being deleted. The
queue has the nodes of the tree, the last used one first. -/
structure State where
  inactive : Int
  cold : Bool
  nodes : Nat → Node
  queue : List Nat
  size : Int
  requests : List Req
  deletes : List Nat

def State.init (memory : Nat → Node) (inactive : Int) (cold : Bool) : State :=
  ⟨inactive, cold, memory, [], 0, [], []⟩

inductive Rc
  | ok
  | again
  | declined
  | error
  deriving DecidableEq, Repr

def State.setNode (s : State) (a : Nat) (node : Node) : State :=
  { s with nodes := Function.update s.nodes a node }

@[simp] theorem setNode_self (s : State) (a : Nat) (node : Node) : (s.setNode a node).nodes a = node :=
  Function.update_self _ _ _

@[simp] theorem setNode_other (s : State) (a : Nat) (node : Node) {b : Nat} (other : b ≠ a) :
    (s.setNode a node).nodes b = s.nodes b := Function.update_of_ne other _ _

/-- `ngx_queue_remove` and `ngx_queue_insert_head` -/
def State.toHead (s : State) (a : Nat) : State := { s with queue := a :: s.queue.erase a }

/-- `ngx_queue_remove`, `ngx_rbtree_delete` and `ngx_slab_free_locked` -/
def State.remove (s : State) (a : Nat) : State := { s with queue := s.queue.erase a }

/-- The part of `ngx_http_file_cache_exists` behind `renew`. -/
def renew (node : Node) : Node :=
  { node with
    validMsec := 0, error := 0, exists_ := false, validSec := 0, uniq := 0, bodyStart := 0, fsSize := 0 }

def takeNode (now : Int) (minUses : Nat) (node : Node) : Rc × Node :=
  let node := { node with uses := node.uses + 1, count := node.count + 1 }
  if node.error ≠ 0 then if node.validSec < now then (.declined, renew node) else (.ok, node)
  else if node.exists_ ∨ node.uses.toNat ≥ minUses then (.ok, node)
  else (.again, node)

/-- A node from the slab pool, with what was in its memory. -/
def newNode (key : Key) (node : Node) : Node :=
  renew { node with key := key, uses := 1, count := 1, updating := false, deleting := false }

/-- `ngx_http_file_cache_exists`, up to the failure of an allocation: `found` is the result of the
search in the tree, `fresh` that of `ngx_slab_alloc_locked`. -/
def ngxHttpFileCacheExists (s : State) (key : Key) (minUses : Nat) (now : Int)
    (found fresh : Option Nat) : Option Rc × State :=
  let enter (rc : Rc) (a : Nat) (node : Node) : Option Rc × State :=
    let s := (s.setNode a { node with expire := now + s.inactive }).toHead a
    (some rc, { s with requests := s.requests ++ [⟨key, minUses, some a, false, false, false⟩] })
  match found, fresh with
  | some a, _ =>
    let (rc, node) := takeNode now minUses (s.nodes a)
    enter rc a node
  | none, some a => enter .declined a (newNode key (s.nodes a))
  | none, none =>
    (none, { s with requests := s.requests ++ [⟨key, minUses, none, true, false, false⟩] })

/-- The rest of the function, behind `ngx_http_file_cache_forced_expire`. The tree is not searched
again. -/
def existsAgain (s : State) (r : Nat) (c : Req) (now : Int) : Option Nat → Rc × State
  | some a =>
    let s := (s.setNode a { newNode c.key (s.nodes a) with expire := now + s.inactive }).toHead a
    (.declined, { s with requests := s.requests.set r { c with node := some a, waiting := false } })
  | none => (.error, { s with requests := s.requests.set r { c with waiting := false } })

/-- The first locked part of `ngx_http_file_cache_read`. -/
def readNode (s : State) (a : Nat) (bodyStart uniq : Nat) (fsSize : Int) : State :=
  if s.cold ∧ ¬(s.nodes a).exists_ then
    let s := s.setNode a { s.nodes a with
      uses := 1, bodyStart := bodyStart, exists_ := true, uniq := uniq, fsSize := fsSize }
    { s with size := s.size + fsSize }
  else s

/-- The second locked part, for a file that is no longer valid. -/
def staleNode (s : State) (r : Nat) (c : Req) (a : Nat) : State :=
  if (s.nodes a).updating then s
  else
    { s.setNode a { s.nodes a with updating := true } with
      requests := s.requests.set r { c with updating := true } }

/-- `ngx_http_file_cache_update`: `renamed` is whether the file got its name and was looked at. -/
def ngxHttpFileCacheUpdate (s : State) (r : Nat) (c : Req) (a : Nat) (renamed : Bool)
    (uniq bodyStart : Nat) (fsSize : Int) : State :=
  let uniq := if renamed then uniq else 0
  let fsSize := if renamed then fsSize else 0
  let node := s.nodes a
  let s := { s with size := s.size + (fsSize - node.fsSize) }
  let s := s.setNode a { node with
    count := node.count - 1, uniq := uniq, bodyStart := bodyStart, fsSize := fsSize
    exists_ := renamed || node.exists_, updating := false }
  { s with requests := s.requests.set r { c with updated := true, updating := false } }

/-- The node of a request that ends with the error `error`. -/
def freeNode (c : Req) (error : BitVec 10) (validSec : Int) (validMsec : BitVec 10) (node : Node) :
    Node :=
  let node := { node with count := node.count - 1, updating := node.updating && !c.updating }
  if error ≠ 0 then
    if validSec ≠ 0 then { node with error := error, validSec := validSec, validMsec := validMsec }
    else { node with error := error }
  else node

/-- `ngx_http_file_cache_free`: the error and its validity are the request's. -/
def ngxHttpFileCacheFree (s : State) (r : Nat) (c : Req) (a : Nat) (error : BitVec 10) (validSec : Int)
    (validMsec : BitVec 10) : State :=
  let node := freeNode c error validSec validMsec (s.nodes a)
  let s := s.setNode a node
  if error = 0 ∧ ¬node.exists_ ∧ node.count = 0 ∧ c.minUses = 1 then
    { s.remove a with
      requests := s.requests.set r { c with node := none, updated := true, updating := false } }
  else { s with requests := s.requests.set r { c with updated := true, updating := false } }

/-- `ngx_http_file_cache_delete`, up to the release of the mutex. -/
def deleteNode (s : State) (a : Nat) : State :=
  let node := s.nodes a
  if node.exists_ then
    { s.setNode a { node with count := node.count + 1, deleting := true } with
      size := s.size - node.fsSize
      deletes := a :: s.deletes }
  else if node.count = 0 then s.remove a
  else s

/-- The rest of it, behind the deletion of the file. -/
def deletedNode (s : State) (a : Nat) : State :=
  let node := s.nodes a
  let node := { node with count := node.count - 1, deleting := false }
  let s := { s.setNode a node with deletes := s.deletes.erase a }
  if node.count = 0 then s.remove a else s

/-- The loop of `ngx_http_file_cache_forced_expire`, from the last node of the queue on. -/
def forcedLoop (s : State) : Nat → List Nat → State
  | _, [] => s
  | tries, a :: rest =>
    if (s.nodes a).count = 0 then deleteNode s a
    else if tries - 1 = 0 then s
    else forcedLoop s (tries - 1) rest

def ngxHttpFileCacheForcedExpire (s : State) : State := forcedLoop s 20 s.queue.reverse

/-- One turn of the loop of `ngx_http_file_cache_expire`. -/
def ngxHttpFileCacheExpire (s : State) (now : Int) : State :=
  match s.queue.getLast? with
  | none => s
  | some a =>
    if (s.nodes a).expire - now > 0 then s
    else if (s.nodes a).count = 0 then deleteNode s a
    else if (s.nodes a).deleting then s
    else (s.setNode a { s.nodes a with expire := now + s.inactive }).toHead a

/-- `ngx_http_file_cache_add`, which the cache loader calls for a file that it finds. -/
def ngxHttpFileCacheAdd (s : State) (key : Key) (now fsSize : Int) (found fresh : Option Nat) : State :=
  match found, fresh with
  | some a, _ => (s.setNode a { s.nodes a with expire := now + s.inactive }).toHead a
  | none, some a =>
    let s := (s.setNode a { newNode key (s.nodes a) with
      count := 0, exists_ := true, fsSize := fsSize, expire := now + s.inactive }).toHead a
    { s with size := s.size + fsSize }
  | none, none => s

inductive Action
  | exists_ (key : Key) (minUses : Nat) (now : Int) (found fresh : Option Nat)
  | existsAgain (r : Nat) (now : Int) (fresh : Option Nat)
  | read (r bodyStart uniq : Nat) (fsSize : Int)
  | stale (r : Nat)
  | update (r : Nat) (renamed : Bool) (uniq bodyStart : Nat) (fsSize : Int)
  | free (r : Nat) (error : BitVec 10) (validSec : Int) (validMsec : BitVec 10)
  | expire (now : Int)
  | forcedExpire
  | deleted (a : Nat)
  | add (key : Key) (now fsSize : Int) (found fresh : Option Nat)
  | loaded

/-- The search in the tree gives a node with the key, and nothing only if there is none. -/
def Finds (s : State) (key : Key) : Option Nat → Prop
  | some a => a ∈ s.queue ∧ (s.nodes a).key = key
  | none => ∀ a ∈ s.queue, (s.nodes a).key ≠ key

instance (s : State) (key : Key) : (found : Option Nat) → Decidable (Finds s key found)
  | some a => inferInstanceAs (Decidable (a ∈ s.queue ∧ (s.nodes a).key = key))
  | none => inferInstanceAs (Decidable (∀ a ∈ s.queue, (s.nodes a).key ≠ key))

/-- The slab pool gives memory that no node is in. -/
def Unused (s : State) (fresh : Option Nat) : Prop := ∀ a ∈ fresh, a ∉ s.queue

instance (s : State) (fresh : Option Nat) : Decidable (Unused s fresh) :=
  inferInstanceAs (Decidable (∀ a ∈ fresh, a ∉ s.queue))

def held (c : Req) : Option Nat := if c.updated then none else c.node

/-- What a request does with the node that it holds. -/
def withHeld (s : State) (r : Nat) (act : Req → Nat → State) : Option State :=
  s.requests[r]?.bind fun c => (held c).map fun a => act c a

/-- `ngx_http_file_cache_update` and `ngx_http_file_cache_free` return at once for a request that is
`updated`, and the latter for one without a node. -/
def step (s : State) : Action → Option State
  | .exists_ key minUses now found fresh =>
    if Finds s key found ∧ Unused s fresh then
      some (ngxHttpFileCacheExists s key minUses now found fresh).2
    else none
  | .existsAgain r now fresh =>
    s.requests[r]?.bind fun c =>
      if c.waiting ∧ Unused s fresh then some (existsAgain s r c now fresh).2 else none
  | .read r bodyStart uniq fsSize =>
    withHeld s r fun _ a => readNode s a bodyStart uniq fsSize
  | .stale r => withHeld s r fun c a => staleNode s r c a
  | .update r renamed uniq bodyStart fsSize =>
    s.requests[r]?.bind fun c =>
      if c.updated then some s
      else c.node.map fun a => ngxHttpFileCacheUpdate s r c a renamed uniq bodyStart fsSize
  | .free r error validSec validMsec =>
    s.requests[r]?.map fun c =>
      match held c with
      | none => s
      | some a => ngxHttpFileCacheFree s r c a error validSec validMsec
  | .expire now => some (ngxHttpFileCacheExpire s now)
  | .forcedExpire => some (ngxHttpFileCacheForcedExpire s)
  | .deleted a => if a ∈ s.deletes then some (deletedNode s a) else none
  | .add key now fsSize found fresh =>
    if Finds s key found ∧ Unused s fresh then
      some (ngxHttpFileCacheAdd s key now fsSize found fresh)
    else none
  | .loaded => some { s with cold := false }

def State.holders (s : State) (a : Nat) : Nat := s.requests.countP fun c => held c == some a

end NgxFormal.Http.FileCache
