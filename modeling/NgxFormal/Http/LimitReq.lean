import NgxFormal.Basic
import NgxFormal.Core.RbtreeRuns

/-! `ngx_http_limit_req_handler` and what it calls, on the tree and the queue of a zone. Machine
words have 64 bits; `none` is a loop that does not end within its fuel. -/

namespace NgxFormal.Http.LimitReq

open Core.Rbtree

def ngxCrc32Table16 : List (BitVec 32) :=
  [0x00000000#32, 0x1db71064#32, 0x3b6e20c8#32, 0x26d930ac#32, 0x76dc4190#32, 0x6b6b51f4#32,
    0x4db26158#32, 0x5005713c#32, 0xedb88320#32, 0xf00f9344#32, 0xd6d6a3e8#32, 0xcb61b38c#32,
    0x9b64c2b0#32, 0x86d3d2d4#32, 0xa00ae278#32, 0xbdbdf21c#32]

def crcNibble (crc : BitVec 32) (nibble : Nat) : BitVec 32 :=
  ngxCrc32Table16.getD ((crc ^^^ BitVec.ofNat 32 nibble) &&& 0xf#32).toNat 0 ^^^ (crc >>> 4)

def ngxCrc32Short (p : List UInt8) : Nat :=
  let crc := p.foldl (fun crc c => crcNibble (crcNibble crc (c.toNat % 16)) (c.toNat / 16))
    0xffffffff#32
  (crc ^^^ 0xffffffff#32).toNat

/-- `ngx_memcmp` on the first `n` bytes. -/
def ngxMemcmp : List UInt8 → List UInt8 → Nat → Int
  | _, _, 0 => 0
  | a :: s1, b :: s2, n + 1 => if a = b then ngxMemcmp s1 s2 n else (a.toNat : Int) - b.toNat
  | _, _, _ + 1 => 0

def ngxMemn2cmp (s1 s2 : List UInt8) (n1 n2 : Nat) : Int :=
  let (n, z) : Nat × Int := if n1 ≤ n2 then (n1, -1) else (n2, 1)
  let m := ngxMemcmp s1 s2 n
  if m ≠ 0 ∨ n1 = n2 then m else z

/-- `ngx_http_limit_req_node_t`, with the key of the tree node that it is a part of. -/
structure Entry where
  hash : Nat
  len : Nat
  data : List UInt8
  last : Nat
  excess : Nat
  deriving DecidableEq, Repr

/-- `ngx_http_limit_req_ctx_t`. The comparisons of the module look at the whole node, so a tree node
has its own address for a key. The queue is the list of the nodes, its head first. -/
structure Zone where
  rate : Nat
  tree : RbTree
  entries : Nat → Entry
  queue : List Nat

def ngxHttpLimitReqInitZone (rate : Nat) (heap : Heap) (sentinel : Nat) (entries : Nat → Entry) :
    Zone :=
  { rate := rate, tree := ngxRbtreeInit heap sentinel, entries := entries, queue := [] }

/-- A word as `ngx_int_t`. -/
def signed (x : Int) : Int := x.bmod (2 ^ 64)

/-- `ngx_abs((ngx_msec_int_t) (now - last))` -/
def elapsed (now last : Nat) : Nat := (signed ((now : Int) - last)).natAbs

/-- `ctx->rate * ms / 1000` -/
def drained (rate ms : Nat) : Nat := rate * ms % 2 ^ 64 / 1000

/-- What `ngx_http_limit_req_lookup` returns. -/
inductive Rc where
  | ok
  | again
  | busy
  | declined
  deriving DecidableEq, Repr

/-- `node->key < temp->key`, then `ngx_memn2cmp(...) < 0` -/
def entryLess (entries : Nat → Entry) (node temp : Nat) : Bool :=
  let lrn := entries node
  let lrnt := entries temp
  if lrn.hash < lrnt.hash then true
  else if lrn.hash > lrnt.hash then false
  else decide (ngxMemn2cmp lrn.data lrnt.data lrn.len lrnt.len < 0)

/-- The turn of the search for a key at a node. -/
def entryTurn (entries : Nat → Entry) (hash : Nat) (data : List UInt8) (node : Nat) : Ordering :=
  let lr := entries node
  if hash < lr.hash then .lt
  else if hash > lr.hash then .gt
  else
    let rc := ngxMemn2cmp data lr.data data.length lr.len
    if rc = 0 then .eq else if rc < 0 then .lt else .gt

/-- The excess of a node with one more request. -/
def newExcess (rate now : Nat) (lr : Entry) : Nat :=
  let excess := signed ((lr.excess : Int) - drained rate (elapsed now lr.last) + 1000)
  if excess < 0 then 0 else excess.toNat

/-- A request is put to the account of its node. -/
def account (rate burst now : Nat) (lr : Entry) : Rc × Nat × Entry :=
  let excess := newExcess rate now lr
  if excess > burst then (.busy, excess, lr)
  else (if excess ≠ 0 then .again else .ok, excess, { lr with excess := excess, last := now })

def setEntry (entries : Nat → Entry) (node : Nat) (lr : Entry) : Nat → Entry :=
  fun i => if i = node then lr else entries i

/-- The node that is found, if any, with what is returned and put in `*ep`. -/
def ngxHttpLimitReqLookup (fuel burst now : Nat) (zone : Zone) (hash : Nat) (data : List UInt8) :
    Option (Zone × Option Nat × Rc × Nat) :=
  (findNode (entryTurn zone.entries hash data) zone.tree.heap zone.tree.sentinel fuel
      zone.tree.root).map fun
    | some node =>
      let (rc, excess, lr) := account zone.rate burst now (zone.entries node)
      ({ zone with
          queue := node :: zone.queue.erase node
          entries := setEntry zone.entries node lr }, some node, rc, excess)
    | none => (zone, none, .declined, 0)

/-- `while (n < 3)` -/
def expireLoop (fuel now : Nat) : Nat → Nat → Zone → Option Zone
  | 0, _, zone => some zone
  | turns + 1, n, zone =>
    match zone.queue.getLast? with
    | none => some zone
    | some node =>
      let lr := zone.entries node
      let ms := elapsed now lr.last
      if n ≠ 0 ∧ (ms < 60000 ∨ signed ((lr.excess : Int) - drained zone.rate ms) > 0) then
        some zone
      else
        (ngxRbtreeDelete fuel zone.tree node).bind fun tree =>
          expireLoop fuel now turns (n + 1)
            { zone with tree := tree, queue := zone.queue.dropLast }

def ngxHttpLimitReqExpire (fuel now : Nat) (zone : Zone) (n : Nat) : Option Zone :=
  expireLoop fuel now (3 - n) n zone

/-- The node for a new key. The cast to `u_char` is the source's. -/
def newEntry (hash now : Nat) (data : List UInt8) : Entry :=
  { hash := hash, len := data.length % 256, data := data, last := now, excess := 0 }

def addNode (fuel now : Nat) (zone : Zone) (node : Nat) (data : List UInt8) : Option Zone :=
  let entries := setEntry zone.entries node (newEntry (ngxCrc32Short data) now data)
  let tree := { zone.tree with heap := zone.tree.heap.setKey node node }
  (ngxRbtreeInsert (entryLess entries) fuel tree node).map fun tree =>
    { zone with tree := tree, entries := entries, queue := node :: zone.queue }

/-- What became of a request under the mutex. -/
inductive Outcome where
  | found (node : Nat) (rc : Rc) (excess : Nat)
  | created (node : Nat)
  | noMemory
  deriving DecidableEq, Repr

/-- The part of `ngx_http_limit_req_handler` under the mutex; `alloc` is `ngx_slab_alloc_locked`. -/
def underMutex (alloc : Zone → Option Nat) (fuel burst now : Nat) (zone : Zone)
    (data : List UInt8) : Option (Zone × Outcome) :=
  (ngxHttpLimitReqExpire fuel now zone 1).bind fun zone =>
    (ngxHttpLimitReqLookup fuel burst now zone (ngxCrc32Short data) data).bind fun
      | (zone, some node, rc, excess) => some (zone, .found node rc excess)
      | (zone, none, _, _) =>
        match alloc zone with
        | some node => (addNode fuel now zone node data).map fun zone => (zone, .created node)
        | none =>
          (ngxHttpLimitReqExpire fuel now zone 0).bind fun zone =>
            match alloc zone with
            | some node =>
              (addNode fuel now zone node data).map fun zone => (zone, .created node)
            | none => some (zone, .noMemory)

/-- What `ngx_http_limit_req_handler` decides; a delay is in milliseconds. -/
inductive Decision where
  | pass
  | delay (ms : Nat)
  | unavailable
  deriving DecidableEq, Repr

def Outcome.decision (rate : Nat) (nodelay : Bool) : Outcome → Decision
  | .created _ => .pass
  | .noMemory => .unavailable
  | .found _ .busy _ => .unavailable
  | .found _ .again excess => if nodelay then .pass else .delay (excess * 1000 % 2 ^ 64 / rate)
  | .found _ _ _ => .pass

/-- `ngx_http_limit_req_handler` for the value of the variable. -/
def ngxHttpLimitReqHandler (alloc : Zone → Option Nat) (fuel burst : Nat) (nodelay : Bool)
    (now : Nat) (zone : Zone) (data : List UInt8) : Option (Zone × Decision) :=
  if data.length = 0 ∨ data.length > 65535 then some (zone, .pass)
  else
    (underMutex alloc fuel burst now zone data).map fun (zone, outcome) =>
      (zone, outcome.decision zone.rate nodelay)

end NgxFormal.Http.LimitReq
