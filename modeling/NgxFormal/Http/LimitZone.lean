import NgxFormal.Http.LimitReqZone

/-! The nodes of a `limit_zone` zone. Each action is what one process does between taking and
releasing the mutex of the zone; `none` is a refused action or a loop that does not end within its
fuel. -/

namespace NgxFormal.Http.LimitZone

open Core.Rbtree
open LimitReq (ngxCrc32Short ngxMemn2cmp)

/-- `ngx_http_limit_zone_node_t`, with the key of the tree node that it is a part of. The colour,
which has its byte in both, is the tree's. -/
structure Entry where
  hash : Nat
  len : Nat
  conn : BitVec 16
  data : List UInt8
  deriving DecidableEq, Repr

/-- The tree in shared memory, and the nodes that the slab pool has given to it. The comparisons of
the module look at the whole node, so a tree node has its own address for a key. -/
structure Zone where
  tree : RbTree
  entries : Nat → Entry
  nodes : List Nat

def ngxHttpLimitZoneInitZone (heap : Heap) (sentinel : Nat) (entries : Nat → Entry) : Zone :=
  { tree := ngxRbtreeInit heap sentinel, entries := entries, nodes := [] }

/-- `ngx_http_limit_zone_conf_t` of a location with a zone. -/
structure Conf where
  conn : Nat
  positive : 0 < conn
  small : conn ≤ 65535
  deriving DecidableEq, Repr

/-- `ngx_http_limit_conn` for a location without a zone: `n` is the number that `ngx_atoi` reads in
the text `value`. -/
def ngxHttpLimitConn (value : String) (n : Int) : Except String Conf :=
  if positive : n ≤ 0 then .error ("invalid number of connections \"" ++ value ++ "\"")
  else if small : n > 65535 then .error "connection limit must be less 65536"
  else .ok ⟨n.toNat, by omega, by omega⟩

/-- A main request: `admitted` is the data of its pool cleanup, if that has a handler, with the value
of the variable at that moment. -/
structure Request where
  limitZoneSet : Bool
  admitted : Option (List UInt8 × Nat)
  deriving DecidableEq, Repr

inductive Rc where
  | declined
  | unavailable
  | internalServerError
  deriving DecidableEq, Repr

/-- `ngx_http_limit_zone_rbtree_insert_value`: `node->key < temp->key`, then
`ngx_memn2cmp(...) < 0` -/
def entryLess (entries : Nat → Entry) (node temp : Nat) : Bool :=
  let lzn := entries node
  let lznt := entries temp
  if lzn.hash < lznt.hash then true
  else if lzn.hash > lznt.hash then false
  else decide (ngxMemn2cmp lzn.data lznt.data lzn.len lznt.len < 0)

def entryTurn (entries : Nat → Entry) (hash : Nat) (data : List UInt8) (node : Nat) : Ordering :=
  let lz := entries node
  if hash < lz.hash then .lt
  else if hash > lz.hash then .gt
  else
    let rc := ngxMemn2cmp data lz.data data.length lz.len
    if rc = 0 then .eq else if rc < 0 then .lt else .gt

def setEntry (entries : Nat → Entry) (node : Nat) (lz : Entry) : Nat → Entry :=
  fun i => if i = node then lz else entries i

def Zone.setConn (zone : Zone) (node : Nat) (conn : BitVec 16) : Zone :=
  { zone with entries := setEntry zone.entries node { zone.entries node with conn := conn } }

/-- The node for a new key. The cast to `u_char` is the source's. -/
def newEntry (data : List UInt8) : Entry :=
  { hash := ngxCrc32Short data, len := data.length % 256, conn := 1, data := data }

def addNode (fuel : Nat) (zone : Zone) (node : Nat) (data : List UInt8) : Option Zone :=
  let entries := setEntry zone.entries node (newEntry data)
  let tree := { zone.tree with heap := zone.tree.heap.setKey node node }
  (ngxRbtreeInsert (entryLess entries) fuel tree node).map fun tree =>
    { tree := tree, entries := entries, nodes := node :: zone.nodes }

/-- The part of the handler under the mutex, with the node of the request if it is admitted; `fresh`
is the result of `ngx_slab_alloc_locked`. -/
def underMutex (fuel : Nat) (conf : Conf) (data : List UInt8) (fresh : Option Nat) (zone : Zone) :
    Option (Zone × Option Nat) :=
  (findNode (entryTurn zone.entries (ngxCrc32Short data) data) zone.tree.heap zone.tree.sentinel fuel
      zone.tree.root).bind fun
    | some node =>
      let lz := zone.entries node
      if lz.conn.toNat < conf.conn then some (zone.setConn node (lz.conn + 1), some node)
      else some (zone, none)
    | none =>
      match fresh with
      | some node => (addNode fuel zone node data).map fun zone => (zone, some node)
      | none => some (zone, none)

/-- `ngx_http_limit_zone_handler`: `cleanup` is whether `ngx_pool_cleanup_add` gets memory. -/
def ngxHttpLimitZoneHandler (fuel : Nat) (conf : Option Conf) (vv : Option (List UInt8))
    (cleanup : Bool) (fresh : Option Nat) (zone : Zone) (r : Request) :
    Option (Zone × Request × Rc) :=
  if r.limitZoneSet then some (zone, r, .declined)
  else
    match conf, vv with
    | some conf, some data =>
      if data.length = 0 ∨ data.length > 255 then some (zone, r, .declined)
      else
        let r := { r with limitZoneSet := true }
        if cleanup then
          (underMutex fuel conf data fresh zone).map fun
            | (zone, some node) => (zone, { r with admitted := some (data, node) }, .declined)
            | (zone, none) => (zone, r, .unavailable)
        else some (zone, r, .internalServerError)
    | _, _ => some (zone, r, .declined)

def ngxHttpLimitZoneCleanup (fuel : Nat) (zone : Zone) (node : Nat) : Option Zone :=
  let zone := zone.setConn node ((zone.entries node).conn - 1)
  if (zone.entries node).conn = 0 then
    (ngxRbtreeDelete fuel zone.tree node).map fun tree =>
      { zone with tree := tree, nodes := zone.nodes.erase node }
  else some zone

/-- The shared memory, and the main requests of all workers. -/
structure State where
  zone : Zone
  requests : List Request

def State.init (heap : Heap) (sentinel : Nat) (entries : Nat → Entry) : State :=
  ⟨ngxHttpLimitZoneInitZone heap sentinel entries, []⟩

inductive Action where
  | arrive
  | handle (r : Nat) (conf : Option Conf) (vv : Option (List UInt8)) (cleanup : Bool)
      (fresh : Option Nat)
  | close (r : Nat)

/-- The request is there, and the slab pool gives memory that no node is in. -/
def Allowed (s : State) : Action → Prop
  | .arrive => True
  | .handle r _ _ _ fresh =>
    r < s.requests.length ∧ ∀ a ∈ fresh, a ∉ s.zone.nodes ∧ a ≠ s.zone.tree.sentinel
  | .close r => r < s.requests.length

instance (s : State) : (action : Action) → Decidable (Allowed s action)
  | .arrive => isTrue trivial
  | .handle r _ _ _ fresh =>
    inferInstanceAs (Decidable (r < s.requests.length ∧
      ∀ a ∈ fresh, a ∉ s.zone.nodes ∧ a ≠ s.zone.tree.sentinel))
  | .close r => inferInstanceAs (Decidable (r < s.requests.length))

def perform (fuel : Nat) (s : State) : Action → Option State
  | .arrive => some { s with requests := s.requests ++ [⟨false, none⟩] }
  | .handle r conf vv cleanup fresh =>
    s.requests[r]?.bind fun request =>
      (ngxHttpLimitZoneHandler fuel conf vv cleanup fresh s.zone request).map
        fun (zone, request, _) => ⟨zone, s.requests.set r request⟩
  | .close r =>
    s.requests[r]?.bind fun request =>
      match request.admitted with
      | some (_, node) =>
        (ngxHttpLimitZoneCleanup fuel s.zone node).map fun zone =>
          ⟨zone, s.requests.eraseIdx r⟩
      | none => some { s with requests := s.requests.eraseIdx r }

def step (fuel : Nat) (s : State) (action : Action) : Option State :=
  if Allowed s action then perform fuel s action else none

/-- How many live requests were admitted with the key. -/
def State.live (s : State) (key : List UInt8) : Nat :=
  s.requests.countP fun request => request.admitted.map Prod.fst == some key

end NgxFormal.Http.LimitZone

/-! The counts of the nodes of a `limit_zone` zone. -/

namespace NgxFormal.Http.LimitZone

open Core.Rbtree Lib.RedBlack Lib
open LimitReq (ngxCrc32Short ngxMemn2cmp order order_injective stored ZoneInv)

def Zone.key (zone : Zone) (i : Nat) : List UInt8 :=
  (zone.entries i).data.take (zone.entries i).len

def live (requests : List Request) (key : List UInt8) : Nat :=
  requests.countP fun request => request.admitted.map Prod.fst == some key

/-- What is compared of a zone, as a zone of `limit_req`. -/
def view (zone : Zone) : LimitReq.Zone where
  rate := 0
  tree := zone.tree
  entries := fun i => ⟨(zone.entries i).hash, (zone.entries i).len, (zone.entries i).data, 0, 0⟩
  queue := zone.nodes

/-- The tree is in order, each node counts the live requests with its key, and a request with a
cleanup has the node of its key. -/
structure Inv (zone : Zone) (requests : List Request) (whole : ColorTree Nat) : Prop where
  tree : ZoneInv (view zone) whole
  hashes : ∀ i ∈ zone.nodes, (zone.entries i).hash = ngxCrc32Short (zone.key i)
  one : ∀ i ∈ zone.nodes, ∀ j ∈ zone.nodes, zone.key i = zone.key j → i = j
  count : ∀ i ∈ zone.nodes, (zone.entries i).conn.toNat = live requests (zone.key i)
  positive : ∀ i ∈ zone.nodes, 0 < live requests (zone.key i)
  held : ∀ request ∈ requests, ∀ data node, request.admitted = some (data, node) →
    node ∈ zone.nodes ∧ zone.key node = data
  entered : ∀ request ∈ requests, request.limitZoneSet = false → request.admitted = none

section Live

variable {requests : List Request} {request : Request} {data key : List UInt8} {node : Nat}

theorem live_perm {others : List Request} (perm : requests.Perm others) (key : List UInt8) :
    live requests key = live others key := perm.countP_eq _

theorem live_idle (idle : request.admitted = none) : live (request :: requests) key = live requests key := by
  rw [live, List.countP_cons_of_neg]
  · rfl
  · rw [idle]
    exact Bool.false_ne_true

theorem live_same (admitted : request.admitted = some (data, node)) :
    live (request :: requests) data = live requests data + 1 := by
  rw [live, List.countP_cons_of_pos]
  · rfl
  · rw [admitted]
    exact beq_self_eq_true _

theorem live_other (admitted : request.admitted = some (data, node)) (other : key ≠ data) :
    live (request :: requests) key = live requests key := by
  rw [live, List.countP_cons_of_neg]
  · rfl
  · rw [admitted, Option.map_some, beq_iff_eq, Option.some.injEq]
    exact Ne.symm other

theorem live_pos : 0 < live requests key ↔
    ∃ request ∈ requests, ∃ node, request.admitted = some (key, node) := by
  rw [live, List.countP_pos_iff]
  constructor
  · rintro ⟨request, member, same⟩
    rw [beq_iff_eq, Option.map_eq_some_iff] at same
    obtain ⟨⟨data, node⟩, admitted, rfl⟩ := same
    exact ⟨request, member, node, admitted⟩
  · rintro ⟨request, member, node, admitted⟩
    refine ⟨request, member, ?_⟩
    rw [admitted]
    exact beq_self_eq_true _

end Live

section Zone

variable {zone : Zone} {requests : List Request} {request : Request} {whole : ColorTree Nat}
  {fuel node : Nat} {data : List UInt8}

theorem Inv.perm {others : List Request} (inv : Inv zone requests whole) (perm : requests.Perm others) :
    Inv zone others whole where
  tree := inv.tree
  hashes := inv.hashes
  one := inv.one
  count := fun i inside => (inv.count i inside).trans (live_perm perm _)
  positive := fun i inside => by
    rw [← live_perm perm]
    exact inv.positive i inside
  held := fun request member => inv.held request (perm.mem_iff.mpr member)
  entered := fun request member => inv.entered request (perm.mem_iff.mpr member)

theorem Inv.idle (inv : Inv zone requests whole) (idle : request.admitted = none) :
    Inv zone (request :: requests) whole where
  tree := inv.tree
  hashes := inv.hashes
  one := inv.one
  count := fun i inside => (inv.count i inside).trans (live_idle idle).symm
  positive := fun i inside => by
    rw [live_idle idle]
    exact inv.positive i inside
  held := by
    intro other member data node admitted
    rcases List.mem_cons.mp member with rfl | old
    · rw [idle] at admitted
      cases admitted
    · exact inv.held other old data node admitted
  entered := by
    intro other member fresh
    rcases List.mem_cons.mp member with rfl | old
    · exact idle
    · exact inv.entered other old fresh

theorem Inv.forget (inv : Inv zone (request :: requests) whole) (idle : request.admitted = none) :
    Inv zone requests whole where
  tree := inv.tree
  hashes := inv.hashes
  one := inv.one
  count := fun i inside => (inv.count i inside).trans (live_idle idle)
  positive := fun i inside => by
    have positive := inv.positive i inside
    rw [live_idle idle] at positive
    exact positive
  held := fun other member => inv.held other (List.mem_cons_of_mem _ member)
  entered := fun other member => inv.entered other (List.mem_cons_of_mem _ member)

theorem Inv.find (inv : Inv zone requests whole) (data : List UInt8) (enough : zone.nodes.length < fuel) :
    (∃ i ∈ zone.nodes, zone.key i = data ∧
        findNode (entryTurn zone.entries (ngxCrc32Short data) data) zone.tree.heap zone.tree.sentinel
          fuel zone.tree.root = some (some i)) ∨
      (∀ i ∈ zone.nodes, zone.key i ≠ data) ∧
        findNode (entryTurn zone.entries (ngxCrc32Short data) data) zone.tree.heap zone.tree.sentinel
          fuel zone.tree.root = some none := by
  rcases @ZoneInv.find (view zone) whole fuel (ngxCrc32Short data) data inv.tree enough with
    ⟨i, inside, same, found⟩ | ⟨absent, found⟩
  · obtain ⟨_, sameData⟩ := order_injective same
    exact Or.inl ⟨i, inside, sameData, found⟩
  · refine Or.inr ⟨?_, found⟩
    intro i inside sameData
    apply absent i inside
    have hash := inv.hashes i inside
    rw [sameData] at hash
    show order (zone.entries i).hash (zone.key i) = _
    rw [hash, sameData]

theorem setConn_key (conn : BitVec 16) (i : Nat) :
    (zone.setConn node conn).key i = zone.key i := by
  by_cases same : i = node
  · subst same
    simp [Zone.key, Zone.setConn, setEntry]
  · simp [Zone.key, Zone.setConn, setEntry, same]

theorem view_setConn (conn : BitVec 16) : view (zone.setConn node conn) = view zone := by
  have entries : ∀ i, (setEntry zone.entries node { zone.entries node with conn := conn } i).hash =
      (zone.entries i).hash ∧ (setEntry zone.entries node { zone.entries node with conn := conn } i).len =
      (zone.entries i).len ∧ (setEntry zone.entries node { zone.entries node with conn := conn } i).data =
      (zone.entries i).data := by
    intro i
    by_cases same : i = node
    · subst same
      simp [setEntry]
    · simp [setEntry, same]
  simp only [view, Zone.setConn, LimitReq.Zone.mk.injEq, true_and, and_true]
  funext i
  rw [(entries i).1, (entries i).2.1, (entries i).2.2]

theorem Inv.recount {others : List Request} {conn : BitVec 16} (inv : Inv zone requests whole)
    (inside : node ∈ zone.nodes) (isKey : zone.key node = data)
    (same : ∀ key, key ≠ data → live others key = live requests key)
    (count : conn.toNat = live others data) (positive : 0 < live others data)
    (held : ∀ request ∈ others, ∀ data node, request.admitted = some (data, node) →
      node ∈ zone.nodes ∧ zone.key node = data)
    (entered : ∀ request ∈ others, request.limitZoneSet = false → request.admitted = none) :
    Inv (zone.setConn node conn) others whole where
  tree := by
    rw [view_setConn]
    exact inv.tree
  hashes := by
    intro i member
    rw [setConn_key, ← inv.hashes i member]
    by_cases here : i = node
    · subst here
      simp [Zone.setConn, setEntry]
    · simp [Zone.setConn, setEntry, here]
  one := by
    intro i insideI j insideJ
    rw [setConn_key, setConn_key]
    exact inv.one i insideI j insideJ
  count := by
    intro i member
    rw [setConn_key]
    by_cases here : i = node
    · subst here
      rw [isKey]
      simpa [Zone.setConn, setEntry] using count
    · have other : zone.key i ≠ data := fun sameKey =>
        here (inv.one i member node inside (sameKey.trans isKey.symm))
      rw [same _ other]
      simpa [Zone.setConn, setEntry, here] using inv.count i member
  positive := by
    intro i member
    rw [setConn_key]
    by_cases sameKey : zone.key i = data
    · rw [sameKey]
      exact positive
    · rw [same _ sameKey]
      exact inv.positive i member
  held := by
    intro request member key i admitted
    rw [setConn_key]
    exact held request member key i admitted
  entered := entered

theorem Inv.take (inv : Inv zone requests whole) (inside : node ∈ zone.nodes)
    (isKey : zone.key node = data) (room : (zone.entries node).conn.toNat < 65535) :
    Inv (zone.setConn node ((zone.entries node).conn + 1)) (⟨true, some (data, node)⟩ :: requests) whole := by
  have count := inv.count node inside
  rw [isKey] at count
  have more : live (⟨true, some (data, node)⟩ :: requests) data = live requests data + 1 := live_same rfl
  refine inv.recount inside isKey (fun key other => live_other rfl other) ?_ (by omega) ?_ ?_
  · rw [more, ← count, BitVec.toNat_add]
    exact Nat.mod_eq_of_lt (by simpa using by omega)
  · intro request member key i admitted
    rcases List.mem_cons.mp member with rfl | old
    · obtain ⟨rfl, rfl⟩ : data = key ∧ node = i := by simpa using admitted
      exact ⟨inside, isKey⟩
    · exact inv.held request old key i admitted
  · intro request member fresh
    rcases List.mem_cons.mp member with rfl | old
    · cases fresh
    · exact inv.entered request old fresh

theorem addNode_view (fuel : Nat) (zone : Zone) (node : Nat) (data : List UInt8) :
    (addNode fuel zone node data).map view = LimitReq.addNode fuel 0 (view zone) node data := by
  have entries : (fun i => (⟨(setEntry zone.entries node (newEntry data) i).hash,
      (setEntry zone.entries node (newEntry data) i).len,
      (setEntry zone.entries node (newEntry data) i).data, 0, 0⟩ : LimitReq.Entry)) =
      LimitReq.setEntry (view zone).entries node (LimitReq.newEntry (ngxCrc32Short data) 0 data) := by
    funext i
    by_cases here : i = node
    · simp [setEntry, LimitReq.setEntry, here, newEntry, LimitReq.newEntry]
    · simp [setEntry, LimitReq.setEntry, here, view]
  have less : entryLess (setEntry zone.entries node (newEntry data)) =
      LimitReq.entryLess (LimitReq.setEntry (view zone).entries node
        (LimitReq.newEntry (ngxCrc32Short data) 0 data)) := by
    rw [← entries]
    rfl
  rw [addNode, LimitReq.addNode, less, Option.map_map]
  refine congrFun (congrArg _ ?_) _
  funext tree
  simp only [Function.comp, view, LimitReq.Zone.mk.injEq, true_and, and_true]
  exact entries

theorem Inv.create (inv : Inv zone requests whole) (short : data.length ≤ 255)
    (absent : ∀ i ∈ zone.nodes, zone.key i ≠ data) (fresh : node ∉ zone.nodes)
    (real : node ≠ zone.tree.sentinel) (enough : zone.nodes.length < fuel) :
    ∃ next whole', addNode fuel zone node data = some next ∧ next.nodes = node :: zone.nodes ∧
      Inv next (⟨true, some (data, node)⟩ :: requests) whole' := by
  obtain ⟨zone', whole', added, tree, _⟩ := inv.tree.addNode 0 data fresh real enough
  rw [← addNode_view, Option.map_eq_some_iff] at added
  obtain ⟨next, added, rfl⟩ := added
  refine ⟨next, whole', added, ?_⟩
  obtain ⟨result, _, rfl⟩ := Option.map_eq_some_iff.mp added
  refine ⟨rfl, ?_⟩
  set next : Zone := ⟨result, setEntry zone.entries node (newEntry data), node :: zone.nodes⟩ with next_eq
  have old {i : Nat} (inside : i ∈ zone.nodes) : next.entries i = zone.entries i :=
    if_neg fun same => fresh (by rw [← same]; exact inside)
  have oldKey {i : Nat} (inside : i ∈ zone.nodes) : next.key i = zone.key i := by
    rw [Zone.key, Zone.key, old inside]
  have mine : next.entries node = newEntry data := if_pos rfl
  have myKey : next.key node = data := by
    rw [Zone.key, mine, newEntry]
    dsimp only
    rw [Nat.mod_eq_of_lt (by omega), List.take_length]
  have none : live requests data = 0 := by
    refine Nat.eq_zero_of_not_pos fun positive => ?_
    obtain ⟨request, member, i, admitted⟩ := live_pos.mp positive
    obtain ⟨inside, isKey⟩ := inv.held request member data i admitted
    exact absent i inside isKey
  have more : live (⟨true, some (data, node)⟩ :: requests) data = 1 := by
    rw [live_same rfl, none]
  refine ⟨tree, ?_, ?_, ?_, ?_, ?_, ?_⟩
  · intro i member
    rcases List.mem_cons.mp member with rfl | inside
    · rw [myKey, mine]
      rfl
    · rw [oldKey inside, old inside]
      exact inv.hashes i inside
  · intro i memberI j memberJ same
    rcases List.mem_cons.mp memberI with rfl | insideI
    · rcases List.mem_cons.mp memberJ with rfl | insideJ
      · rfl
      · rw [myKey, oldKey insideJ] at same
        exact (absent j insideJ same.symm).elim
    · rcases List.mem_cons.mp memberJ with rfl | insideJ
      · rw [myKey, oldKey insideI] at same
        exact (absent i insideI same).elim
      · rw [oldKey insideI, oldKey insideJ] at same
        exact inv.one i insideI j insideJ same
  · intro i member
    rcases List.mem_cons.mp member with rfl | inside
    · rw [myKey, mine, more]
      rfl
    · rw [oldKey inside, old inside, live_other rfl (absent i inside)]
      exact inv.count i inside
  · intro i member
    rcases List.mem_cons.mp member with rfl | inside
    · rw [myKey, more]
      exact Nat.one_pos
    · rw [oldKey inside, live_other rfl (absent i inside)]
      exact inv.positive i inside
  · intro request member key i admitted
    rcases List.mem_cons.mp member with rfl | earlier
    · obtain ⟨rfl, rfl⟩ : data = key ∧ node = i := by simpa using admitted
      exact ⟨List.mem_cons_self, myKey⟩
    · obtain ⟨inside, isKey⟩ := inv.held request earlier key i admitted
      exact ⟨List.mem_cons_of_mem _ inside, (oldKey inside).trans isKey⟩
  · intro request member notSet
    rcases List.mem_cons.mp member with rfl | earlier
    · cases notSet
    · exact inv.entered request earlier notSet

theorem remove_tree (inv : ZoneInv (view zone) whole) (inside : node ∈ zone.nodes)
    (enough : 2 * zone.nodes.length ≤ fuel) :
    ∃ tree whole', ngxRbtreeDelete fuel zone.tree node = some tree ∧
      ZoneInv (view { zone with
        tree := tree
        nodes := zone.nodes.erase node }) whole' := by
  have perm : (zone.nodes.erase node ++ [node]).Perm zone.nodes :=
    (List.perm_append_singleton node _).trans (List.perm_cons_erase inside).symm
  have moved := inv.touch (view zone).entries (zone.nodes.erase node ++ [node])
    (fun _ => ⟨rfl, rfl, rfl⟩) perm
  have enough' : 2 * (zone.nodes.erase node ++ [node]).length ≤ fuel := by
    rw [perm.length_eq]
    exact enough
  obtain ⟨tree, whole', deleted, expired⟩ := moved.removeLast rfl enough'
  refine ⟨tree, whole', deleted, ?_⟩
  have rest := expired.inv
  rw [List.dropLast_concat] at rest
  exact rest

theorem Inv.cleanup (inv : Inv zone (request :: requests) whole)
    (admitted : request.admitted = some (data, node)) (enough : 2 * zone.nodes.length ≤ fuel) :
    ∃ next whole', ngxHttpLimitZoneCleanup fuel zone node = some next ∧ Inv next requests whole' ∧
      next.nodes.length ≤ zone.nodes.length := by
  obtain ⟨inside, isKey⟩ := inv.held request List.mem_cons_self data node admitted
  have count := inv.count node inside
  have here : live (request :: requests) data = live requests data + 1 := live_same admitted
  rw [isKey, here] at count
  have less : ((zone.entries node).conn - 1).toNat = live requests data := by
    have small := (zone.entries node).conn.isLt
    have one : (1 : BitVec 16).toNat = 1 := rfl
    rw [BitVec.toNat_sub]
    omega
  have conn : ((zone.setConn node ((zone.entries node).conn - 1)).entries node).conn =
      (zone.entries node).conn - 1 := by
    simp [Zone.setConn, setEntry]
  have heldRest : ∀ other ∈ requests, ∀ key i, other.admitted = some (key, i) →
      i ∈ zone.nodes ∧ zone.key i = key := fun other member =>
    inv.held other (List.mem_cons_of_mem _ member)
  have enteredRest : ∀ other ∈ requests, other.limitZoneSet = false → other.admitted = none :=
    fun other member => inv.entered other (List.mem_cons_of_mem _ member)
  have same : ∀ key, key ≠ data → live requests key = live (request :: requests) key :=
    fun key other => (live_other admitted other).symm
  rw [ngxHttpLimitZoneCleanup, conn]
  by_cases last : (zone.entries node).conn - 1 = 0
  · -- the last request with the key
    rw [if_pos last]
    have none : live requests data = 0 := by
      rw [← less, last]
      rfl
    have others : ∀ {other}, other ∈ requests → ∀ {key i}, other.admitted = some (key, i) → key ≠ data := by
      rintro other member key i isAdmitted rfl
      have positive := live_pos.mpr ⟨other, member, i, isAdmitted⟩
      omega
    set lower := zone.setConn node ((zone.entries node).conn - 1) with lower_eq
    have lowerTree : ZoneInv (view lower) whole := by
      rw [lower_eq, view_setConn]
      exact inv.tree
    obtain ⟨tree, whole', deleted, rest⟩ := remove_tree lowerTree inside enough
    rw [deleted, Option.map_some]
    have stays : ∀ i, i ∈ zone.nodes.erase node ↔ i ≠ node ∧ i ∈ zone.nodes := fun i =>
      List.Nodup.mem_erase_iff inv.tree.nodup
    have key (i : Nat) : Zone.key { lower with
        tree := tree
        nodes := lower.nodes.erase node } i = zone.key i := setConn_key _ i
    have entry {i : Nat} (other : i ≠ node) : lower.entries i = zone.entries i := if_neg other
    refine ⟨_, whole', rfl, ⟨rest, ?_, ?_, ?_, ?_, ?_, enteredRest⟩, ?_⟩
    · intro i member
      obtain ⟨other, old⟩ := (stays i).mp member
      show (lower.entries i).hash = _
      rw [entry other, inv.hashes i old]
      exact congrArg ngxCrc32Short (key i).symm
    · intro i memberI j memberJ sameKey
      exact inv.one i ((stays i).mp memberI).2 j ((stays j).mp memberJ).2
        (((key i).symm.trans sameKey).trans (key j))
    · intro i member
      obtain ⟨other, old⟩ := (stays i).mp member
      have otherKey : zone.key i ≠ data := fun sameKey =>
        other (inv.one i old node inside (sameKey.trans isKey.symm))
      show (lower.entries i).conn.toNat = live requests (Zone.key _ i)
      rw [entry other, key i, inv.count i old, same _ otherKey]
    · intro i member
      obtain ⟨other, old⟩ := (stays i).mp member
      have otherKey : zone.key i ≠ data := fun sameKey =>
        other (inv.one i old node inside (sameKey.trans isKey.symm))
      show 0 < live requests (Zone.key _ i)
      rw [key i, same _ otherKey]
      exact inv.positive i old
    · intro other member k i isAdmitted
      obtain ⟨old, isOld⟩ := heldRest other member k i isAdmitted
      refine ⟨(stays i).mpr ⟨?_, old⟩, (key i).trans isOld⟩
      rintro rfl
      exact others member isAdmitted (isOld.symm.trans isKey)
    · exact List.erase_sublist.length_le
  · rw [if_neg last]
    refine ⟨_, whole, rfl, inv.recount inside isKey same less ?_ heldRest enteredRest, Nat.le_refl _⟩
    refine Nat.pos_of_ne_zero fun none => last ?_
    rw [none] at less
    exact BitVec.eq_of_toNat_eq less

theorem Inv.underMutex {limit : Conf} {fresh : Option Nat} (inv : Inv zone requests whole)
    (short : data.length ≤ 255) (unused : ∀ a ∈ fresh, a ∉ zone.nodes ∧ a ≠ zone.tree.sentinel)
    (enough : zone.nodes.length < fuel) :
    underMutex fuel limit data fresh zone = some (zone, none) ∨
      ∃ next node whole', underMutex fuel limit data fresh zone = some (next, some node) ∧
        Inv next (⟨true, some (data, node)⟩ :: requests) whole' ∧
        next.nodes.length ≤ zone.nodes.length + 1 ∧
        (node ∈ zone.nodes → live requests data < limit.conn) := by
  unfold LimitZone.underMutex
  rcases inv.find data enough with ⟨node, inside, isKey, found⟩ | ⟨absent, found⟩
  · rw [found, Option.bind_some]
    dsimp only
    have count := inv.count node inside
    have small := limit.small
    rw [isKey] at count
    by_cases room : (zone.entries node).conn.toNat < limit.conn
    · rw [if_pos room]
      exact Or.inr ⟨_, node, whole, rfl, inv.take inside isKey (by omega), Nat.le_succ _,
        fun _ => by omega⟩
    · rw [if_neg room]
      exact Or.inl rfl
  · rw [found, Option.bind_some]
    cases fresh with
    | none => exact Or.inl rfl
    | some node =>
      obtain ⟨outside, real⟩ := unused node rfl
      obtain ⟨next, whole', added, nodes, created⟩ := inv.create short absent outside real enough
      dsimp only
      rw [added]
      refine Or.inr ⟨next, node, whole', rfl, created, ?_, fun inside => (outside inside).elim⟩
      rw [nodes]
      exact Nat.le_refl _

theorem Inv.handle {conf : Option Conf} {vv : Option (List UInt8)} {cleanup : Bool} {fresh : Option Nat}
    (inv : Inv zone (request :: requests) whole)
    (unused : ∀ a ∈ fresh, a ∉ zone.nodes ∧ a ≠ zone.tree.sentinel) (enough : zone.nodes.length < fuel) :
    ∃ next after rc whole', ngxHttpLimitZoneHandler fuel conf vv cleanup fresh zone request =
        some (next, after, rc) ∧
      Inv next (after :: requests) whole' ∧ next.nodes.length ≤ zone.nodes.length + 1 ∧
      (after.admitted ≠ request.admitted → request.admitted = none ∧ ∀ limit data i,
        conf = some limit → after.admitted = some (data, i) → i ∈ zone.nodes →
        live requests data < limit.conn) := by
  unfold ngxHttpLimitZoneHandler
  by_cases wasSet : request.limitZoneSet = true
  · rw [if_pos wasSet]
    exact ⟨zone, request, _, whole, rfl, inv, Nat.le_succ _, fun changed => (changed rfl).elim⟩
  rw [if_neg wasSet]
  have idle : request.admitted = none := inv.entered request List.mem_cons_self (by simpa using wasSet)
  cases conf with
  | none => exact ⟨zone, request, _, whole, rfl, inv, Nat.le_succ _, fun changed => (changed rfl).elim⟩
  | some limit =>
    cases vv with
    | none =>
      exact ⟨zone, request, _, whole, rfl, inv, Nat.le_succ _, fun changed => (changed rfl).elim⟩
    | some data =>
      dsimp only
      by_cases size : data.length = 0 ∨ data.length > 255
      · rw [if_pos size]
        exact ⟨zone, request, _, whole, rfl, inv, Nat.le_succ _, fun changed => (changed rfl).elim⟩
      rw [if_neg size]
      have alone := inv.forget idle
      have passed : Inv zone ({ request with limitZoneSet := true } :: requests) whole :=
        alone.idle idle
      cases cleanup with
      | false => exact ⟨zone, _, _, whole, rfl, passed, Nat.le_succ _, fun changed => (changed rfl).elim⟩
      | true =>
        rw [if_pos rfl]
        rcases @Inv.underMutex zone requests whole fuel data limit fresh alone (by omega) unused
          enough with away | ⟨next, node, whole', done, admitted, length, below⟩
        · rw [away]
          exact ⟨zone, _, _, whole, rfl, passed, Nat.le_succ _, fun changed => (changed rfl).elim⟩
        · rw [done]
          refine ⟨next, _, _, whole', rfl, admitted, length, fun _ => ⟨idle, ?_⟩⟩
          intro other key i isLimit isAdmitted inside
          obtain rfl := Option.some.inj isLimit
          obtain ⟨rfl, rfl⟩ : data = key ∧ node = i := by simpa using isAdmitted
          exact below inside

end Zone

section Runs

variable {s next : State} {whole : ColorTree Nat} {fuel : Nat} {action : Action} {request : Request}

theorem requests_split {requests : List Request} {r : Nat} (old : requests[r]? = some request)
    (after : Request) :
    requests.Perm (request :: requests.eraseIdx r) ∧
      (requests.set r after).Perm (after :: requests.eraseIdx r) := by
  obtain ⟨inside, same⟩ := List.getElem?_eq_some_iff.mp old
  have first := List.getElem_cons_eraseIdx_perm inside
  rw [same] at first
  exact ⟨first.symm, List.set_perm_cons_eraseIdx inside after⟩

theorem Inv.perform (inv : Inv s.zone s.requests whole) (allowed : Allowed s action)
    (enough : 2 * s.zone.nodes.length < fuel) :
    ∃ next whole', perform fuel s action = some next ∧ Inv next.zone next.requests whole' ∧
      next.zone.nodes.length ≤ s.zone.nodes.length + 1 := by
  cases action with
  | arrive =>
    refine ⟨_, whole, rfl, ?_, Nat.le_succ _⟩
    exact (@Inv.idle s.zone s.requests ⟨false, none⟩ whole inv rfl).perm
      (List.perm_append_singleton _ _).symm
  | handle r conf vv cleanup fresh =>
    obtain ⟨inside, unused⟩ := allowed
    have old := List.getElem?_eq_getElem inside
    set request := s.requests[r] with request_eq
    obtain ⟨split, _⟩ := requests_split old request
    obtain ⟨zone, after, rc, whole', done, inv', length, _⟩ :=
      @Inv.handle s.zone _ request whole fuel conf vv cleanup fresh (inv.perm split) unused (by omega)
    refine ⟨⟨zone, s.requests.set r after⟩, whole', ?_, ?_, length⟩
    · rw [LimitZone.perform, old, Option.bind_some, done]
      rfl
    · exact inv'.perm (requests_split old after).2.symm
  | close r =>
    have old := List.getElem?_eq_getElem allowed
    set request := s.requests[r] with request_eq
    obtain ⟨split, _⟩ := requests_split old request
    have first := inv.perm split
    rw [LimitZone.perform, old, Option.bind_some]
    cases admitted : request.admitted with
    | none => exact ⟨_, whole, rfl, first.forget admitted, Nat.le_succ _⟩
    | some pair =>
      obtain ⟨data, node⟩ := pair
      obtain ⟨zone, whole', done, inv', length⟩ := @Inv.cleanup _ _ _ _ fuel _ _ first admitted (by omega)
      dsimp only
      rw [done]
      exact ⟨_, whole', rfl, inv', length.trans (Nat.le_succ _)⟩

theorem Inv.run {actions : List Action} {final : State} (inv : Inv s.zone s.requests whole)
    (enough : 2 * (s.zone.nodes.length + actions.length) < fuel)
    (performed : run (step fuel) s actions = some final) :
    ∃ whole', Inv final.zone final.requests whole' ∧
      final.zone.nodes.length ≤ s.zone.nodes.length + actions.length := by
  induction actions generalizing s whole with
  | nil =>
    cases performed
    exact ⟨whole, inv, Nat.le_refl _⟩
  | cons action rest ih =>
    obtain ⟨next, stepped, remaining⟩ := run_cons_some performed
    rw [List.length_cons] at enough ⊢
    rw [step, Option.ite_none_right_eq_some] at stepped
    obtain ⟨allowed, stepped⟩ := stepped
    obtain ⟨other, whole', done, inv', length⟩ := @Inv.perform s whole fuel action inv allowed (by omega)
    obtain rfl : next = other := Option.some.inj (stepped.symm.trans done)
    obtain ⟨final', finalInv, total⟩ := ih inv' (by omega) remaining
    exact ⟨final', finalInv, by omega⟩

theorem Inv.init (heap : Heap) (sentinel : Nat) (entries : Nat → Entry) :
    Inv (State.init heap sentinel entries).zone (State.init heap sentinel entries).requests .nil where
  tree := LimitReq.initZone_inv 0 heap sentinel fun i =>
    ⟨(entries i).hash, (entries i).len, (entries i).data, 0, 0⟩
  hashes := fun _ absurd => by cases absurd
  one := fun _ absurd => by cases absurd
  count := fun _ absurd => by cases absurd
  positive := fun _ absurd => by cases absurd
  held := fun _ absurd => by cases absurd
  entered := fun _ absurd => by cases absurd

end Runs

/-- The tree in the heap has one node for each key that a live request was admitted with, and the
node counts these requests. -/
structure Counts (s : State) (whole : ColorTree Nat) : Prop where
  linked : Rep s.zone.tree.heap s.zone.tree.sentinel none whole
  root : s.zone.tree.root = ptr s.zone.tree.sentinel whole
  once : whole.toList.Nodup
  one : ∀ i ∈ whole.toList, ∀ j ∈ whole.toList, s.zone.key i = s.zone.key j → i = j
  count : ∀ i ∈ whole.toList, (s.zone.entries i).conn.toNat = s.live (s.zone.key i)
  node_iff : ∀ key, (∃ i ∈ whole.toList, s.zone.key i = key) ↔ 0 < s.live key

theorem Inv.counts {s : State} {whole : ColorTree Nat} (inv : Inv s.zone s.requests whole) :
    Counts s whole where
  linked := inv.tree.shaped.focus.here
  root := inv.tree.shaped.focus.root
  once := inv.tree.members.nodup_iff.mpr inv.tree.nodup
  one := by
    intro i memberI j memberJ
    exact inv.one i (inv.tree.members.mem_iff.mp memberI) j (inv.tree.members.mem_iff.mp memberJ)
  count := fun i member => inv.count i (inv.tree.members.mem_iff.mp member)
  node_iff := by
    intro key
    constructor
    · rintro ⟨i, member, rfl⟩
      exact inv.positive i (inv.tree.members.mem_iff.mp member)
    · intro positive
      obtain ⟨request, member, node, admitted⟩ := live_pos.mp positive
      obtain ⟨inside, isKey⟩ := inv.held request member key node admitted
      exact ⟨node, inv.tree.members.mem_iff.mpr inside, isKey⟩

/-- After every run each node counts the live requests with its key, there is a node exactly for the
keys of live requests, every further action is performed, and a request is admitted onto a node that
is there only below the limit of its location. -/
theorem limit_zone_counts (heap : Heap) (sentinel : Nat) (entries : Nat → Entry) (fuel : Nat)
    (actions : List Action) (s : State) (enough : 2 * actions.length < fuel)
    (performed : run (step fuel) (State.init heap sentinel entries) actions = some s) :
    ∃ whole, Counts s whole ∧ (∀ action, Allowed s action → ∃ next, step fuel s action = some next) ∧
      ∀ r conf vv cleanup fresh next before after data i,
        step fuel s (.handle r (some conf) vv cleanup fresh) = some next →
        s.requests[r]? = some before → next.requests[r]? = some after →
        after.admitted ≠ before.admitted → after.admitted = some (data, i) →
        i ∈ whole.toList → s.live data < conf.conn := by
  obtain ⟨whole, inv, length⟩ := (Inv.init heap sentinel entries).run (by
    show 2 * (0 + actions.length) < fuel
    omega) performed
  have short : 2 * s.zone.nodes.length < fuel := by
    have none : (State.init heap sentinel entries).zone.nodes.length = 0 := rfl
    omega
  refine ⟨whole, inv.counts, ?_, ?_⟩
  · intro action allowed
    obtain ⟨next, _, done, _⟩ := @Inv.perform s whole fuel action inv allowed short
    exact ⟨next, (if_pos allowed).trans done⟩
  · intro r conf vv cleanup fresh next before after data i stepped old new changed admitted member
    rw [step, Option.ite_none_right_eq_some] at stepped
    obtain ⟨⟨inside, unused⟩, done⟩ := stepped
    obtain ⟨split, _⟩ := requests_split old before
    obtain ⟨zone, result, rc, whole', handled, inv', _, below⟩ :=
      @Inv.handle s.zone _ before whole fuel (some conf) vv cleanup fresh (inv.perm split) unused
        (by omega)
    rw [perform, old, Option.bind_some, handled] at done
    obtain rfl := Option.some.inj done
    have same : result = after := by
      have here : (s.requests.set r result)[r]? = some after := new
      rw [List.getElem?_set_self inside] at here
      exact Option.some.inj here
    subst same
    obtain ⟨idle, limited⟩ := below changed
    have others : s.live data = live (s.requests.eraseIdx r) data :=
      (live_perm split data).trans (live_idle idle)
    rw [others]
    exact limited conf data i rfl admitted (inv.tree.members.mem_iff.mp member)

/-- Two requests for one key, of two locations, and the second one ends. -/
def twoLocations : List Action :=
  [.arrive, .arrive, .arrive, .handle 0 (some ⟨1, by decide, by decide⟩) (some [65]) true (some 5),
    .handle 1 (some ⟨2, by decide, by decide⟩) (some [65]) true none,
    .handle 2 (some ⟨2, by decide, by decide⟩) (some [65]) true none, .close 1]

theorem limit_zone_counts_two_locations :
    let start := State.init (fun _ => ⟨0, 0, 0, 0, .black⟩) 100 fun _ => ⟨0, 0, 0, []⟩
    ∃ s, run (step 20) start twoLocations = some s ∧ s.live [65] = 1 ∧ ∃ whole, Counts s whole := by
  intro start
  have ends : (run (step 20) start twoLocations).map (fun s => s.live [65]) = some 1 := by
    decide +kernel
  obtain ⟨s, performed, one⟩ := Option.map_eq_some_iff.mp ends
  obtain ⟨whole, counts, _⟩ := limit_zone_counts _ 100 _ 20 twoLocations s (by decide) performed
  exact ⟨s, performed, one, whole, counts⟩

end NgxFormal.Http.LimitZone
