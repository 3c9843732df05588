import NgxFormal.Basic

/-! Static locations: `ngx_http_init_locations`, `ngx_http_init_static_location_trees` and
`ngx_http_core_find_static_location` for one `locations` queue, on a file system that is sensitive
to case. Allocations succeed. A queue is the list of its elements. -/

namespace NgxFormal.Http.Locations

/-- What kind of match `location` declares. -/
inductive Kind where
  | exact
  | inclusive
  | regex
  | named
  | noname
  deriving DecidableEq, Repr

/-- The part of `ngx_http_core_loc_conf_t` that the search reads. -/
structure Location where
  name : List UInt8
  kind : Kind
  autoRedirect : Bool
  deriving DecidableEq, Repr

/-- `ngx_http_location_queue_t` -/
inductive Lq where
  | mk (exact inclusive : Option Location) (name : List UInt8) (list : List Lq)

namespace Lq

def exact : Lq → Option Location
  | mk exact _ _ _ => exact

def inclusive : Lq → Option Location
  | mk _ inclusive _ _ => inclusive

def name : Lq → List UInt8
  | mk _ _ name _ => name

def list : Lq → List Lq
  | mk _ _ _ list => list

section Fields

variable (e i : Option Location) (n : List UInt8) (l : List Lq)

@[simp] theorem mk_exact : (mk e i n l).exact = e := rfl

@[simp] theorem mk_inclusive : (mk e i n l).inclusive = i := rfl

@[simp] theorem mk_name : (mk e i n l).name = n := rfl

@[simp] theorem mk_list : (mk e i n l).list = l := rfl

end Fields

/-- `lq->exact ? lq->exact : lq->inclusive` -/
def clcf (lq : Lq) : Option Location := lq.exact <|> lq.inclusive

def kind (lq : Lq) : Option Kind := lq.clcf.map Location.kind

end Lq

/-- `strcmp()`; the end of a list is the end of the string. -/
def ngxStrcmp : List UInt8 → List UInt8 → Ordering
  | [], [] => .eq
  | [], b :: _ => if 0 < b then .lt else .eq
  | a :: _, [] => if 0 < a then .gt else .eq
  | a :: s, b :: t =>
    if a < b then .lt else if b < a then .gt else if a = 0 then .eq else ngxStrcmp s t

/-- `memcmp()` -/
def ngxMemcmp : List UInt8 → List UInt8 → Nat → Ordering
  | a :: s, b :: t, n + 1 => if a < b then .lt else if b < a then .gt else ngxMemcmp s t n
  | _, _, _ => .eq

section Queue

variable {α : Type}

/-- The walk back from the last of the sorted elements, which are in reverse order. -/
def insertBack (cmp : α → α → Ordering) (q : α) : List α → List α
  | [] => [q]
  | prev :: before =>
    if cmp prev q ≠ .gt then q :: prev :: before else prev :: insertBack cmp q before

def sortLoop (cmp : α → α → Ordering) : List α → List α → List α
  | sorted, [] => sorted.reverse
  | sorted, q :: next => sortLoop cmp (insertBack cmp q sorted) next

def ngxQueueSort (cmp : α → α → Ordering) (queue : List α) : List α := sortLoop cmp [] queue

/-- The loop of `ngx_queue_middle`, with positions for the elements. -/
def middleLoop (last : Nat) : Nat → Nat → Nat → Nat
  | 0, middle, _ => middle
  | turns + 1, middle, next =>
    let middle := middle + 1
    let next := next + 1
    if next = last then middle
    else
      let next := next + 1
      if next = last then middle else middleLoop last turns middle next

def ngxQueueMiddle (queue : List α) : Nat :=
  if queue.length ≤ 1 then 0 else middleLoop (queue.length - 1) queue.length 0 0

end Queue

def ngxHttpCmpLocations (one two : Lq) : Ordering :=
  let first := one.kind
  let second := two.kind
  if first = some .noname ∧ second ≠ some .noname then .gt
  else if first ≠ some .noname ∧ second = some .noname then .lt
  else if first = some .noname ∨ second = some .noname then .eq
  else if first = some .named ∧ second ≠ some .named then .gt
  else if first ≠ some .named ∧ second = some .named then .lt
  else if first = some .named ∧ second = some .named then ngxStrcmp one.name two.name
  else if first = some .regex ∧ second ≠ some .regex then .gt
  else if first ≠ some .regex ∧ second = some .regex then .lt
  else if first = some .regex ∨ second = some .regex then .eq
  else
    let rc := ngxStrcmp one.name two.name
    if rc = .eq ∧ first ≠ some .exact ∧ second = some .exact then .gt else rc

def ngxHttpAddLocation (locations : List Lq) (clcf : Location) : List Lq :=
  locations ++ [if clcf.kind = .inclusive then .mk none (some clcf) clcf.name []
    else .mk (some clcf) none clcf.name []]

/-- The queues that `ngx_http_init_locations` makes. -/
structure Sorted where
  locations : List Lq
  named : List Lq
  regex : List Lq

/-- The tail from the first element of the kind on is split off. -/
def splitAtKind (kind : Kind) (locations : List Lq) : List Lq × List Lq :=
  locations.span fun lq => lq.kind ≠ some kind

def ngxHttpInitLocations (locations : List Lq) : Sorted :=
  let locations := ngxQueueSort ngxHttpCmpLocations locations
  let (locations, _) := splitAtKind .noname locations
  let (locations, named) := splitAtKind .named locations
  let (locations, regex) := splitAtKind .regex locations
  ⟨locations, named, regex⟩

/-- The loop of `ngx_http_join_exact_locations` at the element `lq`. -/
def joinLoop (lq : Lq) : List Lq → Option (List Lq)
  | [] => some [lq]
  | lx :: next =>
    if ngxStrcmp lq.name lx.name = .eq then
      if (lq.exact.isSome ∧ lx.exact.isSome) ∨ (lq.inclusive.isSome ∧ lx.inclusive.isSome) then none
      else joinLoop (.mk lq.exact lx.inclusive lq.name lq.list) next
    else (joinLoop lx next).map fun rest => lq :: rest

def ngxHttpJoinExactLocations : List Lq → Option (List Lq)
  | [] => some []
  | lq :: next => joinLoop lq next

/-- The test of the loop in `ngx_http_create_locations_list`. -/
def isPrefixOf (name : List UInt8) (lx : Lq) : Bool :=
  name.length ≤ lx.name.length && ngxMemcmp name lx.name name.length = .eq

/-- From the element `q` on; the fuel bounds the number of elements. -/
def ngxHttpCreateLocationsList : Nat → List Lq → Option (List Lq)
  | _, [] => some []
  | 0, _ :: _ => none
  | _ + 1, [lq] => some [lq]
  | fuel + 1, lq :: next =>
    if lq.inclusive = none then (ngxHttpCreateLocationsList fuel next).map fun rest => lq :: rest
    else
      let (tail, x) := next.span (isPrefixOf lq.name)
      if tail = [] then (ngxHttpCreateLocationsList fuel x).map fun rest => lq :: rest
      else
        (ngxHttpCreateLocationsList fuel (lq.list ++ tail)).bind fun list =>
          (ngxHttpCreateLocationsList fuel x).map fun rest =>
            .mk lq.exact lq.inclusive lq.name list :: rest

/-- `ngx_http_location_tree_node_t`; the name is the part behind the prefix. -/
inductive Node where
  | null
  | node (left right tree : Node) (exact inclusive : Option Location) (autoRedirect : Bool)
      (len : Nat) (name : List UInt8)

/-- The length is kept in one byte. The fuel bounds the number of elements. -/
def ngxHttpCreateLocationsTree : Nat → List Lq → Nat → Option Node
  | 0, _, _ => none
  | fuel + 1, locations, before =>
    let q := ngxQueueMiddle locations
    match locations.drop q with
    | [] => none
    | lq :: tail =>
      let len := lq.name.length - before
      let autoRedirect :=
        lq.exact.any Location.autoRedirect || lq.inclusive.any Location.autoRedirect
      (if locations.take q = [] then some .null
        else ngxHttpCreateLocationsTree fuel (locations.take q) before).bind fun left =>
      (if locations.take q = [] ∨ tail = [] then some .null
        else ngxHttpCreateLocationsTree fuel tail before).bind fun right =>
      (if lq.list = [] then some .null
        else ngxHttpCreateLocationsTree fuel lq.list (before + len)).bind fun tree =>
      some (.node left right tree lq.exact lq.inclusive autoRedirect (len % 256)
        (lq.name.drop before))

/-- `none` is `NGX_ERROR`. -/
def ngxHttpInitStaticLocationTrees (fuel : Nat) (locations : List Lq) : Option Node :=
  if locations = [] then some .null
  else do
    let locations ← ngxHttpJoinExactLocations locations
    let locations ← ngxHttpCreateLocationsList fuel locations
    ngxHttpCreateLocationsTree fuel locations 0

inductive Rc where
  | ok
  | done
  | again
  | declined
  deriving DecidableEq, Repr

/-- The result code and the location that `r->loc_conf` was set to. -/
abbrev Found := Rc × Option Location

/-- The loop of `ngx_http_core_find_static_location`. -/
def findLoop : Node → List UInt8 → Found → Found
  | .null, _, rv => rv
  | .node left right tree exact inclusive autoRedirect len name, uri, rv =>
    let n := if uri.length ≤ len then uri.length else len
    match ngxMemcmp uri name n with
    | .lt => findLoop left uri rv
    | .gt => findLoop right uri rv
    | .eq =>
      if len < uri.length then
        if inclusive.isSome then findLoop tree (uri.drop n) (.again, inclusive)
        else findLoop right uri rv
      else if uri.length = len then
        if exact.isSome then (.ok, exact) else (.again, inclusive)
      else if uri.length + 1 = len ∧ autoRedirect then
        findLoop left uri (.done, if exact.isSome then exact else inclusive)
      else findLoop left uri rv

def ngxHttpCoreFindStaticLocation (uri : List UInt8) (node : Node) : Found :=
  findLoop node uri (.declined, none)

/-- A configuration of one level and the lookup of a URI in it. -/
def lookup (fuel : Nat) (locations : List Location) (uri : List UInt8) : Option Found :=
  (ngxHttpInitStaticLocationTrees fuel
    (ngxHttpInitLocations (locations.foldl ngxHttpAddLocation [])).locations).map
      (ngxHttpCoreFindStaticLocation uri)

end NgxFormal.Http.Locations
