import NgxFormal.Http.LimitReqRate

/-! Whether the node of a key is found again. -/

namespace NgxFormal.Http.LimitReq

open Core.Rbtree Lib.RedBlack

def lastZone (zone : Zone) (events : List Event) : Zone := (events.getLast?.map Event.zone).getD zone

@[simp] theorem lastZone_nil (zone : Zone) : lastZone zone [] = zone := rfl

@[simp] theorem lastZone_cons (zone : Zone) (event : Event) (events : List Event) :
    lastZone zone (event :: events) = lastZone event.zone events := by
  cases events with
  | nil => rfl
  | cons next rest => simp [lastZone, List.getLast?_cons]

/-- Another key with the same hash, of which exactly the bytes of `key` are stored. -/
def Alias (key other : List UInt8) : Prop :=
  other ≠ key ∧ ngxCrc32Short other = ngxCrc32Short key ∧ other.take (other.length % 256) = key

/-- The node is the only one with the key. -/
structure Sole (zone : Zone) (node : Nat) (key : List UInt8) : Prop where
  member : node ∈ zone.queue
  mine : ord zone.entries node = order (ngxCrc32Short key) (key.take (key.length % 256))
  others : ∀ i ∈ zone.queue, i ≠ node → ord zone.entries i ≠ order (ngxCrc32Short key) key

section Keys

variable {alloc : Zone → Option Nat} {zone zone' : Zone} {whole : ColorTree Nat}
  {fuel burst now node : Nat} {key data : List UInt8} {outcome : Outcome}

theorem ord_setEntry_account (i j : Nat) :
    ord (setEntry zone.entries i (account zone.rate burst now (zone.entries i)).2.2) j =
      ord zone.entries j := by
  by_cases same : j = i
  · subst same
    obtain ⟨hash, len, data⟩ := account_key zone.rate burst now (zone.entries j)
    simp only [ord, stored, setEntry, if_true, hash, len, data]
  · simp only [ord, setEntry, if_neg same]

theorem ord_newEntry (entries : Nat → Entry) (i : Nat) :
    ord (setEntry entries i (newEntry (ngxCrc32Short data) now data)) i =
      order (ngxCrc32Short data) (data.take (data.length % 256)) := by
  simp [ord, stored, setEntry, newEntry]

theorem Sole.serve (sole : Sole zone node key) (short : key.length ≤ 255)
    (served : Served alloc burst now data zone zone' outcome) (stays : node ∈ zone'.queue)
    (other : outcome ≠ .created node) (noAlias : ¬Alias key data) : Sole zone' node key := by
  have whole : key.take (key.length % 256) = key := by
    rw [Nat.mod_eq_of_lt (by omega), List.take_length]
  cases served with
  | @found i kept removed queue idle member _ queue' entries' =>
    refine ⟨stays, ?_, ?_⟩
    · rw [entries', ord_setEntry_account]
      exact sole.mine
    · intro j inQueue differ
      rw [entries', ord_setEntry_account]
      apply sole.others j ?_ differ
      rw [queue] at *
      rw [queue'] at inQueue
      rcases List.mem_cons.mp inQueue with rfl | inKept
      · exact List.mem_append_left _ member
      · exact List.mem_append_left _ (List.mem_of_mem_erase inKept)
  | @created i kept forced removed queue idle absent full fresh queue' entries' =>
    have differ : i ≠ node := fun same => other (by rw [same])
    have inKept : node ∈ kept := by
      rw [queue'] at stays
      exact (List.mem_cons.mp stays).resolve_left (Ne.symm differ)
    have old {j : Nat} (apart : j ≠ i) : ord zone'.entries j = ord zone.entries j := by
      rw [entries', ord, ord, setEntry, if_neg apart]
    refine ⟨stays, ?_, ?_⟩
    · rw [old (Ne.symm differ)]
      exact sole.mine
    · intro j inQueue apart same
      rw [queue'] at inQueue
      by_cases isNew : j = i
      · subst isNew
        rw [entries', ord_newEntry] at same
        obtain ⟨sameHash, sameData⟩ := order_injective same
        by_cases sameKey : data = key
        · -- the key is there already
          subst sameKey
          apply absent node (List.mem_append_left _ inKept)
          rw [sole.mine, whole]
        · exact noAlias ⟨sameKey, sameHash, sameData⟩
      · have member := (List.mem_cons.mp inQueue).resolve_left isNew
        rw [old isNew] at same
        refine sole.others j ?_ apart same
        rw [queue]
        exact List.mem_append_left _ (List.mem_append_left _ member)
  | noMemory queue _ entries' =>
    refine ⟨stays, by rw [entries']; exact sole.mine, ?_⟩
    intro j inQueue apart
    rw [entries']
    refine sole.others j ?_ apart
    rw [queue]
    exact List.mem_append_left _ inQueue

theorem mine_serve (served : Served alloc burst now data zone zone' outcome)
    (other : outcome ≠ .created node) : ord zone'.entries node = ord zone.entries node := by
  cases served with
  | found _ _ _ _ _ entries' => rw [entries', ord_setEntry_account]
  | @created i _ _ _ _ _ _ _ _ _ entries' =>
    have differ : node ≠ i := fun same => other (by rw [same])
    rw [entries', ord, ord, setEntry, if_neg differ]
  | noMemory _ _ entries' => rw [entries']

theorem Served.created_sole (served : Served alloc burst now key zone zone' (.created node)) :
    Sole zone' node key := by
  cases served with
  | @created _ kept forced removed queue idle absent full fresh queue' entries' =>
    refine ⟨by rw [queue']; simp, by rw [entries', ord_newEntry], ?_⟩
    intro j inQueue apart
    rw [queue'] at inQueue
    have inKept := (List.mem_cons.mp inQueue).resolve_left apart
    rw [entries', ord, setEntry, if_neg apart]
    exact absent j (List.mem_append_left _ inKept)

theorem trace_inv {requests : List Request} {events : List Event} (inv : ZoneInv zone whole)
    (fresh : Fresh alloc) (enough : 2 * (zone.queue.length + requests.length) ≤ fuel)
    (traced : trace alloc fuel burst zone requests = some events) :
    ∃ whole', ZoneInv (lastZone zone events) whole' ∧
      (lastZone zone events).queue.length ≤ zone.queue.length + requests.length := by
  induction requests generalizing zone whole events with
  | nil =>
    cases traced
    exact ⟨whole, inv, by simp⟩
  | cons request rest ih =>
    rw [List.length_cons] at enough
    obtain ⟨zone', whole', outcome, later, rfl, inv', _, served, traced'⟩ :=
      trace_cons inv fresh (by omega) traced
    have length := served.length
    obtain ⟨whole'', final, short⟩ := ih inv' (by omega) traced'
    rw [lastZone_cons, List.length_cons]
    exact ⟨whole'', final, by simp only at short ⊢; omega⟩

theorem Sole.trace {requests : List Request} {events : List Event} (sole : Sole zone node key)
    (inv : ZoneInv zone whole) (fresh : Fresh alloc)
    (enough : 2 * (zone.queue.length + requests.length) ≤ fuel)
    (traced : trace alloc fuel burst zone requests = some events) (stays : Stays node events)
    (noAlias : ∀ request ∈ requests, ¬Alias key request.key) (short : key.length ≤ 255) :
    Sole (lastZone zone events) node key := by
  induction requests generalizing zone whole events with
  | nil =>
    cases traced
    exact sole
  | cons request rest ih =>
    rw [List.length_cons] at enough
    obtain ⟨zone', whole', outcome, later, rfl, inv', _, served, traced'⟩ :=
      trace_cons inv fresh (by omega) traced
    have length := served.length
    obtain ⟨⟨inQueue, other⟩, stays'⟩ := List.forall_mem_cons.mp stays
    have sole' := sole.serve short served inQueue other (noAlias request List.mem_cons_self)
    have tail := ih sole' inv' (by omega) traced' stays' fun r member =>
      noAlias r (List.mem_cons_of_mem _ member)
    rw [lastZone_cons]
    exact tail

theorem mine_trace {requests : List Request} {events : List Event} (inv : ZoneInv zone whole)
    (fresh : Fresh alloc) (enough : 2 * (zone.queue.length + requests.length) ≤ fuel)
    (traced : trace alloc fuel burst zone requests = some events) (stays : Stays node events) :
    ord (lastZone zone events).entries node = ord zone.entries node := by
  induction requests generalizing zone whole events with
  | nil =>
    cases traced
    rfl
  | cons request rest ih =>
    rw [List.length_cons] at enough
    obtain ⟨zone', whole', outcome, later, rfl, inv', _, served, traced'⟩ :=
      trace_cons inv fresh (by omega) traced
    have length := served.length
    obtain ⟨⟨_, other⟩, stays'⟩ := List.forall_mem_cons.mp stays
    rw [lastZone_cons, ih inv' (by omega) traced' stays']
    exact mine_serve served other

theorem Sole.found (sole : Sole zone node key) (inv : ZoneInv zone whole)
    (enough : zone.queue.length < fuel) (short : key.length ≤ 255) (burst now : Nat) :
    ∃ zone' rc excess, ngxHttpLimitReqLookup fuel burst now zone (ngxCrc32Short key) key =
      some (zone', some node, rc, excess) := by
  rcases inv.lookup burst now (ngxCrc32Short key) key enough with
    ⟨i, member, same, looked, _⟩ | ⟨absent, _⟩
  · by_cases isNode : i = node
    · subst isNode
      exact ⟨_, _, _, looked⟩
    · exact absurd same (sole.others i member isNode)
  · refine absurd ?_ (absent node sole.member)
    rw [sole.mine, Nat.mod_eq_of_lt (by omega), List.take_length]

/-- A node that is stored under a part of the key only is not found. -/
theorem not_found_long (inv : ZoneInv zone whole) (enough : zone.queue.length < fuel)
    (mine : ord zone.entries node = order (ngxCrc32Short key) (key.take (key.length % 256)))
    (long : 255 < key.length) (burst now : Nat) :
    ¬∃ zone' rc excess, ngxHttpLimitReqLookup fuel burst now zone (ngxCrc32Short key) key =
      some (zone', some node, rc, excess) := by
  rintro ⟨zone', rc, excess, found⟩
  rcases inv.lookup burst now (ngxCrc32Short key) key enough with
    ⟨i, member, same, looked, _⟩ | ⟨_, looked⟩
  · rw [found] at looked
    simp only [Option.some.injEq, Prod.mk.injEq] at looked
    obtain ⟨_, rfl, _⟩ := looked
    rw [mine] at same
    have length := congrArg List.length (order_injective same).2
    rw [List.length_take] at length
    omega
  · rw [found] at looked
    simp at looked

/-- After the handler has created a node for a key, and requests for keys that are not stored alike
have followed, a lookup finds the node exactly when the key has at most 255 bytes. -/
theorem lookup_finds_iff (alloc : Zone → Option Nat) (fresh : Fresh alloc) (rate burst fuel : Nat)
    (heap : Heap) (sentinel : Nat) (entries : Nat → Entry) (before after : List Request)
    (enough : 2 * (before.length + after.length + 1) ≤ fuel) (key : List UInt8) (now : Nat)
    (events later : List Event) (zone : Zone) (node : Nat)
    (reached : trace alloc fuel burst (ngxHttpLimitReqInitZone rate heap sentinel entries) before =
      some events)
    (created : underMutex alloc fuel burst now
      (lastZone (ngxHttpLimitReqInitZone rate heap sentinel entries) events) key =
        some (zone, .created node))
    (followed : trace alloc fuel burst zone after = some later) (stays : Stays node later)
    (noAlias : ∀ request ∈ after, ¬Alias key request.key) (next : Nat) :
    (∃ zone' rc excess, ngxHttpLimitReqLookup fuel burst next (lastZone zone later)
        (ngxCrc32Short key) key = some (zone', some node, rc, excess)) ↔ key.length ≤ 255 := by
  have start := initZone_inv rate heap sentinel entries
  have empty : (ngxHttpLimitReqInitZone rate heap sentinel entries).queue.length = 0 := rfl
  obtain ⟨whole, inv, length⟩ := trace_inv start fresh (by omega) reached
  obtain ⟨zone', whole', outcome, done, inv', _, _, served⟩ :=
    inv.serve fresh burst now key (show _ ≤ fuel by omega)
  rw [done] at created
  cases created
  have length' := served.length
  have sole := served.created_sole
  obtain ⟨whole'', final, length''⟩ := trace_inv inv' fresh (by omega) followed
  constructor
  · intro found
    by_contra long
    refine not_found_long final (by omega) ?_ (by omega) burst next found
    rw [mine_trace inv' fresh (by omega) followed stays]
    exact sole.mine
  · intro short
    have kept := sole.trace inv' fresh (by omega) followed stays noAlias short
    exact kept.found final (by omega) short burst next

end Keys

/-- A key of one byte is created in an empty zone and found again behind a request for another one. -/
theorem lookup_finds_iff_short :
    let start := ngxHttpLimitReqInitZone 1000 (fun _ => ⟨0, 0, 0, 0, .black⟩) 0 fun _ =>
      newEntry 0 0 []
    ∃ zone later, underMutex nextFree 6 0 0 start [97] = some (zone, .created 1) ∧
      trace nextFree 6 0 zone [⟨5, [98]⟩] = some later ∧
      ((∃ zone' rc excess, ngxHttpLimitReqLookup 6 0 9 (lastZone zone later) (ngxCrc32Short [97])
        [97] = some (zone', some 1, rc, excess)) ↔ [(97 : UInt8)].length ≤ 255) := by
  intro start
  have first : (underMutex nextFree 6 0 0 start [97]).map Prod.snd = some (.created 1) := by
    decide +kernel
  obtain ⟨⟨zone, outcome⟩, created, isFirst⟩ := Option.map_eq_some_iff.mp first
  simp only at isFirst
  subst isFirst
  have second : ((underMutex nextFree 6 0 0 start [97]).bind fun found =>
      trace nextFree 6 0 found.1 [⟨5, [98]⟩]).map
        (fun events => events.map fun event => (event.outcome, event.zone.queue)) =
      some [(.created 2, [2, 1])] := by decide +kernel
  rw [created, Option.bind_some] at second
  obtain ⟨later, followed, isSecond⟩ := Option.map_eq_some_iff.mp second
  have stays : Stays 1 later := by
    intro event member
    have shown : (event.outcome, event.zone.queue) ∈ [(Outcome.created 2, [2, 1])] := by
      rw [← isSecond]
      exact List.mem_map_of_mem member
    rw [List.mem_singleton, Prod.mk.injEq] at shown
    rw [shown.1, shown.2]
    decide
  have noAlias : ∀ request ∈ [(⟨5, [98]⟩ : Request)], ¬Alias [97] request.key := by
    intro request member
    rw [List.mem_singleton.mp member]
    rintro ⟨_, _, same⟩
    revert same
    decide
  exact ⟨zone, later, created, followed, lookup_finds_iff nextFree nextFree_fresh 1000 0 6 _ 0 _ []
    [⟨5, [98]⟩] (by decide) [97] 0 [] later zone 1 rfl created followed stays noAlias 9⟩

/-- A key of 256 bytes gets a node, and the next lookup of the same key does not find it. -/
theorem lookup_misses_256 :
    let start := ngxHttpLimitReqInitZone 1000 (fun _ => ⟨0, 0, 0, 0, .black⟩) 0 fun _ =>
      newEntry 0 0 []
    let key : List UInt8 := List.replicate 256 97
    (underMutex nextFree 4 0 0 start key).map Prod.snd = some (.created 1) ∧
      ((underMutex nextFree 4 0 0 start key).bind fun found =>
        (ngxHttpLimitReqLookup 4 0 0 found.1 (ngxCrc32Short key) key).map Prod.snd) =
        some (none, .declined, 0) := by
  decide +kernel

end NgxFormal.Http.LimitReq

/-! Whether the cleanup in front of the lookups can be told from a zone that keeps everything. -/

namespace NgxFormal.Http.LimitReq

open Core.Rbtree Lib.RedBlack

/-- What a client is told, with the excess that it has to wait for. -/
inductive Ruling where
  | pass
  | delay (excess : Nat)
  | reject
  deriving DecidableEq, Repr

def Outcome.ruling : Outcome → Ruling
  | .created _ => .pass
  | .noMemory => .reject
  | .found _ .busy _ => .reject
  | .found _ .again excess => .delay excess
  | .found _ _ _ => .pass

/-- A zone that never removes entries: `underMutex` without `ngx_http_limit_req_expire`. -/
def keeping (alloc : Zone → Option Nat) (fuel burst now : Nat) (zone : Zone) (data : List UInt8) :
    Option (Zone × Outcome) :=
  (ngxHttpLimitReqLookup fuel burst now zone (ngxCrc32Short data) data).bind fun
    | (zone, some node, rc, excess) => some (zone, .found node rc excess)
    | (zone, none, _, _) =>
      match alloc zone with
      | some node => (addNode fuel now zone node data).map fun zone => (zone, .created node)
      | none => some (zone, .noMemory)

/-- A request of a location with its own burst. -/
structure Call where
  now : Nat
  key : List UInt8
  burst : Nat
  deriving DecidableEq, Repr

def Ample (alloc : Zone → Option Nat) : Prop := ∀ zone, alloc zone ≠ none

/-- The rulings on a sequence of requests. -/
def rulings (serve : Call → Zone → Option (Zone × Outcome)) : Zone → List Call → Option (List Ruling)
  | _, [] => some []
  | zone, call :: rest =>
    (serve call zone).bind fun (zone, outcome) =>
      (rulings serve zone rest).map fun later => outcome.ruling :: later

def serveCleaned (alloc : Zone → Option Nat) (fuel : Nat) (call : Call) (zone : Zone) :
    Option (Zone × Outcome) :=
  underMutex alloc fuel call.burst call.now zone call.key

def serveKeeping (alloc : Zone → Option Nat) (fuel : Nat) (call : Call) (zone : Zone) :
    Option (Zone × Outcome) :=
  keeping alloc fuel call.burst call.now zone call.key

def At (zone : Zone) (key : List UInt8) (i : Nat) : Prop :=
  i ∈ zone.queue ∧ ord zone.entries i = order (ngxCrc32Short key) key

/-- A key whose entry is gone comes when the entry would be charged nothing any more. -/
def Settled (fuel : Nat) (cleaned kept : Zone) (call : Call) : Prop :=
  ∀ rest, ngxHttpLimitReqExpire fuel call.now cleaned 1 = some rest →
    (∀ i, ¬At rest call.key i) → ∀ j, At kept call.key j →
    newExcess kept.rate call.now (kept.entries j) = 0

/-- Every request of the run is settled in the two zones as they are then. -/
def AllSettled (alloc alloc' : Zone → Option Nat) (fuel : Nat) : Zone → Zone → List Call → Prop
  | _, _, [] => True
  | cleaned, kept, call :: rest =>
    Settled fuel cleaned kept call ∧
      ∀ cleaned' kept' one two, serveCleaned alloc fuel call cleaned = some (cleaned', one) →
        serveKeeping alloc' fuel call kept = some (kept', two) →
        AllSettled alloc alloc' fuel cleaned' kept' rest

/-- The two zones charge alike for what both have, and the second one has everything. -/
structure Agree (keys : List (List UInt8)) (cleaned kept : Zone) : Prop where
  rate : cleaned.rate = kept.rate
  soleCleaned : ∀ key ∈ keys, ∀ i j, At cleaned key i → At cleaned key j → i = j
  soleKept : ∀ key ∈ keys, ∀ i j, At kept key i → At kept key j → i = j
  same : ∀ key ∈ keys, ∀ i, At cleaned key i → ∃ j, At kept key j ∧
    (cleaned.entries i).last = (kept.entries j).last ∧
    (cleaned.entries i).excess = (kept.entries j).excess

section Steps

variable {alloc : Zone → Option Nat} {zone zone' : Zone} {whole : ColorTree Nat}
  {fuel burst now node : Nat} {key data : List UInt8} {kept : List Nat} {i : Nat}

theorem at_found (member : node ∈ kept) (queue' : zone'.queue = node :: kept.erase node)
    (entries' : zone'.entries =
      setEntry zone.entries node (account zone.rate burst now (zone.entries node)).2.2) :
    At zone' key i ↔ i ∈ kept ∧ ord zone.entries i = order (ngxCrc32Short key) key := by
  rw [At, entries', ord_setEntry_account, queue', (List.perm_cons_erase member).symm.mem_iff]

theorem at_created (fresh : node ∉ kept) (queue' : zone'.queue = node :: kept)
    (entries' : zone'.entries =
      setEntry zone.entries node (newEntry (ngxCrc32Short data) now data)) :
    At zone' key i ↔
      (i = node ∧ order (ngxCrc32Short data) (data.take (data.length % 256)) =
        order (ngxCrc32Short key) key) ∨
      i ≠ node ∧ i ∈ kept ∧ ord zone.entries i = order (ngxCrc32Short key) key := by
  rw [At, queue', List.mem_cons, entries']
  by_cases isNew : i = node
  · subst isNew
    rw [ord_newEntry]
    simp
  · rw [ord, setEntry, if_neg isNew]
    simp [isNew, ord]

theorem own_key (noAlias : ¬Alias key data)
    (same : order (ngxCrc32Short data) (data.take (data.length % 256)) =
      order (ngxCrc32Short key) key) : key = data := by
  obtain ⟨sameHash, sameData⟩ := order_injective same
  by_contra differ
  exact noAlias ⟨Ne.symm differ, sameHash, sameData⟩

/-- What a request does to a zone that keeps everything. -/
inductive KeepStep (burst now : Nat) (data : List UInt8) (zone zone' : Zone) : Outcome → Prop where
  | found {node : Nat} (here : At zone data node) (queue' : zone'.queue = node :: zone.queue.erase node)
      (entries' : zone'.entries =
        setEntry zone.entries node (account zone.rate burst now (zone.entries node)).2.2) :
      KeepStep burst now data zone zone'
        (.found node (account zone.rate burst now (zone.entries node)).1
          (account zone.rate burst now (zone.entries node)).2.1)
  | created {node : Nat} (absent : ∀ i, ¬At zone data i) (fresh : node ∉ zone.queue)
      (queue' : zone'.queue = node :: zone.queue)
      (entries' : zone'.entries =
        setEntry zone.entries node (newEntry (ngxCrc32Short data) now data)) :
      KeepStep burst now data zone zone' (.created node)

theorem ZoneInv.keep (inv : ZoneInv zone whole) (fresh : Fresh alloc) (ample : Ample alloc)
    (burst now : Nat) (data : List UInt8) (enough : zone.queue.length < fuel) :
    ∃ zone' whole' outcome, keeping alloc fuel burst now zone data = some (zone', outcome) ∧
      ZoneInv zone' whole' ∧ zone'.rate = zone.rate ∧
      zone'.queue.length ≤ zone.queue.length + 1 ∧ KeepStep burst now data zone zone' outcome := by
  unfold keeping
  rcases inv.lookup burst now (ngxCrc32Short data) data enough with
    ⟨i, member, same, looked, inv'⟩ | ⟨absent, looked⟩
  · rw [looked, Option.bind_some]
    refine ⟨_, whole, _, rfl, inv', rfl, ?_, .found ⟨member, same⟩ rfl rfl⟩
    simp only [List.length_cons, List.length_erase_of_mem member]
    omega
  · rw [looked, Option.bind_some]
    cases given : alloc zone with
    | none => exact absurd given (ample zone)
    | some node =>
      obtain ⟨outside, real⟩ := fresh zone node given
      obtain ⟨zone', whole', added, inv', queue', entries', rate', _⟩ :=
        inv.addNode now data outside real enough
      simp only [given, added, Option.map_some]
      refine ⟨zone', whole', _, rfl, inv', rate', by rw [queue', List.length_cons],
        .created ?_ outside queue' entries'⟩
      rintro i ⟨inQueue, same⟩
      exact absent i inQueue same

/-- With memory left, the code is the cleanup in front of a zone that keeps everything. -/
theorem underMutex_eq (ample : Ample alloc) :
    underMutex alloc fuel burst now zone data =
      (ngxHttpLimitReqExpire fuel now zone 1).bind fun rest =>
        keeping alloc fuel burst now rest data := by
  unfold underMutex keeping
  congr 1
  funext rest
  congr 1
  funext found
  obtain ⟨looked, node, rc, excess⟩ := found
  cases node with
  | some node => rfl
  | none =>
    cases given : alloc looked with
    | none => exact absurd given (ample looked)
    | some node => simp only [given]

end Steps

section Agree

variable {keys : List (List UInt8)} {cleaned kept cleaned' kept' rest : Zone} {whole : ColorTree Nat}
  {burst now : Nat} {data : List UInt8} {one two : Outcome}

theorem Agree.expire {removed : List Nat} (agree : Agree keys cleaned kept)
    (expired : Expired cleaned rest whole removed) : Agree keys rest kept := by
  have old {key : List UInt8} {i : Nat} (here : At rest key i) : At cleaned key i := by
    refine ⟨?_, expired.entries ▸ here.2⟩
    rw [expired.queue]
    exact List.mem_append_left _ here.1
  refine ⟨expired.rate.trans agree.rate, ?_, agree.soleKept, ?_⟩
  · intro key member i j hereI hereJ
    exact agree.soleCleaned key member i j (old hereI) (old hereJ)
  · intro key member i here
    rw [expired.entries]
    exact agree.same key member i (old here)

theorem account_congr {rate : Nat} {lr lr' : Entry} (last : lr.last = lr'.last)
    (excess : lr.excess = lr'.excess) :
    (account rate burst now lr).1 = (account rate burst now lr').1 ∧
      (account rate burst now lr).2.1 = (account rate burst now lr').2.1 ∧
      (account rate burst now lr).2.2.last = (account rate burst now lr').2.2.last ∧
      (account rate burst now lr).2.2.excess = (account rate burst now lr').2.2.excess := by
  have same : newExcess rate now lr = newExcess rate now lr' := by
    unfold newExcess
    rw [last, excess]
  unfold account
  simp only [same]
  by_cases exceeds : newExcess rate now lr' > burst
  · simp only [if_pos exceeds]
    exact ⟨trivial, trivial, last, excess⟩
  · simp only [if_neg exceeds]
    exact ⟨trivial, trivial, trivial, trivial⟩

theorem ruling_found (i j : Nat) (rc : Rc) (excess : Nat) :
    (Outcome.found i rc excess).ruling = (Outcome.found j rc excess).ruling := by
  cases rc <;> rfl

/-- A request that finds a kept entry passes exactly when it is charged nothing. -/
theorem ruling_pass_iff {rate i : Nat} {lr : Entry} :
    (Outcome.found i (account rate burst now lr).1 (account rate burst now lr).2.1).ruling = .pass ↔
      newExcess rate now lr = 0 := by
  unfold account
  by_cases exceeds : newExcess rate now lr > burst
  · simp only [if_pos exceeds, Outcome.ruling]
    constructor
    · intro isPass
      cases isPass
    · intro zero
      omega
  · by_cases zero : newExcess rate now lr = 0
    · simp [zero, Outcome.ruling]
    · simp [exceeds, zero, Outcome.ruling]

theorem Agree.step (agree : Agree keys cleaned kept) (member : data ∈ keys)
    (noAlias : ∀ key ∈ keys, ¬Alias key data)
    (first : KeepStep burst now data cleaned cleaned' one) (rate : cleaned'.rate = cleaned.rate)
    (second : KeepStep burst now data kept kept' two) (rate' : kept'.rate = kept.rate) :
    (one.ruling = two.ruling ↔ ((∀ i, ¬At cleaned data i) → ∀ j, At kept data j →
        newExcess kept.rate now (kept.entries j) = 0)) ∧
      (one.ruling = two.ruling → Agree keys cleaned' kept') := by
  have rates : cleaned'.rate = kept'.rate := rate.trans (agree.rate.trans rate'.symm)
  cases first with
  | @found i here queue' entries' =>
    obtain ⟨j, there, sameLast, sameExcess⟩ := agree.same data member i here
    cases second with
    | @created _ absent _ _ _ => exact absurd there (absent j)
    | @found j' there' queue'' entries'' =>
      have isJ := agree.soleKept data member j' j there' there
      subst isJ
      obtain ⟨rc, excess, last', excess'⟩ :=
        @account_congr burst now cleaned.rate _ _ sameLast sameExcess
      refine ⟨⟨fun _ absent => absurd here (absent i), fun _ => ?_⟩, fun _ => ⟨rates, ?_, ?_, ?_⟩⟩
      · rw [rc, excess, agree.rate]
        exact ruling_found i j' _ _
      · intro key inKeys a b atA atB
        rw [at_found here.1 queue' entries'] at atA atB
        exact agree.soleCleaned key inKeys a b atA atB
      · intro key inKeys a b atA atB
        rw [at_found there'.1 queue'' entries''] at atA atB
        exact agree.soleKept key inKeys a b atA atB
      · intro key inKeys a atA
        rw [at_found here.1 queue' entries'] at atA
        obtain ⟨b, atB, last, excess''⟩ := agree.same key inKeys a atA
        refine ⟨b, (at_found there'.1 queue'' entries'').mpr atB, ?_⟩
        rw [entries', entries'', setEntry, setEntry]
        by_cases isI : a = i
        · have sameKey : key = data := by
            have one := here.2
            rw [← isI, atA.2] at one
            exact (order_injective one).2
          subst sameKey
          have isJ := agree.soleKept key inKeys b j' atB there'
          rw [if_pos isI, if_pos isJ, ← agree.rate]
          exact ⟨last', excess'⟩
        · have notJ : b ≠ j' := by
            rintro rfl
            have one := there'.2
            rw [atB.2] at one
            have sameKey := (order_injective one).2
            subst sameKey
            exact isI (agree.soleCleaned key inKeys a i atA here)
          rw [if_neg isI, if_neg notJ]
          exact ⟨last, excess''⟩
  | @created i absent fresh queue' entries' =>
    have isData {key : List UInt8} (inKeys : key ∈ keys)
        (same : order (ngxCrc32Short data) (data.take (data.length % 256)) =
          order (ngxCrc32Short key) key) : key = data := own_key (noAlias key inKeys) same
    have soleCleaned : ∀ key ∈ keys, ∀ a b, At cleaned' key a → At cleaned' key b → a = b := by
      intro key inKeys a b atA atB
      rw [at_created fresh queue' entries'] at atA atB
      rcases atA with ⟨rfl, isKey⟩ | ⟨notI, oldA⟩
      · rcases atB with ⟨rfl, _⟩ | ⟨_, oldB⟩
        · rfl
        · exact absurd (isData inKeys isKey ▸ oldB) (absent b)
      · rcases atB with ⟨rfl, isKey⟩ | ⟨_, oldB⟩
        · exact absurd (isData inKeys isKey ▸ oldA) (absent a)
        · exact agree.soleCleaned key inKeys a b oldA oldB
    cases second with
    | @found j there queue'' entries'' =>
      -- the entry is gone from the first zone only
      have settled : (Outcome.created i).ruling =
          (Outcome.found j (account kept.rate burst now (kept.entries j)).1
            (account kept.rate burst now (kept.entries j)).2.1).ruling ↔
          newExcess kept.rate now (kept.entries j) = 0 := by
        rw [eq_comm]
        exact ruling_pass_iff
      rw [settled]
      refine ⟨⟨?_, fun all => all absent j there⟩, fun zero => ⟨rates, soleCleaned, ?_, ?_⟩⟩
      · intro zero _ b atB
        rw [agree.soleKept data member b j atB there]
        exact zero
      · intro key inKeys a b atA atB
        rw [at_found there.1 queue'' entries''] at atA atB
        exact agree.soleKept key inKeys a b atA atB
      · intro key inKeys a atA
        rw [at_created fresh queue' entries'] at atA
        rcases atA with ⟨rfl, isKey⟩ | ⟨notI, oldA⟩
        · have sameKey := isData inKeys isKey
          subst sameKey
          refine ⟨j, (at_found there.1 queue'' entries'').mpr there, ?_⟩
          rw [entries', entries'', setEntry, setEntry, if_pos rfl, if_pos rfl]
          rcases @account_cases kept.rate burst now (kept.entries j) with
            ⟨exceeds, _⟩ | ⟨_, rc, _, admitted⟩
          · omega
          · rw [admitted, zero]
            exact ⟨rfl, rfl⟩
        · obtain ⟨b, atB, last, excess⟩ := agree.same key inKeys a oldA
          have notJ : b ≠ j := by
            rintro rfl
            have one := there.2
            rw [atB.2] at one
            have sameKey := (order_injective one).2
            subst sameKey
            exact absent a oldA
          refine ⟨b, (at_found there.1 queue'' entries'').mpr atB, ?_⟩
          rw [entries', entries'', setEntry, setEntry, if_neg notI, if_neg notJ]
          exact ⟨last, excess⟩
    | @created j absent' fresh' queue'' entries'' =>
      refine ⟨⟨fun _ _ b atB => absurd atB (absent' b), fun _ => rfl⟩,
        fun _ => ⟨rates, soleCleaned, ?_, ?_⟩⟩
      · intro key inKeys a b atA atB
        rw [at_created fresh' queue'' entries''] at atA atB
        rcases atA with ⟨rfl, isKey⟩ | ⟨notJ, oldA⟩
        · rcases atB with ⟨rfl, _⟩ | ⟨_, oldB⟩
          · rfl
          · exact absurd (isData inKeys isKey ▸ oldB) (absent' b)
        · rcases atB with ⟨rfl, isKey⟩ | ⟨_, oldB⟩
          · exact absurd (isData inKeys isKey ▸ oldA) (absent' a)
          · exact agree.soleKept key inKeys a b oldA oldB
      · intro key inKeys a atA
        rw [at_created fresh queue' entries'] at atA
        rcases atA with ⟨rfl, isKey⟩ | ⟨notI, oldA⟩
        · refine ⟨j, (at_created fresh' queue'' entries'').mpr (Or.inl ⟨rfl, isKey⟩), ?_⟩
          rw [entries', entries'', setEntry, setEntry, if_pos rfl, if_pos rfl]
          exact ⟨rfl, rfl⟩
        · obtain ⟨b, atB, last, excess⟩ := agree.same key inKeys a oldA
          have notJ : b ≠ j := by
            rintro rfl
            exact fresh' atB.1
          refine ⟨b, (at_created fresh' queue'' entries'').mpr (Or.inr ⟨notJ, atB⟩), ?_⟩
          rw [entries', entries'', setEntry, setEntry, if_neg notI, if_neg notJ]
          exact ⟨last, excess⟩

end Agree

section Runs

variable {alloc alloc' : Zone → Option Nat} {fuel : Nat}

/-- The fuel lasts for `n` more requests. -/
def Ready (fuel n : Nat) (zone : Zone) : Prop :=
  ∃ whole, ZoneInv zone whole ∧ 2 * (zone.queue.length + n) ≤ fuel

theorem rulings_some {serve : Call → Zone → Option (Zone × Outcome)}
    (total : ∀ n call zone, Ready fuel (n + 1) zone → ∃ zone' outcome,
      serve call zone = some (zone', outcome) ∧ Ready fuel n zone')
    (calls : List Call) (zone : Zone) (start : Ready fuel calls.length zone) :
    ∃ given, rulings serve zone calls = some given := by
  induction calls generalizing zone with
  | nil => exact ⟨[], rfl⟩
  | cons call rest ih =>
    obtain ⟨zone', outcome, served, next⟩ := total _ call zone start
    obtain ⟨given, ran⟩ := ih zone' next
    refine ⟨outcome.ruling :: given, ?_⟩
    rw [rulings, served, Option.bind_some]
    simp only [ran, Option.map_some]

theorem serveCleaned_total (fresh : Fresh alloc) (n : Nat) (call : Call) (zone : Zone)
    (ready : Ready fuel (n + 1) zone) :
    ∃ zone' outcome, serveCleaned alloc fuel call zone = some (zone', outcome) ∧
      Ready fuel n zone' := by
  obtain ⟨whole, inv, enough⟩ := ready
  obtain ⟨zone', whole', outcome, done, inv', _, _, served⟩ :=
    inv.serve fresh call.burst call.now call.key (show 2 * (zone.queue.length + 1) ≤ fuel by omega)
  have length := served.length
  exact ⟨zone', outcome, done, whole', inv', by omega⟩

theorem serveKeeping_total (fresh : Fresh alloc) (ample : Ample alloc) (n : Nat) (call : Call)
    (zone : Zone) (ready : Ready fuel (n + 1) zone) :
    ∃ zone' outcome, serveKeeping alloc fuel call zone = some (zone', outcome) ∧
      Ready fuel n zone' := by
  obtain ⟨whole, inv, enough⟩ := ready
  obtain ⟨zone', whole', outcome, done, inv', _, length, _⟩ :=
    inv.keep fresh ample call.burst call.now call.key (show zone.queue.length < fuel by omega)
  exact ⟨zone', outcome, done, whole', inv', by omega⟩

/-- A whole run: the rulings agree exactly when every request is settled. -/
theorem rulings_agree {keys : List (List UInt8)} {cleaned kept : Zone} {whole whole' : ColorTree Nat}
    (calls : List Call) (inv : ZoneInv cleaned whole) (inv' : ZoneInv kept whole')
    (agree : Agree keys cleaned kept) (inKeys : ∀ call ∈ calls, call.key ∈ keys)
    (noAlias : ∀ key ∈ keys, ∀ data ∈ keys, ¬Alias key data) (fresh : Fresh alloc)
    (ample : Ample alloc) (fresh' : Fresh alloc') (ample' : Ample alloc')
    (enough : 2 * (cleaned.queue.length + calls.length) ≤ fuel)
    (enough' : 2 * (kept.queue.length + calls.length) ≤ fuel) :
    ∃ first second, rulings (serveCleaned alloc fuel) cleaned calls = some first ∧
      rulings (serveKeeping alloc' fuel) kept calls = some second ∧
      (first = second ↔ AllSettled alloc alloc' fuel cleaned kept calls) := by
  induction calls generalizing cleaned kept whole whole' with
  | nil => exact ⟨[], [], rfl, rfl, by simp [AllSettled]⟩
  | cons call rest ih =>
    rw [List.length_cons] at enough enough'
    obtain ⟨left, wholeLeft, removed, cleanup, expired, _⟩ :=
      @ZoneInv.expire cleaned whole fuel 1 inv call.now (by omega)
    have length : cleaned.queue.length = left.queue.length + removed.length := by
      rw [expired.queue, List.length_append]
    obtain ⟨cleaned', wholeOne, one, stepOne, invOne, rateOne, lengthOne, first⟩ :=
      expired.inv.keep fresh ample call.burst call.now call.key
        (show left.queue.length < fuel by omega)
    obtain ⟨kept', wholeTwo, two, stepTwo, invTwo, rateTwo, lengthTwo, second⟩ :=
      inv'.keep fresh' ample' call.burst call.now call.key
        (show kept.queue.length < fuel by omega)
    have served : serveCleaned alloc fuel call cleaned = some (cleaned', one) := by
      rw [serveCleaned, underMutex_eq ample, cleanup, Option.bind_some, stepOne]
    have member := inKeys call List.mem_cons_self
    obtain ⟨same, next⟩ := (agree.expire expired).step member
      (fun key inside => noAlias key inside call.key member) first rateOne second rateTwo
    have settled : Settled fuel cleaned kept call ↔ one.ruling = two.ruling := by
      rw [same]
      constructor
      · intro all
        exact all left cleanup
      · intro all other isOther
        rw [cleanup] at isOther
        cases isOther
        exact all
    -- how the later rulings go on is known only when these two agree
    by_cases equal : one.ruling = two.ruling
    · obtain ⟨later, later', ran, ran', iff⟩ := ih invOne invTwo (next equal)
        (fun other inside => inKeys other (List.mem_cons_of_mem _ inside)) (by omega) (by omega)
      refine ⟨one.ruling :: later, two.ruling :: later', ?_, ?_, ?_⟩
      · rw [rulings, served, Option.bind_some]
        simp only [ran, Option.map_some]
      · rw [rulings, serveKeeping, stepTwo, Option.bind_some]
        simp only [ran', Option.map_some]
      · rw [List.cons.injEq, AllSettled, settled, iff]
        refine and_congr_right fun _ => ⟨?_, fun all => all _ _ _ _ served stepTwo⟩
        intro all c k o t isC isK
        rw [served] at isC
        rw [serveKeeping, stepTwo] at isK
        cases isC
        cases isK
        exact all
    · have readyOne : Ready fuel rest.length cleaned' := ⟨wholeOne, invOne, by omega⟩
      have readyTwo : Ready fuel rest.length kept' := ⟨wholeTwo, invTwo, by omega⟩
      obtain ⟨later, ran⟩ := rulings_some (serveCleaned_total fresh) rest cleaned' readyOne
      obtain ⟨later', ran'⟩ := rulings_some (serveKeeping_total fresh' ample') rest kept' readyTwo
      refine ⟨one.ruling :: later, two.ruling :: later', ?_, ?_, ?_⟩
      · rw [rulings, served, Option.bind_some]
        simp only [ran, Option.map_some]
      · rw [rulings, serveKeeping, stepTwo, Option.bind_some]
        simp only [ran', Option.map_some]
      · rw [List.cons.injEq, AllSettled, settled]
        exact ⟨fun both => absurd both.1 equal, fun both => absurd both.1 equal⟩

end Runs

/-- Whatever is requested of a zone, the cleanup changes no ruling exactly when every key whose entry
was removed comes back only after the entry would be charged nothing. -/
theorem cleanup_unobservable_iff (alloc alloc' : Zone → Option Nat) (fresh : Fresh alloc)
    (ample : Ample alloc) (fresh' : Fresh alloc') (ample' : Ample alloc') (rate fuel : Nat)
    (heap : Heap) (sentinel : Nat) (entries : Nat → Entry) (calls : List Call)
    (noAlias : ∀ call ∈ calls, ∀ other ∈ calls, ¬Alias call.key other.key)
    (enough : 2 * calls.length ≤ fuel) :
    let start := ngxHttpLimitReqInitZone rate heap sentinel entries
    ∃ cleaned kept, rulings (serveCleaned alloc fuel) start calls = some cleaned ∧
      rulings (serveKeeping alloc' fuel) start calls = some kept ∧
      (cleaned = kept ↔ AllSettled alloc alloc' fuel start start calls) := by
  intro start
  have inv : ZoneInv start .nil := initZone_inv rate heap sentinel entries
  have none {key : List UInt8} {i : Nat} (here : At start key i) : False := by
    cases here.1
  have agree : Agree (calls.map Call.key) start start :=
    ⟨rfl, fun _ _ _ _ here => (none here).elim, fun _ _ _ _ here => (none here).elim,
      fun _ _ _ here => (none here).elim⟩
  have empty : start.queue.length = 0 := rfl
  refine rulings_agree calls inv inv agree (fun call member => List.mem_map_of_mem member) ?_ fresh
    ample fresh' ample' (by omega) (by omega)
  intro key inKeys data inKeys'
  obtain ⟨call, member, rfl⟩ := List.mem_map.mp inKeys
  obtain ⟨other, member', rfl⟩ := List.mem_map.mp inKeys'
  exact noAlias call member other member'

/-- Two keys at ten requests a second. -/
theorem cleanup_unobservable_iff_two_keys :
    let start := ngxHttpLimitReqInitZone 10000 (fun _ => ⟨0, 0, 0, 0, .black⟩) 0 fun _ =>
      newEntry 0 0 []
    let calls : List Call := [⟨0, [97], 0⟩, ⟨60000, [98], 0⟩, ⟨60001, [97], 0⟩]
    ∃ cleaned kept, rulings (serveCleaned nextFree 6) start calls = some cleaned ∧
      rulings (serveKeeping nextFree 6) start calls = some kept ∧
      (cleaned = kept ↔ AllSettled nextFree nextFree 6 start start calls) := by
  intro start calls
  refine cleanup_unobservable_iff nextFree nextFree nextFree_fresh (fun _ => by simp [nextFree])
    nextFree_fresh (fun _ => by simp [nextFree]) 10000 6 _ 0 _ calls ?_ (by decide)
  unfold Alias
  decide +kernel

/-- At a request a minute, a key that comes back after its entry is removed passes; the entry would
have rejected it. -/
theorem cleanup_observable_slow :
    let start := ngxHttpLimitReqInitZone 16 (fun _ => ⟨0, 0, 0, 0, .black⟩) 0 fun _ =>
      newEntry 0 0 []
    let calls : List Call := [⟨0, [97], 0⟩, ⟨60000, [98], 0⟩, ⟨60001, [97], 0⟩]
    rulings (serveCleaned nextFree 6) start calls = some [.pass, .pass, .pass] ∧
      rulings (serveKeeping nextFree 6) start calls = some [.pass, .pass, .reject] := by
  decide +kernel

end NgxFormal.Http.LimitReq
