import NgxFormal.Core.ResolverCopy

/-! The two passes of `ngx_resolver_process_a` over the answers of a response: the first one checks
and counts, the second one stores the addresses when there are several. -/

namespace NgxFormal.Core.Resolver

/-- An answer: where its name starts, where its `ngx_resolver_an_t` is, and what that says. -/
structure Record where
  start : Nat
  an : Nat
  qtype : Nat
  len : Nat
  deriving DecidableEq, Repr

/-- `NGX_RESOLVE_A`, `NGX_RESOLVE_CNAME` and `NGX_RESOLVE_DNAME` -/
def resolveA : Nat := 1

def resolveCname : Nat := 5

def resolveDname : Nat := 39

/-- `sizeof(ngx_resolver_an_t)` -/
def anSizeof : Nat := 10

def recordAt (m : Message) (start an : Nat) : Record :=
  ⟨start, an, ((m.buf an).toNat <<< 8) + (m.buf (an + 1)).toNat,
    ((m.buf (an + 8)).toNat <<< 8) + (m.buf (an + 9)).toNat⟩

/-- The four bytes of the `in_addr_t` at `i`, as `htonl` leaves them. -/
def addrAt (m : Message) (i : Nat) : List UInt8 :=
  [m.buf i, m.buf (i + 1), m.buf (i + 2), m.buf (i + 3)]

inductive Failure where
  | shortResponse
  | invalidName
  deriving DecidableEq, Repr

/-- `while (i < last)` over the labels of a name: whether a pointer ends it, and `i` behind it. Each
turn moves `i`, so that `last` turns are enough. -/
def skipName (m : Message) : Nat → Nat → Option (Bool × Nat)
  | 0, _ => none
  | turns + 1, i =>
    if i < m.last then
      if isPointer (m.buf i) then some (true, i + 2)
      else if m.buf i = 0 then some (false, i + 1)
      else skipName m turns (i + (1 + (m.buf i).toNat))
    else none

/-- What the first pass has found; `visited` are the answers that it went over. -/
structure Found where
  visited : List Record
  naddrs : Nat
  addr : List UInt8
  cname : Option Nat
  qtype : Nat
  deriving DecidableEq, Repr

/-- The first pass over `nan` answers from `i` on. -/
def firstPass (m : Message) : Nat → Nat → Found → Except Failure Found
  | 0, _, found => .ok found
  | nan + 1, start, found =>
    match skipName m m.last start with
    | none => .error .shortResponse
    | some (pointer, i) =>
      if pointer = false ∧ i - start < 2 then .error .invalidName
      else if i + anSizeof ≥ m.last then .error .shortResponse
      else
        let record := recordAt m start i
        let found :=
          { found with visited := found.visited ++ [record], qtype := record.qtype }
        if record.qtype = resolveA then
          let i := i + anSizeof
          if i + record.len > m.last then .error .shortResponse
          else
            firstPass m nan (i + record.len)
              { found with naddrs := found.naddrs + 1, addr := addrAt m i }
        else if record.qtype = resolveCname then
          firstPass m nan (i + (anSizeof + record.len)) { found with cname := some (i + anSizeof) }
        else if record.qtype = resolveDname then
          firstPass m nan (i + (anSizeof + record.len)) found
        else
          -- logged as unexpected, and not skipped
          firstPass m nan i found

/-- `for ( ;; )` over the labels of a name: the offsets that it reads, and `i` behind it. -/
def skipAgain (m : Message) : Nat → Nat → Option (List Nat × Nat)
  | 0, _ => none
  | turns + 1, i =>
    if isPointer (m.buf i) then some ([i], i + 2)
    else if m.buf i = 0 then some ([i], i + 1)
    else (skipAgain m turns (i + (1 + (m.buf i).toNat))).map fun (reads, j) => (i :: reads, j)

/-- What the second pass has done: the answers that it went over, `addrs`, and the offsets read. -/
structure Stored where
  visited : List Record
  addrs : List (List UInt8)
  reads : List Nat
  deriving DecidableEq, Repr

/-- The second pass, when `n` addresses are stored. `none` is a name without an end. -/
def secondPass (m : Message) (naddrs : Nat) : Nat → Nat → Nat → Option Stored
  | 0, _, _ => some ⟨[], [], []⟩
  | nan + 1, start, n =>
    (skipAgain m m.last start).bind fun (name, i) =>
      let record := recordAt m start i
      let head := name ++ [i, i + 1, i + 8, i + 9]
      let i := i + anSizeof
      if record.qtype = resolveA then
        let head := head ++ [i, i + 1, i + 2, i + 3]
        if n + 1 = naddrs then some ⟨[record], [addrAt m i], head⟩
        else
          (secondPass m naddrs nan (i + record.len) (n + 1)).map fun later =>
            ⟨record :: later.visited, addrAt m i :: later.addrs, head ++ later.reads⟩
      else
        (secondPass m naddrs nan (i + record.len) n).map fun later =>
          ⟨record :: later.visited, later.addrs, head ++ later.reads⟩

section Passes

/-- The types that the first pass skips. -/
def Record.Expected (record : Record) : Prop :=
  record.qtype = resolveA ∨ record.qtype = resolveCname ∨ record.qtype = resolveDname

instance (record : Record) : Decidable record.Expected := inferInstanceAs (Decidable (_ ∨ _ ∨ _))

def isAddress (record : Record) : Bool := record.qtype = resolveA

def addresses (records : List Record) : List Record := records.filter isAddress

inductive NameEnds (m : Message) : Nat → Nat → Prop
  | pointer {i : Nat} (here : isPointer (m.buf i)) : NameEnds m i (i + 2)
  | zero {i : Nat} (here : m.buf i = 0) : NameEnds m i (i + 1)
  | label {i j : Nat} (noPointer : ¬isPointer (m.buf i)) (nonzero : m.buf i ≠ 0)
      (rest : NameEnds m (i + (1 + (m.buf i).toNat)) j) : NameEnds m i j

/-- The answers in the order of the first pass: one of a type that it does not expect stands where
the next one is looked for. -/
inductive Answers (m : Message) : Nat → Nat → List Record → Prop
  | done {i : Nat} : Answers m 0 i []
  | expected {nan start i : Nat} {records : List Record} (name : NameEnds m start i)
      (known : (recordAt m start i).Expected)
      (rest : Answers m nan (i + anSizeof + (recordAt m start i).len) records) :
      Answers m (nan + 1) start (recordAt m start i :: records)
  | unexpected {nan start i : Nat} {records : List Record} (name : NameEnds m start i)
      (unknown : ¬(recordAt m start i).Expected) (rest : Answers m nan i records) :
      Answers m (nan + 1) start (recordAt m start i :: records)

variable {m : Message} {turns i j nan naddrs n start : Nat} {records : List Record}

theorem zero_not_pointer : ¬isPointer 0 := by decide

theorem NameEnds.unique {k : Nat} (ends : NameEnds m i j) (other : NameEnds m i k) : k = j := by
  induction ends with
  | pointer here =>
    cases other with
    | pointer _ => rfl
    | zero zero =>
      rw [zero] at here
      exact (zero_not_pointer here).elim
    | label noPointer _ _ => exact (noPointer here).elim
  | zero here =>
    cases other with
    | pointer pointer =>
      rw [here] at pointer
      exact (zero_not_pointer pointer).elim
    | zero _ => rfl
    | label _ nonzero _ => exact (nonzero here).elim
  | label noPointer nonzero _ ih =>
    cases other with
    | pointer here => exact (noPointer here).elim
    | zero here => exact (nonzero here).elim
    | label _ _ rest => exact ih rest

theorem Answers.unique {others : List Record} (answers : Answers m nan i records)
    (other : Answers m nan i others) : others = records := by
  induction answers generalizing others with
  | done =>
    cases other with
    | done => rfl
  | expected name known _ ih =>
    cases other with
    | expected name' _ rest =>
      obtain rfl := name.unique name'
      rw [ih rest]
    | unexpected name' unknown _ =>
      obtain rfl := name.unique name'
      exact (unknown known).elim
  | unexpected name unknown _ ih =>
    cases other with
    | expected name' known _ =>
      obtain rfl := name.unique name'
      exact (unknown known).elim
    | unexpected name' _ rest =>
      obtain rfl := name.unique name'
      rw [ih rest]

theorem skipAgain_of_skipName {pointer : Bool} (skipped : skipName m turns i = some (pointer, j)) :
    NameEnds m i j ∧ ∃ reads, skipAgain m turns i = some (reads, j) ∧ ∀ a ∈ reads, a < m.last := by
  induction turns generalizing i with
  | zero => cases skipped
  | succ turns ih =>
    rw [skipName] at skipped
    rw [skipAgain]
    split at skipped
    · rename_i inside
      have here : ∀ a ∈ [i], a < m.last := by
        intro a member
        rw [List.mem_singleton.mp member]
        exact inside
      split at skipped
      · rename_i isPtr
        obtain ⟨_, rfl⟩ := Prod.mk.inj (Option.some.inj skipped)
        rw [if_pos isPtr]
        exact ⟨.pointer isPtr, [i], rfl, here⟩
      · rename_i noPtr
        rw [if_neg noPtr]
        split at skipped
        · rename_i zero
          obtain ⟨_, rfl⟩ := Prod.mk.inj (Option.some.inj skipped)
          rw [if_pos zero]
          exact ⟨.zero zero, [i], rfl, here⟩
        · rename_i nonzero
          obtain ⟨ends, reads, again, bounds⟩ := ih skipped
          rw [if_neg nonzero, again]
          exact ⟨.label noPtr nonzero ends, i :: reads, rfl,
            List.forall_mem_cons.mpr ⟨inside, bounds⟩⟩
    · cases skipped

/-- What the first pass has checked about the answers. -/
inductive Checked (m : Message) : Nat → Nat → List Record → Prop
  | done {i : Nat} : Checked m 0 i []
  | answer {nan start i : Nat} {records : List Record} (name : NameEnds m start i)
      (again : ∃ reads, skipAgain m m.last start = some (reads, i) ∧ ∀ a ∈ reads, a < m.last)
      (head : i + anSizeof < m.last)
      (data : (recordAt m start i).qtype = resolveA →
        i + anSizeof + (recordAt m start i).len ≤ m.last)
      (rest : Checked m nan (if (recordAt m start i).Expected
        then i + anSizeof + (recordAt m start i).len else i) records) :
      Checked m (nan + 1) start (recordAt m start i :: records)

theorem Checked.answers (checked : Checked m nan start records) : Answers m nan start records := by
  induction checked with
  | done => exact .done
  | @answer _ start i _ name _ _ _ _ ih =>
    by_cases known : (recordAt m start i).Expected
    · rw [if_pos known] at ih
      exact .expected name known ih
    · rw [if_neg known] at ih
      exact .unexpected name known ih

theorem addresses_cons (r : Record) (records : List Record) :
    addresses (r :: records) =
      if r.qtype = resolveA then r :: addresses records else addresses records := by
  unfold addresses isAddress
  by_cases address : r.qtype = resolveA
  · rw [List.filter_cons_of_pos (by simpa using address), if_pos address]
  · rw [List.filter_cons_of_neg (by simpa using address), if_neg address]

theorem firstPass_checked {found final : Found} (accepted : firstPass m nan start found = .ok final) :
    ∃ records, Checked m nan start records ∧ final.visited = found.visited ++ records ∧
      final.naddrs = found.naddrs + (addresses records).length := by
  induction nan generalizing start found with
  | zero =>
    obtain rfl := Except.ok.inj accepted
    exact ⟨[], .done, (List.append_nil _).symm, rfl⟩
  | succ nan ih =>
    rw [firstPass] at accepted
    cases skipped : skipName m m.last start with
    | none =>
      simp only [skipped] at accepted
      cases accepted
    | some result =>
      obtain ⟨pointer, i⟩ := result
      simp only [skipped] at accepted
      obtain ⟨name, again⟩ := skipAgain_of_skipName skipped
      split at accepted
      · cases accepted
      · split at accepted
        · cases accepted
        · rename_i head
          -- the rest of the pass, wherever it starts
          have step : ∀ found' : Found, ∀ place,
              found'.visited = found.visited ++ [recordAt m start i] →
              found'.naddrs = found.naddrs +
                (if (recordAt m start i).qtype = resolveA then 1 else 0) →
              place = (if (recordAt m start i).Expected
                then i + anSizeof + (recordAt m start i).len else i) →
              ((recordAt m start i).qtype = resolveA →
                i + anSizeof + (recordAt m start i).len ≤ m.last) →
              firstPass m nan place found' = .ok final →
              ∃ records, Checked m (nan + 1) start records ∧
                final.visited = found.visited ++ records ∧
                final.naddrs = found.naddrs + (addresses records).length := by
            intro found' place visited count isPlace data rest
            obtain ⟨records, checked, isVisited, isCount⟩ := ih rest
            rw [isPlace] at checked
            refine ⟨recordAt m start i :: records,
              .answer name again (by omega) data checked, ?_, ?_⟩
            · rw [isVisited, visited, List.append_assoc]
              rfl
            · rw [isCount, count, addresses_cons]
              split
              · rw [List.length_cons]
                omega
              · rfl
          split at accepted
          · rename_i address
            split at accepted
            · cases accepted
            · rename_i inside
              have known : (recordAt m start i).Expected := Or.inl address
              exact step _ _ rfl (by rw [if_pos address]) (by rw [if_pos known])
                (fun _ => Nat.le_of_not_lt inside) accepted
          · rename_i noAddress
            have place : i + (anSizeof + (recordAt m start i).len) =
                i + anSizeof + (recordAt m start i).len := (Nat.add_assoc _ _ _).symm
            split at accepted
            · rename_i isAlias
              have known : (recordAt m start i).Expected := Or.inr (Or.inl isAlias)
              exact step _ _ rfl (by rw [if_neg noAddress]; rfl) (by rw [if_pos known, place])
                (fun address => (noAddress address).elim) accepted
            · rename_i noAlias
              split at accepted
              · rename_i isTree
                have known : (recordAt m start i).Expected := Or.inr (Or.inr isTree)
                exact step _ _ rfl (by rw [if_neg noAddress]; rfl) (by rw [if_pos known, place])
                  (fun address => (noAddress address).elim) accepted
              · rename_i noTree
                have unknown : ¬(recordAt m start i).Expected := by
                  rintro (absurd | absurd | absurd)
                  · exact noAddress absurd
                  · exact noAlias absurd
                  · exact noTree absurd
                exact step _ _ rfl (by rw [if_neg noAddress]; rfl) (by rw [if_neg unknown])
                  (fun address => (noAddress address).elim) accepted

/-- No address behind an answer of an unexpected type. -/
def Orderly (records : List Record) : Prop :=
  records.Pairwise fun r s => s.qtype = resolveA → r.Expected

/-- Each address has its four bytes. -/
def Whole (records : List Record) : Prop := ∀ r ∈ addresses records, 4 ≤ r.len

/-- The bytes of the addresses among the answers. -/
def addressBytes (m : Message) (records : List Record) : List (List UInt8) :=
  (addresses records).map fun r => addrAt m (r.an + anSizeof)

theorem Orderly.expected {r : Record} (orderly : Orderly (r :: records))
    (more : addresses records ≠ []) : r.Expected := by
  obtain ⟨s, rest, shape⟩ := List.exists_cons_of_ne_nil more
  have member : s ∈ addresses records := by
    rw [shape]
    exact List.mem_cons_self
  obtain ⟨inside, address⟩ := List.mem_filter.mp member
  exact (List.pairwise_cons.mp orderly).1 s inside (by simpa [isAddress] using address)

theorem Orderly.of_none {r : Record} (none : addresses records = []) : Orderly (r :: records) := by
  have noAddress : ∀ s ∈ records, s.qtype ≠ resolveA := by
    intro s member address
    have inside : s ∈ addresses records := List.mem_filter.mpr ⟨member, by simpa [isAddress] using address⟩
    rw [none] at inside
    cases inside
  refine List.pairwise_cons.mpr ⟨fun s member address => (noAddress s member address).elim, ?_⟩
  exact List.pairwise_of_forall_mem_list fun r _ s member address => (noAddress s member address).elim

theorem Checked.second (checked : Checked m nan start records) (orderly : Orderly records)
    (whole : Whole records) (more : addresses records ≠ [])
    (count : n + (addresses records).length = naddrs) :
    ∃ stored, secondPass m naddrs nan start n = some stored ∧ stored.visited <+: records ∧
      stored.addrs = addressBytes m records ∧ ∀ a ∈ stored.reads, a < m.last := by
  induction checked generalizing n with
  | done => exact (more rfl).elim
  | @answer nan start i records name again head data rest ih =>
    obtain ⟨reads, skipped, readInside⟩ := again
    obtain ⟨_, orderlyRest⟩ := List.pairwise_cons.mp orderly
    have headInside : ∀ a ∈ reads ++ [i, i + 1, i + 8, i + 9], a < m.last := by
      unfold anSizeof at head
      intro a member
      rcases List.mem_append.mp member with inName | inHead
      · exact readInside a inName
      · simp only [List.mem_cons, List.not_mem_nil, or_false] at inHead
        omega
    have prepend : ∀ {visited : List Record}, visited <+: records →
        recordAt m start i :: visited <+: recordAt m start i :: records := by
      rintro visited ⟨behind, rfl⟩
      exact ⟨behind, rfl⟩
    rw [secondPass, skipped]
    dsimp only [Option.bind]
    by_cases address : (recordAt m start i).qtype = resolveA
    · have known : (recordAt m start i).Expected := Or.inl address
      have isAddresses : addresses (recordAt m start i :: records) =
          recordAt m start i :: addresses records := by rw [addresses_cons, if_pos address]
      have isBytes : addressBytes m (recordAt m start i :: records) =
          addrAt m (i + anSizeof) :: addressBytes m records := by
        rw [addressBytes, isAddresses]
        rfl
      have long : 4 ≤ (recordAt m start i).len := whole _ (by rw [isAddresses]; exact List.mem_cons_self)
      have wholeRest : Whole records := fun r member =>
        whole r (by rw [isAddresses]; exact List.mem_cons_of_mem _ member)
      have dataInside : ∀ a ∈ reads ++ [i, i + 1, i + 8, i + 9] ++
          [i + anSizeof, i + anSizeof + 1, i + anSizeof + 2, i + anSizeof + 3], a < m.last := by
        have inside := data address
        intro a member
        rcases List.mem_append.mp member with inHead | inData
        · exact headInside a inHead
        · simp only [List.mem_cons, List.not_mem_nil, or_false] at inData
          omega
      rw [isAddresses, List.length_cons] at count
      rw [if_pos known] at ih
      rw [if_pos address, isBytes]
      by_cases last : addresses records = []
      · rw [last, List.length_nil] at count
        rw [if_pos (by omega), addressBytes, last]
        exact ⟨_, rfl, prepend (List.nil_prefix), rfl, dataInside⟩
      · have some_left : (addresses records).length ≠ 0 := fun none =>
          last (List.length_eq_zero_iff.mp none)
        obtain ⟨stored, again, visited, addrs, inside⟩ :=
          ih orderlyRest wholeRest last (n := n + 1) (by omega)
        rw [if_neg (by omega), again]
        refine ⟨_, rfl, prepend visited, by rw [← addrs], ?_⟩
        intro a member
        rcases List.mem_append.mp member with here | later
        · exact dataInside a here
        · exact inside a later
    · have isAddresses : addresses (recordAt m start i :: records) = addresses records := by
        rw [addresses_cons, if_neg address]
      have isBytes : addressBytes m (recordAt m start i :: records) = addressBytes m records := by
        rw [addressBytes, isAddresses, addressBytes]
      rw [isAddresses] at count more
      unfold Whole at whole
      rw [isAddresses] at whole
      rw [if_pos (orderly.expected more)] at ih
      obtain ⟨stored, again, visited, addrs, inside⟩ := ih orderlyRest whole more count
      rw [if_neg address, again, isBytes]
      refine ⟨_, rfl, prepend visited, addrs, ?_⟩
      intro a member
      rcases List.mem_append.mp member with here | later
      · exact headInside a here
      · exact inside a later

theorem secondPass_first {stored : Stored}
    (again : secondPass m naddrs (nan + 1) start n = some stored) :
    ∃ i rest, stored.visited = recordAt m start i :: rest := by
  rw [secondPass] at again
  obtain ⟨⟨name, i⟩, _, again⟩ := Option.bind_eq_some_iff.mp again
  dsimp only at again
  split at again
  · split at again
    · obtain rfl := Option.some.inj again
      exact ⟨i, [], rfl⟩
    · obtain ⟨later, _, rfl⟩ := Option.map_eq_some_iff.mp again
      exact ⟨i, later.visited, rfl⟩
  · obtain ⟨later, _, rfl⟩ := Option.map_eq_some_iff.mp again
    exact ⟨i, later.visited, rfl⟩

/-- The passes agree on where the answers are only when these are in order. -/
theorem Checked.orderly (checked : Checked m nan start records)
    (count : n + (addresses records).length = naddrs) {stored : Stored}
    (again : secondPass m naddrs nan start n = some stored) (visited : stored.visited <+: records) :
    Orderly records := by
  induction checked generalizing n stored with
  | done => exact List.Pairwise.nil
  | @answer nan start i records name skip head data rest ih =>
    obtain ⟨reads, skipped, _⟩ := skip
    by_cases none : addresses records = []
    · exact Orderly.of_none none
    · have some_left : (addresses records).length ≠ 0 := fun empty =>
        none (List.length_eq_zero_iff.mp empty)
      rw [addresses_cons] at count
      rw [secondPass, skipped] at again
      dsimp only [Option.bind] at again
      -- in either branch the second pass goes on behind the answer
      obtain ⟨n', later, more, behind, countLater⟩ : ∃ n' later,
          secondPass m naddrs nan (i + anSizeof + (recordAt m start i).len) n' = some later ∧
          stored.visited = recordAt m start i :: later.visited ∧
          n' + (addresses records).length = naddrs := by
        by_cases address : (recordAt m start i).qtype = resolveA
        · rw [if_pos address, List.length_cons] at count
          rw [if_pos address, if_neg (by omega)] at again
          obtain ⟨later, more, rfl⟩ := Option.map_eq_some_iff.mp again
          exact ⟨n + 1, later, more, rfl, by omega⟩
        · rw [if_neg address] at count again
          obtain ⟨later, more, rfl⟩ := Option.map_eq_some_iff.mp again
          exact ⟨n, later, more, rfl, count⟩
      rw [behind, List.cons_prefix_cons] at visited
      by_cases known : (recordAt m start i).Expected
      · rw [if_pos known] at ih
        exact List.pairwise_cons.mpr ⟨fun _ _ _ => known, ih countLater more visited.2⟩
      · rw [if_neg known] at rest
        cases rest with
        | done => exact (none rfl).elim
        | answer =>
          obtain ⟨j, others, first⟩ := secondPass_first more
          rw [first, List.cons_prefix_cons] at visited
          have same := congrArg Record.start visited.2.1
          have moved : i + anSizeof + (recordAt m start i).len = i := same
          unfold anSizeof at moved
          omega

end Passes

/-- The second pass goes over the same answers up to the last address, stores exactly the addresses
that the first pass has counted, each from four bytes of data in the response, and reads nothing
else. -/
def PassesAgree (m : Message) (nan ans : Nat) (found : Found) : Prop :=
  ∃ stored, secondPass m found.naddrs nan ans 0 = some stored ∧ stored.visited <+: found.visited ∧
    stored.addrs = addressBytes m found.visited ∧ stored.addrs.length = found.naddrs ∧
    (∀ a ∈ stored.reads, a < m.last) ∧
    ∀ r ∈ addresses found.visited, 4 ≤ r.len ∧ r.an + anSizeof + r.len ≤ m.last

theorem Checked.data {m : Message} {nan start : Nat} {records : List Record}
    (checked : Checked m nan start records) :
    ∀ r ∈ addresses records, r.an + anSizeof + r.len ≤ m.last := by
  induction checked with
  | done => exact fun r member => (List.not_mem_nil member).elim
  | answer _ _ _ data _ ih =>
    intro r member
    rw [addresses_cons] at member
    split at member
    · rename_i address
      rcases List.mem_cons.mp member with rfl | later
      · exact data address
      · exact ih r later
    · exact ih r member

/-- A response to a question for `a`, with an answer of the private type 0xff01 in front of an address;
its header counts three answers. -/
def privateAnswer : Message :=
  .of [0, 1, 0x81, 0x80, 0, 1, 0, 3, 0, 0, 0, 0, 1, 0x61, 0, 0, 1, 0, 1,
    0xc0, 12, 0xff, 1, 0, 1, 0, 0, 0, 60, 0, 6, 0, 4, 127, 0, 0, 1,
    0xc0, 12, 0, 1, 0, 1, 0, 0, 0, 60, 0, 4, 127, 0, 0, 2]

/-- A response with an alias and two addresses. -/
def twoAddresses : Message :=
  .of [0, 1, 0x81, 0x80, 0, 1, 0, 3, 0, 0, 0, 0, 1, 0x61, 0, 0, 1, 0, 1,
    0xc0, 12, 0, 5, 0, 1, 0, 0, 0, 60, 0, 3, 1, 0x62, 0,
    0xc0, 31, 0, 1, 0, 1, 0, 0, 0, 60, 0, 4, 127, 0, 0, 1,
    0xc0, 31, 0, 1, 0, 1, 0, 0, 0, 60, 0, 4, 127, 0, 0, 2]

end NgxFormal.Core.Resolver
