import NgxFormal.Core.HashCorrect
import NgxFormal.Lib.Runs

/-! The whole of `ngx_hash_init`: the size it settles on, and when its table is right. -/

namespace NgxFormal.Core.Hash

open Lib

/-- The first size of the search that passes the 16-bit test. -/
structure Chosen (hinit : HashInit) (names : List HashKey) (size : Nat) : Prop where
  from_start : startSize hinit names ≤ size
  below_max : size < hinit.maxSize
  passes : fill size (innerSize hinit) (present names) (fun _ => 0) = true
  first : ∀ smaller, startSize hinit names ≤ smaller → smaller < size →
    fill smaller (innerSize hinit) (present names) (fun _ => 0) = false

theorem Chosen.unique {hinit : HashInit} {names : List HashKey} {left right : Nat}
    (inLeft : Chosen hinit names left) (inRight : Chosen hinit names right) : left = right := by
  rcases Nat.lt_trichotomy left right with below | same | above
  · have fails := inRight.first left inLeft.from_start below
    rw [inLeft.passes] at fails
    cases fails
  · exact same
  · have fails := inLeft.first right inRight.from_start above
    rw [inRight.passes] at fails
    cases fails

theorem findSize_some {bucketSize : Nat} {names : List HashKey} {left size found : Nat}
    (search : findSize bucketSize names left size = some found) :
    size ≤ found ∧ found < size + left ∧
      fill found bucketSize (present names) (fun _ => 0) = true ∧
      ∀ smaller, size ≤ smaller → smaller < found →
        fill smaller bucketSize (present names) (fun _ => 0) = false := by
  induction left generalizing size with
  | zero => cases search
  | succ left ih =>
    rw [findSize] at search
    by_cases passes : fill size bucketSize (present names) (fun _ => 0) = true
    · rw [if_pos passes, Option.some.injEq] at search
      subst search
      exact ⟨Nat.le_refl _, by omega, passes, fun smaller low high => by omega⟩
    · rw [if_neg passes] at search
      obtain ⟨low, high, accepted, first⟩ := ih search
      refine ⟨by omega, by omega, accepted, ?_⟩
      intro smaller above below
      rcases Nat.eq_or_lt_of_le above with rfl | later
      · simpa using passes
      · exact first smaller later below

theorem startSize_pos (hinit : HashInit) (names : List HashKey) : 0 < startSize hinit names := by
  simp only [startSize]
  split
  · omega
  · split
    · exact Nat.one_pos
    · exact Nat.pos_of_ne_zero ‹_›

theorem Admissible.present_eq {names : List HashKey} (admissible : Admissible names) :
    present names = names := by
  apply List.filter_eq_self.mpr
  intro name member
  rw [admissible.nonNull name member]
  rfl

/-- A successful `ngx_hash_init` built its table for the chosen size. -/
theorem ngxHashInit_some {cacheline elts : Nat} {memory : Memory} {hinit : HashInit}
    {names : List HashKey} {table : HashTable}
    (built : ngxHashInit cacheline elts memory hinit names = some table) :
    ∃ size, Chosen hinit names size ∧ table = buildTable cacheline elts memory names size ∧
      ∀ name ∈ names, eltSize name + 8 ≤ hinit.bucketSize := by
  rw [ngxHashInit] at built
  split at built
  · cases built
  · rename_i small
    split at built
    · cases built
    · obtain ⟨size, search, rfl⟩ := Option.map_eq_some_iff.mp built
      obtain ⟨low, high, passes, first⟩ := findSize_some search
      refine ⟨size, ⟨low, by omega, passes, first⟩, rfl, ?_⟩
      intro name member
      simp only [List.any_eq_true, decide_eq_true_eq, not_exists, not_and, Nat.not_lt] at small
      exact small name member

theorem Chosen.accepted {cacheline elts size : Nat} {hinit : HashInit}
    {names : List HashKey} (chosen : Chosen hinit names size) (word : 8 ∣ cacheline)
    (line : cacheline ∣ 65536) (placed : 0 < elts)
    (bound : hinit.bucketSize + cacheline < 65536) (admissible : Admissible names)
    (small : ∀ name ∈ names, eltSize name + 8 ≤ hinit.bucketSize) :
    Accepted cacheline elts (hinit.bucketSize - 8) size names where
  word := word
  line := line
  placed := placed
  shown := admissible.present_eq
  used := Nat.lt_of_lt_of_le (startSize_pos hinit names) chosen.from_start
  bound := by
    obtain ⟨lines, total⟩ := line
    have several : 2 ≤ lines := by
      by_contra few
      have : lines = 0 ∨ lines = 1 := by omega
      rcases this with rfl | rfl <;> omega
    have half : cacheline * 2 ≤ 65536 := by
      rw [total]
      exact Nat.mul_le_mul_left _ several
    omega
  small := fun name member => by
    have := small name member
    omega
  tested := by
    intro before name after split
    have passes := chosen.passes
    rw [admissible.present_eq, fill_iff] at passes
    have passed := passes before name after split
    have fit := small name (by rw [split]; simp)
    have inner : uShort (innerSize hinit) = hinit.bucketSize - 8 := by
      rw [innerSize, uShort]
      omega
    rwa [Nat.zero_add, inner] at passed

/-- The table is right exactly if, at the first size whose 16-bit sums pass, no bucket really
holds more than the bucket size. -/
theorem hash_correct_iff (cacheline elts : Nat) (memory : Memory) (hinit : HashInit)
    (names : List HashKey) (table : HashTable) (word : 8 ∣ cacheline)
    (line : cacheline ∣ 65536) (placed : 0 < elts)
    (bound : hinit.bucketSize < 65536 - cacheline) (admissible : Admissible names)
    (built : ngxHashInit cacheline elts memory hinit names = some table) :
    Correct cacheline elts names table ↔
      ∀ size, Chosen hinit names size → Fits (hinit.bucketSize - 8) size names := by
  obtain ⟨size, chosen, rfl, small⟩ := ngxHashInit_some built
  have accepted := chosen.accepted word line placed (by omega) admissible small
  constructor
  · intro correct other alsoChosen
    rw [alsoChosen.unique chosen]
    exact accepted.fits_of_correct admissible correct
  · intro fits
    exact accepted.correct_of_fits admissible (fits size chosen)

/-- Two short names in a bucket of 64 bytes. -/
def twoNames : List HashKey :=
  [⟨[chr 'a'], false, ngxHashKey [chr 'a'], 7⟩, ⟨[chr 'b'], false, ngxHashKey [chr 'b'], 9⟩]

theorem hash_correct_two_names :
    ∃ table, ngxHashInit 64 4100 (fun _ => 0) ⟨16, 64⟩ twoNames = some table ∧
      Correct 64 4100 twoNames table := by
  have admissible : Admissible twoNames :=
    { nonNull := by decide
      lower := by decide +kernel
      hashed := by decide
      valued := by decide
      distinct := by decide }
  have search : findSize (innerSize ⟨16, 64⟩) twoNames 15 1 = some 1 := by decide
  have built : ngxHashInit 64 4100 (fun _ => 0) ⟨16, 64⟩ twoNames =
      some (buildTable 64 4100 (fun _ => 0) twoNames 1) := by
    have start : startSize ⟨16, 64⟩ twoNames = 1 := by decide
    rw [ngxHashInit, if_neg (by decide), if_neg (by decide), start]
    exact congrArg (Option.map _) search
  refine ⟨_, built, (hash_correct_iff 64 4100 _ ⟨16, 64⟩ twoNames _ (by decide) (by decide)
    (by decide) (by decide) admissible built).mpr ?_⟩
  intro size chosen i
  have sizes : eltSize twoNames[0] = 16 ∧ eltSize twoNames[1] = 16 := by decide
  rw [twoNames, trueSum_cons, trueSum_cons, trueSum_nil]
  split <;> split <;> simp_all [twoNames]

section Wrapped

/-- Seventeen names of 4000 bytes. -/
def longKey (i : Nat) : List UInt8 := List.replicate 3999 (chr 'a') ++ [UInt8.ofNat (97 + i)]

def longNames : List HashKey :=
  (List.range 17).map fun i => ⟨longKey i, false, ngxHashKey (longKey i), 1⟩

theorem longNames_eltSize {name : HashKey} (member : name ∈ longNames) :
    eltSize name = 4016 := by
  obtain ⟨i, _, rfl⟩ := List.mem_map.mp member
  simp only [eltSize, ngxAlign, longKey, List.length_append, List.length_replicate,
    List.length_singleton]

theorem longNames_sum (front back : List HashKey) (split : longNames = front ++ back) :
    trueSum 1 front 0 = 4016 * front.length := by
  have all : ∀ name ∈ front, eltSize name = 4016 := fun name member =>
    longNames_eltSize (by rw [split]; exact List.mem_append_left _ member)
  clear split
  induction front with
  | nil => rfl
  | cons name rest ih =>
    rw [trueSum_cons, if_pos (Nat.mod_one _), all name List.mem_cons_self,
      ih fun other member => all other (List.mem_cons_of_mem _ member), List.length_cons]
    omega

theorem longNames_admissible : Admissible longNames where
  nonNull := by
    intro name member
    obtain ⟨i, _, rfl⟩ := List.mem_map.mp member
    rfl
  lower := by
    intro name member byte inKey
    obtain ⟨i, index, rfl⟩ := List.mem_map.mp member
    rcases List.mem_append.mp inKey with fill | last
    · rw [(List.mem_replicate.mp fill).2]
      decide
    · rw [List.mem_singleton.mp last]
      exact (by decide : ∀ i ∈ List.range 17,
        ngxTolower (UInt8.ofNat (97 + i)) = UInt8.ofNat (97 + i)) i index
  hashed := by
    intro name member
    obtain ⟨i, _, made⟩ := List.mem_map.mp member
    rw [← made]
  valued := by
    intro name member
    obtain ⟨i, _, made⟩ := List.mem_map.mp member
    rw [← made]
    exact (by decide : 0 < 1 ∧ 1 < 2 ^ 64)
  distinct := by
    rw [longNames, List.map_map]
    apply List.Nodup.map_on _ List.nodup_range
    intro i inI j inJ same
    have last : UInt8.ofNat (97 + i) = UInt8.ofNat (97 + j) :=
      List.head_eq_of_cons_eq (List.append_inj_right same rfl)
    exact (by decide : ∀ i ∈ List.range 17, ∀ j ∈ List.range 17,
      UInt8.ofNat (97 + i) = UInt8.ofNat (97 + j) → i = j) i inI j inJ last

/-- Sixteen of them fill a bucket of 65456 bytes, the seventeenth wraps its 16-bit sum. -/
theorem hash_wrapped_bucket :
    ∃ table, ngxHashInit 64 4096 (fun _ => 0) ⟨16, 65464⟩ longNames = some table ∧
      ¬ Correct 64 4096 longNames table := by
  have small : ∀ name ∈ longNames, eltSize name + 8 ≤ 65464 := by
    intro name member
    rw [longNames_eltSize member]
    decide
  have passes : fill 1 (innerSize ⟨16, 65464⟩) (present longNames) (fun _ => 0) = true := by
    rw [longNames_admissible.present_eq, fill_iff]
    intro before name after split
    have count : before.length + 1 ≤ 17 := by
      have total : longNames.length = 17 := by rw [longNames, List.length_map, List.length_range]
      rw [split, List.length_append, List.length_cons] at total
      omega
    rw [Nat.mod_one, longNames_sum (before ++ [name]) after (by rw [split]; simp),
      List.length_append, List.length_singleton]
    have inner : uShort (innerSize ⟨16, 65464⟩) = 65456 := by decide
    rw [inner, Nat.zero_add]
    exact (by decide : ∀ count < 18, 4016 * count % 65536 ≤ 65456) _ (by omega)
  have start : startSize ⟨16, 65464⟩ longNames = 1 := by
    rw [startSize, longNames, List.length_map, List.length_range]
    decide
  have chosen : Chosen ⟨16, 65464⟩ longNames 1 :=
    { from_start := Nat.le_of_eq start
      below_max := by decide
      passes := passes
      first := by
        intro smaller low high
        omega }
  have built : ngxHashInit 64 4096 (fun _ => 0) ⟨16, 65464⟩ longNames =
      some (buildTable 64 4096 (fun _ => 0) longNames 1) := by
    rw [ngxHashInit, if_neg, if_neg (by decide), start]
    · change (findSize _ longNames (14 + 1) 1).map _ = _
      rw [findSize, if_pos passes]
      rfl
    · simp only [List.any_eq_true, decide_eq_true_eq, not_exists, not_and, Nat.not_lt]
      exact small
  refine ⟨_, built, ?_⟩
  intro correct
  have accepted := @Chosen.accepted 64 4096 _ _ _ chosen (by decide) (by decide)
    (by decide) (by decide) longNames_admissible small
  have fits := accepted.fits_of_correct longNames_admissible correct 0
  rw [longNames_sum longNames [] (List.append_nil _).symm, longNames, List.length_map,
    List.length_range] at fits
  exact absurd fits (by decide)

end Wrapped

end NgxFormal.Core.Hash

/-! `ngx_hash_add_key`, `ngx_hash_wildcard_init`, `ngx_hash_find_wc_head` and
`ngx_hash_find_wc_tail`. -/

namespace NgxFormal.Core.Hash

open Lib Lib.Runs

def dot : UInt8 := chr '.'

def ngxHashKeyLc (data : List UInt8) : Nat :=
  data.foldl (fun key c => ngxHash key (ngxTolower c)) 0

/-- `ngx_strncmp` of strings that a NUL byte terminates. -/
def ngxStrncmp : Nat → List UInt8 → List UInt8 → Int
  | 0, _, _ => 0
  | n + 1, s1, s2 =>
    if peek s1 ≠ peek s2 then ((peek s1).toNat : Int) - (peek s2).toNat
    else if peek s1 = 0 then 0
    else ngxStrncmp n s1.tail s2.tail

/-- `'.'` sorts as a space. -/
def dnsRank (c : UInt8) : UInt8 := if c = dot then chr ' ' else c

/-- `ngx_dns_strcmp` of strings that a NUL byte terminates. -/
def ngxDnsStrcmp : List UInt8 → List UInt8 → Int
  | [], s2 =>
    let c2 := ngxTolower (peek s2)
    if c2 = 0 then 0 else 0 - ((dnsRank c2).toNat : Int)
  | c :: s1, s2 =>
    let c1 := ngxTolower c
    let c2 := ngxTolower (peek s2)
    if c1 = c2 then
      if c1 = 0 then 0 else ngxDnsStrcmp s1 s2.tail
    else ((dnsRank c1).toNat : Int) - (dnsRank c2).toNat

section Keys

/-- `ngx_hash_keys_arrays_t`; an array of a hash that is not initialised is empty. -/
structure KeysArrays where
  hsize : Nat
  keys : List HashKey
  keysHash : Nat → List (List UInt8)
  dnsWcHead : List HashKey
  dnsWcHeadHash : Nat → List (List UInt8)
  dnsWcTail : List HashKey
  dnsWcTailHash : Nat → List (List UInt8)

/-- `small` is `NGX_HASH_SMALL`. -/
def ngxHashKeysArrayInit (small : Bool) : KeysArrays where
  hsize := if small then 107 else 10007
  keys := []
  keysHash := fun _ => []
  dnsWcHead := []
  dnsWcHeadHash := fun _ => []
  dnsWcTail := []
  dnsWcTailHash := fun _ => []

inductive AddRc where
  | ok
  | busy
  | declined
  deriving DecidableEq, Repr

/-- The check for conflicts with the names of one bucket. -/
def conflicts (names : List (List UInt8)) (key : List UInt8) : Bool :=
  names.any fun name => key.length = name.length ∧ ngxStrncmp key.length key name = 0

def pushName (hash : Nat → List (List UInt8)) (k : Nat) (name : List UInt8) :
    Nat → List (List UInt8) :=
  fun i => if i = k then hash i ++ [name] else hash i

/-- Everything behind `/* exact hash */`. -/
def addExact (ha : KeysArrays) (key : List UInt8) (value : Nat) (readonly : Bool) :
    AddRc × KeysArrays :=
  let key := if readonly then key else key.map ngxTolower
  let k := ngxHashKey key % ha.hsize
  if conflicts (ha.keysHash k) key then (.busy, ha)
  else (.ok, { ha with
    keysHash := pushName ha.keysHash k key
    keys := ha.keys ++ [⟨key, false, ngxHashKey key, value⟩] })

/-- The loop that turns `*.example.com` into `com.example.` from the last byte on down to
`data[1]`; `label` are the `len` bytes that it copies at the next dot. -/
def reverseLabels : List UInt8 → List UInt8 → List UInt8 → List UInt8
  | [], label, p => p ++ label
  | c :: rest, label, p =>
    if c = dot then reverseLabels rest [] (p ++ label ++ [dot])
    else reverseLabels rest (c :: label) p

/-- The part of `wildcard:` for `*.example.com`, with `skip` 2, and `.example.com`, with
`skip` 1. A key that conflicts in the wildcard hash has been pushed by then. -/
def addHead (ha : KeysArrays) (key : List UInt8) (value skip : Nat) : AddRc × KeysArrays :=
  let name := (key.drop skip).map ngxTolower
  let k := ngxHashKey name % ha.hsize
  if skip = 1 ∧ conflicts (ha.keysHash k) name then (.busy, ha)
  else
    let ha := if skip = 1 then { ha with keysHash := pushName ha.keysHash k name } else ha
    let p := reverseLabels ((key.take skip ++ name).tail.reverse) [] []
    let ha := { ha with dnsWcHead := ha.dnsWcHead ++ [⟨p, false, 0, value⟩] }
    if conflicts (ha.dnsWcHeadHash k) name then (.busy, ha)
    else (.ok, { ha with dnsWcHeadHash := pushName ha.dnsWcHeadHash k name })

/-- The bytes that `ngx_cpystrn` leaves in an area of `src.length + 1` bytes: it stops behind
the first NUL byte. -/
def ngxCpystrn (area : Nat → UInt8) (src : List UInt8) : List UInt8 :=
  (List.range src.length).map fun i => if 0 ∈ src.take i then area i else src.getD i 0

/-- The part of `wildcard:` for `www.example.*`. -/
def addTail (area : Nat → UInt8) (ha : KeysArrays) (key : List UInt8) (value : Nat) :
    AddRc × KeysArrays :=
  let name := (key.take (key.length - 2)).map ngxTolower
  let k := ngxHashKey name % ha.hsize
  let ha := { ha with dnsWcTail := ha.dnsWcTail ++ [⟨ngxCpystrn area name, false, 0, value⟩] }
  -- `last` has been incremented, so that the dot belongs to the name
  let dotted := name ++ [key.getD (key.length - 2) 0]
  if conflicts (ha.dnsWcTailHash k) dotted then (.busy, ha)
  else (.ok, { ha with dnsWcTailHash := pushName ha.dnsWcTailHash k dotted })

/-- The first loop: the number of `*`, or `none` for `NGX_DECLINED`. -/
def countStars : List UInt8 → Nat → Option Nat
  | [], n => some n
  | c :: rest, n =>
    let n := if c = chr '*' then n + 1 else n
    if 1 < n then none
    else if c = dot ∧ peek rest = dot then none
    else countStars rest n

/-- `area` is the memory that `ngx_pnalloc` returns; it never fails here. -/
def ngxHashAddKey (area : KeysArrays → Nat → UInt8) (ha : KeysArrays) (key : List UInt8)
    (value : Nat) (wildcard readonly : Bool) : AddRc × KeysArrays :=
  if wildcard then
    match countStars key 0 with
    | none => (.declined, ha)
    | some n =>
      if 1 < key.length ∧ key.getD 0 0 = dot then addHead ha key value 1
      else if 2 < key.length ∧ key.getD 0 0 = chr '*' ∧ key.getD 1 0 = dot then
        addHead ha key value 2
      else if 2 < key.length ∧ key.getD (key.length - 2) 0 = dot ∧
          key.getD (key.length - 1) 0 = chr '*' then
        addTail (area ha) ha key value
      else if n ≠ 0 then (.declined, ha)
      else addExact ha key value readonly
  else addExact ha key value readonly

end Keys

section Init

/-- `ngx_hash_wildcard_t` -/
structure HashWildcard where
  hash : HashTable
  value : Nat

/-- The wildcard hashes that were allocated, by address. -/
abbrev Wildcards := Nat → Option HashWildcard

/-- What `ngx_hash_init` takes from its surroundings: the cache line, the addresses that
`ngx_pcalloc` and `ngx_palloc` return and what the memory behind the latter holds. -/
structure Pool where
  cacheline : Nat
  wildcard : Wildcards → Option Nat
  elts : Wildcards → Nat
  memory : Wildcards → Memory
  word : 8 ∣ cacheline
  line : cacheline ∣ 65536
  placed : ∀ heap, 0 < elts heap
  fresh : ∀ heap addr, wildcard heap = some addr → heap addr = none
  valid : ∀ heap addr, wildcard heap = some addr → 0 < addr ∧ addr < 2 ^ 64 ∧ 8 ∣ addr

/-- `ngx_hash_init` with `hinit->hash == NULL`. -/
def initNew (pool : Pool) (hinit : HashInit) (names : List HashKey) (heap : Wildcards) :
    Option (Nat × Wildcards) :=
  match ngxHashInit pool.cacheline (pool.elts heap) (pool.memory heap) hinit names,
      pool.wildcard heap with
  | some table, some addr => some (addr, Function.update heap addr (some ⟨table, 0⟩))
  | _, _ => none

/-- The first `len` bytes of a key: everything before a dot. -/
def labelOf (key : List UInt8) : List UInt8 := key.takeWhile (· ≠ dot)

/-- `len` once a dot has been counted. -/
def labelLen (key : List UInt8) : Nat :=
  if dot ∈ key then (labelOf key).length + 1 else (labelOf key).length

/-- The inner loop does not break at `next`. -/
def sameLabel (first next : HashKey) : Bool :=
  let len := labelLen first.key
  ngxStrncmp len first.key next.key = 0 ∧
    ¬(dot ∉ first.key ∧ len < next.key.length ∧ next.key.getD len 0 ≠ dot)

def nextNames (first : HashKey) (run : List HashKey) : List HashKey :=
  let len := labelLen first.key
  (if first.key.length ≠ len then [⟨first.key.drop len, false, 0, first.value⟩] else []) ++
    run.map fun name => ⟨name.key.drop ((labelOf first.key).length + 1), false, 0, name.value⟩

/-- The value of the entry in `curr_names`; `build` is the recursive call. -/
def entryValue (build : List HashKey → Wildcards → Option (Nat × Wildcards)) (first : HashKey)
    (run : List HashKey) (heap : Wildcards) : Option (Nat × Wildcards) :=
  if nextNames first run = [] then
    some (if dot ∈ first.key then first.value ||| 1 else first.value, heap)
  else
    (build (nextNames first run) heap).map fun (wdc, heap) =>
      (wdc ||| (if dot ∈ first.key then 3 else 2),
        if first.key.length = labelLen first.key then
          Function.update heap wdc ((heap wdc).map fun inner => { inner with value := first.value })
        else heap)

/-- `for (n = 0; n < nelts; n = i)`: the pairs are `names[n]` and the names up to `i`. -/
def currNames (hashKey : List UInt8 → Nat)
    (build : List HashKey → Wildcards → Option (Nat × Wildcards)) :
    List (HashKey × List HashKey) → Wildcards → Option (List HashKey × Wildcards)
  | [], heap => some ([], heap)
  | (first, run) :: rest, heap =>
    (entryValue build first run heap).bind fun (value, heap) =>
      (currNames hashKey build rest heap).map fun (curr, heap) =>
        (⟨labelOf first.key, false, hashKey (labelOf first.key), value⟩ :: curr, heap)

/-- The recursion, at most `depth` levels deep; `hashKey` is `hinit->key`. -/
def wildcardInit (pool : Pool) (hinit : HashInit) (hashKey : List UInt8 → Nat) :
    Nat → List HashKey → Wildcards → Option (Nat × Wildcards)
  | 0, _, _ => none
  | depth + 1, names, heap =>
    (currNames hashKey (wildcardInit pool hinit hashKey depth) (runs sameLabel names) heap).bind
      fun (curr, heap) => initNew pool hinit curr heap

/-- `hinit->hash` and the wildcard hashes behind it; `none` is `NGX_ERROR`. The names of a level
are shorter than those above it. -/
def ngxHashWildcardInit (pool : Pool) (hinit : HashInit) (hashKey : List UInt8 → Nat)
    (names : List HashKey) (heap : Wildcards) : Option (Nat × Wildcards) :=
  wildcardInit pool hinit hashKey ((names.map fun name => name.key.length).sum + 1) names heap

end Init

section Find

/-- `(uintptr_t) value & (uintptr_t) ~3` -/
def clearTag (value : Nat) : Nat := value / 4 * 4

/-- The loop that looks for the last dot: the start of the last label. -/
def labelStart (name : List UInt8) : Nat → Nat
  | 0 => 0
  | n + 1 => if name.getD n 0 = dot then n + 1 else labelStart name n

/-- The recursion on a host name of fewer than `depth` bytes; `fuel` is for the element walk.
`none` is a read behind a pointer that leads nowhere. -/
def findHead (heap : Wildcards) (fuel : Nat) : Nat → Nat → List UInt8 → Option Nat
  | 0, _, _ => none
  | depth + 1, hwc, name => do
      let wdc ← heap hwc
      let n := labelStart name name.length
      let value ← ngxHashFind wdc.hash fuel (ngxHashKey (name.drop n)) (name.drop n)
      if value ≠ 0 then
        if value.testBit 1 then
          if n = 0 then
            if value.testBit 0 then return 0
            else
              let inner ← heap (clearTag value)
              return inner.value
          else
            let inner ← heap (clearTag value)
            let found ← findHead heap fuel depth (clearTag value) (name.take (n - 1))
            if found ≠ 0 then return found
            else return inner.value
        else if value.testBit 0 then
          if n = 0 then return 0 else return clearTag value
        else return value
      else return wdc.value

def ngxHashFindWcHead (heap : Wildcards) (fuel hwc : Nat) (name : List UInt8) : Option Nat :=
  findHead heap fuel (name.length + 1) hwc name

/-- The same for `ngx_hash_find_wc_tail`. -/
def findTail (heap : Wildcards) (fuel : Nat) : Nat → Nat → List UInt8 → Option Nat
  | 0, _, _ => none
  | depth + 1, hwc, name => do
      let label := labelOf name
      if label.length = name.length then return 0
      else
        let wdc ← heap hwc
        let value ← ngxHashFind wdc.hash fuel (ngxHashKey label) label
        if value ≠ 0 then
          if value.testBit 1 then
            let inner ← heap (clearTag value)
            let found ← findTail heap fuel depth (clearTag value) (name.drop (label.length + 1))
            if found ≠ 0 then return found
            else return inner.value
          else return value
        else return wdc.value

def ngxHashFindWcTail (heap : Wildcards) (fuel hwc : Nat) (name : List UInt8) : Option Nat :=
  findTail heap fuel (name.length + 1) hwc name

end Find

end NgxFormal.Core.Hash
