import NgxFormal.Basic
import NgxFormal.Lib.Bytes

/-! `ngx_hash_init` and `ngx_hash_find` on 64-bit words. The table is one byte area: its
addresses, the `u_short` cursors and the stores are modelled as the source computes them. -/

namespace NgxFormal.Core.Hash

open Lib

abbrev Memory := Nat → UInt8

def uShort (n : Nat) : Nat := n % 65536

/-- `ngx_align` and `ngx_align_ptr` for a power of two `a`. -/
def ngxAlign (d a : Nat) : Nat := (d + (a - 1)) / a * a

/-- `ngx_hash(key, c)` in `ngx_uint_t`. -/
def ngxHash (key : Nat) (c : UInt8) : Nat := (key * 31 + c.toNat) % 2 ^ 64

def ngxHashKey (data : List UInt8) : Nat := data.foldl ngxHash 0

/-- `ngx_hash_key_t`; `null` is a key whose `key.data` is `NULL`. -/
structure HashKey where
  key : List UInt8
  null : Bool
  keyHash : Nat
  value : Nat
  deriving DecidableEq, Repr

/-- The fields of `ngx_hash_init_t` that the layout depends on. -/
structure HashInit where
  maxSize : Nat
  bucketSize : Nat
  deriving DecidableEq, Repr

/-- `NGX_HASH_ELT_SIZE` -/
def eltSize (name : HashKey) : Nat := 8 + ngxAlign (name.key.length + 2) 8

/-- The names that the loops do not `continue` over. -/
def present (names : List HashKey) : List HashKey := names.filter fun name => !name.null

/-- One attempt of the size search: `test[key]` grows as an `u_short` and must not exceed
`(u_short) bucket_size`. -/
def fill (size bucketSize : Nat) : List HashKey → (Nat → Nat) → Bool
  | [], _ => true
  | name :: rest, test =>
    let key := name.keyHash % size
    let sum := uShort (test key + eltSize name)
    if uShort bucketSize < sum then false
    else fill size bucketSize rest fun i => if i = key then sum else test i

/-- `for (size = start; size < max_size; size++)`, with the number of sizes left. -/
def findSize (bucketSize : Nat) (names : List HashKey) : Nat → Nat → Option Nat
  | 0, _ => none
  | left + 1, size =>
    if fill size bucketSize (present names) (fun _ => 0) then some size
    else findSize bucketSize names left (size + 1)

/-- `bucket_size = hinit->bucket_size - sizeof(void *)` -/
def innerSize (hinit : HashInit) : Nat := (hinit.bucketSize + (2 ^ 64 - 8)) % 2 ^ 64

def startSize (hinit : HashInit) (names : List HashKey) : Nat :=
  let start := names.length / (innerSize hinit / 16)
  let start := if start = 0 then 1 else start
  if 10000 < hinit.maxSize ∧ 0 < names.length ∧ hinit.maxSize / names.length < 100 then
    hinit.maxSize - 1000
  else start

/-- The sums over one bucket that start from `sizeof(void *)`, again in `u_short`. -/
def bucketSum (size : Nat) : List HashKey → Nat → Nat → Nat
  | [], _, sum => sum
  | name :: rest, i, sum =>
    bucketSum size rest i
      (if name.keyHash % size = i then uShort (sum + eltSize name) else sum)

/-- `test[i]` once it is aligned; an empty bucket takes no room in `elts`. -/
def bucketArea (cacheline size : Nat) (names : List HashKey) (i : Nat) : Nat :=
  let test := bucketSum size (present names) i 8
  if test = 8 then 0 else uShort (ngxAlign test cacheline)

/-- `len` of the `elts` allocation, or the offset of bucket `count` in it. -/
def areaBelow (cacheline size : Nat) (names : List HashKey) : Nat → Nat
  | 0 => 0
  | count + 1 => areaBelow cacheline size names count + bucketArea cacheline size names count

/-- `buckets[i]`, with 0 for `NULL`; `elts` is what `ngx_palloc` returned. -/
def bucketAddr (cacheline elts size : Nat) (names : List HashKey) (i : Nat) : Nat :=
  if bucketSum size (present names) i 8 = 8 then 0
  else ngxAlign elts cacheline + areaBelow cacheline size names i

/-- The bytes of an `ngx_hash_elt_t`: the value, the `u_short` length and the lowered name. -/
def eltBytes (name : HashKey) : List UInt8 :=
  leBytes 8 name.value ++ (leBytes 2 (uShort name.key.length) ++ name.key.map ngxTolower)

/-- An element store and the bucket it is meant for. -/
structure EltWrite where
  bucket : Nat
  write : Write
  deriving DecidableEq, Repr

/-- The third loop over the names: `test[key]` is now the write cursor of the bucket. -/
def eltWrites (buckets : Nat → Nat) (size : Nat) :
    List HashKey → (Nat → Nat) → List EltWrite
  | [], _ => []
  | name :: rest, test =>
    let key := name.keyHash % size
    ⟨key, ⟨buckets key + test key, eltBytes name⟩⟩ ::
      eltWrites buckets size rest fun i =>
        if i = key then uShort (test key + eltSize name) else test i

/-- The cursors behind the last element. -/
def cursors (size : Nat) : List HashKey → (Nat → Nat) → Nat → Nat
  | [], test => test
  | name :: rest, test =>
    cursors size rest fun i =>
      if i = name.keyHash % size then uShort (test i + eltSize name) else test i

/-- The final `elt->value = NULL` of every bucket in use. -/
def sentinelWrites (buckets : Nat → Nat) (test : Nat → Nat) (size : Nat) : List EltWrite :=
  ((List.range size).filter fun i => buckets i ≠ 0).map fun i =>
    ⟨i, ⟨buckets i + test i, leBytes 8 0⟩⟩

/-- `hinit->hash`, with the stores into `elts` in their order and the memory behind them. -/
structure HashTable where
  size : Nat
  buckets : Nat → Nat
  writes : List EltWrite
  memory : Memory

/-- Everything behind the label `found`. -/
def buildTable (cacheline elts : Nat) (memory : Memory) (names : List HashKey) (size : Nat) :
    HashTable :=
  let buckets := bucketAddr cacheline elts size names
  let writes := eltWrites buckets size (present names) (fun _ => 0) ++
    sentinelWrites buckets (cursors size (present names) fun _ => 0) size
  { size := size
    buckets := buckets
    writes := writes
    memory := storeAll memory (writes.map EltWrite.write) }

/-- `none` is `NGX_ERROR`, or the division by a `bucket_size` below two pointers. -/
def ngxHashInit (cacheline elts : Nat) (memory : Memory) (hinit : HashInit)
    (names : List HashKey) : Option HashTable :=
  if names.any fun name => hinit.bucketSize < eltSize name + 8 then none
  else if innerSize hinit / 16 = 0 then none
  else
    let start := startSize hinit names
    (findSize (innerSize hinit) names (hinit.maxSize - start) start).map
      (buildTable cacheline elts memory names)

/-- The element walk of `ngx_hash_find`; `none` if the fuel is spent before it ends. -/
def findLoop (memory : Memory) (name : List UInt8) : Nat → Nat → Option Nat
  | 0, _ => none
  | fuel + 1, elt =>
    let value := leValue (readBytes memory elt 8)
    if value = 0 then some 0
    else
      let len := leValue (readBytes memory (elt + 8) 2)
      if name.length = len ∧ readBytes memory (elt + 10) len = name then some value
      else findLoop memory name fuel (ngxAlign (elt + 10 + len) 8)

/-- The result is the value, with 0 for `NULL`. -/
def ngxHashFind (table : HashTable) (fuel key : Nat) (name : List UInt8) : Option Nat :=
  let elt := table.buckets (key % table.size)
  if elt = 0 then some 0 else findLoop table.memory name fuel elt

end NgxFormal.Core.Hash
