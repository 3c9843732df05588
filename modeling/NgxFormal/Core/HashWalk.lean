import NgxFormal.Core.Hash

/-! The byte layout of a hash: `u_short` sums against true sums, and where the stores go. -/

namespace NgxFormal.Core.Hash

open Lib

/-- The bytes that the elements of bucket `i` really take. -/
def trueSum (size : Nat) (names : List HashKey) (i : Nat) : Nat :=
  ((names.filter fun name => name.keyHash % size = i).map eltSize).sum

variable {size : Nat}

@[simp] theorem trueSum_nil (i : Nat) : trueSum size [] i = 0 := rfl

theorem trueSum_cons (name : HashKey) (rest : List HashKey) (i : Nat) :
    trueSum size (name :: rest) i =
      (if name.keyHash % size = i then eltSize name else 0) + trueSum size rest i := by
  rw [trueSum, List.filter_cons]
  by_cases same : name.keyHash % size = i
  · simp [same, trueSum]
  · simp [same, trueSum]

theorem trueSum_append (left right : List HashKey) (i : Nat) :
    trueSum size (left ++ right) i = trueSum size left i + trueSum size right i := by
  rw [trueSum, List.filter_append, List.map_append, List.sum_append]
  rfl

theorem trueSum_snoc (before : List HashKey) (name : HashKey) (i : Nat)
    (same : name.keyHash % size = i) :
    trueSum size (before ++ [name]) i = trueSum size before i + eltSize name := by
  rw [trueSum_append, trueSum_cons, if_pos same, trueSum_nil, Nat.add_zero]

theorem eltSize_dvd (name : HashKey) : 8 ∣ eltSize name :=
  Nat.dvd_add (Nat.dvd_refl 8) ⟨_, Nat.mul_comm _ _⟩

theorem eltSize_bounds (name : HashKey) :
    name.key.length + 10 ≤ eltSize name ∧ eltSize name ≤ name.key.length + 17 := by
  rw [eltSize, ngxAlign]
  omega

theorem trueSum_dvd (names : List HashKey) (i : Nat) : 8 ∣ trueSum size names i := by
  induction names with
  | nil => exact Nat.dvd_zero 8
  | cons name rest ih =>
    rw [trueSum_cons]
    apply Nat.dvd_add _ ih
    split
    · exact eltSize_dvd name
    · exact Nat.dvd_zero 8

theorem eltBytes_length (name : HashKey) :
    (eltBytes name).length = name.key.length + 10 := by
  rw [eltBytes, List.length_append, List.length_append, leBytes_length, leBytes_length,
    List.length_map]
  omega

theorem bucketSum_eq (names : List HashKey) (i sum : Nat) (small : sum < 65536) :
    bucketSum size names i sum = (sum + trueSum size names i) % 65536 := by
  induction names generalizing sum with
  | nil =>
    rw [bucketSum, trueSum_nil, Nat.add_zero, Nat.mod_eq_of_lt small]
  | cons name rest ih =>
    rw [bucketSum, trueSum_cons]
    by_cases same : name.keyHash % size = i
    · rw [if_pos same, if_pos same, uShort, ih _ (Nat.mod_lt _ (by decide))]
      omega
    · rw [if_neg same, if_neg same, ih _ small, Nat.zero_add]

theorem cursors_eq (names : List HashKey) (test : Nat → Nat) (i : Nat)
    (small : test i < 65536) :
    cursors size names test i = (test i + trueSum size names i) % 65536 := by
  induction names generalizing test with
  | nil =>
    rw [cursors, trueSum_nil, Nat.add_zero, Nat.mod_eq_of_lt small]
  | cons name rest ih =>
    rw [cursors, trueSum_cons]
    by_cases same : i = name.keyHash % size
    · rw [ih _ (by rw [if_pos same]; exact Nat.mod_lt _ (by decide)), if_pos same,
        if_pos same.symm, uShort]
      omega
    · rw [ih _ (by rw [if_neg same]; exact small), if_neg same, if_neg (Ne.symm same),
        Nat.zero_add]

theorem cursors_zero (names : List HashKey) (i : Nat) :
    cursors size names (fun _ => 0) i = trueSum size names i % 65536 := by
  rw [cursors_eq names (fun _ => 0) i (by decide), Nat.zero_add]

theorem cursor_step (test : Nat → Nat) (name : HashKey) :
    (fun i => if i = name.keyHash % size then
        uShort (test (name.keyHash % size) + eltSize name) else test i) =
      fun i => if i = name.keyHash % size then uShort (test i + eltSize name) else test i := by
  funext i
  by_cases same : i = name.keyHash % size
  · rw [if_pos same, if_pos same, same]
  · rw [if_neg same, if_neg same]

theorem eltWrites_append (buckets : Nat → Nat) (left right : List HashKey)
    (test : Nat → Nat) :
    eltWrites buckets size (left ++ right) test =
      eltWrites buckets size left test ++
        eltWrites buckets size right (cursors size left test) := by
  induction left generalizing test with
  | nil => rfl
  | cons name rest ih =>
    rw [List.cons_append, eltWrites, eltWrites, List.cons_append, ih, cursors, cursor_step]

/-- The store of one name: behind everything that its bucket already holds, modulo `2^16`. -/
theorem eltWrites_split (buckets : Nat → Nat) (before : List HashKey) (name : HashKey)
    (after : List HashKey) :
    eltWrites buckets size (before ++ name :: after) (fun _ => 0) =
      eltWrites buckets size before (fun _ => 0) ++
        ⟨name.keyHash % size, ⟨buckets (name.keyHash % size) +
          trueSum size before (name.keyHash % size) % 65536, eltBytes name⟩⟩ ::
        eltWrites buckets size after (cursors size (before ++ [name]) fun _ => 0) := by
  have tail : cursors size (before ++ [name]) (fun _ => 0) = fun i =>
      if i = name.keyHash % size then
        uShort (cursors size before (fun _ => 0) i + eltSize name)
      else cursors size before (fun _ => 0) i := by
    funext i
    rw [cursors_zero, trueSum_append, trueSum_cons, trueSum_nil, cursors_zero]
    by_cases same : i = name.keyHash % size
    · rw [if_pos same.symm, if_pos same, uShort]
      omega
    · rw [if_neg (Ne.symm same), if_neg same, Nat.add_zero]
  rw [eltWrites_append, eltWrites, cursor_step, ← tail, cursors_zero]

theorem mem_eltWrites (buckets : Nat → Nat) (names : List HashKey) (test : Nat → Nat)
    (store : EltWrite) :
    store ∈ eltWrites buckets size names test ↔
      ∃ before name after, names = before ++ name :: after ∧
        store = ⟨name.keyHash % size, ⟨buckets (name.keyHash % size) +
          cursors size before test (name.keyHash % size), eltBytes name⟩⟩ := by
  induction names generalizing test with
  | nil => simp [eltWrites]
  | cons head rest ih =>
    rw [eltWrites, List.mem_cons, ih]
    constructor
    · rintro (rfl | ⟨before, name, after, rfl, rfl⟩)
      · exact ⟨[], head, rest, rfl, rfl⟩
      · exact ⟨head :: before, name, after, rfl, by rw [cursors, cursor_step]⟩
    · rintro ⟨before, name, after, split, rfl⟩
      cases before with
      | nil =>
        rw [List.nil_append, List.cons.injEq] at split
        exact Or.inl (by rw [split.1]; rfl)
      | cons first before =>
        rw [List.cons_append, List.cons.injEq] at split
        refine Or.inr ⟨before, name, after, split.2, ?_⟩
        rw [split.1, cursor_step, cursors]

theorem fill_iff (bucketSize : Nat) (names : List HashKey) (test : Nat → Nat) :
    fill size bucketSize names test = true ↔
      ∀ before name after, names = before ++ name :: after →
        (test (name.keyHash % size) +
          trueSum size (before ++ [name]) (name.keyHash % size)) % 65536 ≤
            uShort bucketSize := by
  induction names generalizing test with
  | nil => simp [fill]
  | cons head rest ih =>
    have headSum : trueSum size ([] ++ [head]) (head.keyHash % size) = eltSize head := by
      rw [List.nil_append, trueSum_cons, if_pos rfl, trueSum_nil, Nat.add_zero]
    -- moving the head from the sum into the counter of its bucket
    have moved (before : List HashKey) (name : HashKey) :
        ((if name.keyHash % size = head.keyHash % size then
            uShort (test (head.keyHash % size) + eltSize head)
          else test (name.keyHash % size)) +
            trueSum size (before ++ [name]) (name.keyHash % size)) % 65536 =
          (test (name.keyHash % size) +
            trueSum size (head :: before ++ [name]) (name.keyHash % size)) % 65536 := by
      rw [List.cons_append, trueSum_cons]
      by_cases same : name.keyHash % size = head.keyHash % size
      · rw [if_pos same, if_pos same.symm, uShort, same]
        omega
      · rw [if_neg same, if_neg (Ne.symm same), Nat.zero_add]
    rw [fill]
    by_cases exceeds : uShort bucketSize < uShort (test (head.keyHash % size) + eltSize head)
    · simp only [exceeds, if_true, Bool.false_eq_true, false_iff]
      intro all
      have first := all [] head rest rfl
      rw [headSum] at first
      exact absurd first (Nat.not_le.mpr exceeds)
    · simp only [exceeds, if_false]
      rw [ih]
      simp only [moved]
      constructor
      · intro all before name after split
        cases before with
        | nil =>
          rw [List.nil_append, List.cons.injEq] at split
          rw [← split.1, headSum]
          exact Nat.not_lt.mp exceeds
        | cons first before =>
          rw [List.cons_append, List.cons.injEq] at split
          rw [← split.1]
          exact all before name after split.2
      · intro all before name after split
        exact all (head :: before) name after (by rw [split]; rfl)

/-- All stores into `elts`, in their order. -/
def tableWrites (buckets : Nat → Nat) (size : Nat) (names : List HashKey) : List EltWrite :=
  eltWrites buckets size names (fun _ => 0) ++
    sentinelWrites buckets (cursors size names fun _ => 0) size

theorem mem_sentinelWrites (buckets test : Nat → Nat) (store : EltWrite) :
    store ∈ sentinelWrites buckets test size ↔
      ∃ i < size, buckets i ≠ 0 ∧ store = ⟨i, ⟨buckets i + test i, leBytes 8 0⟩⟩ := by
  simp only [sentinelWrites, List.mem_map, List.mem_filter, List.mem_range, ne_eq,
    decide_eq_true_eq]
  constructor
  · rintro ⟨i, ⟨index, used⟩, rfl⟩
    exact ⟨i, index, used, rfl⟩
  · rintro ⟨i, index, used, rfl⟩
    exact ⟨i, ⟨index, used⟩, rfl⟩

theorem mem_tableWrites (buckets : Nat → Nat) (names : List HashKey) (store : EltWrite) :
    store ∈ tableWrites buckets size names ↔
      (∃ before name after, names = before ++ name :: after ∧
        store = ⟨name.keyHash % size, ⟨buckets (name.keyHash % size) +
          trueSum size before (name.keyHash % size) % 65536, eltBytes name⟩⟩) ∨
      ∃ i < size, buckets i ≠ 0 ∧
        store = ⟨i, ⟨buckets i + trueSum size names i % 65536, leBytes 8 0⟩⟩ := by
  rw [tableWrites, List.mem_append, mem_eltWrites, mem_sentinelWrites]
  simp only [cursors_zero]

end NgxFormal.Core.Hash

/-! What `ngx_hash_find` reads back from a bucket behind all the stores. -/

namespace NgxFormal.Core.Hash

open Lib

theorem le_ngxAlign (d a : Nat) (pos : 0 < a) : d ≤ ngxAlign d a := by
  have division := Nat.div_add_mod (d + (a - 1)) a
  have remainder := Nat.mod_lt (d + (a - 1)) pos
  rw [ngxAlign, Nat.mul_comm]
  omega

theorem ngxAlign_lt (d a : Nat) (pos : 0 < a) : ngxAlign d a < d + a := by
  have division := Nat.div_add_mod (d + (a - 1)) a
  rw [ngxAlign, Nat.mul_comm]
  omega

theorem dvd_ngxAlign (d a : Nat) : a ∣ ngxAlign d a := Nat.dvd_mul_left a _

theorem ngxAlign_elt (elt : Nat) (name : HashKey) (aligned : 8 ∣ elt) :
    ngxAlign (elt + 10 + name.key.length) 8 = elt + eltSize name := by
  rw [eltSize, ngxAlign, ngxAlign]
  omega

/-- The value a bucket should give for a string. -/
def answer (names : List HashKey) (query : List UInt8) : Nat :=
  match names.find? fun name => name.key = query with
  | some name => name.value
  | none => 0

/-- A bucket whose cursor stands at zero in front of `post` and does not wrap behind it, and
which no store of another bucket touches. -/
structure Walkable (buckets : Nat → Nat) (size k : Nat) (pre post : List HashKey) : Prop where
  inUse : buckets k ≠ 0
  index : k < size
  aligned : 8 ∣ buckets k
  restart : trueSum size pre k % 65536 = 0
  fits : trueSum size post k < 65536
  apart : ∀ left ∈ tableWrites buckets size (pre ++ post),
    ∀ right ∈ tableWrites buckets size (pre ++ post),
      left.bucket ≠ right.bucket → Apart left.write right.write

section Walk

variable {buckets : Nat → Nat} {size k : Nat} {pre post mid rest : List HashKey}
  {name : HashKey}

theorem trueSum_middle (same : name.keyHash % size = k) :
    trueSum size (mid ++ name :: rest) k =
      trueSum size mid k + eltSize name + trueSum size rest k := by
  rw [trueSum_append, trueSum_cons, if_pos same, Nat.add_assoc]

theorem Walkable.decomposed (walkable : Walkable buckets size k pre post)
    (split : post = mid ++ name :: rest) (same : name.keyHash % size = k) :
    tableWrites buckets size (pre ++ post) =
      eltWrites buckets size (pre ++ mid) (fun _ => 0) ++
        ⟨k, ⟨buckets k + trueSum size mid k, eltBytes name⟩⟩ ::
        (eltWrites buckets size rest (cursors size (pre ++ mid ++ [name]) fun _ => 0) ++
          sentinelWrites buckets (cursors size (pre ++ post) fun _ => 0) size) := by
  have restart := walkable.restart
  have fits := walkable.fits
  have total := @trueSum_middle _ _ mid rest _ same
  have start : trueSum size (pre ++ mid) k % 65536 = trueSum size mid k := by
    rw [trueSum_append]
    rw [split] at fits
    omega
  rw [tableWrites, split, ← List.append_assoc, eltWrites_split, same, start,
    List.append_assoc, List.cons_append]

theorem Walkable.elt_apart (walkable : Walkable buckets size k pre post)
    (split : post = mid ++ name :: rest) (same : name.keyHash % size = k)
    {later : EltWrite}
    (member : later ∈ eltWrites buckets size rest
        (cursors size (pre ++ mid ++ [name]) fun _ => 0) ++
      sentinelWrites buckets (cursors size (pre ++ post) fun _ => 0) size) :
    Apart ⟨buckets k + trueSum size mid k, eltBytes name⟩ later.write := by
  have restart := walkable.restart
  have fits := walkable.fits
  have bounds := eltSize_bounds name
  have total := @trueSum_middle _ _ mid rest _ same
  rw [← split] at total
  have stop : (⟨buckets k + trueSum size mid k, eltBytes name⟩ : Write).stop ≤
      buckets k + (trueSum size mid k + eltSize name) := by
    simp only [Write.stop, eltBytes_length]
    omega
  by_cases other : later.bucket = k
  · -- a later store of the same bucket lies behind the element
    left
    rcases List.mem_append.mp member with element | sentinel
    · obtain ⟨before, next, after, parts, rfl⟩ := (mem_eltWrites ..).mp element
      have inBucket : next.keyHash % size = k := other
      have tail := @trueSum_middle _ _ before after _ inBucket
      rw [← parts] at tail
      have cursor : cursors size before (cursors size (pre ++ mid ++ [name]) fun _ => 0) k =
          trueSum size mid k + eltSize name + trueSum size before k := by
        rw [cursors_eq _ _ _ (by rw [cursors_zero]; exact Nat.mod_lt _ (by decide)),
          cursors_zero, trueSum_snoc _ _ _ same, trueSum_append]
        omega
      simp only [inBucket, cursor]
      omega
    · obtain ⟨i, _, _, rfl⟩ := (mem_sentinelWrites ..).mp sentinel
      have inBucket : i = k := other
      simp only [inBucket, cursors_zero, trueSum_append]
      omega
  · refine walkable.apart ⟨k, ⟨buckets k + trueSum size mid k, eltBytes name⟩⟩ ?_ later ?_
      (Ne.symm other)
    · rw [walkable.decomposed split same]
      exact List.mem_append_right _ List.mem_cons_self
    · rw [walkable.decomposed split same]
      exact List.mem_append_right _ (List.mem_cons_of_mem _ member)

theorem Walkable.elt_read (walkable : Walkable buckets size k pre post)
    (split : post = mid ++ name :: rest) (same : name.keyHash % size = k) (memory : Memory) :
    readBytes (storeAll memory ((tableWrites buckets size (pre ++ post)).map EltWrite.write))
      (buckets k + trueSum size mid k) (name.key.length + 10) = eltBytes name := by
  rw [walkable.decomposed split same, List.map_append, List.map_cons, ← eltBytes_length name]
  apply readBytes_storeAll _ _ _ ⟨buckets k + trueSum size mid k, eltBytes name⟩
  intro later member
  obtain ⟨store, inLater, rfl⟩ := List.mem_map.mp member
  exact walkable.elt_apart split same inLater

theorem Walkable.sentinel_read (walkable : Walkable buckets size k pre post)
    (memory : Memory) :
    readBytes (storeAll memory ((tableWrites buckets size (pre ++ post)).map EltWrite.write))
      (buckets k + trueSum size post k) 8 = leBytes 8 0 := by
  have restart := walkable.restart
  have fits := walkable.fits
  have cursor : cursors size (pre ++ post) (fun _ => 0) k = trueSum size post k := by
    rw [cursors_zero, trueSum_append]
    omega
  have used : k ∈ (List.range size).filter fun i => buckets i ≠ 0 :=
    List.mem_filter.mpr ⟨List.mem_range.mpr walkable.index, by simpa using walkable.inUse⟩
  obtain ⟨before, after, parts⟩ := List.append_of_mem used
  have nodup : (before ++ k :: after).Nodup := by
    rw [← parts]
    exact List.nodup_range.filter _
  have decomposed : tableWrites buckets size (pre ++ post) =
      (eltWrites buckets size (pre ++ post) (fun _ => 0) ++ before.map fun i =>
        ⟨i, ⟨buckets i + cursors size (pre ++ post) (fun _ => 0) i, leBytes 8 0⟩⟩) ++
      ⟨k, ⟨buckets k + trueSum size post k, leBytes 8 0⟩⟩ :: after.map fun i =>
        ⟨i, ⟨buckets i + cursors size (pre ++ post) (fun _ => 0) i, leBytes 8 0⟩⟩ := by
    rw [tableWrites, sentinelWrites, parts, List.map_append, List.map_cons, cursor,
      List.append_assoc]
  rw [decomposed, List.map_append, List.map_cons]
  have length : (leBytes 8 0).length = 8 := leBytes_length 8 0
  nth_rewrite 2 [← length]
  apply readBytes_storeAll _ _ _ ⟨buckets k + trueSum size post k, leBytes 8 0⟩
  intro later member
  obtain ⟨store, inLater, rfl⟩ := List.mem_map.mp member
  refine walkable.apart ⟨k, ⟨buckets k + trueSum size post k, leBytes 8 0⟩⟩ ?_ store ?_ ?_
  · rw [decomposed]
    exact List.mem_append_right _ List.mem_cons_self
  · rw [decomposed]
    exact List.mem_append_right _ (List.mem_cons_of_mem _ inLater)
  · -- every bucket gets its sentinel once
    obtain ⟨i, inAfter, rfl⟩ := List.mem_map.mp inLater
    rintro rfl
    exact (List.nodup_cons.mp (List.nodup_append.mp nodup).2.1).1 inAfter

theorem Walkable.elt_fields (walkable : Walkable buckets size k pre post)
    (split : post = mid ++ name :: rest) (same : name.keyHash % size = k) (memory : Memory) :
    let stored := storeAll memory ((tableWrites buckets size (pre ++ post)).map EltWrite.write)
    let elt := buckets k + trueSum size mid k
    readBytes stored elt 8 = leBytes 8 name.value ∧
      readBytes stored (elt + 8) 2 = leBytes 2 (uShort name.key.length) ∧
      readBytes stored (elt + 10) name.key.length = name.key.map ngxTolower := by
  intro stored elt
  have block : readBytes stored elt (name.key.length + 10) = eltBytes name :=
    walkable.elt_read split same memory
  have parts : name.key.length + 10 = 8 + (2 + name.key.length) := by omega
  rw [parts, readBytes_add, readBytes_add, eltBytes] at block
  obtain ⟨value, tail⟩ := List.append_inj block (by rw [readBytes_length, leBytes_length])
  obtain ⟨length, text⟩ := List.append_inj tail (by rw [readBytes_length, leBytes_length])
  exact ⟨value, length, text⟩

/-- What the lookup needs of a stored name. -/
structure Storable (name : HashKey) : Prop where
  lower : name.key.map ngxTolower = name.key
  short : name.key.length < 65536
  value_pos : 0 < name.value
  value_fits : name.value < 2 ^ 64

theorem answer_cons (name : HashKey) (rest : List HashKey) (query : List UInt8) :
    answer (name :: rest) query = if name.key = query then name.value else answer rest query := by
  rw [answer, List.find?_cons]
  by_cases hit : name.key = query
  · simp [hit]
  · simp [hit, answer]

theorem Walkable.findLoop_eq (walkable : Walkable buckets size k pre post)
    (storable : ∀ name ∈ post, Storable name) (memory : Memory) (query : List UInt8)
    (fuel : Nat) (split : post = mid ++ rest) (enough : rest.length < fuel) :
    findLoop (storeAll memory ((tableWrites buckets size (pre ++ post)).map EltWrite.write))
      query fuel (buckets k + trueSum size mid k) =
      some (answer (rest.filter fun name => name.keyHash % size = k) query) := by
  induction rest generalizing mid fuel with
  | nil =>
    obtain ⟨fuel, rfl⟩ : ∃ left, fuel = left + 1 := ⟨fuel - 1, by simp at enough; omega⟩
    rw [List.append_nil] at split
    rw [findLoop, ← split, walkable.sentinel_read memory]
    rfl
  | cons name rest ih =>
    obtain ⟨fuel, rfl⟩ : ∃ left, fuel = left + 1 := ⟨fuel - 1, by omega⟩
    rw [List.length_cons] at enough
    have moved : post = (mid ++ [name]) ++ rest := by rw [split]; simp
    by_cases same : name.keyHash % size = k
    · obtain ⟨value, length, text⟩ := walkable.elt_fields split same memory
      have stored : Storable name := storable name (by rw [split]; simp)
      have aligned : 8 ∣ buckets k + trueSum size mid k :=
        Nat.dvd_add walkable.aligned (trueSum_dvd mid k)
      have readValue := leValue_leBytes 8 name.value (by simpa using stored.value_fits)
      have readLength : leValue (leBytes 2 (uShort name.key.length)) = name.key.length := by
        rw [uShort, Nat.mod_eq_of_lt stored.short]
        exact leValue_leBytes 2 _ stored.short
      rw [List.filter_cons_of_pos (by simpa using same), answer_cons, findLoop]
      simp only [value, length, readValue, readLength, text, stored.lower,
        Nat.pos_iff_ne_zero.mp stored.value_pos, if_false]
      by_cases hit : name.key = query
      · rw [if_pos ⟨by rw [hit], hit⟩, if_pos hit]
      · rw [if_neg (fun both => hit both.2), if_neg hit, ngxAlign_elt _ _ aligned,
          Nat.add_assoc, ← trueSum_snoc mid name k same]
        exact ih fuel moved (by omega)
    · have kept : trueSum size (mid ++ [name]) k = trueSum size mid k := by
        rw [trueSum_append, trueSum_cons, if_neg same]
        rfl
      rw [List.filter_cons_of_neg (by simpa using same), ← kept]
      exact ih (fuel + 1) moved (by omega)

end Walk

end NgxFormal.Core.Hash
