import NgxFormal.Core.HashWalk

/-! When the table of an accepted size is laid out and searched correctly. -/

namespace NgxFormal.Core.Hash

open Lib

/-- A size that the 16-bit test of `ngx_hash_init` accepted; `room` is `bucket_size` without
its sentinel. -/
structure Accepted (cacheline elts room size : Nat) (names : List HashKey) : Prop where
  word : 8 ∣ cacheline
  line : cacheline ∣ 65536
  placed : 0 < elts
  shown : present names = names
  used : 0 < size
  bound : room + 8 + cacheline ≤ 65536
  small : ∀ name ∈ names, eltSize name ≤ room
  tested : ∀ before name after, names = before ++ name :: after →
    trueSum size (before ++ [name]) (name.keyHash % size) % 65536 ≤ room

/-- No bucket needs more than it was tested for. -/
def Fits (room size : Nat) (names : List HashKey) : Prop :=
  ∀ i, trueSum size names i ≤ room

section Layout

variable {cacheline elts room size : Nat} {names : List HashKey}

theorem Accepted.line_pos (accepted : Accepted cacheline elts room size names) :
    0 < cacheline := by
  rcases Nat.eq_zero_or_pos cacheline with none | pos
  · have line := accepted.line
    rw [none] at line
    exact absurd (Nat.eq_zero_of_zero_dvd line) (by decide)
  · exact pos

theorem dvd_bucketArea (line : cacheline ∣ 65536) (i : Nat) :
    cacheline ∣ bucketArea cacheline size names i := by
  simp only [bucketArea, uShort]
  split
  · exact Nat.dvd_zero _
  · exact (Nat.dvd_mod_iff line).mpr (dvd_ngxAlign _ _)

theorem dvd_areaBelow (line : cacheline ∣ 65536) (count : Nat) :
    cacheline ∣ areaBelow cacheline size names count := by
  induction count with
  | zero => exact Nat.dvd_zero _
  | succ count ih => exact Nat.dvd_add ih (dvd_bucketArea line count)

theorem areaBelow_le {i j : Nat} (before : i < j) :
    areaBelow cacheline size names i + bucketArea cacheline size names i ≤
      areaBelow cacheline size names j := by
  induction j with
  | zero => omega
  | succ j ih =>
    rw [areaBelow]
    rcases Nat.lt_succ_iff_lt_or_eq.mp before with earlier | rfl
    · have := ih earlier
      omega
    · exact Nat.le_refl _

theorem Accepted.aligned (accepted : Accepted cacheline elts room size names) (i : Nat) :
    8 ∣ bucketAddr cacheline elts size names i := by
  rw [bucketAddr]
  split
  · exact Nat.dvd_zero 8
  · apply Nat.dvd_trans accepted.word
    exact Nat.dvd_add (dvd_ngxAlign _ _) (dvd_areaBelow accepted.line i)

theorem Accepted.bucketSum_eq_eight (accepted : Accepted cacheline elts room size names)
    (i : Nat) :
    bucketSum size (present names) i 8 = (8 + trueSum size names i) % 65536 := by
  rw [accepted.shown, bucketSum_eq names i 8 (by decide)]

theorem trueSum_pos {before after : List HashKey} {name : HashKey}
    (split : names = before ++ name :: after) :
    trueSum size before (name.keyHash % size) + eltSize name ≤
      trueSum size names (name.keyHash % size) := by
  rw [split, trueSum_middle rfl]
  omega

variable (fits : Fits room size names)
include fits

theorem Accepted.area_fits (accepted : Accepted cacheline elts room size names) (i : Nat)
    (filled : 0 < trueSum size names i) :
    8 + trueSum size names i ≤ bucketArea cacheline size names i := by
  have bound := accepted.bound
  have pos := accepted.line_pos
  have fit := fits i
  have total : bucketSum size (present names) i 8 = 8 + trueSum size names i := by
    rw [accepted.bucketSum_eq_eight, Nat.mod_eq_of_lt (by omega)]
  have low := le_ngxAlign (8 + trueSum size names i) cacheline accepted.line_pos
  have high := ngxAlign_lt (8 + trueSum size names i) cacheline accepted.line_pos
  rw [bucketArea, total, if_neg (by omega), uShort, Nat.mod_eq_of_lt (by omega)]
  exact low

theorem Accepted.bucket_fits (accepted : Accepted cacheline elts room size names) (i : Nat)
    (filled : 0 < trueSum size names i) :
    bucketAddr cacheline elts size names i =
      ngxAlign elts cacheline + areaBelow cacheline size names i := by
  have bound := accepted.bound
  have pos := accepted.line_pos
  have fit := fits i
  rw [bucketAddr, accepted.bucketSum_eq_eight, if_neg]
  omega

theorem Accepted.bucket_empty (accepted : Accepted cacheline elts room size names) (i : Nat) :
    bucketAddr cacheline elts size names i = 0 ↔ trueSum size names i = 0 := by
  have bound := accepted.bound
  have pos := accepted.line_pos
  have fit := fits i
  have base := le_ngxAlign elts cacheline accepted.line_pos
  have placed := accepted.placed
  rw [bucketAddr, accepted.bucketSum_eq_eight]
  constructor
  · intro null
    split at null <;> omega
  · intro empty
    rw [empty, if_pos rfl]

theorem Accepted.store_area (accepted : Accepted cacheline elts room size names)
    {store : EltWrite}
    (member : store ∈ tableWrites (bucketAddr cacheline elts size names) size names) :
    store.bucket < size ∧
      ngxAlign elts cacheline + areaBelow cacheline size names store.bucket ≤
        store.write.addr ∧
      store.write.stop ≤ ngxAlign elts cacheline +
        areaBelow cacheline size names store.bucket +
          bucketArea cacheline size names store.bucket := by
  have bound := accepted.bound
  rcases (mem_tableWrites ..).mp member with ⟨before, name, after, split, rfl⟩ | sentinel
  · have bounds := eltSize_bounds name
    have held := @trueSum_pos size _ _ _ _ split
    have fit := fits (name.keyHash % size)
    have area := accepted.area_fits fits (name.keyHash % size) (by omega)
    have place := accepted.bucket_fits fits (name.keyHash % size) (by omega)
    refine ⟨Nat.mod_lt _ accepted.used, ?_⟩
    simp only [Write.stop, eltBytes_length, place]
    omega
  · obtain ⟨i, index, inUse, rfl⟩ := sentinel
    have filled : 0 < trueSum size names i :=
      Nat.pos_of_ne_zero fun empty => inUse ((accepted.bucket_empty fits i).mpr empty)
    have fit := fits i
    have area := accepted.area_fits fits i filled
    have place := accepted.bucket_fits fits i filled
    refine ⟨index, ?_⟩
    simp only [Write.stop, leBytes_length, place]
    omega

theorem Accepted.stores_apart (accepted : Accepted cacheline elts room size names)
    {left right : EltWrite}
    (inLeft : left ∈ tableWrites (bucketAddr cacheline elts size names) size names)
    (inRight : right ∈ tableWrites (bucketAddr cacheline elts size names) size names)
    (different : left.bucket ≠ right.bucket) : Apart left.write right.write := by
  obtain ⟨_, leftLow, leftHigh⟩ := accepted.store_area fits inLeft
  obtain ⟨_, rightLow, rightHigh⟩ := accepted.store_area fits inRight
  rcases Nat.lt_or_gt_of_ne different with below | above
  · have order := @areaBelow_le cacheline size names _ _ below
    exact Or.inl (by omega)
  · have order := @areaBelow_le cacheline size names _ _ above
    exact Or.inr (by omega)

theorem Accepted.store_inside (accepted : Accepted cacheline elts room size names)
    {store : EltWrite}
    (member : store ∈ tableWrites (bucketAddr cacheline elts size names) size names) :
    elts ≤ store.write.addr ∧
      store.write.stop ≤ elts + (areaBelow cacheline size names size + cacheline) := by
  obtain ⟨index, low, high⟩ := accepted.store_area fits member
  have base := le_ngxAlign elts cacheline accepted.line_pos
  have top := ngxAlign_lt elts cacheline accepted.line_pos
  have order := @areaBelow_le cacheline size names _ _ index
  omega

end Layout

/-- The sets of names the claims about the table are for. -/
structure Admissible (names : List HashKey) : Prop where
  nonNull : ∀ name ∈ names, name.null = false
  lower : ∀ name ∈ names, ∀ byte ∈ name.key, ngxTolower byte = byte
  hashed : ∀ name ∈ names, name.keyHash = ngxHashKey name.key
  valued : ∀ name ∈ names, 0 < name.value ∧ name.value < 2 ^ 64
  distinct : (names.map HashKey.key).Nodup

/-- The table answers for its names and for nothing else, stays inside the allocation of
`len + ngx_cacheline_size` bytes, and its buckets do not overlap. -/
structure Correct (cacheline elts : Nat) (names : List HashKey) (table : HashTable) : Prop where
  hit : ∀ name ∈ names, ∀ fuel, names.length < fuel →
    ngxHashFind table fuel (ngxHashKey name.key) name.key = some name.value
  miss : ∀ query, (∀ name ∈ names, name.key ≠ query) → ∀ fuel, names.length < fuel →
    ngxHashFind table fuel (ngxHashKey query) query = some 0
  inside : ∀ store ∈ table.writes, elts ≤ store.write.addr ∧
    store.write.stop ≤ elts + (areaBelow cacheline table.size names table.size + cacheline)
  apart : ∀ left ∈ table.writes, ∀ right ∈ table.writes,
    left.bucket ≠ right.bucket → Apart left.write right.write

theorem answer_of_mem {names : List HashKey} (distinct : (names.map HashKey.key).Nodup)
    {name : HashKey} (member : name ∈ names) : answer names name.key = name.value := by
  induction names with
  | nil => exact absurd member List.not_mem_nil
  | cons head rest ih =>
    rw [List.map_cons, List.nodup_cons] at distinct
    rw [answer_cons]
    rcases List.mem_cons.mp member with rfl | later
    · rw [if_pos rfl]
    · rw [if_neg, ih distinct.2 later]
      intro same
      exact distinct.1 (List.mem_map.mpr ⟨name, later, same.symm⟩)

theorem answer_of_not_mem {names : List HashKey} {query : List UInt8}
    (absent : ∀ name ∈ names, name.key ≠ query) : answer names query = 0 := by
  induction names with
  | nil => rfl
  | cons head rest ih =>
    rw [answer_cons, if_neg (absent head List.mem_cons_self)]
    exact ih fun name member => absent name (List.mem_cons_of_mem head member)

section Table

variable {cacheline elts room size : Nat} {names : List HashKey} {memory : Memory}

theorem Accepted.storable (accepted : Accepted cacheline elts room size names)
    (admissible : Admissible names) : ∀ name ∈ names, Storable name := by
  intro name member
  have small := accepted.small name member
  have bounds := eltSize_bounds name
  have bound := accepted.bound
  exact
    { lower := by
        rw [List.map_congr_left (admissible.lower name member)]
        exact List.map_id _
      short := by omega
      value_pos := (admissible.valued name member).1
      value_fits := (admissible.valued name member).2 }

theorem Accepted.writes_eq (accepted : Accepted cacheline elts room size names) :
    (buildTable cacheline elts memory names size).writes =
      tableWrites (bucketAddr cacheline elts size names) size names := by
  simp only [buildTable, accepted.shown, tableWrites]

theorem Accepted.ngxHashFind_eq (accepted : Accepted cacheline elts room size names)
    (admissible : Admissible names) {pre post : List HashKey} (split : names = pre ++ post)
    {key : Nat} (query : List UInt8) (fuel : Nat) (enough : names.length < fuel)
    (walkable : Walkable (bucketAddr cacheline elts size names) size (key % size) pre post) :
    ngxHashFind (buildTable cacheline elts memory names size) fuel key query =
      some (answer (post.filter fun name => name.keyHash % size = key % size) query) := by
  have storable : ∀ name ∈ post, Storable name := by
    intro name member
    exact accepted.storable admissible name (by rw [split]; exact List.mem_append_right _ member)
  have room : post.length < fuel := by
    rw [split, List.length_append] at enough
    omega
  have found := @Walkable.findLoop_eq _ _ _ _ _ [] post walkable storable memory query fuel rfl room
  rw [trueSum_nil, Nat.add_zero, ← split] at found
  have inUse := walkable.inUse
  have built : (buildTable cacheline elts memory names size).memory = storeAll memory
      ((tableWrites (bucketAddr cacheline elts size names) size names).map EltWrite.write) := by
    rw [← @Accepted.writes_eq _ _ _ _ _ memory accepted]
    rfl
  rw [ngxHashFind, built]
  exact (if_neg inUse).trans found

theorem Accepted.walkable_fits (accepted : Accepted cacheline elts room size names)
    (fits : Fits room size names) {k : Nat} (index : k < size)
    (filled : 0 < trueSum size names k) :
    Walkable (bucketAddr cacheline elts size names) size k [] names where
  inUse := fun null => absurd ((accepted.bucket_empty fits k).mp null) (by omega)
  index := index
  aligned := accepted.aligned k
  restart := rfl
  fits := by
    have fit := fits k
    have bound := accepted.bound
    omega
  apart := fun _ inLeft _ inRight => accepted.stores_apart fits inLeft inRight

theorem trueSum_eq_zero {k : Nat} (empty : trueSum size names k = 0) :
    ∀ name ∈ names, name.keyHash % size ≠ k := by
  intro name member same
  obtain ⟨before, after, split⟩ := List.append_of_mem member
  have held := @trueSum_pos size _ _ _ _ split
  have bounds := eltSize_bounds name
  rw [same] at held
  omega

theorem Accepted.find_fits (accepted : Accepted cacheline elts room size names)
    (admissible : Admissible names) (fits : Fits room size names) (query : List UInt8)
    (fuel : Nat) (enough : names.length < fuel) :
    ngxHashFind (buildTable cacheline elts memory names size) fuel (ngxHashKey query) query =
      some (answer (names.filter fun name => name.keyHash % size = ngxHashKey query % size)
        query) := by
  have index : ngxHashKey query % size < size := Nat.mod_lt _ accepted.used
  rcases Nat.eq_zero_or_pos (trueSum size names (ngxHashKey query % size)) with empty | filled
  · have none : names.filter (fun name => name.keyHash % size = ngxHashKey query % size) =
        [] := by
      apply List.filter_eq_nil_iff.mpr
      intro name member
      simpa using trueSum_eq_zero empty name member
    rw [none, ngxHashFind]
    exact if_pos ((accepted.bucket_empty fits _).mpr empty)
  · exact accepted.ngxHashFind_eq admissible (List.nil_append names).symm query fuel enough
      (accepted.walkable_fits fits index filled)

theorem Accepted.correct_of_fits (accepted : Accepted cacheline elts room size names)
    (admissible : Admissible names) (fits : Fits room size names) :
    Correct cacheline elts names (buildTable cacheline elts memory names size) where
  hit := by
    intro name member fuel enough
    rw [accepted.find_fits admissible fits _ _ enough, answer_of_mem]
    · exact admissible.distinct.sublist (List.filter_sublist.map _)
    · simp [member, admissible.hashed name member]
  miss := by
    intro query absent fuel enough
    rw [accepted.find_fits admissible fits _ _ enough, answer_of_not_mem]
    intro name member
    exact absent name (List.mem_of_mem_filter member)
  inside := by
    intro store member
    rw [accepted.writes_eq] at member
    exact accepted.store_inside fits member
  apart := by
    intro left inLeft right inRight different
    rw [accepted.writes_eq] at inLeft inRight
    exact accepted.stores_apart fits inLeft inRight different

end Table

end NgxFormal.Core.Hash

/-! A bucket whose 16-bit sum wrapped: whatever the layout, some part of the table is wrong. -/

namespace NgxFormal.Core.Hash

open Lib

section Overflow

variable {cacheline elts room size k : Nat} {names : List HashKey} {memory : Memory}

theorem crossing_elt {offset : Nat} (exceeds : offset < trueSum size names k) :
    ∃ before name after, names = before ++ name :: after ∧ name.keyHash % size = k ∧
      trueSum size before k ≤ offset ∧ offset < trueSum size before k + eltSize name := by
  induction names generalizing offset with
  | nil => exact absurd exceeds (Nat.not_lt_zero offset)
  | cons head rest ih =>
    rw [trueSum_cons] at exceeds
    by_cases same : head.keyHash % size = k
    · rw [if_pos same] at exceeds
      by_cases here : offset < eltSize head
      · exact ⟨[], head, rest, rfl, same, Nat.zero_le _, by rw [trueSum_nil]; omega⟩
      · obtain ⟨before, name, after, rfl, inBucket, low, high⟩ :=
          @ih (offset - eltSize head) (by omega)
        refine ⟨head :: before, name, after, rfl, inBucket, ?_⟩
        rw [trueSum_cons, if_pos same]
        omega
    · rw [if_neg same] at exceeds
      obtain ⟨before, name, after, rfl, inBucket, low, high⟩ :=
        @ih offset (by omega)
      refine ⟨head :: before, name, after, rfl, inBucket, ?_⟩
      rw [trueSum_cons, if_neg same]
      omega

/-- The first name that does not fit takes the sum past `2^16`. -/
theorem Accepted.crossing (accepted : Accepted cacheline elts room size names)
    (exceeds : room < trueSum size names k) :
    65536 ≤ trueSum size names k := by
  obtain ⟨before, name, after, split, same, low, high⟩ := crossing_elt exceeds
  have bound := accepted.bound
  have small := accepted.small name (by rw [split]; simp)
  have tested := accepted.tested before name after split
  have held := @trueSum_pos size _ _ _ _ split
  rw [trueSum_snoc _ _ _ rfl] at tested
  rw [same] at tested held
  omega

theorem covering_elt {offset : Nat} (aligned : 8 ∣ offset)
    (inside : offset < trueSum size names k) :
    ∃ before name after, names = before ++ name :: after ∧ name.keyHash % size = k ∧
      trueSum size before k ≤ offset ∧
      offset < trueSum size before k + (name.key.length + 10) := by
  obtain ⟨before, name, after, split, same, low, high⟩ := crossing_elt inside
  have start := @trueSum_dvd size before k
  have step := eltSize_dvd name
  have bounds := eltSize_bounds name
  exact ⟨before, name, after, split, same, low, by omega⟩

theorem elt_mem_tableWrites {buckets : Nat → Nat} {before after : List HashKey}
    {name : HashKey} (split : names = before ++ name :: after)
    (same : name.keyHash % size = k) :
    (⟨k, ⟨buckets k + trueSum size before k % 65536, eltBytes name⟩⟩ : EltWrite) ∈
      tableWrites buckets size names := by
  rw [mem_tableWrites]
  exact Or.inl ⟨before, name, after, split, by rw [same]⟩

/-- A used bucket does not start at `NULL`, or its first element is stored there. -/
theorem Accepted.bucket_used (accepted : Accepted cacheline elts room size names)
    (correct : Correct cacheline elts names (buildTable cacheline elts memory names size))
    (filled : 0 < trueSum size names k) :
    bucketAddr cacheline elts size names k ≠ 0 := by
  intro null
  obtain ⟨before, name, after, split, same, empty, _⟩ := crossing_elt filled
  have inside := correct.inside _ (by
    rw [accepted.writes_eq]
    exact elt_mem_tableWrites split same)
  have placed := accepted.placed
  simp only [null, Nat.le_zero.mp empty] at inside
  omega

theorem bucket_place (inUse : bucketAddr cacheline elts size names k ≠ 0) :
    bucketAddr cacheline elts size names k =
      ngxAlign elts cacheline + areaBelow cacheline size names k := by
  rw [bucketAddr] at inUse ⊢
  split at inUse
  · exact absurd rfl inUse
  · rw [if_neg ‹_›]

theorem Accepted.area_null (accepted : Accepted cacheline elts room size names)
    (null : bucketAddr cacheline elts size names k = 0) :
    bucketArea cacheline size names k = 0 := by
  have base := le_ngxAlign elts cacheline accepted.line_pos
  have placed := accepted.placed
  rw [bucketAddr] at null
  rw [bucketArea]
  split at null
  · rw [if_pos ‹_›]
  · omega

theorem Accepted.areaBelow_gap (accepted : Accepted cacheline elts room size names)
    {j : Nat} (after : k < j)
    (gap : ∀ i, k < i → i < j → bucketAddr cacheline elts size names i = 0) :
    areaBelow cacheline size names j =
      areaBelow cacheline size names k + bucketArea cacheline size names k := by
  induction j with
  | zero => omega
  | succ j ih =>
    rcases Nat.lt_succ_iff_lt_or_eq.mp after with later | rfl
    · rw [areaBelow, ih later fun i low high => gap i low (by omega),
        accepted.area_null (gap j later (Nat.lt_succ_self j)), Nat.add_zero]
    · rw [areaBelow]

/-- An area leaves room for one more cache line below `2^16`. -/
theorem Accepted.area_bound (accepted : Accepted cacheline elts room size names) (i : Nat) :
    bucketArea cacheline size names i + cacheline ≤ 65536 := by
  obtain ⟨lines, total⟩ := accepted.line
  obtain ⟨count, area⟩ := @dvd_bucketArea _ size names accepted.line i
  have below : bucketArea cacheline size names i < 65536 := by
    simp only [bucketArea, uShort]
    split
    · decide
    · exact Nat.mod_lt _ (by decide)
  rw [area, total] at below
  have fewer : count < lines := Nat.lt_of_mul_lt_mul_left below
  calc
    bucketArea cacheline size names i + cacheline = cacheline * (count + 1) := by
      rw [area, Nat.mul_succ]
    _ ≤ cacheline * lines := Nat.mul_le_mul_left _ fewer
    _ = 65536 := total.symm

theorem Accepted.next_bucket_overlap (accepted : Accepted cacheline elts room size names)
    (correct : Correct cacheline elts names (buildTable cacheline elts memory names size))
    (exceeds : room < trueSum size names k) {j : Nat} (after : k < j)
    (inUse : bucketAddr cacheline elts size names j ≠ 0)
    (gap : ∀ i, k < i → i < j → bucketAddr cacheline elts size names i = 0) : False := by
  have crossed := accepted.crossing exceeds
  have word : 8 ∣ bucketArea cacheline size names k :=
    Nat.dvd_trans accepted.word (dvd_bucketArea accepted.line k)
  have bound := accepted.area_bound k
  have line := accepted.line_pos
  obtain ⟨left, cover, right, parts, inBucket, low, high⟩ :=
    @covering_elt size k names _ word (by omega)
  have filled : 0 < trueSum size names j := by
    rcases Nat.eq_zero_or_pos (trueSum size names j) with empty | filled
    · rw [bucketAddr, accepted.bucketSum_eq_eight, empty] at inUse
      exact absurd rfl inUse
    · exact filled
  obtain ⟨start, first, others, firstSplit, firstIn, firstLow, _⟩ := crossing_elt filled
  have firstEmpty := Nat.le_zero.mp firstLow
  have apart := correct.apart _ (by
    rw [accepted.writes_eq]
    exact elt_mem_tableWrites parts inBucket) _ (by
    rw [accepted.writes_eq]
    exact elt_mem_tableWrites firstSplit firstIn) (Nat.ne_of_lt after)
  have used := accepted.bucket_used correct (k := k) (by omega)
  have place := bucket_place used
  have nextPlace := bucket_place inUse
  rw [accepted.areaBelow_gap after gap] at nextPlace
  simp only [Apart, Write.stop, eltBytes_length, firstEmpty, place, nextPlace] at apart
  omega

/-- If the cursor of a bucket never jumps over `2^16`, the names split where it was last
reset to zero. -/
theorem restart_split (reached : 65536 ≤ trueSum size names k)
    (stepped : ∀ before name after, names = before ++ name :: after →
      name.keyHash % size = k → trueSum size before k % 65536 + eltSize name ≤ 65536) :
    ∃ pre post, names = pre ++ post ∧ trueSum size pre k % 65536 = 0 ∧
      trueSum size post k < 65536 ∧ 0 < trueSum size pre k := by
  have front (before : List HashKey) : ∀ after, names = before ++ after →
      ∃ pre post, before = pre ++ post ∧ trueSum size pre k % 65536 = 0 ∧
        trueSum size post k < 65536 := by
    induction before using List.reverseRecOn with
    | nil => exact fun _ _ => ⟨[], [], rfl, rfl, by rw [trueSum_nil]; decide⟩
    | append_singleton before name ih =>
      intro after split
      rw [List.append_assoc, List.singleton_append] at split
      obtain ⟨pre, post, parts, restart, fits⟩ := ih _ split
      by_cases same : name.keyHash % size = k
      · have step := stepped before name after split same
        rw [parts, trueSum_append] at step
        by_cases full : trueSum size post k + eltSize name = 65536
        · refine ⟨before ++ [name], [], (List.append_nil _).symm, ?_, by rw [trueSum_nil]; decide⟩
          rw [trueSum_snoc _ _ _ same, parts, trueSum_append]
          omega
        · refine ⟨pre, post ++ [name], by rw [parts, List.append_assoc], restart, ?_⟩
          rw [trueSum_snoc _ _ _ same]
          omega
      · refine ⟨pre, post ++ [name], by rw [parts, List.append_assoc], restart, ?_⟩
        rw [trueSum_append, trueSum_cons, if_neg same]
        exact fits
  obtain ⟨pre, post, split, restart, fits⟩ := front names [] (List.append_nil names).symm
  rw [split, trueSum_append] at reached
  exact ⟨pre, post, split, restart, fits, by omega⟩

/-- The last bucket in use wrapped: its first name is overwritten and not found any more. -/
theorem Accepted.last_bucket_lost (accepted : Accepted cacheline elts room size names)
    (admissible : Admissible names)
    (correct : Correct cacheline elts names (buildTable cacheline elts memory names size))
    (exceeds : room < trueSum size names k) (index : k < size)
    (gap : ∀ i, k < i → i < size → bucketAddr cacheline elts size names i = 0) : False := by
  have reached := accepted.crossing exceeds
  have used := accepted.bucket_used correct (k := k) (by omega)
  have place := bucket_place used
  have base := le_ngxAlign elts cacheline accepted.line_pos
  have bound := accepted.area_bound k
  have length := accepted.areaBelow_gap index gap
  -- the allocation ends within one cache line behind the bucket
  obtain ⟨pre, post, split, restart, fits, held⟩ := restart_split reached (by
    intro before name after split same
    have inside := correct.inside _ (by
      rw [accepted.writes_eq]
      exact elt_mem_tableWrites split same)
    have sized : (buildTable cacheline elts memory names size).size = size := rfl
    have start := @trueSum_dvd size before k
    have step := eltSize_dvd name
    have bounds := eltSize_bounds name
    simp only [Write.stop, eltBytes_length, sized, place, length] at inside
    omega)
  obtain ⟨before, name, after, parts, same, _⟩ := crossing_elt held
  have member : name ∈ names := by
    rw [split, parts]
    simp
  have hashed : ngxHashKey name.key % size = k := by
    rw [← admissible.hashed name member, same]
  have walkable : Walkable (bucketAddr cacheline elts size names) size
      (ngxHashKey name.key % size) pre post := by
    rw [hashed]
    exact
      { inUse := used
        index := index
        aligned := accepted.aligned k
        restart := restart
        fits := fits
        apart := by
          rw [← split, ← @Accepted.writes_eq _ _ _ _ _ memory accepted]
          exact correct.apart }
  have found := @Accepted.ngxHashFind_eq _ _ _ _ _ memory accepted admissible _ _ split _
    name.key (names.length + 1) (Nat.lt_succ_self _) walkable
  have distinct := admissible.distinct
  rw [split, List.map_append, List.nodup_append] at distinct
  rw [correct.hit name member _ (Nat.lt_succ_self _), answer_of_not_mem] at found
  · have positive := (admissible.valued name member).1
    rw [Option.some.injEq] at found
    omega
  · intro other inPost sameKey
    have inPre : name.key ∈ pre.map HashKey.key := by
      rw [parts]
      simp
    exact distinct.2.2 _ inPre _ (List.mem_map_of_mem (List.mem_of_mem_filter inPost)) sameKey.symm

theorem Accepted.fits_of_correct (accepted : Accepted cacheline elts room size names)
    (admissible : Admissible names)
    (correct : Correct cacheline elts names (buildTable cacheline elts memory names size)) :
    Fits room size names := by
  intro k
  by_contra exceeds
  rw [Nat.not_le] at exceeds
  obtain ⟨before, name, after, split, same, _⟩ := crossing_elt exceeds
  have index : k < size := by
    rw [← same]
    exact Nat.mod_lt _ accepted.used
  by_cases later : ∃ j, k < j ∧ bucketAddr cacheline elts size names j ≠ 0
  · have gap (i : Nat) (low : k < i) (high : i < Nat.find later) :
        bucketAddr cacheline elts size names i = 0 := by
      by_contra inUse
      exact Nat.find_min later high ⟨low, inUse⟩
    exact accepted.next_bucket_overlap correct exceeds (Nat.find_spec later).1
      (Nat.find_spec later).2 gap
  · apply accepted.last_bucket_lost admissible correct exceeds index
    intro i low _
    by_contra inUse
    exact later ⟨i, low, inUse⟩

end Overflow

end NgxFormal.Core.Hash
