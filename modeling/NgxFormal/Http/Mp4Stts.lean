import Mathlib.Algebra.Order.Ring.Int
import Mathlib.Data.List.Basic

/-! `ngx_http_mp4_update_stts_atom`: the table of sample durations, cut at the start time. -/

namespace NgxFormal.Http.Mp4

/-- `ngx_mp4_stts_entry_t` -/
structure SttsEntry where
  count : UInt32
  duration : UInt32
  deriving DecidableEq, Repr

/-- `sizeof(ngx_mp4_stts_atom_t)` and `sizeof(ngx_mp4_stts_entry_t)` -/
def sttsAtomSize : Nat := 16
def sttsEntrySize : Nat := 8

/-- What `NGX_OK` leaves: `trak->start_sample`, the entries from `data->pos` on, and the entries count
and the size of the atom. -/
structure SttsUpdate where
  startSample : UInt64
  data : List SttsEntry
  entries : UInt32
  atomSize : Nat
  deriving DecidableEq, Repr

/-- `while (entry < end)` -/
def sttsLoop : List SttsEntry → UInt64 → UInt64 → UInt32 → Option SttsUpdate
  | [], _, _, _ => none
  | entry :: rest, startTime, startSample, entries =>
    if startTime < entry.count.toUInt64 * entry.duration.toUInt64 then
      let startSample := startSample + startTime / entry.duration.toUInt64
      some {
        startSample := startSample
        data := { entry with count := entry.count - startSample.toUInt32 } :: rest
        entries := entries
        atomSize := sttsAtomSize + sttsEntrySize * (rest.length + 1) }
    else
      -- the product of two 32-bit numbers is one of 32 bits
      sttsLoop rest (startTime - (entry.count * entry.duration).toUInt64)
        (startSample + entry.count.toUInt64) (entries - 1)

def ngxHttpMp4UpdateSttsAtom (start : UInt64) (timescale : UInt32) (table : List SttsEntry) :
    Option SttsUpdate :=
  sttsLoop table (start * timescale.toUInt64 / 1000) 0 (UInt32.ofNat table.length)

/-- The durations of the samples, one for each. -/
def durations (table : List SttsEntry) : List Nat :=
  table.flatMap fun entry => List.replicate entry.count.toNat entry.duration.toNat

def sampleCount (table : List SttsEntry) : Nat := (table.map fun entry => entry.count.toNat).sum

def span (table : List SttsEntry) : Nat :=
  (table.map fun entry => entry.count.toNat * entry.duration.toNat).sum

/-- Sample `i` is played at the time `t`. -/
structure Played (samples : List Nat) (t i : Nat) : Prop where
  inside : i < samples.length
  begun : (samples.take i).sum ≤ t
  lasts : t < (samples.take (i + 1)).sum

/-- The update is the table without the samples before the one that is played at `t`. -/
structure SttsCut (table : List SttsEntry) (t : Nat) (u : SttsUpdate) : Prop where
  samples : durations u.data = (durations table).drop u.startSample.toNat
  entries : u.entries.toNat = u.data.length
  played : Played (durations table) t u.startSample.toNat

/-- The entry with a count of `n` less. -/
def SttsEntry.less (entry : SttsEntry) (n : Nat) : SttsEntry :=
  { entry with count := entry.count - UInt32.ofNat n }

/-- A count is taken down once for each entry. -/
theorem countdown (entries : UInt32) (n : Nat) :
    entries - 1 - UInt32.ofNat n = entries - UInt32.ofNat (n + 1) := by
  have one : UInt32.ofNat 1 = 1 := rfl
  rw [UInt32.ofNat_add, one, UInt32.sub_eq_add_neg, UInt32.sub_eq_add_neg, UInt32.sub_eq_add_neg,
    UInt32.neg_add, UInt32.sub_eq_add_neg, UInt32.add_assoc, UInt32.add_comm (-1)]

section Stts

variable {table before after rest : List SttsEntry} {entry : SttsEntry} {t s : Nat}

@[simp] theorem durations_cons (entry : SttsEntry) (rest : List SttsEntry) :
    durations (entry :: rest) =
      List.replicate entry.count.toNat entry.duration.toNat ++ durations rest := rfl

theorem durations_append (first second : List SttsEntry) :
    durations (first ++ second) = durations first ++ durations second := List.flatMap_append

@[simp] theorem sampleCount_cons (entry : SttsEntry) (rest : List SttsEntry) :
    sampleCount (entry :: rest) = entry.count.toNat + sampleCount rest := rfl

@[simp] theorem span_cons (entry : SttsEntry) (rest : List SttsEntry) :
    span (entry :: rest) = entry.count.toNat * entry.duration.toNat + span rest := rfl

theorem sampleCount_append (first second : List SttsEntry) :
    sampleCount (first ++ second) = sampleCount first + sampleCount second := by
  rw [sampleCount, List.map_append, List.sum_append, sampleCount, sampleCount]

theorem span_append (first second : List SttsEntry) :
    span (first ++ second) = span first + span second := by
  rw [span, List.map_append, List.sum_append, span, span]

@[simp] theorem durations_length (table : List SttsEntry) :
    (durations table).length = sampleCount table := by
  induction table with
  | nil => rfl
  | cons entry table ih => rw [durations_cons, List.length_append, List.length_replicate, ih,
      sampleCount_cons]

theorem durations_sum (table : List SttsEntry) : (durations table).sum = span table := by
  induction table with
  | nil => rfl
  | cons entry table ih =>
    rw [durations_cons, List.sum_append, List.sum_replicate_nat, ih, span_cons]

theorem product_toNat (entry : SttsEntry) :
    (entry.count.toUInt64 * entry.duration.toUInt64).toNat =
      entry.count.toNat * entry.duration.toNat := by
  have count := entry.count.toNat_lt
  have duration := entry.duration.toNat_lt
  have small : entry.count.toNat * entry.duration.toNat < 2 ^ 32 * 2 ^ 32 :=
    Nat.mul_lt_mul'' count duration
  rw [UInt64.toNat_mul, UInt32.toNat_toUInt64, UInt32.toNat_toUInt64]
  exact Nat.mod_eq_of_lt small

theorem sttsLoop_spec (rest : List SttsEntry) (entries : UInt32) (counted : s + sampleCount rest < 2 ^ 32)
    (spans : span rest < 2 ^ 32) (inside : t < span rest) :
    ∃ before entry after, rest = before ++ entry :: after ∧ span before ≤ t ∧
      t - span before < entry.count.toNat * entry.duration.toNat ∧
      sttsLoop rest (UInt64.ofNat t) (UInt64.ofNat s) entries = some {
        startSample := UInt64.ofNat (s + sampleCount before + (t - span before) / entry.duration.toNat)
        data := entry.less (s + sampleCount before +
          (t - span before) / entry.duration.toNat) :: after
        entries := entries - UInt32.ofNat before.length
        atomSize := sttsAtomSize + sttsEntrySize * (after.length + 1) } := by
  induction rest generalizing t s entries with
  | nil => exact absurd inside (Nat.not_lt_zero t)
  | cons entry rest ih =>
    rw [sampleCount_cons] at counted
    rw [span_cons] at spans inside
    have time : (UInt64.ofNat t).toNat = t := UInt64.toNat_ofNat_of_lt' (by rw [UInt64.size]; omega)
    have sample : (UInt64.ofNat s).toNat = s := UInt64.toNat_ofNat_of_lt' (by rw [UInt64.size]; omega)
    rw [sttsLoop]
    simp only [UInt64.lt_iff_toNat_lt, time, product_toNat]
    by_cases here : t < entry.count.toNat * entry.duration.toNat
    · refine ⟨[], entry, rest, rfl, Nat.zero_le t, here, ?_⟩
      have nothing : sampleCount [] = 0 ∧ span [] = 0 := ⟨rfl, rfl⟩
      have cut : UInt64.ofNat s + UInt64.ofNat t / entry.duration.toUInt64 =
          UInt64.ofNat (s + t / entry.duration.toNat) := by
        rw [UInt64.ofNat_add]
        congr 1
        apply UInt64.toNat_inj.mp
        have less : t / entry.duration.toNat ≤ t := Nat.div_le_self _ _
        rw [UInt64.toNat_div, time, UInt32.toNat_toUInt64, UInt64.toNat_ofNat_of_lt' (by rw [UInt64.size]; omega)]
      have low : (UInt64.ofNat (s + t / entry.duration.toNat)).toUInt32 =
          UInt32.ofNat (s + t / entry.duration.toNat) := UInt64.toUInt32_ofNat' _
      have all : entries - UInt32.ofNat (@List.length SttsEntry []) = entries :=
        UInt32.sub_zero entries
      rw [if_pos here, nothing.1, nothing.2, Nat.sub_zero, cut, low, SttsEntry.less, all,
        Nat.add_zero s]
    · have product : (entry.count * entry.duration).toNat =
          entry.count.toNat * entry.duration.toNat := by
        rw [UInt32.toNat_mul]
        exact Nat.mod_eq_of_lt (by omega)
      have later : UInt64.ofNat t - (entry.count * entry.duration).toUInt64 =
          UInt64.ofNat (t - entry.count.toNat * entry.duration.toNat) := by
        apply UInt64.toNat_inj.mp
        have le : (entry.count * entry.duration).toUInt64 ≤ UInt64.ofNat t := by
          rw [UInt64.le_iff_toNat_le, UInt32.toNat_toUInt64, product, time]
          omega
        rw [UInt64.toNat_sub_of_le _ _ le, time, UInt32.toNat_toUInt64, product,
          UInt64.toNat_ofNat_of_lt' (by rw [UInt64.size]; omega)]
      have more : UInt64.ofNat s + entry.count.toUInt64 = UInt64.ofNat (s + entry.count.toNat) := by
        rw [UInt64.ofNat_add]
        congr 1
        exact (UInt64.ofNat_uInt32ToNat entry.count).symm
      obtain ⟨before, found, after, rfl, begun, within, answer⟩ :=
        @ih (t - entry.count.toNat * entry.duration.toNat) (s + entry.count.toNat) (entries - 1)
          (by omega) (by omega) (by omega)
      have left : t - entry.count.toNat * entry.duration.toNat - span before =
          t - span (entry :: before) := by
        rw [span_cons]
        omega
      have samples : s + entry.count.toNat + sampleCount before =
          s + sampleCount (entry :: before) := by
        rw [sampleCount_cons]
        omega
      have number : entries - 1 - UInt32.ofNat before.length =
          entries - UInt32.ofNat (entry :: before).length := by
        rw [List.length_cons, countdown]
      refine ⟨entry :: before, found, after, rfl, ?_, ?_, ?_⟩
      · rw [span_cons]
        omega
      · rw [← left]
        exact within
      · rw [if_neg here, later, more, answer, left, samples, number]

/-- The sample at the cut is played at the time. -/
theorem played_cut (text : table = before ++ entry :: after) (begun : span before ≤ t)
    (within : t - span before < entry.count.toNat * entry.duration.toNat) :
    Played (durations table) t (sampleCount before + (t - span before) / entry.duration.toNat) := by
  have some_ : 0 < entry.duration.toNat := by
    by_contra none_
    rw [Nat.eq_zero_of_not_pos none_, Nat.mul_zero] at within
    exact absurd within (Nat.not_lt_zero _)
  have cut : (t - span before) / entry.duration.toNat < entry.count.toNat := by
    rw [Nat.div_lt_iff_lt_mul some_]
    exact within
  generalize quotient : (t - span before) / entry.duration.toNat = k at cut
  have low : k * entry.duration.toNat ≤ t - span before := by
    rw [← quotient]
    exact Nat.div_mul_le_self _ _
  have high : t - span before < (k + 1) * entry.duration.toNat := by
    rw [← quotient, Nat.mul_comm]
    exact Nat.lt_mul_div_succ _ some_
  have taken : ∀ m ≤ entry.count.toNat, ((durations table).take (sampleCount before + m)).sum =
      span before + m * entry.duration.toNat := by
    intro m le
    rw [text, durations_append, ← durations_length before, List.take_length_add_append,
      durations_cons, List.take_append_of_le_length (by rw [List.length_replicate]; exact le),
      List.take_replicate, Nat.min_eq_left le, List.sum_append, durations_sum,
      List.sum_replicate_nat]
  refine ⟨?_, ?_, ?_⟩
  · rw [durations_length, text, sampleCount_append, sampleCount_cons]
    omega
  · rw [taken k (by omega)]
    omega
  · rw [Nat.add_assoc, taken (k + 1) (by omega)]
    omega

theorem sampleCount_zero_iff : sampleCount before = 0 ↔ ∀ e ∈ before, e.count = 0 := by
  rw [sampleCount, List.sum_eq_zero_iff_forall_eq_nat]
  constructor
  · intro zero e member
    exact UInt32.toNat_inj.mp (zero _ (List.mem_map_of_mem member))
  · intro zero n member
    obtain ⟨e, inside, rfl⟩ := List.mem_map.mp member
    rw [zero e inside]
    rfl

theorem cut_first {before' after' : List SttsEntry} {entry' : SttsEntry}
    (same : before ++ entry :: after = before' ++ entry' :: after') (begun : span before ≤ t)
    (zero : ∀ e ∈ before', e.count = 0)
    (within : t < entry'.count.toNat * entry'.duration.toNat) : sampleCount before = 0 := by
  rcases List.append_eq_append_iff.mp same with ⟨middle, longer, _⟩ | ⟨middle, longer, rest⟩
  · rw [sampleCount_zero_iff]
    intro e member
    exact zero e (by rw [longer]; exact List.mem_append_left _ member)
  · cases middle with
    | nil =>
      rw [List.append_nil] at longer
      rw [longer, sampleCount_zero_iff]
      exact zero
    | cons first middle =>
      have first_ : entry' = first := (List.cons.inj rest).1
      rw [longer, ← first_, span_append, span_cons] at begun
      omega

theorem durations_less {k : Nat} (le : k ≤ entry.count.toNat)
    (size : (entry.less k).count.toNat = entry.count.toNat - k) (none_ : sampleCount before = 0) :
    durations (entry.less k :: after) = (durations (before ++ entry :: after)).drop k := by
  have same : (entry.less k).duration = entry.duration := rfl
  have empty : durations before = [] := by
    rw [← List.length_eq_zero_iff, durations_length]
    exact none_
  rw [durations_append, empty, List.nil_append, durations_cons, durations_cons,
    List.drop_append_of_le_length (by rw [List.length_replicate]; exact le), List.drop_replicate,
    size, same]

end Stts

/-- With a start time before the end of the track, the table is cut, and it is cut right if and only
if the start time lies in the first entry that has samples. -/
theorem update_stts_iff (start : UInt64) (timescale : UInt32) (table : List SttsEntry)
    (length : table.length < 2 ^ 32) (counted : sampleCount table < 2 ^ 32)
    (spans : span table < 2 ^ 32)
    (inside : start.toNat * timescale.toNat / 1000 < span table) :
    ∃ u, ngxHttpMp4UpdateSttsAtom start timescale table = some u ∧
      (SttsCut table (start.toNat * timescale.toNat / 1000) u ↔
        ∃ before entry after, table = before ++ entry :: after ∧ (∀ e ∈ before, e.count = 0) ∧
          start.toNat * timescale.toNat / 1000 < entry.count.toNat * entry.duration.toNat) := by
  have time : start * timescale.toUInt64 / 1000 =
      UInt64.ofNat (start.toNat * timescale.toNat / 1000) := by
    apply UInt64.toNat_inj.mp
    have thousand : (1000 : UInt64).toNat = 1000 := rfl
    rw [UInt64.toNat_div, UInt64.toNat_mul, UInt32.toNat_toUInt64, thousand,
      UInt64.toNat_ofNat_of_lt' (by rw [UInt64.size]; omega), Nat.mod_eq_of_lt (by omega)]
  rw [ngxHttpMp4UpdateSttsAtom, time]
  generalize start.toNat * timescale.toNat / 1000 = t at inside
  obtain ⟨before, entry, after, text, begun, within, answer⟩ :=
    sttsLoop_spec (s := 0) table (UInt32.ofNat table.length) (by omega) spans inside
  have played := played_cut text begun within
  refine ⟨_, answer, ?_⟩
  have bound := played.inside
  rw [durations_length] at bound
  rw [Nat.zero_add]
  generalize quotient : (t - span before) / entry.duration.toNat = k at played bound
  have cut : k < entry.count.toNat := by
    rw [← quotient]
    exact Nat.div_lt_of_lt_mul (by rw [Nat.mul_comm]; exact within)
  have total : sampleCount table = sampleCount before + (entry.count.toNat + sampleCount after) := by
    rw [text, sampleCount_append, sampleCount_cons]
  have index : (UInt64.ofNat (sampleCount before + k)).toNat = sampleCount before + k :=
    UInt64.toNat_ofNat_of_lt' (by rw [UInt64.size]; omega)
  have left : (UInt32.ofNat (sampleCount before + k)).toNat = sampleCount before + k :=
    UInt32.toNat_ofNat_of_lt' (by rw [UInt32.size]; omega)
  have size : (entry.less (sampleCount before + k)).count.toNat =
      (2 ^ 32 - (sampleCount before + k) + entry.count.toNat) % 2 ^ 32 := by
    rw [SttsEntry.less, UInt32.toNat_sub, left]
  have word := entry.count.toNat_lt
  constructor
  · intro right
    have sizes := congrArg List.length right.samples
    dsimp only at sizes
    rw [index, List.length_drop, durations_length, durations_length, total, sampleCount_cons,
      size] at sizes
    have none_ : sampleCount before = 0 := by omega
    refine ⟨before, entry, after, text, sampleCount_zero_iff.mp none_, ?_⟩
    have nothing : span before = 0 := by
      have sum := durations_sum before
      have empty : durations before = [] := by
        rw [← List.length_eq_zero_iff, durations_length]
        exact none_
      rw [← sum, empty]
      rfl
    rw [nothing, Nat.sub_zero] at within
    exact within
  · rintro ⟨before', entry', after', text', zero, first⟩
    have none_ := cut_first (text.symm.trans text') begun zero first
    rw [none_, Nat.zero_add] at index left size played
    refine ⟨?_, ?_, ?_⟩
    · dsimp only
      rw [none_, Nat.zero_add, index, text]
      exact durations_less (by omega) (by omega) none_
    · dsimp only
      have number : table.length = before.length + (after.length + 1) := by
        rw [text, List.length_append, List.length_cons]
      rw [List.length_cons, UInt32.toNat_sub, UInt32.toNat_ofNat_of_lt' (by rw [UInt32.size]; omega),
        UInt32.toNat_ofNat_of_lt' length]
      omega
    · dsimp only
      rw [none_, Nat.zero_add, index]
      exact played

/-- Two samples of a second and then five of two seconds, from half a second on. -/
theorem update_stts_first_entry :
    let table : List SttsEntry := [⟨2, 1000⟩, ⟨5, 2000⟩]
    ∃ u, ngxHttpMp4UpdateSttsAtom 500 1000 table = some u ∧
      (SttsCut table 500 u ↔
        ∃ before entry after, table = before ++ entry :: after ∧ (∀ e ∈ before, e.count = 0) ∧
          500 < entry.count.toNat * entry.duration.toNat) :=
  update_stts_iff 500 1000 [⟨2, 1000⟩, ⟨5, 2000⟩] (by decide) (by decide) (by decide) (by decide)

/-- From two seconds on no sample of the second entry is to be removed, and two are. -/
theorem update_stts_second_entry :
    ¬ ∀ (start : UInt64) (timescale : UInt32) (table : List SttsEntry), table.length < 2 ^ 32 →
      sampleCount table < 2 ^ 32 → span table < 2 ^ 32 →
      start.toNat * timescale.toNat / 1000 < span table →
      ∀ u, ngxHttpMp4UpdateSttsAtom start timescale table = some u →
        SttsCut table (start.toNat * timescale.toNat / 1000) u := by
  intro all
  have cut := (all 2000 1000 [⟨2, 1000⟩, ⟨5, 2000⟩] (by decide) (by decide) (by decide) (by decide)
    ⟨2, [⟨3, 2000⟩], 1, 24⟩ (by decide)).samples
  exact absurd cut (by decide)

end NgxFormal.Http.Mp4
