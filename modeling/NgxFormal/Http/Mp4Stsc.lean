import NgxFormal.Http.Mp4Stts

/-! `ngx_http_mp4_update_stsc_atom`: the table of the samples in each chunk, cut at the start
sample. -/

namespace NgxFormal.Http.Mp4

/-- `ngx_mp4_stsc_entry_t` -/
structure StscEntry where
  chunk : UInt32
  samples : UInt32
  id : UInt32
  deriving DecidableEq, Repr

/-- `sizeof(ngx_mp4_stsc_atom_t)` and `sizeof(ngx_mp4_stsc_entry_t)` -/
def stscAtomSize : Nat := 16
def stscEntrySize : Nat := 12

/-- What `NGX_OK` leaves: `trak->start_chunk` and `trak->chunk_samples`, `trak->stsc_chunk_entry` if
it is put out, the entries from `data->pos` on, and the entries count and the size of the atom. -/
structure StscUpdate where
  startChunk : UInt64
  chunkSamples : UInt64
  chunkEntry : Option StscEntry
  data : List StscEntry
  entries : UInt32
  atomSize : Nat
  deriving DecidableEq, Repr

/-- `while (entry < end)`, up to `found`: the entry of the run, the ones behind it, `start_sample` and
`entries`. -/
def stscLoop (chunks : UInt32) : StscEntry → List StscEntry → UInt32 → UInt32 →
    Option (StscEntry × List StscEntry × UInt32 × UInt32)
  | entry, [], startSample, entries =>
    -- the number of the last chunk stands in for the first chunk of a next run
    if startSample > (chunks - entry.chunk) * entry.samples then none
    else some (entry, [], startSample, entries)
  | entry, next :: rest, startSample, entries =>
    let n := (next.chunk - entry.chunk) * entry.samples
    if startSample ≤ n then some (entry, next :: rest, startSample, entries)
    else stscLoop chunks next rest (startSample - n) (entries - 1)

/-- What follows `found`. -/
def stscCut (entry : StscEntry) (rest : List StscEntry) (startSample entries : UInt32) :
    Option StscUpdate :=
  if entry.samples = 0 then none
  else
    let startChunk := (entry.chunk - 1).toUInt64 + (startSample / entry.samples).toUInt64
    let chunkSamples := (startSample % entry.samples).toUInt64
    let renumbered := rest.map fun entry =>
      { entry with chunk := entry.chunk - startChunk.toUInt32 }
    let atomSize := stscAtomSize + stscEntrySize * (rest.length + 1)
    if chunkSamples ≠ 0 then
      some {
        startChunk := startChunk
        chunkSamples := chunkSamples
        chunkEntry := some ⟨1, entry.samples - chunkSamples.toUInt32, entry.id⟩
        data := { entry with chunk := 2 } :: renumbered
        entries := entries + 1
        atomSize := atomSize + stscEntrySize }
    else
      some {
        startChunk := startChunk
        chunkSamples := chunkSamples
        chunkEntry := none
        data := { entry with chunk := 1 } :: renumbered
        entries := entries + 1
        atomSize := atomSize }

/-- `ngx_http_mp4_update_stsc_atom` of a table that starts with `entry` -/
def ngxHttpMp4UpdateStscAtom (startSample : UInt64) (chunks : UInt32) (entry : StscEntry)
    (rest : List StscEntry) : Option StscUpdate :=
  (stscLoop chunks entry rest startSample.toUInt32 (UInt32.ofNat (entry :: rest).length - 1)).bind
    fun found => stscCut found.1 found.2.1 found.2.2.1 found.2.2.2

/-- The entry that holds for a chunk: the last one that does not start behind it. -/
def entryOf : List StscEntry → Nat → Option StscEntry
  | [], _ => none
  | entry :: rest, chunk =>
    (entryOf rest chunk).or (if entry.chunk.toNat ≤ chunk then some entry else none)

/-- The number of the samples in a chunk. -/
def samplesOf (table : List StscEntry) (chunk : Nat) : Nat :=
  ((entryOf table chunk).map fun entry => entry.samples.toNat).getD 0

/-- The number of the samples in the first `k` chunks. -/
def samplesBefore (table : List StscEntry) (k : Nat) : Nat :=
  ((List.range k).map fun chunk => samplesOf table (chunk + 1)).sum

/-- The first chunks go up from 1, and no chunk is empty. -/
structure WellFormed (table : List StscEntry) : Prop where
  first : ∀ entry, table.head? = some entry → entry.chunk = 1
  sorted : table.Pairwise fun entry next => entry.chunk.toNat < next.chunk.toNat
  positive : ∀ entry ∈ table, entry.samples ≠ 0
  length : table.length < 2 ^ 32

/-- The table that is put out, as far as its entries count says. -/
def StscUpdate.table (u : StscUpdate) : List StscEntry :=
  (u.chunkEntry.toList ++ u.data).take u.entries.toNat

/-- What an entry says of its chunks, if `dropped` samples are not counted. -/
def StscEntry.holds (dropped : Nat) (entry : StscEntry) : Nat × UInt32 :=
  (entry.samples.toNat - dropped, entry.id)

/-- The chunks from the one with the start sample on are the chunks of the new table, the first one
without the samples before the start sample. -/
structure StscMaps (table : List StscEntry) (chunks start : Nat) (u : StscUpdate) : Prop where
  place : samplesBefore table u.startChunk.toNat + u.chunkSamples.toNat = start
  inside : u.startChunk.toNat < chunks ∧
    u.chunkSamples.toNat < samplesOf table (u.startChunk.toNat + 1)
  maps : ∀ c, 1 ≤ c → u.startChunk.toNat + c ≤ chunks →
    (entryOf u.table c).map (StscEntry.holds 0) =
      (entryOf table (u.startChunk.toNat + c)).map
        (StscEntry.holds (if c = 1 then u.chunkSamples.toNat else 0))

/-- For each run up to the one with the start sample, what is left of the start sample compares with
the number of samples in 32 bits as it does without bounds; in the last run the start sample is not
behind the first one of the last chunk. -/
def Counted (chunks : Nat) : StscEntry → List StscEntry → Nat → Prop
  | entry, [], start =>
    start < 2 ^ 32 ∧ start ≤ (chunks - entry.chunk.toNat) * entry.samples.toNat % 2 ^ 32
  | entry, next :: rest, start =>
    if start ≤ (next.chunk.toNat - entry.chunk.toNat) * entry.samples.toNat then
      start < 2 ^ 32 ∧
        start ≤ (next.chunk.toNat - entry.chunk.toNat) * entry.samples.toNat % 2 ^ 32
    else
      (next.chunk.toNat - entry.chunk.toNat) * entry.samples.toNat % 2 ^ 32 < start % 2 ^ 32 ∧
        Counted chunks next rest
          (start - (next.chunk.toNat - entry.chunk.toNat) * entry.samples.toNat)

/-- Nothing is lost with the last entry: a chunk starts with the start sample, or the start sample is
before the last run, which has no chunk or is like the run before it. -/
def LastSpare (table : List StscEntry) (chunks start : Nat) : Prop :=
  (∃ k, samplesBefore table k = start) ∨
    ∃ init entry last, table = init ++ [entry, last] ∧
      start < samplesBefore table (last.chunk.toNat - 1) ∧
      (chunks < last.chunk.toNat ∨ entry.samples = last.samples ∧ entry.id = last.id)

section Table

variable {table before rest : List StscEntry} {entry next : StscEntry} {chunks c j k : Nat}

theorem entryOf_append (first second : List StscEntry) (c : Nat) :
    entryOf (first ++ second) c = (entryOf second c).or (entryOf first c) := by
  induction first with
  | nil => rw [List.nil_append, entryOf, Option.or_none]
  | cons entry first ih => rw [List.cons_append, entryOf, ih, entryOf, Option.or_assoc]

theorem entryOf_none (behind : ∀ e ∈ rest, c < e.chunk.toNat) : entryOf rest c = none := by
  induction rest with
  | nil => rfl
  | cons e rest ih =>
    have here := behind e List.mem_cons_self
    rw [entryOf, ih fun e member => behind e (List.mem_cons_of_mem _ member), if_neg (by omega)]
    rfl

theorem entryOf_from (begun : entry.chunk.toNat ≤ c) :
    entryOf (before ++ entry :: rest) c = some ((entryOf rest c).getD entry) := by
  rw [entryOf_append, entryOf, if_pos begun]
  cases entryOf rest c <;> rfl

theorem entryOf_mem (known : entryOf rest c = some entry) : entry ∈ rest := by
  induction rest with
  | nil => exact absurd known (by simp [entryOf])
  | cons e rest ih =>
    rw [entryOf] at known
    cases later : entryOf rest c with
    | none =>
      rw [later, Option.none_or] at known
      split at known
      · rw [Option.some.inj known]
        exact List.mem_cons_self
      · exact absurd known (by simp)
    | some e' =>
      rw [later, Option.some_or] at known
      rw [known] at later
      exact List.mem_cons_of_mem _ (ih later)

theorem samplesBefore_succ (table : List StscEntry) (k : Nat) :
    samplesBefore table (k + 1) = samplesBefore table k + samplesOf table (k + 1) := by
  rw [samplesBefore, List.range_succ, List.map_append, List.sum_append, samplesBefore]
  rfl

theorem samplesBefore_mono (le : j ≤ k) : samplesBefore table j ≤ samplesBefore table k := by
  induction le with
  | refl => exact Nat.le_refl _
  | step _ ih =>
    rw [samplesBefore_succ]
    exact le_trans ih (Nat.le_add_right _ _)

theorem samplesBefore_run (text : table = before ++ entry :: rest) (one : 1 ≤ entry.chunk.toNat)
    (behind : ∀ e ∈ rest, entry.chunk.toNat - 1 + j < e.chunk.toNat) :
    samplesBefore table (entry.chunk.toNat - 1 + j) =
      samplesBefore table (entry.chunk.toNat - 1) + j * entry.samples.toNat := by
  induction j with
  | zero => rw [Nat.add_zero, Nat.zero_mul, Nat.add_zero]
  | succ j ih =>
    have far : ∀ e ∈ rest, entry.chunk.toNat - 1 + j + 1 < e.chunk.toNat := behind
    have within : samplesOf table (entry.chunk.toNat - 1 + j + 1) = entry.samples.toNat := by
      rw [samplesOf, text, entryOf_from (by omega), entryOf_none far]
      rfl
    rw [← Nat.add_assoc, samplesBefore_succ, within,
      ih fun e member => Nat.lt_of_succ_lt (far e member), Nat.succ_mul, Nat.add_assoc]

theorem WellFormed.behind (formed : WellFormed (before ++ entry :: rest)) :
    ∀ e ∈ rest, entry.chunk.toNat < e.chunk.toNat := by
  have tail := (List.pairwise_append.mp formed.sorted).2.1
  exact fun e member => (List.pairwise_cons.mp tail).1 e member

theorem WellFormed.one_le (formed : WellFormed table) (member : entry ∈ table) :
    1 ≤ entry.chunk.toNat := by
  cases table with
  | nil => exact absurd member List.not_mem_nil
  | cons first table =>
    have one : first.chunk.toNat = 1 := by
      rw [formed.first first rfl]
      rfl
    rcases List.mem_cons.mp member with rfl | later
    · omega
    · have above := (List.pairwise_cons.mp formed.sorted).1 entry later
      omega

theorem WellFormed.behind_next (formed : WellFormed (before ++ entry :: next :: rest)) :
    ∀ e ∈ next :: rest, next.chunk.toNat ≤ e.chunk.toNat := by
  have tail := (List.pairwise_append.mp formed.sorted).2.1
  have sorted := (List.pairwise_cons.mp tail).2
  intro e member
  rcases List.mem_cons.mp member with rfl | later
  · exact Nat.le_refl _
  · exact Nat.le_of_lt ((List.pairwise_cons.mp sorted).1 e later)

theorem WellFormed.run (formed : WellFormed (before ++ entry :: next :: rest)) :
    samplesBefore (before ++ entry :: next :: rest) (next.chunk.toNat - 1) =
      samplesBefore (before ++ entry :: next :: rest) (entry.chunk.toNat - 1) +
        (next.chunk.toNat - entry.chunk.toNat) * entry.samples.toNat := by
  have one : 1 ≤ entry.chunk.toNat := formed.one_le (by simp)
  have up := formed.behind next List.mem_cons_self
  have place : next.chunk.toNat - 1 =
      entry.chunk.toNat - 1 + (next.chunk.toNat - entry.chunk.toNat) := by omega
  have all := formed.behind_next
  rw [place]
  apply samplesBefore_run rfl one
  intro e member
  have above := all e member
  omega

end Table

/-- The number of the samples in a run, in 32 bits. -/
def run32 (chunks : UInt32) (entry : StscEntry) : List StscEntry → UInt32
  | [] => (chunks - entry.chunk) * entry.samples
  | next :: _ => (next.chunk - entry.chunk) * entry.samples

section Loop

variable {table before rest rest' : List StscEntry} {entry entry' next : StscEntry}
  {chunks startSample s' entries entries' chunk : UInt32} {start s : Nat} {u : StscUpdate}

theorem run_toNat (up : entry.chunk.toNat ≤ chunk.toNat) :
    ((chunk - entry.chunk) * entry.samples).toNat =
      (chunk.toNat - entry.chunk.toNat) * entry.samples.toNat % 2 ^ 32 := by
  rw [UInt32.toNat_mul, UInt32.toNat_sub_of_le _ _ (UInt32.le_iff_toNat_le.mpr up)]

theorem stscLoop_some
    (found : stscLoop chunks entry rest startSample entries = some (entry', rest', s', entries')) :
    ∃ before, entry :: rest = before ++ entry' :: rest' ∧
      entries' = entries - UInt32.ofNat before.length ∧ s' ≤ run32 chunks entry' rest' := by
  induction rest generalizing entry startSample entries with
  | nil =>
    rw [stscLoop] at found
    by_cases out : startSample > (chunks - entry.chunk) * entry.samples
    · rw [if_pos out] at found
      exact absurd found (by simp)
    · rw [if_neg out] at found
      cases found
      exact ⟨[], rfl, (UInt32.sub_zero _).symm, UInt32.not_lt.mp out⟩
  | cons next rest ih =>
    rw [stscLoop] at found
    by_cases here : startSample ≤ (next.chunk - entry.chunk) * entry.samples
    · rw [if_pos here] at found
      cases found
      exact ⟨[], rfl, (UInt32.sub_zero _).symm, here⟩
    · rw [if_neg here] at found
      obtain ⟨before, text, number, bound⟩ := ih found
      refine ⟨entry :: before, by rw [text, List.cons_append], ?_, bound⟩
      rw [number, List.length_cons, countdown]

/-- The loop ends in the run of the start sample, with what is left of that, if and only if its
comparisons in 32 bits are right. -/
theorem stscLoop_counted (formed : WellFormed table) (text : table = before ++ entry :: rest)
    (place : samplesBefore table (entry.chunk.toNat - 1) + s = start)
    (inside : start < samplesBefore table chunks.toNat) :
    (∀ entry' rest' s' entries',
      stscLoop chunks entry rest (UInt32.ofNat s) entries = some (entry', rest', s', entries') →
      (samplesBefore table (entry'.chunk.toNat - 1) + s'.toNat = start ↔
        Counted chunks.toNat entry rest s)) ∧
    (stscLoop chunks entry rest (UInt32.ofNat s) entries = none →
      ¬ Counted chunks.toNat entry rest s) := by
  have low : (UInt32.ofNat s).toNat = s % 2 ^ 32 := UInt32.toNat_ofNat'
  induction rest generalizing before entry s entries with
  | nil =>
    have up : entry.chunk.toNat ≤ chunks.toNat := by
      by_contra less
      have early := @samplesBefore_mono table chunks.toNat (entry.chunk.toNat - 1) (by omega)
      omega
    rw [stscLoop, Counted]
    simp only [gt_iff_lt, UInt32.lt_iff_toNat_lt, run_toNat up, low]
    generalize (chunks.toNat - entry.chunk.toNat) * entry.samples.toNat = n
    constructor
    · intro entry' rest' s' entries' found
      by_cases out : n % 2 ^ 32 < s % 2 ^ 32
      · rw [if_pos out] at found
        exact absurd found (by simp)
      · rw [if_neg out] at found
        cases found
        rw [low]
        omega
    · intro none_
      by_cases out : n % 2 ^ 32 < s % 2 ^ 32
      · omega
      · rw [if_neg out] at none_
        exact absurd none_ (by simp)
  | cons next rest ih =>
    subst text
    have up := formed.behind next List.mem_cons_self
    have run := formed.run
    have later : before ++ entry :: next :: rest = (before ++ [entry]) ++ next :: rest := by simp
    rw [stscLoop, Counted]
    simp only [UInt32.le_iff_toNat_le, run_toNat (Nat.le_of_lt up), low]
    have passed : ∀ m, (next.chunk.toNat - entry.chunk.toNat) * entry.samples.toNat = m →
        m ≤ s → m % 2 ^ 32 ≤ s % 2 ^ 32 →
        UInt32.ofNat s - (next.chunk - entry.chunk) * entry.samples = UInt32.ofNat (s - m) := by
      intro m samples le le32
      apply UInt32.toNat_inj.mp
      have within : (next.chunk - entry.chunk) * entry.samples ≤ UInt32.ofNat s := by
        rw [UInt32.le_iff_toNat_le, run_toNat (Nat.le_of_lt up), low, samples]
        exact le32
      rw [UInt32.toNat_sub_of_le _ _ within, run_toNat (Nat.le_of_lt up), low, samples,
        UInt32.toNat_ofNat']
      omega
    generalize (next.chunk.toNat - entry.chunk.toNat) * entry.samples.toNat = n at run passed
    by_cases here : s % 2 ^ 32 ≤ n % 2 ^ 32
    · rw [if_pos here]
      refine ⟨?_, by simp⟩
      intro entry' rest' s' entries' found
      cases found
      rw [low]
      by_cases within : s ≤ n
      · rw [if_pos within]
        omega
      · rw [if_neg within]
        omega
    · rw [if_neg here]
      by_cases within : s ≤ n
      · rw [if_pos within]
        have wrong : ¬ (s < 2 ^ 32 ∧ s ≤ n % 2 ^ 32) := by omega
        refine ⟨?_, fun _ => wrong⟩
        intro entry' rest' s' entries' found
        obtain ⟨middle, split, _, _⟩ := stscLoop_some found
        have member : entry' ∈ next :: rest := by
          rw [split]
          simp
        have above := @samplesBefore_mono (before ++ entry :: next :: rest) _ _
          (Nat.sub_le_sub_right (formed.behind_next entry' member) 1)
        have strict : s < n := by
          by_contra equal
          have same : s = n := by omega
          rw [same] at here
          exact here (Nat.le_refl _)
        constructor
        · intro equal
          omega
        · intro right
          exact absurd right wrong
      · rw [if_neg within, passed n rfl (by omega) (by omega)]
        have less : n % 2 ^ 32 < s % 2 ^ 32 := by omega
        rw [and_iff_right less]
        exact ih later (by omega) UInt32.toNat_ofNat'

theorem stscCut_place (formed : WellFormed table) (text : table = before ++ entry :: rest)
    (bound : s' ≤ run32 chunks entry rest) (cut : stscCut entry rest s' entries = some u) :
    u.startChunk.toNat = entry.chunk.toNat - 1 + s'.toNat / entry.samples.toNat ∧
      u.chunkSamples.toNat = s'.toNat % entry.samples.toNat ∧
      (∀ e ∈ rest, u.startChunk.toNat + (if u.chunkSamples = 0 then 0 else 1) < e.chunk.toNat) ∧
      samplesBefore table u.startChunk.toNat + u.chunkSamples.toNat =
        samplesBefore table (entry.chunk.toNat - 1) + s'.toNat := by
  subst text
  have one : 1 ≤ entry.chunk.toNat := formed.one_le (by simp)
  have positive : entry.samples ≠ 0 := formed.positive entry (by simp)
  have some_ : 0 < entry.samples.toNat := by
    rcases Nat.eq_zero_or_pos entry.samples.toNat with zero | pos
    · exact absurd (UInt32.toNat_inj.mp zero) positive
    · exact pos
  have chunk : u.startChunk =
      (entry.chunk - 1).toUInt64 + (s' / entry.samples).toUInt64 ∧
      u.chunkSamples = (s' % entry.samples).toUInt64 := by
    rw [stscCut, if_neg positive] at cut
    dsimp only at cut
    split at cut
    · rw [← Option.some.inj cut]
      exact ⟨rfl, rfl⟩
    · rw [← Option.some.inj cut]
      exact ⟨rfl, rfl⟩
  have less : (1 : UInt32) ≤ entry.chunk := UInt32.le_iff_toNat_le.mpr one
  have startChunk : u.startChunk.toNat =
      entry.chunk.toNat - 1 + s'.toNat / entry.samples.toNat := by
    have small := entry.chunk.toNat_lt
    have quotient := (s' / entry.samples).toNat_lt
    have oneNat : (1 : UInt32).toNat = 1 := rfl
    rw [UInt32.toNat_div] at quotient
    rw [chunk.1, UInt64.toNat_add, UInt32.toNat_toUInt64, UInt32.toNat_toUInt64,
      UInt32.toNat_sub_of_le _ _ less, UInt32.toNat_div, oneNat]
    exact Nat.mod_eq_of_lt (by omega)
  have chunkSamples : u.chunkSamples.toNat = s'.toNat % entry.samples.toNat := by
    rw [chunk.2, UInt32.toNat_toUInt64, UInt32.toNat_mod]
  have zero_iff : u.chunkSamples = 0 ↔ s'.toNat % entry.samples.toNat = 0 := by
    rw [← chunkSamples]
    exact ⟨fun zero => by rw [zero]; rfl, fun zero => UInt64.toNat_inj.mp zero⟩
  have ahead : ∀ e ∈ rest,
      u.startChunk.toNat + (if u.chunkSamples = 0 then 0 else 1) < e.chunk.toNat := by
    cases rest with
    | nil => exact fun e member => absurd member List.not_mem_nil
    | cons next rest =>
      intro e member
      have up := formed.behind next List.mem_cons_self
      have above := formed.behind_next e member
      have small : s'.toNat ≤ (next.chunk.toNat - entry.chunk.toNat) * entry.samples.toNat := by
        have bound32 := UInt32.le_iff_toNat_le.mp bound
        rw [run32, run_toNat (Nat.le_of_lt up)] at bound32
        exact le_trans bound32 (Nat.mod_le _ _)
      rw [startChunk]
      have quotient : s'.toNat / entry.samples.toNat ≤ next.chunk.toNat - entry.chunk.toNat :=
        Nat.div_le_of_le_mul (by rw [Nat.mul_comm]; exact small)
      by_cases zero : u.chunkSamples = 0
      · rw [if_pos zero]
        omega
      · rw [if_neg zero]
        have strict : s'.toNat / entry.samples.toNat ≠ next.chunk.toNat - entry.chunk.toNat := by
          intro equal
          have whole := Nat.div_add_mod s'.toNat entry.samples.toNat
          rw [equal, Nat.mul_comm] at whole
          exact zero (zero_iff.mpr (by omega))
        omega
  refine ⟨startChunk, chunkSamples, ahead, ?_⟩
  rw [startChunk, samplesBefore_run rfl one, chunkSamples, Nat.add_assoc, Nat.mul_comm,
    Nat.div_add_mod]
  intro e member
  have above := ahead e member
  rw [startChunk] at above
  omega

end Loop

section Maps

variable {table before rest mid : List StscEntry} {entry last : StscEntry} {k32 : UInt32}
  {chunks c k start : Nat} {s' entries : UInt32} {u : StscUpdate}

theorem entryOf_renumbered (low : k32.toNat = k) (ahead : ∀ e ∈ rest, k < e.chunk.toNat) (c : Nat) :
    (entryOf (rest.map fun entry => { entry with chunk := entry.chunk - k32 }) c).map
      (StscEntry.holds 0) = (entryOf rest (k + c)).map (StscEntry.holds 0) := by
  induction rest with
  | nil => rfl
  | cons e rest ih =>
    have here := ahead e List.mem_cons_self
    have number : (e.chunk - k32).toNat = e.chunk.toNat - k := by
      rw [UInt32.toNat_sub_of_le _ _ (by rw [UInt32.le_iff_toNat_le]; omega), low]
    have later := ih fun e member => ahead e (List.mem_cons_of_mem _ member)
    have same : e.chunk.toNat - k ≤ c ↔ e.chunk.toNat ≤ k + c := by omega
    rw [List.map_cons, entryOf, entryOf]
    dsimp only
    rw [number]
    simp only [Option.map_or, later, same]
    by_cases begun : e.chunk.toNat ≤ k + c
    · rw [if_pos begun, if_pos begun]
      rfl
    · rw [if_neg begun, if_neg begun]

theorem entryOf_head {head : UInt32} (low : k32.toNat = k) (ahead : ∀ e ∈ rest, k < e.chunk.toNat)
    (begun : entry.chunk.toNat ≤ k + c) (first : head.toNat ≤ c) :
    (entryOf ({ entry with chunk := head } ::
        rest.map fun entry => { entry with chunk := entry.chunk - k32 }) c).map
      (StscEntry.holds 0) =
    (entryOf (before ++ entry :: rest) (k + c)).map (StscEntry.holds 0) := by
  have renumbered := entryOf_renumbered low ahead c
  rw [entryOf_from begun, entryOf, if_pos first, Option.map_or, renumbered]
  cases entryOf rest (k + c) <;> rfl

/-- An entry that the last one of a table hides. -/
theorem entryOf_last (init : List StscEntry) (last : StscEntry) (c : Nat) :
    entryOf (init ++ [last]) c =
      if last.chunk.toNat ≤ c then some last else entryOf init c := by
  rw [entryOf_append, entryOf]
  by_cases begun : last.chunk.toNat ≤ c
  · rw [if_pos begun, if_pos begun]
    rfl
  · rw [if_neg begun, if_neg begun]
    rfl

/-- A start sample inside a chunk is the first one of none. -/
theorem not_starts (after : samplesBefore table k < start)
    (within : start < samplesBefore table (k + 1)) : ¬ ∃ m, samplesBefore table m = start := by
  rintro ⟨m, equal⟩
  rcases Nat.lt_or_ge k m with behind | before
  · have above := @samplesBefore_mono table (k + 1) m behind
    omega
  · have below := @samplesBefore_mono table m k before
    omega

theorem maps_whole (formed : WellFormed (before ++ entry :: rest))
    (length : entries.toNat = rest.length) (whole : u.chunkSamples = 0)
    (cut : stscCut entry rest s' entries = some u)
    (low : u.startChunk.toNat < 2 ^ 32) (begun : entry.chunk.toNat ≤ u.startChunk.toNat + 1)
    (ahead : ∀ e ∈ rest, u.startChunk.toNat < e.chunk.toNat) (one : 1 ≤ c) :
    (entryOf u.table c).map (StscEntry.holds 0) =
      (entryOf (before ++ entry :: rest) (u.startChunk.toNat + c)).map
        (StscEntry.holds (if c = 1 then u.chunkSamples.toNat else 0)) := by
  have size := formed.length
  rw [List.length_append, List.length_cons] at size
  have positive : entry.samples ≠ 0 := formed.positive entry (by simp)
  have nothing : (if c = 1 then u.chunkSamples.toNat else 0) = 0 := by
    rw [whole]
    exact ite_self _
  have low32 : u.startChunk.toUInt32.toNat = u.startChunk.toNat := by
    rw [UInt64.toNat_toUInt32, Nat.mod_eq_of_lt low]
  have head := @entryOf_head before rest entry u.startChunk.toUInt32 c u.startChunk.toNat 1 low32 ahead
    (by omega) one
  rw [nothing, ← head]
  rw [stscCut, if_neg positive] at cut
  dsimp only at cut
  split at cut
  · rename_i left
    rw [← Option.some.inj cut] at whole
    exact absurd whole left
  · have count : (entries + 1).toNat = rest.length + 1 := by
      have oneNat : (1 : UInt32).toNat = 1 := rfl
      rw [UInt32.toNat_add, length, oneNat]
      exact Nat.mod_eq_of_lt (by omega)
    rw [← Option.some.inj cut, StscUpdate.table]
    dsimp only
    rw [count, Option.toList_none, List.nil_append, List.take_of_length_le (by simp)]

theorem table_inside (positive : entry.samples ≠ 0) (size : rest.length + 1 < 2 ^ 32)
    (length : entries.toNat = rest.length) (inside : u.chunkSamples ≠ 0)
    (cut : stscCut entry rest s' entries = some u) :
    u.table = ⟨1, entry.samples - u.chunkSamples.toUInt32, entry.id⟩ ::
      ({ entry with chunk := 2 } :: rest.map fun entry =>
        { entry with chunk := entry.chunk - u.startChunk.toUInt32 }).take rest.length := by
  rw [stscCut, if_neg positive] at cut
  dsimp only at cut
  split at cut
  · have count : (entries + 1).toNat = rest.length + 1 := by
      rw [UInt32.toNat_add, length]
      exact Nat.mod_eq_of_lt size
    rw [← Option.some.inj cut, StscUpdate.table]
    dsimp only
    rw [count]
    rfl
  · rename_i zero
    rw [← Option.some.inj cut] at inside
    exact absurd inside zero

theorem maps_first (table_ : u.table = ⟨1, entry.samples - u.chunkSamples.toUInt32, entry.id⟩ :: rest)
    (behind : ∀ e ∈ rest, 2 ≤ e.chunk.toNat) (less : u.chunkSamples.toNat < entry.samples.toNat) :
    (entryOf u.table 1).map (StscEntry.holds 0) =
      some (StscEntry.holds u.chunkSamples.toNat entry) := by
  have none_ : entryOf rest 1 = none := entryOf_none behind
  have small := entry.samples.toNat_lt
  have low : u.chunkSamples.toUInt32.toNat = u.chunkSamples.toNat := by
    rw [UInt64.toNat_toUInt32, Nat.mod_eq_of_lt (by omega)]
  have left : (entry.samples - u.chunkSamples.toUInt32).toNat =
      entry.samples.toNat - u.chunkSamples.toNat := by
    rw [UInt32.toNat_sub_of_le _ _ (by rw [UInt32.le_iff_toNat_le]; omega), low]
  have oneNat : (1 : UInt32).toNat ≤ 1 := Nat.le_refl 1
  rw [table_, entryOf, none_]
  dsimp only
  rw [if_pos oneNat, Option.none_or, Option.map_some, StscEntry.holds, StscEntry.holds]
  dsimp only
  rw [left, Nat.sub_zero]

end Maps

section Cut

variable {table before rest init mid : List StscEntry} {entry prev last : StscEntry}
  {chunks s' entries : UInt32} {start k : Nat} {u : StscUpdate}

/-- The last run of a cut inside a chunk has a chunk behind the cut one, and its entry is not
counted. -/
theorem not_maps_last (formed : WellFormed (before ++ [entry])) (bound : s' ≤ run32 chunks entry [])
    (length : entries.toNat = 0) (cut : stscCut entry [] s' entries = some u)
    (left : u.chunkSamples ≠ 0) (up : entry.chunk.toNat ≤ chunks.toNat) :
    ¬ StscMaps (before ++ [entry]) chunks.toNat start u := by
  intro maps
  obtain ⟨startChunk, chunkSamples, _, _⟩ := stscCut_place formed rfl bound cut
  have positive : entry.samples ≠ 0 := formed.positive entry (by simp)
  have one : 1 ≤ entry.chunk.toNat := formed.one_le (by simp)
  have table_ := table_inside positive (by decide) length left cut
  rw [List.length_nil, List.take_zero] at table_
  have dropped : u.chunkSamples.toNat ≠ 0 := fun zero => left (UInt64.toNat_inj.mp zero)
  have some_ : 0 < entry.samples.toNat := by
    by_contra none_
    exact positive (UInt32.toNat_inj.mp (Nat.eq_zero_of_not_pos none_))
  have less : u.chunkSamples.toNat < entry.samples.toNat := by
    rw [chunkSamples]
    exact Nat.mod_lt _ some_
  have small : s'.toNat ≤ (chunks.toNat - entry.chunk.toNat) * entry.samples.toNat := by
    have bound32 := UInt32.le_iff_toNat_le.mp bound
    rw [run32, run_toNat up] at bound32
    exact le_trans bound32 (Nat.mod_le _ _)
  have behind : s'.toNat / entry.samples.toNat < chunks.toNat - entry.chunk.toNat := by
    have quotient : s'.toNat / entry.samples.toNat ≤ chunks.toNat - entry.chunk.toNat :=
      Nat.div_le_of_le_mul (by rw [Nat.mul_comm]; exact small)
    have strict : s'.toNat / entry.samples.toNat ≠ chunks.toNat - entry.chunk.toNat := by
      intro equal
      have whole := Nat.div_add_mod s'.toNat entry.samples.toNat
      rw [equal, Nat.mul_comm] at whole
      omega
    omega
  generalize s'.toNat / entry.samples.toNat = quotient at startChunk behind
  have second := maps.maps 2 (by decide) (by omega)
  have begun : entry.chunk.toNat ≤ u.startChunk.toNat + 2 := by omega
  have oneNat : (1 : UInt32).toNat ≤ 2 := by decide
  have twoOne : ¬ (2 : Nat) = 1 := by decide
  have low : u.chunkSamples.toUInt32.toNat = u.chunkSamples.toNat := by
    have word := entry.samples.toNat_lt
    rw [UInt64.toNat_toUInt32, Nat.mod_eq_of_lt (by omega)]
  rw [table_, entryOf_from begun, entryOf, entryOf] at second
  dsimp only at second
  have nothing : entryOf [] 2 = none := rfl
  rw [if_pos oneNat, if_neg twoOne, nothing, Option.none_or, Option.map_some, Option.map_some,
    Option.some.injEq, Option.getD_none] at second
  have numbers := congrArg Prod.fst second
  rw [StscEntry.holds, StscEntry.holds] at numbers
  dsimp only at numbers
  rw [UInt32.toNat_sub_of_le _ _ (by rw [UInt32.le_iff_toNat_le]; omega), low] at numbers
  omega

/-- Without its last entry, a table says the same of the chunks behind `k` if the last entry has none
of them or is like the one before it. -/
theorem spare_iff (formed : WellFormed (init ++ [prev] ++ [last])) (behind : k + 1 < last.chunk.toNat) :
    (∀ c, 2 ≤ c → k + c ≤ chunks.toNat →
      (entryOf (init ++ [prev]) (k + c)).map (StscEntry.holds 0) =
        (entryOf (init ++ [prev] ++ [last]) (k + c)).map (StscEntry.holds 0)) ↔
    chunks.toNat < last.chunk.toNat ∨ prev.samples = last.samples ∧ prev.id = last.id := by
  have order : prev.chunk.toNat < last.chunk.toNat := by
    have sorted := (List.pairwise_append.mp formed.sorted).2.2
    exact sorted prev (by simp) last (by simp)
  have same : StscEntry.holds 0 prev = StscEntry.holds 0 last ↔
      prev.samples = last.samples ∧ prev.id = last.id := by
    rw [StscEntry.holds, StscEntry.holds, Prod.mk.injEq, Nat.sub_zero, Nat.sub_zero,
      UInt32.toNat_inj]
  constructor
  · intro all
    by_cases none_ : chunks.toNat < last.chunk.toNat
    · exact Or.inl none_
    · refine Or.inr (same.mp ?_)
      have place : k + (last.chunk.toNat - k) = last.chunk.toNat := by omega
      have here := all (last.chunk.toNat - k) (by omega) (by omega)
      rw [place, entryOf_last, entryOf_last, if_pos (Nat.le_of_lt order), if_pos (Nat.le_refl _),
        Option.map_some, Option.map_some] at here
      exact Option.some.inj here
  · intro spare c two inside
    rw [entryOf_last (init ++ [prev])]
    by_cases begun : last.chunk.toNat ≤ k + c
    · have like := same.mpr (spare.resolve_left (by omega))
      rw [if_pos begun, entryOf_last, if_pos (by omega), Option.map_some, Option.map_some, like]
    · rw [if_neg begun]

theorem maps_inside_iff (formed : WellFormed (before ++ entry :: (mid ++ [last])))
    (split : before ++ entry :: mid = init ++ [prev])
    (length : entries.toNat = (mid ++ [last]).length)
    (cut : stscCut entry (mid ++ [last]) s' entries = some u) (left : u.chunkSamples ≠ 0)
    (less : u.chunkSamples.toNat < entry.samples.toNat) (low : u.startChunk.toNat < 2 ^ 32)
    (begun : entry.chunk.toNat ≤ u.startChunk.toNat + 1)
    (ahead : ∀ e ∈ mid ++ [last], u.startChunk.toNat + 1 < e.chunk.toNat) :
    (∀ c, 1 ≤ c → u.startChunk.toNat + c ≤ chunks.toNat →
      (entryOf u.table c).map (StscEntry.holds 0) =
        (entryOf (before ++ entry :: (mid ++ [last])) (u.startChunk.toNat + c)).map
          (StscEntry.holds (if c = 1 then u.chunkSamples.toNat else 0))) ↔
    chunks.toNat < last.chunk.toNat ∨ prev.samples = last.samples ∧ prev.id = last.id := by
  have whole : before ++ entry :: (mid ++ [last]) = init ++ [prev] ++ [last] := by
    rw [← split]
    simp
  have size := formed.length
  rw [List.length_append, List.length_cons] at size
  have positive : entry.samples ≠ 0 := formed.positive entry (by simp)
  have low32 : u.startChunk.toUInt32.toNat = u.startChunk.toNat := by
    rw [UInt64.toNat_toUInt32, Nat.mod_eq_of_lt low]
  have table_ := table_inside positive (by omega) length left cut
  have taken : ({ entry with chunk := 2 } :: (mid ++ [last]).map fun entry =>
      { entry with chunk := entry.chunk - u.startChunk.toUInt32 }).take (mid ++ [last]).length =
      { entry with chunk := 2 } :: mid.map fun entry =>
        { entry with chunk := entry.chunk - u.startChunk.toUInt32 } := by
    rw [List.length_append, List.length_singleton, List.take_succ_cons, List.map_append,
      List.take_append_of_le_length (by simp), List.take_of_length_le (by simp)]
  rw [taken] at table_
  have midAhead : ∀ e ∈ mid, u.startChunk.toNat < e.chunk.toNat := by
    intro e member
    have above := ahead e (List.mem_append_left _ member)
    omega
  have later : ∀ e ∈ { entry with chunk := 2 } :: mid.map fun entry =>
      { entry with chunk := entry.chunk - u.startChunk.toUInt32 }, 2 ≤ e.chunk.toNat := by
    intro e member
    rcases List.mem_cons.mp member with rfl | renumbered
    · exact Nat.le_refl 2
    · obtain ⟨old, inside, rfl⟩ := List.mem_map.mp renumbered
      have above := ahead old (List.mem_append_left _ inside)
      dsimp only
      rw [UInt32.toNat_sub_of_le _ _ (by rw [UInt32.le_iff_toNat_le]; omega), low32]
      omega
  have first : (entryOf u.table 1).map (StscEntry.holds 0) =
      (entryOf (before ++ entry :: (mid ++ [last])) (u.startChunk.toNat + 1)).map
        (StscEntry.holds (if 1 = 1 then u.chunkSamples.toNat else 0)) := by
    have none_ : entryOf (mid ++ [last]) (u.startChunk.toNat + 1) = none := entryOf_none ahead
    rw [maps_first table_ later less, entryOf_from begun, none_, if_pos rfl]
    rfl
  have second : ∀ c, 2 ≤ c → (entryOf u.table c).map (StscEntry.holds 0) =
      (entryOf (init ++ [prev]) (u.startChunk.toNat + c)).map (StscEntry.holds 0) := by
    intro c two
    have head := @entryOf_head before mid entry u.startChunk.toUInt32 c u.startChunk.toNat 2 low32
      midAhead (by omega) two
    have some_ := head
    rw [entryOf_from (by omega)] at some_
    rw [← split, ← head, table_, entryOf]
    cases known : entryOf ({ entry with chunk := 2 } :: mid.map fun entry =>
        { entry with chunk := entry.chunk - u.startChunk.toUInt32 }) c with
    | none =>
      rw [known] at some_
      exact absurd some_ (by simp)
    | some e => rfl
  rw [← spare_iff (k := u.startChunk.toNat) (by rw [← whole]; exact formed)
    (ahead last (by simp)), ← whole]
  constructor
  · intro all c two inside
    have here := all c (by omega) inside
    rw [second c two, if_neg (by omega)] at here
    exact here
  · intro all c one inside
    by_cases isFirst : c = 1
    · rw [isFirst]
      exact first
    · rw [second c (by omega), if_neg isFirst]
      exact all c (by omega) inside

theorem stscMaps_iff (formed : WellFormed table) (text : table = before ++ entry :: rest)
    (bound : s' ≤ run32 chunks entry rest) (length : entries.toNat = rest.length)
    (cut : stscCut entry rest s' entries = some u)
    (inside : start < samplesBefore table chunks.toNat)
    (place : samplesBefore table (entry.chunk.toNat - 1) + s'.toNat = start) :
    StscMaps table chunks.toNat start u ↔ LastSpare table chunks.toNat start := by
  obtain ⟨startChunk, chunkSamples, ahead, position⟩ := stscCut_place formed text bound cut
  rw [place] at position
  have member : entry ∈ table := by
    rw [text]
    simp
  have one := formed.one_le member
  have positive : ∀ e ∈ table, 0 < e.samples.toNat := by
    intro e listed
    by_contra none_
    exact formed.positive e listed (UInt32.toNat_inj.mp (Nat.eq_zero_of_not_pos none_))
  have few : u.startChunk.toNat < chunks.toNat := by
    by_contra more
    have above := @samplesBefore_mono table chunks.toNat u.startChunk.toNat (by omega)
    omega
  have word := chunks.toNat_lt
  have begun : entry.chunk.toNat ≤ u.startChunk.toNat + 1 := by
    generalize s'.toNat / entry.samples.toNat = quotient at startChunk
    omega
  by_cases whole : u.chunkSamples = 0
  · have zero : u.chunkSamples.toNat = 0 := by
      rw [whole]
      rfl
    rw [if_pos whole] at ahead
    constructor
    · intro _
      exact Or.inl ⟨u.startChunk.toNat, by omega⟩
    · intro _
      refine ⟨position, ⟨few, ?_⟩, ?_⟩
      · rw [zero, samplesOf, text, entryOf_from begun]
        apply positive
        rw [text]
        cases known : entryOf rest (u.startChunk.toNat + 1) with
        | none => simp
        | some e =>
          have listed := entryOf_mem known
          simp [listed]
      · intro c atLeast _
        subst text
        exact maps_whole formed length whole cut (by omega) begun ahead atLeast
  · have less : u.chunkSamples.toNat < entry.samples.toNat := by
      rw [chunkSamples]
      exact Nat.mod_lt _ (positive entry member)
    have dropped : u.chunkSamples.toNat ≠ 0 := fun zero => whole (UInt64.toNat_inj.mp zero)
    rw [if_neg whole] at ahead
    have here : samplesOf table (u.startChunk.toNat + 1) = entry.samples.toNat := by
      rw [samplesOf, text, entryOf_from begun, entryOf_none ahead]
      rfl
    have next := samplesBefore_succ table u.startChunk.toNat
    rw [here] at next
    have starts := @not_starts table u.startChunk.toNat start (by omega) (by omega)
    rcases List.eq_nil_or_concat rest with rfl | ⟨mid, last, rfl⟩
    · have up : entry.chunk.toNat ≤ chunks.toNat := by omega
      subst text
      refine ⟨fun maps => absurd maps (not_maps_last formed bound length cut whole up), ?_⟩
      rintro (first | ⟨init, e, last, split, early, _⟩)
      · exact absurd first starts
      · have ends : before ++ [entry] = (init ++ [e]) ++ [last] := by
          rw [split]
          simp
        have same := (List.append_inj' ends rfl).2
        have equal : entry = last := by simpa using same
        rw [← equal] at early
        omega
    · rw [List.concat_eq_append] at *
      obtain ⟨init, prev, split⟩ : ∃ init prev, before ++ entry :: mid = init ++ [prev] := by
        rcases List.eq_nil_or_concat (before ++ entry :: mid) with empty | ⟨init, prev, split⟩
        · exact absurd empty (by simp)
        · exact ⟨init, prev, by rw [split, List.concat_eq_append]⟩
      subst text
      have maps := @maps_inside_iff before init mid entry prev last chunks s' entries u formed split
        length cut whole less (by omega) begun ahead
      have table_ : before ++ entry :: (mid ++ [last]) = init ++ [prev, last] := by
        have joined := congrArg (· ++ [last]) split
        simpa using joined
      constructor
      · intro right
        refine Or.inr ⟨init, prev, last, table_, ?_, maps.mp right.maps⟩
        have above := ahead last (by simp)
        have early := @samplesBefore_mono (before ++ entry :: (mid ++ [last]))
          (u.startChunk.toNat + 1) (last.chunk.toNat - 1) (by omega)
        omega
      · rintro (first | ⟨init', prev', last', split', _, spare⟩)
        · exact absurd first starts
        · have ends := table_.symm.trans split'
          have both := (List.append_inj' ends rfl).2
          have equal : prev = prev' ∧ last = last' := by simpa using both
          rw [← equal.1, ← equal.2] at spare
          exact ⟨position, ⟨few, by rw [here]; exact less⟩, maps.mpr spare⟩

end Cut

/-- The table is cut right, whatever well-formed one it is and at whatever sample of it, if and only
if the comparisons in 32 bits are right and nothing is lost with the last entry. -/
theorem update_stsc_iff (startSample : UInt64) (chunks : UInt32) (entry : StscEntry)
    (rest : List StscEntry) (formed : WellFormed (entry :: rest))
    (inside : startSample.toNat < samplesBefore (entry :: rest) chunks.toNat) :
    (∃ u, ngxHttpMp4UpdateStscAtom startSample chunks entry rest = some u ∧
      StscMaps (entry :: rest) chunks.toNat startSample.toNat u) ↔
    Counted chunks.toNat entry rest startSample.toNat ∧
      LastSpare (entry :: rest) chunks.toNat startSample.toNat := by
  have one : entry.chunk.toNat = 1 := by
    rw [formed.first entry rfl]
    rfl
  have none_ : samplesBefore (entry :: rest) (entry.chunk.toNat - 1) = 0 := by
    rw [one]
    rfl
  have low : startSample.toUInt32 = UInt32.ofNat startSample.toNat := by
    apply UInt32.toNat_inj.mp
    rw [UInt64.toNat_toUInt32, UInt32.toNat_ofNat']
  obtain ⟨counted, refused⟩ := @stscLoop_counted (entry :: rest) [] rest entry chunks
    (UInt32.ofNat (entry :: rest).length - 1) startSample.toNat startSample.toNat formed rfl
    (by omega) inside
  rw [ngxHttpMp4UpdateStscAtom, low]
  cases found : stscLoop chunks entry rest (UInt32.ofNat startSample.toNat)
      (UInt32.ofNat (entry :: rest).length - 1) with
  | none =>
    constructor
    · rintro ⟨u, impossible, _⟩
      exact absurd impossible (by simp)
    · intro both
      exact absurd both.1 (refused found)
  | some place =>
    obtain ⟨entry', rest', s', entries'⟩ := place
    have position := counted entry' rest' s' entries' found
    obtain ⟨before, text, number, bound⟩ := stscLoop_some found
    have size := formed.length
    have total : (entry :: rest).length = before.length + (rest'.length + 1) := by
      rw [text, List.length_append, List.length_cons]
    have length : entries'.toNat = rest'.length := by
      have small : (UInt32.ofNat (before.length + 1)).toNat = before.length + 1 :=
        UInt32.toNat_ofNat_of_lt' (by rw [UInt32.size]; omega)
      have all : (UInt32.ofNat (entry :: rest).length).toNat = (entry :: rest).length :=
        UInt32.toNat_ofNat_of_lt' size
      rw [number, countdown, UInt32.toNat_sub_of_le _ _ (by
        rw [UInt32.le_iff_toNat_le, small, all]; omega), small, all]
      omega
    have positive : entry'.samples ≠ 0 := formed.positive entry' (by rw [text]; simp)
    rw [Option.bind_some]
    dsimp only
    obtain ⟨u, cut⟩ : ∃ u, stscCut entry' rest' s' entries' = some u := by
      rw [stscCut, if_neg positive]
      dsimp only
      split
      · exact ⟨_, rfl⟩
      · exact ⟨_, rfl⟩
    rw [cut]
    constructor
    · rintro ⟨u', same, maps⟩
      rw [← Option.some.inj same] at maps
      have right := position.mp (by
        rw [← (stscCut_place formed text bound cut).2.2.2]
        exact maps.place)
      exact ⟨right, (stscMaps_iff formed text bound length cut inside (position.mpr right)).mp maps⟩
    · rintro ⟨right, spare⟩
      exact ⟨u, rfl,
        (stscMaps_iff formed text bound length cut inside (position.mpr right)).mpr spare⟩

/-- Two chunks of three samples and then two of one, cut at the second chunk. -/
theorem update_stsc_second_chunk :
    let rest : List StscEntry := [⟨3, 1, 1⟩]
    (∃ u, ngxHttpMp4UpdateStscAtom 3 4 ⟨1, 3, 1⟩ rest = some u ∧
      StscMaps (⟨1, 3, 1⟩ :: rest) 4 3 u) ↔
    Counted 4 ⟨1, 3, 1⟩ rest 3 ∧ LastSpare (⟨1, 3, 1⟩ :: rest) 4 3 :=
  update_stsc_iff 3 4 ⟨1, 3, 1⟩ [⟨3, 1, 1⟩]
    ⟨fun entry first => by rw [← Option.some.inj first], by decide, by decide, by decide⟩ (by decide)

/-- Two chunks of three samples, cut at the last sample. -/
theorem update_stsc_last_chunk :
    ¬ ∀ (startSample : UInt64) (chunks : UInt32) (entry : StscEntry) (rest : List StscEntry),
      WellFormed (entry :: rest) →
      startSample.toNat < samplesBefore (entry :: rest) chunks.toNat →
      ∃ u, ngxHttpMp4UpdateStscAtom startSample chunks entry rest = some u ∧
        StscMaps (entry :: rest) chunks.toNat startSample.toNat u := by
  intro all
  obtain ⟨u, updated, _⟩ := all 5 2 ⟨1, 3, 1⟩ []
    ⟨fun entry first => by rw [← Option.some.inj first], by decide, by decide, by decide⟩ (by decide)
  have refused : ngxHttpMp4UpdateStscAtom 5 2 ⟨1, 3, 1⟩ [] = none := by decide
  rw [refused] at updated
  cases updated

end NgxFormal.Http.Mp4
