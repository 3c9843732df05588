import NgxFormal.Core.Slab
import NgxFormal.Lib.Words
import Mathlib.Tactic.IntervalCases

/-! The three encodings of a page of chunks as one: which chunks are used, and what taking and
freeing a chunk does to that. -/

namespace NgxFormal.Core.Slab

open Function
open Lib.Bitmap (bit bit_word bit_first word_of_clear full_iff full_from behind_iff ne_zero_iff)

section Fields

variable (pool : Pool) (r q : Ref) (page : Page) (slab word : Word) (next : Ref) (prev : Prev)
  (i n k m : Nat)

@[simp] theorem setDesc_desc :
    (pool.setDesc r page).desc q = if q = r then page else pool.desc q := by
  simp [Pool.setDesc, update_apply]

@[simp] theorem setDesc_mem : (pool.setDesc r page).mem = pool.mem := rfl

@[simp] theorem setDesc_start : (pool.setDesc r page).start = pool.start := rfl

@[simp] theorem setDesc_stop : (pool.setDesc r page).stop = pool.stop := rfl

@[simp] theorem setSlab_slab :
    ((pool.setSlab r slab).desc q).slab = if q = r then slab else (pool.desc q).slab := by
  simp only [Pool.setSlab, setDesc_desc]
  split <;> rfl

@[simp] theorem setSlab_next : ((pool.setSlab r slab).desc q).next = (pool.desc q).next := by
  simp only [Pool.setSlab, setDesc_desc]
  split <;> simp_all

@[simp] theorem setSlab_prev : ((pool.setSlab r slab).desc q).prev = (pool.desc q).prev := by
  simp only [Pool.setSlab, setDesc_desc]
  split <;> simp_all

@[simp] theorem setNext_slab : ((pool.setNext r next).desc q).slab = (pool.desc q).slab := by
  simp only [Pool.setNext, setDesc_desc]
  split <;> simp_all

@[simp] theorem setNext_next :
    ((pool.setNext r next).desc q).next = if q = r then next else (pool.desc q).next := by
  simp only [Pool.setNext, setDesc_desc]
  split <;> rfl

@[simp] theorem setNext_prev : ((pool.setNext r next).desc q).prev = (pool.desc q).prev := by
  simp only [Pool.setNext, setDesc_desc]
  split <;> simp_all

@[simp] theorem setPrev_slab : ((pool.setPrev r prev).desc q).slab = (pool.desc q).slab := by
  simp only [Pool.setPrev, setDesc_desc]
  split <;> simp_all

@[simp] theorem setPrev_next : ((pool.setPrev r prev).desc q).next = (pool.desc q).next := by
  simp only [Pool.setPrev, setDesc_desc]
  split <;> simp_all

@[simp] theorem setPrev_prev :
    ((pool.setPrev r prev).desc q).prev = if q = r then prev else (pool.desc q).prev := by
  simp only [Pool.setPrev, setDesc_desc]
  split <;> rfl

@[simp] theorem setWord_mem :
    (pool.setWord i n word).mem k m = if k = i ∧ m = n then word else pool.mem k m := by
  simp only [Pool.setWord, update_apply]
  by_cases page : k = i
  · subst page
    by_cases same : m = n <;> simp [same]
  · simp [page]

end Fields

section Words

variable (w : Word) (i j : Nat)

theorem getLsbD_one_shift (small : i < 64) :
    (1#64 <<< i).getLsbD j = decide (j = i) := by
  rw [BitVec.getLsbD_shiftLeft, BitVec.getLsbD_one]
  by_cases same : j = i
  · subst same
    simp [small]
  · by_cases below : j < i
    · simp [below, same]
    · have apart : j - i ≠ 0 := by omega
      simp [below, same, apart]

theorem getLsbD_set (small : i < 64) :
    (w ||| 1#64 <<< i).getLsbD j = (w.getLsbD j || decide (j = i)) := by
  rw [BitVec.getLsbD_or, getLsbD_one_shift i j small]

theorem getLsbD_clear (small : i < 64) :
    (w &&& ~~~(1#64 <<< i)).getLsbD j = (w.getLsbD j && !decide (j = i)) := by
  rw [BitVec.getLsbD_and, BitVec.getLsbD_not, getLsbD_one_shift i j small]
  by_cases inside : j < 64
  · simp [inside]
  · have beyond : w.getLsbD j = false := BitVec.getLsbD_of_ge w j (by omega)
    simp [beyond]

theorem eq_busyWord_iff : w = busyWord ↔ ∀ i < 64, w.getLsbD i = true :=
  Lib.Bitmap.eq_allOnes_iff

theorem clearBit_spec (free : w ≠ busyWord) :
    ∃ bit, clearBit w = some bit ∧ bit < 64 ∧ w.getLsbD bit = false := by
  cases found : clearBit w with
  | none =>
    exfalso
    apply free
    rw [eq_busyWord_iff]
    intro i inside
    have all := List.find?_eq_none.mp found i (List.mem_range.mpr inside)
    simpa using all
  | some bit =>
    have clear := List.find?_some found
    have member := List.mem_of_find?_eq_some found
    exact ⟨bit, rfl, List.mem_range.mp member, by simpa using clear⟩

end Words

def chunkUsed (pool : Pool) (i shift chunk : Nat) : Bool :=
  if shift < exactShift then (pool.mem i (chunk / 64)).getLsbD (chunk % 64)
  else if shift = exactShift then (pool.desc (.page i)).slab.getLsbD chunk
  else (pool.desc (.page i)).slab.getLsbD (32 + chunk)

/-- The rest of the `slab` of a page. -/
def Tagged (pool : Pool) (i shift : Nat) : Prop :=
  let slab := (pool.desc (.page i)).slab
  if shift < exactShift then slab = BitVec.ofNat 64 shift
  else if shift = exactShift then True
  else (∀ j < 32, slab.getLsbD j = (BitVec.ofNat 64 shift).getLsbD j) ∧
    ∀ j, chunkCount shift ≤ j → slab.getLsbD (32 + j) = false

def setBit (w : Word) (bit : Nat) : Bool → Word
  | true => w ||| 1#64 <<< bit
  | false => w &&& ~~~(1#64 <<< bit)

theorem getLsbD_setBit (w : Word) {bit : Nat} (j : Nat) (v : Bool) (small : bit < 64) :
    (setBit w bit v).getLsbD j = if j = bit then v else w.getLsbD j := by
  cases v with
  | true =>
    rw [setBit, getLsbD_set w bit j small]
    by_cases same : j = bit <;> simp [same]
  | false =>
    rw [setBit, getLsbD_clear w bit j small]
    by_cases same : j = bit <;> simp [same]

/-- The pool with the bit of a chunk set or cleared. -/
def setChunk (pool : Pool) (i shift chunk : Nat) (v : Bool) : Pool :=
  if shift < exactShift then
    pool.setWord i (chunk / 64) (setBit (pool.mem i (chunk / 64)) (chunk % 64) v)
  else if shift = exactShift then
    pool.setSlab (.page i) (setBit (pool.desc (.page i)).slab chunk v)
  else pool.setSlab (.page i) (setBit (pool.desc (.page i)).slab (32 + chunk) v)

theorem chunkCount_cases {shift : Nat} (low : minShift ≤ shift) (high : shift ≤ 11) :
    (shift < exactShift → chunkCount shift = 64 * mapWords shift ∧ 0 < mapWords shift) ∧
      (shift = exactShift → chunkCount shift = 64) ∧
      (exactShift < shift → chunkCount shift ≤ 32) := by
  simp only [minShift] at low
  interval_cases shift <;> simp [chunkCount, mapWords, exactShift, pagesizeShift]

section Chunks

variable {pool : Pool} {i shift chunk : Nat}

theorem chunkUsed_setChunk (low : minShift ≤ shift) (high : shift ≤ 11)
    (inside : chunk < chunkCount shift) (k c : Nat) (v : Bool) :
    chunkUsed (setChunk pool i shift chunk v) k shift c =
      if k = i ∧ c = chunk then v else chunkUsed pool k shift c := by
  obtain ⟨small, exact, big⟩ := chunkCount_cases low high
  unfold chunkUsed setChunk
  by_cases isSmall : shift < exactShift
  · simp only [if_pos isSmall, setWord_mem]
    by_cases word : k = i ∧ c / 64 = chunk / 64
    · rw [if_pos word, getLsbD_setBit _ _ _ (Nat.mod_lt _ (by decide)), word.1, word.2]
      by_cases same : c = chunk
      · simp [same]
      · rw [if_neg (by omega), if_neg (by simp [same])]
    · have apart : ¬(k = i ∧ c = chunk) := fun both => word ⟨both.1, by rw [both.2]⟩
      rw [if_neg word, if_neg apart]
  · by_cases isExact : shift = exactShift
    · have bit : chunk < 64 := exact isExact ▸ inside
      simp only [if_neg isSmall, if_pos isExact, setSlab_slab, Ref.page.injEq]
      by_cases page : k = i
      · rw [if_pos page, getLsbD_setBit _ _ _ bit, page]
        simp
      · simp [page]
    · have count := big (by omega)
      have bit : 32 + chunk < 64 := by omega
      simp only [if_neg isSmall, if_neg isExact, setSlab_slab, Ref.page.injEq]
      by_cases page : k = i
      · rw [if_pos page, getLsbD_setBit _ _ _ bit, page]
        simp
      · simp [page]

@[simp] theorem setChunk_next (v : Bool) (r : Ref) :
    ((setChunk pool i shift chunk v).desc r).next = (pool.desc r).next := by
  unfold setChunk
  split
  · rfl
  · split <;> simp

@[simp] theorem setChunk_prev (v : Bool) (r : Ref) :
    ((setChunk pool i shift chunk v).desc r).prev = (pool.desc r).prev := by
  unfold setChunk
  split
  · rfl
  · split <;> simp

@[simp] theorem setChunk_start (v : Bool) : (setChunk pool i shift chunk v).start = pool.start := by
  unfold setChunk
  split
  · rfl
  · split <;> rfl

@[simp] theorem setChunk_stop (v : Bool) : (setChunk pool i shift chunk v).stop = pool.stop := by
  unfold setChunk
  split
  · rfl
  · split <;> rfl

theorem setChunk_ne (v : Bool) {r : Ref} (differ : r ≠ .page i) :
    (setChunk pool i shift chunk v).desc r = pool.desc r := by
  unfold setChunk
  split
  · rfl
  · split <;> simp [Pool.setSlab, differ]

theorem setChunk_mem (v : Bool) {k : Nat} (differ : k ≠ i) :
    (setChunk pool i shift chunk v).mem k = pool.mem k := by
  unfold setChunk
  split
  · simp [Pool.setWord, differ]
  · split <;> rfl

theorem chunkUsed_congr {pool' : Pool} {k s c : Nat}
    (desc : (pool'.desc (.page k)).slab = (pool.desc (.page k)).slab)
    (mem : pool'.mem k = pool.mem k) : chunkUsed pool' k s c = chunkUsed pool k s c := by
  unfold chunkUsed
  rw [desc, mem]

theorem tagged_congr {pool' : Pool} {k s : Nat}
    (desc : (pool'.desc (.page k)).slab = (pool.desc (.page k)).slab) :
    Tagged pool' k s ↔ Tagged pool k s := by
  unfold Tagged
  rw [desc]

theorem tagged_setChunk (low : minShift ≤ shift) (high : shift ≤ 11)
    (inside : chunk < chunkCount shift) (v : Bool) (tagged : Tagged pool i shift) :
    Tagged (setChunk pool i shift chunk v) i shift := by
  obtain ⟨_, _, big⟩ := chunkCount_cases low high
  unfold Tagged setChunk at *
  by_cases isSmall : shift < exactShift
  · simp only [if_pos isSmall] at tagged ⊢
    exact tagged
  · by_cases isExact : shift = exactShift
    · simp only [if_neg isSmall, if_pos isExact]
    · have count := big (by omega)
      have bit : 32 + chunk < 64 := by omega
      simp only [if_neg isSmall, if_neg isExact, setSlab_slab, if_true] at tagged ⊢
      refine ⟨fun j low => ?_, fun j beyond => ?_⟩
      · rw [getLsbD_setBit _ _ _ bit, if_neg (by omega)]
        exact tagged.1 j low
      · rw [getLsbD_setBit _ _ _ bit, if_neg (by omega)]
        exact tagged.2 j beyond

/-- A chunk is taken, and a page that gets full leaves its list. -/
def takeChunk (pool : Pool) (i shift chunk : Nat) : Option (Option (Pool × Nat)) :=
  let pool := setChunk pool i shift chunk true
  if ∀ c < chunkCount shift, chunkUsed pool i shift c = true then
    (takeOut pool (.page i) (pageType shift)).map fun pool => some (pool, chunk)
  else some (some (pool, chunk))

theorem takeSmall_eq (low : minShift ≤ shift) (small : shift < exactShift)
    (free : ∃ c < chunkCount shift, chunkUsed pool i shift c = false) :
    ∃ c < chunkCount shift, chunkUsed pool i shift c = false ∧
      takeSmall shift pool i = takeChunk pool i shift c := by
  have high : shift ≤ 11 := by
    simp only [exactShift] at small
    omega
  obtain ⟨count, _⟩ := (chunkCount_cases low high).1 small
  have used (pool : Pool) (c : Nat) : chunkUsed pool i shift c = bit (pool.mem i) c := if_pos small
  obtain ⟨c, inside, clear⟩ := free
  rw [used] at clear
  unfold takeSmall
  cases found : (List.range (mapWords shift)).find? fun n => pool.mem i n ≠ busyWord with
  | none =>
    exfalso
    have all := List.find?_eq_none.mp found (c / 64) (List.mem_range.mpr (by omega))
    have busy : pool.mem i (c / 64) = busyWord := by simpa using all
    exact word_of_clear clear busy
  | some n =>
    obtain ⟨notBusy, member, first⟩ := List.find?_range_eq_some.mp found
    have within := List.mem_range.mp member
    obtain ⟨b, isBit, bitBound, isClear⟩ := clearBit_spec _ (by simpa using notBusy)
    refine ⟨n * 64 + b, by omega, ?_, ?_⟩
    · rw [used, bit_word bitBound]
      exact isClear
    · simp only [isBit]
      have taken : setChunk pool i shift (n * 64 + b) true =
          pool.setWord i n (pool.mem i n ||| 1#64 <<< b) := by
        rw [setChunk, if_pos small, show (n * 64 + b) / 64 = n by omega,
          show (n * 64 + b) % 64 = b by omega]
        rfl
      have type : pageType shift = .small := if_pos small
      rw [takeChunk, taken, type]
      refine if_congr ?_ rfl rfl
      simp only [used, count]
      refine full_from within ?_
      intro k before
      have busy : pool.mem i k = busyWord := by simpa using first k before
      rw [setWord_mem, if_neg (by omega), busy]
      rfl

theorem takeExact_eq (free : ∃ c < chunkCount exactShift, chunkUsed pool i exactShift c = false) :
    ∃ c < chunkCount exactShift, chunkUsed pool i exactShift c = false ∧
      takeExact pool i = takeChunk pool i exactShift c := by
  have used (pool : Pool) (c : Nat) :
      chunkUsed pool i exactShift c = (pool.desc (.page i)).slab.getLsbD c := rfl
  obtain ⟨c, inside, clear⟩ := free
  have notBusy : (pool.desc (.page i)).slab ≠ busyWord := by
    intro busy
    rw [used, (eq_busyWord_iff _).mp busy c inside] at clear
    cases clear
  obtain ⟨bit, isBit, bitBound, isClear⟩ := clearBit_spec _ notBusy
  refine ⟨bit, bitBound, isClear, ?_⟩
  unfold takeExact
  simp only [if_pos notBusy, isBit]
  have taken : setChunk pool i exactShift bit true =
      pool.setSlab (.page i) ((pool.desc (.page i)).slab ||| 1#64 <<< bit) := rfl
  rw [takeChunk, taken]
  refine if_congr ?_ rfl rfl
  exact eq_busyWord_iff _

theorem takeWhile_range {p : Nat → Bool} {k n : Nat} (within : k ≤ n) (yes : ∀ i < k, p i = true)
    (no : k < n → p k = false) : (List.range n).takeWhile p = List.range k := by
  obtain ⟨m, rfl⟩ := Nat.exists_eq_add_of_le within
  rw [List.range_add, List.takeWhile_append_of_pos (by simpa using yes)]
  cases m with
  | zero => simp
  | succ m =>
    rw [List.range_succ_eq_map, List.map_cons, Nat.add_zero,
      List.takeWhile_cons_of_neg (by simp [no (by omega)]), List.append_nil]

theorem shiftMask_bit : ∀ j < 64, shiftMask.getLsbD j = decide (j < 4) := by decide

theorem mapMask_bit : ∀ j < 64, mapMask.getLsbD j = decide (32 ≤ j) := by decide

/-- The shift is read back from the `slab` of a small or a big page. -/
theorem slab_shift (apart : shift ≠ exactShift) (high : shift ≤ 11) (tagged : Tagged pool i shift) :
    ((pool.desc (.page i)).slab &&& shiftMask).toNat = shift := by
  have own : (BitVec.ofNat 64 shift &&& shiftMask).toNat = shift := by
    interval_cases shift <;> rfl
  have same : (pool.desc (.page i)).slab &&& shiftMask = BitVec.ofNat 64 shift &&& shiftMask := by
    unfold Tagged at tagged
    by_cases small : shift < exactShift
    · simp only [if_pos small] at tagged
      rw [tagged]
    · simp only [if_neg small, if_neg apart] at tagged
      apply BitVec.eq_of_getLsbD_eq
      intro j inside
      rw [BitVec.getLsbD_and, BitVec.getLsbD_and, shiftMask_bit j inside]
      by_cases low : j < 4
      · rw [tagged.1 j (by omega)]
      · simp [low]
  rw [same, own]

theorem chunkMask_bit (big : exactShift < shift) (high : shift ≤ 11) (tagged : Tagged pool i shift) :
    ∀ j < 64, (chunkMask (pool.desc (.page i)).slab).getLsbD j =
      decide (32 ≤ j ∧ j < 32 + chunkCount shift) := by
  have isShift := slab_shift (by omega) high tagged
  simp only [chunkMask, isShift]
  simp only [exactShift] at big
  interval_cases shift <;> decide

theorem bigFull_iff (big : exactShift < shift) (high : shift ≤ 11) (tagged : Tagged pool i shift) :
    (pool.desc (.page i)).slab &&& mapMask = chunkMask (pool.desc (.page i)).slab ↔
      ∀ c < chunkCount shift, chunkUsed pool i shift c = true := by
  have low : minShift ≤ shift := by
    simp only [exactShift, minShift] at *
    omega
  have count := (chunkCount_cases low high).2.2 big
  have mask := chunkMask_bit big high tagged
  have used (c : Nat) :
      chunkUsed pool i shift c = (pool.desc (.page i)).slab.getLsbD (32 + c) := by
    rw [chunkUsed, if_neg (by omega), if_neg (by omega)]
  have beyond : ∀ j, chunkCount shift ≤ j → (pool.desc (.page i)).slab.getLsbD (32 + j) = false := by
    simp only [Tagged, if_neg (show ¬shift < exactShift by omega),
      if_neg (show shift ≠ exactShift by omega)] at tagged
    exact tagged.2
  constructor
  · intro same c inside
    have bit := congrArg (fun w : Word => w.getLsbD (32 + c)) same
    simp only [BitVec.getLsbD_and, mapMask_bit (32 + c) (by omega), mask (32 + c) (by omega)] at bit
    rw [used]
    simpa [inside] using bit
  · intro all
    apply BitVec.eq_of_getLsbD_eq
    intro j inside
    rw [BitVec.getLsbD_and, mapMask_bit j inside, mask j inside]
    by_cases map : 32 ≤ j
    · obtain ⟨c, rfl⟩ : ∃ c, j = 32 + c := ⟨j - 32, by omega⟩
      by_cases isChunk : c < chunkCount shift
      · have bit := all c isChunk
        rw [used] at bit
        simp [bit, isChunk]
      · simp [beyond c (by omega), isChunk]
    · simp [map]

theorem takeBig_eq (big : exactShift < shift) (high : shift ≤ 11) (tagged : Tagged pool i shift)
    (free : ∃ c < chunkCount shift, chunkUsed pool i shift c = false) :
    ∃ c < chunkCount shift, chunkUsed pool i shift c = false ∧
      takeBig (chunkMask (pool.desc (.page i)).slab) pool i = takeChunk pool i shift c := by
  have low : minShift ≤ shift := by
    simp only [exactShift, minShift] at *
    omega
  have count := (chunkCount_cases low high).2.2 big
  have mask := chunkMask_bit big high tagged
  have used (pool : Pool) (c : Nat) :
      chunkUsed pool i shift c = (pool.desc (.page i)).slab.getLsbD (32 + c) := by
    rw [chunkUsed, if_neg (by omega), if_neg (by omega)]
  have notFull : (pool.desc (.page i)).slab &&& mapMask ≠ chunkMask (pool.desc (.page i)).slab := by
    rw [Ne, bigFull_iff big high tagged]
    obtain ⟨c, inside, clear⟩ := free
    intro all
    rw [all c inside] at clear
    cases clear
  set maskWord := chunkMask (pool.desc (.page i)).slab with mask_eq
  have bits : (List.range 32).takeWhile (fun bit => maskWord.getLsbD (32 + bit)) =
      List.range (chunkCount shift) := by
    apply takeWhile_range count
    · intro bit inside
      rw [mask (32 + bit) (by omega)]
      simpa using inside
    · intro short
      rw [mask _ (by omega)]
      simp
  unfold takeBig
  simp only [if_pos notFull, bits]
  cases found : (List.range (chunkCount shift)).find? fun bit =>
      !(pool.desc (.page i)).slab.getLsbD (32 + bit) with
  | none =>
    exfalso
    obtain ⟨c, inside, clear⟩ := free
    have all := List.find?_eq_none.mp found c (List.mem_range.mpr inside)
    rw [used] at clear
    simp [clear] at all
  | some bit =>
    have isClear := List.find?_some found
    have inside := List.mem_range.mp (List.mem_of_find?_eq_some found)
    refine ⟨bit, inside, by rw [used]; simpa using isClear, ?_⟩
    have taken : setChunk pool i shift bit true =
        pool.setSlab (.page i) ((pool.desc (.page i)).slab ||| 1#64 <<< (32 + bit)) := by
      rw [setChunk, if_neg (by omega), if_neg (by omega)]
      rfl
    have type : pageType shift = .big := by
      rw [pageType, if_neg (by omega), if_neg (by omega)]
    have tagged' := tagged_setChunk low high inside true tagged
    have sameMask : chunkMask ((setChunk pool i shift bit true).desc (.page i)).slab = maskWord := by
      simp only [chunkMask, slab_shift (by omega) high tagged', mask_eq,
        slab_shift (by omega) high tagged]
    have full := bigFull_iff big high tagged'
    rw [sameMask] at full
    rw [takeChunk, type]
    rw [taken] at full ⊢
    exact if_congr full rfl rfl

def takenPool (pool : Pool) (i shift chunk : Nat) : Option Pool :=
  let pool := setChunk pool i shift chunk true
  if ∀ c < chunkCount shift, chunkUsed pool i shift c = true then
    takeOut pool (.page i) (pageType shift)
  else some pool

theorem takeChunk_eq : takeChunk pool i shift chunk =
    (takenPool pool i shift chunk).map fun pool => some (pool, chunk) := by
  unfold takeChunk takenPool
  simp only
  split <;> rfl

theorem searchPages_eq (fuel : Nat) (low : minShift ≤ shift) (high : shift ≤ 11)
    (tagged : Tagged pool i shift)
    (free : ∃ c < chunkCount shift, chunkUsed pool i shift c = false) :
    ∃ c < chunkCount shift, chunkUsed pool i shift c = false ∧
      searchPages (fuel + 1) pool shift (.page i) =
        (takenPool pool i shift c).map fun pool => some (pool, i, c) := by
  have found {take : Pool → Nat → Option (Option (Pool × Nat))} {c : Nat}
      (taken : take pool i = takeChunk pool i shift c) :
      searchSlot take (fuel + 1) pool (.page i) =
        (takenPool pool i shift c).map fun pool => some (pool, i, c) := by
    rw [searchSlot, taken, takeChunk_eq]
    cases takenPool pool i shift c <;> rfl
  unfold searchPages
  by_cases small : shift < exactShift
  · obtain ⟨c, inside, clear, taken⟩ := takeSmall_eq low small free
    exact ⟨c, inside, clear, by rw [if_pos small, found taken]⟩
  · rw [if_neg small]
    by_cases exact : shift = exactShift
    · subst exact
      obtain ⟨c, inside, clear, taken⟩ := takeExact_eq free
      exact ⟨c, inside, clear, by rw [if_pos rfl, found taken]⟩
    · obtain ⟨c, inside, clear, taken⟩ := takeBig_eq (by omega) high tagged free
      exact ⟨c, inside, clear, by rw [if_neg exact, found taken]⟩

/-- The chunks that the bitmap of a small page takes. -/
def reserved (shift : Nat) : Nat := if shift < exactShift then bitmapChunks shift else 0

/-- A chunk is freed: a full page goes back to its list, and a page without chunks to the free
pages. -/
def freedPool (pool : Pool) (i shift chunk : Nat) : Option Pool :=
  let linked :=
    if (pool.desc (.page i)).next = .null then
      relink pool (shift - minShift) i (pageType shift)
    else some pool
  linked.bind fun pool =>
    let pool := setChunk pool i shift chunk false
    if ∃ c < chunkCount shift, reserved shift ≤ c ∧ chunkUsed pool i shift c = true then some pool
    else ngxSlabFreePages pool i 1

theorem chunkAddr_spec (aligned : pool.start % pagesize = 0) (low : minShift ≤ shift)
    (high : shift ≤ 11) (inside : chunk < chunkCount shift) :
    let p := chunkAddr pool i shift chunk
    p % (1 <<< shift) = 0 ∧ (p % pagesize) >>> shift = chunk ∧
      p / pagesize - pool.start / pagesize = i ∧ (p - pool.start) >>> pagesizeShift = i := by
  simp only [minShift, pagesize] at low aligned
  interval_cases shift <;>
    simp [chunkAddr, chunkCount, pagesize, pagesizeShift, Nat.shiftLeft_eq,
      Nat.shiftRight_eq_div_pow] at inside ⊢ <;> omega

theorem chunkAddr_page (aligned : pool.start % pagesize = 0) (low : minShift ≤ shift)
    (high : shift ≤ 11) (inside : chunk < chunkCount shift) :
    (chunkAddr pool i shift chunk - pool.start) / pagesize = i := by
  have isPage := (@chunkAddr_spec pool i shift chunk aligned low high inside).2.2.2
  rwa [Nat.shiftRight_eq_div_pow] at isPage

theorem chunkAddr_inj (aligned : pool.start % pagesize = 0) (low : minShift ≤ shift)
    (high : shift ≤ 11) {c d : Nat} (first : c < chunkCount shift) (second : d < chunkCount shift) :
    chunkAddr pool i shift c = chunkAddr pool i shift d ↔ c = d := by
  constructor
  · intro same
    have isC := (@chunkAddr_spec pool i shift c aligned low high first).2.1
    have isD := (@chunkAddr_spec pool i shift d aligned low high second).2.1
    rw [same, isD] at isC
    exact isC.symm
  · rintro rfl
    rfl

theorem pageAddr_page (start i : Nat) : (start + i * pagesize - start) / pagesize = i := by
  rw [Nat.add_sub_cancel_left]
  exact Nat.mul_div_cancel i (by decide)

theorem chunk_room (low : minShift ≤ shift) (high : shift ≤ 11) :
    chunkCount shift * 2 ^ shift = pagesize ∧ mapWords shift * 8 ≤ bitmapChunks shift * 2 ^ shift := by
  simp only [minShift] at low
  interval_cases shift <;> decide

theorem freeExact_eq (aligned : pool.start % pagesize = 0) (inside : chunk < chunkCount exactShift)
    (taken : chunkUsed pool i exactShift chunk = true)
    (full : (pool.desc (.page i)).next = .null ↔
      ∀ c < chunkCount exactShift, chunkUsed pool i exactShift c = true) :
    freeExact pool i (chunkAddr pool i exactShift chunk) = freedPool pool i exactShift chunk := by
  obtain ⟨multiple, isChunk, _⟩ := @chunkAddr_spec pool i exactShift chunk aligned (by decide)
    (by decide) inside
  have isFull : (pool.desc (.page i)).slab = busyWord ↔ (pool.desc (.page i)).next = .null := by
    rw [full, eq_busyWord_iff]
    rfl
  have bit : (pool.desc (.page i)).slab.getLsbD chunk = true := taken
  unfold freeExact freedPool
  simp only [isChunk, if_neg (not_not.mpr multiple), bit, if_true, isFull]
  have type : pageType exactShift = .exact := rfl
  rw [type]
  congr 1
  funext linked
  have cleared : setChunk linked i exactShift chunk false = linked.setSlab (.page i)
      ((linked.desc (.page i)).slab &&& ~~~(1#64 <<< chunk)) := rfl
  rw [cleared]
  refine if_congr ?_ rfl rfl
  rw [ne_zero_iff]
  exact exists_congr fun c => and_congr_right fun _ => by simp [chunkUsed, reserved]

theorem relink_slab {linked : Pool} {slot : Nat} {type : PageType}
    (done : relink pool slot i type = some linked) (r : Ref) :
    (linked.desc r).slab = (pool.desc r).slab ∧ linked.mem = pool.mem := by
  unfold relink at done
  simp only at done
  split at done
  · cases done
  · cases done
    exact ⟨by simp, rfl⟩

theorem linked_slab {linked : Pool} {slot : Nat} {type : PageType}
    (done : (if (pool.desc (.page i)).next = .null then relink pool slot i type
      else some pool) = some linked) (r : Ref) :
    (linked.desc r).slab = (pool.desc r).slab ∧ linked.mem = pool.mem := by
  split at done
  · exact relink_slab done r
  · cases done
    exact ⟨rfl, rfl⟩

theorem freeBig_eq (aligned : pool.start % pagesize = 0) (big : exactShift < shift)
    (high : shift ≤ 11) (inside : chunk < chunkCount shift) (tagged : Tagged pool i shift)
    (taken : chunkUsed pool i shift chunk = true) :
    freeBig pool i (chunkAddr pool i shift chunk) = freedPool pool i shift chunk := by
  have low : minShift ≤ shift := by
    simp only [exactShift, minShift] at *
    omega
  have notSmall : ¬shift < exactShift := by omega
  have notExact : shift ≠ exactShift := by omega
  have count := (chunkCount_cases low high).2.2 big
  obtain ⟨multiple, isChunk, _⟩ := @chunkAddr_spec pool i shift chunk aligned low high inside
  have isShift := slab_shift notExact high tagged
  have bit : (pool.desc (.page i)).slab.getLsbD (chunk + 32) = true := by
    rw [chunkUsed, if_neg notSmall, if_neg notExact] at taken
    rwa [Nat.add_comm]
  have type : pageType shift = .big := by rw [pageType, if_neg notSmall, if_neg notExact]
  unfold freeBig freedPool
  simp only [isShift, if_neg (not_not.mpr multiple), isChunk, bit, if_true, type]
  apply Option.bind_congr
  intro linked done
  have slab := (linked_slab done (.page i)).1
  have cleared : setChunk linked i shift chunk false = linked.setSlab (.page i)
      ((linked.desc (.page i)).slab &&& ~~~(1#64 <<< (chunk + 32))) := by
    rw [setChunk, if_neg notSmall, if_neg notExact, setBit, Nat.add_comm]
  have tagged' := tagged_setChunk low high inside false ((tagged_congr slab).mpr tagged)
  have beyond : ∀ j, chunkCount shift ≤ j →
      ((setChunk linked i shift chunk false).desc (.page i)).slab.getLsbD (32 + j) = false := by
    simp only [Tagged, if_neg notSmall, if_neg notExact] at tagged'
    exact tagged'.2
  rw [← cleared]
  refine if_congr ?_ rfl rfl
  rw [ne_zero_iff]
  constructor
  · rintro ⟨j, within, set⟩
    rw [BitVec.getLsbD_and, mapMask_bit j within, Bool.and_eq_true, decide_eq_true_eq] at set
    obtain ⟨c, rfl⟩ : ∃ c, j = 32 + c := ⟨j - 32, by omega⟩
    have isChunk : c < chunkCount shift := by
      by_contra outside
      rw [beyond c (by omega)] at set
      cases set.1
    exact ⟨c, isChunk, by simp [reserved, notSmall],
      by rw [chunkUsed, if_neg notSmall, if_neg notExact]; exact set.1⟩
  · rintro ⟨c, isChunk, _, used⟩
    rw [chunkUsed, if_neg notSmall, if_neg notExact] at used
    refine ⟨32 + c, by omega, ?_⟩
    rw [BitVec.getLsbD_and, mapMask_bit _ (by omega), used]
    simp

theorem bitmapChunks_le (low : minShift ≤ shift) (small : shift < exactShift) :
    bitmapChunks shift < 64 ∧ bitmapChunks shift < chunkCount shift := by
  simp only [minShift, exactShift] at low small
  interval_cases shift <;> decide

theorem behindBitmap_bit (low : minShift ≤ shift) (small : shift < exactShift) :
    ∀ j < 64, (~~~(1#64 <<< bitmapChunks shift - 1#64)).getLsbD j =
      decide (bitmapChunks shift ≤ j) := by
  simp only [minShift, exactShift] at low small
  interval_cases shift <;> decide

theorem freeSmall_eq (aligned : pool.start % pagesize = 0) (low : minShift ≤ shift)
    (small : shift < exactShift) (inside : chunk < chunkCount shift) (tagged : Tagged pool i shift)
    (taken : chunkUsed pool i shift chunk = true) :
    freeSmall pool i (chunkAddr pool i shift chunk) = freedPool pool i shift chunk := by
  have high : shift ≤ 11 := by
    simp only [exactShift] at small
    omega
  obtain ⟨count, some_words⟩ := (chunkCount_cases low high).1 small
  obtain ⟨multiple, isChunk, isPage, _⟩ := @chunkAddr_spec pool i shift chunk aligned low high inside
  have isShift := slab_shift (by omega) high tagged
  have used (pool : Pool) (c : Nat) : chunkUsed pool i shift c = bit (pool.mem i) c := if_pos small
  have set : (pool.mem i (chunk / 64)).getLsbD (chunk % 64) = true := by
    rw [used] at taken
    exact taken
  have type : pageType shift = .small := if_pos small
  unfold freeSmall freedPool
  simp only [isShift, if_neg (not_not.mpr multiple), isChunk, isPage, set, if_true, type]
  apply Option.bind_congr
  intro linked done
  have cleared : setChunk linked i shift chunk false = linked.setWord i (chunk / 64)
      (linked.mem i (chunk / 64) &&& ~~~(1#64 <<< (chunk % 64))) := by
    rw [setChunk, if_pos small, setBit]
  rw [← cleared]
  set freed := setChunk linked i shift chunk false
  have split : (∃ c < chunkCount shift, reserved shift ≤ c ∧ chunkUsed freed i shift c = true) ↔
      freed.mem i 0 &&& ~~~(1#64 <<< bitmapChunks shift - 1#64) ≠ 0 ∨
        ∃ k < mapWords shift, 1 ≤ k ∧ freed.mem i k ≠ 0 := by
    have short := (bitmapChunks_le low small).1
    simp only [reserved, if_pos small, used, count]
    exact behind_iff (behindBitmap_bit low small) (by omega) some_words
  by_cases first : freed.mem i 0 &&& ~~~(1#64 <<< bitmapChunks shift - 1#64) ≠ 0
  · rw [if_pos first, if_pos (split.mpr (Or.inl first))]
  · rw [if_neg first]
    refine if_congr ?_ rfl rfl
    rw [split]
    simp only [first, false_or]

end Chunks

end NgxFormal.Core.Slab
