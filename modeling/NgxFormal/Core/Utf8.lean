import NgxFormal.Basic
import NgxFormal.Lib.Utf8

/-! `ngx_utf8_decode`: the value, and how far `*p` moves. -/

namespace NgxFormal.Core.Utf8

/-- An incomplete sequence. -/
def incomplete : Nat := 0xfffffffe

/-- An error. -/
def invalid : Nat := 0xffffffff

/-- `while (len)`, with the bits so far. -/
def decodeRest (valid : Nat) : Nat → Nat → List UInt8 → Nat × Nat
  | 0, u, _ => (if valid < u then u else invalid, 0)
  | _ + 1, _, [] => (invalid, 0)
  | len + 1, u, i :: rest =>
    if i < 0x80 then (invalid, 1)
    else
      let (n, moved) := decodeRest valid len (u * 64 + i.toNat % 64) rest
      (n, moved + 1)

/-- The sequence whose first byte gives the bits `u`, with `len` bytes behind it. -/
def decodeSequence (u valid len : Nat) (rest : List UInt8) : Nat × Nat :=
  if rest.length < len then (incomplete, 0)
  else
    let (n, moved) := decodeRest valid len u rest
    (n, moved + 1)

/-- `ngx_utf8_decode` of the `n` bytes `p` -/
def ngxUtf8Decode (p : List UInt8) : Nat × Nat :=
  match p with
  | [] => (incomplete, 0)
  | u :: rest =>
    if 0xf0 ≤ u then decodeSequence (u.toNat % 8) 0xffff 3 rest
    else if 0xe0 ≤ u then decodeSequence (u.toNat % 16) 0x7ff 2 rest
    else if 0xc2 ≤ u then decodeSequence (u.toNat % 32) 0x7f 1 rest
    else (invalid, 1)

/-- How many bytes a sequence has, by its first one. -/
def sequenceLength (u : UInt8) : Nat :=
  if 0xf0 ≤ u then 4 else if 0xe0 ≤ u then 3 else if 0xc2 ≤ u then 2 else 1

section Decode

variable {valid len u : Nat} {rest p more : List UInt8} {ch : UInt8}

theorem decodeRest_moved (enough : len ≤ rest.length) : (decodeRest valid len u rest).2 ≤ len := by
  induction len generalizing u rest with
  | zero => exact Nat.le_refl 0
  | succ len ih =>
    cases rest with
    | nil => exact absurd enough (by simp)
    | cons i rest =>
      unfold decodeRest
      split
      · exact Nat.succ_le_succ (Nat.zero_le len)
      · exact Nat.succ_le_succ (ih (Nat.le_of_succ_le_succ enough))

theorem decodeRest_append (enough : len ≤ rest.length) :
    decodeRest valid len u (rest ++ more) = decodeRest valid len u rest := by
  induction len generalizing u rest with
  | zero => rfl
  | succ len ih =>
    cases rest with
    | nil => exact absurd enough (by simp)
    | cons i rest =>
      rw [List.cons_append, decodeRest, decodeRest, ih (Nat.le_of_succ_le_succ enough)]

theorem decodeRest_value (bits : (u + 1) * 64 ^ len ≤ 2 ^ 21) :
    (decodeRest valid len u rest).1 < 2 ^ 21 ∨ (decodeRest valid len u rest).1 = invalid := by
  induction len generalizing u rest with
  | zero =>
    unfold decodeRest
    split
    · left
      dsimp only
      omega
    · exact Or.inr rfl
  | succ len ih =>
    cases rest with
    | nil => exact Or.inr rfl
    | cons i rest =>
      unfold decodeRest
      split
      · exact Or.inr rfl
      · refine ih (le_trans ?_ bits)
        have step : u * 64 + i.toNat % 64 + 1 ≤ (u + 1) * 64 := by omega
        calc (u * 64 + i.toNat % 64 + 1) * 64 ^ len ≤ (u + 1) * 64 * 64 ^ len :=
              Nat.mul_le_mul_right _ step
          _ = (u + 1) * 64 ^ (len + 1) := by rw [Nat.pow_succ, Nat.mul_assoc, Nat.mul_comm 64]

/-- One form for all kinds of sequences. -/
theorem decode_sequence (ch : UInt8) : ∃ bits valid len, sequenceLength ch = len + 1 ∧
    (bits + 1) * 64 ^ len ≤ 2 ^ 21 ∧
    ∀ rest, ngxUtf8Decode (ch :: rest) = decodeSequence bits valid len rest := by
  unfold sequenceLength ngxUtf8Decode
  by_cases four : 0xf0 ≤ ch
  · refine ⟨ch.toNat % 8, 0xffff, 3, if_pos four, by omega, fun rest => if_pos four⟩
  · by_cases three : 0xe0 ≤ ch
    · refine ⟨ch.toNat % 16, 0x7ff, 2, ?_, by omega, fun rest => ?_⟩
      · rw [if_neg four, if_pos three]
      · exact (if_neg four).trans (if_pos three)
    · by_cases two : 0xc2 ≤ ch
      · refine ⟨ch.toNat % 32, 0x7f, 1, ?_, by omega, fun rest => ?_⟩
        · rw [if_neg four, if_neg three, if_pos two]
        · exact (if_neg four).trans ((if_neg three).trans (if_pos two))
      · refine ⟨0, 0, 0, ?_, by omega, fun rest => ?_⟩
        · rw [if_neg four, if_neg three, if_neg two]
        · exact (if_neg four).trans ((if_neg three).trans (if_neg two))

theorem sequenceLength_bounds (ch : UInt8) : 1 ≤ sequenceLength ch ∧ sequenceLength ch ≤ 4 := by
  unfold sequenceLength
  split
  · decide
  · split
    · decide
    · split
      · decide
      · decide

theorem decode_short (short : rest.length + 1 < sequenceLength ch) :
    ngxUtf8Decode (ch :: rest) = (incomplete, 0) := by
  obtain ⟨bits, valid, len, length, -, decoded⟩ := decode_sequence ch
  rw [decoded, decodeSequence, if_pos (by omega)]

theorem decode_complete (enough : sequenceLength ch ≤ rest.length + 1) :
    ((ngxUtf8Decode (ch :: rest)).1 < 2 ^ 21 ∨ (ngxUtf8Decode (ch :: rest)).1 = invalid) ∧
      1 ≤ (ngxUtf8Decode (ch :: rest)).2 ∧ (ngxUtf8Decode (ch :: rest)).2 ≤ sequenceLength ch ∧
      ∀ more, ngxUtf8Decode (ch :: (rest ++ more)) = ngxUtf8Decode (ch :: rest) := by
  obtain ⟨bits, valid, len, length, bound, decoded⟩ := decode_sequence ch
  have there : len ≤ rest.length := by omega
  have whole : ∀ more, ngxUtf8Decode (ch :: (rest ++ more)) =
      ((decodeRest valid len bits rest).1, (decodeRest valid len bits rest).2 + 1) := by
    intro more
    rw [decoded, decodeSequence, if_neg (by rw [List.length_append]; omega), decodeRest_append there]
  have first := whole []
  rw [List.append_nil] at first
  rw [first]
  refine ⟨decodeRest_value bound, Nat.succ_le_succ (Nat.zero_le _), ?_, whole⟩
  have moved := @decodeRest_moved valid len bits rest there
  omega

theorem decode_incomplete_iff : (ngxUtf8Decode (ch :: rest)).1 = incomplete ↔
    rest.length + 1 < sequenceLength ch := by
  constructor
  · intro same
    by_contra enough
    rcases (decode_complete (Nat.le_of_not_lt enough)).1 with small | wrong
    · rw [same] at small
      exact absurd small (by decide)
    · rw [same] at wrong
      exact absurd wrong (by decide)
  · intro short
    rw [decode_short short]

theorem decode_moved (text : List UInt8) : (ngxUtf8Decode text).2 ≤ text.length := by
  cases text with
  | nil => exact Nat.le_refl 0
  | cons ch rest =>
    by_cases there : sequenceLength ch ≤ rest.length + 1
    · exact le_trans (decode_complete there).2.2.1 there
    · rw [decode_short (Nat.lt_of_not_le there)]
      exact Nat.zero_le _

end Decode

end NgxFormal.Core.Utf8

/-! Which sequences `ngx_utf8_decode` takes for a code point. -/

namespace NgxFormal.Core.Utf8

open Lib.Utf8

/-- How many bytes the first one announces. -/
def announced (ch : UInt8) : Option Nat :=
  if 0xf8 ≤ ch then none
  else if 0xf0 ≤ ch then some 4
  else if 0xe0 ≤ ch then some 3
  else if 0xc2 ≤ ch then some 2
  else none

/-- The bit 0x40 of a byte behind the first one. -/
def clearRest (ch : UInt8) : UInt8 := ch &&& 0xbf

/-- The bit 0x08 of a first byte of four. -/
def clearFirst (ch : UInt8) : UInt8 := if 0xf8 ≤ ch then ch &&& 0xf7 else ch

/-- The bytes without the two bits that the decoder does not look at. -/
def cleared : List UInt8 → List UInt8
  | [] => []
  | ch :: rest => clearFirst ch :: rest.map clearRest

section Cleared

variable {ch : UInt8} {rest p : List UInt8}

theorem clearRest_bits (ch : UInt8) :
    (clearRest ch).toNat % 64 = ch.toNat % 64 ∧ (clearRest ch < 0x80 ↔ ch < 0x80) ∧
      (0x80 ≤ ch → Continues (clearRest ch)) := by
  refine byte_table ch ?_
  unfold Continues
  decide +kernel

theorem clearFirst_bits (ch : UInt8) : (0xf0 ≤ clearFirst ch ↔ 0xf0 ≤ ch) ∧
    (clearFirst ch).toNat % 8 = ch.toNat % 8 ∧ (ch < 0xf8 → clearFirst ch = ch) ∧
      clearFirst ch < 0xf8 := by
  refine byte_table ch ?_
  decide +kernel

theorem decodeRest_clear (valid : Nat) (len u : Nat) (rest : List UInt8) :
    decodeRest valid len u (rest.map clearRest) = decodeRest valid len u rest := by
  induction len generalizing u rest with
  | zero => rfl
  | succ len ih =>
    cases rest with
    | nil => rfl
    | cons i rest =>
      obtain ⟨bits, low, _⟩ := clearRest_bits i
      rw [List.map_cons, decodeRest, decodeRest, bits, ih]
      simp only [low]

theorem decode_cleared (p : List UInt8) : ngxUtf8Decode (cleared p) = ngxUtf8Decode p := by
  cases p with
  | nil => rfl
  | cons ch rest =>
    have sequence : ∀ u valid len, decodeSequence u valid len (rest.map clearRest) =
        decodeSequence u valid len rest := by
      intro u valid len
      rw [decodeSequence, decodeSequence, List.length_map, decodeRest_clear]
    obtain ⟨four, bits, same, _⟩ := clearFirst_bits ch
    rw [cleared, ngxUtf8Decode, ngxUtf8Decode, sequence, sequence, sequence, bits]
    by_cases first : 0xf0 ≤ ch
    · rw [if_pos first, if_pos (four.mpr first)]
    · rw [same (UInt8.not_le.mp fun high => first (UInt8.le_trans (by decide) high))]

end Cleared

section Lengths

variable {a b c d : UInt8} {more : List UInt8}

theorem decode_two (low : 0xc2 ≤ a) (high : a < 0xe0) : ngxUtf8Decode (a :: b :: more) =
    if b < 0x80 then (invalid, 2)
    else (if 0x7f < a.toNat % 32 * 64 + b.toNat % 64 then a.toNat % 32 * 64 + b.toNat % 64
      else invalid, 2) := by
  have three : ¬ 0xe0 ≤ a := UInt8.not_le.mpr high
  have four : ¬ 0xf0 ≤ a := fun above => three (UInt8.le_trans (by decide) above)
  rw [ngxUtf8Decode, if_neg four, if_neg three, if_pos low, decodeSequence,
    if_neg (by rw [List.length_cons]; omega)]
  simp only [decodeRest]
  by_cases second : b < 0x80
  · rw [if_pos second, if_pos second]
  · rw [if_neg second, if_neg second]

theorem decode_three (low : 0xe0 ≤ a) (high : a < 0xf0) : ngxUtf8Decode (a :: b :: c :: more) =
    if b < 0x80 then (invalid, 2)
    else if c < 0x80 then (invalid, 3)
    else (if 0x7ff < a.toNat % 16 * 4096 + b.toNat % 64 * 64 + c.toNat % 64 then
      a.toNat % 16 * 4096 + b.toNat % 64 * 64 + c.toNat % 64 else invalid, 3) := by
  have point : (a.toNat % 16 * 64 + b.toNat % 64) * 64 + c.toNat % 64 =
      a.toNat % 16 * 4096 + b.toNat % 64 * 64 + c.toNat % 64 := by omega
  rw [ngxUtf8Decode, if_neg (UInt8.not_le.mpr high), if_pos low, decodeSequence,
    if_neg (by simp only [List.length_cons]; omega)]
  simp only [decodeRest, point]
  by_cases second : b < 0x80
  · rw [if_pos second, if_pos second]
  · rw [if_neg second, if_neg second]
    by_cases third : c < 0x80
    · rw [if_pos third, if_pos third]
    · rw [if_neg third, if_neg third]

theorem decode_four (low : 0xf0 ≤ a) : ngxUtf8Decode (a :: b :: c :: d :: more) =
    if b < 0x80 then (invalid, 2)
    else if c < 0x80 then (invalid, 3)
    else if d < 0x80 then (invalid, 4)
    else (if 0xffff < a.toNat % 8 * 262144 + b.toNat % 64 * 4096 + c.toNat % 64 * 64 +
        d.toNat % 64 then
      a.toNat % 8 * 262144 + b.toNat % 64 * 4096 + c.toNat % 64 * 64 + d.toNat % 64
      else invalid, 4) := by
  have point : ((a.toNat % 8 * 64 + b.toNat % 64) * 64 + c.toNat % 64) * 64 + d.toNat % 64 =
      a.toNat % 8 * 262144 + b.toNat % 64 * 4096 + c.toNat % 64 * 64 + d.toNat % 64 := by omega
  rw [ngxUtf8Decode, if_pos low, decodeSequence,
    if_neg (by simp only [List.length_cons]; omega)]
  simp only [decodeRest, point]
  by_cases second : b < 0x80
  · rw [if_pos second, if_pos second]
  · rw [if_neg second, if_neg second]
    by_cases third : c < 0x80
    · rw [if_pos third, if_pos third]
    · rw [if_neg third, if_neg third]
      by_cases fourth : d < 0x80
      · rw [if_pos fourth, if_pos fourth]
      · rw [if_neg fourth, if_neg fourth]

theorem not_point {v : Nat} (error : v = incomplete ∨ v = invalid) : ¬ v ≤ lastPoint := by
  rcases error with rfl | rfl <;> decide

/-- Without the two bits, a value is that of an encoding. -/
theorem decode_clean {ch : UInt8} {rest : List UInt8} {v m : Nat} (first : ch < 0xf8)
    (others : ∀ b ∈ rest, 0x80 ≤ b → Continues b) (decoded : ngxUtf8Decode (ch :: rest) = (v, m))
    (low : 0x80 ≤ v) (high : v ≤ lastPoint) :
    ∃ more, ch :: rest = encode v ++ more ∧ m = (encode v).length := by
  have complete : ¬ rest.length + 1 < sequenceLength ch := by
    intro short
    rw [decode_short short] at decoded
    cases decoded
    exact not_point (Or.inl rfl) high
  have wrong : ∀ n, (invalid, n) ≠ (v, m) := by
    intro n same
    cases same
    exact not_point (Or.inr rfl) high
  rw [sequenceLength] at complete
  by_cases four : 0xf0 ≤ ch
  · rw [if_pos four] at complete
    rcases rest with _ | ⟨b, _ | ⟨c, _ | ⟨d, more⟩⟩⟩
    · exact absurd (by decide) complete
    · exact absurd (by simp) complete
    · exact absurd (by simp) complete
    · rw [decode_four four] at decoded
      split_ifs at decoded with second third fourth point
      · exact absurd decoded (wrong 2)
      · exact absurd decoded (wrong 3)
      · exact absurd decoded (wrong 4)
      · have value := congrArg Prod.fst decoded
        have moved := congrArg Prod.snd decoded
        have encoded := encode_of_four four first
          (others b (by simp) (UInt8.not_lt.mp second)) (others c (by simp) (UInt8.not_lt.mp third))
          (others d (by simp) (UInt8.not_lt.mp fourth)) point
        dsimp only at value moved
        rw [value] at encoded
        rw [encoded, ← moved]
        exact ⟨more, rfl, rfl⟩
      · exact absurd decoded (wrong 4)
  · rw [if_neg four] at complete
    by_cases three : 0xe0 ≤ ch
    · rw [if_pos three] at complete
      rcases rest with _ | ⟨b, _ | ⟨c, more⟩⟩
      · exact absurd (by decide) complete
      · exact absurd (by simp) complete
      · rw [decode_three three (UInt8.not_le.mp four)] at decoded
        split_ifs at decoded with second third point
        · exact absurd decoded (wrong 2)
        · exact absurd decoded (wrong 3)
        · have value := congrArg Prod.fst decoded
          have moved := congrArg Prod.snd decoded
          have encoded := encode_of_three three (UInt8.not_le.mp four)
            (others b (by simp) (UInt8.not_lt.mp second))
            (others c (by simp) (UInt8.not_lt.mp third)) point
          dsimp only at value moved
          rw [value] at encoded
          rw [encoded, ← moved]
          exact ⟨more, rfl, rfl⟩
        · exact absurd decoded (wrong 3)
    · rw [if_neg three] at complete
      by_cases two : 0xc2 ≤ ch
      · rw [if_pos two] at complete
        rcases rest with _ | ⟨b, more⟩
        · exact absurd (by decide) complete
        · rw [decode_two two (UInt8.not_le.mp three)] at decoded
          split_ifs at decoded with second point
          · exact absurd decoded (wrong 2)
          · have value := congrArg Prod.fst decoded
            have moved := congrArg Prod.snd decoded
            have encoded := encode_of_two two (UInt8.not_le.mp three)
              (others b (by simp) (UInt8.not_lt.mp second))
            dsimp only at value moved
            rw [value] at encoded
            rw [encoded, ← moved]
            exact ⟨more, rfl, rfl⟩
          · exact absurd decoded (wrong 2)
      · rw [ngxUtf8Decode, if_neg four, if_neg three, if_neg two] at decoded
        exact absurd decoded (wrong 1)

end Lengths

theorem decode_encode {cp : Nat} (low : 0x80 ≤ cp) (high : cp ≤ lastPoint) (more : List UInt8) :
    ngxUtf8Decode (encode cp ++ more) = (cp, (encode cp).length) := by
  have last : cp ≤ 0x10ffff := high
  have rest : ∀ {n : Nat}, n < 64 → ¬ UInt8.ofNat (0x80 + n) < 0x80 :=
    fun bits => UInt8.not_lt.mpr (continues_ofNat bits).1
  have bits : ∀ {n : Nat}, n < 64 → (UInt8.ofNat (0x80 + n)).toNat % 64 = n := by
    intro n small
    rw [toNat_ofNat (by omega)]
    omega
  by_cases two : cp < 0x800
  · rw [encode_two low two, List.cons_append, List.cons_append, decode_two
      (ofNat_le (n := 0xc2) (by omega) (by omega)) (ofNat_lt (m := 0xe0) (by omega) (by omega)),
      if_neg (rest (by omega)), bits (by omega), toNat_ofNat (by omega)]
    have point : (0xc0 + cp / 64) % 32 * 64 + cp % 64 = cp := by omega
    rw [point, if_pos (by omega)]
    rfl
  · by_cases three : cp < 0x10000
    · rw [encode_three (by omega) three, List.cons_append, List.cons_append, List.cons_append,
        decode_three (ofNat_le (n := 0xe0) (by omega) (by omega))
        (ofNat_lt (m := 0xf0) (by omega) (by omega)), if_neg (rest (by omega)),
        if_neg (rest (by omega)), bits (by omega), bits (by omega), toNat_ofNat (by omega)]
      have point : (0xe0 + cp / 4096) % 16 * 4096 + cp / 64 % 64 * 64 + cp % 64 = cp := by omega
      rw [point, if_pos (by omega)]
      rfl
    · rw [encode_four (by omega), List.cons_append, List.cons_append, List.cons_append,
        List.cons_append, decode_four (ofNat_le (n := 0xf0) (by omega) (by omega)),
        if_neg (rest (by omega)), if_neg (rest (by omega)), if_neg (rest (by omega)),
        bits (by omega), bits (by omega), bits (by omega), toNat_ofNat (by omega)]
      have point : (0xf0 + cp / 262144) % 8 * 262144 + cp / 4096 % 64 * 4096 +
          cp / 64 % 64 * 64 + cp % 64 = cp := by omega
      rw [point, if_pos (by omega)]
      rfl

/-- What `ngx_utf8_decode` should make of the bytes: a code point only of its encoding, which it
passes, and an incomplete sequence only where the first byte announces more than there are. `Valid`
are the code points that may be encoded. -/
structure Exact (Valid : Nat → Prop) (p : List UInt8) : Prop where
  value : ∀ v moved, ngxUtf8Decode p = (v, moved) → 0x80 ≤ v → v ≤ lastPoint →
    Valid v ∧ ∃ more, p = encode v ++ more ∧ moved = (encode v).length
  cut : ngxUtf8Decode p = (incomplete, 0) ↔
    ∃ len, announced (p.headD 0) = some len ∧ p.length < len

/-- What looks like an encoding to the decoder is one, and no byte that announces nothing stands
right in front of the end. -/
structure Distinct (Valid : Nat → Prop) (p : List UInt8) : Prop where
  bits : ∀ cp, 0x80 ≤ cp → cp ≤ lastPoint →
    cleared (p.take (encode cp).length) = encode cp →
      Valid cp ∧ p.take (encode cp).length = encode cp
  first : 0xf8 ≤ p.headD 0 → 4 ≤ p.length

section Exactness

variable {Valid : Nat → Prop} {ch : UInt8} {rest : List UInt8}

theorem announced_iff {len : Nat} (first : ch < 0xf8) :
    announced ch = some len ↔ sequenceLength ch = len ∧ len ≠ 1 := by
  rw [announced, if_neg (UInt8.not_le.mpr first), sequenceLength]
  split_ifs <;> simp <;> omega

theorem cut_iff : (ngxUtf8Decode (ch :: rest) = (incomplete, 0) ↔
      ∃ len, announced ch = some len ∧ (ch :: rest).length < len) ↔
    (0xf8 ≤ ch → 4 ≤ (ch :: rest).length) := by
  have same : ngxUtf8Decode (ch :: rest) = (incomplete, 0) ↔
      rest.length + 1 < sequenceLength ch := by
    constructor
    · intro decoded
      exact decode_incomplete_iff.mp (congrArg Prod.fst decoded)
    · exact decode_short
  rw [same, List.length_cons]
  by_cases first : ch < 0xf8
  · refine iff_of_true ?_ fun high => absurd high (UInt8.not_le.mpr first)
    constructor
    · intro short
      exact ⟨sequenceLength ch, (announced_iff first).mpr ⟨rfl, by omega⟩, short⟩
    · rintro ⟨len, known, short⟩
      rw [((announced_iff first).mp known).1]
      exact short
  · have high := UInt8.not_lt.mp first
    have four : sequenceLength ch = 4 := by
      rw [sequenceLength, if_pos (UInt8.le_trans (by decide) high)]
    have unknown : announced ch = none := if_pos high
    rw [four, unknown]
    constructor
    · intro cut _
      by_contra short
      obtain ⟨len, known, _⟩ := cut.mp (by omega)
      cases known
    · intro enough
      have long := enough high
      constructor
      · intro short
        omega
      · rintro ⟨len, known, _⟩
        cases known

theorem cleared_take (n : Nat) (p : List UInt8) : cleared (p.take n) = (cleared p).take n := by
  cases p with
  | nil => rw [List.take_nil, cleared, List.take_nil]
  | cons ch rest =>
    cases n with
    | zero => rfl
    | succ n => rw [List.take_succ_cons, cleared, cleared, List.take_succ_cons, List.map_take]

theorem decode_point_iff {v moved : Nat} (low : 0x80 ≤ v) (high : v ≤ lastPoint) :
    ngxUtf8Decode (ch :: rest) = (v, moved) ↔
      cleared ((ch :: rest).take (encode v).length) = encode v ∧ moved = (encode v).length := by
  rw [cleared_take, ← decode_cleared]
  constructor
  · intro decoded
    rw [cleared] at decoded ⊢
    have others : ∀ b ∈ rest.map clearRest, 0x80 ≤ b → Continues b := by
      intro b member above
      obtain ⟨origin, _, rfl⟩ := List.mem_map.mp member
      obtain ⟨_, below, continues⟩ := clearRest_bits origin
      exact continues (UInt8.not_lt.mp fun under => UInt8.not_lt.mpr above (below.mpr under))
    obtain ⟨more, split, length⟩ :=
      decode_clean (clearFirst_bits ch).2.2.2 others decoded low high
    rw [split, List.take_left]
    exact ⟨rfl, length⟩
  · rintro ⟨starts, rfl⟩
    have split := List.take_append_drop (encode v).length (cleared (ch :: rest))
    rw [starts] at split
    rw [← split]
    exact decode_encode low high _

theorem exact_iff : Exact Valid (ch :: rest) ↔ Distinct Valid (ch :: rest) := by
  constructor
  · intro exact_
    refine ⟨fun cp low high starts => ?_, cut_iff.mp exact_.cut⟩
    have decoded := (decode_point_iff low high).mpr ⟨starts, rfl⟩
    obtain ⟨valid, more, split, _⟩ := exact_.value cp _ decoded low high
    refine ⟨valid, ?_⟩
    rw [split, List.take_left]
  · intro distinct
    refine ⟨fun v moved decoded low high => ?_, cut_iff.mpr distinct.first⟩
    obtain ⟨starts, length⟩ := (decode_point_iff low high).mp decoded
    obtain ⟨valid, same⟩ := distinct.bits v low high starts
    refine ⟨valid, (ch :: rest).drop (encode v).length, ?_, length⟩
    rw [← same, List.length_take, Nat.min_eq_left, List.take_append_drop]
    have count := congrArg List.length same
    rw [List.length_take] at count
    omega

end Exactness

/-- `ngx_utf8_decode` does what it should if and only if the bytes are no encoding but for the two
bits that it does not look at, and do not end within three bytes behind one from 0xf8 on. The same
holds where surrogates are no code points, and then they must not be encoded. Every encoding gives
its code point, whatever comes behind it. -/
theorem decode_exact_iff (ch : UInt8) (rest : List UInt8) :
    (Exact (fun _ => True) (ch :: rest) ↔ Distinct (fun _ => True) (ch :: rest)) ∧
    (Exact (¬ Surrogate ·) (ch :: rest) ↔ Distinct (¬ Surrogate ·) (ch :: rest)) ∧
    ∀ cp, 0x80 ≤ cp → cp ≤ lastPoint →
      ngxUtf8Decode (encode cp ++ rest) = (cp, (encode cp).length) :=
  ⟨exact_iff, exact_iff, fun _ low high => decode_encode low high rest⟩

/-- A byte behind the first one that is none, and a first byte that is none. -/
theorem decode_exact_fails :
    (ngxUtf8Decode [0xc2, 0xff] = (0xbf, 2) ∧ encode 0xbf = [0xc2, 0xbf]) ∧
    (ngxUtf8Decode [0xf8, 0x90, 0x80, 0x80] = (0x10000, 4) ∧
      encode 0x10000 = [0xf0, 0x90, 0x80, 0x80]) ∧
    ¬ Exact (fun _ => True) [0xc2, 0xff] ∧ ¬ Exact (fun _ => True) [0xf8, 0x90, 0x80, 0x80] := by
  refine ⟨⟨by decide, by decide⟩, ⟨by decide, by decide⟩, fun exact_ => ?_, fun exact_ => ?_⟩
  · obtain ⟨_, more, split, _⟩ := exact_.value 0xbf 2 (by decide) (by decide) (by decide)
    have encoded : encode 0xbf = [0xc2, 0xbf] := by decide
    rw [encoded] at split
    simp at split
  · obtain ⟨_, more, split, _⟩ := exact_.value 0x10000 4 (by decide) (by decide) (by decide)
    have encoded : encode 0x10000 = [0xf0, 0x90, 0x80, 0x80] := by decide
    rw [encoded] at split
    simp at split

end NgxFormal.Core.Utf8
