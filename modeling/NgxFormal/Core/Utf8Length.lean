import NgxFormal.Core.Utf8
import NgxFormal.Lib.Window

/-! A string cut into what `ngx_utf8_decode` takes for characters. -/

namespace NgxFormal.Core.Utf8

open Lib.Utf8

/-- What passes for a character: its encoding but for the two bits that the decoder does not look
at. -/
def Looks (piece : List UInt8) : Prop := ∃ cp, cp ≤ lastPoint ∧ cleared piece = encode cp

def Genuine (Valid : Nat → Prop) (piece : List UInt8) : Prop :=
  ∃ cp, cp ≤ lastPoint ∧ Valid cp ∧ piece = encode cp

def Stuck (text : List UInt8) : Prop := ∀ piece more, Looks piece → text ≠ piece ++ more

section Pieces

variable {Valid : Nat → Prop} {ch : UInt8} {text rest piece piece' more more' : List UInt8}

theorem encode_head_low {cp : Nat} (point : cp ≤ lastPoint) (starts : encode cp = ch :: rest) :
    ch < 0x80 ↔ cp < 0x80 := by
  have last : cp ≤ 0x10ffff := point
  by_cases low : cp < 0x80
  · rw [encode_one low] at starts
    obtain rfl : UInt8.ofNat cp = ch := List.head_eq_of_cons_eq starts
    exact iff_of_true (ofNat_lt (m := 0x80) (by omega) low) low
  · have high : 0x80 ≤ ch := by
      by_cases two : cp < 0x800
      · rw [encode_two (by omega) two] at starts
        obtain rfl : UInt8.ofNat (0xc0 + cp / 64) = ch := List.head_eq_of_cons_eq starts
        exact ofNat_le (n := 0x80) (by omega) (by omega)
      · by_cases three : cp < 0x10000
        · rw [encode_three (by omega) three] at starts
          obtain rfl : UInt8.ofNat (0xe0 + cp / 4096) = ch := List.head_eq_of_cons_eq starts
          exact ofNat_le (n := 0x80) (by omega) (by omega)
        · rw [encode_four (by omega)] at starts
          obtain rfl : UInt8.ofNat (0xf0 + cp / 262144) = ch := List.head_eq_of_cons_eq starts
          exact ofNat_le (n := 0x80) (by omega) (by omega)
    exact iff_of_false (UInt8.not_lt.mpr high) low

theorem clearFirst_low : clearFirst ch < 0x80 ↔ ch < 0x80 := by
  refine byte_table ch ?_
  decide +kernel

theorem cleared_length (text : List UInt8) : (cleared text).length = text.length := by
  cases text with
  | nil => rfl
  | cons ch rest => rw [cleared, List.length_cons, List.length_map, List.length_cons]

theorem Looks.ne_nil (looks : Looks piece) : piece ≠ [] := by
  rintro rfl
  obtain ⟨cp, _, encoded⟩ := looks
  exact encode_ne_nil cp encoded.symm

theorem Looks.length (looks : Looks piece) : 1 ≤ piece.length ∧ piece.length ≤ 4 := by
  obtain ⟨cp, _, encoded⟩ := looks
  have count := encode_length cp
  rw [← encoded, cleared_length] at count
  exact count

theorem looks_low (low : ch < 0x80) : Looks [ch] := by
  have small : ch.toNat < 0x80 := UInt8.lt_iff_toNat_lt.mp low
  refine ⟨ch.toNat, le_trans (Nat.le_of_lt small) (by decide), ?_⟩
  rw [encode_one small, UInt8.ofNat_toNat, cleared, (clearFirst_bits ch).2.2.1
    (UInt8.lt_trans low (by decide)), List.map_nil]

theorem Looks.low (looks : Looks (ch :: rest)) (low : ch < 0x80) : rest = [] := by
  obtain ⟨cp, point, encoded⟩ := looks
  rw [cleared] at encoded
  have small := (encode_head_low point encoded.symm).mp (clearFirst_low.mpr low)
  have count := congrArg List.length encoded
  rw [encode_one small, List.length_cons, List.length_map, List.length_singleton] at count
  exact List.length_eq_zero_iff.mp (by omega)

theorem Looks.decode (looks : Looks (ch :: rest)) (high : 0x80 ≤ ch) (more : List UInt8) :
    ∃ v, 0x80 ≤ v ∧ v ≤ lastPoint ∧
      ngxUtf8Decode (ch :: (rest ++ more)) = (v, rest.length + 1) := by
  obtain ⟨cp, point, encoded⟩ := looks
  have start := encoded
  rw [cleared] at start
  have above : 0x80 ≤ cp := by
    by_contra below
    have low := (encode_head_low point start.symm).mpr (by omega)
    exact UInt8.not_lt.mpr high (clearFirst_low.mp low)
  have count : (encode cp).length = (ch :: rest).length := by rw [← encoded, cleared_length]
  refine ⟨cp, above, point, (decode_point_iff above point).mpr ⟨?_, count.symm⟩⟩
  rw [count, ← List.cons_append, List.take_left, encoded]

theorem decodeRest_valid {valid len u : Nat} (point : (decodeRest valid len u rest).1 ≤ lastPoint) :
    valid < (decodeRest valid len u rest).1 := by
  induction len generalizing u rest with
  | zero =>
    rw [decodeRest] at point ⊢
    by_cases above : valid < u
    · simp only [if_pos above]
      exact above
    · simp only [if_neg above] at point
      exact absurd point (not_point (Or.inr rfl))
  | succ len ih =>
    cases rest with
    | nil => exact absurd point (not_point (Or.inr rfl))
    | cons i rest =>
      rw [decodeRest] at point ⊢
      by_cases low : i < 0x80
      · rw [if_pos low] at point
        exact absurd point (not_point (Or.inr rfl))
      · rw [if_neg low] at point ⊢
        exact ih point

theorem decode_high (point : (ngxUtf8Decode text).1 ≤ lastPoint) : 0x80 ≤ (ngxUtf8Decode text).1 := by
  have sequence : ∀ {u valid len rest}, 0x7f ≤ valid →
      (decodeSequence u valid len rest).1 ≤ lastPoint →
      0x80 ≤ (decodeSequence u valid len rest).1 := by
    intro u valid len rest enough point
    rw [decodeSequence] at point ⊢
    by_cases short : rest.length < len
    · rw [if_pos short] at point
      exact absurd point (not_point (Or.inl rfl))
    · rw [if_neg short] at point ⊢
      have above := decodeRest_valid point
      exact Nat.lt_of_le_of_lt enough above
  cases text with
  | nil => exact absurd point (not_point (Or.inl rfl))
  | cons u rest =>
    rw [ngxUtf8Decode] at point ⊢
    split_ifs at point ⊢
    · exact sequence (by decide) point
    · exact sequence (by decide) point
    · exact sequence (by decide) point
    · exact absurd point (not_point (Or.inr rfl))

theorem looks_of_decode (point : (ngxUtf8Decode (ch :: rest)).1 ≤ lastPoint) :
    Looks ((ch :: rest).take (ngxUtf8Decode (ch :: rest)).2) ∧
      1 ≤ (ngxUtf8Decode (ch :: rest)).2 ∧
      (ngxUtf8Decode (ch :: rest)).2 ≤ (ch :: rest).length := by
  have low := decode_high point
  generalize decoded : ngxUtf8Decode (ch :: rest) = found at point low ⊢
  obtain ⟨encoded, moved⟩ := (decode_point_iff low point).mp decoded
  rw [moved]
  refine ⟨⟨_, point, encoded⟩, (encode_length _).1, ?_⟩
  have count := congrArg List.length encoded
  rw [cleared_length, List.length_take] at count
  omega

theorem stuck_nil : Stuck [] := by
  intro piece more looks empty
  exact looks.ne_nil (List.append_eq_nil_iff.mp empty.symm).1

theorem stuck_of_decode (high : 0x80 ≤ ch) (error : lastPoint < (ngxUtf8Decode (ch :: rest)).1) :
    Stuck (ch :: rest) := by
  intro piece more looks starts
  cases piece with
  | nil => exact looks.ne_nil rfl
  | cons first piece =>
    rw [List.cons_append] at starts
    obtain ⟨rfl, rfl⟩ := List.cons_eq_cons.mp starts
    obtain ⟨v, _, point, decoded⟩ := looks.decode high more
    rw [decoded] at error
    exact absurd point (Nat.not_le.mpr error)

theorem looks_unique (looks : Looks piece) (looks' : Looks piece')
    (same : piece ++ more = piece' ++ more') : piece = piece' ∧ more = more' := by
  apply List.append_inj same
  cases piece with
  | nil => exact absurd rfl looks.ne_nil
  | cons ch rest =>
    cases piece' with
    | nil => exact absurd rfl looks'.ne_nil
    | cons ch' rest' =>
      obtain ⟨rfl, others⟩ := List.cons_eq_cons.mp same
      by_cases low : ch < 0x80
      · rw [looks.low low, looks'.low low]
      · have high := UInt8.not_lt.mp low
        obtain ⟨v, _, _, decoded⟩ := looks.decode high more
        obtain ⟨v', _, _, decoded'⟩ := looks'.decode high more'
        have moved := congrArg Prod.snd (decoded.symm.trans ((congrArg _
          (congrArg (ch :: ·) others)).trans decoded'))
        exact moved

theorem Genuine.looks (genuine : Genuine Valid piece) : Looks piece := by
  obtain ⟨cp, point, _, rfl⟩ := genuine
  refine ⟨cp, point, ?_⟩
  by_cases low : cp < 0x80
  · have small : UInt8.ofNat cp < 0x80 := ofNat_lt (m := 0x80) (by omega) low
    rw [encode_one low, cleared, (clearFirst_bits _).2.2.1 (UInt8.lt_trans small (by decide)),
      List.map_nil]
  · have decoded := decode_encode (Nat.le_of_not_lt low) point []
    rw [List.append_nil] at decoded
    obtain ⟨ch, rest, shape⟩ := List.exists_cons_of_ne_nil (encode_ne_nil cp)
    rw [shape] at decoded
    have starts := ((decode_point_iff (Nat.le_of_not_lt low) point).mp decoded).1
    rw [shape, List.take_length] at starts
    rw [shape]
    exact starts

theorem pieces_unique {pieces pieces' : List (List UInt8)} (looks : ∀ piece ∈ pieces, Looks piece)
    (looks' : ∀ piece ∈ pieces', Looks piece) (stuck : Stuck more) (stuck' : Stuck more')
    (same : pieces.flatten ++ more = pieces'.flatten ++ more') :
    pieces = pieces' ∧ more = more' := by
  induction pieces generalizing pieces' with
  | nil =>
    cases pieces' with
    | nil => exact ⟨rfl, same⟩
    | cons piece pieces' =>
      rw [List.flatten_nil, List.nil_append, List.flatten_cons, List.append_assoc] at same
      exact absurd same (stuck piece _ (looks' piece List.mem_cons_self))
  | cons piece pieces ih =>
    cases pieces' with
    | nil =>
      rw [List.flatten_nil, List.nil_append, List.flatten_cons, List.append_assoc] at same
      exact absurd same.symm (stuck' piece _ (looks piece List.mem_cons_self))
    | cons piece' pieces' =>
      rw [List.flatten_cons, List.flatten_cons, List.append_assoc, List.append_assoc] at same
      obtain ⟨rfl, others⟩ := looks_unique (looks piece List.mem_cons_self)
        (looks' piece' List.mem_cons_self) same
      obtain ⟨rfl, rest⟩ := ih (fun p member => looks p (List.mem_cons_of_mem _ member))
        (fun p member => looks' p (List.mem_cons_of_mem _ member)) others
      exact ⟨rfl, rest⟩

end Pieces

end NgxFormal.Core.Utf8

/-! `ngx_utf8_length`, with the bytes that it reads. -/

namespace NgxFormal.Core.Utf8

open Lib.Utf8 Lib.Window

/-- `n - 1` of a `size_t`. -/
def sizeSub (n k : Nat) : Nat := if k ≤ n then n - k else n + 2 ^ 64 - k

/-- `while (len)`, with `*p`. -/
def decodeRestAt (mem : Nat → UInt8) (valid : Nat) : Nat → Nat → Nat → Nat × Nat
  | 0, u, p => (if valid < u then u else invalid, p)
  | len + 1, u, p =>
    if mem p < 0x80 then (invalid, p + 1)
    else decodeRestAt mem valid len (u * 64 + (mem p).toNat % 64) (p + 1)

def decodeSequenceAt (mem : Nat → UInt8) (u valid len p n : Nat) : Nat × Nat :=
  if sizeSub n 1 < len then (incomplete, p) else decodeRestAt mem valid len u (p + 1)

/-- `ngx_utf8_decode(&p, n)` in memory: the value, and `p` behind it. -/
def ngxUtf8DecodeAt (mem : Nat → UInt8) (p n : Nat) : Nat × Nat :=
  let u := mem p
  if 0xf0 ≤ u then decodeSequenceAt mem (u.toNat % 8) 0xffff 3 p n
  else if 0xe0 ≤ u then decodeSequenceAt mem (u.toNat % 16) 0x7ff 2 p n
  else if 0xc2 ≤ u then decodeSequenceAt mem (u.toNat % 32) 0x7f 1 p n
  else (invalid, p + 1)

/-- `for (len = 0; p < last; len++)`: the result, and how far the bytes are read. Every turn passes
a byte. -/
def lengthLoop (mem : Nat → UInt8) (n : Nat) : Nat → Nat → Nat → Nat → Nat × Nat
  | 0, _, len, reached => (len, reached)
  | fuel + 1, p, len, reached =>
    if p < n then
      if mem p < 0x80 then lengthLoop mem n fuel (p + 1) (len + 1) (max reached (p + 1))
      else
        let (value, next) := ngxUtf8DecodeAt mem p n
        let reached := max reached (max (p + 1) next)
        if lastPoint < value then (n, reached) else lengthLoop mem n fuel next (len + 1) reached
    else (len, reached)

/-- `ngx_utf8_length` of the bytes from 0 to `n` -/
def ngxUtf8Length (mem : Nat → UInt8) (n : Nat) : Nat × Nat := lengthLoop mem n n 0 0 0

section Decode

variable {mem : Nat → UInt8} {p n : Nat}

theorem decodeRestAt_window (valid len u : Nat) (stop : Nat) (room : p + len ≤ stop) :
    decodeRestAt mem valid len u p =
      ((decodeRest valid len u (window mem p stop)).1,
        p + (decodeRest valid len u (window mem p stop)).2) := by
  induction len generalizing u p with
  | zero => rfl
  | succ len ih =>
    rw [window_cons (by omega : p < stop), decodeRestAt, decodeRest]
    by_cases low : mem p < 0x80
    · rw [if_pos low, if_pos low]
    · rw [if_neg low, if_neg low, ih _ (by omega)]
      dsimp only
      rw [Nat.add_assoc, Nat.add_comm 1]

theorem decodeAt_window (some_ : 1 ≤ n) : ngxUtf8DecodeAt mem p n =
    ((ngxUtf8Decode (window mem p (p + n))).1, p + (ngxUtf8Decode (window mem p (p + n))).2) := by
  have less : sizeSub n 1 = n - 1 := if_pos some_
  have sequence : ∀ u valid len, decodeSequenceAt mem u valid len p n =
      ((decodeSequence u valid len (window mem (p + 1) (p + n))).1,
        p + (decodeSequence u valid len (window mem (p + 1) (p + n))).2) := by
    intro u valid len
    have count : p + n - (p + 1) = n - 1 := by omega
    rw [decodeSequenceAt, decodeSequence, window_length, less, count]
    by_cases short : n - 1 < len
    · rw [if_pos short, if_pos short]
      rfl
    · rw [if_neg short, if_neg short, decodeRestAt_window valid len u (p + n) (by omega)]
      dsimp only
      rw [Nat.add_assoc, Nat.add_comm 1]
  rw [window_cons (by omega : p < p + n), ngxUtf8DecodeAt, ngxUtf8Decode]
  rw [sequence, sequence, sequence]
  split_ifs <;> rfl

variable {ch : UInt8} {rest more : List UInt8}

theorem decodeRest_low {valid len u : Nat} {b : UInt8} (member : b ∈ rest) (low : b < 0x80)
    (short : rest.length ≤ len) :
    (decodeRest valid len u (rest ++ more)).1 = invalid ∧
      (decodeRest valid len u (rest ++ more)).2 ≤ rest.length := by
  induction rest generalizing len u with
  | nil => cases member
  | cons i rest ih =>
    obtain ⟨len, rfl⟩ := Nat.exists_eq_add_of_le' (Nat.le_trans (by simp) short : 1 ≤ len)
    rw [List.cons_append, decodeRest]
    by_cases here : i < 0x80
    · rw [if_pos here]
      exact ⟨rfl, by simp⟩
    · rw [if_neg here]
      rcases List.mem_cons.mp member with rfl | member
      · exact absurd low here
      · obtain ⟨wrong, moved⟩ := @ih len (u * 64 + i.toNat % 64) member
          (Nat.le_of_succ_le_succ short)
        exact ⟨wrong, Nat.succ_le_succ moved⟩

theorem decodeRest_beyond {valid len u : Nat} (high : ∀ b ∈ rest, 0x80 ≤ b)
    (short : rest.length < len) (enough : len ≤ (rest ++ more).length) :
    rest.length < (decodeRest valid len u (rest ++ more)).2 := by
  induction rest generalizing len u with
  | nil =>
    obtain ⟨len, rfl⟩ := Nat.exists_eq_add_of_le' (Nat.lt_of_le_of_lt (Nat.zero_le _) short)
    cases more with
    | nil => exact absurd enough (by simp)
    | cons i more =>
      rw [List.nil_append, decodeRest]
      by_cases low : i < 0x80
      · rw [if_pos low]
        exact Nat.zero_lt_one
      · rw [if_neg low]
        exact Nat.succ_pos _
  | cons i rest ih =>
    obtain ⟨len, rfl⟩ := Nat.exists_eq_add_of_le' (Nat.lt_of_le_of_lt (Nat.zero_le _) short)
    rw [List.cons_append, decodeRest, if_neg (UInt8.not_lt.mpr (high i List.mem_cons_self))]
    exact Nat.succ_lt_succ (ih (fun b member => high b (List.mem_cons_of_mem _ member))
      (Nat.lt_of_succ_lt_succ short) (Nat.le_of_succ_le_succ enough))

/-- A sequence that is cut off, decoded with the bytes behind the string: a byte below 0x80 ends
it. -/
theorem decode_cut (cut : rest.length + 1 < sequenceLength ch)
    (enough : sequenceLength ch ≤ (rest ++ more).length + 1) :
    ((∀ b ∈ rest, 0x80 ≤ b) → rest.length + 1 < (ngxUtf8Decode (ch :: (rest ++ more))).2) ∧
    ∀ b ∈ rest, b < 0x80 → (ngxUtf8Decode (ch :: (rest ++ more))).1 = invalid ∧
      (ngxUtf8Decode (ch :: (rest ++ more))).2 ≤ rest.length + 1 := by
  obtain ⟨bits, valid, len, length, -, decoded⟩ := decode_sequence ch
  rw [decoded, decodeSequence, if_neg (by omega)]
  constructor
  · intro high
    exact Nat.succ_lt_succ (decodeRest_beyond high (by omega) (by omega))
  · intro b member low
    obtain ⟨wrong, moved⟩ := @decodeRest_low rest more valid len bits b member low (by omega)
    exact ⟨wrong, Nat.succ_le_succ moved⟩

end Decode

/-- What stands at the end of the string is a sequence that is cut off there, and the decoder is
told that there are enough bytes. -/
def Cut (n : Nat) : List UInt8 → Prop
  | [] => False
  | ch :: rest => rest.length + 1 < sequenceLength ch ∧ sequenceLength ch ≤ n ∧
      ∀ b ∈ rest, 0x80 ≤ b

/-- What `ngx_utf8_length` makes of the rest of the string, `len` characters behind the start. -/
def Outcome (n len : Nat) (text : List UInt8) (result : Nat × Nat) : Prop :=
  ∃ (pieces : List (List UInt8)) (rest : List UInt8), text = pieces.flatten ++ rest ∧
    (∀ piece ∈ pieces, Looks piece) ∧
    ((rest = [] ∧ result = (len + pieces.length, n)) ∨
      (rest ≠ [] ∧ Stuck rest ∧ ¬ Cut n rest ∧ result.1 = n ∧ result.2 ≤ n) ∨
      (Cut n rest ∧ n < result.2))

section Length

variable {mem : Nat → UInt8} {n : Nat}

theorem Outcome.step {len : Nat} {piece text : List UInt8} {result : Nat × Nat}
    (looks : Looks piece) (outcome : Outcome n (len + 1) text result) :
    Outcome n len (piece ++ text) result := by
  obtain ⟨pieces, rest, split, all, ends⟩ := outcome
  refine ⟨piece :: pieces, rest, ?_, ?_, ?_⟩
  · rw [split, List.flatten_cons, List.append_assoc]
  · intro p member
    rcases List.mem_cons.mp member with rfl | member
    · exact looks
    · exact all p member
  · have count : len + (piece :: pieces).length = len + 1 + pieces.length := by
      rw [List.length_cons]
      omega
    rw [count]
    exact ends

theorem Outcome.ends {len : Nat} {rest : List UInt8} {result : Nat × Nat}
    (there : (rest ≠ [] ∧ Stuck rest ∧ ¬ Cut n rest ∧ result.1 = n ∧ result.2 ≤ n) ∨
      (Cut n rest ∧ n < result.2)) : Outcome n len rest result :=
  ⟨[], rest, rfl, fun _ member => absurd member List.not_mem_nil, Or.inr there⟩

theorem Outcome.done {len : Nat} : Outcome n len [] (len, n) :=
  ⟨[], [], rfl, fun _ member => absurd member List.not_mem_nil, Or.inl ⟨rfl, rfl⟩⟩

theorem lengthLoop_reached (fuel p len reached : Nat) :
    reached ≤ (lengthLoop mem n fuel p len reached).2 := by
  induction fuel generalizing p len reached with
  | zero => exact Nat.le_refl reached
  | succ fuel ih =>
    rw [lengthLoop]
    by_cases more : p < n
    · rw [if_pos more]
      by_cases low : mem p < 0x80
      · rw [if_pos low]
        exact le_trans (Nat.le_max_left _ _) (ih _ _ _)
      · rw [if_neg low]
        dsimp only
        by_cases error : lastPoint < (ngxUtf8DecodeAt mem p n).1
        · rw [if_pos error]
          exact Nat.le_max_left _ _
        · rw [if_neg error]
          exact le_trans (Nat.le_max_left _ _) (ih _ _ _)
    · rw [if_neg more]

variable {fuel p len : Nat}

theorem window_beyond (more : p < n) : ∃ rest behind, window mem p n = mem p :: rest ∧
    window mem p (p + n) = mem p :: (rest ++ behind) ∧ rest.length + 1 = n - p ∧
    behind.length = p := by
  refine ⟨window mem (p + 1) n, window mem n (p + n), window_cons more, ?_, ?_, ?_⟩
  · rw [← window_append (Nat.le_of_lt more) (by omega), window_cons more, List.cons_append]
  · rw [window_length]
    omega
  · rw [window_length, Nat.add_sub_cancel]

theorem lengthLoop_there (more : p < n) (high : 0x80 ≤ mem p) (there : sequenceLength (mem p) ≤ n - p)
    (ih : ∀ p len, p ≤ n → n - p ≤ fuel →
      Outcome n len (window mem p n) (lengthLoop mem n fuel p len p))
    (enough : n - p ≤ fuel + 1) :
    Outcome n len (window mem p n)
      (if lastPoint < (ngxUtf8DecodeAt mem p n).1 then
        (n, max p (max (p + 1) (ngxUtf8DecodeAt mem p n).2))
      else lengthLoop mem n fuel (ngxUtf8DecodeAt mem p n).2 (len + 1)
        (max p (max (p + 1) (ngxUtf8DecodeAt mem p n).2))) := by
  obtain ⟨rest, behind, whole, beyond, count, _⟩ := @window_beyond mem n p more
  obtain ⟨_, moves, moved, same⟩ := decode_complete (by omega : sequenceLength (mem p) ≤ rest.length + 1)
  rw [decodeAt_window (by omega), beyond, same]
  have stuck := @stuck_of_decode (mem p) rest high
  have found := @looks_of_decode (mem p) rest
  generalize ngxUtf8Decode (mem p :: rest) = decoded at moves moved stuck found ⊢
  have passed : max p (max (p + 1) (p + decoded.2)) = p + decoded.2 := by omega
  dsimp only
  rw [passed]
  by_cases error : lastPoint < decoded.1
  · rw [if_pos error, whole]
    exact Outcome.ends (Or.inl ⟨List.cons_ne_nil _ _, stuck error, fun cut => by
      have short := cut.1
      omega, rfl, by dsimp only; omega⟩)
  · have looks := (found (Nat.le_of_not_lt error)).1
    have split := List.take_append_drop decoded.2 (window mem p n)
    rw [window_drop (by omega)] at split
    rw [if_neg error, ← split, whole]
    exact (ih (p + decoded.2) (len + 1) (by omega) (by omega)).step looks

/-- A sequence that is cut off ends the loop, unless the bytes behind the string are taken for the
rest of it. -/
theorem lengthLoop_cut (more : p < n) (high : 0x80 ≤ mem p) (cut : n - p < sequenceLength (mem p)) :
    Outcome n len (window mem p n)
      (if lastPoint < (ngxUtf8DecodeAt mem p n).1 then
        (n, max p (max (p + 1) (ngxUtf8DecodeAt mem p n).2))
      else lengthLoop mem n fuel (ngxUtf8DecodeAt mem p n).2 (len + 1)
        (max p (max (p + 1) (ngxUtf8DecodeAt mem p n).2))) := by
  obtain ⟨rest, behind, whole, beyond, count, behinds⟩ := @window_beyond mem n p more
  have short : rest.length + 1 < sequenceLength (mem p) := by omega
  have total : (rest ++ behind).length + 1 = n := by
    rw [List.length_append]
    omega
  have stuck : Stuck (mem p :: rest) := by
    apply stuck_of_decode high
    rw [decode_short short]
    decide
  rw [decodeAt_window (by omega), beyond, whole]
  by_cases told : sequenceLength (mem p) ≤ n
  · obtain ⟨far, near⟩ := decode_cut short (by omega : sequenceLength (mem p) ≤
      (rest ++ behind).length + 1)
    by_cases all : ∀ b ∈ rest, 0x80 ≤ b
    · refine Outcome.ends (Or.inr ⟨⟨short, told, all⟩, ?_⟩)
      have reached := far all
      split_ifs
      · dsimp only
        omega
      · refine Nat.lt_of_lt_of_le ?_ (lengthLoop_reached _ _ _ _)
        omega
    · push Not at all
      obtain ⟨b, member, low⟩ := all
      obtain ⟨wrong, moved⟩ := near b member (UInt8.not_le.mp low)
      rw [if_pos (by rw [wrong]; decide)]
      exact Outcome.ends (Or.inl ⟨List.cons_ne_nil _ _, stuck,
        fun cut => low (cut.2.2 b member), rfl, by dsimp only; omega⟩)
  · rw [decode_short (by omega)]
    dsimp only
    rw [if_pos (by decide)]
    exact Outcome.ends (Or.inl ⟨List.cons_ne_nil _ _, stuck, fun cut => told cut.2.1, rfl,
      by dsimp only; omega⟩)

theorem lengthLoop_outcome (fuel p len : Nat) (inside : p ≤ n) (enough : n - p ≤ fuel) :
    Outcome n len (window mem p n) (lengthLoop mem n fuel p len p) := by
  induction fuel generalizing p len with
  | zero =>
    obtain rfl : p = n := by omega
    rw [window_empty (Nat.le_refl p)]
    exact Outcome.done
  | succ fuel ih =>
    rw [lengthLoop]
    by_cases more : p < n
    · rw [if_pos more]
      by_cases low : mem p < 0x80
      · rw [if_pos low, Nat.max_eq_right (Nat.le_succ p), window_cons more]
        exact (ih (p + 1) (len + 1) more (by omega)).step (looks_low low)
      · have high := UInt8.not_lt.mp low
        rw [if_neg low]
        dsimp only
        by_cases there : sequenceLength (mem p) ≤ n - p
        · exact lengthLoop_there more high there ih enough
        · exact lengthLoop_cut more high (by omega)
    · rw [if_neg more]
      obtain rfl : p = n := by omega
      rw [window_empty (Nat.le_refl p)]
      exact Outcome.done

end Length

/-- What `ngx_utf8_length` should do: count the code points of a text, give `n` for anything else,
and read the string only. -/
structure Counts (Valid : Nat → Prop) (mem : Nat → UInt8) (n : Nat) : Prop where
  points : ∀ points, Spells (window mem 0 n) points → (∀ cp ∈ points, Valid cp) →
    (ngxUtf8Length mem n).1 = points.length
  wrong : (¬ ∃ points, Spells (window mem 0 n) points ∧ ∀ cp ∈ points, Valid cp) →
    (ngxUtf8Length mem n).1 = n
  inside : (ngxUtf8Length mem n).2 ≤ n

/-- What passes for text is text, and no sequence is cut off that the decoder is told to be whole. -/
structure Sound (Valid : Nat → Prop) (n : Nat) (text : List UInt8) : Prop where
  genuine : ∀ pieces : List (List UInt8), text = pieces.flatten → (∀ piece ∈ pieces, Looks piece) →
    ∀ piece ∈ pieces, Genuine Valid piece
  uncut : ∀ (pieces : List (List UInt8)) rest, text = pieces.flatten ++ rest →
    (∀ piece ∈ pieces, Looks piece) → ¬ Cut n rest

section Counting

variable {Valid : Nat → Prop} {mem : Nat → UInt8} {n : Nat} {pieces : List (List UInt8)}

theorem genuine_points (genuine : ∀ piece ∈ pieces, Genuine Valid piece) :
    ∃ points, Spells pieces.flatten points ∧ (∀ cp ∈ points, Valid cp) := by
  induction pieces with
  | nil => exact ⟨[], ⟨rfl, by simp⟩, by simp⟩
  | cons piece pieces ih =>
    obtain ⟨points, ⟨spelled, small⟩, valid⟩ :=
      ih fun p member => genuine p (List.mem_cons_of_mem _ member)
    obtain ⟨cp, point, accepted, rfl⟩ := genuine piece List.mem_cons_self
    refine ⟨cp :: points, ⟨?_, ?_⟩, ?_⟩
    · rw [List.flatten_cons, spelled, List.flatMap_cons]
    · exact List.forall_mem_cons.mpr ⟨point, small⟩
    · exact List.forall_mem_cons.mpr ⟨accepted, valid⟩

theorem points_genuine {points : List Nat} (small : ∀ cp ∈ points, cp ≤ lastPoint)
    (valid : ∀ cp ∈ points, Valid cp) : ∀ piece ∈ points.map encode, Genuine Valid piece := by
  intro piece member
  obtain ⟨cp, there, rfl⟩ := List.mem_map.mp member
  exact ⟨cp, small cp there, valid cp there, rfl⟩

theorem spells_pieces {points : List Nat} {rest : List UInt8} (looks : ∀ piece ∈ pieces, Looks piece)
    (stuck : Stuck rest) (spells : Spells (pieces.flatten ++ rest) points) :
    pieces = points.map encode ∧ rest = [] := by
  have characters : ∀ piece ∈ points.map encode, Looks piece := fun piece member =>
    (@points_genuine (fun _ => True) points spells.2 (fun _ _ => trivial) piece member).looks
  apply pieces_unique looks characters stuck stuck_nil
  rw [spells.1, List.append_nil, List.flatMap]

theorem Cut.stuck {rest : List UInt8} (cut : Cut n rest) : Stuck rest := by
  cases rest with
  | nil => exact absurd cut (fun impossible => impossible)
  | cons ch rest =>
    have announces : 0x80 ≤ ch := by
      by_contra low
      have one : sequenceLength ch = 1 := by
        have below := UInt8.not_le.mp low
        rw [sequenceLength, if_neg fun high => low (UInt8.le_trans (by decide) high),
          if_neg fun high => low (UInt8.le_trans (by decide) high),
          if_neg fun high => low (UInt8.le_trans (by decide) high)]
      have short := cut.1
      omega
    apply stuck_of_decode announces
    rw [decode_short cut.1]
    decide

theorem flatten_length_le (looks : ∀ piece ∈ pieces, Looks piece) :
    pieces.length ≤ pieces.flatten.length ∧ (pieces.flatten.length ≤ pieces.length →
      ∀ piece ∈ pieces, piece.length = 1) := by
  induction pieces with
  | nil => exact ⟨Nat.le_refl 0, fun _ _ member => absurd member List.not_mem_nil⟩
  | cons piece pieces ih =>
    obtain ⟨count, ones⟩ := ih fun p member => looks p (List.mem_cons_of_mem _ member)
    have some_ := (looks piece List.mem_cons_self).length.1
    rw [List.flatten_cons, List.length_append, List.length_cons]
    refine ⟨by omega, fun few => List.forall_mem_cons.mpr ⟨by omega, ones (by omega)⟩⟩

theorem genuine_of_length {piece : List UInt8} (low : ∀ cp, cp < 0x80 → Valid cp)
    (looks : Looks piece) (one : piece.length = 1) : Genuine Valid piece := by
  obtain ⟨ch, rfl⟩ := List.length_eq_one_iff.mp one
  obtain ⟨cp, point, encoded⟩ := looks
  have small : cp < 0x80 := by
    by_contra high
    have count := encode_length_high (Nat.le_of_not_lt high)
    rw [← encoded, cleared_length, one] at count
    omega
  have byte : ch < 0x80 := clearFirst_low.mp ((encode_head_low point encoded.symm).mpr small)
  rw [cleared, (clearFirst_bits ch).2.2.1 (UInt8.lt_trans byte (by decide)), List.map_nil] at encoded
  exact ⟨cp, point, low cp small, encoded⟩

theorem counts_of_sound (sound : Sound Valid n (window mem 0 n)) : Counts Valid mem n := by
  obtain ⟨pieces, rest, split, looks, ends⟩ := lengthLoop_outcome n 0 0 (Nat.zero_le n) (Nat.le_refl _)
  rcases ends with ⟨rfl, result⟩ | ⟨some_, stuck, _, value, inside⟩ | ⟨cut, _⟩
  · rw [List.append_nil] at split
    have value : ngxUtf8Length mem n = (pieces.length, n) := by
      rw [ngxUtf8Length, result, Nat.zero_add]
    refine ⟨fun points spells valid => ?_, fun none_ => ?_, ?_⟩
    · rw [split, ← List.append_nil pieces.flatten] at spells
      rw [value, (spells_pieces looks stuck_nil spells).1, List.length_map]
    · obtain ⟨points, spells, valid⟩ := genuine_points (sound.genuine pieces split looks)
      exact absurd ⟨points, split ▸ spells, valid⟩ none_
    · rw [value]
  · refine ⟨fun points spells _ => ?_, fun _ => value, inside⟩
    rw [split] at spells
    exact absurd (spells_pieces looks stuck spells).2 some_
  · exact absurd cut (sound.uncut pieces rest split looks)

theorem sound_of_counts (low : ∀ cp, cp < 0x80 → Valid cp) (counts : Counts Valid mem n) :
    Sound Valid n (window mem 0 n) := by
  obtain ⟨pieces, rest, split, looks, ends⟩ := lengthLoop_outcome n 0 0 (Nat.zero_le n) (Nat.le_refl _)
  have inside : (ngxUtf8Length mem n).2 ≤ n := counts.inside
  rcases ends with ⟨rfl, result⟩ | ⟨some_, stuck, uncut, _, _⟩ | ⟨_, beyond⟩
  · constructor
    · intro pieces' split' looks'
      rw [split, ← List.append_nil pieces'.flatten] at split'
      obtain ⟨rfl, _⟩ := pieces_unique looks looks' stuck_nil stuck_nil split'
      by_contra wrong
      have none_ : ¬ ∃ points, Spells (window mem 0 n) points ∧ ∀ cp ∈ points, Valid cp := by
        rintro ⟨points, spells, valid⟩
        rw [split] at spells
        apply wrong
        rw [(spells_pieces looks stuck_nil spells).1]
        rw [List.append_nil] at spells
        exact points_genuine spells.2 valid
      have value : (ngxUtf8Length mem n).1 = n := counts.wrong none_
      have total := congrArg List.length split
      rw [ngxUtf8Length, result, Nat.zero_add] at value
      rw [window_length, List.append_nil] at total
      have ones := (flatten_length_le looks).2 (by omega)
      exact wrong fun piece member =>
        genuine_of_length low (looks piece member) (ones piece member)
    · intro pieces' rest' split' looks' cut
      rw [split] at split'
      obtain ⟨_, rfl⟩ := pieces_unique looks looks' stuck_nil cut.stuck split'
      exact cut
  · constructor
    · intro pieces' split' looks'
      rw [split, ← List.append_nil pieces'.flatten] at split'
      exact absurd (pieces_unique looks looks' stuck stuck_nil split').2 some_
    · intro pieces' rest' split' looks' cut
      rw [split] at split'
      obtain ⟨_, rfl⟩ := pieces_unique looks looks' stuck cut.stuck split'
      exact uncut cut
  · exact absurd inside (Nat.not_le.mpr beyond)

/-- `ngx_utf8_length` counts the code points if and only if what passes for text is text and no
sequence is cut off. -/
theorem counts_iff (low : ∀ cp, cp < 0x80 → Valid cp) :
    Counts Valid mem n ↔ Sound Valid n (window mem 0 n) :=
  ⟨sound_of_counts low, counts_of_sound⟩

end Counting

end NgxFormal.Core.Utf8
