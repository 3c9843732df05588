import Mathlib.Data.List.Basic

/-! The uwsgi format: a header of four bytes, and pairs of texts with lengths of two bytes, the low
one first. A text of bytes that is read as pairs is the one that writes them. -/

namespace NgxFormal.Lib.Uwsgi

def short (n : Nat) : List UInt8 := [UInt8.ofNat n, UInt8.ofNat (n / 256)]

def encodeText (text : List UInt8) : List UInt8 := short text.length ++ text

def encodePair (pair : List UInt8 × List UInt8) : List UInt8 :=
  encodeText pair.1 ++ encodeText pair.2

def encodePairs (pairs : List (List UInt8 × List UInt8)) : List UInt8 := pairs.flatMap encodePair

def decodeText : List UInt8 → Option (List UInt8 × List UInt8)
  | low :: high :: rest =>
    let length := low.toNat + 256 * high.toNat
    if rest.length < length then none else some (rest.take length, rest.drop length)
  | _ => none

def decodePair (bytes : List UInt8) : Option ((List UInt8 × List UInt8) × List UInt8) :=
  (decodeText bytes).bind fun (name, rest) =>
    (decodeText rest).map fun (value, rest) => ((name, value), rest)

def pairsLoop : Nat → List UInt8 → Option (List (List UInt8 × List UInt8))
  | _, [] => some []
  | 0, _ :: _ => none
  | fuel + 1, byte :: bytes =>
    (decodePair (byte :: bytes)).bind fun (pair, rest) =>
      (pairsLoop fuel rest).map fun pairs => pair :: pairs

/-- The pairs of a block, which has nothing else. -/
def decodePairs (bytes : List UInt8) : Option (List (List UInt8 × List UInt8)) :=
  pairsLoop bytes.length bytes

/-- The first modifier, the size, the second modifier, and what follows. -/
def decodeHeader : List UInt8 → Option (UInt8 × Nat × UInt8 × List UInt8)
  | modifier1 :: low :: high :: modifier2 :: rest =>
    some (modifier1, low.toNat + 256 * high.toNat, modifier2, rest)
  | _ => none

section Texts

variable {text rest bytes : List UInt8}

theorem short_value (n : Nat) :
    (UInt8.ofNat n).toNat + 256 * (UInt8.ofNat (n / 256)).toNat = n % 65536 := by
  rw [UInt8.toNat_ofNat', UInt8.toNat_ofNat']
  omega

theorem short_eq_iff (n m : Nat) : short n = short m ↔ n % 65536 = m % 65536 := by
  constructor
  · intro same
    injection same with low same
    injection same with high _
    rw [← short_value n, ← short_value m, low, high]
  · intro same
    have low : UInt8.ofNat n = UInt8.ofNat m := by
      rw [← UInt8.toNat_inj, UInt8.toNat_ofNat', UInt8.toNat_ofNat']
      omega
    have high : UInt8.ofNat (n / 256) = UInt8.ofNat (m / 256) := by
      rw [← UInt8.toNat_inj, UInt8.toNat_ofNat', UInt8.toNat_ofNat']
      omega
    rw [short, short, low, high]

theorem short_toNat (low high : UInt8) : short (low.toNat + 256 * high.toNat) = [low, high] := by
  have bound := low.toNat_lt
  have first : UInt8.ofNat (low.toNat + 256 * high.toNat) = low := by
    rw [← UInt8.toNat_inj, UInt8.toNat_ofNat']
    omega
  have second : UInt8.ofNat ((low.toNat + 256 * high.toNat) / 256) = high := by
    have bound := high.toNat_lt
    rw [← UInt8.toNat_inj, UInt8.toNat_ofNat']
    omega
  rw [short, first, second]

/-- What is read as a text is that text, behind its length. -/
theorem decodeText_iff :
    decodeText bytes = some (text, rest) ↔ text.length < 65536 ∧ bytes = encodeText text ++ rest := by
  constructor
  · intro read
    cases bytes with
    | nil => cases read
    | cons low bytes =>
      cases bytes with
      | nil => cases read
      | cons high bytes =>
        rw [decodeText] at read
        split at read
        · cases read
        · rename_i enough
          obtain ⟨rfl, rfl⟩ := Prod.mk.inj (Option.some.inj read)
          have count : (bytes.take (low.toNat + 256 * high.toNat)).length =
              low.toNat + 256 * high.toNat := by
            rw [List.length_take]
            omega
          have small := low.toNat_lt
          have small' := high.toNat_lt
          refine ⟨by omega, ?_⟩
          rw [encodeText, count, short_toNat, List.append_assoc, List.take_append_drop]
          rfl
  · rintro ⟨small, rfl⟩
    have count := short_value text.length
    rw [Nat.mod_eq_of_lt small] at count
    rw [encodeText, short, List.append_assoc, List.cons_append, List.cons_append, List.nil_append,
      decodeText]
    rw [count, if_neg (by simp), List.take_left, List.drop_left]

end Texts

section Pairs

variable {pair : List UInt8 × List UInt8} {pairs : List (List UInt8 × List UInt8)}
  {rest bytes : List UInt8}

def Short (pair : List UInt8 × List UInt8) : Prop :=
  pair.1.length < 65536 ∧ pair.2.length < 65536

theorem decodePair_iff :
    decodePair bytes = some (pair, rest) ↔ Short pair ∧ bytes = encodePair pair ++ rest := by
  obtain ⟨name, value⟩ := pair
  rw [decodePair, Option.bind_eq_some_iff]
  constructor
  · rintro ⟨⟨name', behind⟩, first, second⟩
    obtain ⟨⟨value', rest'⟩, read, same⟩ := Option.map_eq_some_iff.mp second
    cases same
    obtain ⟨small, rfl⟩ := decodeText_iff.mp first
    obtain ⟨small', rfl⟩ := decodeText_iff.mp read
    refine ⟨⟨small, small'⟩, ?_⟩
    rw [encodePair, List.append_assoc]
  · rintro ⟨⟨small, small'⟩, rfl⟩
    refine ⟨(name, encodeText value ++ rest), ?_, ?_⟩
    · rw [encodePair, List.append_assoc]
      exact decodeText_iff.mpr ⟨small, rfl⟩
    · exact Option.map_eq_some_iff.mpr ⟨(value, rest), decodeText_iff.mpr ⟨small', rfl⟩, rfl⟩

theorem encodePair_length (pair : List UInt8 × List UInt8) :
    (encodePair pair).length = pair.1.length + pair.2.length + 4 := by
  simp only [encodePair, encodeText, short, List.length_append, List.length_cons, List.length_nil]
  omega

theorem encodePairs_cons (pair : List UInt8 × List UInt8) (pairs : List (List UInt8 × List UInt8)) :
    encodePairs (pair :: pairs) = encodePair pair ++ encodePairs pairs := List.flatMap_cons

theorem short_of_length (small : (encodePairs pairs).length < 65536) : ∀ pair ∈ pairs, Short pair := by
  intro pair member
  have piece : (encodePair pair).length ≤ (encodePairs pairs).length := by
    rw [encodePairs, List.flatMap_def]
    exact (List.sublist_flatten_of_mem (List.mem_map_of_mem member)).length_le
  rw [encodePair_length] at piece
  exact ⟨by omega, by omega⟩

theorem encodePairs_eq_nil : encodePairs pairs = [] ↔ pairs = [] := by
  constructor
  · intro empty
    cases pairs with
    | nil => rfl
    | cons pair pairs =>
      have length := congrArg List.length empty
      rw [encodePairs_cons, List.length_append, encodePair_length, List.length_nil] at length
      omega
  · rintro rfl
    rfl

theorem pairsLoop_nil (fuel : Nat) :
    pairsLoop fuel [] = some pairs ↔ (∀ pair ∈ pairs, Short pair) ∧ [] = encodePairs pairs := by
  have read : pairsLoop fuel [] = some [] := by cases fuel <;> rfl
  rw [read, Option.some_inj, eq_comm (b := encodePairs pairs), encodePairs_eq_nil]
  constructor
  · rintro rfl
    exact ⟨by simp, rfl⟩
  · rintro ⟨_, empty⟩
    exact empty.symm

theorem pairsLoop_iff {fuel : Nat} (enough : bytes.length ≤ fuel) :
    pairsLoop fuel bytes = some pairs ↔ (∀ pair ∈ pairs, Short pair) ∧ bytes = encodePairs pairs := by
  induction fuel generalizing bytes pairs with
  | zero =>
    obtain rfl := List.length_eq_zero_iff.mp (Nat.le_zero.mp enough)
    exact pairsLoop_nil 0
  | succ fuel ih =>
    cases bytes with
    | nil => exact pairsLoop_nil (fuel + 1)
    | cons byte bytes =>
      rw [pairsLoop, Option.bind_eq_some_iff]
      constructor
      · rintro ⟨⟨pair, rest⟩, first, later⟩
        obtain ⟨behind, read, rfl⟩ := Option.map_eq_some_iff.mp later
        obtain ⟨small, written⟩ := decodePair_iff.mp first
        have lengths := congrArg List.length written
        rw [List.length_append, encodePair_length] at lengths
        obtain ⟨others, rfl⟩ := (ih (by omega)).mp read
        exact ⟨List.forall_mem_cons.mpr ⟨small, others⟩, by rw [written, encodePairs_cons]⟩
      · rintro ⟨small, written⟩
        cases pairs with
        | nil => cases written
        | cons pair pairs =>
          obtain ⟨first, others⟩ := List.forall_mem_cons.mp small
          rw [encodePairs_cons] at written
          have lengths := congrArg List.length written
          rw [List.length_append, encodePair_length] at lengths
          refine ⟨(pair, encodePairs pairs), decodePair_iff.mpr ⟨first, written⟩, ?_⟩
          exact Option.map_eq_some_iff.mpr ⟨pairs, (ih (by omega)).mpr ⟨others, rfl⟩, rfl⟩

theorem decodePairs_iff :
    decodePairs bytes = some pairs ↔ (∀ pair ∈ pairs, Short pair) ∧ bytes = encodePairs pairs :=
  pairsLoop_iff (Nat.le_refl _)

end Pairs

end NgxFormal.Lib.Uwsgi
