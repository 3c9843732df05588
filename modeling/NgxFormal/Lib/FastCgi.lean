import Mathlib.Algebra.Order.Ring.Int
import Mathlib.Data.List.Basic

/-! The FastCGI record protocol, as its specification has it: records with a header of eight bytes,
contents and padding, and pairs of names and values with lengths of one or four bytes. -/

namespace NgxFormal.Lib.FastCgi

structure Record where
  type : UInt8
  requestId : Nat
  content : List UInt8
  deriving DecidableEq, Repr

/-- A record of version 1 and what follows it. -/
def decodeRecord : List UInt8 → Option (Record × List UInt8)
  | version :: type :: idHi :: idLo :: lengthHi :: lengthLo :: padding :: _ :: rest =>
    let length := 256 * lengthHi.toNat + lengthLo.toNat
    if version = 1 ∧ length + padding.toNat ≤ rest.length then
      some (⟨type, 256 * idHi.toNat + idLo.toNat, rest.take length⟩,
        rest.drop (length + padding.toNat))
    else none
  | _ => none

def decodeLoop : Nat → List UInt8 → Option (List Record)
  | _, [] => some []
  | 0, _ :: _ => none
  | fuel + 1, bytes =>
    (decodeRecord bytes).bind fun (record, rest) =>
      (decodeLoop fuel rest).map fun records => record :: records

def decodeRecords (bytes : List UInt8) : Option (List Record) := decodeLoop bytes.length bytes

def decodeLength : List UInt8 → Option (Nat × List UInt8)
  | [] => none
  | first :: rest =>
    if first.toNat < 128 then some (first.toNat, rest)
    else
      match rest with
      | b2 :: b1 :: b0 :: rest =>
        some ((first.toNat % 128) * 2 ^ 24 + b2.toNat * 2 ^ 16 + b1.toNat * 2 ^ 8 + b0.toNat, rest)
      | _ => none

def decodePair (bytes : List UInt8) : Option ((List UInt8 × List UInt8) × List UInt8) := do
  let (nameLength, rest) ← decodeLength bytes
  let (valueLength, rest) ← decodeLength rest
  if rest.length < nameLength + valueLength then none
  else
    some ((rest.take nameLength, (rest.drop nameLength).take valueLength),
      rest.drop (nameLength + valueLength))

def pairsLoop : Nat → List UInt8 → Option (List (List UInt8 × List UInt8))
  | _, [] => some []
  | 0, _ :: _ => none
  | fuel + 1, bytes =>
    (decodePair bytes).bind fun (pair, rest) =>
      (pairsLoop fuel rest).map fun pairs => pair :: pairs

/-- The name-value pairs of the contents of a record. -/
def decodePairs (bytes : List UInt8) : Option (List (List UInt8 × List UInt8)) :=
  pairsLoop bytes.length bytes

/-- The bytes of a record with request id 1. -/
def frame (type : UInt8) (content : List UInt8) (padding : Nat) : List UInt8 :=
  [1, type, 0, 1, UInt8.ofNat (content.length / 256), UInt8.ofNat content.length,
    UInt8.ofNat padding, 0] ++ content ++ List.replicate padding 0

section Records

variable {type : UInt8} {content rest : List UInt8} {padding : Nat}

theorem decodeRecord_frame (short : content.length < 65536) (small : padding < 256) :
    decodeRecord (frame type content padding ++ rest) = some (⟨type, 1, content⟩, rest) := by
  have length : 256 * (UInt8.ofNat (content.length / 256)).toNat +
      (UInt8.ofNat content.length).toNat = content.length := by
    rw [UInt8.toNat_ofNat', UInt8.toNat_ofNat']
    omega
  have pad : (UInt8.ofNat padding).toNat = padding := by
    rw [UInt8.toNat_ofNat']
    omega
  have all : (content ++ (List.replicate padding 0 ++ rest)).length =
      content.length + (padding + rest.length) := by
    rw [List.length_append, List.length_append, List.length_replicate]
  have behind : (content ++ (List.replicate padding 0 ++ rest)).drop (content.length + padding) =
      rest := by
    rw [← List.append_assoc]
    apply List.drop_left'
    rw [List.length_append, List.length_replicate]
  simp only [frame, List.append_assoc, List.cons_append, List.nil_append, decodeRecord, length, pad,
    all, behind, List.take_left]
  rw [if_pos ⟨trivial, by omega⟩]
  rfl

theorem frame_length : (frame type content padding).length = 8 + content.length + padding := by
  simp [frame]
  omega

theorem decodeLoop_fuel {fuel fuel' : Nat} {bytes : List UInt8} {records : List Record}
    (decoded : decodeLoop fuel bytes = some records) (more : fuel ≤ fuel') :
    decodeLoop fuel' bytes = some records := by
  induction fuel generalizing fuel' bytes records with
  | zero =>
    cases bytes with
    | nil =>
      rw [decodeLoop] at decoded ⊢
      exact decoded
    | cons byte bytes => cases decoded
  | succ fuel ih =>
    cases bytes with
    | nil =>
      rw [decodeLoop] at decoded ⊢
      exact decoded
    | cons byte bytes =>
      obtain ⟨fuel', rfl⟩ : ∃ more, fuel' = more + 1 := ⟨fuel' - 1, by omega⟩
      rw [decodeLoop] at decoded ⊢
      · obtain ⟨⟨record, rest⟩, first, later⟩ := Option.bind_eq_some_iff.mp decoded
        obtain ⟨tail, found, rfl⟩ := Option.map_eq_some_iff.mp later
        rw [first, Option.bind_some]
        dsimp only
        rw [ih found (by omega)]
        rfl
      · exact fun empty => List.cons_ne_nil _ _ empty
      · exact fun empty => List.cons_ne_nil _ _ empty

theorem decodeRecords_frame {records : List Record} (short : content.length < 65536)
    (small : padding < 256) (decoded : decodeRecords rest = some records) :
    decodeRecords (frame type content padding ++ rest) = some (⟨type, 1, content⟩ :: records) := by
  have length : (frame type content padding ++ rest).length =
      (7 + content.length + padding + rest.length) + 1 := by
    rw [List.length_append, frame_length]
    omega
  rw [decodeRecords, length, decodeLoop]
  · rw [decodeRecord_frame short small, Option.bind_some]
    dsimp only
    rw [decodeLoop_fuel decoded (by omega)]
    rfl
  · exact fun empty => List.cons_ne_nil _ _ empty

theorem decodeRecords_nil : decodeRecords [] = some [] := rfl

theorem decodeRecords_frames {contents : List (List UInt8)} {pad : List UInt8 → Nat}
    {records : List Record} (short : ∀ content ∈ contents, content.length < 65536)
    (small : ∀ content ∈ contents, pad content < 256) (decoded : decodeRecords rest = some records) :
    decodeRecords (contents.flatMap (fun content => frame type content (pad content)) ++ rest) =
      some (contents.map (fun content => ⟨type, 1, content⟩) ++ records) := by
  induction contents with
  | nil => exact decoded
  | cons content contents ih =>
    rw [List.flatMap_cons, List.append_assoc]
    exact decodeRecords_frame (short content List.mem_cons_self) (small content List.mem_cons_self)
      (ih (fun other inside => short other (List.mem_cons_of_mem _ inside))
        (fun other inside => small other (List.mem_cons_of_mem _ inside)))

end Records

/-- A length in one byte or in four. -/
def encodeLength (length : Nat) : List UInt8 :=
  if 127 < length then
    [UInt8.ofNat (length / 2 ^ 24 % 128 + 128), UInt8.ofNat (length / 2 ^ 16),
      UInt8.ofNat (length / 2 ^ 8), UInt8.ofNat length]
  else [UInt8.ofNat length]

def encodePair (pair : List UInt8 × List UInt8) : List UInt8 :=
  encodeLength pair.1.length ++ encodeLength pair.2.length ++ pair.1 ++ pair.2

section Pairs

variable {rest : List UInt8}

theorem decodeLength_encodeLength {length : Nat} (small : length < 2 ^ 31) :
    decodeLength (encodeLength length ++ rest) = some (length, rest) := by
  unfold encodeLength
  split
  · rename_i long
    have first : (UInt8.ofNat (length / 2 ^ 24 % 128 + 128)).toNat = length / 2 ^ 24 % 128 + 128 := by
      rw [UInt8.toNat_ofNat']
      omega
    simp only [List.cons_append, List.nil_append, decodeLength, first]
    rw [if_neg (by omega), UInt8.toNat_ofNat', UInt8.toNat_ofNat', UInt8.toNat_ofNat']
    congr 2
    omega
  · have first : (UInt8.ofNat length).toNat = length := by
      rw [UInt8.toNat_ofNat']
      omega
    simp only [List.cons_append, List.nil_append, decodeLength, first]
    rw [if_pos (by omega)]

theorem encodeLength_length (length : Nat) :
    (encodeLength length).length = if 127 < length then 4 else 1 := by
  unfold encodeLength
  split <;> rfl

theorem decodePair_encodePair {pair : List UInt8 × List UInt8} (small : pair.1.length < 2 ^ 31)
    (small' : pair.2.length < 2 ^ 31) :
    decodePair (encodePair pair ++ rest) = some (pair, rest) := by
  simp only [decodePair, encodePair, List.append_assoc, decodeLength_encodeLength small,
    decodeLength_encodeLength small', Option.bind_eq_bind, Option.bind_some]
  rw [if_neg (by simp), List.take_left, List.drop_left, List.take_left, ← List.append_assoc,
    List.drop_left' (by rw [List.length_append])]

theorem encodePair_ne_nil (pair : List UInt8 × List UInt8) : encodePair pair ≠ [] := by
  intro empty
  have length := congrArg List.length empty
  simp only [encodePair, List.length_append, encodeLength_length, List.length_nil] at length
  split at length <;> omega

theorem encodePair_le {pair : List UInt8 × List UInt8} {pairs : List (List UInt8 × List UInt8)}
    (member : pair ∈ pairs) :
    pair.1.length + pair.2.length ≤ (pairs.flatMap encodePair).length := by
  have inside : encodePair pair ∈ pairs.map encodePair := List.mem_map_of_mem member
  have part := (List.sublist_flatten_of_mem inside).length_le
  rw [← List.flatMap_def] at part
  rw [encodePair, List.length_append, List.length_append] at part
  omega

theorem decodePairs_encodePair {pairs : List (List UInt8 × List UInt8)}
    (small : ∀ pair ∈ pairs, pair.1.length < 2 ^ 31 ∧ pair.2.length < 2 ^ 31) :
    decodePairs (pairs.flatMap encodePair) = some pairs := by
  suffices loop : ∀ fuel, (pairs.flatMap encodePair).length ≤ fuel →
      pairsLoop fuel (pairs.flatMap encodePair) = some pairs from loop _ le_rfl
  induction pairs with
  | nil =>
    intro fuel _
    rw [List.flatMap_nil, pairsLoop]
  | cons pair pairs ih =>
    intro fuel enough
    have positive := List.length_pos_of_ne_nil (encodePair_ne_nil pair)
    rw [List.flatMap_cons, List.length_append] at enough
    obtain ⟨fuel, rfl⟩ : ∃ m, fuel = m + 1 := ⟨fuel - 1, by omega⟩
    obtain ⟨first, second⟩ := small pair List.mem_cons_self
    rw [List.flatMap_cons, pairsLoop]
    · rw [decodePair_encodePair first second, Option.bind_some]
      dsimp only
      rw [ih (fun other inside => small other (List.mem_cons_of_mem _ inside)) fuel (by omega)]
      rfl
    · intro empty
      exact encodePair_ne_nil pair (List.append_eq_nil_iff.mp empty).1

end Pairs

end NgxFormal.Lib.FastCgi
