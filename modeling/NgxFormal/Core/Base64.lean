import NgxFormal.Basic
import Mathlib.Tactic.IntervalCases

/-! `ngx_encode_base64`, `ngx_decode_base64` and `ngx_decode_base64url`. The encoder is the packing
of octets into groups of six bits and the alphabet over it; the decoders are a table and the
unpacking over it. -/

namespace NgxFormal.Core

/-- `basis64[]` of `ngx_encode_base64`. -/
def basis64 (n : UInt8) : UInt8 :=
  ("ABCDEFGHIJKLMNOPQRSTUVWXYZabcdefghijklmnopqrstuvwxyz0123456789+/".toList.map chr).getD
    n.toNat 0

def ngxEncodeBase64 : List UInt8 → List UInt8
  | s0 :: s1 :: s2 :: s =>
    basis64 ((s0 >>> 2) &&& 0x3f) ::
    basis64 (((s0 &&& 3) <<< 4) ||| (s1 >>> 4)) ::
    basis64 (((s1 &&& 0x0f) <<< 2) ||| (s2 >>> 6)) ::
    basis64 (s2 &&& 0x3f) :: ngxEncodeBase64 s
  | [s0, s1] =>
    [basis64 ((s0 >>> 2) &&& 0x3f), basis64 (((s0 &&& 3) <<< 4) ||| (s1 >>> 4)),
      basis64 ((s1 &&& 0x0f) <<< 2), chr '=']
  | [s0] =>
    [basis64 ((s0 >>> 2) &&& 0x3f), basis64 ((s0 &&& 3) <<< 4), chr '=', chr '=']
  | [] => []

def ngxBase64EncodedLength (len : Nat) : Nat := (len + 2) / 3 * 4

/-- The rows of `basis64[]` of both decoders; they differ in the four named entries. -/
def decodingTable (plus minus slash underscore : UInt8) : List UInt8 :=
  [77, 77, 77, 77, 77, 77, 77, 77, 77, 77, 77, 77, 77, 77, 77, 77,
    77, 77, 77, 77, 77, 77, 77, 77, 77, 77, 77, 77, 77, 77, 77, 77,
    77, 77, 77, 77, 77, 77, 77, 77, 77, 77, 77, plus, 77, minus, 77, slash,
    52, 53, 54, 55, 56, 57, 58, 59, 60, 61, 77, 77, 77, 77, 77, 77,
    77, 0, 1, 2, 3, 4, 5, 6, 7, 8, 9, 10, 11, 12, 13, 14,
    15, 16, 17, 18, 19, 20, 21, 22, 23, 24, 25, 77, 77, 77, 77, underscore,
    77, 26, 27, 28, 29, 30, 31, 32, 33, 34, 35, 36, 37, 38, 39, 40,
    41, 42, 43, 44, 45, 46, 47, 48, 49, 50, 51, 77, 77, 77, 77, 77] ++ List.replicate 128 77

/-- `basis64[]` of `ngx_decode_base64`. -/
def decodeBasis : List UInt8 := decodingTable 62 77 63 77

/-- `basis64[]` of `ngx_decode_base64url`. -/
def decodeUrlBasis : List UInt8 := decodingTable 77 62 77 63

/-- `basis[ch]` -/
def lookup (basis : List UInt8) (ch : UInt8) : UInt8 := basis.getD ch.toNat 77

/-- The loop that finds `len`; `none` is `NGX_ERROR`. -/
def encodedText (basis : List UInt8) : List UInt8 → Option Nat
  | [] => some 0
  | ch :: src =>
    if ch = chr '=' then some 0
    else if lookup basis ch = 77 then none
    else (encodedText basis src).map (· + 1)

/-- The three writes that both ends of the decoder share, over the looked up values. -/
def octets : List UInt8 → List UInt8
  | s0 :: s1 :: s2 :: s3 :: s =>
    (s0 <<< 2 ||| s1 >>> 4) :: (s1 <<< 4 ||| s2 >>> 2) :: (s2 <<< 6 ||| s3) :: octets s
  | [s0, s1, s2] => [s0 <<< 2 ||| s1 >>> 4, s1 <<< 4 ||| s2 >>> 2]
  | [s0, s1] => [s0 <<< 2 ||| s1 >>> 4]
  | [_] => []
  | [] => []

def ngxDecodeBase64Internal (src basis : List UInt8) : Option (List UInt8) :=
  match encodedText basis src with
  | none => none
  | some len =>
    if len % 4 = 1 then none else some (octets ((src.take len).map (lookup basis)))

def ngxDecodeBase64 (src : List UInt8) : Option (List UInt8) :=
  ngxDecodeBase64Internal src decodeBasis

def ngxDecodeBase64url (src : List UInt8) : Option (List UInt8) :=
  ngxDecodeBase64Internal src decodeUrlBasis

/-- Bytes as groups of six bits, the last group filled up with zero bits. -/
def sextets : List UInt8 → List UInt8
  | s0 :: s1 :: s2 :: s =>
    ((s0 >>> 2) &&& 0x3f) :: (((s0 &&& 3) <<< 4) ||| (s1 >>> 4)) ::
      (((s1 &&& 0x0f) <<< 2) ||| (s2 >>> 6)) :: (s2 &&& 0x3f) :: sextets s
  | [s0, s1] =>
    [(s0 >>> 2) &&& 0x3f, ((s0 &&& 3) <<< 4) ||| (s1 >>> 4), (s1 &&& 0x0f) <<< 2]
  | [s0] => [(s0 >>> 2) &&& 0x3f, (s0 &&& 3) <<< 4]
  | [] => []

/-- The text of a base64url encoder: `'+'` and `'/'` replaced, the padding dropped. -/
def urlText (text : List UInt8) : List UInt8 :=
  (text.filter (· != chr '=')).map fun ch =>
    if ch = chr '+' then chr '-' else if ch = chr '/' then chr '_' else ch

/-! ### Groups of six bits -/

section Groups

variable (s0 s1 s2 : UInt8)

theorem first_octet :
    ((s0 >>> 2) &&& 0x3f) <<< 2 ||| (((s0 &&& 3) <<< 4) ||| (s1 >>> 4)) >>> 4 = s0 := by
  apply UInt8.toBitVec_inj.mp
  apply BitVec.eq_of_getLsbD_eq
  intro i inside
  interval_cases i <;> simp

theorem second_octet :
    (((s0 &&& 3) <<< 4) ||| (s1 >>> 4)) <<< 4 ||| (((s1 &&& 0x0f) <<< 2) ||| (s2 >>> 6)) >>> 2 =
      s1 := by
  apply UInt8.toBitVec_inj.mp
  apply BitVec.eq_of_getLsbD_eq
  intro i inside
  interval_cases i <;> simp

theorem third_octet :
    (((s1 &&& 0x0f) <<< 2) ||| (s2 >>> 6)) <<< 6 ||| (s2 &&& 0x3f) = s2 := by
  apply UInt8.toBitVec_inj.mp
  apply BitVec.eq_of_getLsbD_eq
  intro i inside
  interval_cases i <;> simp

theorem sextet_small (value : UInt8) (masked : value &&& 0x3f = value) : value < 64 := by
  rw [UInt8.lt_iff_toNat_lt, ← masked, UInt8.toNat_and]
  have below := Nat.and_le_right (n := value.toNat) (m := 0x3f)
  exact Nat.lt_of_le_of_lt below (by decide)

theorem second_small : ((s0 &&& 3) <<< 4) ||| (s1 >>> 4) < 64 := by
  apply sextet_small
  apply UInt8.toBitVec_inj.mp
  apply BitVec.eq_of_getLsbD_eq
  intro i inside
  interval_cases i <;> simp

theorem third_small : ((s1 &&& 0x0f) <<< 2) ||| (s2 >>> 6) < 64 := by
  apply sextet_small
  apply UInt8.toBitVec_inj.mp
  apply BitVec.eq_of_getLsbD_eq
  intro i inside
  interval_cases i <;> simp

theorem masked_small : s2 &&& 0x3f < 64 := by
  apply sextet_small
  rw [UInt8.and_assoc, UInt8.and_self]

end Groups

theorem tail_two (s1 : UInt8) : (s1 &&& 0x0f) <<< 2 = ((s1 &&& 0x0f) <<< 2) ||| ((0 : UInt8) >>> 6) := by
  simp

theorem tail_one (s0 : UInt8) : (s0 &&& 3) <<< 4 = ((s0 &&& 3) <<< 4) ||| ((0 : UInt8) >>> 4) := by
  simp

theorem octets_sextets (s : List UInt8) : octets (sextets s) = s := by
  fun_induction sextets s with
  | case1 s0 s1 s2 s ih => rw [octets, first_octet, second_octet, third_octet, ih]
  | case2 s0 s1 => rw [octets, first_octet, tail_two, second_octet]
  | case3 s0 => rw [octets, tail_one, first_octet]
  | case4 => rfl

theorem sextets_small (s : List UInt8) : ∀ value ∈ sextets s, value < 64 := by
  fun_induction sextets s with
  | case1 s0 s1 s2 s ih =>
    simp only [List.forall_mem_cons]
    exact ⟨masked_small _, second_small _ _, third_small _ _, masked_small _, ih⟩
  | case2 s0 s1 =>
    rw [tail_two]
    simp only [List.forall_mem_cons]
    exact ⟨masked_small _, second_small _ _, third_small _ _, List.forall_mem_nil _⟩
  | case3 s0 =>
    rw [tail_one]
    simp only [List.forall_mem_cons]
    exact ⟨masked_small _, second_small _ _, List.forall_mem_nil _⟩
  | case4 => exact List.forall_mem_nil _

theorem sextets_length (s : List UInt8) : (sextets s).length = (s.length * 4 + 2) / 3 := by
  fun_induction sextets s with
  | case1 s0 s1 s2 s ih =>
    simp only [List.length_cons, ih]
    omega
  | case2 s0 s1 => simp
  | case3 s0 => simp
  | case4 => rfl

/-! ### The encoder -/

/-- The padding behind the groups of `s`. -/
def padding (s : List UInt8) : List UInt8 := List.replicate ((3 - s.length % 3) % 3) (chr '=')

theorem ngxEncodeBase64_eq (s : List UInt8) :
    ngxEncodeBase64 s = (sextets s).map basis64 ++ padding s := by
  fun_induction sextets s with
  | case1 s0 s1 s2 s ih =>
    have tail : padding (s0 :: s1 :: s2 :: s) = padding s := by
      simp only [padding, List.length_cons]
      congr 2
      omega
    rw [tail, ngxEncodeBase64, ih]
    rfl
  | case2 s0 s1 => rfl
  | case3 s0 => rfl
  | case4 => rfl

theorem ngxEncodeBase64_length (s : List UInt8) :
    (ngxEncodeBase64 s).length = ngxBase64EncodedLength s.length := by
  rw [ngxEncodeBase64_eq, List.length_append, List.length_map, sextets_length, padding,
    List.length_replicate, ngxBase64EncodedLength]
  omega

/-! ### The decoders -/

/-- A table reads back what an alphabet writes. -/
def Inverts (basis : List UInt8) (alphabet : UInt8 → UInt8) : Prop :=
  ∀ value < 64, alphabet value ≠ chr '=' ∧ lookup basis (alphabet value) = value

def basis64Chars : List UInt8 :=
  "ABCDEFGHIJKLMNOPQRSTUVWXYZabcdefghijklmnopqrstuvwxyz0123456789+/".toList.map chr

/-- What holds of the characters and their places holds of the alphabet. -/
theorem basis64_all {P : UInt8 → UInt8 → Prop} {value : UInt8} (small : value < 64)
    (all : ∀ entry ∈ basis64Chars.zipIdx, P entry.1 (UInt8.ofNat entry.2)) :
    P (basis64 value) value := by
  have bound : value.toNat < basis64Chars.length := UInt8.lt_iff_toNat_lt.mp small
  have inside := List.getElem?_eq_getElem bound
  have row : basis64 value = basis64Chars[value.toNat] := by
    rw [basis64, List.getD_eq_getElem?_getD]
    exact congrArg (fun ch => ch.getD 0) inside
  have entry := all _ (List.mk_mem_zipIdx_iff_getElem?.mpr inside)
  rw [UInt8.ofNat_toNat] at entry
  rw [row]
  exact entry

theorem decodeBasis_inverts : Inverts decodeBasis basis64 := fun _ small =>
  basis64_all (P := fun ch value => ch ≠ chr '=' ∧ lookup decodeBasis ch = value) small (by decide)

/-- The alphabet of `urlText`. -/
def basis64url (value : UInt8) : UInt8 :=
  if basis64 value = chr '+' then chr '-'
  else if basis64 value = chr '/' then chr '_' else basis64 value

/-- `basis64url` behind the alphabet. -/
def toUrl (ch : UInt8) : UInt8 :=
  if ch = chr '+' then chr '-' else if ch = chr '/' then chr '_' else ch

theorem decodeUrlBasis_inverts : Inverts decodeUrlBasis basis64url := fun _ small =>
  basis64_all (P := fun ch value => toUrl ch ≠ chr '=' ∧ lookup decodeUrlBasis (toUrl ch) = value)
    small (by decide)

theorem encodedText_padding (basis : List UInt8) (n : Nat) :
    encodedText basis (List.replicate n (chr '=')) = some 0 := by
  cases n with
  | zero => rfl
  | succ n => rw [List.replicate_succ, encodedText, if_pos rfl]

section Inverse

variable {basis : List UInt8} {alphabet : UInt8 → UInt8} (inverts : Inverts basis alphabet)
include inverts

theorem encodedText_alphabet (values : List UInt8) (small : ∀ value ∈ values, value < 64)
    (n : Nat) :
    encodedText basis (values.map alphabet ++ List.replicate n (chr '=')) =
      some values.length := by
  induction values with
  | nil => exact encodedText_padding basis n
  | cons value values ih =>
    obtain ⟨noPadding, known⟩ := inverts value (small value List.mem_cons_self)
    have valid : value ≠ 77 := by
      intro same
      have bound := small value List.mem_cons_self
      rw [same] at bound
      exact absurd bound (by decide)
    rw [List.map_cons, List.cons_append, encodedText, if_neg noPadding, known, if_neg valid,
      ih fun other member => small other (List.mem_cons_of_mem value member)]
    rfl

theorem ngxDecodeBase64Internal_alphabet (s : List UInt8) (n : Nat) :
    ngxDecodeBase64Internal ((sextets s).map alphabet ++ List.replicate n (chr '=')) basis =
      some s := by
  have values : ((sextets s).map alphabet).map (lookup basis) = sextets s := by
    rw [List.map_map]
    apply (List.map_congr_left _).trans (List.map_id _)
    intro value member
    exact (inverts value (sextets_small s value member)).2
  have text : (((sextets s).map alphabet) ++ List.replicate n (chr '=')).take (sextets s).length =
      (sextets s).map alphabet := by
    apply List.take_left'
    rw [List.length_map]
  have whole : (sextets s).length % 4 ≠ 1 := by
    rw [sextets_length]
    omega
  rw [ngxDecodeBase64Internal, encodedText_alphabet inverts _ (sextets_small s)]
  simp only
  rw [if_neg whole, text, values, octets_sextets]

end Inverse

theorem urlText_encode (s : List UInt8) :
    urlText (ngxEncodeBase64 s) = (sextets s).map basis64url := by
  have kept : ((sextets s).map basis64).filter (· != chr '=') = (sextets s).map basis64 := by
    apply List.filter_eq_self.mpr
    intro ch member
    obtain ⟨value, isValue, same⟩ := List.mem_map.mp member
    rw [bne_iff_ne, ← same]
    exact (decodeBasis_inverts value (sextets_small s value isValue)).1
  have dropped : (padding s).filter (· != chr '=') = [] := by
    rw [padding, List.filter_replicate]
    rfl
  rw [urlText, ngxEncodeBase64_eq, List.filter_append, kept, dropped, List.append_nil,
    List.map_map]
  rfl

theorem octets_length (values : List UInt8) : (octets values).length = values.length * 3 / 4 := by
  fun_induction octets values with
  | case1 s0 s1 s2 s3 s ih =>
    simp only [List.length_cons, ih]
    omega
  | case2 s0 s1 s2 => simp
  | case3 s0 s1 => simp
  | case4 s0 => simp
  | case5 => rfl

theorem ngxDecodeBase64Internal_length {src basis out : List UInt8}
    (accepted : ngxDecodeBase64Internal src basis = some out) :
    out.length ≤ 3 * ((src.length + 3) / 4) := by
  rw [ngxDecodeBase64Internal] at accepted
  split at accepted
  · exact absurd accepted (by simp)
  · split at accepted
    · exact absurd accepted (by simp)
    · rw [← Option.some.inj accepted, octets_length, List.length_map, List.length_take]
      omega

/-- Decoding an encoded string returns it, in both alphabets, and both sides stay in the buffers
that their callers reserve. -/
theorem base64_round_trip (s : List UInt8) :
    ngxDecodeBase64 (ngxEncodeBase64 s) = some s ∧
    (ngxEncodeBase64 s).length = ngxBase64EncodedLength s.length ∧
    ngxDecodeBase64url (urlText (ngxEncodeBase64 s)) = some s ∧
    ∀ src out, ngxDecodeBase64 src = some out ∨ ngxDecodeBase64url src = some out →
      out.length ≤ 3 * ((src.length + 3) / 4) := by
  refine ⟨?_, ngxEncodeBase64_length s, ?_, ?_⟩
  · rw [ngxEncodeBase64_eq]
    exact ngxDecodeBase64Internal_alphabet decodeBasis_inverts s _
  · rw [urlText_encode, ← List.append_nil (List.map _ _)]
    exact ngxDecodeBase64Internal_alphabet decodeUrlBasis_inverts s 0
  · intro src out accepted
    rcases accepted with plain | url
    · exact ngxDecodeBase64Internal_length plain
    · exact ngxDecodeBase64Internal_length url

theorem base64_round_trip_tail :
    ngxDecodeBase64 (ngxEncodeBase64 [chr 'M', chr 'a']) = some [chr 'M', chr 'a'] ∧
    [chr 'M', chr 'a'].length ≤ 3 * (([chr 'T', chr 'W', chr 'E', chr '='].length + 3) / 4) := by
  have text : ngxDecodeBase64 [chr 'T', chr 'W', chr 'E', chr '='] = some [chr 'M', chr 'a'] := by
    decide +kernel
  exact ⟨(base64_round_trip _).1, (base64_round_trip []).2.2.2 _ _ (Or.inl text)⟩

end NgxFormal.Core
