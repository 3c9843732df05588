import NgxFormal.Core.Inet6
import NgxFormal.Core.PrintfPrefix

/-! `ngx_inet6_ntop`, and the text that it writes. -/

namespace NgxFormal.Core.Inet

open NgxFormal.Core.Atoi (hexDigit decimalDigit)
open NgxFormal.Core.Printf NgxFormal.Lib.Digits NgxFormal.Lib.Fields

/-- `sizeof("ffff:ffff:ffff:ffff:ffff:ffff:255.255.255.255") - 1` -/
def NGX_INET6_ADDRSTRLEN : Nat := 45

/-- `ngx_sprintf` into a buffer far from the end of the memory. -/
def sprintf (fmt : String) (args : List Arg) : List UInt8 :=
  (ngxSprintf 0 (fmt.toList.map chr) args).getD []

/-- The locals of the first loop, where `none` is `(ngx_uint_t) -1`. -/
structure ZeroRuns where
  zero : Option Nat
  last : Option Nat
  max : Nat
  n : Nat

/-- `if (max < n)` -/
def ZeroRuns.longest (st : ZeroRuns) : ZeroRuns :=
  if st.max < st.n then { st with zero := st.last, max := st.n } else st

/-- `for (i = 0; i < 16; i += 2)` -/
def zeroLoop (p : Nat → UInt8) (i : Nat) (st : ZeroRuns) : ZeroRuns :=
  if i < 16 then
    if p i ≠ 0 ∨ p (i + 1) ≠ 0 then zeroLoop p (i + 2) { st.longest with n := 0 }
    else
      zeroLoop p (i + 2) { st with
        n := st.n + 1, last := if st.n = 0 then some i else st.last }
  else st
  termination_by 16 - i

/-- `for (i = 0; i < n; i += 2)` -/
def groupLoop (p : Nat → UInt8) (zero : Option Nat) (max n i : Nat) (dst : List UInt8) :
    List UInt8 :=
  if i < n then
    if some i = zero then groupLoop p zero max n (i + (max - 1) * 2 + 2) (dst ++ [chr ':'])
    else
      let dst := dst ++ sprintf "%uxi"
        [.word (UInt64.ofNat ((p i).toNat * 256 + (p (i + 1)).toNat))]
      groupLoop p zero max n (i + 2) (if i < 14 then dst ++ [chr ':'] else dst)
  else dst
  termination_by n - i

/-- The last four bytes are printed as an IPv4 address. -/
def dottedTail (p : Nat → UInt8) (st : ZeroRuns) : Bool :=
  st.zero = some 0 ∧ (st.max = 5 ∧ p 10 = 0xff ∧ p 11 = 0xff ∨ st.max = 6 ∨
    st.max = 7 ∧ p 14 ≠ 0 ∧ p 15 ≠ 1)

/-- The text of the sixteen bytes from `p` on. -/
def ngxInet6Ntop (p : Nat → UInt8) (len : Nat) : List UInt8 :=
  if len < NGX_INET6_ADDRSTRLEN then []
  else
    let st := (zeroLoop p 0 ⟨none, none, 1, 0⟩).longest
    let n := if dottedTail p st then 12 else 16
    let dst := if st.zero = some 0 then [chr ':'] else []
    let dst := groupLoop p st.zero st.max n 0 dst
    if n = 12 then
      dst ++ sprintf "%ud.%ud.%ud.%ud" [.word (p 12).toUInt64, .word (p 13).toUInt64,
        .word (p 14).toUInt64, .word (p 15).toUInt64]
    else dst

/-! ### The directives -/

theorem sprintf_uxi (w : UInt64) : sprintf "%uxi" [.word w] = digits w 1 := by
  have text : "%uxi".toList.map chr = [chr '%', chr 'u', chr 'x', chr 'i'] := rfl
  rw [sprintf, ngxSprintf, ngxVslprintf, text, loop_uxi _ _ _ (by decide), loop_end]
  rfl

def octetText (byte : UInt8) : List UInt8 := digits byte.toUInt64 0

theorem narrow_octet (byte : UInt8) : byte.toUInt64.toUInt32.toUInt64 = byte.toUInt64 := by
  apply UInt64.toNat.inj
  have small := byte.toNat_lt
  rw [UInt32.toNat_toUInt64, UInt64.toNat_toUInt32, UInt8.toNat_toUInt64]
  omega

theorem octetText_length (byte : UInt8) : (octetText byte).length ≤ 3 := by
  apply (digits_decimal byte.toUInt64).short 3 (by decide)
  rw [UInt8.toNat_toUInt64]
  exact byte.toNat_lt.trans (by decide)

/-- The text of four bytes with dots between them. -/
def quadText (a b c d : UInt8) : List UInt8 :=
  octetText a ++ chr '.' :: (octetText b ++ chr '.' :: (octetText c ++ chr '.' :: octetText d))

theorem loop_octet {room : Nat} {out : List UInt8} (behind : List UInt8) (byte : UInt8)
    (args : List Arg) (fits : out.length + 25 < room) :
    loop room out (chr '%' :: chr 'u' :: chr 'd' :: chr '.' :: behind)
        (.word byte.toUInt64 :: args) =
      loop room (out ++ (octetText byte ++ [chr '.'])) behind args := by
  have length := octetText_length byte
  rw [loop_ud _ _ _ (by omega), narrow_octet, loop_plain _ _ (by decide) (by decide),
    List.append_assoc]
  · rfl
  · rw [octetText] at length
    rw [List.length_append]
    omega

theorem ngxSprintf_quad (a b c d : UInt8) :
    ngxSprintf 0 ("%ud.%ud.%ud.%ud".toList.map chr) [.word a.toUInt64, .word b.toUInt64,
      .word c.toUInt64, .word d.toUInt64] = some (quadText a b c d) := by
  have text : "%ud.%ud.%ud.%ud".toList.map chr =
      [chr '%', chr 'u', chr 'd', chr '.', chr '%', chr 'u', chr 'd', chr '.',
        chr '%', chr 'u', chr 'd', chr '.', chr '%', chr 'u', chr 'd'] := rfl
  have first := octetText_length a
  have second := octetText_length b
  have third := octetText_length c
  rw [ngxSprintf, ngxVslprintf, text, loop_octet, loop_octet, loop_octet, loop_ud,
    loop_end, narrow_octet]
  · simp [quadText, octetText]
  all_goals
    simp only [List.length_append, List.length_singleton, List.length_nil]
    omega

theorem sprintf_quad (a b c d : UInt8) :
    sprintf "%ud.%ud.%ud.%ud" [.word a.toUInt64, .word b.toUInt64, .word c.toUInt64,
      .word d.toUInt64] = quadText a b c d := by
  rw [sprintf, ngxSprintf_quad, Option.getD_some]

/-! ### The zero runs -/

/-- The value of the group `k`. -/
def group (p : Nat → UInt8) (k : Nat) : Nat := (p (2 * k)).toNat * 256 + (p (2 * k + 1)).toNat

/-- The hexadecimal text of the group `k`. -/
def groupText (p : Nat → UInt8) (k : Nat) : List UInt8 := digits (UInt64.ofNat (group p k)) 1

/-- `m` groups of zeros from the group `k` on. -/
def ZeroRun (p : Nat → UInt8) (k m : Nat) : Prop := ∀ j, k ≤ j → j < k + m → group p j = 0

theorem ZeroRun.empty {p : Nat → UInt8} (k : Nat) : ZeroRun p k 0 := by
  intro j low high
  omega

theorem ZeroRun.next {p : Nat → UInt8} {k n : Nat} (run : ZeroRun p (k - n) n) (inside : n ≤ k)
    (zero : group p k = 0) : ZeroRun p (k + 1 - (n + 1)) (n + 1) := by
  intro j low high
  by_cases here : j = k
  · rw [here]
    exact zero
  · exact run j (by omega) (by omega)

/-- The run that is remembered is one of two groups at least. -/
def Found (p : Nat → UInt8) (k : Nat) (st : ZeroRuns) : Prop :=
  ∀ z ∈ st.zero, ∃ j, z = 2 * j ∧ 2 ≤ st.max ∧ j + st.max ≤ k ∧ ZeroRun p j st.max

/-- The scan is in front of the group `k`. -/
structure Scanned (p : Nat → UInt8) (k : Nat) (st : ZeroRuns) : Prop where
  found : Found p k st
  max : 1 ≤ st.max
  inside : st.n ≤ k
  last : st.n ≠ 0 → st.last = some (2 * (k - st.n))
  run : ZeroRun p (k - st.n) st.n

theorem Scanned.longest {p : Nat → UInt8} {k : Nat} {st : ZeroRuns} (scanned : Scanned p k st) :
    Found p k st.longest ∧ 1 ≤ st.longest.max := by
  rw [ZeroRuns.longest]
  split
  · rename_i longer
    have max := scanned.max
    have inside := scanned.inside
    have two : 2 ≤ st.n := by omega
    have fits : k - st.n + st.n ≤ k := by omega
    refine ⟨?_, Nat.le_of_succ_le two⟩
    intro z member
    have last := scanned.last (by omega)
    have same : z = 2 * (k - st.n) := (Option.some.inj (last.symm.trans member)).symm
    exact ⟨k - st.n, same, two, fits, scanned.run⟩
  · exact ⟨scanned.found, scanned.max⟩

theorem group_zero {p : Nat → UInt8} {k : Nat} (zeros : ¬ (p (2 * k) ≠ 0 ∨ p (2 * k + 1) ≠ 0)) :
    group p k = 0 := by
  obtain ⟨high, low⟩ := not_or.mp zeros
  rw [group, not_not.mp high, not_not.mp low]
  rfl

theorem zeroLoop_scanned {p : Nat → UInt8} {left k : Nat} {st : ZeroRuns} (rest : k + left = 8)
    (scanned : Scanned p k st) : Scanned p 8 (zeroLoop p (2 * k) st) := by
  induction left generalizing k st with
  | zero =>
    have ended : k = 8 := rest
    subst ended
    rw [zeroLoop, if_neg (by decide)]
    exact scanned
  | succ left ih =>
    have next : 2 * k + 2 = 2 * (k + 1) := rfl
    have fewer : k + 1 + left = 8 := by omega
    rw [zeroLoop, if_pos (by omega), next]
    split
    · obtain ⟨found, max⟩ := scanned.longest
      apply ih fewer
      refine ⟨?_, max, Nat.zero_le _, fun zero => absurd rfl zero, ?_⟩
      · intro z member
        obtain ⟨j, same, two, inside, run⟩ := found z member
        exact ⟨j, same, two, Nat.le_succ_of_le inside, run⟩
      · exact ZeroRun.empty (k + 1)
    · rename_i zeros
      have inside := scanned.inside
      apply ih fewer
      refine ⟨?_, scanned.max, ?_, ?_, ?_⟩
      · intro z member
        obtain ⟨j, same, two, inside, run⟩ := scanned.found z member
        exact ⟨j, same, two, Nat.le_succ_of_le inside, run⟩
      · exact Nat.succ_le_succ inside
      · intro _
        have start : k + 1 - (st.n + 1) = k - st.n := Nat.add_sub_add_right k 1 st.n
        simp only [start]
        split
        · rename_i none_
          rw [none_, Nat.sub_zero]
        · rename_i some_
          exact scanned.last some_
      · exact scanned.run.next inside (group_zero zeros)

theorem longest_found (p : Nat → UInt8) :
    Found p 8 (zeroLoop p 0 ⟨none, none, 1, 0⟩).longest := by
  have start : Scanned p 0 ⟨none, none, 1, 0⟩ := by
    refine ⟨?_, Nat.le_refl 1, Nat.le_refl 0, fun zero => absurd rfl zero, ZeroRun.empty 0⟩
    intro z member
    exact absurd member (by simp)
  exact (zeroLoop_scanned (Nat.zero_add 8) start).longest.1

/-! ### The groups -/

def closed (texts : List (List UInt8)) : List UInt8 := texts.flatMap (· ++ [chr ':'])

theorem closed_cons (text : List UInt8) (texts : List (List UInt8)) :
    closed (text :: texts) = text ++ chr ':' :: closed texts := by
  rw [closed, List.flatMap_cons, List.append_assoc]
  rfl

variable {p : Nat → UInt8} {zero : Option Nat} {max n k : Nat}

theorem groupLoop_group (dst : List UInt8) (inside : 2 * k < n) (early : k < 7)
    (other : zero ≠ some (2 * k)) :
    groupLoop p zero max n (2 * k) dst =
      groupLoop p zero max n (2 * (k + 1)) (dst ++ (groupText p k ++ [chr ':'])) := by
  rw [groupLoop, if_pos inside, if_neg (Ne.symm other)]
  simp only [sprintf_uxi]
  rw [if_pos (by omega), List.append_assoc]
  rfl

theorem groupLoop_groups (dst : List UInt8) {m : Nat} (inside : 2 * (k + m) ≤ n)
    (early : k + m ≤ 7) (other : ∀ j, k ≤ j → j < k + m → zero ≠ some (2 * j)) :
    groupLoop p zero max n (2 * k) dst =
      groupLoop p zero max n (2 * (k + m))
        (dst ++ closed ((List.range' k m).map (groupText p))) := by
  induction m generalizing k dst with
  | zero => simp [closed]
  | succ m ih =>
    rw [groupLoop_group dst (by omega) (by omega) (other k (Nat.le_refl k) (by omega)),
      ih _ (by omega) (by omega) fun j low high => other j (by omega) (by omega),
      List.range'_succ, List.map_cons, closed_cons]
    simp [Nat.add_right_comm, Nat.add_assoc]

theorem groupLoop_gap (dst : List UInt8) (some_ : 2 ≤ max) (inside : 2 * k < n) :
    groupLoop p (some (2 * k)) max n (2 * k) dst =
      groupLoop p (some (2 * k)) max n (2 * (k + max)) (dst ++ [chr ':']) := by
  have next : 2 * k + (max - 1) * 2 + 2 = 2 * (k + max) := by omega
  rw [groupLoop, if_pos inside, if_pos rfl, next]

theorem groupLoop_end (dst : List UInt8) {i : Nat} (ended : n ≤ i) :
    groupLoop p zero max n i dst = dst := by
  rw [groupLoop, if_neg (Nat.not_lt.mpr ended)]

theorem groupLoop_last (dst : List UInt8) (other : zero ≠ some 14) :
    groupLoop p zero max 16 14 dst = dst ++ groupText p 7 := by
  rw [groupLoop, if_pos (by decide), if_neg (Ne.symm other), groupLoop_end _ (by decide)]
  simp only [sprintf_uxi]
  rfl

/-- The groups from `k` on up to the last one. -/
def tailText (p : Nat → UInt8) (k : Nat) : List UInt8 :=
  if k < 8 then closed ((List.range' k (7 - k)).map (groupText p)) ++ groupText p 7 else []

theorem groupLoop_tail (dst : List UInt8) (other : ∀ j, k ≤ j → zero ≠ some (2 * j)) :
    groupLoop p zero max 16 (2 * k) dst = dst ++ tailText p k := by
  rw [tailText]
  by_cases more : k < 8
  · have seven : k + (7 - k) = 7 := by omega
    rw [if_pos more, groupLoop_groups dst (m := 7 - k) (by omega) (by omega)
      (fun j low _ => other j low), seven, groupLoop_last _ (other 7 (by omega)), List.append_assoc]
  · rw [if_neg more, groupLoop_end _ (by omega), List.append_nil]

end NgxFormal.Core.Inet

/-! `ngx_inet6_addr` on the texts of `ngx_inet6_ntop`. -/

namespace NgxFormal.Core.Inet

open NgxFormal.Core.Atoi (hexDigit decimalDigit)
open NgxFormal.Core.Printf NgxFormal.Lib.Digits NgxFormal.Lib.Fields NgxFormal.Lib.Window

variable {p : Nat → UInt8}

/-! ### One field -/

theorem group_lt (p : Nat → UInt8) (k : Nat) : group p k < 16 ^ 4 := by
  have high := (p (2 * k)).toNat_lt
  have low := (p (2 * k + 1)).toNat_lt
  rw [group]
  omega

theorem groupText_spells (p : Nat → UInt8) (k : Nat) :
    Spells 16 hexDigit (group p k) (groupText p k) := by
  have small := group_lt p k
  have spells := digits_hex (UInt64.ofNat (group p k))
  rwa [UInt64.toNat_ofNat_of_lt' (small.trans (by decide))] at spells

theorem groupText_hexField (p : Nat → UInt8) (k : Nat) :
    hexField (groupText p k) = some (group p k) := by
  have spells := groupText_spells p k
  rw [hexField, if_pos ⟨spells.some_, spells.short 4 (by decide) (group_lt p k)⟩, spells.value]

theorem groupText_plain (p : Nat → UInt8) (k : Nat) : chr ':' ∉ groupText p k := by
  intro member
  obtain ⟨d, digit⟩ := value_digits (groupText_spells p k).value _ member
  have noHex : hexDigit (chr ':') = none := by decide
  exact absurd (noHex.symm.trans digit) (by simp)

theorem octetText_spells (byte : UInt8) : Spells 10 decimalDigit byte.toNat (octetText byte) := by
  have spells := digits_decimal byte.toUInt64
  rwa [UInt8.toNat_toUInt64] at spells

theorem octetText_looseOctet (byte : UInt8) : looseOctet (octetText byte) = some byte.toNat := by
  have small : byte.toNat % 2 ^ 64 = byte.toNat := by
    have bound := byte.toNat_lt
    omega
  rw [looseOctet, (octetText_spells byte).value, Option.bind_some, small, if_pos byte.toNat_lt]

theorem octetText_digits {byte ch : UInt8} (member : ch ∈ octetText byte) : isDigit ch = true := by
  obtain ⟨d, digit⟩ := value_digits (octetText_spells byte).value _ member
  rw [decimalDigit] at digit
  split at digit
  · assumption
  · exact absurd digit (by simp)

theorem octetText_plain (byte : UInt8) : chr '.' ∉ octetText byte := by
  intro member
  exact absurd (octetText_digits member) (by decide)

theorem octetText_hexField (byte : UInt8) : hexField (octetText byte) ≠ none := by
  have length := octetText_length byte
  rw [hexField, if_pos ⟨(octetText_spells byte).some_, by omega⟩]
  apply value_ne_none
  intro ch member
  rw [hexDigit, if_pos (octetText_digits member)]
  simp

/-! ### The dotted field -/

theorem looseOctets_quad (a b c d : UInt8) :
    looseOctets (quadText a b c d) = some [a.toNat, b.toNat, c.toNat, d.toNat] := by
  rw [looseOctets, quadText, fields_append (octetText_plain a), fields_append (octetText_plain b),
    fields_append (octetText_plain c), fields_plain (octetText_plain d)]
  simp [octetText_looseOctet]

/-- `sizeof("255.255.255.255") - 1` -/
def NGX_INET_ADDRSTRLEN : Nat := 15

/-- `ngx_inet_ntop` for `AF_INET`. -/
def ngxInetNtop (p : Nat → UInt8) (len : Nat) : List UInt8 :=
  (ngxSnprintf 0 len ("%ud.%ud.%ud.%ud".toList.map chr) [.word (p 0).toUInt64, .word (p 1).toUInt64,
    .word (p 2).toUInt64, .word (p 3).toUInt64]).getD []

theorem ngxInetNtop_eq (p : Nat → UInt8) :
    ngxInetNtop p NGX_INET_ADDRSTRLEN = quadText (p 0) (p 1) (p 2) (p 3) := by
  have quad := ngxSprintf_quad (p 0) (p 1) (p 2) (p 3)
  rw [ngxSprintf, ngxVslprintf] at quad
  have taken := loop_take (by decide : 15 ≤ 2 ^ 64 - 1 - 0) quad (Nat.zero_le _)
  rw [List.take_nil, List.take_of_length_le] at taken
  · rw [ngxInetNtop, ngxSnprintf, ngxVslprintf]
    exact congrArg (·.getD []) taken
  · have length := fun i => octetText_length (p i)
    have first := length 0
    have second := length 1
    have third := length 2
    have last := length 3
    simp only [quadText, List.length_append, List.length_cons]
    omega

theorem quad_front (a b c d : UInt8) :
    (quadText a b c d).takeWhile (· ≠ chr '.') = octetText a := by
  have plain : ∀ ch ∈ octetText a, decide (ch ≠ chr '.') = true := by
    intro ch member
    apply decide_eq_true
    intro dot
    rw [dot] at member
    exact octetText_plain a member
  rw [quadText, List.takeWhile_append_of_pos plain]
  simp

/-- The four bytes are those of `INADDR_NONE`. -/
def AllOnes (a b c d : UInt8) : Prop := a = 255 ∧ b = 255 ∧ c = 255 ∧ d = 255

instance (a b c d : UInt8) : Decidable (AllOnes a b c d) :=
  inferInstanceAs (Decidable (a = 255 ∧ b = 255 ∧ c = 255 ∧ d = 255))

theorem address_none (a b c d : UInt8) :
    address [a.toNat, b.toNat, c.toNat, d.toNat] = INADDR_NONE ↔ AllOnes a b c d := by
  have number := address_toNat a.toNat_lt b.toNat_lt c.toNat_lt d.toNat_lt
  constructor
  · intro none_
    rw [none_] at number
    have ones : INADDR_NONE.toNat = 4294967295 := rfl
    have first := a.toNat_lt
    have second := b.toNat_lt
    have third := c.toNat_lt
    have last := d.toNat_lt
    have full : (255 : UInt8).toNat = 255 := rfl
    refine ⟨?_, ?_, ?_, ?_⟩ <;>
      · apply UInt8.toNat.inj
        omega
  · rintro ⟨rfl, rfl, rfl, rfl⟩
    decide

theorem dottedField_quad (a b c d : UInt8) :
    dottedField (quadText a b c d) =
      if AllOnes a b c d then none
      else some [a.toNat * 256 + b.toNat, c.toNat * 256 + d.toNat] := by
  have third := c.toNat_lt
  have last := d.toNat_lt
  have high : ((a.toNat * 256 + b.toNat) * 65536 + (c.toNat * 256 + d.toNat)) / 65536 =
      a.toNat * 256 + b.toNat := by omega
  have low : ((a.toNat * 256 + b.toNat) * 65536 + (c.toNat * 256 + d.toNat)) % 65536 =
      c.toNat * 256 + d.toNat := by omega
  rw [dottedField, quad_front, if_neg (octetText_hexField a), looseOctets_quad, Option.bind_some,
    address_toNat a.toNat_lt b.toNat_lt third last, high, low]
  simp only [address_none]

theorem quad_no_hex (a b c d : UInt8) : hexField (quadText a b c d) = none :=
  @hexField_bad _ (chr '.') (by simp [quadText]) (by decide)

theorem quad_plain (a b c d : UInt8) : chr ':' ∉ quadText a b c d := by
  have noDigit (byte : UInt8) : chr ':' ∉ octetText byte := fun member =>
    absurd (octetText_digits member) (by decide)
  have noDot : ¬ chr ':' = chr '.' := by decide
  simp [quadText, noDigit, noDot]

/-! ### The fields of a text -/

theorem fields_closed {texts : List (List UInt8)} (plain : ∀ text ∈ texts, chr ':' ∉ text)
    (rest : List UInt8) :
    fields (chr ':') (closed texts ++ rest) = texts ++ fields (chr ':') rest := by
  induction texts with
  | nil => rfl
  | cons text texts ih =>
    obtain ⟨first, others⟩ := List.forall_mem_cons.mp plain
    rw [closed_cons, List.append_assoc, List.cons_append, fields_append first, ih others]
    rfl

theorem fields_groups (p : Nat → UInt8) (k m : Nat) (rest : List UInt8) :
    fields (chr ':') (closed ((List.range' k m).map (groupText p)) ++ rest) =
      (List.range' k m).map (groupText p) ++ fields (chr ':') rest := by
  apply fields_closed
  intro text member
  obtain ⟨j, _, same⟩ := List.mem_map.mp member
  rw [← same]
  exact groupText_plain p j

theorem readFields_groups {groups : List Nat} {gap : Option Nat} {seen : Bool} {k m : Nat}
    {rest : List (List UInt8)} (more : rest ≠ []) :
    readFields groups gap seen ((List.range' k m).map (groupText p) ++ rest) =
      readFields (groups ++ (List.range' k m).map (group p)) gap (seen || decide (m ≠ 0)) rest := by
  induction m generalizing groups seen k with
  | zero => simp
  | succ m ih =>
    have behind : (List.range' (k + 1) m).map (groupText p) ++ rest ≠ [] := fun empty =>
      more (List.append_eq_nil_iff.mp empty).2
    rw [List.range'_succ, List.map_cons, List.cons_append, readFields_cons behind,
      if_neg (groupText_spells p k).some_, groupText_hexField, Option.bind_some, ih]
    simp

def groups (p : Nat → UInt8) : List Nat := (List.range' 0 8).map (group p)

theorem zeroRun_groups {k m : Nat} (run : ZeroRun p k m) :
    (List.range' k m).map (group p) = List.replicate m 0 := by
  rw [List.eq_replicate_iff, List.length_map, List.length_range']
  refine ⟨rfl, ?_⟩
  intro value member
  obtain ⟨j, inside, same⟩ := List.mem_map.mp member
  rw [List.mem_range'_1] at inside
  rw [← same]
  exact run j inside.1 inside.2

theorem groups_split {k m : Nat} (inside : k + m ≤ 8) (run : ZeroRun p k m) :
    groups p = (List.range' 0 k).map (group p) ++ List.replicate m 0 ++
      (List.range' (k + m) (8 - (k + m))).map (group p) := by
  have whole : 8 = k + m + (8 - (k + m)) := by omega
  calc
    groups p = (List.range' 0 (k + m + (8 - (k + m)))).map (group p) := by rw [← whole]; rfl
    _ = (List.range' 0 k ++ List.range' k m ++ List.range' (k + m) (8 - (k + m))).map (group p) := by
      rw [← List.range'_append_1, ← List.range'_append_1, Nat.zero_add, Nat.zero_add]
    _ = _ := by rw [List.map_append, List.map_append, zeroRun_groups run]

theorem readFields_last {groups : List Nat} {gap : Option Nat} {seen : Bool} (k : Nat) :
    readFields groups gap seen [groupText p k] = some ⟨groups ++ [group p k], gap⟩ := by
  rw [readFields, if_neg (groupText_spells p k).some_, groupText_hexField]

theorem readFields_tail {groups : List Nat} {gap : Option Nat} {seen : Bool} {k : Nat}
    (more : k < 8) :
    readFields groups gap seen (fields (chr ':') (tailText p k)) =
      some ⟨groups ++ (List.range' k (8 - k)).map (group p), gap⟩ := by
  have length : 8 - k = 7 - k + 1 := by omega
  have last : k + (7 - k) = 7 := by omega
  rw [tailText, if_pos more, fields_groups, fields_plain (groupText_plain p 7),
    readFields_groups (List.cons_ne_nil _ _), readFields_last, length, List.range'_1_concat, last,
    List.map_append, List.append_assoc]
  rfl

theorem readFields_ended {groups : List Nat} {g : Nat} {seen : Bool} :
    readFields groups (some g) seen (fields (chr ':') (tailText p 8)) =
      some ⟨groups ++ [0], some g⟩ := rfl

theorem readFields_quad {groups : List Nat} {gap : Option Nat} (a b c d : UInt8) :
    readFields groups gap true [quadText a b c d] =
      if AllOnes a b c d then none
      else some ⟨groups ++ [a.toNat * 256 + b.toNat, c.toNat * 256 + d.toNat], gap⟩ := by
  have some_ : quadText a b c d ≠ [] := by simp [quadText]
  rw [readFields, if_neg some_, quad_no_hex, dottedField_quad]
  by_cases ones : AllOnes a b c d
  · rw [if_pos ones, if_pos ones]
    rfl
  · rw [if_neg ones, if_neg ones]
    rfl

theorem peek_groupText (p : Nat → UInt8) (k : Nat) (rest : List UInt8) :
    peek (groupText p k ++ rest) ≠ chr ':' := by
  obtain ⟨first, text, same⟩ := List.exists_cons_of_ne_nil (groupText_spells p k).some_
  have plain := groupText_plain p k
  rw [same] at plain ⊢
  intro colon
  exact plain (List.mem_cons.mpr (Or.inl colon.symm))

theorem dropColon_tail (p : Nat → UInt8) : dropColon (tailText p 0) = tailText p 0 := by
  have text : tailText p 0 = groupText p 0 ++ chr ':' ::
      (closed ((List.range' 1 6).map (groupText p)) ++ groupText p 7) := by
    rw [tailText, if_pos (by decide)]
    have seven : List.range' 0 (7 - 0) = 0 :: List.range' 1 6 := rfl
    rw [seven, List.map_cons, closed_cons, List.append_assoc]
    rfl
  rw [dropColon, text]
  exact if_neg (peek_groupText p 0 _)

theorem dropColon_gap (p : Nat → UInt8) (j : Nat) (rest : List UInt8) :
    dropColon ((if some (2 * j) = some 0 then [chr ':'] else []) ++
        closed ((List.range' 0 j).map (groupText p)) ++ chr ':' :: rest) =
      closed ((List.range' 0 j).map (groupText p)) ++ chr ':' :: rest := by
  cases j with
  | zero => rfl
  | succ j =>
    have other : ¬ some (2 * (j + 1)) = some 0 := by simp
    rw [if_neg other, List.nil_append, List.range'_succ, List.map_cons, closed_cons,
      List.append_assoc, dropColon]
    exact if_neg (peek_groupText p 0 _)

theorem looseInet6_eq {text : List UInt8} (some_ : text ≠ []) :
    looseInet6 text =
      (readFields [] none false (fields (chr ':') (dropColon text))).bind Shape.words :=
  if_neg some_

theorem read_gap {j m : Nat} (two : 2 ≤ m) (inside : j + m ≤ 8) (run : ZeroRun p j m) :
    looseInet6 ((if some (2 * j) = some 0 then [chr ':'] else []) ++
        closed ((List.range' 0 j).map (groupText p)) ++ chr ':' :: tailText p (j + m)) =
      some (groups p) := by
  have length : ((List.range' 0 j).map (group p)).length = j := by
    rw [List.length_map, List.length_range']
  rw [looseInet6_eq (by simp), dropColon_gap, fields_groups, fields_cons_sep,
    readFields_groups (List.cons_ne_nil _ _), readFields_cons fields_ne_nil, if_pos rfl,
    if_pos rfl, List.nil_append, length, groups_split inside run]
  by_cases more : j + m < 8
  · have count : j + (8 - (j + m)) < 8 := by omega
    have zeros : 8 - (j + (8 - (j + m))) = m := by omega
    rw [readFields_tail more, Option.bind_some, Shape.words]
    simp only [List.length_append, length, List.length_map, List.length_range', if_pos count, zeros]
    rw [List.take_left' length, List.drop_left' length]
  · have ended : j + m = 8 := by omega
    have count : j + 1 < 8 := by omega
    have zeros : m = 8 - (j + 1) + 1 := by omega
    rw [ended, readFields_ended, Option.bind_some, Shape.words]
    simp only [List.length_append, length, List.length_singleton, if_pos count]
    rw [List.take_left' length, List.drop_left' length, List.append_assoc, ← List.replicate_succ',
      ← zeros]
    simp

def tailQuad (p : Nat → UInt8) : List UInt8 := quadText (p 12) (p 13) (p 14) (p 15)

theorem words_front {m : Nat} (two : 2 ≤ m) (inside : m ≤ 8) (run : ZeroRun p 0 m) :
    Shape.words ⟨(List.range' m (8 - m)).map (group p), some 0⟩ = some (groups p) := by
  have count : 8 - m < 8 := by omega
  have zeros : 8 - (8 - m) = m := by omega
  have split := groups_split (by rwa [Nat.zero_add]) run
  rw [Nat.zero_add] at split
  rw [split, Shape.words]
  simp only [List.length_map, List.length_range', if_pos count, zeros]
  rfl

theorem read_dotted (run : ZeroRun p 0 6) :
    looseInet6 (chr ':' :: chr ':' :: tailQuad p) =
      if AllOnes (p 12) (p 13) (p 14) (p 15) then none else some (groups p) := by
  have dropped : dropColon (chr ':' :: chr ':' :: tailQuad p) = chr ':' :: tailQuad p := rfl
  have words := words_front (by decide) (by decide) run
  rw [looseInet6_eq (List.cons_ne_nil _ _), dropped, fields_cons_sep,
    readFields_cons fields_ne_nil, if_pos rfl, if_pos rfl, tailQuad,
    fields_plain (quad_plain _ _ _ _), readFields_quad]
  split
  · rfl
  · exact words

theorem read_mapped (run : ZeroRun p 0 5) :
    looseInet6 (chr ':' :: chr ':' :: (groupText p 5 ++ chr ':' :: tailQuad p)) =
      if AllOnes (p 12) (p 13) (p 14) (p 15) then none else some (groups p) := by
  have dropped : dropColon (chr ':' :: chr ':' :: (groupText p 5 ++ chr ':' :: tailQuad p)) =
    chr ':' :: (groupText p 5 ++ chr ':' :: tailQuad p) := rfl
  have words := words_front (by decide) (by decide) run
  rw [looseInet6_eq (List.cons_ne_nil _ _), dropped, fields_cons_sep,
    readFields_cons fields_ne_nil, if_pos rfl, if_pos rfl, fields_append (groupText_plain p 5),
    readFields_cons fields_ne_nil, if_neg (groupText_spells p 5).some_, groupText_hexField,
    Option.bind_some, tailQuad, fields_plain (quad_plain _ _ _ _), readFields_quad]
  split
  · rfl
  · exact words

/-! ### The whole text -/

/-- The address is `::255.255.255.255` or `::ffff:255.255.255.255`. -/
def EndsInOnes (p : Nat → UInt8) : Prop :=
  (∀ i < 10, p i = 0) ∧ (p 10 = 0 ∧ p 11 = 0 ∨ p 10 = 0xff ∧ p 11 = 0xff) ∧
    AllOnes (p 12) (p 13) (p 14) (p 15)

theorem zeroRun_bytes {m : Nat} (run : ZeroRun p 0 m) {i : Nat} (inside : i < 2 * m) :
    p i = 0 := by
  have zero := run (i / 2) (Nat.zero_le _) (by omega)
  have low : (0 : UInt8).toNat = 0 := rfl
  rw [group] at zero
  apply UInt8.toNat.inj
  rcases Nat.mod_two_eq_zero_or_one i with even | odd
  · have index : 2 * (i / 2) = i := by omega
    rw [index] at zero
    omega
  · have index : 2 * (i / 2) + 1 = i := by omega
    rw [index] at zero
    omega

theorem endsInOnes_dotted (ones : EndsInOnes p) :
    dottedTail p (zeroLoop p 0 ⟨none, none, 1, 0⟩).longest = true := by
  obtain ⟨front, middle, a, b, c, d⟩ := ones
  have zeros (i : Nat) (inside : i < 10) : p i = 0 := front i inside
  rcases middle with ⟨high, low⟩ | ⟨high, low⟩
  · simp [dottedTail, zeroLoop, ZeroRuns.longest, zeros, high, low, a, b, c, d]
  · simp [dottedTail, zeroLoop, ZeroRuns.longest, zeros, high, low, a, b, c, d]

theorem dotted_text {max : Nat} (dst : List UInt8)
    (shape : max = 5 ∧ p 10 = 0xff ∧ p 11 = 0xff ∨ max = 6 ∨ max = 7 ∧ p 14 ≠ 0 ∧ p 15 ≠ 1) :
    groupLoop p (some (2 * 0)) max 12 (2 * 0) dst =
      dst ++ chr ':' :: (if max = 5 then groupText p 5 ++ [chr ':'] else []) := by
  have two : 2 ≤ max := by omega
  rw [groupLoop_gap dst two (by decide), Nat.zero_add]
  by_cases five : max = 5
  · rw [five, groupLoop_group _ (by decide) (by decide) (by simp), groupLoop_end _ (by decide),
      if_pos rfl, List.append_assoc]
    rfl
  · rw [if_neg five, groupLoop_end _ (by omega)]

/-- What the second loop writes without a gap. -/
theorem plain_text (max : Nat) : groupLoop p none max 16 (2 * 0) [] = tailText p 0 := by
  rw [groupLoop_tail [] fun j _ => Ne.symm (Option.some_ne_none _), List.nil_append]

theorem gap_text {j max : Nat} (dst : List UInt8) (two : 2 ≤ max) (inside : j + max ≤ 8) :
    groupLoop p (some (2 * j)) max 16 (2 * 0) dst =
      dst ++ closed ((List.range' 0 j).map (groupText p)) ++ chr ':' :: tailText p (j + max) := by
  have before (i : Nat) (_ : 0 ≤ i) (less : i < 0 + j) : some (2 * j) ≠ some (2 * i) := by
    intro same
    have index := Option.some.inj same
    omega
  have behind (i : Nat) (more : j + max ≤ i) : some (2 * j) ≠ some (2 * i) := by
    intro same
    have index := Option.some.inj same
    omega
  rw [groupLoop_groups dst (by omega) (by omega) before, Nat.zero_add,
    groupLoop_gap _ two (by omega), groupLoop_tail _ behind, List.append_assoc _ [chr ':']]
  rfl

/-- A dotted tail of ones stands in one of the two addresses. -/
theorem dotted_ones {max : Nat} (run : ZeroRun p 0 max)
    (shape : max = 5 ∧ p 10 = 0xff ∧ p 11 = 0xff ∨ max = 6 ∨ max = 7 ∧ p 14 ≠ 0 ∧ p 15 ≠ 1)
    (ones : AllOnes (p 12) (p 13) (p 14) (p 15)) : EndsInOnes p := by
  have zeros (i : Nat) (inside : i < 10) : p i = 0 := zeroRun_bytes run (by omega)
  refine ⟨zeros, ?_, ones⟩
  rcases shape with ⟨_, mapped⟩ | more
  · exact Or.inr mapped
  · exact Or.inl ⟨zeroRun_bytes run (by omega), zeroRun_bytes run (by omega)⟩

theorem dotted_read {max : Nat} (run : ZeroRun p 0 max)
    (shape : max = 5 ∧ p 10 = 0xff ∧ p 11 = 0xff ∨ max = 6 ∨ max = 7 ∧ p 14 ≠ 0 ∧ p 15 ≠ 1) :
    looseInet6 ([chr ':'] ++ chr ':' :: (if max = 5 then groupText p 5 ++ [chr ':'] else []) ++
        tailQuad p) =
      if AllOnes (p 12) (p 13) (p 14) (p 15) then none else some (groups p) := by
  by_cases five : max = 5
  · have text := read_mapped (p := p) (five ▸ run)
    rw [if_pos five, ← text]
    simp
  · have six : ZeroRun p 0 6 := fun j low high => run j low (by omega)
    rw [if_neg five, ← read_dotted six]
    rfl

theorem looseInet6_ntop (p : Nat → UInt8) {len : Nat} (room : NGX_INET6_ADDRSTRLEN ≤ len) :
    EndsInOnes p ∧ looseInet6 (ngxInet6Ntop p len) = none ∨
      ¬ EndsInOnes p ∧ looseInet6 (ngxInet6Ntop p len) = some (groups p) := by
  have found := longest_found p
  have dottedOnes := endsInOnes_dotted (p := p)
  rw [ngxInet6Ntop, if_neg (Nat.not_lt.mpr room)]
  generalize (zeroLoop p 0 ⟨none, none, 1, 0⟩).longest = st at found dottedOnes
  simp only
  by_cases dotted : dottedTail p st = true
  · obtain ⟨zero, shape⟩ := of_decide_eq_true dotted
    obtain ⟨j, same, _, _, run⟩ := found 0 zero
    have front : j = 0 := by omega
    subst front
    have text := dotted_text [chr ':'] shape
    rw [if_pos dotted, zero, if_pos rfl, if_pos rfl, sprintf_quad, same, text, ← tailQuad,
      dotted_read run shape]
    by_cases ones : AllOnes (p 12) (p 13) (p 14) (p 15)
    · exact Or.inl ⟨dotted_ones run shape ones, if_pos ones⟩
    · exact Or.inr ⟨fun ends => ones ends.2.2, if_neg ones⟩
  · have plain : ¬ EndsInOnes p := fun ones => dotted (dottedOnes ones)
    have hex : ¬ 16 = 12 := by decide
    refine Or.inr ⟨plain, ?_⟩
    rw [if_neg dotted, if_neg hex]
    cases zero : st.zero with
    | none =>
      have text := plain_text (p := p) st.max
      rw [Nat.mul_zero] at text
      rw [if_neg (Ne.symm (Option.some_ne_none 0)), text]
      have some_ : tailText p 0 ≠ [] := by simp [tailText, (groupText_spells p 7).some_]
      have eight : ([] ++ (List.range' 0 (8 - 0)).map (group p)) = groups p := rfl
      rw [looseInet6_eq some_, dropColon_tail, readFields_tail (by decide), eight,
        Option.bind_some, Shape.words]
      exact if_pos (by rw [groups, List.length_map, List.length_range'])
    | some z =>
      obtain ⟨j, same, two, inside, run⟩ := found z zero
      have text := gap_text (p := p) (if some (2 * j) = some 0 then [chr ':'] else []) two inside
      rw [Nat.mul_zero] at text
      rw [same, text]
      exact read_gap two inside run

theorem store_groups (mem : Nat → UInt8) {i : Nat} (inside : i < 16) :
    store mem 0 (groupBytes (groups p)) i = p i := by
  have high (k : Nat) : UInt8.ofNat (group p k / 256) = p (2 * k) := by
    apply UInt8.toNat.inj
    have first := (p (2 * k)).toNat_lt
    have second := (p (2 * k + 1)).toNat_lt
    rw [UInt8.toNat_ofNat', group]
    omega
  have low (k : Nat) : UInt8.ofNat (group p k) = p (2 * k + 1) := by
    apply UInt8.toNat.inj
    have second := (p (2 * k + 1)).toNat_lt
    rw [UInt8.toNat_ofNat', group]
    omega
  have bytes : groupBytes (groups p) = (List.range 16).map p := by
    have eight : groups p = [0, 1, 2, 3, 4, 5, 6, 7].map (group p) := rfl
    rw [eight, groupBytes]
    simp only [List.map_cons, List.map_nil, List.flatMap_cons, List.flatMap_nil, high, low]
    rfl
  rw [bytes, store, if_neg (Nat.not_lt_zero i), Nat.sub_zero, List.getElem?_map,
    List.getElem?_range inside]
  rfl

theorem ntop_accepted {len : Nat} (mem : Nat → UInt8) (room : NGX_INET6_ADDRSTRLEN ≤ len)
    (others : ¬ EndsInOnes p) : (ngxInet6Addr mem (ngxInet6Ntop p len)).1 = true := by
  rcases looseInet6_ntop p room with ⟨ones, _⟩ | ⟨_, read⟩
  · exact absurd ones others
  · rw [(ngxInet6Addr_result mem _).accepted _ read]

theorem ntop_refused {len : Nat} (mem : Nat → UInt8) (room : NGX_INET6_ADDRSTRLEN ≤ len)
    (ones : EndsInOnes p) : (ngxInet6Addr mem (ngxInet6Ntop p len)).1 = false := by
  rcases looseInet6_ntop p room with ⟨_, refused⟩ | ⟨others, _⟩
  · exact (ngxInet6Addr_result mem _).refused refused
  · exact absurd ones others

theorem ntop_short {len : Nat} (mem : Nat → UInt8) (short : ¬ NGX_INET6_ADDRSTRLEN ≤ len) :
    (ngxInet6Addr mem (ngxInet6Ntop p len)).1 = false := by
  rw [ngxInet6Ntop, if_pos (Nat.not_le.mp short)]
  rfl

/-- `ngx_inet6_addr` reads an address back as `ngx_inet6_ntop` printed it, writes sixteen bytes
that depend on the text only where it accepts, and none behind them in any case. -/
theorem inet6_round_trip :
    (∀ (p mem : Nat → UInt8) (len : Nat), (ngxInet6Addr mem (ngxInet6Ntop p len)).1 = true →
      ∀ i < 16, (ngxInet6Addr mem (ngxInet6Ntop p len)).2 i = p i) ∧
    (∀ (mem : Nat → UInt8) (text : List UInt8), (ngxInet6Addr mem text).1 = true →
      ∃ bytes : List UInt8, bytes.length = 16 ∧
        ∀ mem, ngxInet6Addr mem text = (true, store mem 0 bytes)) ∧
    ∀ (mem : Nat → UInt8) (text : List UInt8) (i : Nat), 16 ≤ i →
      (ngxInet6Addr mem text).2 i = mem i := by
  refine ⟨?_, ?_, fun mem text => (ngxInet6Addr_result mem text).behind⟩
  · intro p mem len accepted i inside
    have result := ngxInet6Addr_result mem (ngxInet6Ntop p len)
    by_cases room : NGX_INET6_ADDRSTRLEN ≤ len
    · rcases looseInet6_ntop p room with ⟨_, refused⟩ | ⟨_, read⟩
      · rw [result.refused refused] at accepted
        exact absurd accepted Bool.false_ne_true
      · rw [result.accepted _ read]
        exact store_groups mem inside
    · rw [ntop_short mem room] at accepted
      exact absurd accepted Bool.false_ne_true
  · intro mem text accepted
    cases read : looseInet6 text with
    | none =>
      rw [(ngxInet6Addr_result mem text).refused read] at accepted
      exact absurd accepted Bool.false_ne_true
    | some words =>
      refine ⟨groupBytes words, ?_, fun mem => (ngxInet6Addr_result mem text).accepted _ read⟩
      rw [groupBytes_length, looseInet6_length read]

/-- The text of `::1` is read back over other bytes. -/
theorem inet6_round_trip_loopback :
    (ngxInet6Addr (fun _ => 7) (ngxInet6Ntop (fun i => if i = 15 then 1 else 0) 45)).2 15 = 1 := by
  have others : ¬ EndsInOnes fun i => if i = 15 then 1 else 0 := fun ones =>
    absurd ones.2.2.1 (by decide)
  have accepted := ntop_accepted (fun _ => 7) (Nat.le_refl 45) others
  exact inet6_round_trip.1 _ _ 45 accepted 15 (by decide)

/-- The texts of addresses are accepted but for `::255.255.255.255` and `::ffff:255.255.255.255`:
`ngx_inet_addr` answers them with the value of an error. -/
theorem inet6_accepts_iff (p mem : Nat → UInt8) (len : Nat) :
    (ngxInet6Addr mem (ngxInet6Ntop p len)).1 = true ↔
      NGX_INET6_ADDRSTRLEN ≤ len ∧ ¬ EndsInOnes p := by
  constructor
  · intro accepted
    have room : NGX_INET6_ADDRSTRLEN ≤ len := by
      by_contra short
      rw [ntop_short mem short] at accepted
      exact absurd accepted Bool.false_ne_true
    refine ⟨room, fun ones => ?_⟩
    rw [ntop_refused mem room ones] at accepted
    exact absurd accepted Bool.false_ne_true
  · intro both
    exact ntop_accepted mem both.1 both.2

/-- The text of `::255.255.255.255` is refused. -/
theorem broadcast_refused :
    (ngxInet6Addr (fun _ => 0)
      (ngxInet6Ntop (fun i => if i < 12 then 0 else 255) NGX_INET6_ADDRSTRLEN)).1 = false := by
  apply ntop_refused _ (Nat.le_refl _)
  refine ⟨fun i inside => if_pos (by omega), Or.inl ⟨rfl, rfl⟩, rfl, rfl, rfl, rfl⟩

end NgxFormal.Core.Inet
