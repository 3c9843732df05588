import NgxFormal.Core.InetAddr
import NgxFormal.Lib.Window

/-! `ngx_inet6_addr` on the memory from `addr` on. -/

namespace NgxFormal.Core.Inet

open NgxFormal.Core.Atoi (hexDigit decimalDigit)
open NgxFormal.Lib.Window NgxFormal.Lib.Digits NgxFormal.Lib.Fields

/-- The locals; the positions `addr` and `zero` count from the start of the buffer, and `digit` is
what is left of the text from that pointer on. -/
structure Inet6 where
  mem : Nat → UInt8
  addr : Nat
  zero : Option Nat
  digit : Option (List UInt8)
  nibbles : Nat
  word : UInt64
  n : Nat

/-- `*addr++ = (u_char) byte` -/
def Inet6.put (st : Inet6) (byte : UInt64) : Inet6 :=
  { st with mem := store st.mem st.addr [byte.toUInt8], addr := st.addr + 1 }

/-- `for (; len; len--)`; the flag is false behind `return NGX_ERROR`. -/
def inet6Loop (st : Inet6) : List UInt8 → Bool × Inet6
  | [] => (true, st)
  | c :: p =>
    if c = chr ':' then
      if st.nibbles ≠ 0 then
        let st := { st with digit := some p }
        let st := (st.put (st.word >>> 8)).put (st.word &&& 0xff)
        let st := { st with n := st.n - 1 }
        if st.n ≠ 0 then inet6Loop { st with nibbles := 0, word := 0 } p else (false, st)
      else if st.zero = none then
        inet6Loop { st with digit := some p, zero := some st.addr } p
      else (false, st)
    else if c = chr '.' ∧ st.nibbles ≠ 0 then
      if st.n < 2 then (false, st)
      else
        match st.digit with
        | none => (false, st)
        | some digit =>
          let word := ngxInetAddr digit
          if word = INADDR_NONE then (false, st)
          else
            let st := { st with word := word.toUInt64 }
            let st := (st.put (st.word >>> 24 &&& 0xff)).put (st.word >>> 16 &&& 0xff)
            (true, { st with n := st.n - 1 })
    else
      let st := { st with nibbles := st.nibbles + 1 }
      if st.nibbles > 4 then (false, st)
      else if isDigit c then
        inet6Loop { st with word := st.word * 16 + UInt64.ofNat (digitValue c) } p
      else
        let c := c ||| 0x20
        if chr 'a' ≤ c ∧ c ≤ chr 'f' then
          inet6Loop { st with word := st.word * 16 + UInt64.ofNat (c.toNat - 97) + 10 } p
        else (false, st)

/-- `while (s >= zero) *d-- = *s--`, for `length` bytes from `zero` on. -/
def moveTail (mem : Nat → UInt8) (start n : Nat) : Nat → Nat → UInt8
  | 0 => mem
  | length + 1 => moveTail (store mem (start + length + n) [mem (start + length)]) start n length

def inet6Finish (st : Inet6) : Bool × (Nat → UInt8) :=
  if st.nibbles = 0 ∧ st.zero = none then (false, st.mem)
  else
    let st := (st.put (st.word >>> 8)).put (st.word &&& 0xff)
    let n := st.n - 1
    if n ≠ 0 then
      match st.zero with
      | some start =>
        let n := n * 2
        let mem := moveTail st.mem start n (st.addr - start)
        (true, store mem start (List.replicate n 0))
      | none => (false, st.mem)
    else (decide (st.zero = none), st.mem)

/-- Either `return NGX_ERROR` in the loop, or what follows it. -/
def inet6End : Bool × Inet6 → Bool × (Nat → UInt8)
  | (true, st) => inet6Finish st
  | (false, st) => (false, st.mem)

/-- Whether `NGX_OK` is returned, and the memory from `addr` on. -/
def ngxInet6Addr (mem : Nat → UInt8) (p : List UInt8) : Bool × (Nat → UInt8) :=
  if p.length = 0 then (false, mem)
  else
    let p := if peek p = chr ':' then p.tail else p
    inet6End (inet6Loop ⟨mem, 0, none, none, 0, 0, 8⟩ p)

/-! ### The move of the tail -/

theorem moveTail_eq (mem : Nat → UInt8) (start n length i : Nat) :
    moveTail mem start n length i =
      if start + n ≤ i ∧ i < start + n + length then mem (i - n) else mem i := by
  induction length generalizing mem with
  | zero =>
    rw [moveTail, if_neg (by omega)]
  | succ length ih =>
    rw [moveTail, ih]
    by_cases last : i = start + length + n
    · rw [if_neg (by omega), if_pos (by omega), last, store, if_neg (by omega), Nat.sub_self,
        Nat.add_sub_cancel]
      rfl
    · have outside : store mem (start + length + n) [mem (start + length)] i = mem i := by
        apply store_outside
        rw [List.length_singleton]
        omega
      by_cases inside : start + n ≤ i ∧ i < start + n + length
      · have behind : store mem (start + length + n) [mem (start + length)] (i - n) =
            mem (i - n) := by
          apply store_outside
          rw [List.length_singleton]
          omega
        rw [if_pos inside, if_pos (by omega), behind]
      · rw [if_neg inside, if_neg (by omega), outside]

theorem gap_opened (mem : Nat → UInt8) (front tail : List UInt8) (n : Nat) :
    store (moveTail (store mem 0 (front ++ tail)) front.length n tail.length) front.length
        (List.replicate n 0) =
      store mem 0 (front ++ (List.replicate n 0 ++ tail)) := by
  funext i
  by_cases inFront : i < front.length
  · rw [store_outside (Or.inl inFront), moveTail_eq, if_neg (by omega), store, store,
      if_neg (Nat.not_lt_zero i), if_neg (Nat.not_lt_zero i), Nat.sub_zero,
      List.getElem?_append_left inFront, List.getElem?_append_left inFront]
  have behindFront : front.length ≤ i := Nat.not_lt.mp inFront
  by_cases inGap : i < front.length + n
  · have index : i - front.length < (List.replicate n (0 : UInt8)).length := by
      rw [List.length_replicate]
      omega
    rw [store, if_neg inFront, store, if_neg (Nat.not_lt_zero i), Nat.sub_zero,
      List.getElem?_append_right behindFront, List.getElem?_append_left index,
      List.getElem?_eq_getElem index]
    rfl
  have behindGap : front.length + n ≤ i := Nat.not_lt.mp inGap
  have outside : front.length + (List.replicate n (0 : UInt8)).length ≤ i := by
    rwa [List.length_replicate]
  have index : (List.replicate n (0 : UInt8)).length ≤ i - front.length := by
    rw [List.length_replicate]
    omega
  rw [store_outside (Or.inr outside), moveTail_eq, store, store, store,
    if_neg (Nat.not_lt_zero _), if_neg (Nat.not_lt_zero i), if_neg (Nat.not_lt_zero i),
    Nat.sub_zero, Nat.sub_zero]
  have right : (front ++ (List.replicate n 0 ++ tail))[i]? = tail[i - (front.length + n)]? := by
    rw [List.getElem?_append_right behindFront, List.getElem?_append_right index,
      List.length_replicate, Nat.sub_sub]
  rw [right]
  by_cases inTail : i < front.length + n + tail.length
  · have left : (front ++ tail)[i - n]? = tail[i - (front.length + n)]? := by
      have offset : i - n - front.length = i - (front.length + n) := by omega
      rw [List.getElem?_append_right (by omega), offset]
    have inside : i - (front.length + n) < tail.length := by omega
    rw [if_pos ⟨behindGap, inTail⟩, left, List.getElem?_eq_getElem inside]
    rfl
  · have ended : (front ++ tail)[i]? = none := by
      apply List.getElem?_eq_none
      rw [List.length_append]
      omega
    rw [if_neg (by omega), ended, List.getElem?_eq_none (by omega)]

/-! ### The text as fields -/

/-- The value of a group: one to four hexadecimal digits. -/
def hexField (field : List UInt8) : Option Nat :=
  if field ≠ [] ∧ field.length ≤ 4 then value 16 hexDigit field else none

/-- The two groups that a dotted field spells; the digits in front of the first dot pass for a
group too. -/
def dottedField (field : List UInt8) : Option (List Nat) :=
  if hexField (field.takeWhile (· ≠ chr '.')) = none then none
  else
    (looseOctets field).bind fun octets =>
      if address octets = INADDR_NONE then none
      else some [(address octets).toNat / 65536, (address octets).toNat % 65536]

/-- The groups, and how many of them stand in front of `::`. -/
structure Shape where
  groups : List Nat
  gap : Option Nat
  deriving DecidableEq, Repr

/-- The groups that the code takes from fields; `seen` if there was a colon before. An empty last
field passes for a group of zeros behind a gap. -/
def readFields (groups : List Nat) (gap : Option Nat) (seen : Bool) :
    List (List UInt8) → Option Shape
  | [] => none
  | [last] =>
    if last = [] then if gap = none then none else some ⟨groups ++ [0], gap⟩
    else
      match hexField last with
      | some word => some ⟨groups ++ [word], gap⟩
      | none =>
        if seen then (dottedField last).map fun words => ⟨groups ++ words, gap⟩ else none
  | field :: rest =>
    if field = [] then
      if gap = none then readFields groups (some groups.length) true rest else none
    else
      match hexField field with
      | some word => readFields (groups ++ [word]) gap true rest
      | none => none

/-- The eight groups of an address: a gap stands for one zero group at least. -/
def Shape.words (shape : Shape) : Option (List Nat) :=
  match shape.gap with
  | none => if shape.groups.length = 8 then some shape.groups else none
  | some gap =>
    if shape.groups.length < 8 then
      some (shape.groups.take gap ++ List.replicate (8 - shape.groups.length) 0 ++
        shape.groups.drop gap)
    else none

/-- The text without the colon that the code drops at its start. -/
def dropColon (text : List UInt8) : List UInt8 :=
  if peek text = chr ':' then text.tail else text

/-- The groups that the code reads in a text. -/
def looseInet6 (text : List UInt8) : Option (List Nat) :=
  if text = [] then none
  else (readFields [] none false (fields (chr ':') (dropColon text))).bind Shape.words

/-- The bytes of groups in the order of the network. -/
def groupBytes (words : List Nat) : List UInt8 :=
  words.flatMap fun word => [UInt8.ofNat (word / 256), UInt8.ofNat word]

@[simp] theorem groupBytes_length (words : List Nat) :
    (groupBytes words).length = 2 * words.length := by
  induction words with
  | nil => rfl
  | cons word words ih =>
    rw [groupBytes, List.flatMap_cons, List.length_append, List.length_cons]
    rw [groupBytes] at ih
    rw [ih]
    simp only [List.length_cons, List.length_nil]
    omega

theorem groupBytes_append (first rest : List Nat) :
    groupBytes (first ++ rest) = groupBytes first ++ groupBytes rest := List.flatMap_append

theorem groupBytes_zeros (n : Nat) :
    groupBytes (List.replicate n 0) = List.replicate (n * 2) 0 := by
  induction n with
  | zero => rfl
  | succ n ih =>
    rw [List.replicate_succ, groupBytes, List.flatMap_cons, ← groupBytes, ih, Nat.succ_mul]
    rfl

/-! ### What is written -/

theorem high_byte (word : UInt64) : (word >>> 8).toUInt8 = UInt8.ofNat (word.toNat / 256) := by
  apply UInt8.toNat.inj
  rw [UInt64.toNat_toUInt8, UInt64.toNat_shiftRight, UInt8.toNat_ofNat']
  simp [Nat.shiftRight_eq_div_pow]

theorem low_byte (word : UInt64) : (word &&& 0xff).toUInt8 = UInt8.ofNat word.toNat := by
  apply UInt8.toNat.inj
  rw [UInt64.toNat_toUInt8, UInt64.toNat_and, UInt8.toNat_ofNat']
  have mask : (0xff : UInt64).toNat = 2 ^ 8 - 1 := rfl
  rw [mask, Nat.and_two_pow_sub_one_eq_mod]
  omega

/-- The memory holds groups up to `addr`. -/
structure Holds (mem : Nat → UInt8) (st : Inet6) (groups : List Nat) (gap : Option Nat) : Prop where
  mem : st.mem = store mem 0 (groupBytes groups)
  addr : st.addr = 2 * groups.length
  zero : st.zero = gap.map (2 * ·)
  gap : ∀ g ∈ gap, g ≤ groups.length
  n : st.n = 8 - groups.length

theorem store_group (mem : Nat → UInt8) (groups : List Nat) (word : Nat) :
    store (store mem 0 (groupBytes groups)) (2 * groups.length)
        [UInt8.ofNat (word / 256), UInt8.ofNat word] =
      store mem 0 (groupBytes (groups ++ [word])) := by
  have start : 2 * groups.length = 0 + (groupBytes groups).length := by
    rw [groupBytes_length, Nat.zero_add]
  rw [start, store_append, groupBytes_append]
  rfl

theorem put_put {mem : Nat → UInt8} (st : Inet6) {groups : List Nat} {gap : Option Nat}
    (holds : Holds mem st groups gap) {high low : UInt64} {word : Nat}
    (highByte : high.toUInt8 = UInt8.ofNat (word / 256)) (lowByte : low.toUInt8 = UInt8.ofNat word) :
    (st.put high).put low = { st with
      mem := store mem 0 (groupBytes (groups ++ [word])), addr := 2 * (groups ++ [word]).length } := by
  have joined : store (store (store mem 0 (groupBytes groups)) (2 * groups.length)
      [high.toUInt8]) (2 * groups.length + 1) [low.toUInt8] =
      store (store mem 0 (groupBytes groups)) (2 * groups.length) [high.toUInt8, low.toUInt8] :=
    store_append
  simp only [Inet6.put, holds.addr, holds.mem, List.length_append, List.length_singleton]
  rw [joined, highByte, lowByte, store_group]
  rfl

theorem store_behind {mem : Nat → UInt8} {words : List Nat} (short : words.length ≤ 8) :
    ∀ i, 16 ≤ i → store mem 0 (groupBytes words) i = mem i := by
  intro i behind
  apply store_outside
  rw [groupBytes_length]
  omega

/-- What a run comes to: the eight groups are written, or there are none, and no byte behind the
sixteen of an address changes. -/
structure Result (mem : Nat → UInt8) (words : Option (List Nat)) (r : Bool × (Nat → UInt8)) :
    Prop where
  accepted : ∀ ws, words = some ws → r = (true, store mem 0 (groupBytes ws))
  refused : words = none → r.1 = false
  behind : ∀ i, 16 ≤ i → r.2 i = mem i

theorem refused_result {mem mem' : Nat → UInt8} {groups : List Nat}
    (written : mem' = store mem 0 (groupBytes groups)) (short : groups.length ≤ 8) :
    Result mem none (false, mem') where
  accepted _ impossible := absurd impossible (by simp)
  refused _ := rfl
  behind i inside := by
    rw [written]
    exact store_behind short i inside

theorem words_length {shape : Shape} {ws : List Nat} (words : shape.words = some ws)
    (gap : ∀ g ∈ shape.gap, g ≤ shape.groups.length) : ws.length = 8 := by
  rw [Shape.words] at words
  cases known : shape.gap with
  | none =>
    rw [known] at words
    simp only at words
    split at words
    · rw [← Option.some.inj words]
      assumption
    · exact absurd words (by simp)
  | some g =>
    have inside := gap g known
    rw [known] at words
    simp only at words
    split at words
    · rw [← Option.some.inj words, List.length_append, List.length_append, List.length_take,
        List.length_replicate, List.length_drop]
      omega
    · exact absurd words (by simp)

theorem gap_opens (mem : Nat → UInt8) (groups : List Nat) (n : Nat) {g : Nat}
    (inside : g ≤ groups.length) :
    store (moveTail (store mem 0 (groupBytes groups)) (2 * g) (n * 2)
        (2 * groups.length - 2 * g)) (2 * g) (List.replicate (n * 2) 0) =
      store mem 0 (groupBytes (groups.take g ++ List.replicate n 0 ++ groups.drop g)) := by
  have front : (groupBytes (groups.take g)).length = 2 * g := by
    rw [groupBytes_length, List.length_take, Nat.min_eq_left inside]
  have tail : (groupBytes (groups.drop g)).length = 2 * groups.length - 2 * g := by
    rw [groupBytes_length, List.length_drop]
    omega
  have whole : groupBytes groups = groupBytes (groups.take g) ++ groupBytes (groups.drop g) := by
    rw [← groupBytes_append, List.take_append_drop]
  have opened := gap_opened mem (groupBytes (groups.take g)) (groupBytes (groups.drop g)) (n * 2)
  rw [front, tail, ← whole] at opened
  rw [opened, groupBytes_append, groupBytes_append, groupBytes_zeros, List.append_assoc]

theorem inet6Finish_result {mem : Nat → UInt8} {st : Inet6} {groups : List Nat}
    {gap : Option Nat} (holds : Holds mem st groups gap) (room : groups.length ≤ 7)
    (some_ : ¬ (st.nibbles = 0 ∧ st.zero = none)) {last : Nat}
    (highByte : (st.word >>> 8).toUInt8 = UInt8.ofNat (last / 256))
    (lowByte : (st.word &&& 0xff).toUInt8 = UInt8.ofNat last) :
    Result mem (Shape.words ⟨groups ++ [last], gap⟩) (inet6Finish st) := by
  have length : (groups ++ [last]).length = groups.length + 1 := by
    rw [List.length_append, List.length_singleton]
  rw [inet6Finish, if_neg some_, put_put st holds highByte lowByte]
  simp only [holds.n, holds.zero, Shape.words, length]
  cases known : gap with
  | none =>
    by_cases full : groups.length + 1 = 8
    · have noMore : ¬ 8 - groups.length - 1 ≠ 0 := by omega
      rw [if_pos full, if_neg noMore]
      refine ⟨?_, fun impossible => absurd impossible (by simp), ?_⟩
      · intro ws same
        rw [← Option.some.inj same]
        rfl
      · exact store_behind (by omega)
    · have more : 8 - groups.length - 1 ≠ 0 := by omega
      rw [if_neg full, if_pos more]
      exact refused_result rfl (by omega)
  | some g =>
    have inside := holds.gap g known
    by_cases free : groups.length + 1 < 8
    · have more : 8 - groups.length - 1 ≠ 0 := by omega
      simp only [Option.map_some]
      rw [if_pos free, if_pos more]
      have opened := gap_opens mem (groups ++ [last]) (8 - groups.length - 1)
        (by rw [length]; omega : g ≤ (groups ++ [last]).length)
      rw [length] at opened
      rw [opened]
      have ended : 8 - (groups.length + 1) = 8 - groups.length - 1 := by omega
      rw [ended]
      refine ⟨?_, fun impossible => absurd impossible (by simp), ?_⟩
      · intro ws same
        rw [← Option.some.inj same]
      · apply store_behind
        rw [List.length_append, List.length_append, List.length_take, List.length_replicate,
          List.length_drop, length]
        omega
    · have noMore : ¬ 8 - groups.length - 1 ≠ 0 := by omega
      simp only [Option.map_some]
      rw [if_neg free, if_neg noMore]
      exact refused_result rfl (by omega)

/-! ### The run over the fields -/

theorem readFields_cons {groups : List Nat} {gap : Option Nat} {seen : Bool} {field : List UInt8}
    {rest : List (List UInt8)} (more : rest ≠ []) :
    readFields groups gap seen (field :: rest) =
      if field = [] then
        if gap = none then readFields groups (some groups.length) true rest else none
      else
        (hexField field).bind fun word => readFields (groups ++ [word]) gap true rest := by
  cases rest with
  | nil => exact absurd rfl more
  | cons next rest =>
    rw [readFields]
    · split
      · rfl
      · cases hexField field <;> rfl
    · exact List.cons_ne_nil _ _

theorem readFields_bad {field : List UInt8} (text : field ≠ []) (noHex : hexField field = none)
    (noDots : dottedField field = none) (groups : List Nat) (gap : Option Nat) (seen : Bool)
    (rest : List (List UInt8)) : readFields groups gap seen (field :: rest) = none := by
  cases rest with
  | nil =>
    rw [readFields, if_neg text, noHex, noDots]
    cases seen <;> rfl
  | cons next rest =>
    rw [readFields_cons (List.cons_ne_nil _ _), if_neg text, noHex]
    rfl

theorem dottedField_length {field : List UInt8} {words : List Nat}
    (dotted : dottedField field = some words) : words.length = 2 := by
  rw [dottedField] at dotted
  split at dotted
  · exact absurd dotted (by simp)
  · obtain ⟨octets, _, result⟩ := Option.bind_eq_some_iff.mp dotted
    split at result
    · exact absurd result (by simp)
    · rw [← Option.some.inj result]
      rfl

theorem readFields_longer {groups : List Nat} {gap : Option Nat} {seen : Bool}
    {parts : List (List UInt8)} {shape : Shape}
    (read : readFields groups gap seen parts = some shape) :
    groups.length < shape.groups.length := by
  induction parts generalizing groups gap seen with
  | nil => exact absurd read (by simp [readFields])
  | cons field rest ih =>
    by_cases last : rest = []
    · subst last
      rw [readFields] at read
      split at read
      · split at read
        · exact absurd read (by simp)
        · rw [← Option.some.inj read]
          simp
      · cases word : hexField field with
        | some word' =>
          rw [word] at read
          rw [← Option.some.inj read]
          simp
        | none =>
          rw [word] at read
          simp only at read
          split at read
          · obtain ⟨words, dotted, same⟩ := Option.map_eq_some_iff.mp read
            rw [← same]
            have two := dottedField_length dotted
            simp only [List.length_append]
            omega
          · exact absurd read (by simp)
    · rw [readFields_cons last] at read
      split at read
      · split at read
        · exact ih read
        · exact absurd read (by simp)
      · obtain ⟨word, _, more⟩ := Option.bind_eq_some_iff.mp read
        have longer := ih more
        rw [List.length_append, List.length_singleton] at longer
        omega

theorem words_long {shape : Shape} (long : 8 < shape.groups.length) : shape.words = none := by
  have other : ¬ shape.groups.length = 8 := by omega
  have full : ¬ shape.groups.length < 8 := by omega
  rw [Shape.words]
  cases shape.gap with
  | none => exact if_neg other
  | some g => exact if_neg full

theorem readFields_full {groups : List Nat} (full : 8 ≤ groups.length) (gap : Option Nat)
    (seen : Bool) (parts : List (List UInt8)) :
    (readFields groups gap seen parts).bind Shape.words = none := by
  cases read : readFields groups gap seen parts with
  | none => rfl
  | some shape =>
    have longer := readFields_longer read
    exact words_long (by omega)

/-- The locals behind the digits `acc` of a field. -/
structure Follows (mem : Nat → UInt8) (st : Inet6) (groups : List Nat) (gap : Option Nat)
    (seen : Bool) (acc text : List UInt8) : Prop where
  holds : Holds mem st groups gap
  room : groups.length ≤ 7
  digit : st.digit = if seen then some (acc ++ text) else none
  nibbles : st.nibbles = acc.length
  short : acc.length ≤ 4
  word : value 16 hexDigit acc = some st.word.toNat

theorem Follows.hexField {mem : Nat → UInt8} {st : Inet6} {groups : List Nat} {gap : Option Nat}
    {seen : Bool} {acc text : List UInt8} (follows : Follows mem st groups gap seen acc text)
    (some_ : acc ≠ []) : hexField acc = some st.word.toNat := by
  rw [Inet.hexField, if_pos ⟨some_, follows.short⟩, follows.word]

theorem end_result {mem : Nat → UInt8} {st : Inet6} {groups : List Nat} {gap : Option Nat}
    {seen : Bool} {acc : List UInt8} (follows : Follows mem st groups gap seen acc []) :
    Result mem ((readFields groups gap seen [acc]).bind Shape.words) (inet6Finish st) := by
  rw [readFields]
  by_cases empty : acc = []
  · have nibbles : st.nibbles = 0 := by rw [follows.nibbles, empty]; rfl
    have word : st.word.toNat = 0 := by
      have digits := follows.word
      rw [empty] at digits
      exact (Option.some.inj digits).symm
    rw [if_pos empty]
    cases known : gap with
    | none =>
      have zero : st.zero = none := by rw [follows.holds.zero, known]; rfl
      rw [if_pos rfl, inet6Finish, if_pos ⟨nibbles, zero⟩]
      exact refused_result follows.holds.mem (by have := follows.room; omega)
    | some g =>
      have zero : st.zero ≠ none := by
        rw [follows.holds.zero, known]
        simp
      have finished := inet6Finish_result follows.holds follows.room
        (fun both => zero both.2) (high_byte st.word) (low_byte st.word)
      rw [word, known] at finished
      rw [if_neg (by simp)]
      exact finished
  · have nibbles : st.nibbles ≠ 0 := by
      rw [follows.nibbles]
      exact fun length => empty (List.length_eq_zero_iff.mp length)
    rw [if_neg empty, follows.hexField empty]
    exact inet6Finish_result follows.holds follows.room (fun both => nibbles both.1)
      (high_byte st.word) (low_byte st.word)

theorem Follows.refused {mem : Nat → UInt8} {st : Inet6} {groups : List Nat} {gap : Option Nat}
    {seen : Bool} {acc text : List UInt8} (follows : Follows mem st groups gap seen acc text) :
    Result mem none (false, st.mem) :=
  refused_result follows.holds.mem (by have := follows.room; omega)

theorem colon_result {mem : Nat → UInt8} {st : Inet6} {groups : List Nat} {gap : Option Nat}
    {seen : Bool} {acc text : List UInt8}
    (follows : Follows mem st groups gap seen acc (chr ':' :: text))
    (ih : ∀ {st groups gap seen acc}, Follows mem st groups gap seen acc text →
      Result mem ((readFields groups gap seen (fieldsFrom (chr ':') acc text)).bind Shape.words)
        (inet6End (inet6Loop st text))) :
    Result mem ((readFields groups gap seen (acc :: fieldsFrom (chr ':') [] text)).bind
      Shape.words) (inet6End (inet6Loop st (chr ':' :: text))) := by
  rw [readFields_cons fieldsFrom_ne_nil, inet6Loop, if_pos rfl]
  by_cases empty : acc = []
  · have nibbles : ¬ st.nibbles ≠ 0 := by
      rw [follows.nibbles, empty]
      exact fun impossible => impossible rfl
    rw [if_pos empty, if_neg nibbles]
    cases known : gap with
    | none =>
      have zero : st.zero = none := by rw [follows.holds.zero, known]; rfl
      rw [if_pos rfl, if_pos zero]
      apply ih
      refine ⟨⟨follows.holds.mem, follows.holds.addr, ?_, ?_, follows.holds.n⟩, follows.room, rfl,
        ?_, Nat.zero_le 4, ?_⟩
      · rw [Option.map_some, ← follows.holds.addr]
      · intro g same
        rw [← Option.some.inj same]
      · rw [follows.nibbles, empty]
      · rw [← empty]
        exact follows.word
    | some g =>
      have zero : st.zero ≠ none := by
        rw [follows.holds.zero, known]
        simp
      rw [if_neg (by simp), if_neg zero]
      exact follows.refused
  · have nibbles : st.nibbles ≠ 0 := by
      rw [follows.nibbles]
      exact fun length => empty (List.length_eq_zero_iff.mp length)
    have put := put_put { st with digit := some text }
      ⟨follows.holds.mem, follows.holds.addr, follows.holds.zero, follows.holds.gap,
        follows.holds.n⟩ (high_byte st.word) (low_byte st.word)
    rw [if_neg empty, if_pos nibbles, follows.hexField empty, Option.bind_some]
    simp only [put]
    have length : (groups ++ [st.word.toNat]).length = groups.length + 1 := by
      rw [List.length_append, List.length_singleton]
    have n := follows.holds.n
    by_cases more : st.n - 1 ≠ 0
    · rw [if_pos more]
      apply ih
      refine ⟨⟨rfl, rfl, follows.holds.zero, ?_, ?_⟩, ?_, rfl, rfl, Nat.zero_le 4, rfl⟩
      · intro g same
        have inside := follows.holds.gap g same
        omega
      · rw [length, n]
        exact Nat.sub_sub _ _ _
      · omega
    · rw [if_neg more, readFields_full (by omega)]
      exact refused_result rfl (by have := follows.room; omega)

theorem Follows.no_dot {mem : Nat → UInt8} {st : Inet6} {groups : List Nat} {gap : Option Nat}
    {seen : Bool} {acc text : List UInt8} (follows : Follows mem st groups gap seen acc text) :
    ∀ ch ∈ acc, ch ≠ chr '.' := by
  intro ch member dot
  obtain ⟨d, digit⟩ := value_digits follows.word ch member
  have noHex : hexDigit (chr '.') = none := by decide
  rw [dot, noHex] at digit
  exact absurd digit (by simp)

theorem hexField_bad {field : List UInt8} {ch : UInt8} (member : ch ∈ field)
    (bad : hexDigit ch = none) : hexField field = none := by
  rw [hexField]
  split
  · exact valueFrom_bad member bad
  · rfl

theorem hexField_long {field : List UInt8} (long : 4 < field.length) : hexField field = none :=
  if_neg fun both => absurd both.2 (Nat.not_le.mpr long)

theorem dottedField_bad {front more : List UInt8} (plain : ∀ ch ∈ front, ch ≠ chr '.')
    (bad : ∀ rest, hexField (front ++ rest) = none) : dottedField (front ++ more) = none := by
  have front_ : (front ++ more).takeWhile (· ≠ chr '.') =
      front ++ more.takeWhile (· ≠ chr '.') := by
    apply List.takeWhile_append_of_pos
    intro ch member
    exact decide_eq_true (plain ch member)
  rw [dottedField, front_, if_pos (bad _)]

theorem letter_word (word : UInt64) (d : Nat) :
    word * 16 + UInt64.ofNat d = UInt64.ofNat (word.toNat * 16 + d) := by
  rw [UInt64.ofNat_add, UInt64.ofNat_mul, UInt64.ofNat_toNat]
  rfl

theorem Follows.next {mem : Nat → UInt8} {st : Inet6} {groups : List Nat} {gap : Option Nat}
    {seen : Bool} {acc text : List UInt8} {c : UInt8} {d : Nat}
    (follows : Follows mem st groups gap seen acc (c :: text)) (room : acc.length < 4)
    (digit : hexDigit c = some d) :
    Follows mem { st with nibbles := st.nibbles + 1, word := st.word * 16 + UInt64.ofNat d } groups
      gap seen (acc ++ [c]) text := by
  have bound : st.word.toNat < 16 ^ acc.length := value_lt Atoi.hexDigit_lt follows.word
  have small : st.word.toNat * 16 + d < 2 ^ 64 := by
    have last := Atoi.hexDigit_lt c d digit
    have more : 16 ^ acc.length ≤ 16 ^ 4 := Nat.pow_le_pow_right (by decide) (Nat.le_of_lt room)
    omega
  refine ⟨⟨follows.holds.mem, follows.holds.addr, follows.holds.zero, follows.holds.gap,
    follows.holds.n⟩, follows.room, ?_, ?_, ?_, ?_⟩
  · rw [List.append_assoc]
    exact follows.digit
  · rw [List.length_append, List.length_singleton, ← follows.nibbles]
  · rw [List.length_append, List.length_singleton]
    omega
  · rw [value_concat follows.word digit, letter_word, UInt64.toNat_ofNat_of_lt' small]

theorem bad_result {mem : Nat → UInt8} {st : Inet6} {groups : List Nat} {gap : Option Nat}
    {seen : Bool} {acc text : List UInt8} {c : UInt8}
    (follows : Follows mem st groups gap seen acc (c :: text))
    (bad : ∀ rest, hexField (acc ++ [c] ++ rest) = none) (dot : c = chr '.' → acc = []) :
    (readFields groups gap seen (fieldsFrom (chr ':') (acc ++ [c]) text)).bind Shape.words =
      none := by
  obtain ⟨more, rest, head⟩ := fieldsFrom_head (chr ':') (acc ++ [c]) text
  have some_ : acc ++ [c] ++ more ≠ [] := by simp
  have noDots : dottedField (acc ++ [c] ++ more) = none := by
    by_cases isDot : c = chr '.'
    · rw [isDot, dot isDot, dottedField]
      exact if_pos rfl
    · apply dottedField_bad _ bad
      intro ch member
      rcases List.mem_append.mp member with inAcc | last
      · exact follows.no_dot ch inAcc
      · rwa [List.mem_singleton.mp last]
  rw [head, readFields_bad some_ (bad more) noDots]
  rfl

theorem dottedField_eq {acc text : List UInt8} (plain : ∀ ch ∈ acc, ch ≠ chr '.')
    (group : hexField acc ≠ none) :
    dottedField (acc ++ chr '.' :: text) =
      if ngxInetAddr (acc ++ chr '.' :: text) = INADDR_NONE then none
      else some [(ngxInetAddr (acc ++ chr '.' :: text)).toNat / 65536,
        (ngxInetAddr (acc ++ chr '.' :: text)).toNat % 65536] := by
  have front : (acc ++ chr '.' :: text).takeWhile (· ≠ chr '.') = acc := by
    rw [List.takeWhile_append_of_pos fun ch member => decide_eq_true (plain ch member)]
    simp
  rw [dottedField, front, if_neg group, ngxInetAddr_eq]
  cases looseOctets (acc ++ chr '.' :: text) with
  | none => rfl
  | some octets => rfl

theorem first_word (word : UInt32) :
    (word.toUInt64 >>> 24 &&& 0xff).toUInt8 = UInt8.ofNat (word.toNat / 65536 / 256) ∧
    (word.toUInt64 >>> 16 &&& 0xff).toUInt8 = UInt8.ofNat (word.toNat / 65536) := by
  have high : (word.toUInt64 >>> 24).toNat = word.toNat / 65536 / 256 := by
    rw [UInt64.toNat_shiftRight, UInt32.toNat_toUInt64]
    simp [Nat.shiftRight_eq_div_pow, Nat.div_div_eq_div_mul]
  have low : (word.toUInt64 >>> 16).toNat = word.toNat / 65536 := by
    rw [UInt64.toNat_shiftRight, UInt32.toNat_toUInt64]
    simp [Nat.shiftRight_eq_div_pow]
  rw [low_byte, low_byte, high, low]
  exact ⟨rfl, rfl⟩

theorem second_word (word : UInt32) :
    (word.toUInt64 >>> 8).toUInt8 = UInt8.ofNat (word.toNat % 65536 / 256) ∧
    (word.toUInt64 &&& 0xff).toUInt8 = UInt8.ofNat (word.toNat % 65536) := by
  rw [high_byte, low_byte, UInt32.toNat_toUInt64]
  constructor
  · apply UInt8.toNat.inj
    rw [UInt8.toNat_ofNat', UInt8.toNat_ofNat']
    omega
  · apply UInt8.toNat.inj
    rw [UInt8.toNat_ofNat', UInt8.toNat_ofNat']
    omega

theorem quad_result {mem : Nat → UInt8} {st : Inet6} {groups : List Nat} {gap : Option Nat}
    (holds : Holds mem st groups gap) {word : UInt32} (same : st.word = word.toUInt64)
    (nibbles : st.nibbles ≠ 0) (room : groups.length ≤ 6) :
    Result mem (Shape.words ⟨groups ++ [word.toNat / 65536, word.toNat % 65536], gap⟩)
      (inet6Finish { (st.put (st.word >>> 24 &&& 0xff)).put (st.word >>> 16 &&& 0xff) with
        n := st.n - 1 }) := by
  have length : (groups ++ [word.toNat / 65536]).length = groups.length + 1 := by
    rw [List.length_append, List.length_singleton]
  have put := put_put st holds
    (same ▸ (first_word word).1) (same ▸ (first_word word).2)
  rw [put]
  have more : Holds mem { st with
      mem := store mem 0 (groupBytes (groups ++ [word.toNat / 65536])),
      addr := 2 * (groups ++ [word.toNat / 65536]).length, n := st.n - 1 }
      (groups ++ [word.toNat / 65536]) gap := by
    refine ⟨rfl, rfl, holds.zero, ?_, ?_⟩
    · intro g member
      have inside := holds.gap g member
      omega
    · rw [length, holds.n]
      exact Nat.sub_sub _ _ _
  have finished := inet6Finish_result more (by omega) (fun both => nibbles both.1)
    (same ▸ (second_word word).1) (same ▸ (second_word word).2)
  rw [List.append_assoc] at finished
  exact finished

theorem dot_result {mem : Nat → UInt8} {st : Inet6} {groups : List Nat} {gap : Option Nat}
    {seen : Bool} {acc text : List UInt8}
    (follows : Follows mem st groups gap seen acc (chr '.' :: text)) (some_ : acc ≠ []) :
    Result mem ((readFields groups gap seen (fieldsFrom (chr ':') (acc ++ [chr '.']) text)).bind
      Shape.words) (inet6End (inet6Loop st (chr '.' :: text))) := by
  have nibbles : st.nibbles ≠ 0 := by
    rw [follows.nibbles]
    exact fun length => some_ (List.length_eq_zero_iff.mp length)
  have notColon : ¬ chr '.' = chr ':' := by decide
  have noHex : hexDigit (chr '.') = none := by decide
  have n := follows.holds.n
  have room := follows.room
  rw [inet6Loop, if_neg notColon, if_pos ⟨rfl, nibbles⟩]
  by_cases colon : chr ':' ∈ text
  · obtain ⟨before, behind, text_, plain⟩ := List.eq_append_cons_of_mem colon
    have refused : readFields groups gap seen (fieldsFrom (chr ':') (acc ++ [chr '.']) text) =
        none := by
      have filled : acc ++ [chr '.'] ++ before ≠ [] := by simp
      have noGroup : hexField (acc ++ [chr '.'] ++ before) = none := hexField_bad (by simp) noHex
      rw [text_, fieldsFrom_sep plain, readFields_cons fields_ne_nil, if_neg filled, noGroup]
      rfl
    have unread : ngxInetAddr (acc ++ chr '.' :: text) = INADDR_NONE :=
      inetLoop_bad (c := chr ':') (by simp [colon]) (by decide) (by decide) 0 0 0
    rw [refused]
    split
    · exact follows.refused
    · rw [follows.digit]
      cases seen with
      | false => exact follows.refused
      | true =>
        simp only [if_true, unread]
        exact follows.refused
  · have whole : acc ++ [chr '.'] ++ text = acc ++ chr '.' :: text := by simp
    have filled : acc ++ chr '.' :: text ≠ [] := by simp
    have noGroup : hexField (acc ++ chr '.' :: text) = none := hexField_bad (by simp) noHex
    have group : hexField acc ≠ none := by
      rw [follows.hexField some_]
      simp
    rw [fieldsFrom_plain colon, whole, readFields, if_neg filled, noGroup, follows.digit]
    cases seen with
    | false =>
      simp only [Bool.false_eq_true, if_false, ite_self]
      exact follows.refused
    | true =>
      simp only [if_true, dottedField_eq follows.no_dot group]
      by_cases unread : ngxInetAddr (acc ++ chr '.' :: text) = INADDR_NONE
      · simp only [if_pos unread, ite_self]
        exact follows.refused
      · simp only [if_neg unread, Option.map_some, Option.bind_some]
        by_cases few : st.n < 2
        · have long : 8 < (groups ++ [(ngxInetAddr (acc ++ chr '.' :: text)).toNat / 65536,
              (ngxInetAddr (acc ++ chr '.' :: text)).toNat % 65536]).length := by
            rw [List.length_append]
            simp only [List.length_cons, List.length_nil]
            omega
          rw [if_pos few, words_long long]
          exact follows.refused
        · have holds : Holds mem
              { st with word := (ngxInetAddr (acc ++ chr '.' :: text)).toUInt64 } groups gap :=
            ⟨follows.holds.mem, follows.holds.addr, follows.holds.zero, follows.holds.gap,
              follows.holds.n⟩
          rw [if_neg few]
          exact quad_result holds rfl nibbles (by omega)

theorem run_result {mem : Nat → UInt8} {st : Inet6} {groups : List Nat} {gap : Option Nat}
    {seen : Bool} {acc text : List UInt8} (follows : Follows mem st groups gap seen acc text) :
    Result mem ((readFields groups gap seen (fieldsFrom (chr ':') acc text)).bind Shape.words)
      (inet6End (inet6Loop st text)) := by
  induction text generalizing st groups gap seen acc with
  | nil => exact end_result follows
  | cons c text ih =>
    rw [fieldsFrom]
    by_cases colon : c = chr ':'
    · rw [if_pos colon]
      subst colon
      exact colon_result follows ih
    rw [if_neg colon]
    by_cases dot : c = chr '.' ∧ acc ≠ []
    · obtain ⟨rfl, some_⟩ := dot
      exact dot_result follows some_
    have onlyFirst : c = chr '.' → acc = [] := fun same => by
      by_contra some_
      exact dot ⟨same, some_⟩
    have noDot : ¬ (c = chr '.' ∧ st.nibbles ≠ 0) := by
      rw [follows.nibbles]
      exact fun both => dot ⟨both.1, fun empty => both.2 (by rw [empty]; rfl)⟩
    rw [inet6Loop, if_neg colon, if_neg noDot]
    simp only
    by_cases long : st.nibbles + 1 > 4
    · have bad (rest : List UInt8) : hexField (acc ++ [c] ++ rest) = none := by
        apply hexField_long
        rw [List.length_append, List.length_append, List.length_singleton, ← follows.nibbles]
        omega
      rw [if_pos long, bad_result follows bad onlyFirst]
      exact follows.refused
    have room : acc.length < 4 := by
      rw [← follows.nibbles]
      omega
    rw [if_neg long]
    by_cases digit : isDigit c = true
    · rw [if_pos digit]
      exact ih (follows.next room (if_pos digit))
    rw [if_neg digit]
    by_cases letter : chr 'a' ≤ c ||| 0x20 ∧ c ||| 0x20 ≤ chr 'f'
    · have hex : hexDigit c = some ((c ||| 0x20).toNat - 97 + 10) := by
        rw [hexDigit, if_neg digit]
        exact if_pos letter
      have sum : st.word * 16 + UInt64.ofNat ((c ||| 0x20).toNat - 97) + 10 =
          st.word * 16 + UInt64.ofNat ((c ||| 0x20).toNat - 97 + 10) := by
        rw [UInt64.ofNat_add, UInt64.add_assoc]
        rfl
      rw [if_pos letter, sum]
      exact ih (follows.next room hex)
    · have noHex : hexDigit c = none := by
        rw [hexDigit, if_neg digit]
        exact if_neg letter
      have bad (rest : List UInt8) : hexField (acc ++ [c] ++ rest) = none :=
        hexField_bad (by simp) noHex
      rw [if_neg letter, bad_result follows bad onlyFirst]
      exact follows.refused

theorem readFields_gap {groups : List Nat} {gap : Option Nat} {seen : Bool}
    {parts : List (List UInt8)} {shape : Shape} (inside : ∀ g ∈ gap, g ≤ groups.length)
    (read : readFields groups gap seen parts = some shape) :
    ∀ g ∈ shape.gap, g ≤ shape.groups.length := by
  induction parts generalizing groups gap seen with
  | nil => exact absurd read (by simp [readFields])
  | cons field rest ih =>
    have longer {more : List Nat} : ∀ g ∈ gap, g ≤ (groups ++ more).length := by
      intro g member
      rw [List.length_append]
      exact (inside g member).trans (Nat.le_add_right _ _)
    by_cases last : rest = []
    · subst last
      rw [readFields] at read
      split at read
      · split at read
        · exact absurd read (by simp)
        · rw [← Option.some.inj read]
          exact longer
      · cases word : hexField field with
        | some word' =>
          rw [word] at read
          rw [← Option.some.inj read]
          exact longer
        | none =>
          rw [word] at read
          simp only at read
          split at read
          · obtain ⟨words, _, same⟩ := Option.map_eq_some_iff.mp read
            rw [← same]
            exact longer
          · exact absurd read (by simp)
    · rw [readFields_cons last] at read
      split at read
      · split at read
        · refine ih ?_ read
          intro g member
          rw [← Option.some.inj member]
        · exact absurd read (by simp)
      · obtain ⟨word, _, more⟩ := Option.bind_eq_some_iff.mp read
        exact ih longer more

theorem looseInet6_length {text : List UInt8} {words : List Nat}
    (read : looseInet6 text = some words) : words.length = 8 := by
  rw [looseInet6] at read
  split at read
  · exact absurd read (by simp)
  · obtain ⟨shape, fields, ended⟩ := Option.bind_eq_some_iff.mp read
    exact words_length ended (readFields_gap (by simp) fields)

theorem value_nil : value 16 hexDigit [] = some 0 := rfl

/-- `ngx_inet6_addr` writes the groups that it reads, and nothing behind the sixteen bytes. -/
theorem ngxInet6Addr_result (mem : Nat → UInt8) (text : List UInt8) :
    Result mem (looseInet6 text) (ngxInet6Addr mem text) := by
  rw [ngxInet6Addr, looseInet6]
  by_cases empty : text = []
  · rw [if_pos empty, if_pos (by rw [empty]; rfl)]
    exact ⟨fun _ impossible => absurd impossible (by simp), fun _ => rfl, fun _ _ => rfl⟩
  · have length : text.length ≠ 0 := fun zero => empty (List.length_eq_zero_iff.mp zero)
    have start : Follows mem ⟨mem, 0, none, none, 0, 0, 8⟩ [] none false [] (dropColon text) := by
      refine ⟨⟨?_, rfl, rfl, ?_, rfl⟩, Nat.zero_le 7, rfl, rfl, Nat.zero_le 4, value_nil⟩
      · exact store_empty.symm
      · intro g impossible
        exact absurd impossible (by simp)
    rw [if_neg empty, if_neg length, fields]
    exact run_result start

end NgxFormal.Core.Inet
