import NgxFormal.Core.InetGrammar
import NgxFormal.Lib.Network

/-! `ngx_ptocidr`, and the masks that it stores. -/

namespace NgxFormal.Core.Ptocidr

open NgxFormal.Core.Atoi NgxFormal.Core.Inet NgxFormal.Lib.Digits NgxFormal.Lib.Network
open NgxFormal.Lib.Window

/-- `NGX_OK` and `NGX_DONE` -/
inductive Rc where
  | ok
  | done
  deriving DecidableEq, Repr

/-- `ngx_cidr_t`: the union by its `family`. -/
inductive Cidr where
  | inet (addr mask : UInt32)
  | inet6 (addr mask : List UInt8)
  deriving DecidableEq, Repr

/-- `for (i = 0; i < 16; i++)`: the bytes of the address and of the mask. -/
def inet6Loop (shift : Int64) (rc : Rc) : List UInt8 → Rc × List UInt8 × List UInt8
  | [] => (rc, [], [])
  | byte :: addr =>
    let s := if shift > 8 then 8 else shift
    let mask := (0 - (1 : UInt32) <<< (8 - s.toUInt64.toUInt32)).toUInt8
    let (rc, byte) := if byte ≠ byte &&& mask then (.done, byte &&& mask) else (rc, byte)
    let (rc, addr, masks) := inet6Loop (shift - s) rc addr
    (rc, byte :: addr, mask :: masks)

/-- `switch (cidr->family)`; the shift of 32 bits is the one of x86, modulo 32. -/
def Cidr.cut (shift : Int64) : Cidr → Rc × Cidr
  | .inet6 addr _ =>
    let (rc, addr, mask) := inet6Loop shift .ok addr
    (rc, .inet6 addr mask)
  | .inet addr _ =>
    let mask :=
      if shift ≠ 0 then 0 - (1 : UInt32) <<< (32 - shift.toUInt64.toUInt32) else 0
    if addr = addr &&& mask then (.ok, .inet addr mask) else (.done, .inet (addr &&& mask) mask)

/-- `none` is `NGX_ERROR`; `in6` is what `cidr->u.in6.addr` holds before. -/
def ngxPtocidr (in6 : Nat → UInt8) (text : List UInt8) : Option (Rc × Cidr) :=
  let addr := text.takeWhile (· ≠ chr '/')
  let mask := text.dropWhile (· ≠ chr '/')
  let inaddr := ngxInetAddr addr
  let cidr :=
    if inaddr ≠ INADDR_NONE then some (Cidr.inet inaddr 0xffffffff)
    else
      match ngxInet6Addr in6 addr with
      | (true, in6) => some (.inet6 ((List.range 16).map in6) (List.replicate 16 0xff))
      | (false, _) => none
  match cidr with
  | none => none
  | some cidr =>
    if mask = [] then some (.ok, cidr)
    else
      let shift := ngxAtoi mask.tail
      if shift = NGX_ERROR then none else some (cidr.cut shift)

/-! ### The masks -/

def byteMask (s : Nat) : UInt8 := (0 - (1 : UInt32) <<< (8 - UInt32.ofNat s)).toUInt8

/-- Bytes of `n` leading ones. -/
def maskBytes (n : Nat) : Nat → List UInt8
  | 0 => []
  | len + 1 => byteMask (min n 8) :: maskBytes (n - min n 8) len

theorem maskBytes_length (n len : Nat) : (maskBytes n len).length = len := by
  induction len generalizing n with
  | zero => rfl
  | succ len ih => rw [maskBytes, List.length_cons, ih]

theorem byteMask_bit : ∀ s ≤ 8, ∀ i < 8, (byteMask s).toNat.testBit (7 - i) = decide (i < s) := by
  decide

theorem maskBytes_bit (n len : Nat) :
    ∀ i < 8 * len, bit (maskBytes n len) i = decide (i < n) := by
  induction len generalizing n with
  | zero =>
    intro i impossible
    exact absurd impossible (Nat.not_lt_zero i)
  | succ len ih =>
    rw [forall_bits]
    constructor
    · intro i first
      have least : i < min n 8 ↔ i < n := by omega
      rw [maskBytes, bit_first _ _ first, byteMask_bit _ (Nat.min_le_right n 8) i first]
      exact decide_eq_decide.mpr least
    · intro i later
      have rest : i < n - min n 8 ↔ i + 8 < n := by omega
      rw [maskBytes, bit_later, ih _ i later]
      exact decide_eq_decide.mpr rest

theorem maskBytes_full : maskBytes 128 16 = List.replicate 16 0xff := by decide

/-- The bits of an IPv4 address, the highest first. -/
def bit32 (w : UInt32) (i : Nat) : Bool := w.toNat.testBit (31 - i)

/-- The mask of an IPv4 network. -/
def mask32 (n : Nat) : UInt32 := if n ≠ 0 then 0 - (1 : UInt32) <<< (32 - UInt32.ofNat n) else 0

theorem mask32_bit : ∀ n ≤ 32, ∀ i < 32, bit32 (mask32 n) i = decide (i < n) := by
  decide +kernel

theorem mask32_full : mask32 32 = 0xffffffff := by decide

theorem word_masked (addr mask : UInt32) :
    addr = addr &&& mask ↔ ∀ i < 32, bit32 addr i = true → bit32 mask i = true := by
  constructor
  · intro same i _ set
    rw [same, bit32, UInt32.toNat_and, Nat.testBit_and, Bool.and_eq_true] at set
    exact set.2
  · intro bits
    apply UInt32.toNat.inj
    apply Nat.eq_of_testBit_eq
    intro i
    rw [UInt32.toNat_and, Nat.testBit_and]
    by_cases small : i < 32
    · have index : 31 - (31 - i) = i := by omega
      have inside := bits (31 - i) (by omega)
      rw [bit32, bit32, index] at inside
      cases known : addr.toNat.testBit i with
      | false => rfl
      | true => rw [inside known, Bool.and_self]
    · have high : addr.toNat < 2 ^ i :=
        Nat.lt_of_lt_of_le addr.toNat_lt
          (Nat.pow_le_pow_right (by decide) (Nat.not_lt.mp small))
      rw [Nat.testBit_lt_two_pow high, Bool.false_and]

/-! ### What is stored -/

theorem ofNat_word (n : Nat) :
    (Int64.ofNat n).toUInt64.toUInt32 = UInt32.ofNat n := by
  have wide : (Int64.ofNat n).toUInt64 = UInt64.ofNat n := rfl
  apply UInt32.toNat.inj
  rw [wide, UInt64.toNat_toUInt32, UInt64.toNat_ofNat', UInt32.toNat_ofNat']
  omega

theorem ofNat_lt {n : Nat} (small : n < 2 ^ 63) : Int64.ofNat n > 8 ↔ 8 < n := by
  have eight : (8 : Int64).toInt = 8 := rfl
  rw [gt_iff_lt, Int64.lt_iff_toInt_lt, Int64.toInt_ofNat_of_lt small, eight]
  exact Int.ofNat_lt

theorem ofNat_sub {n s : Nat} (le : s ≤ n) :
    Int64.ofNat n - Int64.ofNat s = Int64.ofNat (n - s) := (Int64.ofNat_sub n s le).symm

theorem inet6Loop_eq (bytes : List UInt8) {n : Nat} (small : n < 2 ^ 63) (rc : Rc) :
    inet6Loop (Int64.ofNat n) rc bytes =
      (if bytes = masked bytes (maskBytes n bytes.length) then rc else .done,
        masked bytes (maskBytes n bytes.length), maskBytes n bytes.length) := by
  induction bytes generalizing n rc with
  | nil => rfl
  | cons byte bytes ih =>
    have step : (if Int64.ofNat n > 8 then 8 else Int64.ofNat n) = Int64.ofNat (min n 8) := by
      by_cases more : 8 < n
      · rw [if_pos ((ofNat_lt small).mpr more), Nat.min_eq_right (Nat.le_of_lt more)]
        rfl
      · rw [if_neg (mt (ofNat_lt small).mp more), Nat.min_eq_left (Nat.not_lt.mp more)]
    have rest : n - min n 8 < 2 ^ 63 := Nat.lt_of_le_of_lt (Nat.sub_le _ _) small
    have mask : (0 - (1 : UInt32) <<< (8 - UInt32.ofNat (min n 8))).toUInt8 =
      byteMask (min n 8) := rfl
    rw [inet6Loop]
    simp only [step, ofNat_word, ofNat_sub (Nat.min_le_left n 8), ih rest, mask,
      List.length_cons, maskBytes, masked_cons, List.cons.injEq]
    by_cases inside : byte = byte &&& byteMask (min n 8)
    · rw [if_neg (not_not.mpr inside), ← inside]
      simp only [true_and]
    · have changed : ¬ (byte = byte &&& byteMask (min n 8) ∧
          bytes = masked bytes (maskBytes (n - min n 8) bytes.length)) := fun both => inside both.1
      rw [if_pos inside]
      simp only [ite_self, if_neg changed]

end NgxFormal.Core.Ptocidr

/-! Which texts `ngx_ptocidr` stores as the networks that they write. -/

namespace NgxFormal.Core.Ptocidr

open NgxFormal.Core.Atoi NgxFormal.Core.Inet NgxFormal.Lib.Digits NgxFormal.Lib.Fields
open NgxFormal.Lib.Network NgxFormal.Lib.Window

def addressPart (text : List UInt8) : List UInt8 := text.takeWhile (· ≠ chr '/')

def slashPart (text : List UInt8) : List UInt8 := text.dropWhile (· ≠ chr '/')

/-- Behind the slash stands `n`; without a slash it is the number of bits of an address. -/
def MaskLength (text : List UInt8) (width n : Nat) : Prop :=
  slashPart text = [] ∧ n = width ∨
    ∃ digits, slashPart text = chr '/' :: digits ∧ digits ≠ [] ∧ value 10 decimalDigit digits = some n

/-- What is stored is the network that the text writes. -/
def Exact (text : List UInt8) (result : Option (Rc × Cidr)) : Prop :=
  ∀ rc cidr, result = some (rc, cidr) →
    (∃ octets n addr mask, ipv4 (addressPart text) = some octets ∧
      MaskLength text 32 n ∧ n ≤ 32 ∧ cidr = .inet addr mask ∧
      Stores 32 n (bit32 (address octets)) (bit32 addr) (bit32 mask) (rc = .ok)) ∨
    ∃ words n addr mask, Ipv6 (addressPart text) words ∧
      MaskLength text 128 n ∧ n ≤ 128 ∧ cidr = .inet6 addr mask ∧
      addr.length = 16 ∧ mask.length = 16 ∧
      Stores 128 n (bit (groupBytes words)) (bit addr) (bit mask) (rc = .ok)

/-- Where the code reads an IPv4 address, no octet is missing or has more than 64 bits, and the mask
is no longer than the address. -/
def Strict4 (text : List UInt8) : Prop :=
  ∀ octets n, looseOctets (addressPart text) = some octets → address octets ≠ INADDR_NONE →
    MaskLength text 32 n → n % 2 ^ 64 < 2 ^ 63 → PlainOctets (addressPart text) ∧ n ≤ 32

/-- Where it reads an IPv6 address, no colon stands alone at an end, and the same holds of a dotted
field and of the mask. -/
def Strict6 (text : List UInt8) : Prop :=
  ∀ words n, looseInet6 (addressPart text) = some words →
    MaskLength text 128 n → n % 2 ^ 64 < 2 ^ 63 →
      PairedColons (addressPart text) ∧ PlainLast (fields (chr ':') (addressPart text)) ∧ n ≤ 128

/-- What follows once the address is read. -/
def withSlash (text : List UInt8) (cidr : Cidr) : Option (Rc × Cidr) :=
  if slashPart text = [] then some (.ok, cidr)
  else
    if ngxAtoi (slashPart text).tail = NGX_ERROR then none
    else some (cidr.cut (ngxAtoi (slashPart text).tail))

theorem ptocidr_inet (in6 : Nat → UInt8) {text : List UInt8} {octets : List Nat}
    (read : looseOctets (addressPart text) = some octets) (some_ : address octets ≠ INADDR_NONE) :
    ngxPtocidr in6 text = withSlash text (.inet (address octets) 0xffffffff) := by
  have known : ngxInetAddr (addressPart text) = address octets := by
    rw [ngxInetAddr_eq, read]
    rfl
  rw [addressPart] at known
  rw [ngxPtocidr]
  simp only [known]
  rw [if_pos some_]
  rfl

theorem range_store (mem : Nat → UInt8) {bytes : List UInt8} (length : bytes.length = 16) :
    (List.range 16).map (store mem 0 bytes) = bytes := by
  apply List.ext_getElem
  · rw [List.length_map, List.length_range, length]
  · intro i _ inside
    rw [List.getElem_map, List.getElem_range, store, if_neg (Nat.not_lt_zero i), Nat.sub_zero,
      List.getElem?_eq_getElem inside]
    rfl

theorem ptocidr_inet6 (in6 : Nat → UInt8) {text : List UInt8} {words : List Nat}
    (read : looseInet6 (addressPart text) = some words) :
    ngxPtocidr in6 text = withSlash text (.inet6 (groupBytes words) (List.replicate 16 0xff)) := by
  have none_ := looseInet6_not_ipv4 read
  have accepted := (ngxInet6Addr_result in6 (addressPart text)).accepted words read
  have length : (groupBytes words).length = 16 := by
    rw [groupBytes_length, looseInet6_length read]
  rw [addressPart] at none_ accepted
  rw [ngxPtocidr]
  simp only [none_, accepted, range_store in6 length]
  rw [if_neg (not_not.mpr rfl)]
  rfl

theorem ptocidr_refused (in6 : Nat → UInt8) {text : List UInt8}
    (none4 : ngxInetAddr (addressPart text) = INADDR_NONE)
    (none6 : looseInet6 (addressPart text) = none) : ngxPtocidr in6 text = none := by
  have refused := (ngxInet6Addr_result in6 (addressPart text)).refused none6
  rw [addressPart] at none4 refused
  rw [ngxPtocidr]
  simp only [none4]
  rw [if_neg (not_not.mpr rfl)]
  cases result : ngxInet6Addr in6 (text.takeWhile (· ≠ chr '/')) with
  | mk accepted mem =>
    rw [result] at refused
    have flag : accepted = false := refused
    rw [flag]

/-! ### The mask -/

theorem slashPart_cons {text : List UInt8} (some_ : slashPart text ≠ []) :
    ∃ digits, slashPart text = chr '/' :: digits := by
  obtain ⟨ch, digits, same⟩ := List.exists_cons_of_ne_nil some_
  refine ⟨digits, ?_⟩
  have head := List.head?_dropWhile_not (fun ch => decide (ch ≠ chr '/')) text
  rw [← slashPart, same, List.head?_cons] at head
  have slash : ch = chr '/' := by simpa using head
  rw [same, slash]

theorem withSlash_none {text : List UInt8} {width : Nat} (cidr : Cidr)
    (fits : width % 2 ^ 64 < 2 ^ 63)
    (bad : ∀ n, MaskLength text width n → ¬ n % 2 ^ 64 < 2 ^ 63) : withSlash text cidr = none := by
  have some_ : slashPart text ≠ [] := fun empty => bad width (Or.inl ⟨empty, rfl⟩) fits
  obtain ⟨digits, same⟩ := slashPart_cons some_
  have error : ngxAtoi digits = NGX_ERROR := by
    by_cases empty : digits = []
    · rw [empty]
      rfl
    · cases number : value 10 decimalDigit digits with
      | none => exact atoi_bad number
      | some n =>
        have large := bad n (Or.inr ⟨digits, same, empty, number⟩)
        rw [ngxAtoi, atoi_value empty number, if_pos (Nat.not_lt.mp large)]
  rw [withSlash, if_neg some_, same, List.tail_cons, if_pos error]

theorem withSlash_cut {text digits : List UInt8} {n : Nat} (cidr : Cidr)
    (same : slashPart text = chr '/' :: digits) (some_ : digits ≠ [])
    (number : value 10 decimalDigit digits = some n) (fits : n % 2 ^ 64 < 2 ^ 63) :
    withSlash text cidr = some (cidr.cut (Int64.ofNat n)) := by
  have known : ngxAtoi digits = Int64.ofNat n := by
    rw [ngxAtoi, atoi_value some_ number, if_neg (Nat.not_le.mpr fits)]
  rw [withSlash, same, if_neg (List.cons_ne_nil _ _), List.tail_cons, known,
    if_neg (ofNat_ne_error fits)]

theorem maskLength_unique {text : List UInt8} {width n m : Nat} (first : MaskLength text width n)
    (second : MaskLength text width m) : n = m := by
  rcases first with ⟨empty, rfl⟩ | ⟨digits, same, _, number⟩
  · rcases second with ⟨_, rfl⟩ | ⟨digits, same, _, _⟩
    · rfl
    · rw [empty] at same
      exact absurd same.symm (List.cons_ne_nil _ _)
  · rcases second with ⟨empty, _⟩ | ⟨digits', same', _, number'⟩
    · rw [same] at empty
      exact absurd empty (List.cons_ne_nil _ _)
    · rw [same] at same'
      rw [(List.cons.inj same').2] at number
      exact Option.some.inj (number.symm.trans number')

theorem cut_inet {n : Nat} (small : n ≤ 32) (addr mask : UInt32) :
    Cidr.cut (Int64.ofNat n) (.inet addr mask) =
      (if addr = addr &&& mask32 n then .ok else .done, .inet (addr &&& mask32 n) (mask32 n)) := by
  have zero : Int64.ofNat n ≠ 0 ↔ n ≠ 0 := by
    have fits : n < 2 ^ 63 := Nat.lt_of_le_of_lt small (by decide)
    rw [ne_eq, ← Int64.toInt_inj, Int64.toInt_ofNat_of_lt fits]
    exact not_congr Int.natCast_eq_zero
  have same : (if Int64.ofNat n ≠ 0 then
      0 - (1 : UInt32) <<< (32 - (Int64.ofNat n).toUInt64.toUInt32) else 0) = mask32 n := by
    rw [ofNat_word, mask32]
    exact if_congr zero rfl rfl
  rw [Cidr.cut]
  simp only [same]
  by_cases inside : addr = addr &&& mask32 n
  · rw [if_pos inside, if_pos inside, ← inside]
  · rw [if_neg inside, if_neg inside]

theorem cut_inet6 {n : Nat} (small : n ≤ 128) {addr : List UInt8} (length : addr.length = 16)
    (mask : List UInt8) :
    Cidr.cut (Int64.ofNat n) (.inet6 addr mask) =
      (if addr = masked addr (maskBytes n 16) then .ok else .done,
        .inet6 (masked addr (maskBytes n 16)) (maskBytes n 16)) := by
  rw [Cidr.cut]
  simp only [inet6Loop_eq addr (Nat.lt_of_le_of_lt small (by decide) : n < 2 ^ 63), length]

theorem rc_ok_iff {p : Prop} [Decidable p] : (if p then Rc.ok else Rc.done) = .ok ↔ p := by
  by_cases known : p
  · rw [if_pos known]
    exact iff_of_true rfl known
  · rw [if_neg known]
    exact iff_of_false (by decide) known

theorem withSlash_inet {text : List UInt8} {n : Nat} (addr : UInt32)
    (length : MaskLength text 32 n) (small : n ≤ 32) :
    withSlash text (.inet addr 0xffffffff) =
      some (if addr = addr &&& mask32 n then .ok else .done,
        .inet (addr &&& mask32 n) (mask32 n)) := by
  rcases length with ⟨empty, rfl⟩ | ⟨digits, same, some_, number⟩
  · have ones : addr &&& mask32 32 = addr := by
      rw [mask32_full]
      exact UInt32.and_neg_one
    rw [withSlash, if_pos empty, ones, if_pos rfl, mask32_full]
  · rw [withSlash_cut _ same some_ number (by omega), cut_inet small]

theorem masked_full {addr : List UInt8} (length : addr.length = 16) :
    masked addr (maskBytes 128 16) = addr := by
  symm
  rw [masked_eq_iff (by rw [maskBytes_length, length]), length]
  intro i inside _
  rw [maskBytes_bit 128 16 i inside]
  exact decide_eq_true inside

theorem withSlash_inet6 {text addr : List UInt8} {n : Nat} (bytes : addr.length = 16)
    (length : MaskLength text 128 n) (small : n ≤ 128) :
    withSlash text (.inet6 addr (List.replicate 16 0xff)) =
      some (if addr = masked addr (maskBytes n 16) then .ok else .done,
        .inet6 (masked addr (maskBytes n 16)) (maskBytes n 16)) := by
  rcases length with ⟨empty, rfl⟩ | ⟨digits, same, some_, number⟩
  · rw [withSlash, if_pos empty, masked_full bytes, if_pos rfl, maskBytes_full]
  · rw [withSlash_cut _ same some_ number (by omega), cut_inet6 small bytes]

theorem stores_inet {n : Nat} (small : n ≤ 32) (addr : UInt32) :
    Stores 32 n (bit32 addr) (bit32 (addr &&& mask32 n)) (bit32 (mask32 n))
      (addr = addr &&& mask32 n) where
  ones := mask32_bit n small
  cut i _ := by rw [bit32, bit32, bit32, UInt32.toNat_and, Nat.testBit_and]
  same := word_masked addr (mask32 n)

theorem stores_inet6 (n : Nat) {addr : List UInt8} (bytes : addr.length = 16) :
    Stores 128 n (bit addr) (bit (masked addr (maskBytes n 16))) (bit (maskBytes n 16))
      (addr = masked addr (maskBytes n 16)) := by
  have length : addr.length = (maskBytes n 16).length := by rw [bytes, maskBytes_length]
  have cut := bit_masked length
  have same := masked_eq_iff length
  rw [bytes] at cut same
  exact ⟨maskBytes_bit n 16, cut, same⟩

/-! ### The whole text -/

theorem withSlash_accepts {text : List UInt8} {width n : Nat} (cidr : Cidr)
    (length : MaskLength text width n) (fits : n % 2 ^ 64 < 2 ^ 63) :
    withSlash text cidr = some (.ok, cidr) ∨ ∃ shift, withSlash text cidr = some (cidr.cut shift) := by
  rcases length with ⟨empty, _⟩ | ⟨digits, same, some_, number⟩
  · exact Or.inl (if_pos empty)
  · exact Or.inr ⟨_, withSlash_cut cidr same some_ number fits⟩

theorem withSlash_inet_family {text : List UInt8} {n : Nat} (addr mask : UInt32)
    (length : MaskLength text 32 n) (fits : n % 2 ^ 64 < 2 ^ 63) :
    ∃ rc addr' mask', withSlash text (.inet addr mask) = some (rc, .inet addr' mask') := by
  rcases withSlash_accepts (.inet addr mask) length fits with whole | ⟨shift, cut⟩
  · exact ⟨_, _, _, whole⟩
  · rw [Cidr.cut] at cut
    split at cut <;> split at cut <;> exact ⟨_, _, _, cut⟩

theorem withSlash_inet6_family {text addr mask : List UInt8} {n : Nat}
    (length : MaskLength text 128 n) (fits : n % 2 ^ 64 < 2 ^ 63) :
    ∃ rc addr' mask', withSlash text (.inet6 addr mask) = some (rc, .inet6 addr' mask') := by
  rcases withSlash_accepts (.inet6 addr mask) length fits with whole | ⟨shift, cut⟩
  · exact ⟨_, _, _, whole⟩
  · rw [Cidr.cut] at cut
    exact ⟨_, _, _, cut⟩

theorem exact_strict4 {in6 : Nat → UInt8} {text : List UInt8}
    (exact_ : Exact text (ngxPtocidr in6 text)) : Strict4 text := by
  intro octets n read some_ length fits
  obtain ⟨rc, addr, mask, result⟩ := withSlash_inet_family (address octets) 0xffffffff length fits
  rw [ptocidr_inet in6 read some_, result] at exact_
  rcases exact_ rc _ rfl with
    ⟨octets, m, _, _, grammar, again, small, _⟩ | ⟨_, _, _, _, _, _, _, other, _⟩
  · rw [maskLength_unique length again]
    exact ⟨ipv4_plain grammar, small⟩
  · exact absurd other (by simp)

theorem exact_strict6 {in6 : Nat → UInt8} {text : List UInt8}
    (exact_ : Exact text (ngxPtocidr in6 text)) : Strict6 text := by
  intro words n read length fits
  obtain ⟨rc, addr, mask, result⟩ := withSlash_inet6_family length fits
  rw [ptocidr_inet6 in6 read, result] at exact_
  rcases exact_ rc _ rfl with
    ⟨_, _, _, _, _, _, _, other, _⟩ | ⟨words, m, _, _, grammar, again, small, _⟩
  · exact absurd other (by simp)
  · obtain ⟨paired, plain⟩ := ipv6_plain grammar
    rw [maskLength_unique length again]
    exact ⟨paired, plain, small⟩

theorem strict4_exact (in6 : Nat → UInt8) {text : List UInt8} {octets : List Nat}
    (strict : Strict4 text) (read : looseOctets (addressPart text) = some octets)
    (some_ : address octets ≠ INADDR_NONE) : Exact text (ngxPtocidr in6 text) := by
  intro rc cidr result
  rw [ptocidr_inet in6 read some_] at result
  by_cases accepted : ∃ n, MaskLength text 32 n ∧ n % 2 ^ 64 < 2 ^ 63
  · obtain ⟨n, length, fits⟩ := accepted
    obtain ⟨plain, small⟩ := strict octets n read some_ length fits
    rw [withSlash_inet _ length small] at result
    injection Option.some.inj result with sameRc sameCidr
    have stores := stores_inet small (address octets)
    refine Or.inl ⟨octets, n, _, _, ipv4_eq plain ▸ read, length, small, sameCidr.symm,
      stores.ones, stores.cut, ?_⟩
    rw [← sameRc, rc_ok_iff]
    exact stores.same
  · rw [withSlash_none _ (by decide : 32 % 2 ^ 64 < 2 ^ 63) fun n length fits =>
      accepted ⟨n, length, fits⟩] at result
    exact absurd result (by simp)

theorem strict6_exact (in6 : Nat → UInt8) {text : List UInt8} {words : List Nat}
    (strict : Strict6 text) (read : looseInet6 (addressPart text) = some words) :
    Exact text (ngxPtocidr in6 text) := by
  intro rc cidr result
  rw [ptocidr_inet6 in6 read] at result
  by_cases accepted : ∃ n, MaskLength text 128 n ∧ n % 2 ^ 64 < 2 ^ 63
  · obtain ⟨n, length, fits⟩ := accepted
    obtain ⟨paired, plain, small⟩ := strict words n read length fits
    have bytes : (groupBytes words).length = 16 := by
      rw [groupBytes_length, looseInet6_length read]
    have cutBytes : (masked (groupBytes words) (maskBytes n 16)).length = 16 := by
      rw [masked, List.length_zipWith, bytes, maskBytes_length, Nat.min_self]
    rw [withSlash_inet6 bytes length small] at result
    injection Option.some.inj result with sameRc sameCidr
    have stores := stores_inet6 n bytes
    refine Or.inr ⟨words, n, _, _, ipv6_of_loose paired plain read, length, small, sameCidr.symm,
      cutBytes, maskBytes_length n 16, stores.ones, stores.cut, ?_⟩
    rw [← sameRc, rc_ok_iff]
    exact stores.same
  · rw [withSlash_none _ (by decide : 128 % 2 ^ 64 < 2 ^ 63) fun n length fits =>
      accepted ⟨n, length, fits⟩] at result
    exact absurd result (by simp)

/-- `ngx_ptocidr` stores the networks that are written, and no others, if and only if what it reads
is strict. -/
theorem ptocidr_exact_iff (in6 : Nat → UInt8) (text : List UInt8) :
    Exact text (ngxPtocidr in6 text) ↔ Strict4 text ∧ Strict6 text := by
  constructor
  · intro exact_
    exact ⟨exact_strict4 exact_, exact_strict6 exact_⟩
  · rintro ⟨strict4, strict6⟩
    by_cases none4 : ngxInetAddr (addressPart text) = INADDR_NONE
    · cases read : looseInet6 (addressPart text) with
      | none =>
        rw [ptocidr_refused in6 none4 read]
        intro rc cidr impossible
        exact absurd impossible (by simp)
      | some words => exact strict6_exact in6 strict6 read
    · have known := ngxInetAddr_eq (addressPart text)
      cases read : looseOctets (addressPart text) with
      | none =>
        rw [read] at known
        exact absurd known none4
      | some octets =>
        rw [read] at known
        have same : ngxInetAddr (addressPart text) = address octets := known
        exact strict4_exact in6 strict4 read (same ▸ none4)

/-- A text with an octet missing is stored as `1.0.2.3`, and one with a mask of 129 bits as a
network. -/
theorem ptocidr_not_exact :
    ngxPtocidr (fun _ => 0) ("1..2.3".toList.map chr) =
        some (.ok, .inet 0x01000203 0xffffffff) ∧
      ¬ Exact ("1..2.3".toList.map chr) (ngxPtocidr (fun _ => 0) ("1..2.3".toList.map chr)) ∧
      ¬ Exact ("::1/129".toList.map chr) (ngxPtocidr (fun _ => 0) ("::1/129".toList.map chr)) := by
  have four : looseOctets (addressPart ("1..2.3".toList.map chr)) = some [1, 0, 2, 3] := by decide
  have six : looseInet6 (addressPart ("::1/129".toList.map chr)) = some [0, 0, 0, 0, 0, 0, 0, 1] := by
    decide
  refine ⟨by decide +kernel, ?_, ?_⟩
  · intro exact_
    have strict := exact_strict4 exact_ _ 32 four (by decide) (Or.inl ⟨rfl, rfl⟩) (by decide)
    exact (strict.1 [] (by decide)).1 rfl
  · intro exact_
    have strict := exact_strict6 exact_ _ 129 six
      (Or.inr ⟨"129".toList.map chr, by decide, by decide, by decide⟩) (by decide)
    exact absurd strict.2.2 (by decide)

end NgxFormal.Core.Ptocidr
