import NgxFormal.Core.ResolverCopy
import NgxFormal.Lib.Links

/-! `ngx_resolver_create_name_query`: the question for a name, written from its last byte on down,
and what `ngx_resolver_copy` reads back from it. -/

namespace NgxFormal.Core.Resolver

open Lib Function

/-- `rn->qlen`, the bytes that were written, and `rn->query`. -/
structure Query where
  qlen : Nat
  size : Nat
  query : Nat → UInt8

def writeBytes (memory : Nat → UInt8) (p : Nat) (bytes : List UInt8) : Nat → UInt8 := fun i =>
  if p ≤ i ∧ i < p + bytes.length then bytes.getD (i - p) 0 else memory i

/-- `ngx_resolver_query_t` with one question and recursion desired. -/
def header (ident : Nat) : List UInt8 :=
  [UInt8.ofNat ((ident >>> 8) &&& 0xff), UInt8.ofNat (ident &&& 0xff), 1, 0, 0, 1, 0, 0, 0, 0, 0, 0]

/-- The loop over the name, its last byte first: the bytes, `p` and `len` behind it, or
`NGX_DECLINED`. -/
def fillLoop : List UInt8 → (Nat → UInt8) → Nat → Nat → Option ((Nat → UInt8) × Nat × Nat)
  | [], query, p, len => some (query, p, len)
  | c :: rest, query, p, len =>
    if c ≠ dot then fillLoop rest (update query p c) (p - 1) (len + 1)
    else if len = 0 then none
    else fillLoop rest (update query p (UInt8.ofNat len)) (p - 1) 0

/-- `memory` is what `ngx_resolver_alloc` returns; it never fails here. -/
def ngxResolverCreateNameQuery (memory : Nat → UInt8) (ident : Nat) (type : UInt8)
    (name : List UInt8) : Option Query :=
  let nlen := if name.length ≠ 0 then 1 + name.length + 1 else 1
  let len := 12 + nlen + 4
  let query := writeBytes memory 0 (header ident)
  let query := writeBytes query (12 + nlen) [0, type, 0, 1]
  let query := update query (12 + nlen - 1) 0
  (fillLoop name.reverse query (12 + nlen - 2) 0).map fun (query, p, length) =>
    ⟨len % 65536, len, update query p (UInt8.ofNat length)⟩

section Wire

/-- The labels of a name, each behind its length. -/
def wire (labels : List (List UInt8)) : List UInt8 :=
  labels.flatMap fun l => UInt8.ofNat l.length :: l

def labelsOf (name : List UInt8) : List (List UInt8) := name.splitOn dot

/-- `n` bytes from `p` on. -/
def bytesAt (memory : Nat → UInt8) (p n : Nat) : List UInt8 := (List.range' p n).map memory

variable {memory : Nat → UInt8} {p n : Nat} {name : List UInt8} {labels : List (List UInt8)}

theorem bytesAt_succ (memory : Nat → UInt8) (p n : Nat) :
    bytesAt memory p (n + 1) = memory p :: bytesAt memory (p + 1) n := rfl

theorem bytesAt_add (memory : Nat → UInt8) (p a b : Nat) :
    bytesAt memory p (a + b) = bytesAt memory p a ++ bytesAt memory (p + a) b := by
  rw [bytesAt, bytesAt, bytesAt, ← List.map_append, ← List.range'_append, Nat.one_mul]

theorem bytesAt_congr {other : Nat → UInt8} (same : ∀ i, p ≤ i → i < p + n → memory i = other i) :
    bytesAt memory p n = bytesAt other p n := by
  apply List.map_congr_left
  intro i member
  obtain ⟨low, high⟩ := List.mem_range'_1.mp member
  exact same i low high

theorem wire_cons (l : List UInt8) (labels : List (List UInt8)) :
    wire (l :: labels) = UInt8.ofNat l.length :: (l ++ wire labels) := by
  simp [wire]

theorem labelsOf_first (name : List UInt8) :
    labelsOf name = (labelsOf name).headD [] :: (labelsOf name).tail := by
  have nonempty : labelsOf name ≠ [] := List.splitOn_ne_nil dot name
  obtain ⟨first, rest, shape⟩ := List.exists_cons_of_ne_nil nonempty
  rw [shape]
  rfl

theorem wire_labelsOf (name : List UInt8) : wire (labelsOf name) =
    UInt8.ofNat ((labelsOf name).headD []).length :: (wire (labelsOf name)).tail := by
  rw [labelsOf_first name, wire_cons]
  rfl

theorem labelsOf_byte {c : UInt8} (other : c ≠ dot) (name : List UInt8) :
    ((labelsOf (c :: name)).headD []).length = ((labelsOf name).headD []).length + 1 ∧
      (wire (labelsOf (c :: name))).tail = c :: (wire (labelsOf name)).tail := by
  have shape : labelsOf (c :: name) =
      (c :: (labelsOf name).headD []) :: (labelsOf name).tail := by
    unfold labelsOf
    rw [List.splitOn_cons_eq_if_modifyHead, if_neg (by simpa using other)]
    have first := labelsOf_first name
    unfold labelsOf at first
    rw [first]
    rfl
  have first := labelsOf_first name
  rw [shape, first, wire_cons, wire_cons]
  exact ⟨rfl, rfl⟩

theorem labelsOf_dot (name : List UInt8) :
    ((labelsOf (dot :: name)).headD []).length = 0 ∧
      (wire (labelsOf (dot :: name))).tail = wire (labelsOf name) := by
  have shape : labelsOf (dot :: name) = [] :: labelsOf name := by
    unfold labelsOf
    rw [List.splitOn_cons_eq_if_modifyHead, if_pos (by simp)]
  rw [shape, wire_cons]
  exact ⟨rfl, rfl⟩

theorem wire_length (name : List UInt8) : (wire (labelsOf name)).length = name.length + 1 := by
  induction name with
  | nil => rfl
  | cons c rest ih =>
    have tail : ∀ name, (wire (labelsOf name)).length = (wire (labelsOf name)).tail.length + 1 := by
      intro name
      rw [wire_labelsOf name]
      rfl
    rw [tail]
    by_cases same : c = dot
    · rw [same, (labelsOf_dot rest).2, ih]
      rfl
    · rw [(labelsOf_byte same rest).2, List.length_cons, List.length_cons, ← ih, tail rest]

theorem fillLoop_spec (front behind : List UInt8) {query : Nat → UInt8} {len : Nat}
    (here : bytesAt query (n + front.length + 1) behind.length = (wire (labelsOf behind)).tail)
    (isLen : len = ((labelsOf behind).headD []).length) {result : (Nat → UInt8) × Nat × Nat}
    (filled : fillLoop front.reverse query (n + front.length) len = some result) :
    result.2.1 = n ∧ result.2.2 = ((labelsOf (front ++ behind)).headD []).length ∧
      bytesAt result.1 (n + 1) (front ++ behind).length = (wire (labelsOf (front ++ behind))).tail ∧
      ∀ i, i ≤ n ∨ n + front.length < i → result.1 i = query i := by
  induction front using List.reverseRecOn generalizing behind query len with
  | nil =>
    obtain rfl := Option.some.inj filled
    exact ⟨rfl, isLen, here, fun _ _ => rfl⟩
  | append_singleton front c ih =>
    have length : n + (front ++ [c]).length = n + front.length + 1 := by
      rw [List.length_append, List.length_singleton]
      omega
    rw [length] at here filled
    rw [List.reverse_append, List.reverse_singleton, List.singleton_append, fillLoop] at filled
    have shape : front ++ [c] ++ behind = front ++ c :: behind := by simp
    rw [shape]
    -- the byte that is written here, and the rest of the name as it is
    have written : ∀ byte, bytesAt (update query (n + front.length + 1) byte)
        (n + front.length + 1) (c :: behind).length = byte :: (wire (labelsOf behind)).tail := by
      intro byte
      rw [List.length_cons, bytesAt_succ, update_self, ← here]
      congr 1
      apply bytesAt_congr
      intro i low _
      exact update_of_ne (by omega) _ _
    have kept : ∀ byte (after : Nat → UInt8), (∀ i, i ≤ n ∨ n + front.length < i →
        after i = update query (n + front.length + 1) byte i) →
        ∀ i, i ≤ n ∨ n + (front ++ [c]).length < i → after i = query i := by
      intro byte after same i outside
      rw [length] at outside
      rw [same i (by omega), update_of_ne (by omega)]
    by_cases isDot : c = dot
    · subst isDot
      rw [if_neg (fun differ => differ rfl)] at filled
      split at filled
      · cases filled
      · have first : UInt8.ofNat len :: (wire (labelsOf behind)).tail =
            (wire (labelsOf (dot :: behind))).tail := by
          rw [isLen, ← wire_labelsOf, (labelsOf_dot behind).2]
        obtain ⟨isP, isLength, bytes, same⟩ := ih (dot :: behind)
          (by rw [written, first]) (labelsOf_dot behind).1.symm filled
        exact ⟨isP, isLength, bytes, kept _ _ same⟩
    · rw [if_pos isDot] at filled
      obtain ⟨joined, first⟩ := labelsOf_byte isDot behind
      obtain ⟨isP, isLength, bytes, same⟩ := ih (c :: behind)
        (by rw [written, first]) (by rw [joined, isLen]) filled
      exact ⟨isP, isLength, bytes, kept _ _ same⟩

theorem query_wire {ident : Nat} {type : UInt8} {q : Query} (nonempty : name ≠ [])
    (made : ngxResolverCreateNameQuery memory ident type name = some q) :
    q.size = 18 + name.length ∧ q.qlen = q.size % 65536 ∧
      bytesAt q.query 12 (name.length + 2) = wire (labelsOf name) ++ [0] := by
  have positive : name.length ≠ 0 := fun none => nonempty (List.length_eq_zero_iff.mp none)
  unfold ngxResolverCreateNameQuery at made
  simp only [if_pos positive] at made
  obtain ⟨⟨query, p, length⟩, filled, isQuery⟩ := Option.map_eq_some_iff.mp made
  have place : 12 + (1 + name.length + 1) - 2 = 12 + name.length := by omega
  have zero : 12 + (1 + name.length + 1) - 1 = 12 + name.length + 1 := by omega
  rw [place, zero] at filled
  obtain ⟨isP, isLength, bytes, same⟩ := fillLoop_spec name [] rfl rfl filled
  rw [List.append_nil] at isLength bytes
  dsimp only at isP isLength bytes same
  subst isP isQuery
  refine ⟨by dsimp only; omega, by dsimp only, ?_⟩
  rw [bytesAt_succ, bytesAt_add]
  dsimp only
  have first : bytesAt (update query 12 (UInt8.ofNat length)) 13 name.length =
      (wire (labelsOf name)).tail := by
    rw [← bytes]
    apply bytesAt_congr
    intro i low _
    exact update_of_ne (by omega) _ _
  have last : bytesAt (update query 12 (UInt8.ofNat length)) (13 + name.length) 1 = [0] := by
    rw [bytesAt_succ, update_of_ne (by omega), same _ (Or.inr (by omega))]
    have here : 13 + name.length = 12 + name.length + 1 := by omega
    rw [here, update_self]
    rfl
  rw [update_self, first, last, isLength, wire_labelsOf name]
  rfl

theorem query_wire_empty {ident : Nat} {type : UInt8} {q : Query}
    (made : ngxResolverCreateNameQuery memory ident type [] = some q) :
    q.size = 17 ∧ q.qlen = q.size % 65536 ∧ bytesAt q.query 12 1 = [0] := by
  obtain rfl := Option.some.inj made
  refine ⟨rfl, rfl, ?_⟩
  simp [bytesAt]

end Wire

section Reading

/-- What DNS allows for a label. -/
def GoodLabel (l : List UInt8) : Prop := 1 ≤ l.length ∧ l.length ≤ 63

variable {m : Message} {p src i : Nat} {steps : List Nat} {stop : Nat} {acc : Int}
variable {labels : List (List UInt8)}

theorem ofNat_small {n : Nat} (small : n ≤ 63) :
    (UInt8.ofNat n).toNat = n ∧ ¬isPointer (UInt8.ofNat n) := by
  have all : ∀ n : Fin 64, (UInt8.ofNat n.val).toNat = n.val ∧ ¬isPointer (UInt8.ofNat n.val) := by
    decide +kernel
  exact all ⟨n, by omega⟩

theorem measureLoop_of_name (name : Name m p steps stop) (short : steps.length < i)
    (inside : ∀ q ∈ steps, next m q < m.last) :
    (measureLoop m i p acc).2 = .done (acc + size m steps) := by
  induction name generalizing i acc with
  | @done p here =>
    obtain ⟨j, rfl⟩ : ∃ j, i = j + 1 := ⟨i - 1, by omega⟩
    rw [measureLoop]
    dsimp only
    rw [if_pos here]
    simp [size]
  | @step p stop steps onward rest ih =>
    obtain ⟨j, rfl⟩ : ∃ j, i = j + 1 := ⟨i - 1, by omega⟩
    obtain ⟨first, others⟩ := List.forall_mem_cons.mp inside
    have below : ¬next m p ≥ m.last := by omega
    have later := fun acc => @ih j acc (Nat.lt_of_succ_lt_succ short) others
    rw [measureLoop, size_cons]
    dsimp only
    rw [if_neg onward]
    by_cases pointer : isPointer (m.buf p)
    · have isNext : next m p = target m (m.buf p) (p + 1) := if_pos pointer
      rw [if_pos pointer, if_pos pointer, ← isNext, if_neg below, Nat.zero_add]
      exact later acc
    · have isNext : next m p = p + 1 + (m.buf p).toNat := if_neg pointer
      rw [if_neg pointer, if_neg pointer, ← isNext, if_neg below]
      rw [later]
      congr 1
      push_cast
      omega

theorem name_of_wire (good : ∀ l ∈ labels, GoodLabel l)
    (here : bytesAt m.buf p ((wire labels).length + 1) = wire labels ++ [0]) :
    ∃ steps, Name m p steps (p + (wire labels).length) ∧ steps.length = labels.length ∧
      (∀ q ∈ steps, ¬isPointer (m.buf q) ∧ next m q ≤ p + (wire labels).length) ∧
      text m steps = [dot].intercalate labels := by
  induction labels generalizing p with
  | nil =>
    have zero : m.buf p = 0 := (List.cons.inj here).1
    exact ⟨[], Walk.done zero, rfl, fun q member => (List.not_mem_nil member).elim, rfl⟩
  | cons l labels ih =>
    obtain ⟨goodL, goodRest⟩ := List.forall_mem_cons.mp good
    obtain ⟨isLength, noPointer⟩ := ofNat_small goodL.2
    have total : (wire (l :: labels)).length = l.length + (wire labels).length + 1 := by
      rw [wire_cons, List.length_cons, List.length_append]
    rw [total, bytesAt_succ, wire_cons, List.cons_append] at here
    obtain ⟨byte, rest⟩ := List.cons.inj here
    rw [Nat.add_assoc, bytesAt_add, List.append_assoc] at rest
    have sizes : (bytesAt m.buf (p + 1) l.length).length = l.length := by simp [bytesAt]
    obtain ⟨isLabel, behind⟩ := List.append_inj rest sizes
    have isNext : next m p = p + 1 + l.length := by
      rw [next, byte, if_neg noPointer, isLength]
    obtain ⟨steps, name, count, inside, isText⟩ := ih goodRest behind
    have onward : m.buf p ≠ 0 := by
      intro zero
      rw [byte] at zero
      have none := congrArg UInt8.toNat zero
      rw [isLength] at none
      have positive := goodL.1
      have : l.length = 0 := none
      omega
    have stops : p + (wire (l :: labels)).length = p + 1 + l.length + (wire labels).length := by
      rw [total]
      omega
    rw [stops]
    refine ⟨p :: steps, Walk.step onward (by rw [isNext]; exact name), by simp [count],
      List.forall_mem_cons.mpr ⟨⟨by rw [byte]; exact noPointer, by rw [isNext]; omega⟩, inside⟩, ?_⟩
    have isCopied : label m (p + 1) (m.buf p) = l := by
      rw [label, byte, isLength]
      exact isLabel
    have noSteps : steps = [] ↔ labels = [] := by
      rw [← List.length_eq_zero_iff, ← List.length_eq_zero_iff, count]
    rw [text, byte, if_neg noPointer, ← byte, isCopied, isText]
    by_cases last : labels = []
    · rw [if_pos (noSteps.mpr last), last, List.intercalate_singleton, List.append_nil]
    · rw [if_neg (fun none => last (noSteps.mp none)), List.intercalate_cons_of_ne_nil last]
      simp

theorem few_of_copy (good : ∀ l ∈ labels, GoodLabel l)
    (here : bytesAt m.buf src ((wire labels).length + 1) = wire labels ++ [0]) {copy : Copy}
    (isCopy : ngxResolverCopy 128 m true src = some copy) (ok : copy.ok = true) :
    labels.length ≤ 127 := by
  obtain ⟨steps, name, count, _, _⟩ := name_of_wire good here
  unfold ngxResolverCopy at isCopy
  generalize isMeasured : measureLoop m 128 src (-1) = loop at isCopy
  obtain ⟨reads, result⟩ := loop
  cases result with
  | done len =>
    obtain ⟨others, other, another, short, _⟩ := measureLoop_name isMeasured
    rw [(name.unique another).1, count] at short
    exact Nat.le_of_lt_succ short
  | outOfResponse =>
    obtain rfl := Option.some.inj isCopy
    cases ok
  | pointersLoop =>
    obtain rfl := Option.some.inj isCopy
    cases ok

theorem copy_of_wire (good : ∀ l ∈ labels, GoodLabel l)
    (here : bytesAt m.buf src ((wire labels).length + 1) = wire labels ++ [0])
    (inside : src + (wire labels).length < m.last) (few : labels.length ≤ 127) :
    ∃ copy, ngxResolverCopy 128 m true src = some copy ∧ copy.ok = true ∧
      copy.written = [dot].intercalate labels := by
  obtain ⟨steps, name, count, plain, isText⟩ := name_of_wire good here
  have nextInside : ∀ q ∈ steps, next m q < m.last := fun q member => by
    have bound := (plain q member).2
    omega
  have measured := @measureLoop_of_name m src 128 steps _ (-1) name (by omega) nextInside
  unfold ngxResolverCopy
  generalize measureLoop m 128 src (-1) = loop at measured
  obtain ⟨reads, result⟩ := loop
  obtain rfl : result = .done (-1 + size m steps) := measured
  dsimp only
  by_cases none : steps = []
  · have noLabels : labels = [] := by
      rw [none, List.length_nil] at count
      exact List.length_eq_zero_iff.mp count.symm
    rw [if_pos (Or.inr (by rw [none]; rfl)), noLabels]
    exact ⟨_, rfl, rfl, rfl⟩
  · have positive : size m steps ≠ 0 := by
      rw [ne_eq, size_eq_zero]
      intro all
      obtain ⟨q, rest, rfl⟩ := List.exists_cons_of_ne_nil none
      exact (plain q List.mem_cons_self).1 (all q List.mem_cons_self)
    have goes : ¬(true = false ∨ -1 + (size m steps : Int) = -1) := by
      rintro (absurd | absurd)
      · cases absurd
      · omega
    obtain ⟨more, copied, _⟩ := @copyLoop_name m src _ 128 steps name none (by omega)
    rw [if_neg goes, copied]
    exact ⟨_, rfl, rfl, isText⟩

end Reading

section Lengths

variable {labels others : List (List UInt8)}

theorem length_of_mem_labelsOf {name : List UInt8} : ∀ l ∈ labelsOf name, l.length ≤ name.length := by
  induction name with
  | nil =>
    intro l member
    rw [List.mem_singleton.mp member]
    exact Nat.le_refl 0
  | cons c rest ih =>
    intro l member
    rw [labelsOf, Lib.Segments.splitOn_eq_first] at member
    rcases List.mem_cons.mp member with rfl | later
    · exact (List.takeWhile_prefix _).length_le
    · rw [Lib.Segments.tail_splitOn_cons] at later
      have shorter := fun inside => Nat.le_succ_of_le (ih l inside)
      split at later
      · exact shorter later
      · exact shorter (List.mem_of_mem_tail later)

theorem labelsOf_intercalate_short {bound : Nat} (short : ∀ l ∈ labels, l.length ≤ bound) :
    ∀ l ∈ labelsOf ([dot].intercalate labels), l.length ≤ bound := by
  induction labels with
  | nil =>
    intro l member
    rw [List.mem_singleton.mp member]
    exact Nat.zero_le bound
  | cons first labels ih =>
    obtain ⟨shortFirst, shortRest⟩ := List.forall_mem_cons.mp short
    by_cases last : labels = []
    · rw [last, List.intercalate_singleton]
      exact fun l member => Nat.le_trans (length_of_mem_labelsOf l member) shortFirst
    · have shape : [dot].intercalate (first :: labels) = first ++ dot :: [dot].intercalate labels := by
        rw [List.intercalate_cons_of_ne_nil last]
        simp
      rw [shape, labelsOf, List.splitOn_append_cons_self]
      intro l member
      rcases List.mem_append.mp member with inFirst | later
      · exact Nat.le_trans (length_of_mem_labelsOf l inFirst) shortFirst
      · exact ih shortRest l later

theorem wire_injective (short : ∀ l ∈ labels, l.length ≤ 63) (shortOthers : ∀ l ∈ others, l.length ≤ 63)
    (same : wire labels = wire others) : labels = others := by
  induction labels generalizing others with
  | nil =>
    cases others with
    | nil => rfl
    | cons l others =>
      rw [wire_cons] at same
      cases same
  | cons l labels ih =>
    cases others with
    | nil =>
      rw [wire_cons] at same
      cases same
    | cons k others =>
      obtain ⟨shortL, shortRest⟩ := List.forall_mem_cons.mp short
      obtain ⟨shortK, shortLater⟩ := List.forall_mem_cons.mp shortOthers
      rw [wire_cons, wire_cons] at same
      obtain ⟨byte, rest⟩ := List.cons.inj same
      have length := congrArg UInt8.toNat byte
      rw [(ofNat_small shortL).1, (ofNat_small shortK).1] at length
      obtain ⟨isLabel, behind⟩ := List.append_inj rest length
      rw [isLabel, ih shortRest shortLater behind]

theorem wire_length_le (short : ∀ l ∈ labels, l.length ≤ 63) :
    (wire labels).length ≤ 64 * labels.length := by
  induction labels with
  | nil => exact Nat.le_refl 0
  | cons l labels ih =>
    obtain ⟨shortL, shortRest⟩ := List.forall_mem_cons.mp short
    have rest := ih shortRest
    rw [wire_cons, List.length_cons, List.length_append, List.length_cons]
    omega

end Lengths

/-- The question is a DNS name, `qlen` is what was written, and the name can be read back. -/
def QueryGood (q : Query) (name : List UInt8) : Prop :=
  (∃ labels, (∀ l ∈ labels, GoodLabel l) ∧
      bytesAt q.query 12 (q.size - 16) = wire labels ++ [0]) ∧ q.qlen = q.size ∧
    ∃ copy, ngxResolverCopy 128 ⟨q.query, q.qlen⟩ true 12 = some copy ∧ copy.ok = true ∧
      copy.written = name

/-- A query is good exactly when its name is empty or has at most 127 labels, of 1 to 63 bytes each. -/
theorem create_name_query_good_iff (memory : Nat → UInt8) (ident : Nat) (type : UInt8)
    (name : List UInt8) (q : Query)
    (made : ngxResolverCreateNameQuery memory ident type name = some q) :
    QueryGood q name ↔
      name = [] ∨ ((∀ l ∈ labelsOf name, GoodLabel l) ∧ (labelsOf name).length ≤ 127) := by
  by_cases empty : name = []
  · subst empty
    obtain ⟨isSize, isQlen, bytes⟩ := query_wire_empty made
    rw [isSize] at isQlen
    have here : bytesAt q.query 12 ((wire []).length + 1) = wire [] ++ [0] := bytes
    have inside : 12 + (wire []).length < (Message.mk q.query q.qlen).last := by
      show 12 < q.qlen
      omega
    have read := @copy_of_wire ⟨q.query, q.qlen⟩ 12 [] (by simp) here inside (Nat.zero_le _)
    refine iff_of_true ⟨⟨[], by simp, ?_⟩, by omega, read⟩ (Or.inl rfl)
    rw [isSize]
    exact here
  · obtain ⟨isSize, isQlen, bytes⟩ := query_wire empty made
    have whole : q.size - 16 = name.length + 2 := by omega
    have length := wire_length name
    have joined : [dot].intercalate (labelsOf name) = name := List.intercalate_splitOn dot
    have room : ∀ labels, wire labels = wire (labelsOf name) → q.qlen = q.size →
        bytesAt q.query 12 ((wire labels).length + 1) = wire labels ++ [0] ∧
          12 + (wire labels).length < (Message.mk q.query q.qlen).last := by
      intro labels same fits
      rw [same, length]
      refine ⟨bytes, ?_⟩
      show 12 + (name.length + 1) < q.qlen
      omega
    constructor
    · rintro ⟨⟨labels, good, isWire⟩, fits, read⟩
      rw [whole, bytes] at isWire
      have same : wire labels = wire (labelsOf name) := (List.append_cancel_right isWire).symm
      obtain ⟨here, inside⟩ := room labels same fits
      have short : ∀ l ∈ labels, l.length ≤ 63 := fun l member => (good l member).2
      have few : labels.length ≤ 127 := by
        obtain ⟨copy, isCopy, ok, _⟩ := read
        exact few_of_copy good here isCopy ok
      obtain ⟨copy, isCopy, ok, isText⟩ := copy_of_wire good here inside few
      obtain ⟨other, isOther, _, isName⟩ := read
      obtain rfl : copy = other := Option.some.inj (isCopy.symm.trans isOther)
      rw [isText] at isName
      have pieces := labelsOf_intercalate_short short
      rw [isName] at pieces
      have isLabels := wire_injective short pieces same
      rw [← isLabels]
      exact Or.inr ⟨good, few⟩
    · rintro (absurd | ⟨good, few⟩)
      · exact (empty absurd).elim
      · have bound := wire_length_le fun l member => (good l member).2
        have fits : q.qlen = q.size := by omega
        obtain ⟨here, inside⟩ := room _ rfl fits
        obtain ⟨copy, isCopy, ok, isText⟩ := copy_of_wire good here inside few
        refine ⟨⟨labelsOf name, good, ?_⟩, fits, copy, isCopy, ok, isText.trans joined⟩
        rw [whole]
        exact bytes

/-- A leading dot makes an empty label, which ends the question. -/
theorem create_name_query_leading_dot :
    ∃ q, ngxResolverCreateNameQuery (fun _ => 0xff) 7 1 [dot, chr 'a'] = some q ∧
      bytesAt q.query 12 4 = [0, 1, chr 'a', 0] ∧ ¬QueryGood q [dot, chr 'a'] := by
  have isSome : (ngxResolverCreateNameQuery (fun _ => 0xff) 7 1 [dot, chr 'a']).isSome = true := by
    decide +kernel
  obtain ⟨q, made⟩ := Option.isSome_iff_exists.mp isSome
  have bytes : (ngxResolverCreateNameQuery (fun _ => 0xff) 7 1 [dot, chr 'a']).map
      (fun q => bytesAt q.query 12 4) = some [0, 1, chr 'a', 0] := by decide +kernel
  have read : (ngxResolverCreateNameQuery (fun _ => 0xff) 7 1 [dot, chr 'a']).map
      (fun q => (ngxResolverCopy 128 ⟨q.query, q.qlen⟩ true 12).map Copy.written) =
        some (some []) := by decide +kernel
  rw [made] at bytes read
  refine ⟨q, made, Option.some.inj bytes, ?_⟩
  rintro ⟨_, _, copy, isCopy, _, isName⟩
  have written := Option.some.inj read
  dsimp only at written
  rw [isCopy, Option.map_some, isName] at written
  cases written

theorem create_name_query_good_two :
    ∃ q, ngxResolverCreateNameQuery (fun _ => 0xff) 7 1 [chr 'a', dot, chr 'b'] = some q ∧
      QueryGood q [chr 'a', dot, chr 'b'] := by
  have isSome : (ngxResolverCreateNameQuery (fun _ => 0xff) 7 1
      [chr 'a', dot, chr 'b']).isSome = true := by decide +kernel
  obtain ⟨q, made⟩ := Option.isSome_iff_exists.mp isSome
  refine ⟨q, made, (create_name_query_good_iff _ 7 1 _ q made).mpr (Or.inr ?_)⟩
  have isLabels : labelsOf [chr 'a', dot, chr 'b'] = [[chr 'a'], [chr 'b']] := by decide
  rw [isLabels]
  refine ⟨?_, by decide⟩
  simp [GoodLabel]

end NgxFormal.Core.Resolver
