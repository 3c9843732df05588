import NgxFormal.Basic
import NgxFormal.Lib.Ring
import NgxFormal.Lib.Window

/-! `ngx_resolver_copy`: the name at an offset of a DNS message, measured by one loop and copied by
another. -/

namespace NgxFormal.Core.Resolver

open Lib

/-- `buf` and `&buf[last]`; behind the message there is other memory. -/
structure Message where
  buf : Nat → UInt8
  last : Nat

def dot : UInt8 := chr '.'

/-- `n & 0xc0` -/
def isPointer (n : UInt8) : Prop := n &&& 0xc0 ≠ 0

instance (n : UInt8) : Decidable (isPointer n) := inferInstanceAs (Decidable (_ ≠ _))

/-- `((n & 0x3f) << 8) + *p` -/
def target (m : Message) (n : UInt8) (p : Nat) : Nat :=
  ((n &&& 0x3f).toNat <<< 8) + (m.buf p).toNat

inductive Measured where
  | done (len : Int)
  | outOfResponse
  | pointersLoop
  deriving DecidableEq, Repr

/-- The first loop, with the offsets that it reads. -/
def measureLoop (m : Message) : Nat → Nat → Int → List Nat × Measured
  | 0, _, _ => ([], .pointersLoop)
  | i + 1, p, len =>
    let n := m.buf p
    if n = 0 then ([p], .done len)
    else if isPointer n then
      let next := target m n (p + 1)
      if next ≥ m.last then ([p, p + 1], .outOfResponse)
      else
        let (reads, measured) := measureLoop m i next len
        (p :: (p + 1) :: reads, measured)
    else
      let next := p + 1 + n.toNat
      if next ≥ m.last then ([p], .outOfResponse)
      else
        let (reads, measured) := measureLoop m i next (len + (1 + n.toNat))
        (p :: reads, measured)

/-- The bytes that `ngx_memcpy` takes from `src`. -/
def label (m : Message) (src : Nat) (n : UInt8) : List UInt8 := (List.range' src n.toNat).map m.buf

/-- The second loop: the offsets that it reads, and the bytes that it writes from `dst` on. -/
def copyLoop (m : Message) : Nat → UInt8 → Nat → Option (List Nat × List UInt8)
  | 0, _, _ => none
  | turns + 1, n, src =>
    if isPointer n then
      let next := target m n src
      if m.buf next = 0 then some ([src, next], [])
      else
        (copyLoop m turns (m.buf next) (next + 1)).map fun (reads, written) =>
          (src :: next :: reads, written)
    else
      let next := src + n.toNat
      let reads := List.range' src n.toNat ++ [next]
      if m.buf next = 0 then some (reads, label m src n)
      else
        (copyLoop m turns (m.buf next) (next + 1)).map fun (more, written) =>
          (reads ++ more, label m src n ++ dot :: written)

/-- A call of `ngx_resolver_copy`: the offsets that it reads, the size of `dst`, the bytes that are
written there, and whether it returns `NGX_OK`. -/
structure Copy where
  reads : List Nat
  room : Nat
  written : List UInt8
  ok : Bool
  deriving Repr, DecidableEq

/-- `named` is `name != NULL`; `none` is a second loop that goes on for longer than `turns`. -/
def ngxResolverCopy (turns : Nat) (m : Message) (named : Bool) (src : Nat) : Option Copy :=
  let (reads, measured) := measureLoop m 128 src (-1)
  match measured with
  | .done len =>
    if named = false ∨ len = -1 then some ⟨reads, 0, [], true⟩
    else
      (copyLoop m turns (m.buf src) (src + 1)).map fun (more, written) =>
        ⟨reads ++ src :: more, len.toNat, written, true⟩
  | _ => some ⟨reads, 0, [], false⟩

section Names

/-- The byte behind a label, or the byte that a pointer leads to. -/
def next (m : Message) (p : Nat) : Nat :=
  if isPointer (m.buf p) then target m (m.buf p) (p + 1) else p + 1 + (m.buf p).toNat

/-- The offsets of the labels and pointers of the name at `p`, and of the zero byte behind them. -/
abbrev Name (m : Message) : Nat → List Nat → Nat → Prop := Walk (fun p => m.buf p = 0) (next m)

/-- What the first loop adds to `len`. -/
def size (m : Message) (steps : List Nat) : Nat :=
  (steps.map fun p => if isPointer (m.buf p) then 0 else 1 + (m.buf p).toNat).sum

/-- The text of a name: each label, and a dot unless the zero byte is behind it. -/
def text (m : Message) : List Nat → List UInt8
  | [] => []
  | p :: rest =>
    if isPointer (m.buf p) then text m rest
    else label m (p + 1) (m.buf p) ++ if rest = [] then [] else dot :: text m rest

/-- Both bytes of each pointer are in the message. -/
def PointersInside (m : Message) (steps : List Nat) : Prop :=
  ∀ p ∈ steps, isPointer (m.buf p) → p + 1 < m.last

/-- The zero byte is behind a label, or there is no label. -/
def EndsBehindLabel (m : Message) (steps : List Nat) : Prop :=
  (∀ p ∈ steps, isPointer (m.buf p)) ∨ ∃ p ∈ steps.getLast?, ¬isPointer (m.buf p)

variable {m : Message} {p stop i turns : Nat} {steps : List Nat} {acc len : Int} {reads : List Nat}

theorem size_cons (m : Message) (p : Nat) (steps : List Nat) : size m (p :: steps) =
    (if isPointer (m.buf p) then 0 else 1 + (m.buf p).toNat) + size m steps := by
  rw [size, size, List.map_cons, List.sum_cons]

theorem measureLoop_name (measured : measureLoop m i p acc = (reads, .done len)) :
    ∃ steps stop, Name m p steps stop ∧ steps.length < i ∧ (∀ q ∈ steps, next m q < m.last) ∧
      len = acc + size m steps ∧
      ∀ a, a ∈ reads ↔ a ∈ steps ∨ a = stop ∨ ∃ q ∈ steps, isPointer (m.buf q) ∧ a = q + 1 := by
  induction i generalizing p acc reads with
  | zero => cases measured
  | succ i ih =>
    rw [measureLoop] at measured
    by_cases zero : m.buf p = 0
    · rw [if_pos zero] at measured
      obtain ⟨rfl, isDone⟩ := Prod.mk.inj measured
      obtain rfl := Measured.done.inj isDone
      refine ⟨[], p, Walk.done zero, Nat.succ_pos i, by simp, by simp [size], by simp⟩
    · rw [if_neg zero] at measured
      by_cases pointer : isPointer (m.buf p)
      · have isNext : next m p = target m (m.buf p) (p + 1) := if_pos pointer
        rw [if_pos pointer, ← isNext] at measured
        dsimp only at measured
        split at measured
        · cases measured
        · rename_i inside
          generalize isRest : measureLoop m i (next m p) acc = rest at measured
          obtain ⟨more, result⟩ := rest
          obtain ⟨rfl, rfl⟩ := Prod.mk.inj measured
          obtain ⟨steps, stop, name, short, bounds, isLen, isReads⟩ := ih isRest
          refine ⟨p :: steps, stop, Walk.step zero name, Nat.succ_lt_succ short,
            List.forall_mem_cons.mpr ⟨by omega, bounds⟩, ?_, ?_⟩
          · rw [size_cons, if_pos pointer, Nat.zero_add]
            exact isLen
          · intro a
            simp only [List.mem_cons, isReads, exists_eq_or_imp, pointer, true_and, or_assoc,
              or_left_comm]
      · have isNext : next m p = p + 1 + (m.buf p).toNat := if_neg pointer
        rw [if_neg pointer, ← isNext] at measured
        dsimp only at measured
        split at measured
        · cases measured
        · rename_i inside
          generalize isRest : measureLoop m i (next m p) (acc + (1 + (m.buf p).toNat)) = rest
            at measured
          obtain ⟨more, result⟩ := rest
          obtain ⟨rfl, rfl⟩ := Prod.mk.inj measured
          obtain ⟨steps, stop, name, short, bounds, isLen, isReads⟩ := ih isRest
          refine ⟨p :: steps, stop, Walk.step zero name, Nat.succ_lt_succ short,
            List.forall_mem_cons.mpr ⟨by omega, bounds⟩, ?_, ?_⟩
          · rw [size_cons, if_neg pointer, isLen]
            push_cast
            omega
          · intro a
            simp only [List.mem_cons, isReads, exists_eq_or_imp, pointer, false_and, false_or,
              or_assoc]

theorem label_length (m : Message) (src : Nat) (n : UInt8) : (label m src n).length = n.toNat := by
  simp [label]

theorem copyLoop_name (name : Name m p steps stop) (nonempty : steps ≠ [])
    (enough : steps.length ≤ turns) :
    ∃ reads, copyLoop m turns (m.buf p) (p + 1) = some (reads, text m steps) ∧
      ((∀ q ∈ steps, next m q < m.last) → PointersInside m steps → ∀ a ∈ reads, a < m.last) := by
  induction turns generalizing p steps with
  | zero => exact (nonempty (List.length_eq_zero_iff.mp (Nat.le_zero.mp enough))).elim
  | succ turns ih =>
    cases name with
    | done => exact (nonempty rfl).elim
    | step onward rest =>
      rename_i later
      have atNext : m.buf (next m p) = 0 ↔ later = [] := by
        constructor
        · intro zero
          have here : Name m (next m p) [] (next m p) := Walk.done zero
          exact (here.unique rest).1
        · rintro rfl
          cases rest with
          | done here => exact here
      rw [copyLoop]
      by_cases pointer : isPointer (m.buf p)
      · have isNext : next m p = target m (m.buf p) (p + 1) := if_pos pointer
        have bothInside : next m p < m.last → PointersInside m (p :: later) →
            ∀ a ∈ [p + 1, next m p], a < m.last := by
          intro inside pointers
          have second := pointers p List.mem_cons_self pointer
          simp only [List.mem_cons, List.not_mem_nil, or_false]
          rintro a (rfl | rfl)
          · exact second
          · exact inside
        rw [if_pos pointer, ← isNext, text, if_pos pointer]
        dsimp only
        by_cases last : later = []
        · rw [if_pos (atNext.mpr last), last]
          exact ⟨_, rfl, fun inside pointers =>
            bothInside (inside p List.mem_cons_self) (by rw [last]; exact pointers)⟩
        · rw [if_neg (fun zero => last (atNext.mp zero))]
          obtain ⟨reads, copied, bounds⟩ := ih rest last (Nat.le_of_succ_le_succ enough)
          rw [copied]
          refine ⟨_, rfl, fun inside pointers => ?_⟩
          obtain ⟨first, others⟩ := List.forall_mem_cons.mp inside
          have readBelow := bounds others
            fun q member => pointers q (List.mem_cons_of_mem p member)
          have both := bothInside first pointers
          intro a member
          rcases List.mem_append.mp (show a ∈ [p + 1, next m p] ++ reads from member) with
            here | behind
          · exact both a here
          · exact readBelow a behind
      · have isNext : next m p = p + 1 + (m.buf p).toNat := if_neg pointer
        have labelInside : next m p < m.last →
            ∀ a ∈ List.range' (p + 1) (m.buf p).toNat ++ [next m p], a < m.last := by
          intro inside a member
          rcases List.mem_append.mp member with inLabel | behind
          · have bound := List.mem_range'_1.mp inLabel
            omega
          · rw [List.mem_singleton.mp behind]
            exact inside
        rw [if_neg pointer, ← isNext, text, if_neg pointer]
        dsimp only
        by_cases last : later = []
        · rw [if_pos (atNext.mpr last), if_pos last, List.append_nil]
          exact ⟨_, rfl, fun inside _ => labelInside (inside p List.mem_cons_self)⟩
        · rw [if_neg (fun zero => last (atNext.mp zero)), if_neg last]
          obtain ⟨reads, copied, bounds⟩ := ih rest last (Nat.le_of_succ_le_succ enough)
          rw [copied]
          refine ⟨_, rfl, fun inside pointers => ?_⟩
          obtain ⟨first, others⟩ := List.forall_mem_cons.mp inside
          have readBelow := bounds others
            fun q member => pointers q (List.mem_cons_of_mem p member)
          intro a member
          rcases List.mem_append.mp member with here | behind
          · exact labelInside first a here
          · exact readBelow a behind

theorem size_eq_zero : size m steps = 0 ↔ ∀ q ∈ steps, isPointer (m.buf q) := by
  induction steps with
  | nil => simp [size]
  | cons q steps ih =>
    rw [size_cons, Nat.add_eq_zero_iff, ih, List.forall_mem_cons]
    by_cases pointer : isPointer (m.buf q)
    · simp [pointer]
    · simp [pointer]

theorem text_length (nonempty : steps ≠ []) : (text m steps).length +
    (if ∃ q ∈ steps.getLast?, ¬isPointer (m.buf q) then 1 else 0) = size m steps := by
  induction steps with
  | nil => exact (nonempty rfl).elim
  | cons q rest ih =>
    rw [size_cons, text]
    by_cases last : rest = []
    · subst last
      by_cases pointer : isPointer (m.buf q)
      · simp [pointer, text, size]
      · simp [pointer, label_length, size]
        omega
    · have sameLast : (q :: rest).getLast? = rest.getLast? := by
        obtain ⟨r, later, rfl⟩ := List.exists_cons_of_ne_nil last
        rfl
      have length := ih last
      rw [sameLast]
      by_cases pointer : isPointer (m.buf q)
      · rw [if_pos pointer, if_pos pointer, Nat.zero_add]
        exact length
      · rw [if_neg pointer, if_neg pointer, if_neg last, List.length_append, List.length_cons,
          label_length]
        omega

end Names

/-- The second loop ends, what it writes fits into `dst`, and both loops read the message only. -/
def CopySafe (m : Message) (src : Nat) : Prop :=
  ∃ copy, ngxResolverCopy 128 m true src = some copy ∧ copy.ok = true ∧
    copy.written.length ≤ copy.room ∧ ∀ a ∈ copy.reads, a < m.last

/-- Once the first loop has succeeded, the call is safe exactly when the name starts in the message,
each of its pointers is there with both bytes, and the zero byte is not behind a last pointer. -/
theorem resolver_copy_safe_iff (m : Message) (src : Nat) (len : Int)
    (measured : (measureLoop m 128 src (-1)).2 = .done len) :
    CopySafe m src ↔ src < m.last ∧ ∀ steps stop, Name m src steps stop →
      PointersInside m steps ∧ EndsBehindLabel m steps := by
  obtain ⟨steps, stop, name, short, inside, isLen, isReads⟩ :=
    measureLoop_name (Prod.ext rfl measured : measureLoop m 128 src (-1) = (_, .done len))
  have only : (∀ others other, Name m src others other →
      PointersInside m others ∧ EndsBehindLabel m others) ↔
        PointersInside m steps ∧ EndsBehindLabel m steps := by
    constructor
    · exact fun all => all steps stop name
    · intro here others other another
      rw [(name.unique another).1]
      exact here
  rw [only]
  have readInside : (∀ a ∈ (measureLoop m 128 src (-1)).1, a < m.last) ↔
      src < m.last ∧ PointersInside m steps := by
    constructor
    · intro bounds
      constructor
      · cases name with
        | done => exact bounds src ((isReads src).mpr (Or.inr (Or.inl rfl)))
        | step => exact bounds src ((isReads src).mpr (Or.inl List.mem_cons_self))
      · intro q member pointer
        exact bounds (q + 1) ((isReads _).mpr (Or.inr (Or.inr ⟨q, member, pointer, rfl⟩)))
    · rintro ⟨start, pointers⟩ a member
      obtain ⟨visited, stopped⟩ := name.within (fun q => q < m.last) start inside
      rcases (isReads a).mp member with here | rfl | ⟨q, here, pointer, rfl⟩
      · exact visited a here
      · exact stopped
      · exact pointers q here pointer
  unfold CopySafe ngxResolverCopy
  generalize isMeasured : measureLoop m 128 src (-1) = loop at measured readInside
  obtain ⟨reads, result⟩ := loop
  obtain rfl : result = .done len := measured
  dsimp only at readInside ⊢
  by_cases none : size m steps = 0
  · have isNone : len = -1 := by omega
    rw [if_pos (Or.inr isNone)]
    constructor
    · rintro ⟨copy, isCopy, _, _, bounds⟩
      obtain rfl := Option.some.inj isCopy
      obtain ⟨start, pointers⟩ := readInside.mp bounds
      exact ⟨start, pointers, Or.inl (size_eq_zero.mp none)⟩
    · rintro ⟨start, pointers, _⟩
      exact ⟨_, rfl, rfl, Nat.le_refl 0, readInside.mpr ⟨start, pointers⟩⟩
  · have isSome : ¬(true = false ∨ len = -1) := by
      rintro (absurd | absurd)
      · cases absurd
      · omega
    have nonempty : steps ≠ [] := by
      rintro rfl
      exact none rfl
    obtain ⟨more, copied, moreInside⟩ := copyLoop_name name nonempty (Nat.le_of_lt short)
    have length := @text_length m steps nonempty
    have room : len.toNat + 1 = size m steps := by omega
    have notPointers : ¬∀ q ∈ steps, isPointer (m.buf q) := fun all => none (size_eq_zero.mpr all)
    rw [if_neg isSome, copied]
    constructor
    · rintro ⟨copy, isCopy, _, fits, bounds⟩
      obtain rfl := Option.some.inj isCopy
      obtain ⟨start, pointers⟩ := readInside.mp fun a member =>
        bounds a (List.mem_append_left _ member)
      refine ⟨start, pointers, Or.inr ?_⟩
      by_contra exceeds
      rw [if_neg exceeds] at length
      dsimp only at fits
      omega
    · rintro ⟨start, pointers, all | labelled⟩
      · exact (notPointers all).elim
      · rw [if_pos labelled] at length
        refine ⟨_, rfl, rfl, ?_, ?_⟩
        · show (text m steps).length ≤ len.toNat
          omega
        · intro a member
          rcases List.mem_append.mp member with first | second
          · exact readInside.mpr ⟨start, pointers⟩ a first
          · rcases List.mem_cons.mp second with rfl | later
            · exact start
            · exact moreInside inside pointers a later

/-- A message of some bytes; the memory behind it happens to hold zeros. -/
def Message.of (bytes : List UInt8) : Message := ⟨fun i => bytes.getD i 0, bytes.length⟩

/-- A header of zero bytes, and `www` in front of a pointer to the last of them. -/
def danglingName : Message :=
  .of (List.replicate 12 0 ++ [3, chr 'w', chr 'w', chr 'w', 0xc0, 0x0b])

/-- `www.` is written into three bytes. -/
theorem resolver_copy_overruns :
    (measureLoop danglingName 128 12 (-1)).2 = .done 3 ∧
      (ngxResolverCopy 128 danglingName true 12).map (fun copy => (copy.room, copy.written)) =
        some (3, [chr 'w', chr 'w', chr 'w', dot]) ∧ ¬CopySafe danglingName 12 := by
  have copied : (ngxResolverCopy 128 danglingName true 12).map
      (fun copy => (copy.room, copy.written)) = some (3, [chr 'w', chr 'w', chr 'w', dot]) := by
    decide +kernel
  refine ⟨by decide +kernel, copied, ?_⟩
  rintro ⟨copy, isCopy, _, fits, _⟩
  rw [isCopy] at copied
  obtain ⟨room, written⟩ := Prod.mk.inj (Option.some.inj copied)
  rw [room, written] at fits
  exact absurd fits (by decide)

/-- The same name with its zero byte behind it. -/
def plainName : Message :=
  .of (List.replicate 12 0 ++ [3, chr 'w', chr 'w', chr 'w', 0])

theorem resolver_copy_safe_plain : CopySafe plainName 12 := by
  have name : Name plainName 12 [12] 16 :=
    Walk.step (by decide) (Walk.done (by decide))
  refine (resolver_copy_safe_iff plainName 12 3 (by decide +kernel)).mpr ⟨by decide, ?_⟩
  intro steps stop other
  rw [(name.unique other).1]
  refine ⟨?_, Or.inr ⟨12, rfl, by decide⟩⟩
  intro p member pointer
  obtain rfl := List.mem_singleton.mp member
  exact absurd pointer (by decide)

end NgxFormal.Core.Resolver

/-! The search of the resend queue for a response with the code `NGX_RESOLVE_FORMERR`, in
`ngx_resolver_process_response`. -/

namespace NgxFormal.Core.Resolver

open Lib.Ring

/-- `r->name_resend_queue`: its nodes in order, and the first two bytes of a node's query. What is
around the sentinel, which is no node, is read in the same way. -/
structure ResendQueue (ρ : Type) where
  sentinel : ρ
  nodes : List ρ
  next : ρ → ρ
  prev : ρ → ρ
  query : ρ → UInt8 × UInt8
  linked : Chain next prev sentinel sentinel nodes
  apart : sentinel ∉ nodes

/-- The number of times that the sentinel is let through. -/
def maxTimes : Nat := 100

section Search

variable {ρ : Type} [DecidableEq ρ]

def ResendQueue.qident (queue : ResendQueue ρ) (q : ρ) : Nat :=
  ((queue.query q).1.toNat <<< 8) + (queue.query q).2.toNat

/-- The loop from `q` on: the places that it takes for nodes, and the one with the identifier. -/
def searchLoop (queue : ResendQueue ρ) (ident : Nat) : Nat → Nat → ρ → Option (List ρ × Option ρ)
  | 0, _, _ => none
  | turns + 1, times, q =>
    if q ≠ queue.sentinel ∨ times < maxTimes then
      if queue.qident q = ident then some ([q], some q)
      else
        (searchLoop queue ident turns (if q ≠ queue.sentinel then times else times + 1)
          (queue.next q)).map (Prod.map (q :: ·) id)
    else some ([], none)

/-- The search, from `ngx_queue_head` on. -/
def search (queue : ResendQueue ρ) (ident turns : Nat) : Option (List ρ × Option ρ) :=
  searchLoop queue ident turns 0 (queue.next queue.sentinel)

variable {queue : ResendQueue ρ} {ident turns times : Nat} {a q : ρ} {xs visited : List ρ}
  {found : Option ρ}

theorem searchLoop_node (inside : q ≠ queue.sentinel) (other : queue.qident q ≠ ident) :
    searchLoop queue ident (turns + 1) times q =
      (searchLoop queue ident turns times (queue.next q)).map
        (Prod.map (q :: ·) id) := by
  rw [searchLoop, if_pos (Or.inl inside), if_neg other, if_pos inside]

theorem searchLoop_found (inside : q ≠ queue.sentinel) (same : queue.qident q = ident) :
    searchLoop queue ident (turns + 1) times q = some ([q], some q) := by
  rw [searchLoop, if_pos (Or.inl inside), if_pos same]

theorem searchLoop_stops (linked : Chain queue.next queue.prev queue.sentinel a xs)
    (apart : queue.sentinel ∉ xs) (present : ∃ q ∈ xs, queue.qident q = ident) :
    ∃ turns visited found, searchLoop queue ident turns times (queue.next a) = some (visited, found) ∧
      visited <+: xs := by
  induction xs generalizing a with
  | nil =>
    obtain ⟨q, member, _⟩ := present
    exact (List.not_mem_nil member).elim
  | cons x xs ih =>
    obtain ⟨first, _, rest⟩ := linked
    have different := List.ne_of_not_mem_cons apart
    have apart := List.not_mem_of_not_mem_cons apart
    rw [first]
    by_cases same : queue.qident x = ident
    · exact ⟨1, [x], some x, searchLoop_found (Ne.symm different) same, xs, rfl⟩
    · obtain ⟨q, member, matched⟩ := present
      have later : q ∈ xs := by
        rcases List.mem_cons.mp member with here | later
        · rw [here] at matched
          exact (same matched).elim
        · exact later
      obtain ⟨turns, visited, found, stopped, before⟩ := ih rest apart ⟨q, later, matched⟩
      refine ⟨turns + 1, x :: visited, found, ?_, (List.prefix_cons_inj x).mpr before⟩
      rw [searchLoop_node (Ne.symm different) same, stopped]
      rfl

theorem searchLoop_passes (linked : Chain queue.next queue.prev queue.sentinel a xs)
    (apart : queue.sentinel ∉ xs) (missing : ∀ q ∈ xs, queue.qident q ≠ ident) (early : times < maxTimes)
    (stopped : searchLoop queue ident turns times (queue.next a) = some (visited, found)) :
    xs.length < visited.length := by
  induction xs generalizing a turns visited with
  | nil =>
    have ends : queue.next a = queue.sentinel := linked
    rw [ends] at stopped
    cases turns with
    | zero => cases stopped
    | succ turns =>
      rw [searchLoop, if_pos (Or.inr early)] at stopped
      split at stopped
      · obtain ⟨rfl, _⟩ := Prod.mk.inj (Option.some.inj stopped)
        exact Nat.one_pos
      · obtain ⟨later, _, shape⟩ := Option.map_eq_some_iff.mp stopped
        obtain ⟨rfl, _⟩ := Prod.mk.inj shape
        exact Nat.succ_pos _
  | cons x xs ih =>
    obtain ⟨first, _, rest⟩ := linked
    have different := List.ne_of_not_mem_cons apart
    have apart := List.not_mem_of_not_mem_cons apart
    obtain ⟨other, missing⟩ := List.forall_mem_cons.mp missing
    rw [first] at stopped
    cases turns with
    | zero => cases stopped
    | succ turns =>
      rw [searchLoop_node (Ne.symm different) other] at stopped
      obtain ⟨⟨others, result⟩, onward, shape⟩ := Option.map_eq_some_iff.mp stopped
      obtain ⟨rfl, rfl⟩ := Prod.mk.inj shape
      exact Nat.succ_lt_succ (ih rest apart missing onward)

/-- The search stops within one pass over the nodes of the queue, and sees nothing else. -/
def OnePass (queue : ResendQueue ρ) (ident : Nat) : Prop :=
  ∃ turns visited found, search queue ident turns = some (visited, found) ∧ visited <+: queue.nodes

/-- The search keeps to the queue exactly when a node waits for the identifier. -/
theorem one_pass_iff (queue : ResendQueue ρ) (ident : Nat) :
    OnePass queue ident ↔ ∃ q ∈ queue.nodes, queue.qident q = ident := by
  constructor
  · rintro ⟨turns, visited, found, stopped, before⟩
    by_contra absent
    have missing : ∀ q ∈ queue.nodes, queue.qident q ≠ ident := fun q member same =>
      absent ⟨q, member, same⟩
    have longer := searchLoop_passes queue.linked queue.apart missing (by decide) stopped
    exact absurd before.length_le (Nat.not_le_of_lt longer)
  · exact searchLoop_stops queue.linked queue.apart

end Search

/-- A queue without nodes, as after the last response. -/
def emptyQueue : ResendQueue Nat where
  sentinel := 0
  nodes := []
  next := fun _ => 0
  prev := fun _ => 0
  query := fun _ => (0, 0)
  linked := rfl
  apart := List.not_mem_nil

/-- Its sentinel is taken for a node. -/
theorem sentinel_searched :
    ¬∀ (queue : ResendQueue Nat) (ident : Nat), OnePass queue ident := by
  intro all
  obtain ⟨turns, visited, found, stopped, before⟩ := all emptyQueue 7
  have longer := searchLoop_passes emptyQueue.linked emptyQueue.apart
    (fun q member => (List.not_mem_nil member).elim) (by decide) stopped
  exact absurd before.length_le (Nat.not_le_of_lt longer)

end NgxFormal.Core.Resolver
