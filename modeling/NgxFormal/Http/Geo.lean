import NgxFormal.Lib.Ranges
import NgxFormal.Lib.Runs

/-! The range table of the geo module: `ngx_http_geo_add_range` while the configuration is
read, the copy made at the end of `ngx_http_geo_block`, and `ngx_http_geo_range_variable`.

Addresses are host-order `in_addr_t` values, kept as naturals below `2^32`. -/

namespace NgxFormal.Http.Geo

open Lib

variable {V : Type}

/-- `ngx_http_geo_range_t`; the source calls the upper end `end`. -/
abbrev GeoRange (V : Type) := Labelled V

def uShort (n : Nat) : Nat := n % 0x10000

/-- The report of `ngx_conf_log_error` when a new range cuts an old one:
the slot and the bounds of the old range. -/
structure Overlaps where
  h : Nat
  s : Nat
  e : Nat
  deriving DecidableEq, Repr

/-- `ctx->high.low`: `none` is a `NULL` slot, `some` an `ngx_array_t` of ranges. -/
abbrev Low (V : Type) := Nat → Option (List (GeoRange V))

/-- The backward scan over one slot. `before` holds the ranges still to visit, nearest first,
and `after` those already passed, so the array is always `before.reverse ++ after`. -/
def scanSlot (h s e : Nat) (value : V) :
    List (GeoRange V) → List (GeoRange V) → Except Overlaps (List (GeoRange V))
  | [], after =>
    -- the loop ran out: ngx_array_push() appends behind everything passed
    .ok (after ++ [⟨uShort s, uShort e, value⟩])
  | range :: before, after =>
    if e < range.start then
      scanSlot h s e value before (range :: after)
    else if range.stop < s then
      .ok (before.reverse ++ range :: ⟨uShort s, uShort e, value⟩ :: after)
    else if s = range.start ∧ e = range.stop then
      .ok (before.reverse ++ { range with value := value } :: after)
    else if range.start < s ∧ e < range.stop then
      .ok (before.reverse ++ { range with stop := uShort (s - 1) } ::
        ⟨uShort s, uShort e, value⟩ :: { range with start := uShort (e + 1) } :: after)
    else if s = range.start ∧ e < range.stop then
      .ok (before.reverse ++ ⟨uShort s, uShort e, value⟩ ::
        { range with start := uShort (e + 1) } :: after)
    else if range.start < s ∧ e = range.stop then
      .ok (before.reverse ++ { range with stop := uShort (s - 1) } ::
        ⟨uShort s, uShort e, value⟩ :: after)
    else
      .error ⟨h, range.start, range.stop⟩

def addSlot (low : Low V) (h s e : Nat) (value : V) : Except Overlaps (Low V) :=
  -- a NULL slot gets a fresh empty array first
  let a := (low h).getD []
  match scanSlot h s e value a.reverse [] with
  | .ok a' => .ok fun slot => if slot = h then some a' else low slot
  | .error overlap => .error overlap

/-- The bounds of the piece of `start-end` that the iteration at address `n` adds. -/
def pieceStart (start n : Nat) : Nat := if n = start then n &&& 0xffff else 0

def pieceEnd (stop n : Nat) : Nat := if (n ||| 0xffff) > stop then stop &&& 0xffff else 0xffff

/-- `n = (n + 0x10000) & 0xffff0000` on a 32-bit `in_addr_t`. -/
def nextSlot (n : Nat) : Nat := (n + 0x10000) % 2 ^ 32 &&& 0xffff0000

/-- The slot loop. `none` means that the loop is still running when the fuel is spent. -/
def addLoop (start stop : Nat) (value : V) :
    Nat → Nat → Low V → Option (Except Overlaps (Low V))
  | 0, _, _ => none
  | fuel + 1, n, low =>
    if n ≤ stop then
      match addSlot low (n >>> 16) (pieceStart start n) (pieceEnd stop n) value with
      | .ok low' => addLoop start stop value fuel (nextSlot n) low'
      | .error overlap => some (.error overlap)
    else some (.ok low)

/-- Enough for one visit of every slot and the final test of the loop. -/
def slotFuel : Nat := 0x10001

def ngxHttpGeoAddRange (low : Low V) (start stop : Nat) (value : V) :
    Option (Except Overlaps (Low V)) :=
  addLoop start stop value slotFuel start low

/-- What `ctx.high.low[i]` points to after `ngx_http_geo_block`: nothing, the copy with its
terminating `NULL` value, or still the empty `ngx_array_t`, which the copy loop skips. -/
inductive FinalSlot (V : Type) where
  | null
  | ranges (list : List (GeoRange V))
  | array
  deriving Repr

def ngxHttpGeoBlock (low : Low V) (slot : Nat) : FinalSlot V :=
  match low slot with
  | none => .null
  | some [] => .array
  | some (range :: rest) => .ranges (range :: rest)

/-- `none` stands for a read through a slot that still points to an `ngx_array_t`. -/
def ngxHttpGeoRangeVariable (table : Nat → FinalSlot V) (defaultValue : V) (addr : Nat) :
    Option V :=
  match table (addr >>> 16) with
  | .null => some defaultValue
  | .ranges list => some ((firstHit list (addr &&& 0xffff)).getD defaultValue)
  | .array => none

/-- A directive that passed `ngx_http_geo_range`: it refuses `start > end`. -/
structure RangeDirective (V : Type) where
  start : Nat
  stop : Nat
  value : V
  ordered : start ≤ stop

/-- One directive; `none` unless `NGX_CONF_OK` is returned. -/
def accept (low : Low V) (directive : RangeDirective V) : Option (Low V) :=
  match ngxHttpGeoAddRange low directive.start directive.stop directive.value with
  | some (.ok low') => some low'
  | _ => none

def emptyLow : Low V := fun _ => none

end NgxFormal.Http.Geo

/-! One 64K slot: what the backward scan of `ngx_http_geo_add_range` does to a sorted array. -/

namespace NgxFormal.Http.Geo

open Lib

variable {V : Type}

theorem uShort_of_le {n : Nat} (small : n ≤ 0xffff) : uShort n = n :=
  Nat.mod_eq_of_lt (by omega)

/-- Replacing `old` by `mid` in the middle of a list relabels exactly `[s, e]`. -/
theorem firstHit_replace (front mid old after : List (GeoRange V)) (s e : Nat) (value : V)
    (relabels : ∀ n, firstHit mid n =
      if s ≤ n ∧ n ≤ e then some value else firstHit old n)
    (clear : ∀ range ∈ front, range.stop < s) (n : Nat) :
    firstHit (front ++ (mid ++ after)) n =
      if s ≤ n ∧ n ≤ e then some value else firstHit (front ++ (old ++ after)) n := by
  rw [firstHit_append, firstHit_append, firstHit_append front, firstHit_append old, relabels n]
  by_cases inside : s ≤ n ∧ n ≤ e
  · have missed : firstHit front n = none := by
      apply firstHit_above
      intro range member
      have := clear range member
      omega
    rw [missed, if_pos inside, if_pos inside]
    rfl
  · rw [if_neg inside, if_neg inside]

/-- Ordered pieces that stay within the span of `old` can take its place. -/
theorem ordered_replace {front mid after : List (GeoRange V)} {range : GeoRange V} {lo hi : Nat}
    (ordered : Ordered 0xffff (front ++ range :: after))
    (orderedMid : Ordered 0xffff mid)
    (within : ∀ piece ∈ mid, lo ≤ piece.start ∧ piece.stop ≤ hi)
    (low : ∀ first ∈ front, first.stop < lo)
    (high : ∀ last ∈ after, hi < last.start) :
    Ordered 0xffff (front ++ (mid ++ after)) := by
  have parts := ordered_append.mp ordered
  have tail := ordered_cons.mp parts.2.1
  refine ordered_append.mpr ⟨parts.1, ordered_append.mpr ⟨orderedMid, tail.2.1, ?_⟩, ?_⟩
  · intro piece member last inAfter
    have := (within piece member).2
    have := high last inAfter
    omega
  · intro first inFront second member
    rcases List.mem_append.mp member with inMid | inAfter
    · have := (within second inMid).1
      have := low first inFront
      omega
    · exact parts.2.2 first inFront second (List.mem_cons_of_mem range inAfter)

/-- A slot whose array is sorted and disjoint, and in which the labels of `[s, e]` changed. -/
structure Relabelled (old new : List (GeoRange V)) (s e : Nat) (value : V) : Prop where
  ordered : Ordered 0xffff new
  labels : ∀ n, firstHit new n = if s ≤ n ∧ n ≤ e then some value else firstHit old n

section Pieces

variable {front after mid : List (GeoRange V)} {range : GeoRange V} {s e : Nat} {value : V}

theorem relabelled_replace (ordered : Ordered 0xffff (front ++ range :: after))
    (orderedMid : Ordered 0xffff mid)
    (within : ∀ piece ∈ mid, range.start ≤ piece.start ∧ piece.stop ≤ max range.stop e)
    (starts : range.start ≤ s) (passed : ∀ later ∈ after, e < later.start)
    (relabels : ∀ n, firstHit mid n =
      if s ≤ n ∧ n ≤ e then some value else firstHit [range] n) :
    Relabelled (front ++ range :: after) (front ++ (mid ++ after)) s e value := by
  have parts := ordered_append.mp ordered
  have tail := ordered_cons.mp parts.2.1
  constructor
  · apply ordered_replace ordered orderedMid within
    · intro first member
      exact parts.2.2 first member range List.mem_cons_self
    · intro last member
      have := tail.2.2 last member
      have := passed last member
      omega
  · intro n
    apply firstHit_replace front mid [range] after s e value relabels
    intro first member
    have := parts.2.2 first member range List.mem_cons_self
    omega

end Pieces

/-- The scan over a sorted slot. `passed` is the loop invariant: everything already visited
lies above the new range. -/
theorem scanSlot_relabels (h s e : Nat) (value : V) (proper : s ≤ e) (bound : e ≤ 0xffff)
    (before after result : List (GeoRange V))
    (ordered : Ordered 0xffff (before.reverse ++ after))
    (passed : ∀ later ∈ after, e < later.start)
    (reachable : (∃ range ∈ before, range.start ≤ e) ∨ (before = [] ∧ after = []))
    (scanned : scanSlot h s e value before after = .ok result) :
    Relabelled (before.reverse ++ after) result s e value := by
  have hs := uShort_of_le (n := s) (by omega)
  have he := uShort_of_le (n := e) bound
  induction before generalizing after with
  | nil =>
    rcases reachable with ⟨range, member, _⟩ | ⟨_, rfl⟩
    · exact absurd member List.not_mem_nil
    · simp only [scanSlot, List.nil_append, Except.ok.injEq] at scanned
      subst scanned
      rw [hs, he]
      refine ⟨ordered_cons.mpr ⟨⟨proper, bound⟩, ordered_nil _, by simp⟩, ?_⟩
      intro n
      rfl
  | cons range before ih =>
    have shape : (range :: before).reverse ++ after = before.reverse ++ range :: after := by
      simp
    rw [shape] at ordered ⊢
    have own := ordered.proper range (by simp)
    have hstart := uShort_of_le (n := s - 1) (by omega)
    have hstop (less : e < range.stop) := uShort_of_le (n := e + 1) (by omega)
    rw [scanSlot] at scanned
    by_cases above : e < range.start
    · rw [if_pos above] at scanned
      apply ih (range :: after) ordered
      · intro later member
        rcases List.mem_cons.mp member with rfl | inAfter
        · exact above
        · exact passed later inAfter
      · rcases reachable with ⟨other, member, reach⟩ | ⟨empty, _⟩
        · rcases List.mem_cons.mp member with rfl | inBefore
          · omega
          · exact Or.inl ⟨other, inBefore, reach⟩
        · simp at empty
      · exact scanned
    · rw [if_neg above, hs, he, hstart] at scanned
      by_cases behind : range.stop < s
      · rw [if_pos behind] at scanned
        simp only [Except.ok.injEq] at scanned
        subst scanned
        apply @relabelled_replace _ _ _ [range, ⟨s, e, value⟩] _ _ _ _ ordered
        · exact ordered_cons.mpr ⟨own,
            ordered_cons.mpr ⟨⟨proper, bound⟩, ordered_nil _, by simp⟩, by simpa using behind⟩
        · simp only [List.mem_cons, List.not_mem_nil, or_false]
          rintro piece (rfl | rfl)
          · omega
          · dsimp only
            omega
        · omega
        · exact passed
        · intro n
          simp only [firstHit_cons, firstHit_nil]
          split_ifs <;> first | rfl | omega
      · rw [if_neg behind] at scanned
        -- from here on the new range meets `range`
        split_ifs at scanned with same inner head last
        · simp only [Except.ok.injEq] at scanned
          subst scanned
          apply @relabelled_replace _ _ _ [{ range with value := value }] _ _ _ _ ordered
          · exact ordered_cons.mpr ⟨own, ordered_nil _, by simp⟩
          · simp only [List.mem_cons, List.not_mem_nil, or_false]
            rintro piece rfl
            dsimp only
            omega
          · omega
          · exact passed
          · intro n
            simp only [firstHit_cons, firstHit_nil]
            split_ifs <;> first | rfl | omega
        · rw [hstop inner.2] at scanned
          simp only [Except.ok.injEq] at scanned
          subst scanned
          apply @relabelled_replace _ _ _ [{ range with stop := s - 1 }, ⟨s, e, value⟩,
            { range with start := e + 1 }] _ _ _ _ ordered
          · refine ordered_cons.mpr ⟨by dsimp only; omega, ordered_cons.mpr
              ⟨⟨proper, bound⟩, ordered_cons.mpr
                ⟨by dsimp only; omega, ordered_nil _, by simp⟩, by simp⟩, ?_⟩
            simp only [List.mem_cons, List.not_mem_nil, or_false]
            rintro other (rfl | rfl) <;> dsimp only <;> omega
          · simp only [List.mem_cons, List.not_mem_nil, or_false]
            rintro piece (rfl | rfl | rfl) <;> dsimp only <;> omega
          · omega
          · exact passed
          · intro n
            simp only [firstHit_cons, firstHit_nil]
            split_ifs <;> first | rfl | omega
        · rw [hstop head.2] at scanned
          simp only [Except.ok.injEq] at scanned
          subst scanned
          apply @relabelled_replace _ _ _ [⟨s, e, value⟩, { range with start := e + 1 }] _ _ _ _
            ordered
          · exact ordered_cons.mpr ⟨⟨proper, bound⟩, ordered_cons.mpr
              ⟨by dsimp only; omega, ordered_nil _, by simp⟩, by simp⟩
          · simp only [List.mem_cons, List.not_mem_nil, or_false]
            rintro piece (rfl | rfl) <;> dsimp only <;> omega
          · omega
          · exact passed
          · intro n
            simp only [firstHit_cons, firstHit_nil]
            split_ifs <;> first | rfl | omega
        · simp only [Except.ok.injEq] at scanned
          subst scanned
          apply @relabelled_replace _ _ _ [{ range with stop := s - 1 }, ⟨s, e, value⟩] _ _ _ _
            ordered
          · refine ordered_cons.mpr ⟨by dsimp only; omega, ordered_cons.mpr
              ⟨⟨proper, bound⟩, ordered_nil _, by simp⟩, ?_⟩
            simp only [List.mem_cons, List.not_mem_nil, or_false]
            rintro other rfl
            dsimp only
            omega
          · simp only [List.mem_cons, List.not_mem_nil, or_false]
            rintro piece (rfl | rfl) <;> dsimp only <;> omega
          · omega
          · exact passed
          · intro n
            simp only [firstHit_cons, firstHit_nil]
            split_ifs <;> first | rfl | omega

theorem scanSlot_below (h s e : Nat) (value : V) (before after : List (GeoRange V))
    (below : ∀ range ∈ before, e < range.start) :
    scanSlot h s e value before after =
      .ok (before.reverse ++ after ++ [⟨uShort s, uShort e, value⟩]) := by
  induction before generalizing after with
  | nil => rfl
  | cons range before ih =>
    rw [scanSlot, if_pos (below range List.mem_cons_self),
      ih (range :: after) (fun other member => below other (List.mem_cons_of_mem range member))]
    simp

end NgxFormal.Http.Geo
