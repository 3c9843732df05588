import NgxFormal.Core.Utf8Length

/-! `ngx_utf8_cpystrn`, and what it and `ngx_utf8_length` do exactly. -/

namespace NgxFormal.Core.Utf8

open Lib.Utf8 Lib.Window

/-- `while (--n)`, with the bytes at `dst` so far: those written at last, and how far the source is
read. -/
def copyLoop (mem : Nat → UInt8) : Nat → Nat → Nat → List UInt8 → Nat → List UInt8 × Nat
  | 0, _, _, out, reached => (out ++ [0], reached)
  | n + 1, src, len, out, reached =>
    let c := mem src
    let reached := max reached (src + 1)
    if c < 0x80 then
      if c ≠ 0 then copyLoop mem n (src + 1) (sizeSub len 1) (out ++ [c]) reached
      else (out ++ [c], reached)
    else
      let (value, next) := ngxUtf8DecodeAt mem src len
      let reached := max reached next
      if lastPoint < value then (out ++ [0], reached)
      else copyLoop mem n next (sizeSub len (next - src)) (out ++ window mem src next) reached

/-- `ngx_utf8_cpystrn` from the bytes at 0 -/
def ngxUtf8Cpystrn (mem : Nat → UInt8) (n len : Nat) : List UInt8 × Nat :=
  if n = 0 then ([], 0) else copyLoop mem (n - 1) 0 len [] 0

def Ended (text : List UInt8) : Prop :=
  ∀ piece more, Looks piece → piece ≠ [0] → text ≠ piece ++ more

/-- What the turns leave of the `n - 1` characters and of the `len` bytes. -/
def Copied (n : Nat) (out text : List UInt8) (last : Nat) (result : List UInt8 × Nat) : Prop :=
  ∃ (pieces : List (List UInt8)) (rest : List UInt8), text = pieces.flatten ++ rest ∧
    (∀ piece ∈ pieces, Looks piece ∧ piece ≠ [0]) ∧ pieces.length ≤ n ∧
    ((result = (out ++ pieces.flatten ++ [0], result.2) ∧ result.2 ≤ last ∧
        (pieces.length = n ∨ rest ≠ [] ∧ Ended rest)) ∨
      (rest = [] ∧ pieces.length < n ∧ last < result.2))

section Copy

variable {mem : Nat → UInt8} {n : Nat} {out text : List UInt8} {last : Nat}
  {result : List UInt8 × Nat}

theorem Copied.step {piece : List UInt8} (looks : Looks piece) (more : piece ≠ [0])
    (copied : Copied n (out ++ piece) text last result) :
    Copied (n + 1) out (piece ++ text) last result := by
  obtain ⟨pieces, rest, split, all, few, ends⟩ := copied
  refine ⟨piece :: pieces, rest, ?_, List.forall_mem_cons.mpr ⟨⟨looks, more⟩, all⟩, ?_, ?_⟩
  · rw [split, List.flatten_cons, List.append_assoc]
  · exact Nat.succ_le_succ few
  · rw [List.flatten_cons, ← List.append_assoc, List.length_cons]
    rcases ends with ⟨bytes, inside, stop⟩ | ⟨empty, less, beyond⟩
    · exact Or.inl ⟨bytes, inside, stop.imp_left (congrArg (· + 1))⟩
    · exact Or.inr ⟨empty, Nat.succ_lt_succ less, beyond⟩

theorem Copied.stop {reached : Nat} (ended : Ended text) (some_ : text ≠ []) (inside : reached ≤ last) :
    Copied n out text last (out ++ [0], reached) :=
  ⟨[], text, rfl, fun _ member => absurd member List.not_mem_nil, Nat.zero_le n,
    Or.inl ⟨by rw [List.flatten_nil, List.append_nil], inside, Or.inr ⟨some_, ended⟩⟩⟩

theorem copyLoop_reached (n src len : Nat) (out : List UInt8) (reached : Nat) :
    reached ≤ (copyLoop mem n src len out reached).2 ∧
      (0 < n → src + 1 ≤ (copyLoop mem n src len out reached).2) := by
  induction n generalizing src len out reached with
  | zero => exact ⟨Nat.le_refl reached, fun none_ => absurd none_ (Nat.lt_irrefl 0)⟩
  | succ n ih =>
    have both : ∀ src' len' out' reached', max reached (src + 1) ≤ reached' →
        reached ≤ (copyLoop mem n src' len' out' reached').2 ∧
          (0 < n + 1 → src + 1 ≤ (copyLoop mem n src' len' out' reached').2) := by
      intro src' len' out' reached' further
      have kept := (ih src' len' out' reached').1
      exact ⟨by omega, fun _ => by omega⟩
    rw [copyLoop]
    dsimp only
    by_cases low : mem src < 0x80
    · rw [if_pos low]
      by_cases zero : mem src = 0
      · rw [if_neg (not_not.mpr zero)]
        exact ⟨Nat.le_max_left _ _, fun _ => Nat.le_max_right _ _⟩
      · rw [if_pos zero]
        exact both _ _ _ _ (Nat.le_refl _)
    · rw [if_neg low]
      by_cases error : lastPoint < (ngxUtf8DecodeAt mem src len).1
      · rw [if_pos error]
        exact ⟨by omega, fun _ => by omega⟩
      · rw [if_neg error]
        exact both _ _ _ _ (Nat.le_max_left _ _)

theorem sizeSub_of_le {n k : Nat} (le : k ≤ n) : sizeSub n k = n - k := if_pos le

theorem copyLoop_copied (n src len : Nat) (out : List UInt8) :
    Copied n out (window mem src (src + len)) (src + len) (copyLoop mem n src len out src) := by
  induction n generalizing src len out with
  | zero =>
    exact ⟨[], _, rfl, fun _ member => absurd member List.not_mem_nil, Nat.le_refl 0,
      Or.inl ⟨by rw [copyLoop, List.flatten_nil, List.append_nil], Nat.le_add_right src len,
        Or.inl rfl⟩⟩
  | succ n ih =>
    by_cases left : len = 0
    · subst left
      exact ⟨[], [], window_empty (Nat.le_refl _), fun _ member => absurd member List.not_mem_nil,
        Nat.zero_le _, Or.inr ⟨rfl, Nat.succ_pos n,
          (copyLoop_reached (n + 1) src 0 out src).2 (Nat.succ_pos n)⟩⟩
    · have further : ∀ moved, 1 ≤ moved → moved ≤ len →
          Looks ((window mem src (src + len)).take moved) →
          (window mem src (src + len)).take moved ≠ [0] →
          Copied (n + 1) out (window mem src (src + len)) (src + len)
            (copyLoop mem n (src + moved) (sizeSub len moved)
              (out ++ (window mem src (src + len)).take moved) (src + moved)) := by
        intro moved _ inside looks some_
        have next := ih (src + moved) (len - moved)
          (out ++ (window mem src (src + len)).take moved)
        have split := List.take_append_drop moved (window mem src (src + len))
        have last : src + moved + (len - moved) = src + len := by omega
        rw [window_drop (by omega)] at split
        rw [last, ← sizeSub_of_le inside] at next
        have copied := next.step looks some_
        rw [split] at copied
        exact copied
      have whole : window mem src (src + len) =
          mem src :: window mem (src + 1) (src + len) := window_cons (by omega)
      rw [copyLoop, Nat.max_eq_right (Nat.le_succ src)]
      dsimp only
      by_cases low : mem src < 0x80
      · have first : (window mem src (src + len)).take 1 = [mem src] := by
          rw [whole, List.take_succ_cons, List.take_zero]
        rw [if_pos low]
        by_cases zero : mem src = 0
        · rw [if_neg (not_not.mpr zero), zero]
          refine Copied.stop ?_ (by rw [whole]; exact List.cons_ne_nil _ _) (by omega)
          intro piece more looks some_ starts
          rw [whole, zero] at starts
          have one : Looks [(0 : UInt8)] := looks_low (by decide)
          exact some_ (looks_unique one looks starts).1.symm
        · rw [if_pos zero, ← first]
          apply further 1 (Nat.le_refl 1) (by omega)
          · rw [first]
            exact looks_low low
          · rw [first]
            exact fun same => zero (List.head_eq_of_cons_eq same)
      · have high := UInt8.not_lt.mp low
        have moved := decode_moved (window mem src (src + len))
        rw [window_length, Nat.add_sub_cancel_left] at moved
        rw [if_neg low, decodeAt_window (by omega)]
        by_cases error : lastPoint < (ngxUtf8Decode (window mem src (src + len))).1
        · rw [if_pos error]
          refine Copied.stop ?_ (by rw [whole]; exact List.cons_ne_nil _ _) (by dsimp only; omega)
          intro piece more looks _
          rw [whole] at error ⊢
          exact stuck_of_decode high error piece more looks
        · rw [if_neg error]
          have found := @looks_of_decode (mem src) (window mem (src + 1) (src + len))
          rw [← whole] at found
          obtain ⟨looks, some_, _⟩ := found (Nat.le_of_not_lt error)
          generalize (ngxUtf8Decode (window mem src (src + len))).2 = count at looks some_ moved ⊢
          have passed : max (src + 1) (src + count) = src + count := by omega
          dsimp only
          rw [passed, Nat.add_sub_cancel_left,
            ← window_take (by omega : src + count ≤ src + len)]
          apply further count some_ moved looks
          rw [whole, List.take_cons some_]
          intro same
          have zero : mem src = 0 := List.head_eq_of_cons_eq same
          rw [zero] at high
          exact absurd high (by decide)

end Copy

/-- What `ngx_utf8_cpystrn` should do: copy fewer than `n` whole characters from the front of the
source and a NUL, four bytes for each at most, and read `len` bytes only. -/
structure Copies (Valid : Nat → Prop) (mem : Nat → UInt8) (n len : Nat) : Prop where
  whole : ∃ (points : List Nat) (more : List UInt8), window mem 0 len = points.flatMap encode ++ more ∧
    (∀ cp ∈ points, cp ≤ lastPoint ∧ Valid cp) ∧
    (ngxUtf8Cpystrn mem n len).1 = (if n = 0 then [] else points.flatMap encode ++ [0]) ∧
    points.length ≤ n - 1
  space : (ngxUtf8Cpystrn mem n len).1.length ≤ 4 * (n - 1) + 1
  inside : (ngxUtf8Cpystrn mem n len).2 ≤ len

/-- The source has a NUL, a wrong sequence or `n - 1` characters, and what passes for a character
of those to copy is one. -/
structure Terminated (Valid : Nat → Prop) (n : Nat) (text : List UInt8) : Prop where
  ends : ∀ pieces : List (List UInt8), text = pieces.flatten →
    (∀ piece ∈ pieces, Looks piece ∧ piece ≠ [0]) → n - 1 ≤ pieces.length
  genuine : ∀ (pieces : List (List UInt8)) rest, text = pieces.flatten ++ rest →
    pieces.length ≤ n - 1 → (∀ piece ∈ pieces, Looks piece ∧ piece ≠ [0]) →
      ∀ piece ∈ pieces, Genuine Valid piece

section Copying

variable {Valid : Nat → Prop} {mem : Nat → UInt8} {n len : Nat} {pieces pieces' : List (List UInt8)}
  {rest rest' : List UInt8}

theorem pieces_start (looks : ∀ piece ∈ pieces, Looks piece ∧ piece ≠ [0])
    (looks' : ∀ piece ∈ pieces', Looks piece ∧ piece ≠ [0])
    (stop : pieces'.length ≤ pieces.length ∨ Ended rest)
    (same : pieces.flatten ++ rest = pieces'.flatten ++ rest') : pieces' <+: pieces := by
  induction pieces' generalizing pieces with
  | nil => exact List.nil_prefix
  | cons piece' pieces' ih =>
    have first := looks' piece' List.mem_cons_self
    rw [List.flatten_cons, List.append_assoc] at same
    cases pieces with
    | nil =>
      rcases stop with few | ended
      · exact absurd few (by simp)
      · exact absurd same (ended piece' _ first.1 first.2)
    | cons piece pieces =>
      rw [List.flatten_cons, List.append_assoc] at same
      obtain ⟨rfl, others⟩ := looks_unique (looks piece List.mem_cons_self).1 first.1 same
      have shorter := ih (fun p member => looks p (List.mem_cons_of_mem _ member))
        (fun p member => looks' p (List.mem_cons_of_mem _ member))
        (stop.imp_left Nat.le_of_succ_le_succ) others
      exact (List.prefix_cons_inj piece).mpr shorter

theorem flatten_length_le_four (looks : ∀ piece ∈ pieces, Looks piece ∧ piece ≠ [0]) :
    pieces.flatten.length ≤ 4 * pieces.length := by
  induction pieces with
  | nil => exact Nat.le_refl 0
  | cons piece pieces ih =>
    have count := ih fun p member => looks p (List.mem_cons_of_mem _ member)
    have four := (looks piece List.mem_cons_self).1.length.2
    rw [List.flatten_cons, List.length_append, List.length_cons]
    omega

theorem ended_nil : Ended [] := fun piece more looks _ => stuck_nil piece more looks

/-- The run of `ngx_utf8_cpystrn`. -/
theorem cpystrn_copied (some_ : n ≠ 0) :
    Copied (n - 1) [] (window mem 0 len) len (ngxUtf8Cpystrn mem n len) := by
  have copied := @copyLoop_copied mem (n - 1) 0 len []
  rw [Nat.zero_add] at copied
  rw [ngxUtf8Cpystrn, if_neg some_]
  exact copied

theorem copies_of_terminated (terminated : Terminated Valid n (window mem 0 len)) (some_ : n ≠ 0) :
    Copies Valid mem n len := by
  obtain ⟨pieces, rest, split, looks, few, ends⟩ := @cpystrn_copied mem n len some_
  rcases ends with ⟨bytes, inside, _⟩ | ⟨rfl, less, _⟩
  · have written : (ngxUtf8Cpystrn mem n len).1 = pieces.flatten ++ [0] := by
      rw [bytes, List.nil_append]
    obtain ⟨points, ⟨spelled, small⟩, valid⟩ :=
      genuine_points (terminated.genuine pieces rest split few looks)
    refine ⟨⟨points, rest, ?_, fun cp member => ⟨small cp member, valid cp member⟩, ?_, ?_⟩, ?_, inside⟩
    · rw [split, spelled]
    · rw [written, spelled, if_neg some_]
    · have stands : Spells (pieces.flatten ++ []) points := by
        rw [List.append_nil]
        exact ⟨spelled, small⟩
      rw [(spells_pieces (fun p member => (looks p member).1) stuck_nil stands).1,
        List.length_map] at few
      exact few
    · have total := flatten_length_le_four looks
      rw [written, List.length_append, List.length_singleton]
      omega
  · rw [List.append_nil] at split
    have full := terminated.ends pieces split looks
    omega

theorem terminated_of_copies (copies : Copies Valid mem n len) (some_ : n ≠ 0) :
    Terminated Valid n (window mem 0 len) := by
  obtain ⟨pieces, rest, split, looks, few, ends⟩ := @cpystrn_copied mem n len some_
  have read := copies.inside
  rcases ends with ⟨bytes, inside, stop⟩ | ⟨rfl, less, beyond⟩
  · obtain ⟨points, more, _, valid, written, _⟩ := copies.whole
    have spelled : pieces.flatten = points.flatMap encode := by
      rw [bytes, if_neg some_, List.nil_append] at written
      exact (List.append_inj' written rfl).1
    have stands : Spells (pieces.flatten ++ []) points := by
      rw [List.append_nil]
      exact ⟨spelled, fun cp member => (valid cp member).1⟩
    have genuine : ∀ piece ∈ pieces, Genuine Valid piece := by
      rw [(spells_pieces (fun p member => (looks p member).1) stuck_nil stands).1]
      exact points_genuine (fun cp member => (valid cp member).1) fun cp member => (valid cp member).2
    constructor
    · intro pieces' split' looks'
      rcases stop with full | ⟨nonempty, ended⟩
      · have same : pieces'.flatten ++ [] = pieces.flatten ++ rest := by
          rw [List.append_nil, ← split, ← split']
        rw [← full]
        exact (pieces_start looks' looks (Or.inr ended_nil) same).length_le
      · have same : pieces.flatten ++ rest = pieces'.flatten ++ [] := by
          rw [List.append_nil, ← split, ← split']
        obtain ⟨last, rfl⟩ := pieces_start looks' looks (Or.inr ended_nil) same.symm
        obtain ⟨last', others⟩ := pieces_start looks looks' (Or.inr ended) same
        have none_ := congrArg List.length others
        rw [List.length_append, List.length_append] at none_
        obtain rfl : last = [] := List.length_eq_zero_iff.mp (by omega)
        rw [List.append_nil, List.append_nil] at same
        have empty := congrArg List.length same
        rw [List.length_append] at empty
        exact absurd (List.length_eq_zero_iff.mp (by omega)) nonempty
    · intro pieces' rest' split' few' looks'
      have shorter : pieces' <+: pieces := by
        apply pieces_start looks looks' _ (split.symm.trans split')
        exact stop.imp (fun full => by omega) And.right
      exact fun piece member => genuine piece (shorter.subset member)
  · exact absurd read (Nat.not_le.mpr beyond)

/-- `ngx_utf8_cpystrn` does so if and only if the source is terminated. -/
theorem copies_iff : Copies Valid mem n len ↔ n = 0 ∨ Terminated Valid n (window mem 0 len) := by
  by_cases none_ : n = 0
  · subst none_
    refine iff_of_true ?_ (Or.inl rfl)
    exact ⟨⟨[], window mem 0 len, rfl, by simp, rfl, Nat.le_refl 0⟩, Nat.zero_le _, Nat.zero_le _⟩
  · constructor
    · intro copies
      exact Or.inr (terminated_of_copies copies none_)
    · intro either
      exact copies_of_terminated (either.resolve_left none_) none_

end Copying

/-- `ngx_utf8_length` counts the characters if and only if what passes for text is text and no
sequence is cut off that the decoder is told to be whole, and `ngx_utf8_cpystrn` copies whole
characters if and only if the source ends in time. The same holds where surrogates are no code
points. -/
theorem utf8_strings_iff (mem : Nat → UInt8) (n len : Nat) :
    ((Counts (fun _ => True) mem n ↔ Sound (fun _ => True) n (window mem 0 n)) ∧
      (Counts (¬ Surrogate ·) mem n ↔ Sound (¬ Surrogate ·) n (window mem 0 n))) ∧
    (Copies (fun _ => True) mem n len ↔
      n = 0 ∨ Terminated (fun _ => True) n (window mem 0 len)) ∧
    (Copies (¬ Surrogate ·) mem n len ↔
      n = 0 ∨ Terminated (¬ Surrogate ·) n (window mem 0 len)) := by
  refine ⟨⟨counts_iff fun _ _ => trivial, counts_iff ?_⟩, copies_iff, copies_iff⟩
  intro cp low surrogate
  have above : 0xd800 ≤ cp := surrogate.1
  omega

/-- A letter and the first byte of two, with the second one behind the string; and a source without
a NUL. -/
theorem utf8_strings_fail :
    ngxUtf8Length (fun i => [0x61, 0xc3, 0xa9].getD i 0) 2 = (2, 3) ∧
    ngxUtf8Cpystrn (fun i => [0x61, 0x62].getD i 0) 3 1 = ([0x61, 0x62, 0], 2) ∧
    ¬ Counts (fun _ => True) (fun i => [0x61, 0xc3, 0xa9].getD i 0) 2 ∧
    ¬ Copies (fun _ => True) (fun i => [0x61, 0x62].getD i 0) 3 1 := by
  have length : ngxUtf8Length (fun i => [0x61, 0xc3, 0xa9].getD i 0) 2 = (2, 3) := by decide
  have copied : ngxUtf8Cpystrn (fun i => [0x61, 0x62].getD i 0) 3 1 = ([0x61, 0x62, 0], 2) := by
    decide
  refine ⟨length, copied, fun counts => ?_, fun copies => ?_⟩
  · have inside := counts.inside
    rw [length] at inside
    exact absurd inside (by decide)
  · have inside := copies.inside
    rw [copied] at inside
    exact absurd inside (by decide)

end NgxFormal.Core.Utf8
