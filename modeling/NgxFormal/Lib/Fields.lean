import Mathlib.Algebra.Order.Ring.Int
import Mathlib.Data.List.Basic

/-! The number that a string of digits denotes in a positional system. -/

namespace NgxFormal.Lib.Digits

variable {α : Type} {base : Nat} {digit : α → Option Nat}

/-- The value of the digits of `text` behind those of `value`; `none` with something else. -/
def valueFrom (base : Nat) (digit : α → Option Nat) : Nat → List α → Option Nat
  | value, [] => some value
  | value, ch :: text =>
    match digit ch with
    | none => none
    | some d => valueFrom base digit (value * base + d) text

def value (base : Nat) (digit : α → Option Nat) (text : List α) : Option Nat :=
  valueFrom base digit 0 text

theorem valueFrom_append (start : Nat) (text more : List α) :
    valueFrom base digit start (text ++ more) =
      (valueFrom base digit start text).bind fun n => valueFrom base digit n more := by
  induction text generalizing start with
  | nil => rfl
  | cons ch text ih =>
    rw [List.cons_append, valueFrom, valueFrom]
    cases digit ch with
    | none => rfl
    | some d => exact ih _

theorem value_append (text more : List α) :
    value base digit (text ++ more) =
      (value base digit text).bind fun n => valueFrom base digit n more :=
  valueFrom_append 0 text more

theorem value_concat {text : List α} {ch : α} {n d : Nat} (number : value base digit text = some n)
    (last : digit ch = some d) : value base digit (text ++ [ch]) = some (n * base + d) := by
  rw [value_append, number, Option.bind_some]
  simp only [valueFrom, last]

theorem valueFrom_bad {start : Nat} {text : List α} {ch : α} (member : ch ∈ text)
    (bad : digit ch = none) : valueFrom base digit start text = none := by
  induction text generalizing start with
  | nil => exact absurd member List.not_mem_nil
  | cons first text ih =>
    rw [valueFrom]
    rcases List.mem_cons.mp member with same | later
    · rw [← same, bad]
    · cases digit first with
      | none => rfl
      | some d => exact ih later

theorem value_digits {text : List α} {n : Nat} (number : value base digit text = some n) :
    ∀ ch ∈ text, ∃ d, digit ch = some d := by
  intro ch member
  cases known : digit ch with
  | none =>
    rw [value, valueFrom_bad member known] at number
    exact absurd number (by simp)
  | some d => exact ⟨d, rfl⟩

theorem valueFrom_ne_none {start : Nat} {text : List α} (digits : ∀ ch ∈ text, digit ch ≠ none) :
    valueFrom base digit start text ≠ none := by
  induction text generalizing start with
  | nil => exact Option.some_ne_none start
  | cons ch text ih =>
    obtain ⟨first, rest⟩ := List.forall_mem_cons.mp digits
    obtain ⟨d, known⟩ := Option.ne_none_iff_exists'.mp first
    rw [valueFrom, known]
    exact ih rest

theorem value_ne_none {text : List α} (digits : ∀ ch ∈ text, digit ch ≠ none) :
    value base digit text ≠ none := valueFrom_ne_none digits

theorem valueFrom_lt (small : ∀ ch d, digit ch = some d → d < base) {start : Nat} {text : List α}
    {n : Nat} (number : valueFrom base digit start text = some n) :
    n < (start + 1) * base ^ text.length := by
  induction text generalizing start with
  | nil =>
    rw [← Option.some.inj number, List.length_nil, Nat.pow_zero, Nat.mul_one]
    exact Nat.lt_succ_self start
  | cons ch text ih =>
    rw [valueFrom] at number
    cases known : digit ch with
    | none =>
      rw [known] at number
      exact absurd number (by simp)
    | some d =>
      rw [known] at number
      have digits := ih number
      have bound : start * base + d + 1 ≤ (start + 1) * base := by
        have last := small ch d known
        rw [Nat.succ_mul]
        omega
      calc
        n < (start * base + d + 1) * base ^ text.length := digits
        _ ≤ (start + 1) * base * base ^ text.length := Nat.mul_le_mul_right _ bound
        _ = (start + 1) * base ^ (text.length + 1) := by
          rw [Nat.mul_assoc, Nat.pow_succ, Nat.mul_comm base]

theorem value_lt (small : ∀ ch d, digit ch = some d → d < base) {text : List α} {n : Nat}
    (number : value base digit text = some n) : n < base ^ text.length := by
  have bound := valueFrom_lt small number
  rwa [Nat.zero_add, Nat.one_mul] at bound

end NgxFormal.Lib.Digits

/-! Texts of fields with a separator between them: splitting and joining. -/

namespace NgxFormal.Lib.Fields

variable {α : Type} [DecidableEq α]

/-- The fields of `text`, the first of which begins with `field`. -/
def fieldsFrom (sep : α) (field : List α) : List α → List (List α)
  | [] => [field]
  | ch :: text =>
    if ch = sep then field :: fieldsFrom sep [] text else fieldsFrom sep (field ++ [ch]) text

/-- The fields between the separators; there is always one. -/
def fields (sep : α) (text : List α) : List (List α) := fieldsFrom sep [] text

/-- The fields with a separator between them. -/
def join (sep : α) : List (List α) → List α
  | [] => []
  | [field] => field
  | field :: rest => field ++ sep :: join sep rest

variable {sep : α} {field text : List α} {parts : List (List α)}

theorem fieldsFrom_ne_nil : fieldsFrom sep field text ≠ [] := by
  induction text generalizing field with
  | nil => exact List.cons_ne_nil _ _
  | cons ch text ih =>
    rw [fieldsFrom]
    split
    · exact List.cons_ne_nil _ _
    · exact ih

theorem fields_ne_nil : fields sep text ≠ [] := fieldsFrom_ne_nil

theorem fieldsFrom_plain (plain : sep ∉ text) : fieldsFrom sep field text = [field ++ text] := by
  induction text generalizing field with
  | nil => rw [fieldsFrom, List.append_nil]
  | cons ch text ih =>
    obtain ⟨first, rest⟩ := not_or.mp (fun both => plain (List.mem_cons.mpr both))
    rw [fieldsFrom, if_neg (Ne.symm first), ih rest, List.append_assoc, List.singleton_append]

theorem fieldsFrom_sep (plain : sep ∉ text) (rest : List α) :
    fieldsFrom sep field (text ++ sep :: rest) = (field ++ text) :: fields sep rest := by
  induction text generalizing field with
  | nil => rw [List.nil_append, fieldsFrom, if_pos rfl, List.append_nil, fields]
  | cons ch text ih =>
    obtain ⟨first, others⟩ := not_or.mp (fun both => plain (List.mem_cons.mpr both))
    rw [List.cons_append, fieldsFrom, if_neg (Ne.symm first), ih others, List.append_assoc,
      List.singleton_append]

theorem fields_plain (plain : sep ∉ text) : fields sep text = [text] := by
  rw [fields, fieldsFrom_plain plain, List.nil_append]

theorem fields_append (plain : sep ∉ text) (rest : List α) :
    fields sep (text ++ sep :: rest) = text :: fields sep rest := by
  rw [fields, fieldsFrom_sep plain, List.nil_append]

theorem fields_cons_sep (rest : List α) : fields sep (sep :: rest) = [] :: fields sep rest := by
  rw [fields, fieldsFrom, if_pos rfl, fields]

theorem fieldsFrom_head (sep : α) (field text : List α) :
    ∃ more rest, fieldsFrom sep field text = (field ++ more) :: rest := by
  induction text generalizing field with
  | nil => exact ⟨[], [], by rw [fieldsFrom, List.append_nil]⟩
  | cons ch text ih =>
    rw [fieldsFrom]
    split
    · exact ⟨[], _, by rw [List.append_nil]⟩
    · obtain ⟨more, rest, head⟩ := ih (field ++ [ch])
      exact ⟨ch :: more, rest, by rw [head, List.append_assoc, List.singleton_append]⟩

theorem fields_behind (first rest : List α) :
    ∃ front, fields sep (first ++ sep :: rest) = front ++ fields sep rest := by
  have all (field : List α) :
      ∃ front, fieldsFrom sep field (first ++ sep :: rest) = front ++ fields sep rest := by
    induction first generalizing field with
    | nil => exact ⟨[field], by rw [List.nil_append, fieldsFrom, if_pos rfl]; rfl⟩
    | cons ch first ih =>
      rw [List.cons_append, fieldsFrom]
      split
      · obtain ⟨front, same⟩ := ih []
        exact ⟨field :: front, by rw [same]; rfl⟩
      · exact ih (field ++ [ch])
  exact all []

theorem fields_behind_last (first rest : List α) :
    (fields sep (first ++ sep :: rest)).getLast? = (fields sep rest).getLast? := by
  obtain ⟨front, same⟩ : ∃ front, fields sep (first ++ sep :: rest) = front ++ fields sep rest :=
    fields_behind first rest
  rw [same, List.getLast?_append_of_ne_nil front fields_ne_nil]

omit [DecidableEq α] in
theorem join_cons_cons (field next : List α) (rest : List (List α)) :
    join sep (field :: next :: rest) = field ++ sep :: join sep (next :: rest) := rfl

omit [DecidableEq α] in
theorem join_cons {rest : List (List α)} (more : rest ≠ []) :
    join sep (field :: rest) = field ++ sep :: join sep rest := by
  cases rest with
  | nil => exact absurd rfl more
  | cons next rest => rfl

omit [DecidableEq α] in
theorem join_append {left right : List (List α)} (first : left ≠ []) (more : right ≠ []) :
    join sep (left ++ right) = join sep left ++ sep :: join sep right := by
  induction left with
  | nil => exact absurd rfl first
  | cons field left ih =>
    rw [List.cons_append]
    by_cases last : left = []
    · rw [last, List.nil_append, join_cons more]
      rfl
    · rw [join_cons (List.append_ne_nil_of_left_ne_nil last right), join_cons last, ih last,
        List.append_assoc]
      rfl

omit [DecidableEq α] in
theorem not_mem_join {ch : α} (other : ch ≠ sep) (absent : ∀ part ∈ parts, ch ∉ part) :
    ch ∉ join sep parts := by
  induction parts with
  | nil => exact List.not_mem_nil
  | cons part parts ih =>
    obtain ⟨first, rest⟩ := List.forall_mem_cons.mp absent
    by_cases last : parts = []
    · rw [last]
      exact first
    · rw [join_cons last, List.mem_append, List.mem_cons, not_or, not_or]
      exact ⟨first, other, ih rest⟩

theorem fields_join (some_ : parts ≠ []) (plain : ∀ part ∈ parts, sep ∉ part) :
    fields sep (join sep parts) = parts := by
  induction parts with
  | nil => exact absurd rfl some_
  | cons part parts ih =>
    obtain ⟨first, rest⟩ := List.forall_mem_cons.mp plain
    cases parts with
    | nil => exact fields_plain first
    | cons next parts =>
      rw [join_cons_cons, fields_append first, ih (List.cons_ne_nil _ _) rest]

theorem join_fieldsFrom : join sep (fieldsFrom sep field text) = field ++ text := by
  induction text generalizing field with
  | nil => rw [fieldsFrom, join, List.append_nil]
  | cons ch text ih =>
    rw [fieldsFrom]
    split
    · rename_i same
      rw [join_cons fieldsFrom_ne_nil, ih, same]
      rfl
    · rw [ih, List.append_assoc, List.singleton_append]

theorem join_fields (sep : α) (text : List α) : join sep (fields sep text) = text :=
  join_fieldsFrom

end NgxFormal.Lib.Fields

/-! Output into a buffer with room for a number of elements: a writer is clipped if with less room
it writes the same elements up to the end of the room. Clipped writers compose. -/

namespace NgxFormal.Lib.Clip

variable {α : Type} {f g : Nat → List α → List α}

/-- `f room out` is what stands in the buffer behind the writer, where `out` stood before it. -/
structure Clipped (f : Nat → List α → List α) : Prop where
  take : ∀ {less room out}, less ≤ room → out.length ≤ room →
    f less (out.take less) = (f room out).take less
  extends_ : ∀ {room out}, out.length ≤ room → out <+: f room out
  bounded : ∀ {room out}, out.length ≤ room → (f room out).length ≤ room

/-- As much of `text` as there is room for. -/
def clip (text : List α) (room : Nat) (out : List α) : List α :=
  out ++ text.take (room - out.length)

theorem clip_take (text : List α) {less room : Nat} {out : List α} (le : less ≤ room) :
    clip text less (out.take less) = (clip text room out).take less := by
  rw [clip, clip, List.take_append, List.length_take, List.take_take]
  congr 2
  omega

theorem clip_length (text : List α) {room : Nat} {out : List α} (fits : out.length ≤ room) :
    (clip text room out).length ≤ room := by
  rw [clip, List.length_append, List.length_take]
  omega

theorem clipped_clip (text : List α) : Clipped (clip text) where
  take le _ := clip_take text le
  extends_ _ := List.prefix_append _ _
  bounded fits := clip_length text fits

theorem clipped_stream {stream : Nat → List α}
    (short : ∀ n, (stream n).length ≤ n)
    (coherent : ∀ {m n}, m ≤ n → (stream n).take m = stream m) :
    Clipped fun room out => out ++ stream (room - out.length) where
  take {less room out} le fits := by
    by_cases inside : out.length ≤ less
    · rw [List.take_of_length_le inside, List.take_append, List.take_of_length_le inside,
        coherent (Nat.sub_le_sub_right le _)]
    · have full : less - (out.take less).length = 0 := by
        rw [List.length_take]
        omega
      have nothing : stream 0 = [] := List.length_eq_zero_iff.mp (Nat.le_zero.mp (short 0))
      rw [full, nothing, List.append_nil, List.take_append_of_le_length (by omega)]
  extends_ _ := List.prefix_append _ _
  bounded {room out} fits := by
    have limit := short (room - out.length)
    rw [List.length_append]
    omega

theorem Clipped.comp (first : Clipped f) (second : Clipped g) :
    Clipped fun room out => g room (f room out) where
  take le fits := by
    rw [first.take le fits, second.take le (first.bounded fits)]
  extends_ fits := (first.extends_ fits).trans (second.extends_ (first.bounded fits))
  bounded fits := second.bounded (first.bounded fits)

theorem Clipped.take_room (clipped : Clipped f) {less room : Nat} {out : List α}
    (le : less ≤ room) (fits : out.length ≤ less) : f less out = (f room out).take less := by
  calc
    f less out = f less (out.take less) := by rw [List.take_of_length_le fits]
    _ = (f room out).take less := clipped.take le (Nat.le_trans fits le)

end NgxFormal.Lib.Clip
