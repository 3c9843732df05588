import Mathlib.Data.List.TakeWhile
import NgxFormal.Core.Inet6

/-! The texts of addresses, and how far the texts that the code reads differ from them. -/

namespace NgxFormal.Core.Inet

open NgxFormal.Core.Atoi (hexDigit decimalDigit)
open NgxFormal.Lib.Digits NgxFormal.Lib.Fields

/-- A decimal octet. -/
def octet (field : List UInt8) : Option Nat :=
  if field = [] then none
  else (value 10 decimalDigit field).bind fun n => if n < 256 then some n else none

def ipv4 (text : List UInt8) : Option (List Nat) :=
  ((fields (chr '.') text).mapM octet).bind fun octets =>
    if octets.length = 4 then some octets else none

/-- The two groups that an IPv4 address stands for. -/
def quadGroups (text : List UInt8) : Option (List Nat) :=
  match ipv4 text with
  | some [a, b, c, d] => some [a * 256 + b, c * 256 + d]
  | _ => none

/-- Hexadecimal groups, of which the last two may be written as an IPv4 address. -/
def groupsText : List (List UInt8) → Option (List Nat)
  | [] => some []
  | [last] =>
    match hexField last with
    | some word => some [word]
    | none => quadGroups last
  | field :: rest => (hexField field).bind fun word => (groupsText rest).map (word :: ·)

/-- The text of an IPv6 address: eight groups, or at most seven around `::`. -/
inductive Ipv6 : List UInt8 → List Nat → Prop where
  | full {parts : List (List UInt8)} {words : List Nat} (groups : groupsText parts = some words)
      (eight : words.length = 8) : Ipv6 (join (chr ':') parts) words
  | gap {left right : List (List UInt8)} {front back : List Nat}
      (before : left.mapM hexField = some front) (behind : groupsText right = some back)
      (room : front.length + back.length ≤ 7) :
      Ipv6 (join (chr ':') left ++ chr ':' :: chr ':' :: join (chr ':') right)
        (front ++ List.replicate (8 - (front.length + back.length)) 0 ++ back)

/-! ### Octets -/

/-- No octet is missing, and none has more than 64 bits. -/
def PlainOctets (text : List UInt8) : Prop :=
  ∀ field ∈ fields (chr '.') text,
    field ≠ [] ∧ ∀ n, value 10 decimalDigit field = some n → n < 2 ^ 64

theorem octet_eq {field : List UInt8}
    (plain : field ≠ [] ∧ ∀ n, value 10 decimalDigit field = some n → n < 2 ^ 64) :
    looseOctet field = octet field := by
  rw [looseOctet, octet, if_neg plain.1]
  cases number : value 10 decimalDigit field with
  | none => rfl
  | some n => rw [Option.bind_some, Option.bind_some, Nat.mod_eq_of_lt (plain.2 n number)]

theorem octet_plain {field : List UInt8} {o : Nat} (read : octet field = some o) :
    field ≠ [] ∧ ∀ n, value 10 decimalDigit field = some n → n < 2 ^ 64 := by
  rw [octet] at read
  split at read
  · exact absurd read (by simp)
  · rename_i some_
    refine ⟨some_, fun n number => ?_⟩
    rw [number, Option.bind_some] at read
    split at read
    · omega
    · exact absurd read (by simp)

theorem mapM_congr {f g : List UInt8 → Option Nat} {parts : List (List UInt8)}
    (same : ∀ part ∈ parts, f part = g part) : parts.mapM f = parts.mapM g := by
  induction parts with
  | nil => rfl
  | cons part parts ih =>
    obtain ⟨first, rest⟩ := List.forall_mem_cons.mp same
    rw [List.mapM_cons, List.mapM_cons, first, ih rest]

theorem mapM_cons_some {f : List UInt8 → Option Nat} {part : List UInt8}
    {parts : List (List UInt8)} {values : List Nat} :
    (part :: parts).mapM f = some values ↔
      ∃ v vs, f part = some v ∧ parts.mapM f = some vs ∧ values = v :: vs := by
  rw [List.mapM_cons]
  constructor
  · intro read
    obtain ⟨v, first, more⟩ := Option.bind_eq_some_iff.mp read
    obtain ⟨vs, rest, same⟩ := Option.bind_eq_some_iff.mp more
    exact ⟨v, vs, first, rest, (Option.some.inj same).symm⟩
  · rintro ⟨v, vs, first, rest, rfl⟩
    rw [first, rest]
    rfl

theorem mapM_some {f : List UInt8 → Option Nat} {parts : List (List UInt8)} {values : List Nat}
    (read : parts.mapM f = some values) : ∀ part ∈ parts, ∃ v, f part = some v := by
  induction parts generalizing values with
  | nil => exact fun part member => absurd member List.not_mem_nil
  | cons part parts ih =>
    obtain ⟨v, vs, first, rest, _⟩ := mapM_cons_some.mp read
    exact List.forall_mem_cons.mpr ⟨⟨v, first⟩, ih rest⟩

theorem ipv4_eq {text : List UInt8} (plain : PlainOctets text) : looseOctets text = ipv4 text := by
  rw [looseOctets, ipv4, mapM_congr fun part member => octet_eq (plain part member)]

theorem ipv4_plain {text : List UInt8} {octets : List Nat} (read : ipv4 text = some octets) :
    PlainOctets text := by
  obtain ⟨values, all, _⟩ := Option.bind_eq_some_iff.mp read
  intro field member
  obtain ⟨v, one⟩ := mapM_some all field member
  exact octet_plain one

theorem mapM_small {parts : List (List UInt8)} {octets : List Nat}
    (read : parts.mapM looseOctet = some octets) : ∀ o ∈ octets, o < 256 := by
  induction parts generalizing octets with
  | nil =>
    rw [← Option.some.inj read]
    exact fun o member => absurd member List.not_mem_nil
  | cons part parts ih =>
    obtain ⟨v, vs, first, rest, rfl⟩ := mapM_cons_some.mp read
    exact List.forall_mem_cons.mpr ⟨looseOctet_small first, ih rest⟩

theorem looseOctets_four {text : List UInt8} {octets : List Nat}
    (read : looseOctets text = some octets) :
    ∃ a b c d, octets = [a, b, c, d] ∧ a < 256 ∧ b < 256 ∧ c < 256 ∧ d < 256 := by
  obtain ⟨values, all, four⟩ := Option.bind_eq_some_iff.mp read
  have small := mapM_small all
  split at four
  · rename_i length
    rw [← Option.some.inj four]
    obtain ⟨a, b, c, d, rfl⟩ := List.length_eq_four.mp length
    simp only [List.forall_mem_cons] at small
    exact ⟨a, b, c, d, rfl, small.1, small.2.1, small.2.2.1, small.2.2.2.1⟩
  · exact absurd four (by simp)

theorem quadGroups_dotted {field : List UInt8} {words : List Nat} (plain : PlainOctets field)
    (read : dottedField field = some words) : quadGroups field = some words := by
  rw [dottedField] at read
  split at read
  · exact absurd read (by simp)
  · obtain ⟨octets, four, result⟩ := Option.bind_eq_some_iff.mp read
    obtain ⟨a, b, c, d, rfl, first, second, third, last⟩ := looseOctets_four four
    rw [ipv4_eq plain] at four
    rw [quadGroups, four]
    split at result
    · exact absurd result (by simp)
    · rw [← result, address_toNat first second third last]
      have high : ((a * 256 + b) * 65536 + (c * 256 + d)) / 65536 = a * 256 + b := by omega
      have low : ((a * 256 + b) * 65536 + (c * 256 + d)) % 65536 = c * 256 + d := by omega
      rw [high, low]

theorem quadGroups_plain {field : List UInt8} {words : List Nat}
    (read : quadGroups field = some words) : PlainOctets field := by
  rw [quadGroups] at read
  cases four : ipv4 field with
  | none =>
    rw [four] at read
    exact absurd read (by simp)
  | some octets => exact ipv4_plain four

/-! ### From the fields to the grammar -/

/-- A dotted field at the end has plain octets. -/
def PlainLast (parts : List (List UInt8)) : Prop :=
  ∀ last ∈ parts.getLast?, chr '.' ∈ last → PlainOctets last

theorem groupsText_cons {field : List UInt8} {rest : List (List UInt8)} (more : rest ≠ []) :
    groupsText (field :: rest) =
      (hexField field).bind fun word => (groupsText rest).map (word :: ·) := by
  cases rest with
  | nil => exact absurd rfl more
  | cons next rest => rw [groupsText]; exact List.cons_ne_nil _ _

theorem plainLast_cons {field : List UInt8} {rest : List (List UInt8)} (more : rest ≠ [])
    (plain : PlainLast (field :: rest)) : PlainLast rest := by
  intro last member
  apply plain last
  rwa [List.getLast?_cons_of_ne_nil more]

theorem dottedField_dot {field : List UInt8} {words : List Nat}
    (noHex : hexField field = none) (read : dottedField field = some words) : chr '.' ∈ field := by
  by_contra plain
  have front : field.takeWhile (· ≠ chr '.') = field := by
    rw [List.takeWhile_eq_self_iff]
    intro ch member
    apply decide_eq_true
    intro same
    rw [same] at member
    exact plain member
  rw [dottedField, front, if_pos noHex] at read
  exact absurd read (by simp)

theorem read_last {groups : List Nat} {gap : Option Nat} {seen : Bool} {field : List UInt8}
    {shape : Shape} (some_ : field ≠ []) (plain : PlainLast [field])
    (read : readFields groups gap seen [field] = some shape) :
    ∃ words, groupsText [field] = some words ∧ shape = ⟨groups ++ words, gap⟩ := by
  rw [readFields, if_neg some_] at read
  rw [groupsText]
  cases known : hexField field with
  | some word =>
    rw [known] at read
    exact ⟨[word], rfl, (Option.some.inj read).symm⟩
  | none =>
    rw [known] at read
    simp only at read ⊢
    split at read
    · obtain ⟨words, dotted, same⟩ := Option.map_eq_some_iff.mp read
      have octets := plain field (by simp) (dottedField_dot known dotted)
      exact ⟨words, quadGroups_dotted octets dotted, same.symm⟩
    · exact absurd read (by simp)

theorem read_behind {groups : List Nat} {g : Nat} {seen : Bool} {parts : List (List UInt8)}
    {shape : Shape} (plain : PlainLast parts)
    (read : readFields groups (some g) seen parts = some shape) :
    shape.gap = some g ∧
      ((∃ words, groupsText parts = some words ∧ shape.groups = groups ++ words) ∨
        ∃ init words, parts = init ++ [[]] ∧ init.mapM hexField = some words ∧
          shape.groups = groups ++ words ++ [0]) := by
  induction parts generalizing groups seen with
  | nil => exact absurd read (by simp [readFields])
  | cons field rest ih =>
    by_cases last : rest = []
    · subst last
      by_cases empty : field = []
      · subst empty
        rw [readFields, if_pos rfl, if_neg (by simp)] at read
        rw [← Option.some.inj read]
        exact ⟨rfl, Or.inr ⟨[], [], rfl, rfl, by rw [List.append_nil]⟩⟩
      · obtain ⟨words, grammar, rfl⟩ := read_last empty plain read
        exact ⟨rfl, Or.inl ⟨words, grammar, rfl⟩⟩
    · rw [readFields_cons last] at read
      split at read
      · exact absurd read (by simp)
      · obtain ⟨word, hex, more⟩ := Option.bind_eq_some_iff.mp read
        obtain ⟨gap, found⟩ := ih (plainLast_cons last plain) more
        refine ⟨gap, ?_⟩
        rcases found with ⟨words, grammar, same⟩ | ⟨init, words, ended, all, same⟩
        · refine Or.inl ⟨word :: words, ?_, ?_⟩
          · rw [groupsText_cons last, hex, grammar]
            rfl
          · rw [same, List.append_assoc, List.singleton_append]
        · refine Or.inr ⟨field :: init, word :: words, ?_, ?_, ?_⟩
          · rw [ended, List.cons_append]
          · exact mapM_cons_some.mpr ⟨word, words, hex, all, rfl⟩
          · rw [same, List.append_assoc groups, List.singleton_append]

theorem read_before {groups : List Nat} {seen : Bool} {parts : List (List UInt8)} {shape : Shape}
    (plain : PlainLast parts) (read : readFields groups none seen parts = some shape) :
    (shape.gap = none ∧ ∃ words, groupsText parts = some words ∧
      shape.groups = groups ++ words) ∨
    ∃ left right front, parts = left ++ [] :: right ∧ right ≠ [] ∧
      left.mapM hexField = some front ∧
      readFields (groups ++ front) (some (groups ++ front).length) true right = some shape := by
  induction parts generalizing groups seen with
  | nil => exact absurd read (by simp [readFields])
  | cons field rest ih =>
    by_cases last : rest = []
    · subst last
      by_cases empty : field = []
      · subst empty
        rw [readFields, if_pos rfl, if_pos rfl] at read
        exact absurd read (by simp)
      · obtain ⟨words, grammar, rfl⟩ := read_last empty plain read
        exact Or.inl ⟨rfl, words, grammar, rfl⟩
    · rw [readFields_cons last] at read
      split at read
      · rename_i empty
        rw [if_pos rfl] at read
        refine Or.inr ⟨[], rest, [], ?_, last, rfl, ?_⟩
        · rw [empty, List.nil_append]
        · rwa [List.append_nil]
      · obtain ⟨word, hex, more⟩ := Option.bind_eq_some_iff.mp read
        rcases ih (plainLast_cons last plain) more with
          ⟨gap, words, grammar, same⟩ | ⟨left, right, front, split_, some_, all, behind⟩
        · refine Or.inl ⟨gap, word :: words, ?_, ?_⟩
          · rw [groupsText_cons last, hex, grammar]
            rfl
          · rw [same, List.append_assoc, List.singleton_append]
        · refine Or.inr ⟨field :: left, right, word :: front, ?_, some_, ?_, ?_⟩
          · rw [split_, List.cons_append]
          · exact mapM_cons_some.mpr ⟨word, front, hex, all, rfl⟩
          · rwa [List.append_assoc, List.singleton_append] at behind

/-! ### Texts -/

/-- A colon at the start or at the end is one of a pair. -/
structure PairedColons (text : List UInt8) : Prop where
  first : ∀ rest, text = chr ':' :: rest → peek rest = chr ':'
  last : ∀ front, text = front ++ [chr ':'] → front.getLast? = some (chr ':')

/-- The field is not empty and has no colon in it. -/
def Solid (field : List UInt8) : Prop := field ≠ [] ∧ chr ':' ∉ field

theorem hexField_solid {field : List UInt8} {word : Nat} (read : hexField field = some word) :
    Solid field := by
  constructor
  · intro empty
    rw [empty] at read
    exact absurd read (by simp [hexField])
  · intro member
    rw [hexField_bad member (by decide)] at read
    exact absurd read (by simp)

theorem octet_digits {field : List UInt8} {o : Nat} (read : octet field = some o) {ch : UInt8}
    (member : ch ∈ field) : isDigit ch = true := by
  by_contra letter
  have bad : decimalDigit ch = none := if_neg letter
  rw [octet] at read
  split at read
  · exact absurd read (by simp)
  · rw [value, valueFrom_bad member bad] at read
    exact absurd read (by simp)

theorem ipv4_solid {text : List UInt8} {octets : List Nat} (read : ipv4 text = some octets) :
    Solid text := by
  obtain ⟨values, all, _⟩ := Option.bind_eq_some_iff.mp read
  constructor
  · intro empty
    rw [empty] at all
    exact absurd all (by simp [fields, fieldsFrom, octet])
  · intro member
    rw [← join_fields (chr '.') text] at member
    have digits : ∀ field ∈ fields (chr '.') text, chr ':' ∉ field := by
      intro field inside colon
      obtain ⟨o, one⟩ := mapM_some all field inside
      exact absurd (octet_digits one colon) (by decide)
    exact not_mem_join (by decide) digits member

theorem groupsText_solid {parts : List (List UInt8)} {words : List Nat}
    (read : groupsText parts = some words) : ∀ part ∈ parts, Solid part := by
  induction parts generalizing words with
  | nil => exact fun part member => absurd member List.not_mem_nil
  | cons field rest ih =>
    by_cases last : rest = []
    · subst last
      rw [List.forall_mem_singleton]
      rw [groupsText] at read
      cases known : hexField field with
      | some word => exact hexField_solid known
      | none =>
        rw [known] at read
        simp only [quadGroups] at read
        cases four : ipv4 field with
        | none =>
          rw [four] at read
          exact absurd read (by simp)
        | some octets => exact ipv4_solid four
    · rw [groupsText_cons last] at read
      obtain ⟨word, hex, more⟩ := Option.bind_eq_some_iff.mp read
      obtain ⟨words, behind, _⟩ := Option.map_eq_some_iff.mp more
      exact List.forall_mem_cons.mpr ⟨hexField_solid hex, ih behind⟩

theorem mapM_solid {parts : List (List UInt8)} {words : List Nat}
    (read : parts.mapM hexField = some words) : ∀ part ∈ parts, Solid part := by
  intro part member
  obtain ⟨word, hex⟩ := mapM_some read part member
  exact hexField_solid hex

theorem solid_peek {field : List UInt8} (solid : Solid field) (rest : List UInt8) :
    peek (field ++ rest) ≠ chr ':' := by
  obtain ⟨ch, text, rfl⟩ := List.exists_cons_of_ne_nil solid.1
  intro same
  exact solid.2 (List.mem_cons.mpr (Or.inl same.symm))

theorem join_peek {parts : List (List UInt8)} (some_ : parts ≠ [])
    (solid : ∀ part ∈ parts, Solid part) (rest : List UInt8) :
    peek (join (chr ':') parts ++ rest) ≠ chr ':' := by
  obtain ⟨part, parts, rfl⟩ := List.exists_cons_of_ne_nil some_
  have first := (List.forall_mem_cons.mp solid).1
  by_cases last : parts = []
  · rw [last]
    exact solid_peek first rest
  · rw [join_cons last, List.append_assoc]
    exact solid_peek first _

theorem join_last {parts : List (List UInt8)} (some_ : parts ≠ [])
    (solid : ∀ part ∈ parts, Solid part) (front : List UInt8) :
    ∃ ch, (front ++ join (chr ':') parts).getLast? = some ch ∧ ch ≠ chr ':' := by
  induction parts generalizing front with
  | nil => exact absurd rfl some_
  | cons part parts ih =>
    obtain ⟨first, others⟩ := List.forall_mem_cons.mp solid
    by_cases last : parts = []
    · rw [last, join, List.getLast?_append_of_ne_nil front first.1]
      refine ⟨part.getLast first.1, List.getLast?_eq_getLast_of_ne_nil first.1, ?_⟩
      intro colon
      exact first.2 (colon ▸ List.getLast_mem first.1)
    · rw [join_cons last]
      have behind := ih last others (front ++ (part ++ [chr ':']))
      simpa using behind

theorem peek_colon {text : List UInt8} (colon : peek text = chr ':') :
    ∃ rest, text = chr ':' :: rest := by
  cases text with
  | nil => exact absurd colon (by decide)
  | cons ch rest => exact ⟨rest, congrArg (· :: rest) colon⟩

theorem gap_text_eq {text : List UInt8} {left right : List (List UInt8)} {front : List Nat}
    (paired : PairedColons text) (some_ : right ≠ []) (hex : left.mapM hexField = some front)
    (parts : fields (chr ':') (dropColon text) = left ++ [] :: right) :
    text = join (chr ':') left ++ chr ':' :: chr ':' :: join (chr ':') right := by
  have joined := join_fields (chr ':') (dropColon text)
  rw [parts] at joined
  by_cases colon : peek text = chr ':'
  · obtain ⟨rest, rfl⟩ := peek_colon colon
    obtain ⟨behind, rfl⟩ := peek_colon (paired.first rest rfl)
    have dropped : dropColon (chr ':' :: chr ':' :: behind) = chr ':' :: behind := rfl
    rw [dropped] at joined parts
    rw [fields_cons_sep] at parts
    have empty : left = [] := by
      cases left with
      | nil => rfl
      | cons field left =>
        have first := (List.forall_mem_cons.mp (mapM_solid hex)).1
        exact absurd (List.cons.inj parts).1.symm first.1
    rw [empty, List.nil_append, join_cons some_] at joined
    rw [empty, ← joined]
    rfl
  · have whole : dropColon text = text := if_neg colon
    have filled : left ≠ [] := by
      intro empty
      rw [whole, empty, List.nil_append, join_cons some_] at joined
      exact colon (by rw [← joined]; rfl)
    rw [join_append filled (List.cons_ne_nil _ _), join_cons some_, whole] at joined
    exact joined.symm

theorem words_gap {front back words : List Nat} {shape : Shape} (gap : shape.gap = some front.length)
    (groups : shape.groups = front ++ back) (ended : shape.words = some words) :
    front.length + back.length ≤ 7 ∧
      words = front ++ List.replicate (8 - (front.length + back.length)) 0 ++ back := by
  rw [Shape.words, gap, groups] at ended
  simp only [List.length_append, List.take_left, List.drop_left] at ended
  split at ended
  · exact ⟨by omega, (Option.some.inj ended).symm⟩
  · exact absurd ended (by simp)

/-- With paired colons and plain octets the code reads texts of addresses only. -/
theorem ipv6_of_loose {text : List UInt8} {words : List Nat} (paired : PairedColons text)
    (plain : PlainLast (fields (chr ':') text)) (read : looseInet6 text = some words) :
    Ipv6 text words := by
  rw [looseInet6] at read
  split at read
  · exact absurd read (by simp)
  · obtain ⟨shape, parts, ended⟩ := Option.bind_eq_some_iff.mp read
    have plainParts : PlainLast (fields (chr ':') (dropColon text)) := by
      by_cases colon : peek text = chr ':'
      · obtain ⟨rest, rfl⟩ := peek_colon colon
        rw [fields_cons_sep] at plain
        exact plainLast_cons fields_ne_nil plain
      · have whole : dropColon text = text := if_neg colon
        rwa [whole]
    rcases read_before plainParts parts with
      ⟨gap, groups, grammar, same⟩ | ⟨left, right, front, split_, some_, hex, behind⟩
    · have whole : dropColon text = text := by
        apply if_neg
        intro colon
        obtain ⟨rest, rfl⟩ := peek_colon colon
        obtain ⟨rest, rfl⟩ := peek_colon (paired.first rest rfl)
        have dropped : dropColon (chr ':' :: chr ':' :: rest) = chr ':' :: rest := rfl
        have solid := groupsText_solid grammar
        rw [dropped, fields_cons_sep] at solid
        exact (List.forall_mem_cons.mp solid).1.1 rfl
      rw [Shape.words, gap, same] at ended
      simp only [List.nil_append] at ended
      split at ended
      · rename_i eight
        rw [whole] at grammar
        rw [← Option.some.inj ended, ← join_fields (chr ':') text]
        exact Ipv6.full grammar eight
      · exact absurd ended (by simp)
    · rw [List.nil_append] at behind
      have text_ := gap_text_eq paired some_ hex split_
      have plainRight : PlainLast right := by
        intro last member
        apply plainParts last
        rwa [split_, List.getLast?_append_of_ne_nil left (List.cons_ne_nil _ _),
          List.getLast?_cons_of_ne_nil some_]
      obtain ⟨gap, found⟩ := read_behind plainRight behind
      rcases found with ⟨back, grammar, same⟩ | ⟨init, back, ended_, all, same⟩
      · obtain ⟨room, rfl⟩ := words_gap gap same ended
        rw [text_]
        exact Ipv6.gap hex grammar room
      · have empty : init = [] := by
          by_contra filled
          have tail : text = join (chr ':') left ++ [chr ':', chr ':'] ++ join (chr ':') init ++
              [chr ':'] := by
            rw [text_, ended_, join_append filled (List.cons_ne_nil _ _)]
            simp [join]
          obtain ⟨ch, last, other⟩ := join_last filled (mapM_solid all)
            (join (chr ':') left ++ [chr ':', chr ':'])
          rw [paired.last _ tail] at last
          exact other (Option.some.inj last).symm
        subst empty
        have none_ : back = [] := (Option.some.inj all).symm
        rw [none_, List.append_nil] at same
        obtain ⟨room, rfl⟩ := words_gap gap same ended
        have zeros : 8 - front.length = 8 - (front.length + 1) + 1 := by
          rw [List.length_singleton] at room
          omega
        have grammar := @Ipv6.gap _ [] _ [] hex rfl (by
          rw [List.length_nil]
          exact (Nat.le_succ _).trans room)
        rw [text_, ended_]
        rw [List.length_nil, Nat.add_zero, List.append_nil, zeros, List.replicate_succ',
          ← List.append_assoc] at grammar
        exact grammar

theorem groupsText_plain {parts : List (List UInt8)} {words : List Nat}
    (read : groupsText parts = some words) : PlainLast parts := by
  induction parts generalizing words with
  | nil => exact fun last member => absurd member (by simp)
  | cons field rest ih =>
    by_cases last : rest = []
    · subst last
      intro last member dot
      have same : last = field := by simpa using member.symm
      rw [same] at dot ⊢
      rw [groupsText, hexField_bad dot (by decide)] at read
      exact quadGroups_plain read
    · rw [groupsText_cons last] at read
      obtain ⟨word, hex, more⟩ := Option.bind_eq_some_iff.mp read
      obtain ⟨words, behind, _⟩ := Option.map_eq_some_iff.mp more
      intro field' member
      apply ih behind field'
      rwa [List.getLast?_cons_of_ne_nil last] at member

theorem fields_join_plain {parts : List (List UInt8)} {words : List Nat}
    (read : groupsText parts = some words) :
    PlainLast (fields (chr ':') (join (chr ':') parts)) := by
  by_cases empty : parts = []
  · rw [empty]
    intro last member dot
    have same : last = [] := by simpa [join, fields, fieldsFrom] using member.symm
    exact absurd (same ▸ dot) List.not_mem_nil
  · rw [fields_join empty fun part member => (groupsText_solid read part member).2]
    exact groupsText_plain read

theorem full_paired {parts : List (List UInt8)} (some_ : parts ≠ [])
    (solid : ∀ part ∈ parts, Solid part) : PairedColons (join (chr ':') parts) := by
  constructor
  · intro rest same
    have other := join_peek some_ solid []
    rw [List.append_nil, same] at other
    exact absurd rfl other
  · intro front same
    obtain ⟨ch, last, other⟩ := join_last some_ solid []
    rw [List.nil_append, same, List.getLast?_concat] at last
    exact absurd (Option.some.inj last).symm other

theorem gap_paired {left right : List (List UInt8)} (before : ∀ part ∈ left, Solid part)
    (behind : ∀ part ∈ right, Solid part) :
    PairedColons (join (chr ':') left ++ chr ':' :: chr ':' :: join (chr ':') right) := by
  constructor
  · intro rest same
    by_cases empty : left = []
    · rw [empty] at same
      rw [← (List.cons.inj same).2]
      rfl
    · have other := join_peek empty before (chr ':' :: chr ':' :: join (chr ':') right)
      rw [same] at other
      exact absurd rfl other
  · intro front same
    by_cases empty : right = []
    · have ended : join (chr ':') left ++ [chr ':'] ++ [chr ':'] = front ++ [chr ':'] := by
        rw [← same, empty, List.append_assoc]
        rfl
      rw [← List.append_cancel_right ended, List.getLast?_concat]
    · obtain ⟨ch, last, other⟩ := join_last empty behind (join (chr ':') left ++ [chr ':', chr ':'])
      rw [List.append_assoc, List.cons_append, List.cons_append, List.nil_append, same,
        List.getLast?_concat] at last
      exact absurd (Option.some.inj last).symm other

theorem ipv6_plain {text : List UInt8} {words : List Nat} (grammar : Ipv6 text words) :
    PairedColons text ∧ PlainLast (fields (chr ':') text) := by
  cases grammar with
  | full groups eight =>
    rename_i parts
    have some_ : parts ≠ [] := by
      intro empty
      rw [empty] at groups
      rw [← Option.some.inj groups] at eight
      exact absurd eight (by decide)
    exact ⟨full_paired some_ (groupsText_solid groups), fields_join_plain groups⟩
  | gap before behind room =>
    rename_i left right front back
    refine ⟨gap_paired (mapM_solid before) (groupsText_solid behind), ?_⟩
    intro last member
    apply fields_join_plain behind last
    have again : join (chr ':') left ++ chr ':' :: chr ':' :: join (chr ':') right =
        (join (chr ':') left ++ [chr ':']) ++ chr ':' :: join (chr ':') right := by simp
    rwa [again, fields_behind_last] at member

/-- A text that is read as an IPv6 address is none of version 4. -/
theorem looseInet6_not_ipv4 {text : List UInt8} {words : List Nat}
    (read : looseInet6 text = some words) : ngxInetAddr text = INADDR_NONE := by
  by_cases colon : chr ':' ∈ text
  · exact inetLoop_bad (c := chr ':') colon (by decide) (by decide) 0 0 0
  · have whole : dropColon text = text := by
      apply if_neg
      intro first
      obtain ⟨rest, rfl⟩ := peek_colon first
      exact colon List.mem_cons_self
    rw [looseInet6] at read
    split at read
    · exact absurd read (by simp)
    · rename_i some_
      rw [whole, fields_plain colon, readFields, if_neg some_] at read
      cases known : hexField text with
      | none =>
        rw [known] at read
        exact absurd read (by simp)
      | some word =>
        rw [known] at read
        exact absurd read (by simp [Shape.words])

end NgxFormal.Core.Inet
